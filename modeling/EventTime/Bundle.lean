import EventTime.Fault

/-!
# Bundles

A bundle is one partition handled by one stage. It deals out shard numbers round-robin from a seed;
the counter behind them is a 32-bit word and wraps.
-/

namespace EventTime

/-- The position of a bundle among those of its stage, and its shard counter. -/
structure Bundle where
  index : Nat
  counter : UInt32
  deriving DecidableEq, Repr

namespace Bundle

/-- The shard that comes next among `fanout` shards. -/
def shard (b : Bundle) (fanout : UInt32) : UInt32 := b.counter % fanout

def next (b : Bundle) : Bundle := ⟨b.index, b.counter + 1⟩

/-- Deal one shard number below `fanout`. -/
def nextShard (b : Bundle) (fanout : UInt32) : Except Fault (UInt32 × Bundle) :=
  if fanout = 0 then .error .divisionByZero else .ok (b.shard fanout, b.next)

/-- Deal one shard number for each fanout in turn. -/
def shards : Bundle → List UInt32 → Except Fault (List UInt32)
  | _, [] => .ok []
  | b, n :: rest => do
    let (shard, b) ← b.nextShard n
    return shard :: (← b.shards rest)

end Bundle

end EventTime
