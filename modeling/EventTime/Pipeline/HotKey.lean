import EventTime.Pipeline.PerKey

/-!
# Combining keys that have many values

The values of a hot key are spread over shards, round-robin within each bundle, and combined shard
by shard; the accumulators travel on as bytes. Values of other keys travel as encoded inputs. A
second combine folds inputs and accumulators of a key together. The first combine always discards
fired panes, for accumulating there would fold elements twice.

Combine functions cannot fail, so a coder's failure travels next to the key, and the stage after the
combine raises it.
-/

namespace EventTime

variable {κ ν ο α : Type}

/-- Spread an element of a hot key; a key with a fanout of zero or one is not hot. -/
def tagShard (fanout : κ → UInt32) (b : Bundle) (e : Envelope (κ × ν)) :
    Envelope (Shard κ ν) × Bundle :=
  let (key, value) := e.value
  let n := fanout key
  if 1 < n then (e.withValue (.hot key (b.shard n) value), b.next)
  else (e.withValue (.cold key value), b)

/-- The value of a hot key, under the key and the shard. -/
def Shard.hot? : Shard κ ν → List ((κ × UInt32) × ν)
  | .hot key shard value => [((key, shard), value)]
  | .cold _ _ => []

/-- The value of any other key, encoded as an input. -/
def coldBytes (coder : Coder (InputOrAccum ν α)) (e : Envelope (Shard κ ν)) :
    Except Fault (List (Envelope (κ × Bytes))) :=
  match e.value with
  | .hot _ _ _ => .ok []
  | .cold key value =>
    match coder.encode (.input value) with
    | .ok bytes => .ok [e.withValue (key, bytes)]
    | .error cause => .error (.coder cause)

/-- A result of a coder, with a failure as text. -/
def staged {β : Type} : Except CoderError β → Except String β
  | .ok a => .ok a
  | .error cause => .error cause.message

/-- Combine the values of one shard, and encode the accumulator. -/
def preCombine (f : KeyedCombineFn κ ν α ο) (coder : Coder (InputOrAccum ν α))
    (accumCoder : Coder α) : KeyedCombineFn (κ × UInt32) ν α (Except String Bytes) where
  create key := f.create key.1
  add key := f.add key.1
  merge key := f.merge key.1
  extract _ acc := staged (coder.encode (.accum acc))
  accumulatorCoder _ _ := .ok accumCoder

/-- Fold an encoded input or accumulator into what the key has so far. The first one that cannot be
decoded spoils the key. -/
def foldStaged (f : KeyedCombineFn κ ν α ο) (coder : Coder (InputOrAccum ν α)) (key : κ)
    (acc : Except String α) (bytes : Bytes) : Except String α :=
  match acc with
  | .error text => .error text
  | .ok a =>
    match coder.decodeFront bytes with
    | .ok (.input value) => .ok (f.add key a value)
    | .ok (.accum part) => .ok (f.merge key [a, part])
    | .error cause => .error cause.message

/-- Combine the encoded inputs and accumulators of one key. -/
def postCombine (f : KeyedCombineFn κ ν α ο) (coder : Coder (InputOrAccum ν α))
    (accumCoder : Coder α) : KeyedCombineFn κ Bytes (Except String α) (Except String ο) where
  create key := .ok (f.create key)
  add := foldStaged f coder
  merge key accs := (accs.mapM id).map (f.merge key)
  extract key acc := acc.map (f.extract key)
  accumulatorCoder _ _ := .ok accumCoder.staged

/-- Raise a failure that travelled next to a key. -/
def raiseStaged {β : Type} (activity : String) (e : Envelope (κ × Except String β)) :
    Except Fault (Envelope (κ × β)) :=
  match e.value.2 with
  | .ok a => .ok (e.withValue (e.value.1, a))
  | .error text => .error (.during activity (.custom text))

namespace Collection

variable {k v o : ElemType}

/-- Combine by key in two steps, where `fanout` says over how many shards a key is spread. -/
def combineHotKeys [DecidableEq k.Elem] (c : Collection (.pair k v))
    (f : KeyedCombineFn k.Elem v.Elem α o.Elem) (fanout : k.Elem → UInt32) (width : Option Nat)
    (inputCoder : Coder v.Elem := v.coder) : Build (Collection (.pair k o)) := do
  let accumCoder ← accumulatorCoder (k := k) (v := v) (o := o) f inputCoder
  let coder := inputCoder.inputOrAccum accumCoder
  let tagged : Collection (.shard k v) ← c.expand fun b e =>
    let (tagged, b) := tagShard fanout b e
    .ok ([tagged], b)
  let hot : Collection (.pair (.pair k .word32) v) ← tagged.flatMap Shard.hot?
  let partials : Collection (.pair (.pair k .word32) (.staged .bytes)) ←
    (hot.withMode .discarding).combineByKey (preCombine f coder accumCoder) width
  let hotBytes : Collection (.pair k .bytes) ← partials.mapEnvelopes fun e =>
    raiseStaged "hot key pre-combine" (e.withValue (e.value.1.1, e.value.2))
  let coldBytes : Collection (.pair k .bytes) ← tagged.expand fun b e =>
    (coldBytes coder e).map (·, b)
  let joined ← Collection.union [{ hotBytes with strategy := c.strategy }, coldBytes]
  let results : Collection (.pair k (.staged o)) ←
    joined.combineByKey (postCombine f coder accumCoder) width .heldUntilEnd
  results.mapEnvelopes (raiseStaged "hot key post-combine")

end Collection

/-- A combine by key, before it is built. -/
structure PerKey (k v o : ElemType) (α : Type) where
  input : Collection (.pair k v)
  fn : KeyedCombineFn k.Elem v.Elem α o.Elem
  /-- Over how many shards each key is spread. -/
  fanout : Option (k.Elem → UInt32) := none
  /-- How many partial accumulators a round merges into one. -/
  width : Option Nat := none
  /-- The coder of the values, which may refuse some of them. -/
  inputCoder : Coder v.Elem := v.coder

namespace PerKey

variable {k v o : ElemType}

/-- Spread every key over the same number of shards; zero or one turns spreading off. -/
def withFanout (p : PerKey k v o α) (n : UInt32) : PerKey k v o α :=
  { p with fanout := if 1 < n then some fun _ => n else none }

/-- Spread each key over a number of shards of its own. -/
def withFanoutFn (p : PerKey k v o α) (fanout : k.Elem → UInt32) : PerKey k v o α :=
  { p with fanout := some fanout }

/-- Merge partial accumulators in rounds of at most `n`, and at least two. -/
def withWidth (p : PerKey k v o α) (n : Nat) : PerKey k v o α :=
  { p with width := some (max n 2) }

def apply [DecidableEq k.Elem] (p : PerKey k v o α) : Build (Collection (.pair k o)) :=
  match p.fanout with
  | some fanout => p.input.combineHotKeys p.fn fanout p.width p.inputCoder
  | none => p.input.combineByKey p.fn p.width .elementTime p.inputCoder

end PerKey

end EventTime
