import EventTime.Number.Binary64

/-!
# Accumulators with a shape of their own

A running mean, and a digest that counts inputs and logs them in order.
-/

namespace EventTime

/-- The sum of the inputs and how many there were. -/
structure Mean where
  sum : Binary64 := .zero
  count : UInt64 := 0
  deriving DecidableEq, Repr

namespace Mean

def add (m : Mean) (x : Binary64) : Mean := ⟨m.sum.add x, m.count + 1⟩

def absorb (m other : Mean) : Mean := ⟨m.sum.add other.sum, m.count + other.count⟩

def value (m : Mean) : Binary64 :=
  if m.count = 0 then .zero else m.sum.div (.ofInt m.count.toNat)

end Mean

/-- How many inputs there were, and their texts in order; a bar marks where another log was
taken over. -/
structure Digest where
  count : UInt64 := 0
  log : String := ""
  deriving DecidableEq, Repr

namespace Digest

def add (d : Digest) (s : String) : Digest := ⟨d.count + 1, d.log ++ s⟩

def absorb (d other : Digest) : Digest := ⟨d.count + other.count, d.log ++ "|" ++ other.log⟩

def value (d : Digest) : String := toString d.count.toNat ++ ":" ++ d.log

end Digest

end EventTime
