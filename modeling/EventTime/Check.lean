import EventTime.Envelope
import EventTime.Number.Binary64
import EventTime.Pipeline.Table

/-!
# Comparing collections

Decisions about the output of a pipeline: equality in order, equality up to order, equality of the
values of each key, and one on-time pane for every key and window.
-/

namespace EventTime

variable {α κ ν : Type}

/-- Where two lists part. -/
inductive Mismatch (α : Type)
  | element (index : Nat) (actual expected : α)
  | length (actual expected : Nat)
  deriving DecidableEq, Repr

namespace Mismatch

def listed (write : α → String) (l : List α) : String :=
  "[" ++ ", ".intercalate (l.map write) ++ "]"

def report (write : α → String) (actual expected : List α) : Mismatch α → String
  | .element index a e =>
    "Collections differ at index " ++ toString index ++ ": expected " ++ write e ++ ", got " ++
      write a ++ "\n  Expected: " ++ listed write expected ++
      "\n  Actual: " ++ listed write actual
  | .length a e =>
    "assertion `left == right` failed: Collections differ in length" ++
      "\n  Expected: " ++ listed write expected ++ "\n  Actual: " ++ listed write actual ++
      "\n  left: " ++ toString a ++ "\n right: " ++ toString e

end Mismatch

namespace Check

section

variable [BEq α]

/-- The first position at which both lists have an element and the elements differ. -/
def firstDifference (index : Nat) : List α → List α → Option (Nat × α × α)
  | a :: actual, e :: expected =>
    if a == e then firstDifference (index + 1) actual expected else some (index, a, e)
  | _, _ => none

/-- What keeps `actual` from being `expected`, element by element and then by length. -/
def mismatch? (actual expected : List α) : Option (Mismatch α) :=
  match firstDifference 0 actual expected with
  | some (index, a, e) => some (.element index a e)
  | none =>
    if actual.length = expected.length then none
    else some (.length actual.length expected.length)

def equal (actual expected : List α) : Bool := (mismatch? actual expected).isNone

/-- The search for a difference stops at the end of the shorter list, so it takes the lengths, too,
to tell whether the lists are equal. -/
theorem firstDifference_eq_none_and_iff (i : Nat) {actual expected : List α} :
    firstDifference i actual expected = none ∧ actual.length = expected.length ↔
      (actual == expected) = true := by
  induction actual generalizing i expected with
  | nil => cases expected <;> simp [firstDifference]
  | cons a actual ih =>
    cases expected with
    | nil => simp [firstDifference]
    | cons e expected => by_cases h : a == e <;> simp [firstDifference, h, ih]

/-- The comparison in order is equality of lists. -/
theorem equal_eq_beq (actual expected : List α) : equal actual expected = (actual == expected) := by
  rw [Bool.eq_iff_iff, ← firstDifference_eq_none_and_iff 0, equal, mismatch?]
  split
  · rename_i h
    simp [h]
  · rename_i h
    split <;> rename_i hlength <;> simp [h, hlength]

end

/-- Whether the pairs are equal once both sides are sorted by key, values of one key in order. -/
def keyedEqual [LE κ] [DecidableLE κ] [DecidableEq κ] [BEq ν] (actual expected : List (κ × ν)) :
    Bool :=
  let byKey := fun l : List (κ × ν) => l.mergeSort fun p q => p.1 ≤ q.1
  equal (byKey actual) (byKey expected)

/-- Add `step` to the counter of each element in turn; a counter starts at zero. -/
def tally [DecidableEq α] (step : Int) (counts : Table α Int) (elements : List α) : Table α Int :=
  elements.foldl (fun counts a => counts.alter a fun n => n.getD 0 + step) counts

/-- How many more times each element is expected than present. -/
def balances [DecidableEq α] (actual expected : List α) : Table α Int :=
  tally (-1) (tally 1 [] expected) actual

/-- Whether no element is missing and none is extra. -/
def unordered [DecidableEq α] (actual expected : List α) : Bool :=
  let counts := balances actual expected
  let missing := counts.filter fun p => 0 < p.2
  let extra := counts.filter fun p => p.2 < 0
  missing.isEmpty && extra.isEmpty

/-- How often each key is listed with each window. -/
def paneCounts [DecidableEq κ] (output : List (Envelope (κ × ν))) : Table (κ × Window) Int :=
  output.foldl (fun counts e => tally 1 counts (e.windows.map fun w => (e.value.1, w))) []

/-- Whether every pane fired on time, and no key and window occur together twice. -/
def singleOnTimePanes [DecidableEq κ] (output : List (Envelope (κ × ν))) : Bool :=
  output.all (fun e => e.pane.timing = .onTime) &&
    ((paneCounts output).filter fun p => 1 < p.2).isEmpty

end Check

end EventTime
