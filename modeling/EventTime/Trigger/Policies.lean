import EventTime.Trigger.Leaf

/-!
# Policies beyond the built-in ones

A policy that waits for a pause in the input, one that gives up after a number of elements, and one
that counts as finished in every merged window.
-/

namespace EventTime

namespace Policy

/-- A timestamp kept in a counter, modulo the range of a 64-bit word. -/
def wordOfTime (t : Int) : Nat := (t % 18446744073709551616).toNat

/-- The timestamp kept in a counter. -/
def timeOfWord (n : Nat) : Int := if n < 9223372036854775808 then n else n - 18446744073709551616

/-- Fire and finish once no element has arrived for `pause` milliseconds after the last one. The
counter keeps the time of the pending timer. -/
def debounce (pause : Int) : Policy where
  name := "Debounce"
  onElement _ counter e :=
    let wake := later e.timestamp pause
    ⟨[.deleteTimer (timeOfWord counter), .setTimer wake, .setCounter (wordOfTime wake)], .ok .idle⟩
  onMerge _ _ _ m :=
    let wake := m.into.maxTimestamp
    ⟨[.setTimer wake, .setCounter (wordOfTime wake)], .ok .idle⟩
  onTimer _ _ _ := ⟨[], .ok .fireAndFinish⟩
  cutoff w := later w.maxTimestamp pause

/-- The kind of event at which a failing policy gives up. -/
inductive Occasion
  | element
  | merge
  | timer
  deriving DecidableEq, Repr

/-- The failure of a policy that gives up at a node. -/
def injected (node : Nat) : Fault := .custom ("injected failure at node " ++ toString node)

/-- Count elements, ask for a timer at each, and give up on one kind of event once `limit` elements
have been counted. The changes are made before giving up. -/
def failing (limit : Nat) (on : Occasion) : Policy where
  name := "Fail"
  onElement node counter e :=
    let seen := counter + 1
    ⟨[.setCounter seen, .setTimer e.timestamp],
      if on = .element ∧ limit ≤ seen then .error (injected node) else .ok .idle⟩
  onMerge node _ merged _ :=
    ⟨[.setCounter merged],
      if on = .merge ∧ limit ≤ merged then .error (injected node) else .ok .idle⟩
  onTimer node counter _ :=
    ⟨[], if on = .timer ∧ limit ≤ counter then .error (injected node) else .ok .fire⟩
  cutoff w := w.maxTimestamp

/-- Never fire on an element, and be finished in every merged window. -/
def gone : Policy where
  name := "Gone"
  onElement _ _ _ := ⟨[], .ok .idle⟩
  onMerge _ _ _ _ := ⟨[], .ok .alreadyFinished⟩
  onTimer _ _ _ := ⟨[], .ok .fire⟩
  cutoff _ := maxTime

end Policy

end EventTime
