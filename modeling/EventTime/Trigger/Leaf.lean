import EventTime.Trigger.Outcome

/-!
# Leaves

A leaf is a firing policy. In each window it has a cell, which holds a counter and the timestamps
of its pending timers; a callback reads the cell and answers with the writes to make and an
outcome. Three policies are built in, and `Policy` lets a caller supply others.
-/

namespace EventTime

variable {ρ : Type}

/-- A leaf's counter and the timestamps of its timers, ascending, in one window. -/
structure Cell where
  counter : Nat := 0
  timers : List Int := []
  deriving DecidableEq, Repr

/-- Add a timestamp to an ascending list that does not hold it yet. -/
def insertTime (t : Int) : List Int → List Int
  | [] => [t]
  | u :: rest =>
    if t < u then t :: u :: rest else if t = u then u :: rest else u :: insertTime t rest

/-- A change a leaf makes to its cell. -/
inductive Write
  | setCounter (value : Nat)
  | setTimer (timestamp : Int)
  | deleteTimer (timestamp : Int)
  deriving DecidableEq, Repr

namespace Cell

def cancel (c : Cell) (timestamp : Int) : Cell :=
  { c with timers := c.timers.filter (· ≠ timestamp) }

def total (cells : List Cell) : Nat := cells.foldr (fun c n => c.counter + n) 0

def apply (c : Cell) : Write → Cell
  | .setCounter value => { c with counter := value }
  | .setTimer timestamp => { c with timers := insertTime timestamp c.timers }
  | .deleteTimer timestamp => c.cancel timestamp

end Cell

/-- Whether a change creates the window's state where there is none: deleting a timer does not. -/
def Write.creates : Write → Bool
  | .deleteTimer _ => false
  | _ => true

/-- What a callback does: changes, in order, and then an answer or a failure. -/
structure Reaction (ρ : Type) where
  writes : List Write := []
  answer : Except Fault ρ

/-- The step of a leaf that reacts in its cell. -/
def Reaction.step (r : Reaction ρ) (c : Cell) : Step Cell ρ :=
  ⟨r.writes.foldl Cell.apply c, r.writes.any Write.creates, r.answer⟩

/-- A firing policy of the caller's own. The callbacks see the number of their node and the counter
of their cell; on a merge also the sum of the counters in the merged windows. -/
structure Policy where
  name : String
  onElement : (node counter : Nat) → ElementEvent → Reaction Outcome
  onMerge : (node counter merged : Nat) → Merge → Reaction MergeOutcome
  onTimer : (node counter : Nat) → TimerEvent → Reaction Outcome
  /-- The latest event time at which the policy is still sure not to have fired for a window. -/
  cutoff : Window → Int

/-- A leaf of a trigger tree. -/
inductive Leaf
  /-- Fire and finish once the window has seen `count` elements. -/
  | afterCount (count : Nat)
  /-- Fire and finish when the watermark passes the end of the window. -/
  | afterWatermark
  /-- Fire when the watermark passes the end of the window, and again for every late element. -/
  | endOfWindow
  /-- A policy of the caller's own. -/
  | custom (policy : Policy)

namespace Leaf

def name : Leaf → String
  | .afterCount _ => "AfterCount"
  | .afterWatermark => "AfterWatermark"
  | .endOfWindow => "DefaultTrigger"
  | .custom p => p.name

/-- The latest event time at which the leaf is still sure not to have fired for `w`. -/
def cutoff (w : Window) : Leaf → Int
  | .afterCount _ => maxTime
  | .afterWatermark => w.maxTimestamp
  | .endOfWindow => w.maxTimestamp
  | .custom p => p.cutoff w

def isBuiltIn : Leaf → Bool
  | .custom _ => false
  | _ => true

def onElement (node : Nat) (e : ElementEvent) (c : Cell) : Leaf → Reaction Outcome
  | .afterCount count =>
    let seen := c.counter + 1
    ⟨[.setCounter seen], .ok (if count ≤ seen then .fireAndFinish else .idle)⟩
  | .afterWatermark => ⟨[.setTimer e.window.maxTimestamp], .ok .idle⟩
  | .endOfWindow => ⟨[.setTimer e.window.maxTimestamp], .ok .idle⟩
  | .custom p => p.onElement node c.counter e

/-- React to a merge, in the new window. The merged window has seen all that the old ones saw. -/
def onMerge (node : Nat) (m : Merge) (olds : List Cell) (c : Cell) : Leaf → Reaction MergeOutcome
  | .afterCount count =>
    let seen := Cell.total olds
    ⟨[.setCounter seen], .ok (if count ≤ seen then .fireAndFinish else .idle)⟩
  | .afterWatermark => ⟨[.setTimer m.into.maxTimestamp], .ok .idle⟩
  | .endOfWindow => ⟨[.setTimer m.into.maxTimestamp], .ok .idle⟩
  | .custom p => p.onMerge node c.counter (Cell.total olds) m

def onTimer (node : Nat) (e : TimerEvent) (c : Cell) : Leaf → Reaction Outcome
  | .afterCount _ => ⟨[], .ok .idle⟩
  | .afterWatermark => ⟨[], .ok .fireAndFinish⟩
  | .endOfWindow => ⟨[], .ok .fire⟩
  | .custom p => p.onTimer node c.counter e

end Leaf

end EventTime
