import EventTime.Proofs.Pane.Ledger
import EventTime.Proofs.Pane.Watermark

/-!
# Audited runs

An audited run is a run that writes down, beside what it does, what it has done with every listing:
dropped it on arrival because its window could fire no more or was closed, put it into the buffer of
a window, moved it along with that window's merges, lost it in a merge into a window that had
finished, or let go of it when its window was collected. Without these notes it is the run itself.
-/

namespace EventTime

variable {ν : Type} {s : Strategy}

/-- What a run has done with a listing. -/
inductive Whereabouts
  /-- It sits in the buffer of a window. -/
  | sitting (w : Window)
  /-- The window in which it sat has been collected. -/
  | collected
  /-- It was dropped on arrival, for its window could fire no more. -/
  | expired
  /-- It was dropped on arrival, for the window it was addressed to was closed. -/
  | refused
  /-- The window in which it sat was merged into one that had finished. -/
  | lost
  deriving DecidableEq

/-- A grouping, part of the way through its elements, with a note on every listing so far. -/
structure Audit (s : Strategy) (ν : Type) where
  grouper : Grouper s ν := {}
  notes : List (Listing ν × Whereabouts) := []

namespace Audit

/-- The notes after each has been rewritten. -/
def rewrite (a : Audit s ν) (f : Whereabouts → Whereabouts) : List (Listing ν × Whereabouts) :=
  a.notes.map fun p => (p.1, f p.2)

/-- Where the listings of the merged windows go. -/
def destination (a : Audit s ν) (m : Merge) : Whereabouts :=
  match (a.grouper.state.merge m).1 with
  | .ok .alreadyFinished => .lost
  | _ => .sitting m.into

def mergeOne (a : Audit s ν) (m : Merge) : Except Fault (Audit s ν) :=
  (a.grouper.mergeOne m).map fun g =>
    ⟨g, a.rewrite fun f => if f ∈ m.olds.map .sitting then a.destination m else f⟩

def mergeEach : List Merge → Audit s ν → Window → Except Fault (Audit s ν × Window)
  | [], a, w => .ok (a, w)
  | m :: rest, a, w => do
    mergeEach rest (← a.mergeOne m) (if w ∈ m.olds then m.into else w)

def mergeWindows (a : Audit s ν) (assigned : Window) : Except Fault (Audit s ν × Window) :=
  if s.windowFn.nonMerging then .ok (a, assigned)
  else do mergeEach (← s.windowFn.merge a.grouper.buffers.keys) a assigned

def place (a : Audit s ν) (x : Listing ν) : Except Fault (Audit s ν) :=
  if s.expiry x.window < a.grouper.watermark then .ok ⟨a.grouper, a.notes ++ [(x, .expired)]⟩
  else do
    let (a, w) ← mergeWindows ⟨a.grouper.opened x.window, a.notes⟩ x.window
    let note := if (a.grouper.buffers.find? w).any (·.closed) then .refused else .sitting w
    (a.grouper.deliver w x.timestamp x.value).map fun g => ⟨g, a.notes ++ [(x, note)]⟩

def advance (a : Audit s ν) (target : Int) : Except Fault (Audit s ν) :=
  (a.grouper.advance target).map fun g =>
    ⟨g, a.rewrite fun
      | .sitting w => if g.buffers.contains w then .sitting w else .collected
      | f => f⟩

def follow (mode : InputWatermark) (a : Audit s ν) (timestamp : Int) :
    Except Fault (Audit s ν) :=
  match mode with
  | .elementTime => a.advance timestamp
  | .heldUntilEnd => .ok a

def take (mode : InputWatermark) (a : Audit s ν) (e : Envelope ν) : Except Fault (Audit s ν) := do
  e.windows.foldlM (fun a w => a.place ⟨e.timestamp, w, e.value⟩) (← a.follow mode e.timestamp)

/-- Group every element of one key and answer how things stand when the input has ended. -/
def run (s : Strategy) (mode : InputWatermark) (elements : List (Envelope ν)) :
    Except Fault (Audit s ν) := do
  let a ← (Grouper.inTimeOrder elements).foldlM (take mode) {}
  a.advance maxTime

theorem grouper_mergeOne (a : Audit s ν) (m : Merge) :
    (a.mergeOne m).map grouper = a.grouper.mergeOne m := by
  simp only [mergeOne]
  cases a.grouper.mergeOne m <;> rfl

theorem grouper_mergeEach (ms : List Merge) (a : Audit s ν) (w : Window) :
    (mergeEach ms a w).map (fun p => (p.1.grouper, p.2)) = Grouper.mergeEach ms a.grouper w := by
  induction ms generalizing a w with
  | nil => rfl
  | cons m rest ih =>
    rw [mergeEach, Grouper.mergeEach, ← grouper_mergeOne]
    cases a.mergeOne m with
    | error e => rfl
    | ok a' => exact ih a' _

theorem grouper_mergeWindows (a : Audit s ν) (w : Window) :
    (a.mergeWindows w).map (fun p => (p.1.grouper, p.2)) = a.grouper.mergeWindows w := by
  rw [mergeWindows, Grouper.mergeWindows]
  split
  · rfl
  · cases s.windowFn.merge a.grouper.buffers.keys with
    | error e => rfl
    | ok ms => exact grouper_mergeEach ms a w

theorem grouper_place (a : Audit s ν) (x : Listing ν) :
    (a.place x).map grouper = a.grouper.place x.timestamp x.value x.window := by
  rw [place, Grouper.place]
  split
  · rfl
  · rw [← grouper_mergeWindows ⟨a.grouper.opened x.window, a.notes⟩]
    cases mergeWindows ⟨a.grouper.opened x.window, a.notes⟩ x.window with
    | error e => rfl
    | ok p =>
      show (Except.map _ (p.1.grouper.deliver p.2 x.timestamp x.value)).map grouper =
        p.1.grouper.deliver p.2 x.timestamp x.value
      cases p.1.grouper.deliver p.2 x.timestamp x.value <;> rfl

theorem grouper_advance (a : Audit s ν) (target : Int) :
    (a.advance target).map grouper = a.grouper.advance target := by
  rw [advance]
  cases a.grouper.advance target <;> rfl

theorem grouper_follow (mode : InputWatermark) (a : Audit s ν) (timestamp : Int) :
    (a.follow mode timestamp).map grouper = a.grouper.follow mode timestamp := by
  cases mode with
  | elementTime => exact grouper_advance a timestamp
  | heldUntilEnd => rfl

theorem grouper_take (mode : InputWatermark) (a : Audit s ν) (e : Envelope ν) :
    (a.take mode e).map grouper = a.grouper.take mode e := by
  rw [take, Grouper.take_eq, ← grouper_follow]
  cases a.follow mode e.timestamp with
  | error f => rfl
  | ok a' =>
    exact map_foldlM grouper (k := fun g w => g.place e.timestamp e.value w)
      (fun a w => grouper_place a ⟨e.timestamp, w, e.value⟩) e.windows a'

/-- An audited run is a run with notes. -/
theorem panes_run (s : Strategy) (mode : InputWatermark) (elements : List (Envelope ν)) :
    (run s mode elements).map (·.grouper.panes) = Grouper.run s mode elements := by
  rw [run, Grouper.run, ← map_foldlM grouper (grouper_take mode) _ ({} : Audit s ν)]
  cases List.foldlM (take mode) ({} : Audit s ν) (Grouper.inTimeOrder elements) with
  | error f => rfl
  | ok a =>
    show (a.advance maxTime).map _ = (a.grouper.advance maxTime).bind _
    rw [← grouper_advance]
    cases a.advance maxTime <;> rfl

end Audit

end EventTime
