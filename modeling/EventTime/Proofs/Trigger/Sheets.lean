import Mathlib.Data.Finset.Sort
import EventTime.Proofs.Attempt
import EventTime.Trigger.State

/-!
# Sheets

A sheet is what all nodes of a tree remember in one window, written down by node number: a finished
bit and a counter for each node, and one set of timers, each with the number of its node. On sheets
a trigger is evaluated by actions that read and write under whatever number they are told, in one
window of all. Nothing in the shape of a sheet keeps the reaction of a node within its subtree, and
what the leaves do is left open.
-/

namespace EventTime

/-- What the nodes remember in one window. -/
structure Sheet where
  finished : Nat → Bool
  counter : Nat → Nat
  /-- The pending timers, each with the number of its node. -/
  timers : Finset (Int × Nat)

namespace Sheet

def blank : Sheet := ⟨fun _ => false, fun _ => 0, ∅⟩

def finish (node : Nat) (sh : Sheet) : Sheet :=
  { sh with finished := Function.update sh.finished node true }

def count (node value : Nat) (sh : Sheet) : Sheet :=
  { sh with counter := Function.update sh.counter node value }

def schedule (timestamp : Int) (node : Nat) (sh : Sheet) : Sheet :=
  { sh with timers := insert (timestamp, node) sh.timers }

def cancel (timestamp : Int) (node : Nat) (sh : Sheet) : Sheet :=
  { sh with timers := sh.timers.erase (timestamp, node) }

/-- The sheet on which the nodes from `lo` to `hi` have seen nothing. -/
def clear (lo hi : Nat) (sh : Sheet) : Sheet where
  finished n := if lo ≤ n ∧ n < hi then false else sh.finished n
  counter n := if lo ≤ n ∧ n < hi then 0 else sh.counter n
  timers := sh.timers.filter fun p => p.2 < lo ∨ hi ≤ p.2

/-- What one node remembers in one window. -/
@[ext]
structure Entry where
  finished : Bool
  counter : Nat
  timers : Finset Int

/-- The entry of a node that has seen nothing. -/
def Entry.blank : Entry := ⟨false, 0, ∅⟩

def entry (sh : Sheet) (node : Nat) : Entry where
  finished := sh.finished node
  counter := sh.counter node
  timers := (sh.timers.filter fun p => p.2 = node).image Prod.fst

theorem mem_entry_timers {sh : Sheet} {node : Nat} {timestamp : Int} :
    timestamp ∈ (sh.entry node).timers ↔ (timestamp, node) ∈ sh.timers := by
  simp [entry]

@[simp] theorem entry_blank (n : Nat) : blank.entry n = .blank := by
  simp [entry, blank, Entry.blank]

theorem entry_finish (node : Nat) (sh : Sheet) (n : Nat) :
    (sh.finish node).entry n =
      if n = node then { sh.entry n with finished := true } else sh.entry n := by
  split <;> rename_i h <;> simp [entry, finish, h]

theorem entry_count (node value : Nat) (sh : Sheet) (n : Nat) :
    (sh.count node value).entry n =
      if n = node then { sh.entry n with counter := value } else sh.entry n := by
  split <;> rename_i h <;> simp [entry, count, h]

theorem entry_schedule (timestamp : Int) (node : Nat) (sh : Sheet) (n : Nat) :
    (sh.schedule timestamp node).entry n =
      if n = node then { sh.entry n with timers := insert timestamp (sh.entry n).timers }
      else sh.entry n := by
  split <;> rename_i h
  · subst h
    simp [entry, schedule, Finset.filter_insert]
  · simp [entry, schedule, Finset.filter_insert, Ne.symm h]

theorem entry_cancel (timestamp : Int) (node : Nat) (sh : Sheet) (n : Nat) :
    (sh.cancel timestamp node).entry n =
      if n = node then { sh.entry n with timers := (sh.entry n).timers.erase timestamp }
      else sh.entry n := by
  split <;> rename_i h
  · subst h
    ext u <;> simp [entry, cancel]
  · ext u <;> simp [entry, cancel, h]

theorem entry_clear (lo hi : Nat) (sh : Sheet) (n : Nat) :
    (sh.clear lo hi).entry n = if lo ≤ n ∧ n < hi then .blank else sh.entry n := by
  split <;> rename_i h
  · refine Entry.ext (if_pos h) (if_pos h) (Finset.ext fun u => ?_)
    rw [mem_entry_timers]
    simp only [clear, Finset.mem_filter, Entry.blank, Finset.notMem_empty, iff_false]
    omega
  · refine Entry.ext (if_neg h) (if_neg h) (Finset.ext fun u => ?_)
    rw [mem_entry_timers, mem_entry_timers]
    simp only [clear, Finset.mem_filter, and_iff_left_iff_imp]
    omega

end Sheet

/-- The sheets of all windows, and during a merge those of the windows being merged. -/
structure Sheets where
  windows : WindowMap Sheet
  merging : WindowMap Sheet

namespace Sheets

variable {ρ : Type}

/-- The sheet of a window; a window without one has seen nothing. -/
def sheetAt (σ : Sheets) (w : Window) : Sheet := (σ.windows.find? w).getD .blank

def read (w : Window) (f : Sheet → ρ) : Attempt Sheets ρ := do
  return f ((← get).sheetAt w)

/-- Change the sheet of a window; a window without one gets one. -/
def write (w : Window) (f : Sheet → Sheet) : Attempt Sheets Unit :=
  modify fun σ => { σ with windows := σ.windows.insert w (f (σ.sheetAt w)) }

/-- Change the sheet of a window, if it has one. -/
def amend (w : Window) (f : Sheet → Sheet) : Attempt Sheets Unit :=
  modify fun σ => { σ with windows := σ.windows.modify w f }

/-- Return the nodes from `lo` to `hi` to their initial state. -/
def reset (w : Window) (lo hi : Nat) : Attempt Sheets Unit := write w (·.clear lo hi)

def perform (w : Window) (node : Nat) : Write → Attempt Sheets Unit
  | .setCounter value => write w (·.count node value)
  | .setTimer timestamp => write w (·.schedule timestamp node)
  | .deleteTimer timestamp => amend w (·.cancel timestamp node)

def performAll (w : Window) (node : Nat) : List Write → Attempt Sheets Unit
  | [] => pure ()
  | change :: rest => do
    perform w node change
    performAll w node rest

/-- React as a leaf, which of its own cell reads the counter only. -/
def react (w : Window) (node : Nat) (reaction : Cell → Reaction ρ) : Attempt Sheets ρ := do
  let counter ← read w (·.counter node)
  performAll w node (reaction { counter }).writes
  liftM (reaction { counter }).answer

/-- The counters of a node in the windows being merged. -/
def mergingCells (node : Nat) : Attempt Sheets (List Cell) := do
  return (← get).merging.entries.map fun p => { counter := p.2.counter node }

/-- Set the finished bit of a node whose outcome finishes. -/
def settle (w : Window) (node : Nat) (finishes : Bool) : Attempt Sheets Unit :=
  if finishes then write w (·.finish node) else pure ()

/-- Start over a subtree whose root's outcome finishes. -/
def restart (w : Window) (lo hi : Nat) (finishes : Bool) : Attempt Sheets Unit :=
  if finishes then reset w lo hi else pure ()

/-- Offer an element or a timer to a node: a finished node lets it pass. -/
def offer (w : Window) (node : Nat) (visit : Attempt Sheets Outcome) : Attempt Sheets Outcome := do
  if ← read w (·.finished node) then
    return .idle
  else
    let o ← visit
    settle w node o.finishes
    return o

/-- Whether a node has finished in one of the windows being merged. -/
def finishedMerging (node : Nat) : Attempt Sheets Bool := do
  return (← get).merging.entries.any (·.2.finished node)

/-- Merge a node: if it had finished in one of the merged windows it is not consulted. -/
def merge (w : Window) (node : Nat) (visit : Attempt Sheets MergeOutcome) :
    Attempt Sheets MergeOutcome := do
  if ← finishedMerging node then
    settle w node true
    return .alreadyFinished
  else
    let o ← visit
    settle w node o.finishes
    return o

end Sheets

/-- What the leaves of a tree do. Each acts in a window, and is told the number of its node. -/
structure Behaviour where
  onElement (w : Window) (l : Leaf) (node : Nat) (e : ElementEvent) : Attempt Sheets Outcome
  onMerge (w : Window) (l : Leaf) (node : Nat) (e : Merge) : Attempt Sheets MergeOutcome
  onTimer (w : Window) (l : Leaf) (node : Nat) (e : TimerEvent) : Attempt Sheets Outcome

/-- Every leaf reacts as in the evaluation, and acts on its own entry only. -/
def Behaviour.own : Behaviour where
  onElement w l node e := Sheets.react w node (l.onElement node e)
  onMerge w l node e := do
    let olds ← Sheets.mergingCells node
    Sheets.react w node (l.onMerge node e olds)
  onTimer w l node e := Sheets.react w node (l.onTimer node e)

namespace Trigger

open Sheets

mutual

/-- React to an element in a window; `node` is the number of the root. -/
def visitElement (β : Behaviour) (w : Window) (e : ElementEvent) :
    Trigger → (node : Nat) → Attempt Sheets Outcome
  | .leaf l, node => β.onElement w l node e
  | .afterFirst ts, node => visitElementAmong β w e ts (node + 1)
  | .repeatedly t, node => do
    let o ← Sheets.offer w (node + 1) (visitElement β w e t (node + 1))
    restart w (node + 1) (node + 1 + t.size) o.finishes
    return if o.fires then .fire else .idle
  | .orFinally a b, node => do
    let oa ← Sheets.offer w (node + 1) (visitElement β w e a (node + 1))
    let ob ← Sheets.offer w (node + 1 + a.size) (visitElement β w e b (node + 1 + a.size))
    return if ob.fires then .fireAndFinish else oa

/-- Offer an element to several trees in turn, until one fires. -/
def visitElementAmong (β : Behaviour) (w : Window) (e : ElementEvent) :
    List Trigger → (node : Nat) → Attempt Sheets Outcome
  | [], _ => pure .idle
  | t :: ts, node => do
    let o ← Sheets.offer w node (visitElement β w e t node)
    if o.fires then return .fireAndFinish else visitElementAmong β w e ts (node + t.size)

end

mutual

/-- React to a merge into a window. -/
def visitMerge (β : Behaviour) (w : Window) (e : Merge) :
    Trigger → (node : Nat) → Attempt Sheets MergeOutcome
  | .leaf l, node => β.onMerge w l node e
  | .afterFirst ts, node => visitMergeAmong β w e ts (node + 1) false
  | .repeatedly t, node => do
    let o ← Sheets.merge w (node + 1) (visitMerge β w e t (node + 1))
    restart w (node + 1) (node + 1 + t.size) o.finishes
    return if o.fires then .fire else .idle
  | .orFinally a b, node => do
    let oa ← Sheets.merge w (node + 1) (visitMerge β w e a (node + 1))
    let ob ← Sheets.merge w (node + 1 + a.size) (visitMerge β w e b (node + 1 + a.size))
    return if ob = .alreadyFinished then .alreadyFinished
      else if ob.fires then .fireAndFinish else oa

/-- Merge several trees in turn, until one had already finished; `fired` tells whether an earlier
one fired. -/
def visitMergeAmong (β : Behaviour) (w : Window) (e : Merge) :
    List Trigger → (node : Nat) → (fired : Bool) → Attempt Sheets MergeOutcome
  | [], _, fired => pure (if fired then .fireAndFinish else .idle)
  | t :: ts, node, fired => do
    let o ← Sheets.merge w node (visitMerge β w e t node)
    if o = .alreadyFinished then return .alreadyFinished
    else visitMergeAmong β w e ts (node + t.size) (fired || o.fires)

end

mutual

/-- React to a timer in a window. -/
def visitTimer (β : Behaviour) (w : Window) (e : TimerEvent) :
    Trigger → (node : Nat) → Attempt Sheets Outcome
  | .leaf l, node => β.onTimer w l node e
  | .afterFirst ts, node =>
    if e.destination = node then throw (.timerAtComposite "AfterFirst" node)
    else visitTimerAmong β w e node ts (node + 1)
  | .repeatedly t, node =>
    if e.destination = node then throw (.timerAtComposite "Repeatedly" node)
    else do
      let o ← Sheets.offer w (node + 1) (visitTimer β w e t (node + 1))
      restart w (node + 1) (node + 1 + t.size) o.finishes
      return if o.fires then .fire else .idle
  | .orFinally a b, node =>
    if e.destination = node then throw (.timerAtComposite "OrFinally" node)
    else if Leads a (node + 1) e.destination then
      Sheets.offer w (node + 1) (visitTimer β w e a (node + 1))
    else if Leads b (node + 1 + a.size) e.destination then do
      let o ← Sheets.offer w (node + 1 + a.size) (visitTimer β w e b (node + 1 + a.size))
      return if o.fires then .fireAndFinish else o
    else throw (.noPathToTimer node e.destination)

/-- Route a timer to the tree that holds its destination; `parent` is the node that routes it. -/
def visitTimerAmong (β : Behaviour) (w : Window) (e : TimerEvent) (parent : Nat) :
    List Trigger → (node : Nat) → Attempt Sheets Outcome
  | [], _ => throw (.noPathToTimer parent e.destination)
  | t :: ts, node =>
    if Leads t node e.destination then do
      let o ← Sheets.offer w node (visitTimer β w e t node)
      return if o.fires then .fireAndFinish else .idle
    else visitTimerAmong β w e parent ts (node + t.size)

end

/-- Hand an element to the tree whose root has number `node`. -/
def invokeElement (w : Window) (e : ElementEvent) (t : Trigger) (node : Nat) :
    Attempt Sheets Outcome :=
  Sheets.offer w node (visitElement .own w e t node)

def invokeMerge (w : Window) (e : Merge) (t : Trigger) (node : Nat) :
    Attempt Sheets MergeOutcome :=
  Sheets.merge w node (visitMerge .own w e t node)

def invokeTimer (w : Window) (e : TimerEvent) (t : Trigger) (node : Nat) :
    Attempt Sheets Outcome :=
  Sheets.offer w node (visitTimer .own w e t node)

end Trigger

end EventTime
