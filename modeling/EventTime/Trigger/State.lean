import EventTime.Trigger.Evaluation
import EventTime.Window.Map

/-!
# Trigger state over all windows

The state of a tree in every window that has one, and the three events delivered to it. An event
that fails leaves the state as it was: the windows it may change are saved first and put back.
-/

namespace EventTime

/-- The state of one tree, by window. -/
abbrev TriggerState (t : Trigger) : Type := WindowMap t.State

namespace TriggerState

variable {t : Trigger} {ρ : Type}

/-- The state of a window; a window without one has seen nothing. -/
def stateOf (s : TriggerState t) (w : Window) : t.State := (s.find? w).getD t.fresh

/-- Keep the state a step left in a window. A step that wrote nothing creates no state. -/
def keep (s : TriggerState t) (w : Window) (step : Step t.State ρ) : TriggerState t :=
  if step.wrote || s.contains w then s.insert w step.state else s

/-- The state of each of the windows, or its absence. -/
def saved (s : TriggerState t) (windows : List Window) : List (Window × Option t.State) :=
  windows.map fun w => (w, s.find? w)

def restore (s : TriggerState t) (windows : List (Window × Option t.State)) : TriggerState t :=
  windows.foldr (fun p s => s.set p.1 p.2) s

/-- The answer of a step and the state after it, which is the one before it if the step failed. -/
def commit (s : TriggerState t) (windows : List (Window × Option t.State))
    (answer : Except Fault ρ) : Except Fault ρ × TriggerState t :=
  match answer with
  | .ok a => (.ok a, s)
  | .error e => (.error e, s.restore windows)

def element (s : TriggerState t) (e : ElementEvent) : Except Fault Outcome × TriggerState t :=
  let step := (s.stateOf e.window).offer (t.onElement e 0)
  (s.keep e.window step).commit (s.saved [e.window]) step.answer

/-- Take the state of a window out, into the states being merged. A window taken again hands over
the state of a window that has seen nothing. -/
def take (p : TriggerState t × TriggerState t) (w : Window) : TriggerState t × TriggerState t :=
  (p.1.insert w (p.2.stateOf w), p.2.erase w)

/-- Merge the states of the old windows, which are used up, into that of the new one. -/
def merge (s : TriggerState t) (m : Merge) : Except Fault MergeOutcome × TriggerState t :=
  let (taken, rest) := m.olds.foldl take (.empty, s)
  let step := (rest.stateOf m.into).merge (taken.entries.map (·.2)) (t.onMerge m 0)
  (rest.keep m.into step).commit (s.saved (m.olds ++ [m.into])) step.answer

/-- Deliver a timer to the root. A timer of a window without state is dropped. -/
def timer (s : TriggerState t) (e : TimerEvent) : Except Fault Outcome × TriggerState t :=
  if s.contains e.window then
    let step := (s.stateOf e.window).offer (t.onTimer e 0)
    (s.keep e.window step).commit (s.saved [e.window]) step.answer
  else (.ok .idle, s)

/-- Whether a node has finished in a window. -/
def isFinished (s : TriggerState t) (w : Window) (node : Nat) : Bool :=
  (s.find? w).any fun state => (t.finishedNodes state).contains node

def timersOf (s : TriggerState t) (w : Window) : List (Int × Nat) :=
  match s.find? w with
  | none => []
  | some state =>
    (t.timersFrom 0 state.memory).mergeSort fun p q => p.1 < q.1 || p.1 == q.1 && p.2 ≤ q.2

def timers (s : TriggerState t) : List Timer :=
  s.entries.flatMap fun p =>
    (t.timersFrom 0 p.2.memory).map fun q => ⟨q.1, p.1, q.2⟩

/-- The pending timers strictly before the watermark. -/
def dueTimers (s : TriggerState t) (watermark : Int) : List Timer :=
  s.timers.filter fun a => a.timestamp < watermark

/-- The state without one of its timers. -/
def cancel (s : TriggerState t) (a : Timer) : TriggerState t :=
  s.modify a.window fun state =>
    { state with memory := t.cancelFrom a.timestamp a.node 0 state.memory }

/-- The first timer of a window: within one window, by timestamp and then by node. -/
def firstTimer (p : Window × t.State) : Option Timer :=
  Timer.least ((t.timersFrom 0 p.2.memory).map fun q => ⟨q.1, p.1, q.2⟩)

/-- The earliest timer strictly before the watermark, and the state without it. Of each window only
the first timer is looked at. -/
def popDue (s : TriggerState t) (watermark : Int) : Option (Timer × TriggerState t) :=
  (Timer.nextDue watermark (s.entries.filterMap firstTimer)).map fun a => (a, s.cancel a)

end TriggerState

end EventTime
