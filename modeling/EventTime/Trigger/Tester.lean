import EventTime.Trigger.State
import EventTime.Attempt

/-!
# Driving a trigger by hand

A tester owns the state of one tree and the set of live windows, and takes elements, merges and
watermark moves one at a time. A step that fails keeps what was done before the failure.
-/

namespace EventTime

/-- A trigger tree under test. -/
structure Tester (t : Trigger) where
  windowFn : WindowFn
  state : TriggerState t := .empty
  /-- The windows that are live from the window function's point of view. -/
  active : WindowSet := .empty
  watermark : Int := minTime

namespace Tester

variable {t : Trigger}

def element (w : Window) (timestamp : Int) : Attempt (Tester t) Outcome := .of fun c =>
  let (answer, state) := c.state.element ⟨w, timestamp⟩
  (answer, { c with state, active := c.active.add w })

def merge (m : Merge) : Attempt (Tester t) MergeOutcome := .of fun c =>
  let (answer, state) := c.state.merge m
  (answer, { c with state, active := WindowSet.add (m.olds.foldl WindowMap.erase c.active) m.into })

/-- Perform merges in turn, and answer the window in which a window ends up. -/
def mergeEach : List Merge → Window → Attempt (Tester t) Window
  | [], w => pure w
  | m :: rest, w => do
    let _ ← merge m
    mergeEach rest (if w ∈ m.olds then m.into else w)

/-- Make windows live one at a time, merge, and deliver an element to where each ended up. -/
def injectEach (timestamp : Int) : List Window → Attempt (Tester t) (List (Window × Outcome))
  | [] => pure []
  | assigned :: rest => do
    modify fun c => { c with active := c.active.add assigned }
    let c ← get
    let merges ← c.windowFn.merge c.active.keys
    let w ← mergeEach merges assigned
    let outcome ← element w timestamp
    return (w, outcome) :: (← injectEach timestamp rest)

/-- Assign an element to its windows and deliver it there, with the merges that follow. -/
def inject (timestamp : Int) : Attempt (Tester t) (List (Window × Outcome)) := do
  let windows ← (← get).windowFn.assign timestamp
  injectEach timestamp windows

/-- Deliver at most `fuel` due timers, earliest first. -/
def drain : (fuel : Nat) → Attempt (Tester t) (List (Window × Outcome))
  | 0 => pure []
  | fuel + 1 => do
    let c ← get
    match c.state.popDue c.watermark with
    | none => pure []
    | some (timer, state) =>
      let outcome ← Attempt.of fun c =>
        let (answer, state) := state.timer timer.event
        (answer, { c with state })
      return (timer.window, outcome) :: (← drain fuel)

/-- Move the watermark forward and deliver the timers strictly before it. A delivery spends its
timer and no policy of this library sets one on a delivery, so there are at most as many deliveries
as timers due at the start. -/
def advance (target : Int) : Attempt (Tester t) (List (Window × Outcome)) := do
  modify fun c => { c with watermark := max c.watermark target }
  let c ← get
  drain (c.state.dueTimers c.watermark).length

def clear (c : Tester t) (w : Window) : Tester t :=
  { c with active := c.active.erase w, state := c.state.erase w }

end Tester

end EventTime
