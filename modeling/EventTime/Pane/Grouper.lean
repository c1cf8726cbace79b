import EventTime.Windowing.Strategy
import EventTime.Trigger.State
import EventTime.Envelope

/-!
# Grouping the elements of one key

The elements of a key are replayed in event-time order. Every window has a buffer; the trigger says
when a buffer fires, and each firing becomes a pane. A run is a sequence of small operations on a
`Grouper`: a listing is placed, windows are merged, a timer is delivered, a window is collected.
-/

namespace EventTime

variable {ν : Type}

/-- One firing of one window. -/
structure Pane (ν : Type) where
  window : Window
  info : PaneInfo
  values : List ν
  deriving DecidableEq, Repr

/-- What is held for a window. -/
structure Buffer (ν : Type) where
  values : List ν := []
  /-- How many elements have not been part of a pane. -/
  unfired : Nat := 0
  panesFired : Nat := 0
  onTimeFired : Bool := false
  /-- A closed buffer takes no more elements. -/
  closed : Bool := false
  deriving DecidableEq, Repr

/-- How the watermark moves while elements are replayed. -/
inductive InputWatermark
  /-- It follows the elements' timestamps, so that windows fire and expire on the way. -/
  | elementTime
  /-- It stays at the smallest event time until the input ends. -/
  | heldUntilEnd
  deriving DecidableEq, Repr

/-- The grouping of one key, part of the way through its elements. -/
structure Grouper (s : Strategy) (ν : Type) where
  state : TriggerState s.trigger := .empty
  buffers : WindowMap (Buffer ν) := .empty
  watermark : Int := minTime
  /-- The panes fired so far, in firing order. -/
  panes : List (Pane ν) := []

namespace Buffer

def push (b : Buffer ν) (v : ν) : Buffer ν :=
  { b with values := b.values ++ [v], unfired := b.unfired + 1 }

/-- The buffer that takes over what another one held; it is open. -/
def absorb (b old : Buffer ν) : Buffer ν where
  values := b.values ++ old.values
  unfired := b.unfired + old.unfired
  panesFired := max b.panesFired old.panesFired
  onTimeFired := b.onTimeFired || old.onTimeFired
  closed := b.closed

/-- The buffer that takes no more elements and holds none. -/
def close (b : Buffer ν) : Buffer ν := { b with closed := true, values := [] }

/-- Whether elements of an open buffer have not been part of a pane. -/
def pending (b : Buffer ν) : Bool := !b.closed && b.unfired > 0

/-- The buffer after its elements have been emitted. -/
def fired (b : Buffer ν) (mode : AccumulationMode) (timing : PaneTiming) : Buffer ν where
  values := match mode with
    | .discarding => []
    | .accumulating => b.values
  unfired := 0
  panesFired := b.panesFired + 1
  onTimeFired := b.onTimeFired || timing == .onTime
  closed := b.closed

end Buffer

namespace Grouper

variable {s : Strategy}

/-- When a pane fires relative to the end of its window. -/
def timing (g : Grouper s ν) (w : Window) (onTimeFired : Bool) : PaneTiming :=
  if g.watermark ≤ w.maxTimestamp then .early else if onTimeFired then .late else .onTime

/-- Emit a pane of a window, unless all its elements have been part of one. -/
def emit (g : Grouper s ν) (w : Window) (isLast : Bool) : Grouper s ν :=
  match g.buffers.find? w with
  | none => g
  | some b =>
    if b.unfired = 0 then g
    else
      let timing := g.timing w b.onTimeFired
      let info : PaneInfo := ⟨b.panesFired, b.panesFired == 0, isLast, timing⟩
      { g with
        buffers := g.buffers.insert w (b.fired s.mode timing)
        panes := g.panes ++ [⟨w, info, b.values⟩] }

def close (g : Grouper s ν) (w : Window) : Grouper s ν :=
  { g with buffers := g.buffers.modify w Buffer.close }

/-- Act on the trigger's answer to an element or a timer. -/
def act (g : Grouper s ν) (w : Window) (o : Outcome) : Grouper s ν :=
  let g := if o.fires then g.emit w o.finishes else g
  if o.finishes then g.close w else g

/-- Act on the trigger's answer to a merge. -/
def actOnMerge (g : Grouper s ν) (w : Window) : MergeOutcome → Grouper s ν
  | .idle => g
  | .fire => g.emit w false
  | .fireAndFinish => (g.emit w true).close w
  | .alreadyFinished => g.close w

/-- Deliver a due event to the trigger and act on the answer. -/
def settle (g : Grouper s ν) (w : Window)
    (answer : Except Fault Outcome × TriggerState s.trigger) : Except Fault (Grouper s ν) :=
  answer.1.map fun o => { g with state := answer.2 }.act w o

def opened (g : Grouper s ν) (w : Window) : Grouper s ν :=
  if g.buffers.contains w then g else { g with buffers := g.buffers.insert w {} }

/-- The buffer that the merged windows leave. -/
def mergedBuffer (g : Grouper s ν) (olds : List Window) : Buffer ν × WindowMap (Buffer ν) :=
  olds.foldl (fun p w =>
    match p.2.find? w with
    | some b => (p.1.absorb b, p.2.erase w)
    | none => p) ({}, g.buffers)

/-- Perform one merge: the new window takes over the buffers and the trigger state of the old
ones. -/
def mergeOne (g : Grouper s ν) (m : Merge) : Except Fault (Grouper s ν) :=
  let (merged, buffers) := g.mergedBuffer m.olds
  let (answer, state) := g.state.merge m
  answer.map fun o => { g with state, buffers := buffers.insert m.into merged }.actOnMerge m.into o

/-- Perform merges in turn, and answer the window in which a window ends up. -/
def mergeEach : List Merge → Grouper s ν → Window → Except Fault (Grouper s ν × Window)
  | [], g, w => .ok (g, w)
  | m :: rest, g, w => do
    mergeEach rest (← g.mergeOne m) (if w ∈ m.olds then m.into else w)

/-- Perform every merge the window function asks for. -/
def mergeWindows (g : Grouper s ν) (assigned : Window) : Except Fault (Grouper s ν × Window) :=
  if s.windowFn.nonMerging then .ok (g, assigned)
  else do mergeEach (← s.windowFn.merge g.buffers.keys) g assigned

/-- Put an element into the buffer of a window and tell the trigger; a closed window drops it. -/
def deliver (g : Grouper s ν) (w : Window) (timestamp : Int) (v : ν) :
    Except Fault (Grouper s ν) :=
  let b := (g.buffers.find? w).getD {}
  if b.closed then .ok g
  else
    { g with buffers := g.buffers.insert w (b.push v) }.settle w (g.state.element ⟨w, timestamp⟩)

/-- Place an element that lists a window. A listing whose window can fire no more is dropped. -/
def place (g : Grouper s ν) (timestamp : Int) (v : ν) (assigned : Window) :
    Except Fault (Grouper s ν) :=
  if s.expiry assigned < g.watermark then .ok g
  else do
    let (g, w) ← (g.opened assigned).mergeWindows assigned
    g.deliver w timestamp v

/-- Deliver a timer; a window that is closed or gone drops it. -/
def deliverTimer (g : Grouper s ν) (a : Timer) : Except Fault (Grouper s ν) :=
  if (g.buffers.find? a.window).any fun b => !b.closed then
    g.settle a.window (g.state.timer a.event)
  else .ok g

/-- Deliver at most `fuel` due timers, earliest first. -/
def drain : (fuel : Nat) → Grouper s ν → Except Fault (Grouper s ν)
  | 0, g => .ok g
  | fuel + 1, g =>
    match g.state.popDue g.watermark with
    | none => .ok g
    | some (a, state) => do drain fuel (← { g with state }.deliverTimer a)

/-- Emit what a window still holds, and forget the window. -/
def collect (g : Grouper s ν) (w : Window) : Grouper s ν :=
  let g := if (g.buffers.find? w).any Buffer.pending then g.emit w true else g
  { g with buffers := g.buffers.erase w, state := g.state.erase w }

/-- The windows to collect, by expiry and then by window. Once the input has ended these are all
windows, for an expiry may saturate at the end of time. -/
def expired (g : Grouper s ν) : List Window :=
  let due := g.buffers.keys.filter fun w => g.watermark == maxTime || s.expiry w < g.watermark
  due.mergeSort fun v w => s.expiry v < s.expiry w || s.expiry v == s.expiry w && !decide (w < v)

/-- Move the watermark forward, deliver the timers it passes and collect expired windows. A delivery
spends its timer and no policy of this library sets one on a delivery, so there are at most as many
deliveries as timers due at the start. -/
def advance (g : Grouper s ν) (target : Int) : Except Fault (Grouper s ν) :=
  if target ≤ g.watermark then .ok g
  else do
    let g := { g with watermark := target }
    let g ← drain (g.state.dueTimers target).length g
    return g.expired.foldl collect g

/-- Take one element: the watermark first, and then each window it lists. -/
def take (mode : InputWatermark) (g : Grouper s ν) (e : Envelope ν) :
    Except Fault (Grouper s ν) := do
  let g ← match mode with
    | .elementTime => g.advance e.timestamp
    | .heldUntilEnd => .ok g
  e.windows.foldlM (fun g w => g.place e.timestamp e.value w) g

/-- The elements in event-time order; elements of one timestamp keep their order. -/
def inTimeOrder (elements : List (Envelope ν)) : List (Envelope ν) :=
  elements.mergeSort fun a b => a.timestamp ≤ b.timestamp

/-- Group every element of one key and answer the panes in firing order. -/
def run (s : Strategy) (mode : InputWatermark) (elements : List (Envelope ν)) :
    Except Fault (List (Pane ν)) := do
  let g ← (inTimeOrder elements).foldlM (take mode) ({} : Grouper s ν)
  let g ← g.advance maxTime
  return g.panes

end Grouper

end EventTime
