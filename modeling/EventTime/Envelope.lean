import EventTime.Window

/-!
# Envelopes

Every element travels with its timestamp, the windows it belongs to, and the firing that produced
it.
-/

namespace EventTime

/-- When a pane fired relative to the end of its window. -/
inductive PaneTiming
  /-- Before the watermark passed the end of the window. -/
  | early
  /-- Because the watermark passed the end of the window. -/
  | onTime
  /-- After a pane had already fired on time. -/
  | late
  /-- The element has not been grouped. -/
  | unknown
  deriving DecidableEq, Repr

/-- Which firing of a window produced an element. -/
structure PaneInfo where
  index : Nat
  isFirst : Bool
  isLast : Bool
  timing : PaneTiming
  deriving DecidableEq, Repr

/-- The pane of an element that has not been grouped. -/
def PaneInfo.noFiring : PaneInfo := ⟨0, true, true, .unknown⟩

/-- The only pane of a window, fired when the watermark passed its end. -/
def PaneInfo.onTimeAndOnly : PaneInfo := ⟨0, true, true, .onTime⟩

/-- A value with its timestamp. -/
structure Timestamped (α : Type) where
  timestamp : Int
  value : α
  deriving DecidableEq, Repr

/-- A value with its timestamp, its windows and its pane. -/
structure Envelope (α : Type) where
  value : α
  timestamp : Int
  windows : List Window
  pane : PaneInfo
  deriving DecidableEq, Repr

namespace Envelope

variable {α β : Type}

/-- A value in the global window at `timestamp`. -/
def stamped (value : α) (timestamp : Int) : Envelope α :=
  ⟨value, timestamp, [.global], .noFiring⟩

/-- A value in the global window at the smallest event time. -/
def inGlobalWindow (value : α) : Envelope α := stamped value minTime

/-- A value produced by a firing of `window`, stamped with the last timestamp of the window. -/
def ofPane (value : α) (window : Window) (pane : PaneInfo) : Envelope α :=
  ⟨value, window.maxTimestamp, [window], pane⟩

/-- The same envelope around another value. -/
def withValue (e : Envelope α) (value : β) : Envelope β :=
  ⟨value, e.timestamp, e.windows, e.pane⟩

end Envelope

end EventTime
