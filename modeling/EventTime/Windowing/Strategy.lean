import EventTime.Windowing.Fn
import EventTime.Trigger.Basic

/-!
# Windowing strategies

What a grouping has to know about how a collection is windowed.
-/

namespace EventTime

/-- Whether the later panes of a window include the elements of earlier ones. -/
inductive AccumulationMode
  | discarding
  | accumulating
  deriving DecidableEq, Repr

/-- How a collection is windowed: the windows, when they fire, what their panes hold, and for how
long after the end of a window late elements are still taken. -/
structure Strategy where
  windowFn : WindowFn := .global
  trigger : Trigger := .endOfWindow
  mode : AccumulationMode := .discarding
  lateness : Int := 0

namespace Strategy

/-- Past this time a window cannot fire any more: the allowed lateness after the trigger's cutoff or
the end of the window, whichever is earlier. -/
def expiry (s : Strategy) (w : Window) : Int :=
  later (min (s.trigger.cutoff w) w.maxTimestamp) s.lateness

/-- Whether values may be reduced before they are grouped: windows never merge, and each fires at
its end only. -/
def allowsLifting (s : Strategy) : Bool := s.windowFn.nonMerging && s.trigger.isDefault

end Strategy

end EventTime
