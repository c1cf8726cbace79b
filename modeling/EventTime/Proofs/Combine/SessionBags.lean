import EventTime.Proofs.Combine.Grouped
import EventTime.Proofs.Combine.HotKey
import EventTime.Proofs.Pane.Sessions

/-!
# Combines of sessions

A combine by key over session windows groups the values of each key and reduces each pane. It puts
out one element for each session of a key, made from an accumulator for the values of the session.
-/

namespace EventTime

variable {κ ν α ο : Type}

/-- The bags of one key: the values within each session of its rows. -/
def KeyBag (rows : List (Envelope ν)) (w : Window) (values : Multiset ν) : Prop :=
  ∃ p q, w = .interval p q ∧ IsSession (windowsOf rows) p q ∧ values = valuesWithin w rows

variable {f : KeyedCombineFn κ ν α ο} {R : κ → α → Multiset ν → Prop} {lateness : Int}
  {input : InputWatermark}

theorem run_sessions_shows (gap : Int) (mode : AccumulationMode) (hlateness : 0 ≤ lateness)
    {rows : List (Envelope ν)} (hrows : ∀ e ∈ rows, Grouper.Fits input e) :
    ∃ panes, Grouper.run (.sessions gap mode lateness) input rows = .ok panes ∧
      Shows panes .onTimeFirst (KeyBag rows) := by
  obtain ⟨panes, hrun, hnodup, hpanes, hall⟩ := run_sessions gap mode hlateness hrows
  refine ⟨panes, hrun, hnodup, fun pane hpane => ?_, ?_⟩
  · obtain ⟨hinfo, hvalues, p, q, hwindow, hs⟩ := hpanes pane hpane
    exact ⟨hinfo, p, q, hwindow, hs, hvalues⟩
  · rintro w m ⟨p, q, rfl, hs, -⟩
    exact hall p q hs

variable [DecidableEq κ]

/-- The bags of sessions: the values of a key within each session of the key's rows. -/
def SessionBag (rows : List (Envelope (κ × ν))) (key : κ) (w : Window) (values : Multiset ν) :
    Prop :=
  KeyBag (rowsOf key rows) w values

theorem combineRows_sessions (hf : f.TracksBag R) (gap : Int) (mode : AccumulationMode)
    (hlateness : 0 ≤ lateness) (width : Option Nat) {bundles : List (List (Envelope (κ × ν)))}
    (hrows : ∀ e ∈ bundles.flatten, Grouper.Fits input e) :
    Summarizes (combineRows (.sessions gap mode lateness) f width input bundles) f R .onTimeFirst
      (SessionBag bundles.flatten) := by
  have hlift : (Strategy.sessions gap mode lateness).allowsLifting = false := rfl
  rw [combineRows, hlift, if_neg Bool.false_ne_true]
  refine groupRows_summarizes hf (fun key => run_sessions_shows gap mode hlateness fun e he => ?_) ?_
  · obtain ⟨d, hd, -, rfl⟩ := mem_rowsOf.mp he
    exact hrows d hd
  · rintro w m ⟨p, q, -, hs, -⟩
    obtain ⟨v, hv, -⟩ := hs.inhabited
    cases hv

end EventTime
