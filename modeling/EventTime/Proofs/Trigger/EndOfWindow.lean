import EventTime.Proofs.Trigger.Timers

/-!
# The end-of-window trigger

The trigger asks for a timer at the end of its window on every element and on every merge, answers
neither, and fires when the timer comes. It never finishes.
-/

namespace EventTime

namespace TriggerState

/-- The state of a window in which the end-of-window trigger has asked for these timers. -/
def waitingFor (timers : List Int) : Trigger.endOfWindow.State := ⟨false, ({ timers } : Cell)⟩

variable {s : TriggerState .endOfWindow} {w : Window}

theorem timersFrom_waitingFor (timers : List Int) :
    Trigger.endOfWindow.timersFrom 0 (waitingFor timers).memory = timers.map fun t => (t, 0) := rfl

theorem element_waitingFor {timers : List Int} (h : s.stateOf w = waitingFor timers)
    (timestamp : Int) :
    s.element ⟨w, timestamp⟩ =
      (.ok .idle, s.insert w (waitingFor (insertTime w.maxTimestamp timers))) := by
  simp only [element, h]
  rfl

theorem timer_waitingFor {timers : List Int} {e : TimerEvent}
    (h : s.find? e.window = some (waitingFor timers)) : s.timer e = (.ok .fire, s) := by
  have heq : s.timer e = (.ok .fire, s.insert e.window (waitingFor timers)) := timer_eq h rfl
  rw [heq, WindowMap.insert_find? h]

theorem cancel_waitingFor {a : Timer} (hnode : a.node = 0)
    (h : s.find? a.window = some (waitingFor [a.timestamp])) :
    (s.cancel a).find? a.window = some (waitingFor []) := by
  rw [find?_cancel, if_pos rfl, h, Option.map_some, hnode]
  have hcell : Cell.cancel { timers := [a.timestamp] } a.timestamp = {} := by simp [Cell.cancel]
  show some (⟨false, Cell.cancel { timers := [a.timestamp] } a.timestamp⟩ : Slot Cell) = _
  rw [hcell]
  rfl

theorem merge_waitingFor {m : Merge} (hnodup : m.olds.Nodup)
    (holds : ∀ w ∈ m.olds, ∀ state, s.find? w = some state → state.finished = false)
    (hinto : m.into ∉ m.olds → s.find? m.into = none) :
    ∃ s', s.merge m = (.ok .idle, s') ∧ ∀ w, s'.find? w =
      if m.into = w then some (waitingFor [m.into.maxTimestamp])
      else if w ∈ m.olds then none else s.find? w := by
  have hrest : ∀ w, (m.olds.foldl take (.empty, s)).2.find? w =
      if w ∈ m.olds then none else s.find? w := find?_left m.olds (.empty, s)
  have hstate : (m.olds.foldl take (.empty, s)).2.stateOf m.into = waitingFor [] := by
    refine stateOf_of_none ?_
    rw [hrest]
    split
    · rfl
    · rename_i hmem
      exact hinto hmem
  have hany : ((m.olds.foldl take (.empty, s)).1.entries.map (·.2)).any (·.finished) = false := by
    rw [List.any_eq_false]
    intro state hmem
    obtain ⟨w, hw, rfl⟩ := (mem_taken hnodup).mp hmem
    cases hfind : s.find? w with
    | none => simp [stateOf_of_none hfind, Trigger.fresh, Slot.start]
    | some state => simp [stateOf_of_some hfind, holds w hw state hfind]
  have hslot : (waitingFor []).merge ((m.olds.foldl take (.empty, s)).1.entries.map (·.2))
      (Trigger.endOfWindow.onMerge m 0) = ⟨waitingFor [m.into.maxTimestamp], true, .ok .idle⟩ := by
    rw [Slot.merge, hany, if_neg Bool.false_ne_true]
    rfl
  refine ⟨(m.olds.foldl take (.empty, s)).2.insert m.into (waitingFor [m.into.maxTimestamp]), ?_,
    fun w => ?_⟩
  · simp only [merge, hstate, hslot]
    rfl
  · rw [WindowMap.find?_insert, hrest]

end TriggerState

end EventTime
