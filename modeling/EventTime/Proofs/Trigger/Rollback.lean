import EventTime.Proofs.Trigger.Timers
import EventTime.Proofs.WindowMap

/-!
# Events that fail

An event that fails leaves every window as it was: whether it has a state, and in that state the
finished bits, counters and timers. Nothing is asked of the tree. An event changes no window but
those it saves, however far the evaluation got, so putting them back restores the whole state.
-/

namespace EventTime

namespace TriggerState

variable {t : Trigger} {ρ : Type}

theorem find?_restore_saved (s s' : TriggerState t) (windows : List Window) (w : Window) :
    (s'.restore (s.saved windows)).find? w = if w ∈ windows then s.find? w else s'.find? w :=
  WindowMap.find?_foldr_set s s' windows w

/-- A failed step is undone once the windows it may have changed are put back. -/
theorem commit_error {s s' : TriggerState t} {windows : List Window}
    (hagree : ∀ w, w ∉ windows → s'.find? w = s.find? w) {answer : Except Fault ρ} {fault : Fault}
    (h : (s'.commit (s.saved windows) answer).1 = .error fault) :
    (s'.commit (s.saved windows) answer).2 = s := by
  cases answer with
  | ok a => cases h
  | error e =>
    refine WindowMap.ext_find? fun w => (find?_restore_saved s s' windows w).trans ?_
    split
    · rfl
    · rename_i hw
      exact hagree w hw

theorem find?_keep_of_ne (s : TriggerState t) {w v : Window} (h : w ≠ v)
    (step : Step t.State ρ) : (s.keep w step).find? v = s.find? v := by
  unfold keep
  split
  · rw [WindowMap.find?_insert_of_ne h]
  · rfl

theorem find?_element_of_ne (s : TriggerState t) {e : ElementEvent} {v : Window}
    (h : e.window ≠ v) : (s.element e).2.find? v = s.find? v := by
  simp only [element, commit]
  split
  · exact find?_keep_of_ne s h _
  · rw [find?_restore_saved, if_neg (List.mem_singleton.not.mpr h.symm), find?_keep_of_ne s h]

theorem find?_timer_of_ne (s : TriggerState t) {e : TimerEvent} {v : Window}
    (h : e.window ≠ v) : (s.timer e).2.find? v = s.find? v := by
  simp only [timer, commit]
  split
  · split
    · exact find?_keep_of_ne s h _
    · rw [find?_restore_saved, if_neg (List.mem_singleton.not.mpr h.symm), find?_keep_of_ne s h]
  · rfl

theorem find?_keep_self (s : TriggerState t) (w : Window) (step : Step t.State ρ) :
    (s.keep w step).find? w =
      if step.wrote || (s.find? w).isSome then some step.state else s.find? w := by
  unfold keep WindowMap.contains
  split
  · exact WindowMap.find?_insert_self ..
  · rfl

theorem find?_commit_self {s : TriggerState t} (s' : TriggerState t) {w : Window}
    {answer : Except Fault ρ} : (s'.commit (s.saved [w]) answer).2.find? w =
      match answer with
      | .ok _ => s'.find? w
      | .error _ => s.find? w := by
  cases answer with
  | ok a => rfl
  | error e => exact (find?_restore_saved s s' [w] w).trans (if_pos (List.mem_singleton_self w))

theorem commit_answer {s : TriggerState t} {windows : List (Window × Option t.State)}
    {answer : Except Fault ρ} : (s.commit windows answer).1 = answer := by
  cases answer <;> rfl

/-- An element is answered, and leaves its window, according to the state of that window alone. -/
theorem element_congr {s s' : TriggerState t} {e : ElementEvent}
    (h : s'.find? e.window = s.find? e.window) : (s'.element e).1 = (s.element e).1 ∧
      (s'.element e).2.find? e.window = (s.element e).2.find? e.window := by
  have hstate : s'.stateOf e.window = s.stateOf e.window := by rw [stateOf, h, stateOf]
  simp only [element, hstate, commit_answer, find?_commit_self, find?_keep_self, h, and_self]

theorem timer_congr {s s' : TriggerState t} {e : TimerEvent}
    (h : s'.find? e.window = s.find? e.window) : (s'.timer e).1 = (s.timer e).1 ∧
      (s'.timer e).2.find? e.window = (s.timer e).2.find? e.window := by
  have hstate : s'.stateOf e.window = s.stateOf e.window := by rw [stateOf, h, stateOf]
  have hcontains : s'.contains e.window = s.contains e.window := by
    rw [WindowMap.contains, h, WindowMap.contains]
  unfold timer
  rw [hcontains]
  split
  · simp only [hstate, commit_answer, find?_commit_self, find?_keep_self, h, and_self]
  · exact ⟨rfl, h⟩

theorem element_error {s : TriggerState t} {e : ElementEvent} {fault : Fault}
    (h : (s.element e).1 = .error fault) : (s.element e).2 = s :=
  commit_error (fun _ hw => find?_keep_of_ne s (Ne.symm (List.ne_of_not_mem_cons hw)) _) h

theorem timer_error {s : TriggerState t} {e : TimerEvent} {fault : Fault}
    (h : (s.timer e).1 = .error fault) : (s.timer e).2 = s := by
  unfold timer at h ⊢
  split
  · rename_i hc
    rw [if_pos hc] at h
    exact commit_error (fun _ hw => find?_keep_of_ne s (Ne.symm (List.ne_of_not_mem_cons hw)) _) h
  · rfl

/-- The old windows are saved before their states are taken out, so a window that is listed twice,
or that is also the new one, is put back like the others. -/
theorem merge_error {s : TriggerState t} {m : Merge} {fault : Fault}
    (h : (s.merge m).1 = .error fault) : (s.merge m).2 = s := by
  refine commit_error (fun w hw => ?_) h
  have holds : w ∉ m.olds := fun h => hw (List.mem_append_left _ h)
  have hinto : m.into ≠ w := fun h => hw (List.mem_append_right _ (List.mem_singleton.mpr h.symm))
  rw [find?_keep_of_ne _ hinto, find?_left, if_neg holds]

end TriggerState

end EventTime
