import EventTime.Proofs.Trigger.Finished
import EventTime.Proofs.Trigger.Deliveries

/-!
# What an event does to the root

The answer to an event tells whether the root has finished in the window of the event, whatever the
tree does below: an unfinished root finishes exactly on an answer that finishes. The answer to a
merge tells this of the new window, where nothing had been seen before. Windows that the event is
not about keep their states.
-/

namespace EventTime

section Slots

variable {σ : Type} {s : Slot σ}

theorem Step.finish_writes {ρ : Type} {r : Step σ ρ} {finishes : ρ → Bool}
    (h : (r.next (Slot.mk false) fun m o =>
      ⟨⟨false || finishes o, m⟩, finishes o, .ok o⟩).state.finished = true) :
    (r.next (Slot.mk false) fun m o =>
      ⟨⟨false || finishes o, m⟩, finishes o, .ok o⟩).wrote = true := by
  cases ho : r.answer with
  | ok o =>
    rw [Step.next_ok ho] at h ⊢
    have hfinishes : finishes o = true := (Bool.false_or _).symm.trans h
    exact Bool.or_eq_true_iff.mpr (.inr hfinishes)
  | error e =>
    rw [Step.next_error ho] at h
    cases h

theorem Slot.offer_writes {run : σ → Step σ Outcome} (hs : s.finished = false)
    (h : (s.offer run).state.finished = true) : (s.offer run).wrote = true := by
  simp only [Slot.offer, hs, Bool.false_eq_true, if_false] at h ⊢
  exact Step.finish_writes h

theorem Slot.merge_writes {olds : List (Slot σ)} {run : List σ → σ → Step σ MergeOutcome}
    (hs : s.finished = false) (h : (s.merge olds run).state.finished = true) :
    (s.merge olds run).wrote = true := by
  unfold Slot.merge at h ⊢
  split
  · rfl
  · rename_i hopen
    simp only [hopen, hs, Bool.false_eq_true, if_false] at h ⊢
    exact Step.finish_writes h

end Slots

namespace TriggerState

variable {t : Trigger} {s s' before : TriggerState t} {w : Window} {finishes : Bool}

theorem isFinished_eq : s.isFinished w 0 = (s.stateOf w).finished :=
  Bool.eq_iff_iff.mpr isFinished_root

theorem not_isFinished_of_none (h : s.find? w = none) : s.isFinished w 0 = false := by
  rw [isFinished, h]
  rfl

/-- The root of a window has finished or not as told, and the other windows are as they were
before. -/
structure Told (s before : TriggerState t) (w : Window) (finishes : Bool) : Prop where
  root : s.isFinished w 0 = finishes
  others : ∀ v, w ≠ v → s.find? v = before.find? v

theorem Told.isFinished_of_ne (h : s.Told before w finishes) {v : Window} (hv : w ≠ v) :
    s.isFinished v 0 = before.isFinished v 0 := by
  rw [isFinished, h.others v hv, isFinished]

theorem Told.contains (h : s.Told before w finishes) {v : Window} (hv : s.contains v = true) :
    w = v ∨ before.contains v = true := by
  by_cases hw : w = v
  · exact .inl hw
  · refine .inr ?_
    rwa [WindowMap.contains, h.others v hw] at hv

theorem told_keep {ρ : Type} {step : Step t.State ρ} (hw : (s.stateOf w).finished = false)
    (hwrites : step.state.finished = true → step.wrote = true) :
    (s.keep w step).Told s w step.state.finished := by
  refine ⟨?_, fun v hv => find?_keep_of_ne s hv step⟩
  rw [isFinished_eq]
  unfold keep
  split
  · rw [stateOf_insert]
  · rename_i hquiet
    rw [hw]
    cases hroot : step.state.finished with
    | false => rfl
    | true => simp [hwrites hroot] at hquiet

theorem told_offer {run : t.Memory → Step t.Memory Outcome} {o : Outcome}
    (hw : s.isFinished w 0 = false) (ho : ((s.stateOf w).offer run).answer = .ok o) :
    (s.keep w ((s.stateOf w).offer run)).Told s w o.finishes := by
  rw [isFinished_eq] at hw
  have hafter := Slot.offer_ensures (C := fun _ _ => True) trivial (fun _ _ => trivial) o ho
  rw [hw, Slot.After, Bool.false_or] at hafter
  exact hafter.1 ▸ told_keep hw (Slot.offer_writes hw)

theorem commit_ok {ρ : Type} {windows : List (Window × Option t.State)} {answer : Except Fault ρ}
    {a : ρ} (h : s.commit windows answer = (.ok a, s')) : answer = .ok a ∧ s' = s := by
  cases answer with
  | ok b =>
    cases h
    exact ⟨rfl, rfl⟩
  | error e => cases h

theorem element_told {e : ElementEvent} {o : Outcome} (hw : s.isFinished e.window 0 = false)
    (h : s.element e = (.ok o, s')) : s'.Told s e.window o.finishes := by
  obtain ⟨ho, rfl⟩ := commit_ok h
  exact told_offer hw ho

theorem timer_told {e : TimerEvent} {o : Outcome} (hw : s.isFinished e.window 0 = false)
    (h : s.timer e = (.ok o, s')) : s'.Told s e.window o.finishes := by
  unfold timer at h
  split at h
  · obtain ⟨ho, rfl⟩ := commit_ok h
    exact told_offer hw ho
  · cases h
    exact ⟨hw, fun _ _ => rfl⟩

/-- A merge into a window where nothing has been seen uses up the states of the old windows. Unless
it answers that the root had finished in one of them, it had finished in none. -/
theorem merge_told {m : Merge} (hnodup : m.olds.Nodup)
    (hinto : m.into ∉ m.olds → s.find? m.into = none) {o : MergeOutcome}
    (h : s.merge m = (.ok o, s')) :
    s'.Told (m.olds.foldl take (.empty, s)).2 m.into o.finishes ∧
      (o ≠ .alreadyFinished → ∀ w ∈ m.olds, s.isFinished w 0 = false) := by
  have hfresh : (stateOf (m.olds.foldl take (.empty, s)).2 m.into).finished = false := by
    rw [← isFinished_eq]
    refine not_isFinished_of_none ?_
    rw [find?_left]
    split
    · rfl
    · rename_i hmem
      exact hinto hmem
  have hcommit : commit _ _ (s.mergeStep m).answer = (.ok o, s') := h
  obtain ⟨ho, rfl⟩ := commit_ok hcommit
  have hafter := Slot.merge_ensures (C := fun _ _ => True) (fun _ _ _ => trivial) trivial
    (fun _ _ => trivial) o ho
  rw [hfresh, Slot.After, Bool.false_or] at hafter
  refine ⟨hafter.1 ▸ told_keep hfresh (Slot.merge_writes hfresh), fun hne w hw => ?_⟩
  by_contra hfinished
  rw [Bool.not_eq_false, isFinished_root] at hfinished
  obtain ⟨state, s'', hmerge, -⟩ := merge_finished hnodup ⟨w, hw, hfinished⟩
  rw [h] at hmerge
  exact hne (Except.ok.inj (congrArg Prod.fst hmerge))

theorem isFinished_cancel (s : TriggerState t) (a : Timer) (w : Window) :
    (s.cancel a).isFinished w 0 = s.isFinished w 0 := by
  rw [isFinished_eq, isFinished_eq, stateOf, stateOf, find?_cancel]
  split
  · cases s.find? w <;> rfl
  · rfl

theorem contains_cancel (s : TriggerState t) (a : Timer) (w : Window) :
    (s.cancel a).contains w = s.contains w := by
  rw [WindowMap.contains, find?_cancel, WindowMap.contains]
  split
  · exact Option.isSome_map
  · rfl

end TriggerState

end EventTime
