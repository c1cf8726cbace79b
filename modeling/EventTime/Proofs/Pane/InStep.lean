import Mathlib.Data.List.Permutation
import EventTime.Proofs.Pane.Answers
import EventTime.Proofs.Pane.Flush
import EventTime.Proofs.Pane.Trail
import EventTime.Proofs.Trigger.Roots

/-!
# Buffers in step with the trigger

Buffers and trigger state change at different places: an element goes into a buffer before the
trigger hears of it, a merge makes an open buffer before the trigger answers that the new window has
finished, and a buffer is closed after that. Between the operations they agree nevertheless: a
window with trigger state has a buffer, and the buffer is closed if and only if the root of the
trigger has finished in the window.
-/

namespace EventTime

variable {ν : Type} {s : Strategy}

/-- A buffer that agrees with a root that has finished, or has not: it is closed exactly if the root
has finished, and holds nothing then. While it is open it holds what is to be fired, and nothing
else if fired values are discarded. -/
structure Buffer.Fits (b : Buffer ν) (mode : AccumulationMode) (finished : Bool) : Prop where
  closed_iff : b.closed = true ↔ finished = true
  emptied : b.closed = true → b.values = []
  unfired_le : b.closed = false → b.unfired ≤ b.values.length
  unfired_eq : b.closed = false → mode = .discarding → b.unfired = b.values.length

namespace Buffer

variable {b : Buffer ν} {mode : AccumulationMode}

theorem fits_of_open (hopen : b.closed = false) (hle : b.unfired ≤ b.values.length)
    (heq : mode = .discarding → b.unfired = b.values.length) : b.Fits mode false :=
  ⟨by simp [hopen], by simp [hopen], fun _ => hle, fun _ => heq⟩

theorem Fits.closed_eq {finished : Bool} (h : b.Fits mode finished) : b.closed = finished :=
  Bool.eq_iff_iff.mpr h.closed_iff

theorem fits_empty : ({} : Buffer ν).Fits mode false :=
  fits_of_open rfl (Nat.le_refl _) fun _ => rfl

theorem fits_close : b.close.Fits mode true :=
  ⟨Iff.rfl, fun _ => rfl, nofun, nofun⟩

theorem Fits.push (h : b.Fits mode false) (v : ν) : (b.push v).Fits mode false := by
  have hlength : (b.push v).values.length = b.values.length + 1 := List.length_append
  refine fits_of_open h.closed_eq ?_ fun hmode => ?_
  · rw [hlength]
    exact Nat.succ_le_succ (h.unfired_le h.closed_eq)
  · rw [hlength]
    exact congrArg Nat.succ (h.unfired_eq h.closed_eq hmode)

theorem Fits.fired (h : b.Fits mode false) (timing : PaneTiming) :
    (b.fired mode timing).Fits mode false := by
  refine fits_of_open h.closed_eq (Nat.zero_le _) fun hmode => ?_
  subst hmode
  rfl

theorem Fits.absorb (h : b.Fits mode false) {old : Buffer ν} (hold : old.Fits mode false) :
    (b.absorb old).Fits mode false := by
  have hlength : (b.absorb old).values.length = b.values.length + old.values.length :=
    List.length_append
  refine fits_of_open h.closed_eq ?_ fun hmode => ?_
  · rw [hlength]
    exact Nat.add_le_add (h.unfired_le h.closed_eq) (hold.unfired_le hold.closed_eq)
  · rw [hlength, ← h.unfired_eq h.closed_eq hmode, ← hold.unfired_eq hold.closed_eq hmode]
    rfl

theorem Fits.absorbAll {bs : List (Buffer ν)} (hbs : ∀ c ∈ bs, c.Fits mode false)
    (h : b.Fits mode false) : (bs.foldl Buffer.absorb b).Fits mode false := by
  induction bs generalizing b with
  | nil => exact h
  | cons c rest ih =>
    obtain ⟨hc, hrest⟩ := List.forall_mem_cons.mp hbs
    exact ih hrest (h.absorb hc)

end Buffer

namespace Grouper

variable {g g' : Grouper s ν} {w v : Window} {finished : Bool}

/-- The buffer of a window, if there is one, agrees with the root. -/
def FitsAt (g : Grouper s ν) (w : Window) (finished : Bool) : Prop :=
  ∀ b, g.buffers.find? w = some b → b.Fits s.mode finished

/-- A window with trigger state has a buffer, and every buffer agrees with the root of the trigger
in its window. -/
structure InStep (g : Grouper s ν) : Prop where
  buffered : ∀ w, g.state.contains w = true → g.Has w
  fits : ∀ w, g.FitsAt w (g.state.isFinished w 0)

theorem FitsAt.congr (h : g.FitsAt v finished)
    (hv : g'.buffers.find? v = g.buffers.find? v) : g'.FitsAt v finished :=
  fun b hb => h b (hv ▸ hb)

theorem FitsAt.emit (h : g.FitsAt w false) (isLast : Bool) : (g.emit w isLast).FitsAt w false := by
  rcases emit_cases g w isLast with he | ⟨b, hb, hu⟩
  · rwa [he]
  · intro c hc
    rw [find?_emit_self hb hu, Option.some.injEq] at hc
    exact hc ▸ (h b hb).fired _

theorem fitsAt_close (g : Grouper s ν) (w : Window) : (g.close w).FitsAt w true := by
  intro b hb
  rw [find?_close, if_pos rfl] at hb
  obtain ⟨c, -, rfl⟩ := Option.map_eq_some_iff.mp hb
  exact Buffer.fits_close

theorem find?_act_of_ne (hv : w ≠ v) (o : Outcome) :
    (g.act w o).buffers.find? v = g.buffers.find? v := by
  cases o with
  | idle => rfl
  | fire => exact find?_emit_of_ne hv
  | fireAndFinish =>
    show ((g.emit w true).close w).buffers.find? v = _
    rw [find?_close, if_neg hv, find?_emit_of_ne hv]

theorem FitsAt.act (h : g.FitsAt w false) (o : Outcome) : (g.act w o).FitsAt w o.finishes := by
  cases o with
  | idle => exact h
  | fire => exact h.emit false
  | fireAndFinish => exact fitsAt_close (g.emit w true) w

/-- In step in all windows but one, where the root has finished or not as told and the buffer has
still to follow. -/
structure InStepBut (g : Grouper s ν) (w : Window) (finishes : Bool) : Prop where
  buffered : ∀ v, g.state.contains v = true → g.Has v
  root : g.state.isFinished w 0 = finishes
  others : ∀ v, w ≠ v → g.FitsAt v (g.state.isFinished v 0)

theorem InStepBut.act {o : Outcome} (h : g.InStepBut w o.finishes) (hw : g.FitsAt w false) :
    (g.act w o).InStep := by
  refine ⟨fun v hv => ?_, fun v => ?_⟩
  · rw [act_state] at hv
    exact has_act.mpr (h.buffered v hv)
  · rw [act_state]
    by_cases hv : w = v
    · subst hv
      exact h.root ▸ hw.act o
    · exact (h.others v hv).congr (find?_act_of_ne hv o)

theorem InStepBut.close (h : g.InStepBut w true) : (g.close w).InStep := by
  refine ⟨fun v hv => has_close.mpr (h.buffered v hv), fun v => ?_⟩
  show (g.close w).FitsAt v (g.state.isFinished v 0)
  by_cases hv : w = v
  · subst hv
    exact h.root ▸ fitsAt_close g w
  · exact (h.others v hv).congr ((find?_close ..).trans (if_neg hv))

theorem InStepBut.actOnMerge {o : MergeOutcome} (h : g.InStepBut w o.finishes)
    (hw : o ≠ .alreadyFinished → g.FitsAt w false) : (g.actOnMerge w o).InStep := by
  by_cases ho : o = .alreadyFinished
  · subst ho
    exact h.close
  · obtain ⟨o', hact, -, hfinishes⟩ := g.actOnMerge_eq w ho
    exact hact ▸ (hfinishes ▸ h).act (hw ho)

theorem InStep.find?_state_of_none (h : g.InStep) (hw : g.buffers.find? w = none) :
    g.state.find? w = none := by
  cases hstate : g.state.find? w with
  | none => rfl
  | some state =>
    obtain ⟨b, hb⟩ := h.buffered w (WindowMap.contains_iff.mpr ⟨state, hstate⟩)
    rw [hw] at hb
    cases hb

/-- A window without a buffer agrees with an empty one. -/
theorem InStep.fits_getD (h : g.InStep) (w : Window) :
    ((g.buffers.find? w).getD {}).Fits s.mode (g.state.isFinished w 0) := by
  cases hb : g.buffers.find? w with
  | none =>
    rw [TriggerState.not_isFinished_of_none (h.find?_state_of_none hb)]
    exact Buffer.fits_empty
  | some b => exact h.fits w b hb

theorem InStep.unfinished (h : g.InStep) (hw : (g.buffers.find? w).any (·.closed) = false) :
    g.state.isFinished w 0 = false := by
  rw [← (h.fits_getD w).closed_eq, closed_getD, hw]

theorem InStep.told (h : g.InStep) (hstate : g'.state.Told g.state w finished) (hw : g'.Has w)
    (hbuffers : ∀ v, w ≠ v → g'.buffers.find? v = g.buffers.find? v) : g'.InStepBut w finished := by
  refine ⟨fun v hv => ?_, hstate.root, fun v hv => ?_⟩
  · by_cases hv' : w = v
    · exact hv' ▸ hw
    · obtain ⟨b, hb⟩ := h.buffered v ((hstate.contains hv).resolve_left hv')
      exact ⟨b, (hbuffers v hv').trans hb⟩
  · rw [hstate.isFinished_of_ne hv]
    exact (h.fits v).congr (hbuffers v hv)

theorem InStep.opened (h : g.InStep) (w : Window) : (g.opened w).InStep := by
  refine ⟨fun v hv => has_opened.mpr (.inr (h.buffered v (opened_state g w ▸ hv))),
    fun v b hb => ?_⟩
  rw [opened_state]
  rw [find?_opened] at hb
  split at hb
  · rename_i hv
    subst hv
    obtain rfl := Option.some.inj hb
    exact h.fits_getD w
  · exact h.fits v b hb

theorem InStep.deliver (h : g.InStep) {timestamp : Int} {x : ν}
    (heq : g.deliver w timestamp x = .ok g') : g'.InStep := by
  cases hc : (g.buffers.find? w).any (·.closed) with
  | true => exact Except.ok.inj ((deliver_closed hc).symm.trans heq) ▸ h
  | false =>
    rw [deliver_open hc] at heq
    obtain ⟨o, ho, rfl⟩ := ok_of_map heq
    have hunfinished := h.unfinished hc
    have hbuffer : ((g.buffers.find? w).getD {}).Fits s.mode false :=
      hunfinished ▸ h.fits_getD w
    have htold := TriggerState.element_told (e := ⟨w, timestamp⟩) hunfinished (Prod.ext ho rfl)
    have hpushed : InStepBut { g with
        state := (g.state.element ⟨w, timestamp⟩).2
        buffers := g.buffers.insert w (((g.buffers.find? w).getD {}).push x) } w o.finishes :=
      h.told htold ⟨_, WindowMap.find?_insert_self ..⟩
        fun v hv => WindowMap.find?_insert_of_ne hv ..
    refine hpushed.act fun b hb => ?_
    obtain rfl := Option.some.inj ((WindowMap.find?_insert_self ..).symm.trans hb)
    exact hbuffer.push x

theorem InStep.cancel (h : g.InStep) (a : Timer) :
    InStep { g with state := g.state.cancel a } := by
  refine ⟨fun v hv => h.buffered v (TriggerState.contains_cancel g.state a v ▸ hv), fun v b hb => ?_⟩
  show b.Fits s.mode ((g.state.cancel a).isFinished v 0)
  rw [TriggerState.isFinished_cancel]
  exact h.fits v b hb

theorem InStep.deliverTimer (h : g.InStep) {a : Timer} (heq : g.deliverTimer a = .ok g') :
    g'.InStep := by
  rcases deliverTimer_ok heq with rfl | ⟨⟨b, hb, hopen⟩, heq⟩
  · exact h
  · obtain ⟨o, ho, rfl⟩ := ok_of_map heq
    have hunfinished : g.state.isFinished a.window 0 = false := h.unfinished (by simp [hb, hopen])
    have htold := TriggerState.timer_told (e := a.event) hunfinished (Prod.ext ho rfl)
    have htimed : InStepBut { g with state := (g.state.timer a.event).2 } a.window o.finishes :=
      h.told htold ⟨b, hb⟩ fun _ _ => rfl
    exact htimed.act (hunfinished ▸ h.fits a.window)

theorem InStep.collect (h : g.InStep) (w : Window) : (g.collect w).InStep := by
  refine ⟨fun v hv => ?_, fun v b hb => ?_⟩
  · rw [collect_state, WindowMap.contains, WindowMap.find?_erase] at hv
    split at hv
    · cases hv
    · rename_i hne
      obtain ⟨b, hb⟩ := h.buffered v hv
      exact ⟨b, (find?_collect ..).trans ((if_neg hne).trans hb)⟩
  · rw [find?_collect] at hb
    split at hb
    · cases hb
    · rename_i hne
      rw [collect_state, TriggerState.isFinished, WindowMap.find?_erase, if_neg hne]
      exact h.fits v b hb

theorem InStep.moved (h : g.InStep) {m : Merge} {state : TriggerState s.trigger}
    (hstate : state.Told (m.olds.foldl TriggerState.take (.empty, g.state)).2 m.into finished)
    {buffers : WindowMap (Buffer ν)}
    (hbuffers : ∀ v, buffers.find? v = if v ∈ m.olds then none else g.buffers.find? v) :
    (g.moved m buffers state).InStepBut m.into finished := by
  have hkept : ∀ v, v ∉ m.olds →
      (m.olds.foldl TriggerState.take (.empty, g.state)).2.find? v = g.state.find? v :=
    fun v hv => (TriggerState.find?_left ..).trans (if_neg hv)
  refine ⟨fun v hv => ?_, hstate.root, fun v hv b hb => ?_⟩
  · rw [has_moved hbuffers]
    rcases hstate.contains hv with rfl | hv
    · exact .inl rfl
    · by_cases hold : v ∈ m.olds
      · rw [WindowMap.contains, TriggerState.find?_left, if_pos hold] at hv
        cases hv
      · rw [WindowMap.contains, hkept v hold] at hv
        exact .inr ⟨h.buffered v hv, hold⟩
  · rw [find?_moved_of_ne hv, hbuffers] at hb
    split at hb
    · cases hb
    · rename_i hold
      show b.Fits s.mode (state.isFinished v 0)
      rw [hstate.isFinished_of_ne hv, TriggerState.isFinished, hkept v hold]
      exact h.fits v b hb

theorem InStep.mergeOne (h : g.InStep) {m : Merge} (hnodup : m.olds.Nodup)
    (hinto : g.Has m.into → m.into ∈ m.olds) (heq : g.mergeOne m = .ok g') : g'.InStep := by
  obtain ⟨o, buffers, hmerge, hbuffers, rfl⟩ := mergeOne_ok hnodup heq
  have hfresh : m.into ∉ m.olds → g.state.find? m.into = none := fun hout =>
    h.find?_state_of_none (Option.eq_none_iff_forall_ne_some.mpr fun b hb => hout (hinto ⟨b, hb⟩))
  obtain ⟨htold, hopen⟩ := TriggerState.merge_told hnodup hfresh (Prod.ext hmerge rfl)
  refine (h.moved htold hbuffers).actOnMerge fun hne b hb => ?_
  -- none of the old buffers was closed, so that what they held fits together
  obtain rfl := Option.some.inj ((find?_moved_into ..).symm.trans hb)
  refine Buffer.Fits.absorbAll (fun c hc => ?_) Buffer.fits_empty
  obtain ⟨w, hw, hc⟩ := List.mem_filterMap.mp hc
  exact hopen hne w hw ▸ h.fits w c hc

/-! ### Trails -/

theorem InStep.merges (h : g.InStep) {ms : List Merge} (plan : SafePlan g.Has ms) :
    Along InStep (seriesTrail (fun g m => afterwards (g.mergeOne m) ([·])) Grouper.mergeOne g ms)
      (ms.foldlM Grouper.mergeOne g) := by
  refine along_series (fun rest (g : Grouper s ν) => g.InStep ∧ SafePlan g.Has rest)
    (fun _ hg => hg.1) (fun m rest g ⟨hg, hplan⟩ => ?_) ⟨h, plan⟩
  have hmem : m ∈ m :: rest := List.mem_cons_self ..
  have hone : ∀ g', g.mergeOne m = .ok g' → g'.InStep := fun g' =>
    hg.mergeOne (hplan.nodup m hmem) (hplan.into_live m hmem)
  exact ⟨along_step hone, fun g' heq =>
    ⟨hone g' heq, hplan.tail.congr (has_mergeOne (hplan.nodup m hmem) heq)⟩⟩

theorem InStep.mergeWindows (h : g.InStep)
    (hfn : s.windowFn.nonMerging = true ∨ ∃ gap, s.windowFn = .sessions gap) (w : Window) :
    Along InStep g.mergeTrail ((g.mergeWindows w).map Prod.fst) := by
  unfold mergeTrail Grouper.mergeWindows
  split
  · exact along_ok h
  · rename_i hmerging
    obtain ⟨gap, hgap⟩ := hfn.resolve_left hmerging
    have hmerge : s.windowFn.merge g.buffers.keys = .ok (WindowFn.overlapping g.buffers.keys) := by
      rw [hgap]
      rfl
    have hplan : SafePlan g.Has (WindowFn.overlapping g.buffers.keys) :=
      (WindowFn.overlapping_safe (WindowMap.keys_sorted _)).congr fun _ => WindowMap.mem_keys.symm
    rw [hmerge]
    show Along InStep _ ((mergeEach _ g w).map Prod.fst)
    rw [mergeEach_fst]
    exact h.merges hplan

/-- Every operation between the states of a trail keeps buffers and trigger state in step. -/
theorem persistent_inStep (hfn : s.windowFn.nonMerging = true ∨ ∃ gap, s.windowFn = .sessions gap) :
    Persistent (InStep : Grouper s ν → Prop) where
  start := ⟨nofun, nofun⟩
  moved _ h := ⟨h.buffered, h.fits⟩
  opened w h := h.opened w
  merged w h := h.mergeWindows hfn w
  delivered h heq := h.deliver heq
  timed h heq := (h.cancel _).deliverTimer heq
  collected w h := h.collect w

/-- A run comes to its end, and in every state that it passes on the way buffers and trigger state
are in step. Listed windows may be any windows. -/
theorem run_in_step (hfn : s.windowFn.nonMerging = true ∨ ∃ gap, s.windowFn = .sessions gap)
    (ht : s.trigger.isBuiltIn = true) (mode : InputWatermark) (elements : List (Envelope ν)) :
    (∃ g, (trail s mode elements).getLast? = some g ∧ run s mode elements = .ok g.panes) ∧
      ∀ g ∈ trail s mode elements, g.InStep := by
  refine ⟨?_, (persistent_inStep hfn).trail mode elements⟩
  have hmerges : s.windowFn.MergesAny :=
    hfn.imp_right fun ⟨gap, hgap⟩ => hgap ▸ (WindowFn.Common.sessions gap).merge_answers
  obtain ⟨panes, hrun⟩ := run_succeeds ht hmerges mode elements
  obtain ⟨g, hlast, hpanes⟩ := run_getLast_trail hrun
  exact ⟨g, hlast, hpanes ▸ hrun⟩

/-- The second element finishes its session, and the fourth joins this session to one that is still
to fire. The merged buffer is closed without the value that had not been fired. -/
theorem run_in_step_of_bridge :
    let s : Strategy := ⟨.sessions 10, .afterCount 2, .discarding, 100⟩
    let elements : List (Envelope Nat) := [⟨1, 0, [.interval 0 10], .noFiring⟩,
      ⟨2, 5, [.interval 5 15], .noFiring⟩, ⟨3, 16, [.interval 16 26], .noFiring⟩,
      ⟨4, 17, [.interval 12 20], .noFiring⟩]
    (s.windowFn.nonMerging = true ∨ ∃ gap, s.windowFn = .sessions gap) ∧
      s.trigger.isBuiltIn = true ∧
      (∃ g, (trail s .elementTime elements).getLast? = some g ∧
        run s .elementTime elements = .ok g.panes) ∧
      ∃ g ∈ trail s .elementTime elements, g.InStep ∧
        g.buffers.find? (.interval 0 26) = some ⟨[], 1, 1, false, true⟩ ∧
        g.state.isFinished (.interval 0 26) 0 = true := by
  intro s elements
  have hfn : s.windowFn.nonMerging = true ∨ ∃ gap, s.windowFn = .sessions gap := .inr ⟨10, rfl⟩
  obtain ⟨hend, hall⟩ := run_in_step hfn rfl .elementTime elements
  have hbuffer : (trail s .elementTime elements)[13]?.map (·.buffers.find? (.interval 0 26)) =
      some (some ⟨[], 1, 1, false, true⟩) := by
    cbv
  obtain ⟨g, hg, hfind⟩ := Option.map_eq_some_iff.mp hbuffer
  have hmem := List.mem_of_getElem? hg
  have hstep := hall g hmem
  exact ⟨hfn, rfl, hend, g, hmem, hstep, hfind, (hstep.fits _ _ hfind).closed_iff.mp rfl⟩

end Grouper

end EventTime
