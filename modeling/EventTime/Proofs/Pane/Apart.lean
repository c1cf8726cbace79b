import Mathlib.Data.List.Permutation
import EventTime.Proofs.Pane.Alike
import EventTime.Proofs.Pane.Answers

/-!
# Windows that never merge do not influence each other

The timers of all windows stand in one queue, and the windows are collected in one sweep; still each
delivery and each collection concerns one window. Two runs whose elements are alike in a window are
therefore alike in it all along, however many other windows there are in between: they share with
the others nothing but the watermark, which follows the timestamps.
-/

namespace EventTime

variable {ν ν' : Type} {s : Strategy} {R : ν → ν' → Prop} {w v : Window}

/-- Elements that cannot be told apart in a window but by their values. -/
structure Envelope.Like (R : ν → ν' → Prop) (w : Window) (e : Envelope ν) (e' : Envelope ν') :
    Prop where
  timestamp : e'.timestamp = e.timestamp
  listings : e'.windows.count w = e.windows.count w
  value : w ∈ e.windows → R e.value e'.value

/-- The element in the one window only, as often as it lists it. -/
def Envelope.onlyIn (e : Envelope ν) (w : Window) : Envelope ν :=
  { e with windows := e.windows.filter (· = w) }

theorem Envelope.like_onlyIn (e : Envelope ν) (w : Window) : e.Like Eq w (e.onlyIn w) :=
  ⟨rfl, List.count_filter (by simp), fun _ => rfl⟩

theorem Pane.Like.eq {p p' : Pane ν} (h : p.Like Eq p') : p' = p := by
  have hvalues : p.values = p'.values := List.forall₂_eq_eq_eq ▸ h.values
  cases p
  cases p'
  obtain ⟨rfl, rfl, -⟩ := h
  rw [Pane.mk.injEq]
  exact ⟨rfl, rfl, hvalues.symm⟩

namespace Grouper

section

variable {g g₁ g₂ : Grouper s ν} {g' g₁' g₂' : Grouper s ν'} {a b : Timer}

/-- A timer that is the first of its window, and due. -/
structure Next (g : Grouper s ν) (a : Timer) : Prop where
  pending : a ∈ g.state.timers
  due : a.timestamp < g.watermark
  first : ∀ b ∈ g.state.timers, b.window = a.window → a = b ∨ a < b

theorem next_of_popDue {state : TriggerState s.trigger}
    (hpop : g.state.popDue g.watermark = some (a, state)) : g.Next a := by
  obtain ⟨ha, hdue, hfirst, -⟩ := TriggerState.popDue_eq_some_iff.mp hpop
  exact ⟨ha, hdue, fun b hb _ => hfirst b hb⟩

theorem not_next (hnone : g.state.popDue g.watermark = none) : ¬g.Next a := by
  intro ha
  have hmem : a ∈ g.state.dueTimers g.watermark :=
    List.mem_filter.mpr ⟨ha.pending, decide_eq_true ha.due⟩
  rw [TriggerState.popDue_eq_none_iff.mp hnone] at hmem
  cases hmem

/-- Each window has one next timer at most. -/
theorem Next.unique (ha : g.Next a) (hb : g.Next b) (h : a.window = b.window) : a = b := by
  rcases ha.first b hb.pending h.symm with hab | hab
  · exact hab
  · rcases hb.first a ha.pending h with hba | hba
    · exact hba.symm
    · exact absurd (Timer.lt_trans hab hba) (Timer.lt_irrefl a)

/-- The next timer of a window is found in the state of that window. -/
theorem Next.congr (ha : g.Next a) (hwatermark : g'.watermark = g.watermark)
    (hstate : g'.state.find? a.window = g.state.find? a.window) : g'.Next a := by
  refine ⟨(TriggerState.mem_timers_congr hstate).mpr ha.pending, hwatermark ▸ ha.due,
    fun b hb hwindow => ?_⟩
  rw [← hwindow] at hstate
  exact ha.first b ((TriggerState.mem_timers_congr hstate).mp hb) hwindow

/-- The loop comes to the next timer of a window, after some of other windows. -/
theorem Drains.reaches (h : Drains g g₂) (ha : g.Next a) :
    ∃ g₀ g₁, g.Keeps a.window g₀ ∧
      { g₀ with state := g₀.state.cancel a }.deliverTimer a = .ok g₁ ∧ Drains g₁ g₂ := by
  induction h with
  | done hnone => exact absurd ha (not_next hnone)
  | @deliver g g₁ g₂ b hpop hone hrest ih =>
    by_cases hb : b.window = a.window
    · obtain rfl := (next_of_popDue hpop).unique ha hb
      exact ⟨g, g₁, .refl .., hone, hrest⟩
    · have hkeeps := keeps_deliverTimer hb hone
      obtain ⟨g₀, g₃, hkept, hone', hrest'⟩ := ih (ha.congr hkeeps.watermark hkeeps.state)
      exact ⟨g₀, g₃, hkeeps.trans hkept, hone', hrest'⟩

/-- Without a due timer of a window the loop keeps the window. -/
theorem Drains.keeps (h : Drains g g₂) (hnone : ∀ a, g.Next a → a.window ≠ w) : g.Keeps w g₂ := by
  induction h with
  | done => exact .refl ..
  | deliver hpop hone hrest ih =>
    have hkeeps := keeps_deliverTimer (hnone _ (next_of_popDue hpop)) hone
    refine hkeeps.trans (ih fun a ha hwindow => hnone a ?_ hwindow)
    subst hwindow
    exact ha.congr hkeeps.watermark.symm hkeeps.state.symm

theorem Alike.next (h : g.Alike R w g') (hwindow : a.window = w) : g'.Next a ↔ g.Next a := by
  subst hwindow
  exact ⟨fun ha => ha.congr h.watermark.symm h.state.symm, fun ha => ha.congr h.watermark h.state⟩

/-- Both loops deliver the same timers of the window. -/
theorem Alike.drains (h : g.Alike R w g') (hd : Drains g g₂) (hd' : Drains g' g₂') :
    g₂.Alike R w g₂' := by
  -- on the loop to the left; the other one catches up when a timer of the window is delivered
  induction hd generalizing g' with
  | @done g hnone =>
    exact h.right (hd'.keeps fun a ha hwindow => not_next hnone ((h.next hwindow).mp ha))
  | @deliver g g₁ g₂ a hpop hone hrest ih =>
    by_cases hwindow : a.window = w
    · have hnext := (h.next hwindow).mpr (next_of_popDue hpop)
      obtain ⟨g₀', g₁', hkeeps, hone', hrest'⟩ := hd'.reaches hnext
      rw [hwindow] at hkeeps
      exact ih ((h.right hkeeps).deliverTimer hwindow hone hone') hrest'
    · exact ih (h.left (keeps_deliverTimer hwindow hone)) hd'

theorem Alike.mem_expired (h : g.Alike R w g') : w ∈ g.expired ↔ w ∈ g'.expired := by
  rw [Grouper.mem_expired, Grouper.mem_expired, Due, Due, h.watermark]
  rcases h.buffer_cases with ⟨hb, hb'⟩ | ⟨b, b', hb, hb', -⟩
  · simp [hb, hb']
  · simp [hb, hb']

theorem Alike.advance (h : g.Alike R w g') (ht : s.trigger.isBuiltIn = true) {target : Int}
    (heq : g.advance target = .ok g₁) (heq' : g'.advance target = .ok g₁') :
    g₁.Alike R w g₁' := by
  by_cases hle : target ≤ g.watermark
  · rw [advance_of_le hle] at heq
    rw [advance_of_le (h.watermark ▸ hle)] at heq'
    exact Except.ok.inj heq ▸ Except.ok.inj heq' ▸ h
  · obtain ⟨g₂, hloop, hadvance⟩ := advance_of_lt (g := g) ht (Int.not_le.mp hle)
    obtain ⟨g₂', hloop', hadvance'⟩ := advance_of_lt (g := g') ht
      (h.watermark ▸ Int.not_le.mp hle)
    obtain rfl := Except.ok.inj (hadvance.symm.trans heq)
    obtain rfl := Except.ok.inj (hadvance'.symm.trans heq')
    have hset : Alike R w { g with watermark := target } { g' with watermark := target } :=
      ⟨rfl, h.state, h.buffer, h.panes⟩
    have hdrained := hset.drains hloop hloop'
    exact hdrained.collectAll (nodup_expired _) (nodup_expired _) hdrained.mem_expired

theorem keeps_placeAll (hfn : s.windowFn.nonMerging = true) {ws : List Window} (hw : w ∉ ws)
    {timestamp : Int} {x : ν} (h : ws.foldlM (fun g v => g.place timestamp x v) g = .ok g₁) :
    g.Keeps w g₁ := by
  refine foldlM_preserves (fun _ k => g.Keeps w k) (fun front v back k k₁ hws hkept hplace => ?_)
    (.refl w g) h
  have hv : v ≠ w := by
    rintro rfl
    exact hw (hws ▸ by simp)
  exact hkept.trans (keeps_place hfn hv hplace)

theorem Alike.placeAll (hfn : s.windowFn.nonMerging = true) {timestamp : Int} {x : ν} {x' : ν'}
    {ws ws' : List Window} (h : g.Alike R w g') (hcount : ws'.count w = ws.count w)
    (hx : w ∈ ws → R x x') (heq : ws.foldlM (fun g v => g.place timestamp x v) g = .ok g₁)
    (heq' : ws'.foldlM (fun g v => g.place timestamp x' v) g' = .ok g₁') : g₁.Alike R w g₁' := by
  induction ws generalizing ws' g g' with
  | nil =>
    obtain rfl := Except.ok.inj heq
    exact h.right (keeps_placeAll hfn (List.count_eq_zero.mp hcount) heq')
  | cons v ws ih =>
    rw [List.foldlM_cons] at heq
    obtain ⟨k, hplace, hrest⟩ := ok_of_bind heq
    by_cases hv : v = w
    · subst hv
      rw [List.count_cons_self] at hcount
      have hmem : v ∈ ws' := List.count_pos_iff.mp (by omega)
      -- the first listing of the window on the other side
      obtain ⟨front, back, rfl, hfront⟩ := List.eq_append_cons_of_mem hmem
      rw [List.foldlM_append] at heq'
      obtain ⟨k₀', hskip, heq'⟩ := ok_of_bind heq'
      rw [List.foldlM_cons] at heq'
      obtain ⟨k', hplace', hrest'⟩ := ok_of_bind heq'
      have hback : back.count v = ws.count v := by
        rw [List.count_append, List.count_cons_self, List.count_eq_zero.mpr hfront] at hcount
        omega
      have hk := (h.right (keeps_placeAll hfn hfront hskip)).place hfn (hx (by simp)) hplace hplace'
      exact ih hk hback (fun hmem => hx (List.mem_cons_of_mem _ hmem)) hrest hrest'
    · rw [List.count_cons_of_ne hv] at hcount
      exact ih (h.left (keeps_place hfn hv hplace)) hcount
        (fun hmem => hx (List.mem_cons_of_mem _ hmem)) hrest heq'

theorem Alike.take (ht : s.trigger.isBuiltIn = true) (hfn : s.windowFn.nonMerging = true)
    {mode : InputWatermark} {e : Envelope ν} {e' : Envelope ν'} (h : g.Alike R w g')
    (he : e.Like R w e') (heq : g.take mode e = .ok g₁) (heq' : g'.take mode e' = .ok g₁') :
    g₁.Alike R w g₁' := by
  rw [take_eq] at heq heq'
  obtain ⟨k, hfollow, hplaced⟩ := ok_of_bind heq
  obtain ⟨k', hfollow', hplaced'⟩ := ok_of_bind heq'
  rw [he.timestamp] at hfollow' hplaced'
  have hk : k.Alike R w k' := by
    cases mode with
    | elementTime => exact h.advance ht hfollow hfollow'
    | heldUntilEnd => exact Except.ok.inj hfollow ▸ Except.ok.inj hfollow' ▸ h
  exact hk.placeAll hfn he.listings he.value hplaced hplaced'

theorem Alike.takeAll (ht : s.trigger.isBuiltIn = true) (hfn : s.windowFn.nonMerging = true)
    {mode : InputWatermark} {elements : List (Envelope ν)} {others : List (Envelope ν')}
    (h : g.Alike R w g') (helements : List.Forall₂ (Envelope.Like R w) elements others)
    (heq : elements.foldlM (Grouper.take mode) g = .ok g₁)
    (heq' : others.foldlM (Grouper.take mode) g' = .ok g₁') : g₁.Alike R w g₁' := by
  induction helements generalizing g g' with
  | nil => exact Except.ok.inj heq ▸ Except.ok.inj heq' ▸ h
  | cons he _ ih =>
    rw [List.foldlM_cons] at heq heq'
    obtain ⟨k, hone, hrest⟩ := ok_of_bind heq
    obtain ⟨k', hone', hrest'⟩ := ok_of_bind heq'
    exact ih (h.take ht hfn he hone hone') hrest hrest'

end

/-! ### Runs -/

/-- The order in time depends on the timestamps only. -/
theorem forall₂_inTimeOrder {elements : List (Envelope ν)} {others : List (Envelope ν')}
    (h : List.Forall₂ (Envelope.Like R w) elements others) :
    List.Forall₂ (Envelope.Like R w) (inTimeOrder elements) (inTimeOrder others) := by
  have hlike : ∀ p ∈ elements.zip others, p.1.Like R w p.2 :=
    fun p hp => (List.forall₂_iff_zip.mp h).2 hp
  have hleft : (elements.zip others).map Prod.fst = elements :=
    List.map_fst_zip (Nat.le_of_eq h.length_eq)
  have hright : (elements.zip others).map Prod.snd = others :=
    List.map_snd_zip (Nat.le_of_eq h.length_eq.symm)
  -- sorting the pairs by the first timestamp sorts both sides
  let sorted := (elements.zip others).mergeSort fun p q => p.1.timestamp ≤ q.1.timestamp
  have hfst : sorted.map Prod.fst = inTimeOrder elements := by
    rw [inTimeOrder, ← hleft]
    exact List.map_mergeSort fun _ _ _ _ => rfl
  have hsnd : sorted.map Prod.snd = inTimeOrder others := by
    rw [inTimeOrder, ← hright]
    refine List.map_mergeSort fun p hp q hq => ?_
    rw [(hlike p hp).timestamp, (hlike q hq).timestamp]
  rw [← hfst, ← hsnd, List.forall₂_map_left_iff, List.forall₂_map_right_iff, List.forall₂_same]
  exact fun p hp => hlike p (List.mem_mergeSort.mp hp)

theorem run_alike (ht : s.trigger.isBuiltIn = true) (hfn : s.windowFn.nonMerging = true)
    {mode : InputWatermark} {elements : List (Envelope ν)} {others : List (Envelope ν')}
    (h : List.Forall₂ (Envelope.Like R w) elements others) {panes : List (Pane ν)}
    {panes' : List (Pane ν')} (heq : run s mode elements = .ok panes)
    (heq' : run s mode others = .ok panes') :
    List.Forall₂ (Pane.Like R) (panes.filter (·.window = w)) (panes'.filter (·.window = w)) := by
  obtain ⟨g, htaken, heq⟩ := ok_of_bind heq
  obtain ⟨g', htaken', heq'⟩ := ok_of_bind heq'
  obtain ⟨g₁, hend, hpanes⟩ := ok_of_bind heq
  obtain ⟨g₁', hend', hpanes'⟩ := ok_of_bind heq'
  obtain rfl := Except.ok.inj hpanes
  obtain rfl := Except.ok.inj hpanes'
  have hall := alike_start.takeAll ht hfn (forall₂_inTimeOrder h) htaken htaken'
  exact (hall.advance ht hend hend').panes

/-- Where windows never merge, a built-in trigger emits the same panes for a window when all
listings of other windows are deleted, and when the elements get other windows, or, outside the
window, other values. With other values in the window itself the same panes fire, and hold the
other values in the places of the ones they stand for. -/
theorem run_windows_apart (ht : s.trigger.isBuiltIn = true) (hfn : s.windowFn.nonMerging = true)
    (mode : InputWatermark) (w : Window) (elements : List (Envelope ν)) :
    ∃ panes, run s mode elements = .ok panes ∧
      (∃ alone, run s mode (elements.map (·.onlyIn w)) = .ok alone ∧
        alone.filter (·.window = w) = panes.filter (·.window = w)) ∧
      (∀ others : List (Envelope ν), List.Forall₂ (Envelope.Like Eq w) elements others →
        ∃ panes', run s mode others = .ok panes' ∧
          panes'.filter (·.window = w) = panes.filter (·.window = w)) ∧
      ∀ (ν' : Type) (R : ν → ν' → Prop) (others : List (Envelope ν')),
        List.Forall₂ (Envelope.Like R w) elements others →
        ∃ panes', run s mode others = .ok panes' ∧
          List.Forall₂ (Pane.Like R) (panes.filter (·.window = w))
            (panes'.filter (·.window = w)) := by
  obtain ⟨panes, hrun⟩ := run_succeeds ht (.inl hfn) mode elements
  have hrelated : ∀ (ν' : Type) (R : ν → ν' → Prop) (others : List (Envelope ν')),
      List.Forall₂ (Envelope.Like R w) elements others →
      ∃ panes', run s mode others = .ok panes' ∧
        List.Forall₂ (Pane.Like R) (panes.filter (·.window = w))
          (panes'.filter (·.window = w)) := by
    intro ν' R others h
    obtain ⟨panes', hrun'⟩ := run_succeeds ht (.inl hfn) mode others
    exact ⟨panes', hrun', run_alike ht hfn h hrun hrun'⟩
  have hequal : ∀ others : List (Envelope ν), List.Forall₂ (Envelope.Like Eq w) elements others →
      ∃ panes', run s mode others = .ok panes' ∧
        panes'.filter (·.window = w) = panes.filter (·.window = w) := by
    intro others h
    obtain ⟨panes', hrun', hlike⟩ := hrelated ν Eq others h
    have hsame := hlike.flip.imp fun _ _ => Pane.Like.eq
    rw [List.forall₂_eq_eq_eq] at hsame
    exact ⟨panes', hrun', hsame⟩
  refine ⟨panes, hrun, hequal _ ?_, hequal, hrelated⟩
  rw [List.forall₂_map_right_iff, List.forall₂_same]
  exact fun e _ => e.like_onlyIn w

/-- Eight panes fire for overlapping windows, three of them for the one that is looked at. In the other
list the elements stand beside it in other windows or in none, and the one that is not in it has
another value. -/
theorem run_windows_apart_of_sliding :
    let s : Strategy := ⟨.sliding 10 5, .repeatedly (.afterFirst [.afterWatermark, .afterCount 2]),
      .accumulating, 3⟩
    let w : Window := .interval 5 15
    let elements : List (Envelope Nat) :=
      [⟨1, 6, [.interval 0 10, w], .noFiring⟩, ⟨2, 3, [.interval (-5) 5, .interval 0 10], .noFiring⟩,
        ⟨3, 12, [.interval 10 20, w], .noFiring⟩, ⟨4, 14, [.interval 10 20, w], .noFiring⟩,
        ⟨5, 16, [.interval 10 20, .interval 15 25, w], .noFiring⟩]
    let others : List (Envelope Nat) :=
      [⟨1, 6, [w], .noFiring⟩, ⟨9, 3, [.interval 4 14], .noFiring⟩,
        ⟨3, 12, [.interval 4 14, w, .interval 10 20], .noFiring⟩, ⟨4, 14, [w], .noFiring⟩,
        ⟨5, 16, [.interval 4 14, w], .noFiring⟩]
    let fired : List (Pane Nat) :=
      [⟨w, ⟨0, true, false, .early⟩, [1, 3]⟩, ⟨w, ⟨1, false, false, .onTime⟩, [1, 3, 4]⟩,
        ⟨w, ⟨2, false, false, .late⟩, [1, 3, 4, 5]⟩]
    s.trigger.isBuiltIn = true ∧ s.windowFn.nonMerging = true ∧
      List.Forall₂ (Envelope.Like Eq w) elements others ∧
      (∃ panes, run s .elementTime elements = .ok panes ∧ panes.length = 8 ∧
        panes.filter (·.window = w) = fired) ∧
      (∃ alone, run s .elementTime (elements.map (·.onlyIn w)) = .ok alone ∧
        alone.filter (·.window = w) = fired) ∧
      ∃ panes', run s .elementTime others = .ok panes' ∧
        panes'.filter (·.window = w) = fired := by
  intro s w elements others fired
  have hothers : List.Forall₂ (Envelope.Like Eq w) elements others :=
    .cons ⟨rfl, rfl, fun _ => rfl⟩ (.cons ⟨rfl, rfl, by decide⟩ (.cons ⟨rfl, rfl, fun _ => rfl⟩
      (.cons ⟨rfl, rfl, fun _ => rfl⟩ (.cons ⟨rfl, rfl, fun _ => rfl⟩ .nil))))
  obtain ⟨panes, hrun, ⟨alone, halone, hsame⟩, hchanged, -⟩ :=
    run_windows_apart (s := s) rfl rfl .elementTime w elements
  obtain ⟨panes', hrun', hsame'⟩ := hchanged others hothers
  have hlength : (run s .elementTime elements).map List.length = .ok 8 := by
    cbv
  have hfired : (run s .elementTime elements).map (·.filter (·.window = w)) = .ok fired := by
    cbv
  rw [hrun] at hlength hfired
  have hpanes : panes.filter (·.window = w) = fired := Except.ok.inj hfired
  exact ⟨rfl, rfl, hothers, ⟨panes, hrun, Except.ok.inj hlength, hpanes⟩,
    ⟨alone, halone, hsame.trans hpanes⟩, panes', hrun', hsame'.trans hpanes⟩

end Grouper

end EventTime
