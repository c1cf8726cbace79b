import EventTime.Proofs.Pane.Tracking

/-!
# Tracking merges

A merge gives the listings of the old windows to the new one, which covers them. If the trigger had
finished in an old window, they are dropped with the new window's buffer; that never happens to an
endless trigger. Performing a plan leaves every listed window with a live one that covers it.
-/

namespace EventTime

variable {ν : Type} {s : Strategy}

theorem Buffer.Holds.absorbAll {mode : AccumulationMode} {panes : List (Pane ν)}
    {m : WindowMap (Buffer ν)} {waiting : Window → Multiset ν} (olds : List Window)
    (holds : ∀ w ∈ olds, ∃ old, m.find? w = some old ∧ old.Holds mode panes (waiting w))
    {b : Buffer ν} {xs : Multiset ν} (hb : b.Holds mode panes xs) :
    ((olds.filterMap m.find?).foldl Buffer.absorb b).Holds mode panes
      (xs + (olds.map waiting).sum) := by
  induction olds generalizing b xs with
  | nil => simpa using hb
  | cons v rest ih =>
    obtain ⟨old, hfind, hold⟩ := holds v (List.mem_cons_self ..)
    rw [List.filterMap_cons_some hfind, List.foldl_cons, List.map_cons, List.sum_cons, ← add_assoc]
    exact ih (fun w hw => holds w (List.mem_cons_of_mem _ hw)) (hb.absorb hold)

/-- The ledger after a merge: what waited in the old windows waits in the new one. -/
def Ledger.merged (l : Ledger ν) (m : Merge) : Ledger ν :=
  l.move (m.olds.map .waiting) (.waiting m.into)

namespace Grouper

variable {g : Grouper s ν} {input : InputWatermark} {l : Ledger ν} {w : Window}

theorem actOnMerge_eq (g : Grouper s ν) (w : Window) {o : MergeOutcome}
    (ho : o ≠ .alreadyFinished) :
    ∃ o' : Outcome, g.actOnMerge w o = g.act w o' ∧ o'.fires = o.fires ∧
      o'.finishes = o.finishes := by
  cases o with
  | idle => exact ⟨.idle, rfl, rfl, rfl⟩
  | fire => exact ⟨.fire, rfl, rfl, rfl⟩
  | fireAndFinish => exact ⟨.fireAndFinish, rfl, rfl, rfl⟩
  | alreadyFinished => exact absurd rfl ho

theorem actOnMerge_watermark (g : Grouper s ν) (w : Window) (o : MergeOutcome) :
    (g.actOnMerge w o).watermark = g.watermark := by
  cases o <;> simp [actOnMerge]

theorem has_actOnMerge {v : Window} {o : MergeOutcome} :
    (g.actOnMerge w o).Has v ↔ g.Has v := by
  cases o with
  | idle => rfl
  | fire => exact has_emit
  | fireAndFinish => exact has_close.trans has_emit
  | alreadyFinished => exact has_close

/-- What waits in a window may be dropped where the trigger is not endless. -/
theorem Tracks.drop (h : g.Tracks input l (some w)) (hend : ¬s.trigger.Endless) :
    ∃ l', g.Tracks input l' (some w) ∧ l'.map Prod.fst = l.map Prod.fst ∧
      l'.valuesOf (.waiting w) = 0 := by
  refine ⟨l.move [.waiting w] .dropped, ⟨fun v hv => ?_, fun hm k => ?_, ?_⟩,
    Ledger.map_fst_move, Ledger.valuesOf_move_of_mem (by simp) nofun⟩
  · have hne : w ≠ v := by simpa using hv
    have hsame : (l.move [.waiting w] .dropped).valuesOf (.waiting v) = l.valuesOf (.waiting v) :=
      Ledger.valuesOf_move_of_ne (by simpa using Ne.symm hne) nofun
    exact hsame ▸ h.standing v hv
  · have hsame : (l.move [.waiting w] .dropped).valuesOf (.shown k) = l.valuesOf (.shown k) :=
      Ledger.valuesOf_move_of_ne (by simp) nofun
    exact hsame.trans (h.shown hm k)
  · exact Ledger.forall_move h.fits fun p _ _ he => absurd he hend

theorem Tracks.moved (h : g.Tracks input l none) {m : Merge} {buffers : WindowMap (Buffer ν)}
    {state : TriggerState s.trigger} {merged : s.trigger.State}
    (hcovers : ∀ w ∈ m.olds, m.into.Covers w)
    (hbuffers : ∀ v, buffers.find? v = if v ∈ m.olds then none else g.buffers.find? v)
    (hstate : ∀ v, state.find? v = g.state.afterMerge m merged v) :
    (g.moved m buffers state).Tracks input (l.merged m) (some m.into) := by
  have hmem : ∀ v, Fate.waiting v ∈ m.olds.map Fate.waiting ↔ v ∈ m.olds := by simp
  refine ⟨fun v hv => ?_, fun hm k => ?_, ?_⟩
  · have hne : m.into ≠ v := by simpa using hv
    have hnew : Fate.waiting v ≠ .waiting m.into := by simpa using Ne.symm hne
    have hs : state.find? v = if v ∈ m.olds then none else g.state.find? v :=
      (hstate v).trans (if_neg hne)
    show Standing s g.panes v _ _ (state.find? v)
    rw [find?_moved_of_ne hne, hbuffers, hs]
    by_cases hold : v ∈ m.olds
    · rw [if_pos hold, if_pos hold]
      exact .gone (Ledger.valuesOf_move_of_mem ((hmem v).mpr hold) hnew)
    · rw [if_neg hold, if_neg hold, Ledger.merged,
        Ledger.valuesOf_move_of_ne (fun hin => hold ((hmem v).mp hin)) hnew]
      exact h.standing v nofun
  · have hsame : (l.merged m).valuesOf (.shown k) = l.valuesOf (.shown k) :=
      Ledger.valuesOf_move_of_ne (by simp) nofun
    exact hsame.trans (h.shown hm k)
  · refine Ledger.forall_move h.fits fun p hp hin => ?_
    obtain ⟨w, hw, heq⟩ := List.mem_map.mp hin
    have hfits := h.fits p hp
    rw [← heq] at hfits
    exact (hcovers w hw).trans hfits

theorem Tracks.waiting_merged (h : g.Tracks input l none) {m : Merge} (hnodup : m.olds.Nodup)
    (hinto : g.Has m.into → m.into ∈ m.olds) :
    (l.merged m).valuesOf (.waiting m.into) =
      (m.olds.map fun w => l.valuesOf (.waiting w)).sum := by
  rw [Ledger.merged, Ledger.valuesOf_move_new (hnodup.map fun _ _ => Fate.waiting.inj), List.map_map]
  · rfl
  · exact fun hout => (h.of_not_has fun hhas => hout (List.mem_map_of_mem (hinto hhas))).1

theorem has_moved {m : Merge} {buffers : WindowMap (Buffer ν)} {state : TriggerState s.trigger}
    (hbuffers : ∀ v, buffers.find? v = if v ∈ m.olds then none else g.buffers.find? v)
    (v : Window) : (g.moved m buffers state).Has v ↔ m.leaves g.Has v := by
  by_cases hv : m.into = v
  · subst hv
    simp [Has, find?_moved_into, Merge.leaves]
  · rw [Has, find?_moved_of_ne hv, hbuffers]
    by_cases hold : v ∈ m.olds <;> simp [Merge.leaves, Has, Ne.symm hv, hold]

theorem Tracks.not_endless (h : g.Tracks input l none) (hw : g.Has w)
    (hfinished : (g.state.stateOf w).finished = true) : ¬s.trigger.Endless := by
  obtain ⟨b, hb⟩ := hw
  have hstands := h.standing_some hb
  cases hopen : b.closed with
  | true => exact (hstands.of_closed hopen).2
  | false =>
    have hunfinished := (hstands.of_open hopen).2.1.unfinished
    rw [← TriggerState.stateOf, hfinished] at hunfinished
    cases hunfinished

theorem Tracks.live_of_unfinished (h : g.Tracks input l none) (hw : g.Has w)
    (hfinished : ¬(g.state.stateOf w).finished = true) :
    s.trigger.Open (g.state.stateOf w) ∧ ∃ b, g.buffers.find? w = some b ∧
      b.Holds s.mode g.panes (l.valuesOf (.waiting w)) := by
  obtain ⟨b, hb⟩ := hw
  have hstands := h.standing_some hb
  cases hopen : b.closed with
  | true => exact absurd (hstands.of_closed hopen).1 hfinished
  | false =>
    obtain ⟨hholds, hrun, -⟩ := hstands.of_open hopen
    exact ⟨hrun, b, hb, hholds⟩

/-- A merge succeeds; the new window stands, and the old ones are gone. -/
theorem Tracks.mergeOne (h : g.Tracks input l none) (ht : s.trigger.isBuiltIn = true) {m : Merge}
    (hnodup : m.olds.Nodup) (hlive : ∀ w ∈ m.olds, g.Has w)
    (hcovers : ∀ w ∈ m.olds, m.into.Covers w) (hinto : g.Has m.into → m.into ∈ m.olds) :
    ∃ g' l', g.mergeOne m = .ok g' ∧ g'.Tracks input l' none ∧
      l'.map Prod.fst = l.map Prod.fst ∧ g'.watermark = g.watermark ∧
      ∀ v, g'.Has v ↔ m.leaves g.Has v := by
  have hfst : (l.merged m).map Prod.fst = l.map Prod.fst := Ledger.map_fst_move
  by_cases hfinished : ∃ w ∈ m.olds, (g.state.stateOf w).finished = true
  · obtain ⟨merged, state, hmerge, hdone, hstate⟩ := TriggerState.merge_finished hnodup hfinished
    obtain ⟨buffers, hbuffers, hone⟩ := mergeOne_eq hnodup hmerge
    obtain ⟨w, hw, hwdone⟩ := hfinished
    have hend := h.not_endless (hlive w hw) hwdone
    obtain ⟨l', h', hfst', hzero⟩ := (h.moved hcovers hbuffers hstate).drop hend
    refine ⟨_, l', hone, h'.close.back ?_, hfst'.trans hfst, rfl, fun v =>
      has_close.trans (has_moved hbuffers v)⟩
    have hs : state.find? m.into = some merged := (hstate m.into).trans (if_pos rfl)
    show Standing _ _ _ _ _ (state.find? m.into)
    rw [find?_close, if_pos rfl, find?_moved_into, hs]
    exact .closed hzero rfl hdone hend
  · have hlives := fun w hw => h.live_of_unfinished (hlive w hw) fun hdone =>
      hfinished ⟨w, hw, hdone⟩
    have hnone : m.into ∉ m.olds → g.state.find? m.into = none := fun hout =>
      (h.of_not_has fun hhas => hout (hinto hhas)).2
    obtain ⟨o, merged, state, hmerge, hne, hend, hleaves, hstate⟩ :=
      TriggerState.merge_open ht hnodup (fun w hw => (hlives w hw).1) hnone
    obtain ⟨buffers, hbuffers, hone⟩ := mergeOne_eq hnodup hmerge
    obtain ⟨o', hact, hfires, hfinishes⟩ := (g.moved m buffers state).actOnMerge_eq m.into hne
    have hholds := Buffer.Holds.absorbAll m.olds (fun w hw => (hlives w hw).2)
      (.empty : ({} : Buffer ν).Holds s.mode g.panes 0)
    rw [zero_add, ← h.waiting_merged hnodup hinto] at hholds
    obtain ⟨l', h', hfst'⟩ := (h.moved hcovers hbuffers hstate).act (find?_moved_into ..)
      (closed_absorbAll ..) hholds ((hstate m.into).trans (if_pos rfl))
      (hfires.symm ▸ hfinishes.symm ▸ hleaves) fun he => hfinishes.trans (hend he)
    refine ⟨_, l', hone, hact ▸ h', hfst'.trans hfst, actOnMerge_watermark .., fun v =>
      has_actOnMerge.trans (has_moved hbuffers v)⟩

/-! ### A plan of merges -/

theorem Tracks.mergeEach (h : g.Tracks input l none) (ht : s.trigger.isBuiltIn = true)
    {ms : List Merge} (plan : MergePlan g.Has ms) (hordered : ∀ v, g.Has v → v.Ordered)
    (hw : g.Has w) :
    ∃ g' w' l', Grouper.mergeEach ms g w = .ok (g', w') ∧ g'.Tracks input l' none ∧
      l'.map Prod.fst = l.map Prod.fst ∧ g'.watermark = g.watermark ∧
      (∀ v, g'.Has v → v.Ordered) ∧ g'.Has w' ∧ w'.Covers w := by
  induction ms generalizing g l w with
  | nil => exact ⟨g, w, l, rfl, h, rfl, rfl, hordered, hw, Window.covers_refl w⟩
  | cons m ms ih =>
    have hmem : m ∈ m :: ms := List.mem_cons_self ..
    obtain ⟨g₁, l₁, hone, h₁, hfst₁, hwatermark₁, hhas₁⟩ := h.mergeOne ht (plan.nodup m hmem)
      (plan.olds_live m hmem) (plan.covers m hmem) (plan.into_live m hmem)
    have hordered₁ : ∀ v, g₁.Has v → v.Ordered := fun v hv => by
      rcases (hhas₁ v).mp hv with rfl | ⟨hv, -⟩
      · exact plan.ordered m hmem
      · exact hordered v hv
    -- the window ends up in the new one if it was merged, and stays where it was if not
    obtain ⟨w₁, hw₁, hhas, hcovers⟩ : ∃ w₁, w₁ = (if w ∈ m.olds then m.into else w) ∧
        g₁.Has w₁ ∧ w₁.Covers w := by
      by_cases hold : w ∈ m.olds
      · exact ⟨_, (if_pos hold).symm, (hhas₁ _).mpr (.inl rfl), plan.covers m hmem w hold⟩
      · exact ⟨_, (if_neg hold).symm, (hhas₁ _).mpr (.inr ⟨hw, hold⟩), Window.covers_refl w⟩
    obtain ⟨g', w', l', heach, h', hfst', hwatermark', hordered', hw', hcovers'⟩ :=
      ih h₁ (plan.tail.congr hhas₁) hordered₁ hhas
    refine ⟨g', w', l', ?_, h', hfst'.trans hfst₁, hwatermark'.trans hwatermark₁, hordered', hw',
      hcovers'.trans hcovers⟩
    rw [Grouper.mergeEach, hone]
    exact hw₁ ▸ heach

end Grouper

/-- Windows never merge, or the merges among ordered windows make a plan. -/
def Strategy.Plans (s : Strategy) : Prop :=
  s.windowFn.nonMerging = true ∨ ∀ active : List Window, active.Pairwise (· < ·) →
    (∀ w ∈ active, w.Ordered) →
      ∃ ms, s.windowFn.merge active = .ok ms ∧ MergePlan (· ∈ active) ms

theorem Strategy.plans_of_sessions {gap : Int} (h : s.windowFn = .sessions gap) : s.Plans :=
  .inr fun active hsorted hordered =>
    ⟨_, by rw [h]; rfl, WindowFn.overlapping_plan hsorted hordered⟩

namespace Grouper

variable {g : Grouper s ν} {input : InputWatermark} {l : Ledger ν} {w : Window}

/-- Where windows merge, those that have a buffer are ordered. -/
def Tidy (g : Grouper s ν) : Prop := s.windowFn.nonMerging = false → ∀ v, g.Has v → v.Ordered

theorem Tracks.mergeWindows (h : g.Tracks input l none) (ht : s.trigger.isBuiltIn = true)
    (hplans : s.Plans) (htidy : g.Tidy) (hw : g.Has w) :
    ∃ g' w' l', g.mergeWindows w = .ok (g', w') ∧ g'.Tracks input l' none ∧
      l'.map Prod.fst = l.map Prod.fst ∧ g'.watermark = g.watermark ∧ g'.Tidy ∧ g'.Has w' ∧
      w'.Covers w := by
  cases hfn : s.windowFn.nonMerging with
  | true =>
    exact ⟨g, w, l, by rw [Grouper.mergeWindows, if_pos hfn], h, rfl, rfl, htidy, hw,
      Window.covers_refl w⟩
  | false =>
    have hordered := htidy hfn
    obtain ⟨ms, hms, plan⟩ := hplans.resolve_left (by simp [hfn]) g.buffers.keys
      (WindowMap.keys_sorted _) fun v hv => hordered v (WindowMap.mem_keys.mp hv)
    obtain ⟨g', w', l', heach, h', hfst, hwatermark, hordered', hw', hcovers⟩ :=
      h.mergeEach ht (plan.congr fun v => WindowMap.mem_keys.symm) hordered hw
    refine ⟨g', w', l', ?_, h', hfst, hwatermark, fun _ => hordered', hw', hcovers⟩
    rw [Grouper.mergeWindows, hfn, hms]
    exact heach

end Grouper

end EventTime
