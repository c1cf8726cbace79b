import EventTime.Proofs.Pane.EndOfInput
import EventTime.Proofs.Pane.Logged
import EventTime.Proofs.Pane.TrackedRun

/-!
# Panes are coherent with their lineage

In a run of a built-in trigger every pane continues the lineage that its window has in the present
era: where windows merge, the collection of the global window ends an era, for it forgets the
lineage of windows that have been merged into it and can be opened again. Everything else that is
collected can fire no more, and neither can the windows merged into it.
-/

namespace EventTime

variable {ν : Type} {s : Strategy}

namespace Chronicle

variable {c c' : Chronicle s ν} {w w' : Window}

/-- The entries of a chronicle fit its grouping, and no merge is being performed. -/
structure Steady (c : Chronicle s ν) : Prop where
  logged : c.grouper.Logged c.entries
  separated : c.grouper.Separated c.entries

theorem entries_note (c : Chronicle s ν) {g : Grouper s ν} {new : List (Pane ν)}
    (h : g.panes = c.grouper.panes ++ new) :
    (c.note g).entries = c.entries ++ firings new g.watermark := by
  show c.entries ++ (g.panes.drop c.grouper.panes.length).map _ = _
  rw [h, List.drop_left]
  rfl

theorem Steady.note (h : c.Steady) {g : Grouper s ν} {new : List (Pane ν)}
    (hlogs : c.grouper.Logs g c.entries new) : (c.note g).Steady := by
  have hentries := hlogs.watermark ▸ c.entries_note hlogs.panes
  exact ⟨hentries ▸ hlogs.logged, hentries ▸ h.separated.logs hlogs⟩

theorem Steady.collect (h : c.Steady) (ht : s.trigger.isBuiltIn = true) (hw : c.grouper.Has w)
    (hdue : c.grouper.Due w) : (c.collect w).Steady := by
  obtain ⟨g₁, new, hlogs, hpanes, hfind⟩ := Grouper.collect_fires c.grouper w h.logged h.separated
  have hs := h.separated.logs hlogs
  have hentries : (c.collect w).entries =
      c.entries ++ firings new c.grouper.watermark ++ [.collected w] := by
    show (c.note _).entries ++ _ = _
    rw [c.entries_note (hpanes.trans hlogs.panes), Grouper.collect_watermark]
  have hwatermark : (c.collect w).grouper.watermark = g₁.watermark :=
    (Grouper.collect_watermark ..).trans hlogs.watermark.symm
  have hkept : ∀ v, (c.collect w).grouper.Has v → w ≠ v ∧ g₁.Has v := by
    rintro v ⟨b, hb⟩
    rw [show (c.collect w).grouper.buffers.find? v = _ from hfind v] at hb
    split at hb
    · cases hb
    · rename_i hv
      exact ⟨hv, b, hb⟩
  have hera := era_concat (s := s) (c.entries ++ firings new c.grouper.watermark) (.collected w)
  refine ⟨⟨?_, ?_, ?_⟩, fun hfn m hm => ?_, fun hfn u v hu hv =>
    hs.apart hfn u v (hkept u hu).2 (hkept v hv).2⟩
  · rw [hentries, List.filterMap_append, hlogs.logged.panes]
    exact (List.append_nil _).trans hpanes.symm
  · rw [hentries, hera]
    cases hends : (Entry.collected w : Entry ν).endsEra s with
    | true =>
      -- the global window was the only live one, so the new era starts with no buffer
      rw [if_pos rfl]
      refine Grouper.recorded_nil fun v hv => ?_
      obtain ⟨hne, hv⟩ := hkept v hv
      exact hne (h.separated.global_only hends hw ((hlogs.has v).mp hv)).symm
    | false =>
      rw [if_neg Bool.false_ne_true]
      have hdue₁ : g₁.Due w := (Grouper.due_congr hlogs.watermark).mpr hdue
      refine (hlogs.logged.recorded.erase
        (fun u hu => hs.due hlogs.logged.recorded ht hends hdue₁ hu)
        (fun u hu hmerged => ?_) hfind hwatermark).write w
      exact (hs.alone hlogs.logged.recorded hu ((hlogs.has w).mpr hw) hmerged).symm
  · rw [hentries]
    exact forall_split_concat.mpr ⟨hlogs.logged.coherent, fun _ _ h => by cases h⟩
  · rw [hentries, hera] at hm
    split at hm
    · cases hm
    · exact hs.unmerged hfn m (by simpa using hm)

theorem Steady.collectAll (h : c.Steady) (ht : s.trigger.isBuiltIn = true) {ws : List Window}
    (hnodup : ws.Nodup) (hws : ∀ w ∈ ws, c.grouper.Has w ∧ c.grouper.Due w) :
    (ws.foldl Chronicle.collect c).Steady := by
  induction ws generalizing c with
  | nil => exact h
  | cons w rest ih =>
    obtain ⟨hout, hrest⟩ := List.nodup_cons.mp hnodup
    obtain ⟨⟨hhas, hdue⟩, hws⟩ := List.forall_mem_cons.mp hws
    refine ih (h.collect ht hhas hdue) hrest fun v hv => ?_
    have hne : w ≠ v := fun e => hout (e ▸ hv)
    obtain ⟨⟨b, hb⟩, hdue⟩ := hws v hv
    exact ⟨⟨b, (Grouper.find?_collect ..).trans ((if_neg hne).trans hb)⟩,
      (Grouper.due_congr (Grouper.collect_watermark ..)).mpr hdue⟩

theorem Steady.advance (h : c.Steady) (ht : s.trigger.isBuiltIn = true)
    (hne : c.grouper.watermark ≠ maxTime) {target : Int} (heq : c.advance target = .ok c') :
    c'.Steady := by
  unfold Chronicle.advance at heq
  split at heq
  · exact Except.ok.inj heq ▸ h
  · rename_i hlt
    obtain ⟨g, hdrain, hcollect⟩ := ok_of_bind heq
    obtain rfl := Except.ok.inj hcollect
    have hlater : Steady ⟨{ c.grouper with watermark := target }, c.entries⟩ :=
      ⟨⟨h.logged.panes, h.logged.recorded.later (by omega) hne, h.logged.coherent⟩,
        h.separated.unmerged, h.separated.apart⟩
    obtain ⟨new, hlogs⟩ := hlater.logged.drain hlater.separated hdrain
    exact Steady.collectAll (hlater.note hlogs) ht (Grouper.nodup_expired g) fun w hw =>
      Grouper.mem_expired.mp hw

/-- The merges that are asked for leave no overlap, and the window is found where it ended up. -/
theorem mergeEach_steady {input : InputWatermark} {l : Ledger ν} {ms : List Merge}
    (h : c.grouper.Logged c.entries) (htracks : c.grouper.Tracks input l none)
    (live : c.grouper.Live) (hfn : s.windowFn.nonMerging = false)
    (ht : s.trigger.isBuiltIn = true) (plan : MergePlan c.grouper.Has ms)
    (clearing : Clearing c.grouper.Has ms) (hw : c.grouper.Has w)
    (heq : mergeEach ms c w = .ok (c', w')) :
    c'.Steady ∧ c'.grouper.Live ∧ c'.grouper.Has w' := by
  induction ms generalizing c w l with
  | nil =>
    cases heq
    exact ⟨⟨h, fun hno => by simp [hfn] at hno, fun _ u v hu hv =>
      clearing.rest u v hu hv nofun⟩, live, hw⟩
  | cons m ms ih =>
    have hmem : m ∈ m :: ms := List.mem_cons_self ..
    obtain ⟨c₁, hone, hrest⟩ := ok_of_bind heq
    obtain ⟨g₁, hgrouper, rfl⟩ := ok_of_map hone
    have hjoins := Grouper.joins_of_plan plan clearing live ht hmem
    obtain ⟨new, hpanes, hwatermark, hlogged⟩ :=
      h.mergeOne htracks (plan.nodup m hmem) hjoins hgrouper
    obtain ⟨g₁', l₁, hgrouper', htracks₁, -, -, hhas⟩ := htracks.mergeOne ht (plan.nodup m hmem)
      (plan.olds_live m hmem) (plan.covers m hmem) (plan.into_live m hmem)
    obtain rfl := Except.ok.inj (hgrouper.symm.trans hgrouper')
    have hentries : ((c.write (.merged m)).note g₁).entries =
        c.entries ++ [.merged m] ++ firings new c.grouper.watermark :=
      hwatermark ▸ (c.write (.merged m)).entries_note hpanes
    refine ih (c := (c.write (.merged m)).note g₁) (hentries ▸ hlogged) htracks₁ ?_
      (plan.tail.congr hhas) (clearing.tail.congr hhas) ?_ hrest
    · intro v b hb hdue
      have hdue := (Grouper.due_congr hwatermark).mp hdue
      rcases (hhas v).mp ⟨b, hb⟩ with rfl | ⟨⟨d, hd⟩, -⟩
      · exact hjoins.due hdue
      · exact live v d hd hdue
    · by_cases hold : w ∈ m.olds
      · rw [if_pos hold]
        exact (hhas _).mpr (.inl rfl)
      · rw [if_neg hold]
        exact (hhas _).mpr (.inr ⟨hw, hold⟩)

theorem mergeWindows_steady {input : InputWatermark} {l : Ledger ν}
    (h : c.grouper.Logged c.entries) (htracks : c.grouper.Tracks input l none)
    (live : c.grouper.Live) (htidy : c.grouper.Tidy)
    (hunmerged : s.windowFn.nonMerging = true → ∀ m, Entry.merged m ∉ era s c.entries)
    (hfn : s.windowFn.nonMerging = true ∨ ∃ gap, s.windowFn = .sessions gap)
    (ht : s.trigger.isBuiltIn = true) (hw : c.grouper.Has w)
    (heq : c.mergeWindows w = .ok (c', w')) :
    c'.Steady ∧ c'.grouper.Live ∧ c'.grouper.Has w' := by
  unfold Chronicle.mergeWindows at heq
  split at heq
  · rename_i hno
    cases heq
    exact ⟨⟨h, hunmerged, fun hfn => by simp [hno] at hfn⟩, live, hw⟩
  · rename_i hmerging
    have hmerging := Bool.eq_false_iff.mpr hmerging
    obtain ⟨gap, hgap⟩ := hfn.resolve_left (by simp [hmerging])
    have hsorted := WindowMap.keys_sorted c.grouper.buffers
    have hordered : ∀ v ∈ c.grouper.buffers.keys, v.Ordered := fun v hv =>
      htidy hmerging v (WindowMap.mem_keys.mp hv)
    rw [hgap] at heq
    refine mergeEach_steady h htracks live hmerging ht ?_ ?_ hw heq
    · exact (WindowFn.overlapping_plan hsorted hordered).congr fun v => WindowMap.mem_keys.symm
    · exact (WindowFn.overlapping_clearing hsorted hordered).congr fun v => WindowMap.mem_keys.symm

theorem place_grouper {x : Listing ν} (heq : c.place x = .ok c') :
    c.grouper.place x.timestamp x.value x.window = .ok c'.grouper := by
  rw [← grouper_place, heq]
  rfl

theorem Steady.place (h : c.Steady) (live : c.grouper.Live) (ht : s.trigger.isBuiltIn = true)
    (hfn : s.windowFn.nonMerging = true ∨ ∃ gap, s.windowFn = .sessions gap)
    {input : InputWatermark} {xs : List (Listing ν)} (htrack : c.grouper.OnTrack input xs)
    {x : Listing ν} (hordered : s.windowFn.nonMerging = false → x.window.Ordered)
    (hmax : c.grouper.watermark ≠ maxTime) (heq : c.place x = .ok c') :
    c'.Steady ∧ c'.grouper.Live := by
  unfold Chronicle.place at heq
  split at heq
  · exact Except.ok.inj heq ▸ ⟨h, live⟩
  · rename_i htaken
    have hdue : ¬c.grouper.Due x.window := fun hdue => hdue.elim htaken hmax
    obtain ⟨⟨c₁, w⟩, hmerge, hrest⟩ := ok_of_bind heq
    obtain ⟨g, hdeliver, rfl⟩ := ok_of_map hrest
    obtain ⟨htidy, l, htracks, -⟩ := htrack
    obtain ⟨hsteady, hlive, hhas⟩ := mergeWindows_steady
      (c := ⟨c.grouper.opened x.window, c.entries⟩)
      ⟨h.logged.panes.trans (Grouper.opened_panes ..).symm, h.logged.recorded.opened hdue,
        h.logged.coherent⟩
      (htracks.opened x.window) (live.opened hdue)
      (fun hfn v hv => (Grouper.has_opened.mp hv).elim (fun e => e ▸ hordered hfn) (htidy hfn v))
      h.separated.unmerged hfn ht (Grouper.has_opened.mpr (.inl rfl)) hmerge
    obtain ⟨new, hlogs⟩ := hsteady.logged.deliver hsteady.separated hhas hdeliver
    exact ⟨hsteady.note hlogs, hlive.logs hlogs⟩

/-- A chronicle in the middle of its run. -/
structure Underway (c : Chronicle s ν) (mode : InputWatermark) (front : List (Envelope ν)) :
    Prop where
  steady : c.Steady
  live : c.grouper.Live
  onTrack : c.grouper.OnTrack mode (listingsOf front)
  behind : c.grouper.Behind mode front

theorem underway_start (s : Strategy) (mode : InputWatermark) :
    ({} : Chronicle s ν).Underway mode [] where
  steady := by
    have hnone : ∀ v, ¬({} : Grouper s ν).Has v := fun _ => nofun
    exact ⟨⟨rfl, Grouper.recorded_nil hnone, forall_split_nil⟩, fun _ _ => nofun,
      fun _ u _ hu => absurd hu (hnone u)⟩
  live := fun _ _ => nofun
  onTrack := Grouper.onTrack_start s mode
  behind := Grouper.behind_start mode

theorem follow_grouper {mode : InputWatermark} {timestamp : Int}
    (heq : c.follow mode timestamp = .ok c') :
    c.grouper.follow mode timestamp = .ok c'.grouper := by
  rw [← grouper_follow, heq]
  rfl

theorem Steady.follow (h : c.Steady) (live : c.grouper.Live) (ht : s.trigger.isBuiltIn = true)
    (hne : c.grouper.watermark ≠ maxTime) {mode : InputWatermark} {timestamp : Int}
    (heq : c.follow mode timestamp = .ok c') : c'.Steady ∧ c'.grouper.Live := by
  have hgrouper := follow_grouper heq
  cases mode with
  | heldUntilEnd => exact Except.ok.inj heq ▸ ⟨h, live⟩
  | elementTime =>
    refine ⟨h.advance ht hne heq, ?_⟩
    by_cases hle : timestamp ≤ c.grouper.watermark
    · exact Except.ok.inj ((Grouper.advance_of_le hle).symm.trans hgrouper) ▸ live
    · exact (Grouper.advance_ok (by omega) hgrouper).2

theorem Underway.take {mode : InputWatermark} {front : List (Envelope ν)} {e : Envelope ν}
    (h : c.Underway mode front) (ht : s.trigger.isBuiltIn = true)
    (hfn : s.windowFn.nonMerging = true ∨ ∃ gap, s.windowFn = .sessions gap)
    (hordered : s.windowFn.nonMerging = false → ∀ w ∈ e.windows, w.Ordered)
    (horder : ∀ d ∈ front, d.timestamp ≤ e.timestamp) (hmax : e.timestamp < maxTime)
    (heq : c.take mode e = .ok c') : c'.Underway mode (front ++ [e]) := by
  have hplans : s.Plans := hfn.elim .inl fun ⟨_, hgap⟩ => Strategy.plans_of_sessions hgap
  obtain ⟨c₁, hfollow, hplaces⟩ := ok_of_bind heq
  have hlt : c.grouper.watermark < maxTime := h.behind.lt_maxTime fun d hd =>
    Int.lt_of_le_of_lt (horder d hd) hmax
  obtain ⟨hsteady, hlive⟩ := h.steady.follow h.live ht (Int.ne_of_lt hlt) hfollow
  obtain ⟨g₁, hgrouper, htrack, hpace, -⟩ := h.onTrack.follow ht e.timestamp
  obtain rfl := Except.ok.inj (hgrouper.symm.trans (follow_grouper hfollow))
  have hne : c₁.grouper.watermark ≠ maxTime := by
    have hle := h.behind.pace_le horder
    have hmin : minTime < maxTime := by decide
    omega
  obtain ⟨hsteady', hlive', htrack', hwatermark⟩ := foldlM_preserves
    (fun before (d : Chronicle s ν) => d.Steady ∧ d.grouper.Live ∧
      d.grouper.OnTrack mode (listingsOf front ++ before.map fun w => ⟨e.timestamp, w, e.value⟩) ∧
      d.grouper.watermark = c₁.grouper.watermark)
    (fun before w after d d' hsplit ⟨hd, hdlive, hdtrack, hdw⟩ hplace => by
      have hw : w ∈ e.windows := hsplit ▸ by simp
      obtain ⟨hd', hdlive'⟩ := hd.place hdlive ht hfn hdtrack (fun hno => hordered hno w hw)
        (hdw ▸ hne) hplace
      obtain ⟨g, hgrouper, hgtrack, hgw⟩ := hdtrack.place ht hplans
        (x := ⟨e.timestamp, w, e.value⟩) (fun hno => hordered hno w hw) fun hexpired =>
          h.behind.late horder (hpace ▸ hdw ▸ hexpired) e.value
      obtain rfl := Except.ok.inj (hgrouper.symm.trans (place_grouper hplace))
      exact ⟨hd', hdlive', by simpa using hgtrack, hgw.trans hdw⟩)
    ⟨hsteady, hlive, by simpa using htrack, rfl⟩ hplaces
  exact ⟨hsteady', hlive', by simpa [listingsOf] using htrack',
    h.behind.concat (hwatermark.trans hpace)⟩

theorem run_logged {mode : InputWatermark} {elements : List (Envelope ν)}
    (ht : s.trigger.isBuiltIn = true)
    (hfn : s.windowFn.nonMerging = true ∨ ∃ gap, s.windowFn = .sessions gap)
    (hordered : s.windowFn.nonMerging = false → ∀ e ∈ elements, ∀ w ∈ e.windows, w.Ordered)
    (hmax : ∀ e ∈ elements, e.timestamp < maxTime) (heq : run s mode elements = .ok c) :
    c.grouper.Logged c.entries := by
  obtain ⟨c₁, hfold, hadvance⟩ := ok_of_bind heq
  have hsorted := Grouper.inTimeOrder_sorted elements
  have hunderway := foldlM_preserves (fun front (d : Chronicle s ν) => d.Underway mode front)
    (fun front e back d d' hsplit hd htake => by
      have hmem : e ∈ elements := Grouper.mem_inTimeOrder.mp (hsplit ▸ by simp)
      rw [hsplit] at hsorted
      exact hd.take ht hfn (fun hno => hordered hno e hmem)
        (fun b hb => (List.pairwise_append.mp hsorted).2.2 b hb e (by simp)) (hmax e hmem) htake)
    (underway_start s mode) hfold
  have hlt : c₁.grouper.watermark < maxTime := hunderway.behind.lt_maxTime fun d hd =>
    hmax d (Grouper.mem_inTimeOrder.mp hd)
  exact (hunderway.steady.advance ht (Int.ne_of_lt hlt) hadvance).logged

/-- A run of a built-in trigger whose windows never merge or are sessions comes to its end. Its
chronicle tells of its panes in firing order, and each of them continues the lineage that its window
has in the present era. -/
theorem run_coheres (s : Strategy) (mode : InputWatermark) {elements : List (Envelope ν)}
    (ht : s.trigger.isBuiltIn = true)
    (hfn : s.windowFn.nonMerging = true ∨ ∃ gap, s.windowFn = .sessions gap)
    (hordered : s.windowFn.nonMerging = false → ∀ e ∈ elements, ∀ w ∈ e.windows, w.Ordered)
    (hmax : ∀ e ∈ elements, e.timestamp < maxTime) :
    ∃ c panes, run s mode elements = .ok c ∧ Grouper.run s mode elements = .ok panes ∧
      c.entries.filterMap Entry.pane? = panes ∧
      ∀ front pane watermark back, c.entries = front ++ .fired pane watermark :: back →
        Coherent (era s front) pane watermark := by
  have hplans : s.Plans := hfn.elim .inl fun ⟨_, hgap⟩ => Strategy.plans_of_sessions hgap
  obtain ⟨g, hfold, h, -⟩ := Grouper.run_onTrack s mode ht hplans hordered
    (List.append_nil _).symm
  obtain ⟨g', hadvance, -⟩ := h.finish ht
  have hrun := Grouper.run_of_fold hfold hadvance
  obtain ⟨c, hc, hpanes⟩ := ok_of_map ((panes_run s mode elements).trans hrun)
  have hlogged := run_logged ht hfn hordered hmax hc
  exact ⟨c, _, hc, hrun, hlogged.panes.trans hpanes, fun front pane watermark back hsplit =>
    hlogged.coherent front _ back hsplit pane watermark rfl⟩

/-- Two sessions grow into one: its second pane, fired on time, continues the lineage of both. -/
theorem run_coheres_of_two_sessions :
    let s : Strategy := ⟨.sessions 10, .repeatedly (.afterCount 1), .discarding, 100⟩
    let elements : List (Envelope Nat) := [⟨1, 0, [.interval 0 10], .noFiring⟩,
      ⟨2, 5, [.interval 5 15], .noFiring⟩, ⟨3, 40, [.interval 0 10], .noFiring⟩]
    s.trigger.isBuiltIn = true ∧
      (s.windowFn.nonMerging = true ∨ ∃ gap, s.windowFn = .sessions gap) ∧
      (∀ e ∈ elements, ∀ w ∈ e.windows, w.Ordered) ∧ (∀ e ∈ elements, e.timestamp < maxTime) ∧
      ∃ c front, run s .elementTime elements = .ok c ∧
        c.entries = front ++ [.fired ⟨.interval 0 15, ⟨2, false, false, .onTime⟩, [3]⟩ 40,
          .collected (.interval 0 15)] ∧
        Lineage (era s front) (.interval 0 15)
          ⟨.interval 0 10, ⟨0, true, false, .early⟩, [1]⟩ ∧
        Coherent (era s front) ⟨.interval 0 15, ⟨2, false, false, .onTime⟩, [3]⟩ 40 := by
  intro s elements
  have hordered : ∀ e ∈ elements, ∀ w ∈ e.windows, w.Ordered := by
    simp [elements, Window.Ordered]
  have hmax : ∀ e ∈ elements, e.timestamp < maxTime := by decide
  have hentries : (run s .elementTime elements).map (·.entries) =
      .ok [.fired ⟨.interval 0 10, ⟨0, true, false, .early⟩, [1]⟩ 0,
        .merged ⟨[.interval 0 10, .interval 5 15], .interval 0 15⟩,
        .fired ⟨.interval 0 15, ⟨1, false, false, .early⟩, [2]⟩ 5,
        .merged ⟨[.interval 0 10, .interval 0 15], .interval 0 15⟩,
        .fired ⟨.interval 0 15, ⟨2, false, false, .onTime⟩, [3]⟩ 40,
        .collected (.interval 0 15)] := by
    cbv
  obtain ⟨c, -, hrun, -, -, hcoherent⟩ := run_coheres s .elementTime rfl (.inr ⟨10, rfl⟩)
    (fun _ => hordered) hmax
  rw [hrun] at hentries
  have hsplit := Except.ok.inj hentries
  exact ⟨rfl, .inr ⟨10, rfl⟩, hordered, hmax, c, [_, _, _, _], hrun, hsplit,
    ⟨0, .head _, mergedInto_of_mem (.tail _ (.head _)) (.head _)⟩,
    hcoherent [_, _, _, _] _ 40 [_] hsplit⟩

/-- Over a whole run, eras apart, a pane need not continue its lineage. A session at the end of time
outlives the global window that it has been merged into, and counts its panes from zero again when
it is opened a second time. -/
theorem run_not_coherent_of_reopened :
    let s : Strategy := ⟨.sessions 5, .repeatedly (.afterCount 1), .discarding, 0⟩
    let w : Window := .interval (maxTime - 1000) (maxTime - 500)
    let elements : List (Envelope Nat) := [⟨1, 0, [w], .noFiring⟩, ⟨2, 1, [.global], .noFiring⟩,
      ⟨3, maxTime - 2000, [w], .noFiring⟩]
    s.trigger.isBuiltIn = true ∧ s.windowFn = .sessions 5 ∧ 0 ≤ s.lateness ∧
      (∀ e ∈ elements, ∀ v ∈ e.windows, v.Ordered) ∧ (∀ e ∈ elements, e.timestamp < maxTime) ∧
      ∃ c front pane watermark back, run s .elementTime elements = .ok c ∧
        c.entries = front ++ .fired pane watermark :: back ∧ ¬Coherent front pane watermark := by
  intro s w elements
  have hordered : ∀ e ∈ elements, ∀ v ∈ e.windows, v.Ordered := by
    simp [elements, w, Window.Ordered, maxTime]
  have hentries : (run s .elementTime elements).map (·.entries) =
      .ok [.fired ⟨w, ⟨0, true, false, .early⟩, [1]⟩ 0, .merged ⟨[.global, w], .global⟩,
        .fired ⟨.global, ⟨1, false, false, .early⟩, [2]⟩ 1, .collected .global,
        .fired ⟨w, ⟨0, true, false, .early⟩, [3]⟩ (maxTime - 2000), .collected w] := by
    cbv
  obtain ⟨c, hrun, hsplit⟩ := ok_of_map hentries
  refine ⟨rfl, rfl, by decide, hordered, by decide, c, [_, _, _, _], _, _, [_], hrun, hsplit,
    fun h => ?_⟩
  exact h.first.mp rfl _ ⟨0, .head _, .refl⟩

end Chronicle

end EventTime
