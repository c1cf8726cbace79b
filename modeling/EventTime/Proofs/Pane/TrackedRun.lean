import EventTime.Proofs.Pane.Merges

/-!
# Tracking a run

Delivering a timer or an element, moving the watermark and taking an element each keep a ledger on
track; only taking an element adds listings to it. So a whole run of a built-in trigger succeeds and
leaves a ledger of all listings, provided that windows never merge or merge by plans.
-/

namespace EventTime

variable {ν : Type} {s : Strategy}

namespace Grouper

variable {g g' : Grouper s ν} {input : InputWatermark} {l : Ledger ν} {w : Window}

theorem Tracks.deliverTimer (h : g.Tracks input l none) (ht : s.trigger.isBuiltIn = true)
    {a : Timer} (ha : a ∈ g.state.timers)
    (heq : { g with state := g.state.cancel a }.deliverTimer a = .ok g') :
    ∃ l', g'.Tracks input l' none ∧ l'.map Prod.fst = l.map Prod.fst ∧
      ∀ v, g'.Has v ↔ g.Has v := by
  obtain ⟨state, hstate, -⟩ := TriggerState.mem_timers.mp ha
  have hcancel : ∀ v, a.window ≠ v → (g.state.cancel a).find? v = g.state.find? v := fun v hv =>
    (TriggerState.find?_cancel ..).trans (if_neg hv)
  have hstands := h.standing a.window nofun
  cases hb : g.buffers.find? a.window with
  | none =>
    rw [hb, hstate] at hstands
    cases hstands
  | some b =>
    rw [hb, hstate] at hstands
    cases hstands with
    | live hopen hholds hrun _ =>
      obtain ⟨o, state', htimer, -, hleaves⟩ := TriggerState.timer_open ht ha hstate hrun
      have hany : (g.buffers.find? a.window).any (fun b => !b.closed) = true := by
        simp [hb, hopen]
      simp only [Grouper.deliverTimer, hany, if_true, settle, htimer, Except.map,
        Except.ok.injEq] at heq
      subst heq
      have hothers : Tracks { g with state := (g.state.cancel a).insert a.window state' } input l
          (some a.window) := (h.leave a.window).elsewhere rfl fun v hv =>
        ⟨rfl, (WindowMap.find?_insert_of_ne hv ..).trans (hcancel v hv)⟩
      obtain ⟨l', h', hfst⟩ := hothers.act hb hopen hholds
        (WindowMap.find?_insert_self ..) hleaves fun he => he.timer htimer
      exact ⟨l', h', hfst, fun v => has_act⟩
    | closed hzero hclosed hdone hend =>
      have hany : (g.buffers.find? a.window).any (fun b => !b.closed) = false := by
        simp [hb, hclosed]
      simp only [Grouper.deliverTimer, hany, Bool.false_eq_true, if_false, Except.ok.injEq] at heq
      subst heq
      have hothers : Tracks { g with state := g.state.cancel a } input l (some a.window) :=
        (h.leave a.window).elsewhere rfl fun v hv => ⟨rfl, hcancel v hv⟩
      refine ⟨l, hothers.back ?_, rfl, fun v => Iff.rfl⟩
      have hs : (g.state.cancel a).find? a.window = _ := TriggerState.find?_cancel ..
      rw [if_pos rfl, hstate, Option.map_some] at hs
      show Standing _ _ _ _ (g.buffers.find? a.window) ((g.state.cancel a).find? a.window)
      rw [hb, hs]
      exact .closed hzero hclosed hdone hend

/-- No open window whose end has passed holds an element that waits. -/
theorem Tracks.fired_of_passed (h : g.Tracks input l none) (hwaits : s.trigger.waits = true)
    {target : Int} (hnone : g.state.dueTimers target = []) {b : Buffer ν}
    (hb : g.buffers.find? w = some b) (hopen : b.closed = false) (hpassed : w.maxTimestamp < target) :
    b.unfired = 0 := by
  by_contra hne
  -- an element waits, so the leaf that waits has a timer at the end of the window, which is due
  obtain ⟨node, hmem⟩ := Trigger.Armed.exists_timer s.trigger 0 _ hwaits
    (((h.standing_some hb).of_open hopen).2.2 (Nat.pos_of_ne_zero hne))
  cases hs : g.state.find? w with
  | none =>
    rw [hs, Option.getD_none, show s.trigger.fresh.memory = s.trigger.blank from rfl,
      Trigger.timersFrom_blank] at hmem
    cases hmem
  | some state =>
    rw [hs, Option.getD_some] at hmem
    have hdue : ⟨w.maxTimestamp, w, node⟩ ∈ g.state.dueTimers target :=
      List.mem_filter.mpr ⟨TriggerState.mem_timers.mpr ⟨state, hs, hmem⟩, by simpa using hpassed⟩
    rw [hnone] at hdue
    cases hdue

theorem Tracks.advance (h : g.Tracks input l none) (ht : s.trigger.isBuiltIn = true) {target : Int}
    (hlt : g.watermark < target) :
    ∃ g' l', g.advance target = .ok g' ∧ g'.Tracks input l' none ∧
      l'.map Prod.fst = l.map Prod.fst ∧ g'.watermark = target ∧ g'.Live ∧
      (∀ v, g'.Has v → g.Has v) ∧
      (s.trigger.waits = true → ∀ v b, g'.buffers.find? v = some b → b.closed = false →
        v.maxTimestamp < target → b.unfired = 0) := by
  have hstart : Tracks { g with watermark := target } input l none := ⟨h.standing, h.shown, h.fits⟩
  obtain ⟨g₁, hadvance, ⟨l₁, h₁, hfst₁, hhas₁⟩, hwatermark, hnone⟩ := advance_rule
    (P := fun g' : Grouper s ν => ∃ l', g'.Tracks input l' none ∧ l'.map Prod.fst = l.map Prod.fst ∧
      ∀ v, g'.Has v ↔ g.Has v) ht
    (fun g₁ a g₂ ⟨l₁, h₁, hfst₁, hhas₁⟩ ha _ _ heq => by
      obtain ⟨l₂, h₂, hfst₂, hhas₂⟩ := h₁.deliverTimer ht ha heq
      exact ⟨l₂, h₂, hfst₂.trans hfst₁, fun v => (hhas₂ v).trans (hhas₁ v)⟩)
    hlt ⟨l, hstart, rfl, fun v => Iff.rfl⟩
  obtain ⟨l₂, h₂, hfst₂⟩ := h₁.collectAll g₁.expired
  have hkept : ∀ v b, (g₁.expired.foldl Grouper.collect g₁).buffers.find? v = some b →
      g₁.buffers.find? v = some b := by
    intro v b hb
    rw [find?_collectAll] at hb
    split at hb
    · cases hb
    · exact hb
  refine ⟨_, l₂, hadvance, h₂, hfst₂.trans hfst₁, (collectAll_watermark ..).trans hwatermark,
    live_collectAll g₁, fun v ⟨b, hb⟩ => (hhas₁ v).mp ⟨b, hkept v b hb⟩,
    fun hwaits v b hb hopen hpassed => ?_⟩
  exact h₁.fired_of_passed hwaits hnone (hkept v b hb) hopen hpassed

theorem Tracks.add {busy : Option Window} (h : g.Tracks input l busy) {x : Listing ν} {f : Fate}
    (hfits : f.Fits s input g.panes x) (hbusy : ∀ v, f = .waiting v → busy = some v)
    (hshown : ∀ k, f ≠ .shown k) : g.Tracks input (l ++ [(x, f)]) busy := by
  refine ⟨fun v hv => ?_, fun hm k => ?_, fun p hp => ?_⟩
  · have hne : f ≠ .waiting v := fun e => hv (hbusy v e)
    rw [Ledger.valuesOf_concat, if_neg hne, add_zero]
    exact h.standing v hv
  · rw [Ledger.valuesOf_concat, if_neg (hshown k), add_zero]
    exact h.shown hm k
  · rcases List.mem_append.mp hp with hp | hp
    · exact h.fits p hp
    · rw [List.mem_singleton.mp hp]
      exact hfits

/-- Delivering a listing to a live window that covers it. -/
theorem Tracks.deliver (h : g.Tracks input l none) (ht : s.trigger.isBuiltIn = true) (hw : g.Has w)
    (x : Listing ν) (hcovers : w.Covers x.window) :
    ∃ g' l', g.deliver w x.timestamp x.value = .ok g' ∧ g'.Tracks input l' none ∧
      l'.map Prod.fst = l.map Prod.fst ++ [x] ∧ g'.watermark = g.watermark ∧
      ∀ v, g'.Has v ↔ g.Has v := by
  obtain ⟨b, hb⟩ := hw
  have hstands := h.standing_some hb
  cases hopen : b.closed with
  | true =>
    have hend := (hstands.of_closed hopen).2
    have hdropped : Fate.Fits s input g.panes x .dropped := fun he => absurd he hend
    exact ⟨g, l ++ [(x, .dropped)], by simp [Grouper.deliver, hb, hopen], h.add hdropped nofun nofun,
      by simp, rfl, fun v => Iff.rfl⟩
  | false =>
    obtain ⟨hheld, hrun, -⟩ := hstands.of_open hopen
    obtain ⟨o, state, helement, hleaves⟩ := TriggerState.element_open ht hrun x.timestamp
    let pushed : Grouper s ν := { g with
      state := g.state.insert w state
      buffers := g.buffers.insert w (b.push x.value) }
    have hpushed : pushed.Tracks input (l ++ [(x, .waiting w)]) (some w) := by
      refine Tracks.add ?_ hcovers (fun v hv => by rw [Fate.waiting.inj hv]) nofun
      exact (h.leave w).elsewhere rfl fun v hv =>
        ⟨WindowMap.find?_insert_of_ne hv .., WindowMap.find?_insert_of_ne hv ..⟩
    have hholds : (b.push x.value).Holds s.mode pushed.panes
        (Ledger.valuesOf (l ++ [(x, .waiting w)]) (.waiting w)) := by
      rw [Ledger.valuesOf_concat, if_pos rfl]
      exact hheld.push x.value
    obtain ⟨l', h', hfst⟩ := hpushed.act (WindowMap.find?_insert_self ..) hopen
      hholds (WindowMap.find?_insert_self ..) hleaves fun he => he.element helement
    refine ⟨pushed.act w o, l', ?_, h', by simpa using hfst, act_watermark .., fun v => ?_⟩
    · simp only [Grouper.deliver, hb, Option.getD_some, hopen, Bool.false_eq_true, if_false, settle,
        helement, Except.map]
      rfl
    · refine has_act.trans ?_
      show (∃ c, (g.buffers.insert w _).find? v = some c) ↔ _
      rw [WindowMap.find?_insert, Has]
      by_cases hv : w = v
      · simp [← hv, hb]
      · simp [hv]

/-- Some ledger of these listings tracks the grouping. -/
def OnTrack (g : Grouper s ν) (input : InputWatermark) (xs : List (Listing ν)) : Prop :=
  g.Tidy ∧ ∃ l, g.Tracks input l none ∧ l.map Prod.fst = xs

variable {xs : List (Listing ν)}

theorem onTrack_start (s : Strategy) (input : InputWatermark) :
    ({} : Grouper s ν).OnTrack input [] := by
  refine ⟨fun _ v hv => ?_, [], ⟨fun v _ => .gone rfl, fun _ k => rfl, nofun⟩, rfl⟩
  obtain ⟨b, hb⟩ := hv
  cases hb

/-- Placing a listing: it comes too late, or goes to the window that its own is merged into. -/
theorem OnTrack.place (h : g.OnTrack input xs) (ht : s.trigger.isBuiltIn = true) (hplans : s.Plans)
    {x : Listing ν} (hordered : s.windowFn.nonMerging = false → x.window.Ordered)
    (hlate : s.expiry x.window < g.watermark → x.Late s input) :
    ∃ g', g.place x.timestamp x.value x.window = .ok g' ∧ g'.OnTrack input (xs ++ [x]) ∧
      g'.watermark = g.watermark := by
  obtain ⟨htidy, l, htracks, hfst⟩ := h
  by_cases hexpired : s.expiry x.window < g.watermark
  · have hdropped : Fate.Fits s input g.panes x .dropped := fun _ => hlate hexpired
    exact ⟨g, if_pos hexpired, ⟨htidy, l ++ [(x, .dropped)], htracks.add hdropped nofun nofun,
      by simp [hfst]⟩, rfl⟩
  · have htidy₁ : (g.opened x.window).Tidy := fun hfn v hv => by
      rcases has_opened.mp hv with rfl | hv
      · exact hordered hfn
      · exact htidy hfn v hv
    obtain ⟨g₂, w, l₂, hmerge, h₂, hfst₂, hwatermark₂, htidy₂, hhas, hcovers⟩ :=
      (htracks.opened x.window).mergeWindows ht hplans htidy₁ (has_opened.mpr (.inl rfl))
    obtain ⟨g', l', hdeliver, h', hfst', hwatermark, hhas'⟩ := h₂.deliver ht hhas x hcovers
    refine ⟨g', ?_, ⟨fun hfn v hv => htidy₂ hfn v ((hhas' v).mp hv), l', h', ?_⟩, ?_⟩
    · rw [Grouper.place, if_neg hexpired, hmerge]
      exact hdeliver
    · rw [hfst', hfst₂, hfst]
    · rw [hwatermark, hwatermark₂, opened_watermark]

/-! ### A run -/

/-- Every element of an open window whose end the watermark has passed has been part of a pane. -/
def Prompt (g : Grouper s ν) : Prop :=
  ∀ w b, g.buffers.find? w = some b → b.closed = false → w.maxTimestamp < g.watermark →
    b.unfired = 0 ∧ ∀ v ∈ b.values, ∃ pane ∈ g.panes, v ∈ pane.values

theorem Tracks.shown_of_fired (h : g.Tracks input l none) {b : Buffer ν}
    (hb : g.buffers.find? w = some b) (hopen : b.closed = false) (hu : b.unfired = 0) :
    ∀ v ∈ b.values, ∃ pane ∈ g.panes, v ∈ pane.values := by
  intro v hv
  have hholds := ((h.standing_some hb).of_open hopen).1
  refine (hholds.shown v hv).resolve_left fun hmem => ?_
  rw [hholds.eq_zero hu] at hmem
  exact Multiset.notMem_zero v hmem

theorem OnTrack.advance (h : g.OnTrack input xs) (ht : s.trigger.isBuiltIn = true) {target : Int}
    (hlt : g.watermark < target) :
    ∃ g', g.advance target = .ok g' ∧ g'.OnTrack input xs ∧ g'.watermark = target ∧ g'.Live ∧
      (s.trigger.waits = true → g'.Prompt) := by
  obtain ⟨htidy, l, htracks, hfst⟩ := h
  obtain ⟨g', l', hadvance, h', hfst', hwatermark, hlive, hhas, hfired⟩ := htracks.advance ht hlt
  refine ⟨g', hadvance, ⟨fun hfn v hv => htidy hfn v (hhas v hv), l', h', hfst'.trans hfst⟩,
    hwatermark, hlive, fun hwaits w b hb hopen hpassed => ?_⟩
  have hu := hfired hwaits w b hb hopen (hwatermark ▸ hpassed)
  exact ⟨hu, h'.shown_of_fired hb hopen hu⟩

/-- At the end of the input no window is left. -/
theorem OnTrack.finish (h : g.OnTrack input xs) (ht : s.trigger.isBuiltIn = true) :
    ∃ g', g.advance maxTime = .ok g' ∧ g'.OnTrack input xs ∧
      (s.trigger.waits = true → g.watermark < g'.watermark → g'.Prompt) ∧
      (g.watermark < maxTime → ∀ w, ¬g'.Has w) := by
  rcases lt_or_ge g.watermark maxTime with hlt | hge
  · obtain ⟨g', hadvance, h', hwatermark, hlive, hprompt⟩ := h.advance ht hlt
    exact ⟨g', hadvance, h', fun hwaits _ => hprompt hwaits, fun _ w ⟨b, hb⟩ =>
      hlive w b hb (.inr hwatermark)⟩
  · exact ⟨g, advance_of_le hge, h, fun _ hlt => by omega, fun hlt => by omega⟩

theorem OnTrack.follow (h : g.OnTrack input xs) (ht : s.trigger.isBuiltIn = true)
    (timestamp : Int) :
    ∃ g', g.follow input timestamp = .ok g' ∧ g'.OnTrack input xs ∧
      g'.watermark = pace input g.watermark timestamp ∧
      (s.trigger.waits = true → g.watermark < g'.watermark → g'.Prompt) := by
  cases input with
  | elementTime =>
    rcases lt_or_ge g.watermark timestamp with hlt | hge
    · obtain ⟨g', hadvance, h', hwatermark, -, hprompt⟩ := h.advance ht hlt
      exact ⟨g', hadvance, h', hwatermark.trans (Int.max_eq_right (Int.le_of_lt hlt)).symm,
        fun hwaits _ => hprompt hwaits⟩
    · exact ⟨g, advance_of_le hge, h, (Int.max_eq_left hge).symm, fun _ hlt => by omega⟩
  | heldUntilEnd => exact ⟨g, rfl, h, rfl, fun _ hlt => by omega⟩

/-- No element before this one is later, so the watermark has not passed its timestamp. -/
theorem Behind.late {elements : List (Envelope ν)} (hbehind : g.Behind input elements) {t : Int}
    (horder : ∀ d ∈ elements, d.timestamp ≤ t) (hexpired : s.expiry w < pace input g.watermark t)
    (v : ν) : Listing.Late s input (⟨t, w, v⟩ : Listing ν) := by
  have hle := hbehind.pace_le horder
  have hmin : minTime ≤ s.expiry w := (inRange_later _ _).1
  cases input with
  | elementTime => exact ⟨rfl, show s.expiry w < t by omega⟩
  | heldUntilEnd =>
    have := hbehind.held rfl
    simp only [pace] at hexpired
    omega

theorem OnTrack.take {elements : List (Envelope ν)} (h : g.OnTrack input (listingsOf elements))
    (ht : s.trigger.isBuiltIn = true) (hplans : s.Plans) {e : Envelope ν}
    (hordered : s.windowFn.nonMerging = false → ∀ w ∈ e.windows, w.Ordered)
    (hbehind : g.Behind input elements) (horder : ∀ d ∈ elements, d.timestamp ≤ e.timestamp) :
    ∃ g', g.take input e = .ok g' ∧ g'.OnTrack input (listingsOf (elements ++ [e])) ∧
      g'.Behind input (elements ++ [e]) := by
  obtain ⟨g₁, hfollow, h₁, hpace, -⟩ := h.follow ht e.timestamp
  have hlate := fun w (hexpired : s.expiry w < g₁.watermark) =>
    hbehind.late horder (hpace ▸ hexpired) e.value
  obtain ⟨g', htake, h', hwatermark⟩ := take_rule hfollow
    (fun before g => g.OnTrack input (listingsOf elements ++
      before.map fun w => ⟨e.timestamp, w, e.value⟩))
    (by simpa using h₁) fun before w g hmem hg h => by
      obtain ⟨g', hplace, h', hkept⟩ := h.place (x := ⟨e.timestamp, w, e.value⟩) ht hplans
        (fun hfn => hordered hfn w hmem) fun hexpired => hlate w (hg ▸ hexpired)
      exact ⟨g', hplace, by simpa using h', hkept⟩
  exact ⟨g', htake, by simpa [listingsOf] using h', hbehind.concat (hwatermark.trans hpace)⟩

/-- Part of the way through a run of a built-in trigger, some ledger tracks the grouping. -/
theorem run_onTrack (s : Strategy) (input : InputWatermark) {elements : List (Envelope ν)}
    (ht : s.trigger.isBuiltIn = true) (hplans : s.Plans)
    (hordered : s.windowFn.nonMerging = false → ∀ e ∈ elements, ∀ w ∈ e.windows, w.Ordered)
    {front back : List (Envelope ν)} (hsplit : inTimeOrder elements = front ++ back) :
    ∃ g : Grouper s ν, front.foldlM (Grouper.take input) {} = .ok g ∧
      g.OnTrack input (listingsOf front) ∧ g.Behind input front := by
  exact elements_rule hsplit
    (fun before g => g.OnTrack input (listingsOf before) ∧ g.Behind input before)
    ⟨onTrack_start s input, behind_start input⟩ fun before e g hmem horder ⟨h, hbehind⟩ =>
      h.take ht hplans (fun hfn => hordered hfn e hmem) hbehind horder

end Grouper

end EventTime
