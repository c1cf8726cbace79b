import EventTime.Proofs.Pane.Merging

/-!
# Grouping into sessions

In the middle of a grouping the windows with elements tile the elements' windows. Each of them either
waits, with all values that lie within it in its buffer, or has fired them once, on time. An element
joins the windows that it overlaps; these all wait, for the watermark has not passed its start. The
watermark fires the windows whose end it passes, and only these are collected. So at the end every
session has fired its values in one pane.
-/

namespace EventTime

variable {ν : Type} {gap lateness : Int} {mode : AccumulationMode}

theorem Window.Proper.maxTimestamp_lt {w : Window} (h : w.Proper) : w.maxTimestamp < maxTime := by
  cases w with
  | global => exact h.elim
  | interval p q =>
    rw [Window.maxTimestamp_of_proper h]
    simp only [Window.Proper] at h
    omega

namespace Grouper

/-- An element whose window starts at its timestamp. -/
def AtStart (e : Envelope ν) : Prop := ∃ b, e.windows = [.interval e.timestamp b]

/-- The elements so far tile the time line into cells that wait or have fired, in order. -/
structure Grouped (g : Grouper (.sessions gap mode lateness) ν) (elements : List (Envelope ν))
    (seen : Window → List ν) : Prop where
  single : ∀ e ∈ elements, ∃ v, e.windows = [v] ∧ v.Proper
  tiling : Tiling (windowsOf elements) fun w => seen w ≠ []
  staged : g.Staged seen
  order : g.InOrder
  values : ∀ w, seen w ≠ [] → (seen w : Multiset ν) = valuesWithin w elements
  /-- Where elements stand at the start of their windows, values keep the order of the elements. -/
  ordered : (∀ e ∈ elements, AtStart e) → ∀ w, seen w ≠ [] → seen w = inside w elements

variable {g g' : Grouper (.sessions gap mode lateness) ν} {w : Window}
  {elements : List (Envelope ν)} {seen : Window → List ν}

theorem grouped_start :
    ({} : Grouper (.sessions gap mode lateness) ν).Grouped [] fun _ => [] where
  single e he := by cases he
  tiling := ⟨fun w h => absurd rfl h, fun w h => absurd rfl h, fun w h => absurd rfl h,
    fun u w h => absurd rfl h, fun v hv => by cases hv⟩
  staged := staged_start
  order := ⟨.nil, fun pane hpane => by cases hpane⟩
  values w h := absurd rfl h
  ordered _ w h := absurd rfl h

theorem Grouped.ends (h : g.Grouped elements seen) (hw : seen w ≠ []) : w.maxTimestamp < maxTime :=
  (h.tiling.proper w hw).maxTimestamp_lt

theorem Grouped.proper_of_mem (h : g.Grouped elements seen) {z : Window}
    (hz : z ∈ windowsOf elements) : z.Proper := by
  obtain ⟨e, he, hze⟩ := List.mem_flatMap.mp hz
  obtain ⟨v, hv, hproper⟩ := h.single e he
  rw [hv, List.mem_singleton] at hze
  exact hze ▸ hproper

theorem Grouped.advance (h : g.Grouped elements seen) (hlateness : 0 ≤ lateness) {target : Int}
    (hlt : g.watermark < target) :
    ∃ g', g.advance target = .ok g' ∧ g'.Grouped elements seen ∧
      ∀ w, seen w ≠ [] → w.maxTimestamp < target → g'.HasFired w (seen w) := by
  obtain ⟨g', hadvance, h', -, hfired, horder⟩ := h.staged.advance hlateness (fun _ => h.ends) hlt
  exact ⟨g', hadvance, ⟨h.single, h.tiling, h', horder h.order, h.values, h.ordered⟩, hfired⟩

theorem Grouped.follow (h : g.Grouped elements seen) (hlateness : 0 ≤ lateness)
    (input : InputWatermark) (timestamp : Int) :
    ∃ g', g.follow input timestamp = .ok g' ∧ g'.Grouped elements seen ∧
      g'.watermark = pace input g.watermark timestamp := by
  obtain ⟨g', hfollow, h', hpace, horder⟩ :=
    h.staged.follow hlateness (fun _ => h.ends) input timestamp
  exact ⟨g', hfollow, ⟨h.single, h.tiling, h', horder h.order, h.values, h.ordered⟩, hpace⟩

/-! ### Placing an element -/

theorem Grouped.waits_of_intersects (h : g.Grouped elements seen) {a b : Int}
    (hstart : g.watermark ≤ a) (hcell : seen w ≠ [])
    (hoverlap : (Window.interval a b).intersects w = true) : g.Waits w (seen w) := by
  rcases (h.staged w).waits_or_fired hcell with hs | hs
  · exact hs
  · have hproper := h.tiling.proper w hcell
    cases w with
    | global => exact hproper.elim
    | interval p q =>
      have hpassed := hs.passed
      rw [Window.maxTimestamp_of_proper hproper] at hpassed
      simp only [Window.intersects, Bool.and_eq_true, decide_eq_true_eq] at hoverlap
      omega

theorem Grouped.exists_hits (h : g.Grouped elements seen) {v : Window} (hv : v.Proper)
    (hwaits : ∀ w, seen w ≠ [] → v.intersects w = true → g.Waits w (seen w)) :
    ∃ hits p q, WindowFn.Chain p q hits ∧ hits.Nodup ∧
      (∀ w, w ∈ hits ↔ (seen w ≠ [] ∨ w = v) ∧ v.intersects w = true) ∧
      WindowFn.overlapping (g.opened v).buffers.keys = WindowFn.runMerge (.interval p q) hits := by
  have hactive : ∀ w, w ∈ (g.opened v).buffers.keys ↔ w = v ∨ g.Has w := fun w =>
    WindowMap.mem_keys.trans has_opened
  have hcell : ∀ w, w ∈ (g.opened v).buffers.keys → w ≠ v → seen w ≠ [] := by
    intro w hw hne hnil
    obtain ⟨b, hb⟩ := ((hactive w).mp hw).resolve_left hne
    rw [((h.staged w).unknown_of_nil hnil).buffer] at hb
    cases hb
  have hproper : ∀ w ∈ (g.opened v).buffers.keys, w.Proper := by
    intro w hw
    by_cases hne : w = v
    · exact hne ▸ hv
    · exact h.tiling.proper w (hcell w hw hne)
  -- cells are apart, so whatever overlaps involves `v`
  obtain ⟨hits, p, q, hchain, hnodup, hhits, hmerges⟩ := WindowFn.overlapping_of_one
    (WindowMap.keys_sorted _) hproper ((hactive v).mpr (.inl rfl)) fun u hu w hw huv hwv hne => by
      rw [Bool.eq_false_iff]
      intro hoverlap
      exact hne (h.tiling.apart u w (hcell u hu huv) (hcell w hw hwv) hoverlap)
  refine ⟨hits, p, q, hchain, hnodup, fun w => (hhits w).trans ?_, hmerges⟩
  constructor
  · rintro ⟨hw, hoverlap⟩
    by_cases hne : w = v
    · exact ⟨.inr hne, hoverlap⟩
    · exact ⟨.inl (hcell w hw hne), hoverlap⟩
  · rintro ⟨hw | hw, hoverlap⟩
    · obtain ⟨b, hb, -⟩ := (hwaits w hw hoverlap).buffer
      exact ⟨(hactive w).mpr (.inr ⟨b, hb⟩), hoverlap⟩
    · exact ⟨(hactive w).mpr (.inl hw), hoverlap⟩

/-- What windows have been given once some of them have been joined and the new one has taken a
value. -/
def joined (seen : Window → List ν) (hits : List Window) (into : Window) (x : ν) :
    Window → List ν :=
  fun w => if w = into then hits.flatMap seen ++ [x] else if w ∈ hits then [] else seen w

theorem joined_into (seen : Window → List ν) (hits : List Window) (into : Window) (x : ν) :
    joined seen hits into x into = hits.flatMap seen ++ [x] := if_pos rfl

theorem joined_ne_nil_iff {hits : List Window} {into : Window} {x : ν} :
    joined seen hits into x w ≠ [] ↔ w = into ∨ seen w ≠ [] ∧ w ∉ hits := by
  by_cases hw : w = into
  · simp [joined, hw]
  · by_cases hmem : w ∈ hits <;> simp [joined, hw, hmem]

theorem joined_of_ne {hits : List Window} {into : Window} {x : ν} (hw : w ≠ into)
    (hout : w ∉ hits) : joined seen hits into x w = seen w := by
  rw [joined, if_neg hw, if_neg hout]

/-- What placing an element leaves: the windows that it overlaps are joined into one, which waits
with its value. -/
structure Placed (g g' : Grouper (.sessions gap mode lateness) ν) (v : Window) (x : ν)
    (seen : Window → List ν) (hits : List Window) (p q : Int) : Prop where
  watermark : g'.watermark = g.watermark
  panes : g'.panes = g.panes
  chain : WindowFn.Chain p q hits
  nodup : hits.Nodup
  hit_iff : ∀ w, w ∈ hits ↔ (seen w ≠ [] ∨ w = v) ∧ v.intersects w = true
  waits : g'.Waits (.interval p q) (hits.flatMap seen ++ [x])
  forgotten : ∀ w ∈ hits, w ≠ .interval p q → g'.Unknown w
  others : ∀ w, w ∉ hits → w ≠ .interval p q → g.Agrees g' w

theorem Grouped.exists_placed (h : g.Grouped elements seen) (hlateness : 0 ≤ lateness) {a b : Int}
    (hv : (Window.interval a b).Proper) (hstart : g.watermark ≤ a) (timestamp : Int) (x : ν) :
    ∃ g' hits p q, g.place timestamp x (.interval a b) = .ok g' ∧
      g.Placed g' (.interval a b) x seen hits p q := by
  have hwaits : ∀ w, seen w ≠ [] → (Window.interval a b).intersects w = true →
      g.Waits w (seen w) := fun w => h.waits_of_intersects hstart
  obtain ⟨hits, p, q, hchain, hnodup, hhits, hmerges⟩ := h.exists_hits hv hwaits
  have hvhits : Window.interval a b ∈ hits :=
    (hhits _).mpr ⟨.inr rfl, Window.intersects_self hv⟩
  -- a hit is a cell that waits or a window of which nothing is known
  have hready : ∀ w ∈ hits, (g.opened (.interval a b)).Ready w (seen w) := by
    intro w hw
    obtain ⟨hcell, hoverlap⟩ := (hhits w).mp hw
    by_cases hnil : seen w = []
    · obtain rfl := hcell.resolve_left (not_not.mpr hnil)
      exact hnil ▸ ((h.staged _).unknown_of_nil hnil).ready
    · exact (hwaits w hnil hoverlap).ready_opened _
  have hinto : Window.interval p q ∉ hits → g.Unknown (.interval p q) := by
    intro hout
    refine (h.staged _).unknown_of_nil ?_
    by_contra hcell
    refine hout ((hhits _).mpr ⟨.inl hcell, ?_⟩)
    exact Window.intersects_of_within hv (Window.within_refl hv) (hchain.within _ hvhits)
  obtain ⟨g₁, hmerge, hjoined⟩ := mergeWindows_joined hchain hnodup hvhits hmerges hready
    fun hout => (hinto hout).of_agrees (agrees_opened fun e => hout (e ▸ hvhits))
  obtain ⟨g', hdeliver, hwatermark, hpanes, hwaiting, hothers⟩ := hjoined.ready.deliver timestamp x
  have hkept : g'.panes = g.panes := hpanes.trans (hjoined.panes.trans (opened_panes ..))
  refine ⟨g', hits, p, q, ?_, ?_, hkept, hchain, hnodup, hhits, hwaiting, fun w hw hne => ?_,
    fun w hw hne => ?_⟩
  · have hexpiry := maxTimestamp_le_expiry (.sessions gap) mode hlateness (.interval a b)
    rw [Window.maxTimestamp_of_proper hv] at hexpiry
    have hlive : ¬(Strategy.sessions gap mode lateness).expiry (.interval a b) < g.watermark := by
      have hab := hv.2.1
      show ¬(Strategy.atEnd _ mode lateness).expiry (.interval a b) < g.watermark
      omega
    rw [Grouper.place, if_neg hlive, hmerge]
    exact hdeliver
  · rw [hwatermark, hjoined.watermark, opened_watermark]
  · have hsame := hothers w (Ne.symm hne)
    refine ⟨?_, ?_, ?_⟩
    · rw [panesOf, hkept, ← panesOf, ← panesOf_opened g (.interval a b), (hready w hw).panes]
    · rw [hsame.buffer, hjoined.buffers w hne, if_pos hw]
    · rw [hsame.state, hjoined.states w hne, if_pos hw]
  · have hsame := hothers w (Ne.symm hne)
    have hopened : g.Agrees (g.opened (.interval a b)) w := agrees_opened fun e => hw (e ▸ hvhits)
    refine ⟨by rw [panesOf, hkept, panesOf], ?_, ?_⟩
    · rw [hsame.buffer, hjoined.buffers w hne, if_neg hw, hopened.buffer]
    · rw [hsame.state, hjoined.states w hne, if_neg hw, hopened.state]

namespace Placed

variable {v : Window} {x : ν} {hits : List Window} {p q : Int}

theorem mem_hits (h : g.Placed g' v x seen hits p q) (hv : v.Proper) : v ∈ hits :=
  (h.hit_iff v).mpr ⟨.inr rfl, Window.intersects_self hv⟩

theorem proper (h : g.Placed g' v x seen hits p q) (hg : g.Grouped elements seen)
    (hv : v.Proper) : (Window.interval p q).Proper := by
  refine h.chain.proper fun w hw => ?_
  rcases ((h.hit_iff w).mp hw).1 with hcell | rfl
  · exact hg.tiling.proper w hcell
  · exact hv

theorem within (h : g.Placed g' v x seen hits p q) (hv : v.Proper) : v.Within (.interval p q) :=
  h.chain.within v (h.mem_hits hv)

/-- A window that was not joined does not hold the new one. -/
theorem not_within (h : g.Placed g' v x seen hits p q) (hv : v.Proper) (hcell : seen w ≠ [])
    (hout : w ∉ hits) : ¬v.Within w := fun hwithin =>
  hout ((h.hit_iff w).mpr ⟨.inl hcell,
    Window.intersects_of_within hv (Window.within_refl hv) hwithin⟩)

theorem staged (h : g.Placed g' v x seen hits p q) (hg : g.Staged seen) :
    g'.Staged (joined seen hits (.interval p q) x) := by
  intro w
  by_cases hw : w = .interval p q
  · subst hw
    rw [joined_into]
    exact .waits h.waits
  · by_cases hmem : w ∈ hits
    · rw [joined, if_neg hw, if_pos hmem]
      exact .unknown (h.forgotten w hmem hw)
    · rw [joined_of_ne hw hmem]
      exact (hg w).of_agrees (h.others w hmem hw) (Int.le_of_eq h.watermark.symm)

theorem inOrder (h : g.Placed g' v x seen hits p q) (hg : g.Staged seen) (horder : g.InOrder)
    (hahead : g.watermark ≤ (Window.interval p q).maxTimestamp) : g'.InOrder := by
  refine horder.of_waits hg (h.staged hg) h.panes hahead fun w values hw hwaits => ?_
  have hout : w ∉ hits := fun hmem => by
    have hnone := (h.forgotten w hmem (Ne.symm hw)).state
    rw [hwaits.state] at hnone
    cases hnone
  exact hwaits.of_agrees (h.others w hout (Ne.symm hw)).symm

/-- What an element's window has been given is what lies within the cells that it joined. -/
theorem within_iff (h : g.Placed g' v x seen hits p q) (hg : g.Grouped elements seen)
    (hv : v.Proper) {z : Window} (hz : z ∈ windowsOf elements) :
    z.Within (.interval p q) ↔ ∃ u ∈ hits, seen u ≠ [] ∧ z.Within u :=
  hg.tiling.within_join_iff hv h.chain h.hit_iff hz (hg.proper_of_mem hz)

theorem coe_flatMap_seen (h : g.Placed g' v x seen hits p q) (hg : g.Grouped elements seen)
    (hv : v.Proper) :
    (hits.flatMap seen : Multiset ν) = valuesWithin (.interval p q) elements := by
  classical
  have hsingle : ∀ d ∈ elements, ∃ z ∈ windowsOf elements, d.windows = [z] ∧ z.Proper := by
    intro d hd
    obtain ⟨z, hz, hproper⟩ := hg.single d hd
    exact ⟨z, List.mem_flatMap.mpr ⟨d, hd, by simp [hz]⟩, hz, hproper⟩
  have hone : ∀ w, (seen w : Multiset ν) = if seen w ≠ [] then valuesWithin w elements else 0 := by
    intro w
    split
    · rename_i hcell
      exact hg.values w hcell
    · rename_i hnil
      rw [not_not.mp hnil]
      rfl
  rw [← hg.tiling.sum_valuesWithin hv h.chain h.nodup h.hit_iff hsingle, coe_flatMap]
  exact congrArg List.sum (List.map_congr_left fun w _ => hone w)

/-- If the elements stand at the start of their windows and none comes after the new one, then at
most one cell was joined. -/
theorem flatMap_seen (h : g.Placed g' v x seen hits p q) (hg : g.Grouped elements seen) {a b : Int}
    (hv : v.Proper) (hab : v = .interval a b) (hstart : ∀ e ∈ elements, AtStart e)
    (horder : ∀ d ∈ elements, d.timestamp ≤ a) :
    hits.flatMap seen = inside (.interval p q) elements := by
  have hiff := fun z (hz : z ∈ windowsOf elements) => h.within_iff hg hv hz
  -- a cell that was joined holds the start of the new window
  have hholds : ∀ u ∈ hits, seen u ≠ [] → ∃ c d, u = .interval c d ∧ c ≤ a ∧ a < d := by
    intro u hu hcell
    have hoverlap := ((h.hit_iff u).mp hu).2
    obtain ⟨z, hz, hzu⟩ := hg.tiling.inhabited u hcell
    obtain ⟨e, he, hze⟩ := List.mem_flatMap.mp hz
    obtain ⟨b', hwindows⟩ := hstart e he
    rw [hwindows, List.mem_singleton] at hze
    cases u with
    | global => exact (hg.tiling.proper _ hcell).elim
    | interval c d =>
      have hle := horder e he
      simp only [hze, hab, Window.Within, Window.intersects, Bool.and_eq_true,
        decide_eq_true_eq] at hzu hoverlap
      exact ⟨c, d, rfl, by omega, hoverlap.1⟩
  have hone : ∀ u ∈ hits, ∀ w ∈ hits, seen u ≠ [] → seen w ≠ [] → u = w := by
    intro u hu w hw hucell hwcell
    obtain ⟨c, d, rfl, hca, had⟩ := hholds u hu hucell
    obtain ⟨c', d', rfl, hca', had'⟩ := hholds w hw hwcell
    refine hg.tiling.apart _ _ hucell hwcell ?_
    simp only [Window.intersects, Bool.and_eq_true, decide_eq_true_eq]
    omega
  by_cases hhit : ∃ u ∈ hits, seen u ≠ []
  · obtain ⟨u, hu, hcell⟩ := hhit
    rw [flatMap_unique h.nodup seen hu fun w hw hne => by_contra fun hwcell =>
      hne (hone w hw u hu hwcell hcell), hg.ordered hstart u hcell]
    refine inside_congr fun z hz => ⟨fun hzu => (hiff z hz).mpr ⟨u, hu, hcell, hzu⟩, fun hzm => ?_⟩
    obtain ⟨w, hw, hwcell, hzw⟩ := (hiff z hz).mp hzm
    exact hone w hw u hu hwcell hcell ▸ hzw
  · rw [List.flatMap_eq_nil_iff.mpr fun w hw => by_contra fun hcell => hhit ⟨w, hw, hcell⟩,
      inside_eq_nil (fun e he => ?_) fun z hz hzm => ?_]
    · obtain ⟨z, hz, -⟩ := hg.single e he
      simp [hz]
    obtain ⟨u, hu, hcell, -⟩ := (hiff z hz).mp hzm
    exact hhit ⟨u, hu, hcell⟩

end Placed

theorem windowsOf_concat {v : Window} {e : Envelope ν} (he : e.windows = [v]) :
    windowsOf (elements ++ [e]) = windowsOf elements ++ [v] := by
  rw [windowsOf, List.flatMap_append, List.flatMap_singleton, he]
  rfl

theorem Grouped.place (h : g.Grouped elements seen) (hlateness : 0 ≤ lateness) {a b : Int}
    (hv : (Window.interval a b).Proper) (hwatermark : g.watermark ≤ a) {e : Envelope ν}
    (he : e.windows = [.interval a b]) (horder : ∀ d ∈ elements, d.timestamp ≤ e.timestamp) :
    ∃ g' seen', g.place e.timestamp e.value (.interval a b) = .ok g' ∧
      g'.Grouped (elements ++ [e]) seen' ∧ g'.watermark = g.watermark := by
  obtain ⟨g', hits, p, q, hplace, hplaced⟩ :=
    h.exists_placed hlateness hv hwatermark e.timestamp e.value
  refine ⟨g', joined seen hits (.interval p q) e.value, hplace, ⟨fun d hd => ?_, ?_,
    hplaced.staged h.staged, ?_, fun w hw => ?_, fun hstart w hw => ?_⟩, hplaced.watermark⟩
  · rcases List.mem_append.mp hd with hd | hd
    · exact h.single d hd
    · exact ⟨_, List.mem_singleton.mp hd ▸ he, hv⟩
  · rw [windowsOf_concat he]
    simp only [joined_ne_nil_iff]
    exact h.tiling.join hv hplaced.chain hplaced.hit_iff
  · have hproper := hplaced.proper h hv
    have hwithin := hplaced.within hv
    refine hplaced.inOrder h.staged h.order ?_
    rw [Window.maxTimestamp_of_proper hproper]
    simp only [Window.Within, Window.Proper] at hwithin hv
    omega
  · rw [valuesWithin_concat _ _ he]
    by_cases hinto : w = .interval p q
    · rw [hinto, if_pos (hplaced.within hv), joined_into, ← hplaced.coe_flatMap_seen h hv]
      exact (Multiset.coe_add ..).symm
    · obtain ⟨hcell, hout⟩ := (joined_ne_nil_iff.mp hw).resolve_left hinto
      rw [if_neg (hplaced.not_within hv hcell hout), add_zero, joined_of_ne hinto hout]
      exact h.values w hcell
  · have hfront : ∀ d ∈ elements, AtStart d := fun d hd => hstart d (List.mem_append_left _ hd)
    rw [inside_concat _ _ he]
    by_cases hinto : w = .interval p q
    · obtain ⟨b', hlast⟩ := hstart e (by simp)
      rw [he] at hlast
      obtain ⟨rfl, -⟩ := Window.interval.inj (List.cons.inj hlast).1
      rw [hinto, if_pos (hplaced.within hv), joined_into,
        hplaced.flatMap_seen h hv rfl hfront horder]
    · obtain ⟨hcell, hout⟩ := (joined_ne_nil_iff.mp hw).resolve_left hinto
      rw [if_neg (hplaced.not_within hv hcell hout), List.append_nil, joined_of_ne hinto hout]
      exact h.ordered hfront w hcell

/-! ### A run -/

/-- An element of one window; it starts at the element's timestamp if the watermark follows these. -/
def Fits (input : InputWatermark) (e : Envelope ν) : Prop :=
  ∃ a b, e.windows = [.interval a b] ∧ (Window.interval a b).Proper ∧
    (input = .elementTime → e.timestamp = a)

theorem Grouped.take (h : g.Grouped elements seen) (hlateness : 0 ≤ lateness)
    {input : InputWatermark} {e : Envelope ν} (he : Fits input e)
    (hbehind : g.Behind input elements) (horder : ∀ d ∈ elements, d.timestamp ≤ e.timestamp) :
    ∃ g' seen', g.take input e = .ok g' ∧ g'.Grouped (elements ++ [e]) seen' ∧
      g'.Behind input (elements ++ [e]) := by
  obtain ⟨a, b, hwindows, hproper, htime⟩ := he
  have hmin : minTime ≤ a := hproper.1
  obtain ⟨g₁, hfollow, h₁, hpace⟩ := h.follow hlateness input e.timestamp
  have hstart : g₁.watermark ≤ a := by
    rw [hpace]
    cases input with
    | elementTime =>
      have hle := hbehind.pace_le horder
      have := htime rfl
      omega
    | heldUntilEnd => exact (hbehind.held rfl).trans_le hmin
  obtain ⟨g', seen', hplace, h', hwatermark⟩ :=
    h₁.place hlateness hproper hstart hwindows horder
  refine ⟨g', seen', ?_, h', hbehind.concat (hwatermark.trans hpace)⟩
  rw [take_eq, hfollow, hwindows]
  simp only [Except.bind, List.foldlM_cons, hplace]
  rfl

/-- A whole run succeeds, and every cell has fired. -/
theorem run_grouped (gap : Int) (mode : AccumulationMode) (hlateness : 0 ≤ lateness)
    {input : InputWatermark} {elements : List (Envelope ν)}
    (helements : ∀ e ∈ elements, Fits input e) :
    ∃ (g : Grouper (.sessions gap mode lateness) ν) (seen : Window → List ν),
      Grouper.run (.sessions gap mode lateness) input elements = .ok g.panes ∧
      g.Grouped (inTimeOrder elements) seen ∧ ∀ w, seen w ≠ [] → g.HasFired w (seen w) := by
  obtain ⟨g, hfold, ⟨seen, h⟩, hbehind⟩ := elements_rule (List.append_nil _).symm
    (fun before (g : Grouper (.sessions gap mode lateness) ν) =>
      (∃ seen, g.Grouped before seen) ∧ g.Behind input before)
    ⟨⟨_, grouped_start⟩, behind_start input⟩ fun before e g hmem horder ⟨⟨seen, h⟩, hbehind⟩ => by
      obtain ⟨g', seen', htake, h', hbehind'⟩ := h.take hlateness (helements e hmem) hbehind horder
      exact ⟨g', htake, ⟨seen', h'⟩, hbehind'⟩
  have hend : g.watermark < maxTime := by
    cases input with
    | elementTime =>
      refine hbehind.lt_maxTime fun e he => ?_
      obtain ⟨a, b, -, hproper, htime⟩ := helements e (mem_inTimeOrder.mp he)
      rw [htime rfl]
      exact Int.lt_of_lt_of_le hproper.2.1 hproper.2.2
    | heldUntilEnd =>
      rw [hbehind.held rfl]
      decide
  obtain ⟨g', hadvance, h', hfired⟩ := h.advance hlateness hend
  exact ⟨g', seen, run_of_fold hfold hadvance, h', fun w hcell => hfired w hcell (h'.ends hcell)⟩

theorem Grouped.isSession_iff (h : g.Grouped (inTimeOrder elements) seen) {p q : Int} :
    IsSession (windowsOf elements) p q ↔ seen (.interval p q) ≠ [] := by
  have hperm : (inTimeOrder elements).Perm elements := List.mergeSort_perm ..
  rw [← h.tiling.isSession_iff fun v => h.proper_of_mem]
  exact isSession_perm (hperm.symm.flatMap_right _)

theorem Grouped.exists_interval (h : g.Grouped elements seen) (hcell : seen w ≠ []) :
    ∃ p q, w = .interval p q := by
  have hproper := h.tiling.proper w hcell
  cases w with
  | global => exact hproper.elim
  | interval p q => exact ⟨p, q, rfl⟩

end Grouper

/-- A run over elements in session windows has one pane for each session: the first of its window,
on time, with all values of the session. -/
theorem run_sessions (gap : Int) (mode : AccumulationMode) (hlateness : 0 ≤ lateness)
    {input : InputWatermark} {elements : List (Envelope ν)}
    (helements : ∀ e ∈ elements, Grouper.Fits input e) :
    ∃ panes, Grouper.run (.sessions gap mode lateness) input elements = .ok panes ∧
      (panes.map (·.window)).Nodup ∧
      (∀ pane ∈ panes, pane.info = .onTimeFirst ∧
        (pane.values : Multiset ν) = valuesWithin pane.window elements ∧
        ∃ p q, pane.window = .interval p q ∧ IsSession (windowsOf elements) p q) ∧
      ∀ p q, IsSession (windowsOf elements) p q →
        ∃ pane ∈ panes, pane.window = .interval p q := by
  obtain ⟨g, seen, hrun, h, hfired⟩ := Grouper.run_grouped gap mode hlateness helements
  obtain ⟨hnodup, hpanes⟩ := h.staged.panes_of_fired hfired
  have hperm : (Grouper.inTimeOrder elements).Perm elements := List.mergeSort_perm ..
  refine ⟨g.panes, hrun, hnodup, fun pane hpane => ?_, fun p q hs => ?_⟩
  · obtain ⟨hcell, heq⟩ := (hpanes pane).mp hpane
    obtain ⟨p, q, hw⟩ := h.exists_interval hcell
    refine ⟨by rw [heq], ?_, p, q, hw, h.isSession_iff.mpr (hw ▸ hcell)⟩
    rw [heq]
    exact (h.values _ hcell).trans (valuesWithin_perm _ hperm)
  · refine ⟨⟨.interval p q, .onTimeFirst, seen (.interval p q)⟩, ?_, rfl⟩
    exact (hpanes _).mpr ⟨h.isSession_iff.mp hs, rfl⟩

end EventTime
