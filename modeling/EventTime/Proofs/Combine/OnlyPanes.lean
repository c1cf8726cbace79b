import Mathlib.Data.List.Permutation
import EventTime.Proofs.Combine.Shapes

/-!
# How the only pane of a window is marked

Where windows never merge and fire at their end, and no element comes after the end of a window that
it lists, grouping and combining in one node put out one pane for each key and window. A combine
marks it as the first and the last pane. In a grouping the pane fires from a timer, and the trigger
does not finish then; so its pane is marked as the first one, but not as the last.
-/

namespace EventTime

variable {κ ν α ο : Type}

/-- Whose pane an element is. -/
def Envelope.paneKey (e : Envelope (κ × ν)) : κ × List Window := (e.value.1, e.windows)

/-- The panes of rows whose windows never merge: one for each key and window that occur. -/
structure OnePaneEach (rows : List (Envelope (κ × ν))) (info : PaneInfo)
    (out : List (Envelope (κ × ο))) : Prop where
  nodup : (out.map Envelope.paneKey).Nodup
  mem_iff : ∀ key windows, (key, windows) ∈ out.map Envelope.paneKey ↔
    ∃ w, windows = [w] ∧ ∃ d ∈ rows, d.value.1 = key ∧ w ∈ d.windows
  pane : ∀ e ∈ out, e.pane = info

namespace OnePaneEach

variable {ο' : Type} {rows : List (Envelope (κ × ν))} {info info' : PaneInfo}
  {out : List (Envelope (κ × ο))} {out' : List (Envelope (κ × ο'))}

theorem perm (h : OnePaneEach rows info out) (h' : OnePaneEach rows info' out') :
    (out.map Envelope.paneKey).Perm (out'.map Envelope.paneKey) := by
  rw [List.perm_ext_iff_of_nodup h.nodup h'.nodup]
  rintro ⟨key, windows⟩
  rw [h.mem_iff, h'.mem_iff]

theorem eq_nil_iff (h : OnePaneEach rows info out) : out = [] ↔ ∀ d ∈ rows, d.windows = [] := by
  constructor
  · rintro rfl d hd
    rw [List.eq_nil_iff_forall_not_mem]
    intro w hw
    exact List.not_mem_nil ((h.mem_iff d.value.1 [w]).mpr ⟨w, rfl, d, hd, rfl, hw⟩)
  · intro hnone
    rw [List.eq_nil_iff_forall_not_mem]
    intro e he
    obtain ⟨w, -, d, hd, -, hw⟩ := (h.mem_iff _ _).mp (List.mem_map_of_mem he)
    rw [hnone d hd] at hw
    exact List.not_mem_nil hw

/-- Panes that all have one marking have another one only if there are none. -/
theorem pane_eq_iff (h : OnePaneEach rows info out) (hne : info ≠ info') :
    (∀ e ∈ out, e.pane = info') ↔ ∀ d ∈ rows, d.windows = [] := by
  rw [← h.eq_nil_iff, List.eq_nil_iff_forall_not_mem]
  exact forall_congr' fun e =>
    ⟨fun hpane he => hne ((h.pane e he).symm.trans (hpane he)), fun hnot he => absurd he hnot⟩

end OnePaneEach

variable [DecidableEq κ]

theorem OnePaneEach.of_summarizes {f : KeyedCombineFn κ ν α ο} {R : κ → α → Multiset ν → Prop}
    {info : PaneInfo} {rows : List (Envelope (κ × ν))} {out : List (Envelope (κ × ο))}
    (h : Summarizes (.ok out) f R info (ListedBag rows)) : OnePaneEach rows info out := by
  obtain ⟨hnodup, hkeys, hpanes⟩ := h.keys
  refine ⟨hnodup, fun key windows => ?_, hpanes⟩
  simp only [exists_listedBag_iff] at hkeys
  exact hkeys key windows

theorem combineBundles_onePaneEach (f : KeyedCombineFn κ ν α ο) (width : Option Nat)
    (bundles : List (List (Envelope (κ × ν)))) :
    OnePaneEach bundles.flatten .onTimeAndOnly (combineBundles f width bundles) :=
  have htracks : f.TracksBag fun _ _ _ => True :=
    ⟨fun _ => trivial, fun _ _ => trivial, fun _ _ => trivial⟩
  .of_summarizes (combineBundles_summarizes htracks width bundles)

/-- What panes show does not matter here, so the groups are those that any combine reduces. -/
theorem groupRows_onePaneEach {fn : WindowFn} (hfn : fn.nonMerging = true) (mode : AccumulationMode)
    {lateness : Int} (hlateness : 0 ≤ lateness) (input : InputWatermark)
    {rows : List (Envelope (κ × ν))} (hrows : ∀ e ∈ rows, InWindows e) :
    ∃ groups, groupRows (.atEnd fn mode lateness) input rows = .ok groups ∧
      OnePaneEach rows .onTimeFirst groups := by
  have h := groupRows_onTime (KeyedCombineFn.counting_multiset κ ν).toTracksBag hfn mode hlateness
    input hrows
  cases hgroups : groupRows (.atEnd fn mode lateness) input rows with
  | error fault =>
    rw [hgroups] at h
    obtain ⟨bags, out, hout, -⟩ := h
    cases hout
  | ok groups =>
    rw [hgroups] at h
    have hreduced := OnePaneEach.of_summarizes h
    have hkeys : (groups.map (reduced (.counting κ ν))).map Envelope.paneKey =
        groups.map Envelope.paneKey := by
      rw [List.map_map]
      rfl
    refine ⟨groups, rfl, hkeys ▸ hreduced.nodup, hkeys ▸ hreduced.mem_iff, fun e he => ?_⟩
    exact hreduced.pane _ (List.mem_map_of_mem he)

variable {k v o : ElemType} [DecidableEq k.Elem]

/-- Where windows never merge and fire at their end, and no element comes after the end of a window
that it lists, a combine by key marks each pane as the only one of its window. Grouping puts out
panes of the same keys and windows and marks them the same way, except that none is the last. -/
theorem groupByKey_pane_not_last {p : Pipeline} (hp : p.graph.Ordered) {s : Schedule}
    {c : Collection (.pair k v)} {bundles : List (Rows (.pair k v))}
    (hin : p.bundles s c = .ok bundles) (hfn : c.strategy.windowFn.nonMerging = true)
    (ht : c.strategy.trigger = .endOfWindow) (hlateness : 0 ≤ c.strategy.lateness)
    (hrows : ∀ e ∈ bundles.flatten, ∀ w ∈ e.windows,
      w.Storable ∧ e.timestamp ≤ w.maxTimestamp)
    {f : KeyedCombineFn k.Elem v.Elem α o.Elem} {accumCoder : Coder α}
    (hcoder : f.accumulatorCoder p.registry v.coder = .ok accumCoder) (width : Option Nat) :
    ∃ c₁ p₁ c₂ p₂ lifted grouped,
      (c.combineByKey f width).begin p = (.ok c₁, p₁) ∧
      c.groupByKey.begin p = (.ok c₂, p₂) ∧
      p₁.collect s c₁.node (.pair k o) = .ok lifted ∧
      p₂.collect s c₂.node (.pair k (.list v)) = .ok grouped ∧
      (lifted.map Envelope.paneKey).Perm (grouped.map Envelope.paneKey) ∧
      (grouped.map Envelope.paneKey).Nodup ∧
      (∀ e ∈ lifted, e.pane = .onTimeAndOnly) ∧
      (∀ e ∈ grouped, e.pane = { PaneInfo.onTimeAndOnly with isLast := false }) ∧
      ((∀ e ∈ grouped, e.pane = .onTimeAndOnly) ↔ ∀ d ∈ bundles.flatten, d.windows = []) := by
  have hcarries := Pipeline.carries_of_bundles hp hin
  obtain ⟨c₁, p₁, hbuild₁, hgrown₁, -, hout₁⟩ :=
    Pipeline.builds_combineByKey (o := o) hp hcarries hcoder width .elementTime
  obtain ⟨c₂, p₂, hbuild₂, hgrown₂, -, hout₂⟩ :=
    Pipeline.builds_groupByKey hp hcarries .elementTime
  have hstrategy : c.strategy =
      .atEnd c.strategy.windowFn c.strategy.mode c.strategy.lateness := by
    rw [Strategy.atEnd, ← ht]
  have hlift : c.strategy.allowsLifting = true := by
    rw [Strategy.allowsLifting, hfn, ht]
    rfl
  have hlifted := combineBundles_onePaneEach f width bundles
  obtain ⟨grouped, hg, hgrouped⟩ :=
    groupRows_onePaneEach hfn c.strategy.mode hlateness .elementTime hrows
  rw [← hstrategy] at hg
  have hcollect₁ := hout₁.collect hgrown₁.ordered
  have hcollect₂ := hout₂.collect hgrown₂.ordered
  simp only [bind, Except.bind, combineRows, hlift, if_true] at hcollect₁
  simp only [bind, Except.bind, hg] at hcollect₂
  refine ⟨c₁, p₁, c₂, p₂, combineBundles f width bundles, grouped, hbuild₁, hbuild₂, ?_, ?_,
    hlifted.perm hgrouped, hgrouped.nodup, hlifted.pane, hgrouped.pane,
    hgrouped.pane_eq_iff (by decide)⟩
  · simpa [Except.map] using hcollect₁
  · simpa [Except.map] using hcollect₂

theorem groupByKey_pane_not_last_of_two :
    let w : Window := .interval 0 10
    let bundles : List (Rows (.pair .word8 .word8)) :=
      [[⟨(7, 1), 9, [w], .noFiring⟩, ⟨(7, 2), 14, [.interval 10 20], .noFiring⟩],
        [⟨(7, 3), 1, [w], .noFiring⟩]]
    let source : Node Partition := .source fun _ => bundles.map (Partition.mk (.pair .word8 .word8))
    let p : Pipeline := { graph := Graph.add {} source [] }
    let s : Schedule := ⟨2, fun _ _ => 0⟩
    let c : Collection (.pair .word8 .word8) := ⟨0, { windowFn := .fixed 10 }⟩
    let f := KeyedCombineFn.counting UInt8 UInt8
    p.graph.Ordered ∧ p.bundles s c = .ok bundles ∧ c.strategy.windowFn.nonMerging = true ∧
      c.strategy.trigger = .endOfWindow ∧ 0 ≤ c.strategy.lateness ∧
      (∀ e ∈ bundles.flatten, ∀ w ∈ e.windows, w.Storable ∧ e.timestamp ≤ w.maxTimestamp) ∧
      f.accumulatorCoder p.registry (ElemType.coder .word8) = .ok (.ofWire Wire.natural) ∧
      ∃ c₁ p₁ c₂ p₂ lifted grouped,
        (c.combineByKey (o := .word32) f none).begin p = (.ok c₁, p₁) ∧
        c.groupByKey.begin p = (.ok c₂, p₂) ∧
        p₁.collect s c₁.node (.pair .word8 .word32) = .ok lifted ∧
        p₂.collect s c₂.node (.pair .word8 (.list .word8)) = .ok grouped ∧
        ¬∀ e ∈ grouped, e.pane = .onTimeAndOnly := by
  intro w bundles source p s c f
  have hp : p.graph.Ordered := by
    intro e he
    cases he
  have hin : p.bundles s c = .ok bundles := rfl
  have hrows : ∀ e ∈ bundles.flatten, ∀ w ∈ e.windows,
      w.Storable ∧ e.timestamp ≤ w.maxTimestamp := by decide
  obtain ⟨c₁, p₁, c₂, p₂, lifted, grouped, hbuild₁, hbuild₂, hlifted, hgrouped, -, -, -, -, honly⟩ :=
    groupByKey_pane_not_last (o := .word32) hp hin rfl rfl (by decide) hrows (f := f) rfl none
  exact ⟨hp, hin, rfl, rfl, by decide, hrows, rfl, c₁, p₁, c₂, p₂, lifted, grouped, hbuild₁,
    hbuild₂, hlifted, hgrouped, fun hall => absurd (honly.mp hall) (by decide)⟩

/-- One element in one window: the only pane of the window is not marked as the last. -/
theorem groupByKey_only_pane :
    let w : Window := .interval 0 10
    let bundles : List (Rows (.pair .word8 .word8)) := [[⟨(7, 1), 3, [w], .noFiring⟩]]
    let source : Node Partition := .source fun _ => bundles.map (Partition.mk (.pair .word8 .word8))
    let p : Pipeline := { graph := Graph.add {} source [] }
    let s : Schedule := ⟨2, fun _ _ => 0⟩
    let c : Collection (.pair .word8 .word8) := ⟨0, { windowFn := .fixed 10 }⟩
    (∀ e ∈ bundles.flatten, ∀ w ∈ e.windows, e.timestamp ≤ w.maxTimestamp) ∧
      c.strategy.windowFn.nonMerging = true ∧ c.strategy.trigger = .endOfWindow ∧
      c.strategy.lateness = 0 ∧
      ∃ c' p', c.groupByKey.begin p = (.ok c', p') ∧
        p'.collect s c'.node (.pair .word8 (.list .word8)) =
          .ok [⟨(7, [1]), 9, [w], ⟨0, true, false, .onTime⟩⟩] ∧
        (⟨0, true, false, .onTime⟩ : PaneInfo) ≠ .onTimeAndOnly :=
  ⟨by decide, rfl, rfl, rfl, _, _, rfl, by cbv, by decide⟩

end EventTime
