import EventTime.Proofs.Combine.Grouped
import EventTime.Proofs.Pane.OnTime

/-!
# The two shapes of a combine by key

Where windows never merge and fire at their end, a combine by key folds the values of every key and
window into a table. Grouping replays the elements of every key through timers and trigger state, and
reduces what fires. If no element comes after the end of a window that it lists, both say the same.
-/

namespace EventTime

variable {κ ν α ο : Type}

/-- The bags of one key: the values that list a window, if there are any. -/
def ListedBy (rows : List (Envelope ν)) (w : Window) (values : Multiset ν) : Prop :=
  values = listed w rows ∧ values ≠ 0

theorem run_onTime_shows {fn : WindowFn} (hfn : fn.nonMerging = true) (mode : AccumulationMode)
    {lateness : Int} (hlateness : 0 ≤ lateness) (input : InputWatermark)
    {rows : List (Envelope ν)} (hrows : ∀ e ∈ rows, InWindows e) :
    ∃ panes, Grouper.run (.atEnd fn mode lateness) input rows = .ok panes ∧
      Shows panes .onTimeFirst (ListedBy rows) := by
  obtain ⟨panes, hrun, hnodup, hpanes⟩ := run_onTime hfn mode hlateness input hrows
  have hlisted : ∀ w, (listed w (Grouper.inTimeOrder rows) : Multiset ν) = listed w rows :=
    fun w => Multiset.coe_eq_coe.mpr ((List.mergeSort_perm ..).flatMap_right _)
  refine ⟨panes, hrun, hnodup, fun pane hpane => ?_, ?_⟩
  · obtain ⟨hne, heq⟩ := (hpanes pane).mp hpane
    rw [heq]
    refine ⟨rfl, hlisted _, fun hzero => hne ?_⟩
    exact (Multiset.coe_eq_zero _).mp hzero
  · rintro w m ⟨rfl, hne⟩
    refine ⟨⟨w, .onTimeFirst, listed w (Grouper.inTimeOrder rows)⟩, (hpanes _).mpr ⟨?_, rfl⟩, rfl⟩
    rw [← hlisted w] at hne
    exact fun hnil => hne ((Multiset.coe_eq_zero _).mpr hnil)

variable [DecidableEq κ]

theorem groupRows_onTime {f : KeyedCombineFn κ ν α ο} {R : κ → α → Multiset ν → Prop}
    (hf : f.TracksBag R) {fn : WindowFn} (hfn : fn.nonMerging = true) (mode : AccumulationMode)
    {lateness : Int} (hlateness : 0 ≤ lateness) (input : InputWatermark)
    {rows : List (Envelope (κ × ν))} (hrows : ∀ e ∈ rows, InWindows e) :
    Summarizes ((groupRows (.atEnd fn mode lateness) input rows).map fun groups =>
      groups.map (reduced f)) f R .onTimeFirst (ListedBag rows) := by
  refine groupRows_summarizes hf (B := ListedBy) (fun key =>
    run_onTime_shows hfn mode hlateness input fun e he => ?_) ?_
  · obtain ⟨d, hd, -, rfl⟩ := mem_rowsOf.mp he
    exact hrows d hd
  · rintro w m ⟨rfl, hne⟩
    exact hne rfl

theorem exists_listedBag_iff {rows : List (Envelope (κ × ν))} {key : κ} {w : Window} :
    (∃ m, ListedBag rows key w m) ↔ ∃ d ∈ rows, d.value.1 = key ∧ w ∈ d.windows := by
  rw [← valuesAt_ne_nil_iff]
  constructor
  · rintro ⟨m, rfl, hne⟩ hnil
    exact hne (congrArg Multiset.ofList hnil)
  · intro hne
    exact ⟨_, rfl, fun hzero => hne ((Multiset.coe_eq_zero _).mp hzero)⟩

variable {k v o : ElemType} [DecidableEq k.Elem]

/-- Where windows never merge and fire at their end, and no element comes after the end of a window
that it lists, combining in one node and combining after grouping put out the same results: one for
each key and window that occur. Those of the grouping come from the first pane of the window, on
time. -/
theorem combineByKey_perm_grouped {p : Pipeline} (hp : p.graph.Ordered) {s : Schedule}
    {c : Collection (.pair k v)} {bundles : List (Rows (.pair k v))}
    (hin : p.bundles s c = .ok bundles) (hfn : c.strategy.windowFn.nonMerging = true)
    (ht : c.strategy.trigger = .endOfWindow) (hlateness : 0 ≤ c.strategy.lateness)
    (hrows : ∀ e ∈ bundles.flatten, ∀ w ∈ e.windows,
      w.Storable ∧ e.timestamp ≤ w.maxTimestamp)
    {f : KeyedCombineFn k.Elem v.Elem α o.Elem} {R : k.Elem → α → Multiset v.Elem → Prop}
    (hf : f.MultisetContract R) {accumCoder : Coder α}
    (hcoder : f.accumulatorCoder p.registry v.coder = .ok accumCoder) (width : Option Nat) :
    ∃ c₁ p₁ c₂ p₂ lifted grouped,
      (c.combineByKey f width).begin p = (.ok c₁, p₁) ∧
      Attempt.begin (do let d ← c.groupByKey; d.combineGrouped f) p = (.ok c₂, p₂) ∧
      p₁.collect s c₁.node (.pair k o) = .ok lifted ∧
      p₂.collect s c₂.node (.pair k o) = .ok grouped ∧
      (lifted.map Envelope.result).Perm (grouped.map Envelope.result) ∧
      (grouped.map fun e => (e.value.1, e.windows)).Nodup ∧
      (∀ key windows, (key, windows) ∈ grouped.map (fun e => (e.value.1, e.windows)) ↔
        ∃ w, windows = [w] ∧ ∃ d ∈ bundles.flatten, d.value.1 = key ∧ w ∈ d.windows) ∧
      ∀ e ∈ grouped, e.pane.index = 0 ∧ e.pane.isFirst = true ∧ e.pane.timing = .onTime := by
  have hcarries := Pipeline.carries_of_bundles hp hin
  obtain ⟨c₁, p₁, hbuild₁, hgrown₁, -, hout₁⟩ :=
    Pipeline.builds_combineByKey (o := o) hp hcarries hcoder width .elementTime
  obtain ⟨c₂, p₂, hbuild₂, hgrown₂, -, hout₂⟩ :=
    Pipeline.builds_combineGrouped (o := o) hp hcarries f .elementTime
  have hstrategy : c.strategy =
      .atEnd c.strategy.windowFn c.strategy.mode c.strategy.lateness := by
    rw [Strategy.atEnd, ← ht]
  have hlift : c.strategy.allowsLifting = true := by
    rw [Strategy.allowsLifting, hfn, ht]
    rfl
  have hlifted : Summarizes (combineRows c.strategy f width .elementTime bundles) f R .onTimeAndOnly
      (ListedBag bundles.flatten) := by
    rw [combineRows_lifted hlift]
    exact combineBundles_summarizes hf.toTracksBag width bundles
  have hgrouped := groupRows_onTime hf.toTracksBag hfn c.strategy.mode hlateness .elementTime hrows
  rw [← hstrategy] at hgrouped
  obtain ⟨lifted, grouped, hl, hg, hperm⟩ := hlifted.perm_results hf
    (fun key w m m' hm hm' => hm.1.trans hm'.1.symm) hgrouped
  obtain ⟨hnodup, hkeys, hpanes⟩ := (hg ▸ hgrouped).keys
  have hcollect₁ := hout₁.collect hgrown₁.ordered
  have hcollect₂ := hout₂.collect hgrown₂.ordered
  simp only [bind, Except.bind, hl] at hcollect₁
  simp only [bind, Except.bind, hg] at hcollect₂
  refine ⟨c₁, p₁, c₂, p₂, lifted, grouped, hbuild₁, hbuild₂, ?_, ?_, hperm, hnodup,
    fun key windows => ?_, fun e he => ?_⟩
  · simpa [Except.map] using hcollect₁
  · simpa [Except.map] using hcollect₂
  · rw [hkeys]
    simp only [exists_listedBag_iff]
  · rw [hpanes e he]
    exact ⟨rfl, rfl, rfl⟩

theorem combineByKey_perm_grouped_of_counting :
    let w : Window := .interval 0 10
    let bundles : List (Rows (.pair .word8 .word8)) :=
      [[⟨(7, 1), 9, [w], .noFiring⟩, ⟨(7, 2), 14, [.interval 10 20], .noFiring⟩],
        [⟨(7, 3), 1, [w], .noFiring⟩]]
    let source : Node Partition := .source fun _ => bundles.map (Partition.mk (.pair .word8 .word8))
    let p : Pipeline := { graph := Graph.add {} source [] }
    let s : Schedule := ⟨2, fun _ _ => 0⟩
    let c : Collection (.pair .word8 .word8) := ⟨0, { windowFn := .fixed 10, mode := .accumulating }⟩
    let f := KeyedCombineFn.counting UInt8 UInt8
    p.graph.Ordered ∧ p.bundles s c = .ok bundles ∧ c.strategy.windowFn.nonMerging = true ∧
      c.strategy.trigger = .endOfWindow ∧ 0 ≤ c.strategy.lateness ∧
      (∀ e ∈ bundles.flatten, ∀ w ∈ e.windows, w.Storable ∧ e.timestamp ≤ w.maxTimestamp) ∧
      ∃ c₁ p₁ c₂ p₂ lifted grouped,
        (c.combineByKey (o := .word32) f none).begin p = (.ok c₁, p₁) ∧
        Attempt.begin (do let d ← c.groupByKey; d.combineGrouped (o := .word32) f) p =
          (.ok c₂, p₂) ∧
        p₁.collect s c₁.node (.pair .word8 .word32) = .ok lifted ∧
        p₂.collect s c₂.node (.pair .word8 .word32) = .ok grouped ∧
        (lifted.map Envelope.result).Perm (grouped.map Envelope.result) ∧
        (7, [w]) ∈ grouped.map fun e => (e.value.1, e.windows) := by
  intro w bundles source p s c f
  have hp : p.graph.Ordered := by
    intro e he
    cases he
  have hin : p.bundles s c = .ok bundles := rfl
  have hrows : ∀ e ∈ bundles.flatten, ∀ w ∈ e.windows,
      w.Storable ∧ e.timestamp ≤ w.maxTimestamp := by decide
  obtain ⟨c₁, p₁, c₂, p₂, lifted, grouped, hbuild₁, hbuild₂, hlifted, hgrouped, hperm, -, hkeys,
    -⟩ := combineByKey_perm_grouped (o := .word32) hp hin rfl rfl (by decide) hrows
      (KeyedCombineFn.counting_multiset UInt8 UInt8) rfl none
  refine ⟨hp, hin, rfl, rfl, by decide, hrows, c₁, p₁, c₂, p₂, lifted, grouped, hbuild₁, hbuild₂,
    hlifted, hgrouped, hperm, (hkeys 7 [w]).mpr ⟨w, rfl, ?_⟩⟩
  exact ⟨⟨(7, 1), 9, [w], .noFiring⟩, by simp [bundles], rfl, by simp⟩

end EventTime
