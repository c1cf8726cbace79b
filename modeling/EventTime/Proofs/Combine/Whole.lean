import EventTime.Pipeline.Global
import EventTime.Proofs.Combine.Fanout
import EventTime.Proofs.Pipeline.RowWise

/-!
# Combining a whole collection in the global window

Under one key and in one window there is at most one bag, so a combine of a whole collection puts out
one element or none, and none only for no input. A kept default fills in then, in the envelope that
the combine would have used. This holds for any fanout, under every schedule, and in whatever order
the stages of the combine put out their rows.
-/

namespace EventTime

variable {ν α ο : Type}

theorem valuesAt_one_window {w : Window} {rows : List (Envelope (Unit × ν))}
    (h : ∀ e ∈ rows, e.windows = [w]) : valuesAt () w rows = rows.map (·.value.2) := by
  induction rows with
  | nil => rfl
  | cons e rest ih =>
    obtain ⟨he, hrest⟩ := List.forall_mem_cons.mp h
    rw [← List.singleton_append, valuesAt_append, valuesAt_singleton, if_pos rfl, he, ih hrest]
    simp

theorem ListedBag.eq_window {w w' : Window} {rows : List (Envelope (Unit × ν))}
    (h : ∀ e ∈ rows, e.windows = [w]) {key : Unit} {m : Multiset ν}
    (hm : ListedBag rows key w' m) : w' = w := by
  obtain ⟨rfl, hne⟩ := hm
  obtain ⟨e, he, -, hw⟩ := valuesAt_ne_nil_iff.mp fun hnil => hne (congrArg Multiset.ofList hnil)
  rw [h e he] at hw
  exact List.mem_singleton.mp hw

theorem Bag.Enumerates.eq_singleton {w : Window} {rows : List (Envelope (Unit × ν))}
    (h : ∀ e ∈ rows, e.windows = [w]) (hne : rows ≠ []) {bags : List (Bag Unit ν)}
    (hbags : Bag.Enumerates bags (ListedBag rows)) :
    bags = [⟨(), w, (rows.map (·.value.2) : List ν)⟩] := by
  have hbag : ∀ c ∈ bags, c = ⟨(), w, (rows.map (·.value.2) : List ν)⟩ := by
    intro c hc
    have hlisted := hbags.sound c hc
    obtain ⟨key, window, values⟩ := c
    obtain rfl : window = w := ListedBag.eq_window h hlisted
    have hvalues : values = valuesAt () window rows := hlisted.1
    rw [hvalues, valuesAt_one_window h]
  have hsome : ListedBag rows () w (rows.map (·.value.2) : List ν) := by
    refine ⟨by rw [valuesAt_one_window h], fun hzero => hne ?_⟩
    exact List.map_eq_nil_iff.mp ((Multiset.coe_eq_zero _).mp hzero)
  obtain ⟨c, hc, -⟩ := hbags.complete hsome
  have hnodup : bags.Nodup := .of_map _ hbags.nodup
  obtain rfl := hbag c hc
  refine List.perm_singleton.mp ?_
  refine (List.perm_ext_iff_of_nodup hnodup (List.nodup_singleton _)).mpr fun d => ?_
  rw [List.mem_singleton]
  exact ⟨hbag d, fun hd => hd ▸ hc⟩

/-- A combine of elements under one key, each in the one window, puts out what the elements come to,
and nothing for no elements. -/
theorem Summarizes.eq_one {f : KeyedCombineFn Unit ν α ο} {R : Unit → α → Multiset ν → Prop}
    (hf : f.MultisetContract R) {info : PaneInfo} {w : Window} {rows : List (Envelope (Unit × ν))}
    (h : ∀ e ∈ rows, e.windows = [w]) {out : List (Envelope (Unit × ο))}
    (hout : Summarizes (.ok out) f R info (ListedBag rows)) :
    out = if rows.isEmpty then []
      else [.ofPane ((), f.apply () (rows.map (·.value.2))) w info] := by
  obtain ⟨bags, out, hok, hbags, hall⟩ := hout
  obtain rfl := Except.ok.inj hok
  cases rows with
  | nil =>
    cases hall with
    | nil => rfl
    | @cons c _ bags _ _ _ =>
      obtain ⟨hvalues, hne⟩ := hbags.sound c (List.mem_cons_self ..)
      exact absurd hvalues hne
  | cons e rest =>
    obtain rfl := hbags.eq_singleton h (List.cons_ne_nil _ _)
    cases hall with
    | cons hone hrest =>
      cases hrest
      obtain ⟨acc, hacc, rfl⟩ := hone
      have happly := hf.extract hacc (hf.toTracksBag.tracks.addAll () _)
      simp only [List.isEmpty_cons, Bool.false_eq_true, if_false, happly, KeyedCombineFn.apply]

theorem hot_of_mem_tagRows {κ : Type} {m : UInt32} (hm : 1 < m) (b : Bundle)
    {rows : List (Envelope (κ × ν))} {e : Envelope (Shard κ ν)}
    (he : e ∈ tagRows (fun _ => m) b rows) : ∃ key shard x, e.value = .hot key shard x := by
  induction rows generalizing b with
  | nil => cases he
  | cons d rest ih =>
    rcases List.mem_cons.mp he with rfl | he
    · exact ⟨d.value.1, b.shard m, d.value.2, by simp only [tagShard, hm, if_true]; rfl⟩
    · exact ih _ he

theorem coldRoundTrip_of_hot {κ : Type} {m : UInt32} (hm : 1 < m) (coder : Coder ν) (s : Schedule)
    (node bundle : Nat) (bundles : List (List (Envelope (κ × ν)))) :
    ColdRoundTrip coder (tagEach s node (fun _ => m) bundle bundles).flatten := by
  induction bundles generalizing bundle with
  | nil => nofun
  | cons rows rest ih =>
    intro e he key x hvalue
    rcases List.mem_append.mp he with he | he
    · obtain ⟨_, _, _, hhot⟩ := hot_of_mem_tagRows hm _ he
      rw [hhot] at hvalue
      cases hvalue
    · exact ih (bundle + 1) e he key x hvalue

namespace Pipeline

variable {k v o t : ElemType} {p : Pipeline} {n : Nat} {order : Nat → Partition → Partition}
  {s : Schedule}

theorem buildsReordered_withFanout [DecidableEq k.Elem] (hn : n ≤ p.graph.nodes.length)
    (horder : ∀ i, Partition.Shuffles (order i)) (hq : (p.reordered n order).graph.Ordered)
    {q : PerKey k v o α} {bundles : List (Rows (.pair k v))}
    (h : (p.reordered n order).Carries s q.input (.ok bundles))
    (hlift : q.input.strategy.allowsLifting = true) {accumCoder : Coder α}
    (hcoder : q.fn.accumulatorCoder p.registry q.inputCoder = .ok accumCoder)
    {R : k.Elem → α → Multiset v.Elem → Prop} (hf : q.fn.TracksBag R) (hacc : accumCoder.Keeps R)
    (m : UInt32) :
    p.BuildsReordered n order s (q.withFanout m).apply q.input.strategy fun x =>
      ∃ rows, x = .ok [rows] ∧
        Summarizes (.ok rows) q.fn R .onTimeAndOnly (ListedBag bundles.flatten) := by
  by_cases hm : 1 < m
  · simp only [PerKey.withFanout, PerKey.apply, if_pos hm]
    refine (buildsReordered_combineHotKeys hn horder hq h hcoder _ q.width).imp fun x hx => ?_
    obtain ⟨orders, rfl⟩ := hx
    have hsummary := combineTagged_lifted orders hlift hf hacc q.width
      (tagged_tagEach s p.graph.nodes.length (fun _ => m) 0 bundles)
      (coldRoundTrip_of_hot hm q.inputCoder s _ 0 bundles)
    obtain ⟨-, rows, hrows, -, -⟩ := id hsummary
    exact ⟨rows, congrArg (Except.map ([·])) hrows, hrows ▸ hsummary⟩
  · simp only [PerKey.withFanout, PerKey.apply, if_neg hm]
    refine (buildsReordered_combineByKey hn horder hq h hcoder q.width .elementTime).imp
      fun x hx => ?_
    obtain ⟨σ, rfl⟩ := hx
    have hsummary : Summarizes (.ok (combineBundles q.fn q.width bundles)) q.fn R .onTimeAndOnly
        (ListedBag bundles.flatten) := combineBundles_summarizes hf q.width bundles
    refine ⟨_, ?_, hsummary.shuffled σ⟩
    show ((combineRows q.input.strategy q.fn q.width .elementTime bundles).map σ.apply).map _ = _
    rw [combineRows_lifted hlift]
    rfl

end Pipeline

/-! ### The whole collection -/

namespace Globally

open Pipeline

variable {t o : ElemType} {p : Pipeline} {n : Nat} {order : Nat → Partition → Partition}
  {s : Schedule} {g : Globally t o α} {bundles : List (Rows t)}

/-- What a combine of some rows comes to, in the envelope of the global window's only pane. -/
def total (g : Globally t o α) (rows : Rows t) : Envelope o.Elem :=
  ⟨g.fn.apply (rows.map (·.value)), Window.global.maxTimestamp, [.global], .onTimeAndOnly⟩

/-- What a combine puts out for some rows, before a default is filled in. -/
def totals (g : Globally t o α) (rows : Rows t) : Rows o :=
  if rows.isEmpty then [] else [g.total rows]

/-- A default fills in for no rows, and looks as their combine would. -/
theorem orDefault_totals (g : Globally t o α) (rows : Rows t) :
    orDefault g.emptyOutput (g.totals rows) = [g.total rows] := by
  cases rows <;> rfl

/-- The outputs of a combine under one key. -/
theorem totals_of_summary {rows : Rows t} (hwindows : ∀ e ∈ rows, e.windows = [.global])
    {R : Unit → α → Multiset t.Elem → Prop} (hf : (g.fn.lift (κ := Unit)).MultisetContract R)
    {out : Rows (.pair .unit o)}
    (h : Summarizes (.ok out) (g.fn.lift (κ := Unit)) R .onTimeAndOnly
      (ListedBag (rows.map fun e => e.withValue ((), e.value)))) :
    out.map (fun e => e.withValue e.value.2) = g.totals rows := by
  have hone : ∀ e ∈ rows.map (fun e => e.withValue ((), e.value)), e.windows = [.global] := by
    intro e he
    obtain ⟨d, hd, rfl⟩ := List.mem_map.mp he
    exact hwindows d hd
  rw [h.eq_one hf hone, totals, List.isEmpty_map, List.map_map]
  cases rows <;> rfl

section

variable (hn : n ≤ p.graph.nodes.length) (horder : ∀ i, Partition.Shuffles (order i))
  (hq : (p.reordered n order).graph.Ordered)
  (h : (p.reordered n order).Carries s g.input (.ok bundles))
  (hfn : g.input.strategy.windowFn = .global) (ht : g.input.strategy.trigger = .endOfWindow)
  (hwindows : ∀ e ∈ bundles.flatten, e.windows = [.global]) {accumCoder : Coder α}
  (hcoder : g.fn.accumulatorCoder p.registry t.coder = .ok accumCoder)
  {R : Unit → α → Multiset t.Elem → Prop} (hf : (g.fn.lift (κ := Unit)).MultisetContract R)
  (hacc : accumCoder.Keeps R)

include hn horder hq h hfn ht hwindows hcoder hf hacc

theorem buildsReordered_combineUnderOneKey :
    p.BuildsReordered n order s g.combineUnderOneKey g.input.strategy
      (· = .ok [g.totals bundles.flatten]) := by
  have hlift : g.input.strategy.allowsLifting = true := by
    rw [Strategy.allowsLifting, hfn, ht]
    rfl
  have hmap := builds_map (u := .pair .unit t) hq h fun a => ((), a)
  refine (buildsReordered_elementwise hn hmap).bind
    fun keyed p₁ _ n₁ grown₁ strategy₁ keyed₁ heq => ?_
  subst heq
  have hcombine := buildsReordered_withFanout (o := o) n₁ horder grown₁.ordered
    (q := { input := keyed, fn := g.fn.lift }) keyed₁ (strategy₁ ▸ hlift)
    (grown₁.registry ▸ hcoder) hf.toTracksBag hacc g.fanout
  refine hcombine.bind fun combined p₂ _ n₂ grown₂ strategy₂ combined₂ hsummary => ?_
  obtain ⟨out, rfl, hsummary⟩ := hsummary
  rw [← List.map_flatten] at hsummary
  have hvalues := buildsReordered_elementwise n₂
    (builds_map (u := o) grown₂.ordered combined₂ Prod.snd)
  rw [strategy₂, strategy₁] at hvalues
  refine hvalues.imp fun x hx => ?_
  rw [hx]
  exact congrArg (fun rows => Except.ok [rows]) (totals_of_summary hwindows hf hsummary)

theorem buildsReordered_apply :
    p.BuildsReordered n order s g.apply g.input.strategy
      (· = .ok [if g.keepDefault then [g.total bundles.flatten] else g.totals bundles.flatten]) := by
  have hcheck : ¬ (g.keepDefault && !g.input.strategy.windowFn.isGlobal) = true := by
    rw [hfn, show WindowFn.global.isGlobal = true from rfl, Bool.not_true, Bool.and_false]
    exact Bool.false_ne_true
  rw [apply, if_neg hcheck]
  refine (buildsReordered_combineUnderOneKey hn horder hq h hfn ht hwindows hcoder hf hacc).bind
    fun combined p₁ _ n₁ grown₁ strategy₁ combined₁ heq => ?_
  subst heq
  cases hkeep : g.keepDefault with
  | false => exact ⟨combined, p₁, rfl, n₁, ⟨grown₁.ordered, .refl _, rfl⟩, strategy₁, _, combined₁, rfl⟩
  | true =>
    rw [← strategy₁, if_pos rfl, if_pos rfl]
    refine BuildsReordered.imp (buildsReordered_whole
      (y := fun bundles => .ok (orDefault g.emptyOutput bundles.flatten)) n₁ horder
      grown₁.ordered combined₁ fun bundles => ?_) fun x hx => ?_
    · rw [allRowsFor_mk]
      rfl
    · obtain ⟨σ, rfl⟩ := hx
      have hperm := σ.perm [g.total bundles.flatten]
      simp only [bind, Except.bind, List.flatten_singleton, orDefault_totals, Except.map,
        List.perm_singleton.mp hperm]

end

/-- Row-wise stages bring the same rows under every schedule, and are not reordered. -/
theorem collect_apply {handles : Handles} (hp : RowWise p handles) (hin : ⟨t, g.input⟩ ∈ handles)
    (hfn : g.input.strategy.windowFn = .global) (ht : g.input.strategy.trigger = .endOfWindow)
    {rows : Rows t} (hrows : p.collect Job.sequential g.input.node t = .ok rows)
    (hwindows : ∀ e ∈ rows, e.windows = [.global]) {accumCoder : Coder α}
    (hcoder : g.fn.accumulatorCoder p.registry t.coder = .ok accumCoder)
    {R : Unit → α → Multiset t.Elem → Prop} (hf : (g.fn.lift (κ := Unit)).MultisetContract R)
    (hacc : accumCoder.Keeps R) :
    ∃ c p', g.apply.begin p = (.ok c, p') ∧ ∀ s order, (∀ i, Partition.Shuffles (order i)) →
      (p'.reordered p.graph.nodes.length order).collect s c.node o =
        .ok (if g.keepDefault then [g.total rows] else g.totals rows) := by
  obtain ⟨hordered, hcarries⟩ := hp.carriesRows
  obtain ⟨x, hx⟩ := hcarries hin
  obtain rfl : x = .ok rows := (hx.collect hordered Job.sequential).symm.trans hrows
  have hbuilds : ∀ s order, (∀ i, Partition.Shuffles (order i)) →
      p.BuildsReordered p.graph.nodes.length order s g.apply g.input.strategy
        (· = .ok [if g.keepDefault then [g.total rows] else g.totals rows]) := by
    intro s order horder
    have hsame : p.reordered p.graph.nodes.length order = p := reordered_of_le (Nat.le_refl _)
    obtain ⟨y, hy, hflat⟩ := hx s
    cases y with
    | error e => cases hflat
    | ok bundles =>
      obtain rfl : bundles.flatten = rows := Except.ok.inj hflat
      exact buildsReordered_apply (Nat.le_refl _) horder (hsame.symm ▸ hordered) (hsame.symm ▸ hy)
        hfn ht hwindows hcoder hf hacc
  obtain ⟨c, p', hc, -⟩ := hbuilds Job.sequential (fun _ => id) fun _ => Partition.shuffles_id
  refine ⟨c, p', hc, fun s order horder => ?_⟩
  obtain ⟨_, hout, rfl⟩ := (hbuilds s order horder).answered hc
  rw [hout, Except.map, List.flatten_singleton]

end Globally

/-- With a default kept, a combine of a collection in the global window puts out one element, which
is what all inputs come to; without a default it puts out the same, or nothing for no input. The
fanout, the schedule and the order in which the stages of the combine put out rows do not matter. -/
theorem globally_collects_one {t o : ElemType} {p : Pipeline} {handles : Handles}
    (hp : RowWise p handles) {g : Globally t o α} (hin : ⟨t, g.input⟩ ∈ handles)
    (hfn : g.input.strategy.windowFn = .global) (ht : g.input.strategy.trigger = .endOfWindow)
    {rows : Rows t} (hrows : p.collect Job.sequential g.input.node t = .ok rows)
    (hwindows : ∀ e ∈ rows, e.windows = [.global]) {accumCoder : Coder α}
    (hcoder : g.fn.accumulatorCoder p.registry t.coder = .ok accumCoder)
    {R : Unit → α → Multiset t.Elem → Prop} (hf : (g.fn.lift (κ := Unit)).MultisetContract R)
    (hacc : accumCoder.Keeps R) (hkeep : g.keepDefault = true) :
    ∃ c p₁ c' p₂, g.apply.begin p = (.ok c, p₁) ∧ g.withoutDefaults.apply.begin p = (.ok c', p₂) ∧
      ∀ s order, (∀ i, Partition.Shuffles (order i)) →
        let result : Envelope o.Elem :=
          ⟨g.fn.apply (rows.map (·.value)), Window.global.maxTimestamp, [.global], .onTimeAndOnly⟩
        (p₁.reordered p.graph.nodes.length order).collect s c.node o = .ok [result] ∧
        (p₂.reordered p.graph.nodes.length order).collect s c'.node o =
          .ok (if rows.isEmpty then [] else [result]) := by
  obtain ⟨c, p₁, hc, hkept⟩ := Globally.collect_apply hp hin hfn ht hrows hwindows hcoder hf hacc
  obtain ⟨c', p₂, hc', hdropped⟩ := Globally.collect_apply (g := g.withoutDefaults) hp hin hfn ht
    hrows hwindows hcoder hf hacc
  refine ⟨c, p₁, c', p₂, hc, hc', fun s order horder => ⟨?_, hdropped s order horder⟩⟩
  rw [hkept s order horder, hkeep]
  rfl

/-- Three bytes, and a union of nothing. -/
def someBytes : Pipeline :=
  ((Collection.union (t := .word8) []).begin
    ((Collection.ofValues (t := .word8) [7, 8, 7]).begin {}).2).2

/-- Count the bytes of a node, spread over two shards. -/
def countBytes (node : Nat) : Globally .word8 .word32 Nat :=
  ⟨⟨node, {}⟩, (KeyedCombineFn.counting Unit UInt8).bind (), 2, true⟩

theorem globally_collects_one_of_bytes :
    RowWise someBytes [⟨.word8, ⟨1, {}⟩⟩, ⟨.word8, ⟨0, {}⟩⟩] ∧
      someBytes.collect Job.sequential 0 .word8 =
        .ok ([7, 8, 7].map fun a => Envelope.inGlobalWindow a) ∧
      (∃ c p', (countBytes 0).apply.begin someBytes = (.ok c, p') ∧
        ∀ s order, (∀ i, Partition.Shuffles (order i)) →
          (p'.reordered 2 order).collect s c.node .word32 =
            .ok [⟨3, Window.global.maxTimestamp, [.global], .onTimeAndOnly⟩]) ∧
      ∃ c p', (countBytes 1).apply.begin someBytes = (.ok c, p') ∧
        ∀ s order, (∀ i, Partition.Shuffles (order i)) →
          (p'.reordered 2 order).collect s c.node .word32 =
            .ok [⟨0, Window.global.maxTimestamp, [.global], .onTimeAndOnly⟩] := by
  have hone : RowWise ((Collection.ofValues (t := .word8) [7, 8, 7]).begin {}).2
      [⟨.word8, ⟨0, {}⟩⟩] := .call .new (.source _) rfl
  have hbytes : RowWise someBytes [⟨.word8, ⟨1, {}⟩⟩, ⟨.word8, ⟨0, {}⟩⟩] :=
    hone.call (.union nofun) (b := Collection.union (t := .word8) []) rfl
  have hrows : someBytes.collect Job.sequential 0 .word8 =
      .ok ([7, 8, 7].map fun a => Envelope.inGlobalWindow a) := rfl
  have hnone : someBytes.collect Job.sequential 1 .word8 = .ok [] := rfl
  have hwindows : ∀ e ∈ [7, 8, 7].map fun a : UInt8 => Envelope.inGlobalWindow a,
      e.windows = [.global] := by
    intro e he
    obtain ⟨a, -, rfl⟩ := List.mem_map.mp he
    rfl
  obtain ⟨c, p₁, _, _, hc, -, hcount⟩ := globally_collects_one hbytes (g := countBytes 0)
    (List.mem_cons_of_mem _ (List.mem_cons_self ..)) rfl rfl hrows hwindows rfl
    (KeyedCombineFn.counting_multiset Unit UInt8) (keeps_natural Unit UInt8) rfl
  obtain ⟨c', p₂, _, _, hc', -, hcount'⟩ := globally_collects_one hbytes (g := countBytes 1)
    (List.mem_cons_self ..) rfl rfl hnone nofun rfl
    (KeyedCombineFn.counting_multiset Unit UInt8) (keeps_natural Unit UInt8) rfl
  exact ⟨hbytes, hrows, ⟨c, p₁, hc, fun s order horder => (hcount s order horder).1⟩,
    c', p₂, hc', fun s order horder => (hcount' s order horder).1⟩

end EventTime
