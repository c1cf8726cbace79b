import EventTime.Proofs.Coder.Numbers
import EventTime.Proofs.Combine.Weights

/-!
# Spreading hot keys

A combine by key puts out the same elements whether its keys are spread over shards or not. Where
windows never merge, this holds for every way of tagging the elements: a bag is made of the values
that list a window, and every listing of a hot element falls into exactly one bag of its shard.
-/

namespace EventTime

variable {κ ν α ο : Type}

section

variable {k v o : ElemType} [DecidableEq k.Elem]

/-- If a combine makes one element of each of the same bags, with its keys spread over shards or not
and in any order of its stages, then spreading does not change what it puts out, up to order. -/
theorem PerKey.perm_of_summarizes {p : Pipeline} (hp : p.graph.Ordered) {s : Schedule}
    {q : PerKey k v o α} {bundles : List (Rows (.pair k v))}
    (hin : p.bundles s q.input = .ok bundles) {accumCoder : Coder α}
    (hcoder : q.fn.accumulatorCoder p.registry q.inputCoder = .ok accumCoder)
    {R : k.Elem → α → Multiset v.Elem → Prop} (hf : q.fn.MultisetContract R) {info : PaneInfo}
    {C : k.Elem → Window → Multiset v.Elem → Prop}
    (hC : ∀ k w m m', C k w m → C k w m' → m = m')
    (hplain : Summarizes (combineRows q.input.strategy q.fn q.width .elementTime bundles) q.fn R
      info C)
    (hspread : ∀ orders tagged, List.Forall₂ (List.Forall₂ Tagged) bundles tagged →
      Summarizes (combineTagged orders q.input.strategy q.fn accumCoder
        (q.inputCoder.inputOrAccum accumCoder) q.width tagged) q.fn R info C)
    (fanout : k.Elem → UInt32) :
    ∃ c p₁ c' p₂,
      (q.withFanoutFn fanout).apply.begin p = (.ok c, p₁) ∧
      { q with fanout := none }.apply.begin p = (.ok c', p₂) ∧
      ∀ order order', (∀ i, Partition.Shuffles (order i)) → (∀ i, Partition.Shuffles (order' i)) →
        ∃ spread plain,
          (p₁.reordered p.graph.nodes.length order).collect s c.node (.pair k o) = .ok spread ∧
          (p₂.reordered p.graph.nodes.length order').collect s c'.node (.pair k o) = .ok plain ∧
          spread.Perm plain ∧ Summarizes (.ok plain) q.fn R info C := by
  have hcarries := Pipeline.carries_of_bundles hp hin
  obtain ⟨c, p₁, hbuild, hcollect⟩ := PerKey.collect_spread hp hcarries hcoder fanout
  obtain ⟨c', p₂, hbuild', hcollect'⟩ := PerKey.collect_plain hp hcarries hcoder
  refine ⟨c, p₁, c', p₂, hbuild, hbuild', fun order order' horder horder' => ?_⟩
  obtain ⟨orders, hrun⟩ := hcollect order horder
  obtain ⟨σ, hrun'⟩ := hcollect' order' horder'
  have hplain' := hplain.shuffled σ
  obtain ⟨spread, plain, hspreadOk, hplainOk, hperm⟩ :=
    (hspread orders _ (tagged_tagEach s p.graph.nodes.length fanout 0 bundles)).perm hf hC hplain'
  exact ⟨spread, plain, hrun.trans hspreadOk, hrun'.trans hplainOk, hperm, hplainOk ▸ hplain'⟩

end

variable [DecidableEq κ]

/-- A row counts in a window as often as it lists it. -/
def listings (w : Window) (windows : List Window) : ℕ := windows.count w

theorem coe_valuesAt (key : κ) (w : Window) (rows : List (Envelope (κ × ν))) :
    (valuesAt key w rows : Multiset ν) = weightAt listings key w (rows.map weighing) := by
  induction rows with
  | nil => rfl
  | cons e rest ih =>
    rw [List.map_cons, weightAt_cons, ← ih, ← List.singleton_append, valuesAt_append,
      valuesAt_singleton, ← Multiset.coe_add]
    congr 1
    show _ = if e.value.1 = key then e.windows.count w • ({e.value.2} : Multiset ν) else 0
    by_cases h : e.value.1 = key
    · rw [if_pos h, if_pos h, Multiset.nsmul_singleton, Multiset.coe_replicate]
    · rw [if_neg h, if_neg h, Multiset.coe_nil]

theorem listings_cover {bags : List (Bag (κ × UInt32) ν)}
    {hot : List (Envelope ((κ × UInt32) × ν))} (hbags : Bag.Enumerates bags (ListedBag hot))
    {d : Envelope ((κ × UInt32) × ν)} (hd : d ∈ hot) (w : Window) :
    (bags.map fun c => if d.value.1 = c.key then
      listings w [c.window] * listings c.window d.windows else 0).sum = listings w d.windows := by
  have hterm : ∀ c : Bag (κ × UInt32) ν, c.window ≠ w → listings w [c.window] = 0 := by
    intro c hc
    exact List.count_eq_zero.mpr fun h => hc (List.mem_singleton.mp h).symm
  by_cases hw : w ∈ d.windows
  · have hbag : ListedBag hot d.value.1 w (valuesAt d.value.1 w hot) :=
      ⟨rfl, fun h => valuesAt_ne_nil_iff.mpr ⟨d, hd, rfl, hw⟩ ((Multiset.coe_eq_zero _).mp h)⟩
    obtain ⟨c, hc, hkey, rfl⟩ := hbags.complete hbag
    rw [sum_map_unique hbags.nodup _ hc fun b _ hb => ?_]
    · simp [hkey, listings]
    · by_cases hdb : d.value.1 = b.key
      · have hne : b.window ≠ c.window := fun e => hb (Prod.ext (hdb.symm.trans hkey.symm) e)
        rw [if_pos hdb, hterm b hne, Nat.zero_mul]
      · rw [if_neg hdb]
  · have hnone : listings w d.windows = 0 := List.count_eq_zero.mpr hw
    rw [hnone]
    refine List.sum_eq_zero fun x hx => ?_
    obtain ⟨c, -, rfl⟩ := List.mem_map.mp hx
    by_cases hc : c.window = w
    · rw [hc, hnone, Nat.mul_zero, ite_self]
    · rw [hterm c hc, Nat.zero_mul, ite_self]

theorem ne_zero_of_mem_weights {info : PaneInfo} {bags : List (Bag (κ × UInt32) ν)}
    {hot : List (Envelope ((κ × UInt32) × ν))} (hbags : Bag.Enumerates bags (ListedBag hot))
    (tagged : List (Envelope (Shard κ ν))) {d : Envelope (κ × Multiset ν)}
    (hd : d ∈ hotWeights info bags ++ tagged.flatMap coldWeight) : d.value.2 ≠ 0 := by
  rcases List.mem_append.mp hd with hd | hd
  · obtain ⟨c, hc, rfl⟩ := List.mem_map.mp hd
    exact (hbags.sound c hc).2
  · obtain ⟨e, -, hde⟩ := List.mem_flatMap.mp hd
    cases hvalue : e.value with
    | hot key shard x =>
      simp only [coldWeight, hvalue] at hde
      cases hde
    | cold key x =>
      simp only [coldWeight, hvalue, List.mem_singleton] at hde
      rw [hde]
      exact Multiset.singleton_ne_zero x

theorem weightAt_hot_cold {info : PaneInfo} {bags : List (Bag (κ × UInt32) ν)}
    {rows : List (Envelope (κ × ν))} {tagged : List (Envelope (Shard κ ν))}
    (htagged : List.Forall₂ Tagged rows tagged)
    (hbags : Bag.Enumerates bags (ListedBag (hotRows tagged))) (key : κ) (w : Window) :
    weightAt listings key w (hotWeights info bags ++ tagged.flatMap coldWeight) =
      (valuesAt key w rows : Multiset ν) := by
  rw [coe_valuesAt]
  refine weightAt_spread key w htagged (fun c hc => ?_) fun d hd _ => ?_
  · rw [(hbags.sound c hc).1, coe_valuesAt]
  · exact listings_cover hbags hd w

section

variable {rows : List (Envelope (κ × ν))} {tagged : List (Envelope (Shard κ ν))}
  {info : PaneInfo} {bags : List (Bag (κ × UInt32) ν)} {coder : Coder (InputOrAccum ν α)}
  {R : κ → α → Multiset ν → Prop} {joined : List (Envelope (κ × Bytes))}

theorem rel_joined (hjoined : List.Forall₂ (Weighs coder R) joined
      (hotWeights info bags ++ tagged.flatMap coldWeight)) (key : κ) (w : Window) :
    Multiset.Rel (Denotes coder R key) (valuesAt key w joined)
      (valuesAt key w (hotWeights info bags ++ tagged.flatMap coldWeight)) := by
  rw [coe_valuesAt, coe_valuesAt]
  exact rel_weighing hjoined key w

theorem sum_joined (htagged : List.Forall₂ Tagged rows tagged)
    (hbags : Bag.Enumerates bags (ListedBag (hotRows tagged))) (key : κ) (w : Window) :
    (valuesAt key w (hotWeights info bags ++ tagged.flatMap coldWeight) :
      Multiset (Multiset ν)).sum = (valuesAt key w rows : Multiset ν) := by
  rw [coe_valuesAt, sum_weighing, weightAt_hot_cold htagged hbags key w]

/-- The encodings that a window lists at the second combine denote the values it lists. -/
theorem listedBag_joined (htagged : List.Forall₂ Tagged rows tagged)
    (hbags : Bag.Enumerates bags (ListedBag (hotRows tagged)))
    {key : κ} {w : Window} (hrel : Multiset.Rel (Denotes coder R key) (valuesAt key w joined)
      (valuesAt key w (hotWeights info bags ++ tagged.flatMap coldWeight)))
    {M : Multiset Bytes} (hM : ListedBag joined key w M) :
    ∃ ms, Multiset.Rel (Denotes coder R key) M ms ∧ ListedBag rows key w ms.sum := by
  obtain ⟨rfl, hne⟩ := hM
  refine ⟨_, hrel, sum_joined htagged hbags key w, ?_⟩
  rw [Multiset.sum_coe]
  intro hzero
  have hnil : valuesAt key w (hotWeights info bags ++ tagged.flatMap coldWeight) = [] := by
    refine List.eq_nil_iff_forall_not_mem.mpr fun m hm => ?_
    obtain ⟨d, hd, rfl⟩ := exists_of_mem_valuesAt hm
    exact ne_zero_of_mem_weights hbags _ hd
      ((List.sum_eq_zero_iff (M := Multiset ν)).mp hzero _ hm)
  rw [hnil, Multiset.coe_nil, Multiset.rel_zero_right] at hrel
  exact hne hrel

/-- A window that lists values lists encodings at the second combine. -/
theorem exists_joined (htagged : List.Forall₂ Tagged rows tagged)
    (hbags : Bag.Enumerates bags (ListedBag (hotRows tagged)))
    {key : κ} {w : Window} (hrel : Multiset.Rel (Denotes coder R key) (valuesAt key w joined)
      (valuesAt key w (hotWeights info bags ++ tagged.flatMap coldWeight)))
    {m : Multiset ν} (hm : ListedBag rows key w m) : ∃ M, ListedBag joined key w M := by
  obtain ⟨rfl, hne⟩ := hm
  refine ⟨_, rfl, fun hzero => hne ?_⟩
  rw [hzero, Multiset.rel_zero_left] at hrel
  calc (valuesAt key w rows : Multiset ν)
      = (valuesAt key w (hotWeights info bags ++ tagged.flatMap coldWeight) :
          Multiset (Multiset ν)).sum := (sum_joined htagged hbags key w).symm
    _ = 0 := by rw [hrel, Multiset.sum_zero]

end

theorem combineTagged_lifted (orders : StageOrders κ ο) {strategy : Strategy}
    (hlift : strategy.allowsLifting = true) {f : KeyedCombineFn κ ν α ο}
    {R : κ → α → Multiset ν → Prop} (hf : f.TracksBag R) {inputCoder : Coder ν}
    {accumCoder : Coder α} (hacc : accumCoder.Keeps R) (width : Option Nat)
    {bundles : List (List (Envelope (κ × ν)))} {tagged : List (List (Envelope (Shard κ ν)))}
    (htagged : List.Forall₂ (List.Forall₂ Tagged) bundles tagged)
    (hcold : ColdRoundTrip inputCoder tagged.flatten) :
    Summarizes (combineTagged orders strategy f accumCoder (inputCoder.inputOrAccum accumCoder) width
      tagged) f R .onTimeAndOnly (ListedBag bundles.flatten) := by
  have hlift' : { strategy with mode := .discarding : Strategy }.allowsLifting = true := hlift
  have hflat : List.Forall₂ Tagged bundles.flatten tagged.flatten := forall₂_flatten htagged
  refine combineTagged_summarizes orders (D := ListedBag (hotRows tagged.flatten)) hf hcold hacc
    ?_ ?_
  · intro g S hg
    rw [combineRows_lifted hlift', ← flatten_hotRows]
    exact combineBundles_summarizes hg width _
  · intro bags hbags joined hjoined
    refine ⟨ListedBag joined.flatten, fun hg => ?_, fun key w M hM => ?_, fun key w m hm => ?_⟩
    · rw [combineRows_lifted hlift]
      exact combineBundles_summarizes hg width joined
    · exact listedBag_joined hflat hbags (rel_joined hjoined key w) hM
    · exact exists_joined hflat hbags (rel_joined hjoined key w) hm

theorem roundTrips_word8 (a : UInt8) : (ElemType.coder .word8).RoundTrips a :=
  ⟨[a], rfl, rfl⟩

theorem keeps_natural (κ ν : Type) :
    (Coder.ofWire Wire.natural).Keeps fun (_ : κ) n (m : Multiset ν) => n = Multiset.card m :=
  fun _ n _ hn => ⟨Wire.numberBytes n, n, rfl, Coder.decodeFront_natural n, hn⟩

/-! ### The whole pipeline -/

variable {k v o : ElemType} [DecidableEq k.Elem]

/-- Where windows never merge and fire at their end, spreading keys over shards does not change what
a combine by key puts out, up to order: in whatever order its stages put out their rows, there is one
element for every key and window, made of the values that list the window. -/
theorem fanout_perm {p : Pipeline} (hp : p.graph.Ordered) {s : Schedule} {q : PerKey k v o α}
    {bundles : List (Rows (.pair k v))} (hin : p.bundles s q.input = .ok bundles)
    (hfn : q.input.strategy.windowFn.nonMerging = true)
    (ht : q.input.strategy.trigger = .endOfWindow) {accumCoder : Coder α}
    (hcoder : q.fn.accumulatorCoder p.registry q.inputCoder = .ok accumCoder)
    {R : k.Elem → α → Multiset v.Elem → Prop} (hf : q.fn.MultisetContract R)
    (hinputs : ∀ e ∈ bundles.flatten, q.inputCoder.RoundTrips e.value.2)
    (haccums : accumCoder.Keeps R) (fanout : k.Elem → UInt32) :
    ∃ c p₁ c' p₂,
      (q.withFanoutFn fanout).apply.begin p = (.ok c, p₁) ∧
      { q with fanout := none }.apply.begin p = (.ok c', p₂) ∧
      ∀ order order', (∀ i, Partition.Shuffles (order i)) → (∀ i, Partition.Shuffles (order' i)) →
        ∃ spread plain,
          (p₁.reordered p.graph.nodes.length order).collect s c.node (.pair k o) = .ok spread ∧
          (p₂.reordered p.graph.nodes.length order').collect s c'.node (.pair k o) = .ok plain ∧
          spread.Perm plain ∧
          Summarizes (.ok plain) q.fn R .onTimeAndOnly (ListedBag bundles.flatten) := by
  have hlift : q.input.strategy.allowsLifting = true := by
    rw [Strategy.allowsLifting, hfn, ht]
    rfl
  have hplain : Summarizes (combineRows q.input.strategy q.fn q.width .elementTime bundles) q.fn R
      .onTimeAndOnly (ListedBag bundles.flatten) := by
    rw [combineRows_lifted hlift]
    exact combineBundles_summarizes hf.toTracksBag q.width bundles
  refine PerKey.perm_of_summarizes hp hin hcoder hf ?_ hplain (fun orders tagged htagged =>
    combineTagged_lifted orders hlift hf.toTracksBag haccums q.width htagged
      (coldRoundTrip_of_tagged (forall₂_flatten htagged) hinputs)) fanout
  intro k w m m' hm hm'
  rw [hm.1, hm'.1]

theorem fanout_perm_of_counting :
    let w : Window := .interval 0 10
    let bundles : List (Rows (.pair .word8 .word8)) :=
      [[⟨(7, 1), 0, [w], .noFiring⟩, ⟨(7, 2), 4, [w], .noFiring⟩], [⟨(7, 3), 1, [w], .noFiring⟩]]
    let source : Node Partition := .source fun _ => bundles.map (Partition.mk (.pair .word8 .word8))
    let p : Pipeline := { graph := Graph.add {} source [] }
    let s : Schedule := ⟨2, fun _ _ => 0⟩
    let q : PerKey .word8 .word8 .word32 Nat :=
      { input := ⟨0, { windowFn := .fixed 10 }⟩, fn := .counting UInt8 UInt8 }
    p.graph.Ordered ∧ p.bundles s q.input = .ok bundles ∧
      q.input.strategy.windowFn.nonMerging = true ∧ q.input.strategy.trigger = .endOfWindow ∧
      (∀ e ∈ bundles.flatten, (ElemType.coder .word8).RoundTrips e.value.2) ∧
      ∃ c p₁ c' p₂,
        (q.withFanoutFn fun _ => 2).apply.begin p = (.ok c, p₁) ∧
        { q with fanout := none }.apply.begin p = (.ok c', p₂) ∧
        ∀ order order', (∀ i, Partition.Shuffles (order i)) →
          (∀ i, Partition.Shuffles (order' i)) → ∃ spread plain,
            (p₁.reordered 1 order).collect s c.node (.pair .word8 .word32) = .ok spread ∧
            (p₂.reordered 1 order').collect s c'.node (.pair .word8 .word32) = .ok plain ∧
            spread.Perm plain ∧ Summarizes (.ok plain) q.fn
              (fun _ n m => n = Multiset.card m) .onTimeAndOnly (ListedBag bundles.flatten) := by
  intro w bundles source p s q
  have hp : p.graph.Ordered := by
    intro e he
    cases he
  have hin : p.bundles s q.input = .ok bundles := rfl
  have hinputs : ∀ e ∈ bundles.flatten, (ElemType.coder .word8).RoundTrips e.value.2 :=
    fun e _ => roundTrips_word8 e.value.2
  exact ⟨hp, hin, rfl, rfl, hinputs, fanout_perm hp hin rfl rfl rfl
    (KeyedCombineFn.counting_multiset UInt8 UInt8) hinputs (keeps_natural UInt8 UInt8) fun _ => 2⟩

end EventTime
