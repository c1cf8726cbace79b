import EventTime.Proofs.Combine.Stages
import EventTime.Proofs.Combine.Tree

/-!
# Combining before grouping

Where windows never merge and fire at their end, a combine by key reduces the values of every key and
window in the order of the rows, however the rows are cut into bundles and however wide the rounds of
merges are.
-/

namespace EventTime

variable {κ ν α ο : Type} [DecidableEq κ]

theorem mem_combineBundles {R : κ → α → List ν → Prop} {f : KeyedCombineFn κ ν α ο}
    (hf : f.SequenceContract R) (width : Option Nat) (bundles : List (List (Envelope (κ × ν))))
    (e : Envelope (κ × ο)) :
    e ∈ combineBundles f width bundles ↔ ∃ key w,
      (∃ d ∈ bundles.flatten, d.value.1 = key ∧ w ∈ d.windows) ∧
        e = .ofPane (key, f.apply key (valuesAt key w bundles.flatten)) w .onTimeAndOnly := by
  obtain ⟨partials, heq, h⟩ := combineBundles_eq hf.toTracks width bundles
  rw [heq, h.mem_extractAll]
  constructor
  · rintro ⟨key, w, a, hfind, rfl⟩
    obtain ⟨hne, ha⟩ := h.present hfind
    refine ⟨key, w, valuesAt_ne_nil_iff.mp hne, ?_⟩
    rw [hf.extract_eq_apply ha]
  · rintro ⟨key, w, hoccurs, rfl⟩
    cases hfind : Table.find? (key, w) partials with
    | none => exact absurd (h.absent hfind) (valuesAt_ne_nil_iff.mpr hoccurs)
    | some a => exact ⟨key, w, a, hfind, by rw [hf.extract_eq_apply (h.present hfind).2]⟩

theorem nodup_combineBundles {R : κ → α → List ν → Prop} {f : KeyedCombineFn κ ν α ο}
    (hf : f.Tracks R) (width : Option Nat) (bundles : List (List (Envelope (κ × ν)))) :
    ((combineBundles f width bundles).map fun e => (e.value.1, e.windows)).Nodup := by
  obtain ⟨partials, heq, h⟩ := combineBundles_eq hf width bundles
  rw [heq]
  exact h.nodup_extractAll f

variable {k v o : ElemType} [DecidableEq k.Elem]

/-- A combine by key in one node yields one element for each key and window that occur: the output
for their values in the order of the rows, as the only pane of the window. -/
theorem combineByKey_eq_fold {p : Pipeline} (hp : p.graph.Ordered) {s : Schedule}
    {c : Collection (.pair k v)} {bundles : List (Rows (.pair k v))}
    (hin : p.bundles s c = .ok bundles) (hfn : c.strategy.windowFn.nonMerging = true)
    (ht : c.strategy.trigger = .endOfWindow) {f : KeyedCombineFn k.Elem v.Elem α o.Elem}
    {R : k.Elem → α → List v.Elem → Prop} (hf : f.SequenceContract R) {accumCoder : Coder α}
    (hcoder : f.accumulatorCoder p.registry v.coder = .ok accumCoder) (width : Option Nat) :
    ∃ c' p' out, (c.combineByKey f width).begin p = (.ok c', p') ∧
      p'.collect s c'.node (.pair k o) = .ok out ∧
      (out.map fun e => (e.value.1, e.windows)).Nodup ∧
      ∀ e, e ∈ out ↔ ∃ key w, (∃ d ∈ bundles.flatten, d.value.1 = key ∧ w ∈ d.windows) ∧
        e = .ofPane (key, f.apply key (valuesAt key w bundles.flatten)) w .onTimeAndOnly := by
  have hcarries := Pipeline.carries_of_bundles hp hin
  obtain ⟨c', p', hbuild, hgrown, -, hout⟩ :=
    Pipeline.builds_combineByKey (o := o) hp hcarries hcoder width .elementTime
  have hlift : c.strategy.allowsLifting = true := by
    rw [Strategy.allowsLifting, hfn, ht]
    rfl
  have hcollect := hout.collect hgrown.ordered
  simp only [combineRows_lifted hlift] at hcollect
  refine ⟨c', p', combineBundles f width bundles, hbuild, ?_, ?_, ?_⟩
  · rw [hcollect]
    simp [Except.map, bind, Except.bind]
  · exact nodup_combineBundles hf.toTracks width bundles
  · exact mem_combineBundles hf width bundles

theorem combineByKey_eq_fold_of_listing :
    let w : Window := .interval 0 10
    let bundles : List (Rows (.pair .word8 .word8)) :=
      [[⟨(7, 1), 0, [w], .noFiring⟩, ⟨(7, 2), 4, [w], .noFiring⟩], [⟨(7, 3), 1, [w], .noFiring⟩]]
    let source : Node Partition := .source fun _ => bundles.map (Partition.mk (.pair .word8 .word8))
    let p : Pipeline := { graph := Graph.add {} source [] }
    let s : Schedule := ⟨2, fun _ _ => 0⟩
    let c : Collection (.pair .word8 .word8) := ⟨0, { windowFn := .fixed 10 }⟩
    let f := KeyedCombineFn.listing UInt8 UInt8 (ElemType.coder .bytes)
    p.graph.Ordered ∧ p.bundles s c = .ok bundles ∧ c.strategy.windowFn.nonMerging = true ∧
      c.strategy.trigger = .endOfWindow ∧
      ∃ c' p' out, (c.combineByKey (o := .bytes) f (some 2)).begin p = (.ok c', p') ∧
        p'.collect s c'.node (.pair .word8 .bytes) = .ok out ∧
        .ofPane (7, [1, 2, 3]) w .onTimeAndOnly ∈ out := by
  intro w bundles source p s c f
  have hp : p.graph.Ordered := by
    intro e he
    cases he
  have hin : p.bundles s c = .ok bundles := rfl
  obtain ⟨c', p', out, hbuild, hcollect, -, hmem⟩ :=
    combineByKey_eq_fold (o := .bytes) hp hin rfl rfl
      (KeyedCombineFn.listing_sequence UInt8 UInt8 (ElemType.coder .bytes)) rfl (some 2)
  refine ⟨hp, hin, rfl, rfl, c', p', out, hbuild, hcollect, (hmem _).mpr ⟨7, w, ?_, rfl⟩⟩
  exact ⟨⟨(7, 1), 0, [w], .noFiring⟩, by simp [bundles], rfl, by simp⟩

end EventTime
