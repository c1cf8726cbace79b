import Mathlib.Data.List.Perm.Basic
import EventTime.Proofs.Combine.Stages
import EventTime.Proofs.Combine.Tree

/-!
# What a combine by key puts out

Windowing sorts the values of every key into bags, one for each window of the key. A combine by key
puts out one element for each bag, made from an accumulator that stands for the bag's values. Two
combines over the same bags put out the same elements, up to order.
-/

namespace EventTime

variable {κ ν α ο : Type}

structure Bag (κ ν : Type) where
  key : κ
  window : Window
  values : Multiset ν

/-- A list of bags has each of the bags that `C` describes, and no key has two in one window. -/
structure Bag.Enumerates (bags : List (Bag κ ν)) (C : κ → Window → Multiset ν → Prop) :
    Prop where
  nodup : (bags.map fun c => (c.key, c.window)).Nodup
  sound : ∀ c ∈ bags, C c.key c.window c.values
  complete : ∀ {k w m}, C k w m → ∃ c ∈ bags, c.key = k ∧ c.window = w

/-- An element is what a combine function makes of a bag. -/
def OutputOf (f : KeyedCombineFn κ ν α ο) (R : κ → α → Multiset ν → Prop) (info : PaneInfo)
    (c : Bag κ ν) (e : Envelope (κ × ο)) : Prop :=
  ∃ acc, R c.key acc c.values ∧ e = .ofPane (c.key, f.extract c.key acc) c.window info

/-- A result has one element for each bag. -/
def Summarizes (out : Except Fault (List (Envelope (κ × ο)))) (f : KeyedCombineFn κ ν α ο)
    (R : κ → α → Multiset ν → Prop) (info : PaneInfo) (C : κ → Window → Multiset ν → Prop) :
    Prop :=
  ∃ bags rows, out = .ok rows ∧ Bag.Enumerates bags C ∧
    List.Forall₂ (OutputOf f R info) bags rows

variable {f : KeyedCombineFn κ ν α ο} {R : κ → α → Multiset ν → Prop} {info : PaneInfo}
  {C : κ → Window → Multiset ν → Prop} {bags : List (Bag κ ν)} {rows : List (Envelope (κ × ο))}

theorem keys_of_outputs (h : List.Forall₂ (OutputOf f R info) bags rows) :
    rows.map (fun e => (e.value.1, e.windows)) = bags.map fun c => (c.key, [c.window]) := by
  induction h with
  | nil => rfl
  | @cons c e bags rows hce _ ih =>
    obtain ⟨acc, -, rfl⟩ := hce
    rw [List.map_cons, ih]
    rfl

theorem Bag.Enumerates.nodup_keys (hbags : Bag.Enumerates bags C) :
    (bags.map fun c => (c.key, [c.window])).Nodup := by
  have hmap : (bags.map fun c => (c.key, [c.window])) =
      (bags.map fun c => (c.key, c.window)).map fun key => (key.1, [key.2]) := by
    rw [List.map_map]
    rfl
  rw [hmap]
  refine hbags.nodup.map fun a b hab => ?_
  obtain ⟨hkey, hwindow⟩ := Prod.mk.inj hab
  exact Prod.ext hkey (List.singleton_inj.mp hwindow)

theorem nodup_of_outputs (hbags : Bag.Enumerates bags C)
    (h : List.Forall₂ (OutputOf f R info) bags rows) : rows.Nodup := by
  refine List.Nodup.of_map (fun e => (e.value.1, e.windows)) ?_
  rw [keys_of_outputs h]
  exact hbags.nodup_keys

theorem subset_of_outputs (hf : f.MultisetContract R)
    (hC : ∀ k w m m', C k w m → C k w m' → m = m') {bags' : List (Bag κ ν)}
    {rows' : List (Envelope (κ × ο))} (hbags : Bag.Enumerates bags C)
    (h : List.Forall₂ (OutputOf f R info) bags rows) (hbags' : Bag.Enumerates bags' C)
    (h' : List.Forall₂ (OutputOf f R info) bags' rows') : rows ⊆ rows' := by
  intro e he
  obtain ⟨c, hc, acc, hacc, rfl⟩ := exists_mem_left h he
  have hbag := hbags.sound c hc
  obtain ⟨c', hc', hkey, hwindow⟩ := hbags'.complete hbag
  obtain ⟨e', he', acc', hacc', rfl⟩ := exists_mem_right h' hc'
  have hbag' := hbags'.sound c' hc'
  rw [hkey] at hacc' he' hbag'
  rw [hwindow] at he' hbag'
  rw [← hC _ _ _ _ hbag hbag'] at hacc'
  rwa [hf.extract hacc hacc']

/-- Two results over the same bags have the same elements. -/
theorem Summarizes.perm (hf : f.MultisetContract R)
    (hC : ∀ k w m m', C k w m → C k w m' → m = m')
    {out out' : Except Fault (List (Envelope (κ × ο)))} (h : Summarizes out f R info C)
    (h' : Summarizes out' f R info C) :
    ∃ rows rows', out = .ok rows ∧ out' = .ok rows' ∧ rows.Perm rows' := by
  obtain ⟨bags, rows, hout, hbags, hrows⟩ := h
  obtain ⟨bags', rows', hout', hbags', hrows'⟩ := h'
  refine ⟨rows, rows', hout, hout', ?_⟩
  rw [List.perm_ext_iff_of_nodup (nodup_of_outputs hbags hrows) (nodup_of_outputs hbags' hrows')]
  intro e
  exact ⟨fun he => subset_of_outputs hf hC hbags hrows hbags' hrows' he,
    fun he => subset_of_outputs hf hC hbags' hrows' hbags hrows he⟩

theorem Bag.Enumerates.of_perm {bags' : List (Bag κ ν)} (h : Bag.Enumerates bags C)
    (hperm : bags'.Perm bags) : Bag.Enumerates bags' C where
  nodup := (hperm.map _).nodup_iff.mpr h.nodup
  sound c hc := h.sound c (hperm.mem_iff.mp hc)
  complete hm := by
    obtain ⟨c, hc, hkey⟩ := h.complete hm
    exact ⟨c, hperm.mem_iff.mpr hc, hkey⟩

theorem Summarizes.shuffled {out : Except Fault (List (Envelope (κ × ο)))}
    (h : Summarizes out f R info C) (σ : Shuffle (Envelope (κ × ο))) :
    Summarizes (out.map σ.apply) f R info C := by
  obtain ⟨bags, rows, rfl, hbags, hall⟩ := h
  obtain ⟨bags', hall', hperm⟩ := List.perm_comp_forall₂ (σ.perm rows) hall.flip
  exact ⟨bags', σ.apply rows, rfl, hbags.of_perm hperm, hall'.flip⟩

/-- What an element says, without the firing that produced it. -/
def Envelope.result {β : Type} (e : Envelope β) : β × Int × List Window :=
  (e.value, e.timestamp, e.windows)

theorem Summarizes.withPane {out : Except Fault (List (Envelope (κ × ο)))}
    (h : Summarizes out f R info C) (info' : PaneInfo) :
    Summarizes (out.map fun rows => rows.map fun e => { e with pane := info' }) f R info' C := by
  obtain ⟨bags, rows, rfl, hbags, hrows⟩ := h
  refine ⟨bags, _, rfl, hbags, ?_⟩
  rw [List.forall₂_map_right_iff]
  refine hrows.imp fun c e hce => ?_
  obtain ⟨acc, hacc, rfl⟩ := hce
  exact ⟨acc, hacc, rfl⟩

/-- Two results over the same bags say the same, whatever firings produced them. -/
theorem Summarizes.perm_results (hf : f.MultisetContract R)
    (hC : ∀ k w m m', C k w m → C k w m' → m = m') {info' : PaneInfo}
    {out out' : Except Fault (List (Envelope (κ × ο)))} (h : Summarizes out f R info C)
    (h' : Summarizes out' f R info' C) :
    ∃ rows rows', out = .ok rows ∧ out' = .ok rows' ∧
      (rows.map Envelope.result).Perm (rows'.map Envelope.result) := by
  obtain ⟨moved, rows', hmoved, hout', hperm⟩ := (h.withPane info').perm hf hC h'
  obtain ⟨-, rows, rfl, -, -⟩ := h
  refine ⟨rows, rows', rfl, hout', ?_⟩
  have hresults := hperm.map Envelope.result
  rw [← Except.ok.inj hmoved, List.map_map] at hresults
  exact hresults

/-- A result has one element for each key and window that has a bag. -/
theorem Summarizes.keys (h : Summarizes (.ok rows) f R info C) :
    (rows.map fun e => (e.value.1, e.windows)).Nodup ∧
      (∀ key windows, (key, windows) ∈ rows.map (fun e => (e.value.1, e.windows)) ↔
        ∃ w, windows = [w] ∧ ∃ m, C key w m) ∧ ∀ e ∈ rows, e.pane = info := by
  obtain ⟨bags, rows, hout, hbags, hrows⟩ := h
  obtain rfl := Except.ok.inj hout
  rw [keys_of_outputs hrows]
  refine ⟨hbags.nodup_keys, fun key windows => ?_, fun e he => ?_⟩
  · rw [List.mem_map]
    constructor
    · rintro ⟨c, hc, heq⟩
      obtain ⟨rfl, rfl⟩ := Prod.mk.inj heq
      exact ⟨c.window, rfl, c.values, hbags.sound c hc⟩
    · rintro ⟨w, rfl, m, hm⟩
      obtain ⟨c, hc, rfl, rfl⟩ := hbags.complete hm
      exact ⟨c, hc, rfl⟩
  · obtain ⟨c, -, acc, -, rfl⟩ := exists_mem_left hrows he
    rfl

variable [DecidableEq κ]

/-- The bags of windows that never merge: the values that a window lists, if there are any. -/
def ListedBag (rows : List (Envelope (κ × ν))) (key : κ) (w : Window) (values : Multiset ν) :
    Prop :=
  values = valuesAt key w rows ∧ values ≠ 0

theorem combineBundles_summarizes (hf : f.TracksBag R) (width : Option Nat)
    (bundles : List (List (Envelope (κ × ν)))) :
    Summarizes (.ok (combineBundles f width bundles)) f R .onTimeAndOnly
      (ListedBag bundles.flatten) := by
  obtain ⟨partials, heq, h⟩ := combineBundles_eq hf.tracks width bundles
  refine ⟨partials.map fun p => ⟨p.1.1, p.1.2, valuesAt p.1.1 p.1.2 bundles.flatten⟩,
    extractAll f partials, by rw [heq], ⟨?_, ?_, ?_⟩, ?_⟩
  · rw [List.map_map]
    exact h.nodup
  · intro c hc
    obtain ⟨⟨⟨k, w⟩, a⟩, hp, rfl⟩ := List.mem_map.mp hc
    have hne := (h.present (Table.find?_of_mem h.nodup hp)).1
    exact ⟨rfl, fun hzero => hne (Multiset.coe_eq_zero _ |>.mp hzero)⟩
  · rintro k w m ⟨rfl, hne⟩
    cases hfind : Table.find? (k, w) partials with
    | none => exact absurd (congrArg Multiset.ofList (h.absent hfind)) hne
    | some a =>
      exact ⟨_, List.mem_map.mpr ⟨((k, w), a), Table.mem_of_find? hfind, rfl⟩, rfl, rfl⟩
  · rw [extractAll, List.forall₂_map_left_iff, List.forall₂_map_right_iff, List.forall₂_same]
    intro p hp
    obtain ⟨⟨k, w⟩, a⟩ := p
    exact ⟨a, (h.present (Table.find?_of_mem h.nodup hp)).2, rfl⟩

end EventTime
