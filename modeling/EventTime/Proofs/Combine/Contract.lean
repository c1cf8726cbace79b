import Mathlib.Algebra.BigOperators.Group.Multiset.Basic
import Mathlib.Algebra.GroupWithZero.Nat
import Mathlib.Data.List.Forall2
import EventTime.Combine.Basic

/-!
# What a combine function promises

An accumulator stands for the inputs that went into it. Creating, adding and merging keep track of
those inputs, and an output depends on nothing else. The weaker promise is about sequences of inputs
and merges in order; the stronger one is about multisets.
-/

namespace EventTime.KeyedCombineFn

variable {κ ν α ο : Type}

/-- Accumulators keep track of the sequence of their inputs, in the sense of `R`. -/
structure Tracks (f : KeyedCombineFn κ ν α ο) (R : κ → α → List ν → Prop) : Prop where
  create : ∀ k, R k (f.create k) []
  add : ∀ {k a l}, R k a l → ∀ v, R k (f.add k a v) (l ++ [v])
  merge : ∀ {k accs ls}, accs ≠ [] → List.Forall₂ (R k) accs ls → R k (f.merge k accs) ls.flatten

/-- The output depends on the sequence of inputs only. -/
structure SequenceContract (f : KeyedCombineFn κ ν α ο) (R : κ → α → List ν → Prop) : Prop
    extends Tracks f R where
  extract : ∀ {k a b l}, R k a l → R k b l → f.extract k a = f.extract k b

/-- Accumulators keep track of the multiset of their inputs. -/
structure TracksBag (f : KeyedCombineFn κ ν α ο) (R : κ → α → Multiset ν → Prop) : Prop where
  create : ∀ k, R k (f.create k) 0
  add : ∀ {k a m}, R k a m → ∀ v, R k (f.add k a v) (m + {v})
  merge : ∀ {k accs ms}, accs ≠ [] → List.Forall₂ (R k) accs ms → R k (f.merge k accs) ms.sum

/-- The output depends on the multiset of inputs only. -/
structure MultisetContract (f : KeyedCombineFn κ ν α ο) (R : κ → α → Multiset ν → Prop) : Prop
    extends TracksBag f R where
  extract : ∀ {k a b m}, R k a m → R k b m → f.extract k a = f.extract k b

variable {f : KeyedCombineFn κ ν α ο}

theorem Tracks.addAll {R : κ → α → List ν → Prop} (h : f.Tracks R) (k : κ) (values : List ν) :
    R k (f.addAll k (f.create k) values) values := by
  induction values using List.reverseRecOn with
  | nil => exact h.create k
  | append_singleton values v ih =>
    rw [KeyedCombineFn.addAll, List.foldl_append]
    exact h.add ih v

theorem SequenceContract.extract_eq_apply {R : κ → α → List ν → Prop} (h : f.SequenceContract R)
    {k : κ} {a : α} {values : List ν} (ha : R k a values) : f.extract k a = f.apply k values :=
  h.extract ha (h.toTracks.addAll k values)

theorem sum_coe (ls : List (List ν)) :
    (ls.map Multiset.ofList).sum = (ls.flatten : Multiset ν) := by
  induction ls with
  | nil => rfl
  | cons l rest ih =>
    rw [List.map_cons, List.sum_cons, ih, List.flatten_cons, Multiset.coe_add]

theorem TracksBag.tracks {R : κ → α → Multiset ν → Prop} (h : f.TracksBag R) :
    f.Tracks fun k a l => R k a l where
  create := h.create
  add ha v := by
    rw [← Multiset.coe_add, Multiset.coe_singleton]
    exact h.add ha v
  merge hne hall := by
    rw [← sum_coe]
    exact h.merge hne (List.forall₂_map_right_iff.mpr hall)

/-- List the inputs in order. -/
def listing (κ ν : Type) (coder : Coder (List ν)) : KeyedCombineFn κ ν (List ν) (List ν) where
  create _ := []
  add _ acc v := acc ++ [v]
  merge _ accs := accs.flatten
  extract _ acc := acc
  accumulatorCoder _ _ := .ok coder

theorem listing_sequence (κ ν : Type) (coder : Coder (List ν)) :
    (listing κ ν coder).SequenceContract fun _ acc l => acc = l where
  create _ := rfl
  add ha v := by rw [← ha]; rfl
  merge {_ accs ls} _ hall := by
    have heq : accs = ls := by rwa [List.forall₂_eq_eq_eq] at hall
    rw [heq]
    rfl
  extract ha hb := ha.trans hb.symm

/-- Count the inputs. -/
def counting (κ ν : Type) : KeyedCombineFn κ ν Nat UInt32 where
  create _ := 0
  add _ n _ := n + 1
  merge _ counts := counts.sum
  extract _ n := UInt32.ofNat n
  accumulatorCoder _ _ := .ok (.ofWire Wire.natural)

theorem counting_multiset (κ ν : Type) :
    (counting κ ν).MultisetContract fun _ n m => n = Multiset.card m where
  create _ := rfl
  add {_ n m} hn v := by
    rw [Multiset.card_add, Multiset.card_singleton, ← hn]
    rfl
  merge {_ counts ms} hne hall := by
    clear hne
    show counts.sum = Multiset.card ms.sum
    induction hall with
    | nil => rfl
    | cons hn _ ih => rw [List.sum_cons, List.sum_cons, Multiset.card_add, ← hn, ih]
  extract ha hb := by rw [ha, hb]

end EventTime.KeyedCombineFn
