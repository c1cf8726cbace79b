import EventTime.Combine.Recipe
import EventTime.Proofs.Combine.Assembly

/-!
# Buffers that collapse

A buffer is collapsed when it has grown past its size and at every merge, so the callback sees what
it made of some inputs among the others. If it does not tell these apart, neither does the output:
it is what the callback makes of all inputs in their order, however the accumulator was assembled.
The buffer stays within its size, and it is empty only as long as there is no input.
-/

namespace EventTime.CombineFn

variable {ι : Type} {f : List ι → ι} {size : Nat}

/-- Some of the values of a list may be replaced by what the callback makes of them. -/
def Absorbing (f : List ι → ι) : Prop :=
  ∀ xs ys zs, ys ≠ [] → f (xs ++ [f ys] ++ zs) = f (xs ++ ys ++ zs)

/-- The callback does not tell two lists apart, among whatever values they stand. -/
def Interchangeable (f : List ι → ι) (l l' : List ι) : Prop :=
  ∀ xs zs, f (xs ++ l ++ zs) = f (xs ++ l' ++ zs)

namespace Interchangeable

theorem refl (f : List ι → ι) (l : List ι) : Interchangeable f l l := fun _ _ => rfl

theorem trans {l l' l'' : List ι} (h : Interchangeable f l l') (h' : Interchangeable f l' l'') :
    Interchangeable f l l'' := fun xs zs => (h xs zs).trans (h' xs zs)

theorem append {l l' k k' : List ι} (h : Interchangeable f l l') (h' : Interchangeable f k k') :
    Interchangeable f (l ++ k) (l' ++ k') := by
  intro xs zs
  have hleft := h xs (k ++ zs)
  have hright := h' (xs ++ l') zs
  simp only [List.append_assoc] at hleft hright ⊢
  exact hleft.trans hright

theorem flatten {ls ls' : List (List ι)} (h : List.Forall₂ (Interchangeable f) ls ls') :
    Interchangeable f ls.flatten ls'.flatten := by
  induction h with
  | nil => exact refl f []
  | cons hl _ ih => exact hl.append ih

theorem collapse (hf : Absorbing f) (l : List ι) : Interchangeable f (collapse f l) l := by
  intro xs zs
  cases l with
  | nil => rfl
  | cons x rest => exact hf xs (x :: rest) zs (List.cons_ne_nil _ _)

theorem eq {l l' : List ι} (h : Interchangeable f l l') : f l = f l' := by
  simpa using h [] []

end Interchangeable

theorem length_collapse_le (f : List ι → ι) (l : List ι) : (collapse f l).length ≤ 1 := by
  cases l with
  | nil => exact Nat.zero_le 1
  | cons x rest => exact Nat.le_refl 1

theorem collapse_eq_nil_iff {l : List ι} : collapse f l = [] ↔ l = [] := by
  cases l with
  | nil => exact Iff.rfl
  | cons x rest => exact iff_of_false (List.cons_ne_nil _ _) (List.cons_ne_nil _ _)

theorem interchangeable_buffered (hf : Absorbing f) (size : Nat) (l : List ι) (x : ι) :
    Interchangeable f (buffered f size l x) (l ++ [x]) := by
  unfold buffered
  split
  · exact .collapse hf (l ++ [x])
  · exact .refl f (l ++ [x])

theorem length_buffered_le (f : List ι → ι) (size : Nat) (l : List ι) (x : ι) :
    (buffered f size l x).length ≤ max size 1 := by
  unfold buffered
  split
  · exact (length_collapse_le f _).trans (le_max_right _ _)
  · rw [List.length_append, List.length_singleton]
    omega

theorem buffered_ne_nil (f : List ι → ι) (size : Nat) (l : List ι) (x : ι) :
    buffered f size l x ≠ [] := by
  unfold buffered
  split
  · exact collapse_eq_nil_iff.not.mpr (List.append_ne_nil_of_right_ne_nil l (List.cons_ne_nil x []))
  · exact List.append_ne_nil_of_right_ne_nil l (List.cons_ne_nil x [])

/-- A buffer of a size stands for inputs. -/
structure Buffers (f : List ι → ι) (size : Nat) (buffer inputs : List ι) : Prop where
  same : Interchangeable f buffer inputs
  length_le : buffer.length ≤ max size 1
  empty_iff : buffer = [] ↔ inputs = []

theorem flatten_eq_nil_iff {accs ls : List (List ι)}
    (h : List.Forall₂ (Buffers f size) accs ls) : accs.flatten = [] ↔ ls.flatten = [] := by
  induction h with
  | nil => exact Iff.rfl
  | cons ha _ ih =>
    simp only [List.flatten_cons, List.append_eq_nil_iff, ha.empty_iff, ih]

theorem buffers_merge (hf : Absorbing f) {accs ls : List (List ι)}
    (h : List.Forall₂ (Buffers f size) accs ls) :
    Buffers f size (collapse f accs.flatten) ls.flatten where
  same := (Interchangeable.collapse hf _).trans (.flatten (h.imp fun _ _ ha => ha.same))
  length_le := (length_collapse_le f _).trans (le_max_right _ _)
  empty_iff := collapse_eq_nil_iff.trans (flatten_eq_nil_iff h)

theorem iterable_sequence (κ : Type) (hf : Absorbing f) (size : Nat) :
    ((iterable f size).lift (κ := κ)).SequenceContract fun _ => Buffers f size where
  create _ := ⟨.refl f [], Nat.zero_le _, Iff.rfl⟩
  add {_ l inputs} h x :=
    { same := (interchangeable_buffered hf size l x).trans (h.same.append (.refl f [x]))
      length_le := length_buffered_le f size l x
      empty_iff := iff_of_false (buffered_ne_nil f size l x)
        (List.append_ne_nil_of_right_ne_nil inputs (List.cons_ne_nil x [])) }
  merge _ h := buffers_merge hf h
  extract ha hb := ha.same.eq.trans hb.same.eq.symm

/-- However an accumulator is assembled, the callback makes of it what it makes of all inputs in
their order, and the buffer is within its size, with one value at most after a merge, and empty
only without inputs. The accumulators on the way are assemblies as well. -/
theorem iterable_assembled (hf : Absorbing f) (size : Nat) (t : Assembly ι) :
    (iterable f size).extract (t.build (iterable f size)) = f t.inputs ∧
      (t.build (iterable f size)).length ≤ max size 1 ∧
      (∀ parts, t = .merge parts → (t.build (iterable f size)).length ≤ 1) ∧
      (t.build (iterable f size) = [] ↔ t.inputs = []) := by
  have hbuild : Buffers f size (t.build (iterable f size)) t.inputs :=
    (iterable_sequence Unit hf size).toTracks.build (k := ()) (buffers_merge hf .nil) t
  refine ⟨hbuild.same.eq, hbuild.length_le, ?_, hbuild.empty_iff⟩
  rintro parts rfl
  exact length_collapse_le f _

/-- Texts joined with a buffer of one, in an assembly that merges empty accumulators and adds to a
merged one. -/
theorem iterable_assembled_of_texts :
    let f := ListOp.apply .concat
    let t : Assembly String := .merge [.add (.add .create "a") "b", .merge [],
      .add (.merge [.create, .add .create "c"]) "d", .create]
    Absorbing f ∧ (iterable f 1).extract (t.build (iterable f 1)) = f ["a", "b", "c", "d"] ∧
      (t.build (iterable f 1)).length ≤ 1 := by
  intro f t
  have hf : Absorbing f := by
    intro xs ys zs _
    show String.join (xs ++ [String.join ys] ++ zs) = String.join (xs ++ ys ++ zs)
    simp only [String.join_append, String.join_cons, String.join_nil, String.append_empty]
  obtain ⟨hextract, -, hmerged, -⟩ := iterable_assembled hf 1 t
  exact ⟨hf, hextract, hmerged _ rfl⟩

end EventTime.CombineFn
