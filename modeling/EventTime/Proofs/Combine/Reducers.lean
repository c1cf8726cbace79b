import Mathlib.Data.List.Perm.Basic
import EventTime.Combine.Binary
import EventTime.Proofs.Combine.Assembly

/-!
# Reducers that may be regrouped

A reducer that gathers folds its inputs into the accumulator, in any order, and merges accumulators
into the fold of all their inputs. It keeps the contract of a combine function, so its output is the
same for every assembly with the same inputs. Counting gathers, and so does an operator that is
associative and commutative: with an optional value always, with a plain value if it starts from an
identity of the operator.
-/

namespace EventTime.CombineFn

variable {κ ι α ο : Type}

/-- The output does not depend on how the accumulator is assembled: not on the order of the inputs,
on how they are cut into accumulators, or on how these are merged and added to. -/
def Regroups (f : CombineFn ι α ο) : Prop :=
  ∀ (inputs : List ι) (t : Assembly ι), t.inputs.Perm inputs →
    f.extract (t.build f) = f.apply inputs

/-- Inputs may come in any order, and merging goes on from the inputs of the accumulators. -/
structure Gathers (f : CombineFn ι α ο) : Prop where
  swap : ∀ a x y, f.add (f.add a x) y = f.add (f.add a y) x
  merge : ∀ ls : List (List ι), f.merge (ls.map (f.addAll f.create)) = f.addAll f.create ls.flatten

namespace Gathers

variable {f : CombineFn ι α ο}

/-- An accumulator is what adding its inputs makes, in some order. -/
def Folds (f : CombineFn ι α ο) (a : α) (m : Multiset ι) : Prop :=
  ∃ l : List ι, m = l ∧ a = f.addAll f.create l

theorem exists_folds {accs : List α} {ms : List (Multiset ι)} (h : List.Forall₂ (Folds f) accs ms) :
    ∃ ls : List (List ι), ms = ls.map Multiset.ofList ∧ accs = ls.map (f.addAll f.create) := by
  induction h with
  | nil => exact ⟨[], rfl, rfl⟩
  | cons ha _ ih =>
    obtain ⟨l, rfl, rfl⟩ := ha
    obtain ⟨ls, rfl, rfl⟩ := ih
    exact ⟨l :: ls, rfl, rfl⟩

theorem contract (h : f.Gathers) : (f.lift (κ := κ)).MultisetContract fun _ => Folds f where
  create _ := ⟨[], rfl, rfl⟩
  add := by
    rintro _ _ _ ⟨l, rfl, rfl⟩ v
    refine ⟨l ++ [v], by rw [← Multiset.coe_add, Multiset.coe_singleton], ?_⟩
    show f.add (f.addAll f.create l) v = (l ++ [v]).foldl f.add f.create
    rw [List.foldl_append]
    rfl
  merge := by
    intro _ accs ms _ hall
    obtain ⟨ls, rfl, rfl⟩ := exists_folds hall
    exact ⟨ls.flatten, KeyedCombineFn.sum_coe ls, h.merge ls⟩
  extract := by
    rintro _ _ _ _ ⟨l, rfl, rfl⟩ ⟨l', hperm, rfl⟩
    have hfold : f.addAll f.create l = f.addAll f.create l' :=
      List.Perm.foldl_eq' (Multiset.coe_eq_coe.mp hperm) (fun x _ y _ a => h.swap a x y) _
    show f.extract _ = f.extract _
    rw [hfold]

theorem regroups (h : f.Gathers) : f.Regroups := fun _ _ hperm =>
  (h.contract (κ := Unit)).extract_build (k := ()) ⟨[], rfl, h.merge []⟩ hperm

end Gathers

section Operators

variable {op : ι → ι → ι}

theorem foldl_joinOn (op : ι → ι → ι) (a : ι) (l : List ι) :
    l.foldl (joinOn op) (some a) = some (l.foldl op a) := by
  induction l generalizing a with
  | nil => rfl
  | cons x rest ih => exact ih (op a x)

variable [Std.Associative op]

/-- Joining what a list of values was joined into is joining the values. -/
theorem joinOn_foldl (acc : Option ι) (x : ι) (l : List ι) :
    joinOn op acc (l.foldl op x) = (x :: l).foldl (joinOn op) acc := by
  cases acc with
  | none => exact (foldl_joinOn op x l).symm
  | some a =>
    show some (op a (l.foldl op x)) = l.foldl (joinOn op) (some (op a x))
    rw [foldl_joinOn, List.foldl_assoc]

theorem foldl_joinOn_present (acc : Option ι) (ls : List (List ι)) :
    ((ls.map fun l => l.foldl (joinOn op) none).filterMap id).foldl (joinOn op) acc =
      ls.flatten.foldl (joinOn op) acc := by
  induction ls generalizing acc with
  | nil => rfl
  | cons l rest ih =>
    rw [List.map_cons, List.flatten_cons, List.foldl_append]
    cases l with
    | nil => exact ih acc
    | cons x l =>
      have hpresent : (x :: l).foldl (joinOn op) none = some (l.foldl op x) := foldl_joinOn op x l
      rw [hpresent, List.filterMap_cons_some (f := id) rfl, List.foldl_cons, joinOn_foldl]
      exact ih _

theorem foldl_folds {e : ι} (he : ∀ a, op a e = a) (a : ι) (ls : List (List ι)) :
    (ls.map fun l => l.foldl op e).foldl op a = ls.flatten.foldl op a := by
  induction ls generalizing a with
  | nil => rfl
  | cons l rest ih =>
    have hjoin : l.foldl op (op a e) = op a (l.foldl op e) := List.foldl_assoc
    rw [he] at hjoin
    rw [List.map_cons, List.foldl_cons, List.flatten_cons, List.foldl_append, hjoin]
    exact ih _

variable [Std.Commutative op]

theorem binary_gathers (identity : Option ι) : (binary op identity).Gathers where
  swap acc x y := by
    cases acc with
    | none =>
      have hswap : op x y = op y x := Std.Commutative.comm x y
      exact congrArg some hswap
    | some a =>
      have hswap : op (op a x) y = op (op a y) x := RightCommutative.right_comm a x y
      exact congrArg some hswap
  merge := foldl_joinOn_present none

theorem primitive_gathers {e : ι} (he : ∀ a, op e a = a) : (primitive op e).Gathers where
  swap a x y := show op (op a x) y = op (op a y) x from RightCommutative.right_comm a x y
  merge := foldl_folds (fun a => (Std.Commutative.comm a e).trans (he a)) e

end Operators

section Order

variable [LE ι] [LT ι] [DecidableLT ι] [Std.IsLinearOrder ι] [Std.LawfulOrderLT ι]

instance : Std.Associative (α := ι) larger := ⟨fun a b c => by grind [larger]⟩

instance : Std.Commutative (α := ι) larger := ⟨fun a b => by grind [larger]⟩

instance : Std.Associative (α := ι) smaller := ⟨fun a b c => by grind [smaller]⟩

instance : Std.Commutative (α := ι) smaller := ⟨fun a b => by grind [smaller]⟩

theorem larger_least {e : ι} (he : ∀ a : ι, e ≤ a) (a : ι) : larger e a = a :=
  if_neg (Std.not_lt.mpr (he a))

theorem smaller_greatest {e : ι} (he : ∀ a : ι, a ≤ e) (a : ι) : smaller e a = a := by
  have hle := he a
  grind [smaller]

end Order

theorem addAll_count (n : UInt64) (l : List ι) :
    (count (ι := ι)).addAll n l = n + UInt64.ofNat l.length := by
  induction l generalizing n with
  | nil => exact (UInt64.add_zero n).symm
  | cons x rest ih =>
    rw [List.length_cons, UInt64.ofNat_add, UInt64.add_comm (UInt64.ofNat _), ← UInt64.add_assoc]
    exact ih (n + 1)

theorem foldl_counts (n : UInt64) (ls : List (List ι)) :
    (ls.map ((count (ι := ι)).addAll 0)).foldl (· + ·) n =
      (count (ι := ι)).addAll n ls.flatten := by
  induction ls generalizing n with
  | nil => rfl
  | cons l rest ih =>
    rw [List.map_cons, List.foldl_cons, ih, List.flatten_cons, addAll_count, addAll_count 0,
      addAll_count, List.length_append, UInt64.ofNat_add, UInt64.zero_add, UInt64.add_assoc]

theorem count_gathers : (count (ι := ι)).Gathers where
  swap _ _ _ := rfl
  merge := foldl_counts 0

/-- The integer sums, maxima and minima, the count, the maxima and minima with an optional value,
and any operator that is associative and commutative may be regrouped; where the accumulator is a
plain value, the operator has to have the identity that it starts from. -/
theorem reducers_regroup :
    (sumInt32.Regroups ∧ maxInt32.Regroups ∧ minInt32.Regroups) ∧
    (sumInt64.Regroups ∧ maxInt64.Regroups ∧ minInt64.Regroups) ∧
    (∀ ι : Type, (count (ι := ι)).Regroups) ∧
    ((maxOf (ι := String)).Regroups ∧ (minOf (ι := String)).Regroups) ∧
    ((maxOf (ι := Int64)).Regroups ∧ (minOf (ι := Int64)).Regroups) ∧
    (∀ {ι : Type} (op : ι → ι → ι) [Std.Associative op] [Std.Commutative op]
      (identity : Option ι), (binary op identity).Regroups) ∧
    (∀ {ι : Type} (op : ι → ι → ι) [Std.Associative op] [Std.Commutative op]
      (identity : ι), (∀ a, op identity a = a) → (primitive op identity).Regroups) := by
  refine ⟨⟨?_, ?_, ?_⟩, ⟨?_, ?_, ?_⟩, fun ι => count_gathers.regroups, ⟨?_, ?_⟩, ⟨?_, ?_⟩,
    fun op _ _ identity => (binary_gathers identity).regroups,
    fun op _ _ identity hid => (primitive_gathers hid).regroups⟩
  · exact (primitive_gathers Int32.zero_add).regroups
  · exact (primitive_gathers (larger_least Int32.minValue_le)).regroups
  · exact (primitive_gathers (smaller_greatest Int32.le_maxValue)).regroups
  · exact (primitive_gathers Int64.zero_add).regroups
  · exact (primitive_gathers (larger_least Int64.minValue_le)).regroups
  · exact (primitive_gathers (smaller_greatest Int64.le_maxValue)).regroups
  · exact (binary_gathers none).regroups
  · exact (binary_gathers none).regroups
  · exact (binary_gathers none).regroups
  · exact (binary_gathers none).regroups

/-- The bitwise sum of three numbers, assembled out of order with an accumulator that is merged from
none and one that nothing is added to. -/
theorem reducers_regroup_of_xor :
    let op : Int64 → Int64 → Int64 := (· ^^^ ·)
    let t : Assembly Int64 :=
      .merge [.add (.merge [.add .create 8, .merge []]) 5, .create, .add .create 12]
    (∀ a, op 0 a = a) ∧ t.inputs.Perm [12, 5, 8] ∧
      (primitive op 0).extract (t.build (primitive op 0)) = 1 ∧
      (primitive op 0).apply [12, 5, 8] = 1 := by
  intro op t
  have hid : ∀ a, op 0 a = a := fun a => Int64.zero_xor
  have hperm : t.inputs.Perm [12, 5, 8] := by decide
  have h := reducers_regroup.2.2.2.2.2.2 op 0 hid [12, 5, 8] t hperm
  have happly : (primitive op 0).apply [12, 5, 8] = 1 := by decide
  exact ⟨hid, hperm, h.trans happly, happly⟩

end EventTime.CombineFn
