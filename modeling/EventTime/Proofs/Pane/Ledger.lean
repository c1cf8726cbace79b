import EventTime.Pane.Grouper
import EventTime.Proofs.Listings

/-!
# A ledger of listings

Every element stands in the ledger once for each window that it lists, with what has become of it
there: it waits in the buffer of a window, a pane has shown it, or it has been dropped. A grouping
moves listings from one fate to another and never forgets one.
-/

namespace EventTime

variable {ν : Type}

/-- One element in one of the windows that it lists. -/
structure Listing (ν : Type) where
  timestamp : Int
  window : Window
  value : ν

/-- The listings of some elements, in order. -/
def listingsOf (elements : List (Envelope ν)) : List (Listing ν) :=
  elements.flatMap fun e => e.windows.map fun w => ⟨e.timestamp, w, e.value⟩

/-- What has become of a listing; panes are numbered in firing order. -/
inductive Fate
  | waiting (w : Window)
  | shown (pane : Nat)
  | dropped
  deriving DecidableEq

/-- The listings so far, each with its fate. -/
abbrev Ledger (ν : Type) := List (Listing ν × Fate)

namespace Ledger

/-- The values of the listings that share a fate. -/
def valuesOf (l : Ledger ν) (f : Fate) : Multiset ν := (l.filter (·.2 = f)).map (·.1.value)

/-- All listings of the old fates get the new one. -/
def move (l : Ledger ν) (olds : List Fate) (new : Fate) : Ledger ν :=
  l.map fun p => (p.1, if p.2 ∈ olds then new else p.2)

variable {l : Ledger ν} {olds : List Fate} {new f : Fate}

@[simp] theorem valuesOf_nil (f : Fate) : valuesOf ([] : Ledger ν) f = 0 := rfl

theorem valuesOf_cons (p : Listing ν × Fate) (l : Ledger ν) (f : Fate) :
    valuesOf (p :: l) f = (if p.2 = f then {p.1.value} else 0) + l.valuesOf f := by
  by_cases h : p.2 = f
  · simp only [valuesOf, List.filter_cons, h, decide_true, if_true, List.map_cons]
    rw [← Multiset.cons_coe, ← Multiset.singleton_add]
  · simp [valuesOf, h]

theorem valuesOf_concat (l : Ledger ν) (p : Listing ν × Fate) (f : Fate) :
    valuesOf (l ++ [p]) f = l.valuesOf f + if p.2 = f then {p.1.value} else 0 := by
  by_cases h : p.2 = f <;> simp [valuesOf, h, ← Multiset.coe_add]

@[simp] theorem map_fst_move : (l.move olds new).map Prod.fst = l.map Prod.fst := by
  simp [move]

theorem valuesOf_move_of_ne (hf : f ∉ olds) (hnew : f ≠ new) :
    (l.move olds new).valuesOf f = l.valuesOf f := by
  induction l with
  | nil => rfl
  | cons p l ih =>
    show valuesOf (_ :: move l olds new) f = _
    rw [valuesOf_cons, valuesOf_cons, ih]
    congr 1
    by_cases hp : p.2 ∈ olds
    · have hne : p.2 ≠ f := fun e => hf (e ▸ hp)
      simp [hp, Ne.symm hnew, hne]
    · simp [hp]

theorem valuesOf_move_of_mem (hf : f ∈ olds) (hnew : f ≠ new) :
    (l.move olds new).valuesOf f = 0 := by
  induction l with
  | nil => rfl
  | cons p l ih =>
    show valuesOf (_ :: move l olds new) f = _
    rw [valuesOf_cons, ih, add_zero]
    by_cases hp : p.2 ∈ olds
    · simp [hp, Ne.symm hnew]
    · have hne : p.2 ≠ f := fun e => hp (e ▸ hf)
      simp [hp, hne]

theorem sum_singletons (olds : List Fate) (hnodup : olds.Nodup) (g : Fate) (v : ν) :
    (olds.map fun f => if g = f then ({v} : Multiset ν) else 0).sum =
      if g ∈ olds then {v} else 0 := by
  induction olds with
  | nil => rfl
  | cons f rest ih =>
    obtain ⟨hf, hrest⟩ := List.nodup_cons.mp hnodup
    rw [List.map_cons, List.sum_cons, ih hrest]
    by_cases hg : g = f
    · subst hg
      simp [hf]
    · simp [hg]

/-- The new fate takes over the values of the old ones. -/
theorem valuesOf_move_new (hnodup : olds.Nodup) (hnew : new ∉ olds → l.valuesOf new = 0) :
    (l.move olds new).valuesOf new = (olds.map l.valuesOf).sum := by
  induction l with
  | nil =>
    refine (List.sum_eq_zero fun x hx => ?_).symm
    obtain ⟨f, -, rfl⟩ := List.mem_map.mp hx
    rfl
  | cons p l ih =>
    have hrest (h : new ∉ olds) : valuesOf l new = 0 := by
      have hzero := hnew h
      rw [valuesOf_cons] at hzero
      exact (add_eq_zero.mp hzero).2
    have hhead (h : p.2 ∉ olds) : p.2 ≠ new := by
      rintro rfl
      have hzero := hnew h
      rw [valuesOf_cons, if_pos rfl] at hzero
      exact Multiset.singleton_ne_zero _ (add_eq_zero.mp hzero).1
    have hsplit : (olds.map (valuesOf (p :: l))).sum =
        (if p.2 ∈ olds then {p.1.value} else 0) + (olds.map (valuesOf l)).sum := by
      rw [← sum_singletons olds hnodup, ← List.sum_map_add]
      exact congrArg List.sum (List.map_congr_left fun f _ => valuesOf_cons ..)
    show valuesOf (_ :: move l olds new) new = _
    rw [hsplit, valuesOf_cons, ih hrest]
    by_cases hp : p.2 ∈ olds
    · simp [hp]
    · simp [hp, hhead hp]

theorem forall_move {P : Listing ν → Fate → Prop} (h : ∀ p ∈ l, P p.1 p.2)
    (hnew : ∀ p ∈ l, p.2 ∈ olds → P p.1 new) : ∀ p ∈ l.move olds new, P p.1 p.2 := by
  intro q hq
  obtain ⟨p, hp, rfl⟩ := List.mem_map.mp hq
  show P p.1 (if p.2 ∈ olds then new else p.2)
  split
  · rename_i hmem
    exact hnew p hp hmem
  · exact h p hp

end Ledger

end EventTime
