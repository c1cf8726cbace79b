import Mathlib.Data.List.Induction
import Mathlib.Data.List.Nodup
import EventTime.Pipeline.Table

/-!
# What tables hold

A table whose keys are distinct is determined by what it answers to each key. Gathering pairs lists
the values of every key in the order of the pairs.
-/

namespace EventTime.Table

variable {κ α β ν : Type} [DecidableEq κ]

theorem find?_eq_none_iff {t : Table κ α} {k : κ} : find? k t = none ↔ k ∉ t.map Prod.fst := by
  induction t with
  | nil => simp [find?]
  | cons p rest ih =>
    obtain ⟨j, a⟩ := p
    by_cases h : j = k
    · simp [find?, h]
    · simp [find?, h, ih, Ne.symm h]

theorem mem_of_find? {t : Table κ α} {k : κ} {a : α} (h : find? k t = some a) : (k, a) ∈ t := by
  induction t with
  | nil => simp [find?] at h
  | cons p rest ih =>
    obtain ⟨j, b⟩ := p
    by_cases hj : j = k
    · simp only [find?, hj, if_true, Option.some.injEq] at h
      rw [hj, h]
      exact List.mem_cons_self ..
    · simp only [find?, hj, if_false] at h
      exact List.mem_cons_of_mem _ (ih h)

theorem find?_of_mem {t : Table κ α} (ht : (t.map Prod.fst).Nodup) {k : κ} {a : α}
    (h : (k, a) ∈ t) : find? k t = some a := by
  induction t with
  | nil => simp at h
  | cons p rest ih =>
    obtain ⟨j, b⟩ := p
    obtain ⟨hj, hrest⟩ := List.nodup_cons.mp ht
    rcases List.mem_cons.mp h with heq | hmem
    · rw [← (Prod.mk.inj heq).1, ← (Prod.mk.inj heq).2]
      simp [find?]
    · have hne : j ≠ k := fun e =>
        hj (List.mem_map.mpr ⟨(k, a), hmem, e.symm⟩)
      simp only [find?, hne, if_false]
      exact ih hrest hmem

theorem filter_eq_find? {t : Table κ α} (ht : (t.map Prod.fst).Nodup) (k : κ) :
    (t.filter (·.1 = k)).map Prod.snd = (find? k t).toList := by
  induction t with
  | nil => rfl
  | cons p rest ih =>
    obtain ⟨j, a⟩ := p
    obtain ⟨hj, hrest⟩ := List.nodup_cons.mp ht
    by_cases h : j = k
    · have hnone : find? k rest = none := find?_eq_none_iff.mpr (h ▸ hj)
      have := ih hrest
      rw [hnone] at this
      simpa [find?, h] using this
    · simpa [find?, h] using ih hrest

theorem find?_map (g : κ → α → β) (t : Table κ α) (k : κ) :
    find? k (t.map fun p => (p.1, g p.1 p.2)) = (find? k t).map (g k) := by
  induction t with
  | nil => rfl
  | cons p rest ih =>
    obtain ⟨j, a⟩ := p
    by_cases h : j = k
    · simp [find?, h]
    · simpa [find?, h] using ih

omit [DecidableEq κ] in
theorem map_fst_map (g : κ → α → β) (t : Table κ α) :
    (t.map fun p => (p.1, g p.1 p.2)).map Prod.fst = t.map Prod.fst := by
  rw [List.map_map]
  rfl

theorem map_fst_alter (k : κ) (f : Option α → α) (t : Table κ α) :
    (alter k f t).map Prod.fst =
      if k ∈ t.map Prod.fst then t.map Prod.fst else t.map Prod.fst ++ [k] := by
  induction t with
  | nil => rfl
  | cons p rest ih =>
    obtain ⟨j, a⟩ := p
    by_cases h : j = k
    · simp [alter, h]
    · rw [alter, if_neg h, List.map_cons, ih]
      by_cases hmem : k ∈ rest.map Prod.fst
      · simp only [List.map_cons, List.mem_cons, hmem, or_true, if_true]
      · simp only [List.map_cons, List.mem_cons, hmem, Ne.symm h, or_self, if_false,
          List.cons_append]

theorem nodup_alter {t : Table κ α} (ht : (t.map Prod.fst).Nodup) (k : κ) (f : Option α → α) :
    ((alter k f t).map Prod.fst).Nodup := by
  rw [map_fst_alter]
  by_cases h : k ∈ t.map Prod.fst
  · rwa [if_pos h]
  · rw [if_neg h]
    exact List.nodup_append.mpr ⟨ht, List.pairwise_singleton _ k, fun a ha b hb e =>
      h (List.mem_singleton.mp hb ▸ e ▸ ha)⟩

theorem gather_concat (pairs : List (κ × ν)) (p : κ × ν) :
    gather (pairs ++ [p]) = append (gather pairs) p.1 p.2 := by
  rw [gather, List.foldl_append]
  rfl

theorem nodup_gather (pairs : List (κ × ν)) : ((gather pairs).map Prod.fst).Nodup := by
  induction pairs using List.reverseRecOn with
  | nil => exact List.nodup_nil
  | append_singleton pairs p ih =>
    rw [gather_concat]
    exact nodup_alter ih p.1 _

theorem find?_gather (pairs : List (κ × ν)) (k : κ) :
    find? k (gather pairs) =
      match (pairs.filter (·.1 = k)).map Prod.snd with
      | [] => none
      | v :: rest => some (v :: rest) := by
  induction pairs using List.reverseRecOn with
  | nil => rfl
  | append_singleton pairs p ih =>
    rw [gather_concat, find?_append, ih, List.filter_append, List.map_append]
    by_cases h : p.1 = k
    · simp only [h, if_true, List.filter_cons, List.filter_nil, decide_true, List.map_cons,
        List.map_nil]
      cases (pairs.filter (·.1 = k)).map Prod.snd <;> rfl
    · simp [h]

end EventTime.Table
