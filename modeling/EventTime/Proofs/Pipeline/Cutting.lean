import Mathlib.Algebra.Order.Floor.Div
import EventTime.Pipeline.CombineTree

/-!
# Cutting lists into parts

A list is cut into as many parts as its length divided by the width, rounded up; none of them is
empty, and none is longer than the width. A source is cut into at most as many parts as asked for,
since the width is such a quotient itself. Partial results are grouped by two or more, which leaves
fewer of them for the next round.
-/

namespace EventTime

variable {α : Type}

theorem succ_ceilDiv (n : Nat) {width : Nat} (h : 0 < width) :
    (n + 1) ⌈/⌉ width = (n - (width - 1)) ⌈/⌉ width + 1 := by
  have hsum : n + 1 + width - 1 = n + width := by omega
  rw [Nat.ceilDiv_eq_add_pred_div, Nat.ceilDiv_eq_add_pred_div, hsum, Nat.add_div_right n h]
  by_cases hn : width - 1 ≤ n
  · have hrest : n - (width - 1) + width - 1 = n := by omega
    rw [hrest]
  · rw [Nat.div_eq_of_lt (by omega), Nat.div_eq_of_lt (by omega)]

theorem length_chunks {width : Nat} (h : 0 < width) (l : List α) :
    (chunks width l).length = l.length ⌈/⌉ width := by
  fun_induction chunks width l with
  | case1 => exact (zero_ceilDiv width).symm
  | case2 a rest ih =>
    rw [List.length_cons, ih, List.length_drop, List.length_cons, succ_ceilDiv _ h]

theorem length_le_of_mem_chunks {width : Nat} (h : 0 < width) {l part : List α}
    (hpart : part ∈ chunks width l) : part.length ≤ width := by
  fun_induction chunks width l with
  | case1 => cases hpart
  | case2 a rest ih =>
    rcases List.mem_cons.mp hpart with rfl | hpart
    · rw [List.length_cons, List.length_take]
      omega
    · exact ih hpart

/-- Widths that no list of the length exceeds make no difference. -/
theorem chunks_congr_of_length_le {width width' : Nat} {l : List α} (h : l.length ≤ width)
    (h' : l.length ≤ width') : chunks width l = chunks width' l := by
  cases l with
  | nil => rw [chunks, chunks]
  | cons a rest =>
    rw [List.length_cons] at h h'
    rw [chunks, chunks, List.take_of_length_le (by omega), List.take_of_length_le (by omega),
      List.drop_of_length_le (by omega), List.drop_of_length_le (by omega), chunks, chunks]

theorem split_eq_chunks {n : Nat} {l : List α} (h : ¬(n ≤ 1 ∨ l.length ≤ 1)) :
    split n l = chunks (l.length ⌈/⌉ n) l := if_neg h

theorem length_split_pos (n : Nat) (l : List α) : 0 < (split n l).length := by
  by_cases h : n ≤ 1 ∨ l.length ≤ 1
  · rw [split, if_pos h]
    exact Nat.one_pos
  · refine List.length_pos_iff.mpr fun hnil => h (.inr ?_)
    rw [← flatten_split n l, hnil]
    exact Nat.zero_le 1

theorem length_split_le (n : Nat) (l : List α) : (split n l).length ≤ max n 1 := by
  by_cases h : n ≤ 1 ∨ l.length ≤ 1
  · rw [split, if_pos h]
    exact le_max_right n 1
  · have hn : 0 < n := by omega
    have hwidth : 0 < l.length ⌈/⌉ n := Nat.div_pos (by omega) hn
    have hcover : l.length ≤ n * (l.length ⌈/⌉ n) := le_smul_ceilDiv hn
    rw [split_eq_chunks h, length_chunks hwidth]
    exact le_max_of_le_left ((ceilDiv_le_iff_le_mul hwidth).mpr (Nat.mul_comm .. ▸ hcover))

theorem eq_nil_of_nil_mem_split {n : Nat} {l : List α} (h : [] ∈ split n l) : l = [] := by
  rw [split] at h
  split at h
  · exact (List.mem_singleton.mp h).symm
  · exact absurd rfl (ne_nil_of_mem_chunks h)

/-- Without a width a round merges all parts, as it does for any width that they do not exceed. -/
theorem chunks_roundWidth (width : Option Nat) {parts : List α} {limit : Nat}
    (h : parts.length ≤ limit) : chunks (roundWidth width parts.length) parts =
      chunks (max (width.getD limit) 2) parts := by
  cases width with
  | none => exact chunks_congr_of_length_le (le_max_left ..) (h.trans (le_max_left ..))
  | some width => rfl

/-- Cutting loses nothing and keeps its limits. A list is cut into at least one part and at most as
many as asked for, of which none is empty unless the list is. A round of merges cuts its parts into
groups of at most the given width, or of two if that is more, so that there are fewer groups than
parts if there are two of those. No width counts as any `limit` that the parts do not exceed. -/
theorem cutting_keeps_all (n : Nat) (l : List α) (width : Option Nat) {β : Type} {parts : List β}
    {limit : Nat} (hlimit : parts.length ≤ limit) :
    ((split n l).flatten = l ∧ 1 ≤ (split n l).length ∧ (split n l).length ≤ max n 1 ∧
      ([] ∈ split n l → l = [])) ∧
    let atMost := max (width.getD limit) 2
    let groups := chunks atMost parts
    chunks (roundWidth width parts.length) parts = groups ∧ groups.flatten = parts ∧
      (∀ group ∈ groups, 1 ≤ group.length ∧ group.length ≤ atMost) ∧
      (2 ≤ parts.length → groups.length < parts.length) := by
  refine ⟨⟨flatten_split n l, length_split_pos n l, length_split_le n l, eq_nil_of_nil_mem_split⟩,
    chunks_roundWidth width hlimit, flatten_chunks .., fun group hgroup => ⟨?_, ?_⟩, ?_⟩
  · exact List.length_pos_iff.mpr (ne_nil_of_mem_chunks hgroup)
  · exact length_le_of_mem_chunks (by omega) hgroup
  · exact length_chunks_lt (le_max_right ..)

/-- Five elements asked for in four parts come in three, and five parts merged by one in three. -/
theorem cutting_keeps_all_of_five :
    [1, 2, 3, 4, 5].length ≤ UInt64.size - 1 ∧ split 4 [1, 2, 3, 4, 5] = [[1, 2], [3, 4], [5]] ∧
      (split 4 [1, 2, 3, 4, 5]).length ≤ 4 ∧
      chunks (roundWidth (some 1) 5) [1, 2, 3, 4, 5] = chunks 2 [1, 2, 3, 4, 5] ∧
      (chunks 2 [1, 2, 3, 4, 5]).length < 5 := by
  have hlimit : [1, 2, 3, 4, 5].length ≤ UInt64.size - 1 := by decide
  obtain ⟨⟨-, -, hcount, -⟩, hgroups, -, -, hfewer⟩ :=
    cutting_keeps_all 4 [1, 2, 3, 4, 5] (some 1) hlimit
  exact ⟨hlimit, by simp [split, chunks], hcount, hgroups, hfewer (by decide)⟩

end EventTime
