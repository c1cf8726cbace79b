import Mathlib
import EventTime.Check
import EventTime.Proofs.Pipeline.Table

/-!
# What the comparisons accept

The comparison by key accepts two lists exactly if under every key they hold the same values in the
same order. Nothing is asked of the equality of values: a value may differ from itself. The
comparison up to order accepts exactly the rearrangements of a list, and the check of single panes
accepts exactly the outputs that are on time and list no key and window twice.
-/

namespace EventTime.Check

variable {α κ ν : Type}

/-- The values that pairs hold under a key, in order. -/
def valuesOf [DecidableEq κ] (key : κ) (pairs : List (κ × ν)) : List ν :=
  (pairs.filter (·.1 = key)).map (·.2)

theorem valuesOf_cons [DecidableEq κ] (key : κ) (p : κ × ν) (l : List (κ × ν)) :
    valuesOf key (p :: l) = if p.1 = key then p.2 :: valuesOf key l else valuesOf key l := by
  by_cases h : p.1 = key <;> simp [valuesOf, h]

theorem valuesOf_self [DecidableEq κ] (p : κ × ν) (l : List (κ × ν)) :
    valuesOf p.1 (p :: l) = p.2 :: valuesOf p.1 l :=
  (valuesOf_cons ..).trans (if_pos rfl)

section

variable [LinearOrder κ]

/-- The pairs in the order of their keys, those under one key as they were. -/
def byKey (l : List (κ × ν)) : List (κ × ν) := l.mergeSort fun p q => p.1 ≤ q.1

theorem keys_le_trans (p q r : κ × ν) (hpq : decide (p.1 ≤ q.1) = true)
    (hqr : decide (q.1 ≤ r.1) = true) : decide (p.1 ≤ r.1) = true :=
  decide_eq_true (le_trans (of_decide_eq_true hpq) (of_decide_eq_true hqr))

theorem keys_le_total (p q : κ × ν) : (decide (p.1 ≤ q.1) || decide (q.1 ≤ p.1)) = true := by
  simpa using le_total p.1 q.1

theorem byKey_sorted (l : List (κ × ν)) : (byKey l).Pairwise fun p q => p.1 ≤ q.1 :=
  (List.pairwise_mergeSort keys_le_trans keys_le_total l).imp of_decide_eq_true

/-- Pairs under one key are in order already, so the sort keeps them as they are. -/
theorem valuesOf_byKey (key : κ) (l : List (κ × ν)) : valuesOf key (byKey l) = valuesOf key l := by
  have hkey : ∀ p ∈ l.filter (·.1 = key), p.1 = key := fun p hp => by
    simpa using (List.mem_filter.mp hp).2
  have hkept : (l.filter (·.1 = key)).Sublist (byKey l) :=
    List.sublist_mergeSort keys_le_trans keys_le_total
      (List.pairwise_of_forall_mem_list fun p hp q hq => by simp [hkey p hp, hkey q hq])
      List.filter_sublist
  have hsub := hkept.filter (·.1 = key)
  simp only [List.filter_filter, Bool.and_self] at hsub
  have hperm : ((byKey l).filter (·.1 = key)).Perm (l.filter (·.1 = key)) :=
    (List.mergeSort_perm l _).filter _
  rw [valuesOf, valuesOf, hsub.eq_of_length hperm.length_eq.symm]

theorem le_of_valuesOf {p : κ × ν} {l : List (κ × ν)}
    (hl : (p :: l).Pairwise fun p q => p.1 ≤ q.1) {key : κ} (h : valuesOf key (p :: l) ≠ []) :
    p.1 ≤ key := by
  obtain ⟨v, hv⟩ := List.exists_mem_of_ne_nil _ h
  obtain ⟨q, hq, -⟩ := List.mem_map.mp hv
  obtain ⟨hmem, hkey⟩ := List.mem_filter.mp hq
  obtain rfl : q.1 = key := by simpa using hkey
  rcases List.mem_cons.mp hmem with rfl | hmem
  · exact le_refl _
  · exact (List.pairwise_cons.mp hl).1 q hmem

end

theorem beq_iff_forall₂ [BEq α] {l m : List α} :
    (l == m) = true ↔ List.Forall₂ (fun a b => (a == b) = true) l m := by
  induction l generalizing m with
  | nil => cases m <;> simp
  | cons a l ih => cases m <;> simp [ih]

section

variable [LinearOrder κ] [BEq ν]

/-- Pairs are compared by key and by value. -/
theorem pair_beq {p q : κ × ν} : (p == q) = true ↔ p.1 = q.1 ∧ (p.2 == q.2) = true := by
  show (p.1 == q.1 && p.2 == q.2) = true ↔ _
  rw [Bool.and_eq_true, beq_iff_eq]

theorem forall₂_valuesOf {l m : List (κ × ν)}
    (h : List.Forall₂ (fun p q => (p == q) = true) l m) (key : κ) :
    List.Forall₂ (fun v w => (v == w) = true) (valuesOf key l) (valuesOf key m) := by
  induction h with
  | nil => exact .nil
  | cons hpq _ ih =>
    obtain ⟨hkey, hvalue⟩ := pair_beq.mp hpq
    rw [valuesOf_cons, valuesOf_cons, hkey]
    split
    · exact .cons hvalue ih
    · exact ih

/-- Sorted lists that agree under every key agree: were their first keys different, the smaller one
would be missing from the other list. -/
theorem forall₂_of_valuesOf {l m : List (κ × ν)} (hl : l.Pairwise fun p q => p.1 ≤ q.1)
    (hm : m.Pairwise fun p q => p.1 ≤ q.1)
    (h : ∀ key, List.Forall₂ (fun v w => (v == w) = true) (valuesOf key l) (valuesOf key m)) :
    List.Forall₂ (fun p q => (p == q) = true) l m := by
  induction l generalizing m with
  | nil =>
    cases m with
    | nil => exact .nil
    | cons q m => exact absurd (valuesOf_self q m ▸ h q.1) (by nofun)
  | cons p l ih =>
    cases m with
    | nil => exact absurd (valuesOf_self p l ▸ h p.1) (by nofun)
    | cons q m =>
      have hp := h p.1
      have hq := h q.1
      have hkey : p.1 = q.1 := by
        refine le_antisymm (le_of_valuesOf hl fun hnil => ?_) (le_of_valuesOf hm fun hnil => ?_)
        · rw [hnil, valuesOf_self] at hq
          cases hq
        · rw [hnil, valuesOf_self] at hp
          cases hp
      rw [valuesOf_self, hkey, valuesOf_self] at hp
      obtain ⟨hvalue, -⟩ := List.forall₂_cons.mp hp
      refine .cons (pair_beq.mpr ⟨hkey, hvalue⟩)
        (ih (List.pairwise_cons.mp hl).2 (List.pairwise_cons.mp hm).2 fun key => ?_)
      have hrest := h key
      rw [valuesOf_cons, valuesOf_cons, hkey] at hrest
      split at hrest
      · exact (List.forall₂_cons.mp hrest).2
      · exact hrest

/-- The comparison by key accepts two lists exactly if they hold equal values under every key, in
the same order. Then one can be rearranged to equal the other, so that no pair is missing, extra or
repeated. -/
theorem keyedEqual_iff (actual expected : List (κ × ν)) :
    (keyedEqual actual expected = true ↔
      ∀ key, (valuesOf key actual == valuesOf key expected) = true) ∧
    (keyedEqual actual expected = true →
      ∃ rearranged, rearranged.Perm actual ∧ (rearranged == expected) = true) := by
  have hsorted : keyedEqual actual expected = true ↔
      List.Forall₂ (fun p q => (p == q) = true) (byKey actual) (byKey expected) := by
    rw [← beq_iff_forall₂, ← equal_eq_beq]
    rfl
  refine ⟨hsorted.trans ⟨fun h key => ?_, fun h => ?_⟩, fun h => ?_⟩
  · have hvalues := forall₂_valuesOf h key
    rw [valuesOf_byKey, valuesOf_byKey] at hvalues
    exact beq_iff_forall₂.mpr hvalues
  · refine forall₂_of_valuesOf (byKey_sorted actual) (byKey_sorted expected) fun key => ?_
    rw [valuesOf_byKey, valuesOf_byKey]
    exact beq_iff_forall₂.mp (h key)
  · obtain ⟨rearranged, hperm, hequal⟩ : Relation.Comp List.Perm
        (List.Forall₂ fun p q : κ × ν => (p == q) = true) (byKey actual) expected := by
      rw [← List.forall₂_comp_perm_eq_perm_comp_forall₂]
      exact ⟨byKey expected, hsorted.mp h, List.mergeSort_perm _ _⟩
    exact ⟨rearranged, hperm.symm.trans (List.mergeSort_perm _ _), beq_iff_forall₂.mpr hequal⟩

end

section

variable [DecidableEq α]

/-- What the counter of an element shows; an element without one has not been counted. -/
def shown (counts : Table α Int) (a : α) : Int := (Table.find? a counts).getD 0

theorem shown_tally (step : Int) (counts : Table α Int) (elements : List α) (a : α) :
    shown (tally step counts elements) a = shown counts a + step * elements.count a := by
  induction elements generalizing counts with
  | nil => simp [tally]
  | cons b rest ih =>
    rw [tally, List.foldl_cons, ← tally, ih, List.count_cons, shown, Table.find?_alter]
    by_cases h : b = a
    · simp only [h, if_true, Option.getD_some, beq_self_eq_true, Int.natCast_add, Int.natCast_one,
        Int.mul_add, Int.mul_one, shown]
      omega
    · simp [h, shown]

theorem nodup_tally (step : Int) {counts : Table α Int} (h : (counts.map Prod.fst).Nodup)
    (elements : List α) : ((tally step counts elements).map Prod.fst).Nodup := by
  induction elements generalizing counts with
  | nil => exact h
  | cons b rest ih => exact ih (Table.nodup_alter h b _)

/-- No entry is out of bounds exactly if no counter is: a counter that is not there shows zero. -/
theorem isEmpty_filter_iff {counts : Table α Int} (h : (counts.map Prod.fst).Nodup)
    (out : Int → Bool) (hzero : out 0 = false) :
    (counts.filter fun p => out p.2).isEmpty = true ↔ ∀ a, out (shown counts a) = false := by
  rw [List.isEmpty_iff, List.filter_eq_nil_iff]
  refine ⟨fun hnone a => ?_, fun hshown p hp => ?_⟩
  · cases hfind : Table.find? a counts with
    | none => simpa [shown, hfind] using hzero
    | some n => simpa [shown, hfind] using hnone (a, n) (Table.mem_of_find? hfind)
  · have hfind := Table.find?_of_mem h hp
    simpa [shown, hfind] using hshown p.1

theorem nodup_tally_nil (step : Int) (elements : List α) :
    ((tally step [] elements).map Prod.fst).Nodup :=
  nodup_tally step (by simp) elements

theorem shown_tally_nil (step : Int) (elements : List α) (a : α) :
    shown (tally step [] elements) a = step * elements.count a :=
  (shown_tally step [] elements a).trans (Int.zero_add _)

theorem shown_balances (actual expected : List α) (a : α) :
    shown (balances actual expected) a = expected.count a - actual.count a := by
  rw [balances, shown_tally, shown_tally_nil]
  omega

theorem unordered_iff (actual expected : List α) :
    unordered actual expected = true ↔ actual.Perm expected := by
  have hnodup : ((balances actual expected).map Prod.fst).Nodup :=
    nodup_tally _ (nodup_tally_nil _ _) _
  rw [unordered, Bool.and_eq_true,
    isEmpty_filter_iff hnodup (fun n => decide (0 < n)) (by decide),
    isEmpty_filter_iff hnodup (fun n => decide (n < 0)) (by decide), List.perm_iff_count]
  simp only [shown_balances, decide_eq_false_iff_not]
  refine ⟨fun ⟨hmissing, hextra⟩ a => ?_, fun h => ⟨fun a => ?_, fun a => ?_⟩⟩
  · have hm := hmissing a
    have he := hextra a
    omega
  · rw [h a]
    omega
  · rw [h a]
    omega

/-- No counter shows more than one exactly if no element is repeated. -/
theorem isEmpty_repeated_iff (elements : List α) :
    ((tally 1 [] elements).filter fun p => 1 < p.2).isEmpty = true ↔ elements.Nodup := by
  rw [isEmpty_filter_iff (nodup_tally_nil 1 elements) (fun n => decide (1 < n)) (by decide),
    List.nodup_iff_count_le_one]
  refine forall_congr' fun a => ?_
  rw [shown_tally_nil, decide_eq_false_iff_not]
  omega

end

section

variable [DecidableEq κ]

/-- The keys of some envelopes, each once for every window listed with it. -/
def listings (output : List (Envelope (κ × ν))) : List (κ × Window) :=
  output.flatMap fun e => e.windows.map fun w => (e.value.1, w)

theorem paneCounts_eq (output : List (Envelope (κ × ν))) :
    paneCounts output = tally 1 [] (listings output) := by
  simp only [paneCounts, tally, listings, List.foldl_flatMap]

theorem singleOnTimePanes_iff (output : List (Envelope (κ × ν))) :
    singleOnTimePanes output = true ↔
      (∀ e ∈ output, e.pane.timing = .onTime) ∧ (listings output).Nodup := by
  rw [singleOnTimePanes, Bool.and_eq_true, paneCounts_eq, isEmpty_repeated_iff, List.all_eq_true]
  simp only [decide_eq_true_eq]

end

/-- The comparison up to order accepts exactly the rearrangements of a list, and the check of single
panes exactly the outputs in which every pane is on time and no key is listed twice with a window,
in one envelope or in several. -/
theorem unordered_and_panes_exact (α κ ν : Type) [DecidableEq α] [DecidableEq κ] :
    (∀ actual expected : List α, unordered actual expected = true ↔ actual.Perm expected) ∧
    ∀ output : List (Envelope (κ × ν)), singleOnTimePanes output = true ↔
      (∀ e ∈ output, e.pane.timing = .onTime) ∧ (listings output).Nodup :=
  ⟨unordered_iff, singleOnTimePanes_iff⟩

end EventTime.Check
