import Mathlib.Data.List.Forall2
import Mathlib.Data.List.Induction

/-!
# What holds at some or every place of a list

A place of a list is an element together with those before it. A list that grows at its end keeps
its places and gets one more. What every element has can be listed in the order of the elements,
and where two lists stand side by side every element has a partner.
-/

namespace EventTime

variable {α : Type} {P : List α → α → Prop} {front : List α} {last : α}

theorem not_exists_split_nil : ¬∃ past a rest, ([] : List α) = past ++ a :: rest ∧ P past a := by
  rintro ⟨past, a, rest, heq, -⟩
  cases past <;> cases heq

theorem exists_split_concat : (∃ past a rest, front ++ [last] = past ++ a :: rest ∧ P past a) ↔
    (∃ past a rest, front = past ++ a :: rest ∧ P past a) ∨ P front last := by
  constructor
  · rintro ⟨past, a, rest, heq, ha⟩
    rcases List.eq_nil_or_concat rest with rfl | ⟨rest', b, rfl⟩
    · obtain ⟨rfl, hlast⟩ := List.append_inj' heq rfl
      obtain rfl := (List.cons.inj hlast).1
      exact .inr ha
    · rw [List.concat_eq_append, ← List.cons_append, ← List.append_assoc] at heq
      obtain ⟨rfl, -⟩ := List.append_inj' heq rfl
      exact .inl ⟨past, a, rest', rfl, ha⟩
  · rintro (⟨past, a, rest, rfl, ha⟩ | ha)
    · exact ⟨past, a, rest ++ [last], by simp, ha⟩
    · exact ⟨front, last, [], rfl, ha⟩

theorem forall_split_nil (past : List α) (a : α) (rest : List α) (h : [] = past ++ a :: rest) :
    P past a :=
  absurd h (by cases past <;> nofun)

theorem forall_split_concat : (∀ past a rest, front ++ [last] = past ++ a :: rest → P past a) ↔
    (∀ past a rest, front = past ++ a :: rest → P past a) ∧ P front last := by
  have h : (¬∃ past a rest, front ++ [last] = past ++ a :: rest ∧ ¬P past a) ↔
      ¬((∃ past a rest, front = past ++ a :: rest ∧ ¬P past a) ∨ ¬P front last) :=
    not_congr exists_split_concat
  simpa only [not_or, not_exists, not_and, not_not] using h

theorem exists_forall₂ {β : Type} {r : α → β → Prop} {l : List α} (h : ∀ a ∈ l, ∃ b, r a b) :
    ∃ bs, List.Forall₂ r l bs := by
  induction l with
  | nil => exact ⟨[], .nil⟩
  | cons a rest ih =>
    obtain ⟨⟨b, hb⟩, hrest⟩ := List.forall_mem_cons.mp h
    obtain ⟨bs, hbs⟩ := ih hrest
    exact ⟨b :: bs, .cons hb hbs⟩

theorem exists_mem_left {β : Type} {r : α → β → Prop} {l : List α} {m : List β}
    (h : List.Forall₂ r l m) {b : β} (hb : b ∈ m) : ∃ a ∈ l, r a b := by
  induction h with
  | nil => cases hb
  | cons hab _ ih =>
    rcases List.mem_cons.mp hb with rfl | hb
    · exact ⟨_, List.mem_cons_self .., hab⟩
    · obtain ⟨a, ha, hr⟩ := ih hb
      exact ⟨a, List.mem_cons_of_mem _ ha, hr⟩

theorem exists_mem_right {β : Type} {r : α → β → Prop} {l : List α} {m : List β}
    (h : List.Forall₂ r l m) {a : α} (ha : a ∈ l) : ∃ b ∈ m, r a b :=
  exists_mem_left h.flip ha

end EventTime
