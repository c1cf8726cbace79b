/-!
# Tables by key

Entries under distinct keys, in the order in which the keys first arrived.
-/

namespace EventTime

variable {κ α β ν : Type}

/-- Entries under distinct keys, in order of arrival. -/
abbrev Table (κ α : Type) : Type := List (κ × α)

namespace Table

variable [DecidableEq κ]

/-- Change the entry of a key, or make one at the end. -/
def alter (k : κ) (f : Option α → α) : Table κ α → Table κ α
  | [] => [(k, f none)]
  | (j, a) :: rest => if j = k then (j, f (some a)) :: rest else (j, a) :: alter k f rest

def find? (k : κ) : Table κ α → Option α
  | [] => none
  | (j, a) :: rest => if j = k then some a else find? k rest

/-- Add a value to those listed under a key. -/
def append (t : Table κ (List ν)) (k : κ) (v : ν) : Table κ (List ν) :=
  t.alter k fun values => values.getD [] ++ [v]

/-- The values listed under each key, in order. -/
def gather (pairs : List (κ × ν)) : Table κ (List ν) :=
  pairs.foldl (fun t p => append t p.1 p.2) []

theorem find?_alter (k j : κ) (f : Option α → α) (t : Table κ α) :
    find? j (alter k f t) = if k = j then some (f (find? j t)) else find? j t := by
  induction t with
  | nil => simp [alter, find?]
  | cons p rest ih =>
    obtain ⟨i, a⟩ := p
    simp only [alter]
    split
    · rename_i h
      subst h
      simp only [find?]
      split <;> simp
    · rename_i h
      simp only [find?, ih]
      by_cases hij : i = j
      · subst hij
        simp [Ne.symm h]
      · simp [hij]

theorem find?_append (t : Table κ (List ν)) (k j : κ) (v : ν) :
    find? j (append t k v) =
      if k = j then some ((find? j t).getD [] ++ [v]) else find? j t :=
  find?_alter ..

end Table

end EventTime
