import EventTime.Window

/-!
# Maps keyed by window

A `WindowMap` is a list of entries in strictly ascending window order, so it is determined by the
values it answers (`ext_find?`). Every operation is described by what it does to `find?`.
-/

namespace EventTime

variable {α β : Type}

/-- The entries of a map from windows, in strictly ascending order of their windows. -/
structure WindowMap (α : Type) where
  entries : List (Window × α)
  sorted : entries.Pairwise fun p q => p.1 < q.1

namespace WindowMap

def findIn (w : Window) : List (Window × α) → Option α
  | [] => none
  | (v, a) :: rest => if v = w then some a else findIn w rest

/-- The entries with `w` set to `a`, at its place in the order. -/
def insertIn (w : Window) (a : α) : List (Window × α) → List (Window × α)
  | [] => [(w, a)]
  | (v, b) :: rest =>
    if w < v then (w, a) :: (v, b) :: rest
    else if w = v then (w, a) :: rest
    else (v, b) :: insertIn w a rest

def eraseIn (w : Window) (l : List (Window × α)) : List (Window × α) :=
  l.filter fun p => p.1 ≠ w

theorem mem_insertIn {w : Window} {a : α} {l : List (Window × α)} {p : Window × α}
    (h : p ∈ insertIn w a l) : p = (w, a) ∨ p ∈ l := by
  induction l with
  | nil => simpa [insertIn] using h
  | cons q rest ih =>
    obtain ⟨v, b⟩ := q
    simp only [insertIn] at h
    split at h
    · simpa using h
    · split at h
      · rcases List.mem_cons.mp h with h | h
        · exact .inl h
        · exact .inr (List.mem_cons_of_mem _ h)
      · rcases List.mem_cons.mp h with h | h
        · exact .inr (h ▸ List.mem_cons_self ..)
        · rcases ih h with h | h
          · exact .inl h
          · exact .inr (List.mem_cons_of_mem _ h)

theorem sorted_insertIn {w : Window} {a : α} {l : List (Window × α)}
    (h : l.Pairwise fun p q => p.1 < q.1) :
    (insertIn w a l).Pairwise fun p q => p.1 < q.1 := by
  induction l with
  | nil => simp [insertIn]
  | cons q rest ih =>
    obtain ⟨v, b⟩ := q
    obtain ⟨hhead, hrest⟩ := List.pairwise_cons.mp h
    simp only [insertIn]
    split
    · rename_i hwv
      refine List.pairwise_cons.mpr ⟨fun p hp => ?_, h⟩
      rcases List.mem_cons.mp hp with rfl | hp
      · exact hwv
      · exact Window.lt_trans hwv (hhead p hp)
    · rename_i hwv
      split
      · rename_i heq
        subst heq
        exact List.pairwise_cons.mpr ⟨hhead, hrest⟩
      · rename_i hne
        refine List.pairwise_cons.mpr ⟨fun p hp => ?_, ih hrest⟩
        rcases mem_insertIn hp with rfl | hp
        · rcases Window.lt_trichotomy v w with h' | h' | h'
          · exact h'
          · exact absurd h'.symm hne
          · exact absurd h' hwv
        · exact hhead p hp

theorem findIn_insertIn (w v : Window) (a : α) (l : List (Window × α)) :
    findIn v (insertIn w a l) = if w = v then some a else findIn v l := by
  induction l with
  | nil => simp [insertIn, findIn]
  | cons q rest ih =>
    obtain ⟨u, b⟩ := q
    simp only [insertIn]
    split
    · simp [findIn]
    · split
      · rename_i heq
        subst heq
        simp only [findIn]
        split <;> rfl
      · rename_i hne
        simp only [findIn, ih]
        by_cases huv : u = v
        · subst huv
          simp [hne]
        · simp [huv]

theorem findIn_eraseIn (w v : Window) (l : List (Window × α)) :
    findIn v (eraseIn w l) = if w = v then none else findIn v l := by
  induction l with
  | nil => simp [eraseIn, findIn]
  | cons q rest ih =>
    obtain ⟨u, b⟩ := q
    simp only [eraseIn] at ih ⊢
    by_cases huw : u = w
    · subst huw
      simp only [List.filter_cons, ne_eq, not_true_eq_false, decide_false, Bool.false_eq_true,
        if_false, ih, findIn]
      split <;> rfl
    · simp only [List.filter_cons, ne_eq, huw, not_false_eq_true, decide_true, if_true, findIn, ih]
      by_cases huv : u = v
      · subst huv
        simp [Ne.symm huw]
      · simp [huv]

theorem findIn_eq_none_of_lt {v : Window} {l : List (Window × α)}
    (h : ∀ p ∈ l, v < p.1) : findIn v l = none := by
  induction l with
  | nil => rfl
  | cons q rest ih =>
    have hne : q.1 ≠ v := fun e => Window.lt_irrefl v (e ▸ h q (List.mem_cons_self ..))
    simp only [findIn, hne, if_false]
    exact ih fun p hp => h p (List.mem_cons_of_mem _ hp)

theorem eq_of_findIn_eq {l m : List (Window × α)} (hl : l.Pairwise fun p q => p.1 < q.1)
    (hm : m.Pairwise fun p q => p.1 < q.1) (h : ∀ w, findIn w l = findIn w m) : l = m := by
  induction l generalizing m with
  | nil =>
    cases m with
    | nil => rfl
    | cons q rest => simpa [findIn] using h q.1
  | cons p rest ih =>
    obtain ⟨hp, hrest⟩ := List.pairwise_cons.mp hl
    cases m with
    | nil => simpa [findIn] using h p.1
    | cons q tail =>
      obtain ⟨hq, htail⟩ := List.pairwise_cons.mp hm
      have hpq : p.1 = q.1 := by
        rcases Window.lt_trichotomy p.1 q.1 with hlt | heq | hlt
        · have := h p.1
          rw [findIn_eq_none_of_lt (l := q :: tail) fun r hr => by
            rcases List.mem_cons.mp hr with rfl | hr
            · exact hlt
            · exact Window.lt_trans hlt (hq r hr)] at this
          simp [findIn] at this
        · exact heq
        · have := h q.1
          rw [findIn_eq_none_of_lt (l := p :: rest) fun r hr => by
            rcases List.mem_cons.mp hr with rfl | hr
            · exact hlt
            · exact Window.lt_trans hlt (hp r hr)] at this
          simp [findIn] at this
      have hval : p.2 = q.2 := by
        have := h p.1
        simpa [findIn, hpq] using this
      have htl : rest = tail := by
        refine ih hrest htail fun w => ?_
        by_cases hw : p.1 = w
        · rw [findIn_eq_none_of_lt fun r hr => hw ▸ hp r hr,
            findIn_eq_none_of_lt fun r hr => hw ▸ hpq ▸ hq r hr]
        · have := h w
          simpa [findIn, hw, hpq ▸ hw] using this
      rw [htl, Prod.ext hpq hval]

def empty : WindowMap α := ⟨[], .nil⟩

def find? (m : WindowMap α) (w : Window) : Option α := findIn w m.entries

def contains (m : WindowMap α) (w : Window) : Bool := (m.find? w).isSome

/-- The map that holds `a` for `w` and agrees with `m` elsewhere. -/
def insert (m : WindowMap α) (w : Window) (a : α) : WindowMap α :=
  ⟨insertIn w a m.entries, sorted_insertIn m.sorted⟩

/-- The map that holds nothing for `w` and agrees with `m` elsewhere. -/
def erase (m : WindowMap α) (w : Window) : WindowMap α :=
  ⟨eraseIn w m.entries, m.sorted.filter _⟩

/-- Hold exactly the value given for `w`, or nothing. -/
def set (m : WindowMap α) (w : Window) : Option α → WindowMap α
  | some a => m.insert w a
  | none => m.erase w

/-- Change the value held for `w`, if there is one. -/
def modify (m : WindowMap α) (w : Window) (f : α → α) : WindowMap α :=
  match m.find? w with
  | some a => m.insert w (f a)
  | none => m

def keys (m : WindowMap α) : List Window := m.entries.map Prod.fst

def size (m : WindowMap α) : Nat := m.entries.length

theorem ext_find? {m n : WindowMap α} (h : ∀ w, m.find? w = n.find? w) : m = n := by
  obtain ⟨l, hl⟩ := m
  obtain ⟨k, hk⟩ := n
  obtain rfl := eq_of_findIn_eq hl hk h
  rfl

@[simp] theorem find?_empty (w : Window) : (empty : WindowMap α).find? w = none := rfl

@[simp] theorem find?_insert (m : WindowMap α) (w v : Window) (a : α) :
    (m.insert w a).find? v = if w = v then some a else m.find? v :=
  findIn_insertIn ..

theorem find?_insert_self (m : WindowMap α) (w : Window) (a : α) :
    (m.insert w a).find? w = some a :=
  (find?_insert ..).trans (if_pos rfl)

theorem find?_insert_of_ne {w v : Window} (h : w ≠ v) (m : WindowMap α) (a : α) :
    (m.insert w a).find? v = m.find? v :=
  (find?_insert ..).trans (if_neg h)

@[simp] theorem find?_erase (m : WindowMap α) (w v : Window) :
    (m.erase w).find? v = if w = v then none else m.find? v :=
  findIn_eraseIn ..

@[simp] theorem find?_set (m : WindowMap α) (w v : Window) (a : Option α) :
    (m.set w a).find? v = if w = v then a else m.find? v := by
  cases a <;> simp [set]

@[simp] theorem find?_modify (m : WindowMap α) (w v : Window) (f : α → α) :
    (m.modify w f).find? v = if w = v then (m.find? v).map f else m.find? v := by
  unfold modify
  split
  · rename_i a ha
    by_cases hwv : w = v
    · subst hwv
      simp [ha]
    · simp [hwv]
  · rename_i hnone
    by_cases hwv : w = v
    · subst hwv
      simp [hnone]
    · simp [hwv]

end WindowMap

abbrev WindowSet := WindowMap Unit

def WindowSet.add (s : WindowSet) (w : Window) : WindowSet := s.insert w ()

end EventTime
