import EventTime.Window.Map

/-!
# Entries and keys of a map

What a map lists is what it answers: an entry is a value found under its window, and a key is a
window under which something is found. Folding `erase` over windows removes exactly these.
-/

namespace EventTime.WindowMap

variable {α : Type}

theorem mem_of_findIn {w : Window} {a : α} {l : List (Window × α)} (h : findIn w l = some a) :
    (w, a) ∈ l := by
  induction l with
  | nil => simp [findIn] at h
  | cons q rest ih =>
    obtain ⟨v, b⟩ := q
    by_cases hv : v = w
    · simp only [findIn, hv, if_true, Option.some.injEq] at h
      rw [hv, h]
      exact List.mem_cons_self ..
    · simp only [findIn, hv, if_false] at h
      exact List.mem_cons_of_mem _ (ih h)

theorem findIn_of_mem {w : Window} {a : α} {l : List (Window × α)}
    (hl : l.Pairwise fun p q => p.1 < q.1) (h : (w, a) ∈ l) : findIn w l = some a := by
  induction l with
  | nil => simp at h
  | cons q rest ih =>
    obtain ⟨hq, hrest⟩ := List.pairwise_cons.mp hl
    rcases List.mem_cons.mp h with heq | hmem
    · rw [← heq]
      simp [findIn]
    · have hne : q.1 ≠ w := fun e => Window.lt_irrefl w (by simpa [e] using hq _ hmem)
      simp only [findIn, hne, if_false]
      exact ih hrest hmem

theorem mem_entries {m : WindowMap α} {w : Window} {a : α} :
    (w, a) ∈ m.entries ↔ m.find? w = some a :=
  ⟨findIn_of_mem m.sorted, mem_of_findIn⟩

theorem find?_of_mem {m : WindowMap α} {p : Window × α} (h : p ∈ m.entries) :
    m.find? p.1 = some p.2 :=
  mem_entries.mp h

theorem mem_keys {m : WindowMap α} {w : Window} : w ∈ m.keys ↔ ∃ a, m.find? w = some a := by
  constructor
  · intro h
    obtain ⟨⟨v, a⟩, hmem, rfl⟩ := List.mem_map.mp h
    exact ⟨a, mem_entries.mp hmem⟩
  · rintro ⟨a, h⟩
    exact List.mem_map.mpr ⟨(w, a), mem_entries.mpr h, rfl⟩

theorem keys_sorted (m : WindowMap α) : m.keys.Pairwise (· < ·) :=
  List.pairwise_map.mpr m.sorted

theorem nodup_keys (m : WindowMap α) : m.keys.Nodup := by
  refine List.Pairwise.imp ?_ m.keys_sorted
  rintro w _ hlt rfl
  exact Window.lt_irrefl w hlt

theorem contains_iff {m : WindowMap α} {w : Window} :
    m.contains w = true ↔ ∃ a, m.find? w = some a :=
  Option.isSome_iff_exists

theorem insert_find? {m : WindowMap α} {w : Window} {a : α} (h : m.find? w = some a) :
    m.insert w a = m :=
  ext_find? fun v => by
    rw [find?_insert]
    split
    · rename_i e
      rw [← e, h]
    · rfl

theorem findIn_map {β : Type} (f : α → β) (w : Window) (l : List (Window × α)) :
    findIn w (l.map fun p => (p.1, f p.2)) = (findIn w l).map f := by
  induction l with
  | nil => rfl
  | cons q rest ih =>
    simp only [List.map_cons, findIn, ih]
    split <;> rfl

/-- Maps that answer alike, one up to `f` and the other up to `g`, hold the same values up to `f` and
`g`, in the same order. -/
theorem map_values_congr {β γ : Type} {f : α → γ} {g : β → γ} {m : WindowMap α} {n : WindowMap β}
    (h : ∀ w, (m.find? w).map f = (n.find? w).map g) :
    (m.entries.map (·.2)).map f = (n.entries.map (·.2)).map g := by
  have hentries : (m.entries.map fun p => (p.1, f p.2)) = n.entries.map fun p => (p.1, g p.2) :=
    eq_of_findIn_eq (List.pairwise_map.mpr m.sorted) (List.pairwise_map.mpr n.sorted) fun w => by
      rw [findIn_map, findIn_map]
      exact h w
  have hvalues := congrArg (List.map (·.2)) hentries
  rw [List.map_map, List.map_map] at hvalues ⊢
  exact hvalues

theorem insertIn_of_findIn {w : Window} {a b : α} {l : List (Window × α)}
    (hl : l.Pairwise fun p q => p.1 < q.1) (h : findIn w l = some a) :
    insertIn w b l = l.map fun p => if p.1 = w then (w, b) else p := by
  induction l with
  | nil => simp [findIn] at h
  | cons q rest ih =>
    obtain ⟨v, c⟩ := q
    obtain ⟨hq, hrest⟩ := List.pairwise_cons.mp hl
    by_cases hv : v = w
    · have hmap : (rest.map fun p => if p.1 = w then (w, b) else p) = rest := by
        refine (List.map_congr_left fun p hp => ?_).trans (List.map_id rest)
        have hlt := hq p hp
        rw [if_neg fun e => Window.lt_irrefl w (by simpa [e, hv] using hlt), id]
      subst hv
      simp [insertIn, Window.lt_irrefl, hmap]
    · have hmem := mem_of_findIn (l := rest) (by simpa [findIn, hv] using h)
      have hlt : ¬w < v := Window.lt_asymm (hq _ hmem)
      simp only [insertIn, hlt, if_false, Ne.symm hv, List.map_cons, hv]
      rw [ih hrest (by simpa [findIn, hv] using h)]

theorem entries_insert {m : WindowMap α} {w : Window} {a b : α} (h : m.find? w = some a) :
    (m.insert w b).entries = m.entries.map fun p => if p.1 = w then (w, b) else p :=
  insertIn_of_findIn m.sorted h

theorem find?_foldl_insert {β : Type} (f : α → β) {l : List (Window × α)}
    (hl : l.Pairwise fun p q => p.1 < q.1) (m : WindowMap β) (w : Window) :
    (l.foldl (fun m p => m.insert p.1 (f p.2)) m).find? w = ((findIn w l).map f).or (m.find? w) := by
  induction l generalizing m with
  | nil => rfl
  | cons q rest ih =>
    obtain ⟨hq, hrest⟩ := List.pairwise_cons.mp hl
    rw [List.foldl_cons, ih hrest, find?_insert]
    by_cases h : q.1 = w
    · have hnone : findIn w rest = none := findIn_eq_none_of_lt fun p hp => h ▸ hq p hp
      simp [findIn, h, hnone]
    · simp [findIn, h]

theorem find?_foldl_erase (olds : List Window) (m : WindowMap α) (w : Window) :
    (olds.foldl WindowMap.erase m).find? w = if w ∈ olds then none else m.find? w := by
  induction olds generalizing m with
  | nil => rfl
  | cons v olds ih =>
    rw [List.foldl_cons, ih, WindowMap.find?_erase]
    by_cases hw : w ∈ olds
    · rw [if_pos hw, if_pos (List.mem_cons_of_mem _ hw)]
    · rw [if_neg hw]
      by_cases hvw : v = w
      · rw [if_pos hvw, if_pos (hvw ▸ List.mem_cons_self ..)]
      · have hout : w ∉ v :: olds := fun h => (List.mem_cons.mp h).elim (hvw ·.symm) hw
        rw [if_neg hvw, if_neg hout]

/-- To put back what a map holds for some windows, the last one first, makes another map agree with
it on these windows, also if some are listed twice. -/
theorem find?_foldr_set (m m' : WindowMap α) (windows : List Window) (w : Window) :
    ((windows.map fun v => (v, m.find? v)).foldr (fun p n => n.set p.1 p.2) m').find? w =
      if w ∈ windows then m.find? w else m'.find? w := by
  induction windows with
  | nil => rfl
  | cons v rest ih =>
    rw [List.map_cons, List.foldr_cons, find?_set, ih]
    by_cases hv : v = w
    · simp [hv]
    · simp [hv, Ne.symm hv]

end EventTime.WindowMap

namespace EventTime.WindowSet

theorem mem_keys_add {active : WindowSet} {v w : Window} :
    w ∈ (active.add v).keys ↔ w = v ∨ w ∈ active.keys := by
  simp only [WindowMap.mem_keys, WindowSet.add, WindowMap.find?_insert]
  by_cases hvw : v = w
  · simp [hvw]
  · simp [hvw, Ne.symm hvw]

end EventTime.WindowSet
