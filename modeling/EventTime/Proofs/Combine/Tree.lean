import EventTime.Pipeline.CombineTree
import EventTime.Proofs.Combine.Contract
import EventTime.Proofs.Listings
import EventTime.Proofs.Pipeline.Table

/-!
# The combine tree

A partial result stands for values of keys in windows: it has an accumulator exactly where there are
values, and the accumulator stands for them in order. Adding a bundle establishes this, a round of
merges keeps it, and so what the rounds leave stands for the values of all bundles in order.
-/

namespace EventTime

variable {κ ν α ο : Type} [DecidableEq κ]

/-- A partial result has an accumulator for each key and window that has values, and no other. -/
structure Partials.StandsFor (R : κ → α → List ν → Prop) (partials : Partials κ α)
    (values : κ → Window → List ν) : Prop where
  nodup : (partials.map Prod.fst).Nodup
  absent : ∀ {k w}, Table.find? (k, w) partials = none → values k w = []
  present : ∀ {k w a}, Table.find? (k, w) partials = some a → values k w ≠ [] ∧ R k a (values k w)

variable {R : κ → α → List ν → Prop} {f : KeyedCombineFn κ ν α ο}

/-- The values with one more for a key in a window. -/
def addValue (key : κ) (value : ν) (values : κ → Window → List ν) (w : Window) :
    κ → Window → List ν :=
  fun k v => if (key, w) = (k, v) then values k v ++ [value] else values k v

namespace Partials.StandsFor

variable {partials : Partials κ α} {values : κ → Window → List ν}

theorem empty : StandsFor R ([] : Partials κ α) fun _ _ => [] where
  nodup := List.nodup_nil
  absent _ := rfl
  present h := nomatch h

theorem addTo (hf : f.Tracks R) (h : StandsFor R partials values) (key : κ) (value : ν)
    (w : Window) : StandsFor R (addTo f key value partials w) (addValue key value values w) where
  nodup := Table.nodup_alter h.nodup _ _
  absent {k v} hnone := by
    rw [EventTime.addTo, Table.find?_alter] at hnone
    by_cases hk : (key, w) = (k, v)
    · simp [hk] at hnone
    · rw [if_neg hk] at hnone
      rw [addValue, if_neg hk]
      exact h.absent hnone
  present {k v a} hsome := by
    rw [EventTime.addTo, Table.find?_alter] at hsome
    by_cases hk : (key, w) = (k, v)
    · rw [if_pos hk] at hsome
      rw [addValue, if_pos hk]
      obtain ⟨rfl, rfl⟩ := Prod.mk.inj hk
      refine ⟨by simp, ?_⟩
      rw [← Option.some.inj hsome]
      refine hf.add ?_ value
      cases hfind : Table.find? (key, w) partials with
      | none =>
        rw [h.absent hfind]
        exact hf.create key
      | some b => exact (h.present hfind).2
    · rw [if_neg hk] at hsome
      rw [addValue, if_neg hk]
      exact h.present hsome

theorem addToEach (hf : f.Tracks R) (h : StandsFor R partials values) (key : κ) (value : ν)
    (windows : List Window) :
    StandsFor R (windows.foldl (EventTime.addTo f key value) partials)
      (windows.foldl (addValue key value) values) := by
  induction windows generalizing partials values with
  | nil => exact h
  | cons w rest ih => exact ih (h.addTo hf key value w)

end Partials.StandsFor

theorem foldl_addValue (key : κ) (value : ν) (windows : List Window)
    (values : κ → Window → List ν) (k : κ) (w : Window) :
    windows.foldl (addValue key value) values k w =
      values k w ++ if key = k then List.replicate (windows.count w) value else [] := by
  induction windows generalizing values with
  | nil => simp
  | cons v rest ih =>
    rw [List.foldl_cons, ih, List.count_cons, addValue]
    by_cases hk : key = k
    · by_cases hv : v = w
      · simp [hk, hv, List.replicate_succ]
      · simp [hk, hv]
    · simp [hk]

theorem addRows_concat (f : KeyedCombineFn κ ν α ο) (rows : List (Envelope (κ × ν)))
    (e : Envelope (κ × ν)) :
    addRows f (rows ++ [e]) = e.windows.foldl (addTo f e.value.1 e.value.2) (addRows f rows) := by
  rw [addRows, List.foldl_append]
  rfl

theorem standsFor_addRows (hf : f.Tracks R) (rows : List (Envelope (κ × ν))) :
    Partials.StandsFor R (addRows f rows) fun k w => valuesAt k w rows := by
  induction rows using List.reverseRecOn with
  | nil => exact .empty
  | append_singleton rows e ih =>
    have h := ih.addToEach hf e.value.1 e.value.2 e.windows
    rw [← addRows_concat] at h
    have heq : (fun k w => valuesAt k w (rows ++ [e])) =
        e.windows.foldl (addValue e.value.1 e.value.2) fun k w => valuesAt k w rows := by
      funext k w
      rw [foldl_addValue, valuesAt_append, valuesAt_singleton]
    rwa [heq]

/-- The values of several partial results, one result after another. -/
def joinValues (parts : List (κ → Window → List ν)) : κ → Window → List ν :=
  fun k w => (parts.map fun values => values k w).flatten

theorem forall₂_accumulators {parts : List (Partials κ α)} {valuess : List (κ → Window → List ν)}
    (h : List.Forall₂ (Partials.StandsFor R) parts valuess) (k : κ) (w : Window) :
    ∃ ls, List.Forall₂ (R k) ((parts.flatten.filter (·.1 = (k, w))).map Prod.snd) ls ∧
      ls.flatten = joinValues valuess k w ∧ ∀ l ∈ ls, l ≠ [] := by
  induction h with
  | nil => exact ⟨[], .nil, rfl, by simp⟩
  | @cons partials values parts valuess hp _ ih =>
    obtain ⟨ls, hall, hflat, hne⟩ := ih
    rw [List.flatten_cons, List.filter_append, List.map_append, Table.filter_eq_find? hp.nodup]
    cases hfind : Table.find? (k, w) partials with
    | none =>
      refine ⟨ls, hall, ?_, hne⟩
      simp only [joinValues, List.map_cons, List.flatten_cons, hp.absent hfind, List.nil_append]
      exact hflat
    | some a =>
      obtain ⟨hvalues, ha⟩ := hp.present hfind
      refine ⟨values k w :: ls, .cons ha hall, ?_, ?_⟩
      · rw [List.flatten_cons, hflat]
        rfl
      · intro l hl
        rcases List.mem_cons.mp hl with rfl | hl
        · exact hvalues
        · exact hne l hl

theorem find?_mergePartials (f : KeyedCombineFn κ ν α ο) (parts : List (Partials κ α)) (k : κ)
    (w : Window) :
    Table.find? (k, w) (mergePartials f parts) =
      (Table.find? (k, w) (Table.gather parts.flatten)).map (f.merge k) :=
  Table.find?_map (fun (key : κ × Window) accs => f.merge key.1 accs) ..

theorem standsFor_mergePartials (hf : f.Tracks R) {parts : List (Partials κ α)}
    {valuess : List (κ → Window → List ν)}
    (h : List.Forall₂ (Partials.StandsFor R) parts valuess) :
    (mergePartials f parts).StandsFor R (joinValues valuess) where
  nodup := by
    rw [mergePartials, Table.map_fst_map fun (key : κ × Window) accs => f.merge key.1 accs]
    exact Table.nodup_gather _
  absent {k w} hnone := by
    obtain ⟨ls, hall, hflat, -⟩ := forall₂_accumulators h k w
    rw [find?_mergePartials, Table.find?_gather] at hnone
    generalize (parts.flatten.filter (·.1 = (k, w))).map Prod.snd = accs at hall hnone
    cases hall with
    | nil => exact hflat.symm
    | cons => simp at hnone
  present {k w a} hsome := by
    obtain ⟨ls, hall, hflat, hne⟩ := forall₂_accumulators h k w
    rw [find?_mergePartials, Table.find?_gather] at hsome
    rw [← hflat]
    generalize (parts.flatten.filter (·.1 = (k, w))).map Prod.snd = accs at hall hsome
    cases hall with
    | nil => simp at hsome
    | @cons b l accs ls hb hall =>
      obtain rfl : f.merge k (b :: accs) = a := Option.some.inj hsome
      refine ⟨?_, hf.merge (by simp) (.cons hb hall)⟩
      intro hnil
      exact hne l (by simp) (List.append_eq_nil_iff.mp hnil).1

theorem forall₂_chunks {β γ : Type} {r : β → γ → Prop} (n : Nat) {l : List β} {m : List γ}
    (h : List.Forall₂ r l m) : List.Forall₂ (List.Forall₂ r) (chunks n l) (chunks n m) := by
  fun_induction chunks n l generalizing m with
  | case1 =>
    cases h
    rw [chunks]
    exact .nil
  | case2 a rest ih =>
    cases h with
    | cons hab hrest =>
      rw [chunks]
      exact .cons (.cons hab (List.forall₂_take _ hrest)) (ih (List.forall₂_drop _ hrest))

omit [DecidableEq κ] in
theorem joinValues_flatten (groups : List (List (κ → Window → List ν))) :
    joinValues (groups.map joinValues) = joinValues groups.flatten := by
  funext k w
  simp only [joinValues, List.map_map, List.map_flatten, List.flatten_flatten]
  rfl

/-- Rounds of merges end with a partial result that stands for the values of all parts, in order,
whatever the width. -/
theorem standsFor_mergeRounds (hf : f.Tracks R) (width : Option Nat) {parts : List (Partials κ α)}
    {valuess : List (κ → Window → List ν)}
    (h : List.Forall₂ (Partials.StandsFor R) parts valuess) :
    (mergeRounds width (mergePartials f) parts).StandsFor R (joinValues valuess) := by
  fun_induction mergeRounds width (mergePartials f) parts generalizing valuess with
  | case1 => exact standsFor_mergePartials hf h
  | case2 b =>
    cases h with
    | @cons _ values _ _ hb hrest =>
      cases hrest
      have hone : joinValues [values] = values := by
        funext k w
        simp [joinValues]
      rwa [hone]
  | case3 a b rest ih =>
    have hchunks := forall₂_chunks (roundWidth width (rest.length + 2)) h
    have hmerged : List.Forall₂ (Partials.StandsFor R)
        ((chunks (roundWidth width (rest.length + 2)) (a :: b :: rest)).map (mergePartials f))
        ((chunks (roundWidth width (rest.length + 2)) valuess).map joinValues) := by
      rw [List.forall₂_map_left_iff, List.forall₂_map_right_iff]
      exact hchunks.imp fun _ _ hpart => standsFor_mergePartials hf hpart
    have := ih hmerged
    rwa [joinValues_flatten, flatten_chunks] at this

omit [DecidableEq κ] in
theorem map_extractAll (f : KeyedCombineFn κ ν α ο) (partials : Partials κ α) :
    (extractAll f partials).map (fun e => (e.value.1, e.windows)) =
      (partials.map Prod.fst).map fun key => (key.1, [key.2]) := by
  rw [extractAll, List.map_map, List.map_map]
  rfl

theorem Partials.StandsFor.nodup_extractAll {partials : Partials κ α}
    {values : κ → Window → List ν} (h : partials.StandsFor R values)
    (f : KeyedCombineFn κ ν α ο) :
    ((extractAll f partials).map fun e => (e.value.1, e.windows)).Nodup := by
  rw [map_extractAll]
  refine h.nodup.map fun a b hab => ?_
  obtain ⟨hkey, hwindow⟩ := Prod.mk.inj hab
  exact Prod.ext hkey (List.singleton_inj.mp hwindow)

theorem Partials.StandsFor.mem_extractAll {partials : Partials κ α}
    {values : κ → Window → List ν} (h : partials.StandsFor R values)
    {f : KeyedCombineFn κ ν α ο} {e : Envelope (κ × ο)} :
    e ∈ extractAll f partials ↔ ∃ k w a, Table.find? (k, w) partials = some a ∧
      e = .ofPane (k, f.extract k a) w .onTimeAndOnly := by
  constructor
  · intro he
    obtain ⟨⟨⟨k, w⟩, a⟩, hmem, rfl⟩ := List.mem_map.mp he
    exact ⟨k, w, a, Table.find?_of_mem h.nodup hmem, rfl⟩
  · rintro ⟨k, w, a, hfind, rfl⟩
    exact List.mem_map.mpr ⟨((k, w), a), Table.mem_of_find? hfind, rfl⟩

theorem combineBundles_eq (hf : f.Tracks R) (width : Option Nat)
    (bundles : List (List (Envelope (κ × ν)))) :
    ∃ partials : Partials κ α, combineBundles f width bundles = extractAll f partials ∧
      partials.StandsFor R fun k w => valuesAt k w bundles.flatten := by
  have hparts : List.Forall₂ (Partials.StandsFor R) (bundles.map (addRows f))
      (bundles.map fun rows k w => valuesAt k w rows) := by
    rw [List.forall₂_map_left_iff, List.forall₂_map_right_iff]
    exact List.forall₂_same.mpr fun rows _ => standsFor_addRows hf rows
  refine ⟨_, rfl, ?_⟩
  have h := standsFor_mergeRounds hf width hparts
  have heq : joinValues (bundles.map fun rows k w => valuesAt k w rows) =
      fun k w => valuesAt k w bundles.flatten := by
    funext k w
    rw [valuesAt_flatten, joinValues, List.map_map]
    rfl
  rwa [heq] at h

end EventTime
