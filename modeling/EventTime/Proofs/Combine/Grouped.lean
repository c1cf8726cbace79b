import EventTime.Proofs.Combine.Bags

/-!
# Combining after grouping

Grouping shows the bags of every key in panes, and a combine after it reduces each pane. If the panes
of each key show each of its bags once, the results have one element for each bag of each key.
-/

namespace EventTime

variable {κ ν α ο : Type}

/-- Panes show each of the bags that `B` describes once. -/
structure Shows (panes : List (Pane ν)) (info : PaneInfo) (B : Window → Multiset ν → Prop) :
    Prop where
  nodup : (panes.map (·.window)).Nodup
  sound : ∀ pane ∈ panes, pane.info = info ∧ B pane.window pane.values
  complete : ∀ w m, B w m → ∃ pane ∈ panes, pane.window = w

variable {f : KeyedCombineFn κ ν α ο} {R : κ → α → Multiset ν → Prop} {strategy : Strategy}
  {input : InputWatermark} {info : PaneInfo} {B : List (Envelope ν) → Window → Multiset ν → Prop}

/-- The reduced groups of a key are the outputs of its bags. -/
structure KeyGroups (f : KeyedCombineFn κ ν α ο) (R : κ → α → Multiset ν → Prop)
    (info : PaneInfo) (B : Window → Multiset ν → Prop) (key : κ) (bags : List (Bag κ ν))
    (groups : List (Envelope (κ × List ν))) : Prop where
  outputs : List.Forall₂ (OutputOf f R info) bags (groups.map (reduced f))
  keys : ∀ c ∈ bags, c.key = key
  nodup : (bags.map (·.window)).Nodup
  sound : ∀ c ∈ bags, B c.window c.values
  complete : ∀ w m, B w m → ∃ c ∈ bags, c.window = w

theorem exists_keyGroups (hf : f.TracksBag R) (key : κ) {rows : List (Envelope ν)}
    (hrows : ∃ panes, Grouper.run strategy input rows = .ok panes ∧ Shows panes info (B rows)) :
    ∃ groups bags, panesOfKey strategy input key rows = .ok groups ∧
      KeyGroups f R info (B rows) key bags groups := by
  obtain ⟨panes, hrun, hpanes⟩ := hrows
  refine ⟨panes.map fun p => .ofPane (key, p.values) p.window p.info,
    panes.map fun p => ⟨key, p.window, p.values⟩, ?_, ?_, ?_, ?_, ?_, ?_⟩
  · simp only [panesOfKey, hrun]
  · rw [List.map_map, List.forall₂_map_left_iff, List.forall₂_map_right_iff, List.forall₂_same]
    intro pane hpane
    refine ⟨_, hf.tracks.addAll key pane.values, ?_⟩
    rw [← (hpanes.sound pane hpane).1]
    rfl
  · intro c hc
    obtain ⟨pane, -, rfl⟩ := List.mem_map.mp hc
    rfl
  · rw [List.map_map]
    exact hpanes.nodup
  · intro c hc
    obtain ⟨pane, hpane, rfl⟩ := List.mem_map.mp hc
    exact (hpanes.sound pane hpane).2
  · intro w m hbag
    obtain ⟨pane, hpane, hwindow⟩ := hpanes.complete w m hbag
    exact ⟨_, List.mem_map_of_mem hpane, hwindow⟩

theorem groups_of_table (hf : f.TracksBag R) {table : Table κ (List (Envelope ν))}
    (hnodup : (table.map Prod.fst).Nodup)
    (htable : ∀ p ∈ table, ∃ panes, Grouper.run strategy input p.2 = .ok panes ∧
      Shows panes info (B p.2)) :
    ∃ lists bags, table.mapM (fun p => panesOfKey strategy input p.1 p.2) = .ok lists ∧
      List.Forall₂ (OutputOf f R info) bags (lists.flatten.map (reduced f)) ∧
      (bags.map fun c => (c.key, c.window)).Nodup ∧
      (∀ c ∈ bags, ∃ rows, (c.key, rows) ∈ table ∧ B rows c.window c.values) ∧
      ∀ key rows w m, (key, rows) ∈ table → B rows w m → ∃ c ∈ bags, c.key = key ∧ c.window = w := by
  induction table with
  | nil => exact ⟨[], [], rfl, .nil, List.nodup_nil, by simp, by simp⟩
  | cons p rest ih =>
    obtain ⟨key, rows⟩ := p
    obtain ⟨hkey, hrest⟩ := List.nodup_cons.mp hnodup
    obtain ⟨groups, bags, hgroups, h⟩ := exists_keyGroups hf key (htable _ (List.mem_cons_self ..))
    obtain ⟨lists, others, hlists, houtputs, hpairs, hsound, hcomplete⟩ :=
      ih hrest fun p hp => htable p (List.mem_cons_of_mem _ hp)
    refine ⟨groups :: lists, bags ++ others, ?_, ?_, ?_, ?_, ?_⟩
    · rw [List.mapM_cons, hgroups, hlists]
      rfl
    · rw [List.flatten_cons, List.map_append]
      exact List.rel_append h.outputs houtputs
    · rw [List.map_append, List.nodup_append]
      refine ⟨?_, hpairs, ?_⟩
      · refine List.Nodup.of_map Prod.snd ?_
        rw [List.map_map]
        exact h.nodup
      · intro a ha b hb hab
        obtain ⟨c, hc, rfl⟩ := List.mem_map.mp ha
        obtain ⟨d, hd, rfl⟩ := List.mem_map.mp hb
        obtain ⟨rows', hmem, -⟩ := hsound d hd
        have heq : d.key = key := (Prod.mk.inj hab).1.symm.trans (h.keys c hc)
        exact hkey (List.mem_map.mpr ⟨_, hmem, heq⟩)
    · intro c hc
      rcases List.mem_append.mp hc with hc | hc
      · exact ⟨rows, h.keys c hc ▸ List.mem_cons_self .., h.sound c hc⟩
      · obtain ⟨rows', hmem, hbag⟩ := hsound c hc
        exact ⟨rows', List.mem_cons_of_mem _ hmem, hbag⟩
    · intro key' rows' w m hmem hbag
      rcases List.mem_cons.mp hmem with heq | hmem
      · obtain ⟨rfl, rfl⟩ := Prod.mk.inj heq
        obtain ⟨c, hc, hwindow⟩ := h.complete w m hbag
        exact ⟨c, List.mem_append_left _ hc, h.keys c hc, hwindow⟩
      · obtain ⟨c, hc, hwindow⟩ := hcomplete key' rows' w m hmem hbag
        exact ⟨c, List.mem_append_right _ hc, hwindow⟩

variable [DecidableEq κ]

theorem find?_rowsByKey (rows : List (Envelope (κ × ν))) (key : κ) :
    Table.find? key (rowsByKey rows) =
      match rowsOf key rows with
      | [] => none
      | e :: rest => some (e :: rest) := by
  have hown : ((rows.map fun e => (e.value.1, e.withValue e.value.2)).filter (·.1 = key)).map
      Prod.snd = rowsOf key rows := by
    rw [List.filter_map, List.map_map]
    rfl
  rw [rowsByKey, Table.find?_gather, hown]
  cases rowsOf key rows <;> rfl

theorem mem_rowsByKey_iff {rows : List (Envelope (κ × ν))} {key : κ} {own : List (Envelope ν)} :
    (key, own) ∈ rowsByKey rows ↔ own = rowsOf key rows ∧ own ≠ [] := by
  have hnodup : ((rowsByKey rows).map Prod.fst).Nodup := Table.nodup_gather _
  constructor
  · intro h
    have hfind := Table.find?_of_mem hnodup h
    rw [find?_rowsByKey] at hfind
    cases hrows : rowsOf key rows with
    | nil => simp [hrows] at hfind
    | cons e rest =>
      rw [hrows] at hfind
      rw [← Option.some.inj hfind]
      exact ⟨rfl, List.cons_ne_nil _ _⟩
  · rintro ⟨rfl, hne⟩
    refine Table.mem_of_find? ?_
    rw [find?_rowsByKey]
    cases hrows : rowsOf key rows with
    | nil => exact absurd hrows hne
    | cons e rest => rfl

/-- If the panes of every key show its bags, the reduced groups have one element for each bag. -/
theorem groupRows_summarizes (hf : f.TracksBag R) {rows : List (Envelope (κ × ν))}
    (hrows : ∀ key, ∃ panes, Grouper.run strategy input (rowsOf key rows) = .ok panes ∧
      Shows panes info (B (rowsOf key rows))) (hempty : ∀ w m, ¬B [] w m) :
    Summarizes ((groupRows strategy input rows).map fun groups => groups.map (reduced f)) f R info
      fun key => B (rowsOf key rows) := by
  have hnodup : ((rowsByKey rows).map Prod.fst).Nodup := Table.nodup_gather _
  obtain ⟨lists, bags, hlists, houtputs, hpairs, hsound, hcomplete⟩ :=
    groups_of_table hf hnodup fun p hp => (mem_rowsByKey_iff.mp hp).1 ▸ hrows p.1
  refine ⟨bags, lists.flatten.map (reduced f), ?_, ⟨hpairs, fun c hc => ?_, fun {key w m} hbag => ?_⟩,
    houtputs⟩
  · rw [groupRows, hlists]
    rfl
  · obtain ⟨own, hmem, hbag⟩ := hsound c hc
    exact (mem_rowsByKey_iff.mp hmem).1 ▸ hbag
  · refine hcomplete key _ w m (mem_rowsByKey_iff.mpr ⟨rfl, fun hnil => ?_⟩) hbag
    exact hempty w m (hnil ▸ hbag)

end EventTime
