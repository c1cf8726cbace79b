import EventTime.Proofs.Combine.Fanout
import EventTime.Proofs.Combine.Grouped
import EventTime.Proofs.Pane.Numbering

/-!
# The panes of every key

Grouping puts the panes of the keys behind one another, so that the groups of a key are the panes of
its own run. Where windows never merge, the trigger is endless and no element is late, the groups
that panes discard carry every listing of a key in a window once, all together; and of those that
accumulate, the one with the highest number carries every listing.
-/

namespace EventTime

variable {κ ν ο : Type}

/-- Windows never merge, and the trigger never stops firing early. -/
structure Strategy.KeepsFiring (s : Strategy) : Prop where
  nonMerging : s.windowFn.nonMerging = true
  builtIn : s.trigger.isBuiltIn = true
  endless : s.trigger.Endless
  notLifted : s.allowsLifting = false

theorem Strategy.keepsFiring_of_repeatedly {s : Strategy} {t : Trigger}
    (hfn : s.windowFn.nonMerging = true) (htrigger : s.trigger = .repeatedly t)
    (ht : t.isBuiltIn = true) : s.KeepsFiring where
  nonMerging := hfn
  builtIn := htrigger ▸ ht
  endless := .inr ⟨t, htrigger⟩
  notLifted := by
    rw [Strategy.allowsLifting, htrigger]
    exact Bool.and_false _

theorem Strategy.KeepsFiring.withMode {s : Strategy} (h : s.KeepsFiring) (mode : AccumulationMode) :
    { s with mode : Strategy }.KeepsFiring :=
  ⟨h.nonMerging, h.builtIn, h.endless, h.notLifted⟩

/-- A pane of a key, as an element. -/
def groupOf (key : κ) (p : Pane ν) : Envelope (κ × List ν) :=
  .ofPane (key, p.values) p.window p.info

variable {s : Strategy} {mode : InputWatermark} {panes : κ → List (Pane ν)}

theorem run_nil (s : Strategy) (mode : InputWatermark) :
    Grouper.run s mode ([] : List (Envelope ν)) = .ok [] := by
  cbv

variable [DecidableEq κ]

theorem filter_groupOf (key key' : κ) (own : List (Pane ν)) :
    (own.map (groupOf key)).filter (·.value.1 = key') =
      if key = key' then own.map (groupOf key) else [] := by
  split
  · rename_i h
    exact List.filter_eq_self.mpr fun e he => by
      obtain ⟨p, -, rfl⟩ := List.mem_map.mp he
      exact decide_eq_true h
  · rename_i h
    exact List.filter_eq_nil_iff.mpr fun e he => by
      obtain ⟨p, -, rfl⟩ := List.mem_map.mp he
      exact fun heq => h (of_decide_eq_true heq)

theorem groups_of_runs (table : Table κ (List (Envelope ν)))
    (hnodup : (table.map Prod.fst).Nodup)
    (hrun : ∀ p ∈ table, Grouper.run s mode p.2 = .ok (panes p.1)) :
    ∃ lists, table.mapM (fun p => panesOfKey s mode p.1 p.2) = .ok lists ∧
      ∀ key, lists.flatten.filter (·.value.1 = key) =
        if key ∈ table.map Prod.fst then (panes key).map (groupOf key) else [] := by
  induction table with
  | nil => exact ⟨[], rfl, fun key => rfl⟩
  | cons p rest ih =>
    obtain ⟨hkey, hrest⟩ := List.nodup_cons.mp hnodup
    obtain ⟨lists, hlists, hfilter⟩ := ih hrest fun q hq => hrun q (List.mem_cons_of_mem _ hq)
    have hfirst : panesOfKey s mode p.1 p.2 = .ok ((panes p.1).map (groupOf p.1)) := by
      simp only [panesOfKey, hrun p (List.mem_cons_self ..)]
      rfl
    refine ⟨(panes p.1).map (groupOf p.1) :: lists, ?_, fun key => ?_⟩
    · rw [List.mapM_cons, hfirst, hlists]
      rfl
    · rw [List.flatten_cons, List.filter_append, filter_groupOf, hfilter]
      by_cases h : p.1 = key
      · subst h
        simp [hkey]
      · have hmem : key ∈ (p :: rest).map Prod.fst ↔ key ∈ rest.map Prod.fst := by
          simp [Ne.symm h]
        simp only [if_neg h, List.nil_append, hmem]

/-- The groups of a key are the panes of its own run. -/
theorem groupRows_of_runs {rows : List (Envelope (κ × ν))}
    (hrun : ∀ key, Grouper.run s mode (rowsOf key rows) = .ok (panes key)) :
    ∃ groups, groupRows s mode rows = .ok groups ∧
      ∀ key, groups.filter (·.value.1 = key) = (panes key).map (groupOf key) := by
  have htable : ∀ p ∈ rowsByKey rows, Grouper.run s mode p.2 = .ok (panes p.1) := fun p hp =>
    (mem_rowsByKey_iff.mp hp).1 ▸ hrun p.1
  obtain ⟨lists, hlists, hfilter⟩ := groups_of_runs (rowsByKey rows) (Table.nodup_gather _) htable
  refine ⟨lists.flatten, ?_, fun key => ?_⟩
  · rw [groupRows, hlists]
    rfl
  · rw [hfilter]
    split
    · rfl
    · rename_i habsent
      have hnone : rowsOf key rows = [] := by
        by_contra hne
        have hmem := mem_rowsByKey_iff.mpr ⟨rfl, hne⟩
        exact habsent (List.mem_map_of_mem hmem)
      have hempty := hrun key
      rw [hnone, run_nil] at hempty
      rw [← Except.ok.inj hempty]
      rfl

theorem Grouper.InTime.rowsOf {rows : List (Envelope (κ × ν))} (h : InTime s mode rows) (key : κ) :
    InTime s mode (rowsOf key rows) := by
  intro hmode d hd
  obtain ⟨e, he, -, rfl⟩ := mem_rowsOf.mp hd
  exact h hmode e he

omit [DecidableEq κ] in
theorem coe_listed_inTimeOrder (w : Window) (rows : List (Envelope ν)) :
    (listed w (Grouper.inTimeOrder rows) : Multiset ν) = listed w rows :=
  Multiset.coe_eq_coe.mpr ((List.mergeSort_perm ..).flatMap_right _)

/-- A group with the weight of its values. -/
def groupWeight (e : Envelope (κ × List ν)) : Envelope (κ × Multiset ν) :=
  e.withValue (e.value.1, (e.value.2 : Multiset ν))

theorem weightAt_filter {M : Type} [AddCommMonoid M] {mult : Window → List Window → ℕ} (key : κ)
    (w : Window) (rows : List (Envelope (κ × M))) :
    weightAt mult key w rows =
      ((rows.filter (·.value.1 = key)).map fun e => mult w e.windows • e.value.2).sum := by
  induction rows with
  | nil => rfl
  | cons e rest ih =>
    rw [weightAt_cons, ih]
    by_cases h : e.value.1 = key
    · simp [h]
    · simp [h]

omit [DecidableEq κ] in
theorem sum_panes (w : Window) (own : List (Pane ν)) :
    (own.map fun p => listings w [p.window] • (p.values : Multiset ν)).sum =
      (((own.filter (·.window = w)).map (·.values)).flatten : Multiset ν) := by
  induction own with
  | nil => rfl
  | cons p rest ih =>
    rw [List.map_cons, List.sum_cons, ih]
    by_cases h : p.window = w
    · have hone : listings w [p.window] = 1 := by simp [h, listings]
      rw [hone, one_nsmul]
      simp [h, ← Multiset.coe_add]
    · simp [h, listings]

/-- Panes that discard carry every listing once. -/
theorem weightAt_groups {rows : List (Envelope (κ × ν))} (hmode : s.mode = .discarding)
    (hs : s.KeepsFiring) (hin : Grouper.InTime s mode rows) :
    ∃ groups, groupRows s mode rows = .ok groups ∧ ∀ key w,
      weightAt listings key w (groups.map groupWeight) = (valuesAt key w rows : Multiset ν) := by
  choose panes hrun hpanes using fun key =>
    Grouper.run_history hs.nonMerging hs.builtIn hs.endless (hin.rowsOf key)
  obtain ⟨groups, hgroups, hfilter⟩ := groupRows_of_runs hrun
  refine ⟨groups, hgroups, fun key w => ?_⟩
  have hhistory := (hpanes key w).1
  rw [hmode] at hhistory
  have hown : (groups.map groupWeight).filter (·.value.1 = key) =
      (panes key).map fun p => groupWeight (groupOf key p) := by
    rw [List.filter_map]
    show (groups.filter (·.value.1 = key)).map groupWeight = _
    rw [hfilter, List.map_map]
    rfl
  rw [weightAt_filter, hown, List.map_map, valuesAt, ← coe_listed_inTimeOrder,
    ← hhistory.flatten_eq, ← sum_panes]
  rfl

/-! ### The newest pane -/

/-- An element that carries the pane of a key in a window with the highest number. -/
structure NewestPane (rows : List (Envelope (κ × ο))) (key : κ) (w : Window)
    (e : Envelope (κ × ο)) : Prop where
  mem : e ∈ rows
  key_eq : e.value.1 = key
  windows_eq : e.windows = [w]
  newest : ∀ d ∈ rows, d.value.1 = key → d.windows = [w] → d = e ∨ d.pane.index < e.pane.index

omit [DecidableEq κ] in
/-- What is made of the newest pane is newest, if everything else is made of other panes. -/
theorem NewestPane.image {β : Type} {rows : List (Envelope (κ × ο))} {out : List (Envelope (κ × β))}
    {key : κ} {w : Window} {e : Envelope (κ × ο)} {d : Envelope (κ × β)}
    (h : NewestPane rows key w e) (made : Envelope (κ × ο) → Envelope (κ × β) → Prop)
    (hmade : ∀ x y, made x y → y.value.1 = x.value.1 ∧ y.windows = x.windows ∧ y.pane = x.pane)
    (hone : ∀ {x y z}, made x y → made x z → y = z) (hback : ∀ y ∈ out, ∃ x ∈ rows, made x y)
    (hd : d ∈ out) (hed : made e d) : NewestPane out key w d := by
  obtain ⟨hkey, hwindows, hpane⟩ := hmade e d hed
  refine ⟨hd, hkey.trans h.key_eq, hwindows.trans h.windows_eq, fun y hy hykey hywindow => ?_⟩
  obtain ⟨x, hx, hxy⟩ := hback y hy
  obtain ⟨hkey', hwindows', hpane'⟩ := hmade x y hxy
  rcases h.newest x hx (hkey'.symm.trans hykey) (hwindows'.symm.trans hywindow) with rfl | hlt
  · exact .inl (hone hxy hed)
  · exact .inr (by rwa [hpane, hpane'])

/-- Of the panes that accumulate the newest one carries every listing, and none carries anything
else. -/
theorem groupRows_newest {rows : List (Envelope (κ × ν))} (hmode : s.mode = .accumulating)
    (hs : s.KeepsFiring) (hin : Grouper.InTime s mode rows) :
    ∃ groups, groupRows s mode rows = .ok groups ∧
      (∀ e ∈ groups, ∃ w, ∀ v ∈ e.value.2, v ∈ valuesAt e.value.1 w rows) ∧
      ∀ key w, valuesAt key w rows ≠ [] → ∃ e, NewestPane groups key w e ∧
        (e.value.2 : Multiset ν) = valuesAt key w rows := by
  choose panes hrun hpanes using fun key =>
    Grouper.run_history hs.nonMerging hs.builtIn hs.endless (hin.rowsOf key)
  obtain ⟨groups, hgroups, hfilter⟩ := groupRows_of_runs hrun
  have hmem : ∀ e, e ∈ groups ↔ ∃ pane ∈ panes e.value.1, groupOf e.value.1 pane = e := by
    intro e
    rw [← List.mem_map, ← hfilter, List.mem_filter]
    simp
  refine ⟨groups, hgroups, fun e he => ?_, fun key w hne => ?_⟩
  · obtain ⟨pane, hpane, heq⟩ := (hmem e).mp he
    have hhistory := (hpanes e.value.1 pane.window).1
    rw [hmode] at hhistory
    refine ⟨pane.window, fun v hv => ?_⟩
    rw [← heq] at hv
    have hfront := hhistory.isPrefix pane.values
      (List.mem_map_of_mem (List.mem_filter.mpr ⟨hpane, decide_eq_true rfl⟩))
    rw [valuesAt, ← Multiset.mem_coe, ← coe_listed_inTimeOrder]
    exact Multiset.mem_coe.mpr (hfront.subset hv)
  · obtain ⟨hhistory, hindices⟩ := hpanes key w
    rw [hmode] at hhistory
    have hlisted : listed w (Grouper.inTimeOrder (rowsOf key rows)) ≠ [] := by
      intro hnil
      have hcoe := coe_listed_inTimeOrder w (rowsOf key rows)
      rw [hnil] at hcoe
      exact hne ((Multiset.coe_eq_zero _).mp hcoe.symm)
    obtain ⟨pane, hpane, hvalues, hnewest⟩ :=
      Grouper.exists_newest hindices (hhistory.getLast?_eq hlisted)
    obtain ⟨hpane, hwindow⟩ := List.mem_filter.mp hpane
    have hwindow : pane.window = w := of_decide_eq_true hwindow
    refine ⟨groupOf key pane, ⟨(hmem _).mpr ⟨pane, hpane, rfl⟩, rfl, ?_, fun d hd hkey hd' => ?_⟩,
      ?_⟩
    · rw [← hwindow]
      rfl
    · obtain ⟨other, hother, heq⟩ := (hmem d).mp hd
      rw [hkey] at hother heq
      subst heq
      have hsame : other.window = w := List.singleton_inj.mp hd'
      exact (hnewest other (List.mem_filter.mpr ⟨hother, decide_eq_true hsame⟩)).imp_left
        (congrArg (groupOf key))
    · rw [valuesAt, ← coe_listed_inTimeOrder, ← hvalues]
      rfl

end EventTime
