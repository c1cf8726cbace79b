import EventTime.Proofs.Combine.KeyPanes
import EventTime.Proofs.Combine.Stages
import EventTime.Proofs.Pipeline.RowWise

/-!
# Grouping under any schedule

Grouping by key puts out the panes of each key's own run. Where only stages that work row by row lead
to its input, the rows of each key come in the same order under every schedule, and so do the panes
of each key.
-/

namespace EventTime

variable {k v : ElemType} {handles : Handles}

section Panes

variable {κ ν : Type} [DecidableEq κ] {strategy : Strategy} {mode : InputWatermark}
  {rows : List (Envelope (κ × ν))}

/-- Grouping succeeds if the run of every key does, and the panes of a key are those of its run. -/
structure PanesByKey (strategy : Strategy) (mode : InputWatermark)
    (rows : List (Envelope (κ × ν))) (x : Except Fault (List (Envelope (κ × List ν)))) : Prop where
  succeeds : (∃ out, x = .ok out) ↔
    ∀ key, ∃ panes, Grouper.run strategy mode (rowsOf key rows) = .ok panes
  panes : ∀ out, x = .ok out → ∀ key, ∃ panes,
    Grouper.run strategy mode (rowsOf key rows) = .ok panes ∧
      out.filter (·.value.1 = key) = panes.map (groupOf key)

theorem runs_of_groupRows {out : List (Envelope (κ × List ν))}
    (h : groupRows strategy mode rows = .ok out) (key : κ) :
    ∃ panes, Grouper.run strategy mode (rowsOf key rows) = .ok panes := by
  cases hown : rowsOf key rows with
  | nil => exact ⟨[], run_nil ..⟩
  | cons e rest =>
    have hmem : (key, rowsOf key rows) ∈ rowsByKey rows :=
      mem_rowsByKey_iff.mpr ⟨rfl, by simp [hown]⟩
    cases hlists : (rowsByKey rows).mapM (fun q => panesOfKey strategy mode q.1 q.2) with
    | error e => rw [groupRows, hlists] at h; cases h
    | ok lists =>
      obtain ⟨groups, hgroups⟩ := exists_ok_of_mapM hlists _ hmem
      rw [panesOfKey, hown] at hgroups
      cases hrun : Grouper.run strategy mode (e :: rest) with
      | error fault => rw [hrun] at hgroups; cases hgroups
      | ok panes => exact ⟨panes, rfl⟩

theorem panesByKey_groupRows (strategy : Strategy) (mode : InputWatermark)
    (rows : List (Envelope (κ × ν))) :
    PanesByKey strategy mode rows (groupRows strategy mode rows) where
  succeeds := by
    refine ⟨fun ⟨out, h⟩ => runs_of_groupRows h, fun h => ?_⟩
    choose panes hrun using h
    obtain ⟨groups, hgroups, -⟩ := groupRows_of_runs hrun
    exact ⟨groups, hgroups⟩
  panes out h := by
    choose panes hrun using runs_of_groupRows h
    obtain ⟨groups, hgroups, hfilter⟩ := groupRows_of_runs hrun
    obtain rfl := Except.ok.inj (h.symm.trans hgroups)
    exact fun key => ⟨panes key, hrun key, hfilter key⟩

theorem perm_of_filter_key {β : Type} {out out' : List (Envelope (κ × β))}
    (h : ∀ key, out.filter (·.value.1 = key) = out'.filter (·.value.1 = key)) : out.Perm out' := by
  classical
  refine List.perm_iff_count.mpr fun e => ?_
  have hcount : ∀ l : List (Envelope (κ × β)),
      (l.filter (·.value.1 = e.value.1)).count e = l.count e :=
    fun l => List.count_filter (decide_eq_true rfl)
  rw [← hcount out, h, hcount]

theorem PanesByKey.rel_perm {x x' : Except Fault (List (Envelope (κ × List ν)))}
    (h : PanesByKey strategy mode rows x) (h' : PanesByKey strategy mode rows x') :
    Option.Rel List.Perm x.toOption x'.toOption := by
  have hiff := h.succeeds.trans h'.succeeds.symm
  cases x with
  | error e =>
    cases x' with
    | error e' => exact .none
    | ok out' => exact nomatch hiff.mpr ⟨out', rfl⟩
  | ok out =>
    obtain ⟨out', rfl⟩ := hiff.mp ⟨out, rfl⟩
    -- key by key, both have put out the panes of the same run
    refine .some (perm_of_filter_key fun key => ?_)
    obtain ⟨panes, hrun, hfilter⟩ := h.panes out rfl key
    obtain ⟨panes', hrun', hfilter'⟩ := h'.panes out' rfl key
    rw [hfilter, hfilter', Except.ok.inj (hrun.symm.trans hrun')]

end Panes

namespace RowWise

variable {p : Pipeline} {c : Collection (.pair k v)} [DecidableEq k.Elem]

/-- Grouping by key puts out the groups of the rows that a sequential run puts in. -/
theorem collect_groupByKey (hp : RowWise p handles) (hc : ⟨.pair k v, c⟩ ∈ handles)
    (mode : InputWatermark) :
    ∃ g p', (c.groupByKey mode).begin p = (.ok g, p') ∧ ∀ s,
      p.collect s c.node (.pair k v) = p.collect Job.sequential c.node (.pair k v) ∧
      p'.collect s g.node (.pair k (.list v)) =
        p.collect Job.sequential c.node (.pair k v) >>= groupRows c.strategy mode := by
  obtain ⟨hordered, hrows⟩ := hp.carriesRows
  obtain ⟨x, hx⟩ := hrows hc
  have hbuilds : p.BuildsRows (c.groupByKey mode) (x >>= groupRows c.strategy mode) := by
    refine Pipeline.buildsRows_of_builds fun s => ?_
    obtain ⟨y, hy, rfl⟩ := hx s
    refine ⟨_, _, Pipeline.builds_groupByKey hordered hy mode, ?_⟩
    cases y with
    | error e => rfl
    | ok bundles =>
      simp only [Except.map, bind, Except.bind]
      cases groupRows c.strategy mode bundles.flatten with
      | error e => rfl
      | ok groups => exact congrArg Except.ok List.flatten_singleton
  obtain ⟨g, p', hg, hgrown, hgroups⟩ := hbuilds
  refine ⟨g, p', hg, fun s => ?_⟩
  rw [hx.collect hordered, hx.collect hordered, hgroups.collect hgrown.ordered]
  exact ⟨rfl, rfl⟩

/-- Grouping by key does not depend on the schedule. The rows of the input are those of a sequential
run, the panes of each key are those of the key's own rows among them, and everything that is put
out is a permutation of what a sequential run puts out. -/
theorem groupByKey_schedule_independent (hp : RowWise p handles) (hc : ⟨.pair k v, c⟩ ∈ handles)
    (mode : InputWatermark) :
    ∃ g p', (c.groupByKey mode).begin p = (.ok g, p') ∧ ∀ s,
      p.collect s c.node (.pair k v) = p.collect Job.sequential c.node (.pair k v) ∧
      (∀ e, p.collect Job.sequential c.node (.pair k v) = .error e →
        p'.collect s g.node (.pair k (.list v)) = .error e) ∧
      (∀ rows, p.collect Job.sequential c.node (.pair k v) = .ok rows →
        PanesByKey c.strategy mode rows (p'.collect s g.node (.pair k (.list v)))) ∧
      Option.Rel List.Perm (p'.collect s g.node (.pair k (.list v))).toOption
        (p'.collect Job.sequential g.node (.pair k (.list v))).toOption := by
  obtain ⟨g, p', hg, hgroups⟩ := hp.collect_groupByKey hc mode
  have hpanes : ∀ s rows, p.collect Job.sequential c.node (.pair k v) = .ok rows →
      PanesByKey c.strategy mode rows (p'.collect s g.node (.pair k (.list v))) := by
    intro s rows hrows
    rw [(hgroups s).2, hrows]
    exact panesByKey_groupRows ..
  refine ⟨g, p', hg, fun s => ⟨(hgroups s).1, fun e he => ?_, hpanes s, ?_⟩⟩
  · rw [(hgroups s).2, he]
    rfl
  · cases hrows : p.collect Job.sequential c.node (.pair k v) with
    | error e =>
      rw [(hgroups s).2, (hgroups Job.sequential).2, hrows]
      exact .none
    | ok rows => exact (hpanes s rows hrows).rel_perm (hpanes Job.sequential rows hrows)

/-- The sales of two towns, each sale once as it is and once doubled. -/
def sales : Build KeyedData :=
  Collection.ofValues (t := .keyed) [("a", .int 1), ("b", .int 2), ("a", .int 3)]

def doubledSales : Build KeyedData :=
  Collection.map (t := .keyed) ⟨0, {}⟩ fun sale => (sale.1, (ValueFn.mul 2).apply sale.2)

def allSales : Build KeyedData := Collection.union [⟨0, {}⟩, ⟨1, {}⟩]

def salesPipeline : Pipeline := (allSales.begin (doubledSales.begin (sales.begin {}).2).2).2

def salesByTown : Build (Collection (.pair .text (.list .datum))) :=
  Collection.groupByKey (k := .text) (v := .datum) ⟨2, {}⟩

def salesRows : Rows .keyed :=
  [("a", .int 1), ("b", .int 2), ("a", .int 3), ("a", .int 2), ("b", .int 4), ("a", .int 6)].map
    .inGlobalWindow

/-- The only pane of each town. -/
def townPane (sales : List Int) : Pane Datum :=
  ⟨.global, ⟨0, true, false, .onTime⟩, sales.map .int⟩

theorem groupByKey_schedule_independent_of_sales :
    RowWise salesPipeline [⟨.keyed, ⟨2, {}⟩⟩, ⟨.keyed, ⟨1, {}⟩⟩, ⟨.keyed, ⟨0, {}⟩⟩] ∧
      ∃ (g : Collection (.pair .text (.list .datum))) (p' : Pipeline),
        salesByTown.begin salesPipeline = (.ok g, p') ∧
        ∀ s, ∃ out, p'.collect s g.node (.pair .text (.list .datum)) = .ok out ∧
          out.Perm [groupOf "a" (townPane [1, 3, 2, 6]), groupOf "b" (townPane [2, 4])] := by
  have hsales : RowWise (sales.begin {}).2 [⟨.keyed, ⟨0, {}⟩⟩] := .call .new (.source _) rfl
  have hdoubled : RowWise (doubledSales.begin (sales.begin {}).2).2
      [⟨.keyed, ⟨1, {}⟩⟩, ⟨.keyed, ⟨0, {}⟩⟩] :=
    hsales.call (.map (List.mem_singleton_self _) _) (b := doubledSales) rfl
  have hall : RowWise salesPipeline
      [⟨.keyed, ⟨2, {}⟩⟩, ⟨.keyed, ⟨1, {}⟩⟩, ⟨.keyed, ⟨0, {}⟩⟩] := by
    refine hdoubled.call (.union fun c hc => ?_) (b := allSales) rfl
    simp only [List.mem_cons, List.not_mem_nil, or_false] at hc ⊢
    rcases hc with rfl | rfl <;> simp
  have hrows : salesPipeline.collect Job.sequential 2 .keyed = .ok salesRows := rfl
  have hgroupRows : groupRows {} .elementTime salesRows =
      .ok [groupOf "a" (townPane [1, 3, 2, 6]), groupOf "b" (townPane [2, 4])] := by cbv
  obtain ⟨g, p', hg, hgrouped⟩ := groupByKey_schedule_independent (k := .text) (v := .datum) hall
    (List.mem_cons_self ..) .elementTime
  obtain ⟨g', p'', hg', hgroups⟩ := collect_groupByKey (k := .text) (v := .datum) hall
    (List.mem_cons_self ..) .elementTime
  obtain ⟨hok, rfl⟩ := Prod.mk.inj (hg.symm.trans hg')
  obtain rfl := Except.ok.inj hok
  refine ⟨hall, g, p', hg, fun s => ?_⟩
  have hsequential : p'.collect Job.sequential g.node (.pair .text (.list .datum)) = _ :=
    (hgroups Job.sequential).2
  rw [hrows] at hsequential
  obtain ⟨-, -, -, hrel⟩ := hgrouped s
  rw [hsequential.trans hgroupRows] at hrel
  cases hout : p'.collect s g.node (.pair .text (.list .datum)) with
  | error e => rw [hout] at hrel; cases hrel
  | ok out =>
    rw [hout] at hrel
    cases hrel with
    | some hperm => exact ⟨out, rfl, hperm⟩

end RowWise

end EventTime
