import Mathlib.Data.List.Forall2
import EventTime.Pipeline.PerKey
import EventTime.Proofs.Attempt
import EventTime.Proofs.Failing
import EventTime.Proofs.Pipeline.Evaluation

/-!
# What building puts into a pipeline

Building only adds nodes, so what older collections carry stays the same. Each stage is described by
what its collection carries, in terms of what its input carries: bundles of rows, or the failure of
the run.
-/

namespace EventTime

variable {t u : ElemType}

namespace Pipeline

/-- The older pipeline is the front of the newer one, and knows the same coders. -/
structure Grown (p p' : Pipeline) : Prop where
  ordered : p'.graph.Ordered
  front : p.graph.Extends p'.graph
  registry : p'.registry = p.registry

/-- The node of a collection puts out these bundles of rows, or fails. -/
structure Carries (p : Pipeline) (s : Schedule) (c : Collection t)
    (x : Except Fault (List (Rows t))) : Prop where
  inside : c.node < p.graph.nodes.length
  output : p.graph.output s c.node = x.map (·.map (Partition.mk t))

variable {p p' : Pipeline} {s : Schedule} {c : Collection t} {x : Except Fault (List (Rows t))}

theorem Grown.trans {p'' : Pipeline} (h : p.Grown p') (h' : p'.Grown p'') : p.Grown p'' :=
  ⟨h'.ordered, h.front.trans h'.front, h'.registry.trans h.registry⟩

theorem Carries.grown (h : p.Carries s c x) (hp : p.graph.Ordered) (hgrown : p.Grown p') :
    p'.Carries s c x where
  inside := Nat.lt_of_lt_of_le h.inside hgrown.front.nodes.length_le
  output := (hgrown.front.output_eq hp hgrown.ordered s h.inside).trans h.output

theorem mapM_rows (t : ElemType) (bundles : List (Rows t)) :
    (bundles.map (Partition.mk t)).mapM (fun part => match part.rows? t with
      | some rows => Except.ok rows
      | none => .error Fault.resultType) = .ok bundles := by
  induction bundles with
  | nil => rfl
  | cons rows rest ih =>
    rw [List.map_cons, List.mapM_cons, ih, Partition.rows?_mk]
    rfl

/-- The bundles of rows that a collection carries in an evaluation. -/
def bundles (p : Pipeline) (s : Schedule) (c : Collection t) : Except Fault (List (Rows t)) := do
  let (parts, _) ← p.graph.evaluate s c.node
  parts.mapM fun part => match part.rows? t with
    | some rows => .ok rows
    | none => .error .resultType

theorem eq_of_rows? {part : Partition} {rows : Rows t} (h : part.rows? t = some rows) :
    part = ⟨t, rows⟩ := by
  obtain ⟨u, rows'⟩ := part
  by_cases hu : u = t
  · subst hu
    rw [Partition.rows?_mk] at h
    rw [Option.some.inj h]
  · simp [Partition.rows?, hu] at h

theorem eq_of_mapM_rows {parts : List Partition} {bundles : List (Rows t)}
    (h : parts.mapM (fun part => match part.rows? t with
      | some rows => Except.ok rows
      | none => .error Fault.resultType) = .ok bundles) :
    parts = bundles.map (Partition.mk t) := by
  induction parts generalizing bundles with
  | nil => cases h; rfl
  | cons part rest ih =>
    rw [List.mapM_cons] at h
    cases hrows : part.rows? t with
    | none => rw [hrows] at h; cases h
    | some rows =>
      rw [hrows] at h
      simp only [bind, Except.bind] at h
      split at h
      · cases h
      · rename_i others hothers
        cases h
        rw [ih hothers, eq_of_rows? hrows]
        rfl

theorem carries_of_bundles (hp : p.graph.Ordered) {rows : List (Rows t)}
    (h : p.bundles s c = .ok rows) : p.Carries s c (.ok rows) := by
  have hfst := Graph.evaluate_map_fst hp s c.node
  rw [bundles] at h
  cases heval : p.graph.evaluate s c.node with
  | error e => rw [heval] at h; cases h
  | ok out =>
    obtain ⟨parts, r⟩ := out
    rw [heval] at h hfst
    have hparts : parts = rows.map (Partition.mk t) := eq_of_mapM_rows h
    have hout : p.graph.output s c.node = .ok parts := hfst.symm
    refine ⟨?_, by rw [hout, hparts]; rfl⟩
    by_contra hge
    rw [Graph.output_eq hp, Graph.outputFrom,
      List.getElem?_eq_none (Nat.le_of_not_lt hge)] at hout
    cases hout

theorem Carries.collect (h : p.Carries s c x) (hp : p.graph.Ordered) :
    p.collect s c.node t = x.map List.flatten := by
  have hfst := Graph.evaluate_map_fst hp s c.node
  rw [h.output] at hfst
  rw [Pipeline.collect]
  cases heval : p.graph.evaluate s c.node with
  | error e =>
    rw [heval] at hfst
    cases x with
    | error e' => exact congrArg Except.error (Except.error.inj hfst)
    | ok bundles => cases hfst
  | ok out =>
    rw [heval] at hfst
    cases x with
    | error e' => cases hfst
    | ok bundles =>
      obtain ⟨parts, r⟩ := out
      obtain rfl : parts = bundles.map (Partition.mk t) := Except.ok.inj hfst
      exact congrArg (Except.bind · fun rows => .ok rows.flatten) (mapM_rows t bundles)

theorem Carries.of_eq {y : Except Fault (List (Rows t))} (h : p.Carries s c x) (heq : x = y) :
    p.Carries s c y := heq ▸ h

/-- Building succeeds, with a collection that is windowed by `strategy` and carries `x`. -/
def Builds (p : Pipeline) (s : Schedule) (b : Build (Collection t)) (strategy : Strategy)
    (x : Except Fault (List (Rows t))) : Prop :=
  b.Succeeds p fun c p' => p.Grown p' ∧ c.strategy = strategy ∧ p'.Carries s c x

theorem Builds.of_eq {b : Build (Collection t)} {strategy : Strategy}
    {y : Except Fault (List (Rows t))} (h : p.Builds s b strategy x) (heq : x = y) :
    p.Builds s b strategy y := heq ▸ h

/-- The collection that is built is the one that the builder answers. -/
theorem Builds.answered {b : Build (Collection t)} {strategy : Strategy}
    (h : p.Builds s b strategy x) (hc : b.begin p = (.ok c, p')) :
    p.Grown p' ∧ c.strategy = strategy ∧ p'.Carries s c x := by
  obtain ⟨c', p'', hb, hbuilt⟩ := h
  obtain ⟨hok, rfl⟩ := Prod.mk.inj (hc.symm.trans hb)
  obtain rfl := Except.ok.inj hok
  exact hbuilt

/-- A build goes on from the collection and the pipeline that an earlier one has led to. -/
theorem Builds.after {b : Build (Collection t)} {f : Collection t → Build (Collection u)}
    {strategy : Strategy} {y : Except Fault (List (Rows u))} (hb : b.begin p = (.ok c, p'))
    (hgrown : p.Grown p') (hf : p'.Builds s (f c) strategy y) :
    p.Builds s (b >>= f) strategy y := by
  obtain ⟨c', p'', hb', hgrown', hpost⟩ := hf
  exact ⟨c', p'', (Attempt.begin_bind hb f).trans hb', hgrown.trans hgrown', hpost⟩

theorem Builds.bind {b : Build (Collection t)} {f : Collection t → Build (Collection u)}
    {strategy strategy' : Strategy} {y : Except Fault (List (Rows u))}
    (h : p.Builds s b strategy x)
    (hf : ∀ c p', p.Grown p' → c.strategy = strategy → p'.Carries s c x →
      p'.Builds s (f c) strategy' y) : p.Builds s (b >>= f) strategy' y := by
  obtain ⟨c, p', hb, hgrown, hstrategy, hcarries⟩ := h
  exact Builds.after hb hgrown (hf c p' hgrown hstrategy hcarries)

theorem grown_insert (hp : p.graph.Ordered) (node : Node Partition) {ins : List Nat}
    (hins : ∀ i ∈ ins, i < p.graph.nodes.length) :
    p.Grown { p with graph := p.graph.add node ins } :=
  ⟨hp.add node hins, Graph.extends_add .., rfl⟩

/-- A node whose output follows from what its inputs put out. -/
theorem builds_insert (hp : p.graph.Ordered) (node : Node Partition) {ins : List Nat}
    (hins : ∀ i ∈ ins, i < p.graph.nodes.length) (strategy : Strategy)
    (hout : (p.graph.add node ins).outputFrom s (p.graph.output s) p.graph.nodes.length =
      x.map (·.map (Partition.mk t))) :
    p.Builds s (do return { node := ← Pipeline.insert node ins, strategy }) strategy x := by
  refine ⟨_, _, rfl, grown_insert hp node hins, rfl, ?_, ?_⟩
  · show p.graph.nodes.length < (p.graph.nodes ++ [node]).length
    simp
  · exact (Graph.output_add hp node hins s).trans hout

theorem nodes_add (g : Graph Partition) (node : Node Partition) (ins : List Nat) :
    (g.add node ins).nodes[g.nodes.length]? = some node := by
  simp [Graph.add]

theorem inputs_add_new (hp : p.graph.Ordered) (node : Node Partition) (ins : List Nat) :
    (p.graph.add node ins).inputs p.graph.nodes.length = ins := by
  rw [Graph.inputs_add, if_pos rfl, Graph.inputs_new hp, List.nil_append]

/-- Run each bundle with its position and its seed. -/
def runEach (s : Schedule) (node : Nat) (run : Bundle → Rows t → Except Fault (Rows u)) :
    (bundle : Nat) → List (Rows t) → Except Fault (List (Rows u))
  | _, [] => .ok []
  | bundle, rows :: rest => do
    let out ← run ⟨bundle, s.seed node bundle⟩ rows
    let others ← runEach s node run (bundle + 1) rest
    return out :: others

theorem runBundles_eq (s : Schedule) (node : Nat) (run : Bundle → Rows t → Except Fault (Rows u))
    (stage : String) (bundle : Nat) (bundles : List (Rows t)) :
    Graph.runBundles s node (fun index seed part => do
        return Partition.mk u (← run ⟨index, seed⟩ (← part.rowsFor t stage))) bundle
      (bundles.map (Partition.mk t)) =
    (runEach s node run bundle bundles).map (·.map (Partition.mk u)) := by
  induction bundles generalizing bundle with
  | nil => rfl
  | cons rows rest ih =>
    rw [List.map_cons, Graph.runBundles, ih, runEach, Partition.rowsFor_mk]
    simp only [bind, Except.bind]
    cases run ⟨bundle, s.seed node bundle⟩ rows with
    | error e => rfl
    | ok out =>
      cases runEach s node run (bundle + 1) rest with
      | error e => rfl
      | ok others => rfl

theorem runEach_const (s : Schedule) (node : Nat) (run : Rows t → Except Fault (Rows u))
    (bundle : Nat) (bundles : List (Rows t)) :
    runEach s node (fun _ => run) bundle bundles = bundles.mapM run := by
  induction bundles generalizing bundle with
  | nil => rfl
  | cons rows rest ih =>
    rw [runEach, ih, List.mapM_cons]

theorem builds_perBundle (hp : p.graph.Ordered) (h : p.Carries s c x)
    (run : Bundle → Rows t → Except Fault (Rows u)) :
    p.Builds s (c.perBundle run) c.strategy (x >>= runEach s p.graph.nodes.length run 0) := by
  have hins : ∀ i ∈ [c.node], i < p.graph.nodes.length := by
    intro i hi
    rw [List.mem_singleton.mp hi]
    exact h.inside
  refine builds_insert hp _ hins c.strategy ?_
  simp only [Graph.outputFrom, nodes_add, inputs_add_new hp, h.output]
  cases x with
  | error e => rfl
  | ok bundles => exact runBundles_eq ..

theorem builds_rows (hp : p.graph.Ordered) (h : p.Carries s c x)
    (run : Rows t → Except Fault (Rows u)) :
    p.Builds s (c.perBundle fun _ => run) c.strategy (x >>= fun bundles => bundles.mapM run) := by
  have hb := builds_perBundle hp h fun _ => run
  have heq : (runEach s p.graph.nodes.length (fun _ => run) 0) = fun bundles => bundles.mapM run :=
    funext fun bundles => runEach_const ..
  rwa [heq] at hb

theorem builds_map (hp : p.graph.Ordered) (h : p.Carries s c x) (f : t.Elem → u.Elem) :
    p.Builds s (c.map f) c.strategy
      (x.map fun bundles => bundles.map fun rows => rows.map fun e => e.withValue (f e.value)) := by
  have hb := builds_rows hp h fun rows => .ok (rows.map fun e => e.withValue (f e.value))
  simp only [mapM_ok] at hb
  exact hb

theorem builds_flatMap (hp : p.graph.Ordered) (h : p.Carries s c x)
    (f : t.Elem → List u.Elem) :
    p.Builds s (c.flatMap f) c.strategy
      (x.map fun bundles => bundles.map fun rows =>
        rows.flatMap fun e => (f e.value).map e.withValue) := by
  have hb := builds_rows hp h fun rows => .ok (rows.flatMap fun e => (f e.value).map e.withValue)
  simp only [mapM_ok] at hb
  exact hb

theorem builds_mapEnvelopes (hp : p.graph.Ordered) (h : p.Carries s c x)
    (f : Envelope t.Elem → Except Fault (Envelope u.Elem)) :
    p.Builds s (c.mapEnvelopes f) c.strategy
      (x >>= fun bundles => bundles.mapM fun rows => rows.mapM f) :=
  builds_rows hp h fun rows => rows.mapM f

/-! ### Stages on all bundles at once -/

theorem builds_whole (hp : p.graph.Ordered) (h : p.Carries s c x)
    {run : List Partition → Except Fault Partition} {y : List (Rows t) → Except Fault (Rows u)}
    (hrun : ∀ bundles, run (bundles.map (Partition.mk t)) = (y bundles).map (Partition.mk u)) :
    p.Builds s (c.append (.whole run)) c.strategy
      (x >>= fun bundles => (y bundles).map ([·])) := by
  have hins : ∀ i ∈ [c.node], i < p.graph.nodes.length := by
    intro i hi
    rw [List.mem_singleton.mp hi]
    exact h.inside
  refine builds_insert hp _ hins c.strategy ?_
  simp only [Graph.outputFrom, nodes_add, inputs_add_new hp, h.output]
  cases x with
  | error e => rfl
  | ok bundles =>
    simp only [Except.map, bind, Except.bind, hrun]
    cases y bundles with
    | error e => rfl
    | ok out => rfl

theorem mapM_rowsFor (stage : String) (bundles : List (Rows t)) :
    (bundles.map (Partition.mk t)).mapM (·.rowsFor t stage) = .ok bundles := by
  induction bundles with
  | nil => rfl
  | cons rows rest ih =>
    rw [List.map_cons, List.mapM_cons, ih, Partition.rowsFor_mk]
    rfl

theorem allRowsFor_mk (stage : String) (bundles : List (Rows t)) :
    Partition.allRowsFor (bundles.map (Partition.mk t)) t stage = .ok bundles.flatten := by
  rw [Partition.allRowsFor, mapM_rowsFor]
  rfl

theorem builds_union (hp : p.graph.Ordered) {cs : List (Collection t)}
    {xs : List (Except Fault (List (Rows t)))} (h : List.Forall₂ (p.Carries s) cs xs) :
    p.Builds s (Collection.union cs) ((cs.head?.map (·.strategy)).getD {})
      ((xs.mapM id).map List.flatten) := by
  have hins : ∀ i ∈ cs.map (·.node), i < p.graph.nodes.length := by
    induction h with
    | nil => simp
    | cons hc _ ih =>
      intro i hi
      rcases List.mem_cons.mp hi with rfl | hi
      · exact hc.inside
      · exact ih i hi
  refine builds_insert hp _ hins _ ?_
  simp only [Graph.outputFrom, nodes_add, inputs_add_new hp]
  clear hins
  induction h with
  | nil => rfl
  | @cons c y cs xs hc _ ih =>
    rw [List.map_cons, Graph.joinEach, ih, hc.output, List.mapM_cons]
    cases y with
    | error e => rfl
    | ok first =>
      cases xs.mapM id with
      | error e => rfl
      | ok others =>
        simp [Except.map, bind, Except.bind, pure, Except.pure]

end Pipeline

end EventTime
