import EventTime.Pipeline.Job
import EventTime.Proofs.Pipeline.Buildable
import EventTime.Proofs.Splits

/-!
# Stages that work row by row

A stage that works on each row by itself gives the same rows however they are cut into bundles, and
a union puts the bundles of its inputs behind one another. So a collection that only such stages
lead to has the same rows, in the same order, under every schedule.
-/

namespace EventTime

variable {t u : ElemType} {handles : Handles}

/-- Rows may be run in parts, and the results put behind one another. -/
structure Additive (run : Rows t → Except Fault (Rows u)) : Prop where
  nil : run [] = .ok []
  append : ∀ a b, run (a ++ b) = do
    let x ← run a
    let y ← run b
    return x ++ y

namespace Additive

theorem of_ok {f : Rows t → Rows u} (hnil : f [] = []) (happend : ∀ a b, f (a ++ b) = f a ++ f b) :
    Additive fun rows => .ok (f rows) :=
  ⟨congrArg _ hnil, fun a b => congrArg _ (happend a b)⟩

theorem mapM (f : Envelope t.Elem → Except Fault (Envelope u.Elem)) :
    Additive fun rows : Rows t => rows.mapM f where
  nil := rfl
  append _ _ := List.mapM_append

theorem mapM_flatten {run : Rows t → Except Fault (Rows u)} (h : Additive run)
    (bundles : List (Rows t)) : (bundles.mapM run).map List.flatten = run bundles.flatten := by
  induction bundles with
  | nil => exact h.nil.symm
  | cons rows rest ih =>
    rw [List.flatten_cons, h.append, ← ih, List.mapM_cons]
    cases run rows with
    | error e => rfl
    | ok out => cases rest.mapM run <;> rfl

end Additive

/-- A call that inserts a source, a stage that works on each row by itself, or a union, or that
windows a collection otherwise. -/
inductive RowCall (handles : Handles) : (u : ElemType) → Build (Collection u) → Prop
  | source {u : ElemType} (rows : Rows u) : RowCall handles u (Collection.ofRows rows)
  | map {t u : ElemType} {c : Collection t} (hc : ⟨t, c⟩ ∈ handles) (f : t.Elem → u.Elem) :
      RowCall handles u (c.map f)
  | filter {u : ElemType} {c : Collection u} (hc : ⟨u, c⟩ ∈ handles) (test : u.Elem → Bool) :
      RowCall handles u (c.filter test)
  | flatMap {t u : ElemType} {c : Collection t} (hc : ⟨t, c⟩ ∈ handles)
      (f : t.Elem → List u.Elem) : RowCall handles u (c.flatMap f)
  | withTimestamps {u : ElemType} {c : Collection u} (hc : ⟨u, c⟩ ∈ handles) (f : u.Elem → Int) :
      RowCall handles u (c.withTimestamps f)
  | windowInto {u : ElemType} {c : Collection u} (hc : ⟨u, c⟩ ∈ handles) (fn : WindowFn) :
      RowCall handles u (c.windowInto fn)
  | keyBy {t u : ElemType} {c : Collection t} (hc : ⟨t, c⟩ ∈ handles)
      (key : t.Elem → Except Fault u.Elem) : RowCall handles (.pair u t) (c.keyBy key)
  | union {u : ElemType} {cs : List (Collection u)} (hcs : ∀ c ∈ cs, ⟨u, c⟩ ∈ handles) :
      RowCall handles u (Collection.union cs)
  | windowed {u : ElemType} {c : Collection u} (hc : ⟨u, c⟩ ∈ handles) (strategy : Strategy) :
      RowCall handles u (pure { c with strategy })

/-- Pipelines, and those of their collections that such calls lead to. Anything may be built beside
them. -/
inductive RowWise : Pipeline → Handles → Prop
  | new : RowWise {} []
  | call {p p' : Pipeline} {handles : Handles} {u : ElemType} {b : Build (Collection u)}
      {c : Collection u} (hp : RowWise p handles) (hb : RowCall handles u b)
      (hc : b.begin p = (.ok c, p')) : RowWise p' (⟨u, c⟩ :: handles)
  | beside {p p' : Pipeline} {handles : Handles} (hp : RowWise p handles)
      (hordered : p'.graph.Ordered) (hfront : p.graph.Extends p'.graph) : RowWise p' handles

namespace Pipeline

variable {p p' : Pipeline} {c : Collection t} {x : Except Fault (Rows t)}

/-- Whatever the schedule, the bundles of a collection make up these rows, or the run fails so. -/
def CarriesRows (p : Pipeline) (c : Collection t) (x : Except Fault (Rows t)) : Prop :=
  ∀ s, ∃ y, p.Carries s c y ∧ y.map List.flatten = x

theorem CarriesRows.collect (h : p.CarriesRows c x) (hp : p.graph.Ordered) (s : Schedule) :
    p.collect s c.node t = x := by
  obtain ⟨y, hy, heq⟩ := h s
  exact (hy.collect hp).trans heq

theorem CarriesRows.extends (h : p.CarriesRows c x) (hp : p.graph.Ordered)
    (hp' : p'.graph.Ordered) (hfront : p.graph.Extends p'.graph) : p'.CarriesRows c x := fun s => by
  obtain ⟨y, hy, heq⟩ := h s
  exact ⟨y, ⟨Nat.lt_of_lt_of_le hy.inside hfront.nodes.length_le,
    (hfront.output_eq hp hp' s hy.inside).trans hy.output⟩, heq⟩

theorem CarriesRows.withStrategy (h : p.CarriesRows c x) (strategy : Strategy) :
    p.CarriesRows { c with strategy } x := fun s => by
  obtain ⟨y, hy, heq⟩ := h s
  exact ⟨y, ⟨hy.inside, hy.output⟩, heq⟩

/-- Building succeeds, with a collection that carries some rows whatever the schedule. -/
def BuildsRows (p : Pipeline) (b : Build (Collection u)) (x : Except Fault (Rows u)) : Prop :=
  b.Succeeds p fun c p' => p.Grown p' ∧ p'.CarriesRows c x

theorem buildsRows_of_builds {b : Build (Collection u)} {x : Except Fault (Rows u)}
    (h : ∀ s, ∃ strategy y, p.Builds s b strategy y ∧ y.map List.flatten = x) :
    p.BuildsRows b x := by
  -- building does not see the schedule, so what it answers for one it answers for all
  obtain ⟨-, -, ⟨c, p', hc, hgrown, -⟩, -⟩ := h Job.sequential
  refine ⟨c, p', hc, hgrown, fun s => ?_⟩
  obtain ⟨strategy, y, hs, heq⟩ := h s
  exact ⟨y, (hs.answered hc).2.2, heq⟩

theorem buildsRows_source (hp : p.graph.Ordered) (rows : Rows u) :
    p.BuildsRows (Collection.ofRows rows) (.ok rows) :=
  buildsRows_of_builds fun s =>
    ⟨_, _, builds_ofRows hp s rows, congrArg Except.ok (flatten_split s.partitions rows)⟩

theorem buildsRows_perBundle (hp : p.graph.Ordered) (h : p.CarriesRows c x)
    {run : Rows t → Except Fault (Rows u)} (hrun : Additive run) :
    p.BuildsRows (c.perBundle fun _ => run) (x >>= run) :=
  buildsRows_of_builds fun s => by
    obtain ⟨y, hy, rfl⟩ := h s
    refine ⟨_, _, builds_rows hp hy run, ?_⟩
    cases y with
    | error e => rfl
    | ok bundles => exact hrun.mapM_flatten bundles

theorem forall₂_carriesRows {cs : List (Collection t)} {xs : List (Except Fault (Rows t))}
    (h : List.Forall₂ p.CarriesRows cs xs) (s : Schedule) :
    ∃ ys, List.Forall₂ (p.Carries s) cs ys ∧
      ((ys.mapM id).map List.flatten).map List.flatten = (xs.mapM id).map List.flatten := by
  induction h with
  | nil => exact ⟨[], .nil, rfl⟩
  | @cons c x cs xs hc _ ih =>
    obtain ⟨y, hy, rfl⟩ := hc s
    obtain ⟨ys, hys, heq⟩ := ih
    refine ⟨y :: ys, .cons hy hys, ?_⟩
    rw [List.mapM_cons, List.mapM_cons]
    cases y with
    | error e => rfl
    | ok first =>
      cases hothers : ys.mapM id <;> cases hothers' : xs.mapM id <;>
        simp_all [Except.map, bind, Except.bind, pure, Except.pure]

theorem buildsRows_union (hp : p.graph.Ordered) {cs : List (Collection t)}
    {xs : List (Except Fault (Rows t))} (h : List.Forall₂ p.CarriesRows cs xs) :
    p.BuildsRows (Collection.union cs) ((xs.mapM id).map List.flatten) :=
  buildsRows_of_builds fun s => by
    obtain ⟨ys, hys, heq⟩ := forall₂_carriesRows h s
    exact ⟨_, _, builds_union hp hys, heq⟩

theorem buildsRows_of_call (hp : p.graph.Ordered)
    (hrows : ∀ {t} {c : Collection t}, ⟨t, c⟩ ∈ handles → ∃ x, p.CarriesRows c x)
    {b : Build (Collection u)} (hb : RowCall handles u b) : ∃ x, p.BuildsRows b x := by
  cases hb with
  | source rows => exact ⟨_, buildsRows_source hp rows⟩
  | map hc f =>
    obtain ⟨x, hx⟩ := hrows hc
    exact ⟨_, buildsRows_perBundle hp hx (.of_ok rfl fun _ _ => List.map_append)⟩
  | filter hc test =>
    obtain ⟨x, hx⟩ := hrows hc
    exact ⟨_, buildsRows_perBundle hp hx (.of_ok rfl fun _ _ => List.filter_append ..)⟩
  | flatMap hc f =>
    obtain ⟨x, hx⟩ := hrows hc
    exact ⟨_, buildsRows_perBundle hp hx (.of_ok rfl fun _ _ => List.flatMap_append)⟩
  | withTimestamps hc f =>
    obtain ⟨x, hx⟩ := hrows hc
    exact ⟨_, buildsRows_perBundle hp hx (.mapM _)⟩
  | keyBy hc key =>
    obtain ⟨x, hx⟩ := hrows hc
    exact ⟨_, buildsRows_perBundle hp hx (.mapM _)⟩
  | windowInto hc fn =>
    obtain ⟨x, hx⟩ := hrows hc
    obtain ⟨d, p', hd, hgrown, hy⟩ := buildsRows_perBundle hp hx (.mapM fun e =>
      (fn.assign e.timestamp).map fun windows => { e with windows })
    exact ⟨_, _, p', Attempt.begin_bind hd _, hgrown, hy.withStrategy _⟩
  | union hcs =>
    obtain ⟨xs, hxs⟩ := exists_forall₂ fun c hc => hrows (hcs c hc)
    exact ⟨_, buildsRows_union hp hxs⟩
  | windowed hc strategy =>
    obtain ⟨x, hx⟩ := hrows hc
    exact ⟨x, _, p, rfl, ⟨hp, .refl _, rfl⟩, hx.withStrategy strategy⟩

end Pipeline

theorem RowWise.carriesRows {p : Pipeline} (h : RowWise p handles) :
    p.graph.Ordered ∧ ∀ {t} {c : Collection t}, ⟨t, c⟩ ∈ handles → ∃ x, p.CarriesRows c x := by
  induction h with
  | new => exact ⟨Graph.formed_empty.ordered, nofun⟩
  | call hp hb hc ih =>
    obtain ⟨hordered, hrows⟩ := ih
    obtain ⟨x, c', p', hc', hgrown, hx⟩ := Pipeline.buildsRows_of_call hordered hrows hb
    obtain ⟨hok, rfl⟩ := Prod.mk.inj (hc.symm.trans hc')
    obtain rfl := Except.ok.inj hok
    refine ⟨hgrown.ordered, fun hmem => ?_⟩
    rcases List.mem_cons.mp hmem with heq | hmem
    · cases heq
      exact ⟨x, hx⟩
    · obtain ⟨y, hy⟩ := hrows hmem
      exact ⟨y, hy.extends hordered hgrown.ordered hgrown.front⟩
  | beside hp hordered hfront ih =>
    refine ⟨hordered, fun hmem => ?_⟩
    obtain ⟨x, hx⟩ := ih.2 hmem
    exact ⟨x, hx.extends ih.1 hordered hfront⟩

end EventTime
