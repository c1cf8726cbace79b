import EventTime.Pipeline.Stage
import EventTime.Proofs.Pipeline.Building
import EventTime.Proofs.Pipeline.Serving

/-!
# Pipelines that can be built

A pipeline is built by calls that insert one stage each, on collections that earlier calls have
answered. Its graph is well formed, and the node of each of its collections puts out rows of the
collection's type. So a collection can be read to the end unless the closure of a stage fails, and
then every stage it depends on has been evaluated once.
-/

namespace EventTime

/-- Collections of any types. -/
abbrev Handles : Type := List ((t : ElemType) × Collection t)

/-- A call that inserts one stage, or windows a collection otherwise. -/
inductive Call (handles : Handles) : (u : ElemType) → Build (Collection u) → Prop
  | source {u : ElemType} (rows : Rows u) : Call handles u (Collection.ofRows rows)
  | elementwise {t u : ElemType} {c : Collection t} (hc : ⟨t, c⟩ ∈ handles)
      (run : Bundle → Rows t → Except Fault (Rows u)) : Call handles u (c.perBundle run)
  | whole {t u : ElemType} {c : Collection t} (hc : ⟨t, c⟩ ∈ handles) (stage : String)
      (run : List (Rows t) → Except Fault (Rows u)) :
      Call handles u <| c.append <| .whole fun parts => do
        return ⟨u, ← run (← parts.mapM (·.rowsFor t stage))⟩
  | union {u : ElemType} {cs : List (Collection u)} (hcs : ∀ c ∈ cs, ⟨u, c⟩ ∈ handles) :
      Call handles u (Collection.union cs)
  | windowed {u : ElemType} {c : Collection u} (hc : ⟨u, c⟩ ∈ handles) (strategy : Strategy) :
      Call handles u (pure { c with strategy })

/-- The pipelines that calls build, and the collections they have answered. -/
inductive Buildable : Pipeline → Handles → Prop
  | new : Buildable {} []
  | call {p p' : Pipeline} {handles : Handles} {u : ElemType} {b : Build (Collection u)}
      {c : Collection u} (hp : Buildable p handles) (hb : Call handles u b)
      (hc : b.begin p = (.ok c, p')) : Buildable p' (⟨u, c⟩ :: handles)
  | setRegistry {p : Pipeline} {handles : Handles} (hp : Buildable p handles)
      (registry : Registry) : Buildable { p with registry } handles

namespace Pipeline

variable {p p' : Pipeline} {t u : ElemType} {handles : Handles}

/-- The node of a collection is there and puts out rows of the collection's type. -/
def Has (p : Pipeline) (c : Collection t) : Prop := ∀ s, ∃ x, p.Carries s c x

theorem Has.inside {c : Collection t} (h : p.Has c) : c.node < p.graph.nodes.length := by
  obtain ⟨x, hx⟩ := h ⟨1, fun _ _ => 0⟩
  exact hx.inside

theorem Has.grown {c : Collection t} (h : p.Has c) (hp : p.graph.Ordered) (hgrown : p.Grown p') :
    p'.Has c := fun s => by
  obtain ⟨x, hx⟩ := h s
  exact ⟨x, hx.grown hp hgrown⟩

theorem Has.bundles {c : Collection t} (h : p.Has c) {s : Schedule} {out : List Partition}
    (hout : p.graph.output s c.node = .ok out) :
    ∃ bundles : List (Rows t), out = bundles.map (Partition.mk t) := by
  obtain ⟨x, hx⟩ := h s
  have heq := hx.output.symm.trans hout
  cases x with
  | error e => cases heq
  | ok bundles => exact ⟨bundles, (Except.ok.inj heq).symm⟩

theorem forall₂_carries {cs : List (Collection t)} (h : ∀ c ∈ cs, p.Has c) (s : Schedule) :
    ∃ xs, List.Forall₂ (p.Carries s) cs xs := by
  induction cs with
  | nil => exact ⟨[], .nil⟩
  | cons c cs ih =>
    obtain ⟨hc, hcs⟩ := List.forall_mem_cons.mp h
    obtain ⟨x, hx⟩ := hc s
    obtain ⟨xs, hxs⟩ := ih hcs
    exact ⟨x :: xs, .cons hx hxs⟩

/-- A call answers whatever the schedule will be, so what it builds under each is one collection. -/
theorem has_of_builds {b : Build (Collection u)} {c : Collection u}
    (h : ∀ s, ∃ strategy x, p.Builds s b strategy x) (hc : b.begin p = (.ok c, p')) :
    p.Grown p' ∧ p'.Has c := by
  obtain ⟨_, _, hone⟩ := h ⟨1, fun _ _ => 0⟩
  refine ⟨(hone.answered hc).1, fun s => ?_⟩
  obtain ⟨_, x, hs⟩ := h s
  exact ⟨x, (hs.answered hc).2.2⟩

theorem builds_ofRows (hp : p.graph.Ordered) (s : Schedule) (rows : Rows t) :
    p.Builds s (Collection.ofRows rows) {} (.ok (split s.partitions rows)) := by
  have hins : ∀ i ∈ ([] : List Nat), i < p.graph.nodes.length := nofun
  refine builds_insert hp _ hins {} ?_
  simp only [Graph.outputFrom, nodes_add]
  rfl

/-- A call grows a well-formed pipeline into one, and its collection is there. -/
theorem answered (hp : p.graph.Formed) (hhas : ∀ {t} {c : Collection t}, ⟨t, c⟩ ∈ handles → p.Has c)
    {b : Build (Collection u)} {c : Collection u} (hb : Call handles u b)
    (hc : b.begin p = (.ok c, p')) : p.Grown p' ∧ p'.graph.Formed ∧ p'.Has c := by
  cases hb with
  | source rows =>
    have h := has_of_builds (fun s => ⟨_, _, builds_ofRows hp.ordered s rows⟩) hc
    obtain ⟨-, rfl⟩ := Prod.mk.inj hc
    exact ⟨h.1, hp.add nofun rfl, h.2⟩
  | elementwise hmem run =>
    have h := has_of_builds (fun s => by
      obtain ⟨x, hx⟩ := hhas hmem s
      exact ⟨_, _, builds_perBundle hp.ordered hx run⟩) hc
    obtain ⟨-, rfl⟩ := Prod.mk.inj hc
    exact ⟨h.1, hp.add (by simpa using (hhas hmem).inside) rfl, h.2⟩
  | whole hmem stage run =>
    have h := has_of_builds (fun s => by
      obtain ⟨x, hx⟩ := hhas hmem s
      refine ⟨_, _, builds_whole (y := run) hp.ordered hx fun bundles => ?_⟩
      rw [mapM_rowsFor]
      cases hrun : run bundles <;> simp only [bind, Except.bind, hrun] <;> rfl) hc
    obtain ⟨-, rfl⟩ := Prod.mk.inj hc
    exact ⟨h.1, hp.add (by simpa using (hhas hmem).inside) rfl, h.2⟩
  | union hcs =>
    have h := has_of_builds (fun s => by
      obtain ⟨xs, hxs⟩ := forall₂_carries (fun c hc => hhas (hcs c hc)) s
      exact ⟨_, _, builds_union hp.ordered hxs⟩) hc
    obtain ⟨-, rfl⟩ := Prod.mk.inj hc
    refine ⟨h.1, hp.add (fun i hi => ?_) trivial, h.2⟩
    obtain ⟨c, hc, rfl⟩ := List.mem_map.mp hi
    exact (hhas (hcs c hc)).inside
  | windowed hmem strategy =>
    obtain ⟨hok, rfl⟩ := Prod.mk.inj hc
    obtain rfl := Except.ok.inj hok
    refine ⟨⟨hp.ordered, .refl _, rfl⟩, hp, fun s => ?_⟩
    obtain ⟨x, hx⟩ := hhas hmem s
    exact ⟨x, hx.inside, hx.output⟩

/-- A call inserts one node, that of its collection, or none. -/
theorem inserted {b : Build (Collection u)} {c : Collection u} (hb : Call handles u b)
    (hc : b.begin p = (.ok c, p')) :
    p' = p ∨ p'.graph.nodes.length = p.graph.nodes.length + 1 ∧ c.node = p.graph.nodes.length := by
  cases hb with
  | windowed => exact .inl (Prod.mk.inj hc).2.symm
  | _ =>
    obtain ⟨hok, rfl⟩ := Prod.mk.inj hc
    obtain rfl := Except.ok.inj hok
    exact .inr ⟨List.length_append, rfl⟩

end Pipeline

namespace Buildable

variable {p : Pipeline} {handles : Handles} {t : ElemType} {c : Collection t}

theorem formed_has (h : Buildable p handles) :
    p.graph.Formed ∧ ∀ {t} {c : Collection t}, ⟨t, c⟩ ∈ handles → p.Has c := by
  induction h with
  | new => exact ⟨Graph.formed_empty, nofun⟩
  | call hp hb hc ih =>
    obtain ⟨hformed, hhas⟩ := ih
    obtain ⟨hgrown, hformed', hhas'⟩ := Pipeline.answered hformed hhas hb hc
    refine ⟨hformed', fun hmem => ?_⟩
    rcases List.mem_cons.mp hmem with heq | hmem
    · cases heq
      exact hhas'
    · exact (hhas hmem).grown hformed.ordered hgrown
  | setRegistry hp registry ih =>
    exact ⟨ih.1, fun hmem s => by
      obtain ⟨x, hx⟩ := ih.2 hmem s
      exact ⟨x, hx.inside, hx.output⟩⟩

/-- Every node is that of a collection. -/
theorem exists_collection (h : Buildable p handles) {n : Nat} (hn : n < p.graph.nodes.length) :
    ∃ (u : ElemType) (d : Collection u), ⟨u, d⟩ ∈ handles ∧ d.node = n := by
  induction h with
  | new => exact absurd hn (Nat.not_lt_zero n)
  | @call _ _ _ u _ c _ hb hc ih =>
    by_cases hlast : c.node = n
    · exact ⟨u, c, List.mem_cons_self .., hlast⟩
    · obtain ⟨v, d, hd, hnode⟩ := ih <| by
        rcases Pipeline.inserted hb hc with rfl | ⟨hlength, hnode⟩
        · exact hn
        · omega
      exact ⟨v, d, List.mem_cons_of_mem _ hd, hnode⟩
  | setRegistry _ _ ih => exact ih hn

/-- The error of reading a collection to the end is that of a closure upstream. -/
theorem exists_fails_of_collect (hp : Buildable p handles) (hc : ⟨t, c⟩ ∈ handles) {s : Schedule}
    {e : Fault} (h : p.collect s c.node t = .error e) :
    ∃ n, p.graph.Upstream c.node n ∧ p.graph.Fails s n e := by
  obtain ⟨hformed, hhas⟩ := hp.formed_has
  obtain ⟨x, hx⟩ := hhas hc s
  rw [hx.collect hformed.ordered] at h
  refine hformed.fails_of_output hx.inside (hx.output.trans ?_)
  cases x with
  | ok bundles => cases h
  | error e' => exact congrArg Except.error (Except.error.inj h)

/-- The outputs that an evaluation hands out are those of the nodes, and rows of the types that
their collections have. -/
theorem exists_servedOnce (hp : Buildable p handles) (hc : ⟨t, c⟩ ∈ handles) {s : Schedule}
    (hruns : ∀ n, p.graph.Upstream c.node n → ∀ e, ¬p.graph.Fails s n e) :
    ∃ (out : Nat → List Partition) (r : Noted Partition),
      p.graph.evaluateNoted s c.node = .ok (out c.node, r) ∧
      (∀ n, p.graph.Upstream c.node n → p.graph.output s n = .ok (out n) ∧
        ∃ (u : ElemType) (d : Collection u), ⟨u, d⟩ ∈ handles ∧ d.node = n ∧
          ∃ bundles : List (Rows u), out n = bundles.map (Partition.mk u)) ∧
      Noted.ServedOnce p.graph c.node out r := by
  obtain ⟨hformed, hhas⟩ := hp.formed_has
  have hinside : c.node < p.graph.nodes.length := (hhas hc).inside
  obtain ⟨out, r, hnoted, hout, hserved⟩ := Noted.evaluateNoted_servedOnce hformed hinside hruns
  refine ⟨out, r, hnoted, fun n hn => ⟨hout n hn, ?_⟩, hserved⟩
  obtain ⟨u, d, hd, rfl⟩ :=
    hp.exists_collection (Nat.lt_of_le_of_lt (hn.le hformed.ordered) hinside)
  exact ⟨u, d, hd, rfl, (hhas hd).bundles (hout d.node hn)⟩

/-- Reading a collection to the end fails only with what the closure of some stage upstream failed
with. If none does, every node upstream is evaluated once, each of its readers gets the same
partitions, once for every edge, and no output is left at the end. What the readers of a node get is
the node's own output, rows of the one type that its collection has: so the partitions handed out to
all readers but the last one can be copied by what was registered for that type. -/
theorem collect_serves_every_reader (hp : Buildable p handles) (hc : ⟨t, c⟩ ∈ handles)
    (s : Schedule) :
    (∀ e, p.collect s c.node t = .error e →
      ∃ n, p.graph.Upstream c.node n ∧ p.graph.Fails s n e) ∧
    ((∀ n, p.graph.Upstream c.node n → ∀ e, ¬p.graph.Fails s n e) →
      ∃ (rows : Rows t) (out : Nat → List Partition) (r : Noted Partition),
        p.collect s c.node t = .ok rows ∧
        p.graph.evaluateNoted s c.node = .ok (out c.node, r) ∧
        p.graph.evaluate s c.node = .ok (out c.node, r.toEvaluation) ∧
        (∀ n, p.graph.Upstream c.node n → p.graph.output s n = .ok (out n) ∧
          ∃ (u : ElemType) (d : Collection u), ⟨u, d⟩ ∈ handles ∧ d.node = n ∧
            ∃ bundles : List (Rows u), out n = bundles.map (Partition.mk u)) ∧
        Noted.ServedOnce p.graph c.node out r) := by
  refine ⟨fun e => hp.exists_fails_of_collect hc, fun hruns => ?_⟩
  obtain ⟨out, r, hnoted, hout, hserved⟩ := hp.exists_servedOnce hc hruns
  have hevaluate := Graph.forget_evaluateNoted p.graph s c.node
  rw [hnoted] at hevaluate
  cases hcollect : p.collect s c.node t with
  | error e =>
    obtain ⟨n, hn, hfails⟩ := hp.exists_fails_of_collect hc hcollect
    exact absurd hfails (hruns n hn e)
  | ok rows => exact ⟨rows, out, r, rfl, hnoted, hevaluate.symm, hout, hserved⟩

/-- Numbers, and a union that reads them twice and their doubles once. -/
def numbers : Build (Collection .datum) :=
  Collection.ofValues (t := .datum) [.int 1, .int 2, .int 3]

def doubles : Build (Collection .datum) :=
  Collection.map (t := .datum) ⟨0, {}⟩ (ValueFn.mul 2).apply

def numbersTwice : Build (Collection .datum) := Collection.union [⟨0, {}⟩, ⟨1, {}⟩, ⟨0, {}⟩]

def numbersPipeline : Pipeline :=
  (numbersTwice.begin (doubles.begin (numbers.begin {}).2).2).2

theorem collect_serves_every_reader_of_numbers :
    Buildable numbersPipeline
        [⟨.datum, ⟨2, {}⟩⟩, ⟨.datum, ⟨1, {}⟩⟩, ⟨.datum, ⟨0, {}⟩⟩] ∧
      (∀ n, numbersPipeline.graph.Upstream 2 n →
        ∀ e, ¬numbersPipeline.graph.Fails ⟨2, fun _ _ => 0⟩ n e) ∧
      ∃ (out : Nat → List Partition) (r : Noted Partition),
        numbersPipeline.graph.evaluateNoted ⟨2, fun _ _ => 0⟩ 2 = .ok (out 2, r) ∧
        r.readBy (some 2) = [(0, out 0), (1, out 1), (0, out 0)] ∧
        r.readBy (some 1) = [(0, out 0)] ∧ r.visited.Nodup ∧ ∀ n, r.outputs n = none := by
  have hbuilt : Buildable numbersPipeline
      [⟨.datum, ⟨2, {}⟩⟩, ⟨.datum, ⟨1, {}⟩⟩, ⟨.datum, ⟨0, {}⟩⟩] := by
    have hsource : Buildable (numbers.begin {}).2 [⟨.datum, ⟨0, {}⟩⟩] :=
      .call .new (.source _) rfl
    have hdoubles : Buildable (doubles.begin (numbers.begin {}).2).2
        [⟨.datum, ⟨1, {}⟩⟩, ⟨.datum, ⟨0, {}⟩⟩] :=
      hsource.call (.elementwise (List.mem_singleton_self _) fun _ rows =>
        .ok (rows.map fun e => e.withValue ((ValueFn.mul 2).apply e.value))) rfl
    refine hdoubles.call (.union fun c hc => ?_) (b := numbersTwice) rfl
    simp only [List.mem_cons, List.not_mem_nil, or_false] at hc ⊢
    rcases hc with rfl | rfl | rfl <;> simp
  have hruns : ∀ n, numbersPipeline.graph.Upstream 2 n →
      ∀ e, ¬numbersPipeline.graph.Fails ⟨2, fun _ _ => 0⟩ n e := by
    intro n hn e hfails
    have hle := hn.le hbuilt.formed_has.1.ordered
    obtain rfl | rfl | rfl : n = 0 ∨ n = 1 ∨ n = 2 := by omega
    · rcases hfails with ⟨hn, -, -, -⟩ | ⟨hn, -, -, -⟩ <;> cases hn
    · rcases hfails with ⟨hn, hi, hparts, hrun⟩ | ⟨hn, -, -, -⟩
      · cases hn
        obtain rfl := List.mem_singleton.mp hi
        obtain rfl := Except.ok.inj hparts
        have hok := Pipeline.runBundles_eq (t := .datum) (u := .datum) ⟨2, fun _ _ => 0⟩ 1
          (fun _ rows => .ok (rows.map fun e => e.withValue ((ValueFn.mul 2).apply e.value)))
          "element-wise stage" 0 (split 2 (List.map .inGlobalWindow [.int 1, .int 2, .int 3]))
        rw [Pipeline.runEach_const, mapM_ok] at hok
        cases hrun.symm.trans hok
      · cases hn
    · rcases hfails with ⟨hn, -, -, -⟩ | ⟨hn, -, -, -⟩ <;> cases hn
  obtain ⟨-, out, r, -, hnoted, -, -, hserved⟩ :=
    (collect_serves_every_reader hbuilt (List.mem_cons_self ..) _).2 hruns
  refine ⟨hbuilt, hruns, out, r, hnoted, ?_, ?_, hserved.once, hserved.nothing_kept⟩
  · exact hserved.reads 2 .terminal
  · exact hserved.reads 1 (.input .terminal (by decide))

end Buildable

end EventTime
