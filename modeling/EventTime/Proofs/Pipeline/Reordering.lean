import EventTime.Proofs.Pipeline.Building

/-!
# Rows in any order

A stage that sees all partitions at once gathers its rows by key, and nothing fixes the order of the
keys. In a reordered pipeline such stages put out their rows in some other order, and whatever
building adds to it is reordered as well. What a collection carries there is described up to order.
-/

namespace EventTime

variable {t u : ElemType}

/-- A way to put rows in another order. -/
structure Shuffle (β : Type) where
  apply : List β → List β
  perm : ∀ rows, (apply rows).Perm rows

namespace Shuffle

variable {β : Type}

/-- Leaves rows as they are. -/
def refl (β : Type) : Shuffle β := ⟨id, .refl⟩

instance : Inhabited (Shuffle β) := ⟨refl β⟩

/-- Two lists that are the same up to order are so by a shuffle. -/
theorem exists_of_perm {rows rows' : List β} (h : rows'.Perm rows) :
    ∃ σ : Shuffle β, σ.apply rows = rows' := by
  classical
  refine ⟨⟨fun l => if l = rows then rows' else l, fun l => ?_⟩, if_pos rfl⟩
  by_cases hl : l = rows
  · rw [if_pos hl, hl]
    exact h
  · rw [if_neg hl]

theorem mem_apply (σ : Shuffle β) {rows : List β} {b : β} : b ∈ σ.apply rows ↔ b ∈ rows :=
  (σ.perm rows).mem_iff

end Shuffle

/-- Puts the rows of every partition in some order. -/
def Partition.Shuffles (f : Partition → Partition) : Prop :=
  ∀ (t : ElemType) (rows : Rows t), ∃ rows', f ⟨t, rows⟩ = ⟨t, rows'⟩ ∧ rows'.Perm rows

theorem Partition.shuffles_id : Partition.Shuffles id := fun _ rows => ⟨rows, rfl, .refl _⟩

/-- A stage that sees all partitions at once, with its rows put out in another order. -/
def Node.reordered (f : Partition → Partition) : Node Partition → Node Partition
  | .whole run => .whole fun parts => (run parts).map f
  | node => node

theorem Node.reordered_id (node : Node Partition) : node.reordered id = node := by
  cases node with
  | whole run =>
    refine congrArg Node.whole (funext fun parts => ?_)
    cases run parts <;> rfl
  | source cut => rfl
  | elementwise run => rfl
  | union => rfl

namespace Pipeline

/-- The stages from the `n`-th on put out their rows in other orders. -/
def reordered (p : Pipeline) (n : Nat) (order : Nat → Partition → Partition) : Pipeline where
  graph :=
    { p.graph with
      nodes := p.graph.nodes.mapIdx fun i node => if n ≤ i then node.reordered (order i) else node }
  registry := p.registry

variable {p p' : Pipeline} {n : Nat} {order : Nat → Partition → Partition} {s : Schedule}

@[simp] theorem length_reordered (p : Pipeline) (n : Nat) (order : Nat → Partition → Partition) :
    (p.reordered n order).graph.nodes.length = p.graph.nodes.length := List.length_mapIdx

theorem reordered_eq_self {nodes : List (Node Partition)} {g : Nat → Node Partition → Node Partition}
    (h : ∀ i node, i < nodes.length → g i node = node) : nodes.mapIdx g = nodes := by
  refine List.ext_getElem List.length_mapIdx fun i hi hi' => ?_
  rw [List.getElem_mapIdx, h i _ hi']

/-- Stages that are not there are not reordered. -/
theorem reordered_of_le (h : p.graph.nodes.length ≤ n) : p.reordered n order = p := by
  rw [reordered, reordered_eq_self fun i node hi => if_neg (by omega)]

/-- Every pipeline is a reordering of itself. -/
theorem reordered_id (p : Pipeline) (n : Nat) : p.reordered n (fun _ => id) = p := by
  rw [reordered, reordered_eq_self fun i node _ => by rw [Node.reordered_id, ite_self]]

theorem reordered_add (hn : n ≤ p.graph.nodes.length) (node : Node Partition) (ins : List Nat) :
    ({ p with graph := p.graph.add node ins } : Pipeline).reordered n order =
      { p.reordered n order with
        graph := (p.reordered n order).graph.add
          (node.reordered (order p.graph.nodes.length)) ins } := by
  simp only [reordered, Graph.add, List.mapIdx_append, List.mapIdx_cons, List.mapIdx_nil,
    List.length_mapIdx, Nat.zero_add, if_pos hn]

/-- Building succeeds, and in the reordered pipeline the collection that is built carries something
with a property: bundles of rows, or the failure of the run. -/
def BuildsReordered (p : Pipeline) (n : Nat) (order : Nat → Partition → Partition) (s : Schedule)
    (b : Build (Collection t)) (strategy : Strategy) (post : Except Fault (List (Rows t)) → Prop) :
    Prop :=
  b.Succeeds p fun c p' => n ≤ p'.graph.nodes.length ∧
    (p.reordered n order).Grown (p'.reordered n order) ∧ c.strategy = strategy ∧
    ∃ x, (p'.reordered n order).Carries s c x ∧ post x

variable {strategy strategy' : Strategy} {post : Except Fault (List (Rows t)) → Prop}
  {post' : Except Fault (List (Rows u)) → Prop} {c : Collection t}
  {x : Except Fault (List (Rows t))}

/-- What is built collects what it carries. -/
theorem BuildsReordered.answered {b : Build (Collection t)}
    (h : p.BuildsReordered n order s b strategy post) (hc : b.begin p = (.ok c, p')) :
    ∃ x, (p'.reordered n order).collect s c.node t = x.map List.flatten ∧ post x := by
  obtain ⟨c', p'', hb, -, hgrown, -, x, hcarries, hpost⟩ := h
  obtain ⟨hok, rfl⟩ := Prod.mk.inj (hc.symm.trans hb)
  obtain rfl := Except.ok.inj hok
  exact ⟨x, hcarries.collect hgrown.ordered, hpost⟩

/-- A pipeline whose rows stay as they are is not reordered. -/
theorem builds_of_reordered {b : Build (Collection t)}
    (h : p.BuildsReordered n (fun _ => id) s b strategy post) :
    ∃ x, p.Builds s b strategy x ∧ post x := by
  obtain ⟨c, p', hb, -, hgrown, hstrategy, x, hcarries, hpost⟩ := h
  rw [reordered_id, reordered_id] at hgrown
  rw [reordered_id] at hcarries
  exact ⟨x, ⟨c, p', hb, hgrown, hstrategy, hcarries⟩, hpost⟩

/-- What is built where any order is chosen is one collection, and in each order it collects what it
carries there. -/
theorem exists_collected {b : Build (Collection t)}
    (h : ∀ order, (∀ i, Partition.Shuffles (order i)) →
      p.BuildsReordered p.graph.nodes.length order s b strategy post) :
    ∃ c p', b.begin p = (.ok c, p') ∧ ∀ order, (∀ i, Partition.Shuffles (order i)) →
      ∃ x, (p'.reordered p.graph.nodes.length order).collect s c.node t = x.map List.flatten ∧
        post x := by
  obtain ⟨c, p', hb, -⟩ := h (fun _ => id) fun _ => Partition.shuffles_id
  exact ⟨c, p', hb, fun order horder => (h order horder).answered hb⟩

theorem BuildsReordered.imp {b : Build (Collection t)}
    {post' : Except Fault (List (Rows t)) → Prop}
    (h : p.BuildsReordered n order s b strategy post) (himp : ∀ x, post x → post' x) :
    p.BuildsReordered n order s b strategy post' := by
  obtain ⟨c, p', hb, hn, hgrown, hstrategy, x, hcarries, hpost⟩ := h
  exact ⟨c, p', hb, hn, hgrown, hstrategy, x, hcarries, himp _ hpost⟩

theorem BuildsReordered.bind {b : Build (Collection t)} {f : Collection t → Build (Collection u)}
    (h : p.BuildsReordered n order s b strategy post)
    (hf : ∀ (c : Collection t) (p' : Pipeline) x, n ≤ p'.graph.nodes.length →
      (p.reordered n order).Grown (p'.reordered n order) → c.strategy = strategy →
      (p'.reordered n order).Carries s c x → post x →
      p'.BuildsReordered n order s (f c) strategy' post') :
    p.BuildsReordered n order s (b >>= f) strategy' post' := by
  refine Attempt.Succeeds.bind h fun c p' hmid => ?_
  obtain ⟨hn, hgrown, hstrategy, x, hcarries, hpost⟩ := hmid
  obtain ⟨c', p'', hb, hn', hgrown', hrest⟩ := hf c p' x hn hgrown hstrategy hcarries hpost
  exact ⟨c', p'', hb, hn', hgrown.trans hgrown', hrest⟩

theorem BuildsReordered.begin_bind {ρ : Type} {a : Build ρ} {r : ρ} (h : a.begin p = (.ok r, p))
    {f : ρ → Build (Collection t)} (hf : p.BuildsReordered n order s (f r) strategy post) :
    p.BuildsReordered n order s (a >>= f) strategy post := by
  obtain ⟨c, p', hb, hrest⟩ := hf
  exact ⟨c, p', (Attempt.begin_bind h f).trans hb, hrest⟩

/-- What inserting a stage builds in the reordered pipeline, inserting the stage reordered builds
there. -/
theorem buildsReordered_insert (hn : n ≤ p.graph.nodes.length) {node : Node Partition}
    {ins : List Nat} (h : (p.reordered n order).Builds s
      (do return { node := ← Pipeline.insert (node.reordered (order p.graph.nodes.length)) ins,
                   strategy }) strategy x) (hpost : post x) :
    p.BuildsReordered n order s (do return { node := ← Pipeline.insert node ins, strategy })
      strategy post := by
  obtain ⟨hgrown, -, hcarries⟩ := h.answered rfl
  rw [length_reordered] at hcarries
  refine ⟨_, _, rfl, ?_, ?_, rfl, x, ?_, hpost⟩
  · exact Nat.le_trans hn (by simp [Graph.add])
  · rw [reordered_add hn]
    exact hgrown
  · rw [reordered_add hn]
    exact hcarries

theorem buildsReordered_elementwise (hn : n ≤ p.graph.nodes.length)
    {run : (bundle : Nat) → UInt32 → Partition → Except Fault Partition}
    {out : Except Fault (List (Rows u))}
    (h : (p.reordered n order).Builds s (c.append (.elementwise run)) c.strategy out) :
    p.BuildsReordered n order s (c.append (.elementwise run)) c.strategy (· = out) :=
  buildsReordered_insert hn h rfl

theorem buildsReordered_union (hn : n ≤ p.graph.nodes.length) {cs : List (Collection t)}
    (h : (p.reordered n order).Builds s (Collection.union cs) strategy x)
    (hstrategy : (cs.head?.map (·.strategy)).getD {} = strategy) :
    p.BuildsReordered n order s (Collection.union cs) strategy (· = x) := by
  subst hstrategy
  exact buildsReordered_insert hn h rfl

/-- A stage that sees all partitions at once puts out its rows in some order. -/
theorem buildsReordered_whole (hn : n ≤ p.graph.nodes.length)
    (horder : ∀ i, Partition.Shuffles (order i)) (hq : (p.reordered n order).graph.Ordered)
    (h : (p.reordered n order).Carries s c x)
    {run : List Partition → Except Fault Partition} {y : List (Rows t) → Except Fault (Rows u)}
    (hrun : ∀ bundles, run (bundles.map (Partition.mk t)) = (y bundles).map (Partition.mk u)) :
    p.BuildsReordered n order s (c.append (.whole run)) c.strategy fun out =>
      ∃ σ : Shuffle (Envelope u.Elem), out = ((x >>= y).map σ.apply).map ([·]) := by
  choose shuffle hshuffle hperm using horder p.graph.nodes.length u
  have hrows : ∀ bundles, (run (bundles.map (Partition.mk t))).map (order p.graph.nodes.length) =
      ((y bundles).map shuffle).map (Partition.mk u) := by
    intro bundles
    rw [hrun]
    cases y bundles with
    | error e => rfl
    | ok rows => exact congrArg Except.ok (hshuffle rows)
  have hbuilds : (p.reordered n order).Builds s
      (c.append (.whole fun parts => (run parts).map (order p.graph.nodes.length))) c.strategy
      (((x >>= y).map shuffle).map ([·])) := by
    refine (builds_whole hq h hrows).of_eq ?_
    cases x <;> rfl
  exact buildsReordered_insert hn hbuilds ⟨⟨shuffle, hperm⟩, rfl⟩

end Pipeline

end EventTime
