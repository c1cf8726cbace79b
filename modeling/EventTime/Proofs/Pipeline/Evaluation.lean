import EventTime.Pipeline.Graph

/-!
# What a node puts out

The output of a node follows from the outputs of its inputs alone. An evaluation keeps some outputs
and computes others again, but as long as every kept output is the right one, so is every output it
reads. A graph that grows does not change what its older nodes put out.
-/

namespace EventTime

variable {π β γ : Type}

namespace Graph

/-- Every edge leads from an older to a newer node of the graph. -/
def Ordered (g : Graph π) : Prop := ∀ e ∈ g.edges, e.1 < e.2 ∧ e.2 < g.nodes.length

/-- The outputs of several nodes, joined. -/
def joinEach (output : Nat → Except Fault (List π)) : List Nat → Except Fault (List π)
  | [] => .ok []
  | i :: rest => do
    let first ← output i
    let others ← joinEach output rest
    return first ++ others

/-- The output of a node, given the outputs of its inputs. -/
def outputFrom (g : Graph π) (s : Schedule) (output : Nat → Except Fault (List π)) (node : Nat) :
    Except Fault (List π) :=
  match g.nodes[node]? with
  | none => .error (.missingNode node)
  | some (.source cut) => .ok (cut s.partitions)
  | some .union => joinEach output (g.inputs node)
  | some (.elementwise run) =>
    match g.inputs node with
    | [] => .error (.noInput node)
    | input :: _ => do
      let parts ← output input
      runBundles s node run 0 parts
  | some (.whole run) =>
    match g.inputs node with
    | [] => .error (.noInput node)
    | input :: _ => do
      let parts ← output input
      return [← run parts]

/-- The output of a node whose inputs lie at most `depth` deep. -/
def outputWithin (g : Graph π) (s : Schedule) :
    (depth : Nat) → (node : Nat) → Except Fault (List π)
  | 0, node => .error (.missingNode node)
  | depth + 1, node => g.outputFrom s (g.outputWithin s depth) node

def output (g : Graph π) (s : Schedule) (node : Nat) : Except Fault (List π) :=
  g.outputWithin s (node + 1) node

theorem lt_of_mem_inputs {g : Graph π} (hg : g.Ordered) {i node : Nat} (h : i ∈ g.inputs node) :
    i < node := by
  obtain ⟨e, he, rfl⟩ := List.mem_map.mp h
  obtain ⟨hmem, hnode⟩ := List.mem_filter.mp he
  have hlt := (hg e hmem).1
  have heq : e.2 = node := by simpa using hnode
  omega

theorem joinEach_congr {f f' : Nat → Except Fault (List π)} {l : List Nat}
    (h : ∀ i ∈ l, f i = f' i) : joinEach f l = joinEach f' l := by
  induction l with
  | nil => rfl
  | cons i rest ih =>
    have hi := h i (List.mem_cons_self ..)
    have hrest := ih fun j hj => h j (List.mem_cons_of_mem _ hj)
    simp only [joinEach, hi, hrest]

theorem outputFrom_congr {g : Graph π} {s : Schedule} {f f' : Nat → Except Fault (List π)}
    {node : Nat} (h : ∀ i ∈ g.inputs node, f i = f' i) :
    g.outputFrom s f node = g.outputFrom s f' node := by
  have hfirst : ∀ {i rest}, g.inputs node = i :: rest → f i = f' i := by
    intro i rest hinputs
    exact h i (hinputs ▸ List.mem_cons_self ..)
  simp only [outputFrom]
  split
  · rfl
  · rfl
  · exact joinEach_congr h
  · split
    · rfl
    · rw [hfirst ‹_›]
  · split
    · rfl
    · rw [hfirst ‹_›]

theorem outputWithin_eq {g : Graph π} (hg : g.Ordered) (s : Schedule) {depth node : Nat}
    (h : node < depth) : g.outputWithin s depth node = g.output s node := by
  induction node using Nat.strongRecOn generalizing depth with
  | ind node ih =>
    cases depth with
    | zero => omega
    | succ depth =>
      rw [output, outputWithin, outputWithin]
      refine outputFrom_congr fun i hi => ?_
      have hlt := lt_of_mem_inputs hg hi
      rw [ih i hlt (by omega), ih i hlt hlt]

theorem output_eq {g : Graph π} (hg : g.Ordered) (s : Schedule) (node : Nat) :
    g.output s node = g.outputFrom s (g.output s) node := by
  rw [output, outputWithin]
  refine outputFrom_congr fun i hi => ?_
  exact outputWithin_eq hg s (lt_of_mem_inputs hg hi)

/-- Every kept output is the output of its node. -/
def Sound (g : Graph π) (s : Schedule) (r : Evaluation π) : Prop :=
  ∀ node out, r.outputs node = some out → g.output s node = .ok out

/-- An answer on the way through an evaluation is the one expected, and what is kept stays sound. -/
def Agrees (g : Graph π) (s : Schedule) (x : Except Fault (β × Evaluation π))
    (y : Except Fault β) : Prop :=
  match x with
  | .ok (a, r) => y = .ok a ∧ g.Sound s r
  | .error e => y = .error e

variable {g : Graph π} {s : Schedule}

theorem Agrees.bind {x : Except Fault (β × Evaluation π)} {y : Except Fault β}
    {f : β × Evaluation π → Except Fault (γ × Evaluation π)} {k : β → Except Fault γ}
    (hx : Agrees g s x y) (hf : ∀ a r, g.Sound s r → Agrees g s (f (a, r)) (k a)) :
    Agrees g s (x >>= f) (y >>= k) := by
  cases x with
  | error e =>
    have hy : y = .error e := hx
    rw [hy]
    rfl
  | ok p =>
    obtain ⟨a, r⟩ := p
    obtain ⟨rfl, hr⟩ := hx
    exact hf a r hr

theorem Sound.serve {r : Evaluation π} (hr : g.Sound s r) {node : Nat} {out : List π}
    (hkept : r.outputs node = some out) : Agrees g s (r.serve node) (.ok out) := by
  rw [Evaluation.serve, hkept]
  refine ⟨rfl, fun i kept h => ?_⟩
  dsimp only at h
  by_cases hdrop : i = node ∧ r.pending node - 1 = 0
  · rw [if_pos hdrop] at h
    cases h
  · rw [if_neg hdrop] at h
    exact hr i kept h

theorem Sound.store {r : Evaluation π} (hr : g.Sound s r) {node : Nat} {out : List π}
    (h : g.output s node = .ok out) : g.Sound s (r.store node out) := by
  intro i kept hkept
  rw [Evaluation.store] at hkept
  by_cases hi : i = node
  · simp only [hi, if_true, Option.some.injEq] at hkept
    rw [hi, h, hkept]
  · simp only [hi, if_false] at hkept
    exact hr i kept hkept

theorem readEach_agrees {read : Nat → Evaluation π → Except Fault (List π × Evaluation π)}
    {l : List Nat} (hread : ∀ i ∈ l, ∀ r, g.Sound s r → Agrees g s (read i r) (g.output s i))
    {r : Evaluation π} (hr : g.Sound s r) :
    Agrees g s (readEach read l r) (joinEach (g.output s) l) := by
  induction l generalizing r with
  | nil => exact ⟨rfl, hr⟩
  | cons i rest ih =>
    refine (hread i (List.mem_cons_self ..) r hr).bind fun first r hr => ?_
    refine (ih (fun j hj => hread j (List.mem_cons_of_mem _ hj)) hr).bind fun others r hr => ?_
    exact ⟨rfl, hr⟩

theorem compute_agrees {read : Nat → Evaluation π → Except Fault (List π × Evaluation π)}
    {node : Nat}
    (hread : ∀ i ∈ g.inputs node, ∀ r, g.Sound s r → Agrees g s (read i r) (g.output s i))
    {r : Evaluation π} (hr : g.Sound s r) :
    Agrees g s (g.compute s read node r) (g.outputFrom s (g.output s) node) := by
  cases hnode : g.nodes[node]? with
  | none =>
    simp only [compute, outputFrom, hnode]
    rfl
  | some stage =>
    cases stage with
    | source cut =>
      simp only [compute, outputFrom, hnode]
      exact ⟨rfl, hr⟩
    | union =>
      simp only [compute, outputFrom, hnode]
      exact readEach_agrees hread hr
    | elementwise run =>
      simp only [compute, outputFrom, hnode]
      cases hinputs : g.inputs node with
      | nil => rfl
      | cons i rest =>
        have hi := hread i (hinputs ▸ List.mem_cons_self ..) r hr
        refine hi.bind fun parts r hr => ?_
        cases runBundles s node run 0 parts with
        | error e => rfl
        | ok out => exact ⟨rfl, hr⟩
    | whole run =>
      simp only [compute, outputFrom, hnode]
      cases hinputs : g.inputs node with
      | nil => rfl
      | cons i rest =>
        have hi := hread i (hinputs ▸ List.mem_cons_self ..) r hr
        refine hi.bind fun parts r hr => ?_
        cases run parts with
        | error e => rfl
        | ok out => exact ⟨rfl, hr⟩

/-- Reading a node answers its output, whatever else has been kept or taken away. -/
theorem read_agrees (hg : g.Ordered) {depth node : Nat} (hdepth : node < depth)
    {r : Evaluation π} (hr : g.Sound s r) :
    Agrees g s (g.read s depth node r) (g.output s node) := by
  induction depth generalizing node r with
  | zero => omega
  | succ depth ih =>
    rw [read]
    cases hkept : r.outputs node with
    | some out =>
      rw [hr node out hkept]
      exact hr.serve hkept
    | none =>
      have hcompute : Agrees g s (g.compute s (g.read s depth) node r) (g.output s node) := by
        rw [output_eq hg]
        refine compute_agrees (fun i hi r hr => ?_) hr
        exact ih (by have := lt_of_mem_inputs hg hi; omega) hr
      cases hc : g.compute s (g.read s depth) node r with
      | error e =>
        rw [hc] at hcompute
        exact hcompute
      | ok p =>
        obtain ⟨out, r'⟩ := p
        rw [hc] at hcompute
        obtain ⟨hout, hr'⟩ := hcompute
        rw [hout]
        exact (hr'.store hout).serve (by simp [Evaluation.store])

theorem evaluate_map_fst (hg : g.Ordered) (s : Schedule) (terminal : Nat) :
    (g.evaluate s terminal).map Prod.fst = g.output s terminal := by
  have hstart : g.Sound s { pending := g.readings terminal } := fun _ _ h => nomatch h
  have h := read_agrees hg (Nat.lt_succ_self terminal) hstart
  rw [evaluate]
  cases hread : g.read s (terminal + 1) terminal { pending := g.readings terminal } with
  | error e =>
    rw [hread] at h
    exact h.symm
  | ok p =>
    rw [hread] at h
    exact h.1.symm

/-! ### Growing graphs -/

/-- The older graph is the front of the newer one. -/
structure Extends (g g' : Graph π) : Prop where
  nodes : g.nodes <+: g'.nodes
  inputs : ∀ node < g.nodes.length, g'.inputs node = g.inputs node

theorem Extends.refl (g : Graph π) : g.Extends g := ⟨List.prefix_rfl, fun _ _ => rfl⟩

theorem Extends.trans {g₁ g₂ g₃ : Graph π} (h : g₁.Extends g₂) (h' : g₂.Extends g₃) :
    g₁.Extends g₃ :=
  ⟨h.nodes.trans h'.nodes, fun node hn =>
    (h'.inputs node (Nat.lt_of_lt_of_le hn h.nodes.length_le)).trans (h.inputs node hn)⟩

theorem Extends.output_eq {g g' : Graph π} (h : g.Extends g') (hg : g.Ordered)
    (hg' : g'.Ordered) (s : Schedule) {node : Nat} (hn : node < g.nodes.length) :
    g'.output s node = g.output s node := by
  induction node using Nat.strongRecOn with
  | ind node ih =>
    have hget : g'.nodes[node]? = g.nodes[node]? := by
      obtain ⟨later, hlater⟩ := h.nodes
      rw [← hlater, List.getElem?_append_left hn]
    have hfrom : g'.outputFrom s (g.output s) node = g.outputFrom s (g.output s) node := by
      simp only [outputFrom, hget, h.inputs node hn]
    rw [Graph.output_eq hg, Graph.output_eq hg', ← hfrom]
    refine outputFrom_congr fun i hi => ?_
    have hlt := lt_of_mem_inputs hg' hi
    exact ih i hlt (by omega)

theorem inputs_add (g : Graph π) (node : Node π) (ins : List Nat) (n : Nat) :
    (g.add node ins).inputs n = g.inputs n ++ if n = g.nodes.length then ins else [] := by
  rw [inputs, inputs, add, List.filter_append, List.map_append]
  congr 1
  by_cases h : n = g.nodes.length
  · simp [h, List.filter_map, Function.comp_def]
  · simp [h, Ne.symm h, List.filter_map, Function.comp_def]

theorem inputs_new (hg : g.Ordered) : g.inputs g.nodes.length = [] := by
  refine List.eq_nil_iff_forall_not_mem.mpr fun i hi => ?_
  obtain ⟨e, he, -⟩ := List.mem_map.mp hi
  obtain ⟨hmem, hnode⟩ := List.mem_filter.mp he
  have hlt := (hg e hmem).2
  have heq : e.2 = g.nodes.length := by simpa using hnode
  omega

theorem Ordered.add (hg : g.Ordered) (node : Node π) {ins : List Nat}
    (hins : ∀ i ∈ ins, i < g.nodes.length) : (g.add node ins).Ordered := by
  intro e he
  have hlen : (g.add node ins).nodes.length = g.nodes.length + 1 := by
    simp [Graph.add]
  rcases List.mem_append.mp he with he | he
  · have h := hg e he
    omega
  · obtain ⟨i, hi, rfl⟩ := List.mem_map.mp he
    have h := hins i hi
    exact ⟨h, by omega⟩

theorem extends_add (g : Graph π) (node : Node π) (ins : List Nat) :
    g.Extends (g.add node ins) := by
  refine ⟨List.prefix_append .., fun n hn => ?_⟩
  rw [inputs_add, if_neg (by omega), List.append_nil]

/-- The output of a new node, from the outputs that the graph has had before. -/
theorem output_add (hg : g.Ordered) (node : Node π) {ins : List Nat}
    (hins : ∀ i ∈ ins, i < g.nodes.length) (s : Schedule) :
    (g.add node ins).output s g.nodes.length =
      (g.add node ins).outputFrom s (g.output s) g.nodes.length := by
  have hg' := hg.add node hins
  rw [Graph.output_eq hg']
  refine outputFrom_congr fun i hi => ?_
  have hlt := lt_of_mem_inputs hg' hi
  exact (extends_add g node ins).output_eq hg hg' s hlt

end Graph

end EventTime
