import EventTime.Proofs.Pipeline.Evaluation

/-!
# What a terminal node depends on

The nodes upstream of a terminal are those that edges lead from, step by step. The search for
ancestors finds exactly these. In a graph whose nodes have as many inputs as they read, an output
can fail only where the closure of some node upstream fails on what its input puts out.
-/

namespace EventTime

variable {π : Type}

namespace Graph

/-- The terminal itself, and the inputs of what is upstream. -/
inductive Upstream (g : Graph π) (terminal : Nat) : Nat → Prop
  | terminal : Upstream g terminal terminal
  | input {n i : Nat} (hn : Upstream g terminal n) (hi : i ∈ g.inputs n) : Upstream g terminal i

variable {g : Graph π}

theorem Upstream.trans {terminal n m : Nat} (h : g.Upstream terminal n) (hm : g.Upstream n m) :
    g.Upstream terminal m := by
  induction hm with
  | terminal => exact h
  | input _ hi ih => exact .input ih hi

theorem Upstream.le (hg : g.Ordered) {terminal n : Nat} (h : g.Upstream terminal n) :
    n ≤ terminal := by
  induction h with
  | terminal => exact Nat.le_refl _
  | input _ hi ih => exact Nat.le_trans (Nat.le_of_lt (lt_of_mem_inputs hg hi)) ih

theorem ancestorsBelow_sound {P : Nat → Prop} (hP : ∀ n, P n → ∀ i ∈ g.inputs n, P i) (n : Nat)
    {found : List Nat} (h : ∀ m ∈ found, P m) : ∀ m ∈ g.ancestorsBelow n found, P m := by
  induction n generalizing found with
  | zero => exact h
  | succ n ih =>
    refine ih fun m hm => ?_
    split at hm
    · rename_i hn
      rcases List.mem_append.mp (List.mem_eraseDups.mp hm) with hm | hm
      · exact h m hm
      · exact hP n (h n hn) m hm
    · exact h m hm

theorem subset_ancestorsBelow (n : Nat) (found : List Nat) : found ⊆ g.ancestorsBelow n found := by
  induction n generalizing found with
  | zero => exact List.Subset.refl _
  | succ n ih =>
    refine List.Subset.trans (fun m hm => ?_) (ih _)
    split
    · exact List.mem_eraseDups.mpr (List.mem_append_left _ hm)
    · exact hm

theorem ancestorsBelow_closed (hg : g.Ordered) (n : Nat) {found : List Nat}
    (h : ∀ m ∈ found, n ≤ m → ∀ i ∈ g.inputs m, i ∈ found) :
    ∀ m ∈ g.ancestorsBelow n found, ∀ i ∈ g.inputs m, i ∈ g.ancestorsBelow n found := by
  -- Nodes are extended from the newest down, and inputs are older than their readers: whatever is
  -- added when `n` is extended is still to be extended itself.
  induction n generalizing found with
  | zero => exact fun m hm => h m hm (Nat.zero_le m)
  | succ n ih =>
    refine ih fun m hm hle i hi => ?_
    split at hm
    · rename_i hn
      rw [if_pos hn]
      refine List.mem_eraseDups.mpr (List.mem_append.mpr ?_)
      rcases Nat.eq_or_lt_of_le hle with rfl | hlt
      · exact .inr hi
      · rcases List.mem_append.mp (List.mem_eraseDups.mp hm) with hm | hm
        · exact .inl (h m hm hlt i hi)
        · exact absurd (lt_of_mem_inputs hg hm) (Nat.not_lt.mpr hle)
    · rename_i hn
      rw [if_neg hn]
      rcases Nat.eq_or_lt_of_le hle with rfl | hlt
      · exact absurd hm hn
      · exact h m hm hlt i hi

theorem mem_ancestors (hg : g.Ordered) {terminal n : Nat} :
    n ∈ g.ancestors terminal ↔ g.Upstream terminal n := by
  constructor
  · refine ancestorsBelow_sound (fun _ hm _ hi => .input hm hi) _ (fun m hm => ?_) n
    rw [List.mem_singleton.mp hm]
    exact .terminal
  · intro h
    induction h with
    | terminal => exact subset_ancestorsBelow _ _ (List.mem_singleton_self _)
    | input _ hi ih =>
      refine ancestorsBelow_closed hg _ (fun m hm hle => ?_) _ ih _ hi
      rw [List.mem_singleton.mp hm] at hle
      omega

end Graph

/-- How many inputs a node reads. -/
def Node.Takes : Node π → Nat → Prop
  | .source _, n => n = 0
  | .elementwise _, n => n = 1
  | .whole _, n => n = 1
  | .union, _ => True

namespace Graph

/-- Edges lead from older to newer nodes, and every node has as many inputs as it reads. -/
structure Formed (g : Graph π) : Prop where
  ordered : g.Ordered
  takes : ∀ {n : Nat} {node : Node π}, g.nodes[n]? = some node → node.Takes (g.inputs n).length

variable {g : Graph π}

theorem formed_empty : ({} : Graph π).Formed where
  ordered := nofun
  takes h := by simp at h

theorem Formed.add (hg : g.Formed) {node : Node π} {ins : List Nat}
    (hins : ∀ i ∈ ins, i < g.nodes.length) (htakes : node.Takes ins.length) :
    (g.add node ins).Formed where
  ordered := hg.ordered.add node hins
  takes {n node'} h := by
    rw [inputs_add]
    replace h : (g.nodes ++ [node])[n]? = some node' := h
    rcases Nat.lt_or_ge n g.nodes.length with hn | hn
    · rw [List.getElem?_append_left hn] at h
      rw [if_neg (by omega), List.append_nil]
      exact hg.takes h
    · rw [List.getElem?_append_right hn] at h
      obtain ⟨hzero, rfl⟩ : n - g.nodes.length = 0 ∧ node = node' := by
        cases hsub : n - g.nodes.length with
        | zero =>
          rw [hsub] at h
          exact ⟨rfl, Option.some.inj h⟩
        | succ k =>
          rw [hsub] at h
          cases h
      obtain rfl : n = g.nodes.length := by omega
      rw [if_pos rfl, inputs_new hg.ordered, List.nil_append]
      exact htakes

theorem Formed.inputs_source (hg : g.Formed) {n : Nat} {cut : Nat → List π}
    (hn : g.nodes[n]? = some (.source cut)) : g.inputs n = [] :=
  List.eq_nil_of_length_eq_zero (hg.takes hn)

theorem Formed.inputs_elementwise (hg : g.Formed) {n : Nat}
    {run : Nat → UInt32 → π → Except Fault π} (hn : g.nodes[n]? = some (.elementwise run)) :
    ∃ i, g.inputs n = [i] :=
  List.length_eq_one_iff.mp (hg.takes hn)

theorem Formed.inputs_whole (hg : g.Formed) {n : Nat} {run : List π → Except Fault π}
    (hn : g.nodes[n]? = some (.whole run)) : ∃ i, g.inputs n = [i] :=
  List.length_eq_one_iff.mp (hg.takes hn)

/-- The closure of a node fails on what the node's input puts out. -/
inductive Fails (g : Graph π) (s : Schedule) (n : Nat) (e : Fault) : Prop
  | elementwise {run : Nat → UInt32 → π → Except Fault π} {i : Nat} {parts : List π}
      (hn : g.nodes[n]? = some (.elementwise run)) (hi : i ∈ g.inputs n)
      (hparts : g.output s i = .ok parts) (hrun : runBundles s n run 0 parts = .error e)
  | whole {run : List π → Except Fault π} {i : Nat} {parts : List π}
      (hn : g.nodes[n]? = some (.whole run)) (hi : i ∈ g.inputs n)
      (hparts : g.output s i = .ok parts) (hrun : run parts = .error e)

theorem joinEach_error {f : Nat → Except Fault (List π)} {l : List Nat} {e : Fault}
    (h : joinEach f l = .error e) : ∃ i ∈ l, f i = .error e := by
  induction l with
  | nil => cases h
  | cons i rest ih =>
    rw [joinEach] at h
    cases hi : f i with
    | error e' =>
      rw [hi] at h
      exact ⟨i, List.mem_cons_self .., hi.trans h⟩
    | ok first =>
      rw [hi] at h
      cases hrest : joinEach f rest with
      | ok others =>
        rw [hrest] at h
        cases h
      | error e' =>
        rw [hrest] at h
        obtain ⟨j, hj, he⟩ := ih (hrest.trans h)
        exact ⟨j, List.mem_cons_of_mem _ hj, he⟩

/-- What an output fails with is what a closure upstream failed with. -/
theorem Formed.fails_of_output (hg : g.Formed) {s : Schedule} {n : Nat} {e : Fault}
    (hn : n < g.nodes.length) (h : g.output s n = .error e) :
    ∃ m, g.Upstream n m ∧ g.Fails s m e := by
  induction n using Nat.strongRecOn with
  | ind n ih =>
    have hinput : ∀ i ∈ g.inputs n, g.output s i = .error e →
        ∃ m, g.Upstream n m ∧ g.Fails s m e := by
      intro i hi he
      have hlt := lt_of_mem_inputs hg.ordered hi
      obtain ⟨m, hm, hfails⟩ := ih i hlt (by omega) he
      exact ⟨m, .trans (.input .terminal hi) hm, hfails⟩
    rw [output_eq hg.ordered, outputFrom] at h
    cases hnode : g.nodes[n]? with
    | none => exact absurd (List.getElem?_eq_none_iff.mp hnode) (by omega)
    | some node =>
      rw [hnode] at h
      cases node with
      | source cut => cases h
      | union =>
        obtain ⟨i, hi, he⟩ := joinEach_error h
        exact hinput i hi he
      | elementwise run =>
        obtain ⟨i, hinputs⟩ := hg.inputs_elementwise hnode
        have hi : i ∈ g.inputs n := by simp [hinputs]
        simp only [hinputs] at h
        cases hparts : g.output s i with
        | error e' =>
          rw [hparts] at h
          exact hinput i hi (hparts.trans h)
        | ok parts =>
          rw [hparts] at h
          exact ⟨n, .terminal, .elementwise hnode hi hparts h⟩
      | whole run =>
        obtain ⟨i, hinputs⟩ := hg.inputs_whole hnode
        have hi : i ∈ g.inputs n := by simp [hinputs]
        simp only [hinputs] at h
        cases hparts : g.output s i with
        | error e' =>
          rw [hparts] at h
          exact hinput i hi (hparts.trans h)
        | ok parts =>
          rw [hparts] at h
          cases hrun : run parts with
          | error e' =>
            simp only [bind, Except.bind, hrun] at h
            obtain rfl := Except.error.inj h
            exact ⟨n, .terminal, .whole hnode hi hparts hrun⟩
          | ok out =>
            simp only [bind, Except.bind, hrun] at h
            cases h

end Graph

end EventTime
