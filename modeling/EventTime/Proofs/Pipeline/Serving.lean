import Mathlib.Data.List.Count
import Mathlib.Data.List.Nodup
import EventTime.Proofs.Pipeline.Readings
import EventTime.Proofs.Pipeline.Upstream

/-!
# Every reader is served

The readings still to come of a node are those on the agenda of the nodes being evaluated, and one
for every edge to a node that has not been started. So an output is there for each of its readers,
is computed for the first and gone after the last one, and what all of them get is the same.
-/

namespace EventTime

variable {π : Type}

namespace Graph

/-- How many edges lead from a node to nodes upstream of the terminal that are not started. -/
def unread (g : Graph π) (terminal : Nat) (started : List Nat) (node : Nat) : Nat :=
  (g.edges.filter fun e => e.1 = node ∧ e.2 ∈ g.ancestors terminal ∧ e.2 ∉ started).length

variable {g : Graph π} {terminal : Nat} {started started' : List Nat}

theorem unread_congr (h : ∀ n, n ∈ started ↔ n ∈ started') (node : Nat) :
    g.unread terminal started node = g.unread terminal started' node := by
  simp only [unread, h]

theorem unread_nil (node : Nat) : g.readings terminal node =
    [terminal].count node + g.unread terminal [] node := by
  simp only [readings, unread, List.count_singleton, beq_iff_eq, List.not_mem_nil,
    not_false_eq_true, and_true, eq_comm (a := node)]
  exact Nat.add_comm ..

theorem unread_of_all (h : ∀ n ∈ g.ancestors terminal, n ∈ started) (node : Nat) :
    g.unread terminal started node = 0 := by
  refine List.length_eq_zero_iff.mpr (List.filter_eq_nil_iff.mpr fun e _ he => ?_)
  simp only [decide_eq_true_eq] at he
  exact he.2.2 (h _ he.2.1)

theorem unread_start {m : Nat} (hm : m ∈ g.ancestors terminal) (hnew : m ∉ started) (node : Nat) :
    g.unread terminal started node =
      (g.inputs m).count node + g.unread terminal (m :: started) node := by
  simp only [unread, inputs, ← List.countP_eq_length_filter, List.count_eq_countP, List.countP_map]
  rw [List.countP_eq_countP_filter_add g.edges _ fun e => e.2 = m]
  congr 1
  · refine List.countP_congr fun e he => ?_
    obtain ⟨-, heq⟩ := List.mem_filter.mp he
    simp only [decide_eq_true_eq] at heq
    simp [heq, hm, hnew]
  · rw [List.countP_filter]
    refine List.countP_congr fun e _ => ?_
    simp only [Bool.and_eq_true, decide_eq_true_eq, Bool.not_eq_true', decide_eq_false_iff_not,
      List.mem_cons, not_or]
    tauto

theorem joinEach_ok {f : Nat → Except Fault (List π)} {out : Nat → List π} {l : List Nat}
    (h : ∀ i ∈ l, f i = .ok (out i)) : joinEach f l = .ok (l.map out).flatten := by
  induction l with
  | nil => rfl
  | cons i rest ih =>
    obtain ⟨hi, hrest⟩ := List.forall_mem_cons.mp h
    simp only [joinEach, hi, ih hrest, bind, Except.bind, List.map_cons, List.flatten_cons]
    rfl

end Graph

/-! ### Evaluations under way -/

namespace Noted

theorem readBy_note (r : Evaluation π) (log : List (Reading π)) (reader k : Option Nat) (node : Nat)
    (parts : List π) : readBy ⟨r, log ++ [⟨reader, node, parts⟩]⟩ k =
      readBy ⟨r, log⟩ k ++ if k = reader then [(node, parts)] else [] := by
  simp only [readBy, List.filter_append, List.map_append]
  by_cases hk : k = reader
  · simp [hk]
  · simp [hk, Ne.symm hk]

/-- An evaluation with the nodes in `busy` under way, which still have to make the readings on the
agenda, the first one next. Outputs are those that `out` gives. -/
structure Progress (g : Graph π) (terminal : Nat) (out : Nat → List π) (busy agenda : List Nat)
    (r : Noted π) : Prop where
  nodup : (busy ++ r.visited).Nodup
  upstream : ∀ n ∈ r.visited, g.Upstream terminal n
  closed : ∀ n ∈ r.visited, ∀ i ∈ g.inputs n, i ∈ r.visited
  pending : ∀ n, r.pending n = agenda.count n + g.unread terminal (busy ++ r.visited) n
  kept : ∀ n, r.outputs n = if n ∈ r.visited ∧ r.pending n ≠ 0 then some (out n) else none
  noted : ∀ n ∈ r.visited, r.readBy (some n) = (g.inputs n).map fun i => (i, out i)
  unstarted : ∀ n, n ∉ busy ++ r.visited → r.readBy (some n) = []

/-- The reader is the caller or under way. -/
def MayRead (busy : List Nat) (reader : Option Nat) : Prop := ∀ n, reader = some n → n ∈ busy

/-- Between two states of an evaluation one reader has read some nodes. Other readers that are under
way have read nothing. -/
structure Serves (g : Graph π) (terminal : Nat) (out : Nat → List π) (busy agenda : List Nat)
    (reader : Option Nat) (nodes : List Nat) (r r' : Noted π) : Prop where
  progress : Progress g terminal out busy agenda r'
  visited : ∀ i ∈ nodes, i ∈ r'.visited
  grown : r.visited ⊆ r'.visited
  reads : ∀ k, MayRead busy k →
    r'.readBy k = r.readBy k ++ if k = reader then nodes.map fun i => (i, out i) else []

variable {g : Graph π} {terminal : Nat} {out : Nat → List π} {busy agenda : List Nat}
  {reader : Option Nat} {r : Noted π} {s : Schedule} {node : Nat}

theorem Serves.nil (h : Progress g terminal out busy agenda r) :
    Serves g terminal out busy agenda reader [] r r :=
  ⟨h, nofun, List.Subset.refl _, fun k _ => by simp⟩

theorem Serves.trans {agenda' nodes nodes' : List Nat} {r' r'' : Noted π}
    (h : Serves g terminal out busy agenda' reader nodes r r')
    (h' : Serves g terminal out busy agenda reader nodes' r' r'') :
    Serves g terminal out busy agenda reader (nodes ++ nodes') r r'' where
  progress := h'.progress
  visited i hi := (List.mem_append.mp hi).elim (fun hi => h'.grown (h.visited i hi)) (h'.visited i)
  grown := List.Subset.trans h.grown h'.grown
  reads k hk := by
    rw [h'.reads k hk, h.reads k hk]
    split
    · rw [List.map_append, List.append_assoc]
    · rw [List.append_nil, List.append_nil]

theorem MayRead.ne (h : MayRead busy reader) {n : Nat} (hn : n ∉ busy) : some n ≠ reader :=
  fun heq => hn (h n heq.symm)

theorem serve_eq {parts : List π} (h : r.outputs node = some parts) :
    r.serve reader node = .ok (parts, {
      outputs := fun i => if i = node ∧ r.pending node - 1 = 0 then none else r.outputs i
      pending := fun i => if i = node then r.pending node - 1 else r.pending i
      visited := r.visited
      log := r.log ++ [⟨reader, node, parts⟩] }) := by
  simp only [Noted.serve, Evaluation.serve, h]
  rfl

theorem Progress.not_busy (h : Progress g terminal out busy agenda r) {n : Nat}
    (hn : n ∈ r.visited) : n ∉ busy := fun hbusy =>
  (List.nodup_append.mp h.nodup).2.2 n hbusy n hn rfl

/-- An output that has been visited is kept as long as readings of it are to come. -/
theorem Progress.serve (h : Progress g terminal out busy (node :: agenda) r)
    (hreader : MayRead busy reader) (hnode : node ∈ r.visited) :
    ∃ r', r.serve reader node = .ok (out node, r') ∧
      Serves g terminal out busy agenda reader [node] r r' := by
  have hpending := h.pending node
  rw [List.count_cons_self] at hpending
  have hkept := h.kept node
  rw [if_pos ⟨hnode, by omega⟩] at hkept
  refine ⟨_, serve_eq hkept,
    ⟨h.nodup, h.upstream, h.closed, fun n => ?_, fun n => ?_, fun n hn => ?_, fun n hn => ?_⟩,
    fun i hi => List.mem_singleton.mp hi ▸ hnode, List.Subset.refl _, fun k _ => readBy_note ..⟩
  · have hn := h.pending n
    dsimp only
    split
    · rename_i heq
      subst heq
      omega
    · rename_i hne
      rwa [List.count_cons_of_ne (Ne.symm hne)] at hn
  · dsimp only
    rw [h.kept n]
    by_cases heq : n = node
    · subst heq
      by_cases hleft : r.pending n - 1 = 0
      · simp [hleft]
      · have hne : r.pending n ≠ 0 := by omega
        simp [hleft, hnode, hne]
    · simp [heq]
  · rw [readBy_note, if_neg (hreader.ne (h.not_busy hn)), List.append_nil]
    exact h.noted n hn
  · have hbusy : n ∉ busy := fun hbusy => hn (List.mem_append_left _ hbusy)
    rw [readBy_note, if_neg (hreader.ne hbusy), List.append_nil]
    exact h.unstarted n hn

/-- A node that starts puts its inputs on the agenda. -/
theorem Progress.start (hg : g.Ordered) (h : Progress g terminal out busy agenda r)
    (hup : g.Upstream terminal node) (hnew : node ∉ busy ++ r.visited) :
    Progress g terminal out (node :: busy) (g.inputs node ++ agenda) r where
  nodup := List.nodup_cons.mpr ⟨hnew, h.nodup⟩
  upstream := h.upstream
  closed := h.closed
  pending n := by
    have hstart := Graph.unread_start ((Graph.mem_ancestors hg).mpr hup) hnew n
    rw [h.pending n, List.count_append, hstart, List.cons_append]
    omega
  kept := h.kept
  noted := h.noted
  unstarted n hn := h.unstarted n fun hmem => hn (List.mem_cons_of_mem _ hmem)

/-- A node that has made its readings is done, and its output is kept. -/
theorem Progress.finish (h : Progress g terminal out (node :: busy) (node :: agenda) r)
    (hup : g.Upstream terminal node) (hinputs : ∀ i ∈ g.inputs node, i ∈ r.visited)
    (hnoted : r.readBy (some node) = (g.inputs node).map fun i => (i, out i)) :
    Progress g terminal out busy (node :: agenda) (r.store node (out node)) := by
  have hmem : ∀ n, n ∈ (node :: busy) ++ r.visited ↔ n ∈ busy ++ node :: r.visited := by
    intro n
    simp only [List.mem_append, List.mem_cons]
    tauto
  have hpending := h.pending node
  rw [List.count_cons_self] at hpending
  refine ⟨?_, ?_, ?_, fun n => ?_, fun n => ?_, ?_, fun n hn => ?_⟩
  · exact (List.perm_middle.nodup_iff).mpr h.nodup
  · exact List.forall_mem_cons.mpr ⟨hup, h.upstream⟩
  · refine List.forall_mem_cons.mpr ⟨fun i hi => ?_, fun n hn i hi => ?_⟩
    · exact List.mem_cons_of_mem _ (hinputs i hi)
    · exact List.mem_cons_of_mem _ (h.closed n hn i hi)
  · exact (h.pending n).trans (congrArg _ (Graph.unread_congr hmem n))
  · by_cases heq : n = node
    · subst heq
      simp only [store, Evaluation.store, if_true, List.mem_cons, true_or, true_and]
      rw [if_pos (by omega)]
    · simp only [store, Evaluation.store, heq, if_false, List.mem_cons, false_or]
      exact h.kept n
  · exact List.forall_mem_cons.mpr ⟨hnoted, h.noted⟩
  · exact h.unstarted n ((hmem n).not.mpr hn)

theorem serves_readEach {read : Nat → Noted π → Except Fault (List π × Noted π)} {nodes : List Nat}
    (hread : ∀ i ∈ nodes, ∀ agenda r, Progress g terminal out busy (i :: agenda) r →
      ∃ r', read i r = .ok (out i, r') ∧ Serves g terminal out busy agenda reader [i] r r')
    (h : Progress g terminal out busy (nodes ++ agenda) r) :
    ∃ r', Graph.readEachNoted read nodes r = .ok ((nodes.map out).flatten, r') ∧
      Serves g terminal out busy agenda reader nodes r r' := by
  induction nodes generalizing r with
  | nil => exact ⟨r, rfl, .nil h⟩
  | cons i rest ih =>
    obtain ⟨r₁, hfirst, hserves⟩ := hread i (List.mem_cons_self ..) _ r h
    obtain ⟨r₂, hrest, hserves'⟩ := ih (fun j hj => hread j (List.mem_cons_of_mem _ hj))
      hserves.progress
    refine ⟨r₂, ?_, hserves.trans hserves'⟩
    simp only [Graph.readEachNoted, hfirst, bind, Except.bind, hrest]
    rfl

/-- The readings that a node makes to be evaluated, and its output. -/
theorem serves_compute (hg : g.Formed)
    (hout : ∀ n, g.Upstream terminal n → g.output s n = .ok (out n))
    {read : Nat → Noted π → Except Fault (List π × Noted π)}
    (hread : ∀ i ∈ g.inputs node, ∀ agenda r, Progress g terminal out busy (i :: agenda) r →
      ∃ r', read i r = .ok (out i, r') ∧ Serves g terminal out busy agenda (some node) [i] r r')
    (hup : g.Upstream terminal node) (hnode : node < g.nodes.length)
    (h : Progress g terminal out busy (g.inputs node ++ agenda) r) :
    ∃ r', g.computeNoted s read node r = .ok (out node, r') ∧
      Serves g terminal out busy agenda (some node) (g.inputs node) r r' := by
  have houtput := hout node hup
  rw [Graph.output_eq hg.ordered] at houtput
  have hinput : ∀ i, g.inputs node = [i] → g.output s i = .ok (out i) ∧
      ∃ r', read i r = .ok (out i, r') ∧
        Serves g terminal out busy agenda (some node) (g.inputs node) r r' := by
    intro i hi
    have hmem : i ∈ g.inputs node := hi ▸ List.mem_singleton_self i
    rw [hi] at h ⊢
    exact ⟨hout i (.input hup hmem), hread i hmem agenda r h⟩
  cases hstage : g.nodes[node]? with
  | none => exact absurd (List.getElem?_eq_none_iff.mp hstage) (by omega)
  | some stage =>
    cases stage with
    | source cut =>
      simp only [Graph.outputFrom, hstage, Except.ok.injEq] at houtput
      simp only [Graph.computeNoted, hstage, houtput]
      rw [hg.inputs_source hstage] at h ⊢
      exact ⟨r, rfl, .nil h⟩
    | union =>
      simp only [Graph.outputFrom, hstage] at houtput
      rw [Graph.joinEach_ok fun i hi => hout i (.input hup hi)] at houtput
      simp only [Graph.computeNoted, hstage, ← Except.ok.inj houtput]
      exact serves_readEach hread h
    | elementwise run =>
      obtain ⟨i, hi⟩ := hg.inputs_elementwise hstage
      obtain ⟨houti, r', hfirst, hserves⟩ := hinput i hi
      simp only [Graph.outputFrom, hstage, hi, houti, bind, Except.bind] at houtput
      simp only [Graph.computeNoted, hstage, hi, hfirst, bind, Except.bind, houtput] at hserves ⊢
      exact ⟨r', rfl, hserves⟩
    | whole run =>
      obtain ⟨i, hi⟩ := hg.inputs_whole hstage
      obtain ⟨houti, r', hfirst, hserves⟩ := hinput i hi
      simp only [Graph.outputFrom, hstage, hi, houti, bind, Except.bind] at houtput
      simp only [Graph.computeNoted, hstage, hi, hfirst, bind, Except.bind] at hserves ⊢
      cases hrun : run (out i) with
      | error e =>
        rw [hrun] at houtput
        cases houtput
      | ok parts =>
        rw [hrun] at houtput
        exact ⟨r', congrArg (fun x => Except.map (·, r') x) houtput, hserves⟩

/-- Reading the node that the agenda has next. -/
theorem Progress.read (hg : g.Formed)
    (hout : ∀ n, g.Upstream terminal n → g.output s n = .ok (out n))
    (hterminal : terminal < g.nodes.length) {depth : Nat} (hdepth : node < depth)
    (h : Progress g terminal out busy (node :: agenda) r) (hup : g.Upstream terminal node)
    (hbusy : ∀ b ∈ busy, node < b) (hreader : MayRead busy reader) :
    ∃ r', g.readNoted s depth reader node r = .ok (out node, r') ∧
      Serves g terminal out busy agenda reader [node] r r' := by
  induction depth generalizing busy agenda reader node r with
  | zero => omega
  | succ depth ih =>
    rw [Graph.readNoted]
    cases hkept : r.outputs node with
    | some parts =>
      have hvisited := h.kept node
      rw [hkept] at hvisited
      split at hvisited
      · rename_i hmem
        exact h.serve hreader hmem.1
      · cases hvisited
    | none =>
      -- What is under way reads only older nodes, and what has been visited and is still to be read
      -- would be kept: this node has not been started.
      have hnew : node ∉ busy ++ r.visited := by
        intro hmem
        rcases List.mem_append.mp hmem with hmem | hmem
        · exact absurd (hbusy node hmem) (Nat.lt_irrefl node)
        · have hpending := h.pending node
          rw [List.count_cons_self] at hpending
          have hsome := h.kept node
          rw [hkept, if_pos ⟨hmem, by omega⟩] at hsome
          cases hsome
      have hstart : Progress g terminal out (node :: busy) (g.inputs node ++ node :: agenda) r :=
        h.start hg.ordered hup hnew
      have hinputs : ∀ i ∈ g.inputs node, ∀ agenda r,
          Progress g terminal out (node :: busy) (i :: agenda) r →
            ∃ r', g.readNoted s depth (some node) i r = .ok (out i, r') ∧
              Serves g terminal out (node :: busy) agenda (some node) [i] r r' := by
        intro i hi agenda r hr
        have hlt := Graph.lt_of_mem_inputs hg.ordered hi
        refine ih (by omega) hr (.input hup hi) ?_ fun n hn => ?_
        · exact List.forall_mem_cons.mpr ⟨hlt, fun b hb => Nat.lt_trans hlt (hbusy b hb)⟩
        · exact Option.some.inj hn ▸ List.mem_cons_self ..
      obtain ⟨r₁, hcompute, hserves⟩ := serves_compute hg hout hinputs hup
        (Nat.lt_of_le_of_lt (hup.le hg.ordered) hterminal) hstart
      have hown := hserves.reads (some node) fun n hn => Option.some.inj hn ▸ List.mem_cons_self ..
      rw [h.unstarted node hnew, if_pos rfl, List.nil_append] at hown
      have hdone := hserves.progress.finish hup hserves.visited hown
      obtain ⟨r₂, hserve, hserves'⟩ := hdone.serve hreader (List.mem_cons_self ..)
      refine ⟨r₂, by simp only [hcompute, bind, Except.bind]; exact hserve, hserves'.progress,
        hserves'.visited, fun n hn => ?_, fun k hk => ?_⟩
      · exact hserves'.grown (List.mem_cons_of_mem _ (hserves.grown hn))
      · have hne : k ≠ some node := fun heq =>
          hnew (List.mem_append_left _ (hk node heq))
        have hkept := hserves.reads k fun n hn => List.mem_cons_of_mem _ (hk n hn)
        rw [if_neg hne, List.append_nil] at hkept
        exact (hserves'.reads k hk).trans (congrArg (· ++ _) hkept)

/-! ### Whole evaluations -/

/-- An evaluation in which every node upstream of the terminal is evaluated once and hands the same
output to each of its readers, edge by edge, and at the end of which nothing is kept. -/
structure ServedOnce (g : Graph π) (terminal : Nat) (out : Nat → List π) (r : Noted π) : Prop where
  once : r.visited.Nodup
  evaluated : ∀ n, n ∈ r.visited ↔ g.Upstream terminal n
  reads : ∀ n, g.Upstream terminal n → r.readBy (some n) = (g.inputs n).map fun i => (i, out i)
  idle : ∀ n, ¬g.Upstream terminal n → r.readBy (some n) = []
  caller : r.readBy none = [(terminal, out terminal)]
  nothing_pending : ∀ n, r.pending n = 0
  nothing_kept : ∀ n, r.outputs n = none

theorem progress_start (g : Graph π) (terminal : Nat) (out : Nat → List π) :
    Progress g terminal out [] [terminal] { pending := g.readings terminal } where
  nodup := List.nodup_nil
  upstream := nofun
  closed := nofun
  pending n := Graph.unread_nil n
  kept n := by simp
  noted := nofun
  unstarted _ _ := rfl

theorem Progress.servedOnce (hg : g.Ordered) {r' : Noted π}
    (hstart : r.readBy none = []) (h : Serves g terminal out [] [] none [terminal] r r') :
    ServedOnce g terminal out r' := by
  -- the terminal has been visited, and the inputs of what has been visited have been too
  have hprogress := h.progress
  have hall : ∀ n, n ∈ r'.visited ↔ g.Upstream terminal n := by
    refine fun n => ⟨hprogress.upstream n, fun hup => ?_⟩
    induction hup with
    | terminal => exact h.visited _ (List.mem_singleton_self _)
    | input _ hi ih => exact hprogress.closed _ ih _ hi
  have hpending : ∀ n, r'.pending n = 0 := fun n => by
    rw [hprogress.pending n, List.nil_append, Graph.unread_of_all fun m hm =>
      (hall m).mpr ((Graph.mem_ancestors hg).mp hm), List.count_nil]
  refine ⟨hprogress.nodup, hall, fun n hn => hprogress.noted n ((hall n).mpr hn),
    fun n hn => hprogress.unstarted n ((hall n).not.mpr hn), ?_, hpending, fun n => ?_⟩
  · rw [h.reads none nofun, hstart, if_pos rfl]
    rfl
  · rw [hprogress.kept n, if_neg fun hn => hn.2 (hpending n)]

/-- As long as no closure upstream fails, an evaluation succeeds and serves every reader. -/
theorem evaluateNoted_servedOnce (hg : g.Formed) (hterminal : terminal < g.nodes.length)
    (hruns : ∀ n, g.Upstream terminal n → ∀ e, ¬g.Fails s n e) :
    ∃ (out : Nat → List π) (r : Noted π), g.evaluateNoted s terminal = .ok (out terminal, r) ∧
      (∀ n, g.Upstream terminal n → g.output s n = .ok (out n)) ∧ ServedOnce g terminal out r := by
  have houtput : ∀ n, ∃ parts, g.Upstream terminal n → g.output s n = .ok parts := by
    intro n
    cases hn : g.output s n with
    | ok parts => exact ⟨parts, fun _ => rfl⟩
    | error e =>
      refine ⟨[], fun hup => ?_⟩
      have hlt := Nat.lt_of_le_of_lt (hup.le hg.ordered) hterminal
      obtain ⟨m, hm, hfails⟩ := hg.fails_of_output hlt hn
      exact absurd hfails (hruns m (hup.trans hm) e)
  choose out hout using houtput
  have hcaller : MayRead [] none := nofun
  obtain ⟨r, hread, hserves⟩ := (progress_start g terminal out).read hg hout hterminal
    (Nat.lt_succ_self terminal) .terminal nofun hcaller
  exact ⟨out, r, hread, hout, Progress.servedOnce hg.ordered rfl hserves⟩

end Noted

end EventTime
