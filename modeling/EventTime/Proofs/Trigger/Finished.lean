import EventTime.Trigger.Arena
import EventTime.Proofs.Trigger.Consistency
import EventTime.Proofs.Trigger.Events
import EventTime.Proofs.Trigger.Rollback

/-!
# Finished nodes by number

In every state that events can reach, the finished nodes of a window are consistent along the
numbered tree: the parent of a finished node has finished, and the child of a repetition has not.
A merge answers that the tree had already finished exactly if the root had in some old window.
-/

namespace EventTime

namespace Trigger

/-- The finished nodes of the subtree that starts at `node`, its root included. -/
def finishedFrom (t : Trigger) (node : Nat) (s : t.State) : List Nat :=
  finishedAt node s ++ finishedBelow t node s.memory

theorem mem_finishedAt {σ : Type} {node d : Nat} {s : Slot σ} :
    d ∈ finishedAt node s ↔ d = node ∧ s.finished = true := by
  unfold finishedAt
  split
  · rename_i h
    simp [h]
  · rename_i h
    simp [h]

theorem size_pos (t : Trigger) : 0 < t.size := by
  cases t <;> simp only [size] <;> omega

theorem leads_of_mem_finishedFrom {t : Trigger} {node d : Nat} {s : t.State}
    (hbelow : d ∈ t.finishedBelow node s.memory → node < d ∧ d < node + t.size)
    (h : d ∈ t.finishedFrom node s) : Leads t node d := by
  rcases List.mem_append.mp h with h | h
  · have hpos := t.size_pos
    have heq := (mem_finishedAt.mp h).1
    exact ⟨by omega, by omega⟩
  · exact ⟨Nat.le_of_lt (hbelow h).1, (hbelow h).2⟩

mutual

theorem bounds_of_mem_finishedBelow {d : Nat} : (t : Trigger) → (node : Nat) → (m : t.Memory) →
    d ∈ t.finishedBelow node m → node < d ∧ d < node + t.size
  | .leaf _, _, _, h => by simp [finishedBelow] at h
  | .afterFirst ts, node, m, h => by
    have hb := bounds_of_mem_finishedAmong ts (node + 1) m h
    simp only [size]
    omega
  | .repeatedly t, node, m, h => by
    have hb := leads_of_mem_finishedFrom (s := m)
      (bounds_of_mem_finishedBelow t (node + 1) m.memory) h
    simp only [Leads, size] at hb ⊢
    omega
  | .orFinally a b, node, m, h => by
    simp only [size]
    rcases List.mem_append.mp h with h | h
    · have hb := leads_of_mem_finishedFrom (s := m.1)
        (bounds_of_mem_finishedBelow a (node + 1) m.1.memory) h
      simp only [Leads] at hb
      omega
    · have hb := leads_of_mem_finishedFrom (s := m.2)
        (bounds_of_mem_finishedBelow b (node + 1 + a.size) m.2.memory) h
      simp only [Leads] at hb
      omega

theorem bounds_of_mem_finishedAmong {d : Nat} : (ts : List Trigger) → (node : Nat) →
    (m : Memories ts) → d ∈ finishedAmong ts node m → node ≤ d ∧ d < node + sizeAll ts
  | [], _, _, h => by simp [finishedAmong] at h
  | t :: ts, node, m, h => by
    simp only [sizeAll]
    rcases List.mem_append.mp h with h | h
    · have hb := leads_of_mem_finishedFrom (s := m.1)
        (bounds_of_mem_finishedBelow t node m.1.memory) h
      simp only [Leads] at hb
      omega
    · have hb := bounds_of_mem_finishedAmong ts (node + t.size) m.2 h
      omega

end

theorem leads_of_finished {t : Trigger} {node d : Nat} {s : t.State}
    (h : d ∈ t.finishedFrom node s) : Leads t node d :=
  leads_of_mem_finishedFrom (bounds_of_mem_finishedBelow t node s.memory) h

theorem root_mem_finishedFrom {t : Trigger} {node : Nat} {s : t.State} :
    node ∈ t.finishedFrom node s ↔ s.finished = true := by
  refine ⟨fun h => ?_, fun h => List.mem_append_left _ (mem_finishedAt.mpr ⟨rfl, h⟩)⟩
  rcases List.mem_append.mp h with h | h
  · exact (mem_finishedAt.mp h).2
  · exact absurd (bounds_of_mem_finishedBelow t node s.memory h).1 (Nat.lt_irrefl node)

theorem mem_finishedBelow {t : Trigger} {node d : Nat} {s : t.State} (hd : node < d)
    (h : d ∈ t.finishedFrom node s) : d ∈ t.finishedBelow node s.memory := by
  rcases List.mem_append.mp h with h | h
  · exact absurd (mem_finishedAt.mp h).1 (Nat.ne_of_gt hd)
  · exact h

theorem size_eq (t : Trigger) : t.size = 1 + sizeAll t.children := by
  cases t <;> simp only [size, children, sizeAll] <;> omega

theorem bounds_of_mem_starts {c : Nat} : (node : Nat) → (ts : List Trigger) →
    c ∈ starts node ts → node ≤ c ∧ c < node + sizeAll ts
  | _, [], h => by simp [starts] at h
  | node, t :: ts, h => by
    have hpos := t.size_pos
    simp only [sizeAll]
    rcases List.mem_cons.mp h with h | h
    · omega
    · have hb := bounds_of_mem_starts (node + t.size) ts h
      omega

theorem bounds_of_mem_row {t : Trigger} {node c : Nat} (h : c ∈ (row t node).children) :
    node < c ∧ c < node + t.size := by
  have hb := bounds_of_mem_starts (node + 1) t.children h
  have hsize := t.size_eq
  omega

mutual

theorem bounds_of_mem_children {r : Node} {c : Nat} (hc : c ∈ r.children) : (t : Trigger) →
    (node : Nat) → r ∈ t.arenaFrom node → node < c ∧ c < node + t.size
  | .leaf l, node, h => by
    obtain rfl := List.mem_singleton.mp h
    exact bounds_of_mem_row hc
  | .afterFirst ts, node, h => by
    rcases List.mem_cons.mp h with rfl | h
    · exact bounds_of_mem_row hc
    · have hb := bounds_of_mem_childrenAmong hc ts (node + 1) h
      simp only [size]
      omega
  | .repeatedly t, node, h => by
    rcases List.mem_cons.mp h with rfl | h
    · exact bounds_of_mem_row hc
    · have hb := bounds_of_mem_children hc t (node + 1) h
      simp only [size]
      omega
  | .orFinally a b, node, h => by
    rcases List.mem_cons.mp h with rfl | h
    · exact bounds_of_mem_row hc
    · simp only [size]
      rcases List.mem_append.mp h with h | h
      · have hb := bounds_of_mem_children hc a (node + 1) h
        omega
      · have hb := bounds_of_mem_children hc b (node + 1 + a.size) h
        omega

theorem bounds_of_mem_childrenAmong {r : Node} {c : Nat} (hc : c ∈ r.children) :
    (ts : List Trigger) → (node : Nat) → r ∈ arenaAmong node ts →
      node < c ∧ c < node + sizeAll ts
  | [], _, h => by simp [arenaAmong] at h
  | t :: ts, node, h => by
    simp only [sizeAll]
    rcases List.mem_append.mp h with h | h
    · have hb := bounds_of_mem_children hc t node h
      omega
    · have hb := bounds_of_mem_childrenAmong hc ts (node + t.size) h
      omega

end

theorem finished_of_mem_starts {c : Nat} {above : Bool} : (ts : List Trigger) → (node : Nat) →
    (m : Memories ts) → ConsistentAll ts above m → c ∈ starts node ts →
      c ∈ finishedAmong ts node m → above = true
  | [], _, _, _, hc, _ => by simp [starts] at hc
  | t :: ts, node, m, hm, hc, h => by
    rcases List.mem_cons.mp hc with rfl | hc
    · rcases List.mem_append.mp h with h | h
      · exact hm.1.1 (root_mem_finishedFrom.mp h)
      · have hb := bounds_of_mem_finishedAmong ts _ m.2 h
        have hpos := t.size_pos
        omega
    · rcases List.mem_append.mp h with h | h
      · have hb : Leads t node c := leads_of_finished (s := m.1) h
        have hstart := bounds_of_mem_starts _ ts hc
        simp only [Leads] at hb
        omega
      · exact finished_of_mem_starts ts (node + t.size) m.2 hm.2 hc h

mutual

/-- If a child of row `i` has finished, then so has the node of the row, and it is no repetition. -/
theorem parent_finished {i c : Nat} {r : Node} (hc : c ∈ r.children) : (t : Trigger) →
    (node : Nat) → (s : t.State) → t.Consistent s.finished s.memory →
      (t.arenaFrom node)[i]? = some r → c ∈ t.finishedFrom node s →
        node + i ∈ t.finishedFrom node s ∧ r.name ≠ "Repeatedly"
  | .leaf l, node, s, _, hr, h => by
    have hb := bounds_of_mem_children hc (.leaf l) node (List.mem_of_getElem? hr)
    simp only [size] at hb
    omega
  | .afterFirst ts, node, s, hs, hr, h => by
    have hb := bounds_of_mem_children hc (.afterFirst ts) node (List.mem_of_getElem? hr)
    have hbelow : c ∈ finishedAmong ts (node + 1) s.memory := mem_finishedBelow hb.1 h
    cases i with
    | zero =>
      obtain rfl := Option.some.inj hr
      have hroot := finished_of_mem_starts ts (node + 1) s.memory hs hc hbelow
      exact ⟨root_mem_finishedFrom.mpr hroot, by simp [row, name]⟩
    | succ j =>
      obtain ⟨hmem, hname⟩ := parent_finishedAmong hc ts (node + 1) s.memory _ hs hr hbelow
      refine ⟨List.mem_append_right _ ?_, hname⟩
      rwa [show node + (j + 1) = node + 1 + j by omega]
  | .repeatedly t, node, s, hs, hr, h => by
    have hb := bounds_of_mem_children hc (.repeatedly t) node (List.mem_of_getElem? hr)
    have hbelow : c ∈ t.finishedFrom (node + 1) s.memory := mem_finishedBelow hb.1 h
    cases i with
    | zero =>
      obtain rfl := Option.some.inj hr
      obtain rfl := List.mem_singleton.mp hc
      exact absurd (root_mem_finishedFrom.mp hbelow) (by simp [hs.1])
    | succ j =>
      obtain ⟨hmem, hname⟩ := parent_finished hc t (node + 1) s.memory (hs.1 ▸ hs.2) hr hbelow
      refine ⟨List.mem_append_right _ ?_, hname⟩
      rwa [show node + (j + 1) = node + 1 + j by omega]
  | .orFinally a b, node, s, hs, hr, h => by
    have hb := bounds_of_mem_children hc (.orFinally a b) node (List.mem_of_getElem? hr)
    have hbelow := List.mem_append.mp (mem_finishedBelow hb.1 h)
    cases i with
    | zero =>
      obtain rfl := Option.some.inj hr
      have hstart : c = node + 1 ∨ c = node + 1 + a.size := by
        simpa [row, children, starts] using hc
      have hroot : s.finished = true := by
        rcases hstart with rfl | rfl
        · rcases hbelow with h | h
          · exact hs.1.1 (root_mem_finishedFrom.mp h)
          · have hl := leads_of_finished (t := b) (s := s.memory.2) h
            have hpos := a.size_pos
            simp only [Leads] at hl
            omega
        · rcases hbelow with h | h
          · have hl := leads_of_finished (t := a) (s := s.memory.1) h
            simp only [Leads] at hl
            omega
          · exact hs.2.1 (root_mem_finishedFrom.mp h)
      exact ⟨root_mem_finishedFrom.mpr hroot, by simp [row, name]⟩
    | succ j =>
      replace hr : (a.arenaFrom (node + 1) ++ b.arenaFrom (node + 1 + a.size))[j]? = some r := hr
      rw [List.getElem?_append, length_arenaFrom] at hr
      split at hr
      · have hbounds := bounds_of_mem_children hc a (node + 1) (List.mem_of_getElem? hr)
        have hmain : c ∈ a.finishedFrom (node + 1) s.memory.1 := hbelow.resolve_right fun h => by
          have hl := leads_of_finished (t := b) (s := s.memory.2) h
          simp only [Leads] at hl
          omega
        obtain ⟨hmem, hname⟩ := parent_finished hc a (node + 1) s.memory.1 hs.1.2 hr hmain
        refine ⟨List.mem_append_right _ (List.mem_append_left _ ?_), hname⟩
        rwa [show node + (j + 1) = node + 1 + j by omega]
      · rename_i hj
        have hbounds := bounds_of_mem_children hc b _ (List.mem_of_getElem? hr)
        have hlast : c ∈ b.finishedFrom (node + 1 + a.size) s.memory.2 :=
          hbelow.resolve_left fun h => by
            have hl := leads_of_finished (t := a) (s := s.memory.1) h
            simp only [Leads] at hl
            omega
        obtain ⟨hmem, hname⟩ := parent_finished hc b _ s.memory.2 hs.2.2 hr hlast
        refine ⟨List.mem_append_right _ (List.mem_append_right _ ?_), hname⟩
        rwa [show node + (j + 1) = node + 1 + a.size + (j - a.size) by omega]

theorem parent_finishedAmong {i c : Nat} {r : Node} (hc : c ∈ r.children) :
    (ts : List Trigger) → (node : Nat) → (m : Memories ts) → (above : Bool) →
      ConsistentAll ts above m → (arenaAmong node ts)[i]? = some r →
        c ∈ finishedAmong ts node m → node + i ∈ finishedAmong ts node m ∧ r.name ≠ "Repeatedly"
  | [], _, _, _, _, hr, _ => by simp [arenaAmong] at hr
  | t :: ts, node, m, above, hm, hr, h => by
    replace hr : (t.arenaFrom node ++ arenaAmong (node + t.size) ts)[i]? = some r := hr
    rw [List.getElem?_append, length_arenaFrom] at hr
    split at hr
    · have hbounds := bounds_of_mem_children hc t node (List.mem_of_getElem? hr)
      have hfirst : c ∈ t.finishedFrom node m.1 := (List.mem_append.mp h).resolve_right fun h => by
        have hl := bounds_of_mem_finishedAmong ts _ m.2 h
        omega
      obtain ⟨hmem, hname⟩ := parent_finished hc t node m.1 hm.1.2 hr hfirst
      exact ⟨List.mem_append_left _ hmem, hname⟩
    · rename_i hi
      have hbounds := bounds_of_mem_childrenAmong hc ts _ (List.mem_of_getElem? hr)
      have hrest : c ∈ finishedAmong ts (node + t.size) m.2 :=
        (List.mem_append.mp h).resolve_left fun h => by
          have hl := leads_of_finished (t := t) (s := m.1) h
          simp only [Leads] at hl
          omega
      obtain ⟨hmem, hname⟩ := parent_finishedAmong hc ts _ m.2 above hm.2 hr hrest
      refine ⟨List.mem_append_right _ ?_, hname⟩
      rwa [show node + i = node + t.size + (i - t.size) by omega]

end

/-- A state in which the finished bits of the whole tree are consistent. -/
def Coherent (t : Trigger) (state : t.State) : Prop := t.Consistent state.finished state.memory

end Trigger

/-! ### Events keep what their steps ensure -/

namespace TriggerState

variable {t : Trigger} {s : TriggerState t} {I : t.State → Prop}

/-- Every window that has a state has one with the property. -/
def All (I : t.State → Prop) (s : TriggerState t) : Prop :=
  ∀ w state, s.find? w = some state → I state

theorem All.stateOf (h : s.All I) (hfresh : I t.fresh) (w : Window) : I (s.stateOf w) := by
  cases hfind : s.find? w with
  | none => exact stateOf_of_none hfind ▸ hfresh
  | some state => exact stateOf_of_some hfind ▸ h w state hfind

theorem All.keep {ρ : Type} (h : s.All I) {w : Window} {step : Step t.State ρ}
    (hstep : I step.state) : (s.keep w step).All I := by
  intro v state hv
  by_cases hw : w = v
  · unfold TriggerState.keep at hv
    split at hv
    · rw [WindowMap.find?_insert, if_pos hw, Option.some.injEq] at hv
      exact hv ▸ hstep
    · exact h v state hv
  · exact h v state (find?_keep_of_ne s hw step ▸ hv)

theorem All.erase (h : s.All I) (w : Window) : TriggerState.All I (s.erase w) := by
  intro v state hv
  rw [WindowMap.find?_erase] at hv
  split at hv
  · cases hv
  · exact h v state hv

theorem All.element (h : s.All I) {e : ElementEvent}
    (hstep : ((s.stateOf e.window).offer (t.onElement e 0)).Ensures fun u _ => I u) :
    (s.element e).2.All I := by
  cases ho : ((s.stateOf e.window).offer (t.onElement e 0)).answer with
  | ok o => exact element_eq ho ▸ h.keep (hstep o ho)
  | error fault =>
    have herror : (s.element e).1 = .error fault := by
      simp only [TriggerState.element, ho, commit]
    exact (element_error herror).symm ▸ h

theorem All.timer (h : s.All I) {e : TimerEvent}
    (hstep : ((s.stateOf e.window).offer (t.onTimer e 0)).Ensures fun u _ => I u) :
    (s.timer e).2.All I := by
  cases hc : s.contains e.window with
  | false =>
    have heq : s.timer e = (.ok .idle, s) := by simp only [TriggerState.timer, hc]; rfl
    exact heq ▸ h
  | true =>
    cases ho : ((s.stateOf e.window).offer (t.onTimer e 0)).answer with
    | ok o =>
      have heq : (s.timer e).2 = s.keep e.window ((s.stateOf e.window).offer (t.onTimer e 0)) := by
        simp only [TriggerState.timer, hc, if_true, ho, commit]
      exact heq ▸ h.keep (hstep o ho)
    | error fault =>
      have herror : (s.timer e).1 = .error fault := by
        simp only [TriggerState.timer, hc, if_true, ho, commit]
      exact (timer_error herror).symm ▸ h

/-- The step of a merge at the root. -/
def mergeStep (s : TriggerState t) (m : Merge) : Step t.State MergeOutcome :=
  (stateOf (m.olds.foldl take (.empty, s)).2 m.into).merge
    ((m.olds.foldl take (.empty, s)).1.entries.map (·.2)) (t.onMerge m 0)

theorem merge_answer (s : TriggerState t) (m : Merge) : (s.merge m).1 = (s.mergeStep m).answer := by
  show (commit _ _ (s.mergeStep m).answer).1 = _
  cases (s.mergeStep m).answer <;> rfl

theorem merge_of_answer {m : Merge} {o : MergeOutcome} (ho : (s.mergeStep m).answer = .ok o) :
    s.merge m = (.ok o, TriggerState.keep (m.olds.foldl take (.empty, s)).2 m.into
      (s.mergeStep m)) := by
  show commit _ _ (s.mergeStep m).answer = _
  rw [ho]
  rfl

theorem All.merge (h : s.All I) {m : Merge} (hstep : (s.mergeStep m).Ensures fun u _ => I u) :
    (s.merge m).2.All I := by
  cases ho : (s.mergeStep m).answer with
  | ok o =>
    have hrest : (m.olds.foldl take (.empty, s)).2.All I := by
      intro w state hw
      rw [find?_left] at hw
      split at hw
      · cases hw
      · exact h w state hw
    rw [merge_of_answer ho]
    exact hrest.keep (hstep o ho)
  | error fault => exact (merge_error ((merge_answer s m).trans ho)).symm ▸ h

/-! ### Reachable states -/

/-- The states that events reach from the empty one, whether they succeed or fail. -/
inductive Reachable : TriggerState t → Prop
  | empty : Reachable .empty
  | element {s : TriggerState t} (hs : Reachable s) (e : ElementEvent) : Reachable (s.element e).2
  | merge {s : TriggerState t} (hs : Reachable s) (m : Merge) : Reachable (s.merge m).2
  | timer {s : TriggerState t} (hs : Reachable s) (e : TimerEvent) : Reachable (s.timer e).2
  | cancel {s : TriggerState t} (hs : Reachable s) (a : Timer) : Reachable (s.cancel a)
  | clear {s : TriggerState t} (hs : Reachable s) (w : Window) : Reachable (s.erase w)

theorem Reachable.coherent (hs : Reachable s) : s.All t.Coherent := by
  induction hs with
  | empty => exact fun _ _ h => nomatch h
  | @element s hs e ih =>
    have hstate := ih.stateOf (Trigger.consistent_blank t false) e.window
    exact ih.element ((Slot.offer_ensures hstate
      (t.onElement_consistent e 0 _ _ hstate)).imp fun _ _ hu => hu.2)
  | @merge s hs m ih =>
    have hrest : (m.olds.foldl take (.empty, s)).2.All t.Coherent := fun w state hw => by
      rw [find?_left] at hw
      split at hw
      · cases hw
      · exact ih w state hw
    have hstate := hrest.stateOf (Trigger.consistent_blank t false) m.into
    exact ih.merge ((Slot.merge_ensures (C := t.Consistent) (fun _ _ => Trigger.Consistent.to_true)
      hstate (t.onMerge_consistent m 0 _ _ _ hstate)).imp fun _ _ hu => hu.2)
  | @timer s hs e ih =>
    have hstate := ih.stateOf (Trigger.consistent_blank t false) e.window
    exact ih.timer ((Slot.offer_ensures hstate
      (t.onTimer_consistent e 0 _ _ hstate)).imp fun _ _ hu => hu.2)
  | @cancel s hs a ih =>
    intro w state hw
    rw [find?_cancel] at hw
    split at hw
    · obtain ⟨old, hold, rfl⟩ := Option.map_eq_some_iff.mp hw
      exact Trigger.Consistent.cancelFrom _ _ t 0 _ _ (ih w old hold)
    · exact ih w state hw
  | clear hs w ih => exact ih.erase w

theorem isFinished_iff {w : Window} {node : Nat} : s.isFinished w node = true ↔
    ∃ state, s.find? w = some state ∧ node ∈ t.finishedFrom 0 state := by
  unfold isFinished
  cases s.find? w with
  | none => simp
  | some state =>
    simp only [Option.any_some, List.contains_iff_mem, Option.some.injEq, exists_eq_left']
    rfl

theorem isFinished_root {w : Window} :
    s.isFinished w 0 = true ↔ (s.stateOf w).finished = true := by
  rw [isFinished_iff]
  cases hfind : s.find? w with
  | none => simp [stateOf_of_none hfind, Trigger.fresh, Slot.start]
  | some state => simp [stateOf_of_some hfind, Trigger.root_mem_finishedFrom]

/-- Once a merge has distinct old windows, only a root that has finished in one of them makes it
answer so: were none finished, no node below them would be. -/
theorem merge_alreadyFinished_iff (ht : t.isBuiltIn = true) (hs : s.All t.Coherent) {m : Merge}
    (hnodup : m.olds.Nodup) :
    (s.merge m).1 = .ok .alreadyFinished ↔ ∃ w ∈ m.olds, s.isFinished w 0 = true := by
  simp only [isFinished_root]
  constructor
  · rw [merge_answer]
    intro h
    by_contra hnone
    have hopen : ∀ u ∈ (m.olds.foldl take (.empty, s)).1.entries.map (·.2),
        u.finished = false ∧ t.Consistent false u.memory := by
      intro u hu
      obtain ⟨w, hw, rfl⟩ := (mem_taken hnodup).mp hu
      have hf : (s.stateOf w).finished = false :=
        Bool.eq_false_iff.mpr fun hf => hnone ⟨w, hw, hf⟩
      exact ⟨hf, hf ▸ hs.stateOf (Trigger.consistent_blank t false) w⟩
    exact Slot.merge_ensures_of_open (P := (· ≠ .alreadyFinished)) hopen
      (fun hmem => t.onMerge_not_alreadyFinished m 0 _ _ ht hmem) _ h rfl
  · intro h
    obtain ⟨state, s', hmerge, -⟩ := merge_finished hnodup h
    rw [hmerge]

/-- Finished bits are consistent along the tree in every reachable state. Reaching it may have
merged windows that are listed twice, but a merge that is to tell which roots had finished lists
each window once. -/
theorem reachable_finished_consistent (ht : t.isBuiltIn = true) (hs : Reachable s) :
    (∀ (w : Window) (parent child : Nat) (r : Trigger.Node), t.arena[parent]? = some r →
      child ∈ r.children →
        (s.isFinished w child = true → s.isFinished w parent = true) ∧
        (r.name = "Repeatedly" → s.isFinished w child = false)) ∧
    ∀ m : Merge, m.olds.Nodup →
      ((s.merge m).1 = .ok .alreadyFinished ↔ ∃ w ∈ m.olds, s.isFinished w 0 = true) := by
  refine ⟨fun w parent child r hr hchild => ?_,
    fun m hnodup => merge_alreadyFinished_iff ht hs.coherent hnodup⟩
  have hparent : ∀ state, s.find? w = some state → child ∈ t.finishedFrom 0 state →
      parent ∈ t.finishedFrom 0 state ∧ r.name ≠ "Repeatedly" := by
    intro state hstate hfinished
    have h := Trigger.parent_finished hchild t 0 state (hs.coherent w state hstate) hr hfinished
    rwa [Nat.zero_add] at h
  refine ⟨fun h => ?_, fun hname => Bool.eq_false_iff.mpr fun h => ?_⟩
  · obtain ⟨state, hstate, hfinished⟩ := isFinished_iff.mp h
    exact isFinished_iff.mpr ⟨state, hstate, (hparent state hstate hfinished).1⟩
  · obtain ⟨state, hstate, hfinished⟩ := isFinished_iff.mp h
    exact (hparent state hstate hfinished).2 hname

/-- A repetition that ends with the second element of a window. -/
def untilSecond : Trigger :=
  .repeatedUntil (.afterFirst [.afterCount 5, .afterWatermark]) (.afterCount 2)

/-- Two elements have arrived in one window, and one in another. -/
def untilSecondState : TriggerState untilSecond :=
  (element (element (element .empty ⟨.interval 0 10, 3⟩).2 ⟨.interval 5 15, 7⟩).2
    ⟨.interval 0 10, 4⟩).2

theorem reachable_finished_consistent_of_until :
    untilSecond.isBuiltIn = true ∧ Reachable untilSecondState ∧
      untilSecondState.isFinished (.interval 0 10) 5 = true ∧
      untilSecondState.isFinished (.interval 0 10) 0 = true ∧
      untilSecondState.isFinished (.interval 0 10) 2 = false ∧
      (untilSecondState.merge ⟨[.interval 5 15, .interval 0 10], .interval 0 15⟩).1 =
        .ok .alreadyFinished ∧
      (untilSecondState.merge ⟨[.interval 5 15], .interval 0 15⟩).1 ≠ .ok .alreadyFinished := by
  have hs : Reachable untilSecondState := .element (.element (.element .empty _) _) _
  have h := reachable_finished_consistent rfl hs
  have hlast : untilSecondState.isFinished (.interval 0 10) 5 = true := rfl
  have hroot : untilSecondState.isFinished (.interval 0 10) 0 = true :=
    (h.1 _ 0 5 ⟨"OrFinally", [1, 5], 6⟩ rfl (by decide)).1 hlast
  have hchild : untilSecondState.isFinished (.interval 0 10) 2 = false :=
    (h.1 _ 1 2 ⟨"Repeatedly", [2], 5⟩ rfl (by decide)).2 rfl
  refine ⟨rfl, hs, hlast, hroot, hchild, (h.2 _ (by decide)).mpr ⟨_, by decide, hroot⟩,
    fun hm => ?_⟩
  obtain ⟨w, hw, hfinished⟩ := (h.2 ⟨[.interval 5 15], .interval 0 15⟩ (by decide)).mp hm
  obtain rfl := List.mem_singleton.mp hw
  exact absurd hfinished (by decide)

end TriggerState

end EventTime
