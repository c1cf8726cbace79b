import EventTime.Proofs.Trigger.Delivery

/-!
# Trees under other numbers

A subtree is evaluated under the numbers it has in the whole tree. Built-in policies do not look at
their number, so a tree answers an element in the same way under every numbering; its timers carry
the same times, and a timer moved along with the numbers is cancelled and answered in the same way.
-/

namespace EventTime

namespace Trigger

mutual

theorem onElement_renumber (e : ElementEvent) : (t : Trigger) → (node node' : Nat) →
    t.isBuiltIn = true → onElement e t node = onElement e t node'
  | .leaf l, _, _, h => by
    cases l with
    | custom p => cases h
    | _ => rfl
  | .afterFirst ts, node, node', h => by
    simp only [isBuiltIn, Bool.and_eq_true] at h
    exact onElementAmong_renumber e ts (node + 1) (node' + 1) h.2
  | .repeatedly t, node, node', h => by
    funext m
    simp only [onElement]
    rw [onElement_renumber e t (node + 1) (node' + 1) h]
  | .orFinally a b, node, node', h => by
    simp only [isBuiltIn, Bool.and_eq_true] at h
    funext m
    simp only [onElement]
    rw [onElement_renumber e a (node + 1) (node' + 1) h.1,
      onElement_renumber e b (node + 1 + a.size) (node' + 1 + a.size) h.2]

theorem onElementAmong_renumber (e : ElementEvent) : (ts : List Trigger) → (node node' : Nat) →
    isBuiltInAll ts = true → onElementAmong e ts node = onElementAmong e ts node'
  | [], _, _, _ => rfl
  | t :: ts, node, node', h => by
    simp only [isBuiltInAll, Bool.and_eq_true] at h
    funext m
    simp only [onElementAmong]
    rw [onElement_renumber e t node node' h.1,
      onElementAmong_renumber e ts (node + t.size) (node' + t.size) h.2]

end

/-- A pending timer whose node has moved by `shift` numbers. -/
def movedBy (shift : Nat) (p : Int × Nat) : Int × Nat := (p.1, p.2 + shift)

mutual

theorem timersFrom_renumber (shift : Nat) : (t : Trigger) → (node : Nat) → (m : t.Memory) →
    t.timersFrom (node + shift) m = (t.timersFrom node m).map (movedBy shift)
  | .leaf _, node, c => by
    simp only [timersFrom, List.map_map]
    rfl
  | .afterFirst ts, node, m => by
    simp only [timersFrom]
    rw [Nat.add_right_comm]
    exact timersAmong_renumber shift ts (node + 1) m
  | .repeatedly t, node, m => by
    simp only [timersFrom]
    rw [Nat.add_right_comm]
    exact timersFrom_renumber shift t (node + 1) m.memory
  | .orFinally a b, node, m => by
    simp only [timersFrom, List.map_append]
    rw [Nat.add_right_comm, timersFrom_renumber shift a (node + 1) m.1.memory,
      Nat.add_right_comm (node + 1), timersFrom_renumber shift b (node + 1 + a.size) m.2.memory]

theorem timersAmong_renumber (shift : Nat) : (ts : List Trigger) → (node : Nat) →
    (m : Memories ts) →
      timersAmong ts (node + shift) m = (timersAmong ts node m).map (movedBy shift)
  | [], _, _ => rfl
  | t :: ts, node, m => by
    simp only [timersAmong, List.map_append]
    rw [timersFrom_renumber shift t node m.1.memory, Nat.add_right_comm,
      timersAmong_renumber shift ts (node + t.size) m.2]

end

mutual

theorem cancelFrom_renumber (timestamp : Int) (target shift : Nat) : (t : Trigger) →
    (node : Nat) → (m : t.Memory) →
      t.cancelFrom timestamp (target + shift) (node + shift) m =
        t.cancelFrom timestamp target node m
  | .leaf _, node, c => by
    simp only [cancelFrom, Nat.add_right_cancel_iff]
  | .afterFirst ts, node, m => by
    simp only [cancelFrom]
    rw [Nat.add_right_comm]
    exact cancelAmong_renumber timestamp target shift ts (node + 1) m
  | .repeatedly t, node, m => by
    simp only [cancelFrom]
    rw [Nat.add_right_comm, cancelFrom_renumber timestamp target shift t (node + 1) m.memory]
  | .orFinally a b, node, m => by
    simp only [cancelFrom]
    rw [Nat.add_right_comm, cancelFrom_renumber timestamp target shift a (node + 1) m.1.memory,
      Nat.add_right_comm (node + 1),
      cancelFrom_renumber timestamp target shift b (node + 1 + a.size) m.2.memory]

theorem cancelAmong_renumber (timestamp : Int) (target shift : Nat) : (ts : List Trigger) →
    (node : Nat) → (m : Memories ts) →
      cancelAmong timestamp (target + shift) ts (node + shift) m =
        cancelAmong timestamp target ts node m
  | [], _, _ => rfl
  | t :: ts, node, m => by
    simp only [cancelAmong]
    rw [cancelFrom_renumber timestamp target shift t node m.1.memory, Nat.add_right_comm,
      cancelAmong_renumber timestamp target shift ts (node + t.size) m.2]

end

mutual

/-- A timer of a node outside a tree is none of the tree's. -/
theorem cancelFrom_of_not_leads (timestamp : Int) (target : Nat) : (t : Trigger) → (node : Nat) →
    (m : t.Memory) → ¬Leads t node target → t.cancelFrom timestamp target node m = m
  | .leaf _, node, c, h => by
    refine if_neg fun e => h ?_
    simp only [Leads, size]
    omega
  | .afterFirst ts, node, m, h => by
    refine cancelAmong_of_outside timestamp target ts (node + 1) m fun hb => h ?_
    simp only [Leads, size]
    omega
  | .repeatedly t, node, m, h => by
    have ht : ¬Leads t (node + 1) target := by
      simp only [Leads, size] at h ⊢
      omega
    simp only [cancelFrom]
    rw [cancelFrom_of_not_leads timestamp target t (node + 1) m.memory ht]
    rfl
  | .orFinally a b, node, m, h => by
    simp only [Leads, size] at h
    have ha : ¬Leads a (node + 1) target := by
      simp only [Leads]
      omega
    have hb : ¬Leads b (node + 1 + a.size) target := by
      simp only [Leads]
      omega
    simp only [cancelFrom]
    rw [cancelFrom_of_not_leads timestamp target a (node + 1) m.1.memory ha,
      cancelFrom_of_not_leads timestamp target b (node + 1 + a.size) m.2.memory hb]
    rfl

theorem cancelAmong_of_outside (timestamp : Int) (target : Nat) : (ts : List Trigger) →
    (node : Nat) → (m : Memories ts) → ¬(node ≤ target ∧ target < node + sizeAll ts) →
      cancelAmong timestamp target ts node m = m
  | [], _, _, _ => rfl
  | t :: ts, node, m, h => by
    simp only [sizeAll] at h
    have ht : ¬Leads t node target := by
      simp only [Leads]
      omega
    simp only [cancelAmong]
    rw [cancelFrom_of_not_leads timestamp target t node m.1.memory ht,
      cancelAmong_of_outside timestamp target ts (node + t.size) m.2 fun hb => by omega]
    rfl

end

section Routes

variable {e : TimerEvent} {a b t : Trigger} {ts : List Trigger} {node : Nat}

theorem onTimer_afterFirst {m : Memories ts} (h : e.destination ∈ leavesAmong ts (node + 1)) :
    onTimer e (.afterFirst ts) node m = onTimerAmong e node ts (node + 1) m := by
  have hb := bounds_of_mem_leavesAmong ts (node + 1) h
  exact if_neg (by omega)

theorem onTimer_repeatedly {m : Slot t.Memory} (h : e.destination ∈ t.leavesFrom (node + 1)) :
    onTimer e (.repeatedly t) node m =
      (Slot.offer m (onTimer e t (node + 1))).next id fun s o =>
        if o.finishes then ⟨Slot.start t.blank, true, .ok .fire⟩
        else .quiet s (.ok (if o.fires then .fire else .idle)) := by
  have hl : Leads t (node + 1) e.destination := leads_of_mem_leavesFrom t (node + 1) h
  simp only [Leads] at hl
  exact if_neg (by omega)

theorem onTimer_main {m : Slot a.Memory × Slot b.Memory}
    (h : e.destination ∈ a.leavesFrom (node + 1)) :
    onTimer e (.orFinally a b) node m =
      (Slot.offer m.1 (onTimer e a (node + 1))).next (·, m.2) fun s o =>
        .quiet (s, m.2) (.ok o) := by
  have hl := leads_of_mem_leavesFrom a (node + 1) h
  have hb := hl.1
  exact (if_neg (by omega)).trans (if_pos hl)

theorem onTimer_last {m : Slot a.Memory × Slot b.Memory}
    (h : e.destination ∈ b.leavesFrom (node + 1 + a.size)) :
    onTimer e (.orFinally a b) node m =
      (Slot.offer m.2 (onTimer e b (node + 1 + a.size))).next (m.1, ·) fun s o =>
        .quiet (m.1, s) (.ok (if o.fires then .fireAndFinish else o)) := by
  have hl := leads_of_mem_leavesFrom b (node + 1 + a.size) h
  have hb := hl.1
  have hna : ¬Leads a (node + 1) e.destination := fun ha => by
    have hs := ha.2
    omega
  exact (if_neg (by omega)).trans ((if_neg hna).trans (if_pos hl))

theorem onTimerAmong_here {parent : Nat} {m : Memories (t :: ts)}
    (h : e.destination ∈ t.leavesFrom node) :
    onTimerAmong e parent (t :: ts) node m =
      (Slot.offer m.1 (onTimer e t node)).next (·, m.2) fun s o =>
        .quiet (s, m.2) (.ok (if o.fires then .fireAndFinish else .idle)) :=
  if_pos (leads_of_mem_leavesFrom t node h)

theorem onTimerAmong_there {parent : Nat} {m : Memories (t :: ts)}
    (h : e.destination ∈ leavesAmong ts (node + t.size)) :
    onTimerAmong e parent (t :: ts) node m =
      (onTimerAmong e parent ts (node + t.size) m.2).next (m.1, ·) fun rest o =>
        .quiet (m.1, rest) (.ok o) := by
  have hb := bounds_of_mem_leavesAmong ts (node + t.size) h
  exact if_neg fun hl => by
    have hs := hl.2
    omega

end Routes

/-! ### Leaves and delivered timers -/

mutual

theorem mem_leavesFrom_renumber {d : Nat} (shift : Nat) : (t : Trigger) → (node : Nat) →
    (d + shift ∈ t.leavesFrom (node + shift) ↔ d ∈ t.leavesFrom node)
  | .leaf _, node => by
    simp only [leavesFrom, List.mem_singleton, Nat.add_right_cancel_iff]
  | .afterFirst ts, node => by
    simp only [leavesFrom]
    rw [Nat.add_right_comm]
    exact mem_leavesAmong_renumber shift ts (node + 1)
  | .repeatedly t, node => by
    simp only [leavesFrom]
    rw [Nat.add_right_comm]
    exact mem_leavesFrom_renumber shift t (node + 1)
  | .orFinally a b, node => by
    simp only [leavesFrom, List.mem_append]
    rw [Nat.add_right_comm, mem_leavesFrom_renumber shift a (node + 1),
      Nat.add_right_comm (node + 1), mem_leavesFrom_renumber shift b (node + 1 + a.size)]

theorem mem_leavesAmong_renumber {d : Nat} (shift : Nat) : (ts : List Trigger) → (node : Nat) →
    (d + shift ∈ leavesAmong ts (node + shift) ↔ d ∈ leavesAmong ts node)
  | [], _ => by simp only [leavesAmong, List.not_mem_nil]
  | t :: ts, node => by
    simp only [leavesAmong, List.mem_append]
    rw [mem_leavesFrom_renumber shift t node, Nat.add_right_comm,
      mem_leavesAmong_renumber shift ts (node + t.size)]

end

/-- The same offer, where the runs agree on what the slot remembers. -/
theorem offer_congr {σ : Type} {s : Slot σ} {run run' : σ → Step σ Outcome}
    (h : run s.memory = run' s.memory) : s.offer run = s.offer run' := by
  simp only [Slot.offer, h]

mutual

/-- Only the refusals of a timer name a node, and a timer of a leaf is not refused. -/
theorem onTimer_renumber (w : Window) (timestamp : Int) (target shift : Nat) : (t : Trigger) →
    (node : Nat) → (m : t.Memory) → t.isBuiltIn = true → target ∈ t.leavesFrom node →
      onTimer ⟨w, target + shift, timestamp⟩ t (node + shift) m =
        onTimer ⟨w, target, timestamp⟩ t node m
  | .leaf l, node, c, h, _ => by
    cases l with
    | custom p => cases h
    | _ => rfl
  | .afterFirst ts, node, m, h, hd => by
    simp only [isBuiltIn, Bool.and_eq_true] at h
    have hd' : target + shift ∈ leavesAmong ts (node + shift + 1) := by
      rw [Nat.add_right_comm]
      exact (mem_leavesAmong_renumber shift ts (node + 1)).mpr hd
    refine (onTimer_afterFirst hd').trans (Eq.trans ?_ (onTimer_afterFirst hd).symm)
    rw [Nat.add_right_comm]
    exact onTimerAmong_renumber w timestamp target shift (node + shift) node ts (node + 1) m h.2 hd
  | .repeatedly t, node, m, h, hd => by
    have hd' : target + shift ∈ t.leavesFrom (node + shift + 1) := by
      rw [Nat.add_right_comm]
      exact (mem_leavesFrom_renumber shift t (node + 1)).mpr hd
    have hc := offer_congr (onTimer_renumber w timestamp target shift t (node + 1) m.memory h hd)
    refine (onTimer_repeatedly hd').trans (Eq.trans ?_ (onTimer_repeatedly hd).symm)
    rw [Nat.add_right_comm, hc]
  | .orFinally a b, node, m, h, hd => by
    simp only [isBuiltIn, Bool.and_eq_true] at h
    rcases List.mem_append.mp hd with hd | hd
    · have hd' : target + shift ∈ a.leavesFrom (node + shift + 1) := by
        rw [Nat.add_right_comm]
        exact (mem_leavesFrom_renumber shift a (node + 1)).mpr hd
      have hc := offer_congr
        (onTimer_renumber w timestamp target shift a (node + 1) m.1.memory h.1 hd)
      refine (onTimer_main hd').trans (Eq.trans ?_ (onTimer_main hd).symm)
      rw [Nat.add_right_comm, hc]
    · have hd' : target + shift ∈ b.leavesFrom (node + shift + 1 + a.size) := by
        rw [Nat.add_right_comm node, Nat.add_right_comm (node + 1)]
        exact (mem_leavesFrom_renumber shift b (node + 1 + a.size)).mpr hd
      have hc := offer_congr
        (onTimer_renumber w timestamp target shift b (node + 1 + a.size) m.2.memory h.2 hd)
      refine (onTimer_last hd').trans (Eq.trans ?_ (onTimer_last hd).symm)
      rw [Nat.add_right_comm node, Nat.add_right_comm (node + 1), hc]

theorem onTimerAmong_renumber (w : Window) (timestamp : Int) (target shift parent parent' : Nat) :
    (ts : List Trigger) → (node : Nat) → (m : Memories ts) → isBuiltInAll ts = true →
      target ∈ leavesAmong ts node →
        onTimerAmong ⟨w, target + shift, timestamp⟩ parent ts (node + shift) m =
          onTimerAmong ⟨w, target, timestamp⟩ parent' ts node m
  | [], _, _, _, hd => by cases hd
  | t :: ts, node, m, h, hd => by
    simp only [isBuiltInAll, Bool.and_eq_true] at h
    rcases List.mem_append.mp hd with hd | hd
    · have hd' := (mem_leavesFrom_renumber shift t node).mpr hd
      have hc := offer_congr (onTimer_renumber w timestamp target shift t node m.1.memory h.1 hd)
      refine (onTimerAmong_here hd').trans (Eq.trans ?_ (onTimerAmong_here hd).symm)
      rw [hc]
    · have hd' : target + shift ∈ leavesAmong ts (node + shift + t.size) := by
        rw [Nat.add_right_comm]
        exact (mem_leavesAmong_renumber shift ts (node + t.size)).mpr hd
      refine (onTimerAmong_there hd').trans (Eq.trans ?_ (onTimerAmong_there hd).symm)
      rw [Nat.add_right_comm,
        onTimerAmong_renumber w timestamp target shift parent parent' ts (node + t.size) m.2 h.2 hd]

end

end Trigger

end EventTime
