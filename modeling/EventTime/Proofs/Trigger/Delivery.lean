import EventTime.Trigger.State
import EventTime.Proofs.WindowMap

/-!
# Delivering events to a built-in tree

A tree of built-in policies accepts every element, and every timer that is addressed to one of its
leaves. The pending timers of a tree are addressed to its leaves, so a timer taken from the state of
a tree is always accepted; taking it removes it and no other.
-/

namespace EventTime

namespace Trigger

mutual

/-- The numbers of the leaves of a tree whose root has number `node`. -/
def leavesFrom : (t : Trigger) → (node : Nat) → List Nat
  | .leaf _, node => [node]
  | .afterFirst ts, node => leavesAmong ts (node + 1)
  | .repeatedly t, node => leavesFrom t (node + 1)
  | .orFinally a b, node => leavesFrom a (node + 1) ++ leavesFrom b (node + 1 + a.size)

/-- The numbers of the leaves of several trees, of which the first has number `node`. -/
def leavesAmong : (ts : List Trigger) → (node : Nat) → List Nat
  | [], _ => []
  | t :: ts, node => leavesFrom t node ++ leavesAmong ts (node + t.size)

end

mutual

theorem leads_of_mem_leavesFrom {d : Nat} :
    (t : Trigger) → (node : Nat) → d ∈ t.leavesFrom node → Leads t node d
  | .leaf _, node, h => by
    simp only [leavesFrom, List.mem_singleton] at h
    simp only [Leads, size]
    omega
  | .afterFirst ts, node, h => by
    have hb := bounds_of_mem_leavesAmong ts (node + 1) h
    simp only [Leads, size]
    omega
  | .repeatedly t, node, h => by
    have hb := leads_of_mem_leavesFrom t (node + 1) h
    simp only [Leads, size] at hb ⊢
    omega
  | .orFinally a b, node, h => by
    simp only [Leads, size]
    rcases List.mem_append.mp h with h | h
    · have hb := leads_of_mem_leavesFrom a (node + 1) h
      simp only [Leads] at hb
      omega
    · have hb := leads_of_mem_leavesFrom b (node + 1 + a.size) h
      simp only [Leads] at hb
      omega

theorem bounds_of_mem_leavesAmong {d : Nat} :
    (ts : List Trigger) → (node : Nat) → d ∈ leavesAmong ts node →
      node ≤ d ∧ d < node + sizeAll ts
  | [], _, h => by simp [leavesAmong] at h
  | t :: ts, node, h => by
    simp only [sizeAll]
    rcases List.mem_append.mp h with h | h
    · have hb := leads_of_mem_leavesFrom t node h
      simp only [Leads] at hb
      omega
    · have hb := bounds_of_mem_leavesAmong ts (node + t.size) h
      omega

end

mutual

theorem mem_leaves_of_mem_timersFrom {p : Int × Nat} :
    (t : Trigger) → (node : Nat) → (m : t.Memory) → p ∈ timersFrom t node m →
      p.2 ∈ t.leavesFrom node
  | .leaf _, node, m, h => by
    obtain ⟨timestamp, _, rfl⟩ := List.mem_map.mp h
    exact List.mem_singleton.mpr rfl
  | .afterFirst ts, node, m, h => mem_leaves_of_mem_timersAmong ts (node + 1) m h
  | .repeatedly t, node, m, h => mem_leaves_of_mem_timersFrom t (node + 1) m.memory h
  | .orFinally a b, node, m, h => by
    rcases List.mem_append.mp h with h | h
    · exact List.mem_append_left _ (mem_leaves_of_mem_timersFrom a (node + 1) m.1.memory h)
    · exact List.mem_append_right _
        (mem_leaves_of_mem_timersFrom b (node + 1 + a.size) m.2.memory h)

theorem mem_leaves_of_mem_timersAmong {p : Int × Nat} :
    (ts : List Trigger) → (node : Nat) → (m : Memories ts) → p ∈ timersAmong ts node m →
      p.2 ∈ leavesAmong ts node
  | [], _, _, h => by simp [timersAmong] at h
  | t :: ts, node, m, h => by
    rcases List.mem_append.mp h with h | h
    · exact List.mem_append_left _ (mem_leaves_of_mem_timersFrom t node m.1.memory h)
    · exact List.mem_append_right _ (mem_leaves_of_mem_timersAmong ts (node + t.size) m.2 h)

end

end Trigger

theorem Step.next_answers {σ τ ρ υ : Type} {s : Step σ ρ} {keep : σ → τ}
    {k : σ → ρ → Step τ υ} (hs : ∃ a, s.answer = .ok a)
    (hk : ∀ a, ∃ b, (k s.state a).answer = .ok b) : ∃ b, (s.next keep k).answer = .ok b := by
  obtain ⟨a, ha⟩ := hs
  rw [Step.next_ok ha]
  exact hk a

theorem Slot.offer_answers {σ : Type} {s : Slot σ} {run : σ → Step σ Outcome}
    (h : ∃ o, (run s.memory).answer = .ok o) : ∃ o, (s.offer run).answer = .ok o := by
  unfold Slot.offer
  split
  · exact ⟨.idle, rfl⟩
  · exact Step.next_answers h fun o => ⟨o, rfl⟩

namespace Trigger

mutual

theorem onElement_answers (e : ElementEvent) :
    (t : Trigger) → (node : Nat) → (m : t.Memory) → t.isBuiltIn = true →
      ∃ o, (onElement e t node m).answer = .ok o
  | .leaf l, node, m, h => by
    cases l with
    | custom p => simp [isBuiltIn, Leaf.isBuiltIn] at h
    | _ => exact ⟨_, rfl⟩
  | .afterFirst ts, node, m, h => by
    simp only [isBuiltIn, Bool.and_eq_true] at h
    exact onElementAmong_answers e ts (node + 1) m h.2
  | .repeatedly t, node, m, h => by
    have hc := onElement_answers e t (node + 1) m.memory h
    refine Step.next_answers (Slot.offer_answers hc) fun o => ?_
    split <;> exact ⟨_, rfl⟩
  | .orFinally a b, node, m, h => by
    simp only [isBuiltIn, Bool.and_eq_true] at h
    have ha := onElement_answers e a (node + 1) m.1.memory h.1
    have hb := onElement_answers e b (node + 1 + a.size) m.2.memory h.2
    exact Step.next_answers (Slot.offer_answers ha) fun _ =>
      Step.next_answers (Slot.offer_answers hb) fun _ => ⟨_, rfl⟩

theorem onElementAmong_answers (e : ElementEvent) :
    (ts : List Trigger) → (node : Nat) → (m : Memories ts) → isBuiltInAll ts = true →
      ∃ o, (onElementAmong e ts node m).answer = .ok o
  | [], _, _, _ => ⟨.idle, rfl⟩
  | t :: ts, node, m, h => by
    simp only [isBuiltInAll, Bool.and_eq_true] at h
    have ht := onElement_answers e t node m.1.memory h.1
    refine Step.next_answers (Slot.offer_answers ht) fun o => ?_
    split
    · exact ⟨_, rfl⟩
    · exact Step.next_answers (onElementAmong_answers e ts (node + t.size) m.2 h.2) fun _ =>
        ⟨_, rfl⟩

end

mutual

theorem onTimer_answers (e : TimerEvent) :
    (t : Trigger) → (node : Nat) → (m : t.Memory) → t.isBuiltIn = true →
      e.destination ∈ t.leavesFrom node → ∃ o, (onTimer e t node m).answer = .ok o
  | .leaf l, node, m, h, _ => by
    cases l with
    | custom p => simp [isBuiltIn, Leaf.isBuiltIn] at h
    | _ => exact ⟨_, rfl⟩
  | .afterFirst ts, node, m, h, hd => by
    simp only [isBuiltIn, Bool.and_eq_true] at h
    have hb := bounds_of_mem_leavesAmong ts (node + 1) hd
    have hroute : onTimer e (.afterFirst ts) node m = onTimerAmong e node ts (node + 1) m :=
      if_neg (by omega)
    rw [hroute]
    exact onTimerAmong_answers e node ts (node + 1) m h.2 hd
  | .repeatedly t, node, m, h, hd => by
    have hb : Leads t (node + 1) e.destination := leads_of_mem_leavesFrom t (node + 1) hd
    have hc := onTimer_answers e t (node + 1) m.memory h hd
    simp only [Leads] at hb
    rw [onTimer, if_neg (by omega)]
    refine Step.next_answers (Slot.offer_answers hc) fun o => ?_
    split <;> exact ⟨_, rfl⟩
  | .orFinally a b, node, m, h, hd => by
    simp only [isBuiltIn, Bool.and_eq_true] at h
    have hroot := leads_of_mem_leavesFrom (.orFinally a b) node hd
    rcases List.mem_append.mp hd with hd | hd
    · have hl := leads_of_mem_leavesFrom a (node + 1) hd
      have ha := onTimer_answers e a (node + 1) m.1.memory h.1 hd
      rw [onTimer, if_neg (by simp only [Leads] at hl; omega), if_pos hl]
      exact Step.next_answers (Slot.offer_answers ha) fun _ => ⟨_, rfl⟩
    · have hl := leads_of_mem_leavesFrom b (node + 1 + a.size) hd
      have hb := onTimer_answers e b (node + 1 + a.size) m.2.memory h.2 hd
      have hna : ¬Leads a (node + 1) e.destination := by
        simp only [Leads] at hl ⊢
        omega
      rw [onTimer, if_neg (by simp only [Leads] at hl; omega), if_neg hna, if_pos hl]
      exact Step.next_answers (Slot.offer_answers hb) fun _ => ⟨_, rfl⟩

theorem onTimerAmong_answers (e : TimerEvent) (parent : Nat) :
    (ts : List Trigger) → (node : Nat) → (m : Memories ts) → isBuiltInAll ts = true →
      e.destination ∈ leavesAmong ts node → ∃ o, (onTimerAmong e parent ts node m).answer = .ok o
  | [], _, _, _, hd => by simp [leavesAmong] at hd
  | t :: ts, node, m, h, hd => by
    simp only [isBuiltInAll, Bool.and_eq_true] at h
    rcases List.mem_append.mp hd with hd | hd
    · have hl := leads_of_mem_leavesFrom t node hd
      have ht := onTimer_answers e t node m.1.memory h.1 hd
      rw [onTimerAmong, if_pos hl]
      exact Step.next_answers (Slot.offer_answers ht) fun _ => ⟨_, rfl⟩
    · have hb := bounds_of_mem_leavesAmong ts (node + t.size) hd
      have hn : ¬Leads t node e.destination := by
        simp only [Leads]
        omega
      rw [onTimerAmong, if_neg hn]
      exact Step.next_answers (onTimerAmong_answers e parent ts (node + t.size) m.2 h.2 hd)
        fun _ => ⟨_, rfl⟩

end

/-! ### Roots that never finish -/

/-- The root is the plain end-of-window trigger or a repetition. -/
def Endless (t : Trigger) : Prop := t = .endOfWindow ∨ ∃ child, t = .repeatedly child

end Trigger

theorem Step.answer_of_next {σ τ ρ υ : Type} {s : Step σ ρ} {keep : σ → τ}
    {k : σ → ρ → Step τ υ} {b : υ} (h : (s.next keep k).answer = .ok b) :
    ∃ a, s.answer = .ok a ∧ (k s.state a).answer = .ok b := by
  cases hs : s.answer with
  | ok a => exact ⟨a, rfl, by rwa [Step.next_ok hs] at h⟩
  | error e =>
    rw [Step.next_error hs] at h
    cases h

theorem Slot.not_finishes_of_offer {σ : Type} {s : Slot σ} {run : σ → Step σ Outcome}
    {o : Outcome} (hrun : ∀ o, (run s.memory).answer = .ok o → o.finishes = false)
    (h : (s.offer run).answer = .ok o) : o.finishes = false := by
  unfold Slot.offer at h
  split at h
  · cases h
    rfl
  · obtain ⟨a, ha, hk⟩ := Step.answer_of_next h
    cases hk
    exact hrun o ha

namespace Trigger

theorem Endless.onElement {t : Trigger} (ht : t.Endless) {e : ElementEvent} {node : Nat}
    {m : t.Memory} {o : Outcome} (h : (onElement e t node m).answer = .ok o) :
    o.finishes = false := by
  rcases ht with rfl | ⟨child, rfl⟩
  · cases h
    rfl
  · obtain ⟨a, -, hk⟩ := Step.answer_of_next h
    split at hk
    · cases hk
      rfl
    · cases hk
      split <;> rfl

theorem Endless.onTimer {t : Trigger} (ht : t.Endless) {e : TimerEvent} {node : Nat}
    {m : t.Memory} {o : Outcome} (h : (onTimer e t node m).answer = .ok o) :
    o.finishes = false := by
  rcases ht with rfl | ⟨child, rfl⟩
  · cases h
    rfl
  · unfold Trigger.onTimer at h
    split at h
    · cases h
    · obtain ⟨a, -, hk⟩ := Step.answer_of_next h
      split at hk
      · cases hk
        rfl
      · cases hk
        split <;> rfl

end Trigger

end EventTime
