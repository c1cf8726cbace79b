import EventTime.Proofs.Trigger.Rollback
import EventTime.Proofs.Trigger.Routing

/-!
# Timers for any address

A timer may be addressed to any number. In a window where nothing has finished, a leaf that is
addressed is asked and no other leaf is, and a composite that is addressed refuses. An address
outside the tree is refused by the first choice or tree with a last child on the way. Where there
is none, the tree is a leaf under repetitions, which compare the address with their own number only,
and the leaf takes the timer for its own.
-/

namespace EventTime

/-- The event is refused and no leaf is asked. -/
def Traced.Refuses {σ ρ : Type} (r : Traced σ ρ) (cause : Fault) : Prop :=
  r.step.answer = .error cause ∧ r.asked = []

namespace Traced

variable {σ τ ρ υ : Type} {cause : Fault}

theorem Refuses.next {r : Traced σ ρ} (h : r.Refuses cause) {keep : σ → τ}
    {k : σ → ρ → Step τ υ} : (r.next keep k).Refuses cause :=
  ⟨by rw [Traced.next, Step.next_error h.1], h.2⟩

theorem Refuses.offer {s : Slot σ} (hs : s.finished = false) {run : σ → Traced σ Outcome}
    (h : (run s.memory).Refuses cause) : (Traced.offer s run).Refuses cause := by
  simp only [Refuses, Traced.offer, Slot.offer, hs, Bool.false_eq_true, if_false]
  exact ⟨by rw [Step.next_error h.1], h.2⟩

theorem asked_offer {s : Slot σ} (hs : s.finished = false) (run : σ → Traced σ Outcome) :
    (Traced.offer s run).asked = (run s.memory).asked := by
  simp only [Traced.offer, hs, Bool.false_eq_true, if_false]

end Traced

namespace Trigger

/-- Nothing has finished in a slot exactly if it is open and nothing has finished below. -/
theorem finishedFrom_eq_nil {t : Trigger} {node : Nat} {s : t.State} :
    t.finishedFrom node s = [] ↔ s.finished = false ∧ t.finishedBelow node s.memory = [] := by
  rw [finishedFrom, List.append_eq_nil_iff, finishedAt]
  cases s.finished <;> simp

theorem traceTimer_self (e : TimerEvent) (t : Trigger) (m : t.Memory)
    (hleaf : e.destination ∉ t.leavesFrom e.destination) :
    (traceTimer e t e.destination m).Refuses (.timerAtComposite t.name e.destination) := by
  cases t with
  | leaf => exact absurd (List.mem_singleton_self _) hleaf
  | afterFirst => exact (congrArg (Traced.Refuses · _) (if_pos rfl)).mpr ⟨rfl, rfl⟩
  | repeatedly => exact (congrArg (Traced.Refuses · _) (if_pos rfl)).mpr ⟨rfl, rfl⟩
  | orFinally => exact (congrArg (Traced.Refuses · _) (if_pos rfl)).mpr ⟨rfl, rfl⟩

mutual

theorem traceTimer_composite (e : TimerEvent) {r : Node} : (t : Trigger) → (node i : Nat) →
    (m : t.Memory) → t.finishedBelow node m = [] → (t.arenaFrom node)[i]? = some r →
      e.destination = node + i → e.destination ∉ t.leavesFrom node →
        (traceTimer e t node m).Refuses (.timerAtComposite r.name e.destination)
  | .leaf _, node, i, _, _, hr, hd, hleaf => by
    have hi : i < 1 := (List.getElem?_eq_some_iff.mp hr).1
    exact absurd (List.mem_singleton.mpr (by omega)) hleaf
  | .afterFirst ts, node, 0, m, _, hr, hd, hleaf => by
    obtain rfl : e.destination = node := hd
    obtain rfl := Option.some.inj hr
    exact traceTimer_self e (.afterFirst ts) m hleaf
  | .afterFirst ts, node, i + 1, m, hopen, hr, hd, hleaf => by
    have hroute : traceTimer e (.afterFirst ts) node m = traceTimerAmong e node ts (node + 1) m :=
      if_neg (by omega)
    rw [hroute]
    exact traceTimerAmong_composite e node ts (node + 1) i m hopen hr (by omega) hleaf
  | .repeatedly t, node, 0, m, _, hr, hd, hleaf => by
    obtain rfl : e.destination = node := hd
    obtain rfl := Option.some.inj hr
    exact traceTimer_self e (.repeatedly t) m hleaf
  | .repeatedly t, node, i + 1, m, hopen, hr, hd, hleaf => by
    obtain ⟨hm, hbelow⟩ := finishedFrom_eq_nil.mp hopen
    have hc := traceTimer_composite e t (node + 1) i m.memory hbelow hr (by omega) hleaf
    rw [traceTimer, if_neg (by omega)]
    exact (hc.offer hm).next
  | .orFinally a b, node, 0, m, _, hr, hd, hleaf => by
    obtain rfl : e.destination = node := hd
    obtain rfl := Option.some.inj hr
    exact traceTimer_self e (.orFinally a b) m hleaf
  | .orFinally a b, node, i + 1, m, hopen, hr, hd, hleaf => by
    obtain ⟨hopena, hopenb⟩ := List.append_eq_nil_iff.mp hopen
    obtain ⟨hma, hbelowa⟩ := finishedFrom_eq_nil.mp hopena
    obtain ⟨hmb, hbelowb⟩ := finishedFrom_eq_nil.mp hopenb
    obtain ⟨hleafa, hleafb⟩ := not_or.mp (List.mem_append.not.mp hleaf)
    have hr' : (a.arenaFrom (node + 1) ++ b.arenaFrom (node + 1 + a.size))[i]? = some r := hr
    have hrange := (List.getElem?_eq_some_iff.mp hr').1
    rw [List.length_append, length_arenaFrom, length_arenaFrom] at hrange
    rw [traceTimer, if_neg (by omega)]
    by_cases hi : i < a.size
    · rw [List.getElem?_append_left (by rwa [length_arenaFrom])] at hr'
      have hc := traceTimer_composite e a (node + 1) i m.1.memory hbelowa hr' (by omega) hleafa
      rw [if_pos ⟨by omega, by omega⟩]
      exact (hc.offer hma).next
    · rw [List.getElem?_append_right (by rw [length_arenaFrom]; omega), length_arenaFrom] at hr'
      have hc := traceTimer_composite e b (node + 1 + a.size) (i - a.size) m.2.memory hbelowb hr'
        (by omega) hleafb
      have hna : ¬Leads a (node + 1) e.destination := fun h => by
        have hlt := h.2
        omega
      rw [if_neg hna, if_pos ⟨by omega, by omega⟩]
      exact (hc.offer hmb).next

theorem traceTimerAmong_composite (e : TimerEvent) {r : Node} (parent : Nat) :
    (ts : List Trigger) → (node i : Nat) → (m : Memories ts) → finishedAmong ts node m = [] →
      (arenaAmong node ts)[i]? = some r → e.destination = node + i →
        e.destination ∉ leavesAmong ts node →
          (traceTimerAmong e parent ts node m).Refuses (.timerAtComposite r.name e.destination)
  | [], _, _, _, _, hr, _, _ => by cases hr
  | t :: ts, node, i, m, hopen, hr, hd, hleaf => by
    obtain ⟨hopent, hopents⟩ := List.append_eq_nil_iff.mp hopen
    obtain ⟨hm, hbelow⟩ := finishedFrom_eq_nil.mp hopent
    obtain ⟨hleaft, hleafts⟩ := not_or.mp (List.mem_append.not.mp hleaf)
    rw [arenaAmong] at hr
    unfold traceTimerAmong
    by_cases hi : i < t.size
    · rw [List.getElem?_append_left (by rwa [length_arenaFrom])] at hr
      have hc := traceTimer_composite e t node i m.1.memory hbelow hr hd hleaft
      rw [if_pos ⟨by omega, by omega⟩]
      exact (hc.offer hm).next
    · rw [List.getElem?_append_right (by rw [length_arenaFrom]; omega), length_arenaFrom] at hr
      have hc := traceTimerAmong_composite e parent ts (node + t.size) (i - t.size) m.2 hopents hr
        (by omega) hleafts
      have hnt : ¬Leads t node e.destination := fun h => by
        have hlt := h.2
        omega
      rw [if_neg hnt]
      exact hc.next

end

/-- The first node from the root that looks for the destination of a timer among its children. A
repetition hands every timer on, and a leaf takes every timer. -/
def gate : (t : Trigger) → (node : Nat) → Option Nat
  | .leaf _, _ => none
  | .afterFirst _, node => some node
  | .repeatedly t, node => gate t (node + 1)
  | .orFinally _ _, node => some node

theorem traceTimerAmong_outside (e : TimerEvent) (parent : Nat) : (ts : List Trigger) →
    (node : Nat) → (m : Memories ts) → node + sizeAll ts ≤ e.destination →
      (traceTimerAmong e parent ts node m).Refuses (.noPathToTimer parent e.destination)
  | [], _, _, _ => ⟨rfl, rfl⟩
  | t :: ts, node, m, hd => by
    simp only [sizeAll] at hd
    have hc := traceTimerAmong_outside e parent ts (node + t.size) m.2 (by omega)
    rw [traceTimerAmong, if_neg fun h : Leads t node e.destination => by have hlt := h.2; omega]
    exact hc.next

theorem traceTimer_outside (e : TimerEvent) {k : Nat} : (t : Trigger) → (node : Nat) →
    (m : t.Memory) → t.finishedBelow node m = [] → node + t.size ≤ e.destination →
      t.gate node = some k → (traceTimer e t node m).Refuses (.noPathToTimer k e.destination)
  | .leaf _, _, _, _, _, hk => by cases hk
  | .afterFirst ts, node, m, _, hd, hk => by
    obtain rfl := Option.some.inj hk
    simp only [size] at hd
    have hroute : traceTimer e (.afterFirst ts) node m = traceTimerAmong e node ts (node + 1) m :=
      if_neg (by omega)
    rw [hroute]
    exact traceTimerAmong_outside e node ts (node + 1) m (by omega)
  | .repeatedly t, node, m, hopen, hd, hk => by
    obtain ⟨hm, hbelow⟩ := finishedFrom_eq_nil.mp hopen
    simp only [size] at hd
    have hc := traceTimer_outside e t (node + 1) m.memory hbelow (by omega) hk
    rw [traceTimer, if_neg (by omega)]
    exact (hc.offer hm).next
  | .orFinally a b, node, m, _, hd, hk => by
    obtain rfl := Option.some.inj hk
    simp only [size] at hd
    have hna : ¬Leads a (node + 1) e.destination := fun h => by
      have hlt := h.2
      omega
    have hnb : ¬Leads b (node + 1 + a.size) e.destination := fun h => by
      have hlt := h.2
      omega
    rw [traceTimer, if_neg (by omega), if_neg hna, if_neg hnb]
    exact ⟨rfl, rfl⟩

/-- Under repetitions alone the leaf is the last node, and it is asked. -/
theorem traceTimer_ungated (e : TimerEvent) : (t : Trigger) → (node : Nat) → (m : t.Memory) →
    t.isBuiltIn = true → t.finishedBelow node m = [] → node + t.size ≤ e.destination →
      t.gate node = none → (traceTimer e t node m).asked = [node + t.size - 1] ∧
        ∃ o, (traceTimer e t node m).step.answer = .ok o
  | .leaf l, node, m, ht, _, _, _ => by
    cases l with
    | custom p => cases ht
    | _ => exact ⟨rfl, _, rfl⟩
  | .afterFirst _, _, _, _, _, _, hk => by cases hk
  | .repeatedly t, node, m, ht, hopen, hd, hk => by
    obtain ⟨hm, hbelow⟩ := finishedFrom_eq_nil.mp hopen
    simp only [size] at hd
    obtain ⟨hasked, hanswer⟩ := traceTimer_ungated e t (node + 1) m.memory ht hbelow (by omega) hk
    rw [traceTimer, if_neg (by omega)]
    refine ⟨?_, Step.next_answers (Slot.offer_answers hanswer) fun o => ?_⟩
    · have hlast : node + (repeatedly t).size - 1 = node + 1 + t.size - 1 := by
        simp only [size]
        omega
      rw [hlast]
      exact (Traced.asked_offer hm _).trans hasked
    · split <;> exact ⟨_, rfl⟩
  | .orFinally _ _, _, _, _, _, _, hk => by cases hk

end Trigger

/-! ### Delivering in a state -/

namespace TriggerState

variable {t : Trigger} {s : TriggerState t} {w : Window} {state : t.State} {e : TimerEvent}

theorem finishedFrom_eq_nil_of_open (hs : s.find? w = some state)
    (hopen : ∀ node, s.isFinished w node = false) : t.finishedFrom 0 state = [] := by
  refine List.eq_nil_iff_forall_not_mem.mpr fun node hmem => ?_
  have hfinished : s.isFinished w node = true := isFinished_iff.mpr ⟨state, hs, hmem⟩
  rw [hopen node] at hfinished
  cases hfinished

theorem asked_tracedTimer (hs : s.find? e.window = some state) (hopen : state.finished = false) :
    (s.tracedTimer e).2 = (t.traceTimer e 0 state.memory).asked := by
  have hc : s.contains e.window = true := WindowMap.contains_iff.mpr ⟨state, hs⟩
  rw [tracedTimer, if_pos hc, stateOf_of_some hs]
  exact Traced.asked_offer hopen _

theorem timer_answers_of_traced (hs : s.find? e.window = some state)
    (h : ∃ o, (t.traceTimer e 0 state.memory).step.answer = .ok o) : ∃ o, (s.timer e).1 = .ok o := by
  rw [Trigger.step_traceTimer] at h
  obtain ⟨o, ho⟩ := Slot.offer_answers (s := state) h
  exact ⟨o, by rw [timer_eq hs ho]⟩

theorem timer_refused (hs : s.find? e.window = some state) (hopen : state.finished = false)
    {cause : Fault} (h : (t.traceTimer e 0 state.memory).Refuses cause) :
    s.timer e = (.error cause, s) ∧ (s.tracedTimer e).2 = [] := by
  have hc : s.contains e.window = true := WindowMap.contains_iff.mpr ⟨state, hs⟩
  have hanswer : (s.timer e).1 = .error cause := by
    rw [← tracedTimer_fst, tracedTimer, if_pos hc, stateOf_of_some hs]
    simp only [commit, (h.offer hopen).1]
  exact ⟨Prod.ext hanswer (timer_error hanswer), (asked_tracedTimer hs hopen).trans h.2⟩

/-- Where a timer goes in a window in which nothing has finished: to the leaf it is addressed to, or
it is refused and the state stays, unless the address is outside a tree that is a leaf under
repetitions alone. -/
theorem timer_addressed (ht : t.isBuiltIn = true) (hs : s.contains w = true)
    (hopen : ∀ node, s.isFinished w node = false) (d : Nat) (timestamp : Int) :
    (d ∈ t.leavesFrom 0 → (s.tracedTimer ⟨w, d, timestamp⟩).2 = [d] ∧
      ∃ o, (s.timer ⟨w, d, timestamp⟩).1 = .ok o) ∧
    (∀ r, t.arena[d]? = some r → d ∉ t.leavesFrom 0 →
      s.timer ⟨w, d, timestamp⟩ = (.error (.timerAtComposite r.name d), s) ∧
        (s.tracedTimer ⟨w, d, timestamp⟩).2 = []) ∧
    (t.arena[d]? = none → ∀ k, t.gate 0 = some k →
      s.timer ⟨w, d, timestamp⟩ = (.error (.noPathToTimer k d), s) ∧
        (s.tracedTimer ⟨w, d, timestamp⟩).2 = []) ∧
    (t.arena[d]? = none → t.gate 0 = none →
      (s.tracedTimer ⟨w, d, timestamp⟩).2 = [t.size - 1] ∧
        ∃ o, (s.timer ⟨w, d, timestamp⟩).1 = .ok o) := by
  obtain ⟨state, hfind⟩ := WindowMap.contains_iff.mp hs
  obtain ⟨hroot, hbelow⟩ :=
    Trigger.finishedFrom_eq_nil.mp (finishedFrom_eq_nil_of_open hfind hopen)
  have houtside (hd : t.arena[d]? = none) : 0 + t.size ≤ d := by
    rw [Nat.zero_add, ← t.length_arena]
    exact List.getElem?_eq_none_iff.mp hd
  have hasked := asked_tracedTimer (e := ⟨w, d, timestamp⟩) hfind hroot
  refine ⟨fun hd => ⟨hasked.trans ?_, ?_⟩, fun r hr hd => ?_, fun hd k hk => ?_, fun hd hk => ?_⟩
  · refine (t.traceTimer_reaches ⟨w, d, timestamp⟩ 0 state.memory hd).free ?_
    rintro ⟨i, r, -, hmem, -⟩
    rw [hbelow] at hmem
    cases hmem
  · obtain ⟨o, ho⟩ := Slot.offer_answers (s := state)
      (t.onTimer_answers ⟨w, d, timestamp⟩ 0 state.memory ht hd)
    exact ⟨o, by rw [timer_eq hfind ho]⟩
  · exact timer_refused hfind hroot
      (t.traceTimer_composite ⟨w, d, timestamp⟩ 0 d state.memory hbelow hr (Nat.zero_add d).symm hd)
  · exact timer_refused hfind hroot
      (t.traceTimer_outside ⟨w, d, timestamp⟩ 0 state.memory hbelow (houtside hd) hk)
  · obtain ⟨hlast, hanswer⟩ :=
      t.traceTimer_ungated ⟨w, d, timestamp⟩ 0 state.memory ht hbelow (houtside hd) hk
    rw [Nat.zero_add] at hlast
    exact ⟨hasked.trans hlast, timer_answers_of_traced hfind hanswer⟩

/-- In a repetition until the second element, with one element so far: a timer of the second leaf,
one of a composite and one of no node. -/
theorem timer_addressed_of_until :
    untilSecond.isBuiltIn = true ∧ untilSecondState.contains (.interval 5 15) = true ∧
      (∀ node, untilSecondState.isFinished (.interval 5 15) node = false) ∧
      (untilSecondState.tracedTimer ⟨.interval 5 15, 4, 14⟩).2 = [4] ∧
      untilSecondState.timer ⟨.interval 5 15, 2, 14⟩ =
        (.error (.timerAtComposite "AfterFirst" 2), untilSecondState) ∧
      untilSecondState.timer ⟨.interval 5 15, 6, 14⟩ =
        (.error (.noPathToTimer 0 6), untilSecondState) := by
  have hs : untilSecondState.contains (.interval 5 15) = true := rfl
  have hopen : ∀ node, untilSecondState.isFinished (.interval 5 15) node = false := fun _ => rfl
  have h (d : Nat) := timer_addressed (t := untilSecond) rfl hs hopen d 14
  exact ⟨rfl, hs, hopen, ((h 4).1 (by decide)).1, ((h 2).2.1 _ rfl (by decide)).1,
    ((h 6).2.2.1 rfl 0 rfl).1⟩

/-- A timer for a node that is not in the tree is taken for that of the repeated leaf: it fires and
the leaf's own timer is deleted. -/
theorem timer_outside_not_refused :
    let t : Trigger := .repeatedly .afterWatermark
    let w : Window := .interval 0 10
    let s : TriggerState t := (element .empty ⟨w, 3⟩).2
    t.isBuiltIn = true ∧ s.contains w = true ∧ (∀ node, s.isFinished w node = false) ∧
      t.arena[5]? = none ∧ (s.tracedTimer ⟨w, 5, 9⟩).2 = [1] ∧
      (s.timer ⟨w, 5, 9⟩).1 = .ok .fire ∧ (s.timer ⟨w, 5, 9⟩).2 ≠ s := by
  refine ⟨rfl, rfl, fun _ => rfl, rfl, rfl, rfl, fun h => ?_⟩
  exact absurd (congrArg timers h) (by decide)

end TriggerState

end EventTime
