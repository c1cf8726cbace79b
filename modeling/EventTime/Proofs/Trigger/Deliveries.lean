import EventTime.Proofs.Trigger.Events

/-!
# Deliveries to one window

What is delivered to a window is an element or a timer that is taken from the state. In an open
window the root answers and the state is replaced by what the root leaves; in a window whose root
has finished nothing fires any more.
-/

namespace EventTime

/-- What is delivered to a window: an element, or a timer of one of the nodes. -/
inductive Delivery
  | element (timestamp : Int)
  | timer (timestamp : Int) (node : Nat)
  deriving DecidableEq, Repr

namespace TriggerState

variable {t : Trigger} {s : TriggerState t} {w : Window}

/-- Deliver to a window; a timer is taken out of the state first. -/
def deliver (s : TriggerState t) (w : Window) : Delivery → Except Fault Outcome × TriggerState t
  | .element timestamp => s.element ⟨w, timestamp⟩
  | .timer timestamp node => (s.cancel ⟨timestamp, w, node⟩).timer ⟨w, node, timestamp⟩

/-- Whether a timer that is to be delivered is pending. -/
def Pending (s : TriggerState t) (w : Window) : Delivery → Prop
  | .element _ => True
  | .timer timestamp node => ⟨timestamp, w, node⟩ ∈ s.timers

theorem stateOf_insert (s : TriggerState t) (w : Window) (state : t.State) :
    stateOf (s.insert w state) w = state :=
  stateOf_of_some (WindowMap.find?_insert_self ..)

theorem element_of_open (ht : t.isBuiltIn = true) (h : t.Open (s.stateOf w)) (timestamp : Int) :
    ∃ o : Outcome,
      ((s.stateOf w).offer (t.onElement ⟨w, timestamp⟩ 0)).answer = .ok o ∧
      s.deliver w (.element timestamp) =
        (.ok o, s.insert w ((s.stateOf w).offer (t.onElement ⟨w, timestamp⟩ 0)).state) ∧
      (o.finishes = false →
        t.Open ((s.stateOf w).offer (t.onElement ⟨w, timestamp⟩ 0)).state) := by
  obtain ⟨o, ho⟩ := t.onElement_leaves ⟨w, timestamp⟩ 0 _ ht h.running
  have hleaves := Slot.offer_leaves h.unfinished ho
  have hwrote := Slot.wrote_offer h.unfinished
    (t.onElement_wrote ⟨w, timestamp⟩ 0 _ ht h.running)
  refine ⟨o, hleaves.answer, (element_eq hleaves.answer).trans ?_, fun hf => ?_⟩
  · simp only [keep, hwrote, Bool.true_or, if_true]
  · exact ⟨(hleaves.running hf).1, (hleaves.running hf).2⟩

theorem stateOf_cancel {state : t.State} (hs : s.find? w = some state) (timestamp : Int)
    (node : Nat) : (s.cancel ⟨timestamp, w, node⟩).find? w =
      some { state with memory := t.cancelFrom timestamp node 0 state.memory } := by
  rw [find?_cancel, if_pos rfl, hs, Option.map_some]

theorem timer_of_open {timestamp : Int} {node : Nat} (ht : t.isBuiltIn = true)
    {state : t.State} (hs : s.find? w = some state) (h : t.Open state)
    (hmem : (timestamp, node) ∈ t.timersFrom 0 state.memory) :
    ∃ o : Outcome, o.fires = true ∧
      (Slot.offer { state with memory := t.cancelFrom timestamp node 0 state.memory }
        (t.onTimer ⟨w, node, timestamp⟩ 0)).answer = .ok o ∧
      s.deliver w (.timer timestamp node) = (.ok o, (s.cancel ⟨timestamp, w, node⟩).insert w
        (Slot.offer { state with memory := t.cancelFrom timestamp node 0 state.memory }
          (t.onTimer ⟨w, node, timestamp⟩ 0)).state) ∧
      (o.finishes = false →
        t.Open (Slot.offer { state with memory := t.cancelFrom timestamp node 0 state.memory }
          (t.onTimer ⟨w, node, timestamp⟩ 0)).state) := by
  have hopen := open_cancel h timestamp node
  obtain ⟨o, ho, hleaves⟩ := t.onTimer_fires ⟨w, node, timestamp⟩ 0 _ _ ht hmem h.running
    hopen.running
  have hoffer := Slot.offer_leaves hopen.unfinished hleaves
  refine ⟨o, ho, hoffer.answer, timer_eq (stateOf_cancel hs timestamp node) hoffer.answer,
    fun hf => ?_⟩
  exact ⟨(hoffer.running hf).1, (hoffer.running hf).2⟩

/-- The root has finished in a window. -/
def Closed (s : TriggerState t) (w : Window) : Prop :=
  ∃ state, s.find? w = some state ∧ state.finished = true

theorem offer_of_finished {σ : Type} {u : Slot σ} (run : σ → Step σ Outcome)
    (h : u.finished = true) : u.offer run = .quiet u (.ok .idle) :=
  if_pos h

theorem Closed.deliver (h : s.Closed w) (e : Delivery) :
    (s.deliver w e).1 = .ok .idle ∧ (s.deliver w e).2.Closed w := by
  obtain ⟨state, hs, hfinished⟩ := h
  cases e with
  | element timestamp =>
    have hoffer := offer_of_finished (t.onElement ⟨w, timestamp⟩ 0) hfinished
    have hanswer : ((s.stateOf w).offer (t.onElement ⟨w, timestamp⟩ 0)).answer = .ok .idle := by
      rw [stateOf_of_some hs, hoffer]
      rfl
    have hdeliver : s.deliver w (.element timestamp) = _ := element_eq hanswer
    rw [hdeliver, stateOf_of_some hs, hoffer]
    refine ⟨rfl, state, ?_, hfinished⟩
    simp only [keep, Step.quiet, WindowMap.contains_iff.mpr ⟨state, hs⟩, Bool.or_true, if_true,
      WindowMap.find?_insert]
  | timer timestamp node =>
    have hcancel := stateOf_cancel hs timestamp node
    have hoffer := offer_of_finished (t.onTimer ⟨w, node, timestamp⟩ 0)
      (u := { state with memory := t.cancelFrom timestamp node 0 state.memory }) hfinished
    have hdeliver : s.deliver w (.timer timestamp node) = _ :=
      timer_eq (e := ⟨w, node, timestamp⟩) hcancel (congrArg Step.answer hoffer)
    rw [hdeliver, hoffer]
    refine ⟨rfl, { state with memory := t.cancelFrom timestamp node 0 state.memory }, ?_, hfinished⟩
    simp only [Step.quiet, WindowMap.find?_insert, if_true]

end TriggerState

end EventTime
