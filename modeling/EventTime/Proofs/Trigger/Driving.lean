import EventTime.Trigger.Tester
import EventTime.Proofs.Attempt
import EventTime.Proofs.Trigger.Timers

/-!
# Driving a built-in tree

What is done with a tester is a list of moves. A tester of a built-in tree answers every element,
every merge and every timer it holds, so a move fails only where the window function does.
-/

namespace EventTime

theorem Slot.merge_answers {σ : Type} {s : Slot σ} {olds : List (Slot σ)}
    {run : List σ → σ → Step σ MergeOutcome}
    (h : ∃ o, (run (olds.map (·.memory)) s.memory).answer = .ok o) :
    ∃ o, (s.merge olds run).answer = .ok o := by
  unfold Slot.merge
  split
  · exact ⟨.alreadyFinished, rfl⟩
  · exact Step.next_answers h fun o => ⟨o, rfl⟩

namespace Trigger

mutual

theorem onMerge_answers (e : Merge) : (t : Trigger) → (node : Nat) → (olds : List t.Memory) →
    (m : t.Memory) → t.isBuiltIn = true → ∃ o, (onMerge e t node olds m).answer = .ok o
  | .leaf l, node, olds, m, h => by
    cases l with
    | custom p => cases h
    | _ => exact ⟨_, rfl⟩
  | .afterFirst ts, node, olds, m, h => by
    simp only [isBuiltIn, Bool.and_eq_true] at h
    exact onMergeAmong_answers e ts (node + 1) olds false m h.2
  | .repeatedly t, node, olds, m, h => by
    have hc := onMerge_answers e t (node + 1) (olds.map Slot.memory) m.memory h
    refine Step.next_answers (Slot.merge_answers hc) fun o => ?_
    split <;> exact ⟨_, rfl⟩
  | .orFinally a b, node, olds, m, h => by
    simp only [isBuiltIn, Bool.and_eq_true] at h
    have ha := onMerge_answers e a (node + 1) ((olds.map (·.1)).map Slot.memory) m.1.memory h.1
    have hb := onMerge_answers e b (node + 1 + a.size) ((olds.map (·.2)).map Slot.memory)
      m.2.memory h.2
    exact Step.next_answers (Slot.merge_answers ha) fun _ =>
      Step.next_answers (Slot.merge_answers hb) fun _ => ⟨_, rfl⟩

theorem onMergeAmong_answers (e : Merge) : (ts : List Trigger) → (node : Nat) →
    (olds : List (Memories ts)) → (fired : Bool) → (m : Memories ts) → isBuiltInAll ts = true →
      ∃ o, (onMergeAmong e ts node olds fired m).answer = .ok o
  | [], _, _, _, _, _ => ⟨_, rfl⟩
  | t :: ts, node, olds, fired, m, h => by
    simp only [isBuiltInAll, Bool.and_eq_true] at h
    have ht := onMerge_answers e t node ((olds.map (·.1)).map Slot.memory) m.1.memory h.1
    refine Step.next_answers (Slot.merge_answers ht) fun o => ?_
    split
    · exact ⟨_, rfl⟩
    · exact Step.next_answers (onMergeAmong_answers e ts (node + t.size) (olds.map (·.2)) _ m.2 h.2)
        fun _ => ⟨_, rfl⟩

end

end Trigger

theorem TriggerState.merge_answers {t : Trigger} (s : TriggerState t) (m : Merge)
    (ht : t.isBuiltIn = true) : ∃ o s', s.merge m = (.ok o, s') := by
  obtain ⟨o, ho⟩ : ∃ o, ((stateOf (m.olds.foldl take (.empty, s)).2 m.into).merge
      ((m.olds.foldl take (.empty, s)).1.entries.map (·.2)) (t.onMerge m 0)).answer = .ok o :=
    Slot.merge_answers (t.onMerge_answers m 0 _ _ ht)
  have hanswer : (s.merge m).1 = .ok o := by simp only [merge, commit, ho]
  exact ⟨o, _, Prod.ext hanswer rfl⟩

namespace Tester

variable {t : Trigger} {c : Tester t}

/-- One thing to do with a tester. -/
inductive Move
  | inject (timestamp : Int)
  | element (w : Window) (timestamp : Int)
  | merge (m : Merge)
  | advance (target : Int)
  | clear (w : Window)
  deriving DecidableEq, Repr

/-- Make a move, and report what the tree answered to elements and timers. -/
def perform : Move → Attempt (Tester t) (List (Window × Outcome))
  | .inject timestamp => inject timestamp
  | .element w timestamp => do return [(w, ← element w timestamp)]
  | .merge m => do
    let _ ← merge m
    return []
  | .advance target => advance target
  | .clear w => do
    modify fun c => c.clear w
    return []

def report (c : Tester t) (move : Move) : Except Fault (List (Window × Outcome)) :=
  ((perform move).begin c).1

/-- The tester after a move; what a move did before it failed stays done. -/
def step (c : Tester t) (move : Move) : Tester t := ((perform move).begin c).2

def after (t : Trigger) (fn : WindowFn) (moves : List Move) : Tester t :=
  moves.foldl step { windowFn := fn }

theorem state_step_element (c : Tester t) (w : Window) (timestamp : Int) :
    (c.step (.element w timestamp)).state = (c.state.element ⟨w, timestamp⟩).2 := by
  rw [step, perform, Attempt.begin_return]
  rfl

theorem state_step_merge (c : Tester t) (m : Merge) :
    (c.step (.merge m)).state = (c.state.merge m).2 := by
  rw [step, perform, Attempt.begin_return]
  rfl

/-- The action answers, and leaves the window function as it is. -/
abbrev Answers {ρ : Type} (a : Attempt (Tester t) ρ) (c : Tester t) : Prop :=
  a.Succeeds c fun _ c' => c'.windowFn = c.windowFn

theorem answers_element (ht : t.isBuiltIn = true) (c : Tester t) (w : Window) (timestamp : Int) :
    Answers (element w timestamp) c := by
  obtain ⟨o, s', h⟩ := c.state.element_answers ⟨w, timestamp⟩ ht
  refine ⟨o, { c with state := s', active := c.active.add w }, ?_, rfl⟩
  simp only [Attempt.begin, element, Attempt.of, h]

theorem answers_merge (ht : t.isBuiltIn = true) (c : Tester t) (m : Merge) :
    Answers (merge m) c := by
  obtain ⟨o, s', h⟩ := c.state.merge_answers m ht
  refine ⟨o, { c with
    state := s', active := WindowSet.add (m.olds.foldl WindowMap.erase c.active) m.into }, ?_, rfl⟩
  simp only [Attempt.begin, merge, Attempt.of, h]

theorem answers_mergeEach (ht : t.isBuiltIn = true) (ms : List Merge) (c : Tester t) (w : Window) :
    Answers (mergeEach ms w) c := by
  induction ms generalizing c w with
  | nil => exact ⟨w, c, rfl, rfl⟩
  | cons m rest ih =>
    refine (answers_merge ht c m).bind fun _ c' hc => ?_
    obtain ⟨v, c'', h, hfn⟩ := ih c' (if w ∈ m.olds then m.into else w)
    exact ⟨v, c'', h, hfn.trans hc⟩

/-- Making windows live and merging answers as long as the window function names the merges. -/
theorem answers_injectEach (ht : t.isBuiltIn = true) (timestamp : Int) (ws : List Window)
    (c : Tester t) (hfn : ∀ active, ∃ ms, c.windowFn.merge active = .ok ms) :
    Answers (injectEach timestamp ws) c := by
  induction ws generalizing c with
  | nil => exact ⟨[], c, rfl, rfl⟩
  | cons assigned rest ih =>
    obtain ⟨ms, hms⟩ := hfn (c.active.add assigned).keys
    have hrest : Answers (do
        let w ← mergeEach ms assigned
        let outcome ← element w timestamp
        return (w, outcome) :: (← injectEach timestamp rest))
          { c with active := c.active.add assigned } := by
      refine (answers_mergeEach ht ms _ assigned).bind fun w c₁ h₁ => ?_
      refine (answers_element ht c₁ w timestamp).bind fun o c₂ h₂ => ?_
      obtain ⟨reports, c₃, h₃, hfn₃⟩ := ih c₂ (by rwa [h₂, h₁])
      refine ⟨(w, o) :: reports, c₃, ?_, hfn₃.trans (h₂.trans h₁)⟩
      rw [Attempt.begin_return, h₃]
      rfl
    simp only [Answers, injectEach, Attempt.Succeeds]
    rw [Attempt.begin_modify_bind, Attempt.begin_get_bind]
    simp only [hms]
    rw [Attempt.begin_lift_bind]
    exact hrest

theorem answers_inject (ht : t.isBuiltIn = true) (c : Tester t) {timestamp : Int}
    {ws : List Window} (hws : c.windowFn.assign timestamp = .ok ws)
    (hfn : ∀ active, ∃ ms, c.windowFn.merge active = .ok ms) :
    Answers (inject timestamp) c := by
  simp only [Answers, inject, Attempt.Succeeds]
  rw [Attempt.begin_get_bind, hws, Attempt.begin_lift_bind]
  exact answers_injectEach ht timestamp ws c hfn

theorem drain_none {fuel : Nat} (h : c.state.popDue c.watermark = none) :
    Attempt.begin (drain (fuel + 1)) c = (.ok [], c) := by
  rw [drain, Attempt.begin_get_bind, h]
  rfl

theorem drain_some {fuel : Nat} {a : Timer} {s s' : TriggerState t} {o : Outcome}
    (h : c.state.popDue c.watermark = some (a, s)) (ho : s.timer a.event = (.ok o, s')) :
    Attempt.begin (drain (fuel + 1)) c =
      ((Attempt.begin (drain fuel) { c with state := s' }).1.map ((a.window, o) :: ·),
        (Attempt.begin (drain fuel) { c with state := s' }).2) := by
  have hdeliver : Attempt.begin (.of fun c : Tester t =>
      ((s.timer a.event).1, { c with state := (s.timer a.event).2 })) c =
        (.ok o, { c with state := s' }) := by
    simp only [Attempt.begin, Attempt.of, ho]
  rw [drain, Attempt.begin_get_bind, h]
  exact (Attempt.begin_bind hdeliver _).trans (Attempt.begin_return _ _ _)

theorem answers_drain (ht : t.isBuiltIn = true) (fuel : Nat) (c : Tester t) :
    Answers (drain fuel) c := by
  induction fuel generalizing c with
  | zero => exact ⟨[], c, rfl, rfl⟩
  | succ fuel ih =>
    cases h : c.state.popDue c.watermark with
    | none => exact ⟨[], c, drain_none h, rfl⟩
    | some p =>
      obtain ⟨hmem, -, -, hs⟩ := TriggerState.popDue_some h
      obtain ⟨o, s', ho, -⟩ := TriggerState.timer_answers hmem ht
      obtain ⟨reports, c', hc', hfn⟩ := ih { c with state := s' }
      refine ⟨(p.1.window, o) :: reports, c', ?_, hfn⟩
      rw [drain_some h (hs ▸ ho), hc']
      rfl

/-- A move answers unless it injects and that fails. -/
theorem answers_perform (ht : t.isBuiltIn = true) (c : Tester t) (move : Move)
    (hinject : ∀ timestamp, move = .inject timestamp → Answers (inject timestamp) c) :
    Answers (perform move) c := by
  cases move with
  | inject timestamp => exact hinject timestamp rfl
  | element w timestamp =>
    obtain ⟨o, c', h, hfn⟩ := answers_element ht c w timestamp
    refine ⟨[(w, o)], c', ?_, hfn⟩
    rw [perform, Attempt.begin_return, h]
    rfl
  | merge m => exact (answers_merge ht c m).bind fun _ c' h => ⟨[], c', rfl, h⟩
  | advance target => exact answers_drain ht _ { c with watermark := max c.watermark target }
  | clear w => exact ⟨[], c.clear w, rfl, rfl⟩

theorem after_concat (t : Trigger) (fn : WindowFn) (moves : List Move) (move : Move) :
    after t fn (moves ++ [move]) = (after t fn moves).step move := by
  simp only [after, List.foldl_append, List.foldl_cons, List.foldl_nil]

end Tester

end EventTime
