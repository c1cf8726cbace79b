import Mathlib.Data.List.Induction
import EventTime.Proofs.Pane.Reaching
import EventTime.Proofs.Trigger.Ownership

/-!
# Runs of built-in trees

No run of a built-in tree fails, neither one that groups elements nor one that is driven by hand,
over the whole time line, over tumbling windows or over sessions; only the computation of a tumbling
window may break off. Every timer that comes due on the way belongs to a leaf, and goes to that leaf.
-/

namespace EventTime

/-- The whole time line, tumbling windows, or sessions. -/
inductive WindowFn.Common : WindowFn → Prop
  | global : Common .global
  | fixed (size offset : Int) : Common (.fixed size offset)
  | sessions (gap : Int) : Common (.sessions gap)

/-- The computation of the tumbling window of a timestamp breaks off: it divides by zero, or comes
to a number that does not fit a word. -/
inductive WindowFn.BreaksOff (timestamp : Int) : WindowFn → Fault → Prop
  | zero (offset : Int) : BreaksOff timestamp (.fixed 0 offset) .divisionByZero
  | overflow {size offset : Int} (hsize : size ≠ 0)
      (hnone : Window.tumble? timestamp size offset = none) :
      BreaksOff timestamp (.fixed size offset) .overflow

theorem WindowFn.BreaksOff.nonMerging {fn : WindowFn} {timestamp : Int} {fault : Fault}
    (h : fn.BreaksOff timestamp fault) : fn.nonMerging = true := by
  cases h <;> rfl

namespace WindowFn.Common

variable {fn : WindowFn}

theorem merge_answers (h : fn.Common) (active : List Window) : ∃ ms, fn.merge active = .ok ms := by
  cases h with
  | global => exact ⟨[], rfl⟩
  | fixed size offset => exact ⟨[], rfl⟩
  | sessions gap => exact ⟨overlapping active, rfl⟩

theorem assign_cases (h : fn.Common) (timestamp : Int) :
    (∃ ws, fn.assign timestamp = .ok ws) ∨
      ∃ fault, fn.BreaksOff timestamp fault ∧ fn.assign timestamp = .error fault := by
  cases h with
  | global => exact .inl ⟨[.global], rfl⟩
  | sessions gap => exact .inl ⟨[.interval timestamp (later timestamp gap)], rfl⟩
  | fixed size offset =>
    by_cases hsize : size = 0
    · subst hsize
      exact .inr ⟨_, .zero offset, rfl⟩
    · cases htumble : Window.tumble? timestamp size offset with
      | some w => exact .inl ⟨[w], assign_fixed_of_some hsize htumble⟩
      | none => exact .inr ⟨_, .overflow hsize htumble, assign_fixed_of_none hsize htumble⟩

end WindowFn.Common

/-- Windows never merge, or the window function answers whatever windows are active. -/
def WindowFn.MergesAny (fn : WindowFn) : Prop :=
  fn.nonMerging = true ∨ ∀ active, ∃ ms, fn.merge active = .ok ms

namespace Tester

variable {t : Trigger} {fn : WindowFn}

theorem perform_cases (ht : t.isBuiltIn = true) {c : Tester t} (hc : c.windowFn.Common)
    (move : Move) :
    Answers (perform move) c ∨ ∃ timestamp fault, move = .inject timestamp ∧
      c.windowFn.BreaksOff timestamp fault ∧ (perform move).begin c = (.error fault, c) := by
  by_cases hmove : ∀ timestamp, move = .inject timestamp →
      ∃ ws, c.windowFn.assign timestamp = .ok ws
  · refine .inl (answers_perform ht c move fun timestamp h => ?_)
    obtain ⟨ws, hws⟩ := hmove timestamp h
    exact answers_inject ht c hws hc.merge_answers
  · obtain ⟨timestamp, hmove, hnone⟩ : ∃ timestamp, move = .inject timestamp ∧
        ¬∃ ws, c.windowFn.assign timestamp = .ok ws := by
      simpa only [not_forall, exists_prop] using hmove
    obtain ⟨fault, hbreaks, herror⟩ := (hc.assign_cases timestamp).resolve_left hnone
    refine .inr ⟨timestamp, fault, hmove, hbreaks, ?_⟩
    rw [hmove, perform, inject, Attempt.begin_get_bind, herror]
    exact Attempt.begin_lift_error _ _ _

theorem windowFn_after (ht : t.isBuiltIn = true) (hfn : fn.Common) (moves : List Move) :
    (after t fn moves).windowFn = fn := by
  induction moves using List.reverseRecOn with
  | nil => rfl
  | append_singleton front move ih =>
    rw [after_concat, step]
    rcases perform_cases ht (ih.symm ▸ hfn) move with ⟨_, c', hc', hkept⟩ | ⟨_, _, -, -, h⟩
    · rw [hc']
      exact hkept.trans ih
    · rw [h]
      exact ih

end Tester

namespace Grouper

variable {ν : Type} {s : Strategy}

theorem mergeOne_answers (ht : s.trigger.isBuiltIn = true) (g : Grouper s ν) (m : Merge) :
    ∃ g', g.mergeOne m = .ok g' := by
  obtain ⟨o, state, h⟩ := g.state.merge_answers m ht
  simp only [mergeOne, h]
  exact ⟨_, rfl⟩

theorem mergeEach_answers (ht : s.trigger.isBuiltIn = true) (ms : List Merge) (g : Grouper s ν)
    (w : Window) : ∃ p, mergeEach ms g w = .ok p := by
  induction ms generalizing g w with
  | nil => exact ⟨(g, w), rfl⟩
  | cons m rest ih =>
    obtain ⟨g', h⟩ := mergeOne_answers ht g m
    simp only [mergeEach, h]
    exact ih g' _

theorem place_answers (ht : s.trigger.isBuiltIn = true) (hfn : s.windowFn.MergesAny)
    (g : Grouper s ν) (timestamp : Int) (v : ν) (assigned : Window) :
    ∃ g', g.place timestamp v assigned = .ok g' := by
  unfold place
  split
  · exact ⟨g, rfl⟩
  · obtain ⟨⟨g', w⟩, hmerge⟩ : ∃ p, (g.opened assigned).mergeWindows assigned = .ok p := by
      unfold mergeWindows
      split
      · exact ⟨_, rfl⟩
      · rename_i hmerging
        obtain ⟨ms, hms⟩ := hfn.resolve_left hmerging (g.opened assigned).buffers.keys
        rw [hms]
        exact mergeEach_answers ht ms _ assigned
    rw [hmerge]
    show ∃ g'', g'.deliver w timestamp v = .ok g''
    obtain ⟨o, state, h⟩ := g'.state.element_answers ⟨w, timestamp⟩ ht
    by_cases hclosed : ((g'.buffers.find? w).getD {}).closed = true
    · exact ⟨g', by simp only [deliver, hclosed, if_true]⟩
    · simp only [deliver, hclosed, Bool.false_eq_true, if_false, settle, h]
      exact ⟨_, rfl⟩

theorem advance_answers (ht : s.trigger.isBuiltIn = true) (g : Grouper s ν) (target : Int) :
    ∃ g', g.advance target = .ok g' := by
  by_cases hle : target ≤ g.watermark
  · exact ⟨g, advance_of_le hle⟩
  · obtain ⟨g', h, -⟩ := advance_rule (P := fun _ : Grouper s ν => True) ht
      (fun _ _ _ _ _ _ _ _ => trivial) (by omega : g.watermark < target) trivial
    exact ⟨_, h⟩

theorem follow_answers (ht : s.trigger.isBuiltIn = true) (mode : InputWatermark)
    (g : Grouper s ν) (timestamp : Int) : ∃ g', g.follow mode timestamp = .ok g' := by
  cases mode with
  | elementTime => exact advance_answers ht g timestamp
  | heldUntilEnd => exact ⟨g, rfl⟩

theorem take_answers (ht : s.trigger.isBuiltIn = true) (hfn : s.windowFn.MergesAny)
    (mode : InputWatermark) (g : Grouper s ν) (e : Envelope ν) : ∃ g', g.take mode e = .ok g' := by
  obtain ⟨g₁, hfollow⟩ := follow_answers ht mode g e.timestamp
  obtain ⟨g', hfold, -⟩ := foldlM_rule (l := e.windows) (b := g₁)
    (fun g w => g.place e.timestamp e.value w) (fun _ _ => True)
    (fun _ w _ g _ _ => (place_answers ht hfn g e.timestamp e.value w).imp fun _ h => ⟨h, trivial⟩)
    trivial
  rw [take_eq, hfollow]
  exact ⟨g', hfold⟩

/-- Grouping never fails, whatever windows and timestamps the elements have. -/
theorem run_succeeds (ht : s.trigger.isBuiltIn = true) (hfn : s.windowFn.MergesAny)
    (mode : InputWatermark) (elements : List (Envelope ν)) :
    ∃ panes, run s mode elements = .ok panes := by
  obtain ⟨g, hfold, -⟩ := foldlM_rule (l := inTimeOrder elements) (b := ({} : Grouper s ν))
    (take mode) (fun _ _ => True)
    (fun _ e _ g _ _ => (take_answers ht hfn mode g e).imp fun _ h => ⟨h, trivial⟩) trivial
  obtain ⟨g', hadvance⟩ := advance_answers ht g maxTime
  exact ⟨g'.panes, run_of_fold hfold hadvance⟩

theorem run_answers (ht : s.trigger.isBuiltIn = true) (hfn : s.windowFn.Common)
    (mode : InputWatermark) (elements : List (Envelope ν)) :
    ∃ panes, run s mode elements = .ok panes :=
  run_succeeds ht (.inr hfn.merge_answers) mode elements

end Grouper

/-! ### Timers on the way -/

/-- A built-in tree never fails in a run over the common window functions, and its timers are never
misrouted. The states of all runs are held by sheets that events reach. On these, no event fails,
every pending timer names a leaf of the tree, and the one that is taken next, the same that is taken
from the state they hold, is delivered to exactly that leaf, unless a node on the way from the root
to it has finished; then the tree answers nothing and no leaf is asked. The same is so of the state.
What is left is the computation of a tumbling window, which may divide by zero or come to a number
that does not fit a word: a run breaks off there, without an answer of the tree. -/
theorem timers_reach_their_leaves {t : Trigger} (ht : t.isBuiltIn = true) {fn : WindowFn}
    (hfn : fn.Common) :
    (∀ moves : List Tester.Move,
      (∃ σ, t.Reached σ ∧ t.Holds σ (Tester.after t fn moves).state) ∧
      ∀ move, (∃ reports, (Tester.after t fn moves).report move = .ok reports) ∨
        ∃ timestamp fault, move = .inject timestamp ∧ fn.BreaksOff timestamp fault ∧
          (Tester.after t fn moves).report move = .error fault) ∧
    (∀ (ν : Type) (accumulation : AccumulationMode) (lateness : Int) (mode : InputWatermark)
      (elements : List (Envelope ν)),
      (∃ panes, Grouper.run ⟨fn, t, accumulation, lateness⟩ mode elements = .ok panes) ∧
      ∀ g ∈ Grouper.trail ⟨fn, t, accumulation, lateness⟩ mode elements,
        ∃ σ, t.Reached σ ∧ t.Holds σ g.state) ∧
    (∀ σ : Sheets, t.Reached σ →
      (∀ e, ∃ o, ((Behaviour.own.element t e).begin σ).1 = .ok o) ∧
      (∀ m, ∃ o, ((Behaviour.own.merge t m).begin σ).1 = .ok o) ∧
      (∀ a, σ.Pending a → a.node ∈ t.leavesFrom 0) ∧
      ∀ order : List (Window × Sheet), order.Perm σ.windows.entries → ∀ watermark,
        (∀ a, (σ.popDue order watermark).1 = some a →
          t.DeliversOn (σ.popDue order watermark).2 a) ∧
        ∀ s, t.Holds σ s →
          (σ.popDue order watermark).1 = (s.popDue watermark).map (·.1) ∧
          t.Holds (σ.popDue order watermark).2 (((s.popDue watermark).map (·.2)).getD s)) ∧
    ∀ s : TriggerState t, (∀ a ∈ s.timers, a.node ∈ t.leavesFrom 0) ∧
      ∀ watermark a s', s.popDue watermark = some (a, s') →
        (s'.tracedTimer a.event).1 = s'.timer a.event ∧
        (∃ o, (s'.timer a.event).1 = .ok o) ∧
        (s'.Barred a.window a.node →
          (s'.timer a.event).1 = .ok .idle ∧ (s'.tracedTimer a.event).2 = []) ∧
        (¬s'.Barred a.window a.node → (s'.tracedTimer a.event).2 = [a.node]) := by
  refine ⟨fun moves => ⟨Trigger.exists_reached (Tester.reaches_after t fn moves), fun move => ?_⟩,
    fun ν accumulation lateness mode elements =>
      ⟨Grouper.run_answers (s := ⟨fn, t, accumulation, lateness⟩) ht hfn mode elements,
        fun g hg => Trigger.exists_reached (Grouper.persistent_reaches.trail mode elements g hg)⟩,
    fun σ hσ => ⟨(hσ.answers ht).1, (hσ.answers ht).2, fun _ => hσ.owned.mem_leaves,
      fun order horder watermark => ⟨fun a => hσ.delivers ht horder,
        fun s hs => hs.popDue (fun _ => hσ.owned.mem_leaves) horder watermark⟩⟩,
    fun s => ⟨fun a ha => TriggerState.node_mem_leaves ha, fun watermark a s' hpop => ?_⟩⟩
  · have hkept := Tester.windowFn_after ht hfn moves
    rcases Tester.perform_cases ht (hkept.symm ▸ hfn) move with
      ⟨reports, _, h, -⟩ | ⟨timestamp, fault, hmove, hbreaks, h⟩
    · exact .inl ⟨reports, congrArg Prod.fst h⟩
    · exact .inr ⟨timestamp, fault, hmove, hkept ▸ hbreaks, congrArg Prod.fst h⟩
  · obtain ⟨ha, -, -, rfl⟩ := TriggerState.popDue_some hpop
    have hreaches := TriggerState.tracedTimer_reaches ht ha
    rw [TriggerState.tracedTimer_fst] at hreaches
    exact ⟨TriggerState.tracedTimer_fst .., hreaches⟩

open TriggerState in
/-- In one window the second element has finished the tree, and its timer asks nobody; in the other
the timer is delivered to the leaf that waits for the watermark. -/
theorem timers_reach_their_leaves_of_until_second :
    untilSecond.isBuiltIn = true ∧ (WindowFn.sessions 10).Common ∧
      (∃ reports, (Tester.after untilSecond (.sessions 10) [.inject 3, .inject 8]).report
        (.advance 20) = .ok reports) ∧
      (∃ σ, untilSecond.Reached σ ∧ untilSecond.Holds σ
        (Tester.after untilSecond (.sessions 10) [.inject 3, .inject 8]).state) ∧
      ∃ s s', untilSecondState.popDue 20 = some (⟨9, .interval 0 10, 4⟩, s) ∧
        s.Barred (.interval 0 10) 4 ∧ (s.timer ⟨.interval 0 10, 4, 9⟩).1 = .ok .idle ∧
        (s.tracedTimer ⟨.interval 0 10, 4, 9⟩).2 = [] ∧
        s.popDue 20 = some (⟨14, .interval 5 15, 4⟩, s') ∧ ¬s'.Barred (.interval 5 15) 4 ∧
        (s'.tracedTimer ⟨.interval 5 15, 4, 14⟩).2 = [4] := by
  have h := timers_reach_their_leaves (t := untilSecond) rfl (.sessions 10)
  have hfirst : untilSecondState.popDue 20 = some (⟨9, .interval 0 10, 4⟩, _) := rfl
  have hsecond : (untilSecondState.cancel ⟨9, .interval 0 10, 4⟩).popDue 20 =
      some (⟨14, .interval 5 15, 4⟩, _) := rfl
  obtain ⟨-, -, hbarred, -⟩ := (h.2.2.2 _).2 20 _ _ hfirst
  obtain ⟨-, -, -, hfree⟩ := (h.2.2.2 _).2 20 _ _ hsecond
  have hroot : Barred (untilSecondState.cancel ⟨9, .interval 0 10, 4⟩) (.interval 0 10) 4 :=
    ⟨0, ⟨"OrFinally", [1, 5], 6⟩, rfl, by decide, by decide, rfl⟩
  have hnone : ¬Barred ((untilSecondState.cancel ⟨9, .interval 0 10, 4⟩).cancel
      ⟨14, .interval 5 15, 4⟩) (.interval 5 15) 4 :=
    fun ⟨_, _, _, _, _, hi⟩ => Bool.false_ne_true hi
  refine ⟨rfl, .sessions 10, ((h.1 _).2 _).resolve_right ?_, (h.1 _).1, _, _, hfirst, hroot,
    (hbarred hroot).1, (hbarred hroot).2, hsecond, hnone, hfree hnone⟩
  rintro ⟨_, _, -, hbreaks, -⟩
  cases hbreaks.nonMerging

end EventTime
