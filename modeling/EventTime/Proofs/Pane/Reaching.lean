import EventTime.Proofs.Pane.Trail
import EventTime.Proofs.Trigger.Driving
import EventTime.Proofs.Trigger.Finished

/-!
# The states that runs reach

Whatever is done with a tester, and in every state that a grouping passes, the state of the tree is
one that events reach: both change it by events, by taking timers and by forgetting windows only.
-/

namespace EventTime

open Attempt (Keeps)

namespace Tester

variable {t : Trigger}

/-- The state of the tree is one that events reach. -/
abbrev Reaches (c : Tester t) : Prop := TriggerState.Reachable c.state

theorem keeps_element (w : Window) (timestamp : Int) :
    Keeps (Reaches (t := t)) (element w timestamp) :=
  fun _ hc => TriggerState.Reachable.element hc ⟨w, timestamp⟩

theorem keeps_merge (m : Merge) : Keeps (Reaches (t := t)) (merge m) :=
  fun _ hc => TriggerState.Reachable.merge hc m

theorem keeps_mergeEach (ms : List Merge) (w : Window) :
    Keeps (Reaches (t := t)) (mergeEach ms w) := by
  induction ms generalizing w with
  | nil => exact Attempt.keeps_pure w
  | cons m rest ih => exact (keeps_merge m).bind fun _ => ih _

theorem keeps_injectEach (timestamp : Int) (ws : List Window) :
    Keeps (Reaches (t := t)) (injectEach timestamp ws) := by
  induction ws with
  | nil => exact Attempt.keeps_pure []
  | cons assigned rest ih =>
    have hopened : Keeps (Reaches (t := t)) (modify fun c =>
        { c with active := c.active.add assigned }) := fun _ hc => hc
    have hget : Keeps (Reaches (t := t)) get := Attempt.keeps_quiet fun _ => rfl
    refine hopened.bind fun _ => hget.bind fun c => ?_
    refine Keeps.bind (Attempt.keeps_quiet fun _ => rfl) fun merges => ?_
    refine (keeps_mergeEach merges assigned).bind fun w => (keeps_element w timestamp).bind fun o => ?_
    exact ih.bind fun _ => Attempt.keeps_pure _

theorem keeps_drain (fuel : Nat) : Keeps (Reaches (t := t)) (drain fuel) := by
  induction fuel with
  | zero => exact Attempt.keeps_pure []
  | succ fuel ih =>
    intro c hc
    rw [drain, Attempt.begin_get_bind]
    cases hpop : c.state.popDue c.watermark with
    | none => exact hc
    | some p =>
      obtain ⟨a, state⟩ := p
      obtain ⟨-, -, -, rfl⟩ := TriggerState.popDue_some hpop
      have hdeliver : Keeps Reaches (.of fun c' : Tester t =>
          (((c.state.cancel a).timer a.event).1,
            { c' with state := ((c.state.cancel a).timer a.event).2 })) :=
        fun _ _ => (TriggerState.Reachable.cancel hc a).timer a.event
      exact (hdeliver.bind fun o => ih.bind fun _ => Attempt.keeps_pure _) c hc

theorem keeps_perform (move : Move) : Keeps (Reaches (t := t)) (perform move) := by
  cases move with
  | inject timestamp =>
    have hget : Keeps (Reaches (t := t)) get := Attempt.keeps_quiet fun _ => rfl
    refine hget.bind fun c => Keeps.bind (Attempt.keeps_quiet fun _ => rfl) fun windows => ?_
    exact keeps_injectEach timestamp windows
  | element w timestamp => exact (keeps_element w timestamp).bind fun _ => Attempt.keeps_pure _
  | merge m => exact (keeps_merge m).bind fun _ => Attempt.keeps_pure _
  | advance target =>
    have hmoved : Keeps (Reaches (t := t)) (modify fun c =>
        { c with watermark := max c.watermark target }) := fun _ hc => hc
    have hget : Keeps (Reaches (t := t)) get := Attempt.keeps_quiet fun _ => rfl
    exact hmoved.bind fun _ => hget.bind fun c => keeps_drain _
  | clear w =>
    have hclear : Keeps (Reaches (t := t)) (modify fun c => c.clear w) :=
      fun _ hc => TriggerState.Reachable.clear hc w
    exact hclear.bind fun _ => Attempt.keeps_pure _

theorem reaches_after (t : Trigger) (fn : WindowFn) (moves : List Move) :
    (after t fn moves).Reaches := by
  induction moves using List.reverseRecOn with
  | nil => exact .empty
  | append_singleton front move ih =>
    rw [after_concat]
    exact keeps_perform move _ ih

end Tester

namespace Grouper

variable {ν : Type} {s : Strategy} {g g' : Grouper s ν} {w : Window}

abbrev Reaches (g : Grouper s ν) : Prop := TriggerState.Reachable g.state

theorem actOnMerge_state (g : Grouper s ν) (w : Window) (o : MergeOutcome) :
    (g.actOnMerge w o).state = g.state := by
  cases o with
  | idle => rfl
  | fire => exact emit_state ..
  | fireAndFinish => exact emit_state g w true
  | alreadyFinished => rfl

theorem Reaches.mergeOne (h : g.Reaches) {m : Merge} (heq : g.mergeOne m = .ok g') :
    g'.Reaches := by
  obtain ⟨o, -, rfl⟩ := ok_of_map heq
  rw [Reaches, actOnMerge_state]
  exact TriggerState.Reachable.merge h m

theorem Reaches.mergeWindows (h : g.Reaches) (w : Window) :
    Along Reaches g.mergeTrail ((g.mergeWindows w).map Prod.fst) := by
  unfold mergeTrail Grouper.mergeWindows
  split
  · exact along_ok h
  · cases s.windowFn.merge g.buffers.keys with
    | error fault => exact ⟨nofun, nofun⟩
    | ok ms =>
      show Along Reaches _ ((mergeEach ms g w).map Prod.fst)
      rw [mergeEach_fst]
      refine along_series (fun _ => Reaches) (fun _ hg => hg) (fun m _ g hg => ?_) h
      have hone : ∀ g', g.mergeOne m = .ok g' → g'.Reaches := fun _ => hg.mergeOne
      exact ⟨along_step hone, hone⟩

theorem Reaches.settle {answer : Except Fault Outcome × TriggerState s.trigger}
    (h : TriggerState.Reachable answer.2) (heq : g.settle w answer = .ok g') : g'.Reaches := by
  obtain ⟨o, -, rfl⟩ := ok_of_map heq
  rw [Reaches, act_state]
  exact h

/-- Every operation between the states of a trail changes the state of the tree as events do. -/
theorem persistent_reaches : Persistent (Reaches : Grouper s ν → Prop) where
  start := .empty
  moved _ h := h
  opened w h := by
    rw [Reaches, opened_state]
    exact h
  merged w h := h.mergeWindows w
  delivered {g g' w timestamp v} h heq := by
    simp only [deliver] at heq
    split at heq
    · exact Except.ok.inj heq ▸ h
    · exact Reaches.settle (TriggerState.Reachable.element h ⟨w, timestamp⟩) heq
  timed {g g' a} h heq := by
    have hcancel := TriggerState.Reachable.cancel h a
    rcases deliverTimer_ok heq with rfl | ⟨-, heq⟩
    · exact hcancel
    · exact Reaches.settle (hcancel.timer a.event) heq
  collected w h := by
    rw [Reaches, collect_state]
    exact TriggerState.Reachable.clear h w

end Grouper

end EventTime
