import EventTime.Proofs.Pane.Sessions
import EventTime.Proofs.Window.Runs

/-!
# The panes of session windows

Grouping the elements of one key into session windows that fire at their end gives one pane for each
maximal run of timestamps, in the order of the runs.
-/

namespace EventTime

variable {ν : Type}

/-- The pane of a run. -/
def sessionPane (gap : Int) (run : List (Envelope ν)) : Pane ν :=
  ⟨sessionWindow gap run, .onTimeFirst, run.map (·.value)⟩

section

variable {gap : Int} {input : InputWatermark} {e : Envelope ν}

theorem opens_of_assign (hgap : 0 < gap)
    (hwindows : (WindowFn.sessions gap).assign e.timestamp = .ok e.windows)
    (hfrom : InRange e.timestamp) (hto : InRange (e.timestamp + gap)) : Opens gap e := by
  have heq : [.interval e.timestamp (later e.timestamp gap)] = e.windows := Except.ok.inj hwindows
  rw [later_of_inRange hto] at heq
  refine ⟨heq.symm, ?_⟩
  simp only [InRange] at hfrom hto
  simp only [Window.Proper]
  omega

theorem Opens.fits (h : Opens gap e) : Grouper.Fits input e :=
  ⟨_, _, h.1, h.2, fun _ => rfl⟩

end

namespace Grouper

variable {gap lateness : Int} {mode : AccumulationMode}
  {g : Grouper (.sessions gap mode lateness) ν} {elements : List (Envelope ν)}
  {seen : Window → List ν}

/-- A grouping in which every session has fired shows the runs. -/
theorem Grouped.panes_eq (h : g.Grouped elements seen)
    (hfired : ∀ w, seen w ≠ [] → g.HasFired w (seen w)) (hgap : 0 < gap)
    (hopens : ∀ e ∈ elements, Opens gap e)
    (hsorted : elements.Pairwise fun c d => c.timestamp ≤ d.timestamp) :
    g.panes = (sessionRuns gap elements).map (sessionPane gap) := by
  obtain ⟨hnodup, hpanes⟩ := h.staged.panes_of_fired hfired
  have hcell : ∀ {w}, seen w ≠ [] ↔ ∃ run ∈ sessionRuns gap elements, sessionWindow gap run = w :=
    fun {w} => h.tiling.cell_iff (sessionRuns_tiling hopens hsorted) fun z => h.proper_of_mem
  have hseen : ∀ run ∈ sessionRuns gap elements,
      seen (sessionWindow gap run) = run.map (·.value) := by
    intro run hrun
    rw [h.ordered (fun e he => ⟨_, (hopens e he).1⟩) _ (hcell.mpr ⟨run, hrun, rfl⟩),
      inside_sessionWindow hopens hsorted hgap hrun]
  have hmem : ∀ pane, pane ∈ g.panes ↔
      pane ∈ (sessionRuns gap elements).map (sessionPane gap) := by
    intro pane
    rw [hpanes, List.mem_map]
    constructor
    · rintro ⟨hw, heq⟩
      obtain ⟨run, hrun, hwindow⟩ := hcell.mp hw
      refine ⟨run, hrun, ?_⟩
      rw [heq, ← hwindow, hseen run hrun]
      rfl
    · rintro ⟨run, hrun, rfl⟩
      refine ⟨hcell.mpr ⟨run, hrun, rfl⟩, ?_⟩
      rw [sessionPane, hseen run hrun]
  have hascending : ((sessionRuns gap elements).map (sessionPane gap)).Pairwise
      fun p q => p.window.maxTimestamp < q.window.maxTimestamp :=
    List.pairwise_map.mpr (sessionRuns_ascending hopens hsorted)
  have hperm : g.panes.Perm ((sessionRuns gap elements).map (sessionPane gap)) := by
    refine (List.perm_ext_iff_of_nodup hnodup.of_map ?_).mpr hmem
    refine hascending.imp fun hlt heq => ?_
    rw [heq] at hlt
    exact Int.lt_irrefl _ hlt
  -- both lists are in the order of the ends, and no two runs end together
  have hends : ((sessionRuns gap elements).map (sessionPane gap)).Pairwise
      fun p q => p.window.maxTimestamp ≠ q.window.maxTimestamp := hascending.imp Int.ne_of_lt
  have hsymm : Std.Symm fun p q : Pane ν => p.window.maxTimestamp ≠ q.window.maxTimestamp :=
    ⟨fun _ _ => Ne.symm⟩
  refine hperm.eq_of_pairwise (fun p q hp hq hpq hqp => ?_) h.order.sorted
    (hascending.imp Int.le_of_lt)
  by_contra hne
  exact hends.forall ((hmem p).mp hp) hq hne (Int.le_antisymm hpq hqp)

end Grouper

/-- Grouping elements into sessions gives one pane for each maximal run of their timestamps, in the
order of the runs. -/
theorem run_eq_sessionRuns (gap : Int) (hgap : 1 ≤ gap) (mode : AccumulationMode) (lateness : Int)
    (hlateness : 0 ≤ lateness) (input : InputWatermark) (elements : List (Envelope ν))
    (helements : ∀ e ∈ elements, (WindowFn.sessions gap).assign e.timestamp = .ok e.windows ∧
      InRange e.timestamp ∧ InRange (e.timestamp + gap)) :
    Grouper.run ⟨.sessions gap, .endOfWindow, mode, lateness⟩ input elements =
      .ok ((sessionRuns gap (Grouper.inTimeOrder elements)).map (sessionPane gap)) := by
  have hopens : ∀ e ∈ elements, Opens gap e := fun e he =>
    opens_of_assign hgap (helements e he).1 (helements e he).2.1 (helements e he).2.2
  have hfits : ∀ e ∈ elements, Grouper.Fits input e := fun e he => (hopens e he).fits
  obtain ⟨g, seen, hrun, h, hfired⟩ := Grouper.run_grouped gap mode hlateness hfits
  rw [hrun, h.panes_eq hfired hgap (fun e he => hopens e (Grouper.mem_inTimeOrder.mp he))
    (Grouper.inTimeOrder_sorted elements)]

/-- The third element comes when the session of the first two ends, and opens another one. -/
theorem run_eq_sessionRuns_at_end :
    let elements : List (Envelope Nat) := [⟨30, 5, [.interval 5 8], .noFiring⟩,
      ⟨10, 0, [.interval 0 3], .noFiring⟩, ⟨20, 2, [.interval 2 5], .noFiring⟩]
    (∀ e ∈ elements, (WindowFn.sessions 3).assign e.timestamp = .ok e.windows ∧
      InRange e.timestamp ∧ InRange (e.timestamp + 3)) ∧
    Grouper.run ⟨.sessions 3, .endOfWindow, .discarding, 0⟩ .elementTime elements =
      .ok [⟨.interval 0 5, .onTimeFirst, [10, 20]⟩, ⟨.interval 5 8, .onTimeFirst, [30]⟩] := by
  intro elements
  have hwindows : ∀ e ∈ elements, (WindowFn.sessions 3).assign e.timestamp = .ok e.windows ∧
      InRange e.timestamp ∧ InRange (e.timestamp + 3) := by
    simp [elements, WindowFn.sessions, later, clamp, InRange, minTime, maxTime]
  refine ⟨hwindows, ?_⟩
  have hsorted : Grouper.inTimeOrder elements = [⟨10, 0, [.interval 0 3], .noFiring⟩,
      ⟨20, 2, [.interval 2 5], .noFiring⟩, ⟨30, 5, [.interval 5 8], .noFiring⟩] := by
    simp [elements, Grouper.inTimeOrder, List.mergeSort, List.MergeSort.Internal.splitInTwo]
  rw [run_eq_sessionRuns 3 (by decide) .discarding 0 (by decide) .elementTime elements hwindows,
    hsorted]
  rfl

end EventTime
