import EventTime.Proofs.Pane.Firing
import EventTime.Proofs.Window.Tiling

/-!
# Merging windows

A merge moves what the old windows hold into the new one and forgets the old ones. Where the old
windows can take an element, so can the new one, which holds their values in the order of the
windows.
-/

namespace EventTime

variable {ν : Type}

/-- The strategy of sessions that fire at their end. -/
abbrev Strategy.sessions (gap : Int) (mode : AccumulationMode) (lateness : Int) : Strategy :=
  .atEnd (.sessions gap) mode lateness

theorem Buffer.Untouched.absorbAll {m : WindowMap (Buffer ν)} {seen : Window → List ν}
    (olds : List Window)
    (holds : ∀ w ∈ olds, ∃ old, m.find? w = some old ∧ old.Untouched ∧ old.values = seen w)
    {b : Buffer ν} (hb : b.Untouched) :
    ((olds.filterMap m.find?).foldl Buffer.absorb b).Untouched ∧
      ((olds.filterMap m.find?).foldl Buffer.absorb b).values = b.values ++ olds.flatMap seen := by
  induction olds generalizing b with
  | nil => exact ⟨hb, (List.append_nil _).symm⟩
  | cons v rest ih =>
    obtain ⟨old, hfind, hold, hvalues⟩ := holds v (List.mem_cons_self ..)
    rw [List.filterMap_cons_some hfind, List.foldl_cons, List.flatMap_cons, ← List.append_assoc,
      ← hvalues]
    exact ih (fun w hw => holds w (List.mem_cons_of_mem _ hw)) (hb.absorb hold)

namespace Grouper

section

variable {fn : WindowFn} {mode : AccumulationMode} {lateness : Int}
  {g g' : Grouper (.atEnd fn mode lateness) ν} {seen : Window → List ν}

/-- What a merge leaves: the new window is ready with the values of the old ones, and these are
forgotten. -/
structure Joined (g g' : Grouper (.atEnd fn mode lateness) ν) (olds : List Window) (into : Window)
    (values : List ν) : Prop where
  watermark : g'.watermark = g.watermark
  panes : g'.panes = g.panes
  ready : g'.Ready into values
  buffers : ∀ w, w ≠ into → g'.buffers.find? w = if w ∈ olds then none else g.buffers.find? w
  states : ∀ w, w ≠ into → g'.state.find? w = if w ∈ olds then none else g.state.find? w

theorem Ready.unfinished {w : Window} {values : List ν} (h : g.Ready w values)
    {state : Trigger.endOfWindow.State} (hstate : g.state.find? w = some state) :
    state.finished = false := by
  obtain ⟨timers, hwaits, -⟩ := h.state
  rw [← TriggerState.stateOf_of_some hstate, hwaits]
  rfl

theorem mergeOne_joined {olds : List Window} {into : Window} (hnodup : olds.Nodup)
    (hready : ∀ w ∈ olds, g.Ready w (seen w)) (hinto : into ∉ olds → g.Unknown into) :
    ∃ g', g.mergeOne ⟨olds, into⟩ = .ok g' ∧ g.Joined g' olds into (olds.flatMap seen) := by
  obtain ⟨state, hmerge, hstate⟩ :=
    TriggerState.merge_waitingFor (s := g.state) (m := ⟨olds, into⟩) hnodup
      (fun w hw _ hfind => (hready w hw).unfinished hfind) fun hout => (hinto hout).state
  obtain ⟨buffers, hbuffers, hone⟩ := mergeOne_eq hnodup hmerge
  obtain ⟨huntouched, hvalues⟩ := Buffer.Untouched.absorbAll (m := g.buffers) olds
    (fun w hw => (hready w hw).buffer) .empty
  have hpanes : g.panesOf into = [] := by
    by_cases hmem : into ∈ olds
    · exact (hready into hmem).panes
    · exact (hinto hmem).panes
  refine ⟨_, hone, rfl, rfl, ⟨hpanes, ⟨_, find?_moved_into .., huntouched, hvalues⟩,
    [into.maxTimestamp], ?_, insertTime_self _⟩, fun w hw => ?_, fun w hw => ?_⟩
  · exact TriggerState.stateOf_of_some ((hstate into).trans (if_pos rfl))
  · exact (find?_moved_of_ne (Ne.symm hw)).trans (hbuffers w)
  · exact (hstate w).trans (if_neg (Ne.symm hw))

end

variable {gap lateness : Int} {mode : AccumulationMode}
  {g : Grouper (.sessions gap mode lateness) ν} {seen : Window → List ν}

theorem mergeWindows_joined {hits : List Window} {v : Window} {p q : Int}
    (hchain : WindowFn.Chain p q hits) (hnodup : hits.Nodup) (hv : v ∈ hits)
    (hmerges : WindowFn.overlapping g.buffers.keys = WindowFn.runMerge (.interval p q) hits)
    (hready : ∀ w ∈ hits, g.Ready w (seen w))
    (hinto : Window.interval p q ∉ hits → g.Unknown (.interval p q)) :
    ∃ g', g.mergeWindows v = .ok (g', .interval p q) ∧
      g.Joined g' hits (.interval p q) (hits.flatMap seen) := by
  have hrun : g.mergeWindows v = mergeEach (WindowFn.runMerge (.interval p q) hits) g v := by
    show mergeEach (WindowFn.overlapping g.buffers.keys) g v = _
    rw [hmerges]
  rw [hrun, WindowFn.runMerge]
  by_cases hlen : 1 < hits.length
  · obtain ⟨g', hmerge, hjoined⟩ := mergeOne_joined hnodup hready hinto
    refine ⟨g', ?_, hjoined⟩
    rw [if_pos hlen, mergeEach, hmerge, if_pos hv]
    rfl
  · -- a single hit is the new window, and nothing is to be merged
    obtain rfl : hits = [v] := by
      have hpos := List.length_pos_of_mem hv
      obtain ⟨u, rfl⟩ := List.length_eq_one_iff.mp (by omega : hits.length = 1)
      rw [List.mem_singleton.mp hv]
    obtain rfl := hchain.eq_of_singleton
    rw [if_neg hlen, List.flatMap_singleton]
    refine ⟨g, rfl, rfl, rfl, hready _ hv, fun w hw => ?_, fun w hw => ?_⟩
    · rw [if_neg (by simpa using hw)]
    · rw [if_neg (by simpa using hw)]

end Grouper

end EventTime
