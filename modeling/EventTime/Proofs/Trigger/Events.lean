import EventTime.Proofs.Trigger.Running

/-!
# Events of open windows

A window whose root has not finished is open as long as its tree runs. What an element, a timer or a
merge leaves in such a window is told by the outcome: the root has finished if the outcome finishes,
and the window stays open and, unless the outcome fires, armed if it does not. A merge of a window
whose root has finished leaves a finished root.
-/

namespace EventTime

/-- The root has not finished, and the tree below it runs. -/
structure Trigger.Open (t : Trigger) (state : t.State) : Prop where
  unfinished : state.finished = false
  running : t.Running state.memory

/-- The state an event leaves in a window, told by whether its outcome fires and finishes. -/
structure Trigger.Leaves (t : Trigger) (stop : Int) (state : t.State) (fires finishes : Bool) :
    Prop where
  finished : state.finished = finishes
  isOpen : finishes = false → t.Open state
  armed : fires = false → t.Armed stop state.memory

namespace TriggerState

variable {t : Trigger} {s : TriggerState t} {w : Window}

theorem open_fresh (t : Trigger) : t.Open t.fresh := ⟨rfl, t.running_blank⟩

theorem open_cancel {state : t.State} (h : t.Open state) (timestamp : Int) (target : Nat) :
    t.Open { state with memory := t.cancelFrom timestamp target 0 state.memory } :=
  ⟨h.unfinished, Trigger.Running.cancelFrom timestamp target t 0 _ h.running⟩

theorem element_open (ht : t.isBuiltIn = true) (h : t.Open (s.stateOf w)) (timestamp : Int) :
    ∃ (o : Outcome) (state : t.State), s.element ⟨w, timestamp⟩ = (.ok o, s.insert w state) ∧
      t.Leaves w.maxTimestamp state o.fires o.finishes := by
  obtain ⟨o, ho⟩ := t.onElement_leaves ⟨w, timestamp⟩ 0 _ ht h.running
  have hleaves := Slot.offer_leaves h.unfinished ho
  have hwrote := Slot.wrote_offer h.unfinished
    (t.onElement_wrote ⟨w, timestamp⟩ 0 _ ht h.running)
  refine ⟨o, _, (element_eq hleaves.answer).trans ?_, ?_, ?_, hleaves.armed⟩
  · simp only [keep, hwrote, Bool.true_or, if_true]
  · rw [Slot.offer_of_open h.unfinished ho.answer]
  · exact fun hf => ⟨(hleaves.running hf).1, (hleaves.running hf).2⟩

/-- The timer of an open window makes the root fire. -/
theorem timer_open {a : Timer} {state : t.State} (ht : t.isBuiltIn = true) (ha : a ∈ s.timers)
    (hs : s.find? a.window = some state) (h : t.Open state) :
    ∃ (o : Outcome) (state' : t.State), (s.cancel a).timer a.event =
        (.ok o, (s.cancel a).insert a.window state') ∧ o.fires = true ∧
      t.Leaves a.window.maxTimestamp state' o.fires o.finishes := by
  obtain ⟨_, hs', hmem⟩ := mem_timers.mp ha
  obtain rfl := Option.some.inj (hs.symm.trans hs')
  have hopen := open_cancel h a.timestamp a.node
  have hfind : (s.cancel a).find? a.event.window = _ := find?_cancel s a a.window
  rw [if_pos rfl, hs, Option.map_some] at hfind
  obtain ⟨o, ho, hleaves⟩ := t.onTimer_fires a.event 0 _ _ ht hmem h.running hopen.running
  have hoffer := Slot.offer_leaves hopen.unfinished hleaves
  refine ⟨o, _, timer_eq hfind hoffer.answer, ho, ?_, ?_, fun hf => ?_⟩
  · rw [Slot.offer_of_open hopen.unfinished hleaves.answer]
  · exact fun hf => ⟨(hoffer.running hf).1, (hoffer.running hf).2⟩
  · rw [ho] at hf
    cases hf

/-- The states after a merge that leaves `state` in the new window. -/
def afterMerge (s : TriggerState t) (m : Merge) (state : t.State) (w : Window) : Option t.State :=
  if m.into = w then some state else if w ∈ m.olds then none else s.find? w

theorem merge_eq {m : Merge} {o : MergeOutcome} {state : t.State}
    (hstep : Slot.merge (stateOf (m.olds.foldl take (.empty, s)).2 m.into)
      ((m.olds.foldl take (.empty, s)).1.entries.map (·.2)) (t.onMerge m 0) =
        ⟨state, true, .ok o⟩) :
    ∃ s', s.merge m = (.ok o, s') ∧ ∀ w, s'.find? w = s.afterMerge m state w := by
  refine ⟨(m.olds.foldl take (.empty, s)).2.insert m.into state, ?_, fun w => ?_⟩
  · simp only [merge, hstep, keep, commit, Bool.true_or, if_true]
  · rw [WindowMap.find?_insert, find?_left]
    rfl

theorem merge_finished {m : Merge} (hnodup : m.olds.Nodup)
    (h : ∃ w ∈ m.olds, (s.stateOf w).finished = true) :
    ∃ (state : t.State) (s' : TriggerState t), s.merge m = (.ok .alreadyFinished, s') ∧
      state.finished = true ∧ ∀ w, s'.find? w = s.afterMerge m state w := by
  have hany : ((m.olds.foldl take (.empty, s)).1.entries.map (·.2)).any (·.finished) = true := by
    obtain ⟨w, hw, hfinished⟩ := h
    exact List.any_eq_true.mpr ⟨_, (mem_taken hnodup).mpr ⟨w, hw, rfl⟩, hfinished⟩
  obtain ⟨s', hmerge, hs'⟩ := merge_eq (s := s) (m := m) (by
    rw [Slot.merge, if_pos hany])
  exact ⟨_, s', hmerge, rfl, hs'⟩

/-- A merge of windows whose roots have not finished runs the tree on what they remember, in a
window where nothing has been seen. -/
theorem merge_of_open {m : Merge} (ht : t.isBuiltIn = true)
    (holds : ∀ u ∈ (m.olds.foldl take (.empty, s)).1.entries.map (·.2), u.finished = false)
    (hinto : m.into ∉ m.olds → s.find? m.into = none) {o : MergeOutcome}
    (ho : (t.onMerge m 0 (((m.olds.foldl take (.empty, s)).1.entries.map (·.2)).map Slot.memory)
      t.blank).answer = .ok o) :
    ∃ s', s.merge m = (.ok o, s') ∧ ∀ w, s'.find? w = s.afterMerge m ⟨o.finishes,
      (t.onMerge m 0 (((m.olds.foldl take (.empty, s)).1.entries.map (·.2)).map Slot.memory)
        t.blank).state⟩ w := by
  have hstate : stateOf (m.olds.foldl take (.empty, s)).2 m.into = t.fresh := by
    refine stateOf_of_none ?_
    rw [find?_left]
    split
    · rfl
    · rename_i hmem
      exact hinto hmem
  have hwrote := t.onMerge_wrote m 0
    (((m.olds.foldl take (.empty, s)).1.entries.map (·.2)).map Slot.memory) t.blank ht
  have hstep := Slot.merge_of_open (s := t.fresh) rfl holds ho
  rw [show t.fresh.memory = t.blank from rfl, hwrote, Bool.true_or] at hstep
  exact merge_eq (hstate ▸ hstep)

theorem merge_open {m : Merge} (ht : t.isBuiltIn = true) (hnodup : m.olds.Nodup)
    (holds : ∀ w ∈ m.olds, t.Open (s.stateOf w))
    (hinto : m.into ∉ m.olds → s.find? m.into = none) :
    ∃ (o : MergeOutcome) (state : t.State) (s' : TriggerState t), s.merge m = (.ok o, s') ∧
      o ≠ .alreadyFinished ∧ (t.Endless → o.finishes = false) ∧
      t.Leaves m.into.maxTimestamp state o.fires o.finishes ∧
      ∀ w, s'.find? w = s.afterMerge m state w := by
  have htaken : ∀ u ∈ (m.olds.foldl take (.empty, s)).1.entries.map (·.2), t.Open u := by
    intro u hu
    obtain ⟨w, hw, rfl⟩ := (mem_taken hnodup).mp hu
    exact holds w hw
  obtain ⟨o, hne, ho⟩ := t.onMerge_leaves m 0 _ t.blank ht t.running_blank
    (List.forall_mem_map.mpr fun u hu => (htaken u hu).running)
  have hmerged := Slot.merge_leaves (s := t.fresh) rfl (fun u hu => (htaken u hu).unfinished) ho
  rw [Slot.merge_of_open (s := t.fresh) rfl (fun u hu => (htaken u hu).unfinished) ho.answer]
    at hmerged
  obtain ⟨s', hmerge, hs'⟩ :=
    merge_of_open ht (fun u hu => (htaken u hu).unfinished) hinto ho.answer
  refine ⟨o, _, s', hmerge, hne, fun hend => hend.onMerge ho.answer, ⟨rfl, fun hf => ?_, ?_⟩, hs'⟩
  · exact ⟨(hmerged.running hf).1, (hmerged.running hf).2⟩
  · exact hmerged.armed

end TriggerState

end EventTime
