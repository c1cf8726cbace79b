import EventTime.Coder.DataType
import EventTime.Proofs.Listings
import EventTime.Proofs.Pane.Firing

/-!
# Windows that fire once, on time

Where windows never merge and no element comes after the end of a window that it lists, every window
waits for all its elements and then shows them in one pane. The watermark passes the end of a window
only after the last of them, and a window whose end it has passed has fired.
-/

namespace EventTime

variable {ν : Type}

theorem Window.minTime_le_maxTimestamp (w : Window) : minTime ≤ w.maxTimestamp := by
  cases w with
  | global => decide
  | interval start stop => exact (inRange_clamp _).1

theorem Window.Storable.maxTimestamp_lt {w : Window} (h : w.Storable) :
    w.maxTimestamp < maxTime := by
  cases w with
  | global => decide
  | interval start stop =>
    have hstop := h.2
    show clamp (stop - 1) < maxTime
    simp only [InRange, clamp, minTime, maxTime] at hstop ⊢
    omega

/-- An element that comes at the end of each of its windows or before. -/
def InWindows (e : Envelope ν) : Prop :=
  ∀ w ∈ e.windows, w.Storable ∧ e.timestamp ≤ w.maxTimestamp

namespace Grouper

variable {fn : WindowFn} {mode : AccumulationMode} {lateness : Int}
  {g : Grouper (.atEnd fn mode lateness) ν} {seen : Window → List ν}

/-- Windows wait or have fired, and those whose end has passed have fired. -/
structure Settled (g : Grouper (.atEnd fn mode lateness) ν) (seen : Window → List ν) : Prop where
  staged : g.Staged seen
  ends : ∀ w, seen w ≠ [] → w.maxTimestamp < maxTime
  fired : ∀ w, seen w ≠ [] → w.maxTimestamp < g.watermark → g.HasFired w (seen w)

theorem settled_start : ({} : Grouper (.atEnd fn mode lateness) ν).Settled fun _ => [] :=
  ⟨staged_start, fun _ hne => absurd rfl hne, fun _ hne => absurd rfl hne⟩

theorem Settled.advance (h : g.Settled seen) (hlateness : 0 ≤ lateness) (target : Int) :
    ∃ g', g.advance target = .ok g' ∧ g'.Settled seen ∧ g'.watermark = max g.watermark target := by
  by_cases hlt : g.watermark < target
  · obtain ⟨g', hadvance, h', hwatermark, hfired, -⟩ := h.staged.advance hlateness h.ends hlt
    refine ⟨g', hadvance, ⟨h', h.ends, fun w hne hpassed => ?_⟩,
      hwatermark.trans (Int.max_eq_right (Int.le_of_lt hlt)).symm⟩
    exact hfired w hne (hwatermark ▸ hpassed)
  · have hle : target ≤ g.watermark := by omega
    exact ⟨g, advance_of_le hle, h, (Int.max_eq_left hle).symm⟩

theorem Settled.follow (h : g.Settled seen) (hlateness : 0 ≤ lateness) (input : InputWatermark)
    (timestamp : Int) :
    ∃ g', g.follow input timestamp = .ok g' ∧ g'.Settled seen ∧
      g'.watermark = pace input g.watermark timestamp := by
  cases input with
  | elementTime => exact h.advance hlateness timestamp
  | heldUntilEnd => exact ⟨g, rfl, h, rfl⟩

/-- A window that has not passed takes the element. -/
theorem Settled.place (h : g.Settled seen) (hfn : fn.nonMerging = true) (hlateness : 0 ≤ lateness)
    {w : Window} (hw : w.Storable) (hahead : g.watermark ≤ w.maxTimestamp) (timestamp : Int)
    (x : ν) :
    ∃ g', g.place timestamp x w = .ok g' ∧ g'.Settled (addSeen seen w x) ∧
      g'.watermark = g.watermark := by
  have hready : (g.opened w).Ready w (seen w) := by
    by_cases hnil : seen w = []
    · rw [hnil]
      exact ((h.staged w).unknown_of_nil hnil).ready
    · rcases (h.staged w).waits_or_fired hnil with hs | hs
      · exact hs.ready_opened w
      · have hpassed := hs.passed
        omega
  obtain ⟨g', hdeliver, hwatermark, -, hwaits, hothers⟩ := hready.deliver timestamp x
  rw [opened_watermark] at hwatermark
  have hagrees : ∀ u, w ≠ u → g.Agrees g' u := fun u hu => by
    have hopened : g.Agrees (g.opened w) u := agrees_opened hu
    have hsame := hothers u hu
    exact ⟨hsame.panes.trans hopened.panes, hsame.buffer.trans hopened.buffer,
      hsame.state.trans hopened.state⟩
  refine ⟨g', ?_, ⟨fun u => ?_, fun u hu => ?_, fun u hne hpassed => ?_⟩, hwatermark⟩
  · have hexpiry := maxTimestamp_le_expiry fn mode hlateness w
    rw [Grouper.place, if_neg (by omega), mergeWindows, if_pos hfn]
    exact hdeliver
  · by_cases hu : u = w
    · subst hu
      rw [addSeen_self]
      exact .waits hwaits
    · rw [addSeen_of_ne hu]
      exact (h.staged u).of_agrees (hagrees u (Ne.symm hu)) (Int.le_of_eq hwatermark.symm)
  · by_cases hu' : u = w
    · exact hu' ▸ hw.maxTimestamp_lt
    · rw [addSeen_of_ne hu'] at hu
      exact h.ends u hu
  · rw [hwatermark] at hpassed
    have hu : u ≠ w := fun e => by
      rw [e] at hpassed
      omega
    rw [addSeen_of_ne hu] at hne ⊢
    exact (h.fired u hne hpassed).of_agrees (hagrees u (Ne.symm hu)) (Int.le_of_eq hwatermark.symm)

theorem Settled.take (h : g.Settled seen) (hfn : fn.nonMerging = true) (hlateness : 0 ≤ lateness)
    {input : InputWatermark} {e : Envelope ν} (he : InWindows e)
    (hbehind : ∀ w ∈ e.windows, pace input g.watermark e.timestamp ≤ w.maxTimestamp) :
    ∃ g', g.take input e = .ok g' ∧ g'.Settled (addListings seen e.windows e.value) ∧
      g'.watermark = pace input g.watermark e.timestamp := by
  obtain ⟨g₁, hfollow, h₁, hpace⟩ := h.follow hlateness input e.timestamp
  obtain ⟨g', htake, h', hwatermark⟩ := take_rule hfollow
    (fun before g => g.Settled (addListings seen before e.value))
    (by rwa [addListings_nil]) fun before w g hmem hg h => by
      have hahead : g.watermark ≤ w.maxTimestamp := by
        rw [hg, hpace]
        exact hbehind w hmem
      obtain ⟨g', hplace, h', hkept⟩ :=
        h.place hfn hlateness (he w hmem).1 hahead e.timestamp e.value
      rw [← addListings_concat] at h'
      exact ⟨g', hplace, h', hkept⟩
  exact ⟨g', htake, h', hwatermark.trans hpace⟩

end Grouper

/-- Where windows never merge and no element comes too late, a run has one pane for each window that
is listed: the first of its window, on time, with all values of the window in event-time order. -/
theorem run_onTime {fn : WindowFn} (hfn : fn.nonMerging = true) (mode : AccumulationMode)
    {lateness : Int} (hlateness : 0 ≤ lateness) (input : InputWatermark)
    {elements : List (Envelope ν)} (helements : ∀ e ∈ elements, InWindows e) :
    ∃ panes, Grouper.run (.atEnd fn mode lateness) input elements = .ok panes ∧
      (panes.map (·.window)).Nodup ∧ ∀ pane, pane ∈ panes ↔
        listed pane.window (Grouper.inTimeOrder elements) ≠ [] ∧
        pane = ⟨pane.window, .onTimeFirst, listed pane.window (Grouper.inTimeOrder elements)⟩ := by
  obtain ⟨g, hfold, h, -⟩ := Grouper.elements_rule (List.append_nil _).symm
    (fun before (g : Grouper (.atEnd fn mode lateness) ν) =>
      g.Settled (fun w => listed w before) ∧ g.Behind input before)
    ⟨Grouper.settled_start, Grouper.behind_start input⟩ fun before e g hmem horder ⟨h, hbehind⟩ => by
      have he := helements e hmem
      have hahead : ∀ w ∈ e.windows,
          Grouper.pace input g.watermark e.timestamp ≤ w.maxTimestamp := fun w hw => by
        have hle := hbehind.pace_le horder
        have hmin := w.minTime_le_maxTimestamp
        have hmax := (he w hw).2
        omega
      obtain ⟨g', htake, h', hpace⟩ := h.take hfn hlateness he hahead
      exact ⟨g', htake, by rwa [listed_concat], hbehind.concat hpace⟩
  obtain ⟨g', hadvance, h', hwatermark⟩ := h.advance hlateness maxTime
  have hall : ∀ w, listed w (Grouper.inTimeOrder elements) ≠ [] →
      g'.HasFired w (listed w (Grouper.inTimeOrder elements)) := fun w hne => by
    have hend := h'.ends w hne
    exact h'.fired w hne (by omega)
  exact ⟨g'.panes, Grouper.run_of_fold hfold hadvance, h'.staged.panes_of_fired hall⟩

end EventTime
