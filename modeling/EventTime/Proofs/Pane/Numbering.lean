import EventTime.Proofs.Pane.Coverage
import EventTime.Proofs.Pane.EndOfInput

/-!
# The numbers of panes

Where windows never merge the panes of a window are numbered 0, 1, 2, … in the order in which they
fire. The number of the next one is kept in the buffer of the window, so it must not get lost while
the window can still fire: a window that has lost its buffer after a pane is given no new one. Under
an endless trigger, and if panes accumulate, the pane with the highest number shows everything.
-/

namespace EventTime

variable {ν : Type} {s : Strategy}

namespace Grouper

/-- The panes of a window are numbered in firing order, and its buffer has the next number. -/
structure NumberedAt (g : Grouper s ν) (w : Window) : Prop where
  indices : (g.panesOf w).map (·.info.index) = List.range (g.panesOf w).length
  next : ∀ b, g.buffers.find? w = some b → b.panesFired = (g.panesOf w).length
  gone : g.buffers.find? w = none → g.panesOf w = [] ∨ g.Due w

def Numbered (g : Grouper s ν) : Prop := ∀ w, g.NumberedAt w

variable {g g' : Grouper s ν} {w : Window}

theorem numbered_start : ({} : Grouper s ν).Numbered := fun _ => ⟨rfl, nofun, fun _ => .inl rfl⟩

theorem Numbered.withState (h : g.Numbered) (state : TriggerState s.trigger) :
    Numbered { g with state } := fun v => ⟨(h v).indices, (h v).next, (h v).gone⟩

theorem Numbered.emit (h : g.Numbered) (w : Window) (isLast : Bool) : (g.emit w isLast).Numbered := by
  intro v
  rcases emit_cases g w isLast with he | ⟨b, hb, hu⟩
  · rw [he]
    exact h v
  · by_cases hv : w = v
    · subst hv
      have hnext := (h w).next b hb
      refine ⟨?_, fun c hc => ?_, fun hnone => ?_⟩
      · rw [panesOf_emit_self hb hu, List.map_append, (h w).indices, List.length_append,
          List.length_singleton, List.range_succ, List.map_singleton, hnext]
      · rw [find?_emit_self hb hu] at hc
        rw [← Option.some.inj hc, panesOf_emit_self hb hu, List.length_append,
          List.length_singleton, ← hnext]
        rfl
      · rw [find?_emit_self hb hu] at hnone
        cases hnone
    · have hpanes : (g.emit w isLast).panesOf v = g.panesOf v := panesOf_emit_of_ne hv
      refine ⟨hpanes ▸ (h v).indices, fun c hc => ?_, fun hnone => ?_⟩
      · rw [find?_emit_of_ne hv] at hc
        exact hpanes ▸ (h v).next c hc
      · rw [find?_emit_of_ne hv] at hnone
        rw [hpanes, Due, emit_watermark]
        exact (h v).gone hnone

theorem Numbered.close (h : g.Numbered) (w : Window) : (g.close w).Numbered := by
  intro v
  refine ⟨(h v).indices, fun c hc => ?_, fun hnone => ?_⟩
  · rw [find?_close] at hc
    split at hc
    · obtain ⟨b, hb, rfl⟩ := Option.map_eq_some_iff.mp hc
      exact (h v).next b hb
    · exact (h v).next c hc
  · rw [find?_close] at hnone
    split at hnone
    · exact (h v).gone (Option.map_eq_none_iff.mp hnone)
    · exact (h v).gone hnone

theorem Numbered.act (h : g.Numbered) (w : Window) (o : Outcome) : (g.act w o).Numbered := by
  cases o with
  | idle => exact h
  | fire => exact h.emit w false
  | fireAndFinish => exact (h.emit w true).close w

theorem Numbered.settle (h : g.Numbered) {answer : Except Fault Outcome × TriggerState s.trigger}
    (heq : g.settle w answer = .ok g') : g'.Numbered := by
  obtain ⟨o, -, rfl⟩ := ok_of_map heq
  exact (h.withState answer.2).act w o

theorem Numbered.collect (h : g.Numbered) (hdue : g.Due w) : (g.collect w).Numbered := by
  have hkept : (if (g.buffers.find? w).any Buffer.pending then g.emit w true else g).Numbered := by
    split
    · exact h.emit w true
    · exact h
  have hfind : ∀ v, (g.collect w).buffers.find? v = if w = v then none else
      (if (g.buffers.find? w).any Buffer.pending then g.emit w true else g).buffers.find? v :=
    fun v => WindowMap.find?_erase ..
  intro v
  refine ⟨(hkept v).indices, fun c hc => ?_, fun hnone => ?_⟩
  · rw [hfind] at hc
    split at hc
    · cases hc
    · exact (hkept v).next c hc
  · rw [hfind] at hnone
    split at hnone
    · rename_i hv
      refine .inr ?_
      rw [← hv, Due, collect_watermark]
      exact hdue
    · exact (hkept v).gone hnone

theorem Numbered.collectAll (h : g.Numbered) (ws : List Window) (hdue : ∀ w ∈ ws, g.Due w) :
    (ws.foldl Grouper.collect g).Numbered := by
  induction ws generalizing g with
  | nil => exact h
  | cons w rest ih =>
    refine ih (h.collect (hdue w (List.mem_cons_self ..))) fun v hv => ?_
    rw [Due, collect_watermark]
    exact hdue v (List.mem_cons_of_mem _ hv)

theorem Numbered.deliverTimer (h : g.Numbered) {a : Timer} (heq : g.deliverTimer a = .ok g') :
    g'.Numbered := by
  rcases deliverTimer_ok heq with rfl | ⟨-, heq⟩
  · exact h
  · exact h.settle heq

theorem Numbered.advance (h : g.Numbered) (hne : g.watermark ≠ maxTime) {target : Int}
    (heq : g.advance target = .ok g') : g'.Numbered := by
  rcases advance_cases heq with ⟨-, rfl⟩ | ⟨hlt, g₁, hdrain, rfl⟩
  · exact h
  · have hmoved : Numbered { g with watermark := target } := fun v =>
      ⟨(h v).indices, (h v).next, fun hnone => ((h v).gone hnone).imp id fun hdue =>
        hdue.later (Int.le_of_lt hlt) hne⟩
    have hdrained : g₁.Numbered :=
      drain_preserves (fun g a _ hg hone => (hg.withState (g.state.cancel a)).deliverTimer hone)
        hdrain hmoved
    exact hdrained.collectAll _ fun v hv => (mem_expired.mp hv).2

theorem Numbered.opened (h : g.Numbered) (hdue : ¬g.Due w) : (g.opened w).Numbered := by
  intro v
  refine ⟨by rw [panesOf_opened]; exact (h v).indices, fun c hc => ?_, fun hnone => ?_⟩
  · rw [panesOf_opened]
    rw [find?_opened] at hc
    split at hc
    · rename_i hv
      subst hv
      rw [← Option.some.inj hc]
      cases hb : g.buffers.find? w with
      | none =>
        rw [((h w).gone hb).resolve_right hdue]
        rfl
      | some b => exact (h w).next b hb
    · exact (h v).next c hc
  · rw [find?_opened] at hnone
    split at hnone
    · cases hnone
    · rw [panesOf_opened, Due, opened_watermark]
      exact (h v).gone hnone

theorem Numbered.deliver (h : g.Numbered) (hw : g.Has w) {timestamp : Int} {x : ν}
    (heq : g.deliver w timestamp x = .ok g') : g'.Numbered := by
  obtain ⟨b, hb⟩ := hw
  cases hc : (g.buffers.find? w).any (·.closed) with
  | true => exact Except.ok.inj ((deliver_closed hc).symm.trans heq) ▸ h
  | false =>
    rw [deliver_open hc] at heq
    have hpushed : Numbered
        { g with buffers := g.buffers.insert w (((g.buffers.find? w).getD {}).push x) } := by
      refine fun v => ⟨(h v).indices, fun c hc => ?_, fun hnone => ?_⟩
      · rw [WindowMap.find?_insert] at hc
        split at hc
        · rename_i hv
          subst hv
          rw [← Option.some.inj hc, hb]
          exact (h w).next b hb
        · exact (h v).next c hc
      · rw [WindowMap.find?_insert] at hnone
        split at hnone
        · cases hnone
        · exact (h v).gone hnone
    exact hpushed.settle heq

theorem Numbered.place (h : g.Numbered) (hfn : s.windowFn.nonMerging = true)
    (hmax : g.watermark ≠ maxTime) {timestamp : Int} {x : ν}
    (heq : g.place timestamp x w = .ok g') :
    g'.Numbered ∧ g'.watermark = g.watermark := by
  unfold Grouper.place at heq
  split at heq
  · obtain rfl := Except.ok.inj heq
    exact ⟨h, rfl⟩
  · rename_i htaken
    simp only [mergeWindows, hfn, if_true, bind, Except.bind] at heq
    have hdue : ¬g.Due w := fun hdue => hdue.elim htaken hmax
    exact ⟨(h.opened hdue).deliver (has_opened.mpr (.inl rfl)) heq,
      (deliver_watermark heq).trans (opened_watermark ..)⟩

theorem Numbered.take (h : g.Numbered) (hfn : s.windowFn.nonMerging = true)
    (hmax : g.watermark < maxTime) {mode : InputWatermark} {e : Envelope ν}
    (he : mode = .elementTime → e.timestamp < maxTime) (heq : g.take mode e = .ok g') :
    g'.Numbered ∧ g'.watermark < maxTime := by
  rw [take_eq] at heq
  obtain ⟨g₁, hfollow, hplaces⟩ := ok_of_bind heq
  have h₁ : g₁.Numbered ∧ g₁.watermark < maxTime := by
    cases mode with
    | elementTime =>
      have hpace := advance_watermark hfollow
      have := he rfl
      exact ⟨h.advance (by omega) hfollow, by omega⟩
    | heldUntilEnd => exact Except.ok.inj hfollow ▸ ⟨h, hmax⟩
  refine foldlM_preserves (fun _ (g : Grouper s ν) => g.Numbered ∧ g.watermark < maxTime)
    (fun _ w _ b b' _ ⟨hb, hbmax⟩ hplace => ?_) h₁ hplaces
  obtain ⟨hb', hkept⟩ := hb.place hfn (by omega) hplace
  exact ⟨hb', hkept ▸ hbmax⟩

/-- The panes of every window are numbered in firing order, as long as no element moves the
watermark to the end of time before the input has ended. -/
theorem run_numbered {mode : InputWatermark} {elements : List (Envelope ν)} {panes : List (Pane ν)}
    (hfn : s.windowFn.nonMerging = true)
    (hmax : mode = .elementTime → ∀ e ∈ elements, e.timestamp < maxTime)
    (hrun : run s mode elements = .ok panes) (w : Window) :
    (panes.filter (·.window = w)).map (·.info.index) =
      List.range (panes.filter (·.window = w)).length := by
  obtain ⟨g, hfold, hrest⟩ := ok_of_bind hrun
  obtain ⟨g', hadvance, hpanes⟩ := ok_of_bind hrest
  obtain rfl := Except.ok.inj hpanes
  obtain ⟨h, hlt⟩ := foldlM_preserves
    (fun _ (g : Grouper s ν) => g.Numbered ∧ g.watermark < maxTime)
    (fun front e back b b' hsplit ⟨hb, hbmax⟩ htake => by
      have hmem : e ∈ elements := mem_inTimeOrder.mp (hsplit ▸ by simp)
      exact hb.take hfn hbmax (fun hmode => hmax hmode e hmem) htake)
    ⟨numbered_start, (by decide : minTime < maxTime)⟩ hfold
  exact (h.advance (by omega) hadvance w).indices

/-- If the watermark follows the elements, then none of them is late or at the end of time. -/
def InTime (s : Strategy) (mode : InputWatermark) (elements : List (Envelope ν)) : Prop :=
  mode = .elementTime → ∀ e ∈ elements, e.timestamp < maxTime ∧
    ∀ w ∈ e.windows, e.timestamp ≤ s.expiry w

/-- Under an endless trigger the numbered panes of every window together cover all elements that
list it. -/
theorem run_history {mode : InputWatermark} {elements : List (Envelope ν)}
    (hfn : s.windowFn.nonMerging = true) (ht : s.trigger.isBuiltIn = true)
    (hend : s.trigger.Endless) (hin : InTime s mode elements) :
    ∃ panes, run s mode elements = .ok panes ∧ ∀ w,
      PaneHistory s.mode (listed w (inTimeOrder elements))
        ((panes.filter (·.window = w)).map (·.values)) ∧
      (panes.filter (·.window = w)).map (·.info.index) =
        List.range (panes.filter (·.window = w)).length := by
  obtain ⟨g, hrun, h, hnone⟩ := run_accounts_of_mode (fun _ => True) hfn ht (fun _ _ => hend) mode
    (fun hmode e he => (hin hmode e he).1) fun hmode e he w hw _ => (hin hmode e he).2 w hw
  refine ⟨g.panes, hrun, fun w => ⟨?_, ?_⟩⟩
  · have hw := h w
    rw [hnone w] at hw
    cases hw with
    | @absent covered hhistory _ _ hall =>
      have hcovered : covered = listed w (inTimeOrder elements) := hall trivial
      exact hcovered ▸ hhistory
  · exact run_numbered hfn (fun hmode e he => (hin hmode e he).1) hrun w

/-- The last of some numbered panes has the highest number. -/
theorem exists_newest {panes : List (Pane ν)} {values : List ν}
    (hindices : panes.map (·.info.index) = List.range panes.length)
    (hlast : (panes.map (·.values)).getLast? = some values) :
    ∃ pane ∈ panes, pane.values = values ∧
      ∀ other ∈ panes, other = pane ∨ other.info.index < pane.info.index := by
  rw [List.getLast?_map] at hlast
  obtain ⟨pane, hpane, rfl⟩ := Option.map_eq_some_iff.mp hlast
  obtain ⟨front, rfl⟩ := List.getLast?_eq_some_iff.mp hpane
  rw [List.length_append, List.length_singleton, List.range_succ, List.map_append,
    List.map_singleton] at hindices
  obtain ⟨hfront, hindex⟩ := List.append_inj hindices (by simp)
  refine ⟨pane, by simp, rfl, fun other hother => ?_⟩
  rcases List.mem_append.mp hother with hother | hother
  · have hmem : other.info.index ∈ List.range front.length :=
      hfront ▸ List.mem_map_of_mem hother
    rw [List.singleton_inj.mp hindex]
    exact .inr (List.mem_range.mp hmem)
  · exact .inl (List.mem_singleton.mp hother)

end Grouper

end EventTime
