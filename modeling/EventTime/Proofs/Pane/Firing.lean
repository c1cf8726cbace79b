import Mathlib.Data.List.Nodup
import EventTime.Proofs.Pane.Watermark
import EventTime.Proofs.Trigger.EndOfWindow

/-!
# Firing at the end of windows

Under the end-of-window trigger, and until a late element comes, a window goes through three stages:
nothing is known of it, its elements wait in its buffer, and one pane has shown them on time. A move
of the watermark takes every window whose end it passes from the second stage to the third, in the
order of their ends, and collects only windows that have fired.
-/

namespace EventTime

open TriggerState (waitingFor)

variable {ν : Type}

/-- The strategy of windows that fire at their end. -/
abbrev Strategy.atEnd (fn : WindowFn) (mode : AccumulationMode) (lateness : Int) : Strategy :=
  ⟨fn, .endOfWindow, mode, lateness⟩

/-- The first pane of a window, fired when the watermark passed its end. -/
def PaneInfo.onTimeFirst : PaneInfo := ⟨0, true, false, .onTime⟩

/-- An open buffer none of whose elements has been part of a pane. -/
structure Buffer.Untouched (b : Buffer ν) : Prop where
  isOpen : b.closed = false
  unfired : b.unfired = b.values.length
  panesFired : b.panesFired = 0
  onTimeFired : b.onTimeFired = false

namespace Buffer.Untouched

variable {b old : Buffer ν}

theorem empty : ({} : Buffer ν).Untouched := ⟨rfl, rfl, rfl, rfl⟩

theorem push (h : b.Untouched) (v : ν) : (b.push v).Untouched := by
  refine ⟨h.isOpen, ?_, h.panesFired, h.onTimeFired⟩
  simp only [Buffer.push, h.unfired, List.length_append, List.length_singleton]

theorem absorb (h : b.Untouched) (hold : old.Untouched) : (b.absorb old).Untouched := by
  refine ⟨h.isOpen, ?_, ?_, ?_⟩
  · simp only [Buffer.absorb, h.unfired, hold.unfired, List.length_append]
  · simp only [Buffer.absorb, h.panesFired, hold.panesFired, Nat.max_self]
  · simp only [Buffer.absorb, h.onTimeFired, hold.onTimeFired, Bool.or_self]

end Buffer.Untouched

namespace Grouper

variable {fn : WindowFn} {mode : AccumulationMode} {lateness : Int}

/-- Nothing is known of a window. -/
structure Unknown (g : Grouper (.atEnd fn mode lateness) ν) (w : Window) : Prop where
  panes : g.panesOf w = []
  buffer : g.buffers.find? w = none
  state : g.state.find? w = none

/-- A window holds values that have not been part of a pane. -/
structure Waits (g : Grouper (.atEnd fn mode lateness) ν) (w : Window) (values : List ν) :
    Prop where
  panes : g.panesOf w = []
  buffer : ∃ b, g.buffers.find? w = some b ∧ b.Untouched ∧ b.values = values
  nonempty : values ≠ []
  state : g.state.find? w = some (waitingFor [w.maxTimestamp])

/-- The end of a window has passed, and its values have been fired. -/
structure HasFired (g : Grouper (.atEnd fn mode lateness) ν) (w : Window) (values : List ν) :
    Prop where
  panes : g.panesOf w = [⟨w, .onTimeFirst, values⟩]
  passed : w.maxTimestamp < g.watermark
  buffer : ∀ b, g.buffers.find? w = some b → b.unfired = 0
  state : ∀ state, g.state.find? w = some state → state = waitingFor []

/-- A window that has been given some values. -/
inductive Stands (g : Grouper (.atEnd fn mode lateness) ν) (w : Window) : List ν → Prop
  | unknown : g.Unknown w → Stands g w []
  | waits {values : List ν} : g.Waits w values → Stands g w values
  | fired {values : List ν} : g.HasFired w values → values ≠ [] → Stands g w values

/-- Every window stands with the values that `seen` gives it. -/
def Staged (g : Grouper (.atEnd fn mode lateness) ν) (seen : Window → List ν) : Prop :=
  ∀ w, g.Stands w (seen w)

/-- Two groupings agree on a window. -/
structure Agrees (g g' : Grouper (.atEnd fn mode lateness) ν) (w : Window) : Prop where
  panes : g'.panesOf w = g.panesOf w
  buffer : g'.buffers.find? w = g.buffers.find? w
  state : g'.state.find? w = g.state.find? w

variable {g g' : Grouper (.atEnd fn mode lateness) ν} {w : Window} {values : List ν}
  {seen : Window → List ν}

theorem Agrees.symm (h : g.Agrees g' w) : g'.Agrees g w :=
  ⟨h.panes.symm, h.buffer.symm, h.state.symm⟩

theorem Unknown.of_agrees (h : g.Unknown w) (hw : g.Agrees g' w) : g'.Unknown w :=
  ⟨hw.panes.trans h.panes, hw.buffer.trans h.buffer, hw.state.trans h.state⟩

theorem Waits.of_agrees (h : g.Waits w values) (hw : g.Agrees g' w) : g'.Waits w values := by
  obtain ⟨b, hb, huntouched, hvalues⟩ := h.buffer
  exact ⟨hw.panes.trans h.panes, ⟨b, hw.buffer.trans hb, huntouched, hvalues⟩, h.nonempty,
    hw.state.trans h.state⟩

theorem HasFired.of_agrees (h : g.HasFired w values) (hw : g.Agrees g' w)
    (hle : g.watermark ≤ g'.watermark) : g'.HasFired w values := by
  refine ⟨hw.panes.trans h.panes, Int.lt_of_lt_of_le h.passed hle, fun b hb => ?_,
    fun state hstate => ?_⟩
  · exact h.buffer b (hw.buffer ▸ hb)
  · exact h.state state (hw.state ▸ hstate)

theorem Stands.of_agrees (h : g.Stands w values) (hw : g.Agrees g' w)
    (hle : g.watermark ≤ g'.watermark) : g'.Stands w values := by
  cases h with
  | unknown h => exact .unknown (h.of_agrees hw)
  | waits h => exact .waits (h.of_agrees hw)
  | fired h hne => exact .fired (h.of_agrees hw hle) hne

theorem Stands.unknown_of_nil (h : g.Stands w values) (hnil : values = []) : g.Unknown w := by
  cases h with
  | unknown h => exact h
  | waits h => exact absurd hnil h.nonempty
  | fired _ hne => exact absurd hnil hne

theorem Stands.waits_or_fired (h : g.Stands w values) (hne : values ≠ []) :
    g.Waits w values ∨ g.HasFired w values := by
  cases h with
  | unknown _ => exact absurd rfl hne
  | waits h => exact .inl h
  | fired h _ => exact .inr h

theorem Stands.of_panes (h : g.Stands w values) (hne : values ≠ []) (hpanes : g.panesOf w ≠ []) :
    g.HasFired w values := by
  cases h with
  | unknown h => exact absurd h.panes hpanes
  | waits h => exact absurd h.panes hpanes
  | fired h _ => exact h

theorem staged_start : ({} : Grouper (.atEnd fn mode lateness) ν).Staged fun _ => [] := fun _ =>
  .unknown ⟨rfl, rfl, rfl⟩

theorem Staged.update (h : g.Staged seen) (hle : g.watermark ≤ g'.watermark)
    (hw : g'.Stands w (seen w)) (hothers : ∀ u, w ≠ u → g.Agrees g' u) : g'.Staged seen := by
  intro u
  by_cases hwu : w = u
  · exact hwu ▸ hw
  · exact (h u).of_agrees (hothers u hwu) hle

/-! ### Firing -/

theorem agrees_emit (isLast : Bool) {u : Window} (h : w ≠ u) : g.Agrees (g.emit w isLast) u :=
  ⟨panesOf_emit_of_ne h, find?_emit_of_ne h, by rw [emit_state]⟩

theorem emit_untouched {b : Buffer ν} (hb : g.buffers.find? w = some b) (huntouched : b.Untouched)
    (hne : b.values ≠ []) (hpassed : w.maxTimestamp < g.watermark) :
    (g.emit w false).panes = g.panes ++ [⟨w, .onTimeFirst, b.values⟩] ∧
      (g.emit w false).buffers.find? w = some (b.fired mode .onTime) := by
  have hunfired : b.unfired ≠ 0 := by
    rw [huntouched.unfired]
    exact fun e => hne (List.eq_nil_of_length_eq_zero e)
  have htiming : g.timing w b.onTimeFired = .onTime := by
    have hlate : ¬g.watermark ≤ w.maxTimestamp := by omega
    rw [timing, if_neg hlate, huntouched.onTimeFired]
    rfl
  constructor
  · rw [emit_of_unfired hb hunfired, htiming, huntouched.panesFired]
    rfl
  · rw [find?_emit_self hb hunfired, htiming]

theorem Waits.mem_timers (h : g.Waits w values) : ⟨w.maxTimestamp, w, 0⟩ ∈ g.state.timers :=
  TriggerState.mem_timers.mpr ⟨_, h.state, List.mem_singleton_self _⟩

theorem Staged.waits_of_timer (h : g.Staged seen) {a : Timer} (ha : a ∈ g.state.timers) :
    g.Waits a.window (seen a.window) ∧ a.timestamp = a.window.maxTimestamp ∧ a.node = 0 := by
  obtain ⟨state, hfind, hmem⟩ := TriggerState.mem_timers.mp ha
  have hstands := h a.window
  generalize seen a.window = values at hstands ⊢
  cases hstands with
  | unknown hw => simp [hw.state] at hfind
  | waits hw =>
    obtain rfl := Option.some.inj (hw.state.symm.trans hfind)
    rw [TriggerState.timersFrom_waitingFor] at hmem
    exact ⟨hw, Prod.mk.inj (List.mem_singleton.mp hmem)⟩
  | fired hw _ =>
    rw [hw.state state hfind] at hmem
    cases hmem

/-- A timer that is due fires the window that asked for it, which waited. -/
theorem Staged.deliverTimer (h : g.Staged seen) {a : Timer} (ha : a ∈ g.state.timers)
    (hdue : a.timestamp < g.watermark)
    (heq : { g with state := g.state.cancel a }.deliverTimer a = .ok g') :
    g'.Staged seen ∧ (∀ b ∈ g'.state.timers, b ∈ g.state.timers) ∧
      ∃ pane, g'.panes = g.panes ++ [pane] ∧ pane.window.maxTimestamp = a.timestamp := by
  obtain ⟨hwaits, htime, hnode⟩ := h.waits_of_timer ha
  obtain ⟨b, hb, huntouched, hvalues⟩ := hwaits.buffer
  have hcancel := TriggerState.cancel_waitingFor hnode (htime ▸ hwaits.state)
  have hfire : (g.state.cancel a).timer a.event = (.ok .fire, g.state.cancel a) :=
    TriggerState.timer_waitingFor hcancel
  have hany : (g.buffers.find? a.window).any (fun b => !b.closed) = true := by
    rw [hb, Option.any_some, huntouched.isOpen]
    rfl
  simp only [Grouper.deliverTimer, hany, if_true, settle, hfire, Except.map, Except.ok.injEq] at heq
  subst heq
  rw [act_fire]
  obtain ⟨hpanes, hbuffer⟩ := emit_untouched (g := { g with state := g.state.cancel a }) hb
    huntouched (hvalues ▸ hwaits.nonempty) (htime ▸ hdue)
  refine ⟨h.update ?_ (.fired ⟨?_, ?_, fun c hc => ?_, fun state hstate => ?_⟩ hwaits.nonempty)
    fun u hu => ?_, fun c hc => ?_, _, hpanes, htime.symm⟩
  · have hkept := emit_watermark { g with state := g.state.cancel a } a.window false
    exact Int.le_of_eq hkept.symm
  · have hnone : g.panes.filter (·.window = a.window) = [] := hwaits.panes
    rw [panesOf, hpanes, List.filter_append, hnone, ← hvalues]
    simp
  · rw [emit_watermark]
    exact htime ▸ hdue
  · rw [hbuffer] at hc
    rw [← Option.some.inj hc]
    rfl
  · rw [emit_state] at hstate
    exact Option.some.inj (hstate.symm.trans hcancel)
  · have hemit := agrees_emit (g := { g with state := g.state.cancel a }) false hu
    refine ⟨hemit.panes, hemit.buffer, hemit.state.trans ?_⟩
    show (g.state.cancel a).find? u = _
    rw [TriggerState.find?_cancel, if_neg hu]
  · have hmem : c ∈ (g.state.cancel a).timers := by rwa [emit_state] at hc
    rw [TriggerState.timers_cancel] at hmem
    exact (List.mem_filter.mp hmem).1

/-- The panes came in the order of their ends, and the pending timers are not before them. -/
structure InOrder (g : Grouper (.atEnd fn mode lateness) ν) : Prop where
  sorted : g.panes.Pairwise fun p q => p.window.maxTimestamp ≤ q.window.maxTimestamp
  ahead : ∀ pane ∈ g.panes, ∀ a ∈ g.state.timers, pane.window.maxTimestamp ≤ a.timestamp

theorem InOrder.fire (h : g.InOrder) {a : Timer} (ha : a ∈ g.state.timers)
    (hfirst : ∀ b ∈ g.state.timers, a.timestamp ≤ b.timestamp)
    (htimers : ∀ b ∈ g'.state.timers, b ∈ g.state.timers) {pane : Pane ν}
    (hpanes : g'.panes = g.panes ++ [pane]) (htime : pane.window.maxTimestamp = a.timestamp) :
    g'.InOrder := by
  constructor
  · rw [hpanes]
    refine List.pairwise_append.mpr ⟨h.sorted, List.pairwise_singleton .., fun p hp q hq => ?_⟩
    rw [List.mem_singleton.mp hq, htime]
    exact h.ahead p hp a ha
  · intro p hp b hb
    rw [hpanes] at hp
    rcases List.mem_append.mp hp with hp | hp
    · exact h.ahead p hp b (htimers b hb)
    · rw [List.mem_singleton.mp hp, htime]
      exact hfirst b (htimers b hb)

theorem Staged.passed_of_mem (h : g.Staged seen) {pane : Pane ν} (hpane : pane ∈ g.panes) :
    pane.window.maxTimestamp < g.watermark := by
  have hpanes : g.panesOf pane.window ≠ [] :=
    List.ne_nil_of_mem (List.mem_filter.mpr ⟨hpane, decide_eq_true rfl⟩)
  have hne : seen pane.window ≠ [] := fun hnil => hpanes ((h _).unknown_of_nil hnil).panes
  exact ((h pane.window).of_panes hne hpanes).passed

/-- The order stays where the only window that may begin to wait has not passed. -/
theorem InOrder.of_waits (h : g.InOrder) (hg : g.Staged seen) {seen' : Window → List ν}
    (hg' : g'.Staged seen') (hpanes : g'.panes = g.panes) (hahead : g.watermark ≤ w.maxTimestamp)
    (hothers : ∀ u values, w ≠ u → g'.Waits u values → g.Waits u values) : g'.InOrder := by
  refine ⟨hpanes ▸ h.sorted, fun pane hpane a ha => ?_⟩
  rw [hpanes] at hpane
  obtain ⟨hwaits, htime, -⟩ := hg'.waits_of_timer ha
  rw [htime]
  by_cases hw : w = a.window
  · have hpassed := hg.passed_of_mem hpane
    rw [← hw]
    omega
  · exact h.ahead pane hpane _ (hothers _ _ hw hwaits).mem_timers

/-! ### Moving the watermark -/

theorem Staged.collect (h : g.Staged seen) (hw : g.panesOf w ≠ []) :
    (g.collect w).Staged seen ∧ (g.collect w).panes = g.panes ∧
      ∀ a ∈ (g.collect w).state.timers, a ∈ g.state.timers := by
  have hne : seen w ≠ [] := fun hnil => hw ((h w).unknown_of_nil hnil).panes
  have hfired := (h w).of_panes hne hw
  have hquiet : (g.buffers.find? w).any Buffer.pending = false := by
    cases hb : g.buffers.find? w with
    | none => rfl
    | some b => simp [Buffer.pending, hfired.buffer b hb]
  have heq : g.collect w = { g with buffers := g.buffers.erase w, state := g.state.erase w } := by
    simp only [Grouper.collect, hquiet, Bool.false_eq_true, if_false]
  have hfind : ∀ u, (g.state.erase w).find? u = if w = u then none else g.state.find? u :=
    fun u => WindowMap.find?_erase ..
  rw [heq]
  refine ⟨h.update (Int.le_refl _) (.fired ⟨hfired.panes, hfired.passed, fun b hb => ?_,
    fun state hstate => ?_⟩ hne) fun u hu => ⟨rfl, ?_, ?_⟩, rfl, fun a ha => ?_⟩
  · rw [WindowMap.find?_erase, if_pos rfl] at hb
    cases hb
  · have hnone := (hfind w).symm.trans hstate
    rw [if_pos rfl] at hnone
    cases hnone
  · exact (WindowMap.find?_erase ..).trans (if_neg hu)
  · exact (hfind u).trans (if_neg hu)
  · obtain ⟨state, hstate, hmem⟩ := TriggerState.mem_timers.mp ha
    refine TriggerState.mem_timers.mpr ⟨state, ?_, hmem⟩
    have hsome := (hfind a.window).symm.trans hstate
    split at hsome
    · cases hsome
    · exact hsome

theorem Staged.collectAll (h : g.Staged seen) (ws : List Window)
    (hws : ∀ w ∈ ws, g.panesOf w ≠ []) :
    (ws.foldl Grouper.collect g).Staged seen ∧ (ws.foldl Grouper.collect g).panes = g.panes ∧
      ∀ a ∈ (ws.foldl Grouper.collect g).state.timers, a ∈ g.state.timers := by
  induction ws generalizing g with
  | nil => exact ⟨h, rfl, fun a ha => ha⟩
  | cons w rest ih =>
    obtain ⟨h', hpanes, htimers⟩ := h.collect (hws w (List.mem_cons_self ..))
    obtain ⟨h'', hpanes', htimers'⟩ := ih h' fun u hu => by
      rw [panesOf, hpanes]
      exact hws u (List.mem_cons_of_mem _ hu)
    exact ⟨h'', hpanes'.trans hpanes, fun a ha => htimers a (htimers' a ha)⟩

theorem Staged.fired_of_passed (h : g.Staged seen) (hnone : g.state.dueTimers g.watermark = [])
    (hne : seen w ≠ []) (hpassed : w.maxTimestamp < g.watermark) : g.HasFired w (seen w) := by
  rcases (h w).waits_or_fired hne with hw | hw
  · have hdue : ⟨w.maxTimestamp, w, 0⟩ ∈ g.state.dueTimers g.watermark :=
      List.mem_filter.mpr ⟨hw.mem_timers, by simpa using hpassed⟩
    rw [hnone] at hdue
    cases hdue
  · exact hw

theorem maxTimestamp_le_expiry (fn : WindowFn) (mode : AccumulationMode)
    (hlateness : 0 ≤ lateness) (w : Window) :
    w.maxTimestamp ≤ (Strategy.atEnd fn mode lateness).expiry w := by
  have hrange : InRange w.maxTimestamp := by
    cases w with
    | global => decide
    | interval p q => exact inRange_clamp _
  have hcutoff : Trigger.endOfWindow.cutoff w = w.maxTimestamp := rfl
  show _ ≤ clamp (min _ _ + lateness)
  rw [hcutoff]
  simp only [InRange] at hrange
  simp only [clamp]
  omega

theorem Staged.advance (h : g.Staged seen) (hlateness : 0 ≤ lateness)
    (hends : ∀ w, seen w ≠ [] → w.maxTimestamp < maxTime) {target : Int}
    (hlt : g.watermark < target) :
    ∃ g', g.advance target = .ok g' ∧ g'.Staged seen ∧ g'.watermark = target ∧
      (∀ w, seen w ≠ [] → w.maxTimestamp < target → g'.HasFired w (seen w)) ∧
      (g.InOrder → g'.InOrder) := by
  have hmoved : Staged { g with watermark := target } seen := fun w =>
    (h w).of_agrees ⟨rfl, rfl, rfl⟩ (Int.le_of_lt hlt)
  obtain ⟨g₁, hadvance, ⟨h₁, horder₁⟩, hwatermark, hnone⟩ := advance_rule
    (P := fun g₁ : Grouper (.atEnd fn mode lateness) ν =>
      g₁.Staged seen ∧ (g.InOrder → g₁.InOrder)) rfl
    (fun g₁ a g₂ ⟨h₁, horder₁⟩ ha hdue hfirst heq => by
      obtain ⟨h₂, htimers, pane, hpanes, htime⟩ := h₁.deliverTimer ha hdue heq
      exact ⟨h₂, fun horder => (horder₁ horder).fire ha hfirst htimers hpanes htime⟩)
    hlt ⟨hmoved, fun horder => ⟨horder.sorted, horder.ahead⟩⟩
  have hfired : ∀ w, seen w ≠ [] → w.maxTimestamp < target → g₁.HasFired w (seen w) := by
    intro w hne hpassed
    rw [← hwatermark] at hpassed hnone
    exact h₁.fired_of_passed hnone hne hpassed
  -- no window expires before its end, so those that are collected have fired
  obtain ⟨h₂, hpanes, htimers⟩ := h₁.collectAll g₁.expired fun w hw => by
    obtain ⟨⟨b, hb⟩, hdue⟩ := mem_expired.mp hw
    have hne : seen w ≠ [] := fun hnil => by
      simp [((h₁ w).unknown_of_nil hnil).buffer] at hb
    have hend := hends w hne
    have hexpiry := maxTimestamp_le_expiry fn mode hlateness w
    have hpassed : w.maxTimestamp < target := by rcases hdue with hdue | hdue <;> omega
    simp [(hfired w hne hpassed).panes]
  refine ⟨_, hadvance, h₂, (collectAll_watermark ..).trans hwatermark, fun w hne hpassed => ?_,
    fun horder => ⟨hpanes ▸ (horder₁ horder).sorted, fun pane hpane a ha => ?_⟩⟩
  · refine (h₂ w).of_panes hne ?_
    rw [panesOf, hpanes]
    have hsome := (hfired w hne hpassed).panes
    rw [panesOf] at hsome
    simp [hsome]
  · exact (horder₁ horder).ahead pane (hpanes ▸ hpane) a (htimers a ha)

theorem Staged.follow (h : g.Staged seen) (hlateness : 0 ≤ lateness)
    (hends : ∀ w, seen w ≠ [] → w.maxTimestamp < maxTime) (input : InputWatermark)
    (timestamp : Int) :
    ∃ g', g.follow input timestamp = .ok g' ∧ g'.Staged seen ∧
      g'.watermark = pace input g.watermark timestamp ∧ (g.InOrder → g'.InOrder) := by
  cases input with
  | elementTime =>
    by_cases hlt : g.watermark < timestamp
    · obtain ⟨g', hadvance, h', hwatermark, -, horder⟩ := h.advance hlateness hends hlt
      exact ⟨g', hadvance, h', hwatermark.trans (Int.max_eq_right (Int.le_of_lt hlt)).symm, horder⟩
    · have hle : timestamp ≤ g.watermark := by omega
      exact ⟨g, advance_of_le hle, h, (Int.max_eq_left hle).symm, id⟩
  | heldUntilEnd => exact ⟨g, rfl, h, rfl, id⟩

theorem Staged.panes_of_fired (h : g.Staged seen)
    (hfired : ∀ w, seen w ≠ [] → g.HasFired w (seen w)) :
    (g.panes.map (·.window)).Nodup ∧ ∀ pane, pane ∈ g.panes ↔
      seen pane.window ≠ [] ∧ pane = ⟨pane.window, .onTimeFirst, seen pane.window⟩ := by
  have hmem : ∀ pane, pane ∈ g.panes ↔ pane ∈ g.panesOf pane.window := fun pane => by
    simp [panesOf]
  constructor
  · refine List.nodup_iff_count_le_one.mpr fun w => ?_
    have hcount : (g.panes.map (·.window)).count w = (g.panesOf w).length := by
      rw [List.count_eq_countP, List.countP_map, List.countP_eq_length_filter, panesOf]
      congr 1
    rw [hcount]
    by_cases hw : seen w = []
    · simp [((h w).unknown_of_nil hw).panes]
    · simp [(hfired w hw).panes]
  · intro pane
    rw [hmem]
    by_cases hw : seen pane.window = []
    · simp [((h _).unknown_of_nil hw).panes, hw]
    · simp [(hfired _ hw).panes, hw]

/-- A window takes an element: its buffer has not fired, and its only timer may be at its end. -/
structure Ready (g : Grouper (.atEnd fn mode lateness) ν) (w : Window) (values : List ν) :
    Prop where
  panes : g.panesOf w = []
  buffer : ∃ b, g.buffers.find? w = some b ∧ b.Untouched ∧ b.values = values
  state : ∃ timers, g.state.stateOf w = waitingFor timers ∧
    insertTime w.maxTimestamp timers = [w.maxTimestamp]

theorem insertTime_self (t : Int) : insertTime t [t] = [t] := by
  simp [insertTime]

theorem agrees_opened {u : Window} (h : u ≠ w) : g.Agrees (g.opened u) w :=
  ⟨panesOf_opened .., (find?_opened ..).trans (if_neg h), by rw [opened_state]⟩

theorem Waits.ready (h : g.Waits w values) : g.Ready w values :=
  ⟨h.panes, h.buffer, _, TriggerState.stateOf_of_some h.state, insertTime_self _⟩

theorem Waits.ready_opened (h : g.Waits w values) (u : Window) : (g.opened u).Ready w values := by
  have hagrees : g.Agrees (g.opened u) w := by
    obtain ⟨b, hb, -⟩ := h.buffer
    refine ⟨panesOf_opened .., ?_, by rw [opened_state]⟩
    rw [find?_opened, hb]
    split <;> rfl
  exact (h.of_agrees hagrees).ready

theorem Unknown.ready (h : g.Unknown w) : (g.opened w).Ready w [] := by
  refine ⟨?_, ⟨{}, ?_, .empty, rfl⟩, [], ?_, rfl⟩
  · rw [panesOf_opened, h.panes]
  · rw [find?_opened, if_pos rfl, h.buffer]
    rfl
  · rw [opened_state]
    exact TriggerState.stateOf_of_none h.state

theorem Ready.deliver (h : g.Ready w values) (timestamp : Int) (x : ν) :
    ∃ g', g.deliver w timestamp x = .ok g' ∧ g'.watermark = g.watermark ∧ g'.panes = g.panes ∧
      g'.Waits w (values ++ [x]) ∧ ∀ u, w ≠ u → g.Agrees g' u := by
  obtain ⟨b, hb, huntouched, hvalues⟩ := h.buffer
  obtain ⟨timers, hstate, hinsert⟩ := h.state
  have helement := TriggerState.element_waitingFor hstate timestamp
  rw [hinsert] at helement
  have hanswer : g.state.element ⟨w, timestamp⟩ =
      (.ok .idle, g.state.insert w (waitingFor [w.maxTimestamp])) := helement
  refine ⟨{ g with
    buffers := g.buffers.insert w (b.push x)
    state := g.state.insert w (waitingFor [w.maxTimestamp]) }, ?_, rfl, rfl,
    ⟨h.panes, ⟨b.push x, ?_, huntouched.push x, ?_⟩, by simp, ?_⟩, fun u hu => ⟨rfl, ?_, ?_⟩⟩
  · simp only [Grouper.deliver, hb, Option.getD_some, huntouched.isOpen, Bool.false_eq_true,
      if_false, settle, hanswer, Except.map]
    rfl
  · exact WindowMap.find?_insert_self ..
  · rw [← hvalues]
    rfl
  · exact WindowMap.find?_insert_self ..
  · exact WindowMap.find?_insert_of_ne hu ..
  · exact WindowMap.find?_insert_of_ne hu ..

end Grouper

end EventTime
