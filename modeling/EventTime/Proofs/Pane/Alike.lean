import Mathlib.Data.List.Nodup
import EventTime.Proofs.Pane.Watermark
import EventTime.Proofs.Trigger.Rollback

/-!
# Groupings alike in one window

What is done in other windows keeps a window: its trigger state, its buffer and its panes, as well
as the watermark. Two groupings that are alike in a window, up to the values that elements carry,
stay so when the same is done in that window in both of them. Timers of all windows wait in one
queue, so the two reach the timers of the window after different numbers of other timers; they reach
the same ones.
-/

namespace EventTime

variable {ν ν' : Type} {s : Strategy} {R : ν → ν' → Prop} {w v : Window}

/-- Buffers that hold related values, one beside the other, and agree in all else. -/
structure Buffer.Like (R : ν → ν' → Prop) (b : Buffer ν) (b' : Buffer ν') : Prop where
  values : List.Forall₂ R b.values b'.values
  unfired : b'.unfired = b.unfired
  panesFired : b'.panesFired = b.panesFired
  onTimeFired : b'.onTimeFired = b.onTimeFired
  closed : b'.closed = b.closed

/-- Panes that hold related values, one beside the other, and agree in all else. -/
structure Pane.Like (R : ν → ν' → Prop) (p : Pane ν) (p' : Pane ν') : Prop where
  window : p'.window = p.window
  info : p'.info = p.info
  values : List.Forall₂ R p.values p'.values

namespace Buffer.Like

variable {b : Buffer ν} {b' : Buffer ν'}

theorem empty : Buffer.Like R {} {} := ⟨.nil, rfl, rfl, rfl, rfl⟩

theorem push (h : b.Like R b') {x : ν} {x' : ν'} (hx : R x x') : (b.push x).Like R (b'.push x') :=
  ⟨List.rel_append h.values (.cons hx .nil), congrArg (· + 1) h.unfired, h.panesFired,
    h.onTimeFired, h.closed⟩

theorem close (h : b.Like R b') : b.close.Like R b'.close :=
  ⟨.nil, h.unfired, h.panesFired, h.onTimeFired, rfl⟩

theorem fired (h : b.Like R b') (mode : AccumulationMode) (timing : PaneTiming) :
    (b.fired mode timing).Like R (b'.fired mode timing) := by
  refine ⟨?_, rfl, congrArg (· + 1) h.panesFired, congrArg (· || _) h.onTimeFired, h.closed⟩
  cases mode with
  | discarding => exact .nil
  | accumulating => exact h.values

end Buffer.Like

namespace Grouper

/-- Two groupings that cannot be told apart in a window but by the values of its elements. -/
structure Alike (R : ν → ν' → Prop) (w : Window) (g : Grouper s ν) (g' : Grouper s ν') : Prop where
  watermark : g'.watermark = g.watermark
  state : g'.state.find? w = g.state.find? w
  buffer : Option.Rel (Buffer.Like R) (g.buffers.find? w) (g'.buffers.find? w)
  panes : List.Forall₂ (Pane.Like R) (g.panesOf w) (g'.panesOf w)

/-- A step that leaves the watermark and a window as they are. -/
structure Keeps (w : Window) (g g₁ : Grouper s ν) : Prop where
  watermark : g₁.watermark = g.watermark
  state : g₁.state.find? w = g.state.find? w
  buffer : g₁.buffers.find? w = g.buffers.find? w
  panes : g₁.panesOf w = g.panesOf w

section

variable {g g₁ g₂ : Grouper s ν} {g' g₁' : Grouper s ν'}

theorem Keeps.refl (w : Window) (g : Grouper s ν) : g.Keeps w g := ⟨rfl, rfl, rfl, rfl⟩

theorem Keeps.trans (h : g.Keeps w g₁) (h₁ : g₁.Keeps w g₂) : g.Keeps w g₂ :=
  ⟨h₁.watermark.trans h.watermark, h₁.state.trans h.state, h₁.buffer.trans h.buffer,
    h₁.panes.trans h.panes⟩

theorem Alike.left (h : g.Alike R w g') (hkeeps : g.Keeps w g₁) : g₁.Alike R w g' :=
  ⟨h.watermark.trans hkeeps.watermark.symm, h.state.trans hkeeps.state.symm,
    hkeeps.buffer ▸ h.buffer, hkeeps.panes ▸ h.panes⟩

theorem Alike.right (h : g.Alike R w g') (hkeeps : g'.Keeps w g₁') : g.Alike R w g₁' :=
  ⟨hkeeps.watermark.trans h.watermark, hkeeps.state.trans h.state,
    hkeeps.buffer ▸ h.buffer, hkeeps.panes ▸ h.panes⟩

theorem alike_start : ({} : Grouper s ν).Alike R w ({} : Grouper s ν') :=
  ⟨rfl, rfl, .none, .nil⟩

end

section

variable {g g₁ : Grouper s ν}

theorem keeps_emit (hv : v ≠ w) (isLast : Bool) : g.Keeps w (g.emit v isLast) :=
  ⟨emit_watermark .., congrArg (WindowMap.find? · w) (emit_state ..), find?_emit_of_ne hv,
    panesOf_emit_of_ne hv⟩

theorem keeps_close (hv : v ≠ w) : g.Keeps w (g.close v) :=
  ⟨rfl, rfl, (find?_close ..).trans (if_neg hv), rfl⟩

theorem keeps_act (hv : v ≠ w) (o : Outcome) : g.Keeps w (g.act v o) := by
  cases o with
  | idle => exact .refl w g
  | fire => exact keeps_emit hv false
  | fireAndFinish => exact (keeps_emit hv true).trans (keeps_close hv)

theorem keeps_settle (hv : v ≠ w) {answer : Except Fault Outcome × TriggerState s.trigger}
    (hstate : answer.2.find? w = g.state.find? w) (h : g.settle v answer = .ok g₁) :
    g.Keeps w g₁ := by
  obtain ⟨o, -, rfl⟩ := ok_of_map h
  have hset : g.Keeps w { g with state := answer.2 } := ⟨rfl, hstate, rfl, rfl⟩
  exact hset.trans (keeps_act hv o)

theorem keeps_opened (hv : v ≠ w) : g.Keeps w (g.opened v) :=
  ⟨opened_watermark .., congrArg (WindowMap.find? · w) (opened_state ..),
    (find?_opened ..).trans (if_neg hv), panesOf_opened ..⟩

theorem keeps_deliver (hv : v ≠ w) {timestamp : Int} {x : ν}
    (h : g.deliver v timestamp x = .ok g₁) : g.Keeps w g₁ := by
  unfold deliver at h
  simp only at h
  split at h
  · exact Except.ok.inj h ▸ .refl w g
  · have hpush : g.Keeps w { g with
        buffers := g.buffers.insert v (((g.buffers.find? v).getD {}).push x) } :=
      ⟨rfl, rfl, WindowMap.find?_insert_of_ne hv .., rfl⟩
    exact hpush.trans (keeps_settle hv (TriggerState.find?_element_of_ne _ hv) h)

theorem place_of_nonMerging (hfn : s.windowFn.nonMerging = true) (timestamp : Int) (x : ν) :
    g.place timestamp x v =
      if s.expiry v < g.watermark then .ok g else (g.opened v).deliver v timestamp x := by
  simp only [place, mergeWindows, hfn, if_true]
  rfl

theorem keeps_place (hfn : s.windowFn.nonMerging = true) (hv : v ≠ w) {timestamp : Int} {x : ν}
    (h : g.place timestamp x v = .ok g₁) : g.Keeps w g₁ := by
  rw [place_of_nonMerging hfn] at h
  split at h
  · exact Except.ok.inj h ▸ .refl w g
  · exact (keeps_opened hv).trans (keeps_deliver hv h)

theorem keeps_deliverTimer {a : Timer} (ha : a.window ≠ w)
    (h : { g with state := g.state.cancel a }.deliverTimer a = .ok g₁) : g.Keeps w g₁ := by
  have hcancel : g.Keeps w { g with state := g.state.cancel a } :=
    ⟨rfl, (TriggerState.find?_cancel ..).trans (if_neg ha), rfl, rfl⟩
  rcases deliverTimer_ok h with rfl | ⟨-, h⟩
  · exact hcancel
  · exact hcancel.trans (keeps_settle ha (TriggerState.find?_timer_of_ne _ (e := a.event) ha) h)

theorem keeps_collect (hv : v ≠ w) : g.Keeps w (g.collect v) := by
  refine ⟨collect_watermark .., ?_, (find?_collect ..).trans (if_neg hv),
    panesOf_collect_of_ne hv⟩
  simp only [collect]
  rw [WindowMap.find?_erase, if_neg hv]
  split
  · rw [emit_state]
  · rfl

theorem keeps_collectAll {ws : List Window} (hw : w ∉ ws) : g.Keeps w (ws.foldl collect g) := by
  induction ws generalizing g with
  | nil => exact .refl w g
  | cons v ws ih =>
    rw [List.mem_cons, not_or] at hw
    obtain ⟨hv, hws⟩ := hw
    exact (keeps_collect (Ne.symm hv)).trans (ih hws)

end

namespace Alike

variable {g g₁ g₂ : Grouper s ν} {g' g₁' g₂' : Grouper s ν'}

theorem setState (h : g.Alike R w g') {state state' : TriggerState s.trigger}
    (hstate : state'.find? w = state.find? w) :
    Alike R w { g with state := state } { g' with state := state' } :=
  ⟨h.watermark, hstate, h.buffer, h.panes⟩

theorem setBuffer (h : g.Alike R w g') {b : Buffer ν} {b' : Buffer ν'} (hb : b.Like R b') :
    Alike R w { g with buffers := g.buffers.insert w b }
      { g' with buffers := g'.buffers.insert w b' } := by
  refine ⟨h.watermark, h.state, ?_, h.panes⟩
  rw [WindowMap.find?_insert_self, WindowMap.find?_insert_self]
  exact .some hb

/-- Both groupings have no buffer for the window, or both have one. -/
theorem buffer_cases (h : g.Alike R w g') :
    (g.buffers.find? w = none ∧ g'.buffers.find? w = none) ∨
      ∃ b b', g.buffers.find? w = some b ∧ g'.buffers.find? w = some b' ∧ b.Like R b' := by
  have hbuffer := h.buffer
  cases hb : g.buffers.find? w with
  | none =>
    rw [hb] at hbuffer
    cases hb' : g'.buffers.find? w with
    | none => exact .inl ⟨rfl, rfl⟩
    | some b' => rw [hb'] at hbuffer; cases hbuffer
  | some b =>
    rw [hb] at hbuffer
    cases hb' : g'.buffers.find? w with
    | none => rw [hb'] at hbuffer; cases hbuffer
    | some b' =>
      rw [hb'] at hbuffer
      cases hbuffer with
      | some hlike => exact .inr ⟨b, b', rfl, rfl, hlike⟩

theorem getD_buffer (h : g.Alike R w g') :
    ((g.buffers.find? w).getD {}).Like R ((g'.buffers.find? w).getD {}) := by
  rcases h.buffer_cases with ⟨hb, hb'⟩ | ⟨b, b', hb, hb', hlike⟩
  · rw [hb, hb']
    exact .empty
  · rw [hb, hb']
    exact hlike

theorem emit (h : g.Alike R w g') (isLast : Bool) :
    (g.emit w isLast).Alike R w (g'.emit w isLast) := by
  rcases h.buffer_cases with ⟨hb, hb'⟩ | ⟨b, b', hb, hb', hlike⟩
  · rwa [emit_of_none hb, emit_of_none hb']
  · by_cases hu : b.unfired = 0
    · rwa [emit_of_all_fired hb hu, emit_of_all_fired hb' (hlike.unfired.trans hu)]
    · have hu' : b'.unfired ≠ 0 := hlike.unfired.symm ▸ hu
      have htiming : g'.timing w b'.onTimeFired = g.timing w b.onTimeFired := by
        rw [timing, timing, h.watermark, hlike.onTimeFired]
      refine ⟨?_, ?_, ?_, ?_⟩
      · rw [emit_watermark, emit_watermark, h.watermark]
      · rw [emit_state, emit_state, h.state]
      · rw [find?_emit_self hb hu, find?_emit_self hb' hu', htiming]
        exact .some (hlike.fired ..)
      · rw [panesOf_emit_self hb hu, panesOf_emit_self hb' hu', htiming, hlike.panesFired]
        exact List.rel_append h.panes (.cons ⟨rfl, rfl, hlike.values⟩ .nil)

theorem close (h : g.Alike R w g') : (g.close w).Alike R w (g'.close w) := by
  refine ⟨h.watermark, h.state, ?_, h.panes⟩
  rw [find?_close, find?_close, if_pos rfl, if_pos rfl]
  rcases h.buffer_cases with ⟨hb, hb'⟩ | ⟨b, b', hb, hb', hlike⟩
  · rw [hb, hb']
    exact .none
  · rw [hb, hb']
    exact .some hlike.close

theorem act (h : g.Alike R w g') (o : Outcome) : (g.act w o).Alike R w (g'.act w o) := by
  cases o with
  | idle => exact h
  | fire => exact h.emit false
  | fireAndFinish => exact (h.emit true).close

theorem settle (h : g.Alike R w g')
    {answer answer' : Except Fault Outcome × TriggerState s.trigger}
    (hanswer : answer'.1 = answer.1 ∧ answer'.2.find? w = answer.2.find? w)
    (heq : g.settle w answer = .ok g₁) (heq' : g'.settle w answer' = .ok g₁') :
    g₁.Alike R w g₁' := by
  obtain ⟨o, ho, rfl⟩ := ok_of_map heq
  obtain ⟨o', ho', rfl⟩ := ok_of_map heq'
  obtain rfl := Except.ok.inj (ho'.symm.trans (hanswer.1.trans ho))
  exact (h.setState hanswer.2).act _

theorem opened (h : g.Alike R w g') : (g.opened w).Alike R w (g'.opened w) := by
  refine ⟨?_, ?_, ?_, ?_⟩
  · rw [opened_watermark, opened_watermark, h.watermark]
  · rw [opened_state, opened_state, h.state]
  · rw [find?_opened, find?_opened, if_pos rfl, if_pos rfl]
    exact .some h.getD_buffer
  · rw [panesOf_opened, panesOf_opened]
    exact h.panes

theorem deliver (h : g.Alike R w g') {timestamp : Int} {x : ν} {x' : ν'} (hx : R x x')
    (heq : g.deliver w timestamp x = .ok g₁) (heq' : g'.deliver w timestamp x' = .ok g₁') :
    g₁.Alike R w g₁' := by
  unfold Grouper.deliver at heq heq'
  simp only [h.getD_buffer.closed] at heq heq'
  split at heq
  · rename_i hclosed
    rw [if_pos hclosed] at heq'
    exact Except.ok.inj heq ▸ Except.ok.inj heq' ▸ h
  · rename_i hopen
    rw [if_neg hopen] at heq'
    exact (h.setBuffer (h.getD_buffer.push hx)).settle
      (TriggerState.element_congr (e := ⟨w, timestamp⟩) h.state) heq heq'

theorem place (h : g.Alike R w g') (hfn : s.windowFn.nonMerging = true) {timestamp : Int} {x : ν}
    {x' : ν'} (hx : R x x') (heq : g.place timestamp x w = .ok g₁)
    (heq' : g'.place timestamp x' w = .ok g₁') : g₁.Alike R w g₁' := by
  rw [place_of_nonMerging hfn] at heq heq'
  rw [h.watermark] at heq'
  split at heq
  · rename_i hexpired
    rw [if_pos hexpired] at heq'
    exact Except.ok.inj heq ▸ Except.ok.inj heq' ▸ h
  · rename_i hlive
    rw [if_neg hlive] at heq'
    exact h.opened.deliver hx heq heq'

theorem deliverTimer (h : g.Alike R w g') {a : Timer} (ha : a.window = w)
    (heq : { g with state := g.state.cancel a }.deliverTimer a = .ok g₁)
    (heq' : { g' with state := g'.state.cancel a }.deliverTimer a = .ok g₁') :
    g₁.Alike R w g₁' := by
  subst ha
  have hcancel : (g'.state.cancel a).find? a.window = (g.state.cancel a).find? a.window := by
    rw [TriggerState.find?_cancel, TriggerState.find?_cancel, h.state]
  have hopen : (g'.buffers.find? a.window).any (fun b => !b.closed) =
      (g.buffers.find? a.window).any (fun b => !b.closed) := by
    rcases h.buffer_cases with ⟨hb, hb'⟩ | ⟨b, b', hb, hb', hlike⟩
    · rw [hb, hb']
      rfl
    · rw [hb, hb', Option.any_some, Option.any_some, hlike.closed]
  unfold Grouper.deliverTimer at heq heq'
  simp only [hopen] at heq heq'
  split at heq
  · rename_i hany
    rw [if_pos hany] at heq'
    exact (h.setState hcancel).settle (TriggerState.timer_congr (e := a.event) hcancel) heq heq'
  · rename_i hany
    rw [if_neg hany] at heq'
    exact Except.ok.inj heq ▸ Except.ok.inj heq' ▸ h.setState hcancel

theorem collect (h : g.Alike R w g') : (g.collect w).Alike R w (g'.collect w) := by
  have hpending : (g'.buffers.find? w).any Buffer.pending =
      (g.buffers.find? w).any Buffer.pending := by
    rcases h.buffer_cases with ⟨hb, hb'⟩ | ⟨b, b', hb, hb', hlike⟩
    · rw [hb, hb']
      rfl
    · rw [hb, hb', Option.any_some, Option.any_some, Buffer.pending, Buffer.pending, hlike.closed,
        hlike.unfired]
  have hforget {k : Grouper s ν} {k' : Grouper s ν'} (hk : k.Alike R w k') :
      Alike R w { k with buffers := k.buffers.erase w, state := k.state.erase w }
        { k' with buffers := k'.buffers.erase w, state := k'.state.erase w } := by
    refine ⟨hk.watermark, ?_, ?_, hk.panes⟩
    · rw [WindowMap.find?_erase, WindowMap.find?_erase, if_pos rfl, if_pos rfl]
    · rw [WindowMap.find?_erase, WindowMap.find?_erase, if_pos rfl, if_pos rfl]
      exact .none
  simp only [Grouper.collect, hpending]
  split
  · exact hforget (h.emit true)
  · exact hforget h

theorem collectAll (h : g.Alike R w g') {ws ws' : List Window} (hnodup : ws.Nodup)
    (hnodup' : ws'.Nodup) (hmem : w ∈ ws ↔ w ∈ ws') :
    (ws.foldl Grouper.collect g).Alike R w (ws'.foldl Grouper.collect g') := by
  by_cases hw : w ∈ ws
  · -- the window is collected once, among others that leave it as it is
    have hw' := hmem.mp hw
    obtain ⟨front, back, rfl⟩ := List.append_of_mem hw
    obtain ⟨front', back', rfl⟩ := List.append_of_mem hw'
    have hrest := (List.nodup_cons.mp (List.nodup_middle.mp hnodup)).1
    have hrest' := (List.nodup_cons.mp (List.nodup_middle.mp hnodup')).1
    rw [List.mem_append, not_or] at hrest hrest'
    rw [List.foldl_append, List.foldl_append, List.foldl_cons, List.foldl_cons]
    have hfront := (h.left (keeps_collectAll hrest.1)).right (keeps_collectAll hrest'.1)
    exact (hfront.collect.left (keeps_collectAll hrest.2)).right (keeps_collectAll hrest'.2)
  · exact (h.left (keeps_collectAll hw)).right (keeps_collectAll (mt hmem.mpr hw))

end Alike

end Grouper

end EventTime
