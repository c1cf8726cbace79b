import EventTime.Pane.Grouper
import EventTime.Proofs.Trigger.Timers

/-!
# The small operations of a grouping

Emitting, closing and collecting concern one window: its buffer and its panes. All other windows
keep theirs, and the watermark stays. A grouping is therefore followed window by window, through the
buffer found for a window and the panes it has emitted.
-/

namespace EventTime

variable {ν : Type} {s : Strategy}

namespace Grouper

/-- The panes emitted for a window so far, in firing order. -/
def panesOf (g : Grouper s ν) (w : Window) : List (Pane ν) := g.panes.filter (·.window = w)

theorem emit_of_unfired {g : Grouper s ν} {w : Window} {b : Buffer ν} {isLast : Bool}
    (hb : g.buffers.find? w = some b) (hu : b.unfired ≠ 0) :
    g.emit w isLast =
      { g with
        buffers := g.buffers.insert w (b.fired s.mode (g.timing w b.onTimeFired))
        panes := g.panes ++ [⟨w, ⟨b.panesFired, b.panesFired == 0, isLast,
          g.timing w b.onTimeFired⟩, b.values⟩] } := by
  simp only [emit, hb, hu, if_false]

theorem emit_of_none {g : Grouper s ν} {w : Window} {isLast : Bool}
    (hb : g.buffers.find? w = none) : g.emit w isLast = g := by
  simp only [emit, hb]

theorem emit_of_all_fired {g : Grouper s ν} {w : Window} {b : Buffer ν} {isLast : Bool}
    (hb : g.buffers.find? w = some b) (hu : b.unfired = 0) : g.emit w isLast = g := by
  simp only [emit, hb, hu, if_true]

theorem emit_cases (g : Grouper s ν) (w : Window) (isLast : Bool) :
    g.emit w isLast = g ∨ ∃ b, g.buffers.find? w = some b ∧ b.unfired ≠ 0 := by
  cases hb : g.buffers.find? w with
  | none => exact .inl (emit_of_none hb)
  | some b =>
    by_cases hu : b.unfired = 0
    · exact .inl (emit_of_all_fired hb hu)
    · exact .inr ⟨b, rfl, hu⟩

@[simp] theorem emit_watermark (g : Grouper s ν) (w : Window) (isLast : Bool) :
    (g.emit w isLast).watermark = g.watermark := by
  rcases emit_cases g w isLast with h | ⟨b, hb, hu⟩
  · rw [h]
  · rw [emit_of_unfired hb hu]

@[simp] theorem emit_state (g : Grouper s ν) (w : Window) (isLast : Bool) :
    (g.emit w isLast).state = g.state := by
  rcases emit_cases g w isLast with h | ⟨b, hb, hu⟩
  · rw [h]
  · rw [emit_of_unfired hb hu]

theorem find?_emit_of_ne {g : Grouper s ν} {w v : Window} {isLast : Bool} (h : w ≠ v) :
    (g.emit w isLast).buffers.find? v = g.buffers.find? v := by
  rcases emit_cases g w isLast with he | ⟨b, hb, hu⟩
  · rw [he]
  · rw [emit_of_unfired hb hu, WindowMap.find?_insert_of_ne h]

theorem panesOf_emit_of_ne {g : Grouper s ν} {w v : Window} {isLast : Bool} (h : w ≠ v) :
    (g.emit w isLast).panesOf v = g.panesOf v := by
  rcases emit_cases g w isLast with he | ⟨b, hb, hu⟩
  · rw [he]
  · rw [emit_of_unfired hb hu]
    simp [panesOf, h]

theorem panesOf_emit_self {g : Grouper s ν} {w : Window} {b : Buffer ν} {isLast : Bool}
    (hb : g.buffers.find? w = some b) (hu : b.unfired ≠ 0) :
    (g.emit w isLast).panesOf w = g.panesOf w ++ [⟨w, ⟨b.panesFired, b.panesFired == 0, isLast,
      g.timing w b.onTimeFired⟩, b.values⟩] := by
  rw [emit_of_unfired hb hu]
  simp [panesOf]

theorem find?_emit_self {g : Grouper s ν} {w : Window} {b : Buffer ν} {isLast : Bool}
    (hb : g.buffers.find? w = some b) (hu : b.unfired ≠ 0) :
    (g.emit w isLast).buffers.find? w = some (b.fired s.mode (g.timing w b.onTimeFired)) := by
  rw [emit_of_unfired hb hu, WindowMap.find?_insert_self]

@[simp] theorem close_watermark (g : Grouper s ν) (w : Window) :
    (g.close w).watermark = g.watermark := rfl

theorem find?_close (g : Grouper s ν) (w v : Window) :
    (g.close w).buffers.find? v =
      if w = v then (g.buffers.find? v).map Buffer.close else g.buffers.find? v :=
  WindowMap.find?_modify ..

@[simp] theorem act_watermark (g : Grouper s ν) (w : Window) (o : Outcome) :
    (g.act w o).watermark = g.watermark := by
  cases o <;> simp [act, Outcome.fires, Outcome.finishes]

theorem act_fire (g : Grouper s ν) (w : Window) : g.act w .fire = g.emit w false := rfl

@[simp] theorem opened_watermark (g : Grouper s ν) (w : Window) :
    (g.opened w).watermark = g.watermark := by
  unfold opened
  split <;> rfl

@[simp] theorem panesOf_opened (g : Grouper s ν) (w v : Window) :
    (g.opened w).panesOf v = g.panesOf v := by
  unfold opened
  split <;> rfl

@[simp] theorem opened_panes (g : Grouper s ν) (w : Window) : (g.opened w).panes = g.panes := by
  unfold opened
  split <;> rfl

@[simp] theorem opened_state (g : Grouper s ν) (w : Window) : (g.opened w).state = g.state := by
  unfold opened
  split <;> rfl

theorem collect_state (g : Grouper s ν) (w : Window) :
    (g.collect w).state = g.state.erase w := by
  simp only [collect]
  split
  · rw [emit_state]
  · rfl

theorem find?_opened (g : Grouper s ν) (w v : Window) :
    (g.opened w).buffers.find? v =
      if w = v then some ((g.buffers.find? v).getD {}) else g.buffers.find? v := by
  unfold opened
  split
  · rename_i hc
    obtain ⟨b, hb⟩ := WindowMap.contains_iff.mp hc
    by_cases h : w = v
    · subst h
      simp [hb]
    · simp [h]
  · rename_i hc
    rw [WindowMap.find?_insert]
    by_cases h : w = v
    · subst h
      have hnone : g.buffers.find? w = none := by
        simpa [WindowMap.contains] using hc
      simp [hnone]
    · simp [h]

@[simp] theorem collect_watermark (g : Grouper s ν) (w : Window) :
    (g.collect w).watermark = g.watermark := by
  simp only [collect]
  split <;> simp

theorem find?_collect (g : Grouper s ν) (w v : Window) :
    (g.collect w).buffers.find? v = if w = v then none else g.buffers.find? v := by
  simp only [collect, WindowMap.find?_erase]
  by_cases h : w = v
  · simp [h]
  · simp only [h, if_false]
    split
    · exact find?_emit_of_ne h
    · rfl

theorem panesOf_collect_of_ne {g : Grouper s ν} {w v : Window} (h : w ≠ v) :
    (g.collect w).panesOf v = g.panesOf v := by
  simp only [collect]
  split
  · exact panesOf_emit_of_ne h
  · rfl

theorem panesOf_collect_self {g : Grouper s ν} {w : Window} {b : Buffer ν}
    (hb : g.buffers.find? w = some b) :
    (g.collect w).panesOf w = if b.pending then (g.emit w true).panesOf w else g.panesOf w := by
  simp only [collect, hb, Option.any_some]
  split <;> rfl

/-! ### Windows with a buffer -/

/-- A window has a buffer. -/
def Has (g : Grouper s ν) (w : Window) : Prop := ∃ b, g.buffers.find? w = some b

theorem has_emit {g : Grouper s ν} {w v : Window} {isLast : Bool} :
    (g.emit w isLast).Has v ↔ g.Has v := by
  rcases emit_cases g w isLast with he | ⟨b, hb, hu⟩
  · rw [he]
  · by_cases hv : w = v
    · subst hv
      simp [Has, hb, find?_emit_self hb hu]
    · rw [Has, find?_emit_of_ne hv, Has]

theorem has_close {g : Grouper s ν} {w v : Window} : (g.close w).Has v ↔ g.Has v := by
  rw [Has, find?_close, Has]
  split <;> simp

theorem has_act {g : Grouper s ν} {w v : Window} {o : Outcome} : (g.act w o).Has v ↔ g.Has v := by
  cases o with
  | idle => rfl
  | fire => exact has_emit
  | fireAndFinish => exact has_close.trans has_emit

theorem has_opened {g : Grouper s ν} {w v : Window} : (g.opened w).Has v ↔ v = w ∨ g.Has v := by
  rw [Has, find?_opened, Has]
  split
  · rename_i h
    simp [h]
  · rename_i h
    simp [Ne.symm h]

/-- Steps that absorb the buffers of some windows leave these absorbed, and touch no others. -/
theorem foldl_absorb {step : Buffer ν × WindowMap (Buffer ν) → Window →
      Buffer ν × WindowMap (Buffer ν)}
    (hsome : ∀ b m w old, m.find? w = some old → step (b, m) w = (b.absorb old, m.erase w))
    (hnone : ∀ b m w, m.find? w = none → step (b, m) w = (b, m)) {olds : List Window}
    (hnodup : olds.Nodup) (b : Buffer ν) (m : WindowMap (Buffer ν)) :
    ∃ m', olds.foldl step (b, m) = ((olds.filterMap m.find?).foldl Buffer.absorb b, m') ∧
      ∀ w, m'.find? w = if w ∈ olds then none else m.find? w := by
  induction olds generalizing b m with
  | nil => exact ⟨m, rfl, fun w => by simp⟩
  | cons v rest ih =>
    obtain ⟨hv, hrest⟩ := List.nodup_cons.mp hnodup
    rw [List.foldl_cons, List.filterMap_cons]
    cases hfind : m.find? v with
    | none =>
      obtain ⟨m', hfold, hm'⟩ := ih hrest b m
      refine ⟨m', by rw [hnone b m v hfind, hfold], fun w => (hm' w).trans ?_⟩
      by_cases hw : w = v
      · simp [hw, hfind]
      · simp [hw]
    | some old =>
      obtain ⟨m', hfold, hm'⟩ := ih hrest (b.absorb old) (m.erase v)
      have hsame : rest.filterMap (m.erase v).find? = rest.filterMap m.find? :=
        List.filterMap_congr fun w hw => by
          have hne : v ≠ w := fun e => hv (e ▸ hw)
          rw [WindowMap.find?_erase, if_neg hne]
      refine ⟨m', by rw [hsome b m v old hfind, hfold, hsame, List.foldl_cons], fun w =>
        (hm' w).trans ?_⟩
      rw [WindowMap.find?_erase]
      by_cases hw : v = w
      · simp [hw]
      · simp [hw, Ne.symm hw]

theorem mergedBuffer_eq (g : Grouper s ν) {olds : List Window} (hnodup : olds.Nodup) :
    ∃ m, g.mergedBuffer olds = ((olds.filterMap g.buffers.find?).foldl Buffer.absorb {}, m) ∧
      ∀ w, m.find? w = if w ∈ olds then none else g.buffers.find? w :=
  foldl_absorb (fun b m w old h => by simp only [h]) (fun b m w h => by simp only [h]) hnodup {}
    g.buffers

theorem closed_absorbAll (bs : List (Buffer ν)) (b : Buffer ν) :
    (bs.foldl Buffer.absorb b).closed = b.closed := by
  induction bs generalizing b with
  | nil => rfl
  | cons old rest ih => exact ih _

/-- What the buffers of the old windows are when taken together. -/
def absorbed (g : Grouper s ν) (olds : List Window) : Buffer ν :=
  (olds.filterMap g.buffers.find?).foldl Buffer.absorb {}

/-- The grouping in which the new window has the buffers of the old ones, and the trigger has not
yet been heard. -/
def moved (g : Grouper s ν) (m : Merge) (buffers : WindowMap (Buffer ν))
    (state : TriggerState s.trigger) : Grouper s ν :=
  { g with state, buffers := buffers.insert m.into (g.absorbed m.olds) }

theorem find?_moved_into {g : Grouper s ν} (m : Merge) (buffers : WindowMap (Buffer ν))
    (state : TriggerState s.trigger) :
    (g.moved m buffers state).buffers.find? m.into = some (g.absorbed m.olds) :=
  WindowMap.find?_insert_self ..

theorem find?_moved_of_ne {g : Grouper s ν} {m : Merge} {buffers : WindowMap (Buffer ν)}
    {state : TriggerState s.trigger} {v : Window} (hne : m.into ≠ v) :
    (g.moved m buffers state).buffers.find? v = buffers.find? v :=
  WindowMap.find?_insert_of_ne hne ..

theorem mergeOne_eq {g : Grouper s ν} {m : Merge} (hnodup : m.olds.Nodup) {o : MergeOutcome}
    {state : TriggerState s.trigger} (hmerge : g.state.merge m = (.ok o, state)) :
    ∃ buffers, (∀ v, buffers.find? v = if v ∈ m.olds then none else g.buffers.find? v) ∧
      g.mergeOne m = .ok ((g.moved m buffers state).actOnMerge m.into o) := by
  obtain ⟨buffers, hmerged, hbuffers⟩ := g.mergedBuffer_eq hnodup
  exact ⟨buffers, hbuffers, by simp only [mergeOne, hmerged, hmerge]; rfl⟩

/-- Whether a window is to be collected: it can fire no more, or the input has ended. -/
def Due (g : Grouper s ν) (w : Window) : Prop :=
  s.expiry w < g.watermark ∨ g.watermark = maxTime

theorem due_congr {g g' : Grouper s ν} {w : Window} (h : g'.watermark = g.watermark) :
    g'.Due w ↔ g.Due w := by
  rw [Due, Due, h]

theorem Due.later {g : Grouper s ν} {w : Window} (hdue : g.Due w) {target : Int}
    (hle : g.watermark ≤ target) (hne : g.watermark ≠ maxTime) :
    Due { g with watermark := target } w := by
  rcases hdue with hdue | hdue
  · exact .inl (Int.lt_of_lt_of_le hdue hle)
  · exact absurd hdue hne

/-- Every window that has a buffer can still fire. -/
def Live (g : Grouper s ν) : Prop := ∀ w b, g.buffers.find? w = some b → ¬g.Due w

theorem Live.emit {g : Grouper s ν} (live : g.Live) (w : Window) (isLast : Bool) :
    (g.emit w isLast).Live := by
  rcases emit_cases g w isLast with he | ⟨b, hb, hu⟩
  · rwa [he]
  · intro v c hc
    simp only [Due, emit_watermark]
    by_cases hv : w = v
    · exact hv ▸ live w b hb
    · rw [find?_emit_of_ne hv] at hc
      exact live v c hc

theorem Live.close {g : Grouper s ν} (live : g.Live) (w : Window) : (g.close w).Live := by
  intro v c hc
  rw [find?_close] at hc
  split at hc
  · obtain ⟨b, hb, -⟩ := Option.map_eq_some_iff.mp hc
    exact live v b hb
  · exact live v c hc

theorem Live.act {g : Grouper s ν} (live : g.Live) (w : Window) (o : Outcome) :
    (g.act w o).Live := by
  cases o with
  | idle => exact live
  | fire => exact live.emit w false
  | fireAndFinish => exact (live.emit w true).close w

theorem Live.opened {g : Grouper s ν} (live : g.Live) {w : Window} (hdue : ¬g.Due w) :
    (g.opened w).Live := by
  intro v c hc
  simp only [Due, opened_watermark]
  rw [find?_opened] at hc
  split at hc
  · rename_i hv
    exact hv ▸ hdue
  · exact live v c hc

theorem mem_expired {g : Grouper s ν} {w : Window} :
    w ∈ g.expired ↔ (∃ b, g.buffers.find? w = some b) ∧ g.Due w := by
  simp only [expired, List.mem_mergeSort, List.mem_filter, WindowMap.mem_keys, Due,
    Bool.or_eq_true, beq_iff_eq, decide_eq_true_eq, or_comm]

theorem nodup_expired (g : Grouper s ν) : g.expired.Nodup :=
  (List.mergeSort_perm _ _).nodup_iff.mpr ((WindowMap.nodup_keys _).filter _)

theorem collectAll_watermark (ws : List Window) (g : Grouper s ν) :
    (ws.foldl collect g).watermark = g.watermark := by
  induction ws generalizing g with
  | nil => rfl
  | cons w ws ih => rw [List.foldl_cons, ih, collect_watermark]

theorem find?_collectAll (ws : List Window) (g : Grouper s ν) (v : Window) :
    (ws.foldl collect g).buffers.find? v = if v ∈ ws then none else g.buffers.find? v := by
  induction ws generalizing g with
  | nil => simp
  | cons w ws ih =>
    rw [List.foldl_cons, ih, find?_collect]
    by_cases hv : v ∈ ws
    · simp [hv]
    · by_cases hw : w = v
      · simp [hw]
      · simp [hv, hw, Ne.symm hw]

theorem live_collectAll (g : Grouper s ν) : (g.expired.foldl collect g).Live := by
  intro w b hb hdue
  rw [find?_collectAll] at hb
  split at hb
  · cases hb
  · rename_i hn
    apply hn
    rw [mem_expired]
    refine ⟨⟨b, hb⟩, ?_⟩
    simpa only [Due, collectAll_watermark] using hdue

end Grouper

end EventTime
