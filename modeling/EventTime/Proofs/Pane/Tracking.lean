import EventTime.Proofs.Pane.Ledger
import EventTime.Proofs.Pane.Watermark
import EventTime.Proofs.Trigger.Events
import EventTime.Proofs.Window.Plan

/-!
# Tracking every listing

In the middle of a grouping every window is unknown, live or closed. A live window holds the values
of the listings that wait in it, its trigger is open, and a value that waits has every waiting leaf
armed; in a closed window nothing waits, and its trigger has finished. A ledger tracks a grouping if
it tells where each listing is. While one window is worked on, the ledger tracks all others.
-/

namespace EventTime

variable {ν : Type} {s : Strategy}

/-- A buffer holds the values that wait, and beside them only values that a pane has shown. -/
structure Buffer.Holds (b : Buffer ν) (mode : AccumulationMode) (panes : List (Pane ν))
    (waiting : Multiset ν) : Prop where
  unfired : b.unfired = waiting.card
  values : mode = .discarding → (b.values : Multiset ν) = waiting
  shown : ∀ v ∈ b.values, v ∈ waiting ∨ ∃ pane ∈ panes, v ∈ pane.values

namespace Buffer.Holds

variable {b old : Buffer ν} {mode : AccumulationMode} {panes : List (Pane ν)} {xs ys : Multiset ν}

theorem empty : ({} : Buffer ν).Holds mode panes 0 := ⟨rfl, fun _ => rfl, nofun⟩

theorem push (h : b.Holds mode panes xs) (v : ν) : (b.push v).Holds mode panes (xs + {v}) where
  unfired := by simp [Buffer.push, h.unfired]
  values hm := by simp [Buffer.push, ← h.values hm, ← Multiset.coe_add]
  shown u hu := by
    rcases List.mem_append.mp hu with hu | hu
    · exact (h.shown u hu).imp_left fun hx => Multiset.mem_add.mpr (.inl hx)
    · exact .inl (Multiset.mem_add.mpr (.inr (by simpa using hu)))

theorem absorb (h : b.Holds mode panes xs) (hold : old.Holds mode panes ys) :
    (b.absorb old).Holds mode panes (xs + ys) where
  unfired := by simp [Buffer.absorb, h.unfired, hold.unfired]
  values hm := by simp [Buffer.absorb, ← h.values hm, ← hold.values hm]
  shown u hu := by
    rcases List.mem_append.mp hu with hu | hu
    · exact (h.shown u hu).imp_left fun hx => Multiset.mem_add.mpr (.inl hx)
    · exact (hold.shown u hu).imp_left fun hx => Multiset.mem_add.mpr (.inr hx)

theorem mono (h : b.Holds mode panes xs) (more : List (Pane ν)) :
    b.Holds mode (panes ++ more) xs :=
  ⟨h.unfired, h.values, fun v hv => (h.shown v hv).imp_right fun ⟨pane, hp, hvp⟩ =>
    ⟨pane, List.mem_append_left _ hp, hvp⟩⟩

theorem fired (timing : PaneTiming) {pane : Pane ν} (hpane : pane.values = b.values) :
    (b.fired mode timing).Holds mode (panes ++ [pane]) 0 where
  unfired := rfl
  values hm := by
    subst hm
    rfl
  shown v hv := by
    refine .inr ⟨pane, by simp, hpane ▸ ?_⟩
    cases mode with
    | discarding => cases hv
    | accumulating => exact hv

theorem eq_zero (h : b.Holds mode panes xs) (hb : b.unfired = 0) : xs = 0 :=
  Multiset.card_eq_zero.mp (h.unfired.symm.trans hb)

end Buffer.Holds

/-- The buffer and the trigger state of a window in which some values wait. -/
inductive Standing (s : Strategy) (panes : List (Pane ν)) (w : Window) (waiting : Multiset ν) :
    Option (Buffer ν) → Option s.trigger.State → Prop
  | gone : waiting = 0 → Standing s panes w waiting none none
  | live {b : Buffer ν} {state : Option s.trigger.State} : b.closed = false →
      b.Holds s.mode panes waiting → s.trigger.Open (state.getD s.trigger.fresh) →
      (0 < b.unfired → s.trigger.Armed w.maxTimestamp (state.getD s.trigger.fresh).memory) →
      Standing s panes w waiting (some b) state
  | closed {b : Buffer ν} {state : s.trigger.State} : waiting = 0 → b.closed = true →
      state.finished = true → ¬s.trigger.Endless → Standing s panes w waiting (some b) (some state)

theorem Standing.mono {panes : List (Pane ν)} {w : Window} {waiting : Multiset ν}
    {b : Option (Buffer ν)} {state : Option s.trigger.State}
    (h : Standing s panes w waiting b state) (more : List (Pane ν)) :
    Standing s (panes ++ more) w waiting b state := by
  cases h with
  | gone h => exact .gone h
  | live hopen hholds hstate harmed => exact .live hopen (hholds.mono more) hstate harmed
  | closed h hclosed hfinished hend => exact .closed h hclosed hfinished hend

theorem Standing.of_none {panes : List (Pane ν)} {w : Window} {waiting : Multiset ν}
    {state : Option s.trigger.State} (h : Standing s panes w waiting none state) :
    waiting = 0 ∧ state = none := by
  cases h with
  | gone h => exact ⟨h, rfl⟩

theorem Standing.of_open {panes : List (Pane ν)} {w : Window} {waiting : Multiset ν} {b : Buffer ν}
    {state : Option s.trigger.State} (h : Standing s panes w waiting (some b) state)
    (hopen : b.closed = false) :
    b.Holds s.mode panes waiting ∧ s.trigger.Open (state.getD s.trigger.fresh) ∧
      (0 < b.unfired → s.trigger.Armed w.maxTimestamp (state.getD s.trigger.fresh).memory) := by
  cases h with
  | live _ hholds hstate harmed => exact ⟨hholds, hstate, harmed⟩
  | closed _ hclosed => simp [hopen] at hclosed

theorem Standing.of_closed {panes : List (Pane ν)} {w : Window} {waiting : Multiset ν}
    {b : Buffer ν} {state : Option s.trigger.State}
    (h : Standing s panes w waiting (some b) state) (hclosed : b.closed = true) :
    (state.getD s.trigger.fresh).finished = true ∧ ¬s.trigger.Endless := by
  cases h with
  | live hopen => simp [hclosed] at hopen
  | closed _ _ hfinished hend => exact ⟨hfinished, hend⟩

/-- A listing is past the last time at which its window can fire. When an element is taken, a
watermark that follows the elements stands at its timestamp, and a held one passes no expiry. -/
def Listing.Late (s : Strategy) (input : InputWatermark) (x : Listing ν) : Prop :=
  input = .elementTime ∧ s.expiry x.window < x.timestamp

/-- What a fate says of a listing: the window where it waits or was shown covers the listed one, and
under an endless trigger only late listings are dropped. -/
def Fate.Fits (s : Strategy) (input : InputWatermark) (panes : List (Pane ν)) (x : Listing ν) :
    Fate → Prop
  | .waiting w => w.Covers x.window
  | .shown k => ∃ pane, panes[k]? = some pane ∧ pane.window.Covers x.window
  | .dropped => s.trigger.Endless → x.Late s input

theorem Fate.Fits.mono {input : InputWatermark} {panes : List (Pane ν)} {x : Listing ν} {f : Fate}
    (h : f.Fits s input panes x) (more : List (Pane ν)) : f.Fits s input (panes ++ more) x := by
  cases f with
  | waiting w => exact h
  | shown k =>
    obtain ⟨pane, hpane, hcovers⟩ := h
    obtain ⟨hk, -⟩ := List.getElem?_eq_some_iff.mp hpane
    exact ⟨pane, by rwa [List.getElem?_append_left hk], hcovers⟩
  | dropped => exact h

namespace Grouper

/-- A ledger tells where the listings are, but for those in the window that is worked on. -/
structure Tracks (g : Grouper s ν) (input : InputWatermark) (l : Ledger ν) (busy : Option Window) :
    Prop where
  standing : ∀ v, busy ≠ some v →
    Standing s g.panes v (l.valuesOf (.waiting v)) (g.buffers.find? v) (g.state.find? v)
  shown : s.mode = .discarding → ∀ k,
    l.valuesOf (.shown k) = (g.panes[k]?).elim 0 fun pane => (pane.values : Multiset ν)
  fits : ∀ p ∈ l, p.2.Fits s input g.panes p.1

variable {g g' : Grouper s ν} {input : InputWatermark} {l : Ledger ν} {w : Window}

theorem Tracks.of_not_has (h : g.Tracks input l none) (hw : ¬g.Has w) :
    l.valuesOf (.waiting w) = 0 ∧ g.state.find? w = none := by
  have hstands := h.standing w nofun
  cases hb : g.buffers.find? w with
  | some b => exact absurd ⟨b, hb⟩ hw
  | none => exact (hb ▸ hstands).of_none

theorem Tracks.standing_some (h : g.Tracks input l none) {b : Buffer ν}
    (hb : g.buffers.find? w = some b) :
    Standing s g.panes w (l.valuesOf (.waiting w)) (some b) (g.state.find? w) :=
  hb ▸ h.standing w nofun

theorem Tracks.leave (h : g.Tracks input l none) (w : Window) : g.Tracks input l (some w) :=
  ⟨fun v _ => h.standing v nofun, h.shown, h.fits⟩

theorem Tracks.back (h : g.Tracks input l (some w))
    (hw : Standing s g.panes w (l.valuesOf (.waiting w)) (g.buffers.find? w) (g.state.find? w)) :
    g.Tracks input l none := by
  refine ⟨fun v _ => ?_, h.shown, h.fits⟩
  by_cases hv : w = v
  · exact hv ▸ hw
  · exact h.standing v (by simpa using hv)

theorem Tracks.elsewhere (h : g.Tracks input l (some w)) (hpanes : g'.panes = g.panes)
    (hothers : ∀ v, w ≠ v → g'.buffers.find? v = g.buffers.find? v ∧
      g'.state.find? v = g.state.find? v) : g'.Tracks input l (some w) := by
  refine ⟨fun v hv => ?_, hpanes ▸ h.shown, hpanes ▸ h.fits⟩
  obtain ⟨hb, hs⟩ := hothers v (by simpa using hv)
  rw [hpanes, hb, hs]
  exact h.standing v hv

theorem Tracks.emit_unfired (h : g.Tracks input l (some w)) {b : Buffer ν} {isLast : Bool}
    (hb : g.buffers.find? w = some b) (hholds : b.Holds s.mode g.panes (l.valuesOf (.waiting w)))
    (hu : b.unfired ≠ 0) :
    (g.emit w isLast).Tracks input (l.move [.waiting w] (.shown g.panes.length)) (some w) := by
  have hpanes : (g.emit w isLast).panes = g.panes ++ [⟨w, ⟨b.panesFired, b.panesFired == 0, isLast,
      g.timing w b.onTimeFired⟩, b.values⟩] := by rw [emit_of_unfired hb hu]
  refine ⟨fun v hv => ?_, fun hm k => ?_, ?_⟩
  · have hne : w ≠ v := by simpa using hv
    have hwaiting : (l.move [.waiting w] (.shown g.panes.length)).valuesOf (.waiting v) =
        l.valuesOf (.waiting v) := Ledger.valuesOf_move_of_ne (by simpa using Ne.symm hne) nofun
    rw [find?_emit_of_ne hne, emit_state, hpanes, hwaiting]
    exact (h.standing v hv).mono _
  · rw [hpanes]
    -- the listings that waited go to the new pane, whose number no listing has had
    rcases Nat.lt_trichotomy k g.panes.length with hk | rfl | hk
    · have hne : Fate.shown k ≠ .shown g.panes.length := by simpa using Nat.ne_of_lt hk
      rw [Ledger.valuesOf_move_of_ne (by simp) hne, h.shown hm, List.getElem?_append_left hk]
    · rw [Ledger.valuesOf_move_new (by simp) fun _ => by rw [h.shown hm]; simp]
      simp [hholds.values hm]
    · have hne : Fate.shown k ≠ .shown g.panes.length := by simpa using Nat.ne_of_gt hk
      rw [Ledger.valuesOf_move_of_ne (by simp) hne, h.shown hm,
        List.getElem?_eq_none (Nat.le_of_lt hk), List.getElem?_eq_none (by simp; omega)]
  · rw [hpanes]
    refine Ledger.forall_move (P := fun x f => f.Fits s input (g.panes ++ _) x)
      (fun p hp => (h.fits p hp).mono _) fun p hp hmem => ?_
    have hfits := h.fits p hp
    rw [List.mem_singleton.mp hmem] at hfits
    exact ⟨_, List.getElem?_concat_length, hfits⟩

/-- After an emission nothing waits in the window. -/
theorem Tracks.emit (h : g.Tracks input l (some w)) {b : Buffer ν} (isLast : Bool)
    (hb : g.buffers.find? w = some b)
    (hholds : b.Holds s.mode g.panes (l.valuesOf (.waiting w))) :
    ∃ l' b', (g.emit w isLast).Tracks input l' (some w) ∧ l'.map Prod.fst = l.map Prod.fst ∧
      l'.valuesOf (.waiting w) = 0 ∧ (g.emit w isLast).buffers.find? w = some b' ∧
      b'.closed = b.closed ∧ b'.Holds s.mode (g.emit w isLast).panes 0 := by
  by_cases hu : b.unfired = 0
  · have hzero := hholds.eq_zero hu
    rw [emit_of_all_fired hb hu]
    exact ⟨l, b, h, rfl, hzero, hb, rfl, hzero ▸ hholds⟩
  · refine ⟨_, _, h.emit_unfired hb hholds hu, Ledger.map_fst_move,
      Ledger.valuesOf_move_of_mem (by simp) nofun, find?_emit_self hb hu, rfl, ?_⟩
    rw [emit_of_unfired hb hu]
    exact .fired _ rfl

theorem Tracks.close (h : g.Tracks input l (some w)) : (g.close w).Tracks input l (some w) :=
  h.elsewhere rfl fun v hv => ⟨by rw [find?_close, if_neg hv], rfl⟩

/-- A window whose trigger has answered an element, a timer or a merge stands again once the answer
has been acted on. -/
theorem Tracks.act (h : g.Tracks input l (some w)) {b : Buffer ν} {state : s.trigger.State}
    {o : Outcome} (hb : g.buffers.find? w = some b) (hopen : b.closed = false)
    (hholds : b.Holds s.mode g.panes (l.valuesOf (.waiting w)))
    (hstate : g.state.find? w = some state)
    (hleaves : s.trigger.Leaves w.maxTimestamp state o.fires o.finishes)
    (hend : s.trigger.Endless → o.finishes = false) :
    ∃ l', (g.act w o).Tracks input l' none ∧ l'.map Prod.fst = l.map Prod.fst := by
  cases o with
  | idle =>
    refine ⟨l, h.back ?_, rfl⟩
    rw [hb, hstate]
    exact .live hopen hholds (hleaves.isOpen rfl) fun _ => hleaves.armed rfl
  | fire =>
    obtain ⟨l', b', h', hfst, hzero, hb', hclosed, hholds'⟩ := h.emit false hb hholds
    refine ⟨l', h'.back ?_, hfst⟩
    rw [emit_state, hb', hstate, hzero]
    refine .live (hclosed.trans hopen) hholds' (hleaves.isOpen rfl) fun hpos => ?_
    rw [hholds'.unfired] at hpos
    cases hpos
  | fireAndFinish =>
    obtain ⟨l', b', h', hfst, hzero, hb', hclosed, hholds'⟩ := h.emit true hb hholds
    refine ⟨l', h'.close.back ?_, hfst⟩
    rw [find?_close, if_pos rfl, hb']
    show Standing _ _ _ _ _ ((g.emit w true).state.find? w)
    rw [emit_state, hstate]
    exact .closed hzero rfl hleaves.finished fun he => Bool.noConfusion (hend he)

/-! ### Opening and collecting -/

theorem Tracks.opened (h : g.Tracks input l none) (w : Window) :
    (g.opened w).Tracks input l none := by
  have hpanes : (g.opened w).panes = g.panes := by
    unfold Grouper.opened
    split <;> rfl
  refine ((h.leave w).elsewhere hpanes fun v hv => ⟨?_, by rw [opened_state]⟩).back ?_
  · rw [find?_opened, if_neg hv]
  · have hw := h.standing w nofun
    rw [hpanes, find?_opened, if_pos rfl, opened_state]
    cases hb : g.buffers.find? w with
    | some b => rwa [hb] at hw
    | none =>
      obtain ⟨hzero, hstate⟩ := (hb ▸ hw).of_none
      rw [hzero, hstate]
      exact .live rfl .empty (TriggerState.open_fresh _) nofun

theorem Tracks.forget (h : g.Tracks input l (some w)) (hzero : l.valuesOf (.waiting w) = 0) :
    Tracks { g with buffers := g.buffers.erase w, state := g.state.erase w } input l none := by
  have hothers : Tracks { g with buffers := g.buffers.erase w, state := g.state.erase w } input l
      (some w) := h.elsewhere rfl fun v hv =>
    ⟨(WindowMap.find?_erase ..).trans (if_neg hv), (WindowMap.find?_erase ..).trans (if_neg hv)⟩
  refine hothers.back ?_
  have hstate : (g.state.erase w).find? w = none := (WindowMap.find?_erase ..).trans (if_pos rfl)
  rw [WindowMap.find?_erase, if_pos rfl, hstate]
  exact .gone hzero

theorem Tracks.collect (h : g.Tracks input l none) (w : Window) :
    ∃ l', (g.collect w).Tracks input l' none ∧ l'.map Prod.fst = l.map Prod.fst := by
  have hw := h.standing w nofun
  unfold Grouper.collect
  by_cases hpending : (g.buffers.find? w).any Buffer.pending = true
  · rw [if_pos hpending]
    cases hb : g.buffers.find? w with
    | none => simp [hb] at hpending
    | some b =>
      have hopen : b.closed = false := by
        simp only [hb, Option.any_some, Buffer.pending, Bool.and_eq_true,
          Bool.not_eq_true'] at hpending
        exact hpending.1
      have hholds := ((h.standing_some hb).of_open hopen).1
      obtain ⟨l', b', h', hfst, hzero, -⟩ := (h.leave w).emit true hb hholds
      exact ⟨l', h'.forget hzero, hfst⟩
  · rw [if_neg hpending]
    refine ⟨l, (h.leave w).forget ?_, rfl⟩
    generalize hb : g.buffers.find? w = b at hw hpending
    generalize g.state.find? w = state at hw
    cases hw with
    | gone hzero => exact hzero
    | closed hzero => exact hzero
    | live hopen hholds =>
      exact hholds.eq_zero (by simpa [Buffer.pending, hopen] using hpending)

theorem Tracks.collectAll (h : g.Tracks input l none) (ws : List Window) :
    ∃ l', (ws.foldl Grouper.collect g).Tracks input l' none ∧ l'.map Prod.fst = l.map Prod.fst := by
  induction ws generalizing g l with
  | nil => exact ⟨l, h, rfl⟩
  | cons w rest ih =>
    obtain ⟨l₁, h₁, hfst₁⟩ := h.collect w
    obtain ⟨l₂, h₂, hfst₂⟩ := ih h₁
    exact ⟨l₂, h₂, hfst₂.trans hfst₁⟩

end Grouper

end EventTime
