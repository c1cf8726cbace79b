import EventTime.Proofs.Pane.Audit
import EventTime.Proofs.Pane.Merges
import EventTime.Proofs.Window.SafePlan

/-!
# What the end of the input flushes

As long as a listing sits in a window, a pane has shown its value or the window's open buffer holds
it among elements that no pane has shown. Emitting, closing after an emission, collecting and
merging all keep that, whatever the trigger answers. So once the last move of the watermark has
collected every window, every listing that was kept has been shown. The move does collect every
window, unless the watermark stands at the end of time before the input has ended and a window is
opened there.
-/

namespace EventTime

variable {ν : Type} {s : Strategy}

namespace Grouper

variable {g g' : Grouper s ν} {w : Option Window} {u : Window} {v : ν}

/-- Some pane has shown a value. -/
def Shown (g : Grouper s ν) (v : ν) : Prop := ∃ pane ∈ g.panes, v ∈ pane.values

/-- A value has been shown, or the open buffer of the window where it is kept still owes a pane for
it. A value that is kept nowhere has been shown. -/
def Retains (g : Grouper s ν) (w : Option Window) (v : ν) : Prop :=
  g.Shown v ∨ ∃ x b, w = some x ∧ g.buffers.find? x = some b ∧ b.closed = false ∧
    0 < b.unfired ∧ v ∈ b.values

theorem Retains.shown (h : g.Retains w v) (hw : ∀ x, w = some x → ¬g.Has x) : g.Shown v :=
  h.resolve_right fun ⟨x, b, hx, hb, _⟩ => hw x hx ⟨b, hb⟩

theorem Shown.emit (h : g.Shown v) (u : Window) (isLast : Bool) : (g.emit u isLast).Shown v := by
  obtain ⟨pane, hpane, hv⟩ := h
  rcases emit_cases g u isLast with he | ⟨b, hb, hu⟩
  · rw [he]
    exact ⟨pane, hpane, hv⟩
  · rw [emit_of_unfired hb hu]
    exact ⟨pane, List.mem_append_left _ hpane, hv⟩

theorem Retains.emit_self (h : g.Retains (some u) v) (isLast : Bool) :
    (g.emit u isLast).Shown v := by
  rcases h with h | ⟨_, b, ⟨⟩, hb, -, hu, hv⟩
  · exact h.emit u isLast
  · rw [emit_of_unfired hb (by omega)]
    exact ⟨_, List.mem_append_right _ (List.mem_singleton_self _), hv⟩

theorem Retains.emit (h : g.Retains w v) (u : Window) (isLast : Bool) :
    (g.emit u isLast).Retains w v := by
  by_cases hw : w = some u
  · subst hw
    exact .inl (h.emit_self isLast)
  · rcases h with h | ⟨x, b, rfl, hb, hopen⟩
    · exact .inl (h.emit u isLast)
    · have hne : u ≠ x := fun e => hw (e ▸ rfl)
      exact .inr ⟨x, b, rfl, (find?_emit_of_ne hne).trans hb, hopen⟩

theorem Retains.close_of_ne (h : g.Retains w v) (hne : w ≠ some u) : (g.close u).Retains w v := by
  rcases h with h | ⟨x, b, rfl, hb, hopen⟩
  · exact .inl h
  · have hux : u ≠ x := fun e => hne (e ▸ rfl)
    exact .inr ⟨x, b, rfl, by rw [find?_close, if_neg hux, hb], hopen⟩

theorem Retains.act (h : g.Retains w v) (u : Window) (o : Outcome) : (g.act u o).Retains w v := by
  cases o with
  | idle => exact h
  | fire => exact h.emit u false
  | fireAndFinish =>
    by_cases hw : w = some u
    · subst hw
      exact .inl (h.emit_self true)
    · exact (h.emit u true).close_of_ne hw

theorem Retains.settle (h : g.Retains w v)
    {answer : Except Fault Outcome × TriggerState s.trigger}
    (heq : g.settle u answer = .ok g') : g'.Retains w v := by
  obtain ⟨o, -, rfl⟩ := ok_of_map heq
  exact Retains.act (g := { g with state := answer.2 }) h u o

theorem Retains.deliverTimer (h : g.Retains w v) {a : Timer} (heq : g.deliverTimer a = .ok g') :
    g'.Retains w v := by
  rcases deliverTimer_ok heq with rfl | ⟨-, heq⟩
  · exact h
  · exact h.settle heq

theorem Retains.collect (h : g.Retains w v) (u : Window) : (g.collect u).Retains w v := by
  unfold Grouper.collect
  by_cases hw : w = some u
  · subst hw
    refine .inl ?_
    split
    · exact h.emit_self true
    · rename_i hpending
      refine h.resolve_right fun ⟨_, b, hx, hb, hopen, hu, _⟩ => hpending ?_
      obtain rfl := Option.some.inj hx
      simp [hb, Buffer.pending, hopen, hu]
  · have hkept : (if (g.buffers.find? u).any Buffer.pending then g.emit u true else g).Retains
        w v := by
      split
      · exact h.emit u true
      · exact h
    rcases hkept with h | ⟨x, b, rfl, hb, hopen⟩
    · exact .inl h
    · have hne : u ≠ x := fun e => hw (e ▸ rfl)
      exact .inr ⟨x, b, rfl, (WindowMap.find?_erase ..).trans ((if_neg hne).trans hb), hopen⟩

theorem Retains.collectAll (h : g.Retains w v) (ws : List Window) :
    (ws.foldl Grouper.collect g).Retains w v := by
  induction ws generalizing g with
  | nil => exact h
  | cons u rest ih => exact ih (h.collect u)

theorem Retains.advance (h : g.Retains w v) {target : Int} (heq : g.advance target = .ok g') :
    g'.Retains w v := by
  rcases advance_cases heq with ⟨-, rfl⟩ | ⟨-, g₁, hdrain, rfl⟩
  · exact h
  · have hdrained : g₁.Retains w v :=
      drain_preserves (P := fun g : Grouper s ν => g.Retains w v)
        (fun g a _ hg hone =>
          Retains.deliverTimer (g := { g with state := g.state.cancel a }) hg hone) hdrain h
    exact hdrained.collectAll _

theorem Retains.opened (h : g.Retains w v) (u : Window) : (g.opened u).Retains w v := by
  rcases h with ⟨pane, hpane, hv⟩ | ⟨x, b, rfl, hb, hopen⟩
  · exact .inl ⟨pane, (opened_panes g u).symm ▸ hpane, hv⟩
  · refine .inr ⟨x, b, rfl, ?_, hopen⟩
    rw [find?_opened, hb]
    split <;> rfl

theorem closed_getD (b : Option (Buffer ν)) : (b.getD {}).closed = b.any (·.closed) := by
  cases b <;> rfl

theorem deliver_closed {timestamp : Int} {x : ν}
    (h : (g.buffers.find? u).any (·.closed) = true) : g.deliver u timestamp x = .ok g := by
  simp only [Grouper.deliver, closed_getD, h, if_true]

theorem deliver_open {timestamp : Int} {x : ν} (h : (g.buffers.find? u).any (·.closed) = false) :
    g.deliver u timestamp x =
      { g with buffers := g.buffers.insert u (((g.buffers.find? u).getD {}).push x) }.settle u
        (g.state.element ⟨u, timestamp⟩) := by
  simp only [Grouper.deliver, closed_getD, h, Bool.false_eq_true, if_false]

theorem Retains.deliver (h : g.Retains w v) {timestamp : Int} {x : ν}
    (heq : g.deliver u timestamp x = .ok g') : g'.Retains w v := by
  cases hc : (g.buffers.find? u).any (·.closed) with
  | true => exact Except.ok.inj ((deliver_closed hc).symm.trans heq) ▸ h
  | false =>
    rw [deliver_open hc] at heq
    refine Retains.settle ?_ heq
    rcases h with h | ⟨y, b, rfl, hb, hopen, hu, hv⟩
    · exact .inl h
    · by_cases hy : u = y
      · subst hy
        refine .inr ⟨u, b.push x, rfl, ?_, hopen, Nat.succ_pos _, List.mem_append_left _ hv⟩
        rw [hb]
        exact WindowMap.find?_insert_self ..
      · exact .inr ⟨y, b, rfl, (WindowMap.find?_insert_of_ne hy ..).trans hb, hopen, hu,
          hv⟩

theorem retains_delivered {timestamp : Int} (hc : (g.buffers.find? u).any (·.closed) = false)
    (heq : g.deliver u timestamp v = .ok g') : g'.Retains (some u) v := by
  rw [deliver_open hc] at heq
  refine Retains.settle (.inr ⟨u, ((g.buffers.find? u).getD {}).push v, rfl, ?_, ?_⟩) heq
  · exact WindowMap.find?_insert_self ..
  · exact ⟨(closed_getD _).trans hc, Nat.succ_pos _,
      List.mem_append_right _ (List.mem_singleton_self v)⟩

/-! ### Merges -/

theorem absorbAll_start (bs : List (Buffer ν)) (start : Buffer ν) :
    start.unfired ≤ (bs.foldl Buffer.absorb start).unfired ∧
      ∀ v ∈ start.values, v ∈ (bs.foldl Buffer.absorb start).values := by
  induction bs generalizing start with
  | nil => exact ⟨Nat.le_refl _, fun _ hv => hv⟩
  | cons b rest ih =>
    obtain ⟨hunfired, hvalues⟩ := ih (start.absorb b)
    exact ⟨Nat.le_trans (Nat.le_add_right _ _) hunfired, fun v hv =>
      hvalues v (List.mem_append_left _ hv)⟩

theorem absorbAll_of_mem {bs : List (Buffer ν)} {b : Buffer ν} (hb : b ∈ bs) (start : Buffer ν) :
    b.unfired ≤ (bs.foldl Buffer.absorb start).unfired ∧
      ∀ v ∈ b.values, v ∈ (bs.foldl Buffer.absorb start).values := by
  induction bs generalizing start with
  | nil => cases hb
  | cons c rest ih =>
    rcases List.mem_cons.mp hb with rfl | hb
    · obtain ⟨hunfired, hvalues⟩ := absorbAll_start rest (start.absorb b)
      exact ⟨Nat.le_trans (Nat.le_add_left _ _) hunfired, fun v hv =>
        hvalues v (List.mem_append_right _ hv)⟩
    · exact ih hb (start.absorb c)

theorem Retains.moved_of_mem (h : g.Retains (some u) v) {m : Merge} (hu : u ∈ m.olds)
    (buffers : WindowMap (Buffer ν)) (state : TriggerState s.trigger) :
    (g.moved m buffers state).Retains (some m.into) v := by
  rcases h with h | ⟨_, b, ⟨⟩, hb, -, hpos, hv⟩
  · exact .inl h
  · obtain ⟨hunfired, hvalues⟩ :=
      absorbAll_of_mem (List.mem_filterMap.mpr ⟨u, hu, hb⟩) ({} : Buffer ν)
    exact .inr ⟨m.into, g.absorbed m.olds, rfl, find?_moved_into .., closed_absorbAll ..,
      Nat.lt_of_lt_of_le hpos hunfired, hvalues v hv⟩

theorem Retains.moved_of_not_mem (h : g.Retains w v) {m : Merge}
    (hinto : g.Has m.into → m.into ∈ m.olds) (hw : ∀ x ∈ m.olds, w ≠ some x)
    {buffers : WindowMap (Buffer ν)}
    (hbuffers : ∀ x, buffers.find? x = if x ∈ m.olds then none else g.buffers.find? x)
    (state : TriggerState s.trigger) : g.Shown v ∨ w ≠ some m.into ∧
      (g.moved m buffers state).Retains w v := by
  rcases h with h | ⟨x, b, rfl, hb, hopen⟩
  · exact .inl h
  · have hx : x ∉ m.olds := fun hx => hw x hx rfl
    have hne : m.into ≠ x := fun e => hx (e ▸ hinto ⟨b, e ▸ hb⟩)
    refine .inr ⟨fun e => hne (Option.some.inj e).symm, .inr ⟨x, b, rfl, ?_, hopen⟩⟩
    rw [find?_moved_of_ne hne, hbuffers, if_neg hx, hb]

theorem Shown.actOnMerge (h : g.Shown v) (u : Window) (o : MergeOutcome) :
    (g.actOnMerge u o).Shown v := by
  cases o with
  | idle => exact h
  | fire => exact h.emit u false
  | fireAndFinish => exact h.emit u true
  | alreadyFinished => exact h

theorem Retains.actOnMerge_of_ne (h : g.Retains w v) (hne : w ≠ some u) (o : MergeOutcome) :
    (g.actOnMerge u o).Retains w v := by
  cases o with
  | idle => exact h
  | fire => exact h.emit u false
  | fireAndFinish => exact (h.emit u true).close_of_ne hne
  | alreadyFinished => exact h.close_of_ne hne

/-- A merge is its answer acted on where the new window has taken over the buffers. -/
theorem mergeOne_ok {m : Merge} (hnodup : m.olds.Nodup) (heq : g.mergeOne m = .ok g') :
    ∃ o buffers, (g.state.merge m).1 = .ok o ∧
      (∀ x, buffers.find? x = if x ∈ m.olds then none else g.buffers.find? x) ∧
      g' = (g.moved m buffers (g.state.merge m).2).actOnMerge m.into o := by
  obtain ⟨o, hmerge, -⟩ := ok_of_map (x := (g.state.merge m).1) heq
  obtain ⟨buffers, hbuffers, hone⟩ := mergeOne_eq hnodup (Prod.ext hmerge rfl)
  exact ⟨o, buffers, hmerge, hbuffers, Except.ok.inj (heq.symm.trans hone)⟩

/-- After a merge a value of an old window is kept in the new one, unless the trigger answers that
it had finished in one of the old windows. -/
theorem Retains.mergeOne_of_mem (h : g.Retains (some u) v) {m : Merge} (hnodup : m.olds.Nodup)
    (hu : u ∈ m.olds) (hfinished : (g.state.merge m).1 ≠ .ok .alreadyFinished)
    (heq : g.mergeOne m = .ok g') : g'.Retains (some m.into) v := by
  obtain ⟨o, buffers, hmerge, -, rfl⟩ := mergeOne_ok hnodup heq
  obtain ⟨o', hact, -⟩ := (g.moved m buffers (g.state.merge m).2).actOnMerge_eq m.into
    fun e => hfinished (e ▸ hmerge)
  exact hact ▸ (h.moved_of_mem hu buffers _).act m.into o'

/-- A merge that overwrites no live window leaves the values of all other windows where they are. -/
theorem Retains.mergeOne_of_not_mem (h : g.Retains w v) {m : Merge} (hnodup : m.olds.Nodup)
    (hinto : g.Has m.into → m.into ∈ m.olds) (hw : ∀ x ∈ m.olds, w ≠ some x)
    (heq : g.mergeOne m = .ok g') : g'.Retains w v := by
  obtain ⟨o, buffers, -, hbuffers, rfl⟩ := mergeOne_ok hnodup heq
  rcases h.moved_of_not_mem hinto hw hbuffers (g.state.merge m).2 with h | ⟨hne, h⟩
  · exact .inl (Shown.actOnMerge (g := g.moved m buffers (g.state.merge m).2) h m.into o)
  · exact h.actOnMerge_of_ne hne o

theorem has_mergeOne {m : Merge} (hnodup : m.olds.Nodup) (heq : g.mergeOne m = .ok g')
    (x : Window) : g'.Has x ↔ m.leaves g.Has x := by
  obtain ⟨o, buffers, -, hbuffers, rfl⟩ := mergeOne_ok hnodup heq
  exact has_actOnMerge.trans (has_moved hbuffers x)

end Grouper

end EventTime
