import EventTime.Proofs.Pane.Flush
import EventTime.Proofs.Pane.Recall
import EventTime.Proofs.Splits

/-!
# Entries that fit a grouping

Entries fit a grouping if they tell of its panes, each of which was coherent when it was fired, and
if the buffers remember the present era. While no merge is being performed a live window has been
merged into no other live one, for no two of them overlap. Whatever its open buffer fires then
continues its lineage, so what the trigger answers to an element or to a timer keeps the entries
fitting. Merging keeps them fitting where the merges clear all overlap away.
-/

namespace EventTime

variable {ν : Type} {s : Strategy}

/-- The pane that an entry tells of. -/
def Entry.pane? : Entry ν → Option (Pane ν)
  | .fired pane _ => some pane
  | _ => none

theorem era_append {es new : List (Entry ν)} (h : ∀ e ∈ new, e.endsEra s = false) :
    era s (es ++ new) = era s es ++ new := by
  induction new using List.reverseRecOn with
  | nil => rw [List.append_nil, List.append_nil]
  | append_singleton front e ih =>
    rw [← List.append_assoc, era_concat, h e (by simp), if_neg Bool.false_ne_true,
      ih fun d hd => h d (List.mem_append_left _ hd), List.append_assoc]

def firings (panes : List (Pane ν)) (watermark : Int) : List (Entry ν) :=
  panes.map (.fired · watermark)

theorem era_firings (es : List (Entry ν)) (panes : List (Pane ν)) (watermark : Int) :
    era s (es ++ firings panes watermark) = era s es ++ firings panes watermark :=
  era_append fun e he => by
    obtain ⟨pane, -, rfl⟩ := List.mem_map.mp he
    rfl

namespace Grouper

variable {g g' g₁ : Grouper s ν} {es : List (Entry ν)} {u v w : Window} {b b' : Buffer ν}
  {new more : List (Pane ν)}

/-- The entries tell of the panes of a grouping, each of which was coherent when it was fired, and
the buffers remember the present era. -/
structure Logged (g : Grouper s ν) (es : List (Entry ν)) : Prop where
  panes : es.filterMap Entry.pane? = g.panes
  recorded : g.Recorded (era s es)
  coherent : ∀ front e back, es = front ++ e :: back → ∀ pane watermark,
    e = .fired pane watermark → Coherent (era s front) pane watermark

/-- No merge is being performed: windows never merge, or no two live ones overlap. -/
structure Separated (g : Grouper s ν) (es : List (Entry ν)) : Prop where
  unmerged : s.windowFn.nonMerging = true → ∀ m, Entry.merged m ∉ era s es
  apart : s.windowFn.nonMerging = false → ∀ u v, g.Has u → g.Has v → u ≠ v →
    u.intersects v = false

/-- A live window has been merged into no other live one. -/
theorem Separated.alone (hs : g.Separated es) (h : g.Recorded (era s es)) (hu : g.Has u)
    (hv : g.Has v) (huv : MergedInto (era s es) u v) : v = u := by
  cases hfn : s.windowFn.nonMerging with
  | true => exact (huv.eq_of_unmerged (hs.unmerged hfn)).symm
  | false =>
    rcases huv.inside h.inside with rfl | ⟨-, hmeets⟩
    · rfl
    · by_contra hne
      rw [hs.apart hfn v u hv hu hne] at hmeets
      cases hmeets

/-- A grouping goes on to another one and fires some panes, but opens and loses no window. -/
structure Logs (g g' : Grouper s ν) (es : List (Entry ν)) (new : List (Pane ν)) : Prop where
  panes : g'.panes = g.panes ++ new
  watermark : g'.watermark = g.watermark
  has : ∀ v, g'.Has v ↔ g.Has v
  logged : g'.Logged (es ++ firings new g.watermark)

theorem Logged.rest (h : g.Logged es) : g.Logs g es [] where
  panes := (List.append_nil _).symm
  watermark := rfl
  has _ := Iff.rfl
  logged := by rwa [firings, List.map_nil, List.append_nil]

theorem Logs.trans (h : g.Logs g₁ es new)
    (h' : g₁.Logs g' (es ++ firings new g.watermark) more) : g.Logs g' es (new ++ more) where
  panes := by rw [h'.panes, h.panes, List.append_assoc]
  watermark := h'.watermark.trans h.watermark
  has v := (h'.has v).trans (h.has v)
  logged := by
    have hlogged := h'.logged
    rwa [h.watermark, List.append_assoc, firings, firings, ← List.map_append] at hlogged

theorem Separated.logs (hs : g.Separated es) (h : g.Logs g' es new) :
    g'.Separated (es ++ firings new g.watermark) where
  unmerged hfn m hm := by
    rw [era_firings, List.mem_append] at hm
    refine hs.unmerged hfn m (hm.resolve_right fun hm => ?_)
    obtain ⟨pane, -, heq⟩ := List.mem_map.mp hm
    cases heq
  apart hfn u v hu hv := hs.apart hfn u v ((h.has u).mp hu) ((h.has v).mp hv)

theorem Live.logs (hl : g.Live) (h : g.Logs g' es new) : g'.Live := by
  intro v c hc
  obtain ⟨d, hd⟩ := (h.has v).mp ⟨c, hc⟩
  rw [due_congr h.watermark]
  exact hl v d hd

theorem Logged.update (h : g.Logged es) (hb : g.buffers.find? w = some b)
    (hfind : ∀ v, g'.buffers.find? v = if w = v then some b' else g.buffers.find? v)
    (hcount : b'.panesFired = b.panesFired) (htime : b'.onTimeFired = b.onTimeFired)
    (hclosed : b.closed = true → b'.closed = true) (hwatermark : g'.watermark = g.watermark)
    (hpanes : g'.panes = g.panes) : g'.Logged es :=
  ⟨h.panes.trans hpanes.symm, h.recorded.update hb hfind hcount htime hclosed hwatermark,
    h.coherent⟩

theorem Logged.withState (h : g.Logged es) (state : TriggerState s.trigger) :
    Logged { g with state } es :=
  ⟨h.panes, ⟨h.recorded.kept, h.recorded.known, h.recorded.vouched, h.recorded.inside⟩, h.coherent⟩

/-! ### Operations -/

theorem Logged.fire (h : g.Logged es) (hb : g.buffers.find? w = some b) (hopen : b.closed = false)
    (halone : ∀ v, g.Has v → MergedInto (era s es) w v → v = w) (isLast : Bool)
    (hfind : ∀ v, g'.buffers.find? v = if w = v then some b' else g.buffers.find? v)
    (hcount : b'.panesFired = b.panesFired + 1)
    (htime : b'.onTimeFired = (b.onTimeFired || g.timing w b.onTimeFired == .onTime))
    (hlast : isLast = true → b'.closed = true) (hwatermark : g'.watermark = g.watermark)
    (hpanes : g'.panes = g.panes ++ [⟨w, ⟨b.panesFired, b.panesFired == 0, isLast,
      g.timing w b.onTimeFired⟩, b.values⟩]) : ∃ new, g.Logs g' es new := by
  refine ⟨_, hpanes, hwatermark, fun v => ?_, ?_, ?_, forall_split_concat.mpr ⟨h.coherent, ?_⟩⟩
  · rw [Has, hfind, Has]
    split
    · rename_i hv
      simp [← hv, hb]
    · rfl
  · rw [hpanes, ← h.panes, List.filterMap_append]
    rfl
  · rw [era_firings]
    exact h.recorded.fire hb hopen halone rfl rfl hfind hcount htime hlast hwatermark _
  · rintro _ _ ⟨⟩
    exact coherent_of_recalls (h.recorded.recalls hb halone) (h.recorded.vouched w b hb) hopen
      isLast

theorem Logged.act (h : g.Logged es) (hb : g.buffers.find? w = some b) (hopen : b.closed = false)
    (halone : ∀ v, g.Has v → MergedInto (era s es) w v → v = w) (o : Outcome) :
    ∃ new, g.Logs (g.act w o) es new := by
  by_cases hu : b.unfired = 0
  · have hemit : ∀ isLast, g.emit w isLast = g := fun _ => emit_of_all_fired hb hu
    cases o with
    | idle => exact ⟨[], h.rest⟩
    | fire => exact ⟨[], by rw [act_fire, hemit]; exact h.rest⟩
    | fireAndFinish =>
      have hact : g.act w .fireAndFinish = g.close w := congrArg (close · w) (hemit true)
      have hfind : ∀ v, (g.close w).buffers.find? v =
          if w = v then some b.close else g.buffers.find? v := by
        intro v
        rw [find?_close]
        split
        · rename_i hv
          rw [← hv, hb, Option.map_some]
        · rfl
      have hclose : (g.close w).Logged es :=
        h.update hb hfind rfl rfl (fun _ => rfl) rfl rfl
      exact ⟨[], hact ▸ ⟨(List.append_nil _).symm, rfl, fun v => has_close, hclose.rest.logged⟩⟩
  · cases o with
    | idle => exact ⟨[], h.rest⟩
    | fire =>
      have hact : g.act w .fire = g.emit w false := rfl
      rw [hact, emit_of_unfired hb hu]
      exact h.fire hb hopen halone false (fun v => WindowMap.find?_insert ..) rfl rfl
        (fun hlast => absurd hlast Bool.false_ne_true) rfl rfl
    | fireAndFinish =>
      have hact : g.act w .fireAndFinish = (g.emit w true).close w := rfl
      have hfind : ∀ v, ((g.emit w true).close w).buffers.find? v =
          if w = v then some (b.fired s.mode (g.timing w b.onTimeFired)).close
          else g.buffers.find? v := by
        intro v
        rw [find?_close, emit_of_unfired hb hu, WindowMap.find?_insert]
        split <;> rfl
      rw [emit_of_unfired hb hu] at hact hfind
      rw [hact]
      exact h.fire hb hopen halone true hfind rfl rfl (fun _ => rfl) rfl rfl

theorem Logged.settle (h : g.Logged es) (hs : g.Separated es) (hb : g.buffers.find? w = some b)
    (hopen : b.closed = false) {answer : Except Fault Outcome × TriggerState s.trigger}
    (heq : g.settle w answer = .ok g') : ∃ new, g.Logs g' es new := by
  obtain ⟨o, -, rfl⟩ := ok_of_map heq
  obtain ⟨new, hlogs⟩ := (h.withState answer.2).act hb hopen
    (fun v hv hmerged => hs.alone h.recorded ⟨b, hb⟩ hv hmerged) o
  exact ⟨new, hlogs.panes, hlogs.watermark, hlogs.has, hlogs.logged⟩

theorem Logged.deliverTimer (h : g.Logged es) (hs : g.Separated es) {a : Timer}
    (heq : g.deliverTimer a = .ok g') : ∃ new, g.Logs g' es new := by
  rcases deliverTimer_ok heq with rfl | ⟨⟨b, hb, hopen⟩, heq⟩
  · exact ⟨[], h.rest⟩
  · exact h.settle hs hb hopen heq

theorem Logged.drain {fuel : Nat} (h : g.Logged es) (hs : g.Separated es)
    (heq : Grouper.drain fuel g = .ok g') : ∃ new, g.Logs g' es new := by
  refine drain_preserves (P := fun k => ∃ new, g.Logs k es new) ?_ heq ⟨[], h.rest⟩
  rintro k a k' ⟨new, hlogs⟩ hone
  have hk := hs.logs hlogs
  obtain ⟨more, hmore⟩ := (hlogs.logged.withState (k.state.cancel a)).deliverTimer
    ⟨hk.unmerged, hk.apart⟩ hone
  have hmore : k.Logs k' (es ++ firings new g.watermark) more :=
    ⟨hmore.panes, hmore.watermark, hmore.has, hmore.logged⟩
  exact ⟨new ++ more, hlogs.trans hmore⟩

theorem Logged.deliver (h : g.Logged es) (hs : g.Separated es) (hw : g.Has w) {timestamp : Int}
    {x : ν} (heq : g.deliver w timestamp x = .ok g') : ∃ new, g.Logs g' es new := by
  obtain ⟨b, hb⟩ := hw
  cases hc : b.closed with
  | true =>
    obtain rfl := Except.ok.inj ((deliver_closed (by simpa [hb] using hc)).symm.trans heq)
    exact ⟨[], h.rest⟩
  | false =>
    rw [deliver_open (by simpa [hb] using hc), hb, Option.getD_some] at heq
    have hfind : ∀ v, (g.buffers.insert w (b.push x)).find? v =
        if w = v then some (b.push x) else g.buffers.find? v := fun v => WindowMap.find?_insert ..
    have hhas : ∀ v, Has { g with buffers := g.buffers.insert w (b.push x) } v ↔ g.Has v := by
      intro v
      show (∃ c, (g.buffers.insert w (b.push x)).find? v = some c) ↔ _
      rw [hfind, Has]
      split
      · rename_i hv
        simp [← hv, hb]
      · rfl
    obtain ⟨new, hlogs⟩ := Logged.settle
      (g := { g with buffers := g.buffers.insert w (b.push x) })
      (h.update hb hfind rfl rfl id rfl rfl)
      ⟨hs.unmerged, fun hfn u v hu hv => hs.apart hfn u v ((hhas u).mp hu) ((hhas v).mp hv)⟩
      ((hfind w).trans (if_pos rfl)) hc heq
    exact ⟨new, hlogs.panes, hlogs.watermark, fun v => (hlogs.has v).trans (hhas v), hlogs.logged⟩

/-- A window inside an interval that can fire no more cannot fire either. -/
theorem Due.of_inside (hdue : g.Due w) (ht : s.trigger.isBuiltIn = true) {v : Window}
    (hv : v.Inside w) (hw : w ≠ .global) : g.Due v :=
  hdue.imp_left (Int.lt_of_le_of_lt (Strategy.expiry_mono ht (hv.maxTimestamp_le hw)))

/-- A window that can fire no more, the global one apart, has nothing merged into it that can. -/
theorem Separated.due (hs : g.Separated es) (h : g.Recorded (era s es))
    (ht : s.trigger.isBuiltIn = true) (hw : (Entry.collected w : Entry ν).endsEra s = false)
    (hdue : g.Due w) {u : Window} (hu : MergedInto (era s es) u w) : g.Due u := by
  cases hfn : s.windowFn.nonMerging with
  | true => exact hu.eq_of_unmerged (hs.unmerged hfn) ▸ hdue
  | false =>
    refine hdue.of_inside ht (hu.inside h.inside) ?_
    rintro rfl
    simp [Entry.endsEra, hfn] at hw

theorem Separated.global_only (hs : g.Separated es)
    (hw : (Entry.collected w : Entry ν).endsEra s = true) (hlive : g.Has w) {v : Window}
    (hv : g.Has v) : v = w := by
  cases w with
  | interval a b => cases hw
  | global =>
    have hfn : s.windowFn.nonMerging = false := by simpa [Entry.endsEra] using hw
    by_contra hne
    have hapart := hs.apart hfn .global v hlive hv (Ne.symm hne)
    cases v <;> cases hapart

theorem collect_fires (g : Grouper s ν) (w : Window) (h : g.Logged es) (hs : g.Separated es) :
    ∃ g₁ new, g.Logs g₁ es new ∧ (g.collect w).panes = g₁.panes ∧
      ∀ v, (g.collect w).buffers.find? v = if w = v then none else g₁.buffers.find? v := by
  by_cases hpending : (g.buffers.find? w).any Buffer.pending = true
  · obtain ⟨b, hb, hb'⟩ := (Option.any_eq_true _ _).mp hpending
    have hopen : b.closed = false := by
      simp only [Buffer.pending, Bool.and_eq_true, Bool.not_eq_true'] at hb'
      exact hb'.1
    obtain ⟨new, hlogs⟩ := h.act hb hopen
      (fun v hv hmerged => hs.alone h.recorded ⟨b, hb⟩ hv hmerged) .fireAndFinish
    have hcollect : g.collect w = { g.emit w true with
        buffers := (g.emit w true).buffers.erase w
        state := (g.emit w true).state.erase w } := by
      simp only [collect, hpending, if_true]
    have hact : g.act w .fireAndFinish = (g.emit w true).close w := rfl
    refine ⟨_, new, hlogs, by rw [hcollect, hact]; rfl, fun v => ?_⟩
    rw [find?_collect, hact, find?_close]
    split
    · rfl
    · rename_i hv
      rw [find?_emit_of_ne hv]
  · refine ⟨g, [], h.rest, ?_, fun v => find?_collect ..⟩
    simp only [collect, hpending, Bool.false_eq_true, if_false]

/-- The merges of a plan that clears the overlap away keep the memory of the old windows
together. -/
theorem joins_of_plan {ms : List Merge} (plan : MergePlan g.Has ms) (clearing : Clearing g.Has ms)
    (live : g.Live) (ht : s.trigger.isBuiltIn = true) {m : Merge} (hm : m ∈ ms) : g.Joins m := by
  have hgathers := clearing.gathers m hm
  refine ⟨plan.olds_live m hm, plan.into_live m hm, hgathers.inside, clearing.apart m hm,
    fun hdue => ?_⟩
  -- if the new window could not fire any more, neither could one of the old ones
  obtain ⟨v, hv, hvdue⟩ : ∃ v ∈ m.olds, g.Due v := by
    by_cases hglobal : m.into = .global
    · exact ⟨_, hgathers.whole hglobal, hglobal ▸ hdue⟩
    · obtain ⟨v, hv⟩ := List.exists_mem_of_ne_nil _ hgathers.nonempty
      exact ⟨v, hv, hdue.of_inside ht (hgathers.inside v hv) hglobal⟩
  obtain ⟨b, hb⟩ := plan.olds_live m hm v hv
  exact live v b hb hvdue

/-- Unless the trigger answers that it had finished in an old window, all of them are open. -/
theorem Tracks.olds_open {input : InputWatermark} {l : Ledger ν} (h : g.Tracks input l none)
    {m : Merge} (hnodup : m.olds.Nodup) (ho : (g.state.merge m).1 ≠ .ok .alreadyFinished)
    {v : Window} (hv : v ∈ m.olds) {b : Buffer ν} (hb : g.buffers.find? v = some b) :
    b.closed = false := by
  refine Bool.eq_false_iff.mpr fun hclosed => ho ?_
  have hfinished := ((h.standing_some hb).of_closed hclosed).1
  obtain ⟨_, _, hmerge, -⟩ := TriggerState.merge_finished hnodup ⟨v, hv, hfinished⟩
  rw [hmerge]

theorem Logged.merge (h : g.Logged es) {m : Merge} (hjoins : g.Joins m) {b' : Buffer ν}
    (hfind : ∀ v, g'.buffers.find? v = if m.into = v then some b' else
      if v ∈ m.olds then none else g.buffers.find? v)
    (hcount : b'.panesFired = (g.absorbed m.olds).panesFired)
    (htime : b'.onTimeFired = (g.absorbed m.olds).onTimeFired)
    (hclosed : ∀ v ∈ m.olds, ∀ b, g.buffers.find? v = some b → b.closed = true →
      b'.closed = true)
    (hwatermark : g'.watermark = g.watermark) (hpanes : g'.panes = g.panes) :
    g'.Logged (es ++ [.merged m]) := by
  refine ⟨?_, ?_, forall_split_concat.mpr ⟨h.coherent, fun _ _ h => by cases h⟩⟩
  · rw [List.filterMap_append, h.panes]
    exact (List.append_nil _).trans hpanes.symm
  · rw [era_concat]
    exact h.recorded.merge hjoins hfind hcount htime hclosed hwatermark

theorem Logged.mergeOne (h : g.Logged es) {input : InputWatermark} {l : Ledger ν}
    (htracks : g.Tracks input l none) {m : Merge} (hnodup : m.olds.Nodup) (hjoins : g.Joins m)
    (heq : g.mergeOne m = .ok g') : ∃ new, g'.panes = g.panes ++ new ∧
      g'.watermark = g.watermark ∧ g'.Logged (es ++ [.merged m] ++ firings new g.watermark) := by
  obtain ⟨o, buffers, hmerge, hbuffers, rfl⟩ := mergeOne_ok hnodup heq
  let moved := g.moved m buffers (g.state.merge m).2
  have hfind : ∀ v, moved.buffers.find? v = if m.into = v then some (g.absorbed m.olds) else
      if v ∈ m.olds then none else g.buffers.find? v := by
    intro v
    split
    · rename_i hv
      exact hv ▸ find?_moved_into ..
    · rename_i hv
      exact (find?_moved_of_ne hv).trans (hbuffers v)
  by_cases ho : o = .alreadyFinished
  · subst ho
    have hfind' : ∀ v, (moved.close m.into).buffers.find? v =
        if m.into = v then some (g.absorbed m.olds).close else
          if v ∈ m.olds then none else g.buffers.find? v := by
      intro v
      rw [find?_close, hfind]
      split <;> rfl
    have hclose := h.merge hjoins hfind' rfl rfl (fun _ _ _ _ _ => rfl) rfl rfl
    exact ⟨[], (List.append_nil _).symm, rfl, by
      rwa [firings, List.map_nil, List.append_nil]⟩
  · have hopen : ∀ v ∈ m.olds, ∀ b, g.buffers.find? v = some b → b.closed = false :=
      fun v hv b hb => htracks.olds_open hnodup (hmerge ▸ fun e => ho (Except.ok.inj e)) hv hb
    have hmoved : moved.Logged (es ++ [.merged m]) :=
      h.merge hjoins hfind rfl rfl (fun v hv b hb hclosed => by
        rw [hopen v hv b hb] at hclosed
        cases hclosed) rfl rfl
    -- the new window overlaps no other live one
    have halone : ∀ v, moved.Has v → MergedInto (era s (es ++ [.merged m])) m.into v →
        v = m.into := by
      intro v hv hmerged
      rcases (has_moved hbuffers v).mp hv with heq | ⟨hv, hout⟩
      · exact heq
      · rcases hmerged.inside hmoved.recorded.inside with heq | ⟨-, hmeets⟩
        · exact heq.symm
        · rw [Window.intersects_comm, hjoins.apart v hv hout] at hmeets
          cases hmeets
    obtain ⟨o', hact, -⟩ := moved.actOnMerge_eq m.into ho
    obtain ⟨new, hlogs⟩ := hmoved.act ((hfind _).trans (if_pos rfl)) (closed_absorbAll ..) halone o'
    exact ⟨new, hact ▸ hlogs.panes, hact ▸ hlogs.watermark, hact ▸ hlogs.logged⟩

end Grouper

end EventTime
