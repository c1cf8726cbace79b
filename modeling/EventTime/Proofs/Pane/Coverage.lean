import EventTime.Proofs.Listings
import EventTime.Proofs.Pane.Watermark

/-!
# What the panes of a window cover

Where windows never merge, each window lives by itself: its panes cover a front part of the elements
that list it, in event-time order, without loss or repetition. The invariant says for every window
how the elements seen so far split into those that panes cover and those that wait in the buffer;
it survives every delivery, every firing, every closing and every collection.
-/

namespace EventTime

variable {ν : Type} {s : Strategy}

/-- What a buffer holds, or a pane shows: the waiting elements `xs`, and before them, if panes
accumulate, those that earlier panes have covered. -/
def AccumulationMode.held (mode : AccumulationMode) (covered xs : List ν) : List ν :=
  match mode with
  | .discarding => xs
  | .accumulating => covered ++ xs

/-- The values of the panes of a window that together cover some elements. -/
inductive PaneHistory (mode : AccumulationMode) : List ν → List (List ν) → Prop
  | start : PaneHistory mode [] []
  | fire {covered xs : List ν} {panes : List (List ν)} : PaneHistory mode covered panes →
      xs ≠ [] → PaneHistory mode (covered ++ xs) (panes ++ [mode.held covered xs])

namespace PaneHistory

variable {mode : AccumulationMode} {covered : List ν} {panes : List (List ν)}

theorem ne_nil (h : PaneHistory mode covered panes) : ∀ p ∈ panes, p ≠ [] := by
  induction h with
  | start => simp
  | fire h hxs ih =>
    intro p hp
    rcases List.mem_append.mp hp with hp | hp
    · exact ih p hp
    · rw [List.mem_singleton.mp hp]
      cases mode with
      | discarding => exact hxs
      | accumulating => exact fun e => hxs (List.append_eq_nil_iff.mp e).2

theorem covered_ne_nil (h : PaneHistory mode covered panes) (hne : panes ≠ []) : covered ≠ [] := by
  cases h with
  | start => exact absurd rfl hne
  | fire h hxs => exact fun e => hxs (List.append_eq_nil_iff.mp e).2

theorem flatten_eq (h : PaneHistory .discarding covered panes) : panes.flatten = covered := by
  induction h with
  | start => rfl
  | fire h hxs ih => simp only [List.flatten_append, List.flatten_singleton, ih,
      AccumulationMode.held]

theorem isPrefix (h : PaneHistory .accumulating covered panes) : ∀ p ∈ panes, p <+: covered := by
  induction h with
  | start => simp
  | fire h hxs ih =>
    intro p hp
    rcases List.mem_append.mp hp with hp | hp
    · exact (ih p hp).trans (List.prefix_append _ _)
    · rw [List.mem_singleton.mp hp]
      exact List.prefix_rfl

theorem grows (h : PaneHistory .accumulating covered panes) :
    panes.Pairwise fun p q => p.length < q.length := by
  induction h with
  | start => exact .nil
  | fire h hxs ih =>
    rename_i covered xs panes
    refine List.pairwise_append.mpr ⟨ih, List.pairwise_singleton .., fun p hp q hq => ?_⟩
    have hle := (h.isPrefix p hp).length_le
    have hpos := List.length_pos_of_ne_nil hxs
    rw [List.mem_singleton.mp hq]
    simp only [AccumulationMode.held, List.length_append]
    omega

theorem getLast?_eq (h : PaneHistory .accumulating covered panes) (hne : covered ≠ []) :
    panes.getLast? = some covered := by
  cases h with
  | start => exact absurd rfl hne
  | fire h hxs => simp [AccumulationMode.held]

end PaneHistory

/-- How the elements of a window so far are accounted for by the panes and the buffer of the window.
`complete` says that none of them may be lost. -/
inductive Accounted (s : Strategy) (complete : Prop) (watermark : Int) (w : Window)
    (elements : List ν) (panes : List (List ν)) : Option (Buffer ν) → Prop
  /-- There is no buffer: nothing has come yet, or the window has been collected. -/
  | absent {covered : List ν} : PaneHistory s.mode covered panes → covered <+: elements →
      (elements = [] ∨ s.expiry w < watermark ∨ watermark = maxTime) →
      (complete → covered = elements) → Accounted s complete watermark w elements panes none
  /-- An open buffer holds what no pane has covered. -/
  | waiting {covered xs : List ν} {b : Buffer ν} : PaneHistory s.mode covered panes →
      elements = covered ++ xs → b.unfired = xs.length → b.values = s.mode.held covered xs →
      b.closed = false → Accounted s complete watermark w elements panes (some b)
  /-- A closed buffer has fired what it held, and takes nothing more. -/
  | closed {covered : List ν} {b : Buffer ν} : PaneHistory s.mode covered panes →
      covered <+: elements → ¬complete → b.closed = true →
      Accounted s complete watermark w elements panes (some b)

namespace Accounted

variable {complete : Prop} {watermark : Int} {w : Window} {elements : List ν}
  {panes : List (List ν)} {b : Buffer ν}

/-- A later watermark changes nothing about the elements so far. -/
theorem mono {o : Option (Buffer ν)} {later : Int} (hle : watermark ≤ later)
    (hne : watermark ≠ maxTime) (h : Accounted s complete watermark w elements panes o) :
    Accounted s complete later w elements panes o := by
  cases h with
  | absent hp hpre hgone hc =>
    refine .absent hp hpre ?_ hc
    rcases hgone with h | h | h
    · exact .inl h
    · exact .inr (.inl (by omega))
    · exact absurd h hne
  | waiting hp he hu hv ho => exact .waiting hp he hu hv ho
  | closed hp hpre hc ho => exact .closed hp hpre hc ho

theorem fired (timing : PaneTiming)
    (h : Accounted s complete watermark w elements panes (some b))
    (hopen : b.closed = false) (hu : b.unfired ≠ 0) :
    Accounted s complete watermark w elements (panes ++ [b.values])
      (some (b.fired s.mode timing)) := by
  cases h with
  | @waiting covered xs _ hp he hn hv _ =>
    have hxs : xs ≠ [] := fun e => hu (by rw [hn, e]; rfl)
    rw [hv]
    have hsplit : elements = covered ++ xs ++ [] := by rw [he, List.append_nil]
    refine .waiting (hp.fire hxs) hsplit rfl ?_ hopen
    simp only [Buffer.fired, hv]
    cases s.mode <;> simp [AccumulationMode.held]
  | closed _ _ _ hclosed =>
    rw [hopen] at hclosed
    cases hclosed

theorem close (h : Accounted s complete watermark w elements panes (some b)) (hc : ¬complete) :
    Accounted s complete watermark w elements panes (some b.close) := by
  cases h with
  | waiting hp he => exact .closed hp (he ▸ List.prefix_append _ _) hc rfl
  | closed hp hpre => exact .closed hp hpre hc rfl

theorem collected (h : Accounted s complete watermark w elements panes (some b))
    (hdue : s.expiry w < watermark ∨ watermark = maxTime) (hp : b.pending = false) :
    Accounted s complete watermark w elements panes none := by
  cases h with
  | @waiting covered xs _ hhist he hn hv ho =>
    have hzero : xs.length = 0 := by simpa [Buffer.pending, ho, hn] using hp
    have hnil := List.eq_nil_of_length_eq_zero hzero
    rw [hnil, List.append_nil] at he
    exact .absent hhist (he ▸ List.prefix_rfl) (.inr hdue) fun _ => he.symm
  | closed hhist hpre hc => exact .absent hhist hpre (.inr hdue) fun h => absurd h hc

theorem opened (h : Accounted s complete watermark w elements panes none)
    (hdue : ¬(s.expiry w < watermark ∨ watermark = maxTime)) :
    Accounted s complete watermark w elements panes (some {}) := by
  cases h with
  | absent hp hpre hgone _ =>
    have he : elements = [] := hgone.resolve_right hdue
    subst he
    obtain rfl := List.prefix_nil.mp hpre
    have hsplit : ([] : List ν) = [] ++ [] := rfl
    exact .waiting hp hsplit rfl (by cases s.mode <;> rfl) rfl

theorem push {v : ν} (h : Accounted s complete watermark w elements panes (some b))
    (ho : b.closed = false) :
    Accounted s complete watermark w (elements ++ [v]) panes (some (b.push v)) := by
  cases h with
  | @waiting covered xs _ hp he hn hv _ =>
    have hsplit : elements ++ [v] = covered ++ (xs ++ [v]) := by rw [he, List.append_assoc]
    refine .waiting hp hsplit (by simp [Buffer.push, hn]) ?_ ho
    simp only [Buffer.push, hv]
    cases s.mode <;> simp [AccumulationMode.held]
  | closed _ _ _ hclosed =>
    rw [ho] at hclosed
    cases hclosed

theorem dropped_closed {v : ν} (h : Accounted s complete watermark w elements panes (some b))
    (ho : b.closed = true) :
    Accounted s complete watermark w (elements ++ [v]) panes (some b) := by
  cases h with
  | waiting _ _ _ _ hopen =>
    rw [ho] at hopen
    cases hopen
  | closed hp hpre hc _ => exact .closed hp (hpre.trans (List.prefix_append _ _)) hc ho

theorem dropped_late {v : ν} (h : Accounted s complete watermark w elements panes none)
    (hlate : s.expiry w < watermark) (hc : ¬complete) :
    Accounted s complete watermark w (elements ++ [v]) panes none := by
  cases h with
  | absent hp hpre _ _ =>
    exact .absent hp (hpre.trans (List.prefix_append _ _)) (.inr (.inl hlate)) fun h => absurd h hc

end Accounted

namespace Grouper

/-- The elements so far of every window, given by `seen`, are accounted for. -/
def Accounts (g : Grouper s ν) (complete : Window → Prop) (seen : Window → List ν) : Prop :=
  ∀ w, Accounted s (complete w) g.watermark w (seen w) ((g.panesOf w).map (·.values))
    (g.buffers.find? w)

variable {g : Grouper s ν} {complete : Window → Prop} {seen : Window → List ν} {w : Window}

/-! ### Operations -/

theorem Accounts.emit (h : g.Accounts complete seen) {b : Buffer ν} {isLast : Bool}
    (hb : g.buffers.find? w = some b) (hopen : b.closed = false) :
    (g.emit w isLast).Accounts complete seen := by
  intro v
  rw [emit_watermark]
  by_cases hu : b.unfired = 0
  · rw [emit_of_all_fired hb hu]
    exact h v
  · by_cases hv : w = v
    · subst hv
      have hw := h w
      rw [hb] at hw
      rw [find?_emit_self hb hu, panesOf_emit_self hb hu, List.map_append]
      exact hw.fired _ hopen hu
    · rw [find?_emit_of_ne hv, panesOf_emit_of_ne hv]
      exact h v

theorem Accounts.close (h : g.Accounts complete seen) (hc : ¬complete w) :
    (g.close w).Accounts complete seen := by
  intro v
  rw [find?_close]
  split
  · rename_i hv
    subst hv
    have hw := h w
    cases hb : g.buffers.find? w with
    | none =>
      rw [hb] at hw
      exact hw
    | some b =>
      rw [hb] at hw
      exact hw.close hc
  · exact h v

theorem Accounts.act (h : g.Accounts complete seen) {b : Buffer ν} {o : Outcome}
    (hb : g.buffers.find? w = some b) (hopen : b.closed = false)
    (hc : o.finishes = true → ¬complete w) : (g.act w o).Accounts complete seen := by
  cases o with
  | idle => exact h
  | fire => exact h.emit hb hopen
  | fireAndFinish => exact (h.emit hb hopen).close (hc rfl)

theorem Accounts.collect (h : g.Accounts complete seen) (hdue : g.Due w) :
    (g.collect w).Accounts complete seen := by
  intro v
  rw [collect_watermark, find?_collect]
  split
  · rename_i hv
    subst hv
    have hw := h w
    cases hb : g.buffers.find? w with
    | none =>
      rw [hb] at hw
      have hpanes : (g.collect w).panesOf w = g.panesOf w := by
        simp [Grouper.collect, hb, panesOf]
      rwa [hpanes]
    | some b =>
      rw [panesOf_collect_self hb]
      rw [hb] at hw
      by_cases hp : b.pending = true
      · have hopen : b.closed = false ∧ b.unfired ≠ 0 := by
          simpa [Buffer.pending, Nat.pos_iff_ne_zero] using hp
        have hfired := hw.fired (g.timing w b.onTimeFired) hopen.1 hopen.2
        rw [if_pos hp, panesOf_emit_self hb hopen.2, List.map_append]
        exact hfired.collected hdue (by simp [Buffer.pending, Buffer.fired])
      · rw [if_neg hp]
        exact hw.collected hdue (by simpa using hp)
  · rename_i hv
    rw [panesOf_collect_of_ne hv]
    exact h v

theorem Accounts.collectAll (h : g.Accounts complete seen) (ws : List Window)
    (hdue : ∀ w ∈ ws, g.Due w) : (ws.foldl Grouper.collect g).Accounts complete seen := by
  induction ws generalizing g with
  | nil => exact h
  | cons w ws ih =>
    refine ih (h.collect (hdue w (List.mem_cons_self ..))) fun v hv => ?_
    have hv' := hdue v (List.mem_cons_of_mem _ hv)
    simpa only [Due, collect_watermark] using hv'

theorem Accounts.deliverTimer (h : g.Accounts complete seen) (ht : s.trigger.isBuiltIn = true)
    (hend : ∀ w, complete w → s.trigger.Endless) {a : Timer} {g' : Grouper s ν}
    (ha : a ∈ g.state.timers)
    (heq : { g with state := g.state.cancel a }.deliverTimer a = .ok g') :
    g'.Accounts complete seen := by
  obtain ⟨o, state, htimer, -, hdeliver⟩ := deliverTimer_cases (g := g) ht ha
  rw [hdeliver, Except.ok.injEq] at heq
  subst heq
  split
  · rename_i hopen
    cases hb : g.buffers.find? a.window with
    | none => simp [hb] at hopen
    | some b =>
      have hcl : b.closed = false := by simpa [hb] using hopen
      refine Accounts.act (g := { g with state := state }) h hb hcl fun ho hc => ?_
      rw [(hend _ hc).timer htimer] at ho
      cases ho
  · exact h

theorem Accounts.advance (h : g.Accounts complete seen) (live : g.Live)
    (ht : s.trigger.isBuiltIn = true) (hend : ∀ w, complete w → s.trigger.Endless)
    (hmax : g.watermark ≠ maxTime) (target : Int) :
    ∃ g', g.advance target = .ok g' ∧ g'.Accounts complete seen ∧ g'.Live ∧
      g'.watermark = max g.watermark target := by
  by_cases hle : target ≤ g.watermark
  · exact ⟨g, advance_of_le hle, h, live, by omega⟩
  · have hg : Accounts { g with watermark := target } complete seen := fun w =>
      (h w).mono (by show g.watermark ≤ target; omega) hmax
    obtain ⟨g', hadv, h', hw, -⟩ := advance_rule
      (P := fun g => g.Accounts complete seen) ht
      (fun g a g' hg ha _ _ heq => hg.deliverTimer ht hend ha heq) (by omega) hg
    refine ⟨_, hadv, h'.collectAll _ fun v hv => (mem_expired.mp hv).2, live_collectAll g', ?_⟩
    rw [collectAll_watermark, hw]
    omega

theorem Accounts.finish (h : g.Accounts complete seen) (live : g.Live)
    (ht : s.trigger.isBuiltIn = true) (hend : ∀ w, complete w → s.trigger.Endless)
    (hmax : g.watermark < maxTime) :
    ∃ g', g.advance maxTime = .ok g' ∧ g'.Accounts complete seen ∧
      ∀ w, g'.buffers.find? w = none := by
  obtain ⟨g', hadv, h', live', hw⟩ := h.advance live ht hend (by omega) maxTime
  refine ⟨g', hadv, h', fun w => ?_⟩
  cases hb : g'.buffers.find? w with
  | none => rfl
  | some b => exact absurd (.inr (by omega)) (live' w b hb)

theorem Accounts.opened (h : g.Accounts complete seen) (hdue : ¬g.Due w) :
    (g.opened w).Accounts complete seen := by
  intro v
  rw [opened_watermark, panesOf_opened, find?_opened]
  split
  · rename_i hv
    subst hv
    have hw := h w
    cases hb : g.buffers.find? w with
    | none =>
      rw [hb] at hw
      exact hw.opened hdue
    | some b =>
      rw [hb] at hw
      exact hw
  · exact h v

theorem Accounts.deliver (h : g.Accounts complete seen) (live : g.Live)
    (ht : s.trigger.isBuiltIn = true) (hend : ∀ w, complete w → s.trigger.Endless)
    {b : Buffer ν} (hb : g.buffers.find? w = some b) (timestamp : Int) (v : ν) :
    ∃ g', g.deliver w timestamp v = .ok g' ∧
      g'.Accounts complete (addSeen seen w v) ∧ g'.Live ∧
      g'.watermark = g.watermark := by
  have hw := h w
  rw [hb] at hw
  by_cases hcl : b.closed = true
  · refine ⟨g, by simp [Grouper.deliver, hb, hcl], fun u => ?_, live, rfl⟩
    by_cases hu : u = w
    · subst hu
      rw [addSeen_self, hb]
      exact hw.dropped_closed hcl
    · rw [addSeen_of_ne hu]
      exact h u
  · have hopen : b.closed = false := by simpa using hcl
    obtain ⟨o, state, helem⟩ :=
      TriggerState.element_answers g.state ⟨w, timestamp⟩ ht
    let pushed : Grouper s ν := { g with state, buffers := g.buffers.insert w (b.push v) }
    have hpushed : pushed.Accounts complete (addSeen seen w v) := by
      intro u
      show Accounted s (complete u) g.watermark u _ _ ((g.buffers.insert w (b.push v)).find? u)
      rw [WindowMap.find?_insert]
      by_cases hu : u = w
      · subst hu
        rw [if_pos rfl, addSeen_self]
        exact hw.push hopen
      · rw [if_neg (Ne.symm hu), addSeen_of_ne hu]
        exact h u
    have hfind : pushed.buffers.find? w = some (b.push v) := by
      rw [WindowMap.find?_insert_self]
    -- no answer of an endless trigger closes the buffer of a complete window
    refine ⟨pushed.act w o, ?_, hpushed.act hfind hopen fun ho hc => ?_, ?_, ?_⟩
    · simp only [Grouper.deliver, hb, Option.getD_some, hopen, Bool.false_eq_true, if_false, settle,
        helem, Except.map]
      rfl
    · rw [(hend _ hc).element helem] at ho
      cases ho
    · refine Live.act (fun u c hc => ?_) w o
      rw [WindowMap.find?_insert] at hc
      split at hc
      · rename_i hu
        exact hu ▸ live w b hb
      · exact live u c hc
    · rw [act_watermark]

theorem Accounts.place (h : g.Accounts complete seen) (live : g.Live)
    (hfn : s.windowFn.nonMerging = true) (ht : s.trigger.isBuiltIn = true)
    (hend : ∀ w, complete w → s.trigger.Endless) (hmax : g.watermark ≠ maxTime)
    (hkeep : complete w → g.watermark ≤ s.expiry w) (timestamp : Int) (v : ν) :
    ∃ g', g.place timestamp v w = .ok g' ∧
      g'.Accounts complete (addSeen seen w v) ∧ g'.Live ∧
      g'.watermark = g.watermark := by
  by_cases hlate : s.expiry w < g.watermark
  · refine ⟨g, by simp only [Grouper.place, if_pos hlate], fun u => ?_, live, rfl⟩
    by_cases hu : u = w
    · subst hu
      have hw := h u
      have hnone : g.buffers.find? u = none := by
        cases hb : g.buffers.find? u with
        | none => rfl
        | some b => exact absurd (.inl hlate) (live u b hb)
      rw [hnone] at hw ⊢
      rw [addSeen_self]
      exact hw.dropped_late hlate fun hc => by
        have := hkeep hc
        omega
    · rw [addSeen_of_ne hu]
      exact h u
  · have hdue : ¬g.Due w := by
      rintro (h' | h')
      · exact hlate h'
      · exact hmax h'
    have hfind : (g.opened w).buffers.find? w = some ((g.buffers.find? w).getD {}) := by
      rw [find?_opened, if_pos rfl]
    obtain ⟨g', hg', h', live', hw'⟩ :=
      (h.opened hdue).deliver (live.opened hdue) ht hend hfind timestamp v
    refine ⟨g', ?_, h', live', hw'.trans (opened_watermark ..)⟩
    simp only [Grouper.place, if_neg hlate, mergeWindows, hfn, if_true]
    exact hg'

/-! ### A run -/

theorem Accounts.take (h : g.Accounts complete seen) (live : g.Live)
    (hfn : s.windowFn.nonMerging = true) (ht : s.trigger.isBuiltIn = true)
    (hend : ∀ w, complete w → s.trigger.Endless) (mode : InputWatermark) {e : Envelope ν}
    (hmax : pace mode g.watermark e.timestamp < maxTime)
    (hkeep : ∀ w ∈ e.windows, complete w → pace mode g.watermark e.timestamp ≤ s.expiry w) :
    ∃ g', g.take mode e = .ok g' ∧ g'.Accounts complete (addListings seen e.windows e.value) ∧
      g'.Live ∧ g'.watermark = pace mode g.watermark e.timestamp := by
  obtain ⟨g₁, hmove, h₁, live₁, hw₁⟩ : ∃ g₁, g.follow mode e.timestamp = .ok g₁ ∧
      g₁.Accounts complete seen ∧ g₁.Live ∧
      g₁.watermark = pace mode g.watermark e.timestamp := by
    cases mode with
    | elementTime =>
      have hlt : max g.watermark e.timestamp < maxTime := hmax
      exact h.advance live ht hend (by omega) e.timestamp
    | heldUntilEnd => exact ⟨g, rfl, h, live, rfl⟩
  obtain ⟨g', htake, ⟨h', live'⟩, hw'⟩ := take_rule hmove
    (fun before g => g.Accounts complete (addListings seen before e.value) ∧ g.Live)
    ⟨by rwa [addListings_nil], live₁⟩ fun before w g hmem hw ⟨h, live⟩ => by
      obtain ⟨g', hplace, h', live', hw'⟩ := h.place live hfn ht hend (by omega)
        (fun hc => by have := hkeep w hmem hc; omega) e.timestamp e.value
      rw [← addListings_concat] at h'
      exact ⟨g', hplace, ⟨h', live'⟩, hw'⟩
  exact ⟨g', htake, h', live', hw'.trans hw₁⟩

theorem accounts_start (s : Strategy) (complete : Window → Prop) :
    ({} : Grouper s ν).Accounts complete fun _ => [] := fun _ =>
  .absent .start List.prefix_rfl (.inl rfl) fun _ => rfl

/-- A whole run succeeds and accounts for all elements of every window; `complete` windows are those
of an endless trigger that no late element lists. A watermark that is held makes no element late. -/
theorem run_accounts_of_mode (complete : Window → Prop) (hfn : s.windowFn.nonMerging = true)
    (ht : s.trigger.isBuiltIn = true)
    (hend : ∀ w, complete w → s.trigger.Endless) (mode : InputWatermark)
    {elements : List (Envelope ν)}
    (hmax : mode = .elementTime → ∀ e ∈ elements, e.timestamp < maxTime)
    (hkeep : mode = .elementTime → ∀ e ∈ elements, ∀ w ∈ e.windows, complete w →
      e.timestamp ≤ s.expiry w) :
    ∃ g : Grouper s ν, Grouper.run s mode elements = .ok g.panes ∧
      g.Accounts complete (fun w => listed w (inTimeOrder elements)) ∧
      ∀ w, g.buffers.find? w = none := by
  have hlive : ({} : Grouper s ν).Live := fun w b hb => by cases hb
  have hmin : minTime < maxTime := by decide
  obtain ⟨g, hfold, h, live, hlt, -⟩ := elements_rule (List.append_nil _).symm
    (fun before (g : Grouper s ν) => g.Accounts complete (fun w => listed w before) ∧ g.Live ∧
      g.watermark < maxTime ∧ g.Behind mode before)
    ⟨accounts_start s complete, hlive, hmin, behind_start mode⟩
    fun before e g hmem horder ⟨h, live, _, hbehind⟩ => by
      have hpace : pace mode g.watermark e.timestamp < maxTime ∧ ∀ w ∈ e.windows, complete w →
          pace mode g.watermark e.timestamp ≤ s.expiry w := by
        have hexpiry : ∀ w, minTime ≤ s.expiry w := fun w => (inRange_later ..).1
        have hle := hbehind.pace_le horder
        cases mode with
        | elementTime =>
          have he := hmax rfl e hmem
          refine ⟨by omega, fun w hw hc => ?_⟩
          have := hkeep rfl e hmem w hw hc
          have := hexpiry w
          omega
        | heldUntilEnd =>
          rw [show pace .heldUntilEnd g.watermark e.timestamp = minTime from hbehind.held rfl]
          exact ⟨hmin, fun w _ _ => hexpiry w⟩
      obtain ⟨g', htake, h', live', hw'⟩ := h.take live hfn ht hend mode hpace.1 hpace.2
      exact ⟨g', htake, by rwa [listed_concat], live', hw' ▸ hpace.1, hbehind.concat hw'⟩
  obtain ⟨g', hadvance, h', hnone⟩ := h.finish live ht hend hlt
  exact ⟨g', run_of_fold hfold hadvance, h', hnone⟩

theorem run_accounts (complete : Window → Prop) (hfn : s.windowFn.nonMerging = true)
    (ht : s.trigger.isBuiltIn = true)
    (hend : ∀ w, complete w → s.trigger.Endless) (mode : InputWatermark)
    {elements : List (Envelope ν)} (hmax : ∀ e ∈ elements, e.timestamp < maxTime)
    (hkeep : ∀ e ∈ elements, ∀ w ∈ e.windows, complete w → e.timestamp ≤ s.expiry w) :
    ∃ g : Grouper s ν, Grouper.run s mode elements = .ok g.panes ∧
      g.Accounts complete (fun w => listed w (inTimeOrder elements)) ∧
      ∀ w, g.buffers.find? w = none :=
  run_accounts_of_mode complete hfn ht hend mode (fun _ => hmax) fun _ => hkeep

end Grouper

/-- Where windows never merge, the panes of a window show a front part of the elements that list it,
in event-time order: piece by piece if panes discard, and in ever longer front parts if they
accumulate. They show all of it if the trigger is endless and no element comes after the expiry. -/
theorem run_panes_cover (s : Strategy) (mode : InputWatermark) (elements : List (Envelope ν))
    (hfn : s.windowFn.nonMerging = true) (ht : s.trigger.isBuiltIn = true)
    (hmax : ∀ e ∈ elements, e.timestamp < maxTime) :
    ∃ panes, Grouper.run s mode elements = .ok panes ∧ ∀ w,
      let values := listed w (Grouper.inTimeOrder elements)
      let fired := (panes.filter (·.window = w)).map (·.values)
      (∀ p ∈ fired, p ≠ []) ∧
      (s.mode = .discarding → fired.flatten <+: values) ∧
      (s.mode = .accumulating →
        (∀ p ∈ fired, p <+: values) ∧ fired.Pairwise fun p q => p.length < q.length) ∧
      (s.trigger.Endless → (∀ e ∈ elements, w ∈ e.windows → e.timestamp ≤ s.expiry w) →
        (s.mode = .discarding → fired.flatten = values) ∧
        (s.mode = .accumulating → values ≠ [] → fired.getLast? = some values)) := by
  obtain ⟨g, hrun, h, hnone⟩ := Grouper.run_accounts
    (fun w => s.trigger.Endless ∧ ∀ e ∈ elements, w ∈ e.windows → e.timestamp ≤ s.expiry w)
    hfn ht (fun w hc => hc.1) mode hmax (fun e he w hw hc => hc.2 e he hw)
  refine ⟨g.panes, hrun, fun w => ?_⟩
  intro values fired
  have hw := h w
  rw [hnone w] at hw
  cases hw with
  | @absent covered hist hpre hgone hall =>
    have hist' : PaneHistory s.mode covered fired := hist
    clear_value fired
    refine ⟨hist'.ne_nil, fun hm => ?_, fun hm => ?_, fun hend hin => ⟨fun hm => ?_, fun hm hne => ?_⟩⟩
    · rw [hm] at hist'
      rw [hist'.flatten_eq]
      exact hpre
    · rw [hm] at hist'
      exact ⟨fun p hp => (hist'.isPrefix p hp).trans hpre, hist'.grows⟩
    · rw [hm] at hist'
      rw [hist'.flatten_eq]
      exact hall ⟨hend, hin⟩
    · rw [hm] at hist'
      have hcov : covered = values := hall ⟨hend, hin⟩
      rw [hist'.getLast?_eq (hcov ▸ hne), hcov]

theorem run_panes_cover_of_count :
    let s : Strategy := ⟨.fixed 10, .repeatedly (.afterCount 2), .accumulating, 5⟩
    let w : Window := .interval 0 10
    let elements : List (Envelope Nat) :=
      [⟨1, 1, [w], .noFiring⟩, ⟨2, 3, [w], .noFiring⟩, ⟨3, 12, [w, .interval 10 20], .noFiring⟩]
    s.windowFn.nonMerging = true ∧ s.trigger.isBuiltIn = true ∧
      (∀ e ∈ elements, e.timestamp < maxTime) ∧
      ∃ panes, Grouper.run s .elementTime elements = .ok panes ∧
        ((panes.filter (·.window = w)).map (·.values)).getLast? = some [1, 2, 3] := by
  intro s w elements
  have hmax : ∀ e ∈ elements, e.timestamp < maxTime := by decide
  obtain ⟨panes, hrun, h⟩ := run_panes_cover s .elementTime elements rfl rfl hmax
  have hsorted : Grouper.inTimeOrder elements = elements :=
    List.mergeSort_of_pairwise (by decide)
  have hall : listed w (Grouper.inTimeOrder elements) = [1, 2, 3] := by
    rw [hsorted]
    rfl
  obtain ⟨-, -, -, hcov⟩ := h w
  have hlast := (hcov (.inr ⟨_, rfl⟩) (by decide)).2 rfl
  rw [hall] at hlast
  exact ⟨rfl, rfl, hmax, panes, hrun, hlast (by decide)⟩

end EventTime
