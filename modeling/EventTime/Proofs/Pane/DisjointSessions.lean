import Mathlib
import EventTime.Proofs.Pane.Answers
import EventTime.Proofs.Pane.Flush
import EventTime.Proofs.Pane.SessionRuns
import EventTime.Proofs.Window.Disjoint

/-!
# Sessions that stay disjoint

While a tree is driven by hand, and while elements are grouped, no two live session windows overlap.
An element makes its window live and performs the merges, after which exactly one live window
overlaps the one that was assigned: the window to which the element goes. Moving the watermark opens
no window, and neither does clearing.
-/

namespace EventTime

namespace Tester

variable {t : Trigger} {c : Tester t} {gap : Int}

/-- The windows that are live from the window function's point of view. -/
def Lives (c : Tester t) (w : Window) : Prop := w ∈ c.active.keys

/-- What is done with sessions by hand: elements whose windows fit the time line are injected, the
watermark moves, and windows are cleared. -/
inductive Move.OnSessions (gap : Int) : Move → Prop
  | inject {timestamp : Int} : InRange timestamp → InRange (timestamp + gap) →
      OnSessions gap (.inject timestamp)
  | advance (target : Int) : OnSessions gap (.advance target)
  | clear (w : Window) : OnSessions gap (.clear w)

theorem merge_lives (ht : t.isBuiltIn = true) (c : Tester t) (m : Merge) :
    (merge m).Succeeds c fun _ c' => c'.windowFn = c.windowFn ∧
      ∀ w, c'.Lives w ↔ m.leaves c.Lives w := by
  obtain ⟨o, s', h⟩ := c.state.merge_answers m ht
  refine ⟨o, { c with
    state := s', active := WindowSet.add (m.olds.foldl WindowMap.erase c.active) m.into }, ?_, rfl,
    fun w => WindowSet.mem_keys_merged⟩
  simp only [Attempt.begin, merge, Attempt.of, h]

theorem mergeEach_lives (ht : t.isBuiltIn = true) (ms : List Merge) (c : Tester t) (w : Window) :
    (mergeEach ms w).Succeeds c fun v c' => v = routed ms w ∧ c'.windowFn = c.windowFn ∧
      ∀ u, c'.Lives u ↔ performed ms c.Lives u := by
  induction ms generalizing c w with
  | nil => exact ⟨w, c, rfl, rfl, rfl, fun _ => Iff.rfl⟩
  | cons m rest ih =>
    refine (merge_lives ht c m).bind fun _ c' hc => ?_
    obtain ⟨v, c'', h, hv, hfn, hlives⟩ := ih c' (if w ∈ m.olds then m.into else w)
    exact ⟨v, c'', h, hv, hfn.trans hc.1, fun u =>
      (hlives u).trans (performed_congr rest hc.2 u)⟩

theorem element_lives (ht : t.isBuiltIn = true) (c : Tester t) (w : Window) (timestamp : Int) :
    (element w timestamp).Succeeds c fun _ c' => c'.windowFn = c.windowFn ∧
      ∀ v, c'.Lives v ↔ v = w ∨ c.Lives v := by
  obtain ⟨o, s', h⟩ := c.state.element_answers ⟨w, timestamp⟩ ht
  refine ⟨o, { c with state := s', active := c.active.add w }, ?_, rfl, fun v => WindowSet.mem_keys_add⟩
  simp only [Attempt.begin, element, Attempt.of, h]

/-- An element is delivered to the one live window that overlaps the window of the element. -/
theorem inject_hosts (ht : t.isBuiltIn = true) (hgap : 1 ≤ gap) (hfn : c.windowFn = .sessions gap)
    (hc : Disjointed c.Lives) {timestamp : Int} (hfrom : InRange timestamp)
    (hto : InRange (timestamp + gap)) :
    (inject timestamp).Succeeds c fun reports c' => Disjointed c'.Lives ∧
      ∃ w o, reports = [(w, o)] ∧ Hosts c'.Lives w (.interval timestamp (timestamp + gap)) := by
  let assigned : Window := .interval timestamp (timestamp + gap)
  have hproper : assigned.Proper := by
    simp only [InRange] at hfrom hto
    simp only [assigned, Window.Proper]
    omega
  have hassign : c.windowFn.assign timestamp = .ok [assigned] := by
    rw [hfn]
    show Except.ok [Window.interval timestamp (later timestamp gap)] = _
    rw [later_of_inRange hto]
  have hmerge : c.windowFn.merge (c.active.add assigned).keys =
      .ok (WindowFn.overlapping (c.active.add assigned).keys) := by
    rw [hfn]
    rfl
  have hordered : ∀ w ∈ (c.active.add assigned).keys, w.Ordered := by
    intro w hw
    rcases WindowSet.mem_keys_add.mp hw with rfl | hw
    · exact hproper.ordered
    · exact hc.ordered w hw
  have hdisjointed := overlapping_disjointed hordered
  have hhosts := overlapping_hosts hordered (WindowSet.mem_keys_add.mpr (.inl rfl)) hproper
  obtain ⟨w, c₁, hmerges, rfl, hfn₁, hlives₁⟩ :=
    mergeEach_lives ht (WindowFn.overlapping (c.active.add assigned).keys)
      { c with active := c.active.add assigned } assigned
  obtain ⟨o, c₂, helement, -, hlives₂⟩ := element_lives ht c₁ _ timestamp
  -- the element makes no window live that was not live before
  have hlives : ∀ v, c₂.Lives v ↔ performed (WindowFn.overlapping (c.active.add assigned).keys)
      (· ∈ (c.active.add assigned).keys) v := by
    intro v
    rw [hlives₂ v, hlives₁ v]
    exact ⟨fun h => h.elim (fun h => h ▸ hhosts.lives) id, .inr⟩
  refine ⟨[(_, o)], c₂, ?_, hdisjointed.congr hlives, _, o, rfl, hhosts.congr hlives⟩
  rw [inject, Attempt.begin_get_bind, hassign, Attempt.begin_lift_bind, injectEach,
    Attempt.begin_modify_bind, Attempt.begin_get_bind]
  simp only [hmerge]
  rw [Attempt.begin_lift_bind, Attempt.begin_bind hmerges, Attempt.begin_bind helement]
  rfl

theorem drain_active (ht : t.isBuiltIn = true) (fuel : Nat) (c : Tester t) :
    (Attempt.begin (drain fuel) c).2.active = c.active := by
  induction fuel generalizing c with
  | zero => rfl
  | succ fuel ih =>
    cases h : c.state.popDue c.watermark with
    | none => rw [drain_none h]
    | some p =>
      obtain ⟨hmem, -, -, hs⟩ := TriggerState.popDue_some h
      obtain ⟨o, s', ho, -⟩ := TriggerState.timer_answers hmem ht
      rw [drain_some h (hs ▸ ho)]
      exact ih { c with state := s' }

theorem disjointed_step (ht : t.isBuiltIn = true) (hgap : 1 ≤ gap)
    (hfn : c.windowFn = .sessions gap) (hc : Disjointed c.Lives) {move : Move}
    (hmove : move.OnSessions gap) : Disjointed (c.step move).Lives := by
  cases hmove with
  | inject hfrom hto =>
    obtain ⟨_, c', h, hc', -⟩ := inject_hosts ht hgap hfn hc hfrom hto
    show Disjointed (Attempt.begin (inject _) c).2.Lives
    rw [h]
    exact hc'
  | advance target =>
    refine hc.congr fun w => ?_
    show w ∈ (Attempt.begin (drain _) _).2.active.keys ↔ _
    rw [drain_active ht]
    rfl
  | clear w =>
    refine hc.mono fun v hv => ?_
    obtain ⟨a, ha⟩ := WindowMap.mem_keys.mp hv
    rw [show (c.step (.clear w)).active = c.active.erase w from rfl, WindowMap.find?_erase] at ha
    split at ha
    · cases ha
    · exact WindowMap.mem_keys.mpr ⟨a, ha⟩

theorem after_disjointed (ht : t.isBuiltIn = true) (hgap : 1 ≤ gap) {moves : List Move}
    (hmoves : ∀ move ∈ moves, move.OnSessions gap) :
    Disjointed (after t (.sessions gap) moves).Lives := by
  induction moves using List.reverseRecOn with
  | nil => exact disjointed_empty.mono fun _ hw => List.not_mem_nil hw
  | append_singleton front move ih =>
    rw [after_concat]
    have hfn := windowFn_after ht (.sessions gap) front
    exact disjointed_step ht hgap hfn (ih fun m hm => hmoves m (List.mem_append_left _ hm))
      (hmoves move (by simp))

end Tester

/-! ### Grouping -/

namespace Grouper

variable {ν : Type} {s : Strategy} {g g' : Grouper s ν} {gap : Int}

theorem has_settle {w v : Window} {answer : Except Fault Outcome × TriggerState s.trigger}
    (h : g.settle w answer = .ok g') : g'.Has v ↔ g.Has v := by
  obtain ⟨o, -, rfl⟩ := ok_of_map h
  exact has_act

theorem has_deliverTimer {a : Timer} {v : Window} (h : g.deliverTimer a = .ok g') :
    g'.Has v ↔ g.Has v := by
  rcases deliverTimer_ok h with rfl | ⟨-, h⟩
  · rfl
  · exact has_settle h

theorem has_deliver {w v : Window} {timestamp : Int} {x : ν}
    (h : g.deliver w timestamp x = .ok g') : g'.Has v ↔ v = w ∨ g.Has v := by
  cases hc : (g.buffers.find? w).any (·.closed) with
  | true =>
    obtain rfl := Except.ok.inj ((deliver_closed hc).symm.trans h)
    have hw : g.Has w := by
      cases hb : g.buffers.find? w with
      | none => simp [hb] at hc
      | some b => exact ⟨b, hb⟩
    exact ⟨.inr, fun hv => hv.elim (fun e => e ▸ hw) id⟩
  | false =>
    rw [deliver_open hc] at h
    rw [has_settle h, Has, WindowMap.find?_insert, Has]
    split
    · rename_i h
      simp [h]
    · rename_i h
      simp [Ne.symm h]

/-- The watermark opens no window. -/
theorem has_of_advance (ht : s.trigger.isBuiltIn = true) {target : Int}
    (h : g.advance target = .ok g') {v : Window} (hv : g'.Has v) : g.Has v := by
  by_cases hle : target ≤ g.watermark
  · rwa [← Except.ok.inj ((advance_of_le hle).symm.trans h)] at hv
  · obtain ⟨g₁, hadvance, hkept, -⟩ := advance_rule (P := fun g₁ : Grouper s ν => g₁.Has v → g.Has v)
      ht (fun g₁ a g₂ hP _ _ _ hdeliver hv => hP ((has_deliverTimer hdeliver).mp hv))
      (by omega : g.watermark < target) id
    rw [← Except.ok.inj (hadvance.symm.trans h)] at hv
    obtain ⟨b, hb⟩ := hv
    rw [find?_collectAll] at hb
    split at hb
    · cases hb
    · exact hkept ⟨b, hb⟩

theorem has_of_follow (ht : s.trigger.isBuiltIn = true) {mode : InputWatermark} {timestamp : Int}
    (h : g.follow mode timestamp = .ok g') {v : Window} (hv : g'.Has v) : g.Has v := by
  cases mode with
  | elementTime => exact has_of_advance ht h hv
  | heldUntilEnd => rwa [Except.ok.inj h]

theorem mergeEach_has {ms : List Merge} (hplan : MergePlan g.Has ms) {w v : Window}
    (h : mergeEach ms g w = .ok (g', v)) :
    v = routed ms w ∧ ∀ u, g'.Has u ↔ performed ms g.Has u := by
  induction ms generalizing g w with
  | nil =>
    obtain ⟨rfl, rfl⟩ := Prod.ext_iff.mp (Except.ok.inj h)
    exact ⟨rfl, fun _ => Iff.rfl⟩
  | cons m rest ih =>
    obtain ⟨g₁, hone, hrest⟩ := ok_of_bind h
    have hhas := has_mergeOne (hplan.nodup m (List.mem_cons_self ..)) hone
    obtain ⟨hv, hlives⟩ := ih (hplan.tail.congr hhas) hrest
    exact ⟨hv, fun u => (hlives u).trans (performed_congr rest hhas u)⟩

/-- A listing that is not dropped goes to the one live window that overlaps its own. -/
theorem place_hosts (hfn : s.windowFn = .sessions gap) (hg : Disjointed g.Has) {assigned : Window}
    (hproper : assigned.Proper) {timestamp : Int} {x : ν}
    (h : g.place timestamp x assigned = .ok g') : Disjointed g'.Has ∧
      (¬s.expiry assigned < g.watermark → ∃ g₁ w,
        (g.opened assigned).mergeWindows assigned = .ok (g₁, w) ∧
        g₁.deliver w timestamp x = .ok g' ∧ Hosts g'.Has w assigned) := by
  unfold place at h
  split at h
  · rename_i hexpired
    rw [← Except.ok.inj h]
    exact ⟨hg, fun hlive => absurd hexpired hlive⟩
  · obtain ⟨⟨g₁, w⟩, hmerge, hdeliver⟩ := ok_of_bind h
    have hkeys : ∀ v, (g.opened assigned).Has v ↔ v ∈ (g.opened assigned).buffers.keys :=
      fun v => WindowMap.mem_keys.symm
    have hordered : ∀ v ∈ (g.opened assigned).buffers.keys, v.Ordered := by
      intro v hv
      rcases has_opened.mp ((hkeys v).mpr hv) with rfl | hv
      · exact hproper.ordered
      · exact hg.ordered v hv
    have heach : mergeEach (WindowFn.overlapping (g.opened assigned).buffers.keys)
        (g.opened assigned) assigned = .ok (g₁, w) := by
      rw [mergeWindows, hfn] at hmerge
      exact hmerge
    have hplan := WindowFn.overlapping_plan (WindowMap.keys_sorted _) hordered
    obtain ⟨rfl, hlives⟩ := mergeEach_has (hplan.congr hkeys) heach
    have hhosts := overlapping_hosts hordered ((hkeys _).mp (has_opened.mpr (.inl rfl))) hproper
    -- the element makes no window live that was not live before
    have hafter : ∀ v, g'.Has v ↔ performed
        (WindowFn.overlapping (g.opened assigned).buffers.keys)
        (· ∈ (g.opened assigned).buffers.keys) v := by
      intro v
      rw [has_deliver hdeliver, hlives v, performed_congr _ hkeys v]
      exact ⟨fun h => h.elim (fun h => h ▸ hhosts.lives) id, .inr⟩
    exact ⟨(overlapping_disjointed hordered).congr hafter, fun _ =>
      ⟨g₁, _, hmerge, hdeliver, hhosts.congr hafter⟩⟩

/-- Taking an element that opens a session succeeds. -/
theorem take_hosts (ht : s.trigger.isBuiltIn = true) (hfn : s.windowFn = .sessions gap)
    (mode : InputWatermark) (hg : Disjointed g.Has) {e : Envelope ν} (he : Opens gap e) :
    let assigned : Window := .interval e.timestamp (e.timestamp + gap)
    ∃ g₁ g₂ : Grouper s ν, g.follow mode e.timestamp = .ok g₁ ∧
      g₁.place e.timestamp e.value assigned = .ok g₂ ∧ g.take mode e = .ok g₂ ∧
      Disjointed g₁.Has ∧ Disjointed g₂.Has ∧
      (¬s.expiry assigned < g₁.watermark → ∃ g₃ w,
        (g₁.opened assigned).mergeWindows assigned = .ok (g₃, w) ∧
        g₃.deliver w e.timestamp e.value = .ok g₂ ∧ Hosts g₂.Has w assigned) := by
  intro assigned
  have hanswers : s.windowFn.MergesAny := .inr fun active => ⟨_, by rw [hfn]; rfl⟩
  obtain ⟨g₁, hfollow⟩ := follow_answers ht mode g e.timestamp
  obtain ⟨g₂, hplace⟩ := place_answers ht hanswers g₁ e.timestamp e.value assigned
  have hg₁ : Disjointed g₁.Has := hg.mono fun v hv => has_of_follow ht hfollow hv
  obtain ⟨hg₂, hhosts⟩ := place_hosts hfn hg₁ he.2 hplace
  refine ⟨g₁, g₂, hfollow, hplace, ?_, hg₁, hg₂, hhosts⟩
  rw [take_eq, hfollow, he.1]
  show List.foldlM (fun (g : Grouper s ν) w => g.place e.timestamp e.value w) g₁ [assigned] = _
  rw [List.foldlM_cons, hplace]
  rfl

theorem foldlM_take_disjointed (ht : s.trigger.isBuiltIn = true)
    (hfn : s.windowFn = .sessions gap) (mode : InputWatermark) {elements : List (Envelope ν)}
    (hopens : ∀ e ∈ elements, Opens gap e) :
    ∃ g : Grouper s ν, elements.foldlM (take mode) {} = .ok g ∧ Disjointed g.Has := by
  refine foldlM_rule (take mode) (fun _ g => Disjointed g.Has) (fun front e back g heq hg => ?_)
    (disjointed_empty.mono fun w hw => ?_)
  · have he : Opens gap e := hopens e (by simp [heq])
    obtain ⟨_, g', -, -, htake, -, hg', -⟩ := take_hosts ht hfn mode hg he
    exact ⟨g', htake, hg'⟩
  · obtain ⟨b, hb⟩ := hw
    cases hb

end Grouper

/-- Session windows stay disjoint under any built-in tree. However elements, the watermark and
clearing interleave, no two live windows overlap, and an element goes to the one live window that
overlaps its own. The same holds before and after each listing of a grouping, unless the listing
came too late. -/
theorem sessions_stay_disjoint {t : Trigger} (ht : t.isBuiltIn = true) {gap : Int}
    (hgap : 1 ≤ gap) :
    (∀ moves : List Tester.Move, (∀ move ∈ moves, move.OnSessions gap) →
      Disjointed (Tester.after t (.sessions gap) moves).Lives ∧
      ∀ timestamp, InRange timestamp → InRange (timestamp + gap) → ∃ w o,
        (Tester.after t (.sessions gap) moves).report (.inject timestamp) = .ok [(w, o)] ∧
        Hosts (Tester.after t (.sessions gap) (moves ++ [.inject timestamp])).Lives w
          (.interval timestamp (timestamp + gap))) ∧
    ∀ (ν : Type) (accumulation : AccumulationMode) (lateness : Int) (mode : InputWatermark)
      (elements : List (Envelope ν)),
      (∀ e ∈ elements, (WindowFn.sessions gap).assign e.timestamp = .ok e.windows ∧
        InRange e.timestamp ∧ InRange (e.timestamp + gap)) →
      ∀ (front : List (Envelope ν)) (e : Envelope ν) (back : List (Envelope ν)),
        Grouper.inTimeOrder elements = front ++ e :: back →
        let s : Strategy := ⟨.sessions gap, t, accumulation, lateness⟩
        let assigned : Window := .interval e.timestamp (e.timestamp + gap)
        ∃ g₀ g₁ g₂ : Grouper s ν, front.foldlM (Grouper.take mode) {} = .ok g₀ ∧
          g₀.follow mode e.timestamp = .ok g₁ ∧
          g₁.place e.timestamp e.value assigned = .ok g₂ ∧ g₀.take mode e = .ok g₂ ∧
          Disjointed g₀.Has ∧ Disjointed g₁.Has ∧ Disjointed g₂.Has ∧
          (¬s.expiry assigned < g₁.watermark → ∃ g₃ w,
            (g₁.opened assigned).mergeWindows assigned = .ok (g₃, w) ∧
            g₃.deliver w e.timestamp e.value = .ok g₂ ∧ Hosts g₂.Has w assigned) := by
  constructor
  · intro moves hmoves
    have hdisjointed := Tester.after_disjointed ht hgap hmoves
    refine ⟨hdisjointed, fun timestamp hfrom hto => ?_⟩
    have hfn := Tester.windowFn_after ht (.sessions gap) moves
    obtain ⟨_, c', h, -, w, o, rfl, hhosts⟩ :=
      Tester.inject_hosts ht hgap hfn hdisjointed hfrom hto
    have hstep : (Tester.after t (.sessions gap) moves).step (.inject timestamp) = c' :=
      congrArg Prod.snd h
    refine ⟨w, o, congrArg Prod.fst h, ?_⟩
    rw [Tester.after_concat, hstep]
    exact hhosts
  · intro ν accumulation lateness mode elements helements front e back heq s assigned
    have hopens : ∀ d ∈ Grouper.inTimeOrder elements, Opens gap d := by
      intro d hd
      obtain ⟨hassign, hfrom, hto⟩ := helements d (Grouper.mem_inTimeOrder.mp hd)
      exact opens_of_assign hgap hassign hfrom hto
    rw [heq] at hopens
    obtain ⟨g₀, hfront, hg₀⟩ := Grouper.foldlM_take_disjointed (s := s) ht rfl mode
      fun d hd => hopens d (List.mem_append_left _ hd)
    have he : Opens gap e := hopens e (List.mem_append_right _ (List.mem_cons_self ..))
    obtain ⟨g₁, g₂, hfollow, hplace, htake, hg₁, hg₂, hhosts⟩ :=
      Grouper.take_hosts (s := s) ht rfl mode hg₀ he
    exact ⟨g₀, g₁, g₂, hfront, hfollow, hplace, htake, hg₀, hg₁, hg₂, hhosts⟩

open TriggerState in
/-- An element comes between two sessions and joins them, by hand after the watermark has fired the
first one, and in a grouping before the second one has opened. -/
theorem sessions_stay_disjoint_of_bridge :
    let moves : List Tester.Move := [.inject 0, .inject 15, .advance 12, .clear (.interval 40 50)]
    let elements : List (Envelope Nat) := [⟨10, 15, [.interval 15 25], .noFiring⟩,
      ⟨20, 0, [.interval 0 10], .noFiring⟩, ⟨30, 8, [.interval 8 18], .noFiring⟩]
    untilSecond.isBuiltIn = true ∧ (∀ move ∈ moves, move.OnSessions 10) ∧
      (∀ e ∈ elements, (WindowFn.sessions 10).assign e.timestamp = .ok e.windows ∧
        InRange e.timestamp ∧ InRange (e.timestamp + 10)) ∧
      (∃ o, (Tester.after untilSecond (.sessions 10) moves).report (.inject 8) =
          .ok [(.interval 0 25, o)] ∧
        Hosts (Tester.after untilSecond (.sessions 10) (moves ++ [.inject 8])).Lives
          (.interval 0 25) (.interval 8 18)) ∧
      ∃ g : Grouper ⟨.sessions 10, untilSecond, .discarding, 0⟩ Nat,
        (Grouper.inTimeOrder elements).foldlM (Grouper.take .elementTime) {} = .ok g ∧
        Hosts g.Has (.interval 0 25) (.interval 15 25) := by
  intro moves elements
  have hgap : (1 : Int) ≤ 10 := by decide
  obtain ⟨hhand, hgrouping⟩ := sessions_stay_disjoint (t := untilSecond) rfl hgap
  have hrange : ∀ timestamp ∈ [(0 : Int), 8, 15],
      InRange timestamp ∧ InRange (timestamp + 10) := by decide
  have hmoves : ∀ move ∈ moves, move.OnSessions 10 := by
    simp only [moves, List.forall_mem_cons]
    exact ⟨.inject (hrange 0 (by decide)).1 (hrange 0 (by decide)).2,
      .inject (hrange 15 (by decide)).1 (hrange 15 (by decide)).2, .advance 12, .clear _, nofun⟩
  have helements : ∀ e ∈ elements, (WindowFn.sessions 10).assign e.timestamp = .ok e.windows ∧
      InRange e.timestamp ∧ InRange (e.timestamp + 10) := by
    simp [elements, WindowFn.sessions, later, clamp, InRange, minTime, maxTime]
  refine ⟨rfl, hmoves, helements, ?_, ?_⟩
  · obtain ⟨w, o, hreport, hhosts⟩ := (hhand moves hmoves).2 8 (hrange 8 (by decide)).1
      (hrange 8 (by decide)).2
    have hwindow : ((Tester.after untilSecond (.sessions 10) moves).report (.inject 8)).map
        (·.map Prod.fst) = .ok [.interval 0 25] := by cbv
    rw [hreport] at hwindow
    obtain ⟨rfl, -⟩ := List.cons.inj (Except.ok.inj hwindow)
    exact ⟨o, hreport, hhosts⟩
  · have horder : Grouper.inTimeOrder elements = [⟨20, 0, [.interval 0 10], .noFiring⟩,
        ⟨30, 8, [.interval 8 18], .noFiring⟩] ++ [⟨10, 15, [.interval 15 25], .noFiring⟩] := by cbv
    obtain ⟨g₀, g₁, g₂, hfront, hfollow, -, htake, -, -, -, hhosts⟩ :=
      hgrouping Nat .discarding 0 .elementTime elements helements _ _ [] horder
    have hall : (Grouper.inTimeOrder elements).foldlM (Grouper.take .elementTime) {} = .ok g₂ := by
      rw [horder, List.foldlM_append, hfront]
      show List.foldlM (Grouper.take .elementTime) g₀ _ = _
      rw [List.foldlM_cons, htake]
      rfl
    have hwatermark : (Except.bind (List.foldlM (Grouper.take .elementTime)
        ({} : Grouper ⟨.sessions 10, untilSecond, .discarding, 0⟩ Nat)
        [⟨20, 0, [.interval 0 10], .noFiring⟩, ⟨30, 8, [.interval 8 18], .noFiring⟩])
          fun g => g.follow .elementTime 15).map (·.watermark) = .ok 15 := by cbv
    have hkeys : (List.foldlM (Grouper.take .elementTime)
        ({} : Grouper ⟨.sessions 10, untilSecond, .discarding, 0⟩ Nat)
        (Grouper.inTimeOrder elements)).map (·.buffers.keys) = .ok [.interval 0 25] := by cbv
    rw [hfront] at hwatermark
    simp only [Except.bind, hfollow] at hwatermark
    have hwatermark : g₁.watermark = 15 := Except.ok.inj hwatermark
    rw [hall] at hkeys
    have hkeys : g₂.buffers.keys = [.interval 0 25] := Except.ok.inj hkeys
    obtain ⟨_, w, -, -, hhosts⟩ := hhosts (by rw [hwatermark]; decide)
    have hw : w ∈ g₂.buffers.keys := WindowMap.mem_keys.mpr hhosts.lives
    rw [hkeys] at hw
    obtain rfl := List.mem_singleton.mp hw
    exact ⟨g₂, hall, hhosts⟩

end EventTime
