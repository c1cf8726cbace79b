import EventTime.Proofs.Splits
import EventTime.Proofs.Trigger.Deliveries
import EventTime.Proofs.Trigger.Driving
import EventTime.Proofs.Trigger.Renumbering
import EventTime.Proofs.Trigger.Rollback

/-!
# The first child to fire

A choice of the first is compared with its children run alone, each as the root of its own tester,
through elements of one window and moves of the watermark. Nothing fires before the first move at
which some child alone fires; at that move the choice fires once and finishes; and from then on it
answers nothing.
-/

namespace EventTime

namespace Trigger

/-- The slots of several trees hold the states that `alone` gives for them. -/
def HoldAll (alone : (t : Trigger) → t.State) : (ts : List Trigger) → Memories ts → Prop
  | [], _ => True
  | t :: ts, m => m.1 = alone t ∧ HoldAll alone ts m.2

theorem holdAll_blanks (ts : List Trigger) : HoldAll fresh ts (blanks ts) := by
  induction ts with
  | nil => trivial
  | cons t ts ih => exact ⟨rfl, ih⟩

theorem isBuiltInAll_of_afterFirst {ts : List Trigger} (h : (afterFirst ts).isBuiltIn = true) :
    isBuiltInAll ts = true := by
  simp only [isBuiltIn, Bool.and_eq_true] at h
  exact h.2

theorem isBuiltIn_of_mem {t : Trigger} {ts : List Trigger} (h : isBuiltInAll ts = true)
    (ht : t ∈ ts) : t.isBuiltIn = true := by
  induction ts with
  | nil => cases ht
  | cons u ts ih =>
    simp only [isBuiltInAll, Bool.and_eq_true] at h
    rcases List.mem_cons.mp ht with rfl | ht
    · exact h.1
    · exact ih h.2 ht

section Alone

variable {alone : (t : Trigger) → t.State} {ts : List Trigger}

theorem HoldAll.congr {alone' : (t : Trigger) → t.State} {m : Memories ts} (h : HoldAll alone ts m)
    (heq : ∀ t ∈ ts, alone t = alone' t) : HoldAll alone' ts m := by
  induction ts with
  | nil => trivial
  | cons t ts ih =>
    obtain ⟨heq, hrest⟩ := List.forall_mem_cons.mp heq
    exact ⟨h.1.trans heq, ih h.2 hrest⟩

theorem HoldAll.runningAll {m : Memories ts} (h : HoldAll alone ts m)
    (hopen : ∀ t ∈ ts, t.Open (alone t)) : RunningAll ts m := by
  induction ts with
  | nil => trivial
  | cons t ts ih =>
    obtain ⟨hopen, hrest⟩ := List.forall_mem_cons.mp hopen
    refine ⟨?_, ih h.2 hrest⟩
    rw [h.1]
    exact ⟨hopen.unfinished, hopen.running⟩

/-- One step of a race: the first of two either fires and ends it, or leaves the race to the
other. -/
theorem next_race {σ τ : Type} {r : Step (Slot σ) Outcome} {rest : Step τ Outcome} {m : τ}
    {o o' : Outcome} (ho : r.answer = .ok o) (ho' : o.fires = false → rest.answer = .ok o') :
    ∃ wrote, (r.next (·, m) fun s o =>
      if o.fires then .quiet (s, m) (.ok .fireAndFinish)
      else rest.next (s, ·) fun u o => .quiet (s, u) (.ok o)) =
        if o.fires then ⟨(r.state, m), wrote, .ok .fireAndFinish⟩
        else ⟨(r.state, rest.state), wrote, .ok o'⟩ := by
  rw [Step.next_ok ho]
  cases hfires : o.fires with
  | true => exact ⟨_, rfl⟩
  | false =>
    simp only [Bool.false_eq_true, if_false]
    rw [Step.next_ok (ho' hfires)]
    exact ⟨_, rfl⟩

theorem HoldAll.offer_head {e : ElementEvent} {t : Trigger} {m : Memories (t :: ts)}
    (h : HoldAll alone (t :: ts) m) (node : Nat) (hb : t.isBuiltIn = true) :
    m.1.offer (t.onElement e node) = (alone t).offer (t.onElement e 0) := by
  rw [h.1, onElement_renumber e t node 0 hb]

/-- If no child alone fires at an element, the choice is idle and its children go on as they do
alone. -/
theorem HoldAll.onElement_idle {e : ElementEvent} (node : Nat) {m : Memories ts}
    (h : HoldAll alone ts m) (hb : isBuiltInAll ts = true)
    (hidle : ∀ t ∈ ts, ∃ o : Outcome,
      ((alone t).offer (t.onElement e 0)).answer = .ok o ∧ o.fires = false) :
    (onElementAmong e ts node m).answer = .ok .idle ∧
      HoldAll (fun t => ((alone t).offer (t.onElement e 0)).state) ts
        (onElementAmong e ts node m).state := by
  induction ts generalizing node with
  | nil => exact ⟨rfl, trivial⟩
  | cons t ts ih =>
    simp only [isBuiltInAll, Bool.and_eq_true] at hb
    obtain ⟨⟨o, ho, hfires⟩, hrest⟩ := List.forall_mem_cons.mp hidle
    obtain ⟨hanswer, hstate⟩ := ih (node + t.size) h.2 hb.2 hrest
    have hslot := h.offer_head (e := e) node hb.1
    obtain ⟨wrote, hrace⟩ := next_race (m := m.2) (hslot ▸ ho) fun _ => hanswer
    rw [hfires, if_neg Bool.false_ne_true] at hrace
    have hwhole : onElementAmong e (t :: ts) node m = _ := hrace
    rw [hwhole]
    exact ⟨rfl, congrArg Step.state hslot, hstate⟩

/-- If some child alone fires at an element, the choice fires and finishes. -/
theorem HoldAll.onElement_fires {e : ElementEvent} (node : Nat) {m : Memories ts}
    (h : HoldAll alone ts m) (hb : isBuiltInAll ts = true)
    (hfires : ∃ t ∈ ts, ∃ o : Outcome,
      ((alone t).offer (t.onElement e 0)).answer = .ok o ∧ o.fires = true) :
    (onElementAmong e ts node m).answer = .ok .fireAndFinish := by
  induction ts generalizing node with
  | nil =>
    obtain ⟨t, ht, -⟩ := hfires
    cases ht
  | cons t ts ih =>
    simp only [isBuiltInAll, Bool.and_eq_true] at hb
    obtain ⟨o, ho⟩ := Slot.offer_answers (s := alone t) (t.onElement_answers e 0 _ hb.1)
    have hrest : o.fires = false →
        (onElementAmong e ts (node + t.size) m.2).answer = .ok .fireAndFinish := by
      intro hidle
      obtain ⟨u, hu, o', ho', hf⟩ := hfires
      refine ih (node + t.size) h.2 hb.2 ⟨u, (List.mem_cons.mp hu).resolve_left ?_, o', ho', hf⟩
      rintro rfl
      rw [ho] at ho'
      obtain rfl := Except.ok.inj ho'
      rw [hidle] at hf
      cases hf
    obtain ⟨wrote, hrace⟩ := next_race (m := m.2) (h.offer_head node hb.1 ▸ ho) hrest
    have hwhole : onElementAmong e (t :: ts) node m = _ := hrace
    rw [hwhole]
    split <;> rfl

/-- The pending timers of the choice are those of its children, up to their numbers. -/
theorem HoldAll.exists_timer_iff (node : Nat) {m : Memories ts} (h : HoldAll alone ts m)
    (P : Int → Prop) : (∃ p ∈ timersAmong ts node m, P p.1) ↔
      ∃ t ∈ ts, ∃ p ∈ t.timersFrom 0 (alone t).memory, P p.1 := by
  induction ts generalizing node with
  | nil => simp [timersAmong]
  | cons t ts ih =>
    have hhead : (∃ p ∈ t.timersFrom node m.1.memory, P p.1) ↔
        ∃ p ∈ t.timersFrom 0 (alone t).memory, P p.1 := by
      rw [← Nat.zero_add node, timersFrom_renumber node t 0, h.1]
      simp only [List.mem_map, movedBy]
      constructor
      · rintro ⟨_, ⟨p, hp, rfl⟩, hP⟩
        exact ⟨p, hp, hP⟩
      · rintro ⟨p, hp, hP⟩
        exact ⟨_, ⟨p, hp, rfl⟩, hP⟩
    simp only [timersAmong, List.mem_append, or_and_right, exists_or, List.mem_cons,
      exists_eq_left, hhead, ih (node + t.size) h.2]

end Alone

theorem onTimerAmong_ne_fire {e : TimerEvent} {parent : Nat} (ts : List Trigger) (node : Nat)
    (m : Memories ts) : (onTimerAmong e parent ts node m).answer ≠ .ok .fire := by
  intro h
  induction ts generalizing node with
  | nil => cases h
  | cons t ts ih =>
    unfold onTimerAmong at h
    split at h
    · obtain ⟨o, -, h⟩ := Step.answer_of_next h
      cases o <;> cases h
    · obtain ⟨o, ho, h⟩ := Step.answer_of_next h
      cases h
      exact ih (node + t.size) m.2 ho

theorem offer_ne_fire {e : TimerEvent} {ts : List Trigger} (u : (Trigger.afterFirst ts).State) :
    (u.offer ((Trigger.afterFirst ts).onTimer e 0)).answer ≠ .ok .fire := by
  intro h
  unfold Slot.offer at h
  split at h
  · cases h
  · obtain ⟨o, ho, h⟩ := Step.answer_of_next h
    cases h
    by_cases hd : e.destination = 0
    · rw [show Trigger.onTimer e (.afterFirst ts) 0 u.memory = _ from if_pos hd] at ho
      cases ho
    · rw [show Trigger.onTimer e (.afterFirst ts) 0 u.memory = _ from if_neg hd] at ho
      exact onTimerAmong_ne_fire ts (0 + 1) u.memory ho

end Trigger

/-! ### States of one window -/

namespace TriggerState

variable {t : Trigger} {s : TriggerState t} {w v : Window}

/-- No window but `w` has a state. -/
def Only (s : TriggerState t) (w : Window) : Prop := ∀ v, v ≠ w → s.find? v = none

theorem find?_deliver_of_ne (h : w ≠ v) (e : Delivery) :
    (s.deliver w e).2.find? v = s.find? v := by
  cases e with
  | element timestamp => exact find?_element_of_ne s h
  | timer timestamp node =>
    refine (find?_timer_of_ne _ (e := ⟨w, node, timestamp⟩) h).trans ?_
    rw [find?_cancel, if_neg h]

theorem Only.deliver (h : s.Only w) (e : Delivery) : (s.deliver w e).2.Only w :=
  fun v hv => (find?_deliver_of_ne (Ne.symm hv) e).trans (h v hv)

theorem Only.window (h : s.Only w) {a : Timer} (ha : a ∈ s.timers) : a.window = w := by
  obtain ⟨state, hs, -⟩ := mem_timers.mp ha
  by_contra hne
  rw [h a.window hne] at hs
  cases hs

theorem Only.exists_timer_iff (h : s.Only w) (P : Int → Prop) :
    (∃ a ∈ s.timers, P a.timestamp) ↔
      ∃ p ∈ t.timersFrom 0 (s.stateOf w).memory, P p.1 := by
  constructor
  · rintro ⟨a, ha, hP⟩
    obtain ⟨state, hs, hmem⟩ := mem_timers.mp ha
    rw [h.window ha] at hs
    rw [stateOf_of_some hs]
    exact ⟨_, hmem, hP⟩
  · rintro ⟨p, hp, hP⟩
    cases hs : s.find? w with
    | none =>
      rw [stateOf_of_none hs] at hp
      exact absurd hp (by simp [Trigger.fresh, Slot.start, t.timersFrom_blank])
    | some state =>
      rw [stateOf_of_some hs] at hp
      exact ⟨⟨p.1, w, p.2⟩, mem_timers.mpr ⟨state, hs, hp⟩, hP⟩

/-- The next due timer of an open window makes its root fire. -/
theorem Only.next_fires (h : s.Only w) (ht : t.isBuiltIn = true) (hopen : t.Open (s.stateOf w))
    {watermark : Int} (hdue : ∃ a ∈ s.timers, a.timestamp < watermark) :
    ∃ a s' o, s.popDue watermark = some (a, s') ∧ a.window = w ∧
      (s'.timer a.event).1 = .ok o ∧ o.fires = true ∧
      (o.finishes = true → (s'.timer a.event).2.Closed w) ∧ (s'.timer a.event).2.Only w := by
  obtain ⟨b, hb, hlt⟩ := hdue
  cases hpop : s.popDue watermark with
  | none =>
    have hnil := popDue_eq_none_iff.mp hpop
    exact absurd (List.mem_filter.mpr ⟨hb, by simpa using hlt⟩) (hnil ▸ List.not_mem_nil)
  | some p =>
    obtain ⟨a, s'⟩ := p
    obtain ⟨ha, -, -, rfl⟩ := popDue_some hpop
    obtain rfl := h.window ha
    obtain ⟨state, hs, -⟩ := mem_timers.mp ha
    rw [stateOf_of_some hs] at hopen
    obtain ⟨o, state', htimer, hfires, hleaves⟩ := timer_open ht ha hs hopen
    refine ⟨a, _, o, rfl, rfl, congrArg Prod.fst htimer, hfires, fun hf => ?_, ?_⟩
    · rw [htimer]
      exact ⟨state', WindowMap.find?_insert_self .., hleaves.finished.trans hf⟩
    · exact h.deliver (.timer a.timestamp a.node)

theorem timer_ne_fire {ts : List Trigger} (s : TriggerState (.afterFirst ts)) (e : TimerEvent) :
    (s.timer e).1 ≠ .ok .fire := by
  intro h
  simp only [timer, commit] at h
  split at h
  · split at h
    · rename_i o ho
      rw [Except.ok.inj h] at ho
      exact Trigger.offer_ne_fire _ ho
    · cases h
  · cases h

end TriggerState

namespace Tester

variable {t : Trigger} {c : Tester t} {w : Window}

/-- A move on one window: an element of the window, or a move of the watermark. -/
def Move.Stays (w : Window) : Move → Prop
  | .element v _ => v = w
  | .advance _ => True
  | _ => False

def Fires (c : Tester t) (move : Move) : Prop :=
  ∃ reports, c.report move = .ok reports ∧ ∃ p ∈ reports, p.2.fires = true

theorem begin_element (c : Tester t) (w : Window) (timestamp : Int) :
    (perform (.element w timestamp)).begin c =
      ((c.state.deliver w (.element timestamp)).1.map fun o => [(w, o)],
        { c with
          state := (c.state.deliver w (.element timestamp)).2, active := c.active.add w }) :=
  Attempt.begin_return ..

theorem begin_advance_of_none {target : Int}
    (h : c.state.dueTimers (max c.watermark target) = []) :
    (perform (.advance target)).begin c =
      (.ok [], { c with watermark := max c.watermark target }) := by
  show Attempt.begin (drain (c.state.dueTimers (max c.watermark target)).length) _ = _
  rw [h]
  rfl

/-- A move of the watermark that passes a timer delivers the first one it passes, and goes on. -/
theorem begin_advance_of_due {target : Int} {a : Timer} {s : TriggerState t} {o : Outcome}
    (hpop : c.state.popDue (max c.watermark target) = some (a, s))
    (ho : (s.timer a.event).1 = .ok o) : ∃ fuel, (perform (.advance target)).begin c =
      (((drain fuel).begin { c with
          state := (s.timer a.event).2, watermark := max c.watermark target }).1.map
            ((a.window, o) :: ·),
        ((drain fuel).begin { c with
          state := (s.timer a.event).2, watermark := max c.watermark target }).2) := by
  obtain ⟨fuel, hfuel⟩ : ∃ fuel,
      (c.state.dueTimers (max c.watermark target)).length = fuel + 1 := by
    refine Nat.exists_eq_succ_of_ne_zero fun hzero => ?_
    rw [TriggerState.popDue_eq_none_iff.mpr (List.eq_nil_of_length_eq_zero hzero)] at hpop
    cases hpop
  refine ⟨fuel, ?_⟩
  show Attempt.begin (drain (c.state.dueTimers (max c.watermark target)).length) _ = _
  rw [hfuel]
  exact drain_some (c := { c with watermark := max c.watermark target }) hpop (Prod.ext ho rfl)

theorem drain_of_closed (fuel : Nat) {c : Tester t} (hclosed : c.state.Closed w)
    (honly : c.state.Only w) :
    (∃ reports, ((drain fuel).begin c).1 = .ok reports ∧ ∀ p ∈ reports, p.2 = .idle) ∧
      ((drain fuel).begin c).2.state.Closed w ∧ ((drain fuel).begin c).2.state.Only w := by
  induction fuel generalizing c with
  | zero => exact ⟨⟨[], rfl, nofun⟩, hclosed, honly⟩
  | succ fuel ih =>
    cases hpop : c.state.popDue c.watermark with
    | none =>
      rw [drain_none hpop]
      exact ⟨⟨[], rfl, nofun⟩, hclosed, honly⟩
    | some p =>
      obtain ⟨a, s⟩ := p
      obtain ⟨ha, -, -, rfl⟩ := TriggerState.popDue_some hpop
      obtain rfl := honly.window ha
      obtain ⟨hanswer, hclosed'⟩ := hclosed.deliver (.timer a.timestamp a.node)
      obtain ⟨⟨reports, hreports, hidle⟩, hrest⟩ := ih (c := { c with
        state := ((c.state.cancel a).timer a.event).2 }) hclosed'
          (honly.deliver (.timer a.timestamp a.node))
      rw [drain_some hpop (Prod.ext hanswer rfl), hreports]
      exact ⟨⟨_, rfl, List.forall_mem_cons.mpr ⟨rfl, hidle⟩⟩, hrest⟩

theorem report_of_closed (hclosed : c.state.Closed w) (honly : c.state.Only w) {move : Move}
    (hmove : move.Stays w) :
    (∃ reports, c.report move = .ok reports ∧ ∀ p ∈ reports, p.2 = .idle) ∧
      (c.step move).state.Closed w ∧ (c.step move).state.Only w := by
  cases move with
  | element v timestamp =>
    obtain rfl := hmove
    obtain ⟨hanswer, hclosed'⟩ := hclosed.deliver (.element timestamp)
    rw [report, step, begin_element, hanswer]
    exact ⟨⟨_, rfl, List.forall_mem_singleton.mpr rfl⟩, hclosed', honly.deliver _⟩
  | advance target =>
    exact drain_of_closed _ (c := { c with watermark := max c.watermark target }) hclosed honly
  | _ => cases hmove

/-! ### The choice and its children -/

/-- The choice holds what its children hold when run alone, and all of them run. -/
structure Together {ts : List Trigger} (c : Tester (.afterFirst ts))
    (alone : (t : Trigger) → Tester t) (w : Window) : Prop where
  unfinished : (c.state.stateOf w).finished = false
  hold : Trigger.HoldAll (fun t => (alone t).state.stateOf w) ts (c.state.stateOf w).memory
  opens : ∀ t ∈ ts, t.Open ((alone t).state.stateOf w)
  only : c.state.Only w
  alone_only : ∀ t ∈ ts, (alone t).state.Only w
  watermark : ∀ t ∈ ts, (alone t).watermark = c.watermark

/-- What a move of the choice and its children leads to. -/
structure Races {ts : List Trigger} (c : Tester (.afterFirst ts))
    (alone : (t : Trigger) → Tester t) (w : Window) (move : Move) : Prop where
  idle : (¬∃ t ∈ ts, (alone t).Fires move) →
    (∃ reports, c.report move = .ok reports ∧ ∀ p ∈ reports, p.2 = .idle) ∧
      Together (c.step move) (fun t => (alone t).step move) w
  fires : (∃ t ∈ ts, (alone t).Fires move) →
    (∃ reports, c.report move = .ok reports ∧
      reports.filter (fun p => p.2.fires) = [(w, .fireAndFinish)]) ∧
      (c.step move).state.Closed w ∧ (c.step move).state.Only w

section Race

variable {ts : List Trigger} {c : Tester (.afterFirst ts)} {alone : (t : Trigger) → Tester t}

theorem Together.isOpen (h : Together c alone w) :
    (Trigger.afterFirst ts).Open (c.state.stateOf w) :=
  ⟨h.unfinished, h.hold.runningAll h.opens⟩

theorem fires_element {t : Trigger} {c : Tester t} {timestamp : Int} {o : Outcome}
    (h : (c.state.deliver w (.element timestamp)).1 = .ok o) :
    c.Fires (.element w timestamp) ↔ o.fires = true := by
  have hreport : c.report (.element w timestamp) = .ok [(w, o)] := by
    rw [report, begin_element, h]
    rfl
  simp only [Fires, hreport, Except.ok.injEq, exists_eq_left', List.mem_singleton, exists_eq_left]

/-- The choice answers an element as its children in a row do, and holds what they leave. -/
theorem Together.deliver_element (h : Together c alone w)
    (ht : (Trigger.afterFirst ts).isBuiltIn = true) {timestamp : Int} {o : Outcome}
    (hanswer : (Trigger.onElementAmong ⟨w, timestamp⟩ ts (0 + 1)
      (c.state.stateOf w).memory).answer = .ok o) :
    c.state.deliver w (.element timestamp) = (.ok o, c.state.insert w ⟨o.finishes,
      (Trigger.onElementAmong ⟨w, timestamp⟩ ts (0 + 1) (c.state.stateOf w).memory).state⟩) := by
  obtain ⟨o', ho, hdeliver, -⟩ := TriggerState.element_of_open ht h.isOpen timestamp
  have hoffer : (c.state.stateOf w).offer
      ((Trigger.afterFirst ts).onElement ⟨w, timestamp⟩ 0) = _ :=
    Slot.offer_of_open h.unfinished hanswer
  rw [hoffer] at ho hdeliver
  obtain rfl := Except.ok.inj ho
  exact hdeliver

theorem Together.element (h : Together c alone w) (ht : (Trigger.afterFirst ts).isBuiltIn = true)
    (timestamp : Int) : Races c alone w (.element w timestamp) := by
  have hts := Trigger.isBuiltInAll_of_afterFirst ht
  have hone := fun t (hmem : t ∈ ts) => TriggerState.element_of_open
    (Trigger.isBuiltIn_of_mem hts hmem) (h.opens t hmem) timestamp
  refine ⟨fun hidle => ?_, fun hfires => ?_⟩
  · have hquiet : ∀ t ∈ ts, ∃ o : Outcome, (((alone t).state.stateOf w).offer
        (t.onElement ⟨w, timestamp⟩ 0)).answer = .ok o ∧ o.fires = false := by
      intro t hmem
      obtain ⟨o, ho, hdeliver, -⟩ := hone t hmem
      refine ⟨o, ho, Bool.eq_false_iff.mpr fun hf => hidle ⟨t, hmem, ?_⟩⟩
      exact (fires_element (congrArg Prod.fst hdeliver)).mpr hf
    have hnext : ∀ t ∈ ts, ((alone t).step (.element w timestamp)).state.stateOf w =
        (((alone t).state.stateOf w).offer (t.onElement ⟨w, timestamp⟩ 0)).state := by
      intro t hmem
      obtain ⟨o, -, hdeliver, -⟩ := hone t hmem
      rw [step, begin_element, hdeliver]
      exact TriggerState.stateOf_insert ..
    obtain ⟨hanswer, hhold⟩ := h.hold.onElement_idle (0 + 1) hts hquiet
    have hdeliver := h.deliver_element ht hanswer
    rw [report, step, begin_element, hdeliver]
    refine ⟨⟨_, rfl, List.forall_mem_singleton.mpr rfl⟩, ?_, ?_, fun t hmem => ?_, ?_,
      fun t hmem => ?_, fun t hmem => ?_⟩
    · exact congrArg Slot.finished (TriggerState.stateOf_insert ..)
    · have hmemory := congrArg Slot.memory (TriggerState.stateOf_insert c.state w
        ⟨Outcome.idle.finishes, (Trigger.onElementAmong ⟨w, timestamp⟩ ts (0 + 1)
          (c.state.stateOf w).memory).state⟩)
      exact hmemory.symm ▸ hhold.congr fun t hmem => (hnext t hmem).symm
    · obtain ⟨o, ho, -, hopen⟩ := hone t hmem
      obtain ⟨o', ho', hfalse⟩ := hquiet t hmem
      obtain rfl := Except.ok.inj (ho.symm.trans ho')
      rw [hnext t hmem]
      exact hopen (Outcome.not_finishes hfalse)
    · exact hdeliver ▸ h.only.deliver (.element timestamp)
    · rw [step, begin_element]
      exact (h.alone_only t hmem).deliver (.element timestamp)
    · rw [step, begin_element]
      exact h.watermark t hmem
  · have hanswer := h.hold.onElement_fires (e := ⟨w, timestamp⟩) (0 + 1) hts (by
      obtain ⟨t, hmem, hf⟩ := hfires
      obtain ⟨o, ho, hdeliver, -⟩ := hone t hmem
      exact ⟨t, hmem, o, ho, (fires_element (congrArg Prod.fst hdeliver)).mp hf⟩)
    have hdeliver := h.deliver_element ht hanswer
    rw [report, step, begin_element, hdeliver]
    exact ⟨⟨_, rfl, rfl⟩, ⟨_, WindowMap.find?_insert_self .., rfl⟩,
      hdeliver ▸ h.only.deliver (.element timestamp)⟩

theorem Together.due_iff (h : Together c alone w) (watermark : Int) :
    (∃ a ∈ c.state.timers, a.timestamp < watermark) ↔
      ∃ t ∈ ts, ∃ a ∈ (alone t).state.timers, a.timestamp < watermark := by
  rw [h.only.exists_timer_iff (· < watermark)]
  refine (h.hold.exists_timer_iff (0 + 1) (· < watermark)).trans ?_
  constructor
  · rintro ⟨t, ht, hp⟩
    exact ⟨t, ht, ((h.alone_only t ht).exists_timer_iff (· < watermark)).mpr hp⟩
  · rintro ⟨t, ht, ha⟩
    exact ⟨t, ht, ((h.alone_only t ht).exists_timer_iff (· < watermark)).mp ha⟩

theorem dueTimers_eq_nil {t : Trigger} {s : TriggerState t} {watermark : Int}
    (h : ¬∃ a ∈ s.timers, a.timestamp < watermark) : s.dueTimers watermark = [] :=
  List.filter_eq_nil_iff.mpr fun a ha hlt => h ⟨a, ha, by simpa using hlt⟩

theorem fires_advance_iff {t : Trigger} {c : Tester t} (ht : t.isBuiltIn = true)
    (hopen : t.Open (c.state.stateOf w)) (honly : c.state.Only w) (target : Int) :
    c.Fires (.advance target) ↔
      ∃ a ∈ c.state.timers, a.timestamp < max c.watermark target := by
  constructor
  · rintro ⟨reports, hreports, p, hp, -⟩
    by_contra hnone
    rw [report, begin_advance_of_none (dueTimers_eq_nil hnone)] at hreports
    obtain rfl := Except.ok.inj hreports
    cases hp
  · intro hdue
    obtain ⟨a, s, o, hpop, -, ho, hfires, -⟩ := honly.next_fires ht hopen hdue
    obtain ⟨fuel, hbegin⟩ := begin_advance_of_due hpop ho
    obtain ⟨reports, c', hdrain, -⟩ := answers_drain ht fuel
      { c with state := (s.timer a.event).2, watermark := max c.watermark target }
    refine ⟨(a.window, o) :: reports, ?_, _, List.mem_cons_self .., hfires⟩
    rw [report, hbegin, hdrain]
    rfl

theorem Together.advance (h : Together c alone w) (ht : (Trigger.afterFirst ts).isBuiltIn = true)
    (target : Int) : Races c alone w (.advance target) := by
  have hts := Trigger.isBuiltInAll_of_afterFirst ht
  have hfires : (∃ t ∈ ts, (alone t).Fires (.advance target)) ↔
      ∃ a ∈ c.state.timers, a.timestamp < max c.watermark target := by
    rw [h.due_iff]
    refine exists_congr fun t => and_congr_right fun hmem => ?_
    rw [fires_advance_iff (Trigger.isBuiltIn_of_mem hts hmem) (h.opens t hmem)
      (h.alone_only t hmem), h.watermark t hmem]
  refine ⟨fun hidle => ?_, fun hf => ?_⟩
  · have hnone := hfires.not.mp hidle
    have halone : ∀ t ∈ ts, (alone t).step (.advance target) =
        { alone t with watermark := max (alone t).watermark target } := by
      intro t hmem
      rw [step, begin_advance_of_none (dueTimers_eq_nil fun hdue => hnone
        ((h.due_iff _).mpr ⟨t, hmem, h.watermark t hmem ▸ hdue⟩))]
    rw [report, step, begin_advance_of_none (dueTimers_eq_nil hnone)]
    refine ⟨⟨[], rfl, List.forall_mem_nil _⟩, h.unfinished, ?_, fun t hmem => ?_, h.only,
      fun t hmem => ?_, fun t hmem => ?_⟩
    · exact h.hold.congr fun t hmem => by rw [halone t hmem]
    · rw [halone t hmem]
      exact h.opens t hmem
    · rw [halone t hmem]
      exact h.alone_only t hmem
    · rw [halone t hmem]
      exact congrArg (max · target) (h.watermark t hmem)
  · obtain ⟨a, s, o, hpop, rfl, ho, hofires, hclosed, honly⟩ :=
      h.only.next_fires ht h.isOpen (hfires.mp hf)
    have hfinish : o = .fireAndFinish := by
      cases o with
      | idle => cases hofires
      | fire => exact absurd ho (TriggerState.timer_ne_fire s a.event)
      | fireAndFinish => rfl
    subst hfinish
    -- the first due timer finishes the choice, and the others find it finished
    obtain ⟨fuel, hbegin⟩ := begin_advance_of_due hpop ho
    obtain ⟨⟨reports, hreports, hidle⟩, hrest⟩ := drain_of_closed fuel
      (c := { c with state := (s.timer a.event).2, watermark := max c.watermark target })
      (hclosed rfl) honly
    rw [report, step, hbegin]
    refine ⟨⟨(a.window, .fireAndFinish) :: reports, by rw [hreports]; rfl, ?_⟩, hrest⟩
    have hnil : reports.filter (fun p => p.2.fires) = [] :=
      List.filter_eq_nil_iff.mpr fun p hp => by simp [hidle p hp, Outcome.fires]
    rw [List.filter_cons_of_pos rfl, hnil]

theorem Together.races (h : Together c alone w) (ht : (Trigger.afterFirst ts).isBuiltIn = true)
    {move : Move} (hmove : move.Stays w) : Races c alone w move := by
  cases move with
  | element v timestamp =>
    obtain rfl := hmove
    exact h.element ht timestamp
  | advance target => exact h.advance ht target
  | _ => cases hmove

/-! ### A run -/

/-- At one of the moves some tree, alone, fired. -/
def FiredBy (ts : List Trigger) (fn : WindowFn) (moves : List Move) : Prop :=
  ∃ past move rest, moves = past ++ move :: rest ∧ ∃ t ∈ ts, (after t fn past).Fires move

theorem not_firedBy_nil {fn : WindowFn} : ¬FiredBy ts fn [] := not_exists_split_nil

theorem firedBy_concat {fn : WindowFn} {past : List Move} {move : Move} :
    FiredBy ts fn (past ++ [move]) ↔
      FiredBy ts fn past ∨ ∃ t ∈ ts, (after t fn past).Fires move :=
  exists_split_concat

theorem together_start (ts : List Trigger) (fn : WindowFn) (w : Window) :
    Together (after (.afterFirst ts) fn []) (fun t => after t fn []) w where
  unfinished := rfl
  hold := Trigger.holdAll_blanks ts
  opens t _ := TriggerState.open_fresh t
  only _ _ := rfl
  alone_only _ _ _ _ := rfl
  watermark _ _ := rfl

/-- Until some child alone fires the choice goes on with its children; afterwards it has
finished. -/
theorem run_together (ht : (Trigger.afterFirst ts).isBuiltIn = true) (fn : WindowFn)
    {moves : List Move} (hmoves : ∀ move ∈ moves, move.Stays w) :
    (¬FiredBy ts fn moves →
      Together (after (.afterFirst ts) fn moves) (fun t => after t fn moves) w) ∧
    (FiredBy ts fn moves → (after (.afterFirst ts) fn moves).state.Closed w ∧
      (after (.afterFirst ts) fn moves).state.Only w) := by
  induction moves using List.reverseRecOn with
  | nil => exact ⟨fun _ => together_start ts fn w, fun hf => absurd hf not_firedBy_nil⟩
  | append_singleton past move ih =>
    have hmove := hmoves move (by simp)
    obtain ⟨htogether, hclosed⟩ := ih fun m hm => hmoves m (by simp [hm])
    simp only [after_concat, firedBy_concat]
    refine ⟨fun hf => ?_, fun hf => ?_⟩
    · obtain ⟨hpast, hnow⟩ := not_or.mp hf
      exact (((htogether hpast).races ht hmove).idle hnow).2
    · by_cases hpast : FiredBy ts fn past
      · exact (report_of_closed (hclosed hpast).1 (hclosed hpast).2 hmove).2
      · exact (((htogether hpast).races ht hmove).fires (hf.resolve_left hpast)).2

/-- A choice of the first is the first of its children to fire: on one window it reports no firing
before the first move at which a child alone reports one, exactly one at that move, by which it
finishes, and none afterwards. Every move of the choice and of each child alone succeeds. -/
theorem choice_fires_with_first {ts : List Trigger}
    (ht : (Trigger.afterFirst ts).isBuiltIn = true) (fn : WindowFn) {w : Window}
    (past : List Move) (move : Move) (hmoves : ∀ m ∈ past ++ [move], m.Stays w) :
    (∀ t ∈ ts, ∃ reports, (after t fn past).report move = .ok reports) ∧
    ∃ reports, (after (.afterFirst ts) fn past).report move = .ok reports ∧
      (¬FiredBy ts fn past → (¬∃ t ∈ ts, (after t fn past).Fires move) →
        ∀ p ∈ reports, p.2 = .idle) ∧
      (¬FiredBy ts fn past → (∃ t ∈ ts, (after t fn past).Fires move) →
        reports.filter (fun p => p.2.fires) = [(w, .fireAndFinish)]) ∧
      (FiredBy ts fn past → ∀ p ∈ reports, p.2 = .idle) := by
  have hts := Trigger.isBuiltInAll_of_afterFirst ht
  have hmove := hmoves move (by simp)
  obtain ⟨htogether, hclosed⟩ := run_together ht fn fun m hm => hmoves m (List.mem_append_left _ hm)
  refine ⟨fun t hmem => ?_, ?_⟩
  · obtain ⟨reports, c', h, -⟩ := answers_perform (Trigger.isBuiltIn_of_mem hts hmem)
      (after t fn past) move fun timestamp heq => by
        subst heq
        cases hmove
    exact ⟨reports, congrArg Prod.fst h⟩
  · by_cases hpast : FiredBy ts fn past
    · obtain ⟨⟨reports, hreports, hidle⟩, -⟩ :=
        report_of_closed (hclosed hpast).1 (hclosed hpast).2 hmove
      exact ⟨reports, hreports, fun h => absurd hpast h, fun h => absurd hpast h, fun _ => hidle⟩
    · have hraces := (htogether hpast).races ht hmove
      by_cases hnow : ∃ t ∈ ts, (after t fn past).Fires move
      · obtain ⟨⟨reports, hreports, hone⟩, -⟩ := hraces.fires hnow
        exact ⟨reports, hreports, fun _ h => absurd hnow h, fun _ _ => hone,
          fun h => absurd h hpast⟩
      · obtain ⟨⟨reports, hreports, hidle⟩, -⟩ := hraces.idle hnow
        exact ⟨reports, hreports, fun _ _ => hidle, fun _ h => absurd h hnow,
          fun h => absurd h hpast⟩

/-- Two elements, or the end of the window. -/
def twoOrEnd : List Trigger := [.afterCount 2, .repeatedly .afterWatermark]

/-- The end of the window comes before the second element. -/
theorem choice_fires_with_first_of_end :
    (Trigger.afterFirst twoOrEnd).isBuiltIn = true ∧
      (∀ m ∈ [.element (.interval 0 10) 1, .advance 20, .element (.interval 0 10) 2],
        Move.Stays (.interval 0 10) m) ∧
      (∃ reports, (after (.afterFirst twoOrEnd) .global []).report
        (.element (.interval 0 10) 1) = .ok reports ∧ ∀ p ∈ reports, p.2 = .idle) ∧
      (∃ reports, (after (.afterFirst twoOrEnd) .global [.element (.interval 0 10) 1]).report
        (.advance 20) = .ok reports ∧
          reports.filter (fun p => p.2.fires) = [(.interval 0 10, .fireAndFinish)]) ∧
      ∃ reports, (after (.afterFirst twoOrEnd) .global
        [.element (.interval 0 10) 1, .advance 20]).report (.element (.interval 0 10) 2) =
          .ok reports ∧ ∀ p ∈ reports, p.2 = .idle := by
  have hstay : ∀ m ∈ [.element (.interval 0 10) 1, .advance 20, .element (.interval 0 10) 2],
      Move.Stays (.interval 0 10) m := by simp [Move.Stays]
  have hquiet : ¬∃ t ∈ twoOrEnd, (after t .global []).Fires (.element (.interval 0 10) 1) := by
    rintro ⟨t, ht, reports, hreports, p, hp, hf⟩
    have hidle : (after t .global []).report (.element (.interval 0 10) 1) =
        .ok [(.interval 0 10, .idle)] := by
      rcases List.mem_pair.mp ht with rfl | rfl <;> rfl
    obtain rfl := Except.ok.inj (hidle.symm.trans hreports)
    rw [List.mem_singleton.mp hp] at hf
    cases hf
  have hone : ¬FiredBy twoOrEnd .global ([] ++ [.element (.interval 0 10) 1]) :=
    firedBy_concat.not.mpr (not_or.mpr ⟨not_firedBy_nil, hquiet⟩)
  have hend : ∃ t ∈ twoOrEnd, (after t .global
      ([] ++ [.element (.interval 0 10) 1])).Fires (.advance 20) :=
    ⟨.repeatedly .afterWatermark, List.mem_of_getElem? (i := 1) rfl,
      [(.interval 0 10, .fire)], rfl, _, List.mem_singleton_self _, rfl⟩
  have htwo : FiredBy twoOrEnd .global ([] ++ [.element (.interval 0 10) 1] ++ [.advance 20]) :=
    firedBy_concat.mpr (.inr hend)
  have ht : (Trigger.afterFirst twoOrEnd).isBuiltIn = true := rfl
  obtain ⟨-, first, hfirst, hidle, -, -⟩ :=
    choice_fires_with_first ht .global [] (.element (.interval 0 10) 1)
      fun m hm => hstay m (List.mem_of_mem_take (i := 1) hm)
  obtain ⟨-, second, hsecond, -, hfires, -⟩ :=
    choice_fires_with_first ht .global [.element (.interval 0 10) 1] (.advance 20)
      fun m hm => hstay m (List.mem_of_mem_take (i := 2) hm)
  obtain ⟨-, third, hthird, -, -, hafter⟩ :=
    choice_fires_with_first ht .global [.element (.interval 0 10) 1, .advance 20]
      (.element (.interval 0 10) 2) hstay
  exact ⟨ht, hstay, ⟨first, hfirst, hidle not_firedBy_nil hquiet⟩,
    ⟨second, hsecond, hfires hone hend⟩, third, hthird, hafter htwo⟩

end Race

end Tester

end EventTime
