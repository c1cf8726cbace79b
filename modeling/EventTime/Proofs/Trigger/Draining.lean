import EventTime.Proofs.Trigger.Driving
import EventTime.Proofs.Trigger.Rollback

/-!
# Draining the due timers

Moving the watermark delivers the least due timer, again and again, until none is due. `Delivers`
is that loop, with no bound on it; it ends, after no more deliveries than there were timers due.
The timers come in their order. A delivery may delete timers of its own window, but it sets none,
and it touches no other window.
-/

namespace EventTime

namespace TriggerState

variable {t : Trigger} {s s' : TriggerState t} {a : Timer} {o : Outcome}

/-- What a delivery leaves of the timers, and of the other windows. -/
structure Delivered (s : TriggerState t) (a : Timer) (s' : TriggerState t) : Prop where
  timers : s'.timers.Sublist (s.cancel a).timers
  others : ∀ w, a.window ≠ w → s'.find? w = s.find? w

theorem timer_delivered (ht : t.isBuiltIn = true) (ha : a ∈ s.timers)
    (h : (s.cancel a).timer a.event = (.ok o, s')) : s.Delivered a s' := by
  obtain ⟨o', s'', h', hsub⟩ := timer_answers ha ht
  obtain ⟨-, rfl⟩ := Prod.mk.inj (h'.symm.trans h)
  refine ⟨hsub, fun w hw => ?_⟩
  have hkept := find?_timer_of_ne (s.cancel a) (e := a.event) hw
  rwa [h', find?_cancel, if_neg hw] at hkept

theorem Delivered.subset (h : s.Delivered a s') : ∀ b ∈ s'.timers, b ∈ s.timers ∧ b ≠ a := by
  intro b hb
  have hmem := h.timers.mem hb
  rw [timers_cancel, List.mem_filter] at hmem
  exact ⟨hmem.1, by simpa using hmem.2⟩

/-- The timers of the other windows stay. -/
theorem Delivered.mem_iff (h : s.Delivered a s') {b : Timer} (hb : a.window ≠ b.window) :
    b ∈ s'.timers ↔ b ∈ s.timers :=
  mem_timers_congr (h.others b.window hb)

theorem Delivered.sublist (h : s.Delivered a s') : s'.timers.Sublist s.timers :=
  h.timers.trans (timers_cancel s a ▸ List.filter_sublist)

theorem Delivered.length_lt (h : s.Delivered a s') {watermark : Int} (ha : a ∈ s.timers)
    (hdue : a.timestamp < watermark) :
    (s'.dueTimers watermark).length < (s.dueTimers watermark).length :=
  Nat.lt_of_le_of_lt (h.timers.filter _).length_le (length_dueTimers_cancel ha hdue)

end TriggerState

namespace Tester

variable {t : Trigger} {c c' : Tester t} {delivered : List (Timer × Outcome)}

/-- The loop that delivers timers until none is due: the timers delivered on the way, each with the
answer of the tree, and the tester in the end. -/
inductive Delivers : Tester t → List (Timer × Outcome) → Tester t → Prop
  | done {c : Tester t} (hnone : c.state.popDue c.watermark = none) : Delivers c [] c
  | deliver {c c' : Tester t} {a : Timer} {s s' : TriggerState t} {o : Outcome}
      {rest : List (Timer × Outcome)} (hpop : c.state.popDue c.watermark = some (a, s))
      (hanswer : s.timer a.event = (.ok o, s')) (hrest : Delivers { c with state := s' } rest c') :
      Delivers c ((a, o) :: rest) c'

/-- The bound on the number of deliveries never ends the loop. -/
theorem drain_delivers (ht : t.isBuiltIn = true) (fuel : Nat) (c : Tester t)
    (hfuel : (c.state.dueTimers c.watermark).length ≤ fuel) :
    ∃ delivered c', Delivers c delivered c' ∧
      (drain fuel).begin c = (.ok (delivered.map fun p => (p.1.window, p.2)), c') := by
  induction fuel generalizing c with
  | zero =>
    have hnone := List.eq_nil_of_length_eq_zero (Nat.le_zero.mp hfuel)
    exact ⟨[], c, .done (TriggerState.popDue_eq_none_iff.mpr hnone), rfl⟩
  | succ fuel ih =>
    cases hpop : c.state.popDue c.watermark with
    | none => exact ⟨[], c, .done hpop, drain_none hpop⟩
    | some p =>
      obtain ⟨a, s⟩ := p
      obtain ⟨ha, hdue, -, rfl⟩ := TriggerState.popDue_some hpop
      obtain ⟨o, s', hanswer, -⟩ := TriggerState.timer_answers ha ht
      have hlt := (TriggerState.timer_delivered ht ha hanswer).length_lt ha hdue
      obtain ⟨delivered, c', hrest, hdrain⟩ := ih { c with state := s' } (by
        show (s'.dueTimers c.watermark).length ≤ fuel
        omega)
      refine ⟨(a, o) :: delivered, c', .deliver hpop hanswer hrest, ?_⟩
      rw [drain_some hpop hanswer, hdrain]
      rfl

namespace Delivers

theorem watermark_eq (h : Delivers c delivered c') : c'.watermark = c.watermark := by
  induction h with
  | done => rfl
  | deliver _ _ _ ih => exact ih

theorem none_due (h : Delivers c delivered c') : c'.state.dueTimers c'.watermark = [] := by
  induction h with
  | done hnone => exact TriggerState.popDue_eq_none_iff.mp hnone
  | deliver _ _ _ ih => exact ih

theorem length_le (ht : t.isBuiltIn = true) (h : Delivers c delivered c') :
    delivered.length ≤ (c.state.dueTimers c.watermark).length := by
  induction h with
  | done => exact Nat.zero_le _
  | deliver hpop hanswer hrest ih =>
    obtain ⟨ha, hdue, -, rfl⟩ := TriggerState.popDue_some hpop
    have hlt := (TriggerState.timer_delivered ht ha hanswer).length_lt ha hdue
    exact Nat.succ_le_of_lt (Nat.lt_of_le_of_lt ih hlt)

theorem timers_sublist (ht : t.isBuiltIn = true) (h : Delivers c delivered c') :
    c'.state.timers.Sublist c.state.timers := by
  induction h with
  | done => exact List.Sublist.refl _
  | deliver hpop hanswer hrest ih =>
    obtain ⟨ha, -, -, rfl⟩ := TriggerState.popDue_some hpop
    exact ih.trans (TriggerState.timer_delivered ht ha hanswer).sublist

/-- Every timer that is delivered was due when the loop began. -/
theorem mem_dueTimers (ht : t.isBuiltIn = true) (h : Delivers c delivered c') :
    ∀ p ∈ delivered, p.1 ∈ c.state.dueTimers c.watermark := by
  induction h with
  | done => nofun
  | deliver hpop hanswer hrest ih =>
    obtain ⟨ha, hdue, -, rfl⟩ := TriggerState.popDue_some hpop
    refine List.forall_mem_cons.mpr ⟨List.mem_filter.mpr ⟨ha, by simpa using hdue⟩, fun p hp => ?_⟩
    exact (TriggerState.timer_delivered ht ha hanswer).sublist.filter _ |>.mem (ih p hp)

/-- The first timer comes before all that are pending then, and those delivered later are among
these. -/
theorem ascending (ht : t.isBuiltIn = true) (h : Delivers c delivered c') :
    (delivered.map Prod.fst).Pairwise (· < ·) := by
  induction h with
  | done => exact .nil
  | deliver hpop hanswer hrest ih =>
    obtain ⟨ha, -, hfirst, rfl⟩ := TriggerState.popDue_eq_some_iff.mp hpop
    refine List.pairwise_cons.mpr ⟨List.forall_mem_map.mpr fun p hp => ?_, ih⟩
    have hpending := (List.mem_filter.mp (hrest.mem_dueTimers ht p hp)).1
    obtain ⟨hmem, hne⟩ := (TriggerState.timer_delivered ht ha hanswer).subset p.1 hpending
    exact (hfirst p.1 hmem).resolve_left (Ne.symm hne)

/-- A timer stays as long as none of its window is delivered. -/
theorem mem_timers_iff (ht : t.isBuiltIn = true) (h : Delivers c delivered c') {b : Timer}
    (hb : ∀ p ∈ delivered, p.1.window ≠ b.window) : b ∈ c'.state.timers ↔ b ∈ c.state.timers := by
  induction h with
  | done => rfl
  | deliver hpop hanswer hrest ih =>
    obtain ⟨ha, -, -, rfl⟩ := TriggerState.popDue_some hpop
    obtain ⟨hone, hmore⟩ := List.forall_mem_cons.mp hb
    exact (ih hmore).trans ((TriggerState.timer_delivered ht ha hanswer).mem_iff hone)

end Delivers

/-- Moving the watermark delivers due timers, each of them once and in their order, until none is
due; it sets no timer, and one that is deleted without being delivered was in a window to which
another was delivered. The tester may be in any state, with any number of windows. -/
theorem advance_drains (ht : t.isBuiltIn = true) (c : Tester t) (target : Int) :
    ∃ delivered c', Delivers { c with watermark := max c.watermark target } delivered c' ∧
      (advance target).begin c = (.ok (delivered.map fun p => (p.1.window, p.2)), c') ∧
      c'.watermark = max c.watermark target ∧
      delivered.length ≤ (c.state.dueTimers c'.watermark).length ∧
      (∀ p ∈ delivered, p.1 ∈ c.state.dueTimers c'.watermark) ∧
      (delivered.map Prod.fst).Nodup ∧ (delivered.map Prod.fst).Pairwise (· < ·) ∧
      c'.state.dueTimers c'.watermark = [] ∧
      c'.state.timers.Sublist c.state.timers ∧
      ∀ b ∈ c.state.timers, b ∉ c'.state.timers → b ∉ delivered.map Prod.fst →
        ∃ p ∈ delivered, p.1.window = b.window := by
  obtain ⟨delivered, c', h, hdrain⟩ := drain_delivers ht _
    { c with watermark := max c.watermark target } (Nat.le_refl _)
  have hwatermark : c'.watermark = max c.watermark target := h.watermark_eq
  have hascending := h.ascending ht
  have hdistinct : (delivered.map Prod.fst).Nodup := by
    refine List.Pairwise.imp ?_ hascending
    rintro a _ hlt rfl
    exact Timer.lt_irrefl a hlt
  have hsub := h.timers_sublist ht
  refine ⟨delivered, c', h, hdrain, hwatermark, hwatermark ▸ h.length_le ht,
    hwatermark ▸ h.mem_dueTimers ht, hdistinct, hascending, h.none_due, hsub, ?_⟩
  intro b hb hgone _
  by_contra hnone
  have helsewhere : ∀ p ∈ delivered, p.1.window ≠ b.window :=
    fun p hp heq => hnone ⟨p, hp, heq⟩
  exact hgone ((h.mem_timers_iff ht helsewhere).mpr hb)

/-- A repeated choice between two timers at the end of the window. The one delivered first deletes
the other. -/
def eitherEnd : Trigger := .repeatedly (.afterFirst [.afterWatermark, .endOfWindow])

def eitherEndTester : Tester eitherEnd :=
  after eitherEnd .global [.element (.interval 5 15) 7, .element (.interval 0 10) 3]

theorem advance_drains_of_two_windows :
    eitherEnd.isBuiltIn = true ∧
      (eitherEndTester.state.dueTimers 20).length = 4 ∧
      ∃ delivered c', Delivers { eitherEndTester with watermark := 20 } delivered c' ∧
        delivered.map (fun p => (p.1.window, p.2)) =
          [(.interval 0 10, .fire), (.interval 5 15, .fire)] ∧
        (delivered.map Prod.fst).Nodup ∧ (delivered.map Prod.fst).Pairwise (· < ·) ∧
        c'.state.dueTimers 20 = [] := by
  have ht : eitherEnd.isBuiltIn = true := rfl
  obtain ⟨delivered, c', h, hreport, hwatermark, -, -, hdistinct, hascending, hnone, -⟩ :=
    advance_drains ht eitherEndTester 20
  have hfire : ((advance 20).begin eitherEndTester).1 =
      .ok [(.interval 0 10, .fire), (.interval 5 15, .fire)] := rfl
  rw [hreport] at hfire
  have hmax : max eitherEndTester.watermark 20 = 20 := by decide
  rw [hwatermark, hmax] at hnone
  rw [hmax] at h
  exact ⟨ht, rfl, delivered, c', h, Except.ok.inj hfire, hdistinct, hascending, hnone⟩

end Tester

end EventTime
