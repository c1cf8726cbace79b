import Mathlib.Data.List.Basic
import Mathlib.Data.List.Flatten
import Mathlib.Data.List.Nodup
import EventTime.Proofs.Trigger.Delivery

/-!
# Pending timers

Taking a timer out of a state removes that timer and no other; the timer taken is the least of those
that are due. A built-in tree sets no timer when one is delivered to it.
-/

namespace EventTime

namespace Timer

theorem lt_iff {a b : Timer} : a < b ↔ a.timestamp < b.timestamp ∨ a.timestamp = b.timestamp ∧
    (a.window < b.window ∨ a.window = b.window ∧ a.node < b.node) := Iff.rfl

theorem lt_irrefl (a : Timer) : ¬a < a := by
  rintro (h | ⟨-, h | ⟨-, h⟩⟩)
  · exact Int.lt_irrefl _ h
  · exact Window.lt_irrefl _ h
  · exact Nat.lt_irrefl _ h

theorem timestamp_le {a b : Timer} (h : a < b) : a.timestamp ≤ b.timestamp := by
  rw [lt_iff] at h
  omega

theorem lt_trans {a b c : Timer} (hab : a < b) (hbc : b < c) : a < c := by
  rw [lt_iff] at *
  rcases hab with hab | ⟨hab, hw | ⟨hw, hn⟩⟩
  · left
    omega
  · rcases hbc with hbc | ⟨hbc, hw' | ⟨hw', -⟩⟩
    · left
      omega
    · exact .inr ⟨hab.trans hbc, .inl (Window.lt_trans hw hw')⟩
    · exact .inr ⟨hab.trans hbc, .inl (hw' ▸ hw)⟩
  · rw [hab, hw]
    rcases hbc with hbc | ⟨hbc, hw' | ⟨hw', hn'⟩⟩
    · exact .inl hbc
    · exact .inr ⟨hbc, .inl hw'⟩
    · exact .inr ⟨hbc, .inr ⟨hw', Nat.lt_trans hn hn'⟩⟩

theorem lt_trichotomy (a b : Timer) : a < b ∨ a = b ∨ b < a := by
  have hab : a = b ↔ a.timestamp = b.timestamp ∧ a.window = b.window ∧ a.node = b.node := by
    cases a
    cases b
    simp
  rw [lt_iff, lt_iff, hab]
  rcases Window.lt_trichotomy a.window b.window with h | h | h
  · simp only [h, true_or, and_true]
    omega
  · simp only [h, true_and]
    omega
  · simp only [h, true_or, and_true]
    omega

theorem least_eq_none_iff {l : List Timer} : least l = none ↔ l = [] := by
  cases l with
  | nil => simp [least]
  | cons a rest =>
    simp only [least]
    split
    · simp
    · split <;> simp

theorem least_mem {l : List Timer} {a : Timer} (h : least l = some a) : a ∈ l := by
  induction l with
  | nil => simp [least] at h
  | cons b rest ih =>
    simp only [least] at h
    split at h
    · simp only [Option.some.injEq] at h
      exact h ▸ List.mem_cons_self ..
    · rename_i c hc
      split at h
      · simp only [Option.some.injEq] at h
        exact List.mem_cons_of_mem _ (ih (h ▸ hc))
      · simp only [Option.some.injEq] at h
        exact h ▸ List.mem_cons_self ..

/-- The least timer comes before all others of the list. -/
theorem least_first {l : List Timer} {a : Timer} (h : least l = some a) :
    ∀ b ∈ l, a = b ∨ a < b := by
  induction l generalizing a with
  | nil => nofun
  | cons b rest ih =>
    simp only [least] at h
    split at h
    · rename_i hnone
      rw [least_eq_none_iff] at hnone
      simp_all
    · rename_i c hc
      have hrest := ih hc
      split at h <;> obtain rfl := Option.some.inj h <;> rename_i hlt
      · exact List.forall_mem_cons.mpr ⟨.inr hlt, hrest⟩
      · refine List.forall_mem_cons.mpr ⟨.inl rfl, fun d hd => ?_⟩
        rcases lt_trichotomy b c with hbc | rfl | hcb
        · rcases hrest d hd with rfl | hcd
          · exact .inr hbc
          · exact .inr (lt_trans hbc hcd)
        · exact hrest d hd
        · exact absurd hcb hlt

theorem least_eq_some_iff {l : List Timer} {a : Timer} :
    least l = some a ↔ a ∈ l ∧ ∀ b ∈ l, a = b ∨ a < b := by
  refine ⟨fun h => ⟨least_mem h, least_first h⟩, fun ⟨ha, hfirst⟩ => ?_⟩
  cases h : least l with
  | none => exact absurd (least_eq_none_iff.mp h ▸ ha) List.not_mem_nil
  | some b =>
    rcases hfirst b (least_mem h) with rfl | hab
    · rfl
    · rcases least_first h a ha with rfl | hba
      · rfl
      · exact absurd (lt_trans hab hba) (lt_irrefl a)

/-- Of the timers with a property the one that comes before all others, or none if there is none. -/
def IsFirst (P : Timer → Prop) : Option Timer → Prop
  | none => ∀ a, ¬P a
  | some a => P a ∧ ∀ b, P b → a = b ∨ a < b

/-- The least timer of a list is the first with a property if all of the list have the property and
no timer with the property comes before all of the list. -/
theorem isFirst_least_of_before {l : List Timer} {P : Timer → Prop} (hP : ∀ a ∈ l, P a)
    (hbefore : ∀ b, P b → ∃ c ∈ l, c = b ∨ c < b) : IsFirst P (least l) := by
  cases h : least l with
  | none =>
    intro b hb
    obtain ⟨c, hc, -⟩ := hbefore b hb
    exact List.not_mem_nil (least_eq_none_iff.mp h ▸ hc)
  | some a =>
    obtain ⟨ha, hfirst⟩ := least_eq_some_iff.mp h
    refine ⟨hP a ha, fun b hb => ?_⟩
    obtain ⟨c, hc, hcb⟩ := hbefore b hb
    rcases hfirst c hc with rfl | hac
    · exact hcb
    · exact .inr (hcb.elim (fun e => e ▸ hac) (lt_trans hac))

theorem isFirst_least (l : List Timer) : IsFirst (· ∈ l) (least l) :=
  isFirst_least_of_before (fun _ ha => ha) fun b hb => ⟨b, hb, .inl rfl⟩

theorem IsFirst.congr {P Q : Timer → Prop} {first : Option Timer} (h : IsFirst P first)
    (hPQ : ∀ a, P a ↔ Q a) : IsFirst Q first :=
  (funext fun a => propext (hPQ a) : P = Q) ▸ h

theorem IsFirst.of_some {P : Timer → Prop} {first : Option Timer} {a : Timer} (h : IsFirst P first)
    (ha : first = some a) : P a := by
  subst ha
  exact h.1

/-- Where a timer has the property, there is a first one, and it does not come later. -/
theorem IsFirst.exists_before {P : Timer → Prop} {first : Option Timer} {b : Timer}
    (h : IsFirst P first) (hb : P b) : ∃ c, first = some c ∧ (c = b ∨ c < b) := by
  cases first with
  | none => exact absurd hb (h b)
  | some c => exact ⟨c, rfl, h.2 b hb⟩

theorem IsFirst.unique {P : Timer → Prop} {x y : Option Timer} (hx : IsFirst P x)
    (hy : IsFirst P y) : x = y := by
  cases x with
  | none =>
    cases y with
    | none => rfl
    | some b => exact absurd hy.1 (hx b)
  | some a =>
    obtain ⟨b, rfl, hba⟩ := hy.exists_before hx.1
    rcases hx.2 b hy.1 with rfl | hab
    · rfl
    · rcases hba with rfl | hba
      · rfl
      · exact absurd (lt_trans hab hba) (lt_irrefl a)

/-- The first of the due timers of several groups is found among the first timers of the groups. -/
theorem isFirst_nextDue {ι : Type} {groups : List ι} {P : ι → Timer → Prop}
    {first : ι → Option Timer} (h : ∀ i ∈ groups, IsFirst (P i) (first i)) (watermark : Int) :
    IsFirst (fun a => (∃ i ∈ groups, P i a) ∧ a.timestamp < watermark)
      (nextDue watermark (groups.filterMap first)) := by
  have hmem (a : Timer) :
      a ∈ (groups.filterMap first).filter (fun a => a.timestamp < watermark) ↔
        (∃ i ∈ groups, first i = some a) ∧ a.timestamp < watermark := by
    rw [List.mem_filter, List.mem_filterMap, decide_eq_true_eq]
  refine isFirst_least_of_before (fun a ha => ?_) ?_
  · obtain ⟨⟨i, hi, hfirst⟩, hdue⟩ := (hmem a).mp ha
    exact ⟨⟨i, hi, (h i hi).of_some hfirst⟩, hdue⟩
  · -- the first timer of the group of a due timer is due, too
    rintro b ⟨⟨i, hi, hb⟩, hdue⟩
    obtain ⟨c, hc, hcb⟩ := (h i hi).exists_before hb
    have hle : c.timestamp ≤ b.timestamp := hcb.elim (fun e => e ▸ Int.le_refl _) timestamp_le
    exact ⟨c, (hmem c).mpr ⟨⟨i, hi, hc⟩, by omega⟩, hcb⟩

end Timer

namespace Trigger

theorem map_timers_cancel (c : Cell) (timestamp : Int) (node target : Nat) :
    ((if node = target then c.cancel timestamp else c).timers.map fun u => (u, node)) =
      (c.timers.map fun u => (u, node)).filter (· ≠ (timestamp, target)) := by
  rw [List.filter_map]
  split
  · rename_i h
    simp only [Cell.cancel, h]
    congr 2
    funext u
    simp
  · rename_i h
    congr 1
    refine (List.filter_eq_self.mpr fun u _ => ?_).symm
    simp [h]

mutual

theorem timersFrom_cancelFrom (timestamp : Int) (target : Nat) :
    (t : Trigger) → (node : Nat) → (m : t.Memory) →
      timersFrom t node (cancelFrom timestamp target t node m) =
        (timersFrom t node m).filter (· ≠ (timestamp, target))
  | .leaf _, node, c => map_timers_cancel c timestamp node target
  | .afterFirst ts, node, m => timersAmong_cancelAmong timestamp target ts (node + 1) m
  | .repeatedly t, node, m => timersFrom_cancelFrom timestamp target t (node + 1) m.memory
  | .orFinally a b, node, m => by
    simp only [timersFrom, cancelFrom, List.filter_append]
    rw [timersFrom_cancelFrom timestamp target a, timersFrom_cancelFrom timestamp target b]

theorem timersAmong_cancelAmong (timestamp : Int) (target : Nat) :
    (ts : List Trigger) → (node : Nat) → (m : Memories ts) →
      timersAmong ts node (cancelAmong timestamp target ts node m) =
        (timersAmong ts node m).filter (· ≠ (timestamp, target))
  | [], _, _ => rfl
  | t :: ts, node, m => by
    simp only [timersAmong, cancelAmong, List.filter_append]
    rw [timersFrom_cancelFrom timestamp target t, timersAmong_cancelAmong timestamp target ts]

end

/-! ### Timers after a delivery -/

mutual

theorem timersFrom_blank : (t : Trigger) → (node : Nat) → timersFrom t node t.blank = []
  | .leaf _, _ => rfl
  | .afterFirst ts, node => timersAmong_blanks ts (node + 1)
  | .repeatedly t, node => timersFrom_blank t (node + 1)
  | .orFinally a b, node => by
    show timersFrom a _ a.blank ++ timersFrom b _ b.blank = []
    rw [timersFrom_blank a, timersFrom_blank b, List.append_nil]

theorem timersAmong_blanks : (ts : List Trigger) → (node : Nat) → timersAmong ts node (blanks ts) = []
  | [], _ => rfl
  | t :: ts, node => by
    show timersFrom t node t.blank ++ timersAmong ts _ (blanks ts) = []
    rw [timersFrom_blank t, timersAmong_blanks ts, List.append_nil]

end

/-- Whatever holds of the state a step leaves holds after going on, if going on keeps it. -/
theorem next_state {σ τ ρ υ : Type} {P : τ → Prop} {s : Step σ ρ} {keep : σ → τ}
    {k : σ → ρ → Step τ υ} (hkeep : P (keep s.state)) (hk : ∀ a, P (k s.state a).state) :
    P (s.next keep k).state := by
  unfold Step.next
  split
  · exact hk _
  · exact hkeep

theorem offer_state {σ : Type} {P : σ → Prop} {s : Slot σ} {run : σ → Step σ Outcome}
    (hs : P s.memory) (hrun : P (run s.memory).state) : P (s.offer run).state.memory := by
  unfold Slot.offer
  split
  · exact hs
  · exact next_state (P := fun u : Slot σ => P u.memory) hrun fun _ => hrun

theorem timersFrom_offer {t : Trigger} {node : Nat} {m : Slot t.Memory}
    {run : t.Memory → Step t.Memory Outcome}
    (h : (timersFrom t node (run m.memory).state).Sublist (timersFrom t node m.memory)) :
    (timersFrom t node (m.offer run).state.memory).Sublist (timersFrom t node m.memory) :=
  offer_state (P := fun u => (timersFrom t node u).Sublist (timersFrom t node m.memory))
    (List.Sublist.refl _) h

mutual

theorem timersFrom_onTimer (e : TimerEvent) :
    (t : Trigger) → (node : Nat) → (m : t.Memory) → t.isBuiltIn = true →
      (timersFrom t node (onTimer e t node m).state).Sublist (timersFrom t node m)
  | .leaf l, node, c, h => by
    cases l with
    | custom p => simp [isBuiltIn, Leaf.isBuiltIn] at h
    | _ => exact List.Sublist.refl _
  | .afterFirst ts, node, m, h => by
    simp only [isBuiltIn, Bool.and_eq_true] at h
    by_cases hd : e.destination = node
    · have hself : onTimer e (.afterFirst ts) node m =
          .quiet m (.error (.timerAtComposite "AfterFirst" node)) := if_pos hd
      rw [hself]
      exact List.Sublist.refl _
    · have hroute : onTimer e (.afterFirst ts) node m = onTimerAmong e node ts (node + 1) m :=
        if_neg hd
      rw [hroute]
      exact timersAmong_onTimerAmong e node ts (node + 1) m h.2
  | .repeatedly t, node, m, h => by
    have hc := timersFrom_onTimer e t (node + 1) m.memory h
    have ho := timersFrom_offer hc
    unfold onTimer
    split
    · exact List.Sublist.refl _
    · refine next_state (P := fun u : Slot t.Memory =>
        (timersFrom t (node + 1) u.memory).Sublist (timersFrom t (node + 1) m.memory)) ho
        fun o => ?_
      split
      · show (timersFrom t (node + 1) t.blank).Sublist _
        rw [timersFrom_blank]
        exact List.nil_sublist _
      · exact ho
  | .orFinally a b, node, m, h => by
    simp only [isBuiltIn, Bool.and_eq_true] at h
    have ha := timersFrom_onTimer e a (node + 1) m.1.memory h.1
    have hb := timersFrom_onTimer e b (node + 1 + a.size) m.2.memory h.2
    have hoa := timersFrom_offer ha
    have hob := timersFrom_offer hb
    unfold onTimer
    split
    · exact List.Sublist.refl _
    · split
      · exact next_state (P := fun u => (timersFrom (.orFinally a b) node u).Sublist _)
          (hoa.append (List.Sublist.refl _)) fun _ => hoa.append (List.Sublist.refl _)
      · split
        · exact next_state (P := fun u => (timersFrom (.orFinally a b) node u).Sublist _)
            ((List.Sublist.refl _).append hob) fun _ => (List.Sublist.refl _).append hob
        · exact List.Sublist.refl _

theorem timersAmong_onTimerAmong (e : TimerEvent) (parent : Nat) :
    (ts : List Trigger) → (node : Nat) → (m : Memories ts) → isBuiltInAll ts = true →
      (timersAmong ts node (onTimerAmong e parent ts node m).state).Sublist (timersAmong ts node m)
  | [], _, _, _ => List.Sublist.refl _
  | t :: ts, node, m, h => by
    simp only [isBuiltInAll, Bool.and_eq_true] at h
    unfold onTimerAmong
    split
    · have ho := timersFrom_offer (timersFrom_onTimer e t node m.1.memory h.1)
      exact next_state (P := fun u => (timersAmong (t :: ts) node u).Sublist _)
        (ho.append (List.Sublist.refl _)) fun _ => ho.append (List.Sublist.refl _)
    · have hr := timersAmong_onTimerAmong e parent ts (node + t.size) m.2 h.2
      exact next_state (P := fun u => (timersAmong (t :: ts) node u).Sublist _)
        ((List.Sublist.refl _).append hr) fun _ => (List.Sublist.refl _).append hr

end

end Trigger

/-! ### Timers of all windows -/

namespace TriggerState

variable {t : Trigger}

theorem mem_timers {s : TriggerState t} {a : Timer} :
    a ∈ s.timers ↔
      ∃ state, s.find? a.window = some state ∧
        (a.timestamp, a.node) ∈ t.timersFrom 0 state.memory := by
  simp only [timers, List.mem_flatMap, List.mem_map]
  constructor
  · rintro ⟨⟨w, state⟩, hmem, p, hp, rfl⟩
    exact ⟨state, WindowMap.mem_entries.mp hmem, hp⟩
  · rintro ⟨state, hfind, hp⟩
    exact ⟨(a.window, state), WindowMap.mem_entries.mpr hfind, _, hp, rfl⟩

/-- The timers of a window are those in its state. -/
theorem mem_timers_congr {s s' : TriggerState t} {a : Timer}
    (h : s'.find? a.window = s.find? a.window) : a ∈ s'.timers ↔ a ∈ s.timers := by
  rw [mem_timers, mem_timers, h]

theorem timers_insert {s : TriggerState t} {w : Window} {old new : t.State}
    (h : s.find? w = some old) :
    TriggerState.timers (s.insert w new) = s.entries.flatMap fun p =>
      (t.timersFrom 0 (if p.1 = w then new else p.2).memory).map fun q => ⟨q.1, p.1, q.2⟩ := by
  simp only [timers, WindowMap.entries_insert h, List.flatMap_map]
  congr 1
  funext p
  split
  · rename_i e
    rw [e]
  · rfl

theorem timers_cancel (s : TriggerState t) (a : Timer) :
    (s.cancel a).timers = s.timers.filter (· ≠ a) := by
  unfold cancel WindowMap.modify
  cases h : s.find? a.window with
  | none =>
    refine (List.filter_eq_self.mpr fun b hb => ?_).symm
    obtain ⟨state, hfind, -⟩ := mem_timers.mp hb
    have hne : b ≠ a := by
      intro e
      rw [e, h] at hfind
      cases hfind
    simp [hne]
  | some state =>
    simp only
    rw [timers_insert h]
    simp only [timers, List.filter_flatMap]
    refine List.flatMap_congr fun p hp => ?_
    rw [List.filter_map]
    split
    · rename_i e
      have hstate : p.2 = state := by
        have hfind := WindowMap.find?_of_mem hp
        rw [e, h] at hfind
        exact (Option.some.inj hfind).symm
      simp only [Trigger.timersFrom_cancelFrom, hstate]
      congr 1
      refine List.filter_congr fun q _ => ?_
      simp only [Function.comp, e]
      cases a
      simp [Prod.ext_iff]
    · rename_i e
      congr 1
      refine (List.filter_eq_self.mpr fun q _ => ?_).symm
      simp only [Function.comp, ne_eq, decide_not, Bool.not_eq_eq_eq_not, Bool.not_true,
        decide_eq_false_iff_not]
      rintro rfl
      exact e rfl

/-- The first of the due timers of all windows is one of the first timers of the windows. -/
theorem isFirst_nextDue (s : TriggerState t) (watermark : Int) : Timer.IsFirst
    (· ∈ s.dueTimers watermark) (Timer.nextDue watermark (s.entries.filterMap firstTimer)) := by
  have hfirst (p : Window × t.State) : Timer.IsFirst
      (· ∈ (t.timersFrom 0 p.2.memory).map fun q => ⟨q.1, p.1, q.2⟩) (firstTimer p) :=
    Timer.isFirst_least _
  refine (Timer.isFirst_nextDue (fun p _ => hfirst p) watermark).congr fun a => ?_
  rw [dueTimers, List.mem_filter, decide_eq_true_eq, timers, List.mem_flatMap]

theorem nextDue_firstTimers (s : TriggerState t) (watermark : Int) :
    Timer.nextDue watermark (s.entries.filterMap firstTimer) =
      Timer.least (s.dueTimers watermark) :=
  (s.isFirst_nextDue watermark).unique (Timer.isFirst_least _)

/-- The timer that is taken is the least of all that are pending. -/
theorem popDue_eq_some_iff {s s' : TriggerState t} {watermark : Int} {a : Timer} :
    s.popDue watermark = some (a, s') ↔
      a ∈ s.timers ∧ a.timestamp < watermark ∧ (∀ b ∈ s.timers, a = b ∨ a < b) ∧
        s' = s.cancel a := by
  simp only [popDue, nextDue_firstTimers, Option.map_eq_some_iff, Timer.least_eq_some_iff,
    dueTimers, List.mem_filter, decide_eq_true_eq, Prod.mk.injEq]
  constructor
  · rintro ⟨_, ⟨⟨ha, hdue⟩, hfirst⟩, rfl, rfl⟩
    refine ⟨ha, hdue, fun b hb => ?_, rfl⟩
    by_cases hlt : b.timestamp < watermark
    · exact hfirst b ⟨hb, hlt⟩
    · exact .inr (.inl (by omega))
  · rintro ⟨ha, hdue, hfirst, rfl⟩
    exact ⟨a, ⟨⟨ha, hdue⟩, fun b hb => hfirst b hb.1⟩, rfl, rfl⟩

theorem popDue_some {s s' : TriggerState t} {watermark : Int} {a : Timer}
    (h : s.popDue watermark = some (a, s')) :
    a ∈ s.timers ∧ a.timestamp < watermark ∧ (∀ b ∈ s.timers, a.timestamp ≤ b.timestamp) ∧
      s' = s.cancel a := by
  obtain ⟨ha, hdue, hfirst, rfl⟩ := popDue_eq_some_iff.mp h
  refine ⟨ha, hdue, fun b hb => ?_, rfl⟩
  rcases hfirst b hb with rfl | hab
  · exact Int.le_refl _
  · exact Timer.timestamp_le hab

theorem popDue_eq_none_iff {s : TriggerState t} {watermark : Int} :
    s.popDue watermark = none ↔ s.dueTimers watermark = [] := by
  simp only [popDue, nextDue_firstTimers, Option.map_eq_none_iff, Timer.least_eq_none_iff]

theorem find?_cancel (s : TriggerState t) (a : Timer) (w : Window) :
    (s.cancel a).find? w = if a.window = w then (s.find? w).map (fun state =>
      { state with memory := t.cancelFrom a.timestamp a.node 0 state.memory }) else s.find? w :=
  WindowMap.find?_modify ..

theorem timer_eq {s : TriggerState t} {e : TimerEvent} {state : t.State} {o : Outcome}
    (hs : s.find? e.window = some state) (ho : (state.offer (t.onTimer e 0)).answer = .ok o) :
    s.timer e = (.ok o, s.insert e.window (state.offer (t.onTimer e 0)).state) := by
  have hc : s.contains e.window = true := WindowMap.contains_iff.mpr ⟨state, hs⟩
  have hstate : s.stateOf e.window = state := by
    simp only [stateOf, hs, Option.getD_some]
  simp only [timer, hc, if_true, hstate, commit, ho, keep, Bool.or_true]

theorem element_eq {s : TriggerState t} {e : ElementEvent} {o : Outcome}
    (ho : ((s.stateOf e.window).offer (t.onElement e 0)).answer = .ok o) :
    s.element e = (.ok o, s.keep e.window ((s.stateOf e.window).offer (t.onElement e 0))) := by
  simp only [element, commit, ho]

theorem element_answers (s : TriggerState t) (e : ElementEvent) (ht : t.isBuiltIn = true) :
    ∃ o s', s.element e = (.ok o, s') := by
  obtain ⟨o, ho⟩ := Slot.offer_answers (s := s.stateOf e.window)
    (t.onElement_answers e 0 _ ht)
  exact ⟨o, _, element_eq ho⟩

theorem timer_answers {s : TriggerState t} {a : Timer} (ha : a ∈ s.timers)
    (ht : t.isBuiltIn = true) :
    ∃ o s', (s.cancel a).timer a.event = (.ok o, s') ∧
      s'.timers.Sublist (s.cancel a).timers := by
  obtain ⟨state, hs, hmem⟩ := mem_timers.mp ha
  have hleaf := t.mem_leaves_of_mem_timersFrom 0 state.memory hmem
  have hfind : (s.cancel a).find? a.event.window = _ := find?_cancel s a a.window
  rw [if_pos rfl, hs, Option.map_some] at hfind
  have hoffer : ∃ o, (Slot.offer
      { state with memory := t.cancelFrom a.timestamp a.node 0 state.memory }
      (t.onTimer a.event 0)).answer = .ok o :=
    Slot.offer_answers (t.onTimer_answers a.event 0 _ ht hleaf)
  obtain ⟨o, ho⟩ := hoffer
  refine ⟨o, _, timer_eq hfind ho, ?_⟩
  rw [timers_insert hfind, timers]
  refine List.Sublist.flatMap_right _ fun p hp => List.Sublist.map _ ?_
  split
  · rename_i e
    have hp2 := WindowMap.find?_of_mem hp
    rw [e, hfind, Option.some.injEq] at hp2
    rw [← hp2]
    exact Trigger.timersFrom_offer (t.timersFrom_onTimer a.event 0 _ ht)
  · exact List.Sublist.refl _

theorem length_dueTimers_cancel {s : TriggerState t} {watermark : Int} {a : Timer}
    (ha : a ∈ s.timers) (hdue : a.timestamp < watermark) :
    ((s.cancel a).dueTimers watermark).length < (s.dueTimers watermark).length := by
  have hmem : a ∈ s.dueTimers watermark := List.mem_filter.mpr ⟨ha, by simpa using hdue⟩
  have heq : (s.cancel a).dueTimers watermark = (s.dueTimers watermark).filter (· ≠ a) := by
    simp only [dueTimers, timers_cancel, List.filter_filter, Bool.and_comm]
  rw [heq]
  exact List.length_filter_lt_length_iff_exists.mpr ⟨a, hmem, by simp⟩

theorem stateOf_of_none {s : TriggerState t} {w : Window} (h : s.find? w = none) :
    s.stateOf w = t.fresh := by
  rw [stateOf, h]
  rfl

theorem stateOf_of_some {s : TriggerState t} {w : Window} {state : t.State}
    (h : s.find? w = some state) : s.stateOf w = state := by
  rw [stateOf, h]
  rfl

theorem find?_left (olds : List Window) (p : TriggerState t × TriggerState t) (w : Window) :
    (olds.foldl take p).2.find? w = if w ∈ olds then none else p.2.find? w := by
  induction olds generalizing p with
  | nil => simp
  | cons v rest ih =>
    rw [List.foldl_cons, ih]
    show (if w ∈ rest then none else (p.2.erase v).find? w) = _
    rw [WindowMap.find?_erase]
    by_cases hr : w ∈ rest
    · simp [hr]
    · by_cases hv : v = w
      · simp [hv]
      · simp [hr, hv, Ne.symm hv]

/-- A window taken again hands over the state of a window that has seen nothing. -/
theorem find?_taken_of_count (olds : List Window) (p : TriggerState t × TriggerState t)
    (w : Window) : (olds.foldl take p).1.find? w =
      if w ∈ olds then some (if 1 < olds.count w then t.fresh else p.2.stateOf w)
      else p.1.find? w := by
  induction olds generalizing p with
  | nil => simp
  | cons v rest ih =>
    rw [List.foldl_cons, ih]
    show (if w ∈ rest then some (if 1 < rest.count w then t.fresh else stateOf (p.2.erase v) w)
      else (p.1.insert v (p.2.stateOf v)).find? w) = _
    rw [WindowMap.find?_insert]
    by_cases hvw : v = w
    · subst hvw
      have herased : stateOf (p.2.erase v) v = t.fresh :=
        stateOf_of_none ((WindowMap.find?_erase ..).trans (if_pos rfl))
      by_cases hr : v ∈ rest
      · have hcount := List.count_pos_iff.mpr hr
        rw [if_pos hr, if_pos (List.mem_cons_self ..), herased, ite_self, List.count_cons_self,
          if_pos (by omega)]
      · have hcount := List.count_eq_zero.mpr hr
        rw [if_neg hr, if_pos rfl, if_pos (List.mem_cons_self ..), List.count_cons_self,
          if_neg (by omega)]
    · simp [stateOf, hvw, Ne.symm hvw]

theorem find?_taken {olds : List Window} (hnodup : olds.Nodup)
    (p : TriggerState t × TriggerState t) (w : Window) :
    (olds.foldl take p).1.find? w = if w ∈ olds then some (p.2.stateOf w) else p.1.find? w := by
  have hcount : ¬1 < olds.count w := Nat.not_lt.mpr (List.nodup_iff_count_le_one.mp hnodup w)
  rw [find?_taken_of_count, if_neg hcount]

/-- The states taken out for a merge are those of the old windows. -/
theorem mem_taken {olds : List Window} (hnodup : olds.Nodup) {s : TriggerState t}
    {state : t.State} :
    state ∈ (olds.foldl take (.empty, s)).1.entries.map (·.2) ↔ ∃ w ∈ olds, s.stateOf w = state := by
  have hfind : ∀ w, (olds.foldl take (.empty, s)).1.find? w =
      if w ∈ olds then some (s.stateOf w) else none := find?_taken hnodup (.empty, s)
  constructor
  · intro h
    obtain ⟨p, hp, rfl⟩ := List.mem_map.mp h
    have hp := hfind p.1 ▸ WindowMap.find?_of_mem hp
    split at hp
    · rename_i hmem
      exact ⟨p.1, hmem, Option.some.inj hp⟩
    · cases hp
  · rintro ⟨w, hw, rfl⟩
    have h := hfind w
    rw [if_pos hw] at h
    exact List.mem_map.mpr ⟨_, WindowMap.mem_entries.mpr h, rfl⟩

end TriggerState

theorem Trigger.Endless.element {t : Trigger} (ht : t.Endless) {s s' : TriggerState t}
    {e : ElementEvent} {o : Outcome} (h : s.element e = (.ok o, s')) : o.finishes = false := by
  have hanswer : ((s.stateOf e.window).offer (t.onElement e 0)).answer = .ok o := by
    simp only [TriggerState.element, TriggerState.commit] at h
    split at h
    · rename_i o' ho
      simp only [Prod.mk.injEq, Except.ok.injEq] at h
      rw [ho, h.1]
    · simp at h
  exact Slot.not_finishes_of_offer (fun o ho => ht.onElement ho) hanswer

theorem Trigger.Endless.timer {t : Trigger} (ht : t.Endless) {s s' : TriggerState t}
    {e : TimerEvent} {o : Outcome} (h : s.timer e = (.ok o, s')) : o.finishes = false := by
  simp only [TriggerState.timer] at h
  split at h
  · have hanswer : ((s.stateOf e.window).offer (t.onTimer e 0)).answer = .ok o := by
      simp only [TriggerState.commit] at h
      split at h
      · rename_i o' ho
        simp only [Prod.mk.injEq, Except.ok.injEq] at h
        rw [ho, h.1]
      · simp at h
    exact Slot.not_finishes_of_offer (fun o ho => ht.onTimer ho) hanswer
  · simp only [Prod.mk.injEq, Except.ok.injEq] at h
    rw [← h.1]
    rfl

end EventTime
