import EventTime.Proofs.Failing
import EventTime.Proofs.Pane.Operations

/-!
# Moving the watermark

For a built-in trigger a move of the watermark always succeeds. It delivers due timers until none is
left, and then collects the expired windows: the bound on the number of deliveries is never what
ends the loop. What one delivery preserves, a whole move preserves up to the collection.
-/

namespace EventTime

variable {ν : Type} {s : Strategy}

namespace Grouper

section

variable {g g' : Grouper s ν}

/-- A delivery that succeeds is dropped, or settles what the trigger answers for an open window. -/
theorem deliverTimer_ok {a : Timer} (h : g.deliverTimer a = .ok g') :
    g' = g ∨ (∃ b, g.buffers.find? a.window = some b ∧ b.closed = false) ∧
      g.settle a.window (g.state.timer a.event) = .ok g' := by
  unfold deliverTimer at h
  split at h
  · rename_i hany
    obtain ⟨b, hb, hopen⟩ := (Option.any_eq_true _ _).mp hany
    exact .inr ⟨⟨b, hb, by simpa using hopen⟩, h⟩
  · exact .inl (Except.ok.inj h).symm

/-- What every delivery that succeeds preserves is preserved by the loop, whatever its bound. -/
theorem drain_preserves {P : Grouper s ν → Prop}
    (step : ∀ g a g', P g → { g with state := g.state.cancel a }.deliverTimer a = .ok g' → P g')
    {fuel : Nat} (h : drain fuel g = .ok g') (hg : P g) : P g' := by
  induction fuel generalizing g with
  | zero => exact Except.ok.inj h ▸ hg
  | succ fuel ih =>
    unfold drain at h
    split at h
    · exact Except.ok.inj h ▸ hg
    · rename_i a state hpop
      obtain ⟨-, -, -, rfl⟩ := TriggerState.popDue_some hpop
      obtain ⟨g₁, hone, hrest⟩ := ok_of_bind h
      exact ih hrest (step g a g₁ hg hone)

/-- A move of the watermark is void, or goes through the loop to a collection. -/
theorem advance_cases {target : Int} (h : g.advance target = .ok g') :
    target ≤ g.watermark ∧ g' = g ∨ g.watermark < target ∧
      ∃ g₁, drain (g.state.dueTimers target).length { g with watermark := target } = .ok g₁ ∧
        g' = g₁.expired.foldl collect g₁ := by
  unfold advance at h
  split at h
  · rename_i hle
    exact .inl ⟨hle, (Except.ok.inj h).symm⟩
  · rename_i hlt
    obtain ⟨g₁, hdrain, hcollect⟩ := ok_of_bind h
    exact .inr ⟨Int.not_le.mp hlt, g₁, hdrain, (Except.ok.inj hcollect).symm⟩

end

theorem deliverTimer_cases {g : Grouper s ν} {a : Timer} (ht : s.trigger.isBuiltIn = true)
    (ha : a ∈ g.state.timers) :
    ∃ o state, (g.state.cancel a).timer a.event = (.ok o, state) ∧
      state.timers.Sublist (g.state.cancel a).timers ∧
      { g with state := g.state.cancel a }.deliverTimer a =
        .ok (if (g.buffers.find? a.window).any fun b => !b.closed then
          { g with state := state }.act a.window o else { g with state := g.state.cancel a }) := by
  obtain ⟨o, state, heq, hsub⟩ := TriggerState.timer_answers ha ht
  refine ⟨o, state, heq, hsub, ?_⟩
  by_cases hopen : (g.buffers.find? a.window).any (fun b => !b.closed) = true
  · simp only [deliverTimer, hopen, if_true, settle, heq, Except.map]
  · simp only [deliverTimer, hopen, if_false, Bool.false_eq_true]

@[simp] theorem act_state (g : Grouper s ν) (w : Window) (o : Outcome) :
    (g.act w o).state = g.state := by
  cases o
  · rfl
  · rw [act_fire, emit_state]
  · show (g.emit w true).state = g.state
    rw [emit_state]

theorem deliverTimer_progress {g g' : Grouper s ν} {a : Timer} (ht : s.trigger.isBuiltIn = true)
    (ha : a ∈ g.state.timers) (hdue : a.timestamp < g.watermark)
    (h : { g with state := g.state.cancel a }.deliverTimer a = .ok g') :
    g'.watermark = g.watermark ∧
      (g'.state.dueTimers g'.watermark).length < (g.state.dueTimers g.watermark).length := by
  have hlt := TriggerState.length_dueTimers_cancel ha hdue
  obtain ⟨o, state, -, hsub, heq⟩ := deliverTimer_cases (g := g) ht ha
  have hle : (state.dueTimers g.watermark).length ≤
      ((g.state.cancel a).dueTimers g.watermark).length := (hsub.filter _).length_le
  rw [heq, Except.ok.injEq] at h
  subst h
  split
  · rw [act_watermark, act_state]
    exact ⟨rfl, Nat.lt_of_le_of_lt hle hlt⟩
  · exact ⟨rfl, hlt⟩

/-- The loop that delivers timers, the first one first, until none is due. -/
inductive Drains : Grouper s ν → Grouper s ν → Prop
  | done {g : Grouper s ν} (hnone : g.state.popDue g.watermark = none) : Drains g g
  | deliver {g g₁ g₂ : Grouper s ν} {a : Timer}
      (hpop : g.state.popDue g.watermark = some (a, g.state.cancel a))
      (hone : { g with state := g.state.cancel a }.deliverTimer a = .ok g₁)
      (hrest : Drains g₁ g₂) : Drains g g₂

/-- The bound on the number of deliveries never ends the loop. -/
theorem drain_drains (ht : s.trigger.isBuiltIn = true) (fuel : Nat) (g : Grouper s ν)
    (hfuel : (g.state.dueTimers g.watermark).length ≤ fuel) :
    ∃ g', drain fuel g = .ok g' ∧ Drains g g' := by
  induction fuel generalizing g with
  | zero =>
    have hnone := List.eq_nil_of_length_eq_zero (Nat.le_zero.mp hfuel)
    exact ⟨g, rfl, .done (TriggerState.popDue_eq_none_iff.mpr hnone)⟩
  | succ fuel ih =>
    cases hpop : g.state.popDue g.watermark with
    | none => exact ⟨g, by simp only [drain, hpop], .done hpop⟩
    | some p =>
      obtain ⟨a, state⟩ := p
      obtain ⟨ha, hdue, -, rfl⟩ := TriggerState.popDue_some hpop
      obtain ⟨o, state, -, -, hone⟩ := deliverTimer_cases (g := g) ht ha
      have hlt := (deliverTimer_progress ht ha hdue hone).2
      obtain ⟨g', hdrain, hrest⟩ := ih _ (Nat.le_of_lt_succ (Nat.lt_of_lt_of_le hlt hfuel))
      refine ⟨g', ?_, .deliver hpop hone hrest⟩
      simp only [drain, hpop, hone]
      exact hdrain

/-- A move of the watermark to a later time is that loop and then a collection. -/
theorem advance_of_lt {g : Grouper s ν} {target : Int} (ht : s.trigger.isBuiltIn = true)
    (hlt : g.watermark < target) :
    ∃ g', Drains { g with watermark := target } g' ∧
      g.advance target = .ok (g'.expired.foldl collect g') := by
  obtain ⟨g', hdrain, hloop⟩ := drain_drains ht (g.state.dueTimers target).length
    { g with watermark := target } (Nat.le_refl _)
  refine ⟨g', hloop, ?_⟩
  simp only [advance, if_neg (Int.not_le.mpr hlt), hdrain]
  rfl

namespace Drains

variable {g g' : Grouper s ν}

theorem none_due (h : Drains g g') : g'.state.dueTimers g'.watermark = [] := by
  induction h with
  | done hnone => exact TriggerState.popDue_eq_none_iff.mp hnone
  | deliver _ _ _ ih => exact ih

/-- What every delivery preserves holds in the end. -/
theorem preserves {P : Grouper s ν → Prop}
    (step : ∀ g a g', P g → a ∈ g.state.timers → a.timestamp < g.watermark →
      (∀ b ∈ g.state.timers, a.timestamp ≤ b.timestamp) →
      { g with state := g.state.cancel a }.deliverTimer a = .ok g' → P g')
    (h : Drains g g') (hg : P g) : P g' := by
  induction h with
  | done => exact hg
  | deliver hpop hone _ ih =>
    obtain ⟨ha, hdue, hfirst, -⟩ := TriggerState.popDue_some hpop
    exact ih (step _ _ _ hg ha hdue hfirst hone)

theorem watermark_eq (ht : s.trigger.isBuiltIn = true) (h : Drains g g') :
    g'.watermark = g.watermark :=
  h.preserves (P := fun k => k.watermark = g.watermark)
    (fun _ _ _ hk ha hdue _ hone => (deliverTimer_progress ht ha hdue hone).1.trans hk) rfl

end Drains

/-- What every delivery preserves holds before the collection, and then no timer is due. -/
theorem advance_rule {P : Grouper s ν → Prop} (ht : s.trigger.isBuiltIn = true)
    (step : ∀ g a g', P g → a ∈ g.state.timers → a.timestamp < g.watermark →
      (∀ b ∈ g.state.timers, a.timestamp ≤ b.timestamp) →
      { g with state := g.state.cancel a }.deliverTimer a = .ok g' → P g')
    {g : Grouper s ν} {target : Int} (hlt : g.watermark < target)
    (hg : P { g with watermark := target }) :
    ∃ g', g.advance target = .ok (g'.expired.foldl collect g') ∧ P g' ∧
      g'.watermark = target ∧ g'.state.dueTimers target = [] := by
  obtain ⟨g', hloop, hadvance⟩ := advance_of_lt ht hlt
  have hwatermark : g'.watermark = target := hloop.watermark_eq ht
  exact ⟨g', hadvance, hloop.preserves step hg, hwatermark, hwatermark ▸ hloop.none_due⟩

/-- The move of the watermark that comes before an element. -/
def follow (mode : InputWatermark) (g : Grouper s ν) (timestamp : Int) :
    Except Fault (Grouper s ν) :=
  match mode with
  | .elementTime => g.advance timestamp
  | .heldUntilEnd => .ok g

theorem take_eq (mode : InputWatermark) (g : Grouper s ν) (e : Envelope ν) :
    g.take mode e = (g.follow mode e.timestamp).bind fun g =>
      e.windows.foldlM (fun g w => g.place e.timestamp e.value w) g := by
  cases mode <;> rfl

theorem advance_of_le {g : Grouper s ν} {target : Int} (h : target ≤ g.watermark) :
    g.advance target = .ok g := by
  simp only [advance, if_pos h]

/-- The watermark after it has followed an element. -/
def pace (mode : InputWatermark) (watermark timestamp : Int) : Int :=
  match mode with
  | .elementTime => max watermark timestamp
  | .heldUntilEnd => watermark

/-- The watermark has passed none of the elements so far, and has not moved at all if it is held. -/
structure Behind (g : Grouper s ν) (mode : InputWatermark) (elements : List (Envelope ν)) :
    Prop where
  le : ∀ t, minTime ≤ t → (∀ d ∈ elements, d.timestamp ≤ t) → g.watermark ≤ t
  held : mode = .heldUntilEnd → g.watermark = minTime

theorem behind_start (mode : InputWatermark) : ({} : Grouper s ν).Behind mode [] :=
  ⟨fun _ hmin _ => hmin, fun _ => rfl⟩

theorem Behind.concat {g g' : Grouper s ν} {mode : InputWatermark} {elements : List (Envelope ν)}
    {e : Envelope ν} (h : g.Behind mode elements)
    (hpace : g'.watermark = pace mode g.watermark e.timestamp) :
    g'.Behind mode (elements ++ [e]) := by
  refine ⟨fun t hmin ht => ?_, fun hheld => ?_⟩
  · have hfront := h.le t hmin fun d hd => ht d (by simp [hd])
    have hlast := ht e (by simp)
    cases mode <;> simp only [pace] at hpace <;> omega
  · subst hheld
    exact hpace.trans (h.held rfl)

theorem Behind.pace_le {g : Grouper s ν} {mode : InputWatermark} {elements : List (Envelope ν)}
    {t : Int} (h : g.Behind mode elements) (horder : ∀ d ∈ elements, d.timestamp ≤ t) :
    pace mode g.watermark t ≤ max minTime t := by
  have hle := h.le (max minTime t) (by omega) fun d hd => by
    have := horder d hd
    omega
  cases mode <;> simp only [pace] <;> omega

theorem Behind.lt_maxTime {g : Grouper s ν} {mode : InputWatermark} {elements : List (Envelope ν)}
    (h : g.Behind mode elements) (hmax : ∀ e ∈ elements, e.timestamp < maxTime) :
    g.watermark < maxTime := by
  have hle := h.le (maxTime - 1) (by decide) fun d hd => by
    have := hmax d hd
    omega
  omega

theorem inTimeOrder_sorted (elements : List (Envelope ν)) :
    (inTimeOrder elements).Pairwise fun a b => a.timestamp ≤ b.timestamp := by
  have h : (inTimeOrder elements).Pairwise fun a b => decide (a.timestamp ≤ b.timestamp) = true :=
    List.pairwise_mergeSort (fun a b c hab hbc => by simp at *; omega) (fun a b => by simp; omega)
      elements
  exact h.imp fun hab => by simpa using hab

theorem mem_inTimeOrder {elements : List (Envelope ν)} {e : Envelope ν} :
    e ∈ inTimeOrder elements ↔ e ∈ elements := List.mem_mergeSort

end Grouper

namespace Grouper

/-- An element is taken by following it and then placing it into its windows one by one. -/
theorem take_rule {mode : InputWatermark} {e : Envelope ν} {g g₁ : Grouper s ν}
    (hfollow : g.follow mode e.timestamp = .ok g₁) (I : List Window → Grouper s ν → Prop)
    (hstart : I [] g₁)
    (hstep : ∀ before w g, w ∈ e.windows → g.watermark = g₁.watermark → I before g →
      ∃ g', g.place e.timestamp e.value w = .ok g' ∧ I (before ++ [w]) g' ∧
        g'.watermark = g.watermark) :
    ∃ g', g.take mode e = .ok g' ∧ I e.windows g' ∧ g'.watermark = g₁.watermark := by
  obtain ⟨g', hfold, h', hwatermark⟩ := foldlM_rule (l := e.windows) (b := g₁)
    (fun g w => g.place e.timestamp e.value w)
    (fun before g => I before g ∧ g.watermark = g₁.watermark)
    (fun before w after g heq ⟨h, hg⟩ => by
      obtain ⟨g', hplace, h', hkept⟩ := hstep before w g (heq ▸ by simp) hg h
      exact ⟨g', hplace, h', hkept.trans hg⟩)
    ⟨hstart, rfl⟩
  refine ⟨g', ?_, h', hwatermark⟩
  rw [take_eq, hfollow]
  exact hfold

/-- What every element preserves when none before it is later holds all along a run. -/
theorem elements_rule {mode : InputWatermark} {elements front back : List (Envelope ν)}
    (hsplit : inTimeOrder elements = front ++ back) (I : List (Envelope ν) → Grouper s ν → Prop)
    (hstart : I [] {})
    (hstep : ∀ before e g, e ∈ elements → (∀ d ∈ before, d.timestamp ≤ e.timestamp) →
      I before g → ∃ g', g.take mode e = .ok g' ∧ I (before ++ [e]) g') :
    ∃ g, front.foldlM (take mode) {} = .ok g ∧ I front g := by
  have hsorted : (front ++ back).Pairwise fun a b => a.timestamp ≤ b.timestamp :=
    hsplit ▸ inTimeOrder_sorted elements
  refine foldlM_rule (take mode) I (fun before e after g heq hI => ?_) hstart
  have hmem : e ∈ elements := mem_inTimeOrder.mp (hsplit ▸ by simp [heq])
  rw [heq, List.append_assoc] at hsorted
  exact hstep before e g hmem (fun d hd =>
    (List.pairwise_append.mp hsorted).2.2 d hd e (by simp)) hI

theorem run_of_fold {mode : InputWatermark} {elements : List (Envelope ν)} {g g' : Grouper s ν}
    (hfold : (inTimeOrder elements).foldlM (take mode) ({} : Grouper s ν) = .ok g)
    (hadvance : g.advance maxTime = .ok g') : run s mode elements = .ok g'.panes := by
  simp only [run, bind, Except.bind, hfold, hadvance]
  rfl

end Grouper

end EventTime
