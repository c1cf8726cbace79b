import EventTime.Proofs.Trigger.Delivery

/-!
# Finished bits along a tree

A tree's memory is consistent below its root's finished bit if a node that has finished has a
finished parent, and the child of a repetition has not finished. Every event keeps that, with the
bit the root has afterwards, on trees with leaves of any kind. A merge asks it of the new window
only. If no root has finished in the old windows, then nothing has finished in them, and a tree of
built-in leaves does not answer that it had.
-/

namespace EventTime

/-- If the step answers, the state it leaves and its answer are related by `P`. -/
def Step.Ensures {σ ρ : Type} (r : Step σ ρ) (P : σ → ρ → Prop) : Prop :=
  ∀ a, r.answer = .ok a → P r.state a

section Steps

variable {σ τ ρ υ : Type}

theorem Step.ensures_quiet {P : σ → ρ → Prop} {state : σ} {a : ρ} (h : P state a) :
    (Step.quiet state (.ok a)).Ensures P := fun _ hb => Except.ok.inj hb ▸ h

theorem Step.ensures_failed {P : σ → ρ → Prop} {state : σ} {fault : Fault} :
    (Step.quiet state (.error fault)).Ensures P := nofun

theorem Step.Ensures.next {P : σ → ρ → Prop} {Q : τ → υ → Prop} {s : Step σ ρ} {keep : σ → τ}
    {k : σ → ρ → Step τ υ} (h : s.Ensures P) (hk : ∀ u a, P u a → (k u a).Ensures Q) :
    (s.next keep k).Ensures Q := by
  intro b hb
  obtain ⟨a, ha, hka⟩ := Step.answer_of_next hb
  rw [Step.next_ok ha]
  exact hk _ _ (h a ha) b hka

theorem Step.Ensures.imp {P Q : σ → ρ → Prop} {s : Step σ ρ} (h : s.Ensures P)
    (hPQ : ∀ u a, P u a → Q u a) : s.Ensures Q := fun a ha => hPQ _ _ (h a ha)

/-- A slot below a root whose finished bit is `above`: it has not finished unless the root has, and
its memory is consistent with its own bit. -/
def Slot.Under (C : Bool → σ → Prop) (above : Bool) (s : Slot σ) : Prop :=
  (s.finished = true → above = true) ∧ C s.finished s.memory

theorem Slot.Under.unfinished {C : Bool → σ → Prop} {s : Slot σ} (h : s.Under C false) :
    s.finished = false ∧ C false s.memory := by
  have hf : s.finished = false := Bool.eq_false_iff.mpr fun hf => Bool.false_ne_true (h.1 hf)
  exact ⟨hf, hf ▸ h.2⟩

theorem Slot.Under.mono {C : Bool → σ → Prop} {above above' : Bool} {s : Slot σ}
    (h : s.Under C above) (hle : above = true → above' = true) : s.Under C above' :=
  ⟨fun hf => hle (h.1 hf), h.2⟩

/-- What a slot is after an event: finished if it was or if the answer finishes, and consistent. -/
def Slot.After (C : Bool → σ → Prop) (before finishes : Bool) (s : Slot σ) : Prop :=
  s.finished = (before || finishes) ∧ C s.finished s.memory

theorem Slot.After.under {C : Bool → σ → Prop} {before finishes above : Bool} {s : Slot σ}
    (h : s.After C before finishes) (hbefore : before = true → above = true)
    (hfinishes : finishes = true → above = true) : s.Under C above := by
  refine ⟨fun hf => ?_, h.2⟩
  rcases Bool.or_eq_true .. ▸ h.1 ▸ hf with hf | hf
  · exact hbefore hf
  · exact hfinishes hf

theorem Slot.offer_ensures {C : Bool → σ → Prop} {s : Slot σ} {run : σ → Step σ Outcome}
    (hs : C s.finished s.memory)
    (hrun : (run s.memory).Ensures fun m o => C (s.finished || o.finishes) m) :
    (s.offer run).Ensures fun u o => u.After C s.finished o.finishes := by
  unfold Slot.offer
  split
  · exact Step.ensures_quiet ⟨(Bool.or_false _).symm, hs⟩
  · refine hrun.next fun m o hm => ?_
    rintro _ ⟨⟩
    exact ⟨rfl, hm⟩

theorem Slot.merge_ensures {C : Bool → σ → Prop}
    (hmono : ∀ above m, C above m → C true m) {s : Slot σ} {olds : List (Slot σ)}
    {run : List σ → σ → Step σ MergeOutcome} (hs : C s.finished s.memory)
    (hrun : (run (olds.map (·.memory)) s.memory).Ensures fun m o =>
      C (s.finished || o.finishes) m) :
    (s.merge olds run).Ensures fun u o => u.After C s.finished o.finishes := by
  unfold Slot.merge
  split
  · rintro _ ⟨⟩
    exact ⟨(Bool.or_true _).symm, hmono _ _ hs⟩
  · refine hrun.next fun m o hm => ?_
    rintro _ ⟨⟩
    exact ⟨rfl, hm⟩

theorem Slot.merge_ensures_of_open {P : MergeOutcome → Prop} {M : σ → Prop} {s : Slot σ}
    {olds : List (Slot σ)} {run : List σ → σ → Step σ MergeOutcome}
    (holds : ∀ u ∈ olds, u.finished = false ∧ M u.memory)
    (hrun : (∀ m ∈ olds.map (·.memory), M m) →
      (run (olds.map (·.memory)) s.memory).Ensures fun _ o => P o) :
    (s.merge olds run).Ensures fun _ o => P o := by
  have hany : olds.any (·.finished) = false :=
    List.any_eq_false.mpr fun u hu => by simp [holds u hu]
  simp only [Slot.merge, hany, Bool.false_eq_true, if_false]
  refine (hrun (List.forall_mem_map.mpr fun u hu => (holds u hu).2)).next fun m o hm => ?_
  rintro _ ⟨⟩
  exact hm

end Steps

namespace Trigger

/-! ### Consistent memories -/

mutual

/-- What a tree remembers below a root with finished bit `above` is consistent. -/
def Consistent : (t : Trigger) → (above : Bool) → t.Memory → Prop
  | .leaf _, _, _ => True
  | .afterFirst ts, above, m => ConsistentAll ts above m
  | .repeatedly t, _, m => m.finished = false ∧ Consistent t false m.memory
  | .orFinally a b, above, m =>
    m.1.Under (Consistent a) above ∧ m.2.Under (Consistent b) above

/-- Each of several trees is consistent below the root they share. -/
def ConsistentAll : (ts : List Trigger) → (above : Bool) → Memories ts → Prop
  | [], _, _ => True
  | t :: ts, above, m => m.1.Under (Consistent t) above ∧ ConsistentAll ts above m.2

end

theorem ConsistentAll.mono {above above' : Bool} (hle : above = true → above' = true) :
    (ts : List Trigger) → (m : Memories ts) → ConsistentAll ts above m → ConsistentAll ts above' m
  | [], _, _ => trivial
  | _ :: ts, m, h => ⟨h.1.mono hle, ConsistentAll.mono hle ts m.2 h.2⟩

theorem Consistent.mono {above above' : Bool} (hle : above = true → above' = true) :
    (t : Trigger) → (m : t.Memory) → t.Consistent above m → t.Consistent above' m
  | .leaf _, _, _ => trivial
  | .afterFirst ts, m, h => ConsistentAll.mono hle ts m h
  | .repeatedly _, _, h => h
  | .orFinally _ _, _, h => ⟨h.1.mono hle, h.2.mono hle⟩

theorem Consistent.to_true {t : Trigger} {above : Bool} {m : t.Memory} (h : t.Consistent above m) :
    t.Consistent true m :=
  Consistent.mono (fun _ => rfl) t m h

mutual

theorem consistent_blank : (t : Trigger) → (above : Bool) → t.Consistent above t.blank
  | .leaf _, _ => trivial
  | .afterFirst ts, above => consistentAll_blanks ts above
  | .repeatedly t, _ => ⟨rfl, consistent_blank t false⟩
  | .orFinally a b, _ => ⟨⟨nofun, consistent_blank a false⟩, nofun, consistent_blank b false⟩

theorem consistentAll_blanks :
    (ts : List Trigger) → (above : Bool) → ConsistentAll ts above (blanks ts)
  | [], _ => trivial
  | t :: ts, above => ⟨⟨nofun, consistent_blank t false⟩, consistentAll_blanks ts above⟩

end

theorem or_of_imp {f above g : Bool} (h : f = true → above = true) (hf : f = true) :
    (above || g) = true := by
  simp [h hf]

/-! ### Events -/

mutual

theorem onElement_consistent (e : ElementEvent) : (t : Trigger) → (node : Nat) → (m : t.Memory) →
    (above : Bool) → t.Consistent above m →
      (onElement e t node m).Ensures fun m' o => t.Consistent (above || o.finishes) m'
  | .leaf _, _, _, _, _ => fun _ _ => trivial
  | .afterFirst ts, node, m, above, h => onElementAmong_consistent e ts (node + 1) m above h
  | .repeatedly t, node, m, _, h => by
    have hoffer := Slot.offer_ensures (C := t.Consistent) (h.1 ▸ h.2)
      (onElement_consistent e t (node + 1) m.memory m.finished (h.1 ▸ h.2))
    refine hoffer.next fun u o hu => ?_
    -- the child finishes only by this answer, and then starts over
    cases o with
    | fireAndFinish => exact fun _ _ => ⟨rfl, consistent_blank t false⟩
    | _ =>
      have hopen : u.finished = false := hu.1.trans (by rw [h.1]; rfl)
      exact Step.ensures_quiet ⟨hopen, hopen ▸ hu.2⟩
  | .orFinally a b, node, m, above, h => by
    refine (Slot.offer_ensures h.1.2
      (onElement_consistent e a (node + 1) m.1.memory _ h.1.2)).next fun ua oa ha => ?_
    refine (Slot.offer_ensures h.2.2
      (onElement_consistent e b (node + 1 + a.size) m.2.memory _ h.2.2)).next fun ub ob hb => ?_
    refine Step.ensures_quiet ⟨ha.under (or_of_imp h.1.1) ?_, hb.under (or_of_imp h.2.1) ?_⟩
    all_goals cases oa <;> cases ob <;> simp [Outcome.fires, Outcome.finishes]

theorem onElementAmong_consistent (e : ElementEvent) : (ts : List Trigger) → (node : Nat) →
    (m : Memories ts) → (above : Bool) → ConsistentAll ts above m →
      (onElementAmong e ts node m).Ensures fun m' o => ConsistentAll ts (above || o.finishes) m'
  | [], _, _, _, _ => fun _ _ => trivial
  | t :: ts, node, m, above, h => by
    refine (Slot.offer_ensures h.1.2
      (onElement_consistent e t node m.1.memory _ h.1.2)).next fun u o hu => ?_
    split
    · exact Step.ensures_quiet ⟨hu.under (fun _ => by simp [Outcome.finishes])
        fun _ => by simp [Outcome.finishes], ConsistentAll.mono (or_of_imp id) ts m.2 h.2⟩
    · rename_i hfires
      refine (onElementAmong_consistent e ts (node + t.size) m.2 above h.2).next
        fun rest o' hrest => Step.ensures_quiet ⟨hu.under (or_of_imp h.1.1) ?_, hrest⟩
      cases o <;> simp [Outcome.fires, Outcome.finishes] at hfires ⊢

end

mutual

/-- The new window keeps its own bits, so what the old windows remember does not matter here. -/
theorem onMerge_consistent (e : Merge) : (t : Trigger) → (node : Nat) → (olds : List t.Memory) →
    (m : t.Memory) → (above : Bool) → t.Consistent above m →
      (onMerge e t node olds m).Ensures fun m' o => t.Consistent (above || o.finishes) m'
  | .leaf _, _, _, _, _, _ => fun _ _ => trivial
  | .afterFirst ts, node, olds, m, above, h =>
    (onMergeAmong_consistent e ts (node + 1) olds false m above h).imp fun _ _ hm => hm.1
  | .repeatedly t, node, olds, m, _, h => by
    refine (Slot.merge_ensures (C := t.Consistent) (fun _ _ => Consistent.to_true) (h.1 ▸ h.2)
      (onMerge_consistent e t (node + 1) _ m.memory m.finished (h.1 ▸ h.2))).next fun u o hu => ?_
    split
    · exact fun _ _ => ⟨rfl, consistent_blank t false⟩
    · rename_i hfinishes
      have hopen : u.finished = false := hu.1.trans (by simp [h.1, hfinishes])
      exact Step.ensures_quiet ⟨hopen, hopen ▸ hu.2⟩
  | .orFinally a b, node, olds, m, above, h => by
    refine (Slot.merge_ensures (C := a.Consistent) (fun _ _ => Consistent.to_true) h.1.2
      (onMerge_consistent e a (node + 1) _ m.1.memory _ h.1.2)).next fun ua oa ha => ?_
    refine (Slot.merge_ensures (C := b.Consistent) (fun _ _ => Consistent.to_true) h.2.2
      (onMerge_consistent e b (node + 1 + a.size) _ m.2.memory _ h.2.2)).next fun ub ob hb => ?_
    refine Step.ensures_quiet ⟨ha.under (or_of_imp h.1.1) ?_, hb.under (or_of_imp h.2.1) ?_⟩
    all_goals cases oa <;> cases ob <;> simp [MergeOutcome.fires, MergeOutcome.finishes]

/-- A child that fires is remembered, so one that finishes makes the root finish. -/
theorem onMergeAmong_consistent (e : Merge) : (ts : List Trigger) → (node : Nat) →
    (olds : List (Memories ts)) → (fired : Bool) → (m : Memories ts) → (above : Bool) →
      ConsistentAll ts above m → (onMergeAmong e ts node olds fired m).Ensures fun m' o =>
        ConsistentAll ts (above || o.finishes) m' ∧ (fired = true → o.finishes = true)
  | [], _, _, fired, _, _, _ =>
    Step.ensures_quiet ⟨trivial, fun h => by simp [h, MergeOutcome.finishes]⟩
  | t :: ts, node, olds, fired, m, above, h => by
    refine (Slot.merge_ensures (C := t.Consistent) (fun _ _ => Consistent.to_true) h.1.2
      (onMerge_consistent e t node _ m.1.memory _ h.1.2)).next fun u o hu => ?_
    split
    · exact Step.ensures_quiet ⟨⟨hu.under (fun _ => by simp [MergeOutcome.finishes])
        fun _ => by simp [MergeOutcome.finishes], ConsistentAll.mono (or_of_imp id) ts m.2 h.2⟩,
        fun _ => rfl⟩
    · rename_i halready
      refine (onMergeAmong_consistent e ts (node + t.size) _ (fired || o.fires) m.2 above
        h.2).next fun rest o' hrest => ?_
      have hfires : o.finishes = true → o.fires = true := by
        cases o <;> simp [MergeOutcome.fires, MergeOutcome.finishes] at halready ⊢
      refine Step.ensures_quiet ⟨⟨hu.under (or_of_imp h.1.1) fun hf => ?_, hrest.1⟩,
        fun hf => hrest.2 (by simp [hf])⟩
      simp [hrest.2 (by simp [hfires hf])]

end

mutual

theorem onMerge_not_alreadyFinished (e : Merge) : (t : Trigger) → (node : Nat) →
    (olds : List t.Memory) → (m : t.Memory) → t.isBuiltIn = true →
      (∀ u ∈ olds, t.Consistent false u) →
        (onMerge e t node olds m).Ensures fun _ o => o ≠ .alreadyFinished
  | .leaf l, _, _, _, hb, _ => by
    cases l with
    | custom p => cases hb
    | afterCount count =>
      rintro _ ⟨⟩
      split <;> nofun
    | afterWatermark =>
      rintro _ ⟨⟩
      nofun
    | endOfWindow =>
      rintro _ ⟨⟩
      nofun
  | .afterFirst ts, node, olds, m, hb, holds => by
    simp only [isBuiltIn, Bool.and_eq_true] at hb
    exact onMergeAmong_not_alreadyFinished e ts (node + 1) olds false m hb.2 holds
  | .repeatedly t, node, olds, m, hb, _ => by
    refine Step.Ensures.next (P := fun _ _ => True) (fun _ _ => trivial) fun u o _ => ?_
    split
    · rintro _ ⟨⟩
      split <;> nofun
    · refine Step.ensures_quiet ?_
      split <;> nofun
  | .orFinally a b, node, olds, m, hb, holds => by
    simp only [isBuiltIn, Bool.and_eq_true] at hb
    refine (Slot.merge_ensures_of_open (P := (· ≠ .alreadyFinished))
      (List.forall_mem_map.mpr fun u hu => (holds u hu).1.unfinished)
      fun hmem => onMerge_not_alreadyFinished e a (node + 1) _ m.1.memory hb.1 hmem).next
        fun ua oa ha => ?_
    refine (Slot.merge_ensures_of_open (P := (· ≠ .alreadyFinished))
      (List.forall_mem_map.mpr fun u hu => (holds u hu).2.unfinished)
      fun hmem => onMerge_not_alreadyFinished e b (node + 1 + a.size) _ m.2.memory hb.2 hmem).next
        fun ub ob hb => ?_
    refine Step.ensures_quiet ?_
    rw [if_neg hb]
    split
    · nofun
    · exact ha

theorem onMergeAmong_not_alreadyFinished (e : Merge) : (ts : List Trigger) → (node : Nat) →
    (olds : List (Memories ts)) → (fired : Bool) → (m : Memories ts) → isBuiltInAll ts = true →
      (∀ u ∈ olds, ConsistentAll ts false u) →
        (onMergeAmong e ts node olds fired m).Ensures fun _ o => o ≠ .alreadyFinished
  | [], _, _, fired, _, _, _ => Step.ensures_quiet (by split <;> nofun)
  | t :: ts, node, olds, fired, m, hb, holds => by
    simp only [isBuiltInAll, Bool.and_eq_true] at hb
    refine (Slot.merge_ensures_of_open (P := (· ≠ .alreadyFinished))
      (List.forall_mem_map.mpr fun u hu => (holds u hu).1.unfinished)
      fun hmem => onMerge_not_alreadyFinished e t node _ m.1.memory hb.1 hmem).next
        fun u o ho => ?_
    rw [if_neg ho]
    exact (onMergeAmong_not_alreadyFinished e ts (node + t.size) _ _ m.2 hb.2
      (List.forall_mem_map.mpr fun u hu => (holds u hu).2)).next fun _ _ h => Step.ensures_quiet h

end

mutual

theorem onTimer_consistent (e : TimerEvent) : (t : Trigger) → (node : Nat) → (m : t.Memory) →
    (above : Bool) → t.Consistent above m →
      (onTimer e t node m).Ensures fun m' o => t.Consistent (above || o.finishes) m'
  | .leaf _, _, _, _, _ => fun _ _ => trivial
  | .afterFirst ts, node, m, above, h => by
    by_cases hd : e.destination = node
    · have hself : onTimer e (.afterFirst ts) node m =
          .quiet m (.error (.timerAtComposite "AfterFirst" node)) := if_pos hd
      rw [hself]
      exact Step.ensures_failed
    · have hroute : onTimer e (.afterFirst ts) node m = onTimerAmong e node ts (node + 1) m :=
        if_neg hd
      rw [hroute]
      exact onTimerAmong_consistent e node ts (node + 1) m above h
  | .repeatedly t, node, m, _, h => by
    unfold onTimer
    split
    · exact Step.ensures_failed
    · have hoffer := Slot.offer_ensures (C := t.Consistent) (h.1 ▸ h.2)
        (onTimer_consistent e t (node + 1) m.memory m.finished (h.1 ▸ h.2))
      refine hoffer.next fun u o hu => ?_
      split
      · exact fun _ _ => ⟨rfl, consistent_blank t false⟩
      · rename_i hfinishes
        have hopen : u.finished = false := hu.1.trans (by simp [h.1, hfinishes])
        exact Step.ensures_quiet ⟨hopen, hopen ▸ hu.2⟩
  | .orFinally a b, node, m, above, h => by
    unfold onTimer
    split
    · exact Step.ensures_failed
    · split
      · refine (Slot.offer_ensures h.1.2
          (onTimer_consistent e a (node + 1) m.1.memory _ h.1.2)).next fun u o hu => ?_
        exact Step.ensures_quiet ⟨hu.under (or_of_imp h.1.1) fun hf => by simp [hf],
          h.2.mono (or_of_imp id)⟩
      · split
        · refine (Slot.offer_ensures h.2.2
            (onTimer_consistent e b (node + 1 + a.size) m.2.memory _ h.2.2)).next fun u o hu => ?_
          refine Step.ensures_quiet ⟨h.1.mono (or_of_imp id), hu.under (or_of_imp h.2.1) ?_⟩
          cases o <;> simp [Outcome.fires, Outcome.finishes]
        · exact Step.ensures_failed

theorem onTimerAmong_consistent (e : TimerEvent) (parent : Nat) : (ts : List Trigger) →
    (node : Nat) → (m : Memories ts) → (above : Bool) → ConsistentAll ts above m →
      (onTimerAmong e parent ts node m).Ensures fun m' o =>
        ConsistentAll ts (above || o.finishes) m'
  | [], _, _, _, _ => Step.ensures_failed
  | t :: ts, node, m, above, h => by
    unfold onTimerAmong
    split
    · refine (Slot.offer_ensures h.1.2
        (onTimer_consistent e t node m.1.memory _ h.1.2)).next fun u o hu => ?_
      refine Step.ensures_quiet ⟨hu.under (or_of_imp h.1.1) ?_,
        ConsistentAll.mono (or_of_imp id) ts m.2 h.2⟩
      cases o <;> simp [Outcome.fires, Outcome.finishes]
    · exact (onTimerAmong_consistent e parent ts (node + t.size) m.2 above h.2).next
        fun _ _ hrest => Step.ensures_quiet ⟨h.1.mono (or_of_imp id), hrest⟩

end

mutual

theorem Consistent.cancelFrom (timestamp : Int) (target : Nat) : (t : Trigger) → (node : Nat) →
    (m : t.Memory) → (above : Bool) → t.Consistent above m →
      t.Consistent above (t.cancelFrom timestamp target node m)
  | .leaf _, _, _, _, _ => trivial
  | .afterFirst ts, node, m, above, h =>
    ConsistentAll.cancelAmong timestamp target ts (node + 1) m above h
  | .repeatedly t, node, _, _, h =>
    ⟨h.1, Consistent.cancelFrom timestamp target t (node + 1) _ _ h.2⟩
  | .orFinally a b, node, _, _, h =>
    ⟨⟨h.1.1, Consistent.cancelFrom timestamp target a (node + 1) _ _ h.1.2⟩,
      h.2.1, Consistent.cancelFrom timestamp target b (node + 1 + a.size) _ _ h.2.2⟩

theorem ConsistentAll.cancelAmong (timestamp : Int) (target : Nat) : (ts : List Trigger) →
    (node : Nat) → (m : Memories ts) → (above : Bool) → ConsistentAll ts above m →
      ConsistentAll ts above (Trigger.cancelAmong timestamp target ts node m)
  | [], _, _, _, _ => trivial
  | t :: ts, node, m, above, h =>
    ⟨⟨h.1.1, Consistent.cancelFrom timestamp target t node _ _ h.1.2⟩,
      ConsistentAll.cancelAmong timestamp target ts (node + t.size) m.2 above h.2⟩

end

end Trigger

end EventTime
