import EventTime.Proofs.Trigger.Timers

/-!
# Trees that run

A tree runs in a window as long as no node below its root has finished and only the leaves that wait
for the watermark have timers. An event keeps a built-in tree running unless the tree finishes, and
leaves every leaf that waits with a timer at the end of the window unless the tree fires. A timer
taken from a running tree makes it fire.
-/

namespace EventTime

/-- Whether a leaf asks for a timer at the end of the window. -/
def Leaf.waits : Leaf → Bool
  | .afterWatermark => true
  | .endOfWindow => true
  | _ => false

namespace Trigger

mutual

/-- Whether some leaf of a tree waits for the watermark. -/
def waits : Trigger → Bool
  | .leaf l => l.waits
  | .afterFirst ts => waitsAny ts
  | .repeatedly t => waits t
  | .orFinally a b => waits a || waits b

def waitsAny : List Trigger → Bool
  | [] => false
  | t :: ts => waits t || waitsAny ts

end

mutual

/-- No node below the root has finished, and no leaf has a timer but those that wait. -/
def Running : (t : Trigger) → t.Memory → Prop
  | .leaf l, c => l.waits = false → Cell.timers c = []
  | .afterFirst ts, m => RunningAll ts m
  | .repeatedly t, m => m.finished = false ∧ Running t m.memory
  | .orFinally a b, m =>
    (m.1.finished = false ∧ Running a m.1.memory) ∧ (m.2.finished = false ∧ Running b m.2.memory)

def RunningAll : (ts : List Trigger) → Memories ts → Prop
  | [], _ => True
  | t :: ts, m => (m.1.finished = false ∧ Running t m.1.memory) ∧ RunningAll ts m.2

end

mutual

/-- Every leaf that waits has a timer at `stop`. -/
def Armed (stop : Int) : (t : Trigger) → t.Memory → Prop
  | .leaf l, c => l.waits = true → stop ∈ Cell.timers c
  | .afterFirst ts, m => ArmedAll stop ts m
  | .repeatedly t, m => Armed stop t m.memory
  | .orFinally a b, m => Armed stop a m.1.memory ∧ Armed stop b m.2.memory

def ArmedAll (stop : Int) : (ts : List Trigger) → Memories ts → Prop
  | [], _ => True
  | t :: ts, m => Armed stop t m.1.memory ∧ ArmedAll stop ts m.2

end

mutual

theorem running_blank : (t : Trigger) → t.Running t.blank
  | .leaf _ => fun _ => rfl
  | .afterFirst ts => runningAll_blanks ts
  | .repeatedly t => ⟨rfl, running_blank t⟩
  | .orFinally a b => ⟨⟨rfl, running_blank a⟩, rfl, running_blank b⟩

theorem runningAll_blanks : (ts : List Trigger) → RunningAll ts (blanks ts)
  | [] => trivial
  | t :: ts => ⟨⟨rfl, running_blank t⟩, runningAll_blanks ts⟩

end

theorem cancel_timers_of_nil {c : Cell} (h : c.timers = []) (timestamp : Int) (node target : Nat) :
    (if node = target then c.cancel timestamp else c).timers = [] := by
  split
  · simp only [Cell.cancel, h, List.filter_nil]
  · exact h

mutual

theorem Running.cancelFrom (timestamp : Int) (target : Nat) : (t : Trigger) → (node : Nat) →
    (m : t.Memory) → t.Running m → t.Running (t.cancelFrom timestamp target node m)
  | .leaf _, node, _, h => fun hl => cancel_timers_of_nil (h hl) timestamp node target
  | .afterFirst ts, node, m, h => RunningAll.cancelAmong timestamp target ts (node + 1) m h
  | .repeatedly t, node, _, h => ⟨h.1, Running.cancelFrom timestamp target t (node + 1) _ h.2⟩
  | .orFinally a b, node, _, h =>
    ⟨⟨h.1.1, Running.cancelFrom timestamp target a (node + 1) _ h.1.2⟩,
      h.2.1, Running.cancelFrom timestamp target b (node + 1 + a.size) _ h.2.2⟩

theorem RunningAll.cancelAmong (timestamp : Int) (target : Nat) : (ts : List Trigger) →
    (node : Nat) → (m : Memories ts) → RunningAll ts m →
      RunningAll ts (Trigger.cancelAmong timestamp target ts node m)
  | [], _, _, _ => trivial
  | t :: ts, node, m, h =>
    ⟨⟨h.1.1, Running.cancelFrom timestamp target t node _ h.1.2⟩,
      RunningAll.cancelAmong timestamp target ts (node + t.size) m.2 h.2⟩

end

mutual

theorem Armed.exists_timer {stop : Int} : (t : Trigger) → (node : Nat) → (m : t.Memory) →
    t.waits = true → t.Armed stop m → ∃ target, (stop, target) ∈ t.timersFrom node m
  | .leaf _, node, _, hw, h => ⟨node, List.mem_map.mpr ⟨stop, h hw, rfl⟩⟩
  | .afterFirst ts, node, m, hw, h => ArmedAll.exists_timer ts (node + 1) m hw h
  | .repeatedly t, node, m, hw, h => Armed.exists_timer t (node + 1) m.memory hw h
  | .orFinally a b, node, m, hw, h => by
    rcases Bool.or_eq_true .. ▸ hw with hw | hw
    · obtain ⟨target, hmem⟩ := Armed.exists_timer a (node + 1) m.1.memory hw h.1
      exact ⟨target, List.mem_append_left _ hmem⟩
    · obtain ⟨target, hmem⟩ := Armed.exists_timer b (node + 1 + a.size) m.2.memory hw h.2
      exact ⟨target, List.mem_append_right _ hmem⟩

theorem ArmedAll.exists_timer {stop : Int} : (ts : List Trigger) → (node : Nat) →
    (m : Memories ts) → waitsAny ts = true → ArmedAll stop ts m →
      ∃ target, (stop, target) ∈ timersAmong ts node m
  | [], _, _, hw, _ => by cases hw
  | t :: ts, node, m, hw, h => by
    rcases Bool.or_eq_true .. ▸ hw with hw | hw
    · obtain ⟨target, hmem⟩ := Armed.exists_timer t node m.1.memory hw h.1
      exact ⟨target, List.mem_append_left _ hmem⟩
    · obtain ⟨target, hmem⟩ := ArmedAll.exists_timer ts (node + t.size) m.2 hw h.2
      exact ⟨target, List.mem_append_right _ hmem⟩

end

end Trigger

/-! ### What an event leaves -/

/-- A step that answers, and what holds of the state it leaves: one thing unless the answer
finishes, and another unless it fires. -/
structure Step.Leaves {σ ρ : Type} (running armed : σ → Prop) (r : Step σ ρ) (o : ρ)
    (fires finishes : Bool) : Prop where
  answer : r.answer = .ok o
  running : finishes = false → running r.state
  armed : fires = false → armed r.state

section Steps

variable {σ τ ρ υ : Type} {running armed : σ → Prop} {running' armed' : τ → Prop}

theorem Step.Leaves.next {s : Step σ ρ} {o : ρ} {o' : υ} {fires finishes fires' finishes' : Bool}
    (h : s.Leaves running armed o fires finishes) {keep : σ → τ} {k : σ → ρ → Step τ υ}
    (hanswer : (k s.state o).answer = .ok o')
    (hrunning : finishes' = false → running' (k s.state o).state)
    (harmed : fires' = false → armed' (k s.state o).state) :
    (s.next keep k).Leaves running' armed' o' fires' finishes' := by
  rw [Step.next_ok h.answer]
  exact ⟨hanswer, hrunning, harmed⟩

/-- A step followed by one that leaves something leaves that. -/
theorem Step.Leaves.andThen {s : Step σ ρ} {o : ρ} {o' : υ}
    {fires finishes fires' finishes' : Bool} (h : s.Leaves running armed o fires finishes)
    {keep : σ → τ} {k : σ → ρ → Step τ υ}
    (hk : (k s.state o).Leaves running' armed' o' fires' finishes') :
    (s.next keep k).Leaves running' armed' o' fires' finishes' :=
  h.next hk.answer hk.running hk.armed

theorem Step.wrote_next {s : Step σ ρ} {keep : σ → τ} {k : σ → ρ → Step τ υ}
    (h : s.wrote = true) : (s.next keep k).wrote = true := by
  unfold Step.next
  split <;> simp [h]

theorem Slot.offer_of_open {s : Slot σ} {run : σ → Step σ Outcome} {o : Outcome}
    (hs : s.finished = false) (h : (run s.memory).answer = .ok o) : s.offer run =
      ⟨⟨o.finishes, (run s.memory).state⟩, (run s.memory).wrote || o.finishes, .ok o⟩ := by
  simp only [Slot.offer, hs, Bool.false_eq_true, if_false, Step.next_ok h, Bool.false_or]

theorem Slot.offer_leaves {s : Slot σ} {run : σ → Step σ Outcome} {o : Outcome}
    (hs : s.finished = false) (h : (run s.memory).Leaves running armed o o.fires o.finishes) :
    (s.offer run).Leaves (fun u => u.finished = false ∧ running u.memory)
      (fun u => armed u.memory) o o.fires o.finishes := by
  rw [Slot.offer_of_open hs h.answer]
  exact ⟨rfl, fun ho => ⟨ho, h.running ho⟩, h.armed⟩

theorem Slot.wrote_offer {s : Slot σ} {run : σ → Step σ Outcome} (hs : s.finished = false)
    (h : (run s.memory).wrote = true) : (s.offer run).wrote = true := by
  simp only [Slot.offer, hs, Bool.false_eq_true, if_false]
  exact Step.wrote_next h

theorem Slot.merge_of_open {s : Slot σ} {olds : List (Slot σ)}
    {run : List σ → σ → Step σ MergeOutcome} {o : MergeOutcome} (hs : s.finished = false)
    (holds : ∀ u ∈ olds, u.finished = false)
    (h : (run (olds.map (·.memory)) s.memory).answer = .ok o) : s.merge olds run =
      ⟨⟨o.finishes, (run (olds.map (·.memory)) s.memory).state⟩,
        (run (olds.map (·.memory)) s.memory).wrote || o.finishes, .ok o⟩ := by
  have hany : olds.any (·.finished) = false :=
    List.any_eq_false.mpr fun u hu => by simp [holds u hu]
  simp only [Slot.merge, hany, Bool.false_eq_true, if_false, Step.next_ok h, hs, Bool.false_or]

theorem Slot.merge_leaves {s : Slot σ} {olds : List (Slot σ)}
    {run : List σ → σ → Step σ MergeOutcome} {o : MergeOutcome} (hs : s.finished = false)
    (holds : ∀ u ∈ olds, u.finished = false)
    (h : (run (olds.map (·.memory)) s.memory).Leaves running armed o o.fires o.finishes) :
    (s.merge olds run).Leaves (fun u => u.finished = false ∧ running u.memory)
      (fun u => armed u.memory) o o.fires o.finishes := by
  rw [Slot.merge_of_open hs holds h.answer]
  exact ⟨rfl, fun ho => ⟨ho, h.running ho⟩, h.armed⟩

theorem Slot.wrote_merge {s : Slot σ} {olds : List (Slot σ)}
    {run : List σ → σ → Step σ MergeOutcome}
    (h : (run (olds.map (·.memory)) s.memory).wrote = true) : (s.merge olds run).wrote = true := by
  unfold Slot.merge
  split
  · rfl
  · exact Step.wrote_next h

end Steps

theorem Outcome.not_finishes {o : Outcome} (h : o.fires = false) : o.finishes = false := by
  cases o <;> trivial

theorem MergeOutcome.not_finishes {o : MergeOutcome} (ho : o ≠ .alreadyFinished)
    (h : o.fires = false) : o.finishes = false := by
  cases o <;> trivial

theorem mem_insertTime (t : Int) (l : List Int) : t ∈ insertTime t l := by
  induction l with
  | nil => exact List.mem_singleton_self t
  | cons u rest ih =>
    simp only [insertTime]
    split
    · exact List.mem_cons_self ..
    · split
      · rename_i h
        exact h ▸ List.mem_cons_self ..
      · exact List.mem_cons_of_mem _ ih

namespace Trigger

mutual

/-- An element leaves a running tree running unless it finishes, and armed unless it fires. -/
theorem onElement_leaves (e : ElementEvent) : (t : Trigger) → (node : Nat) → (m : t.Memory) →
    t.isBuiltIn = true → t.Running m → ∃ o : Outcome, (onElement e t node m).Leaves t.Running
      (t.Armed e.window.maxTimestamp) o o.fires o.finishes
  | .leaf l, node, c, hb, h => by
    cases l with
    | afterCount count => exact ⟨_, rfl, fun _ => h, fun _ hw => nomatch hw⟩
    | afterWatermark =>
      exact ⟨_, rfl, fun _ hw => (nomatch hw), fun _ _ => mem_insertTime _ (Cell.timers c)⟩
    | endOfWindow =>
      exact ⟨_, rfl, fun _ hw => (nomatch hw), fun _ _ => mem_insertTime _ (Cell.timers c)⟩
    | custom p => cases hb
  | .afterFirst ts, node, m, hb, h => by
    simp only [isBuiltIn, Bool.and_eq_true] at hb
    exact onElementAmong_leaves e ts (node + 1) m hb.2 h
  | .repeatedly t, node, m, hb, h => by
    obtain ⟨o, hc⟩ := onElement_leaves e t (node + 1) m.memory hb h.2
    have hoffer := Slot.offer_leaves h.1 hc
    -- a child that finishes is reset, and a blank tree runs
    cases o with
    | fireAndFinish => exact ⟨.fire, hoffer.next rfl (fun _ => ⟨rfl, running_blank t⟩) nofun⟩
    | fire => exact ⟨.fire, hoffer.next rfl (fun _ => hoffer.running rfl) nofun⟩
    | idle =>
      exact ⟨.idle, hoffer.next rfl (fun _ => hoffer.running rfl) fun _ => hoffer.armed rfl⟩
  | .orFinally a b, node, m, hb, h => by
    simp only [isBuiltIn, Bool.and_eq_true] at hb
    obtain ⟨oa, ha⟩ := onElement_leaves e a (node + 1) m.1.memory hb.1 h.1.2
    obtain ⟨ob, hb⟩ := onElement_leaves e b (node + 1 + a.size) m.2.memory hb.2 h.2.2
    have hoa := Slot.offer_leaves h.1.1 ha
    have hob := Slot.offer_leaves h.2.1 hb
    cases hfires : ob.fires with
    | true =>
      refine ⟨.fireAndFinish, hoa.andThen (hob.next ?_ nofun nofun)⟩
      simp [hfires, Step.quiet]
    | false =>
      have hb' := Outcome.not_finishes hfires
      refine ⟨oa, hoa.andThen (hob.next ?_ (fun h => ⟨hoa.running h, hob.running hb'⟩)
        fun h => ⟨hoa.armed h, hob.armed hfires⟩)⟩
      simp [hfires, Step.quiet]

theorem onElementAmong_leaves (e : ElementEvent) : (ts : List Trigger) → (node : Nat) →
    (m : Memories ts) → isBuiltInAll ts = true → RunningAll ts m →
      ∃ o : Outcome, (onElementAmong e ts node m).Leaves (RunningAll ts)
        (ArmedAll e.window.maxTimestamp ts) o o.fires o.finishes
  | [], _, _, _, _ => ⟨.idle, rfl, fun _ => trivial, fun _ => trivial⟩
  | t :: ts, node, m, hb, h => by
    simp only [isBuiltInAll, Bool.and_eq_true] at hb
    obtain ⟨o, ht⟩ := onElement_leaves e t node m.1.memory hb.1 h.1.2
    have hoffer := Slot.offer_leaves h.1.1 ht
    cases hfires : o.fires with
    | true =>
      refine ⟨.fireAndFinish, hoffer.next ?_ nofun nofun⟩
      simp [hfires, Step.quiet]
    | false =>
      have hrun := hoffer.running (Outcome.not_finishes hfires)
      have harm := hoffer.armed hfires
      obtain ⟨o', hrest⟩ := onElementAmong_leaves e ts (node + t.size) m.2 hb.2 h.2
      refine ⟨o', hoffer.andThen ?_⟩
      simp only [hfires, Bool.false_eq_true, if_false]
      exact hrest.next rfl (fun ho => ⟨hrun, hrest.running ho⟩) fun ho => ⟨harm, hrest.armed ho⟩

end

theorem onElement_wrote (e : ElementEvent) : (t : Trigger) → (node : Nat) → (m : t.Memory) →
    t.isBuiltIn = true → t.Running m → (onElement e t node m).wrote = true
  | .leaf l, _, _, hb, _ => by
    cases l with
    | custom p => cases hb
    | _ => rfl
  | .afterFirst [], _, _, hb, _ => nomatch hb
  | .afterFirst (t :: ts), node, m, hb, h => by
    simp only [isBuiltIn, isBuiltInAll, Bool.and_eq_true] at hb
    exact Step.wrote_next (Slot.wrote_offer h.1.1 (onElement_wrote e t _ _ hb.2.1 h.1.2))
  | .repeatedly t, node, m, hb, h =>
    Step.wrote_next (Slot.wrote_offer h.1 (onElement_wrote e t _ _ hb h.2))
  | .orFinally a b, node, m, hb, h => by
    simp only [isBuiltIn, Bool.and_eq_true] at hb
    exact Step.wrote_next (Slot.wrote_offer h.1.1 (onElement_wrote e a _ _ hb.1 h.1.2))

mutual

/-- A merge of running trees leaves one that runs unless it finishes, and that is armed unless it
fires. -/
theorem onMerge_leaves (e : Merge) : (t : Trigger) → (node : Nat) → (olds : List t.Memory) →
    (m : t.Memory) → t.isBuiltIn = true → t.Running m → (∀ u ∈ olds, t.Running u) →
      ∃ o : MergeOutcome, o ≠ .alreadyFinished ∧ (onMerge e t node olds m).Leaves t.Running
        (t.Armed e.into.maxTimestamp) o o.fires o.finishes
  | .leaf l, node, olds, c, hb, h, _ => by
    cases l with
    | afterCount count =>
      exact ⟨_, by split <;> nofun, rfl, fun _ => h, fun _ hw => nomatch hw⟩
    | afterWatermark =>
      exact ⟨.idle, nofun, rfl, fun _ hw => (nomatch hw), fun _ _ => mem_insertTime _ (Cell.timers c)⟩
    | endOfWindow =>
      exact ⟨.idle, nofun, rfl, fun _ hw => (nomatch hw), fun _ _ => mem_insertTime _ (Cell.timers c)⟩
    | custom p => cases hb
  | .afterFirst ts, node, olds, m, hb, h, holds => by
    simp only [isBuiltIn, Bool.and_eq_true] at hb
    obtain ⟨o, ho, -, hleaves⟩ := onMergeAmong_leaves e ts (node + 1) olds false m hb.2 h holds
    exact ⟨o, ho, hleaves⟩
  | .repeatedly t, node, olds, m, hb, h, holds => by
    obtain ⟨o, ho, hc⟩ := onMerge_leaves e t (node + 1) (List.map Slot.memory olds) m.memory hb h.2
      (List.forall_mem_map.mpr fun u hu => (holds u hu).2)
    have hmerge := Slot.merge_leaves h.1 (fun u hu => (holds u hu).1) hc
    cases o with
    | fireAndFinish =>
      exact ⟨.fire, nofun, hmerge.next rfl (fun _ => ⟨rfl, running_blank t⟩) nofun⟩
    | fire => exact ⟨.fire, nofun, hmerge.next rfl (fun _ => hmerge.running rfl) nofun⟩
    | idle =>
      exact ⟨.idle, nofun, hmerge.next rfl (fun _ => hmerge.running rfl) fun _ => hmerge.armed rfl⟩
    | alreadyFinished => exact absurd rfl ho
  | .orFinally a b, node, olds, m, hb, h, holds => by
    simp only [isBuiltIn, Bool.and_eq_true] at hb
    obtain ⟨oa, hna, ha⟩ := onMerge_leaves e a (node + 1) ((olds.map (·.1)).map Slot.memory)
      m.1.memory hb.1 h.1.2
      (List.forall_mem_map.mpr (List.forall_mem_map.mpr fun u hu => (holds u hu).1.2))
    obtain ⟨ob, hnb, hb⟩ := onMerge_leaves e b (node + 1 + a.size)
      ((olds.map (·.2)).map Slot.memory) m.2.memory hb.2 h.2.2
      (List.forall_mem_map.mpr (List.forall_mem_map.mpr fun u hu => (holds u hu).2.2))
    have hoa := Slot.merge_leaves h.1.1 (List.forall_mem_map.mpr fun u hu => (holds u hu).1.1) ha
    have hob := Slot.merge_leaves h.2.1 (List.forall_mem_map.mpr fun u hu => (holds u hu).2.1) hb
    cases hfires : ob.fires with
    | true =>
      refine ⟨.fireAndFinish, nofun, hoa.andThen (hob.next ?_ nofun nofun)⟩
      simp [hfires, hnb, Step.quiet]
    | false =>
      have hb' := MergeOutcome.not_finishes hnb hfires
      refine ⟨oa, hna, hoa.andThen (hob.next ?_ (fun h => ⟨hoa.running h, hob.running hb'⟩)
        fun h => ⟨hoa.armed h, hob.armed hfires⟩)⟩
      simp [hfires, hnb, Step.quiet]

theorem onMergeAmong_leaves (e : Merge) : (ts : List Trigger) → (node : Nat) →
    (olds : List (Memories ts)) → (fired : Bool) → (m : Memories ts) → isBuiltInAll ts = true →
      RunningAll ts m → (∀ u ∈ olds, RunningAll ts u) →
        ∃ o : MergeOutcome, o ≠ .alreadyFinished ∧ (fired = true → o = .fireAndFinish) ∧
          (onMergeAmong e ts node olds fired m).Leaves (RunningAll ts)
            (ArmedAll e.into.maxTimestamp ts) o o.fires o.finishes
  | [], _, _, false, _, _, _, _ => ⟨.idle, nofun, nofun, rfl, fun _ => trivial, fun _ => trivial⟩
  | [], _, _, true, _, _, _, _ => ⟨.fireAndFinish, nofun, fun _ => rfl, rfl, nofun, nofun⟩
  | t :: ts, node, olds, fired, m, hb, h, holds => by
    simp only [isBuiltInAll, Bool.and_eq_true] at hb
    obtain ⟨o, hn, ht⟩ := onMerge_leaves e t node ((olds.map (·.1)).map Slot.memory) m.1.memory
      hb.1 h.1.2 (List.forall_mem_map.mpr (List.forall_mem_map.mpr fun u hu => (holds u hu).1.2))
    have hmerge := Slot.merge_leaves h.1.1 (List.forall_mem_map.mpr fun u hu => (holds u hu).1.1) ht
    obtain ⟨o', hn', hfired, hrest⟩ := onMergeAmong_leaves e ts (node + t.size) (olds.map (·.2))
      (fired || o.fires) m.2 hb.2 h.2 (List.forall_mem_map.mpr fun u hu => (holds u hu).2)
    refine ⟨o', hn', fun hf => hfired (by rw [hf, Bool.true_or]), hmerge.andThen ?_⟩
    simp only [hn, if_false]
    -- a child that fires makes the choice finish, so an unfinished choice has quiet children
    have hquiet (ho' : o' ≠ .fireAndFinish) : o.fires = false := by
      by_contra hne
      exact ho' (hfired (by simp_all))
    have hrun (ho : o'.finishes = false) : o.finishes = false :=
      MergeOutcome.not_finishes hn (hquiet (by rintro rfl; cases ho))
    exact hrest.next rfl (fun ho => ⟨hmerge.running (hrun ho), hrest.running ho⟩)
      fun ho => ⟨hmerge.armed (hquiet (by rintro rfl; cases ho)), hrest.armed ho⟩

end

theorem onMerge_wrote (e : Merge) : (t : Trigger) → (node : Nat) → (olds : List t.Memory) →
    (m : t.Memory) → t.isBuiltIn = true → (onMerge e t node olds m).wrote = true
  | .leaf l, _, _, _, hb => by
    cases l with
    | custom p => cases hb
    | _ => rfl
  | .afterFirst [], _, _, _, hb => nomatch hb
  | .afterFirst (t :: ts), node, olds, m, hb => by
    simp only [isBuiltIn, isBuiltInAll, Bool.and_eq_true] at hb
    exact Step.wrote_next (Slot.wrote_merge (onMerge_wrote e t _ _ _ hb.2.1))
  | .repeatedly t, node, olds, m, hb =>
    Step.wrote_next (Slot.wrote_merge (onMerge_wrote e t _ _ _ hb))
  | .orFinally a b, node, olds, m, hb => by
    simp only [isBuiltIn, Bool.and_eq_true] at hb
    exact Step.wrote_next (Slot.wrote_merge (onMerge_wrote e a _ _ _ hb.1))

theorem Endless.onMerge {t : Trigger} (ht : t.Endless) {e : Merge} {node : Nat}
    {olds : List t.Memory} {m : t.Memory} {o : MergeOutcome}
    (h : (Trigger.onMerge e t node olds m).answer = .ok o) : o.finishes = false := by
  rcases ht with rfl | ⟨child, rfl⟩
  · cases h
    rfl
  · obtain ⟨a, -, hk⟩ := Step.answer_of_next h
    split at hk <;> cases hk <;> split <;> rfl

mutual

/-- A timer of a running tree makes it fire, also after the tree has lost timers. -/
theorem onTimer_fires (e : TimerEvent) : (t : Trigger) → (node : Nat) → (m m' : t.Memory) →
    t.isBuiltIn = true → (e.timestamp, e.destination) ∈ t.timersFrom node m → t.Running m →
      t.Running m' → ∃ o : Outcome, o.fires = true ∧
        (onTimer e t node m').Leaves t.Running (fun _ => True) o o.fires o.finishes
  | .leaf l, node, c, c', hb, hmem, h, h' => by
    obtain ⟨u, hu, heq⟩ := List.mem_map.mp hmem
    cases l with
    | afterCount count =>
      rw [h rfl] at hu
      cases hu
    | afterWatermark => exact ⟨.fireAndFinish, rfl, rfl, nofun, nofun⟩
    | endOfWindow => exact ⟨.fire, rfl, rfl, fun _ => h', nofun⟩
    | custom p => cases hb
  | .afterFirst ts, node, m, m', hb, hmem, h, h' => by
    simp only [isBuiltIn, Bool.and_eq_true] at hb
    -- the timer is of a leaf below, and so the node itself is not its destination
    have hbounds := bounds_of_mem_leavesAmong ts (node + 1)
      (mem_leaves_of_mem_timersAmong ts (node + 1) m hmem)
    have hroute : onTimer e (.afterFirst ts) node m' = onTimerAmong e node ts (node + 1) m' :=
      if_neg (by omega)
    rw [hroute]
    exact onTimerAmong_fires e node ts (node + 1) m m' hb.2 hmem h h'
  | .repeatedly t, node, m, m', hb, hmem, h, h' => by
    have hleads := leads_of_mem_leavesFrom t (node + 1)
      (mem_leaves_of_mem_timersFrom t (node + 1) m.memory hmem)
    obtain ⟨o, ho, hc⟩ := onTimer_fires e t (node + 1) m.memory m'.memory hb hmem h.2 h'.2
    have hoffer := Slot.offer_leaves h'.1 hc
    simp only [Leads] at hleads
    rw [onTimer, if_neg (by omega)]
    cases o with
    | idle => cases ho
    | fire => exact ⟨.fire, rfl, hoffer.next rfl (fun _ => hoffer.running rfl) nofun⟩
    | fireAndFinish => exact ⟨.fire, rfl, hoffer.next rfl (fun _ => ⟨rfl, running_blank t⟩) nofun⟩
  | .orFinally a b, node, m, m', hb, hmem, h, h' => by
    simp only [isBuiltIn, Bool.and_eq_true] at hb
    rcases List.mem_append.mp hmem with hmem | hmem
    · have hleads := leads_of_mem_leavesFrom a (node + 1)
        (mem_leaves_of_mem_timersFrom a (node + 1) m.1.memory hmem)
      obtain ⟨o, ho, ha⟩ := onTimer_fires e a (node + 1) m.1.memory m'.1.memory hb.1 hmem h.1.2
        h'.1.2
      have hoffer := Slot.offer_leaves h'.1.1 ha
      rw [onTimer, if_neg (by simp only [Leads] at hleads; omega), if_pos hleads]
      exact ⟨o, ho, hoffer.next rfl (fun hf => ⟨hoffer.running hf, h'.2⟩) fun _ => trivial⟩
    · have hleads := leads_of_mem_leavesFrom b (node + 1 + a.size)
        (mem_leaves_of_mem_timersFrom b (node + 1 + a.size) m.2.memory hmem)
      obtain ⟨o, ho, hc⟩ := onTimer_fires e b (node + 1 + a.size) m.2.memory m'.2.memory hb.2 hmem
        h.2.2 h'.2.2
      have hna : ¬Leads a (node + 1) e.destination := by
        simp only [Leads] at hleads ⊢
        omega
      rw [onTimer, if_neg (by simp only [Leads] at hleads; omega), if_neg hna, if_pos hleads]
      refine ⟨.fireAndFinish, rfl, (Slot.offer_leaves h'.2.1 hc).next ?_ nofun nofun⟩
      simp [ho, Step.quiet]

theorem onTimerAmong_fires (e : TimerEvent) (parent : Nat) : (ts : List Trigger) → (node : Nat) →
    (m m' : Memories ts) → isBuiltInAll ts = true →
      (e.timestamp, e.destination) ∈ timersAmong ts node m → RunningAll ts m → RunningAll ts m' →
        ∃ o : Outcome, o.fires = true ∧ (onTimerAmong e parent ts node m').Leaves (RunningAll ts)
          (fun _ => True) o o.fires o.finishes
  | [], _, _, _, _, hmem, _, _ => by cases hmem
  | t :: ts, node, m, m', hb, hmem, h, h' => by
    simp only [isBuiltInAll, Bool.and_eq_true] at hb
    rcases List.mem_append.mp hmem with hmem | hmem
    · have hleads := leads_of_mem_leavesFrom t node
        (mem_leaves_of_mem_timersFrom t node m.1.memory hmem)
      obtain ⟨o, ho, ht⟩ := onTimer_fires e t node m.1.memory m'.1.memory hb.1 hmem h.1.2 h'.1.2
      rw [onTimerAmong, if_pos hleads]
      refine ⟨.fireAndFinish, rfl, (Slot.offer_leaves h'.1.1 ht).next ?_ nofun nofun⟩
      simp [ho, Step.quiet]
    · have hbounds := bounds_of_mem_leavesAmong ts (node + t.size)
        (mem_leaves_of_mem_timersAmong ts (node + t.size) m.2 hmem)
      have hna : ¬Leads t node e.destination := by
        simp only [Leads]
        omega
      obtain ⟨o, ho, hrest⟩ := onTimerAmong_fires e parent ts (node + t.size) m.2 m'.2 hb.2 hmem
        h.2 h'.2
      rw [onTimerAmong, if_neg hna]
      exact ⟨o, ho, hrest.next rfl (fun hf => ⟨h'.1, hrest.running hf⟩) fun _ => trivial⟩

end

end Trigger

end EventTime
