import Mathlib
import EventTime.Proofs.Trigger.Footprint

/-!
# The state on a sheet

Read off in the shape of a tree, the entries of its nodes are the state of the tree. An action on
sheets follows a step of the evaluation if it gives the step's answer and the sheet then reads as
the state that the step leaves. Invoking a node follows what the evaluation does to the node's slot,
as long as the reaction in it follows the evaluation below the slot.
-/

namespace EventTime

theorem mem_insertTime_iff {t u : Int} {l : List Int} : u ∈ insertTime t l ↔ u = t ∨ u ∈ l := by
  induction l with
  | nil => simp [insertTime]
  | cons v rest ih =>
    simp only [insertTime]
    split
    · exact List.mem_cons
    · split
      · rename_i heq
        simp [heq]
      · simp only [List.mem_cons, ih]
        tauto

theorem pairwise_insertTime (t : Int) {l : List Int} (h : l.Pairwise (· < ·)) :
    (insertTime t l).Pairwise (· < ·) := by
  induction l with
  | nil => simp [insertTime]
  | cons v rest ih =>
    obtain ⟨hv, hrest⟩ := List.pairwise_cons.mp h
    simp only [insertTime]
    split
    · rename_i htv
      refine List.pairwise_cons.mpr ⟨fun u hu => ?_, h⟩
      rcases List.mem_cons.mp hu with rfl | hu
      · exact htv
      · exact htv.trans (hv u hu)
    · split
      · exact h
      · refine List.pairwise_cons.mpr ⟨fun u hu => ?_, ih hrest⟩
        rcases mem_insertTime_iff.mp hu with rfl | hu
        · omega
        · exact hv u hu

/-- An ascending list is determined by its members. -/
theorem sort_eq_of_mem {s : Finset Int} {l : List Int} (hl : l.Pairwise (· < ·))
    (hmem : ∀ u, u ∈ l ↔ u ∈ s) : s.sort = l := by
  obtain rfl : l.toFinset = s := Finset.ext fun u => List.mem_toFinset.trans (hmem u)
  exact (List.toFinset_sort _ (hl.imp ne_of_lt)).mpr (hl.imp le_of_lt)

theorem sort_insert (t : Int) (s : Finset Int) : (insert t s).sort = insertTime t s.sort := by
  refine sort_eq_of_mem (pairwise_insertTime t s.sortedLT_sort.pairwise) fun u => ?_
  rw [mem_insertTime_iff, Finset.mem_sort, Finset.mem_insert]

theorem sort_erase (t : Int) (s : Finset Int) : (s.erase t).sort = s.sort.filter (· ≠ t) := by
  refine sort_eq_of_mem (s.sortedLT_sort.pairwise.filter _) fun u => ?_
  simp [and_comm]

namespace Sheet

/-- The cell of a leaf with an entry. -/
def Entry.cell (e : Entry) : Cell := ⟨e.counter, e.timers.sort⟩

mutual

/-- The memory that a sheet holds of a tree whose root has number `node`. -/
def memoryOf (sh : Sheet) : (t : Trigger) → (node : Nat) → t.Memory
  | .leaf _, node => (sh.entry node).cell
  | .afterFirst ts, node => memoriesOf sh ts (node + 1)
  | .repeatedly t, node => (⟨sh.finished (node + 1), memoryOf sh t (node + 1)⟩ : Slot t.Memory)
  | .orFinally a b, node =>
    ((⟨sh.finished (node + 1), memoryOf sh a (node + 1)⟩ : Slot a.Memory),
      (⟨sh.finished (node + 1 + a.size), memoryOf sh b (node + 1 + a.size)⟩ : Slot b.Memory))

/-- The memories of several trees, of which the first has number `node`. -/
def memoriesOf (sh : Sheet) : (ts : List Trigger) → (node : Nat) → Trigger.Memories ts
  | [], _ => ()
  | t :: ts, node => (⟨sh.finished node, memoryOf sh t node⟩, memoriesOf sh ts (node + t.size))

end

/-- The state that a sheet holds of a tree whose root has number `node`. -/
def stateOf (sh : Sheet) (t : Trigger) (node : Nat) : t.State :=
  ⟨sh.finished node, sh.memoryOf t node⟩

mutual

theorem memoryOf_congr {sh sh' : Sheet} : (t : Trigger) → (node : Nat) →
    sh.SameOn node (node + t.size) sh' → sh.memoryOf t node = sh'.memoryOf t node
  | .leaf _, node, h => congrArg Entry.cell (h node le_rfl node.lt_succ_self)
  | .afterFirst ts, node, h => by
    rw [Trigger.size] at h
    exact memoriesOf_congr ts (node + 1) (h.mono (by omega) (by omega))
  | .repeatedly t, node, h => by
    rw [Trigger.size] at h
    exact stateOf_congr t (node + 1) (h.mono (by omega) (by omega))
  | .orFinally a b, node, h => by
    rw [Trigger.size] at h
    exact Prod.ext (stateOf_congr a (node + 1) (h.mono (by omega) (by omega)))
      (stateOf_congr b (node + 1 + a.size) (h.mono (by omega) (by omega)))

theorem memoriesOf_congr {sh sh' : Sheet} : (ts : List Trigger) → (node : Nat) →
    sh.SameOn node (node + Trigger.sizeAll ts) sh' → sh.memoriesOf ts node = sh'.memoriesOf ts node
  | [], _, _ => rfl
  | t :: ts, node, h => by
    rw [Trigger.sizeAll] at h
    exact Prod.ext (stateOf_congr t node (h.mono (by omega) (by omega)))
      (memoriesOf_congr ts (node + t.size) (h.mono (by omega) (by omega)))

theorem stateOf_congr {sh sh' : Sheet} (t : Trigger) (node : Nat)
    (h : sh.SameOn node (node + t.size) sh') : sh.stateOf t node = sh'.stateOf t node := by
  have hfinished := congrArg Entry.finished (h node le_rfl (Nat.lt_add_of_pos_right t.size_pos))
  have hmemory := memoryOf_congr t node h
  exact congrArg₂ Slot.mk hfinished hmemory

end

mutual

theorem memoryOf_blank : (t : Trigger) → (node : Nat) → blank.memoryOf t node = t.blank
  | .leaf _, node => by
    rw [memoryOf, entry_blank, Entry.cell, Entry.blank, Finset.sort_empty, Trigger.blank]
  | .afterFirst ts, node => memoriesOf_blank ts (node + 1)
  | .repeatedly t, node => congrArg (Slot.mk false) (memoryOf_blank t (node + 1))
  | .orFinally a b, node =>
    Prod.ext (congrArg (Slot.mk false) (memoryOf_blank a (node + 1)))
      (congrArg (Slot.mk false) (memoryOf_blank b (node + 1 + a.size)))

theorem memoriesOf_blank : (ts : List Trigger) → (node : Nat) →
    blank.memoriesOf ts node = Trigger.blanks ts
  | [], _ => rfl
  | t :: ts, node =>
    Prod.ext (congrArg (Slot.mk false) (memoryOf_blank t node))
      (memoriesOf_blank ts (node + t.size))

end

theorem stateOf_clear (sh : Sheet) (t : Trigger) (node : Nat) :
    (sh.clear node (node + t.size)).stateOf t node = t.fresh := by
  have hcleared : (sh.clear node (node + t.size)).SameOn node (node + t.size) blank := by
    intro n hn hn'
    rw [entry_clear, if_pos ⟨hn, hn'⟩, entry_blank]
  rw [stateOf_congr t node hcleared]
  exact congrArg (Slot.mk false) (memoryOf_blank t node)

end Sheet

namespace Sheets

variable {ρ τ α β : Type} {w : Window} {σ : Sheets}

/-! ### Actions that follow a step -/

/-- An action begun in `σ` follows a step: it gives the step's answer, the sheet of the window then
reads as the state the step leaves, and the window has a sheet if it had one or the step wrote. -/
structure Follows (w : Window) (view : Sheet → α) (σ : Sheets) (a : Attempt Sheets ρ)
    (step : Step α ρ) : Prop where
  answer : (a.begin σ).1 = step.answer
  state : view ((a.begin σ).2.sheetAt w) = step.state
  wrote : (a.begin σ).2.windows.contains w = (step.wrote || σ.windows.contains w)

variable {view : Sheet → α} {view' : Sheet → β} {a : Attempt Sheets ρ} {step : Step α ρ}

theorem Follows.andThen {s : α} {wrote : Bool} {x : ρ} {next : Step β τ}
    (h : Follows w view σ a ⟨s, wrote, .ok x⟩) (f : ρ → Attempt Sheets τ)
    (hf : Follows w view' (a.begin σ).2 (f x) next) :
    Follows w view' σ (a >>= f) { next with wrote := wrote || next.wrote } := by
  have hbegin : Attempt.begin (a >>= f) σ = (f x).begin (a.begin σ).2 :=
    Attempt.begin_bind (Prod.ext h.answer rfl) f
  refine ⟨?_, ?_, ?_⟩ <;> rw [hbegin]
  · exact hf.answer
  · exact hf.state
  · rw [hf.wrote, h.wrote, Bool.or_left_comm, Bool.or_assoc]

theorem Follows.bind {f : ρ → Attempt Sheets τ} {keep : α → β} {k : α → ρ → Step β τ}
    (h : Follows w view σ a step)
    (herror : ∀ e, step.answer = .error e → view' ((a.begin σ).2.sheetAt w) = keep step.state)
    (hok : ∀ x, step.answer = .ok x → Follows w view' (a.begin σ).2 (f x) (k step.state x)) :
    Follows w view' σ (a >>= f) (step.next keep k) := by
  obtain ⟨s, wrote, answer⟩ := step
  cases answer with
  | ok x => exact h.andThen f (hok x rfl)
  | error e =>
    have hbegin : Attempt.begin (a >>= f) σ = (.error e, (a.begin σ).2) :=
      Attempt.begin_bind_error (Prod.ext h.answer rfl) f
    refine ⟨?_, ?_, ?_⟩ <;> rw [hbegin]
    · rfl
    · exact herror e rfl
    · exact h.wrote

theorem follows_quiet {x : Except Fault ρ} {s : α} (ha : a.begin σ = (x, σ))
    (hs : view (σ.sheetAt w) = s) : Follows w view σ a (.quiet s x) := by
  refine ⟨?_, ?_, ?_⟩ <;> rw [ha]
  · rfl
  · exact hs
  · rfl

theorem Follows.of_begin {a' : Attempt Sheets ρ} (h : Follows w view σ a step)
    (ha : a'.begin σ = a.begin σ) : Follows w view σ a' step := by
  refine ⟨?_, ?_, ?_⟩ <;> rw [ha]
  · exact h.answer
  · exact h.state
  · exact h.wrote

theorem Follows.of_step {step' : Step α ρ} (h : Follows w view σ a step) (hstep : step' = step) :
    Follows w view σ a step' :=
  hstep ▸ h

theorem follows_ite {a' : Attempt Sheets ρ} {step' : Step α ρ} {c : Prop} [Decidable c]
    (h : Follows w view σ a step) (h' : Follows w view σ a' step') :
    Follows w view σ (if c then a else a') (if c then step else step') := by
  split
  · exact h
  · exact h'

theorem begin_read_bind (g : Sheet → ρ) (f : ρ → Attempt Sheets τ) (σ : Sheets) :
    Attempt.begin (do f (← read w g)) σ = (f (g (σ.sheetAt w))).begin σ := rfl

theorem begin_mergingCells_bind (node : Nat) (f : List Cell → Attempt Sheets τ) (σ : Sheets) :
    Attempt.begin (do f (← mergingCells node)) σ =
      (f (σ.merging.entries.map fun p => { counter := p.2.counter node })).begin σ := rfl

theorem begin_finishedMerging_bind (node : Nat) (f : Bool → Attempt Sheets τ) (σ : Sheets) :
    Attempt.begin (do f (← finishedMerging node)) σ =
      (f (σ.merging.entries.any (·.2.finished node))).begin σ := rfl

/-- A step that is carried over into a larger state as it is. -/
theorem Follows.keep (h : Follows w view σ a step) {keep : α → β}
    (hview : view' ((a.begin σ).2.sheetAt w) = keep step.state) :
    Follows w view' σ a (step.next keep fun s x => .quiet (keep s) (.ok x)) := by
  have hanswer := h.answer
  have hwrote := h.wrote
  cases hx : step.answer with
  | error e =>
    rw [Step.next_error hx]
    exact ⟨hanswer.trans hx, hview, hwrote⟩
  | ok x =>
    rw [Step.next_ok hx]
    exact ⟨hanswer.trans hx, hview, by rw [hwrote]; simp [Step.quiet]⟩

theorem Follows.answering (h : Follows w view σ a step) (answer : ρ → τ) {keep : α → β}
    (hview : view' ((a.begin σ).2.sheetAt w) = keep step.state) :
    Follows w view' σ (do return answer (← a))
      (step.next keep fun s x => .quiet (keep s) (.ok (answer x))) :=
  h.bind (fun _ _ => hview) fun _ _ => follows_quiet rfl hview

section Pairs

variable {υ : Type} {view₁ : Sheet → α} {step₁ : Step α ρ} {untouched : β}

/-- Two actions one after the other, each of which leaves alone what the other one reads. -/
theorem Follows.both {b : Attempt Sheets τ} (view₂ : Sheet → β) (step₂ : β → Step β τ)
    (answer : ρ → τ → υ) (ha : Follows w view₁ σ a step₁)
    (hb : Follows w view₂ (a.begin σ).2 b (step₂ (view₂ ((a.begin σ).2.sheetAt w))))
    (hka : view₂ ((a.begin σ).2.sheetAt w) = untouched)
    (hkb : view₁ ((b.begin (a.begin σ).2).2.sheetAt w) = view₁ ((a.begin σ).2.sheetAt w)) :
    Follows w (fun sh => (view₁ sh, view₂ sh)) σ (do
        let x ← a
        let y ← b
        return answer x y)
      (step₁.next (·, untouched) fun s x =>
        (step₂ untouched).next (s, ·) fun r y => .quiet (s, r) (.ok (answer x y))) := by
  rw [hka] at hb
  refine ha.bind (fun _ _ => Prod.ext ha.state hka) fun x _ => ?_
  exact hb.answering (answer x) (Prod.ext (hkb.trans ha.state) hb.state)

/-- An action that may be the last, and otherwise is followed by another that reads something
else. -/
theorem Follows.orElse {rest : ρ → Attempt Sheets τ} {last : τ} (view₂ : Sheet → β)
    (stepRest : ρ → β → Step β τ) (stops : ρ → Prop) [DecidablePred stops]
    (ha : Follows w view₁ σ a step₁)
    (hrest : ∀ x, Follows w view₂ (a.begin σ).2 (rest x)
      (stepRest x (view₂ ((a.begin σ).2.sheetAt w))))
    (hka : view₂ ((a.begin σ).2.sheetAt w) = untouched)
    (hkrest : ∀ x, view₁ (((rest x).begin (a.begin σ).2).2.sheetAt w) =
      view₁ ((a.begin σ).2.sheetAt w)) :
    Follows w (fun sh => (view₁ sh, view₂ sh)) σ (do
        let x ← a
        if stops x then return last else rest x)
      (step₁.next (·, untouched) fun s x =>
        if stops x then .quiet (s, untouched) (.ok last)
        else (stepRest x untouched).next (s, ·) fun r y => .quiet (s, r) (.ok y)) := by
  simp only [hka] at hrest
  refine ha.bind (fun _ _ => Prod.ext ha.state hka) fun x _ => ?_
  split
  · exact follows_quiet rfl (Prod.ext ha.state hka)
  · exact (hrest x).keep (Prod.ext ((hkrest x).trans ha.state) (hrest x).state)

end Pairs

/-- An action leaves the state of a subtree alone that it is not confined to. -/
theorem Confined.stateOf_eq {lo hi : Nat} {alike : WindowMap Sheet → WindowMap Sheet → Prop}
    (h : Confined w lo hi alike a) (σ : Sheets) (t : Trigger) {node : Nat}
    (hdisjoint : node + t.size ≤ lo ∨ hi ≤ node) :
    ((a.begin σ).2.sheetAt w).stateOf t node = (σ.sheetAt w).stateOf t node :=
  Sheet.stateOf_congr t node fun n hn hn' => h.entries σ n (by omega)

theorem Confined.memoriesOf_eq {lo hi : Nat} {alike : WindowMap Sheet → WindowMap Sheet → Prop}
    (h : Confined w lo hi alike a) (σ : Sheets) (ts : List Trigger) {node : Nat}
    (hdisjoint : hi ≤ node) :
    ((a.begin σ).2.sheetAt w).memoriesOf ts node = (σ.sheetAt w).memoriesOf ts node :=
  Sheet.memoriesOf_congr ts node fun n hn _ => h.entries σ n (by omega)

theorem contains_write (g : Sheet → Sheet) :
    ((write w g).begin σ).2.windows.contains w = true := by
  simp [begin_write, WindowMap.contains]

theorem contains_amend (g : Sheet → Sheet) :
    ((amend w g).begin σ).2.windows.contains w = σ.windows.contains w := by
  simp [begin_amend, WindowMap.contains]

theorem follows_perform (w : Window) (node : Nat) (change : Write) (σ : Sheets) :
    Follows w (fun sh => (sh.entry node).cell) σ (perform w node change)
      ⟨((σ.sheetAt w).entry node).cell.apply change, change.creates, .ok ()⟩ := by
  cases change with
  | setCounter value =>
    refine ⟨rfl, ?_, (contains_write _).trans (Bool.true_or _).symm⟩
    rw [perform, sheetAt_write, Sheet.entry_count, if_pos rfl]
    rfl
  | setTimer timestamp =>
    refine ⟨rfl, ?_, (contains_write _).trans (Bool.true_or _).symm⟩
    rw [perform, sheetAt_write, Sheet.entry_schedule, if_pos rfl]
    exact congrArg (Cell.mk _) (sort_insert timestamp _)
  | deleteTimer timestamp =>
    refine ⟨rfl, ?_, (contains_amend _).trans (Bool.false_or _).symm⟩
    rw [perform, sheetAt_amend (Sheet.cancel_blank timestamp node), Sheet.entry_cancel, if_pos rfl]
    exact congrArg (Cell.mk _) (sort_erase timestamp _)

theorem follows_performAll (w : Window) (node : Nat) (changes : List Write) (σ : Sheets) :
    Follows w (fun sh => (sh.entry node).cell) σ (performAll w node changes)
      ⟨changes.foldl Cell.apply ((σ.sheetAt w).entry node).cell, changes.any Write.creates,
        .ok ()⟩ := by
  induction changes generalizing σ with
  | nil => exact follows_quiet rfl rfl
  | cons change rest ih =>
    have hfirst := follows_perform w node change σ
    have hrest := ih ((perform w node change).begin σ).2
    rw [hfirst.state] at hrest
    exact hfirst.andThen (fun _ => performAll w node rest) hrest

/-- A leaf that reads nothing but the counter of its cell. -/
theorem follows_react {node : Nat} (reaction : Cell → Reaction ρ)
    (hreads : ∀ c : Cell, reaction c = reaction { counter := c.counter }) :
    Follows w (fun sh => (sh.entry node).cell) σ (react w node reaction)
      ((reaction ((σ.sheetAt w).entry node).cell).step ((σ.sheetAt w).entry node).cell) := by
  rw [hreads]
  have hwrites := follows_performAll w node
    (reaction { counter := (σ.sheetAt w).counter node }).writes σ
  have hanswer : Follows w (fun sh => (sh.entry node).cell) _
    (liftM (reaction { counter := (σ.sheetAt w).counter node }).answer : Attempt Sheets ρ) _ :=
    follows_quiet rfl hwrites.state
  have hboth := hwrites.andThen (fun _ => liftM _) hanswer
  rw [Step.quiet, Bool.or_false] at hboth
  exact hboth.of_begin (begin_read_bind ..)

theorem memoryOf_finish (sh : Sheet) (t : Trigger) (node : Nat) :
    (sh.finish node).memoryOf t node = sh.memoryOf t node := by
  have helse (n : Nat) (hn : node + 1 ≤ n) : (sh.finish node).entry n = sh.entry n := by
    rw [Sheet.entry_finish, if_neg (by omega)]
  cases t with
  | leaf l =>
    rw [Sheet.memoryOf, Sheet.memoryOf, Sheet.entry_finish, if_pos rfl]
    rfl
  | afterFirst ts => exact Sheet.memoriesOf_congr ts (node + 1) fun n hn _ => helse n hn
  | repeatedly t => exact Sheet.stateOf_congr t (node + 1) fun n hn _ => helse n hn
  | orFinally a b =>
    exact Prod.ext (Sheet.stateOf_congr a (node + 1) fun n hn _ => helse n hn)
      (Sheet.stateOf_congr b (node + 1 + a.size) fun n hn _ => helse n (by omega))

theorem follows_settle (w : Window) (t : Trigger) (node : Nat) (finishes : Bool) (x : ρ)
    (σ : Sheets) :
    Follows w (·.stateOf t node) σ (do
        settle w node finishes
        return x)
      ⟨⟨(σ.sheetAt w).finished node || finishes, (σ.sheetAt w).memoryOf t node⟩, finishes,
        .ok x⟩ := by
  cases finishes with
  | false =>
    refine ⟨rfl, ?_, rfl⟩
    rw [Bool.or_false]
    rfl
  | true =>
    refine ⟨rfl, ?_, contains_write _⟩
    have hafter := sheetAt_write w (Sheet.finish node) σ
    have hfinished : ((σ.sheetAt w).finish node).finished node = true := by simp [Sheet.finish]
    rw [Bool.or_true]
    exact (congrArg (Sheet.stateOf · t node) hafter).trans
      (congrArg₂ Slot.mk hfinished (memoryOf_finish ..))

theorem follows_restart {t : Trigger} {node : Nat} (finishes : Bool) (x : ρ) :
    Follows w (·.stateOf t node) σ (do
        restart w node (node + t.size) finishes
        return x)
      (if finishes then ⟨t.fresh, true, .ok x⟩
        else .quiet ((σ.sheetAt w).stateOf t node) (.ok x)) := by
  cases finishes with
  | false => exact ⟨rfl, rfl, rfl⟩
  | true =>
    refine ⟨rfl, ?_, contains_write _⟩
    exact (congrArg (Sheet.stateOf · t node) (sheetAt_write w _ σ)).trans
      (Sheet.stateOf_clear ..)

/-- Invoking a node follows the offer to its slot if the node's reaction follows the evaluation and
leaves the node's own finished bit alone. -/
theorem Follows.offer {t : Trigger} {node : Nat} {visit : Attempt Sheets Outcome}
    {run : t.Memory → Step t.Memory Outcome}
    (h : Follows w (·.memoryOf t node) σ visit (run ((σ.sheetAt w).memoryOf t node)))
    (hroot : ((visit.begin σ).2.sheetAt w).finished node = (σ.sheetAt w).finished node) :
    Follows w (·.stateOf t node) σ (offer w node visit)
      (((σ.sheetAt w).stateOf t node).offer run) := by
  cases hfinished : (σ.sheetAt w).finished node with
  | true =>
    have hpass : (Sheets.offer w node visit).begin σ = (.ok .idle, σ) := by
      refine (begin_read_bind ..).trans ?_
      rw [hfinished]
      rfl
    rw [Slot.offer, Sheet.stateOf, if_pos hfinished]
    exact follows_quiet hpass rfl
  | false =>
    have hconsult : (Sheets.offer w node visit).begin σ = Attempt.begin (do
        let o ← visit
        settle w node o.finishes
        return o) σ := by
      refine (begin_read_bind ..).trans ?_
      rw [hfinished]
      rfl
    rw [Slot.offer, Sheet.stateOf, if_neg (by simp [hfinished])]
    refine (h.bind (fun _ _ => congrArg₂ Slot.mk hroot h.state) fun o _ => ?_).of_begin hconsult
    have hsettle := follows_settle w t node o.finishes o (visit.begin σ).2
    rwa [hroot, h.state] at hsettle

/-- Merging a node follows the merge of its slots. -/
theorem Follows.merge {t : Trigger} {node : Nat} {visit : Attempt Sheets MergeOutcome}
    {run : List t.Memory → t.Memory → Step t.Memory MergeOutcome}
    (h : Follows w (·.memoryOf t node) σ visit
      (run (σ.merging.entries.map (·.2.memoryOf t node)) ((σ.sheetAt w).memoryOf t node)))
    (hroot : ((visit.begin σ).2.sheetAt w).finished node = (σ.sheetAt w).finished node) :
    Follows w (·.stateOf t node) σ (merge w node visit)
      (((σ.sheetAt w).stateOf t node).merge (σ.merging.entries.map (·.2.stateOf t node)) run) := by
  have hany : (σ.merging.entries.map (·.2.stateOf t node)).any (·.finished) =
      σ.merging.entries.any (·.2.finished node) := List.any_map
  cases hfinished : σ.merging.entries.any (·.2.finished node) with
  | true =>
    have hpass : (Sheets.merge w node visit).begin σ = Attempt.begin (do
        settle w node true
        return MergeOutcome.alreadyFinished) σ := by
      refine (begin_finishedMerging_bind ..).trans ?_
      rw [hfinished]
      rfl
    rw [Slot.merge, if_pos (hany.trans hfinished)]
    have hsettle := follows_settle w t node true MergeOutcome.alreadyFinished σ
    rw [Bool.or_true] at hsettle
    exact hsettle.of_begin hpass
  | false =>
    have hconsult : (Sheets.merge w node visit).begin σ = Attempt.begin (do
        let o ← visit
        settle w node o.finishes
        return o) σ := by
      refine (begin_finishedMerging_bind ..).trans ?_
      rw [hfinished]
      rfl
    have hmemories : (σ.merging.entries.map (·.2.stateOf t node)).map (·.memory) =
        σ.merging.entries.map (·.2.memoryOf t node) := List.map_map
    rw [Slot.merge, if_neg (by simp [hany, hfinished]), hmemories]
    refine (h.bind (fun _ _ => congrArg₂ Slot.mk hroot h.state) fun o _ => ?_).of_begin hconsult
    have hsettle := follows_settle w t node o.finishes o (visit.begin σ).2
    rwa [hroot, h.state] at hsettle

end Sheets

end EventTime
