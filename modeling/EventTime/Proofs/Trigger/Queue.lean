import Mathlib.Data.Prod.Lex
import EventTime.Proofs.Trigger.Locality

/-!
# The queue of timers

The pending timers of all windows form one queue, ordered by timestamp, window and node. Of each
window only the first timer is looked at, and of these only the ones before the watermark, in
whatever order the windows come: the least of them is the least of all that are due. To take it out
changes nothing but that it is gone. On sheets any node may have timers; where only leaves have
some, taking one from the sheets is taking it from the state of the tree.
-/

namespace EventTime

namespace Trigger

mutual

/-- The memory as it would be if no timer were pending. -/
def silenced : (t : Trigger) → t.Memory → t.Memory
  | .leaf _, c => (⟨Cell.counter c, []⟩ : Cell)
  | .afterFirst ts, m => silencedAll ts m
  | .repeatedly t, m => { m with memory := silenced t m.memory }
  | .orFinally a b, m =>
    ({ m.1 with memory := silenced a m.1.memory }, { m.2 with memory := silenced b m.2.memory })

/-- The slots of several trees as they would be if no timer were pending. -/
def silencedAll : (ts : List Trigger) → Memories ts → Memories ts
  | [], m => m
  | t :: ts, m => ({ m.1 with memory := silenced t m.1.memory }, silencedAll ts m.2)

end

theorem counter_cancel (c : Cell) (timestamp : Int) (node target : Nat) :
    (if node = target then c.cancel timestamp else c).counter = c.counter := by
  split <;> rfl

mutual

theorem silenced_cancelFrom (timestamp : Int) (target : Nat) :
    (t : Trigger) → (node : Nat) → (m : t.Memory) →
      t.silenced (cancelFrom timestamp target t node m) = t.silenced m
  | .leaf _, node, c => congrArg (Cell.mk · []) (counter_cancel c timestamp node target)
  | .afterFirst ts, node, m => silencedAll_cancelAmong timestamp target ts (node + 1) m
  | .repeatedly t, node, m =>
    congrArg (Slot.mk m.finished) (silenced_cancelFrom timestamp target t (node + 1) m.memory)
  | .orFinally a b, _, m =>
    Prod.ext (congrArg (Slot.mk m.1.finished) (silenced_cancelFrom timestamp target a _ m.1.memory))
      (congrArg (Slot.mk m.2.finished) (silenced_cancelFrom timestamp target b _ m.2.memory))

theorem silencedAll_cancelAmong (timestamp : Int) (target : Nat) :
    (ts : List Trigger) → (node : Nat) → (m : Memories ts) →
      silencedAll ts (cancelAmong timestamp target ts node m) = silencedAll ts m
  | [], _, _ => rfl
  | t :: ts, node, m =>
    Prod.ext (congrArg (Slot.mk m.1.finished) (silenced_cancelFrom timestamp target t _ m.1.memory))
      (silencedAll_cancelAmong timestamp target ts (node + t.size) m.2)

end

end Trigger

namespace TriggerState

variable {t : Trigger}

/-- The state of every window as it would be if no timer were pending: the finished bits and the
counters of all nodes. -/
def silentAt (s : TriggerState t) (w : Window) : Option t.State :=
  (s.find? w).map fun state => { state with memory := t.silenced state.memory }

/-- A state from which a timer has been dropped, and nothing else has changed. -/
structure Dropped (s : TriggerState t) (a : Timer) (s' : TriggerState t) : Prop where
  timers : s'.timers = s.timers.filter (· ≠ a)
  windows : ∀ w, w ≠ a.window → s'.find? w = s.find? w
  others : ∀ w, s'.silentAt w = s.silentAt w

theorem dropped_cancel (s : TriggerState t) (a : Timer) : s.Dropped a (s.cancel a) where
  timers := s.timers_cancel a
  windows w hw := (find?_cancel s a w).trans (if_neg (Ne.symm hw))
  others w := by
    rw [silentAt, find?_cancel, silentAt]
    split
    · cases s.find? w with
      | none => rfl
      | some state =>
        exact congrArg (fun m => some (Slot.mk state.finished m))
          (t.silenced_cancelFrom a.timestamp a.node 0 state.memory)
    · rfl

theorem isFirst_popDue (s : TriggerState t) (watermark : Int) :
    Timer.IsFirst (fun a => a ∈ s.timers ∧ a.timestamp < watermark)
      ((s.popDue watermark).map (·.1)) := by
  have htaken : (s.popDue watermark).map (·.1) =
      Timer.nextDue watermark (s.entries.filterMap firstTimer) := by
    rw [popDue, Option.map_map]
    exact Option.map_id'
  rw [htaken]
  refine (s.isFirst_nextDue watermark).congr fun a => ?_
  rw [dueTimers, List.mem_filter, decide_eq_true_eq]

end TriggerState

/-! ### Timers on sheets -/

namespace Sheet

/-- The first timer of a sheet, by timestamp and then by node. -/
def first? (sh : Sheet) : Option (Int × Nat) :=
  if h : (sh.timers.map toLex.toEmbedding).Nonempty then some (ofLex (Finset.min' _ h)) else none

theorem isFirst_first? (w : Window) (sh : Sheet) :
    Timer.IsFirst (fun a => a.window = w ∧ (a.timestamp, a.node) ∈ sh.timers)
      (sh.first?.map fun q => ⟨q.1, w, q.2⟩) := by
  rw [first?]
  split
  · rename_i h
    refine ⟨⟨rfl, ?_⟩, ?_⟩
    · obtain ⟨q, hq, hmin⟩ := Finset.mem_map.mp (Finset.min'_mem _ h)
      rw [← hmin]
      exact hq
    · rintro ⟨timestamp, v, node⟩ ⟨hv, hb⟩
      obtain rfl : v = w := hv
      have hle := Finset.min'_le _ _ (Finset.mem_map_of_mem toLex.toEmbedding hb)
      rcases Prod.Lex.le_iff.mp hle with hlt | ⟨heq, hle⟩
      · exact .inr (.inl hlt)
      · rcases Nat.eq_or_lt_of_le hle with hnode | hlt
        · exact .inl (congrArg₂ (Timer.mk · v ·) heq hnode)
        · exact .inr (.inr ⟨heq, .inr ⟨rfl, hlt⟩⟩)
  · rename_i h
    rintro a ⟨-, ha⟩
    exact h ⟨_, Finset.mem_map_of_mem toLex.toEmbedding ha⟩

mutual

/-- The timers of a tree are those that its sheet holds for its leaves. -/
theorem mem_timersFrom_memoryOf {sh : Sheet} {u : Int} {n : Nat} : (t : Trigger) → (node : Nat) →
    ((u, n) ∈ t.timersFrom node (sh.memoryOf t node) ↔ (u, n) ∈ sh.timers ∧ n ∈ t.leavesFrom node)
  | .leaf _, node => by
    show (u, n) ∈ (sh.entry node).timers.sort.map (fun u => (u, node)) ↔ _
    simp only [List.mem_map, Finset.mem_sort, mem_entry_timers, Prod.mk.injEq, Trigger.leavesFrom,
      List.mem_singleton]
    constructor
    · rintro ⟨_, h, rfl, rfl⟩
      exact ⟨h, rfl⟩
    · rintro ⟨h, rfl⟩
      exact ⟨u, h, rfl, rfl⟩
  | .afterFirst ts, node => mem_timersAmong_memoriesOf ts (node + 1)
  | .repeatedly t, node => mem_timersFrom_memoryOf t (node + 1)
  | .orFinally a b, node => by
    rw [Trigger.leavesFrom, List.mem_append, and_or_left, ← mem_timersFrom_memoryOf a,
      ← mem_timersFrom_memoryOf b]
    exact List.mem_append

theorem mem_timersAmong_memoriesOf {sh : Sheet} {u : Int} {n : Nat} :
    (ts : List Trigger) → (node : Nat) →
      ((u, n) ∈ Trigger.timersAmong ts node (sh.memoriesOf ts node) ↔
        (u, n) ∈ sh.timers ∧ n ∈ Trigger.leavesAmong ts node)
  | [], node => by simp [Trigger.timersAmong, Trigger.leavesAmong]
  | t :: ts, node => by
    rw [Trigger.leavesAmong, List.mem_append, and_or_left, ← mem_timersFrom_memoryOf t,
      ← mem_timersAmong_memoriesOf ts]
    exact List.mem_append

end

mutual

theorem memoryOf_cancel (sh : Sheet) (u : Int) (target : Nat) : (t : Trigger) → (node : Nat) →
    (sh.cancel u target).memoryOf t node = t.cancelFrom u target node (sh.memoryOf t node)
  | .leaf _, node => by
    show ((sh.cancel u target).entry node).cell =
      if node = target then (sh.entry node).cell.cancel u else (sh.entry node).cell
    rw [entry_cancel]
    split
    · exact congrArg (Cell.mk _) (sort_erase u _)
    · rfl
  | .afterFirst ts, node => memoriesOf_cancel sh u target ts (node + 1)
  | .repeatedly t, node => congrArg (Slot.mk _) (memoryOf_cancel sh u target t (node + 1))
  | .orFinally a b, node =>
    Prod.ext (congrArg (Slot.mk _) (memoryOf_cancel sh u target a _))
      (congrArg (Slot.mk _) (memoryOf_cancel sh u target b _))

theorem memoriesOf_cancel (sh : Sheet) (u : Int) (target : Nat) :
    (ts : List Trigger) → (node : Nat) → (sh.cancel u target).memoriesOf ts node =
      Trigger.cancelAmong u target ts node (sh.memoriesOf ts node)
  | [], _ => rfl
  | t :: ts, node =>
    Prod.ext (congrArg (Slot.mk _) (memoryOf_cancel sh u target t node))
      (memoriesOf_cancel sh u target ts (node + t.size))

end

theorem filter_timers_eq_cancel (sh : Sheet) (w : Window) (a : Timer) :
    { sh with timers := sh.timers.filter fun p => Timer.mk p.1 w p.2 ≠ a } =
      if a.window = w then sh.cancel a.timestamp a.node else sh := by
  split <;> rename_i hw
  · subst hw
    refine congrArg (Sheet.mk sh.finished sh.counter) ((Finset.filter_congr fun p _ => ?_).trans
      (Finset.filter_ne' sh.timers (a.timestamp, a.node)))
    cases a
    simp [Prod.ext_iff]
  · refine congrArg (Sheet.mk sh.finished sh.counter) (Finset.filter_true_of_mem fun p _ => ?_)
    rintro rfl
    exact hw rfl

end Sheet

namespace Sheets

/-- A timer that some window's sheet holds. -/
def Pending (σ : Sheets) (a : Timer) : Prop :=
  ∃ sh, σ.windows.find? a.window = some sh ∧ (a.timestamp, a.node) ∈ sh.timers

/-- The sheets without one of their timers. -/
def cancel (σ : Sheets) (a : Timer) : Sheets :=
  { σ with windows := σ.windows.modify a.window (·.cancel a.timestamp a.node) }

/-- Take the earliest timer strictly before the watermark; `order` is the order in which the windows
are gone through. -/
def popDue (σ : Sheets) (order : List (Window × Sheet)) (watermark : Int) : Option Timer × Sheets :=
  match Timer.nextDue watermark
    (order.filterMap fun p => p.2.first?.map fun q => ⟨q.1, p.1, q.2⟩) with
  | none => (none, σ)
  | some a => (some a, σ.cancel a)

/-- Sheets from which a timer has been dropped, and nothing else has changed. -/
structure Dropped (σ : Sheets) (a : Timer) (σ' : Sheets) : Prop where
  windows : ∀ w, σ'.windows.find? w = (σ.windows.find? w).map fun sh =>
    { sh with timers := sh.timers.filter fun p => Timer.mk p.1 w p.2 ≠ a }
  merging : σ'.merging = σ.merging

variable {σ : Sheets} {order : List (Window × Sheet)}

theorem dropped_cancel (σ : Sheets) (a : Timer) : σ.Dropped a (σ.cancel a) where
  windows w := by
    rw [cancel, WindowMap.find?_modify]
    cases σ.windows.find? w with
    | none => exact ite_self none
    | some sh =>
      rw [Option.map_some, Option.map_some, Sheet.filter_timers_eq_cancel, apply_ite some]
  merging := rfl

theorem isFirst_popDue (horder : order.Perm σ.windows.entries) (watermark : Int) :
    Timer.IsFirst (fun a => σ.Pending a ∧ a.timestamp < watermark) (σ.popDue order watermark).1 := by
  have hfirst := Timer.isFirst_nextDue (fun (p : Window × Sheet) (_ : p ∈ order) =>
    Sheet.isFirst_first? p.1 p.2) watermark
  have hpending (a : Timer) : (∃ p ∈ order, a.window = p.1 ∧ (a.timestamp, a.node) ∈ p.2.timers) ↔
      σ.Pending a := by
    constructor
    · rintro ⟨⟨w, sh⟩, hp, rfl, ha⟩
      exact ⟨sh, WindowMap.mem_entries.mp (horder.mem_iff.mp hp), ha⟩
    · rintro ⟨sh, hsh, ha⟩
      exact ⟨(a.window, sh), horder.mem_iff.mpr (WindowMap.mem_entries.mpr hsh), rfl, ha⟩
  have hdue := hfirst.congr fun a => and_congr_left' (hpending a)
  rw [popDue]
  split
  · rename_i hnone
    exact hnone ▸ hdue
  · rename_i a hsome
    exact hsome ▸ hdue

theorem popDue_of_none {watermark : Int} (h : (σ.popDue order watermark).1 = none) :
    (σ.popDue order watermark).2 = σ := by
  rw [popDue] at h ⊢
  split at h
  · rfl
  · cases h

theorem popDue_of_some {watermark : Int} {a : Timer} (h : (σ.popDue order watermark).1 = some a) :
    (σ.popDue order watermark).2 = σ.cancel a := by
  rw [popDue] at h ⊢
  split at h
  · cases h
  · obtain rfl := Option.some.inj h
    rfl

end Sheets

/-- What is taken is the least by timestamp, window and node of the pending timers of all windows
that are strictly before the watermark, and nothing if there is none. It is dropped, and nothing
else changes. This is so of every state of a tree, and of sheets on which any node has timers, in
whatever order their windows are gone through. -/
theorem popDue_takes_least {t : Trigger} (s : TriggerState t) {σ : Sheets}
    {order : List (Window × Sheet)} (horder : order.Perm σ.windows.entries) (watermark : Int) :
    (Timer.IsFirst (fun a => a ∈ s.timers ∧ a.timestamp < watermark)
        ((s.popDue watermark).map (·.1)) ∧
      ∀ a s', s.popDue watermark = some (a, s') → s.Dropped a s') ∧
    (Timer.IsFirst (fun a => σ.Pending a ∧ a.timestamp < watermark)
        (σ.popDue order watermark).1 ∧
      ((σ.popDue order watermark).1 = none → (σ.popDue order watermark).2 = σ) ∧
      ∀ a, (σ.popDue order watermark).1 = some a → σ.Dropped a (σ.popDue order watermark).2) := by
  refine ⟨⟨s.isFirst_popDue watermark, fun a s' h => ?_⟩,
    Sheets.isFirst_popDue horder watermark, Sheets.popDue_of_none, fun a h => ?_⟩
  · obtain ⟨-, -, -, rfl⟩ := TriggerState.popDue_some h
    exact s.dropped_cancel a
  · rw [Sheets.popDue_of_some h]
    exact σ.dropped_cancel a

def bothEnds : Trigger := .orFinally .afterWatermark .afterWatermark

/-- Two windows that end at the same time, which two leaves wait for in each of them. -/
def tiedState : TriggerState bothEnds :=
  (TriggerState.element (TriggerState.element .empty ⟨.interval 5 10, 7⟩).2 ⟨.interval 0 10, 3⟩).2

/-- The same timers, and one of the root. -/
def tiedSheets : Sheets where
  windows := (WindowMap.empty.insert (.interval 5 10)
    { Sheet.blank with timers := {(9, 2), (9, 1)} }).insert (.interval 0 10)
      { Sheet.blank with timers := {(12, 0), (9, 2), (9, 1)} }
  merging := .empty

theorem popDue_takes_least_of_tie :
    let order := tiedSheets.windows.entries.reverse
    (∃ s', tiedState.popDue 20 = some (⟨9, .interval 0 10, 1⟩, s') ∧
      tiedState.Dropped ⟨9, .interval 0 10, 1⟩ s') ∧
    order.Perm tiedSheets.windows.entries ∧
    (tiedSheets.popDue order 20).1 = some ⟨9, .interval 0 10, 1⟩ ∧
    tiedSheets.Dropped ⟨9, .interval 0 10, 1⟩ (tiedSheets.popDue order 20).2 := by
  intro order
  have horder : order.Perm tiedSheets.windows.entries := List.reverse_perm _
  obtain ⟨⟨-, hstate⟩, -, -, hsheets⟩ := popDue_takes_least tiedState horder 20
  have htaken : (tiedSheets.popDue order 20).1 = some ⟨9, .interval 0 10, 1⟩ := by decide
  exact ⟨⟨_, rfl, hstate _ _ rfl⟩, horder, htaken, hsheets _ htaken⟩

namespace Trigger

variable {t : Trigger} {σ : Sheets} {s : TriggerState t} {order : List (Window × Sheet)}

theorem Holds.pending_iff (h : t.Holds σ s) (hleaves : ∀ a, σ.Pending a → a.node ∈ t.leavesFrom 0)
    (a : Timer) : a ∈ s.timers ↔ σ.Pending a := by
  rw [TriggerState.mem_timers, h a.window, Sheets.Pending]
  constructor
  · rintro ⟨state, hstate, ha⟩
    obtain ⟨sh, hsh, rfl⟩ := Option.map_eq_some_iff.mp hstate
    exact ⟨sh, hsh, ((Sheet.mem_timersFrom_memoryOf t 0).mp ha).1⟩
  · rintro ⟨sh, hsh, ha⟩
    exact ⟨_, Option.map_eq_some_iff.mpr ⟨sh, hsh, rfl⟩,
      (Sheet.mem_timersFrom_memoryOf t 0).mpr ⟨ha, hleaves a ⟨sh, hsh, ha⟩⟩⟩

theorem Holds.cancel (h : t.Holds σ s) (a : Timer) : t.Holds (σ.cancel a) (s.cancel a) := by
  intro w
  rw [TriggerState.find?_cancel, Sheets.cancel, WindowMap.find?_modify, h w]
  split
  · cases σ.windows.find? w with
    | none => rfl
    | some sh =>
      exact congrArg (fun m => some (Slot.mk (sh.finished 0) m))
        (Sheet.memoryOf_cancel sh a.timestamp a.node t 0).symm
  · rfl

/-- On sheets that hold the state of a tree, of which only the leaves have timers, the timer that is
taken is the one taken from the state, and the sheets hold the state that is left. -/
theorem Holds.popDue (h : t.Holds σ s) (hleaves : ∀ a, σ.Pending a → a.node ∈ t.leavesFrom 0)
    (horder : order.Perm σ.windows.entries) (watermark : Int) :
    (σ.popDue order watermark).1 = (s.popDue watermark).map (·.1) ∧
      t.Holds (σ.popDue order watermark).2 (((s.popDue watermark).map (·.2)).getD s) := by
  -- both are the first of the same due timers
  have htaken : (σ.popDue order watermark).1 = (s.popDue watermark).map (·.1) :=
    (Sheets.isFirst_popDue horder watermark).unique ((s.isFirst_popDue watermark).congr fun a =>
      and_congr_left' (h.pending_iff hleaves a))
  refine ⟨htaken, ?_⟩
  cases hpop : s.popDue watermark with
  | none =>
    rw [hpop] at htaken
    rw [Sheets.popDue_of_none htaken]
    exact h
  | some p =>
    rw [hpop] at htaken
    obtain ⟨-, -, -, hstate⟩ := TriggerState.popDue_some hpop
    rw [Sheets.popDue_of_some htaken, Option.map_some, Option.getD_some, hstate]
    exact h.cancel p.1

end Trigger

end EventTime
