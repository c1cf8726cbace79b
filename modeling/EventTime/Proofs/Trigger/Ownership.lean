import EventTime.Proofs.Trigger.Driving
import EventTime.Proofs.Trigger.Queue
import EventTime.Proofs.Trigger.Routing
import EventTime.Proofs.Trigger.Transactions

/-!
# Timers and their nodes

A sheet has room for timers of every node, but those that are pending after any events are timers of
leaves: only leaves set timers, a return to the initial state and a merge only drop some, and what a
merge takes out is forgotten. A timer that is taken is delivered to the leaf that set it, whatever the
leaves do, unless a node on the way has finished.
-/

namespace EventTime

open Attempt (Keeps)

/-- Every timer of the sheet is a timer of a leaf. -/
def Sheet.Owned (t : Trigger) (sh : Sheet) : Prop := ∀ p ∈ sh.timers, p.2 ∈ t.leavesFrom 0

namespace Sheets

variable {t : Trigger} {w : Window} {σ σ' : Sheets}

/-- Every timer is a timer of a leaf, also in the windows being merged. -/
structure Owned (t : Trigger) (σ : Sheets) : Prop where
  windows : ∀ w sh, σ.windows.find? w = some sh → sh.Owned t
  merging : ∀ w sh, σ.merging.find? w = some sh → sh.Owned t

theorem Owned.sheetAt (h : σ.Owned t) (w : Window) : (σ.sheetAt w).Owned t := by
  rw [Sheets.sheetAt]
  cases hw : σ.windows.find? w with
  | none => exact fun p hp => absurd hp (Finset.notMem_empty p)
  | some sh => exact h.windows w sh hw

theorem Owned.mem_leaves (h : σ.Owned t) {a : Timer} (ha : σ.Pending a) :
    a.node ∈ t.leavesFrom 0 := by
  obtain ⟨sh, hsh, hmem⟩ := ha
  exact h.windows a.window sh hsh _ hmem

theorem keeps_owned_write {g : Sheet → Sheet} (hg : ∀ sh, sh.Owned t → (g sh).Owned t) :
    Keeps (Owned t) (write w g) := by
  refine fun σ h => ⟨fun v sh hsh => ?_, h.merging⟩
  rw [begin_write, WindowMap.find?_insert] at hsh
  split at hsh
  · obtain rfl := Option.some.inj hsh
    exact hg _ (h.sheetAt w)
  · exact h.windows v sh hsh

theorem keeps_owned_amend {g : Sheet → Sheet} (hg : ∀ sh, sh.Owned t → (g sh).Owned t) :
    Keeps (Owned t) (amend w g) := by
  refine fun σ h => ⟨fun v sh hsh => ?_, h.merging⟩
  rw [begin_amend, WindowMap.find?_modify] at hsh
  split at hsh
  · obtain ⟨old, hold, rfl⟩ := Option.map_eq_some_iff.mp hsh
    exact hg _ (h.windows v old hold)
  · exact h.windows v sh hsh

theorem owned_of_subset {sh sh' : Sheet} (h : sh'.timers ⊆ sh.timers) (howned : sh.Owned t) :
    sh'.Owned t :=
  fun p hp => howned p (h hp)

/-- To finish a node or to start over drops timers at most. -/
theorem steady_owned : Steady w (Owned t) where
  finish _ := keeps_owned_write fun _ => owned_of_subset (Finset.Subset.refl _)
  reset _ _ := keeps_owned_write fun _ => owned_of_subset (Finset.filter_subset ..)

theorem keeps_owned_perform {node : Nat} (hnode : node ∈ t.leavesFrom 0) (change : Write) :
    Keeps (Owned t) (perform w node change) := by
  cases change with
  | setCounter value =>
    exact keeps_owned_write fun _ => owned_of_subset (Finset.Subset.refl _)
  | setTimer timestamp =>
    refine keeps_owned_write fun sh h p hp => ?_
    rcases Finset.mem_insert.mp hp with rfl | hp
    · exact hnode
    · exact h p hp
  | deleteTimer timestamp =>
    exact keeps_owned_amend fun _ => owned_of_subset (Finset.erase_subset ..)

theorem keeps_owned_react {ρ : Type} {node : Nat} (hnode : node ∈ t.leavesFrom 0)
    (reaction : Cell → Reaction ρ) : Keeps (Owned t) (react w node reaction) := by
  have hall (changes : List Write) : Keeps (Owned t) (performAll w node changes) := by
    induction changes with
    | nil => exact Attempt.keeps_pure ()
    | cons change rest ih => exact (keeps_owned_perform hnode change).bind fun _ => ih
  have hread : Keeps (Owned t) (read w (·.counter node)) := Attempt.keeps_quiet fun _ => rfl
  exact hread.bind fun _ => (hall _).bind fun _ => Attempt.keeps_quiet fun _ => rfl

theorem Owned.take (h : σ.Owned t) (w : Window) : (σ.take w).Owned t := by
  refine ⟨fun v sh hsh => ?_, fun v sh hsh => ?_⟩
  · rw [Sheets.take, WindowMap.find?_erase] at hsh
    exact h.windows v sh (Option.ite_none_left_eq_some.mp hsh).2
  · rw [Sheets.take, WindowMap.find?_insert] at hsh
    split at hsh
    · obtain rfl := Option.some.inj hsh
      exact h.sheetAt w
    · exact h.merging v sh hsh

theorem Owned.forget (h : σ.Owned t) : Owned t { σ with merging := .empty } :=
  ⟨h.windows, nofun⟩

theorem keeps_owned_takeAll (olds : List Window) : Keeps (Owned t) (takeAll olds) := by
  intro σ h
  show Owned t (olds.foldl Sheets.take { σ with merging := .empty })
  have hstart := h.forget
  generalize ({ σ with merging := .empty } : Sheets) = σ₀ at hstart ⊢
  induction olds generalizing σ₀ with
  | nil => exact hstart
  | cons w rest ih => exact ih _ (hstart.take w)

/-- A transaction that succeeds does what its action does, and one that fails does nothing. -/
theorem Transactional.owned {ρ : Type} {windows : List Window} {a : Attempt Sheets ρ}
    (ha : Transactional (transact windows a) σ) (h : σ.Owned t) (hkeeps : Keeps (Owned t) a) :
    ((transact windows a).begin σ).2.Owned t := by
  rcases hbegin : a.begin σ with ⟨fault | x, σ'⟩
  · have hfailed := begin_transact_error windows hbegin
    rwa [ha.undone fault (congrArg Prod.fst hfailed)]
  · rw [begin_transact_ok windows hbegin]
    exact (congrArg Prod.snd hbegin).symm ▸ hkeeps σ h

open Behaviour

theorem Owned.element (h : σ.Owned t) (hσ : σ.merging = .empty) (e : ElementEvent) :
    ((own.element t e).begin σ).2.Owned t :=
  (local_own.transactional_element hσ e).owned h <| steady_owned.offer <|
    t.keeps_visitElement steady_owned e 0 fun l n hn => keeps_owned_react hn (l.onElement n e)

theorem Owned.merge (h : σ.Owned t) (hσ : σ.merging = .empty) (m : Merge) :
    ((own.merge t m).begin σ).2.Owned t := by
  have hleaf : ∀ l, ∀ n ∈ t.leavesFrom 0, Keeps (Owned t) (own.onMerge m.into l n m) := by
    intro l n hn
    have hread : Keeps (Owned t) (mergingCells n) := Attempt.keeps_quiet fun _ => rfl
    exact hread.bind fun olds => keeps_owned_react hn (l.onMerge n m olds)
  have hvisit : Keeps (Owned t) (Sheets.merge m.into 0 (t.visitMerge own m.into m 0)) :=
    steady_owned.merge (t.keeps_visitMerge steady_owned m 0 hleaf)
  have hmerge := (keeps_owned_takeAll m.olds).bind fun _ => hvisit
  exact (local_own.transactional_merge hσ m).owned h fun σ h => (hmerge σ h).forget

theorem Owned.timer (h : σ.Owned t) (hσ : σ.merging = .empty) (e : TimerEvent) :
    ((own.timer t e).begin σ).2.Owned t := by
  by_cases hlive : σ.windows.contains e.window = true
  · have hbegin : (own.timer t e).begin σ = _ := if_pos hlive
    have htransactional := local_own.transactional_timer (t := t) hσ e
    rw [hbegin]
    exact Transactional.owned ⟨hbegin ▸ htransactional.undone, hbegin ▸ htransactional.merging⟩ h <|
      steady_owned.offer <| t.keeps_visitTimer steady_owned e 0 fun l n hn =>
        keeps_owned_react hn (l.onTimer n e)
  · have hbegin : (own.timer t e).begin σ = (.ok .idle, σ) := if_neg hlive
    rw [hbegin]
    exact h

theorem Owned.cancel (h : σ.Owned t) (a : Timer) : (σ.cancel a).Owned t :=
  keeps_owned_amend (fun _ => owned_of_subset (Finset.erase_subset ..)) σ h

/-- Forget everything about a window. -/
def clear (σ : Sheets) (w : Window) : Sheets := { σ with windows := σ.windows.erase w }

theorem Owned.clear (h : σ.Owned t) (w : Window) : (σ.clear w).Owned t := by
  refine ⟨fun v sh hsh => ?_, h.merging⟩
  rw [Sheets.clear, WindowMap.find?_erase] at hsh
  exact h.windows v sh (Option.ite_none_left_eq_some.mp hsh).2

end Sheets

namespace Trigger

open Sheets Behaviour

variable {t : Trigger} {σ : Sheets} {s : TriggerState t} {w : Window}

/-! ### Sheets that events reach -/

/-- The sheets that events reach from blank ones, whether they succeed or fail, where timers may be
dropped and windows forgotten in between. -/
inductive Reached (t : Trigger) : Sheets → Prop
  | blank : Reached t ⟨.empty, .empty⟩
  | element {σ : Sheets} (hσ : Reached t σ) (e : ElementEvent) :
    Reached t ((own.element t e).begin σ).2
  | merge {σ : Sheets} (hσ : Reached t σ) (m : Merge) : Reached t ((own.merge t m).begin σ).2
  | timer {σ : Sheets} (hσ : Reached t σ) (e : TimerEvent) : Reached t ((own.timer t e).begin σ).2
  | cancel {σ : Sheets} (hσ : Reached t σ) (a : Timer) : Reached t (σ.cancel a)
  | clear {σ : Sheets} (hσ : Reached t σ) (w : Window) : Reached t (σ.clear w)

theorem Reached.merging (h : t.Reached σ) : σ.merging = .empty := by
  induction h with
  | blank => rfl
  | element _ e ih => exact (local_own.transactional_element ih e).merging
  | merge _ m ih => exact (local_own.transactional_merge ih m).merging
  | timer _ e ih => exact (local_own.transactional_timer ih e).merging
  | cancel _ a ih => exact ih
  | clear _ w ih => exact ih

theorem Reached.owned (h : t.Reached σ) : σ.Owned t := by
  induction h with
  | blank => exact ⟨nofun, nofun⟩
  | element hσ e ih => exact ih.element hσ.merging e
  | merge hσ m ih => exact ih.merge hσ.merging m
  | timer hσ e ih => exact ih.timer hσ.merging e
  | cancel _ a ih => exact ih.cancel a
  | clear _ w ih => exact ih.clear w

theorem Holds.clear (h : t.Holds σ s) (w : Window) : t.Holds (σ.clear w) (s.erase w) := by
  intro v
  rw [WindowMap.find?_erase, Sheets.clear, WindowMap.find?_erase, h v]
  split <;> rfl

/-- Sheets that events reach hold a state that events reach. -/
theorem Reached.exists_state (h : t.Reached σ) :
    ∃ s : TriggerState t, TriggerState.Reachable s ∧ t.Holds σ s := by
  induction h with
  | blank => exact ⟨.empty, .empty, fun _ => rfl⟩
  | element hσ e ih =>
    obtain ⟨s, hs, h⟩ := ih
    exact ⟨_, hs.element e, (h.element hσ.merging e).state⟩
  | merge hσ m ih =>
    obtain ⟨s, hs, h⟩ := ih
    exact ⟨_, hs.merge m, (h.merge hσ.merging m).state⟩
  | timer hσ e ih =>
    obtain ⟨s, hs, h⟩ := ih
    exact ⟨_, hs.timer e, (h.timer hσ.merging e).state⟩
  | cancel _ a ih =>
    obtain ⟨s, hs, h⟩ := ih
    exact ⟨_, hs.cancel a, h.cancel a⟩
  | clear _ w ih =>
    obtain ⟨s, hs, h⟩ := ih
    exact ⟨_, hs.clear w, h.clear w⟩

/-- A state that events reach is held by sheets that events reach. -/
theorem exists_reached (hs : TriggerState.Reachable s) : ∃ σ, t.Reached σ ∧ t.Holds σ s := by
  induction hs with
  | empty => exact ⟨_, .blank, fun _ => rfl⟩
  | element _ e ih =>
    obtain ⟨σ, hσ, h⟩ := ih
    exact ⟨_, hσ.element e, (h.element hσ.merging e).state⟩
  | merge _ m ih =>
    obtain ⟨σ, hσ, h⟩ := ih
    exact ⟨_, hσ.merge m, (h.merge hσ.merging m).state⟩
  | timer _ e ih =>
    obtain ⟨σ, hσ, h⟩ := ih
    exact ⟨_, hσ.timer e, (h.timer hσ.merging e).state⟩
  | cancel _ a ih =>
    obtain ⟨σ, hσ, h⟩ := ih
    exact ⟨_, hσ.cancel a, h.cancel a⟩
  | clear _ w ih =>
    obtain ⟨σ, hσ, h⟩ := ih
    exact ⟨_, hσ.clear w, h.clear w⟩

/-! ### The way to a leaf -/

/-- A node has finished, on some sheet. -/
abbrev FinishedOn (σ : Sheets) (w : Window) (node : Nat) : Prop :=
  (σ.sheetAt w).finished node = true

/-- Routed to a leaf, whatever leaves do: if the way is barred nothing happens, and otherwise the
leaf reacts and no other leaf has a part in what follows. -/
structure Routes (run : Behaviour → Attempt Sheets Outcome) (w : Window) (e : TimerEvent)
    (σ : Sheets) (bar : Prop) : Prop where
  barred : bar → ∀ β, (run β).begin σ = (.ok .idle, σ)
  free : ¬bar → ∃ (l : Leaf) (after : Outcome → Attempt Sheets Outcome), ∀ β : Behaviour,
    (run β).begin σ = Attempt.begin (β.onTimer w l e.destination e >>= after) σ

variable {run : Behaviour → Attempt Sheets Outcome} {e : TimerEvent} {bar bar' : Prop}

theorem Routes.congr (h : Routes run w e σ bar) (hiff : bar' ↔ bar) : Routes run w e σ bar' :=
  ⟨fun hb => h.barred (hiff.mp hb), fun hb => h.free fun hb' => hb (hiff.mpr hb')⟩

theorem Routes.bind (h : Routes run w e σ bar) {f : Outcome → Attempt Sheets Outcome}
    (hidle : (f .idle).begin σ = (.ok .idle, σ)) : Routes (fun β => run β >>= f) w e σ bar where
  barred hb β := (Attempt.begin_bind (h.barred hb β) f).trans hidle
  free hb := by
    obtain ⟨l, after, hafter⟩ := h.free hb
    refine ⟨l, fun o => after o >>= f, fun β => ?_⟩
    rw [← bind_assoc]
    exact Attempt.begin_bind_congr (hafter β) f

theorem Routes.offer (h : Routes run w e σ bar) (node : Nat) :
    Routes (fun β => Sheets.offer w node (run β)) w e σ (FinishedOn σ w node ∨ bar) := by
  cases hfinished : (σ.sheetAt w).finished node with
  | true =>
    have hpass (β : Behaviour) : (Sheets.offer w node (run β)).begin σ = (.ok .idle, σ) := by
      refine (begin_read_bind ..).trans ?_
      rw [hfinished]
      rfl
    exact ⟨fun _ => hpass, fun hb => absurd (.inl hfinished) hb⟩
  | false =>
    have hconsult (β : Behaviour) : (Sheets.offer w node (run β)).begin σ = Attempt.begin (do
        let o ← run β
        settle w node o.finishes
        return o) σ := by
      refine (begin_read_bind ..).trans ?_
      rw [hfinished]
      rfl
    have hsettled := h.bind (f := fun o => do
      settle w node o.finishes
      return o) rfl
    have hbar : FinishedOn σ w node ∨ bar ↔ bar := or_iff_right (by simp [hfinished])
    refine Routes.congr ⟨fun hb β => (hconsult β).trans (hsettled.barred hb β), fun hb => ?_⟩ hbar
    obtain ⟨l, after, hafter⟩ := hsettled.free hb
    exact ⟨l, after, fun β => (hconsult β).trans (hafter β)⟩

/-- Some row among those of a tree below its root has finished and has `d` in its subtree. -/
abbrev BarredBelow (t : Trigger) (node : Nat) (σ : Sheets) (w : Window) (d : Nat) : Prop :=
  Above (t.arenaFrom node).tail (node + 1) (FinishedOn σ w) d

theorem above_iff_root {node d : Nat} (hd : Leads t node d) :
    Above (t.arenaFrom node) node (FinishedOn σ w) d ↔
      FinishedOn σ w node ∨ t.BarredBelow node σ w d := by
  rw [arenaFrom_eq_cons]
  exact above_cons hd

mutual

/-- A timer that is addressed to a leaf is routed to that leaf. -/
theorem visitTimer_routes (e : TimerEvent) (w : Window) (σ : Sheets) : (t : Trigger) →
    (node : Nat) → e.destination ∈ t.leavesFrom node →
      Routes (fun β => t.visitTimer β w e node) w e σ (t.BarredBelow node σ w e.destination)
  | .leaf l, node, hd => by
    obtain rfl := List.mem_singleton.mp hd
    refine ⟨?_, fun _ => ⟨l, pure, fun β => ?_⟩⟩
    · rintro ⟨i, r, hr, -⟩
      cases hr
    · rw [bind_pure]
      rfl
  | .afterFirst ts, node, hd => by
    have hb := bounds_of_mem_leavesAmong ts (node + 1) hd
    have hne : ¬e.destination = node := by omega
    have hroutes := visitTimerAmong_routes e w σ node ts (node + 1) hd
    have hvisit (β : Behaviour) : (Trigger.afterFirst ts).visitTimer β w e node =
        visitTimerAmong β w e node ts (node + 1) := if_neg hne
    simp only [hvisit]
    exact hroutes
  | .repeatedly t, node, hd => by
    have hl : Leads t (node + 1) e.destination := leads_of_mem_leavesFrom t (node + 1) hd
    have hne : ¬e.destination = node := by have := hl.1; omega
    have hc := (visitTimer_routes e w σ t (node + 1) hd).offer (node + 1)
    have hvisit (β : Behaviour) : (Trigger.repeatedly t).visitTimer β w e node = (do
        let o ← Sheets.offer w (node + 1) (visitTimer β w e t (node + 1))
        restart w (node + 1) (node + 1 + t.size) o.finishes
        return if o.fires then .fire else .idle) := if_neg hne
    simp only [hvisit]
    exact (hc.bind rfl).congr (above_iff_root hl)
  | .orFinally a b, node, hd => by
    have hbelow : (Trigger.orFinally a b).BarredBelow node σ w e.destination ↔ _ :=
      above_append (a.arenaFrom (node + 1))
    rw [length_arenaFrom] at hbelow
    rcases List.mem_append.mp hd with hd | hd
    · have hl := leads_of_mem_leavesFrom a (node + 1) hd
      have hne : ¬e.destination = node := by have := hl.1; omega
      have hvisit (β : Behaviour) : (Trigger.orFinally a b).visitTimer β w e node =
          Sheets.offer w (node + 1) (a.visitTimer β w e (node + 1)) :=
        (if_neg hne).trans (if_pos hl)
      simp only [hvisit]
      refine ((visitTimer_routes e w σ a (node + 1) hd).offer (node + 1)).congr (hbelow.trans ?_)
      rw [or_iff_left (not_above_of_lt hl.2)]
      exact above_iff_root hl
    · have hl := leads_of_mem_leavesFrom b (node + 1 + a.size) hd
      have hne : ¬e.destination = node := by have := hl.1; omega
      have hna : ¬Leads a (node + 1) e.destination := fun ha => Nat.not_lt.mpr hl.1 ha.2
      have hvisit (β : Behaviour) : (Trigger.orFinally a b).visitTimer β w e node = (do
          let o ← Sheets.offer w (node + 1 + a.size) (b.visitTimer β w e (node + 1 + a.size))
          return if o.fires then .fireAndFinish else o) :=
        (if_neg hne).trans ((if_neg hna).trans (if_pos hl))
      simp only [hvisit]
      have hc := (visitTimer_routes e w σ b (node + 1 + a.size) hd).offer (node + 1 + a.size)
      refine (hc.bind rfl).congr (hbelow.trans ?_)
      rw [or_iff_right (not_above_of_ge hl.1)]
      exact above_iff_root hl

theorem visitTimerAmong_routes (e : TimerEvent) (w : Window) (σ : Sheets) (parent : Nat) :
    (ts : List Trigger) → (node : Nat) → e.destination ∈ leavesAmong ts node →
      Routes (fun β => visitTimerAmong β w e parent ts node) w e σ
        (Above (arenaAmong node ts) node (FinishedOn σ w) e.destination)
  | [], _, hd => by cases hd
  | t :: ts, node, hd => by
    have hamong : Above (arenaAmong node (t :: ts)) node (FinishedOn σ w) e.destination ↔ _ :=
      above_append (t.arenaFrom node)
    rw [length_arenaFrom] at hamong
    rcases List.mem_append.mp hd with hd | hd
    · have hl := leads_of_mem_leavesFrom t node hd
      have hvisit (β : Behaviour) : visitTimerAmong β w e parent (t :: ts) node = (do
          let o ← Sheets.offer w node (t.visitTimer β w e node)
          return if o.fires then .fireAndFinish else .idle) := if_pos hl
      simp only [hvisit]
      have hc := (visitTimer_routes e w σ t node hd).offer node
      refine (hc.bind rfl).congr (hamong.trans ?_)
      rw [or_iff_left (not_above_of_lt hl.2)]
      exact above_iff_root hl
    · have hb := bounds_of_mem_leavesAmong ts (node + t.size) hd
      have hvisit (β : Behaviour) : visitTimerAmong β w e parent (t :: ts) node =
          visitTimerAmong β w e parent ts (node + t.size) :=
        if_neg fun hl : Leads t node e.destination => Nat.not_lt.mpr hb.1 hl.2
      simp only [hvisit]
      refine (visitTimerAmong_routes e w σ parent ts (node + t.size) hd).congr (hamong.trans ?_)
      rw [or_iff_right (not_above_of_ge hb.1)]

end

/-- A node on the way from the root to the node `d` has finished in a window. The nodes on the way
are those that have `d` in their subtree. -/
def BarredOn (t : Trigger) (σ : Sheets) (w : Window) (d : Nat) : Prop :=
  ∃ i r, t.arena[i]? = some r ∧ i ≤ d ∧ d < r.stop ∧ (σ.sheetAt w).finished i = true

theorem barredOn_iff {d : Nat} :
    t.BarredOn σ w d ↔ Above (t.arenaFrom 0) 0 (FinishedOn σ w) d := by
  simp only [BarredOn, Above, Nat.zero_add, arena]
  constructor
  · rintro ⟨i, r, hr, hle, hlt, hfinished⟩
    exact ⟨i, r, hr, hfinished, hle, hlt⟩
  · rintro ⟨i, r, hr, hfinished, hle, hlt⟩
    exact ⟨i, r, hr, hle, hlt, hfinished⟩

/-- What becomes of a timer that has been taken: if a node on the way to its leaf has finished,
nothing, whatever leaves do; otherwise that leaf reacts, and no other leaf has a part in it. -/
structure DeliversOn (t : Trigger) (σ : Sheets) (a : Timer) : Prop where
  answers : ∃ o, ((own.timer t a.event).begin σ).1 = .ok o
  barred : t.BarredOn σ a.window a.node → ∀ β : Behaviour,
    (β.timer t a.event).begin σ = (.ok .idle, σ)
  free : ¬t.BarredOn σ a.window a.node →
    ∃ (l : Leaf) (after : Outcome → Attempt Sheets Outcome), ∀ β : Behaviour,
      (β.timer t a.event).begin σ =
        (transact [a.window] (β.onTimer a.window l a.node a.event >>= after)).begin σ

theorem begin_transact_congr {ρ : Type} {windows : List Window} {a b : Attempt Sheets ρ}
    (h : a.begin σ = b.begin σ) : (transact windows a).begin σ = (transact windows b).begin σ := by
  simp only [transact, Attempt.begin, Attempt.of] at h ⊢
  rw [h]

theorem Reached.answers (hσ : t.Reached σ) (ht : t.isBuiltIn = true) :
    (∀ e, ∃ o, ((own.element t e).begin σ).1 = .ok o) ∧
      ∀ m, ∃ o, ((own.merge t m).begin σ).1 = .ok o := by
  obtain ⟨s, -, hs⟩ := hσ.exists_state
  refine ⟨fun e => ?_, fun m => ?_⟩
  · obtain ⟨o, s', h⟩ := s.element_answers e ht
    exact ⟨o, (hs.element hσ.merging e).answer.trans (congrArg Prod.fst h)⟩
  · obtain ⟨o, s', h⟩ := s.merge_answers m ht
    exact ⟨o, (hs.merge hσ.merging m).answer.trans (congrArg Prod.fst h)⟩

/-- On sheets that events reach, a timer that is taken is delivered to the leaf that set it. -/
theorem Reached.delivers (hσ : t.Reached σ) (ht : t.isBuiltIn = true)
    {order : List (Window × Sheet)} (horder : order.Perm σ.windows.entries) {watermark : Int}
    {a : Timer} (ha : (σ.popDue order watermark).1 = some a) :
    t.DeliversOn (σ.popDue order watermark).2 a := by
  obtain ⟨⟨hpending, -⟩, -⟩ : (σ.Pending a ∧ a.timestamp < watermark) ∧ _ :=
    ha ▸ isFirst_popDue horder watermark
  have hleaf := hσ.owned.mem_leaves hpending
  obtain ⟨s, -, hs⟩ := hσ.exists_state
  have hmem : a ∈ s.timers := (hs.pending_iff (fun _ => hσ.owned.mem_leaves) a).mpr hpending
  obtain ⟨o, s', htimer, -⟩ := TriggerState.timer_answers hmem ht
  have hperforms := (hs.cancel a).timer (e := a.event) (hσ.cancel a).merging
  have hlive : (σ.cancel a).windows.contains a.event.window = true := by
    obtain ⟨sh, hsh, -⟩ := hpending
    have hfind : (σ.cancel a).windows.find? a.window = _ := WindowMap.find?_modify ..
    rw [if_pos rfl, hsh] at hfind
    exact WindowMap.contains_iff.mpr ⟨_, hfind⟩
  have hbegin (β : Behaviour) : (β.timer t a.event).begin (σ.cancel a) =
      (transact [a.window] (Sheets.offer a.window 0 (t.visitTimer β a.window a.event 0))).begin
        (σ.cancel a) := if_pos hlive
  have hroutes := ((visitTimer_routes a.event a.window (σ.cancel a) t 0 hleaf).offer 0).congr
    (barredOn_iff.trans (above_iff_root (leads_of_mem_leavesFrom t 0 hleaf)))
  rw [popDue_of_some ha]
  refine ⟨⟨o, hperforms.answer.trans (congrArg Prod.fst htimer)⟩, fun hb β => ?_, fun hb => ?_⟩
  · exact (hbegin β).trans (begin_transact_ok _ (hroutes.barred hb β))
  · obtain ⟨l, after, hafter⟩ := hroutes.free hb
    exact ⟨l, after, fun β => (hbegin β).trans (begin_transact_congr (hafter β))⟩

end Trigger

end EventTime
