import EventTime.Trigger.Policies
import EventTime.Proofs.Trigger.Locality

/-!
# Transactions on sheets

On sheets an event is a transaction. The sheets of the windows it is about are saved; a merge then
takes those of the old windows out, to be merged, and forgets them when it ends; an event that fails
puts the saved sheets back. So whatever the leaves of a tree do in their window, be it to nodes of
other subtrees, an event that fails leaves all sheets as they were, and after every event nothing is
left to be merged.
-/

namespace EventTime

open Attempt (Keeps)

namespace Sheets

variable {ρ : Type} {w : Window} {node lo hi : Nat} {I : Sheets → Prop}

/-- A property that no finished bit and no return of a subtree to its initial state breaks, in one
window. -/
structure Steady (w : Window) (I : Sheets → Prop) : Prop where
  finish (node : Nat) : Keeps I (write w (·.finish node))
  reset (lo hi : Nat) : Keeps I (reset w lo hi)

theorem Steady.settle (h : Steady w I) (finishes : Bool) : Keeps I (settle w node finishes) := by
  rw [Sheets.settle]
  split
  · exact h.finish node
  · exact Attempt.keeps_pure ()

theorem Steady.restart (h : Steady w I) (finishes : Bool) : Keeps I (restart w lo hi finishes) := by
  rw [Sheets.restart]
  split
  · exact h.reset lo hi
  · exact Attempt.keeps_pure ()

theorem Steady.offer (h : Steady w I) {visit : Attempt Sheets Outcome} (hvisit : Keeps I visit) :
    Keeps I (offer w node visit) := by
  have hread : Keeps I (read w (·.finished node)) := Attempt.keeps_quiet fun _ => rfl
  refine hread.bind fun finished => ?_
  split
  · exact Attempt.keeps_pure _
  · exact hvisit.bind fun o => (h.settle _).bind fun _ => Attempt.keeps_pure o

theorem Steady.merge (h : Steady w I) {visit : Attempt Sheets MergeOutcome}
    (hvisit : Keeps I visit) : Keeps I (merge w node visit) := by
  have hread : Keeps I (finishedMerging node) := Attempt.keeps_quiet fun _ => rfl
  refine hread.bind fun finished => ?_
  split
  · exact (h.settle true).bind fun _ => Attempt.keeps_pure _
  · exact hvisit.bind fun o => (h.settle _).bind fun _ => Attempt.keeps_pure o

/-- What a child does, and what its outcome makes of it. -/
theorem Steady.repeated (h : Steady w I) {a : Attempt Sheets ρ} (ha : Keeps I a)
    (finishes : ρ → Bool) (answer : ρ → ρ) : Keeps I (do
      let o ← a
      Sheets.restart w lo hi (finishes o)
      return answer o) :=
  ha.bind fun o => (h.restart (finishes o)).bind fun _ => Attempt.keeps_pure (answer o)

end Sheets

namespace Trigger

open Sheets

variable {β : Behaviour} {w : Window} {I : Sheets → Prop}

/-! What the leaves of a tree keep, the composites keep. -/

mutual

theorem keeps_visitElement (h : Steady w I) (e : ElementEvent) : (t : Trigger) → (node : Nat) →
    (∀ l, ∀ n ∈ t.leavesFrom node, Keeps I (β.onElement w l n e)) →
      Keeps I (t.visitElement β w e node)
  | .leaf l, node, hleaf => hleaf l node (List.mem_singleton_self node)
  | .afterFirst ts, node, hleaf => keeps_visitElementAmong h e ts (node + 1) hleaf
  | .repeatedly t, node, hleaf =>
    h.repeated (h.offer (keeps_visitElement h e t (node + 1) hleaf)) _ _
  | .orFinally a b, node, hleaf => by
    have ha := keeps_visitElement h e a (node + 1) fun l n hn =>
      hleaf l n (List.mem_append_left _ hn)
    have hb := keeps_visitElement h e b (node + 1 + a.size) fun l n hn =>
      hleaf l n (List.mem_append_right _ hn)
    exact (h.offer ha).bind fun _ => (h.offer hb).bind fun _ => Attempt.keeps_pure _

theorem keeps_visitElementAmong (h : Steady w I) (e : ElementEvent) : (ts : List Trigger) →
    (node : Nat) → (∀ l, ∀ n ∈ leavesAmong ts node, Keeps I (β.onElement w l n e)) →
      Keeps I (visitElementAmong β w e ts node)
  | [], _, _ => Attempt.keeps_pure _
  | t :: ts, node, hleaf => by
    have ht := keeps_visitElement h e t node fun l n hn => hleaf l n (List.mem_append_left _ hn)
    have hts := keeps_visitElementAmong h e ts (node + t.size) fun l n hn =>
      hleaf l n (List.mem_append_right _ hn)
    refine (h.offer ht).bind fun o => ?_
    split
    · exact Attempt.keeps_pure _
    · exact hts

end

mutual

theorem keeps_visitMerge (h : Steady w I) (e : Merge) : (t : Trigger) → (node : Nat) →
    (∀ l, ∀ n ∈ t.leavesFrom node, Keeps I (β.onMerge w l n e)) →
      Keeps I (t.visitMerge β w e node)
  | .leaf l, node, hleaf => hleaf l node (List.mem_singleton_self node)
  | .afterFirst ts, node, hleaf => keeps_visitMergeAmong h e ts (node + 1) false hleaf
  | .repeatedly t, node, hleaf =>
    h.repeated (h.merge (keeps_visitMerge h e t (node + 1) hleaf)) _ _
  | .orFinally a b, node, hleaf => by
    have ha := keeps_visitMerge h e a (node + 1) fun l n hn =>
      hleaf l n (List.mem_append_left _ hn)
    have hb := keeps_visitMerge h e b (node + 1 + a.size) fun l n hn =>
      hleaf l n (List.mem_append_right _ hn)
    exact (h.merge ha).bind fun _ => (h.merge hb).bind fun _ => Attempt.keeps_pure _

theorem keeps_visitMergeAmong (h : Steady w I) (e : Merge) : (ts : List Trigger) →
    (node : Nat) → (fired : Bool) →
    (∀ l, ∀ n ∈ leavesAmong ts node, Keeps I (β.onMerge w l n e)) →
      Keeps I (visitMergeAmong β w e ts node fired)
  | [], _, _, _ => Attempt.keeps_pure _
  | t :: ts, node, fired, hleaf => by
    have ht := keeps_visitMerge h e t node fun l n hn => hleaf l n (List.mem_append_left _ hn)
    have hts (fired : Bool) := keeps_visitMergeAmong h e ts (node + t.size) fired fun l n hn =>
      hleaf l n (List.mem_append_right _ hn)
    refine (h.merge ht).bind fun o => ?_
    split
    · exact Attempt.keeps_pure _
    · exact hts _

end

mutual

theorem keeps_visitTimer (h : Steady w I) (e : TimerEvent) : (t : Trigger) → (node : Nat) →
    (∀ l, ∀ n ∈ t.leavesFrom node, Keeps I (β.onTimer w l n e)) →
      Keeps I (t.visitTimer β w e node)
  | .leaf l, node, hleaf => hleaf l node (List.mem_singleton_self node)
  | .afterFirst ts, node, hleaf => by
    rw [visitTimer]
    split
    · exact Attempt.keeps_throw _
    · exact keeps_visitTimerAmong h e node ts (node + 1) hleaf
  | .repeatedly t, node, hleaf => by
    rw [visitTimer]
    split
    · exact Attempt.keeps_throw _
    · exact h.repeated (h.offer (keeps_visitTimer h e t (node + 1) hleaf)) _ _
  | .orFinally a b, node, hleaf => by
    have ha := keeps_visitTimer h e a (node + 1) fun l n hn =>
      hleaf l n (List.mem_append_left _ hn)
    have hb := keeps_visitTimer h e b (node + 1 + a.size) fun l n hn =>
      hleaf l n (List.mem_append_right _ hn)
    rw [visitTimer]
    split
    · exact Attempt.keeps_throw _
    · split
      · exact h.offer ha
      · split
        · exact (h.offer hb).bind fun _ => Attempt.keeps_pure _
        · exact Attempt.keeps_throw _

theorem keeps_visitTimerAmong (h : Steady w I) (e : TimerEvent) (parent : Nat) :
    (ts : List Trigger) → (node : Nat) →
    (∀ l, ∀ n ∈ leavesAmong ts node, Keeps I (β.onTimer w l n e)) →
      Keeps I (visitTimerAmong β w e parent ts node)
  | [], _, _ => Attempt.keeps_throw _
  | t :: ts, node, hleaf => by
    have ht := keeps_visitTimer h e t node fun l n hn => hleaf l n (List.mem_append_left _ hn)
    have hts := keeps_visitTimerAmong h e parent ts (node + t.size) fun l n hn =>
      hleaf l n (List.mem_append_right _ hn)
    rw [visitTimerAmong]
    split
    · exact (h.offer ht).bind fun _ => Attempt.keeps_pure _
    · exact hts

end

end Trigger

namespace Sheets

variable {ρ τ : Type} {w : Window} {a : Attempt Sheets ρ} {σ : Sheets}

/-! ### Acting in one window -/

/-- Sheets that differ from others in one window at most. -/
structure SameBut (w : Window) (σ σ' : Sheets) : Prop where
  windows : ∀ v, v ≠ w → σ'.windows.find? v = σ.windows.find? v
  merging : σ'.merging = σ.merging

/-- An action changes the sheet of one window at most, and nothing that is being merged. -/
def Local (w : Window) (a : Attempt Sheets ρ) : Prop := ∀ σ, Keeps (SameBut w σ) a

theorem Local.sameBut (h : Local w a) (σ : Sheets) : SameBut w σ (a.begin σ).2 :=
  h σ σ ⟨fun _ _ => rfl, rfl⟩

theorem local_of_sameBut (h : ∀ σ, SameBut w σ (a.begin σ).2) : Local w a := fun _ σ' hσ =>
  ⟨fun v hv => ((h σ').windows v hv).trans (hσ.windows v hv), (h σ').merging.trans hσ.merging⟩

theorem Local.bind {f : ρ → Attempt Sheets τ} (ha : Local w a) (hf : ∀ x, Local w (f x)) :
    Local w (a >>= f) :=
  fun σ => (ha σ).bind fun x => hf x σ

/-- What is confined to some nodes of a window is confined to the window. -/
theorem Confined.local {lo hi : Nat} {alike : WindowMap Sheet → WindowMap Sheet → Prop}
    (h : Confined w lo hi alike a) : Local w a :=
  local_of_sameBut fun σ => ⟨h.windows σ, h.merging σ⟩

theorem steady_sameBut (σ : Sheets) : Steady w (SameBut w σ) where
  finish node :=
    Confined.local (confined_write (Sheet.within_finish node) : Confined _ _ _ AnyMerging _) σ
  reset _ _ := Confined.local (confined_reset : Confined _ _ _ AnyMerging _) σ

def saved (σ : Sheets) (windows : List Window) : List (Window × Option Sheet) :=
  windows.map fun w => (w, σ.windows.find? w)

/-- Put saved sheets back, the last one first, and forget what is being merged. -/
def restore (σ : Sheets) (saved : List (Window × Option Sheet)) : Sheets where
  windows := saved.foldr (fun p m => m.set p.1 p.2) σ.windows
  merging := .empty

/-- Act, and put the sheets of some windows back as they were if that fails. -/
def transact (windows : List Window) (a : Attempt Sheets ρ) : Attempt Sheets ρ := .of fun σ =>
  match a.begin σ with
  | (.ok x, σ') => (.ok x, σ')
  | (.error fault, σ') => (.error fault, σ'.restore (σ.saved windows))

/-- Act, and forget what is being merged, whether that succeeds or fails. -/
def forgetMerging (a : Attempt Sheets ρ) : Attempt Sheets ρ := .of fun σ =>
  ((a.begin σ).1, { (a.begin σ).2 with merging := .empty })

/-- Take the sheet of a window out, to be merged. A window that is taken again hands over a blank
one. -/
def take (σ : Sheets) (w : Window) : Sheets where
  windows := σ.windows.erase w
  merging := σ.merging.insert w (σ.sheetAt w)

def takeAll (olds : List Window) : Attempt Sheets Unit :=
  modify fun σ => olds.foldl take { σ with merging := .empty }

theorem windows_foldl_take (olds : List Window) (σ : Sheets) :
    (olds.foldl take σ).windows = olds.foldl WindowMap.erase σ.windows := by
  induction olds generalizing σ with
  | nil => rfl
  | cons w rest ih => exact ih (σ.take w)

/-- In one state, an action that fails changes nothing, and nothing is left to be merged. -/
structure Transactional (a : Attempt Sheets ρ) (σ : Sheets) : Prop where
  undone : ∀ fault, (a.begin σ).1 = .error fault → (a.begin σ).2 = σ
  merging : (a.begin σ).2.merging = .empty

theorem begin_transact_ok (windows : List Window) {x : ρ} {σ' : Sheets}
    (h : a.begin σ = (.ok x, σ')) : (transact windows a).begin σ = (.ok x, σ') := by
  simp only [transact, Attempt.begin, Attempt.of] at h ⊢
  rw [h]

theorem begin_transact_error (windows : List Window) {fault : Fault} {σ' : Sheets}
    (h : a.begin σ = (.error fault, σ')) :
    (transact windows a).begin σ = (.error fault, σ'.restore (σ.saved windows)) := by
  simp only [transact, Attempt.begin, Attempt.of] at h ⊢
  rw [h]

/-- Once the windows that an action may change are saved, it fails without effect. -/
theorem transactional_transact {windows : List Window} (hσ : σ.merging = .empty)
    (hwindows : ∀ w, w ∉ windows → (a.begin σ).2.windows.find? w = σ.windows.find? w)
    (hmerging : (a.begin σ).2.merging = .empty) : Transactional (transact windows a) σ := by
  rcases h : a.begin σ with ⟨fault | x, σ'⟩ <;> rw [h] at hwindows hmerging
  · have hrestored : σ'.restore (σ.saved windows) = σ := by
      refine congrArg₂ Sheets.mk (WindowMap.ext_find? fun w => ?_) hσ.symm
      refine (WindowMap.find?_foldr_set σ.windows σ'.windows windows w).trans ?_
      split
      · rfl
      · rename_i hw
        exact hwindows w hw
    refine ⟨fun _ _ => ?_, ?_⟩ <;> rw [begin_transact_error windows h, hrestored]
    exact hσ
  · refine ⟨fun _ hfault => ?_, ?_⟩
    · rw [begin_transact_ok windows h] at hfault
      cases hfault
    · rwa [begin_transact_ok windows h]

theorem Local.transactional (h : Local w a) (hσ : σ.merging = .empty) :
    Transactional (transact [w] a) σ := by
  have hafter := h.sameBut σ
  exact transactional_transact hσ (fun v hv => hafter.windows v (List.ne_of_not_mem_cons hv))
    (hafter.merging.trans hσ)

/-- The sheets of the old windows are saved before they are taken out, so a window that is listed
twice, or that is also the new one, is put back like the others. -/
theorem Local.transactional_merge {m : Merge} (h : Local m.into a) (hσ : σ.merging = .empty) :
    Transactional (transact (m.olds ++ [m.into]) (forgetMerging (do takeAll m.olds; a))) σ := by
  refine transactional_transact hσ (fun w hw => ?_) rfl
  have holds : w ∉ m.olds := fun h => hw (List.mem_append_left _ h)
  have hinto : w ≠ m.into := fun h => hw (List.mem_append_right _ (List.mem_singleton.mpr h))
  refine ((h.sameBut _).windows w hinto).trans ?_
  rw [windows_foldl_take, WindowMap.find?_foldl_erase, if_neg holds]

end Sheets

/-! ### Events -/

namespace Behaviour

open Sheets

variable (β : Behaviour) (t : Trigger)

/-- Deliver an element to the root. -/
def element (e : ElementEvent) : Attempt Sheets Outcome :=
  transact [e.window] (offer e.window 0 (t.visitElement β e.window e 0))

/-- Merge the sheets of the old windows, which are used up, into that of the new one. -/
def merge (m : Merge) : Attempt Sheets MergeOutcome :=
  transact (m.olds ++ [m.into]) <| forgetMerging do
    takeAll m.olds
    Sheets.merge m.into 0 (t.visitMerge β m.into m 0)

/-- Deliver a timer to the root. A timer of a window without a sheet is dropped. -/
def timer (e : TimerEvent) : Attempt Sheets Outcome := .of fun σ =>
  if σ.windows.contains e.window then
    (transact [e.window] (offer e.window 0 (t.visitTimer β e.window e 0))).begin σ
  else (.ok .idle, σ)

/-- The leaves act in the window that they are told, and nowhere else. -/
structure Local : Prop where
  onElement (w : Window) (l : Leaf) (node : Nat) (e : ElementEvent) :
    Sheets.Local w (β.onElement w l node e)
  onMerge (w : Window) (l : Leaf) (node : Nat) (e : Merge) :
    Sheets.Local w (β.onMerge w l node e)
  onTimer (w : Window) (l : Leaf) (node : Nat) (e : TimerEvent) :
    Sheets.Local w (β.onTimer w l node e)

theorem local_own : own.Local where
  onElement _ l node e :=
    Confined.local (confined_react (l.onElement node e) : Confined _ _ _ AnyMerging _)
  onMerge _ l node e :=
    (confined_mergingCells.bind fun olds => confined_react (l.onMerge node e olds)).local
  onTimer _ l node e :=
    Confined.local (confined_react (l.onTimer node e) : Confined _ _ _ AnyMerging _)

variable {β t} {σ : Sheets}

theorem Local.transactional_element (h : β.Local) (hσ : σ.merging = .empty) (e : ElementEvent) :
    Transactional (β.element t e) σ := by
  have hoffer : Sheets.Local e.window (offer e.window 0 (t.visitElement β e.window e 0)) :=
    fun σ => (steady_sameBut σ).offer
      (t.keeps_visitElement (steady_sameBut σ) e 0 fun l n _ => h.onElement e.window l n e σ)
  exact hoffer.transactional hσ

theorem Local.transactional_merge (h : β.Local) (hσ : σ.merging = .empty) (m : Merge) :
    Transactional (β.merge t m) σ := by
  have hmerge : Sheets.Local m.into (Sheets.merge m.into 0 (t.visitMerge β m.into m 0)) :=
    fun σ => (steady_sameBut σ).merge
      (t.keeps_visitMerge (steady_sameBut σ) m 0 fun l n _ => h.onMerge m.into l n m σ)
  exact hmerge.transactional_merge hσ

theorem Local.transactional_timer (h : β.Local) (hσ : σ.merging = .empty) (e : TimerEvent) :
    Transactional (β.timer t e) σ := by
  have hoffer : Sheets.Local e.window (offer e.window 0 (t.visitTimer β e.window e 0)) :=
    fun σ => (steady_sameBut σ).offer
      (t.keeps_visitTimer (steady_sameBut σ) e 0 fun l n _ => h.onTimer e.window l n e σ)
  by_cases hlive : σ.windows.contains e.window = true
  · have hbegin : (β.timer t e).begin σ =
        (transact [e.window] (offer e.window 0 (t.visitTimer β e.window e 0))).begin σ :=
      if_pos hlive
    exact ⟨hbegin ▸ (hoffer.transactional hσ).undone, hbegin ▸ (hoffer.transactional hσ).merging⟩
  · have hbegin : (β.timer t e).begin σ = (.ok .idle, σ) := if_neg hlive
    exact ⟨fun _ _ => by rw [hbegin], by rw [hbegin]; exact hσ⟩

end Behaviour

namespace Trigger

open Sheets Behaviour

variable {t : Trigger} {σ : Sheets} {s taken : TriggerState t}

/-- Taking out the sheets of windows takes out the states that they hold. -/
theorem Holds.foldl_take (olds : List Window) (h : t.Holds σ s)
    (htaken : ∀ w, taken.find? w = (σ.merging.find? w).map (·.stateOf t 0)) :
    t.Holds (olds.foldl Sheets.take σ) (olds.foldl TriggerState.take (taken, s)).2 ∧
      ∀ w, (olds.foldl TriggerState.take (taken, s)).1.find? w =
        ((olds.foldl Sheets.take σ).merging.find? w).map (·.stateOf t 0) := by
  induction olds generalizing σ s taken with
  | nil => exact ⟨h, htaken⟩
  | cons v rest ih =>
    refine ih (fun w => ?_) fun w => ?_
    · rw [WindowMap.find?_erase, Sheets.take, WindowMap.find?_erase, h w]
      split <;> rfl
    · rw [WindowMap.find?_insert, Sheets.take, WindowMap.find?_insert, htaken w, h.stateOf]
      split <;> rfl

/-- On some sheets an action gives the answer of an event, and leaves sheets that hold the state
after the event. -/
structure Performs (t : Trigger) {ρ : Type} (σ : Sheets) (a : Attempt Sheets ρ)
    (r : Except Fault ρ × TriggerState t) : Prop where
  answer : (a.begin σ).1 = r.1
  state : t.Holds (a.begin σ).2 r.2

/-- On sheets that hold the state of a tree, a transaction whose action does what an event does is
the event, also if it fails. -/
theorem Holds.transact {ρ : Type} {windows : List Window} {a : Attempt Sheets ρ}
    {r : Except Fault ρ × TriggerState t} (h : t.Holds σ s)
    (ha : Transactional (Sheets.transact windows a) σ) (hanswer : (a.begin σ).1 = r.1)
    (hok : ∀ x, r.1 = .ok x → t.Holds (a.begin σ).2 r.2)
    (herror : ∀ fault, r.1 = .error fault → r.2 = s) :
    t.Performs σ (Sheets.transact windows a) r := by
  obtain ⟨answer, s'⟩ := r
  cases answer with
  | ok x =>
    have hbegin := begin_transact_ok windows (Prod.ext hanswer rfl)
    exact ⟨congrArg Prod.fst hbegin, hbegin ▸ hok x rfl⟩
  | error fault =>
    have hbegin := begin_transact_error windows (Prod.ext hanswer rfl)
    have hundone := ha.undone fault (congrArg Prod.fst hbegin)
    obtain rfl : s' = s := herror fault rfl
    exact ⟨congrArg Prod.fst hbegin, by rw [hundone]; exact h⟩

theorem Holds.element (h : t.Holds σ s) (hσ : σ.merging = .empty) (e : ElementEvent) :
    t.Performs σ (own.element t e) (s.element e) := by
  obtain ⟨hanswer, hstate⟩ := holds_element h e
  exact h.transact (local_own.transactional_element hσ e) hanswer hstate
    fun _ => TriggerState.element_error

theorem Holds.merge (h : t.Holds σ s) (hσ : σ.merging = .empty) (m : Merge) :
    t.Performs σ (own.merge t m) (s.merge m) := by
  have hempty (w : Window) : (WindowMap.empty : TriggerState t).find? w =
      ((WindowMap.empty : WindowMap Sheet).find? w).map (·.stateOf t 0) := rfl
  obtain ⟨hrest, htaken⟩ := Holds.foldl_take (σ := { σ with merging := .empty }) m.olds h hempty
  have hmerging := WindowMap.map_values_congr (f := id) fun w => (Option.map_id' ..).trans (htaken w)
  rw [List.map_id, List.map_map] at hmerging
  obtain ⟨hanswer, hstate⟩ := holds_merge rfl hrest hmerging.symm
  exact h.transact (local_own.transactional_merge hσ m) hanswer hstate
    fun _ => TriggerState.merge_error

theorem Holds.timer (h : t.Holds σ s) (hσ : σ.merging = .empty) (e : TimerEvent) :
    t.Performs σ (own.timer t e) (s.timer e) := by
  by_cases hlive : s.contains e.window = true
  · obtain ⟨hanswer, hstate⟩ := holds_timer h hlive
    have hbegin : (own.timer t e).begin σ = _ := if_pos ((h.contains _).symm.trans hlive)
    have htransactional := local_own.transactional_timer (t := t) hσ e
    have hperforms := h.transact
      ⟨hbegin ▸ htransactional.undone, hbegin ▸ htransactional.merging⟩ hanswer hstate
      fun _ => TriggerState.timer_error
    exact ⟨hbegin ▸ hperforms.answer, hbegin ▸ hperforms.state⟩
  · have hbegin : (own.timer t e).begin σ = (.ok .idle, σ) :=
      if_neg fun hc => hlive ((h.contains _).trans hc)
    have htimer : s.timer e = (.ok .idle, s) := if_neg hlive
    exact ⟨by rw [hbegin, htimer], by rw [hbegin, htimer]; exact h⟩

end Trigger

open Sheets Behaviour in
/-- Evaluation is transactional. Whatever the leaves of a tree do in the window they are told, an
event that fails leaves the sheets of all windows as they were, and no event leaves anything to be
merged. If the leaves react as in the evaluation, the events on sheets are those on the state that
the sheets hold, which a failure leaves as it was, too. -/
theorem failed_event_undone (t : Trigger) :
    (∀ β : Behaviour, β.Local → ∀ σ : Sheets, σ.merging = .empty →
      (∀ e, Transactional (β.element t e) σ) ∧ (∀ m, Transactional (β.merge t m) σ) ∧
        ∀ e, Transactional (β.timer t e) σ) ∧
    (own.Local ∧ ∀ (σ : Sheets) (s : TriggerState t), t.Holds σ s → σ.merging = .empty →
      (∀ e, t.Performs σ (own.element t e) (s.element e)) ∧
        (∀ m, t.Performs σ (own.merge t m) (s.merge m)) ∧
        ∀ e, t.Performs σ (own.timer t e) (s.timer e)) ∧
    ∀ s : TriggerState t,
      (∀ (e : ElementEvent) (fault : Fault), (s.element e).1 = .error fault →
        (s.element e).2 = s) ∧
      (∀ (m : Merge) (fault : Fault), (s.merge m).1 = .error fault → (s.merge m).2 = s) ∧
      (∀ (e : TimerEvent) (fault : Fault), (s.timer e).1 = .error fault → (s.timer e).2 = s) :=
  ⟨fun _ hβ _ hσ =>
      ⟨hβ.transactional_element hσ, hβ.transactional_merge hσ, hβ.transactional_timer hσ⟩,
    ⟨local_own, fun _ _ h hσ => ⟨h.element hσ, h.merge hσ, h.timer hσ⟩⟩,
    fun _ => ⟨fun _ _ => TriggerState.element_error, fun _ _ => TriggerState.merge_error,
      fun _ _ => TriggerState.timer_error⟩⟩

/-- A repetition that starts over on every second element, beside policies that give up on a second
element, on a merge and on a timer. -/
def brittle : Trigger :=
  .orFinally (.repeatedly (.afterCount 2)) (.afterFirst [.leaf (.custom (.failing 2 .element)),
    .leaf (.custom (.failing 1 .merge)), .leaf (.custom (.failing 0 .timer))])

/-- One element has arrived in each of two windows. -/
def brittleState : TriggerState brittle :=
  (TriggerState.element (TriggerState.element .empty ⟨.interval 0 10, 3⟩).2 ⟨.interval 5 15, 7⟩).2

/-- The sheets that hold this state. -/
def brittleSheets : Sheets :=
  ((Behaviour.own.element brittle ⟨.interval 5 15, 7⟩).begin
    ((Behaviour.own.element brittle ⟨.interval 0 10, 3⟩).begin ⟨.empty, .empty⟩).2).2

/-- Two windows with state, one of them listed twice and the other also the new one, and one window
without state. -/
def brittleMerge : Merge :=
  ⟨[.interval 0 10, .interval 5 15, .global, .interval 0 10], .interval 5 15⟩

/-- Start the repetition over, which is not below the leaf that does so, let its child count an
element, and only then react. -/
def meddle {ρ : Type} (w : Window) (react : Attempt Sheets ρ) : Attempt Sheets ρ := do
  Sheets.reset w 1 3
  let _ ← (Trigger.afterCount 2).invokeElement w ⟨w, 0⟩ 2
  react

/-- Leaves that meddle with a subtree that is not theirs before they react. -/
def meddling : Behaviour where
  onElement w l node e := meddle w (Behaviour.own.onElement w l node e)
  onMerge w l node m := meddle w (Behaviour.own.onMerge w l node m)
  onTimer w l node e := meddle w (Behaviour.own.onTimer w l node e)

theorem local_meddle {ρ : Type} {w : Window} {react : Attempt Sheets ρ}
    (h : Sheets.Local w react) : Sheets.Local w (meddle w react) := by
  have hreset : Sheets.Confined w 1 3 Sheets.AnyMerging (Sheets.reset w 1 3) :=
    Sheets.confined_reset
  have hinvoke := Trigger.confined_invokeElement w ⟨w, 0⟩ (.afterCount 2) 2
  exact hreset.local.bind fun _ => hinvoke.local.bind fun _ => h

theorem local_meddling : meddling.Local where
  onElement w l node e := local_meddle (Behaviour.local_own.onElement w l node e)
  onMerge w l node m := local_meddle (Behaviour.local_own.onMerge w l node m)
  onTimer w l node e := local_meddle (Behaviour.local_own.onTimer w l node e)

/-- The second element of a window fails after a counter and a timer have been set, the merge after
the old windows have been used up, and a timer at a leaf, each after meddling with the repetition; a
timer fails at a composite. All is as before. -/
theorem failed_event_undone_of_brittle :
    (meddling.Local ∧ brittleSheets.merging = .empty ∧
      (meddling.element brittle ⟨.interval 0 10, 4⟩).begin brittleSheets =
        (.error (Policy.injected 4), brittleSheets) ∧
      (meddling.merge brittle brittleMerge).begin brittleSheets =
        (.error (Policy.injected 5), brittleSheets) ∧
      (meddling.timer brittle ⟨.interval 0 10, 6, 3⟩).begin brittleSheets =
        (.error (Policy.injected 6), brittleSheets) ∧
      (meddling.timer brittle ⟨.interval 0 10, 3, 3⟩).begin brittleSheets =
        (.error (.timerAtComposite "AfterFirst" 3), brittleSheets)) ∧
    brittle.Holds brittleSheets brittleState ∧
      brittleState.element ⟨.interval 0 10, 4⟩ = (.error (Policy.injected 4), brittleState) ∧
      brittleState.merge brittleMerge = (.error (Policy.injected 5), brittleState) ∧
      brittleState.timer ⟨.interval 0 10, 6, 3⟩ = (.error (Policy.injected 6), brittleState) := by
  obtain ⟨hsheets, ⟨hown, hperforms⟩, hstates⟩ := failed_event_undone brittle
  have hmerging : brittleSheets.merging = .empty := rfl
  obtain ⟨helement, hmerge, htimer⟩ := hsheets meddling local_meddling brittleSheets hmerging
  -- the sheets were filled by the same two elements as the state
  have hblank : brittle.Holds ⟨.empty, .empty⟩ .empty := fun _ => rfl
  have hone := ((hperforms _ _ hblank rfl).1 ⟨.interval 0 10, 3⟩).state
  have hholds := ((hperforms _ _ hone ((hsheets _ hown _ rfl).1 _).merging).1
    ⟨.interval 5 15, 7⟩).state
  obtain ⟨helement', hmerge', htimer'⟩ := hstates brittleState
  exact ⟨⟨local_meddling, hmerging, Prod.ext rfl ((helement _).undone _ rfl),
    Prod.ext rfl ((hmerge _).undone _ rfl), Prod.ext rfl ((htimer _).undone _ rfl),
    Prod.ext rfl ((htimer _).undone _ rfl)⟩, hholds, Prod.ext rfl (helement' _ _ rfl),
    Prod.ext rfl (hmerge' _ _ rfl), Prod.ext rfl (htimer' _ _ rfl)⟩

end EventTime
