import EventTime.Proofs.Trigger.Following

/-!
# Locality

Whatever the sheets hold, invoking a node of a tree gives the answer of the evaluation of its
subtree, and its entries then read as the state that the evaluation leaves. As the invocation is
confined to the subtree, it is this evaluation and nothing else.
-/

namespace EventTime

namespace Trigger

open Sheets

variable {w : Window}

theorem finished_perform (node : Nat) (change : Write) (σ : Sheets) :
    (((perform w node change).begin σ).2.sheetAt w).finished = (σ.sheetAt w).finished := by
  cases change with
  | setCounter value =>
    rw [perform, sheetAt_write]
    rfl
  | setTimer timestamp =>
    rw [perform, sheetAt_write]
    rfl
  | deleteTimer timestamp =>
    rw [perform, sheetAt_amend (Sheet.cancel_blank timestamp node)]
    rfl

theorem finished_performAll (node : Nat) (changes : List Write) (σ : Sheets) :
    (((performAll w node changes).begin σ).2.sheetAt w).finished = (σ.sheetAt w).finished := by
  induction changes generalizing σ with
  | nil => rfl
  | cons change rest ih =>
    exact Attempt.view_bind (fun s => (s.sheetAt w).finished) (finished_perform node change)
      (fun _ => ih) σ

theorem finished_react {ρ : Type} (node : Nat) (reaction : Cell → Reaction ρ) (σ : Sheets) :
    (((react w node reaction).begin σ).2.sheetAt w).finished = (σ.sheetAt w).finished := by
  refine Attempt.view_bind (fun s => (s.sheetAt w).finished) ?_ (fun counter s => ?_) σ
  · exact fun _ => rfl
  · refine Attempt.view_bind (fun s => (s.sheetAt w).finished) (finished_performAll node _) ?_ s
    exact fun _ _ => rfl

/-- The reaction of a tree leaves the finished bit of the root to those who invoke the root: a
composite does not reach its own entry, and a leaf writes to its cell only. -/
theorem finished_of_confined {ρ : Type} {alike : WindowMap Sheet → WindowMap Sheet → Prop}
    {t : Trigger} {node hi : Nat} {a : Attempt Sheets ρ} {σ : Sheets}
    (h : Confined w (t.firstEntry node) hi alike a)
    (hleaf : ∀ l, t = .leaf l →
      ((a.begin σ).2.sheetAt w).finished node = (σ.sheetAt w).finished node) :
    ((a.begin σ).2.sheetAt w).finished node = (σ.sheetAt w).finished node := by
  cases t with
  | leaf l => exact hleaf l rfl
  | afterFirst ts => exact congrArg Sheet.Entry.finished (h.entries σ node (.inl node.lt_succ_self))
  | repeatedly t => exact congrArg Sheet.Entry.finished (h.entries σ node (.inl node.lt_succ_self))
  | orFinally a b => exact congrArg Sheet.Entry.finished (h.entries σ node (.inl node.lt_succ_self))

theorem finished_visitElement (e : ElementEvent) (t : Trigger) (node : Nat) (σ : Sheets) :
    (((visitElement .own w e t node).begin σ).2.sheetAt w).finished node =
      (σ.sheetAt w).finished node := by
  refine finished_of_confined (confined_visitElement w e t node) ?_
  rintro l rfl
  exact congrFun (finished_react node (l.onElement node e) σ) node

theorem finished_visitMerge (e : Merge) (t : Trigger) (node : Nat) (σ : Sheets) :
    (((visitMerge .own w e t node).begin σ).2.sheetAt w).finished node =
      (σ.sheetAt w).finished node := by
  refine finished_of_confined (confined_visitMerge w e t node) ?_
  rintro l rfl
  refine Attempt.view_bind (fun s => (s.sheetAt w).finished node) ?_ (fun olds s => ?_) σ
  · exact fun _ => rfl
  · exact congrFun (finished_react node (l.onMerge node e olds) s) node

theorem finished_visitTimer (e : TimerEvent) (t : Trigger) (node : Nat) (σ : Sheets) :
    (((visitTimer .own w e t node).begin σ).2.sheetAt w).finished node =
      (σ.sheetAt w).finished node := by
  refine finished_of_confined (confined_visitTimer w e t node) ?_
  rintro l rfl
  exact congrFun (finished_react node (l.onTimer node e) σ) node

/-! ### Events -/

mutual

theorem follows_visitElement (e : ElementEvent) : (t : Trigger) → (node : Nat) → (σ : Sheets) →
    Follows w (·.memoryOf t node) σ (visitElement .own w e t node)
      (onElement e t node ((σ.sheetAt w).memoryOf t node))
  | .leaf l, node, σ => follows_react (l.onElement node e) fun c => by cases l <;> rfl
  | .afterFirst ts, node, σ => follows_visitElementAmong e ts (node + 1) σ
  | .repeatedly t, node, σ => by
    have ht := (follows_visitElement e t (node + 1) σ).offer (finished_visitElement e t _ σ)
    refine ht.bind (fun _ _ => ht.state) fun o _ => ?_
    rw [← ht.state]
    -- an outcome that finishes fires, so the answers agree in every case
    cases o <;> exact follows_restart ..
  | .orFinally a b, node, σ => by
    have ha := (follows_visitElement e a (node + 1) σ).offer (finished_visitElement e a _ σ)
    -- what is done in one child's range keeps the other child's state
    have hka := (confined_invokeElement w e a (node + 1)).stateOf_eq σ b (.inr le_rfl)
    have hb (σ : Sheets) := (follows_visitElement e b (node + 1 + a.size) σ).offer
      (finished_visitElement e b _ σ)
    have hkb := (confined_invokeElement w e b (node + 1 + a.size)).stateOf_eq
    exact ha.both (·.stateOf b _) (Slot.offer · (onElement e b _)) _ (hb _) hka
      (hkb _ a (.inl le_rfl))

theorem follows_visitElementAmong (e : ElementEvent) :
    (ts : List Trigger) → (node : Nat) → (σ : Sheets) →
    Follows w (·.memoriesOf ts node) σ (visitElementAmong .own w e ts node)
      (onElementAmong e ts node ((σ.sheetAt w).memoriesOf ts node))
  | [], node, σ => follows_quiet rfl rfl
  | t :: ts, node, σ => by
    have ht := (follows_visitElement e t node σ).offer (finished_visitElement e t _ σ)
    have hkt := (confined_invokeElement w e t node).memoriesOf_eq σ ts le_rfl
    have hts := follows_visitElementAmong e ts (node + t.size)
    have hkts := (confined_visitElementAmong w e ts (node + t.size)).stateOf_eq
    exact ht.orElse (·.memoriesOf ts _) (fun _ => onElementAmong e ts _) (·.fires) (fun _ => hts _)
      hkt fun _ => hkts _ t (.inl le_rfl)

end

theorem total_map_congr {α : Type} {f g : α → Cell} {l : List α}
    (h : ∀ x, (f x).counter = (g x).counter) : Cell.total (l.map f) = Cell.total (l.map g) := by
  induction l with
  | nil => rfl
  | cons x l ih => exact congrArg₂ (· + ·) (h x) ih

/-- A leaf sees the sum of the counters in the merged windows. -/
theorem onMerge_of_total_eq (l : Leaf) (node : Nat) (e : Merge) {olds olds' : List Cell} (c : Cell)
    (h : Cell.total olds = Cell.total olds') :
    l.onMerge node e olds c = l.onMerge node e olds' c := by
  cases l <;> simp only [Leaf.onMerge, h]

theorem onMerge_orFinally (e : Merge) {a b : Trigger} (node : Nat) {α : Type} (l : List α)
    (fa : α → a.State) (fb : α → b.State) (ma : a.State) (mb : b.State) :
    onMerge e (.orFinally a b) node (l.map fun x => (fa x, fb x)) (ma, mb) =
      (Slot.merge ma (l.map fa) (onMerge e a (node + 1))).next (·, mb) fun sa oa =>
        (Slot.merge mb (l.map fb) (onMerge e b (node + 1 + a.size))).next (sa, ·) fun sb ob =>
          .quiet (sa, sb) (.ok (if ob = .alreadyFinished then .alreadyFinished
            else if ob.fires then .fireAndFinish else oa)) := by
  have hfst : (l.map fun x => (fa x, fb x)).map (·.1) = l.map fa := List.map_map
  have hsnd : (l.map fun x => (fa x, fb x)).map (·.2) = l.map fb := List.map_map
  rw [← hfst, ← hsnd]
  rfl

theorem onMergeAmong_cons (e : Merge) {t : Trigger} {ts : List Trigger} (node : Nat)
    (fired : Bool) {α : Type} (l : List α) (f : α → t.State) (fs : α → Memories ts) (m : t.State)
    (ms : Memories ts) :
    onMergeAmong e (t :: ts) node (l.map fun x => (f x, fs x)) fired (m, ms) =
      (Slot.merge m (l.map f) (onMerge e t node)).next (·, ms) fun s o =>
        if o = .alreadyFinished then .quiet (s, ms) (.ok .alreadyFinished)
        else (onMergeAmong e ts (node + t.size) (l.map fs) (fired || o.fires) ms).next (s, ·)
          fun rest o => .quiet (s, rest) (.ok o) := by
  have hfst : (l.map fun x => (f x, fs x)).map (·.1) = l.map f := List.map_map
  have hsnd : (l.map fun x => (f x, fs x)).map (·.2) = l.map fs := List.map_map
  rw [← hfst, ← hsnd]
  rfl

mutual

theorem follows_visitMerge (e : Merge) : (t : Trigger) → (node : Nat) → (σ : Sheets) →
    Follows w (·.memoryOf t node) σ (visitMerge .own w e t node)
      (onMerge e t node (σ.merging.entries.map (·.2.memoryOf t node))
        ((σ.sheetAt w).memoryOf t node))
  | .leaf l, node, σ => by
    have htotal := total_map_congr (l := σ.merging.entries)
      (f := fun p => (p.2.entry node).cell) (g := fun p => { counter := p.2.counter node })
      fun _ => rfl
    have hreact := (follows_react (l.onMerge node e _) fun c => by cases l <;> rfl).of_begin
      (begin_mergingCells_bind node (fun olds => react w node (l.onMerge node e olds)) σ)
    exact hreact.of_step (congrArg (Reaction.step · _) (onMerge_of_total_eq l node e _ htotal))
  | .afterFirst ts, node, σ => follows_visitMergeAmong e ts (node + 1) false σ
  | .repeatedly t, node, σ => by
    have ht := (follows_visitMerge e t (node + 1) σ).merge (finished_visitMerge e t _ σ)
    refine ht.bind (fun _ _ => ht.state) fun o _ => ?_
    rw [← ht.state]
    cases o <;> exact follows_restart ..
  | .orFinally a b, node, σ => by
    have ha := (follows_visitMerge e a (node + 1) σ).merge (finished_visitMerge e a _ σ)
    have hka := (confined_invokeMerge w e a (node + 1)).stateOf_eq σ b (.inr le_rfl)
    have hb (σ : Sheets) := (follows_visitMerge e b (node + 1 + a.size) σ).merge
      (finished_visitMerge e b _ σ)
    have hkb := (confined_invokeMerge w e b (node + 1 + a.size)).stateOf_eq
    have hmerging := (confined_invokeMerge w e a (node + 1)).merging σ
    have hb' := hmerging ▸ hb _
    exact (ha.both (·.stateOf b _) (Slot.merge · _ (onMerge e b _)) _ hb' hka
      (hkb _ a (.inl le_rfl))).of_step (onMerge_orFinally ..)

theorem follows_visitMergeAmong (e : Merge) :
    (ts : List Trigger) → (node : Nat) → (fired : Bool) → (σ : Sheets) →
    Follows w (·.memoriesOf ts node) σ (visitMergeAmong .own w e ts node fired)
      (onMergeAmong e ts node (σ.merging.entries.map (·.2.memoriesOf ts node)) fired
        ((σ.sheetAt w).memoriesOf ts node))
  | [], node, fired, σ => follows_quiet rfl rfl
  | t :: ts, node, fired, σ => by
    have ht := (follows_visitMerge e t node σ).merge (finished_visitMerge e t _ σ)
    have hkt := (confined_invokeMerge w e t node).memoriesOf_eq σ ts le_rfl
    have hts (fired : Bool) := follows_visitMergeAmong e ts (node + t.size) fired
    have hkts (fired : Bool) :=
      (confined_visitMergeAmong w e ts (node + t.size) fired).stateOf_eq
    have hmerging := (confined_invokeMerge w e t node).merging σ
    have hts' (o : MergeOutcome) := hmerging ▸ hts (fired || o.fires) _
    exact (ht.orElse (·.memoriesOf ts _)
      (fun o => onMergeAmong e ts _ _ (fired || o.fires)) (· = .alreadyFinished) hts' hkt
      fun o => hkts _ _ t (.inl le_rfl)).of_step (onMergeAmong_cons ..)

end

mutual

theorem follows_visitTimer (e : TimerEvent) : (t : Trigger) → (node : Nat) → (σ : Sheets) →
    Follows w (·.memoryOf t node) σ (visitTimer .own w e t node)
      (onTimer e t node ((σ.sheetAt w).memoryOf t node))
  | .leaf l, node, σ => follows_react (l.onTimer node e) fun c => by cases l <;> rfl
  | .afterFirst ts, node, σ =>
    follows_ite (follows_quiet rfl rfl) (follows_visitTimerAmong e node ts (node + 1) σ)
  | .repeatedly t, node, σ => by
    have ht := (follows_visitTimer e t (node + 1) σ).offer (finished_visitTimer e t _ σ)
    refine follows_ite (follows_quiet rfl rfl) (ht.bind (fun _ _ => ht.state) fun o _ => ?_)
    rw [← ht.state]
    cases o <;> exact follows_restart ..
  | .orFinally a b, node, σ => by
    have ha := (follows_visitTimer e a (node + 1) σ).offer (finished_visitTimer e a _ σ)
    have hka := (confined_invokeTimer w e a (node + 1)).stateOf_eq σ b (.inr le_rfl)
    have hb := (follows_visitTimer e b (node + 1 + a.size) σ).offer (finished_visitTimer e b _ σ)
    have hkb := (confined_invokeTimer w e b (node + 1 + a.size)).stateOf_eq σ a (.inl le_rfl)
    refine follows_ite (follows_quiet rfl rfl) (follows_ite ?_ (follows_ite ?_ ?_))
    · exact ha.keep (Prod.ext ha.state hka)
    · exact hb.answering _ (Prod.ext hkb hb.state)
    · exact follows_quiet rfl rfl

theorem follows_visitTimerAmong (e : TimerEvent) (parent : Nat) :
    (ts : List Trigger) → (node : Nat) → (σ : Sheets) →
    Follows w (·.memoriesOf ts node) σ (visitTimerAmong .own w e parent ts node)
      (onTimerAmong e parent ts node ((σ.sheetAt w).memoriesOf ts node))
  | [], node, σ => follows_quiet rfl rfl
  | t :: ts, node, σ => by
    have ht := (follows_visitTimer e t node σ).offer (finished_visitTimer e t _ σ)
    have hkt := (confined_invokeTimer w e t node).memoriesOf_eq σ ts le_rfl
    have hts := follows_visitTimerAmong e parent ts (node + t.size) σ
    have hkts := (confined_visitTimerAmong w e parent ts (node + t.size)).stateOf_eq σ t
      (.inl le_rfl)
    refine follows_ite ?_ ?_
    · exact ht.answering _ (Prod.ext ht.state hkt)
    · exact hts.keep (Prod.ext hkts hts.state)

end

/-! ### Invoking a subtree -/

theorem follows_invokeElement (w : Window) (e : ElementEvent) (t : Trigger) (node : Nat) (σ : Sheets) :
    Follows w (·.stateOf t node) σ (t.invokeElement w e node)
      (((σ.sheetAt w).stateOf t node).offer (t.onElement e node)) :=
  (follows_visitElement e t node σ).offer (finished_visitElement e t node σ)

theorem follows_invokeMerge (w : Window) (e : Merge) (t : Trigger) (node : Nat) (σ : Sheets) :
    Follows w (·.stateOf t node) σ (t.invokeMerge w e node)
      (((σ.sheetAt w).stateOf t node).merge (σ.merging.entries.map (·.2.stateOf t node))
        (t.onMerge e node)) :=
  (follows_visitMerge e t node σ).merge (finished_visitMerge e t node σ)

theorem follows_invokeTimer (w : Window) (e : TimerEvent) (t : Trigger) (node : Nat) (σ : Sheets) :
    Follows w (·.stateOf t node) σ (t.invokeTimer w e node)
      (((σ.sheetAt w).stateOf t node).offer (t.onTimer e node)) :=
  (follows_visitTimer e t node σ).offer (finished_visitTimer e t node σ)

/-- Whatever the sheets hold, to invoke a node in a window, or to reset it there, touches only the
entries of its subtree in that window and depends on nothing else, except that a merge depends on
the entries of the subtree in the windows being merged, too. It does what the evaluation does with
the state of the subtree. -/
theorem invocation_local {t sub : Trigger} {node : Nat} (hnode : t.subtree? node = some sub)
    (w : Window) :
    ∃ r, t.arena[node]? = some r ∧
      (∀ e, Confined w node r.stop AnyMerging (sub.invokeElement w e node) ∧
        ∀ σ, Follows w (·.stateOf sub node) σ (sub.invokeElement w e node)
          (((σ.sheetAt w).stateOf sub node).offer (sub.onElement e node))) ∧
      (∀ e, Confined w node r.stop (SameMerging node r.stop) (sub.invokeMerge w e node) ∧
        ∀ σ, Follows w (·.stateOf sub node) σ (sub.invokeMerge w e node)
          (((σ.sheetAt w).stateOf sub node).merge
            (σ.merging.entries.map (·.2.stateOf sub node)) (sub.onMerge e node))) ∧
      (∀ e, Confined w node r.stop AnyMerging (sub.invokeTimer w e node) ∧
        ∀ σ, Follows w (·.stateOf sub node) σ (sub.invokeTimer w e node)
          (((σ.sheetAt w).stateOf sub node).offer (sub.onTimer e node))) ∧
      Confined w node r.stop AnyMerging (reset w node r.stop) ∧
        ∀ σ, Follows w (·.stateOf sub node) σ (reset w node r.stop) ⟨sub.fresh, true, .ok ()⟩ := by
  refine ⟨sub.row node, row_of_subtree? hnode, fun e => ⟨?_, ?_⟩, fun e => ⟨?_, ?_⟩,
    fun e => ⟨?_, ?_⟩, confined_reset, fun σ => follows_restart true ()⟩
  · exact confined_invokeElement w e sub node
  · exact follows_invokeElement w e sub node
  · exact confined_invokeMerge w e sub node
  · exact follows_invokeMerge w e sub node
  · exact confined_invokeTimer w e sub node
  · exact follows_invokeTimer w e sub node

/-- The child of a tree with a last child, numbered 1 to 4 below the root, fires at an element. -/
theorem invocation_local_of_repeated :
    let child : Trigger := .repeatedly (.afterFirst [.afterCount 1, .afterWatermark])
    let invoked := child.invokeElement .global ⟨.global, 3⟩ 1
    (Trigger.orFinally child (.afterCount 5)).subtree? 1 = some child ∧
      Confined .global 1 5 AnyMerging invoked ∧
      (invoked.begin ⟨.empty, .empty⟩).1 = .ok .fire := by
  intro child invoked
  have hchild : (Trigger.orFinally child (.afterCount 5)).subtree? 1 = some child := rfl
  obtain ⟨r, hr, helement, -⟩ := invocation_local hchild .global
  obtain rfl : ⟨"Repeatedly", [2], 5⟩ = r := Option.some.inj hr
  obtain ⟨hconfined, hfollows⟩ := helement ⟨.global, 3⟩
  exact ⟨hchild, hconfined, (hfollows ⟨.empty, .empty⟩).answer⟩

section States

variable {t : Trigger} {σ : Sheets} {s : TriggerState t} {ρ : Type}

/-- The sheets hold the state of a tree, window by window. -/
def Holds (t : Trigger) (σ : Sheets) (s : TriggerState t) : Prop :=
  ∀ w, s.find? w = (σ.windows.find? w).map (·.stateOf t 0)

theorem Holds.stateOf (h : t.Holds σ s) (w : Window) :
    s.stateOf w = (σ.sheetAt w).stateOf t 0 := by
  rw [TriggerState.stateOf, h w, sheetAt]
  cases σ.windows.find? w with
  | none => exact congrArg (Slot.mk false) (Sheet.memoryOf_blank t 0).symm
  | some sh => rfl

theorem Holds.contains (h : t.Holds σ s) (w : Window) :
    s.contains w = σ.windows.contains w := by
  rw [WindowMap.contains, WindowMap.contains, h w, Option.isSome_map]

/-- An action that is confined to a window and follows a step there keeps what the step leaves. -/
theorem Holds.keep {alike : WindowMap Sheet → WindowMap Sheet → Prop} {lo hi : Nat}
    {a : Attempt Sheets ρ} {step : Step t.State ρ} (h : t.Holds σ s)
    (hconfined : Confined w lo hi alike a) (hfollows : Follows w (·.stateOf t 0) σ a step) :
    t.Holds (a.begin σ).2 (s.keep w step) := by
  intro v
  by_cases hv : v = w
  · subst hv
    have hwrote := hfollows.wrote
    have hstate := hfollows.state
    rw [← h.contains v] at hwrote
    rw [TriggerState.keep]
    cases hfind : (a.begin σ).2.windows.find? v with
    | none =>
      rw [WindowMap.contains, hfind, Option.isSome_none] at hwrote
      rw [if_neg (by simp [← hwrote])]
      have hcontains := (Bool.or_eq_false_iff.mp hwrote.symm).2
      exact Option.not_isSome_iff_eq_none.mp (by simpa [WindowMap.contains] using hcontains)
    | some sh =>
      rw [WindowMap.contains, hfind, Option.isSome_some] at hwrote
      rw [if_pos hwrote.symm, WindowMap.find?_insert_self, ← hstate, sheetAt, hfind]
      rfl
  · rw [hconfined.windows σ v hv, ← h v, TriggerState.keep]
    split
    · exact WindowMap.find?_insert_of_ne (Ne.symm hv) ..
    · rfl

theorem Holds.commit {s' : TriggerState t} {x : ρ} (h : t.Holds σ s') {answer : Except Fault ρ}
    {windows : List (Window × Option t.State)} (hx : answer = .ok x) :
    t.Holds σ (s'.commit windows answer).2 := by
  subst hx
  exact h

/-- On sheets that hold its state, to invoke the root is to deliver the event: the answers are the
same and, unless the event fails and is undone, so are the states. -/
theorem holds_element (h : t.Holds σ s) (e : ElementEvent) :
    ((t.invokeElement e.window e 0).begin σ).1 = (s.element e).1 ∧
      ∀ o, (s.element e).1 = .ok o →
        t.Holds ((t.invokeElement e.window e 0).begin σ).2 (s.element e).2 := by
  have hfollows := follows_invokeElement e.window e t 0 σ
  have hconfined := confined_invokeElement e.window e t 0
  rw [← h.stateOf] at hfollows
  have hanswer : (s.element e).1 = _ := TriggerState.commit_answer
  exact ⟨hfollows.answer.trans hanswer.symm,
    fun o ho => (h.keep hconfined hfollows).commit (hanswer.symm.trans ho)⟩

theorem holds_timer (h : t.Holds σ s) {e : TimerEvent} (hlive : s.contains e.window = true) :
    ((t.invokeTimer e.window e 0).begin σ).1 = (s.timer e).1 ∧
      ∀ o, (s.timer e).1 = .ok o →
        t.Holds ((t.invokeTimer e.window e 0).begin σ).2 (s.timer e).2 := by
  have hfollows := follows_invokeTimer e.window e t 0 σ
  have hconfined := confined_invokeTimer e.window e t 0
  rw [← h.stateOf] at hfollows
  rw [TriggerState.timer, if_pos hlive]
  exact ⟨hfollows.answer.trans TriggerState.commit_answer.symm, fun o ho =>
    (h.keep hconfined hfollows).commit (TriggerState.commit_answer.symm.trans ho)⟩

/-- For a merge the states of the old windows have been taken out beforehand. -/
theorem holds_merge {m : Merge} {taken rest : TriggerState t}
    (htaken : m.olds.foldl TriggerState.take (.empty, s) = (taken, rest)) (h : t.Holds σ rest)
    (hmerging : σ.merging.entries.map (·.2.stateOf t 0) = taken.entries.map (·.2)) :
    ((t.invokeMerge m.into m 0).begin σ).1 = (s.merge m).1 ∧
      ∀ o, (s.merge m).1 = .ok o →
        t.Holds ((t.invokeMerge m.into m 0).begin σ).2 (s.merge m).2 := by
  have hfollows := follows_invokeMerge m.into m t 0 σ
  have hconfined := confined_invokeMerge m.into m t 0
  rw [← h.stateOf, hmerging] at hfollows
  rw [TriggerState.merge, htaken]
  exact ⟨hfollows.answer.trans TriggerState.commit_answer.symm, fun o ho =>
    (h.keep hconfined hfollows).commit (TriggerState.commit_answer.symm.trans ho)⟩

end States

end Trigger

end EventTime
