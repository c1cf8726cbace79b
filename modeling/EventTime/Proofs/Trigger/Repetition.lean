import EventTime.Proofs.Trigger.Finished
import EventTime.Proofs.Trigger.FirstChild
import EventTime.Proofs.Trigger.MainAndLast

/-!
# Repeating a trigger

A repetition never finishes, whatever is done to its state. In a window that takes no part in merges
it is compared with copies of its child, each run alone as the root of its own tree. A copy starts
in a state that knows no window, and the next one takes its place right after the delivery at which
it finishes. The repetition fires exactly when the copy that runs fires, and its pending timers are
those of that copy: what a former copy has asked for is gone.
-/

namespace EventTime

/-- What a repetition answers: it fires where its child fires, and does not finish. -/
def Outcome.repeated (o : Outcome) : Outcome := if o.fires then .fire else .idle

theorem Outcome.repeated_finishes (o : Outcome) : o.repeated.finishes = false := by
  cases o <;> rfl

/-- What the child of the root sees of a delivery: the same, under its own numbers. -/
def Delivery.toChild : Delivery → Delivery
  | .element timestamp => .element timestamp
  | .timer timestamp node => .timer timestamp (node - 1)

/-- Something that happens to the state of a tree, in one window or in several. -/
inductive Event
  | deliver (w : Window) (d : Delivery)
  | merge (m : Merge)

/-- What is delivered to one window. -/
def Event.at? (w : Window) : Event → Option Delivery
  | .deliver v d => if v = w then some d else none
  | .merge _ => none

namespace TriggerState

variable {t : Trigger} {w : Window}

def handle (s : TriggerState t) : Event → TriggerState t
  | .deliver w d => (s.deliver w d).2
  | .merge m => (s.merge m).2

/-- The state after events in any windows, from the start. -/
def run (t : Trigger) (events : List Event) : TriggerState t := events.foldl handle .empty

theorem run_concat (t : Trigger) (past : List Event) (e : Event) :
    run t (past ++ [e]) = (run t past).handle e := by
  simp only [run, List.foldl_append, List.foldl_cons, List.foldl_nil]

/-! ### Copies of the child -/

/-- The copy that runs after a delivery: the same one, or a new one if that has finished. -/
def turn (c : TriggerState t) (w : Window) (d : Delivery) : TriggerState t :=
  match c.deliver w d with
  | (.ok .fireAndFinish, _) => .empty
  | (_, c') => c'

/-- The copy that runs after deliveries to a window. -/
def copy (t : Trigger) (w : Window) (seen : List Delivery) : TriggerState t :=
  seen.foldl (fun c d => c.turn w d.toChild) .empty

theorem copy_concat (t : Trigger) (w : Window) (seen : List Delivery) (d : Delivery) :
    copy t w (seen ++ [d]) = (copy t w seen).turn w d.toChild := by
  simp only [copy, List.foldl_append, List.foldl_cons, List.foldl_nil]

theorem turn_of_ok {c : TriggerState t} {d : Delivery} {o : Outcome}
    (h : (c.deliver w d).1 = .ok o) :
    c.turn w d = if o.finishes then .empty else (c.deliver w d).2 := by
  unfold turn
  generalize c.deliver w d = r at h ⊢
  obtain ⟨answer, c'⟩ := r
  obtain rfl : answer = .ok o := h
  cases o <;> rfl

/-- The repetition holds the state of the copy that runs, below a root that has not finished. A copy
that has just started may know nothing of the window where the repetition holds a blank state. -/
structure Holds (s : TriggerState (.repeatedly t)) (c : TriggerState t) (w : Window) : Prop where
  state : s.stateOf w = ⟨false, c.stateOf w⟩
  unfinished : (c.stateOf w).finished = false
  held : c.contains w = true → s.contains w = true

/-- What may be delivered while a copy runs: an element, a timer that is pending, or any timer of a
leaf once the copy knows the window. -/
def Owed (s : TriggerState (.repeatedly t)) (c : TriggerState t) (w : Window) : Delivery → Prop
  | .element _ => True
  | .timer timestamp node => s.Pending w (.timer timestamp node) ∨
      (∃ leaf ∈ t.leavesFrom 0, node = leaf + 1) ∧ c.contains w = true

variable {s : TriggerState (.repeatedly t)} {c : TriggerState t}

theorem holds_empty (t : Trigger) (w : Window) :
    Holds (.empty : TriggerState (.repeatedly t)) .empty w :=
  ⟨rfl, rfl, nofun⟩

theorem Holds.congr {s' : TriggerState (.repeatedly t)} (h : Holds s c w)
    (hs : s'.find? w = s.find? w) : Holds s' c w where
  state := by rw [← h.state, stateOf, stateOf, hs]
  unfinished := h.unfinished
  held hc := by
    have hheld := h.held hc
    rw [WindowMap.contains_iff] at hheld ⊢
    rwa [hs]

theorem Holds.found (h : Holds s c w) {u : t.State} (hc : c.find? w = some u) :
    s.find? w = some ⟨false, u⟩ ∧ u.finished = false := by
  obtain ⟨state, hs⟩ := WindowMap.contains_iff.mp (h.held (WindowMap.contains_iff.mpr ⟨u, hc⟩))
  have hstate := h.state
  have hunfinished := h.unfinished
  rw [stateOf_of_some hs, stateOf_of_some hc] at hstate
  rw [stateOf_of_some hc] at hunfinished
  exact ⟨hstate ▸ hs, hunfinished⟩

theorem Holds.pending_iff (h : Holds s c w) {timestamp : Int} {node : Nat} :
    s.Pending w (.timer timestamp node) ↔
      ∃ k, node = k + 1 ∧ c.Pending w (.timer timestamp k) := by
  constructor
  · intro hpending
    obtain ⟨state, hs, hmem⟩ := mem_timers.mp hpending
    have hstate := h.state
    rw [stateOf_of_some hs] at hstate
    rw [hstate] at hmem
    obtain ⟨k, rfl, htimer⟩ := mem_timersFrom_shift (t := t) hmem
    refine ⟨k, rfl, ?_⟩
    cases hc : c.find? w with
    | none =>
      -- the repetition holds a blank state then, which asks for nothing
      rw [stateOf_of_none hc] at htimer
      exact absurd htimer (by simp [Trigger.fresh, Slot.start, t.timersFrom_blank])
    | some u =>
      rw [stateOf_of_some hc] at htimer
      exact mem_timers.mpr ⟨u, hc, htimer⟩
  · rintro ⟨k, rfl, hcopy⟩
    obtain ⟨u, hc, hmem⟩ := mem_timers.mp hcopy
    refine mem_timers.mpr ⟨⟨false, u⟩, (h.found hc).1, ?_⟩
    show (timestamp, k + 1) ∈ t.timersFrom (0 + 1) u.memory
    rw [Trigger.timersFrom_renumber 1 t 0]
    exact List.mem_map.mpr ⟨(timestamp, k), hmem, rfl⟩

theorem Holds.owed (h : Holds s c w) {timestamp : Int} {node : Nat}
    (hd : Owed s c w (.timer timestamp node)) :
    ∃ leaf u, leaf ∈ t.leavesFrom 0 ∧ node = leaf + 1 ∧ c.find? w = some u := by
  rcases hd with hpending | ⟨⟨leaf, hleaf, rfl⟩, hheld⟩
  · obtain ⟨k, rfl, hcopy⟩ := h.pending_iff.mp hpending
    obtain ⟨u, hc, hmem⟩ := mem_timers.mp hcopy
    exact ⟨k, u, t.mem_leaves_of_mem_timersFrom 0 u.memory hmem, rfl, hc⟩
  · obtain ⟨u, hc⟩ := WindowMap.contains_iff.mp hheld
    exact ⟨leaf, u, hleaf, rfl, hc⟩

/-- A delivery to the repetition and to the copy that runs: the repetition answers for the copy, and
afterwards holds the state of the one that runs then. -/
structure Repeats (s : TriggerState (.repeatedly t)) (c : TriggerState t) (w : Window)
    (d : Delivery) : Prop where
  answers : ∃ o : Outcome,
    (c.deliver w d.toChild).1 = .ok o ∧ (s.deliver w d).1 = .ok o.repeated
  goes_on : Holds (s.deliver w d).2 (c.turn w d.toChild) w

/-- The child's state that a repetition goes on with: a blank one if the child has finished. -/
def restarted (u : t.State) (o : Outcome) : t.State := if o.finishes then t.fresh else u

theorem next_repeated {σ : Type} {r : Step (Slot σ) Outcome} {o : Outcome} (ho : r.answer = .ok o)
    (memory : σ) :
    (r.next id fun u o =>
      if o.finishes then ⟨Slot.start memory, true, .ok .fire⟩
      else .quiet u (.ok (if o.fires then .fire else .idle))) =
        ⟨if o.finishes then Slot.start memory else r.state, r.wrote || o.finishes,
          .ok o.repeated⟩ := by
  rw [Step.next_ok ho]
  cases o <;> rfl

theorem onElement_repeated {e : ElementEvent} {u : t.State} {o : Outcome}
    (ht : t.isBuiltIn = true) (ho : (u.offer (t.onElement e 0)).answer = .ok o) :
    Trigger.onElement e (.repeatedly t) 0 u =
      ⟨restarted (u.offer (t.onElement e 0)).state o,
        (u.offer (t.onElement e 0)).wrote || o.finishes, .ok o.repeated⟩ := by
  simp only [Trigger.onElement]
  rw [Trigger.onElement_renumber e t (0 + 1) 0 ht]
  exact next_repeated ho t.blank

theorem onTimer_repeated {timestamp : Int} {leaf : Nat} {u : t.State} {o : Outcome}
    (ht : t.isBuiltIn = true) (hleaf : leaf ∈ t.leavesFrom 0)
    (ho : (u.offer (t.onTimer ⟨w, leaf, timestamp⟩ 0)).answer = .ok o) :
    Trigger.onTimer ⟨w, leaf + 1, timestamp⟩ (.repeatedly t) 0 u =
      ⟨restarted (u.offer (t.onTimer ⟨w, leaf, timestamp⟩ 0)).state o,
        (u.offer (t.onTimer ⟨w, leaf, timestamp⟩ 0)).wrote || o.finishes, .ok o.repeated⟩ := by
  have hleaf' : leaf + 1 ∈ t.leavesFrom (0 + 1) := (Trigger.mem_leavesFrom_renumber 1 t 0).mpr hleaf
  have hoffer : u.offer (t.onTimer ⟨w, leaf + 1, timestamp⟩ (0 + 1)) =
      u.offer (t.onTimer ⟨w, leaf, timestamp⟩ 0) :=
    Trigger.offer_congr (Trigger.onTimer_renumber w timestamp leaf 1 t 0 u.memory ht hleaf)
  refine (Trigger.onTimer_repeatedly (m := u) hleaf').trans ?_
  rw [hoffer]
  exact next_repeated ho t.blank

theorem repeats_of_child {d : Delivery} {u u' : t.State} {o : Outcome}
    (hcopy : (c.deliver w d.toChild).1 = .ok o) (hroot : (s.deliver w d).1 = .ok o.repeated)
    (hchild : (c.deliver w d.toChild).2.find? w = some u) (hu : u.finished = o.finishes)
    (hstate : (s.deliver w d).2.find? w = some ⟨false, u'⟩) (hu' : u' = restarted u o) :
    Repeats s c w d := by
  refine ⟨⟨o, hcopy, hroot⟩, ?_⟩
  have hheld : (s.deliver w d).2.contains w = true := WindowMap.contains_iff.mpr ⟨_, hstate⟩
  rw [turn_of_ok hcopy]
  unfold restarted at hu'
  split at hu'
  · -- a new copy runs, and a blank state stands for it
    rename_i hf
    rw [if_pos hf]
    subst hu'
    exact ⟨stateOf_of_some hstate, rfl, nofun⟩
  · rename_i hf
    rw [if_neg hf]
    subst hu'
    exact ⟨(stateOf_of_some hstate).trans (by rw [stateOf_of_some hchild]),
      by rw [stateOf_of_some hchild, hu, Bool.eq_false_iff.mpr hf], fun _ => hheld⟩

theorem find?_of_insert {s s' : TriggerState t} {d : Delivery} {answer : Except Fault Outcome}
    {state : t.State} (h : s.deliver w d = (answer, s'.insert w state)) :
    (s.deliver w d).2.find? w = some state := by
  rw [h, WindowMap.find?_insert_self]

theorem find?_element {s : TriggerState t} (ht : t.isBuiltIn = true) {timestamp : Int} {o : Outcome}
    (ho : ((s.stateOf w).offer (t.onElement ⟨w, timestamp⟩ 0)).answer = .ok o) :
    (s.deliver w (.element timestamp)).2.find? w =
      some ((s.stateOf w).offer (t.onElement ⟨w, timestamp⟩ 0)).state := by
  have hkept : (((s.stateOf w).offer (t.onElement ⟨w, timestamp⟩ 0)).wrote || s.contains w) =
      true := by
    cases hfind : s.find? w with
    | some state => rw [WindowMap.contains_iff.mpr ⟨state, hfind⟩, Bool.or_true]
    | none =>
      -- the first element of a window always writes
      rw [stateOf_of_none hfind]
      have hwrote := Slot.wrote_offer (s := t.fresh) rfl
        (t.onElement_wrote ⟨w, timestamp⟩ 0 _ ht t.running_blank)
      rw [hwrote, Bool.true_or]
  rw [deliver, element_eq (e := ⟨w, timestamp⟩) ho]
  simp only [keep, hkept, if_true, WindowMap.find?_insert]

theorem Holds.element (h : Holds s c w) (ht : t.isBuiltIn = true) (timestamp : Int) :
    Repeats s c w (.element timestamp) := by
  obtain ⟨o, ho⟩ := t.onElement_answers ⟨w, timestamp⟩ 0 (c.stateOf w).memory ht
  have hchild := Slot.offer_of_open h.unfinished ho
  have hcopy := congrArg Step.answer hchild
  have hrepeated := onElement_repeated (e := ⟨w, timestamp⟩) ht hcopy
  have hanswer : ((Trigger.repeatedly t).onElement ⟨w, timestamp⟩ 0 (s.stateOf w).memory).answer =
      .ok o.repeated := by rw [h.state, hrepeated]
  have hroot := Slot.offer_of_open (by rw [h.state]) hanswer
  have hstate := find?_element (t := .repeatedly t) ht (congrArg Step.answer hroot)
  rw [hroot, h.state, o.repeated_finishes] at hstate
  exact repeats_of_child (congrArg Prod.fst (element_eq hcopy))
    (congrArg Prod.fst (element_eq (congrArg Step.answer hroot))) (find?_element ht hcopy)
    (by rw [hchild]) hstate (congrArg Step.state hrepeated)

theorem Holds.timer (h : Holds s c w) (ht : t.isBuiltIn = true) {timestamp : Int} {leaf : Nat}
    {u : t.State} (hleaf : leaf ∈ t.leavesFrom 0) (hc : c.find? w = some u) :
    Repeats s c w (.timer timestamp (leaf + 1)) := by
  obtain ⟨hs, hunfinished⟩ := h.found hc
  obtain ⟨o, ho⟩ := t.onTimer_answers ⟨w, leaf, timestamp⟩ 0
    (t.cancelFrom timestamp leaf 0 u.memory) ht hleaf
  have hcancel : Trigger.cancelFrom timestamp (leaf + 1) (.repeatedly t) 0 u =
      { u with memory := t.cancelFrom timestamp leaf 0 u.memory } :=
    congrArg (Slot.mk u.finished) (Trigger.cancelFrom_renumber timestamp leaf 1 t 0 u.memory)
  have hchild := Slot.offer_of_open (s := { u with
    memory := t.cancelFrom timestamp leaf 0 u.memory }) hunfinished ho
  have hcopy : c.deliver w (.timer timestamp leaf) = _ := timer_eq (e := ⟨w, leaf, timestamp⟩)
    (stateOf_cancel hc timestamp leaf) (congrArg Step.answer hchild)
  have hroot := timer_routed hs rfl hcancel
    (onTimer_repeated ht hleaf (congrArg Step.answer hchild))
  have hstate := find?_of_insert hroot
  rw [o.repeated_finishes] at hstate
  exact repeats_of_child (congrArg Prod.fst hcopy) (congrArg Prod.fst hroot)
    (find?_of_insert hcopy) (by rw [hchild]) hstate rfl

theorem Holds.deliver (h : Holds s c w) (ht : t.isBuiltIn = true) {d : Delivery}
    (hd : Owed s c w d) : Repeats s c w d := by
  cases d with
  | element timestamp => exact h.element ht timestamp
  | timer timestamp node =>
    obtain ⟨leaf, u, hleaf, rfl, hc⟩ := h.owed hd
    exact h.timer ht hleaf hc

/-! ### A run -/

/-- What may happen while a copy runs: what is owed to its window, anything in other windows, and
merges that leave the window alone. -/
def Allowed (s : TriggerState (.repeatedly t)) (c : TriggerState t) (w : Window) : Event → Prop
  | .deliver v d => v = w → Owed s c w d
  | .merge m => w ∉ m.olds ∧ m.into ≠ w

/-- Each of the events is allowed when its turn comes. -/
def AllAllowed (t : Trigger) (w : Window) (events : List Event) : Prop :=
  ∀ past e rest, events = past ++ e :: rest →
    Allowed (run (.repeatedly t) past) (copy t w (past.filterMap (·.at? w))) w e

theorem allAllowed_nil : AllAllowed t w [] := forall_split_nil

theorem allAllowed_concat {past : List Event} {e : Event} :
    AllAllowed t w (past ++ [e]) ↔ AllAllowed t w past ∧
      Allowed (run (.repeatedly t) past) (copy t w (past.filterMap (·.at? w))) w e :=
  forall_split_concat

theorem find?_merge_of_ne {m : Merge} (s : TriggerState t) (holds : w ∉ m.olds)
    (hinto : m.into ≠ w) : (s.merge m).2.find? w = s.find? w := by
  have hrest : (TriggerState.keep (m.olds.foldl take (.empty, s)).2 m.into
      (s.mergeStep m)).find? w = s.find? w := by
    rw [find?_keep_of_ne _ hinto, find?_left, if_neg holds]
  show (commit _ _ (s.mergeStep m).answer).2.find? w = _
  cases (s.mergeStep m).answer with
  | ok o => exact hrest
  | error fault =>
    have hmem : w ∉ m.olds ++ [m.into] := fun hw => (List.mem_append.mp hw).elim holds
      fun hw => hinto (List.mem_singleton.mp hw).symm
    exact (find?_restore_saved ..).trans ((if_neg hmem).trans hrest)

theorem Holds.handle (h : Holds s c w) (ht : t.isBuiltIn = true) {e : Event}
    (he : Allowed s c w e) :
    Holds (s.handle e) ((e.at? w).elim c fun d => c.turn w d.toChild) w := by
  cases e with
  | merge m => exact h.congr (find?_merge_of_ne s he.1 he.2)
  | deliver v d =>
    by_cases hv : v = w
    · subst hv
      simp only [handle, Event.at?, if_true, Option.elim]
      exact (h.deliver ht (he rfl)).goes_on
    · -- what happens in another window leaves this one as it is
      simp only [Event.at?, hv, if_false, Option.elim]
      exact h.congr (find?_deliver_of_ne hv d)

theorem run_holds (ht : t.isBuiltIn = true) {events : List Event} (h : AllAllowed t w events) :
    Holds (run (.repeatedly t) events) (copy t w (events.filterMap (·.at? w))) w := by
  induction events using List.reverseRecOn with
  | nil => exact holds_empty t w
  | append_singleton past e ih =>
    obtain ⟨hpast, he⟩ := allAllowed_concat.mp h
    have hnext := (ih hpast).handle ht he
    rw [run_concat, List.filterMap_append]
    cases hd : e.at? w with
    | none => simpa [hd] using hnext
    | some d => simpa [hd, copy_concat] using hnext

theorem All.foldl_take {I : t.State → Prop} (hfresh : I t.fresh) (olds : List Window)
    {p : TriggerState t × TriggerState t} (htaken : p.1.All I) (hrest : p.2.All I) :
    (olds.foldl take p).1.All I ∧ (olds.foldl take p).2.All I := by
  induction olds generalizing p with
  | nil => exact ⟨htaken, hrest⟩
  | cons v olds ih =>
    refine ih (fun w state hw => ?_) (hrest.erase v)
    rw [take, WindowMap.find?_insert] at hw
    split at hw
    · exact Option.some.inj hw ▸ hrest.stateOf hfresh v
    · exact htaken w state hw

/-- The root has finished in no window. -/
def Unfinished (s : TriggerState t) : Prop := s.All fun state => state.finished = false

theorem Unfinished.offer {run : t.Memory → Step t.Memory Outcome} {u : t.State}
    (hu : u.finished = false)
    (hrun : ∀ o : Outcome, (run u.memory).answer = .ok o → o.finishes = false) :
    (u.offer run).Ensures fun u o => u.finished = false ∧ o.finishes = false := by
  intro o ho
  have ho' := Slot.not_finishes_of_offer hrun ho
  have hafter := Slot.offer_ensures (C := fun finished _ => finished = false) (s := u) hu
    (fun o ho => (congrArg (· || o.finishes) hu).trans (hrun o ho)) o ho
  exact ⟨hafter.2, ho'⟩

theorem Unfinished.mergeStep {s : TriggerState t} (hs : s.Unfinished) (ht : t.Endless) (m : Merge) :
    (s.mergeStep m).Ensures fun u o => u.finished = false ∧ o.finishes = false := by
  obtain ⟨htaken, hrest⟩ := All.foldl_take (I := fun state => state.finished = false) rfl m.olds
    (p := (.empty, s)) nofun hs
  have hinto := hrest.stateOf rfl m.into
  have hany : ((m.olds.foldl take (.empty, s)).1.entries.map (·.2)).any (·.finished) = false := by
    refine List.any_eq_false.mpr fun u hu => ?_
    obtain ⟨p, hp, rfl⟩ := List.mem_map.mp hu
    simp [htaken p.1 p.2 (WindowMap.mem_entries.mp hp)]
  simp only [TriggerState.mergeStep, Slot.merge, hany, Bool.false_eq_true, if_false]
  refine Step.Ensures.next (P := fun _ o => o.finishes = false) (fun o ho => ht.onMerge ho) ?_
  rintro u o ho _ ⟨⟩
  exact ⟨by rw [hinto, ho]; rfl, ho⟩

theorem Reachable.unfinished {s : TriggerState t} (ht : t.Endless) (hs : Reachable s) :
    s.Unfinished := by
  induction hs with
  | empty => exact fun _ _ h => nomatch h
  | @element s hs e ih =>
    exact All.element ih ((Unfinished.offer (ih.stateOf rfl e.window)
      fun _ => ht.onElement).imp fun _ _ hu => hu.1)
  | @merge s hs m ih => exact All.merge ih ((ih.mergeStep ht m).imp fun _ _ hu => hu.1)
  | @timer s hs e ih =>
    exact All.timer ih ((Unfinished.offer (ih.stateOf rfl e.window)
      fun _ => ht.onTimer).imp fun _ _ hu => hu.1)
  | @cancel s hs a ih =>
    intro w state hw
    rw [find?_cancel] at hw
    split at hw
    · obtain ⟨old, hold, rfl⟩ := Option.map_eq_some_iff.mp hw
      exact ih w old hold
    · exact ih w state hw
  | clear hs w ih => exact ih.erase w

/-- The root has finished nowhere, and no event makes it finish. -/
structure NeverEnds (s : TriggerState t) : Prop where
  unfinished : ∀ w, s.isFinished w 0 = false
  element : ∀ e, (s.element e).1 ≠ .ok .fireAndFinish
  timer : ∀ e, (s.timer e).1 ≠ .ok .fireAndFinish
  merge : ∀ m, (s.merge m).1 ≠ .ok .fireAndFinish ∧ (s.merge m).1 ≠ .ok .alreadyFinished

theorem Reachable.neverEnds {s : TriggerState t} (ht : t.Endless) (hs : Reachable s) :
    s.NeverEnds where
  unfinished w := Bool.eq_false_iff.mpr fun hf =>
    Bool.eq_false_iff.mp ((hs.unfinished ht).stateOf rfl w) (isFinished_root.mp hf)
  element e h := by
    cases ht.element (Prod.ext h rfl)
  timer e h := by
    cases ht.timer (Prod.ext h rfl)
  merge m := by
    rw [merge_answer]
    have hstep := (hs.unfinished ht).mergeStep ht m
    refine ⟨fun h => ?_, fun h => ?_⟩
    · cases (hstep _ h).2
    · cases (hstep _ h).2

/-- A repetition restarts its child cleanly and never finishes: not in any state that events reach,
merges included, and in a window that no merge touches it answers for consecutive fresh copies of
its child. It fires where the copy that runs fires; that copy is replaced where it finishes; and the
only pending timers are those of the copy that runs. -/
theorem repeats_fresh_copies (ht : t.isBuiltIn = true) :
    (∀ s : TriggerState (.repeatedly t), Reachable s → s.NeverEnds) ∧
    ∀ (w : Window) (past : List Event) (d : Delivery), AllAllowed t w (past ++ [.deliver w d]) →
      (∃ o : Outcome,
        ((copy t w (past.filterMap (·.at? w))).deliver w d.toChild).1 = .ok o ∧
        ((run (.repeatedly t) past).deliver w d).1 = .ok o.repeated) ∧
      ∀ timestamp node, (run (.repeatedly t) past).Pending w (.timer timestamp node) ↔
        ∃ k, node = k + 1 ∧
          (copy t w (past.filterMap (·.at? w))).Pending w (.timer timestamp k) := by
  refine ⟨fun s hs => hs.neverEnds (.inr ⟨t, rfl⟩), fun w past d hallowed => ?_⟩
  obtain ⟨hpast, hd⟩ := allAllowed_concat.mp hallowed
  have hholds := run_holds ht hpast
  exact ⟨(hholds.deliver ht (hd rfl)).answers, fun _ _ => hholds.pending_iff⟩

/-- Two elements, or the end of the window. -/
def pairOrEnd : Trigger := .afterFirst [.afterCount 2, .afterWatermark]

/-- Two elements of a window, and in between a merge and an element elsewhere. -/
def pairWithin : List Event :=
  [] ++ [.deliver (.interval 0 10) (.element 1)] ++
    [.merge ⟨[.interval 20 25], .interval 20 30⟩] ++
    [.deliver (.interval 20 30) (.element 22)] ++ [.deliver (.interval 0 10) (.element 2)]

/-- The second element finishes the first copy, and its timer is gone; the third asks for one anew,
and the repetition fires when that comes. -/
theorem repeats_fresh_copies_of_pairOrEnd :
    pairOrEnd.isBuiltIn = true ∧
      AllAllowed pairOrEnd (.interval 0 10) (pairWithin ++
        [.deliver (.interval 0 10) (.element 3)] ++ [.deliver (.interval 0 10) (.timer 9 3)]) ∧
      ¬(run (.repeatedly pairOrEnd) pairWithin).Pending (.interval 0 10) (.timer 9 3) ∧
      ((run (.repeatedly pairOrEnd) (pairWithin ++
        [.deliver (.interval 0 10) (.element 3)])).deliver (.interval 0 10) (.timer 9 3)).1 =
          .ok .fire ∧
      (run (.repeatedly pairOrEnd) pairWithin).NeverEnds := by
  have hpair : AllAllowed pairOrEnd (.interval 0 10) pairWithin :=
    allAllowed_concat.mpr ⟨allAllowed_concat.mpr ⟨allAllowed_concat.mpr ⟨allAllowed_concat.mpr
      ⟨allAllowed_nil, fun _ => trivial⟩, by decide, by decide⟩, fun h => absurd h (by decide)⟩,
      fun _ => trivial⟩
  have hthird : AllAllowed pairOrEnd (.interval 0 10)
      (pairWithin ++ [.deliver (.interval 0 10) (.element 3)]) :=
    allAllowed_concat.mpr ⟨hpair, fun _ => trivial⟩
  have htimer : (run (.repeatedly pairOrEnd) (pairWithin ++
      [.deliver (.interval 0 10) (.element 3)])).Pending (.interval 0 10) (.timer 9 3) :=
    List.mem_of_getElem? (i := 0) rfl
  have hall : AllAllowed pairOrEnd (.interval 0 10) (pairWithin ++
      [.deliver (.interval 0 10) (.element 3)] ++ [.deliver (.interval 0 10) (.timer 9 3)]) :=
    allAllowed_concat.mpr ⟨hthird, fun _ => .inl htimer⟩
  obtain ⟨hnever, hcopies⟩ := repeats_fresh_copies (t := pairOrEnd) rfl
  obtain ⟨-, hpending⟩ := hcopies _ _ (.element 3) hthird
  obtain ⟨⟨o, hcopy, hroot⟩, -⟩ := hcopies _ _ (.timer 9 3) hall
  obtain rfl : .fireAndFinish = o := Except.ok.inj hcopy
  refine ⟨rfl, hall, fun h => ?_, hroot, hnever _ ?_⟩
  · obtain ⟨k, -, hk⟩ := (hpending 9 3).mp h
    cases hk
  · exact .element (.element (.merge (.element .empty _) _) _) _

end TriggerState

end EventTime
