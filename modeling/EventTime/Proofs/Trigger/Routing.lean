import EventTime.Proofs.Trigger.Finished

/-!
# The leaf a timer is delivered to

A traced delivery is a delivery that writes down which leaves it asks; without these notes it is the
delivery itself. A timer that is taken from a state is delivered to the leaf that set it and to no
other leaf, unless a node above that leaf, or the leaf itself, has finished: then no leaf is asked,
and the tree has nothing to answer.
-/

namespace EventTime

/-- An evaluation, and the numbers of the leaves it asked. -/
structure Traced (σ ρ : Type) where
  step : Step σ ρ
  asked : List Nat

namespace Traced

variable {σ τ ρ υ : Type}

/-- Refuse an event without asking anyone. -/
def refuse (state : σ) (cause : Fault) : Traced σ ρ := ⟨.quiet state (.error cause), []⟩

/-- Go on with the answer of a step; what follows asks no leaf. -/
def next (r : Traced σ ρ) (keep : σ → τ) (k : σ → ρ → Step τ υ) : Traced τ υ :=
  ⟨r.step.next keep k, r.asked⟩

/-- Offer a timer to a node: a finished node lets it pass, and nothing below is asked. -/
def offer (s : Slot σ) (run : σ → Traced σ Outcome) : Traced (Slot σ) Outcome :=
  ⟨s.offer fun m => (run m).step, if s.finished then [] else (run s.memory).asked⟩

theorem step_offer {s : Slot σ} {run : σ → Traced σ Outcome} {plain : σ → Step σ Outcome}
    (h : (run s.memory).step = plain s.memory) : (offer s run).step = s.offer plain := by
  simp only [offer, Slot.offer, h]

theorem step_next {r : Traced σ ρ} {plain : Step σ ρ} (h : r.step = plain) (keep : σ → τ)
    (k : σ → ρ → Step τ υ) : (r.next keep k).step = plain.next keep k := by
  rw [next, h]

end Traced

namespace Trigger

mutual

/-- React to a timer, and write down the leaf that is asked. -/
def traceTimer (e : TimerEvent) :
    (t : Trigger) → (node : Nat) → t.Memory → Traced t.Memory Outcome
  | .leaf l, node, c => ⟨(l.onTimer node e c).step c, [node]⟩
  | .afterFirst ts, node, m =>
    if e.destination = node then .refuse m (.timerAtComposite "AfterFirst" node)
    else traceTimerAmong e node ts (node + 1) m
  | .repeatedly t, node, m =>
    if e.destination = node then .refuse m (.timerAtComposite "Repeatedly" node)
    else
      (Traced.offer m (traceTimer e t (node + 1))).next id fun s o =>
        if o.finishes then ⟨Slot.start t.blank, true, .ok .fire⟩
        else .quiet s (.ok (if o.fires then .fire else .idle))
  | .orFinally a b, node, m =>
    if e.destination = node then .refuse m (.timerAtComposite "OrFinally" node)
    else if Leads a (node + 1) e.destination then
      (Traced.offer m.1 (traceTimer e a (node + 1))).next (·, m.2) fun s o =>
        .quiet (s, m.2) (.ok o)
    else if Leads b (node + 1 + a.size) e.destination then
      (Traced.offer m.2 (traceTimer e b (node + 1 + a.size))).next (m.1, ·) fun s o =>
        .quiet (m.1, s) (.ok (if o.fires then .fireAndFinish else o))
    else .refuse m (.noPathToTimer node e.destination)

def traceTimerAmong (e : TimerEvent) (parent : Nat) :
    (ts : List Trigger) → (node : Nat) → Memories ts → Traced (Memories ts) Outcome
  | [], _, m => .refuse m (.noPathToTimer parent e.destination)
  | t :: ts, node, m =>
    if Leads t node e.destination then
      (Traced.offer m.1 (traceTimer e t node)).next (·, m.2) fun s o =>
        .quiet (s, m.2) (.ok (if o.fires then .fireAndFinish else .idle))
    else
      (traceTimerAmong e parent ts (node + t.size) m.2).next (m.1, ·) fun rest o =>
        .quiet (m.1, rest) (.ok o)

end

mutual

theorem step_traceTimer (e : TimerEvent) : (t : Trigger) → (node : Nat) → (m : t.Memory) →
    (traceTimer e t node m).step = onTimer e t node m
  | .leaf _, _, _ => rfl
  | .afterFirst ts, node, m => by
    by_cases hd : e.destination = node
    · exact (congrArg Traced.step (if_pos hd)).trans (if_pos hd).symm
    · have hts := step_traceTimerAmong e node ts (node + 1) m
      exact (congrArg Traced.step (if_neg hd)).trans (hts.trans (if_neg hd).symm)
  | .repeatedly t, node, m => by
    have hc := Traced.step_offer (s := m) (step_traceTimer e t (node + 1) m.memory)
    unfold traceTimer onTimer
    split
    · rfl
    · exact Traced.step_next hc _ _
  | .orFinally a b, node, m => by
    have ha := Traced.step_offer (s := m.1) (step_traceTimer e a (node + 1) m.1.memory)
    have hb := Traced.step_offer (s := m.2) (step_traceTimer e b (node + 1 + a.size) m.2.memory)
    unfold traceTimer onTimer
    split
    · rfl
    · split
      · exact Traced.step_next ha _ _
      · split
        · exact Traced.step_next hb _ _
        · rfl

theorem step_traceTimerAmong (e : TimerEvent) (parent : Nat) : (ts : List Trigger) →
    (node : Nat) → (m : Memories ts) →
      (traceTimerAmong e parent ts node m).step = onTimerAmong e parent ts node m
  | [], _, _ => rfl
  | t :: ts, node, m => by
    have hc := Traced.step_offer (s := m.1) (step_traceTimer e t node m.1.memory)
    unfold traceTimerAmong onTimerAmong
    split
    · exact Traced.step_next hc _ _
    · exact Traced.step_next (step_traceTimerAmong e parent ts (node + t.size) m.2) _ _

end

/-! ### Finished nodes on the way -/

/-- A node among the rows that has a property, and has `d` in its subtree; the first of the rows has
number `node`. -/
def Above (rows : List Node) (node : Nat) (P : Nat → Prop) (d : Nat) : Prop :=
  ∃ i r, rows[i]? = some r ∧ P (node + i) ∧ node + i ≤ d ∧ d < r.stop

theorem above_congr {rows : List Node} {node d : Nat} {P Q : Nat → Prop}
    (h : ∀ i, node ≤ i → i < node + rows.length → (P i ↔ Q i)) :
    Above rows node P d ↔ Above rows node Q d := by
  refine exists_congr fun i => exists_congr fun r => and_congr_right fun hr =>
    and_congr_left fun _ => h (node + i) (Nat.le_add_right ..) ?_
  have hi := (List.getElem?_eq_some_iff.mp hr).1
  omega

theorem above_append (rows : List Node) {rows' : List Node} {node d : Nat} {P : Nat → Prop} :
    Above (rows ++ rows') node P d ↔
      Above rows node P d ∨ Above rows' (node + rows.length) P d := by
  constructor
  · rintro ⟨i, r, hr, hp, hle, hlt⟩
    rw [List.getElem?_append] at hr
    split at hr
    · exact .inl ⟨i, r, hr, hp, hle, hlt⟩
    · rename_i hi
      have heq : node + rows.length + (i - rows.length) = node + i := by omega
      exact .inr ⟨i - rows.length, r, hr, heq ▸ hp, by omega, hlt⟩
  · rintro (⟨i, r, hr, hp, hle, hlt⟩ | ⟨i, r, hr, hp, hle, hlt⟩)
    · have hi : i < rows.length := (List.getElem?_eq_some_iff.mp hr).1
      refine ⟨i, r, ?_, hp, hle, hlt⟩
      rwa [List.getElem?_append_left hi]
    · have heq : node + (rows.length + i) = node + rows.length + i := by omega
      refine ⟨rows.length + i, r, ?_, heq ▸ hp, by omega, hlt⟩
      rwa [List.getElem?_append_right (Nat.le_add_right ..), Nat.add_sub_cancel_left]

theorem above_cons {rows : List Node} {r : Node} {node d : Nat} {P : Nat → Prop}
    (hd : node ≤ d ∧ d < r.stop) :
    Above (r :: rows) node P d ↔ P node ∨ Above rows (node + 1) P d := by
  refine (above_append [r]).trans (or_congr_left ⟨?_, fun hp => ⟨0, r, rfl, hp, hd⟩⟩)
  rintro ⟨i, r', hr, hp, -⟩
  obtain rfl : i = 0 := by simpa using (List.getElem?_eq_some_iff.mp hr).1
  exact hp

/-- Finished nodes of which the first ones are among the first rows. -/
theorem above_append_mem (rows : List Node) {rows' : List Node} {node d : Nat}
    {finished finished' : List Nat}
    (h : ∀ i ∈ finished, i < node + rows.length)
    (h' : ∀ i ∈ finished', node + rows.length ≤ i) :
    Above (rows ++ rows') node (· ∈ finished ++ finished') d ↔
      Above rows node (· ∈ finished) d ∨ Above rows' (node + rows.length) (· ∈ finished') d := by
  refine (above_append rows).trans (or_congr (above_congr fun i _ hi => ?_)
    (above_congr fun i hi _ => ?_))
  · rw [List.mem_append, or_iff_left fun hf => by have hge := h' i hf; omega]
  · rw [List.mem_append, or_iff_right fun hf => by have hlt := h i hf; omega]

theorem above_cons_mem {σ : Type} {rows : List Node} {r : Node} {node d : Nat} {finished : List Nat}
    {s : Slot σ} (hd : node ≤ d ∧ d < r.stop) (h : ∀ i ∈ finished, node < i) :
    Above (r :: rows) node (· ∈ finishedAt node s ++ finished) d ↔
      s.finished = true ∨ Above rows (node + 1) (· ∈ finished) d := by
  refine (above_cons hd).trans (or_congr ?_ (above_congr fun i hi _ => ?_))
  · rw [List.mem_append, mem_finishedAt, or_iff_left fun hf => Nat.lt_irrefl node (h node hf)]
    exact and_iff_right rfl
  · rw [List.mem_append, or_iff_right fun hf => by have heq := (mem_finishedAt.mp hf).1; omega]

mutual

theorem stop_le {r : Node} : (t : Trigger) → (node : Nat) → r ∈ t.arenaFrom node →
    r.stop ≤ node + t.size
  | .leaf l, node, h => by
    obtain rfl := List.mem_singleton.mp h
    exact Nat.le_refl _
  | .afterFirst ts, node, h => by
    rcases List.mem_cons.mp h with rfl | h
    · exact Nat.le_refl _
    · have hb := stop_leAmong ts (node + 1) h
      simp only [size]
      omega
  | .repeatedly t, node, h => by
    rcases List.mem_cons.mp h with rfl | h
    · exact Nat.le_refl _
    · have hb := stop_le t (node + 1) h
      simp only [size]
      omega
  | .orFinally a b, node, h => by
    rcases List.mem_cons.mp h with rfl | h
    · exact Nat.le_refl _
    · simp only [size]
      rcases List.mem_append.mp h with h | h
      · have hb := stop_le a (node + 1) h
        omega
      · have hb := stop_le b (node + 1 + a.size) h
        omega

theorem stop_leAmong {r : Node} : (ts : List Trigger) → (node : Nat) → r ∈ arenaAmong node ts →
    r.stop ≤ node + sizeAll ts
  | [], _, h => by cases h
  | t :: ts, node, h => by
    simp only [sizeAll]
    rcases List.mem_append.mp h with h | h
    · have hb := stop_le t node h
      omega
    · have hb := stop_leAmong ts (node + t.size) h
      omega

end

/-- A finished node below the root of the tree, which has number `node`, has `d` in its subtree. -/
def Below (t : Trigger) (node : Nat) (m : t.Memory) (d : Nat) : Prop :=
  Above (t.arenaFrom node).tail (node + 1) (· ∈ t.finishedBelow node m) d

theorem arenaFrom_eq_cons (t : Trigger) (node : Nat) :
    t.arenaFrom node = row t node :: (t.arenaFrom node).tail := by
  cases t <;> rfl

theorem above_iff {t : Trigger} {node d : Nat} {s : t.State} (hd : Leads t node d) :
    Above (t.arenaFrom node) node (· ∈ t.finishedFrom node s) d ↔
      s.finished = true ∨ t.Below node s.memory d := by
  rw [arenaFrom_eq_cons]
  exact above_cons_mem hd fun i hi => (bounds_of_mem_finishedBelow t node s.memory hi).1

theorem below_orFinally {a b : Trigger} {node d : Nat} {m : (orFinally a b).Memory} :
    Below (.orFinally a b) node m d ↔
      Above (a.arenaFrom (node + 1)) (node + 1) (· ∈ a.finishedFrom (node + 1) m.1) d ∨
      Above (b.arenaFrom (node + 1 + a.size)) (node + 1 + a.size)
        (· ∈ b.finishedFrom (node + 1 + a.size) m.2) d := by
  refine (above_append_mem _ (fun i hi => ?_) fun i hi => ?_).trans ?_
  · rw [length_arenaFrom]
    exact (leads_of_finished (s := m.1) hi).2
  · rw [length_arenaFrom]
    exact (leads_of_finished (s := m.2) hi).1
  · rw [length_arenaFrom]
    rfl

theorem above_among {t : Trigger} {ts : List Trigger} {node d : Nat} {m : Memories (t :: ts)} :
    Above (arenaAmong node (t :: ts)) node (· ∈ finishedAmong (t :: ts) node m) d ↔
      Above (t.arenaFrom node) node (· ∈ t.finishedFrom node m.1) d ∨
      Above (arenaAmong (node + t.size) ts) (node + t.size)
        (· ∈ finishedAmong ts (node + t.size) m.2) d := by
  refine (above_append_mem _ (fun i hi => ?_) fun i hi => ?_).trans ?_
  · rw [length_arenaFrom]
    exact (leads_of_finished (s := m.1) hi).2
  · rw [length_arenaFrom]
    exact (bounds_of_mem_finishedAmong ts _ m.2 hi).1
  · rw [length_arenaFrom]
    rfl

theorem not_above_of_lt {rows : List Node} {node d : Nat} {P : Nat → Prop} (h : d < node) :
    ¬Above rows node P d := by
  rintro ⟨i, r, -, -, hle, -⟩
  omega

theorem not_above_of_ge {t : Trigger} {node d : Nat} {P : Nat → Prop}
    (h : node + t.size ≤ d) : ¬Above (t.arenaFrom node) node P d := by
  rintro ⟨i, r, hr, -, -, hlt⟩
  have hstop := stop_le t node (List.mem_of_getElem? hr)
  omega

end Trigger

/-! ### Delivering to a leaf -/

/-- A delivery asks the leaf `d` and no other, or, if the way to it is barred, no leaf at all and
answers nothing. -/
structure Traced.Reaches {σ : Type} (r : Traced σ Outcome) (bar : Prop) (d : Nat) : Prop where
  barred : bar → r.step.answer = .ok .idle ∧ r.asked = []
  free : ¬bar → r.asked = [d]

namespace Traced

variable {σ τ : Type} {bar bar' : Prop} {d : Nat}

theorem Reaches.congr {r : Traced σ Outcome} (h : r.Reaches bar d) (hiff : bar' ↔ bar) :
    r.Reaches bar' d :=
  ⟨fun hb => h.barred (hiff.mp hb), fun hb => h.free fun hb' => hb (hiff.mpr hb')⟩

theorem Reaches.next {r : Traced σ Outcome} (h : r.Reaches bar d) {keep : σ → τ}
    {k : σ → Outcome → Step τ Outcome} (hk : ∀ s, (k s .idle).answer = .ok .idle) :
    (r.next keep k).Reaches bar d where
  barred hb := by
    obtain ⟨hanswer, hasked⟩ := h.barred hb
    refine ⟨?_, hasked⟩
    rw [Traced.next, Step.next_ok hanswer]
    exact hk _
  free hb := h.free hb

theorem Reaches.offer {s : Slot σ} {run : σ → Traced σ Outcome}
    (h : (run s.memory).Reaches bar d) :
    (Traced.offer s run).Reaches (s.finished = true ∨ bar) d := by
  cases hs : s.finished with
  | true => exact ⟨fun _ => by simp [Traced.offer, Slot.offer, hs, Step.quiet], by simp⟩
  | false =>
    refine ⟨fun hb => ?_, fun hb => ?_⟩
    · obtain ⟨hanswer, hasked⟩ := h.barred (hb.resolve_left Bool.false_ne_true)
      have hoffer : s.offer (fun m => (run m).step) = _ := Slot.offer_of_open hs hanswer
      simp [Traced.offer, hs, hasked, hoffer]
    · simp [Traced.offer, hs, h.free fun hb' => hb (.inr hb')]

end Traced

namespace Trigger

mutual

/-- A timer that is addressed to a leaf is delivered to that leaf unless a node on the way to it has
finished. -/
theorem traceTimer_reaches (e : TimerEvent) : (t : Trigger) → (node : Nat) → (m : t.Memory) →
    e.destination ∈ t.leavesFrom node →
      (traceTimer e t node m).Reaches (t.Below node m e.destination) e.destination
  | .leaf l, node, c, hd => by
    obtain rfl := List.mem_singleton.mp hd
    refine ⟨?_, fun _ => rfl⟩
    rintro ⟨i, r, hr, -⟩
    cases hr
  | .afterFirst ts, node, m, hd => by
    have hb := bounds_of_mem_leavesAmong ts (node + 1) hd
    have hroute : traceTimer e (.afterFirst ts) node m = traceTimerAmong e node ts (node + 1) m :=
      if_neg (by omega)
    rw [hroute]
    exact traceTimerAmong_reaches e node ts (node + 1) m hd
  | .repeatedly t, node, m, hd => by
    have hl : Leads t (node + 1) e.destination := leads_of_mem_leavesFrom t (node + 1) hd
    have hc := (traceTimer_reaches e t (node + 1) m.memory hd).offer (s := m)
    have hb := hl.1
    unfold traceTimer
    rw [if_neg (by omega)]
    exact (hc.next fun _ => rfl).congr (above_iff hl)
  | .orFinally a b, node, m, hd => by
    unfold traceTimer
    rcases List.mem_append.mp hd with hd | hd
    · have hl := leads_of_mem_leavesFrom a (node + 1) hd
      have hc := (traceTimer_reaches e a (node + 1) m.1.memory hd).offer (s := m.1)
      have hb := hl.1
      rw [if_neg (by omega), if_pos hl]
      refine (hc.next fun _ => rfl).congr (below_orFinally.trans ?_)
      rw [or_iff_left (not_above_of_lt hl.2)]
      exact above_iff hl
    · have hl := leads_of_mem_leavesFrom b (node + 1 + a.size) hd
      have hc := (traceTimer_reaches e b (node + 1 + a.size) m.2.memory hd).offer (s := m.2)
      have hb := hl.1
      have hna : ¬Leads a (node + 1) e.destination := fun ha => by
        have hlt := ha.2
        omega
      rw [if_neg (by omega), if_neg hna, if_pos hl]
      refine (hc.next fun _ => rfl).congr (below_orFinally.trans ?_)
      rw [or_iff_right (not_above_of_ge hb)]
      exact above_iff hl

theorem traceTimerAmong_reaches (e : TimerEvent) (parent : Nat) : (ts : List Trigger) →
    (node : Nat) → (m : Memories ts) → e.destination ∈ leavesAmong ts node →
      (traceTimerAmong e parent ts node m).Reaches
        (Above (arenaAmong node ts) node (· ∈ finishedAmong ts node m) e.destination) e.destination
  | [], _, _, hd => by cases hd
  | t :: ts, node, m, hd => by
    unfold traceTimerAmong
    rcases List.mem_append.mp hd with hd | hd
    · have hl := leads_of_mem_leavesFrom t node hd
      have hc := (traceTimer_reaches e t node m.1.memory hd).offer (s := m.1)
      rw [if_pos hl]
      refine (hc.next fun _ => rfl).congr (above_among.trans ?_)
      rw [or_iff_left (not_above_of_lt hl.2)]
      exact above_iff hl
    · have hb := bounds_of_mem_leavesAmong ts (node + t.size) hd
      have hc := traceTimerAmong_reaches e parent ts (node + t.size) m.2 hd
      rw [if_neg fun hl : Leads t node e.destination => Nat.not_lt.mpr hb.1 hl.2]
      refine (hc.next fun _ => rfl).congr (above_among.trans ?_)
      rw [or_iff_right (not_above_of_ge hb.1)]

end

end Trigger

namespace TriggerState

variable {t : Trigger}

/-- Deliver a timer to the root, and write down which leaves are asked. -/
def tracedTimer (s : TriggerState t) (e : TimerEvent) :
    (Except Fault Outcome × TriggerState t) × List Nat :=
  if s.contains e.window then
    let r := Traced.offer (s.stateOf e.window) (t.traceTimer e 0)
    ((s.keep e.window r.step).commit (s.saved [e.window]) r.step.answer, r.asked)
  else ((.ok .idle, s), [])

theorem tracedTimer_fst (s : TriggerState t) (e : TimerEvent) :
    (s.tracedTimer e).1 = s.timer e := by
  have hstep := Traced.step_offer (s := s.stateOf e.window)
    (t.step_traceTimer e 0 (s.stateOf e.window).memory)
  unfold tracedTimer timer
  split
  · simp only [hstep]
  · rfl

/-- A node on the way from the root to the node `d` has finished in a window. The nodes on the way
are those that have `d` in their subtree. -/
def Barred (s : TriggerState t) (w : Window) (d : Nat) : Prop :=
  ∃ i r, t.arena[i]? = some r ∧ i ≤ d ∧ d < r.stop ∧ s.isFinished w i = true

theorem barred_iff {s : TriggerState t} {w : Window} {state : t.State}
    (hs : s.find? w = some state) {d : Nat} :
    s.Barred w d ↔ Trigger.Above (t.arenaFrom 0) 0 (· ∈ t.finishedFrom 0 state) d := by
  simp only [Barred, Trigger.Above, isFinished_iff, hs, Option.some.injEq, exists_eq_left',
    Nat.zero_add, Trigger.arena]
  constructor
  · rintro ⟨i, r, hr, hle, hlt, hmem⟩
    exact ⟨i, r, hr, hmem, hle, hlt⟩
  · rintro ⟨i, r, hr, hmem, hle, hlt⟩
    exact ⟨i, r, hr, hle, hlt, hmem⟩

theorem node_mem_leaves {s : TriggerState t} {a : Timer} (ha : a ∈ s.timers) :
    a.node ∈ t.leavesFrom 0 := by
  obtain ⟨state, -, hmem⟩ := mem_timers.mp ha
  exact t.mem_leaves_of_mem_timersFrom 0 state.memory hmem

/-- A timer that has been taken is delivered to the leaf that set it, unless a node on the way has
finished. -/
theorem tracedTimer_reaches {s : TriggerState t} {a : Timer} (ht : t.isBuiltIn = true)
    (ha : a ∈ s.timers) :
    (∃ o, ((s.cancel a).tracedTimer a.event).1.1 = .ok o) ∧
    ((s.cancel a).Barred a.window a.node → ((s.cancel a).tracedTimer a.event).1.1 = .ok .idle ∧
      ((s.cancel a).tracedTimer a.event).2 = []) ∧
    (¬(s.cancel a).Barred a.window a.node → ((s.cancel a).tracedTimer a.event).2 = [a.node]) := by
  obtain ⟨o, s', htimer, -⟩ := timer_answers ha ht
  obtain ⟨state, hs, -⟩ := mem_timers.mp ha
  have hfind : (s.cancel a).find? a.window = _ := find?_cancel s a a.window
  rw [if_pos rfl, hs, Option.map_some] at hfind
  have hcontains : (s.cancel a).contains a.event.window = true :=
    WindowMap.contains_iff.mpr ⟨_, hfind⟩
  have hstate : (s.cancel a).stateOf a.event.window = _ := stateOf_of_some hfind
  have hleads := Trigger.leads_of_mem_leavesFrom t 0 (node_mem_leaves ha)
  have hreaches := ((t.traceTimer_reaches a.event 0 _ (node_mem_leaves ha)).offer
    (s := (s.cancel a).stateOf a.event.window)).congr
      ((barred_iff (stateOf_of_some hfind ▸ hfind)).trans (Trigger.above_iff hleads))
  refine ⟨⟨o, ?_⟩, fun hb => ?_, fun hb => ?_⟩
  · rw [tracedTimer_fst, htimer]
  · obtain ⟨hanswer, hasked⟩ := hreaches.barred hb
    simp only [tracedTimer, hcontains, if_true, hanswer, commit]
    exact ⟨trivial, hasked⟩
  · simp only [tracedTimer, hcontains, if_true]
    exact hreaches.free hb

end TriggerState

end EventTime
