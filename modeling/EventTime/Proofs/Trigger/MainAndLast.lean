import EventTime.Proofs.Splits
import EventTime.Proofs.Trigger.Deliveries
import EventTime.Proofs.Trigger.Renumbering

/-!
# A main trigger and the one that ends it

A tree with a main and a last child is compared with the two children run alone, each as the root of
its own tree, on the elements and on its own timers. As long as the main child alone has not
finished and the last one alone has not fired, the tree answers what the main child answers; the
first time one of these happens it fires and finishes, and from then on it answers nothing.
-/

namespace EventTime

/-- What a child sees: the elements and its own timers, under its own numbers. -/
def Delivery.toMain (a : Trigger) : Delivery → Option Delivery
  | .element timestamp => some (.element timestamp)
  | .timer timestamp node =>
    if Trigger.Leads a 1 node then some (.timer timestamp (node - 1)) else none

def Delivery.toLast (a b : Trigger) : Delivery → Option Delivery
  | .element timestamp => some (.element timestamp)
  | .timer timestamp node =>
    if Trigger.Leads b (1 + a.size) node then some (.timer timestamp (node - (1 + a.size)))
    else none

namespace TriggerState

variable {a b t : Trigger} {w : Window}

/-- The state after deliveries to one window, from the start. -/
def after (t : Trigger) (w : Window) (past : List Delivery) : TriggerState t :=
  past.foldl (fun s e => (s.deliver w e).2) .empty

/-- Every timer that is delivered is pending when its turn comes. -/
def Deliverable (t : Trigger) (w : Window) (events : List Delivery) : Prop :=
  ∀ past e rest, events = past ++ e :: rest → (after t w past).Pending w e

/-- What a tree answers to a delivery, if it sees it. -/
def reply (s : TriggerState t) (w : Window) (e : Option Delivery) : Option (Except Fault Outcome) :=
  e.map fun e => (s.deliver w e).1

/-- What a child alone answers to a delivery after others. -/
def mainReply (a : Trigger) (w : Window) (past : List Delivery) (e : Delivery) :
    Option (Except Fault Outcome) :=
  (after a w (past.filterMap (·.toMain a))).reply w (e.toMain a)

def lastReply (a b : Trigger) (w : Window) (past : List Delivery) (e : Delivery) :
    Option (Except Fault Outcome) :=
  (after b w (past.filterMap (·.toLast a b))).reply w (e.toLast a b)

/-- The main child finishes or the last one fires. -/
def Decisive (main last : Option (Except Fault Outcome)) : Prop :=
  (∃ o, main = some (.ok o) ∧ o.finishes = true) ∨ ∃ o, last = some (.ok o) ∧ o.fires = true

/-- At one of the deliveries the main child alone finished or the last one alone fired. -/
def Decided (a b : Trigger) (w : Window) (events : List Delivery) : Prop :=
  ∃ past e rest, events = past ++ e :: rest ∧
    Decisive (mainReply a w past e) (lastReply a b w past e)

/-- How a tree answers, by the answers of its two children. -/
structure Follows (answer : Except Fault Outcome) (main last : Option (Except Fault Outcome)) :
    Prop where
  main_answers : ∀ r, main = some r → ∃ o, r = .ok o
  last_answers : ∀ r, last = some r → ∃ o, r = .ok o
  last_fires : ∀ o, last = some (.ok o) → o.fires = true → answer = .ok .fireAndFinish
  main_finishes : ∀ o, main = some (.ok o) → o.finishes = true → answer = .ok .fireAndFinish
  otherwise : ¬Decisive main last → answer = main.getD (.ok .idle)

/-- What the tree makes of the answers of its children, where they are asked. -/
def joint (oa ob : Option Outcome) : Outcome :=
  if ob.any (·.fires) then .fireAndFinish else oa.getD .idle

section Joint

variable {oa ob : Option Outcome}

theorem decisive_iff : Decisive (oa.map .ok) (ob.map .ok) ↔
    oa.any (·.finishes) = true ∨ ob.any (·.fires) = true := by
  cases oa <;> cases ob <;> simp [Decisive]

theorem joint_of_fires (h : ob.any (·.fires) = true) : joint oa ob = .fireAndFinish := if_pos h

theorem joint_of_finishes (h : oa.any (·.finishes) = true) : joint oa ob = .fireAndFinish := by
  obtain ⟨o, rfl, hfinishes⟩ := (Option.any_eq_true _ _).mp h
  have ho : o = .fireAndFinish := by cases o <;> first | rfl | cases hfinishes
  rw [joint, ho, Option.getD_some, ite_self]

theorem joint_of_decisive (h : oa.any (·.finishes) = true ∨ ob.any (·.fires) = true) :
    joint oa ob = .fireAndFinish :=
  h.elim joint_of_finishes joint_of_fires

theorem joint_of_quiet (h : ob.any (·.fires) = false) : joint oa ob = oa.getD .idle := by
  rw [joint, h, if_neg Bool.false_ne_true]

theorem joint_unfinished (hfinishes : oa.any (·.finishes) = false)
    (hfires : ob.any (·.fires) = false) : (joint oa ob).finishes = false := by
  rw [joint_of_quiet hfires]
  cases oa with
  | none => rfl
  | some o => exact hfinishes

theorem follows_joint (oa ob : Option Outcome) :
    Follows (.ok (joint oa ob)) (oa.map .ok) (ob.map .ok) where
  main_answers r hr := by
    obtain ⟨o, -, rfl⟩ := Option.map_eq_some_iff.mp hr
    exact ⟨o, rfl⟩
  last_answers r hr := by
    obtain ⟨o, -, rfl⟩ := Option.map_eq_some_iff.mp hr
    exact ⟨o, rfl⟩
  last_fires o h hfires := by
    obtain ⟨_, rfl, heq⟩ := Option.map_eq_some_iff.mp h
    obtain rfl := Except.ok.inj heq
    exact congrArg Except.ok (joint_of_fires hfires)
  main_finishes o h hfinishes := by
    obtain ⟨_, rfl, heq⟩ := Option.map_eq_some_iff.mp h
    obtain rfl := Except.ok.inj heq
    exact congrArg Except.ok (joint_of_finishes hfinishes)
  otherwise hd := by
    obtain ⟨-, hfires⟩ := not_or.mp (decisive_iff.not.mp hd)
    rw [joint_of_quiet (Bool.eq_false_iff.mpr hfires)]
    cases oa <;> rfl

end Joint

/-! ### The states of the three runs -/

/-- The tree holds the states of its children as they are when run alone, and all three run. -/
structure Alike (s : TriggerState (.orFinally a b)) (main : TriggerState a) (last : TriggerState b)
    (w : Window) : Prop where
  state : s.stateOf w = ⟨false, (main.stateOf w, last.stateOf w)⟩
  main_open : a.Open (main.stateOf w)
  last_open : b.Open (last.stateOf w)
  main_held : s.contains w = true → main.contains w = true
  last_held : s.contains w = true → last.contains w = true

variable {s : TriggerState (.orFinally a b)} {main : TriggerState a} {last : TriggerState b}

theorem Alike.isOpen (h : Alike s main last w) : (Trigger.orFinally a b).Open (s.stateOf w) := by
  rw [h.state]
  exact ⟨rfl, ⟨h.main_open.unfinished, h.main_open.running⟩, h.last_open.unfinished,
    h.last_open.running⟩

theorem alike_empty (a b : Trigger) (w : Window) :
    Alike (.empty : TriggerState (.orFinally a b)) .empty .empty w :=
  ⟨rfl, open_fresh a, open_fresh b, nofun, nofun⟩

/-- The runs go on alike if each has been given its part of one state. -/
theorem alike_insert {s : TriggerState (.orFinally a b)} {main : TriggerState a}
    {last : TriggerState b} {sa : a.State} {sb : b.State} (ha : a.Open sa) (hb : b.Open sb)
    (hmain : main.find? w = some sa) (hlast : last.find? w = some sb) :
    Alike (s.insert w ⟨false, (sa, sb)⟩) main last w where
  state := by rw [stateOf_insert, stateOf_of_some hmain, stateOf_of_some hlast]
  main_open := by rwa [stateOf_of_some hmain]
  last_open := by rwa [stateOf_of_some hlast]
  main_held _ := WindowMap.contains_iff.mpr ⟨sa, hmain⟩
  last_held _ := WindowMap.contains_iff.mpr ⟨sb, hlast⟩

def move (s : TriggerState t) (w : Window) (e : Option Delivery) : TriggerState t :=
  e.elim s fun e => (s.deliver w e).2

/-- What a delivery to runs that are alike leads to. -/
structure Turns (s : TriggerState (.orFinally a b)) (main : TriggerState a)
    (last : TriggerState b) (w : Window) (e : Delivery) : Prop where
  main_pending : ∀ d, e.toMain a = some d → main.Pending w d
  last_pending : ∀ d, e.toLast a b = some d → last.Pending w d
  follows : Follows (s.deliver w e).1 (main.reply w (e.toMain a)) (last.reply w (e.toLast a b))
  ends : Decisive (main.reply w (e.toMain a)) (last.reply w (e.toLast a b)) →
    (s.deliver w e).2.Closed w
  goes_on : ¬Decisive (main.reply w (e.toMain a)) (last.reply w (e.toLast a b)) →
    Alike (s.deliver w e).2 (main.move w (e.toMain a)) (last.move w (e.toLast a b)) w

/-- Runs that are alike turn as one if the tree answers for its children and holds what they
leave. -/
theorem turns_of_insert {e : Delivery} {s' : TriggerState (.orFinally a b)}
    (oa ob : Option Outcome) {sa : a.State} {sb : b.State}
    (hpending : ∀ d, e.toMain a = some d → main.Pending w d)
    (hpending' : ∀ d, e.toLast a b = some d → last.Pending w d)
    (hmain : main.reply w (e.toMain a) = oa.map .ok)
    (hlast : last.reply w (e.toLast a b) = ob.map .ok)
    (hdeliver : s.deliver w e = (.ok (joint oa ob), s'.insert w ⟨(joint oa ob).finishes, (sa, sb)⟩))
    (hsa : (main.move w (e.toMain a)).find? w = some sa)
    (hsb : (last.move w (e.toLast a b)).find? w = some sb)
    (hopen : oa.any (·.finishes) = false → a.Open sa)
    (hopen' : ob.any (·.fires) = false → b.Open sb) : Turns s main last w e := by
  refine ⟨hpending, hpending', ?_, fun hd => ?_, fun hd => ?_⟩
  all_goals rw [hdeliver]
  · rw [hmain, hlast]
    exact follows_joint oa ob
  · rw [hmain, hlast, decisive_iff] at hd
    refine ⟨⟨(joint oa ob).finishes, (sa, sb)⟩, WindowMap.find?_insert_self .., ?_⟩
    rw [joint_of_decisive hd]
    rfl
  · rw [hmain, hlast, decisive_iff] at hd
    obtain ⟨hfinishes, hfires⟩ := not_or.mp hd
    have hfinishes := Bool.eq_false_iff.mpr hfinishes
    have hfires := Bool.eq_false_iff.mpr hfires
    rw [joint_unfinished hfinishes hfires]
    exact alike_insert (hopen hfinishes) (hopen' hfires) hsa hsb

section Steps

variable {σ τ : Type} {ra : Step (Slot σ) Outcome} {rb : Step (Slot τ) Outcome} {oa ob : Outcome}

theorem next_both (hoa : ra.answer = .ok oa) (hob : rb.answer = .ok ob)
    (keep : Slot σ → Slot σ × Slot τ) :
    (ra.next keep fun sa oa => rb.next (sa, ·) fun sb ob =>
      .quiet (sa, sb) (.ok (if ob.fires then .fireAndFinish else oa))) =
      ⟨(ra.state, rb.state), ra.wrote || (rb.wrote || false),
        .ok (if ob.fires then .fireAndFinish else oa)⟩ := by
  rw [Step.next_ok hoa, Step.next_ok hob]
  rfl

theorem next_one {υ : Type} (hoa : ra.answer = .ok oa) (keep : Slot σ → υ) (place : Slot σ → υ)
    (f : Outcome → Outcome) :
    (ra.next keep fun s o => .quiet (place s) (.ok (f o))) =
      ⟨place ra.state, ra.wrote || false, .ok (f oa)⟩ := by
  rw [Step.next_ok hoa]
  rfl

end Steps

theorem onElement_children {e : ElementEvent} {m : Slot a.Memory × Slot b.Memory} {oa ob : Outcome}
    (ht : a.isBuiltIn = true ∧ b.isBuiltIn = true)
    (hoa : (m.1.offer (a.onElement e 0)).answer = .ok oa)
    (hob : (m.2.offer (b.onElement e 0)).answer = .ok ob) :
    (Trigger.onElement e (.orFinally a b) 0 m).answer =
        .ok (if ob.fires then .fireAndFinish else oa) ∧
      (Trigger.onElement e (.orFinally a b) 0 m).state =
        ((m.1.offer (a.onElement e 0)).state, (m.2.offer (b.onElement e 0)).state) := by
  simp only [Trigger.onElement]
  rw [Trigger.onElement_renumber e a (0 + 1) 0 ht.1,
    Trigger.onElement_renumber e b (0 + 1 + a.size) 0 ht.2]
  have h := next_both hoa hob (·, m.2)
  exact ⟨congrArg Step.answer h, congrArg Step.state h⟩

theorem Alike.element (h : Alike s main last w) (ht : (Trigger.orFinally a b).isBuiltIn = true)
    (timestamp : Int) : Turns s main last w (.element timestamp) := by
  have hts : a.isBuiltIn = true ∧ b.isBuiltIn = true := by
    simpa only [Trigger.isBuiltIn, Bool.and_eq_true] using ht
  obtain ⟨oa, hoa, hmain, hopen⟩ := element_of_open hts.1 h.main_open timestamp
  obtain ⟨ob, hob, hlast, hopen'⟩ := element_of_open hts.2 h.last_open timestamp
  obtain ⟨o, ho, hdeliver, -⟩ := element_of_open ht h.isOpen timestamp
  obtain ⟨hanswer, hstate⟩ := onElement_children (m := (main.stateOf w, last.stateOf w)) hts hoa hob
  rw [h.state, Slot.offer_of_open rfl hanswer] at ho hdeliver
  obtain rfl := Except.ok.inj ho
  simp only [hstate] at hdeliver
  refine turns_of_insert (some oa) (some ob) ?_ ?_ ?_ ?_ hdeliver ?_ ?_ hopen
    fun hfires => hopen' (Outcome.not_finishes hfires)
  · rintro _ ⟨⟩
    trivial
  · rintro _ ⟨⟩
    trivial
  · exact congrArg (some ∘ Prod.fst) hmain
  · exact congrArg (some ∘ Prod.fst) hlast
  · simp only [Delivery.toMain, move, Option.elim, hmain, WindowMap.find?_insert, if_true]
  · simp only [Delivery.toLast, move, Option.elim, hlast, WindowMap.find?_insert, if_true]

theorem Alike.found (h : Alike s main last w) {state : (Trigger.orFinally a b).State}
    (hs : s.find? w = some state) : ∃ sa sb, main.find? w = some sa ∧ last.find? w = some sb ∧
      state = ⟨false, (sa, sb)⟩ ∧ a.Open sa ∧ b.Open sb := by
  have hheld : s.contains w = true := WindowMap.contains_iff.mpr ⟨state, hs⟩
  obtain ⟨sa, hmain⟩ := WindowMap.contains_iff.mp (h.main_held hheld)
  obtain ⟨sb, hlast⟩ := WindowMap.contains_iff.mp (h.last_held hheld)
  have hstate := h.state
  have hopen := h.main_open
  have hopen' := h.last_open
  rw [stateOf_of_some hs, stateOf_of_some hmain, stateOf_of_some hlast] at hstate
  rw [stateOf_of_some hmain] at hopen
  rw [stateOf_of_some hlast] at hopen'
  exact ⟨sa, sb, hmain, hlast, hstate, hopen, hopen'⟩

/-- A timer of a tree that starts at a later number is one of the tree itself. -/
theorem mem_timersFrom_shift {shift node : Nat} {timestamp : Int} {m : t.Memory}
    (h : (timestamp, node) ∈ t.timersFrom shift m) :
    ∃ k, node = k + shift ∧ (timestamp, k) ∈ t.timersFrom 0 m := by
  rw [← Nat.zero_add shift, Trigger.timersFrom_renumber shift t 0 m] at h
  obtain ⟨⟨u, k⟩, hmem, heq⟩ := List.mem_map.mp h
  simp only [Trigger.movedBy, Prod.mk.injEq] at heq
  obtain ⟨rfl, rfl⟩ := heq
  exact ⟨k, rfl, hmem⟩

/-- What the whole tree does with a timer that is routed to one of its children. -/
theorem timer_routed {timestamp : Int} {node : Nat} {state : t.State} {m m' : t.Memory}
    {o : Outcome} {wrote : Bool} {s : TriggerState t} (hs : s.find? w = some state)
    (hopen : state.finished = false) (hcancel : t.cancelFrom timestamp node 0 state.memory = m)
    (hroute : t.onTimer ⟨w, node, timestamp⟩ 0 m = ⟨m', wrote, .ok o⟩) :
    s.deliver w (.timer timestamp node) =
      (.ok o, (s.cancel ⟨timestamp, w, node⟩).insert w ⟨o.finishes, m'⟩) := by
  have hanswer : (t.onTimer ⟨w, node, timestamp⟩ 0
      (t.cancelFrom timestamp node 0 state.memory)).answer = .ok o := by rw [hcancel, hroute]
  have hoffer := Slot.offer_of_open (s := { state with
    memory := t.cancelFrom timestamp node 0 state.memory }) hopen hanswer
  refine (timer_eq (e := ⟨w, node, timestamp⟩) (stateOf_cancel hs timestamp node)
    (congrArg Step.answer hoffer)).trans ?_
  rw [hoffer, hcancel, hroute]

theorem onTimer_of_main {timestamp : Int} {k : Nat} {m : Slot a.Memory} {m' : Slot b.Memory}
    {oa : Outcome} (ht : a.isBuiltIn = true) (hleaf : k ∈ a.leavesFrom 0)
    (hoa : (m.offer (a.onTimer ⟨w, k, timestamp⟩ 0)).answer = .ok oa) :
    Trigger.onTimer ⟨w, k + 1, timestamp⟩ (.orFinally a b) 0 (m, m') =
      ⟨((m.offer (a.onTimer ⟨w, k, timestamp⟩ 0)).state, m'),
        (m.offer (a.onTimer ⟨w, k, timestamp⟩ 0)).wrote || false, .ok oa⟩ := by
  have hoffer : m.offer (a.onTimer ⟨w, k + 1, timestamp⟩ (0 + 1)) =
      m.offer (a.onTimer ⟨w, k, timestamp⟩ 0) :=
    Trigger.offer_congr (Trigger.onTimer_renumber w timestamp k 1 a 0 m.memory ht hleaf)
  have hleaf' : k + 1 ∈ a.leavesFrom (0 + 1) := (Trigger.mem_leavesFrom_renumber 1 a 0).mpr hleaf
  refine (Trigger.onTimer_main (m := (m, m')) hleaf').trans
    (Eq.trans ?_ (next_one hoa (·, m') (·, m') id))
  rw [← hoffer]
  rfl

theorem onTimer_of_last {timestamp : Int} {k : Nat} {m : Slot a.Memory} {m' : Slot b.Memory}
    {ob : Outcome} (ht : b.isBuiltIn = true) (hleaf : k ∈ b.leavesFrom 0)
    (hob : (m'.offer (b.onTimer ⟨w, k, timestamp⟩ 0)).answer = .ok ob) :
    Trigger.onTimer ⟨w, k + (1 + a.size), timestamp⟩ (.orFinally a b) 0 (m, m') =
      ⟨(m, (m'.offer (b.onTimer ⟨w, k, timestamp⟩ 0)).state),
        (m'.offer (b.onTimer ⟨w, k, timestamp⟩ 0)).wrote || false,
        .ok (if ob.fires then .fireAndFinish else ob)⟩ := by
  have htimer := Trigger.onTimer_renumber w timestamp k (1 + a.size) b 0 m'.memory ht hleaf
  have hleaf' := (Trigger.mem_leavesFrom_renumber (1 + a.size) b 0).mpr hleaf
  rw [Nat.zero_add] at htimer hleaf'
  have hoffer : m'.offer (b.onTimer ⟨w, k + (1 + a.size), timestamp⟩ (0 + 1 + a.size)) =
      m'.offer (b.onTimer ⟨w, k, timestamp⟩ 0) := Trigger.offer_congr htimer
  refine (Trigger.onTimer_last (m := (m, m')) hleaf').trans
    (Eq.trans ?_ (next_one hob (m, ·) (m, ·) fun o => if o.fires then .fireAndFinish else o))
  rw [← hoffer]

theorem Alike.timer_main (hts : a.isBuiltIn = true ∧ b.isBuiltIn = true) {timestamp : Int}
    {node : Nat} {sa : a.State} {sb : b.State} (hs : s.find? w = some ⟨false, (sa, sb)⟩)
    (hmain : main.find? w = some sa) (hlast : last.find? w = some sb) (hopen : a.Open sa)
    (hopen' : b.Open sb) (hmem : (timestamp, node) ∈ a.timersFrom 1 sa.memory) :
    Turns s main last w (.timer timestamp node) := by
  obtain ⟨k, rfl, htimer⟩ := mem_timersFrom_shift hmem
  have hleaf : k ∈ a.leavesFrom 0 := a.mem_leaves_of_mem_timersFrom 0 sa.memory htimer
  have hleads := Trigger.leads_of_mem_leavesFrom a 0 hleaf
  simp only [Trigger.Leads] at hleads
  obtain ⟨oa, -, hoa, hdeliver, hafter⟩ := timer_of_open hts.1 hmain hopen htimer
  -- the tree cancels the timer in its main child only
  have hcancel : Trigger.cancelFrom timestamp (k + 1) (.orFinally a b) 0 (sa, sb) =
      ({ sa with memory := a.cancelFrom timestamp k 0 sa.memory }, sb) := by
    have hb := Trigger.cancelFrom_of_not_leads timestamp (k + 1) b (0 + 1 + a.size)
      sb.memory (fun hl => by simp only [Trigger.Leads] at hl; omega)
    simp only [Trigger.cancelFrom]
    rw [Trigger.cancelFrom_renumber timestamp k 1 a 0, hb]
  have hseen : Delivery.toMain a (.timer timestamp (k + 1)) = some (.timer timestamp k) :=
    if_pos ⟨by omega, by omega⟩
  have hunseen : Delivery.toLast a b (.timer timestamp (k + 1)) = none :=
    if_neg fun hl => by simp only [Trigger.Leads] at hl; omega
  refine turns_of_insert (some oa) none ?_ ?_ ?_ ?_
    (timer_routed hs rfl hcancel (onTimer_of_main hts.1 hleaf hoa)) ?_ ?_ hafter fun _ => hopen'
  all_goals simp only [hseen, hunseen]
  · rintro _ ⟨⟩
    exact mem_timers.mpr ⟨sa, hmain, htimer⟩
  · nofun
  · exact congrArg (some ∘ Prod.fst) hdeliver
  · rfl
  · simp only [move, Option.elim, hdeliver, WindowMap.find?_insert, if_true]
  · exact hlast

theorem Alike.timer_last (hts : a.isBuiltIn = true ∧ b.isBuiltIn = true) {timestamp : Int}
    {node : Nat} {sa : a.State} {sb : b.State} (hs : s.find? w = some ⟨false, (sa, sb)⟩)
    (hmain : main.find? w = some sa) (hlast : last.find? w = some sb) (hopen : a.Open sa)
    (hopen' : b.Open sb) (hmem : (timestamp, node) ∈ b.timersFrom (1 + a.size) sb.memory) :
    Turns s main last w (.timer timestamp node) := by
  obtain ⟨k, rfl, htimer⟩ := mem_timersFrom_shift hmem
  have hleaf : k ∈ b.leavesFrom 0 := b.mem_leaves_of_mem_timersFrom 0 sb.memory htimer
  have hleads := Trigger.leads_of_mem_leavesFrom b 0 hleaf
  simp only [Trigger.Leads] at hleads
  obtain ⟨ob, hfires, hob, hdeliver, hafter⟩ := timer_of_open hts.2 hlast hopen' htimer
  -- the tree cancels the timer in its last child only
  have hcancel : Trigger.cancelFrom timestamp (k + (1 + a.size)) (.orFinally a b) 0 (sa, sb) =
      (sa, { sb with memory := b.cancelFrom timestamp k 0 sb.memory }) := by
    have ha := Trigger.cancelFrom_of_not_leads timestamp (k + (1 + a.size)) a (0 + 1)
      sa.memory (fun hl => by simp only [Trigger.Leads] at hl; omega)
    have hb := Trigger.cancelFrom_renumber timestamp k (1 + a.size) b 0 sb.memory
    rw [Nat.zero_add] at hb
    simp only [Trigger.cancelFrom]
    rw [ha, Nat.zero_add, hb]
  have hunseen : Delivery.toMain a (.timer timestamp (k + (1 + a.size))) = none :=
    if_neg fun hl => by simp only [Trigger.Leads] at hl; omega
  have hseen : Delivery.toLast a b (.timer timestamp (k + (1 + a.size))) =
      some (.timer timestamp k) :=
    (if_pos ⟨by omega, by omega⟩).trans (by rw [Nat.add_sub_cancel])
  have hrouted := timer_routed hs rfl hcancel (onTimer_of_last hts.2 hleaf hob)
  have hjoint : joint none (some ob) = .fireAndFinish := joint_of_fires hfires
  rw [if_pos hfires, ← hjoint] at hrouted
  refine turns_of_insert none (some ob) ?_ ?_ ?_ ?_ hrouted ?_ ?_ (fun _ => hopen)
    fun hf => hafter (Outcome.not_finishes hf)
  all_goals simp only [hseen, hunseen]
  · nofun
  · rintro _ ⟨⟩
    exact mem_timers.mpr ⟨sb, hlast, htimer⟩
  · rfl
  · exact congrArg (some ∘ Prod.fst) hdeliver
  · exact hmain
  · simp only [move, Option.elim, hdeliver, WindowMap.find?_insert, if_true]

theorem Alike.turns (h : Alike s main last w) (ht : (Trigger.orFinally a b).isBuiltIn = true)
    {e : Delivery} (hpending : s.Pending w e) : Turns s main last w e := by
  have hts : a.isBuiltIn = true ∧ b.isBuiltIn = true := by
    simpa only [Trigger.isBuiltIn, Bool.and_eq_true] using ht
  cases e with
  | element timestamp => exact h.element ht timestamp
  | timer timestamp node =>
    obtain ⟨state, hs, hmem⟩ := mem_timers.mp hpending
    obtain ⟨sa, sb, hmain, hlast, rfl, hopen, hopen'⟩ := h.found hs
    rcases List.mem_append.mp hmem with hmem | hmem
    · exact Alike.timer_main hts hs hmain hlast hopen hopen' hmem
    · rw [Nat.zero_add] at hmem
      exact Alike.timer_last hts hs hmain hlast hopen hopen' hmem

/-! ### A run -/

theorem after_concat (t : Trigger) (w : Window) (past : List Delivery) (e : Delivery) :
    after t w (past ++ [e]) = ((after t w past).deliver w e).2 := by
  simp only [after, List.foldl_append, List.foldl_cons, List.foldl_nil]

theorem after_filterMap_concat (t : Trigger) (w : Window) (past : List Delivery) (e : Delivery)
    (f : Delivery → Option Delivery) :
    after t w ((past ++ [e]).filterMap f) = (after t w (past.filterMap f)).move w (f e) := by
  rw [List.filterMap_append]
  cases h : f e with
  | none => simp [h, move]
  | some d => simp [h, move, after_concat]

theorem not_decided_nil : ¬Decided a b w [] := not_exists_split_nil

theorem decided_concat {past : List Delivery} {e : Delivery} :
    Decided a b w (past ++ [e]) ↔
      Decided a b w past ∨ Decisive (mainReply a w past e) (lastReply a b w past e) :=
  exists_split_concat

theorem deliverable_nil : Deliverable t w [] := forall_split_nil

theorem deliverable_concat {past : List Delivery} {e : Delivery} :
    Deliverable t w (past ++ [e]) ↔ Deliverable t w past ∧ (after t w past).Pending w e :=
  forall_split_concat

/-- Until one delivery decides, the three runs stay alike; afterwards the tree has finished. -/
theorem run_alike (ht : (Trigger.orFinally a b).isBuiltIn = true) {past : List Delivery}
    (h : Deliverable (.orFinally a b) w past) :
    (¬Decided a b w past → Alike (after (.orFinally a b) w past)
      (after a w (past.filterMap (·.toMain a))) (after b w (past.filterMap (·.toLast a b))) w) ∧
    (Decided a b w past → (after (.orFinally a b) w past).Closed w) := by
  induction past using List.reverseRecOn with
  | nil =>
    exact ⟨fun _ => alike_empty a b w, fun hd => absurd hd not_decided_nil⟩
  | append_singleton past e ih =>
    obtain ⟨hpast, hpending⟩ := deliverable_concat.mp h
    obtain ⟨halike, hclosed⟩ := ih hpast
    rw [decided_concat, after_concat, after_filterMap_concat, after_filterMap_concat]
    refine ⟨fun hd => ?_, fun hd => ?_⟩
    · obtain ⟨hpast, hnow⟩ := not_or.mp hd
      exact ((halike hpast).turns ht hpending).goes_on hnow
    · by_cases hpast : Decided a b w past
      · exact ((hclosed hpast).deliver e).2
      · exact ((halike hpast).turns ht hpending).ends (hd.resolve_left hpast)

/-- A tree with a main and a last child follows the main one, run alone, until that finishes or the
last one, run alone, fires. At that delivery it fires and finishes; afterwards it answers nothing.
Until then the timers that the children take are their own: each is pending in the run of the child
alone. -/
theorem follows_main_until_last {a b : Trigger}
    (ht : (Trigger.orFinally a b).isBuiltIn = true) {w : Window} {past : List Delivery}
    {e : Delivery} (h : Deliverable (.orFinally a b) w (past ++ [e])) :
    (¬Decided a b w past →
      Follows ((after (.orFinally a b) w past).deliver w e).1 (mainReply a w past e)
        (lastReply a b w past e) ∧
      (∀ d, e.toMain a = some d → (after a w (past.filterMap (·.toMain a))).Pending w d) ∧
      ∀ d, e.toLast a b = some d → (after b w (past.filterMap (·.toLast a b))).Pending w d) ∧
    (Decided a b w past → ((after (.orFinally a b) w past).deliver w e).1 = .ok .idle) := by
  obtain ⟨hpast, hpending⟩ := deliverable_concat.mp h
  obtain ⟨halike, hclosed⟩ := run_alike ht hpast
  refine ⟨fun hd => ?_, fun hd => ((hclosed hd).deliver e).1⟩
  have hturns := (halike hd).turns ht hpending
  exact ⟨hturns.follows, hturns.main_pending, hturns.last_pending⟩

/-- A repetition that fires at every fifth element and at the end of the window. -/
def everyFifth : Trigger := .repeatedly (.afterFirst [.afterCount 5, .afterWatermark])

/-- The repetition fires when its timer comes, until a third element ends it. -/
theorem follows_main_until_last_of_third :
    (Trigger.orFinally everyFifth (.afterCount 3)).isBuiltIn = true ∧
      Deliverable (.orFinally everyFifth (.afterCount 3)) (.interval 0 10)
        [.element 1, .timer 9 4, .element 2, .element 3, .timer 9 4] ∧
      ((after (.orFinally everyFifth (.afterCount 3)) (.interval 0 10) [.element 1]).deliver
        (.interval 0 10) (.timer 9 4)).1 = .ok .fire ∧
      ((after (.orFinally everyFifth (.afterCount 3)) (.interval 0 10)
        [.element 1, .timer 9 4, .element 2]).deliver (.interval 0 10) (.element 3)).1 =
          .ok .fireAndFinish ∧
      ((after (.orFinally everyFifth (.afterCount 3)) (.interval 0 10)
        [.element 1, .timer 9 4, .element 2, .element 3]).deliver (.interval 0 10)
          (.timer 9 4)).1 = .ok .idle := by
  have htimer : (after (.orFinally everyFifth (.afterCount 3)) (.interval 0 10)
      ([] ++ [.element 1])).Pending (.interval 0 10) (.timer 9 4) :=
    List.mem_of_getElem? (i := 0) rfl
  have hagain : (after (.orFinally everyFifth (.afterCount 3)) (.interval 0 10)
      ([] ++ [.element 1] ++ [.timer 9 4] ++ [.element 2] ++ [.element 3])).Pending
        (.interval 0 10) (.timer 9 4) :=
    List.mem_of_getElem? (i := 0) rfl
  have hfront : Deliverable (.orFinally everyFifth (.afterCount 3)) (.interval 0 10)
      ([] ++ [.element 1] ++ [.timer 9 4]) :=
    deliverable_concat.mpr ⟨deliverable_concat.mpr ⟨deliverable_nil, trivial⟩, htimer⟩
  have hthird : Deliverable (.orFinally everyFifth (.afterCount 3)) (.interval 0 10)
      ([] ++ [.element 1] ++ [.timer 9 4] ++ [.element 2] ++ [.element 3]) :=
    deliverable_concat.mpr ⟨deliverable_concat.mpr ⟨hfront, trivial⟩, trivial⟩
  have hall := deliverable_concat.mpr ⟨hthird, hagain⟩
  have hquiet : ¬Decisive (some (.ok .idle)) (some (.ok .idle)) := by
    rintro (⟨_, ⟨⟩, ⟨⟩⟩ | ⟨_, ⟨⟩, ⟨⟩⟩)
  have hfires : ¬Decisive (some (.ok .fire)) none := by
    rintro (⟨_, ⟨⟩, ⟨⟩⟩ | ⟨_, ⟨⟩, -⟩)
  have hone : ¬Decided everyFifth (.afterCount 3) (.interval 0 10) ([] ++ [.element 1]) :=
    decided_concat.not.mpr (not_or.mpr ⟨not_decided_nil, hquiet⟩)
  have htwo : ¬Decided everyFifth (.afterCount 3) (.interval 0 10)
      ([] ++ [.element 1] ++ [.timer 9 4] ++ [.element 2]) :=
    decided_concat.not.mpr (not_or.mpr
      ⟨decided_concat.not.mpr (not_or.mpr ⟨hone, hfires⟩), hquiet⟩)
  have hend : Decided everyFifth (.afterCount 3) (.interval 0 10)
      ([] ++ [.element 1] ++ [.timer 9 4] ++ [.element 2] ++ [.element 3]) :=
    decided_concat.mpr (.inr (.inr ⟨.fireAndFinish, rfl, rfl⟩))
  exact ⟨rfl, hall, ((follows_main_until_last rfl hfront).1 hone).1.otherwise hfires,
    ((follows_main_until_last rfl hthird).1 htwo).1.last_fires .fireAndFinish rfl rfl,
    (follows_main_until_last rfl hall).2 hend⟩

end TriggerState

end EventTime
