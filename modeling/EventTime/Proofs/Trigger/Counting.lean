import Mathlib.Algebra.GroupWithZero.Nat
import Mathlib.Algebra.Order.BigOperators.Group.List
import Mathlib.Algebra.Order.Group.Nat
import EventTime.Proofs.Splits
import EventTime.Proofs.Trigger.Deliveries
import EventTime.Proofs.Trigger.Driving
import EventTime.Proofs.Trigger.Roots

/-!
# Counting elements across merges

In a tree of counts under choices of the first, every leaf of a window whose root has not finished
has counted all elements of that window: those delivered to it, and those delivered to windows that
have been merged into it. The root has finished once they are as many as the smallest threshold.
-/

namespace EventTime

/-- The answer of a tree that fires, and is finished, once it has seen enough. -/
def Outcome.once (enough : Bool) : Outcome := if enough then .fireAndFinish else .idle

def MergeOutcome.once (enough : Bool) : MergeOutcome := if enough then .fireAndFinish else .idle

theorem Outcome.fires_once (enough : Bool) : (Outcome.once enough).fires = enough := by
  cases enough <;> rfl

theorem MergeOutcome.fires_once (enough : Bool) : (MergeOutcome.once enough).fires = enough := by
  cases enough <;> rfl

theorem MergeOutcome.once_ne_alreadyFinished (enough : Bool) :
    MergeOutcome.once enough ≠ .alreadyFinished := by
  cases enough <;> nofun

namespace Trigger

mutual

/-- Whether the tree is made of counts, each of at least one element, and of choices of the first. -/
def isCounting : Trigger → Bool
  | .leaf (.afterCount count) => 1 ≤ count
  | .afterFirst ts => 2 ≤ ts.length && isCountingAll ts
  | _ => false

def isCountingAll : List Trigger → Bool
  | [] => true
  | t :: ts => isCounting t && isCountingAll ts

end

mutual

/-- The numbers of elements for which the leaves of a tree wait. -/
def thresholds : Trigger → List Nat
  | .leaf (.afterCount count) => [count]
  | .leaf _ => []
  | .afterFirst ts => thresholdsAll ts
  | .repeatedly t => thresholds t
  | .orFinally a b => thresholds a ++ thresholds b

def thresholdsAll : List Trigger → List Nat
  | [] => []
  | t :: ts => thresholds t ++ thresholdsAll ts

end

/-- Whether `n` elements are enough for one of the leaves. -/
def reached (t : Trigger) (n : Nat) : Bool := t.thresholds.any (· ≤ n)

def reachedAny (ts : List Trigger) (n : Nat) : Bool := (thresholdsAll ts).any (· ≤ n)

theorem reachedAny_cons (t : Trigger) (ts : List Trigger) (n : Nat) :
    reachedAny (t :: ts) n = (t.reached n || reachedAny ts n) :=
  List.any_append

mutual

theorem isBuiltIn_of_isCounting : (t : Trigger) → t.isCounting = true → t.isBuiltIn = true
  | .leaf l, h => by
    cases l with
    | custom p => cases h
    | _ => rfl
  | .afterFirst ts, h => by
    simp only [isCounting, Bool.and_eq_true] at h
    simp only [isBuiltIn, Bool.and_eq_true]
    exact ⟨h.1, isBuiltInAll_of_isCountingAll ts h.2⟩

theorem isBuiltInAll_of_isCountingAll : (ts : List Trigger) → isCountingAll ts = true →
    isBuiltInAll ts = true
  | [], _ => rfl
  | t :: ts, h => by
    simp only [isCountingAll, Bool.and_eq_true] at h
    simp only [isBuiltInAll, Bool.and_eq_true]
    exact ⟨isBuiltIn_of_isCounting t h.1, isBuiltInAll_of_isCountingAll ts h.2⟩

end

theorem thresholds_ne_nil : (t : Trigger) → t.isCounting = true → t.thresholds ≠ []
  | .leaf (.afterCount _), _ => List.cons_ne_nil _ _
  | .afterFirst [], h => nomatch h
  | .afterFirst (t :: ts), h => by
    simp only [isCounting, isCountingAll, Bool.and_eq_true] at h
    exact List.append_ne_nil_of_left_ne_nil (thresholds_ne_nil t h.2.1) _

mutual

theorem not_reached_zero : (t : Trigger) → t.isCounting = true → t.reached 0 = false
  | .leaf (.afterCount count), h => by
    have hpos : 1 ≤ count := of_decide_eq_true h
    have hzero : count ≠ 0 := by omega
    simp [reached, thresholds, hzero]
  | .afterFirst ts, h => by
    simp only [isCounting, Bool.and_eq_true] at h
    exact not_reachedAny_zero ts h.2

theorem not_reachedAny_zero : (ts : List Trigger) → isCountingAll ts = true →
    reachedAny ts 0 = false
  | [], _ => rfl
  | t :: ts, h => by
    simp only [isCountingAll, Bool.and_eq_true] at h
    rw [reachedAny_cons, not_reached_zero t h.1, not_reachedAny_zero ts h.2, Bool.or_self]

end

theorem reached_mono {t : Trigger} {n n' : Nat} (h : t.reached n = true) (hle : n ≤ n') :
    t.reached n' = true := by
  obtain ⟨k, hk, hkn⟩ := List.any_eq_true.mp h
  exact List.any_eq_true.mpr ⟨k, hk, decide_eq_true ((of_decide_eq_true hkn).trans hle)⟩

/-- Enough is the smallest threshold. -/
theorem reached_iff {t : Trigger} {least : Nat} (h : t.thresholds.min? = some least) {n : Nat} :
    t.reached n = true ↔ least ≤ n := by
  obtain ⟨hmem, hle⟩ := List.min?_eq_some_iff.mp h
  constructor
  · intro hn
    obtain ⟨k, hk, hkn⟩ := List.any_eq_true.mp hn
    exact (hle k hk).trans (of_decide_eq_true hkn)
  · intro hn
    exact List.any_eq_true.mpr ⟨least, hmem, decide_eq_true hn⟩

mutual

/-- No node below the root has finished, and every leaf has counted `n` elements and has no timer. -/
def Counted (n : Nat) : (t : Trigger) → t.Memory → Prop
  | .leaf _, c => c = (⟨n, []⟩ : Cell)
  | .afterFirst ts, m => CountedAll n ts m
  | .repeatedly t, m => m.finished = false ∧ Counted n t m.memory
  | .orFinally a b, m =>
    (m.1.finished = false ∧ Counted n a m.1.memory) ∧
      (m.2.finished = false ∧ Counted n b m.2.memory)

def CountedAll (n : Nat) : (ts : List Trigger) → Memories ts → Prop
  | [], _ => True
  | t :: ts, m => (m.1.finished = false ∧ Counted n t m.1.memory) ∧ CountedAll n ts m.2

end

mutual

theorem counted_blank : (t : Trigger) → t.Counted 0 t.blank
  | .leaf _ => rfl
  | .afterFirst ts => countedAll_blanks ts
  | .repeatedly t => ⟨rfl, counted_blank t⟩
  | .orFinally a b => ⟨⟨rfl, counted_blank a⟩, rfl, counted_blank b⟩

theorem countedAll_blanks : (ts : List Trigger) → CountedAll 0 ts (blanks ts)
  | [] => trivial
  | t :: ts => ⟨⟨rfl, counted_blank t⟩, countedAll_blanks ts⟩

end

mutual

theorem Counted.running {n : Nat} : (t : Trigger) → (m : t.Memory) → t.Counted n m → t.Running m
  | .leaf _, _, h => fun _ => congrArg Cell.timers h
  | .afterFirst ts, m, h => CountedAll.running ts m h
  | .repeatedly t, m, h => ⟨h.1, Counted.running t m.memory h.2⟩
  | .orFinally a b, m, h =>
    ⟨⟨h.1.1, Counted.running a m.1.memory h.1.2⟩, h.2.1, Counted.running b m.2.memory h.2.2⟩

theorem CountedAll.running {n : Nat} : (ts : List Trigger) → (m : Memories ts) →
    CountedAll n ts m → RunningAll ts m
  | [], _, _ => trivial
  | t :: ts, m, h => ⟨⟨h.1.1, Counted.running t m.1.memory h.1.2⟩, CountedAll.running ts m.2 h.2⟩

end

/-! ### Events -/

/-- A step that fires and finishes if `enough`, and otherwise is idle and leaves a state with `P`. -/
abbrev Fires {σ : Type} (P : σ → Prop) (enough : Bool) (r : Step σ Outcome) : Prop :=
  r.Leaves P (fun _ => True) (.once enough) enough enough

theorem Fires.offer {σ : Type} {P : σ → Prop} {enough : Bool} {s : Slot σ}
    {run : σ → Step σ Outcome} (h : Fires P enough (run s.memory)) (hs : s.finished = false) :
    Fires (fun u : Slot σ => u.finished = false ∧ P u.memory) enough (s.offer run) := by
  cases enough <;> exact Slot.offer_leaves hs h

mutual

theorem onElement_counted (e : ElementEvent) {n : Nat} : (t : Trigger) → (node : Nat) →
    (m : t.Memory) → t.isCounting = true → t.Counted n m →
      Fires (t.Counted (n + 1)) (t.reached (n + 1)) (onElement e t node m)
  | .leaf (.afterCount count), node, c, _, h => by
    obtain rfl : c = (⟨n, []⟩ : Cell) := h
    refine ⟨?_, fun _ => rfl, fun _ => trivial⟩
    simp [onElement, Leaf.onElement, Reaction.step, reached, thresholds, Outcome.once]
  | .afterFirst ts, node, m, ht, h => by
    simp only [isCounting, Bool.and_eq_true] at ht
    exact onElementAmong_counted e ts (node + 1) m ht.2 h

theorem onElementAmong_counted (e : ElementEvent) {n : Nat} : (ts : List Trigger) → (node : Nat) →
    (m : Memories ts) → isCountingAll ts = true → CountedAll n ts m →
      Fires (CountedAll (n + 1) ts) (reachedAny ts (n + 1)) (onElementAmong e ts node m)
  | [], _, _, _, _ => ⟨rfl, fun _ => trivial, fun _ => trivial⟩
  | t :: ts, node, m, ht, h => by
    simp only [isCountingAll, Bool.and_eq_true] at ht
    have hoffer := (onElement_counted e t node m.1.memory ht.1 h.1.2).offer h.1.1
    rw [reachedAny_cons]
    cases hreached : t.reached (n + 1) with
    | true =>
      rw [hreached] at hoffer
      exact hoffer.next rfl nofun nofun
    | false =>
      rw [hreached] at hoffer
      have hrest := onElementAmong_counted e ts (node + t.size) m.2 ht.2 h.2
      refine hoffer.andThen ?_
      simp only [Outcome.fires_once, Bool.false_eq_true, if_false]
      exact hrest.next rfl (fun hf => ⟨hoffer.running rfl, hrest.running hf⟩) fun _ => trivial

end

abbrev FiresMerge {σ : Type} (P : σ → Prop) (enough : Bool) (r : Step σ MergeOutcome) : Prop :=
  r.Leaves P (fun _ => True) (.once enough) enough enough

theorem FiresMerge.merge {σ : Type} {P : σ → Prop} {enough : Bool} {s : Slot σ}
    {olds : List (Slot σ)} {run : List σ → σ → Step σ MergeOutcome}
    (h : FiresMerge P enough (run (olds.map Slot.memory) s.memory)) (hs : s.finished = false)
    (holds : ∀ u ∈ olds, u.finished = false) :
    FiresMerge (fun u : Slot σ => u.finished = false ∧ P u.memory) enough (s.merge olds run) := by
  cases enough <;> exact Slot.merge_leaves hs holds h

theorem total_counted {l : Leaf} {ns : List Nat} {olds : List (leaf l).Memory}
    (h : List.Forall₂ (fun n => (leaf l).Counted n) ns olds) : Cell.total olds = ns.sum := by
  induction h with
  | nil => rfl
  | cons hc _ ih =>
    rw [List.sum_cons, ← ih, hc]
    rfl

/-- The slots of a child in several windows, where every tree has counted. -/
theorem countedAll_slots {t : Trigger} {ts : List Trigger} {ns : List Nat}
    {olds : List (Memories (t :: ts))}
    (h : List.Forall₂ (fun n => CountedAll n (t :: ts)) ns olds) :
    (∀ u ∈ olds.map (·.1), u.finished = false) ∧
      List.Forall₂ (fun n => t.Counted n) ns ((olds.map (·.1)).map Slot.memory) ∧
      List.Forall₂ (fun n => CountedAll n ts) ns (olds.map (·.2)) := by
  refine ⟨List.forall_mem_map.mpr fun u hu => ?_, ?_, ?_⟩
  · obtain ⟨n, -, hn⟩ := exists_mem_left h hu
    exact hn.1.1
  · rw [List.map_map, List.forall₂_map_right_iff]
    exact h.imp fun _ _ hn => hn.1.2
  · rw [List.forall₂_map_right_iff]
    exact h.imp fun _ _ hn => hn.2

mutual

theorem onMerge_counted (e : Merge) {k : Nat} {ns : List Nat} : (t : Trigger) → (node : Nat) →
    (olds : List t.Memory) → (m : t.Memory) → t.isCounting = true → t.Counted k m →
      List.Forall₂ (fun n => t.Counted n) ns olds →
        FiresMerge (t.Counted ns.sum) (t.reached ns.sum) (onMerge e t node olds m)
  | .leaf (.afterCount count), node, olds, c, _, h, holds => by
    obtain rfl : c = (⟨k, []⟩ : Cell) := h
    have htotal := total_counted holds
    refine ⟨?_, fun _ => ?_, fun _ => trivial⟩
    · simp [onMerge, Leaf.onMerge, Reaction.step, reached, thresholds, MergeOutcome.once, htotal]
    · exact congrArg (Cell.mk · []) htotal
  | .afterFirst ts, node, olds, m, ht, h, holds => by
    simp only [isCounting, Bool.and_eq_true] at ht
    exact onMergeAmong_counted e ts (node + 1) olds false m ht.2 h holds

theorem onMergeAmong_counted (e : Merge) {k : Nat} {ns : List Nat} : (ts : List Trigger) →
    (node : Nat) → (olds : List (Memories ts)) → (fired : Bool) → (m : Memories ts) →
      isCountingAll ts = true → CountedAll k ts m →
        List.Forall₂ (fun n => CountedAll n ts) ns olds →
          FiresMerge (CountedAll ns.sum ts) (fired || reachedAny ts ns.sum)
            (onMergeAmong e ts node olds fired m)
  | [], _, _, fired, _, _, _, _ => by
    refine ⟨?_, fun _ => trivial, fun _ => trivial⟩
    cases fired <;> rfl
  | t :: ts, node, olds, fired, m, ht, h, holds => by
    simp only [isCountingAll, Bool.and_eq_true] at ht
    obtain ⟨hopen, hslots, hrests⟩ := countedAll_slots holds
    have hmerge := (onMerge_counted e t node _ m.1.memory ht.1 h.1.2 hslots).merge h.1.1 hopen
    have hrest := onMergeAmong_counted e ts (node + t.size) (olds.map (·.2))
      (fired || t.reached ns.sum) m.2 ht.2 h.2 hrests
    rw [reachedAny_cons, ← Bool.or_assoc]
    refine hmerge.andThen ?_
    simp only [MergeOutcome.once_ne_alreadyFinished, MergeOutcome.fires_once, if_false]
    have hquiet (hf : (fired || t.reached ns.sum || reachedAny ts ns.sum) = false) :
        t.reached ns.sum = false := (Bool.or_eq_false_iff.mp (Bool.or_eq_false_iff.mp hf).1).2
    exact hrest.next rfl (fun hf => ⟨hmerge.running (hquiet hf), hrest.running hf⟩)
      fun _ => trivial

end

/-! ### Windows -/

/-- The state of a window that has seen `n` elements: the root has finished if they are enough, and
otherwise every leaf has counted them all. -/
structure Tallied (t : Trigger) (n : Nat) (state : t.State) : Prop where
  finished : state.finished = t.reached n
  counted : state.finished = false → t.Counted n state.memory

theorem tallied_fresh {t : Trigger} (ht : t.isCounting = true) : t.Tallied 0 t.fresh :=
  ⟨(not_reached_zero t ht).symm, fun _ => t.counted_blank⟩

theorem Tallied.isOpen {t : Trigger} {n : Nat} {state : t.State} (h : t.Tallied n state)
    (hopen : state.finished = false) : t.Open state :=
  ⟨hopen, Counted.running t _ (h.counted hopen)⟩

/-- A finished root has seen enough, and stays finished. -/
theorem Tallied.of_finished {t : Trigger} {n n' : Nat} {state state' : t.State}
    (h : t.Tallied n state) (hroot : state.finished = true) (hle : n ≤ n')
    (hroot' : state'.finished = true) : t.Tallied n' state' := by
  have hmore := reached_mono (h.finished ▸ hroot) hle
  exact ⟨hroot'.trans hmore.symm, fun hopen => nomatch hroot'.symm.trans hopen⟩

/-- A root that finishes once there are enough, and a tree that has counted till then. -/
theorem tallied_of_running {t : Trigger} {n : Nat} {finishes : Bool} {m : t.Memory}
    (hfinishes : finishes = t.reached n) (h : t.reached n = false → t.Counted n m) :
    t.Tallied n ⟨finishes, m⟩ :=
  ⟨hfinishes, fun hopen => h (hfinishes.symm.trans hopen)⟩

end Trigger

namespace TriggerState

variable {t : Trigger} {s : TriggerState t} {w : Window}

theorem element_tallied (ht : t.isCounting = true) {n : Nat} (h : t.Tallied n (s.stateOf w))
    (timestamp : Int) : ∃ (o : Outcome) (state : t.State),
      s.element ⟨w, timestamp⟩ = (.ok o, s.insert w state) ∧ t.Tallied (n + 1) state := by
  cases hroot : (s.stateOf w).finished with
  | true =>
    have hoffer := offer_of_finished (t.onElement ⟨w, timestamp⟩ 0) hroot
    have hstate : s.contains w = true := by
      by_contra hnone
      rw [WindowMap.contains, Bool.not_eq_true, Option.isSome_eq_false_iff,
        Option.isNone_iff_eq_none] at hnone
      rw [stateOf_of_none hnone] at hroot
      cases hroot
    refine ⟨.idle, s.stateOf w, (element_eq (congrArg Step.answer hoffer)).trans ?_,
      h.of_finished hroot (Nat.le_succ n) hroot⟩
    rw [hoffer]
    simp only [keep, Step.quiet, hstate, Bool.or_true, if_true]
  | false =>
    have hrun := t.onElement_counted ⟨w, timestamp⟩ 0 _ ht (h.counted hroot)
    obtain ⟨o, -, helement, -⟩ :=
      element_of_open (t.isBuiltIn_of_isCounting ht) (h.isOpen hroot) timestamp
    refine ⟨o, _, helement, ?_⟩
    rw [Slot.offer_of_open hroot hrun.answer]
    exact Trigger.tallied_of_running (by cases t.reached (n + 1) <;> rfl) hrun.running

theorem keys_taken {olds : List Window} (hnodup : olds.Nodup) (s : TriggerState t) :
    ((olds.foldl take (.empty, s)).1.entries.map (·.1)).Perm olds := by
  refine (List.perm_ext_iff_of_nodup (WindowMap.nodup_keys _) hnodup).mpr fun w =>
    WindowMap.mem_keys.trans ?_
  rw [find?_taken hnodup]
  by_cases hw : w ∈ olds <;> simp [hw, WindowMap.find?_empty]

theorem of_mem_taken {olds : List Window} (hnodup : olds.Nodup) {p : Window × t.State}
    (hp : p ∈ (olds.foldl take (.empty, s)).1.entries) : p.1 ∈ olds ∧ p.2 = s.stateOf p.1 := by
  have hfind := (find?_taken hnodup _ p.1).symm.trans (WindowMap.find?_of_mem hp)
  split at hfind
  · rename_i hmem
    exact ⟨hmem, (Option.some.inj hfind).symm⟩
  · cases hfind

theorem sum_taken {olds : List Window} (hnodup : olds.Nodup) (count : Window → Nat) :
    ((olds.foldl take (.empty, s)).1.entries.map fun p => count p.1).sum =
      (olds.map count).sum := by
  rw [← ((keys_taken hnodup s).map count).sum_eq, List.map_map]
  rfl

/-- The merged window has seen all that the old windows have. -/
theorem merge_tallied (ht : t.isCounting = true) {m : Merge} (hnodup : m.olds.Nodup)
    (hinto : m.into ∉ m.olds → s.find? m.into = none) {count : Window → Nat}
    (h : ∀ w ∈ m.olds, t.Tallied (count w) (s.stateOf w)) :
    ∃ (o : MergeOutcome) (state : t.State) (s' : TriggerState t), s.merge m = (.ok o, s') ∧
      t.Tallied (m.olds.map count).sum state ∧ ∀ w, s'.find? w = s.afterMerge m state w := by
  by_cases hfinished : ∃ w ∈ m.olds, (s.stateOf w).finished = true
  · obtain ⟨state, s', hmerge, hroot, hs'⟩ := merge_finished hnodup hfinished
    obtain ⟨w, hw, hroot'⟩ := hfinished
    have hle : count w ≤ (m.olds.map count).sum :=
      List.single_le_sum (fun _ _ => Nat.zero_le _) _ (List.mem_map_of_mem hw)
    exact ⟨_, state, s', hmerge, (h w hw).of_finished hroot' hle hroot, hs'⟩
  · have hopen (w) (hw : w ∈ m.olds) : (s.stateOf w).finished = false :=
      Bool.eq_false_iff.mpr fun hroot => hfinished ⟨w, hw, hroot⟩
    have hopens : ∀ u ∈ (m.olds.foldl take (.empty, s)).1.entries.map (·.2),
        u.finished = false := by
      refine List.forall_mem_map.mpr fun p hp => ?_
      obtain ⟨hmem, hstate⟩ := of_mem_taken hnodup hp
      exact hstate ▸ hopen p.1 hmem
    have hcounted : List.Forall₂ (fun n => t.Counted n)
        ((m.olds.foldl take (.empty, s)).1.entries.map fun p => count p.1)
        (((m.olds.foldl take (.empty, s)).1.entries.map (·.2)).map Slot.memory) := by
      rw [List.map_map, List.forall₂_map_left_iff, List.forall₂_map_right_iff]
      refine List.forall₂_same.mpr fun p hp => ?_
      obtain ⟨hmem, hstate⟩ := of_mem_taken hnodup hp
      show t.Counted (count p.1) p.2.memory
      rw [hstate]
      exact (h p.1 hmem).counted (hopen p.1 hmem)
    have hrun := t.onMerge_counted m 0 _ t.blank ht t.counted_blank hcounted
    rw [sum_taken hnodup count] at hrun
    obtain ⟨s', hmerge, hs'⟩ :=
      merge_of_open (t.isBuiltIn_of_isCounting ht) hopens hinto hrun.answer
    refine ⟨_, _, s', hmerge, ?_, hs'⟩
    exact Trigger.tallied_of_running (by cases t.reached (m.olds.map count).sum <;> rfl)
      hrun.running

end TriggerState

/-! ### Scripts -/

namespace Tester

variable {t : Trigger} {c : Tester t}

/-- Where the elements are, one entry for each, after a move: an element is in the window it has
been delivered to, or in the one into which that has been merged. -/
def Move.carry (homes : List Window) : Move → List Window
  | .element w _ => w :: homes
  | .merge m => homes.map fun w => if w ∈ m.olds then m.into else w
  | _ => homes

/-- The window of each element that has been delivered. -/
def homes (moves : List Move) : List Window := moves.foldl Move.carry []

/-- The move is an element, or a merge of distinct windows into one of them or into a window without
state. -/
def Move.Gathers (s : TriggerState t) : Move → Prop
  | .element _ _ => True
  | .merge m => m.olds.Nodup ∧ (m.into ∈ m.olds ∨ s.find? m.into = none)
  | _ => False

/-- Each move of a script gathers elements in the state it is made in. -/
def Gathering : Tester t → List Move → Prop
  | _, [] => True
  | c, move :: rest => move.Gathers c.state ∧ Gathering (c.step move) rest

theorem sum_count {olds : List Window} (hnodup : olds.Nodup) (homes : List Window) :
    (olds.map homes.count).sum = homes.countP (· ∈ olds) := by
  induction homes with
  | nil => simp
  | cons v rest ih =>
    have hone (l : List Window) : (l.map fun w => if v == w then 1 else 0).sum = l.count v := by
      induction l with
      | nil => rfl
      | cons u l ih =>
        rw [List.map_cons, List.sum_cons, ih, List.count_cons, Nat.add_comm, BEq.comm (a := v)]
    simp only [List.count_cons, List.countP_cons, List.sum_map_add, ih, hone, hnodup.count,
      decide_eq_true_eq]

/-- The elements of the old windows are those of the new one. -/
theorem count_into {homes : List Window} {m : Merge} (hnodup : m.olds.Nodup)
    (hinto : m.into ∉ m.olds → homes.count m.into = 0) :
    ((Move.merge m).carry homes).count m.into = (m.olds.map homes.count).sum := by
  rw [sum_count hnodup, Move.carry, List.count_eq_countP, List.countP_map]
  refine List.countP_congr fun w hw => ?_
  by_cases hmem : w ∈ m.olds
  · simp [hmem]
  · have hne : w ≠ m.into := by
      rintro rfl
      exact List.count_eq_zero.mp (hinto hmem) hw
    simp [hmem, hne]

theorem count_elsewhere {homes : List Window} {m : Merge} {w : Window} (hw : m.into ≠ w) :
    ((Move.merge m).carry homes).count w = if w ∈ m.olds then 0 else homes.count w := by
  rw [Move.carry, List.count_eq_countP, List.countP_map]
  split
  · rename_i hmem
    refine List.countP_eq_zero.mpr fun v _ => ?_
    by_cases hv : v ∈ m.olds
    · simp [hv, hw]
    · have hne : v ≠ w := by
        rintro rfl
        exact hv hmem
      simp [hv, hne]
  · rename_i hmem
    rw [List.count_eq_countP]
    refine List.countP_congr fun v _ => ?_
    by_cases hv : v ∈ m.olds
    · have hne : v ≠ w := by
        rintro rfl
        exact hmem hv
      simp [hv, hw, hne]
    · simp [hv]

/-- Every window has the state of one that has seen its elements, and a window without state has
seen none. -/
structure Agrees (s : TriggerState t) (homes : List Window) : Prop where
  tallied : ∀ w, t.Tallied (homes.count w) (s.stateOf w)
  unseen : ∀ w, s.find? w = none → homes.count w = 0

theorem Agrees.element (ht : t.isCounting = true) {homes : List Window}
    (h : Agrees c.state homes) (w : Window) (timestamp : Int) :
    Agrees (c.step (.element w timestamp)).state (w :: homes) := by
  obtain ⟨o, state, helement, hstate⟩ :=
    TriggerState.element_tallied ht (h.tallied w) timestamp
  rw [state_step_element, helement]
  refine ⟨fun v => ?_, fun v hv => ?_⟩
  · rw [TriggerState.stateOf, WindowMap.find?_insert]
    by_cases hwv : w = v
    · subst hwv
      rw [if_pos rfl, List.count_cons_self]
      exact hstate
    · rw [if_neg hwv, List.count_cons_of_ne hwv]
      exact h.tallied v
  · rw [WindowMap.find?_insert] at hv
    split at hv
    · cases hv
    · rename_i hwv
      rw [List.count_cons_of_ne hwv]
      exact h.unseen v hv

theorem Agrees.merge (ht : t.isCounting = true) {homes : List Window} (h : Agrees c.state homes)
    {m : Merge} (hgathers : (Move.merge m).Gathers c.state) :
    Agrees (c.step (.merge m)).state ((Move.merge m).carry homes) := by
  obtain ⟨hnodup, hinto⟩ := hgathers
  have hinto (hm : m.into ∉ m.olds) : c.state.find? m.into = none := hinto.resolve_left hm
  have hcount := count_into hnodup fun hm => h.unseen m.into (hinto hm)
  obtain ⟨o, state, s', hmerge, hstate, hs'⟩ :=
    TriggerState.merge_tallied ht hnodup hinto fun w _ => h.tallied w
  rw [state_step_merge, hmerge]
  refine ⟨fun w => ?_, fun w hw => ?_⟩
  · rw [TriggerState.stateOf, hs', TriggerState.afterMerge]
    by_cases hwinto : m.into = w
    · subst hwinto
      rw [if_pos rfl, hcount]
      exact hstate
    · rw [if_neg hwinto, count_elsewhere hwinto]
      split
      · exact Trigger.tallied_fresh ht
      · exact h.tallied w
  · rw [hs', TriggerState.afterMerge] at hw
    split at hw
    · cases hw
    · rename_i hwinto
      rw [count_elsewhere hwinto]
      split at hw
      · rename_i hmem
        rw [if_pos hmem]
      · rename_i hmem
        rw [if_neg hmem]
        exact h.unseen w hw

theorem Agrees.run (ht : t.isCounting = true) {homes : List Window} (h : Agrees c.state homes)
    (moves : List Move) (hmoves : Gathering c moves) :
    Agrees (moves.foldl step c).state (moves.foldl Move.carry homes) := by
  induction moves generalizing c homes with
  | nil => exact h
  | cons move rest ih =>
    obtain ⟨hmove, hrest⟩ := hmoves
    cases move with
    | element w timestamp => exact ih (h.element ht w timestamp) hrest
    | merge m => exact ih (h.merge ht hmove) hrest
    | _ => exact absurd hmove id

/-- The root of a tree of counts has finished in a window exactly if as many elements have been
delivered to the window, or to windows that were then merged into it, as the smallest threshold. -/
theorem root_finished_iff_counted (ht : t.isCounting = true) (fn : WindowFn) (moves : List Move)
    (hmoves : Gathering (after t fn []) moves) :
    ∃ least, t.thresholds.min? = some least ∧
      ∀ w, (after t fn moves).state.isFinished w 0 = true ↔ least ≤ (homes moves).count w := by
  obtain ⟨least, hleast⟩ : ∃ least, t.thresholds.min? = some least :=
    Option.isSome_iff_exists.mp (List.isSome_min?_of_ne_nil (t.thresholds_ne_nil ht))
  have hstart : Agrees (after t fn []).state [] :=
    ⟨fun _ => Trigger.tallied_fresh ht, fun _ _ => List.count_nil⟩
  refine ⟨least, hleast, fun w => ?_⟩
  have hroot : (after t fn moves).state.isFinished w 0 = t.reached ((homes moves).count w) :=
    TriggerState.isFinished_eq.trans ((hstart.run ht moves hmoves).tallied w).finished
  rw [hroot]
  exact Trigger.reached_iff hleast

/-- Two windows get two elements each. One is merged into a third window, and that into the other;
then the first gets an element again. -/
def twoMerges : List Move :=
  [.element (.interval 0 10) 1, .element (.interval 5 15) 6, .element (.interval 0 10) 2,
    .element (.interval 5 15) 7, .merge ⟨[.interval 0 10], .interval 0 12⟩,
    .merge ⟨[.interval 5 15, .interval 0 12], .interval 5 15⟩, .element (.interval 0 10) 3]

/-- Four or more elements. -/
def fourOrMore : Trigger := .afterFirst [.afterCount 5, .afterFirst [.afterCount 4, .afterCount 9]]

theorem root_finished_iff_counted_of_two_merges :
    fourOrMore.isCounting = true ∧ Gathering (after fourOrMore .global []) twoMerges ∧
      (after fourOrMore .global twoMerges).state.isFinished (.interval 5 15) 0 = true ∧
      (after fourOrMore .global twoMerges).state.isFinished (.interval 0 10) 0 ≠ true := by
  have hmoves : Gathering (after fourOrMore .global []) twoMerges :=
    ⟨trivial, trivial, trivial, trivial, ⟨by decide, .inr rfl⟩, ⟨by decide, .inl (by decide)⟩,
      trivial, trivial⟩
  obtain ⟨least, hleast, h⟩ := root_finished_iff_counted rfl .global twoMerges hmoves
  obtain rfl : 4 = least := Option.some.inj hleast
  exact ⟨rfl, hmoves, (h _).mpr (by decide), mt (h _).mp (by decide)⟩

end Tester

end EventTime
