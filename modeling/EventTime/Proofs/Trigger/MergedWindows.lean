import Mathlib.Data.List.Dedup
import EventTime.Proofs.Trigger.Driving
import EventTime.Proofs.Trigger.Finished

/-!
# The windows of a merge

Of an old window a merge reads which nodes have finished in it and what its leaves have counted, not
their timers. The order of the old windows does not matter. A window that is listed more than once
counts as one that has seen nothing: its state is used up the first time, and the fresh state handed
over after that takes the place of it. So a repetition goes unnoticed in a window in which nothing
has finished or been counted, and loses what has in any other.
-/

namespace EventTime

/-- Lists that agree up to `g` agree in a part of their elements up to what `g` does there. -/
theorem map_part_congr {α β : Type} {part : α → β} {f : β → β} {g : α → α} {l l' : List α}
    (hpart : ∀ a, f (part a) = part (g a)) (h : l.map g = l'.map g) :
    (l.map part).map f = (l'.map part).map f := by
  have hmap (l : List α) : (l.map part).map f = (l.map g).map part := by
    rw [List.map_map, List.map_map]
    exact List.map_congr_left fun a _ => hpart a
  rw [hmap, hmap, h]

namespace Slot

variable {σ : Type} {s : Slot σ} {g : σ → σ} {olds olds' : List (Slot σ)}

/-- A slot with its memory changed. -/
def mapMemory (g : σ → σ) (s : Slot σ) : Slot σ := ⟨s.finished, g s.memory⟩

theorem merge_congr {run run' : List σ → σ → Step σ MergeOutcome}
    (holds : olds.map (mapMemory g) = olds'.map (mapMemory g))
    (hrun : (olds.map (·.memory)).map g = (olds'.map (·.memory)).map g →
      run (olds.map (·.memory)) s.memory = run' (olds'.map (·.memory)) s.memory) :
    s.merge olds run = s.merge olds' run' := by
  have hany : olds.any (·.finished) = olds'.any (·.finished) := by
    have h := congrArg (List.any · (·.finished)) holds
    rwa [List.any_map, List.any_map] at h
  rw [merge, merge, hany, hrun (map_part_congr (fun _ => rfl) holds)]

end Slot

namespace Trigger

mutual

/-- What a tree remembers apart from its timers. -/
def untimed : (t : Trigger) → t.Memory → t.Memory
  | .leaf _, c => ({ counter := Cell.counter c } : Cell)
  | .afterFirst ts, m => untimedAmong ts m
  | .repeatedly t, m => Slot.mapMemory (untimed t) m
  | .orFinally a b, m => (Slot.mapMemory (untimed a) m.1, Slot.mapMemory (untimed b) m.2)

def untimedAmong : (ts : List Trigger) → Memories ts → Memories ts
  | [], m => m
  | t :: ts, m => (Slot.mapMemory (untimed t) m.1, untimedAmong ts m.2)

end

mutual

theorem untimed_blank : (t : Trigger) → t.untimed t.blank = t.blank
  | .leaf _ => rfl
  | .afterFirst ts => untimedAmong_blanks ts
  | .repeatedly t => congrArg (Slot.mk false) (untimed_blank t)
  | .orFinally a b =>
    Prod.ext (congrArg (Slot.mk false) (untimed_blank a))
      (congrArg (Slot.mk false) (untimed_blank b))

theorem untimedAmong_blanks : (ts : List Trigger) → untimedAmong ts (blanks ts) = blanks ts
  | [] => rfl
  | t :: ts => Prod.ext (congrArg (Slot.mk false) (untimed_blank t)) (untimedAmong_blanks ts)

end

/-- Nothing has finished in a state, and nothing has been counted. -/
def Plain (t : Trigger) (state : t.State) : Prop := state.mapMemory t.untimed = t.fresh

theorem plain_fresh (t : Trigger) : t.Plain t.fresh := congrArg (Slot.mk false) t.untimed_blank

theorem total_untimed (cells : List Cell) :
    Cell.total (cells.map fun c => { counter := c.counter }) = Cell.total cells :=
  List.foldr_map ..

mutual

/-- A built-in tree reads of a merge only the new window, never the list of the old ones. -/
theorem onMerge_congr {e e' : Merge} (hinto : e.into = e'.into) : (t : Trigger) → (node : Nat) →
    (olds olds' : List t.Memory) → (m : t.Memory) → t.isBuiltIn = true →
      olds.map t.untimed = olds'.map t.untimed →
        onMerge e t node olds m = onMerge e' t node olds' m
  | .leaf l, node, olds, olds', c, hb, h => by
    have htotal : Cell.total olds = Cell.total olds' :=
      (total_untimed olds).symm.trans ((congrArg Cell.total h).trans (total_untimed olds'))
    have hreaction : Leaf.onMerge node e olds c l = Leaf.onMerge node e' olds' c l := by
      cases l with
      | custom p => cases hb
      | afterCount count => simp only [Leaf.onMerge, htotal]
      | afterWatermark => simp only [Leaf.onMerge, hinto]
      | endOfWindow => simp only [Leaf.onMerge, hinto]
    exact congrArg (Reaction.step · c) hreaction
  | .afterFirst ts, node, olds, olds', m, hb, h => by
    simp only [isBuiltIn, Bool.and_eq_true] at hb
    exact onMergeAmong_congr hinto ts (node + 1) olds olds' false m hb.2 h
  | .repeatedly t, node, olds, olds', m, hb, h => by
    have hchild := Slot.merge_congr (s := m) h
      fun hmem => onMerge_congr hinto t (node + 1) _ _ m.memory hb hmem
    rw [onMerge, onMerge, hchild]
  | .orFinally a b, node, olds, olds', m, hb, h => by
    simp only [isBuiltIn, Bool.and_eq_true] at hb
    have hmain : Slot.merge m.1 (olds.map (·.1)) (onMerge e a (node + 1)) =
        Slot.merge m.1 (olds'.map (·.1)) (onMerge e' a (node + 1)) :=
      Slot.merge_congr (map_part_congr (fun _ => rfl) h) fun hmem =>
        onMerge_congr hinto a (node + 1) _ _ m.1.memory hb.1 hmem
    have hlast : Slot.merge m.2 (olds.map (·.2)) (onMerge e b (node + 1 + a.size)) =
        Slot.merge m.2 (olds'.map (·.2)) (onMerge e' b (node + 1 + a.size)) :=
      Slot.merge_congr (map_part_congr (fun _ => rfl) h) fun hmem =>
        onMerge_congr hinto b (node + 1 + a.size) _ _ m.2.memory hb.2 hmem
    rw [onMerge, onMerge, hmain, hlast]

theorem onMergeAmong_congr {e e' : Merge} (hinto : e.into = e'.into) : (ts : List Trigger) →
    (node : Nat) → (olds olds' : List (Memories ts)) → (fired : Bool) → (m : Memories ts) →
      isBuiltInAll ts = true → olds.map (untimedAmong ts) = olds'.map (untimedAmong ts) →
        onMergeAmong e ts node olds fired m = onMergeAmong e' ts node olds' fired m
  | [], _, _, _, _, _, _, _ => rfl
  | t :: ts, node, olds, olds', fired, m, hb, h => by
    simp only [isBuiltInAll, Bool.and_eq_true] at hb
    have hfirst : Slot.merge m.1 (olds.map (·.1)) (onMerge e t node) =
        Slot.merge m.1 (olds'.map (·.1)) (onMerge e' t node) :=
      Slot.merge_congr (map_part_congr (fun _ => rfl) h) fun hmem =>
        onMerge_congr hinto t node _ _ m.1.memory hb.1 hmem
    have hrest (fired : Bool) : onMergeAmong e ts (node + t.size) (olds.map (·.2)) fired m.2 =
        onMergeAmong e' ts (node + t.size) (olds'.map (·.2)) fired m.2 :=
      onMergeAmong_congr hinto ts (node + t.size) _ _ fired m.2 hb.2
        (map_part_congr (fun _ => rfl) h)
    simp only [onMergeAmong, hfirst, hrest]

end

end Trigger

/-! ### Reordered and repeated windows -/

namespace TriggerState

variable {t : Trigger} {s s' : TriggerState t} {olds olds' : List Window}

/-- The state that a window hands over to a merge of the old windows. -/
def handedOver (s : TriggerState t) (olds : List Window) (w : Window) : t.State :=
  if 1 < olds.count w then t.fresh else s.stateOf w

theorem find?_handedOver (s : TriggerState t) (olds : List Window) (w : Window) :
    (olds.foldl take (.empty, s)).1.find? w =
      if w ∈ olds then some (s.handedOver olds w) else none :=
  find?_taken_of_count olds (.empty, s) w

theorem handedOver_dedup (s : TriggerState t) (olds : List Window) (w : Window) :
    s.handedOver olds.dedup w = s.stateOf w :=
  if_neg (Nat.not_lt.mpr (List.nodup_iff_count_le_one.mp olds.nodup_dedup w))

/-- A merge depends on the old windows through what they hand over, their timers apart, and on the
others through the states they keep. -/
theorem merge_congr (ht : t.isBuiltIn = true) (into : Window)
    (hmem : ∀ w, w ∈ olds' ↔ w ∈ olds) (hkept : ∀ w, w ∉ olds → s'.find? w = s.find? w)
    (hover : ∀ w ∈ olds, (s'.handedOver olds' w).mapMemory t.untimed =
      (s.handedOver olds w).mapMemory t.untimed) :
    s'.merge ⟨olds', into⟩ = s.merge ⟨olds, into⟩ := by
  have hrest : (olds'.foldl take (.empty, s')).2 = (olds.foldl take (.empty, s)).2 := by
    refine WindowMap.ext_find? fun w => ?_
    rw [find?_left, find?_left]
    by_cases hw : w ∈ olds
    · rw [if_pos hw, if_pos ((hmem w).mpr hw)]
    · rw [if_neg hw, if_neg (mt (hmem w).mp hw)]
      exact hkept w hw
  have htaken := WindowMap.map_values_congr (f := Slot.mapMemory t.untimed)
    (m := (olds'.foldl take (.empty, s')).1) (n := (olds.foldl take (.empty, s)).1) fun w => by
      rw [find?_handedOver, find?_handedOver]
      by_cases hw : w ∈ olds
      · rw [if_pos hw, if_pos ((hmem w).mpr hw)]
        exact congrArg some (hover w hw)
      · rw [if_neg hw, if_neg (mt (hmem w).mp hw)]
  have hinto : (⟨olds', into⟩ : Merge).into = (⟨olds, into⟩ : Merge).into := rfl
  have hstep : s'.mergeStep ⟨olds', into⟩ = s.mergeStep ⟨olds, into⟩ := by
    unfold mergeStep
    rw [hrest]
    exact Slot.merge_congr htaken fun h => t.onMerge_congr hinto 0 _ _ _ ht h
  obtain ⟨o, s₁, hmerge⟩ := s.merge_answers ⟨olds, into⟩ ht
  have ho : (s.mergeStep ⟨olds, into⟩).answer = .ok o :=
    (merge_answer s _).symm.trans (congrArg Prod.fst hmerge)
  rw [merge_of_answer ho, merge_of_answer (hstep ▸ ho), hrest, hstep]

/-- A window that is listed again goes unnoticed if it hands over nothing that a merge reads. -/
theorem handedOver_congr {w : Window}
    (h : ¬t.Plain (s.stateOf w) → (1 < olds'.count w ↔ 1 < olds.count w)) :
    (s.handedOver olds' w).mapMemory t.untimed = (s.handedOver olds w).mapMemory t.untimed := by
  by_cases hplain : t.Plain (s.stateOf w)
  · have hover (olds : List Window) : (s.handedOver olds w).mapMemory t.untimed = t.fresh := by
      unfold handedOver
      split
      · exact t.plain_fresh
      · exact hplain
    rw [hover, hover]
  · simp only [handedOver, h hplain]

/-- A window that is listed more than once is merged as if its state had been cleared before. -/
theorem merge_dedup (ht : t.isBuiltIn = true) (s : TriggerState t) (olds : List Window)
    (into : Window) : TriggerState.merge
      ((olds.filter (1 < olds.count ·)).foldl WindowMap.erase s) ⟨olds.dedup, into⟩ =
        s.merge ⟨olds, into⟩ := by
  refine merge_congr ht into (fun w => List.mem_dedup) (fun w hw => ?_) fun w hw => ?_
  · have hout : w ∉ olds.filter (1 < olds.count ·) := mt List.mem_of_mem_filter hw
    rw [WindowMap.find?_foldl_erase, if_neg hout]
  · rw [handedOver_dedup, stateOf, WindowMap.find?_foldl_erase, handedOver]
    by_cases hcount : 1 < olds.count w
    · rw [if_pos hcount, if_pos (List.mem_filter.mpr ⟨hw, by simpa using hcount⟩)]
      rfl
    · have hout : w ∉ olds.filter (1 < olds.count ·) := fun h =>
        hcount (by simpa using (List.mem_filter.mp h).2)
      rw [if_neg hcount, if_neg hout]
      rfl

/-- The order of the old windows does not matter to a merge. Listing one more than once matters only
if something has finished or been counted in it: the merge is then the one that lists each window
once after the states of the windows listed more than once have been cleared. -/
theorem merge_of_windows (ht : t.isBuiltIn = true) (s : TriggerState t) (olds : List Window)
    (into : Window) :
    (∀ olds', olds'.Perm olds → s.merge ⟨olds', into⟩ = s.merge ⟨olds, into⟩) ∧
      (∀ olds', (∀ w, w ∈ olds' ↔ w ∈ olds) →
        (∀ w, ¬t.Plain (s.stateOf w) → (1 < olds'.count w ↔ 1 < olds.count w)) →
          s.merge ⟨olds', into⟩ = s.merge ⟨olds, into⟩) ∧
      s.merge ⟨olds, into⟩ = TriggerState.merge
        ((olds.filter (1 < olds.count ·)).foldl WindowMap.erase s) ⟨olds.dedup, into⟩ := by
  refine ⟨fun olds' hperm => ?_, fun olds' hmem hcount => ?_, (merge_dedup ht s olds into).symm⟩
  · refine merge_congr ht into (fun w => hperm.mem_iff) (fun _ _ => rfl) fun w _ => ?_
    exact handedOver_congr fun _ => by rw [hperm.count_eq]
  · exact merge_congr ht into hmem (fun _ _ => rfl) fun w _ => handedOver_congr (hcount w)

/-- A count that starts over with every second element of a window, until the window ends. -/
def pairsUntilEnd : Trigger := .repeatedUntil (.afterCount 2) .afterWatermark

/-- One element has arrived in each of two windows. In a third one two have, so its count has
started over, and only a timer is left. -/
def pairsState : TriggerState pairsUntilEnd :=
  [⟨.interval 0 10, 3⟩, ⟨.interval 5 15, 7⟩, ⟨.interval 8 18, 9⟩, ⟨.interval 8 18, 11⟩].foldl
    (fun s e => (s.element e).2) .empty

theorem merge_of_windows_of_pairs :
    pairsUntilEnd.isBuiltIn = true ∧
      pairsState.merge ⟨[.interval 8 18, .interval 5 15, .interval 0 10], .interval 0 18⟩ =
        pairsState.merge ⟨[.interval 0 10, .interval 5 15, .interval 8 18], .interval 0 18⟩ ∧
      pairsState.merge
          ⟨[.interval 8 18, .interval 5 15, .interval 0 10, .interval 8 18], .interval 0 18⟩ =
        pairsState.merge ⟨[.interval 0 10, .interval 5 15, .interval 8 18], .interval 0 18⟩ ∧
      (pairsState.merge ⟨[.interval 0 10, .interval 5 15, .interval 8 18], .interval 0 18⟩).1 =
        .ok .fire ∧
      pairsState.merge ⟨[.interval 5 15, .interval 0 10, .interval 5 15], .interval 0 15⟩ =
        TriggerState.merge (pairsState.erase (.interval 5 15))
          ⟨[.interval 0 10, .interval 5 15], .interval 0 15⟩ := by
  obtain ⟨hperm, hrepeat, -⟩ := merge_of_windows (t := pairsUntilEnd) rfl pairsState
    [.interval 0 10, .interval 5 15, .interval 8 18] (.interval 0 18)
  have hcleared := (merge_of_windows (t := pairsUntilEnd) rfl pairsState
    [.interval 5 15, .interval 0 10, .interval 5 15] (.interval 0 15)).2.2
  have hplain : pairsUntilEnd.Plain (pairsState.stateOf (.interval 8 18)) := rfl
  refine ⟨rfl, hperm _ (by decide), hrepeat _ (fun w => ?_) fun w hw => ?_, rfl, hcleared⟩
  · simp only [List.mem_cons]
    tauto
  · have hne : Window.interval 8 18 ≠ w := fun h => hw (h ▸ hplain)
    have hrest : [Window.interval 5 15, .interval 0 10, .interval 8 18].Perm
        [.interval 0 10, .interval 5 15, .interval 8 18] := by decide
    rw [List.count_cons_of_ne hne, hrest.count_eq]

/-- Two windows have seen one element each. -/
def twoOnes : TriggerState (.afterCount 2) :=
  (element (element .empty ⟨.interval 0 10, 3⟩).2 ⟨.interval 5 15, 7⟩).2

/-- The two elements complete a count of two when their windows merge, unless one of the windows is
listed again, which loses its element. -/
theorem merge_forgets_repeated :
    Trigger.isBuiltIn (.afterCount 2) = true ∧ Reachable twoOnes ∧
      (twoOnes.merge ⟨[.interval 0 10, .interval 5 15], .interval 0 15⟩).1 = .ok .fireAndFinish ∧
      isFinished (twoOnes.merge ⟨[.interval 0 10, .interval 5 15], .interval 0 15⟩).2
        (.interval 0 15) 0 = true ∧
      (twoOnes.merge ⟨[.interval 0 10, .interval 5 15, .interval 5 15], .interval 0 15⟩).1 =
        .ok .idle ∧
      isFinished
        (twoOnes.merge ⟨[.interval 0 10, .interval 5 15, .interval 5 15], .interval 0 15⟩).2
        (.interval 0 15) 0 = false :=
  ⟨rfl, .element (.element .empty _) _, rfl, rfl, rfl, rfl⟩

end TriggerState

end EventTime
