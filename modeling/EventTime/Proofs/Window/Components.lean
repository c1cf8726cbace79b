import Mathlib.Combinatorics.SimpleGraph.Connectivity.Connected
import Mathlib.Data.List.FinRange
import Mathlib.Data.List.Permutation
import EventTime.Proofs.Splits
import EventTime.Proofs.Window.Clearing

/-!
# The components of overlap

Two places of a list of windows are joined if the windows there overlap. The merges that sessions
ask for are the connected components of this graph with at least two places, each with the smallest
window that covers it. Windows may be empty or come more than once, and a window without length does
not overlap itself.

The walk compares a window only with what its run covers so far. In the order of the windows this
suffices: the one that reaches to the end of the run starts no later, and so overlaps the new window
itself.
-/

namespace EventTime

namespace Window

theorem Covers.not_meet {u v w x : Window} (hu : u.Covers v) (hw : w.Covers x)
    (hapart : u.intersects w = false) : v.intersects x = false := by
  refine Bool.eq_false_iff.mpr fun hmeets => ?_
  have hux := hu.meets hmeets
  rw [intersects_comm] at hux
  have hwu := hw.meets hux
  rw [intersects_comm, hapart] at hwu
  cases hwu

theorem Covers.span {u v w : Window} (hv : u.Covers v) (hw : u.Covers w) :
    u.Covers (v.span w) := by
  cases u <;> cases v <;> cases w <;> simp only [Covers, Window.span] at *
  omega

theorem sort_sorted (windows : List Window) :
    (sort windows).Pairwise fun u w => ¬w < u := by
  have htrans : ∀ u v w : Window, (!decide (v < u)) = true → (!decide (w < v)) = true →
      (!decide (w < u)) = true := by
    intro u v w huv hvw
    simp only [Bool.not_eq_true', decide_eq_false_iff_not] at *
    intro hwu
    rcases lt_trichotomy v u with hlt | rfl | hlt
    · exact huv hlt
    · exact hvw hwu
    · exact hvw (lt_trans hwu hlt)
  have htotal : ∀ u w : Window, (!decide (w < u) || !decide (u < w)) = true := by
    intro u w
    simp only [Bool.or_eq_true, Bool.not_eq_true', decide_eq_false_iff_not]
    by_cases h : w < u
    · exact .inr (lt_asymm h)
    · exact .inl h
  refine (List.pairwise_mergeSort htrans htotal windows).imp fun h => ?_
  simpa only [Bool.not_eq_true', decide_eq_false_iff_not] using h

end Window

namespace WindowFn

/-- Windows of which each one but the first overlaps an earlier one, with the smallest window that
covers them. -/
inductive Linked : Window → List Window → Prop
  | one (w : Window) : Linked w [w]
  | extend {covering w : Window} {run : List Window} : Linked covering run →
      (∃ u ∈ run, u.intersects w = true) → Linked (covering.span w) (run ++ [w])

namespace Linked

variable {covering w : Window} {run : List Window}

theorem gathers (h : Linked covering run) : Gathers covering run := by
  induction h with
  | one w => exact gathers_one w
  | extend _ hlink ih =>
    obtain ⟨u, hu, hmeets⟩ := hlink
    exact ih.extend ((ih.inside u hu).covers.meets hmeets)

theorem covers (h : Linked covering run) : ∀ w ∈ run, covering.Covers w :=
  fun w hw => (h.gathers.inside w hw).covers

theorem least (h : Linked covering run) {v : Window} (hv : ∀ w ∈ run, v.Covers w) :
    v.Covers covering := by
  induction h with
  | one w => exact hv w (List.mem_singleton_self w)
  | extend _ _ ih =>
    refine (ih fun u hu => hv u (List.mem_append_left _ hu)).span ?_
    exact hv _ (List.mem_append_right _ (List.mem_singleton_self _))

/-- A run of several windows covers some time. -/
theorem proper (h : Linked covering run) (hlen : 1 < run.length) :
    covering.intersects covering = true := by
  have hcovers := h.covers
  cases h with
  | one w => simp at hlen
  | @extend covering w run h hlink =>
    obtain ⟨u, hu, hmeets⟩ := hlink
    have hw := hcovers w (List.mem_append_right _ (List.mem_singleton_self _))
    have huw := (hcovers u (List.mem_append_left _ hu)).meets hmeets
    rw [Window.intersects_comm] at huw
    exact hw.meets huw

/-- A run has a window that reaches to the end of what it covers. -/
theorem exists_last (h : Linked covering run) :
    (covering = .global ∧ Window.global ∈ run) ∨
      ∃ p q a, covering = .interval p q ∧ Window.interval a q ∈ run := by
  induction h with
  | one w =>
    cases w with
    | global => exact .inl ⟨rfl, List.mem_singleton_self _⟩
    | interval a b => exact .inr ⟨a, b, a, rfl, List.mem_singleton_self _⟩
  | @extend covering w run _ _ ih =>
    rcases ih with ⟨rfl, hmem⟩ | ⟨p, q, a, rfl, hmem⟩
    · exact .inl ⟨by cases w <;> rfl, List.mem_append_left _ hmem⟩
    · cases w with
      | global => exact .inl ⟨rfl, List.mem_append_right _ (List.mem_singleton_self _)⟩
      | interval c d =>
        right
        rcases Int.le_total q d with hqd | hdq
        · refine ⟨min p c, d, c, ?_, List.mem_append_right _ (List.mem_singleton_self _)⟩
          rw [Window.span, Int.max_eq_right hqd]
        · refine ⟨min p c, q, a, ?_, List.mem_append_left _ hmem⟩
          rw [Window.span, Int.max_eq_left hdq]

/-- A window that comes after a run and overlaps what it covers overlaps a window of the run. -/
theorem exists_meets (h : Linked covering run) (hafter : ∀ u ∈ run, ¬w < u) (hordered : w.Ordered)
    (hmeets : covering.intersects w = true) : ∃ u ∈ run, u.intersects w = true := by
  rcases h.exists_last with ⟨-, hmem⟩ | ⟨p, q, a, rfl, hmem⟩
  · exact ⟨.global, hmem, by cases w <;> rfl⟩
  · refine ⟨_, hmem, ?_⟩
    cases w with
    | global => rfl
    | interval c d =>
      have hlast := hafter _ hmem
      simp only [Window.interval_lt_interval, Window.intersects_interval, Window.Ordered] at *
      omega

end Linked

theorem runs_linked {covering : Window} {run rest : List Window} (hrun : Linked covering run)
    (hsorted : (run ++ rest).Pairwise fun u w => ¬w < u) (hordered : ∀ w ∈ rest, w.Ordered) :
    ∀ r ∈ runs covering run rest, Linked r.1 r.2 := by
  induction rest generalizing covering run with
  | nil =>
    intro r hr
    rw [List.mem_singleton.mp hr]
    exact hrun
  | cons w rest ih =>
    obtain ⟨-, hback, hcross⟩ := List.pairwise_append.mp hsorted
    have hrest : ∀ w ∈ rest, w.Ordered := fun w hw => hordered w (List.mem_cons_of_mem _ hw)
    rw [runs]
    split
    · rename_i hmeets
      have hafter : ∀ u ∈ run, ¬w < u := fun u hu => hcross u hu w (List.mem_cons_self ..)
      have hlink := hrun.exists_meets hafter (hordered w (List.mem_cons_self ..)) hmeets
      refine ih (hrun.extend hlink) ?_ hrest
      rwa [List.append_assoc, List.singleton_append]
    · intro r hr
      rcases List.mem_cons.mp hr with rfl | hr
      · exact hrun
      · exact ih (.one w) hback hrest r hr

/-- The merges of the runs with several windows. -/
def merges (rs : List (Window × List Window)) : List Merge :=
  rs.flatMap fun r => runMerge r.1 r.2

theorem mem_merges {rs : List (Window × List Window)} {m : Merge} :
    m ∈ merges rs ↔ ∃ r ∈ rs, 1 < r.2.length ∧ m = ⟨r.2, r.1⟩ := by
  simp only [merges, List.mem_flatMap, mem_runMerge]

theorem merges_eq (rs : List (Window × List Window)) :
    merges rs = (rs.filter fun r => 1 < r.2.length).map fun r => ⟨r.2, r.1⟩ := by
  induction rs with
  | nil => rfl
  | cons r rs ih =>
    rw [merges, List.flatMap_cons, ← merges, ih, runMerge, List.filter_cons]
    simp only [decide_eq_true_eq]
    split <;> rfl

theorem eq_of_meet {α : Type} {l : List (Window × α)}
    (hapart : l.Pairwise fun r r' => r.1.intersects r'.1 = false) {r r' : Window × α} (hr : r ∈ l)
    (hr' : r' ∈ l) (hmeets : r.1.intersects r'.1 = true) : r = r' := by
  have : Std.Symm fun r r' : Window × α => r.1.intersects r'.1 = false :=
    ⟨fun r r' h => (Window.intersects_comm ..).trans h⟩
  by_contra hne
  rw [hapart.forall hr hr' hne] at hmeets
  cases hmeets

/-- Windows cut into linked runs of which no two overlap. -/
structure Grouping (windows : List Window) (rs : List (Window × List Window)) : Prop where
  flatten : (rs.map Prod.snd).flatten = windows
  linked : ∀ r ∈ rs, Linked r.1 r.2
  apart : rs.Pairwise fun r r' => r.1.intersects r'.1 = false

theorem grouping_runs {w : Window} {rest : List Window}
    (hsorted : (w :: rest).Pairwise fun u w => ¬w < u) (hordered : ∀ u ∈ w :: rest, u.Ordered) :
    Grouping (w :: rest) (runs w [w] rest) where
  flatten := flatten_runs w [w] rest
  linked := runs_linked (.one w) hsorted fun u hu => hordered u (List.mem_cons_of_mem _ hu)
  apart := by
    cases w with
    | global =>
      rw [runs_global]
      exact List.pairwise_singleton _ _
    | interval a b =>
      have hab : a ≤ b := hordered _ (List.mem_cons_self ..)
      obtain ⟨hstretches, hpairs⟩ := runs_stretch (stretch_one hab) hsorted
        fun u hu => hordered u (List.mem_cons_of_mem _ hu)
      refine hpairs.imp_of_mem fun {r r'} hr hr' hbefore => ?_
      obtain ⟨p, q, heq, -⟩ := hstretches r hr
      obtain ⟨p', q', heq', -⟩ := hstretches r' hr'
      rw [heq, heq']
      exact Before.not_meet hbefore heq heq' (Window.covers_refl _) (Window.covers_refl _)

theorem exists_grouping {active : List Window} (hordered : ∀ w ∈ active, w.Ordered) :
    ∃ rs, Grouping (Window.sort active) rs ∧ overlapping active = merges rs := by
  have hsorted := Window.sort_sorted active
  have hordered : ∀ w ∈ Window.sort active, w.Ordered := fun w hw =>
    hordered w ((Window.sort_perm active).mem_iff.mp hw)
  rw [overlapping]
  cases h : Window.sort active with
  | nil => exact ⟨[], ⟨rfl, by simp, .nil⟩, rfl⟩
  | cons w rest =>
    rw [h] at hsorted hordered
    exact ⟨runs w [w] rest, grouping_runs hsorted hordered, sweep_eq ..⟩

/-- The windows of a list in no merge, and the new windows of the merges. -/
def merged (active : List Window) (ms : List Merge) : List Window :=
  active.filter (fun w => decide (∀ m ∈ ms, w ∉ m.olds)) ++ ms.map Merge.into

namespace Grouping

variable {windows : List Window} {rs : List (Window × List Window)}

/-- A window that is a run of its own is in no run of several windows. -/
theorem not_mem_of_alone (h : Grouping windows rs) {r r' : Window × List Window} (hr : r ∈ rs)
    (hr' : r' ∈ rs) (halone : ¬1 < r.2.length) (hlen : 1 < r'.2.length) : r.1 ∉ r'.2 := by
  intro hmem
  have hmeets : r'.1.intersects r.1 = true := by
    rcases (h.linked r' hr').gathers.inside _ hmem with heq | hinside
    · rw [heq]
      exact (h.linked r' hr').proper hlen
    · exact hinside.2
  rw [← eq_of_meet h.apart hr' hr hmeets] at halone
  exact halone hlen

theorem eq_singleton_of_alone (h : Grouping windows rs) {r : Window × List Window} (hr : r ∈ rs)
    (halone : ¬1 < r.2.length) : r.2 = [r.1] := by
  have hlinked := h.linked r hr
  generalize r.1 = covering, r.2 = run at hlinked halone
  cases hlinked with
  | one w => rfl
  | extend hlinked _ =>
    have hpos := List.length_pos_iff.mpr hlinked.gathers.nonempty
    simp only [List.length_append, List.length_singleton] at halone
    omega

/-- What the merges leave are the windows that cover the runs. -/
theorem merged_perm (h : Grouping windows rs) :
    (merged windows (merges rs)).Perm (rs.map Prod.fst) := by
  have hkeeps : ∀ r ∈ rs, r.2.filter (fun w => decide (∀ m ∈ merges rs, w ∉ m.olds)) =
      if 1 < r.2.length then [] else [r.1] := by
    intro r hr
    split
    · rename_i hlen
      refine List.filter_eq_nil_iff.mpr fun w hw hall => ?_
      have hout := of_decide_eq_true hall ⟨r.2, r.1⟩ (mem_merges.mpr ⟨r, hr, hlen, rfl⟩)
      exact hout hw
    · rename_i halone
      rw [h.eq_singleton_of_alone hr halone]
      refine List.filter_eq_self.mpr fun w hw => decide_eq_true fun m hm => ?_
      obtain ⟨r', hr', hlen, rfl⟩ := mem_merges.mp hm
      rw [List.mem_singleton.mp hw]
      exact h.not_mem_of_alone hr hr' halone hlen
  have hleft : windows.filter (fun w => decide (∀ m ∈ merges rs, w ∉ m.olds)) =
      rs.flatMap fun r => if 1 < r.2.length then [] else [r.1] := by
    rw [← h.flatten, List.filter_flatten, List.map_map, ← List.flatMap_def]
    exact List.flatMap_congr fun r hr => hkeeps r hr
  have hnew : (merges rs).map Merge.into =
      rs.flatMap fun r => if 1 < r.2.length then [r.1] else [] := by
    rw [merges, List.map_flatMap]
    refine List.flatMap_congr fun r _ => ?_
    rw [runMerge]
    split <;> rfl
  have hboth : (rs.flatMap fun r => (if 1 < r.2.length then [] else [r.1]) ++
      if 1 < r.2.length then [r.1] else []) = rs.map Prod.fst := by
    rw [List.map_eq_flatMap]
    refine List.flatMap_congr fun r _ => ?_
    split <;> rfl
  rw [merged, hleft, hnew, ← hboth]
  exact List.flatMap_append_perm ..

end Grouping

theorem sweep_of_apart {w : Window} {rest : List Window}
    (hapart : (w :: rest).Pairwise fun u v => u.intersects v = false) :
    sweep w [w] rest = [] := by
  induction rest generalizing w with
  | nil => rfl
  | cons v rest ih =>
    obtain ⟨hfirst, hrest⟩ := List.pairwise_cons.mp hapart
    have hwv := hfirst v (List.mem_cons_self ..)
    rw [sweep, hwv, ih hrest]
    rfl

theorem overlapping_of_apart {active : List Window}
    (hapart : active.Pairwise fun u v => u.intersects v = false) : overlapping active = [] := by
  have hsorted : (Window.sort active).Pairwise fun u v => u.intersects v = false :=
    ((Window.sort_perm active).pairwise_iff fun h => (Window.intersects_comm ..).trans h).mpr hapart
  rw [overlapping]
  cases h : Window.sort active with
  | nil => rfl
  | cons w rest => exact sweep_of_apart (h ▸ hsorted)

end WindowFn

/-! ### Components -/

/-- The places of a list of windows, joined where the windows there overlap. -/
def overlapGraph (active : List Window) : SimpleGraph (Fin active.length) where
  Adj i j := i ≠ j ∧ (active.get i).intersects (active.get j) = true
  symm := ⟨fun _ _ h => ⟨h.1.symm, (Window.intersects_comm ..).trans h.2⟩⟩
  loopless := ⟨fun _ h => h.1 rfl⟩

/-- A merge of the windows at the places of a component, each once, into the smallest window that
covers them. -/
structure MergesComponent (active : List Window) (c : (overlapGraph active).ConnectedComponent)
    (m : Merge) : Prop where
  members : ∃ places : List (Fin active.length), places.Nodup ∧ (∀ i, i ∈ places ↔ i ∈ c.supp) ∧
    places.map active.get = m.olds
  covers : ∀ w ∈ m.olds, m.into.Covers w
  least : ∀ v : Window, (∀ w ∈ m.olds, v.Covers w) → v.Covers m.into

namespace WindowFn

variable {active : List Window}

theorem exists_split_map {α β γ : Type} {f : α → β} {rs : List (γ × List β)} {l : List α}
    (h : (rs.map Prod.snd).flatten = l.map f) :
    ∃ zs : List (γ × List α), (zs.map Prod.snd).flatten = l ∧
      rs = zs.map fun z => (z.1, z.2.map f) := by
  induction rs generalizing l with
  | nil => exact ⟨[], (List.map_eq_nil_iff.mp h.symm).symm, rfl⟩
  | cons r rs ih =>
    rw [List.map_cons, List.flatten_cons] at h
    obtain ⟨front, back, rfl, hfront, hback⟩ := List.map_eq_append_iff.mp h.symm
    obtain ⟨zs, rfl, rfl⟩ := ih hback.symm
    exact ⟨(r.1, front) :: zs, rfl, by rw [List.map_cons, hfront]⟩

/-- The runs of a list of windows come from lists of places, in which every place stands once. -/
theorem exists_places {rs : List (Window × List Window)}
    (h : (rs.map Prod.snd).flatten.Perm active) :
    ∃ zs : List (Window × List (Fin active.length)),
      (zs.map Prod.snd).flatten.Perm (List.finRange active.length) ∧
      rs = zs.map fun z => (z.1, z.2.map active.get) := by
  have hcomp : Relation.Comp (· = List.map active.get ·) List.Perm (rs.map Prod.snd).flatten
      (List.finRange active.length) := by
    rw [List.eq_map_comp_perm]
    exact h.trans (.of_eq (List.map_get_finRange active).symm)
  obtain ⟨order, heq, hperm⟩ := hcomp
  obtain ⟨zs, rfl, rfl⟩ := exists_split_map heq
  exact ⟨zs, hperm, rfl⟩

/-- The places of a linked run are in one component. -/
theorem Linked.exists_component {covering : Window} {run : List Window} (h : Linked covering run)
    {places : List (Fin active.length)} (hrun : places.map active.get = run)
    (hnodup : places.Nodup) :
    ∃ c, ∀ i ∈ places, (overlapGraph active).connectedComponentMk i = c := by
  induction h generalizing places with
  | one w =>
    obtain ⟨i, rfl, -⟩ := List.map_eq_singleton_iff.mp hrun
    refine ⟨(overlapGraph active).connectedComponentMk i, fun j hj => ?_⟩
    rw [List.mem_singleton.mp hj]
  | extend _ hlink ih =>
    obtain ⟨front, back, rfl, rfl, hback⟩ := List.map_eq_append_iff.mp hrun
    obtain ⟨j, rfl, rfl⟩ := List.map_eq_singleton_iff.mp hback
    obtain ⟨hfront, -, hnew⟩ := List.nodup_append.mp hnodup
    obtain ⟨c, hc⟩ := ih rfl hfront
    obtain ⟨u, hu, hmeets⟩ := hlink
    obtain ⟨k, hk, rfl⟩ := List.mem_map.mp hu
    have hadj : (overlapGraph active).Adj k j :=
      ⟨hnew k hk j (List.mem_singleton_self _), hmeets⟩
    refine ⟨c, fun i hi => ?_⟩
    rcases List.mem_append.mp hi with hi | hi
    · exact hc i hi
    · rw [List.mem_singleton.mp hi, ← hc k hk]
      exact SimpleGraph.ConnectedComponent.eq.mpr hadj.reachable.symm

/-- Places cut into linked runs of which no two overlap. -/
structure Places (active : List Window) (zs : List (Window × List (Fin active.length))) : Prop where
  perm : (zs.map Prod.snd).flatten.Perm (List.finRange active.length)
  linked : ∀ z ∈ zs, Linked z.1 (z.2.map active.get)
  apart : zs.Pairwise fun z z' => z.1.intersects z'.1 = false

namespace Places

variable {zs : List (Window × List (Fin active.length))}

theorem exists_mem (h : Places active zs) (i : Fin active.length) : ∃ z ∈ zs, i ∈ z.2 := by
  obtain ⟨l, hl, hi⟩ := List.mem_flatten.mp (h.perm.mem_iff.mpr (List.mem_finRange i))
  obtain ⟨z, hz, rfl⟩ := List.mem_map.mp hl
  exact ⟨z, hz, hi⟩

theorem nodups (h : Places active zs) :
    (∀ z ∈ zs, z.2.Nodup) ∧ zs.Pairwise fun z z' => z.2.Disjoint z'.2 := by
  have hnodup := h.perm.nodup_iff.mpr (List.nodup_finRange _)
  obtain ⟨hall, hpairs⟩ := List.nodup_flatten.mp hnodup
  exact ⟨fun z hz => hall z.2 (List.mem_map_of_mem hz), List.pairwise_map.mp hpairs⟩

theorem mem_of_reachable (h : Places active zs) {z : Window × List (Fin active.length)}
    (hz : z ∈ zs) {i j : Fin active.length} (hi : i ∈ z.2)
    (hreach : (overlapGraph active).Reachable i j) : j ∈ z.2 := by
  rw [SimpleGraph.reachable_iff_reflTransGen] at hreach
  induction hreach with
  | refl => exact hi
  | @tail j k _ hadj ih =>
    obtain ⟨z', hz', hk⟩ := h.exists_mem k
    have hj := (h.linked z hz).covers _ (List.mem_map_of_mem ih)
    have hk' := (h.linked z' hz').covers _ (List.mem_map_of_mem hk)
    have hmeets : z.1.intersects z'.1 = true := by
      by_contra hapart
      have hnot := hj.not_meet hk' (Bool.eq_false_iff.mpr hapart)
      rw [hadj.2] at hnot
      cases hnot
    rw [eq_of_meet h.apart hz hz' hmeets]
    exact hk

theorem exists_supp (h : Places active zs) {z : Window × List (Fin active.length)} (hz : z ∈ zs) :
    ∃ c : (overlapGraph active).ConnectedComponent, {i | i ∈ z.2} = c.supp := by
  have hlinked := h.linked z hz
  obtain ⟨c, hc⟩ := hlinked.exists_component rfl (h.nodups.1 z hz)
  obtain ⟨w, hw⟩ := List.exists_mem_of_ne_nil _ hlinked.gathers.nonempty
  obtain ⟨k, hk, -⟩ := List.mem_map.mp hw
  refine ⟨c, Set.ext fun i => ⟨fun hi => hc i hi, fun hi => ?_⟩⟩
  have hreach : (overlapGraph active).Reachable k i :=
    SimpleGraph.ConnectedComponent.eq.mp ((hc k hk).trans hi.symm)
  exact h.mem_of_reachable hz hk hreach

end Places

theorem exists_two {α : Type} {l : List α} (hnodup : l.Nodup) (hlen : 1 < l.length) :
    {a | a ∈ l}.Nontrivial := by
  match l with
  | a :: b :: rest =>
    have hne : a ≠ b := fun h => (List.nodup_cons.mp hnodup).1 (h ▸ List.mem_cons_self ..)
    exact ⟨a, List.mem_cons_self .., b, List.mem_cons_of_mem _ (List.mem_cons_self ..), hne⟩

/-- The runs of several windows are the components of several places. -/
theorem exists_components {rs : List (Window × List Window)}
    (h : Grouping (Window.sort active) rs) :
    ∃ cs : List (overlapGraph active).ConnectedComponent, cs.Nodup ∧
      (∀ c, c ∈ cs ↔ c.supp.Nontrivial) ∧
      List.Forall₂ (MergesComponent active) cs (merges rs) := by
  obtain ⟨zs, hperm, rfl⟩ := exists_places (h.flatten ▸ Window.sort_perm active)
  have hplaces : Places active zs :=
    ⟨hperm, fun z hz => h.linked _ (List.mem_map_of_mem hz), List.pairwise_map.mp h.apart⟩
  obtain ⟨hnodups, hdisjoint⟩ := hplaces.nodups
  let groups := zs.filter fun z => 1 < z.2.length
  have hgroups : ∀ z, z ∈ groups ↔ z ∈ zs ∧ 1 < z.2.length := by
    intro z
    simp only [groups, List.mem_filter, decide_eq_true_eq]
  have hmerges : merges (zs.map fun z => (z.1, z.2.map active.get)) =
      groups.map fun z => ⟨z.2.map active.get, z.1⟩ := by
    rw [merges_eq, List.filter_map, List.map_map]
    simp only [Function.comp_def, List.length_map, groups]
  obtain ⟨cs, hcs⟩ := exists_forall₂ fun z h => hplaces.exists_supp ((hgroups z).mp h).1
  have hsupps : cs.map (·.supp) = groups.map fun z => {i | i ∈ z.2} := by
    rw [← List.forall₂_eq_eq_eq, List.forall₂_map_left_iff, List.forall₂_map_right_iff]
    exact hcs.flip.imp fun _ _ h => h.symm
  refine ⟨cs, ?_, fun c => ⟨fun hc => ?_, fun ⟨i, hi, j, hj, hne⟩ => ?_⟩, ?_⟩
  · -- different groups have different places
    have hsets : (groups.map fun z => {i | i ∈ z.2}).Nodup := by
      refine List.pairwise_map.mpr ((hdisjoint.filter _).imp_of_mem fun {z z'} hz _ hdisj heq => ?_)
      obtain ⟨i, hi⟩ := List.exists_mem_of_length_pos (Nat.zero_lt_of_lt ((hgroups z).mp hz).2)
      exact hdisj hi ((Set.ext_iff.mp heq i).mp hi)
    exact List.Nodup.of_map _ (hsupps ▸ hsets)
  · have hmem : c.supp ∈ groups.map fun z => {i | i ∈ z.2} := hsupps ▸ List.mem_map_of_mem hc
    obtain ⟨z, hz, heq⟩ := List.mem_map.mp hmem
    obtain ⟨hz, hlen⟩ := (hgroups z).mp hz
    rw [← heq]
    exact exists_two (hnodups z hz) hlen
  · obtain ⟨z, hz, hiz⟩ := hplaces.exists_mem i
    obtain ⟨c', hc'⟩ := hplaces.exists_supp hz
    have hcc : c = c' := by
      have hic' : i ∈ c'.supp := hc' ▸ hiz
      exact hi.symm.trans hic'
    have hjz : j ∈ z.2 := by
      have hjc' : j ∈ c'.supp := hcc ▸ hj
      rwa [← hc'] at hjc'
    have hgroup : z ∈ groups := (hgroups z).mpr ⟨hz, one_lt_length hiz hjz hne⟩
    have hmem : c.supp ∈ cs.map (·.supp) := by
      rw [hsupps, hcc, ← hc']
      exact List.mem_map_of_mem hgroup
    obtain ⟨d, hd, heq⟩ := List.mem_map.mp hmem
    rwa [← SimpleGraph.ConnectedComponent.supp_injective heq]
  · rw [hmerges, List.forall₂_map_right_iff]
    have hall := (List.forall₂_and_left _ _).mpr ⟨fun z hz => ((hgroups z).mp hz).1, hcs⟩
    refine hall.flip.imp fun c z h => ?_
    obtain ⟨hz, hsupp⟩ := h
    have hlinked := hplaces.linked z hz
    exact ⟨⟨z.2, hnodups z hz, Set.ext_iff.mp hsupp, rfl⟩, hlinked.covers, fun v => hlinked.least⟩

end WindowFn

/-- The merges that sessions ask for are the components of overlap with several places, each once.
Afterwards no two windows overlap, however often a window came, so there is nothing more to
merge. -/
theorem sessions_merge_components (gap : Int) {active : List Window}
    (hordered : ∀ w ∈ active, w.Ordered) :
    ∃ ms, (WindowFn.sessions gap).merge active = .ok ms ∧
      (∃ cs : List (overlapGraph active).ConnectedComponent, cs.Nodup ∧
        (∀ c, c ∈ cs ↔ c.supp.Nontrivial) ∧ List.Forall₂ (MergesComponent active) cs ms) ∧
      ((WindowFn.merged active ms).Pairwise fun u w => u.intersects w = false) ∧
      ∀ again : List Window, again.Subperm (WindowFn.merged active ms) →
        (WindowFn.sessions gap).merge again = .ok [] := by
  obtain ⟨rs, hgrouping, heq⟩ := WindowFn.exists_grouping hordered
  have hperm : (WindowFn.merged active (WindowFn.merges rs)).Perm (rs.map Prod.fst) :=
    (((Window.sort_perm active).symm.filter _).append_right _).trans hgrouping.merged_perm
  have hsymm : ∀ {u w : Window}, u.intersects w = false → w.intersects u = false :=
    fun h => (Window.intersects_comm ..).trans h
  have hcovers : (rs.map Prod.fst).Pairwise fun u w => u.intersects w = false :=
    List.pairwise_map.mpr hgrouping.apart
  have hapart := (hperm.pairwise_iff hsymm).mpr hcovers
  refine ⟨WindowFn.merges rs, congrArg _ heq, WindowFn.exists_components hgrouping, hapart,
    fun again hagain => congrArg _ (WindowFn.overlapping_of_apart ?_)⟩
  obtain ⟨l, hl, hsub⟩ := hagain
  exact (hl.pairwise_iff hsymm).mp (hapart.sublist hsub)

/-- Two empty windows at one place join the windows around them, and not each other; a window that
only touches the end of another one stays apart. -/
theorem sessions_merge_components_of_repeats :
    let active : List Window := [.interval 8 12, .interval 5 5, .interval 20 20, .interval 3 9,
      .interval 12 12, .interval 5 5, .interval 20 20]
    let m : Merge := ⟨[.interval 3 9, .interval 5 5, .interval 5 5, .interval 8 12],
      .interval 3 12⟩
    (∀ w ∈ active, w.Ordered) ∧ (WindowFn.sessions 5).merge active = .ok [m] ∧
      ∃ c, c.supp.Nontrivial ∧ MergesComponent active c m := by
  intro active m
  have hordered : ∀ w ∈ active, w.Ordered := by simp [active, Window.Ordered]
  obtain ⟨ms, hms, ⟨cs, -, hcs, hall⟩, -⟩ := sessions_merge_components 5 hordered
  have hm : (WindowFn.sessions 5).merge active = .ok [m] := by cbv
  obtain rfl := Except.ok.inj (hms.symm.trans hm)
  obtain ⟨c, rest, hc, -, rfl⟩ := List.forall₂_cons_right_iff.mp hall
  exact ⟨hordered, hm, c, (hcs c).mp (List.mem_cons_self ..), hc⟩

end EventTime
