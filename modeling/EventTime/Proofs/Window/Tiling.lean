import EventTime.Proofs.Listings
import EventTime.Proofs.Window.Sweep

/-!
# Joining a window to a tiling

A new window joins the cells that it overlaps into one, and leaves the others alone. The values
within the joined cell are those within the cells it was made of.
-/

namespace EventTime

namespace WindowFn.Chain

variable {p q : Int} {run : List Window}

theorem proper (h : Chain p q run) (hproper : ∀ w ∈ run, w.Proper) :
    (Window.interval p q).Proper := by
  obtain ⟨b, hb⟩ := h.starts
  obtain ⟨a, ha⟩ := h.stops
  have hpb := hproper _ hb
  have haq := hproper _ ha
  have hbq := h.within _ hb
  simp only [Window.Proper, Window.Within] at *
  omega

theorem exists_crosses (h : Chain p q run) {x : Int} (hp : p < x) (hq : x < q) :
    ∃ u ∈ run, u.Crosses x := by
  induction h with
  | one _ => exact ⟨_, List.mem_singleton_self _, hp, hq⟩
  | @extend q a b run _ _ haq _ ih =>
    rcases lt_or_ge x q with hxq | hqx
    · obtain ⟨u, hu, hcross⟩ := ih hxq
      exact ⟨u, List.mem_append_left _ hu, hcross⟩
    · refine ⟨.interval a b, by simp, ?_, ?_⟩ <;> omega

theorem exists_intersects (h : Chain p q run) {w : Window} (hw : w.Proper)
    (hoverlap : (Window.interval p q).intersects w = true) :
    ∃ u ∈ run, u.intersects w = true := by
  cases w with
  | global => exact hw.elim
  | interval c d =>
    have hcd := hw.2.1
    clear hw
    simp only [Window.intersects, Bool.and_eq_true, decide_eq_true_eq] at hoverlap
    obtain ⟨hpd, hcq⟩ := hoverlap
    induction h with
    | one _ =>
      refine ⟨_, List.mem_singleton_self _, ?_⟩
      simp only [Window.intersects, Bool.and_eq_true, decide_eq_true_eq]
      omega
    | @extend q a b run _ _ haq _ ih =>
      rcases lt_or_ge c q with hlt | hge
      · obtain ⟨u, hu, hoverlap⟩ := ih hlt
        exact ⟨u, List.mem_append_left _ hu, hoverlap⟩
      · refine ⟨.interval a b, by simp, ?_⟩
        simp only [Window.intersects, Bool.and_eq_true, decide_eq_true_eq]
        omega

theorem eq_of_singleton {v : Window} (h : Chain p q [v]) : v = .interval p q := by
  obtain ⟨b, hb⟩ := h.starts
  obtain ⟨a, ha⟩ := h.stops
  rw [List.mem_singleton] at hb ha
  rw [← hb, Window.interval.injEq] at ha
  rw [← hb, ha.2]

end WindowFn.Chain

namespace Tiling

open WindowFn (Chain)

variable {ws hits : List Window} {cell : Window → Prop} {v : Window} {p q : Int}

/-- The cells once `v` and the cells that it overlaps have been joined. -/
theorem join (h : Tiling ws cell) (hv : v.Proper) (hchain : Chain p q hits)
    (hhits : ∀ w, w ∈ hits ↔ (cell w ∨ w = v) ∧ v.intersects w = true) :
    Tiling (ws ++ [v]) fun w => w = .interval p q ∨ cell w ∧ w ∉ hits := by
  have hvhits : v ∈ hits := (hhits v).mpr ⟨.inr rfl, Window.intersects_self hv⟩
  have hproper : ∀ w ∈ hits, w.Proper := by
    intro w hw
    rcases ((hhits w).mp hw).1 with hcell | rfl
    · exact h.proper w hcell
    · exact hv
  -- a cell that overlaps the joined one overlaps a hit, and so is a hit itself
  have hapart : ∀ w, cell w → w ∉ hits → (Window.interval p q).intersects w = false := by
    intro w hw hmiss
    rw [Bool.eq_false_iff]
    intro hoverlap
    obtain ⟨u, hu, huw⟩ := hchain.exists_intersects (h.proper w hw) hoverlap
    rcases ((hhits u).mp hu).1 with hcell | rfl
    · exact hmiss (h.apart u w hcell hw huw ▸ hu)
    · exact hmiss ((hhits w).mpr ⟨.inl hw, huw⟩)
  constructor
  · rintro w (rfl | ⟨hw, -⟩)
    · exact hchain.proper hproper
    · exact h.proper w hw
  · rintro w (rfl | ⟨hw, -⟩) x hcross
    · obtain ⟨u, hu, hux⟩ := hchain.exists_crosses hcross.1 hcross.2
      rcases ((hhits u).mp hu).1 with hcell | rfl
      · obtain ⟨z, hz, hzx⟩ := h.linked u hcell x hux
        exact ⟨z, List.mem_append_left _ hz, hzx⟩
      · exact ⟨u, by simp, hux⟩
    · obtain ⟨z, hz, hzx⟩ := h.linked w hw x hcross
      exact ⟨z, List.mem_append_left _ hz, hzx⟩
  · rintro w (rfl | ⟨hw, -⟩)
    · exact ⟨v, by simp, hchain.within v hvhits⟩
    · obtain ⟨z, hz, hzw⟩ := h.inhabited w hw
      exact ⟨z, List.mem_append_left _ hz, hzw⟩
  · rintro u w (rfl | ⟨hu, humiss⟩) (rfl | ⟨hw, hwmiss⟩) hoverlap
    · rfl
    · rw [hapart w hw hwmiss] at hoverlap
      cases hoverlap
    · rw [Window.intersects_comm, hapart u hu humiss] at hoverlap
      cases hoverlap
    · exact h.apart u w hu hw hoverlap
  · intro z hz
    rcases List.mem_append.mp hz with hz | hz
    · obtain ⟨w, hw, hzw⟩ := h.cover z hz
      by_cases hmem : w ∈ hits
      · exact ⟨_, .inl rfl, hzw.trans (hchain.within w hmem)⟩
      · exact ⟨w, .inr ⟨hw, hmem⟩, hzw⟩
    · rw [List.mem_singleton.mp hz]
      exact ⟨_, .inl rfl, hchain.within v hvhits⟩

/-- A window lies within the new cell if it lies within a cell that was joined. -/
theorem within_join_iff (h : Tiling ws cell) (hv : v.Proper) (hchain : Chain p q hits)
    (hhits : ∀ w, w ∈ hits ↔ (cell w ∨ w = v) ∧ v.intersects w = true) {z : Window} (hz : z ∈ ws)
    (hzproper : z.Proper) :
    z.Within (.interval p q) ↔ ∃ u ∈ hits, cell u ∧ z.Within u := by
  refine ⟨fun hzm => ?_, fun ⟨u, hu, _, hzu⟩ => hzu.trans (hchain.within u hu)⟩
  obtain ⟨u, hu, hzu⟩ := h.cover z hz
  refine ⟨u, ?_, hu, hzu⟩
  by_contra hout
  have heq := (h.join hv hchain hhits).eq_of_within hzproper (.inr ⟨hu, hout⟩) (.inl rfl) hzu hzm
  have hvhits : v ∈ hits := (hhits v).mpr ⟨.inr rfl, Window.intersects_self hv⟩
  have hvu : v.Within u := heq ▸ hchain.within v hvhits
  have hoverlap := Window.intersects_of_within hv (Window.within_refl hv) hvu
  exact hout ((hhits u).mpr ⟨.inl hu, hoverlap⟩)

end Tiling

/-! ### Values within a window -/

variable {ν : Type}

/-- How many windows of an element lie within a window. -/
def insides (w : Window) (windows : List Window) : ℕ := windows.countP fun v => v.Within w

def windowsOf (elements : List (Envelope ν)) : List Window := elements.flatMap (·.windows)

/-- The values of the elements that lie within a window. -/
def valuesWithin (w : Window) (elements : List (Envelope ν)) : Multiset ν :=
  (elements.map fun e => insides w e.windows • ({e.value} : Multiset ν)).sum

theorem insides_singleton (w v : Window) : insides w [v] = if v.Within w then 1 else 0 := by
  simp [insides, List.countP_cons]

theorem valuesWithin_append (w : Window) (front back : List (Envelope ν)) :
    valuesWithin w (front ++ back) = valuesWithin w front + valuesWithin w back := by
  rw [valuesWithin, List.map_append, List.sum_append]
  rfl

theorem valuesWithin_perm (w : Window) {elements elements' : List (Envelope ν)}
    (h : elements.Perm elements') : valuesWithin w elements = valuesWithin w elements' :=
  (h.map _).sum_eq

theorem valuesWithin_concat (w : Window) (elements : List (Envelope ν)) {e : Envelope ν}
    {v : Window} (he : e.windows = [v]) :
    valuesWithin w (elements ++ [e]) =
      valuesWithin w elements + if v.Within w then {e.value} else 0 := by
  rw [valuesWithin_append]
  congr 1
  rw [valuesWithin, List.map_singleton, List.sum_singleton, he, insides_singleton]
  split
  · exact one_nsmul _
  · exact zero_nsmul _

/-- The values of the elements that lie within a window, in the order of the elements. -/
def inside (w : Window) (elements : List (Envelope ν)) : List ν :=
  (elements.filter fun e => e.windows.all (·.Within w)).map (·.value)

theorem inside_congr {u w : Window} {elements : List (Envelope ν)}
    (h : ∀ z ∈ windowsOf elements, z.Within u ↔ z.Within w) :
    inside u elements = inside w elements := by
  rw [inside, inside]
  congr 1
  refine List.filter_congr fun e he => ?_
  rw [Bool.eq_iff_iff, List.all_eq_true, List.all_eq_true]
  refine forall₂_congr fun z hz => ?_
  rw [decide_eq_true_iff, decide_eq_true_iff, h z (List.mem_flatMap.mpr ⟨e, he, hz⟩)]

theorem inside_eq_nil {w : Window} {elements : List (Envelope ν)}
    (hwindows : ∀ e ∈ elements, e.windows ≠ []) (h : ∀ z ∈ windowsOf elements, ¬z.Within w) :
    inside w elements = [] := by
  rw [inside, List.map_eq_nil_iff, List.filter_eq_nil_iff]
  intro e he hall
  obtain ⟨z, hz⟩ := List.exists_mem_of_ne_nil _ (hwindows e he)
  have hzw := List.all_eq_true.mp hall z hz
  exact h z (List.mem_flatMap.mpr ⟨e, he, hz⟩) (of_decide_eq_true hzw)

theorem inside_concat (w : Window) (elements : List (Envelope ν)) {e : Envelope ν} {v : Window}
    (he : e.windows = [v]) :
    inside w (elements ++ [e]) = inside w elements ++ if v.Within w then [e.value] else [] := by
  rw [inside, List.filter_append, List.map_append]
  congr 1
  by_cases hvw : v.Within w <;> simp [he, hvw]

namespace Tiling

variable {ws hits : List Window} {cell : Window → Prop} [DecidablePred cell] {v : Window}
  {p q : Int}

theorem sum_insides (h : Tiling ws cell) (hv : v.Proper) (hchain : WindowFn.Chain p q hits)
    (hnodup : hits.Nodup) (hhits : ∀ w, w ∈ hits ↔ (cell w ∨ w = v) ∧ v.intersects w = true)
    {z : Window} (hz : z ∈ ws) (hzproper : z.Proper) :
    (hits.map fun u => if cell u then insides u [z] else 0).sum =
      insides (.interval p q) [z] := by
  have hiff := h.within_join_iff hv hchain hhits hz hzproper
  -- only the cell of `z` can count it, and that cell counts here if it was joined
  by_cases hzm : z.Within (.interval p q)
  · obtain ⟨u, hmem, hu, hzu⟩ := hiff.mp hzm
    have hid : (hits.map id).Nodup := by rwa [List.map_id]
    rw [sum_map_unique hid _ hmem fun w hw hne => ?_, if_pos hu, insides_singleton, if_pos hzu,
      insides_singleton, if_pos hzm]
    by_cases hcell : cell w
    · rw [if_pos hcell, insides_singleton, if_neg]
      intro hzw
      exact hne (h.eq_of_within hzproper hcell hu hzw hzu)
    · rw [if_neg hcell]
  · rw [insides_singleton, if_neg hzm]
    refine List.sum_eq_zero fun n hn => ?_
    obtain ⟨w, hw, rfl⟩ := List.mem_map.mp hn
    by_cases hcell : cell w
    · rw [if_pos hcell, insides_singleton, if_neg fun hzw => hzm (hiff.mpr ⟨w, hw, hcell, hzw⟩)]
    · rw [if_neg hcell]

theorem sum_valuesWithin (h : Tiling ws cell) (hv : v.Proper) (hchain : WindowFn.Chain p q hits)
    (hnodup : hits.Nodup) (hhits : ∀ w, w ∈ hits ↔ (cell w ∨ w = v) ∧ v.intersects w = true)
    {elements : List (Envelope ν)}
    (helements : ∀ e ∈ elements, ∃ z ∈ ws, e.windows = [z] ∧ z.Proper) :
    (hits.map fun u => if cell u then valuesWithin u elements else 0).sum =
      valuesWithin (.interval p q) elements := by
  induction elements with
  | nil =>
    refine List.sum_eq_zero fun m hm => ?_
    obtain ⟨u, -, rfl⟩ := List.mem_map.mp hm
    exact ite_self _
  | cons e rest ih =>
    obtain ⟨z, hz, he, hzproper⟩ := helements e (List.mem_cons_self ..)
    have hsplit : ∀ u, valuesWithin u (e :: rest) =
        insides u [z] • ({e.value} : Multiset ν) + valuesWithin u rest := by
      intro u
      rw [valuesWithin, List.map_cons, List.sum_cons, he]
      rfl
    rw [hsplit, ← h.sum_insides hv hchain hnodup hhits hz hzproper, ← sum_map_nsmul,
      ← ih fun d hd => helements d (List.mem_cons_of_mem _ hd), ← List.sum_map_add]
    congr 1
    refine List.map_congr_left fun u _ => ?_
    by_cases hcell : cell u
    · rw [if_pos hcell, if_pos hcell, if_pos hcell, hsplit]
    · rw [if_neg hcell, if_neg hcell, if_neg hcell, zero_nsmul, add_zero]

end Tiling

end EventTime
