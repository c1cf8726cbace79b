import Mathlib.Data.List.Nodup
import EventTime.Windowing.Fn
import EventTime.Proofs.Window.Sessions

/-!
# Runs of overlapping windows

The walk over sorted windows cuts them into runs. A run is a chain: every window in it but the first
overlaps an earlier one, and together they cover one interval. Windows of different runs do not
overlap.
-/

namespace EventTime

namespace WindowFn

/-- A run of windows that together cover the interval from `p` to `q`. -/
inductive Chain (p : Int) : Int → List Window → Prop
  | one {b : Int} : p < b → Chain p b [.interval p b]
  | extend {q a b : Int} {run : List Window} : Chain p q run →
      (∀ c d, Window.interval c d ∈ run → c ≤ a) → a < q → a < b →
      Chain p (max q b) (run ++ [.interval a b])

namespace Chain

variable {p q : Int} {run : List Window}

theorem starts (h : Chain p q run) : ∃ b, Window.interval p b ∈ run := by
  induction h with
  | @one b _ => exact ⟨b, List.mem_singleton_self _⟩
  | extend _ _ _ _ ih =>
    obtain ⟨b, hb⟩ := ih
    exact ⟨b, List.mem_append_left _ hb⟩

theorem stops (h : Chain p q run) : ∃ a, Window.interval a q ∈ run := by
  induction h with
  | one _ => exact ⟨p, List.mem_singleton_self _⟩
  | @extend q a b run _ _ _ _ ih =>
    obtain ⟨c, hc⟩ := ih
    rcases Int.le_total q b with hqb | hbq
    · exact ⟨a, by rw [Int.max_eq_right hqb]; simp⟩
    · exact ⟨c, by rw [Int.max_eq_left hbq]; exact List.mem_append_left _ hc⟩

theorem within (h : Chain p q run) : ∀ w ∈ run, w.Within (.interval p q) := by
  induction h with
  | one hab =>
    intro w hw
    rw [List.mem_singleton.mp hw]
    exact ⟨Int.le_refl _, Int.le_refl _⟩
  | @extend q a b run hrun hstart _ _ ih =>
    intro w hw
    rcases List.mem_append.mp hw with hw | hw
    · have := ih w hw
      cases w <;> simp only [Window.Within] at *
      omega
    · rw [List.mem_singleton.mp hw]
      obtain ⟨d, hd⟩ := hrun.starts
      have := hstart p d hd
      exact ⟨this, by omega⟩

theorem overlaps_earlier (h : Chain p q run) {front back : List Window} {w : Window}
    (heq : run = front ++ w :: back) (hfront : front ≠ []) :
    ∃ u ∈ front, u.intersects w = true := by
  induction h generalizing back with
  | one _ =>
    cases front with
    | nil => exact absurd rfl hfront
    | cons u front => simp at heq
  | @extend q a b run hrun hstart haq hab ih =>
    rcases List.eq_nil_or_concat' back with rfl | ⟨rest, last, rfl⟩
    · obtain ⟨rfl, hw⟩ := List.append_inj' heq rfl
      obtain ⟨c, hc⟩ := hrun.stops
      have hca := hstart c q hc
      refine ⟨_, hc, ?_⟩
      rw [← List.singleton_inj.mp hw]
      simp only [Window.intersects, Bool.and_eq_true, decide_eq_true_eq]
      omega
    · rw [← List.cons_append, ← List.append_assoc] at heq
      obtain ⟨rfl, -⟩ := List.append_inj' heq rfl
      exact ih rfl

end Chain

/-- All runs of the walk, each with the window that covers it. -/
def runs (covering : Window) (run : List Window) : List Window → List (Window × List Window)
  | [] => [(covering, run)]
  | w :: rest =>
    if covering.intersects w then runs (covering.span w) (run ++ [w]) rest
    else (covering, run) :: runs w [w] rest

theorem sweep_eq (covering : Window) (run rest : List Window) :
    sweep covering run rest = (runs covering run rest).flatMap fun r => runMerge r.1 r.2 := by
  induction rest generalizing covering run with
  | nil => simp [sweep, runs]
  | cons w rest ih =>
    rw [sweep, runs]
    split
    · exact ih ..
    · rw [List.flatMap_cons, ih]

theorem flatten_runs (covering : Window) (run rest : List Window) :
    ((runs covering run rest).map Prod.snd).flatten = run ++ rest := by
  induction rest generalizing covering run with
  | nil => simp [runs]
  | cons w rest ih =>
    rw [runs]
    split
    · rw [ih, List.append_assoc, List.singleton_append]
    · rw [List.map_cons, List.flatten_cons, ih, List.singleton_append]

def startOf : Window → Int
  | .global => minTime
  | .interval a _ => a

/-- Each run is a chain, and no window of a run overlaps one of a later run. -/
theorem runs_chain {p q : Int} {run rest : List Window} (hrun : Chain p q run)
    (hsorted : (run ++ rest).Pairwise fun u w => startOf u ≤ startOf w)
    (hproper : ∀ w ∈ rest, w.Proper) :
    (∀ r ∈ runs (.interval p q) run rest, ∃ p q, r.1 = .interval p q ∧ Chain p q r.2) ∧
      (runs (.interval p q) run rest).Pairwise fun r r' =>
        ∀ u ∈ r.2, ∀ w ∈ r'.2, u.intersects w = false := by
  induction rest generalizing p q run with
  | nil =>
    refine ⟨fun r hr => ?_, List.pairwise_singleton _ _⟩
    rw [List.mem_singleton.mp hr]
    exact ⟨p, q, rfl, hrun⟩
  | cons v rest ih =>
    cases v with
    | global => exact (hproper _ (List.mem_cons_self ..)).elim
    | interval a b =>
      have hab := (hproper _ (List.mem_cons_self ..)).2.1
      have hrest : ∀ w ∈ rest, w.Proper := fun w hw => hproper w (List.mem_cons_of_mem _ hw)
      obtain ⟨-, hback, hcross⟩ := List.pairwise_append.mp hsorted
      have hstart : ∀ c d, Window.interval c d ∈ run → c ≤ a := fun c d hc =>
        hcross _ hc _ (List.mem_cons_self ..)
      obtain ⟨d, hd⟩ := hrun.starts
      have hpa := hstart p d hd
      rw [runs]
      split
      · rename_i hoverlap
        simp only [Window.intersects, Bool.and_eq_true, decide_eq_true_eq] at hoverlap
        have hspan : (Window.interval p q).span (.interval a b) = .interval p (max q b) := by
          simp only [Window.span, Window.interval.injEq, and_true]
          omega
        rw [hspan]
        refine ih (.extend hrun hstart hoverlap.2 hab) ?_ hrest
        rwa [List.append_assoc, List.singleton_append]
      · rename_i hapart
        obtain ⟨hchains, hpairs⟩ := ih (.one hab) hback hrest
        refine ⟨fun r hr => ?_, List.pairwise_cons.mpr ⟨fun r hr u hu w hw => ?_, hpairs⟩⟩
        · rcases List.mem_cons.mp hr with rfl | hr
          · exact ⟨p, q, rfl, hrun⟩
          · exact hchains r hr
        · -- every later window starts after the end of what the run covers
          have hmem : w ∈ Window.interval a b :: rest := by
            have h := flatten_runs (.interval a b) [.interval a b] rest
            rw [List.singleton_append] at h
            rw [← h]
            exact List.mem_flatten.mpr ⟨r.2, List.mem_map_of_mem hr, hw⟩
          have haw : a ≤ startOf w := by
            rcases List.mem_cons.mp hmem with rfl | hmem
            · exact Int.le_refl _
            · exact (List.pairwise_cons.mp hback).1 w hmem
          have hwithin := hrun.within u hu
          simp only [Window.intersects, Bool.and_eq_true, decide_eq_true_eq] at hapart
          cases u with
          | global => exact hwithin.elim
          | interval c e =>
            cases w with
            | global =>
              rcases List.mem_cons.mp hmem with h | h
              · cases h
              · exact (hrest _ h).elim
            | interval x y =>
              simp only [Window.Within] at hwithin
              simp only [startOf] at haw
              simp only [Window.intersects, Bool.and_eq_false_iff, decide_eq_false_iff_not]
              omega

/-! ### One new window -/

theorem runMerge_of_apart {covering : Window} {p q : Int} {run : List Window}
    (hrun : Chain p q run) (hapart : ∀ u ∈ run, ∀ w ∈ run, u ≠ w → u.intersects w = false)
    (hnodup : run.Nodup) : runMerge covering run = [] := by
  rw [runMerge]
  split
  · rename_i hlen
    match run, hrun, hapart, hnodup, hlen with
    | u :: w :: rest, hrun, hapart, hnodup, _ =>
      have hsplit : u :: w :: rest = [u] ++ w :: rest := rfl
      obtain ⟨x, hx, hxw⟩ := hrun.overlaps_earlier hsplit (by simp)
      rw [List.mem_singleton.mp hx] at hxw
      have huw : u ≠ w := fun e => (List.nodup_cons.mp hnodup).1 (e ▸ List.mem_cons_self ..)
      rw [hapart u (by simp) w (by simp) huw] at hxw
      cases hxw
  · rfl

theorem nodup_of_sorted {active : List Window} (h : active.Pairwise (· < ·)) : active.Nodup := by
  refine List.Pairwise.imp (S := (· ≠ ·)) ?_ h
  intro u w hlt heq
  exact Window.lt_irrefl w (heq ▸ hlt)

theorem exists_runs {active : List Window} (hsorted : active.Pairwise (· < ·))
    (hproper : ∀ w ∈ active, w.Proper) :
    ∃ rs : List (Window × List Window), (rs.map Prod.snd).flatten = active ∧
      (∀ r ∈ rs, ∃ p q, r.1 = .interval p q ∧ Chain p q r.2) ∧
      (rs.Pairwise fun r r' => ∀ u ∈ r.2, ∀ w ∈ r'.2, u.intersects w = false) ∧
      overlapping active = rs.flatMap fun r => runMerge r.1 r.2 := by
  have hsort : Window.sort active = active := by
    refine List.mergeSort_of_pairwise (hsorted.imp fun h => ?_)
    simpa using Window.lt_asymm h
  have hstarts : active.Pairwise fun u w => startOf u ≤ startOf w := by
    refine hsorted.imp_of_mem fun {u w} hu hw h => ?_
    cases u with
    | global => exact (hproper _ hu).elim
    | interval a b =>
      cases w with
      | global => exact (hproper _ hw).elim
      | interval c d =>
        rw [Window.interval_lt_interval] at h
        simp only [startOf]
        omega
  rw [overlapping, hsort]
  cases active with
  | nil => exact ⟨[], rfl, by simp, .nil, rfl⟩
  | cons w rest =>
    cases w with
    | global => exact (hproper _ (List.mem_cons_self ..)).elim
    | interval a b =>
      obtain ⟨hchains, hpairs⟩ := runs_chain (.one (hproper _ (List.mem_cons_self ..)).2.1)
        (by rwa [List.singleton_append]) fun w hw => hproper w (List.mem_cons_of_mem _ hw)
      exact ⟨_, flatten_runs .., hchains, hpairs, sweep_eq ..⟩

theorem Chain.overlaps_center {p q : Int} {run : List Window} (h : Chain p q run)
    (hnodup : run.Nodup) {v : Window} (hv : v ∈ run) (hproper : v.Proper)
    (hapart : ∀ u ∈ run, ∀ w ∈ run, u ≠ v → w ≠ v → u ≠ w → u.intersects w = false) {w : Window}
    (hw : w ∈ run) : v.intersects w = true := by
  by_cases hwv : w = v
  · rw [hwv]
    exact Window.intersects_self hproper
  obtain ⟨front, back, rfl⟩ := List.append_of_mem hw
  have hcenter : ∀ u ∈ front ++ w :: back, u ≠ w → u.intersects w = true → u = v := by
    intro u hu huw hoverlap
    by_contra huv
    rw [hapart u hu w hw huv hwv huw] at hoverlap
    cases hoverlap
  cases front with
  | cons u front =>
    obtain ⟨x, hx, hxw⟩ := h.overlaps_earlier rfl (by simp)
    have hne : x ≠ w := by
      intro e
      exact (List.nodup_append.mp hnodup).2.2 x hx w (List.mem_cons_self ..) e
    rw [← hcenter x (List.mem_append_left _ hx) hne hxw]
    exact hxw
  | nil =>
    rw [List.nil_append] at *
    rcases List.mem_cons.mp hv with hv | hv
    · exact absurd hv.symm hwv
    · cases back with
      | nil => cases hv
      | cons x back =>
        have hsplit : w :: x :: back = [w] ++ x :: back := rfl
        obtain ⟨y, hy, hyx⟩ := h.overlaps_earlier hsplit (by simp)
        rw [List.mem_singleton.mp hy, Window.intersects_comm] at hyx
        have hne : x ≠ w := by
          intro e
          exact (List.nodup_cons.mp hnodup).1 (e ▸ List.mem_cons_self ..)
        rw [← hcenter x (by simp) hne hyx]
        exact hyx

/-- If only `v` overlaps others, there is at most one merge: that of `v` and the windows which it
overlaps. -/
theorem overlapping_of_one {active : List Window} (hsorted : active.Pairwise (· < ·))
    (hproper : ∀ w ∈ active, w.Proper) {v : Window} (hv : v ∈ active)
    (hapart : ∀ u ∈ active, ∀ w ∈ active, u ≠ v → w ≠ v → u ≠ w → u.intersects w = false) :
    ∃ hits p q, Chain p q hits ∧ hits.Nodup ∧
      (∀ w, w ∈ hits ↔ w ∈ active ∧ v.intersects w = true) ∧
      overlapping active = runMerge (.interval p q) hits := by
  obtain ⟨rs, hflat, hchains, hpairs, hmerges⟩ := exists_runs hsorted hproper
  have hnodup : (rs.map Prod.snd).flatten.Nodup := hflat ▸ nodup_of_sorted hsorted
  have hmem : ∀ r ∈ rs, ∀ w ∈ r.2, w ∈ active := by
    intro r hr w hw
    rw [← hflat]
    exact List.mem_flatten.mpr ⟨r.2, List.mem_map_of_mem hr, hw⟩
  have hruns : ∀ r ∈ rs, r.2.Nodup := fun r hr =>
    (List.nodup_flatten.mp hnodup).1 r.2 (List.mem_map_of_mem hr)
  have hfind : ∀ w ∈ active, ∃ r ∈ rs, w ∈ r.2 := by
    intro w hw
    rw [← hflat] at hw
    obtain ⟨l, hl, hwl⟩ := List.mem_flatten.mp hw
    obtain ⟨r, hr, rfl⟩ := List.mem_map.mp hl
    exact ⟨r, hr, hwl⟩
  obtain ⟨r, hr, hvr⟩ := hfind v hv
  obtain ⟨front, back, rfl⟩ := List.append_of_mem hr
  obtain ⟨-, hafter, hbefore⟩ := List.pairwise_append.mp hpairs
  -- a window of another run does not overlap `v`
  have hother : ∀ r' ∈ front ++ back, ∀ w ∈ r'.2, v.intersects w = false := by
    intro r' hr' w hw
    rcases List.mem_append.mp hr' with hr' | hr'
    · rw [Window.intersects_comm]
      exact hbefore r' hr' r (List.mem_cons_self ..) w hw v hvr
    · exact (List.pairwise_cons.mp hafter).1 r' hr' v hvr w hw
  have hsub : ∀ r' ∈ front ++ back, r' ∈ front ++ r :: back := by
    intro r' hr'
    rcases List.mem_append.mp hr' with h | h
    · exact List.mem_append_left _ h
    · exact List.mem_append_right _ (List.mem_cons_of_mem _ h)
  have hself := Window.intersects_self (hproper v hv)
  have hquiet : ∀ r' ∈ front ++ back, runMerge r'.1 r'.2 = [] := by
    intro r' hr'
    obtain ⟨p, q, -, hchain⟩ := hchains r' (hsub r' hr')
    have hne : ∀ w ∈ r'.2, w ≠ v := by
      intro w hw e
      rw [hother r' hr' v (e ▸ hw)] at hself
      cases hself
    refine runMerge_of_apart hchain (fun u hu w hw huw => ?_) (hruns r' (hsub r' hr'))
    exact hapart u (hmem r' (hsub r' hr') u hu) w (hmem r' (hsub r' hr') w hw) (hne u hu) (hne w hw)
      huw
  obtain ⟨p, q, hcovering, hchain⟩ := hchains r hr
  refine ⟨r.2, p, q, hchain, hruns r hr, fun w => ⟨fun hw => ⟨hmem r hr w hw, ?_⟩, ?_⟩, ?_⟩
  · refine hchain.overlaps_center (hruns r hr) hvr (hproper v hv) (fun u hu w hw => ?_) hw
    exact hapart u (hmem r hr u hu) w (hmem r hr w hw)
  · rintro ⟨hw, hoverlap⟩
    obtain ⟨r', hr', hwr'⟩ := hfind w hw
    rcases List.mem_append.mp hr' with h | h
    · rw [hother r' (List.mem_append_left _ h) w hwr'] at hoverlap
      cases hoverlap
    · rcases List.mem_cons.mp h with rfl | h
      · exact hwr'
      · rw [hother r' (List.mem_append_right _ h) w hwr'] at hoverlap
        cases hoverlap
  · have hnil : ∀ l : List (Window × List Window), (∀ r' ∈ l, r' ∈ front ++ back) →
        (l.flatMap fun r => runMerge r.1 r.2) = [] := by
      intro l hl
      rw [List.flatMap_eq_nil_iff]
      exact fun r' hr' => hquiet r' (hl r' hr')
    rw [hmerges, List.flatMap_append, List.flatMap_cons,
      hnil front fun r' h => List.mem_append_left _ h,
      hnil back fun r' h => List.mem_append_right _ h, List.nil_append, List.append_nil, hcovering]

end WindowFn

end EventTime
