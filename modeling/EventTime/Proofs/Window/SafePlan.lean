import EventTime.Proofs.Window.Plan

/-!
# Merges that overwrite nothing

The merges that sessions ask for put no window in the place of a live one that is not merged into
it. This holds of windows that end before they start, too: the walk goes through the windows in
order, a run starts where its first window starts and stops where its last one stops, and no window
before or after the run is both.
-/

namespace EventTime

/-- Merges that can be performed in turn without overwriting a live window. -/
structure SafePlan (live : Window → Prop) (ms : List Merge) : Prop where
  nodup : ∀ m ∈ ms, m.olds.Nodup
  into_live : ∀ m ∈ ms, live m.into → m.into ∈ m.olds
  apart : ms.Pairwise fun m m' => m.into ≠ m'.into

variable {live : Window → Prop}

theorem SafePlan.tail {m : Merge} {ms : List Merge} (h : SafePlan live (m :: ms)) :
    SafePlan (m.leaves live) ms := by
  obtain ⟨hhead, hrest⟩ := List.pairwise_cons.mp h.apart
  refine ⟨fun m' hm' => h.nodup m' (List.mem_cons_of_mem _ hm'), fun m' hm' hlive => ?_, hrest⟩
  rcases hlive with heq | ⟨hlive, -⟩
  · exact absurd heq.symm (hhead m' hm')
  · exact h.into_live m' (List.mem_cons_of_mem _ hm') hlive

theorem SafePlan.congr {live' : Window → Prop} {ms : List Merge} (h : SafePlan live ms)
    (heq : ∀ w, live' w ↔ live w) : SafePlan live' ms := by
  rwa [show live' = live from funext fun w => propext (heq w)]

namespace WindowFn

/-- The earliest start among the windows of a run is `p` and the latest stop is `q`. -/
structure Ends (p q : Int) (run : List Window) : Prop where
  first : ∃ b, Window.interval p b ∈ run
  last : ∃ a, Window.interval a q ∈ run
  bounds : ∀ a b, Window.interval a b ∈ run → p ≤ a ∧ b ≤ q

theorem ends_one (a b : Int) : Ends a b [.interval a b] where
  first := ⟨b, List.mem_singleton_self _⟩
  last := ⟨a, List.mem_singleton_self _⟩
  bounds c d h := by
    obtain ⟨rfl, rfl⟩ := Window.interval.inj (List.mem_singleton.mp h)
    exact ⟨Int.le_refl _, Int.le_refl _⟩

theorem Ends.extend {p q a b : Int} {run : List Window} (h : Ends p q run) (hpa : p ≤ a) :
    Ends p (max q b) (run ++ [.interval a b]) where
  first := by
    obtain ⟨c, hc⟩ := h.first
    exact ⟨c, List.mem_append_left _ hc⟩
  last := by
    obtain ⟨c, hc⟩ := h.last
    rcases Int.le_total q b with hqb | hbq
    · exact ⟨a, by rw [Int.max_eq_right hqb]; simp⟩
    · exact ⟨c, by rw [Int.max_eq_left hbq]; exact List.mem_append_left _ hc⟩
  bounds c d hcd := by
    rcases List.mem_append.mp hcd with hcd | hcd
    · have := h.bounds c d hcd
      omega
    · obtain ⟨rfl, rfl⟩ := Window.interval.inj (List.mem_singleton.mp hcd)
      omega

/-- The window with the ends of a run does not come after the whole run. -/
theorem Ends.not_before {p q : Int} {run : List Window} (h : Ends p q run) :
    ¬∀ w ∈ run, w < .interval p q := by
  intro hlt
  obtain ⟨a, ha⟩ := h.last
  have hle := (h.bounds a q ha).1
  have hlast := hlt _ ha
  rw [Window.interval_lt_interval] at hlast
  omega

/-- The window with the ends of a run does not come before the whole run. -/
theorem Ends.not_after {p q : Int} {run : List Window} (h : Ends p q run) :
    ¬∀ w ∈ run, .interval p q < w := by
  intro hlt
  obtain ⟨b, hb⟩ := h.first
  have hle := (h.bounds p b hb).2
  have hfirst := hlt _ hb
  rw [Window.interval_lt_interval] at hfirst
  omega

/-- Of two runs that follow one another the ends differ. -/
theorem Ends.ne {p q p' q' : Int} {run run' : List Window} (h : Ends p q run)
    (h' : Ends p' q' run') (hlt : ∀ v ∈ run, ∀ w ∈ run', v < w) :
    Window.interval p q ≠ .interval p' q' := by
  rintro ⟨⟩
  obtain ⟨a, ha⟩ := h.last
  obtain ⟨b, hb⟩ := h'.first
  have hle := (h.bounds a q ha).1
  have hle' := (h'.bounds p b hb).2
  have := hlt _ ha _ hb
  rw [Window.interval_lt_interval] at this
  omega

theorem runs_ends {p q : Int} {run rest : List Window} (hrun : Ends p q run)
    (hsorted : (run ++ rest).Pairwise (· < ·)) :
    ∀ r ∈ runs (.interval p q) run rest, ∃ p' q', r.1 = .interval p' q' ∧ Ends p' q' r.2 := by
  induction rest generalizing p q run with
  | nil =>
    intro r hr
    rw [List.mem_singleton.mp hr]
    exact ⟨p, q, rfl, hrun⟩
  | cons v rest ih =>
    obtain ⟨-, hback, hcross⟩ := List.pairwise_append.mp hsorted
    obtain ⟨c, hc⟩ := hrun.first
    have hlt := hcross _ hc v (List.mem_cons_self ..)
    cases v with
    | global => cases hlt
    | interval a b =>
      rw [Window.interval_lt_interval] at hlt
      rw [runs]
      split
      · have hspan : (Window.interval p q).span (.interval a b) = .interval p (max q b) := by
          simp only [Window.span, Window.interval.injEq, and_true]
          omega
        rw [hspan]
        refine ih (hrun.extend (by omega)) ?_
        rwa [List.append_assoc, List.singleton_append]
      · intro r hr
        rcases List.mem_cons.mp hr with rfl | hr
        · exact ⟨p, q, rfl, hrun⟩
        · exact ih (ends_one a b) hback r hr

/-- All windows of one run come before those of another. -/
def Precedes (r r' : Window × List Window) : Prop := ∀ v ∈ r.2, ∀ w ∈ r'.2, v < w

theorem safe_of_runs {active : List Window} {rs : List (Window × List Window)}
    (hflat : (rs.map Prod.snd).flatten = active) (hsorted : active.Pairwise (· < ·))
    (hruns : ∀ r ∈ rs, ∃ p q, r.1 = .interval p q ∧ Ends p q r.2) :
    SafePlan (· ∈ active) (rs.flatMap fun r => runMerge r.1 r.2) := by
  have hnodup := nodup_of_sorted hsorted
  rw [← hflat, List.nodup_flatten] at hnodup
  rw [← hflat, List.pairwise_flatten] at hsorted
  have hfollow : rs.Pairwise Precedes :=
    (List.pairwise_map.mp hsorted.2).imp fun h => h
  have hof : ∀ m ∈ rs.flatMap (fun r => runMerge r.1 r.2), ∃ r ∈ rs, m = ⟨r.2, r.1⟩ := by
    intro m hm
    obtain ⟨r, hr, hm⟩ := List.mem_flatMap.mp hm
    exact ⟨r, hr, (mem_runMerge.mp hm).2⟩
  refine ⟨fun m hm => ?_, fun m hm hlive => ?_, List.pairwise_flatMap.mpr ⟨fun r hr => ?_, ?_⟩⟩
  · obtain ⟨r, hr, rfl⟩ := hof m hm
    exact hnodup.1 r.2 (List.mem_map_of_mem hr)
  · obtain ⟨r, hr, rfl⟩ := hof m hm
    obtain ⟨p, q, heq, hends⟩ := hruns r hr
    obtain ⟨l, hl, hwl⟩ := List.mem_flatten.mp (hflat.symm ▸ hlive)
    obtain ⟨r', hr', rfl⟩ := List.mem_map.mp hl
    by_contra hne
    -- a live window outside the run comes before the whole run or after it
    have hor : Precedes r r' ∨ Precedes r' r := by
      have : Std.Symm fun r r' => Precedes r r' ∨ Precedes r' r := ⟨fun _ _ => Or.symm⟩
      have hboth : rs.Pairwise fun r r' => Precedes r r' ∨ Precedes r' r := hfollow.imp Or.inl
      exact hboth.forall hr hr' fun e => hne (e ▸ hwl)
    rcases hor with h | h
    · exact hends.not_before fun v hv => heq ▸ h v hv _ hwl
    · exact hends.not_after fun v hv => heq ▸ h _ hwl v hv
  · rw [runMerge]
    split <;> simp
  · refine hfollow.imp_of_mem fun hr hr' h m hm m' hm' => ?_
    obtain ⟨-, rfl⟩ := mem_runMerge.mp hm
    obtain ⟨-, rfl⟩ := mem_runMerge.mp hm'
    obtain ⟨p, q, heq, hends⟩ := hruns _ hr
    obtain ⟨p', q', heq', hends'⟩ := hruns _ hr'
    exact fun hsame => hends.ne hends' h (heq.symm.trans (hsame.trans heq'))

theorem overlapping_safe {active : List Window} (hsorted : active.Pairwise (· < ·)) :
    SafePlan (· ∈ active) (overlapping active) := by
  rw [overlapping, sort_of_sorted hsorted]
  cases active with
  | nil =>
    have hnone (m : Merge) : m ∉ ([] : List Merge) := List.not_mem_nil
    exact ⟨fun m hm => absurd hm (hnone m), fun m hm => absurd hm (hnone m), .nil⟩
  | cons w rest =>
    cases w with
    | interval a b =>
      show SafePlan _ (sweep _ _ _)
      rw [sweep_eq]
      exact safe_of_runs (flatten_runs ..) hsorted (runs_ends (ends_one a b) hsorted)
    | global =>
      show SafePlan _ (sweep _ _ _)
      rw [sweep_global, List.singleton_append]
      have hof : ∀ m ∈ runMerge .global (.global :: rest), m = ⟨.global :: rest, .global⟩ :=
        fun m hm => (mem_runMerge.mp hm).2
      refine ⟨fun m hm => hof m hm ▸ nodup_of_sorted hsorted, fun m hm _ => ?_, ?_⟩
      · rw [hof m hm]
        exact List.mem_cons_self ..
      · rw [runMerge]
        split <;> simp

end WindowFn

end EventTime
