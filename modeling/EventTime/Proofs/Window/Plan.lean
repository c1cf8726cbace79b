import Mathlib.Data.List.Pairwise
import EventTime.Proofs.Window.Sweep

/-!
# Plans of merges

The merges that sessions ask for among live windows concern disjoint sets of live windows, and each
goes into a window that covers the old ones. That window is one of them or not live, so performing
one merge leaves a plan for the rest. Windows may be empty here: an empty window at the start of
another does not overlap it, and still no two runs cover the same window.
-/

namespace EventTime

namespace Window

/-- Every window lies in the global window; intervals lie in one another by their ends. -/
def Covers : Window → Window → Prop
  | .global, _ => True
  | .interval p q, .interval a b => p ≤ a ∧ b ≤ q
  | .interval _ _, .global => False

theorem covers_refl (w : Window) : w.Covers w := by
  cases w with
  | global => trivial
  | interval a b => exact ⟨Int.le_refl a, Int.le_refl b⟩

theorem Covers.trans {u v w : Window} (huv : u.Covers v) (hvw : v.Covers w) : u.Covers w := by
  cases u <;> cases v <;> cases w <;> simp only [Covers] at *
  omega

end Window

/-- Merges that can be performed one after the other, in any order. -/
structure MergePlan (live : Window → Prop) (ms : List Merge) : Prop where
  nodup : ∀ m ∈ ms, m.olds.Nodup
  olds_live : ∀ m ∈ ms, ∀ w ∈ m.olds, live w
  covers : ∀ m ∈ ms, ∀ w ∈ m.olds, m.into.Covers w
  ordered : ∀ m ∈ ms, m.into.Ordered
  into_live : ∀ m ∈ ms, live m.into → m.into ∈ m.olds
  apart : ms.Pairwise fun m m' => m.olds.Disjoint m'.olds ∧ m.into ≠ m'.into

/-- The windows that live after a merge. -/
def Merge.leaves (m : Merge) (live : Window → Prop) (w : Window) : Prop :=
  w = m.into ∨ live w ∧ w ∉ m.olds

variable {live : Window → Prop}

theorem MergePlan.nil : MergePlan live [] := by
  constructor <;> simp

theorem MergePlan.tail {m : Merge} {ms : List Merge} (h : MergePlan live (m :: ms)) :
    MergePlan (m.leaves live) ms := by
  obtain ⟨hhead, hrest⟩ := List.pairwise_cons.mp h.apart
  refine ⟨fun m' hm' => h.nodup m' (List.mem_cons_of_mem _ hm'), fun m' hm' w hw => ?_,
    fun m' hm' => h.covers m' (List.mem_cons_of_mem _ hm'),
    fun m' hm' => h.ordered m' (List.mem_cons_of_mem _ hm'), fun m' hm' hlive => ?_, hrest⟩
  · exact .inr ⟨h.olds_live m' (List.mem_cons_of_mem _ hm') w hw, fun hwm => (hhead m' hm').1 hwm hw⟩
  · rcases hlive with heq | ⟨hlive, -⟩
    · exact absurd heq.symm (hhead m' hm').2
    · exact h.into_live m' (List.mem_cons_of_mem _ hm') hlive

theorem MergePlan.congr {live' : Window → Prop} {ms : List Merge} (h : MergePlan live ms)
    (heq : ∀ w, live' w ↔ live w) : MergePlan live' ms := by
  rwa [show live' = live from funext fun w => propext (heq w)]

namespace WindowFn

/-- Windows that lie in the interval from `p` to `q`, of which one starts at `p` and one stops at
`q`. -/
structure Stretch (p q : Int) (run : List Window) : Prop where
  first : ∃ c, p ≤ c ∧ Window.interval p c ∈ run
  last : ∃ c, Window.interval c q ∈ run
  within : ∀ w ∈ run, (Window.interval p q).Covers w
  proper : 1 < run.length → p < q

theorem Stretch.ordered {p q : Int} {run : List Window} (h : Stretch p q run) : p ≤ q := by
  obtain ⟨c, hpc, hc⟩ := h.first
  have hcq := (h.within _ hc).2
  omega

theorem stretch_one {a b : Int} (hab : a ≤ b) : Stretch a b [.interval a b] where
  first := ⟨b, hab, List.mem_singleton_self _⟩
  last := ⟨a, List.mem_singleton_self _⟩
  within w hw := by
    rw [List.mem_singleton.mp hw]
    exact Window.covers_refl _
  proper h := absurd h (by simp)

theorem Stretch.extend {p q a b : Int} {run : List Window} (h : Stretch p q run) (hpa : p ≤ a)
    (hpb : p < b) : Stretch p (max q b) (run ++ [.interval a b]) where
  first := by
    obtain ⟨c, hpc, hc⟩ := h.first
    exact ⟨c, hpc, List.mem_append_left _ hc⟩
  last := by
    obtain ⟨c, hc⟩ := h.last
    rcases Int.le_total q b with hqb | hbq
    · exact ⟨a, by rw [Int.max_eq_right hqb]; simp⟩
    · exact ⟨c, by rw [Int.max_eq_left hbq]; exact List.mem_append_left _ hc⟩
  within w hw := by
    rcases List.mem_append.mp hw with hw | hw
    · have hwithin := h.within w hw
      cases w <;> simp only [Window.Covers] at *
      omega
    · rw [List.mem_singleton.mp hw]
      exact ⟨hpa, by omega⟩
  proper _ := by omega

/-- Each run lies in the interval that covers it, and starts where the ones before it have ended.
Windows may come more than once. -/
theorem runs_stretch {p q : Int} {run rest : List Window} (hrun : Stretch p q run)
    (hsorted : (run ++ rest).Pairwise fun u w => ¬w < u) (hordered : ∀ w ∈ rest, w.Ordered) :
    (∀ r ∈ runs (.interval p q) run rest, ∃ p' q', r.1 = .interval p' q' ∧ p ≤ p' ∧
      Stretch p' q' r.2) ∧
    (runs (.interval p q) run rest).Pairwise fun r r' =>
      ∀ p q p' q', r.1 = .interval p q → r'.1 = .interval p' q' → q ≤ p' := by
  induction rest generalizing p q run with
  | nil =>
    refine ⟨fun r hr => ?_, List.pairwise_singleton _ _⟩
    rw [List.mem_singleton.mp hr]
    exact ⟨p, q, rfl, Int.le_refl p, hrun⟩
  | cons v rest ih =>
    obtain ⟨-, hback, hcross⟩ := List.pairwise_append.mp hsorted
    obtain ⟨c, hpc, hc⟩ := hrun.first
    have hstart := hcross _ hc v (List.mem_cons_self ..)
    cases v with
    | global => exact absurd (Window.global_lt_interval p c) hstart
    | interval a b =>
      have hab : a ≤ b := hordered _ (List.mem_cons_self ..)
      have hrest : ∀ w ∈ rest, w.Ordered := fun w hw => hordered w (List.mem_cons_of_mem _ hw)
      rw [Window.interval_lt_interval] at hstart
      rw [runs]
      split
      · rename_i hoverlap
        simp only [Window.intersects, Bool.and_eq_true, decide_eq_true_eq] at hoverlap
        have hspan : (Window.interval p q).span (.interval a b) = .interval p (max q b) := by
          simp only [Window.span, Window.interval.injEq, and_true]
          omega
        rw [hspan]
        refine ih (hrun.extend (by omega) hoverlap.1) ?_ hrest
        rwa [List.append_assoc, List.singleton_append]
      · rename_i hapart
        -- a window that starts before `q` without overlapping is empty at `p`, so it came before
        -- the one that stops at `q`
        have hqa : q ≤ a := by
          obtain ⟨x, hx⟩ := hrun.last
          have hpx := (hrun.within _ hx).1
          have hstop := hcross _ hx _ (List.mem_cons_self ..)
          rw [Window.interval_lt_interval] at hstop
          simp only [Window.intersects, Bool.and_eq_true, decide_eq_true_eq] at hapart
          omega
        have hpq := hrun.ordered
        obtain ⟨hstretches, hpairs⟩ := ih (stretch_one hab) hback hrest
        refine ⟨fun r hr => ?_, List.pairwise_cons.mpr ⟨fun r hr => ?_, hpairs⟩⟩
        · rcases List.mem_cons.mp hr with rfl | hr
          · exact ⟨p, q, rfl, Int.le_refl p, hrun⟩
          · obtain ⟨p', q', heq, hle, hstretch⟩ := hstretches r hr
            exact ⟨p', q', heq, by omega, hstretch⟩
        · rintro _ _ p' q' ⟨⟩ heq'
          obtain ⟨_, _, heq, hle, -⟩ := hstretches r hr
          rw [heq'] at heq
          obtain ⟨rfl, rfl⟩ := heq
          omega

/-! ### The plan of the walk -/

theorem mem_runMerge {covering : Window} {run : List Window} {m : Merge} :
    m ∈ runMerge covering run ↔ 1 < run.length ∧ m = ⟨run, covering⟩ := by
  rw [runMerge]
  split <;> simp_all

theorem sort_of_sorted {active : List Window} (h : active.Pairwise (· < ·)) :
    Window.sort active = active := by
  refine List.mergeSort_of_pairwise (h.imp fun hlt => ?_)
  simpa using Window.lt_asymm hlt

theorem runs_global (run rest : List Window) :
    runs .global run rest = [(.global, run ++ rest)] := by
  induction rest generalizing run with
  | nil => rw [runs, List.append_nil]
  | cons w rest ih =>
    have hall : Window.global.intersects w = true := by cases w <;> rfl
    have hspan : Window.global.span w = .global := by cases w <;> rfl
    rw [runs, if_pos hall, hspan, ih, List.append_assoc, List.singleton_append]

theorem sweep_global (run rest : List Window) :
    sweep .global run rest = runMerge .global (run ++ rest) := by
  rw [sweep_eq, runs_global, List.flatMap_cons, List.flatMap_nil, List.append_nil]

/-- One stretch ends before another one starts. -/
def Before (r r' : Window × List Window) : Prop :=
  ∀ p q p' q', r.1 = .interval p q → r'.1 = .interval p' q' → q ≤ p'

/-- The merges of stretches that follow one another make a plan. -/
theorem plan_of_runs {active : List Window} {rs : List (Window × List Window)}
    (hflat : (rs.map Prod.snd).flatten = active) (hnodup : active.Nodup)
    (hruns : ∀ r ∈ rs, ∃ p q, r.1 = .interval p q ∧ Stretch p q r.2) (hpairs : rs.Pairwise Before) :
    MergePlan (· ∈ active) (rs.flatMap fun r => runMerge r.1 r.2) := by
  obtain ⟨hnodups, hdisjoint⟩ := List.nodup_flatten.mp (hflat ▸ hnodup)
  have hof : ∀ m ∈ rs.flatMap (fun r => runMerge r.1 r.2), ∃ r ∈ rs, ∃ p q,
      m = ⟨r.2, .interval p q⟩ ∧ r.1 = .interval p q ∧ Stretch p q r.2 ∧ p < q := by
    intro m hm
    obtain ⟨r, hr, hm⟩ := List.mem_flatMap.mp hm
    obtain ⟨hlen, rfl⟩ := mem_runMerge.mp hm
    obtain ⟨p, q, heq, hstretch⟩ := hruns r hr
    exact ⟨r, hr, p, q, by rw [heq], heq, hstretch, hstretch.proper hlen⟩
  refine ⟨fun m hm => ?_, fun m hm w hw => ?_, fun m hm w hw => ?_, fun m hm => ?_,
    fun m hm hlive => ?_, List.pairwise_flatMap.mpr ⟨fun r hr => ?_, ?_⟩⟩
  · obtain ⟨r, hr, p, q, rfl, -⟩ := hof m hm
    exact hnodups r.2 (List.mem_map_of_mem hr)
  · obtain ⟨r, hr, p, q, rfl, -⟩ := hof m hm
    exact hflat ▸ List.mem_flatten.mpr ⟨r.2, List.mem_map_of_mem hr, hw⟩
  · obtain ⟨r, hr, p, q, rfl, -, hstretch, -⟩ := hof m hm
    exact hstretch.within w hw
  · obtain ⟨r, hr, p, q, rfl, -, hstretch, -⟩ := hof m hm
    exact hstretch.ordered
  · -- no run before or after this one has room for the window that covers it
    obtain ⟨r, hr, p, q, rfl, heq, -, hpq⟩ := hof m hm
    obtain ⟨l, hl, hwl⟩ := List.mem_flatten.mp (hflat.symm ▸ hlive)
    obtain ⟨r', hr', rfl⟩ := List.mem_map.mp hl
    obtain ⟨p', q', heq', hstretch'⟩ := hruns r' hr'
    obtain ⟨hp, hq⟩ := hstretch'.within _ hwl
    by_contra hne
    have hor : Before r r' ∨ Before r' r := by
      have : Std.Symm fun r r' => Before r r' ∨ Before r' r := ⟨fun _ _ => Or.symm⟩
      have hboth : rs.Pairwise fun r r' => Before r r' ∨ Before r' r := hpairs.imp Or.inl
      exact hboth.forall hr hr' fun e => hne (e ▸ hwl)
    rcases hor with h | h
    · have := h p q p' q' heq heq'
      omega
    · have := h p' q' p q heq' heq
      omega
  · rw [runMerge]
    split <;> simp
  · refine ((List.pairwise_map.mp hdisjoint).and hpairs).imp_of_mem fun hr hr' h m hm m' hm' => ?_
    obtain ⟨hlen, rfl⟩ := mem_runMerge.mp hm
    obtain ⟨-, rfl⟩ := mem_runMerge.mp hm'
    obtain ⟨p, q, heq, hstretch⟩ := hruns _ hr
    refine ⟨h.1, fun hsame => ?_⟩
    have := h.2 p q p q heq (hsame.symm.trans heq)
    have := hstretch.proper hlen
    omega

theorem overlapping_plan {active : List Window} (hsorted : active.Pairwise (· < ·))
    (hordered : ∀ w ∈ active, w.Ordered) : MergePlan (· ∈ active) (overlapping active) := by
  have hnodup := nodup_of_sorted hsorted
  rw [overlapping, sort_of_sorted hsorted]
  cases active with
  | nil => exact .nil
  | cons w rest =>
    cases w with
    | interval a b =>
      have hab : a ≤ b := hordered _ (List.mem_cons_self ..)
      obtain ⟨hstretches, hpairs⟩ := runs_stretch (stretch_one hab)
        (hsorted.imp Window.lt_asymm) fun w hw => hordered w (List.mem_cons_of_mem _ hw)
      show MergePlan _ (sweep _ _ _)
      rw [sweep_eq]
      refine plan_of_runs (flatten_runs ..) hnodup (fun r hr => ?_) hpairs
      obtain ⟨p, q, heq, -, hstretch⟩ := hstretches r hr
      exact ⟨p, q, heq, hstretch⟩
    | global =>
      show MergePlan _ (sweep _ _ _)
      rw [sweep_global, List.singleton_append]
      have hof : ∀ m ∈ runMerge .global (.global :: rest), m = ⟨.global :: rest, .global⟩ :=
        fun m hm => (mem_runMerge.mp hm).2
      refine ⟨fun m hm => hof m hm ▸ hnodup, fun m hm w hw => by rwa [hof m hm] at hw,
        fun m hm w _ => ?_, fun m hm => ?_, fun m hm _ => ?_, ?_⟩
      · rw [hof m hm]
        trivial
      · rw [hof m hm]
        trivial
      · rw [hof m hm]
        exact List.mem_cons_self ..
      · rw [runMerge]
        split <;> simp

end WindowFn

end EventTime
