import Mathlib.Data.List.Pairwise
import Mathlib.Data.List.SplitBy
import EventTime.Proofs.Window.Tiling

/-!
# Runs of timestamps

Elements in the order of their timestamps split into runs, where a run ends if the next element comes
a gap later or more. If every element opens a window of the length of the gap, the windows of the runs
tile these windows, and so they are the sessions.
-/

namespace EventTime

variable {ν : Type} {gap : Int}

/-- The maximal runs of elements in which each comes less than a gap after the one before it. -/
def sessionRuns (gap : Int) (elements : List (Envelope ν)) : List (List (Envelope ν)) :=
  elements.splitBy fun d e => e.timestamp < d.timestamp + gap

/-- The window of a run: from its first timestamp to a gap after its last one. -/
def sessionWindow (gap : Int) : List (Envelope ν) → Window
  | [] => .global
  | e :: rest => .interval e.timestamp ((rest.getLastD e).timestamp + gap)

/-- An element that opens a window of the length of the gap. -/
def Opens (gap : Int) (e : Envelope ν) : Prop :=
  e.windows = [.interval e.timestamp (e.timestamp + gap)] ∧
    (Window.interval e.timestamp (e.timestamp + gap)).Proper

/-- Every element of a run comes a gap before every element of another one, or earlier. -/
def Apart (gap : Int) (u w : List (Envelope ν)) : Prop :=
  ∀ c ∈ u, ∀ d ∈ w, c.timestamp + gap ≤ d.timestamp

section

variable {run : List (Envelope ν)} {e : Envelope ν} {rest : List (Envelope ν)}

theorem timestamp_bounds
    (hsorted : (e :: rest).Pairwise fun c d => c.timestamp ≤ d.timestamp) :
    ∀ d ∈ e :: rest, e.timestamp ≤ d.timestamp ∧ d.timestamp ≤ (rest.getLastD e).timestamp := by
  induction rest generalizing e with
  | nil =>
    intro d hd
    rw [List.mem_singleton.mp hd]
    exact ⟨Int.le_refl _, Int.le_refl _⟩
  | cons c rest ih =>
    obtain ⟨hfirst, htail⟩ := List.pairwise_cons.mp hsorted
    have hlast := ih htail
    have hc := hlast c (List.mem_cons_self ..)
    intro d hd
    rw [List.getLastD_cons]
    rcases List.mem_cons.mp hd with rfl | hd
    · have hle := hfirst c (List.mem_cons_self ..)
      exact ⟨Int.le_refl _, hle.trans hc.2⟩
    · exact ⟨hfirst d hd, (hlast d hd).2⟩

theorem within_sessionWindow (hsorted : run.Pairwise fun c d => c.timestamp ≤ d.timestamp)
    {d : Envelope ν} (hd : d ∈ run) :
    (Window.interval d.timestamp (d.timestamp + gap)).Within (sessionWindow gap run) := by
  cases run with
  | nil => cases hd
  | cons e rest =>
    have hbounds := timestamp_bounds hsorted d hd
    simp only [sessionWindow, Window.Within]
    omega

theorem exists_crosses_of_linked
    (hlinked : run.IsChain fun c d => d.timestamp < c.timestamp + gap) {x : Int}
    (hx : (sessionWindow gap run).Crosses x) :
    ∃ d ∈ run, (Window.interval d.timestamp (d.timestamp + gap)).Crosses x := by
  induction run with
  | nil => exact hx.elim
  | cons e rest ih =>
    cases rest with
    | nil => exact ⟨e, List.mem_singleton_self _, hx⟩
    | cons c rest =>
      obtain ⟨hlink, htail⟩ := List.isChain_cons_cons.mp hlinked
      simp only [sessionWindow, List.getLastD_cons, Window.Crosses] at hx
      -- up to the second timestamp the first element crosses, and after it the rest of the run
      rcases lt_or_ge c.timestamp x with hlt | hge
      · obtain ⟨d, hd, hcross⟩ := ih htail ⟨hlt, hx.2⟩
        exact ⟨d, List.mem_cons_of_mem _ hd, hcross⟩
      · refine ⟨e, List.mem_cons_self .., hx.1, ?_⟩
        omega

theorem exists_sessionWindow (gap : Int) (hne : run ≠ [])
    (hsorted : run.Pairwise fun c d => c.timestamp ≤ d.timestamp) :
    ∃ d ∈ run, ∃ e ∈ run, d.timestamp ≤ e.timestamp ∧
      sessionWindow gap run = .interval d.timestamp (e.timestamp + gap) := by
  cases run with
  | nil => exact absurd rfl hne
  | cons e rest =>
    refine ⟨e, List.mem_cons_self .., rest.getLastD e, ?_,
      (timestamp_bounds hsorted e (List.mem_cons_self ..)).2, rfl⟩
    rw [← List.getLast_eq_getLastD (List.cons_ne_nil e rest)]
    exact List.getLast_mem _

end

/-! ### All runs -/

section

variable {elements : List (Envelope ν)} {run : List (Envelope ν)}

theorem mem_iff_mem_sessionRuns {e : Envelope ν} :
    e ∈ elements ↔ ∃ run ∈ sessionRuns gap elements, e ∈ run := by
  have hflat : (sessionRuns gap elements).flatten = elements := List.flatten_splitBy ..
  rw [← List.mem_flatten, hflat]

theorem sorted_of_mem (hsorted : elements.Pairwise fun c d => c.timestamp ≤ d.timestamp)
    (hrun : run ∈ sessionRuns gap elements) :
    run.Pairwise fun c d => c.timestamp ≤ d.timestamp := by
  have hflat : (sessionRuns gap elements).flatten = elements := List.flatten_splitBy ..
  rw [← hflat] at hsorted
  exact (List.pairwise_flatten.mp hsorted).1 run hrun

theorem sessionRuns_apart (hsorted : elements.Pairwise fun c d => c.timestamp ≤ d.timestamp) :
    (sessionRuns gap elements).Pairwise (Apart gap) := by
  have hflat : (sessionRuns gap elements).flatten = elements := List.flatten_splitBy ..
  have hchain : (sessionRuns gap elements).IsChain fun u v => ∃ hu hv,
      decide ((v.head hv).timestamp < (u.getLast hu).timestamp + gap) = false :=
    List.isChain_getLast_head_splitBy (fun d e => decide (e.timestamp < d.timestamp + gap)) elements
  rw [← hflat] at hsorted
  obtain ⟨heach, hacross⟩ := List.pairwise_flatten.mp hsorted
  generalize sessionRuns gap elements = runs at heach hacross hchain
  induction runs with
  | nil => exact .nil
  | cons u rest ih =>
    obtain ⟨hfirst, htail⟩ := List.pairwise_cons.mp hacross
    obtain ⟨hnext, hchain⟩ := List.isChain_cons.mp hchain
    refine .cons (fun w hw c hc d hd => ?_)
      (ih (fun w hw => heach w (List.mem_cons_of_mem _ hw)) htail hchain)
    cases rest with
    | nil => cases hw
    | cons v rest =>
      obtain ⟨hu, hv, hfar⟩ := hnext v rfl
      -- the next run starts a gap after the last element of this one
      have hlast : c.timestamp ≤ (u.getLast hu).timestamp := by
        cases u with
        | nil => cases hc
        | cons e back =>
          rw [List.getLast_eq_getLastD]
          exact (timestamp_bounds (heach _ (List.mem_cons_self ..)) c hc).2
      have hhead : (v.head hv).timestamp ≤ d.timestamp := by
        rcases List.mem_cons.mp hw with rfl | hw
        · cases w with
          | nil => cases hd
          | cons e back => exact (timestamp_bounds (heach _ (by simp)) d hd).1
        · exact (List.pairwise_cons.mp htail).1 w hw _ (List.head_mem hv) d hd
      simp only [decide_eq_false_iff_not] at hfar
      omega

theorem eq_of_near (hsorted : elements.Pairwise fun c d => c.timestamp ≤ d.timestamp)
    {u w : List (Envelope ν)} (hu : u ∈ sessionRuns gap elements)
    (hw : w ∈ sessionRuns gap elements) {c d c' d' : Envelope ν} (hc : c ∈ u) (hd : d ∈ w)
    (hnear : d.timestamp < c.timestamp + gap) (hc' : c' ∈ u) (hd' : d' ∈ w)
    (hnear' : c'.timestamp < d'.timestamp + gap) : u = w := by
  by_contra hne
  have hsymm : Std.Symm fun u w : List (Envelope ν) => Apart gap u w ∨ Apart gap w u :=
    ⟨fun _ _ => Or.symm⟩
  have heither : (sessionRuns gap elements).Pairwise fun u w => Apart gap u w ∨ Apart gap w u :=
    (sessionRuns_apart hsorted).imp Or.inl
  rcases heither.forall hu hw hne with hfar | hfar
  · have hle := hfar c hc d hd
    omega
  · have hle := hfar d' hd' c' hc'
    omega

variable (hopens : ∀ e ∈ elements, Opens gap e)
  (hsorted : elements.Pairwise fun c d => c.timestamp ≤ d.timestamp)

include hopens hsorted

theorem sessionWindow_of_mem (hrun : run ∈ sessionRuns gap elements) :
    ∃ d ∈ run, ∃ e ∈ run, sessionWindow gap run = .interval d.timestamp (e.timestamp + gap) ∧
      (sessionWindow gap run).Proper := by
  obtain ⟨d, hd, e, he, hle, hw⟩ :=
    exists_sessionWindow gap (List.ne_nil_of_mem_splitBy hrun) (sorted_of_mem hsorted hrun)
  have hdp := (hopens d (mem_iff_mem_sessionRuns.mpr ⟨run, hrun, hd⟩)).2
  have hep := (hopens e (mem_iff_mem_sessionRuns.mpr ⟨run, hrun, he⟩)).2
  refine ⟨d, hd, e, he, hw, ?_⟩
  rw [hw]
  simp only [Window.Proper] at hdp hep ⊢
  omega

/-- The windows of the runs tile the windows of the elements. -/
theorem sessionRuns_tiling :
    Tiling (windowsOf elements) fun w => ∃ run ∈ sessionRuns gap elements,
      sessionWindow gap run = w := by
  have hmem : ∀ run ∈ sessionRuns gap elements, ∀ d ∈ run,
      Window.interval d.timestamp (d.timestamp + gap) ∈ windowsOf elements := by
    intro run hrun d hd
    have hd' := mem_iff_mem_sessionRuns.mpr ⟨run, hrun, hd⟩
    exact List.mem_flatMap.mpr ⟨d, hd', by simp [(hopens d hd').1]⟩
  constructor
  · rintro _ ⟨run, hrun, rfl⟩
    obtain ⟨-, -, -, -, -, hproper⟩ := sessionWindow_of_mem hopens hsorted hrun
    exact hproper
  · rintro _ ⟨run, hrun, rfl⟩ x hx
    have hlinked : run.IsChain fun c d => d.timestamp < c.timestamp + gap :=
      (List.isChain_of_mem_splitBy hrun).imp fun c d h => of_decide_eq_true h
    obtain ⟨d, hd, hcross⟩ := exists_crosses_of_linked hlinked hx
    exact ⟨_, hmem run hrun d hd, hcross⟩
  · rintro _ ⟨run, hrun, rfl⟩
    obtain ⟨d, hd, -⟩ := sessionWindow_of_mem hopens hsorted hrun
    exact ⟨_, hmem run hrun d hd, within_sessionWindow (sorted_of_mem hsorted hrun) hd⟩
  · rintro _ _ ⟨u, hu, rfl⟩ ⟨w, hw, rfl⟩ hoverlap
    obtain ⟨d, hd, e, he, hwindow, -⟩ := sessionWindow_of_mem hopens hsorted hu
    obtain ⟨d', hd', e', he', hwindow', -⟩ := sessionWindow_of_mem hopens hsorted hw
    rw [hwindow, hwindow'] at hoverlap
    simp only [Window.intersects, Bool.and_eq_true, decide_eq_true_eq] at hoverlap
    rw [eq_of_near hsorted hu hw he hd' hoverlap.2 hd he' hoverlap.1]
  · intro z hz
    obtain ⟨e, he, hze⟩ := List.mem_flatMap.mp hz
    rw [(hopens e he).1, List.mem_singleton] at hze
    obtain ⟨run, hrun, herun⟩ := mem_iff_mem_sessionRuns.mp he
    exact ⟨_, ⟨run, hrun, rfl⟩, hze ▸ within_sessionWindow (sorted_of_mem hsorted hrun) herun⟩

theorem sessionRuns_ascending :
    (sessionRuns gap elements).Pairwise fun u w =>
      (sessionWindow gap u).maxTimestamp < (sessionWindow gap w).maxTimestamp := by
  refine (sessionRuns_apart hsorted).imp_of_mem fun {u w} hu hw hapart => ?_
  obtain ⟨d, hd, e, he, hwindow, hproper⟩ := sessionWindow_of_mem hopens hsorted hu
  obtain ⟨d', hd', e', he', hwindow', hproper'⟩ := sessionWindow_of_mem hopens hsorted hw
  rw [hwindow] at hproper ⊢
  rw [hwindow'] at hproper' ⊢
  rw [Window.maxTimestamp_of_proper hproper, Window.maxTimestamp_of_proper hproper']
  have hle := hapart e he d' hd'
  simp only [Window.Proper] at hproper hproper'
  omega

/-- What lies within the window of a run is the run. -/
theorem inside_sessionWindow (hgap : 0 < gap) (hrun : run ∈ sessionRuns gap elements) :
    inside (sessionWindow gap run) elements = run.map (·.value) := by
  have hflat : (sessionRuns gap elements).flatten = elements := List.flatten_splitBy ..
  have hnodup : (sessionRuns gap elements).Nodup :=
    (sessionRuns_ascending hopens hsorted).imp fun hlt heq => by
      rw [heq] at hlt
      exact Int.lt_irrefl _ hlt
  have hwithin : ∀ e ∈ elements, e.windows.all (·.Within (sessionWindow gap run)) = true ↔
      (Window.interval e.timestamp (e.timestamp + gap)).Within (sessionWindow gap run) := by
    intro e he
    rw [(hopens e he).1]
    simp
  rw [inside]
  congr 1
  calc elements.filter (fun e => e.windows.all (·.Within (sessionWindow gap run)))
      = (sessionRuns gap elements).flatMap
          (List.filter fun e => e.windows.all (·.Within (sessionWindow gap run))) := by
        rw [List.flatMap_def, ← List.filter_flatten, hflat]
    _ = run.filter (fun e => e.windows.all (·.Within (sessionWindow gap run))) :=
        flatMap_unique hnodup _ hrun fun w hw hne => ?_
    _ = run := List.filter_eq_self.mpr fun e he =>
        (hwithin e (mem_iff_mem_sessionRuns.mpr ⟨run, hrun, he⟩)).mpr
          (within_sessionWindow (sorted_of_mem hsorted hrun) he)
  -- an element within the window is near both ends of the run, and so belongs to it
  refine List.filter_eq_nil_iff.mpr fun e he hall => hne ?_
  have hin := (hwithin e (mem_iff_mem_sessionRuns.mpr ⟨w, hw, he⟩)).mp hall
  obtain ⟨c, hc, d, hd, hwindow, -⟩ := sessionWindow_of_mem hopens hsorted hrun
  rw [hwindow] at hin
  simp only [Window.Within] at hin
  exact eq_of_near hsorted hw hrun he hc (by omega) he hd (by omega)

end

end EventTime
