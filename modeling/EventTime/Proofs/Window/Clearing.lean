import EventTime.Proofs.Window.Plan
import EventTime.Proofs.Window.Sessions

/-!
# Merges that clear all overlap away

A window that is merged lies inside the one it goes into: it is that window, or is covered by it and
overlaps it. The merges that sessions ask for among live windows leave windows of which no two
overlap, and while they are performed one after the other the new window of each overlaps only the
old ones.
-/

namespace EventTime

namespace Window

/-- Being a window, or lying in it and overlapping it. An empty window overlaps only those in whose
interior it lies. -/
def Inside (v w : Window) : Prop := v = w ∨ w.Covers v ∧ w.intersects v = true

theorem inside_refl (w : Window) : w.Inside w := .inl rfl

theorem inside_global (w : Window) : w.Inside .global := .inr ⟨trivial, by cases w <;> rfl⟩

theorem intersects_interval {a b c d : Int} :
    (Window.interval a b).intersects (.interval c d) = true ↔ a < d ∧ c < b := by
  simp only [intersects, Bool.and_eq_true, decide_eq_true_eq]

theorem Covers.meets {u v w : Window} (h : v.Covers u) (hmeets : u.intersects w = true) :
    v.intersects w = true := by
  cases u <;> cases v <;> cases w <;> simp only [Covers, intersects_interval] at * <;>
    first | rfl | omega

theorem Inside.covers {v w : Window} (h : v.Inside w) : w.Covers v := by
  rcases h with rfl | h
  · exact covers_refl _
  · exact h.1

theorem Inside.trans {u v w : Window} (huv : u.Inside v) (hvw : v.Inside w) : u.Inside w := by
  rcases huv with rfl | ⟨hcovers, hmeets⟩
  · exact hvw
  rcases hvw with rfl | ⟨hcovers', hmeets'⟩
  · exact .inr ⟨hcovers, hmeets⟩
  refine .inr ⟨hcovers'.trans hcovers, ?_⟩
  cases u <;> cases v <;> cases w <;> simp only [Covers, intersects_interval] at * <;>
    first | rfl | omega

/-- Two windows that have a window inside in common overlap. -/
theorem Inside.meet {u v w : Window} (hv : u.Inside v) (hw : u.Inside w) :
    v = w ∨ v.intersects w = true := by
  rcases hv with rfl | ⟨hcovers, hmeets⟩
  · exact hw.imp_right fun h => (intersects_comm ..).trans h.2
  rcases hw with rfl | ⟨hcovers', hmeets'⟩
  · exact .inr hmeets
  refine .inr ?_
  cases u <;> cases v <;> cases w <;> simp only [Covers, intersects_interval] at * <;>
    first | rfl | omega

theorem inside_span_left {v w : Window} (h : v.intersects w = true) : v.Inside (v.span w) := by
  cases v <;> cases w <;> simp only [span, intersects_interval] at *
  all_goals first | exact inside_global _ | skip
  refine .inr ⟨⟨?_, ?_⟩, intersects_interval.mpr ?_⟩ <;> omega

theorem inside_span_right {v w : Window} (h : v.intersects w = true) : w.Inside (v.span w) := by
  cases v <;> cases w <;> simp only [span, intersects_interval] at *
  all_goals first | exact inside_global _ | skip
  refine .inr ⟨⟨?_, ?_⟩, intersects_interval.mpr ?_⟩ <;> omega

end Window

/-- A window gathers some windows: they are inside it, and it is the global one only if one of them
is. -/
structure Gathers (into : Window) (olds : List Window) : Prop where
  inside : ∀ v ∈ olds, v.Inside into
  whole : into = .global → .global ∈ olds
  nonempty : olds ≠ []

theorem gathers_one (w : Window) : Gathers w [w] where
  inside _ hv := List.mem_singleton.mp hv ▸ Window.inside_refl w
  whole h := h ▸ List.mem_singleton_self _
  nonempty := List.cons_ne_nil _ _

theorem Gathers.extend {covering w : Window} {run : List Window} (h : Gathers covering run)
    (hmeets : covering.intersects w = true) : Gathers (covering.span w) (run ++ [w]) where
  inside v hv := by
    rcases List.mem_append.mp hv with hv | hv
    · exact (h.inside v hv).trans (Window.inside_span_left hmeets)
    · rw [List.mem_singleton.mp hv]
      exact Window.inside_span_right hmeets
  whole heq := by
    cases covering with
    | global => exact List.mem_append_left _ (h.whole rfl)
    | interval a b =>
      cases w with
      | global => exact List.mem_append_right _ (List.mem_singleton_self _)
      | interval c d => cases heq
  nonempty := by simp

/-- Merges after which no two live windows overlap. -/
structure Clearing (live : Window → Prop) (ms : List Merge) : Prop where
  gathers : ∀ m ∈ ms, Gathers m.into m.olds
  apart : ∀ m ∈ ms, ∀ v, live v → v ∉ m.olds → m.into.intersects v = false
  between : ms.Pairwise fun m m' => m'.into.intersects m.into = false
  rest : ∀ u v, live u → live v → (∀ m ∈ ms, u ∉ m.olds ∧ v ∉ m.olds) → u ≠ v →
    u.intersects v = false

variable {live : Window → Prop}

theorem Clearing.tail {m : Merge} {ms : List Merge} (h : Clearing live (m :: ms)) :
    Clearing (m.leaves live) ms := by
  obtain ⟨hbetween, hpairs⟩ := List.pairwise_cons.mp h.between
  have hmem : m ∈ m :: ms := List.mem_cons_self ..
  refine ⟨fun m' hm' => h.gathers m' (List.mem_cons_of_mem _ hm'), fun m' hm' v hv hout => ?_,
    hpairs, fun u v hu hv hout hne => ?_⟩
  · rcases hv with rfl | ⟨hv, -⟩
    · exact hbetween m' hm'
    · exact h.apart m' (List.mem_cons_of_mem _ hm') v hv hout
  · rcases hu with rfl | ⟨hu, hum⟩ <;> rcases hv with rfl | ⟨hv, hvm⟩
    · exact absurd rfl hne
    · exact h.apart m hmem v hv hvm
    · exact (Window.intersects_comm ..).trans (h.apart m hmem u hu hum)
    · exact h.rest u v hu hv (List.forall_mem_cons.mpr ⟨⟨hum, hvm⟩, hout⟩) hne

theorem Clearing.congr {live' : Window → Prop} {ms : List Merge} (h : Clearing live ms)
    (heq : ∀ w, live' w ↔ live w) : Clearing live' ms := by
  rwa [show live' = live from funext fun w => propext (heq w)]

/-! ### The walk over sorted windows -/

namespace WindowFn

theorem sweep_gathers {covering : Window} {run : List Window} (h : Gathers covering run)
    (rest : List Window) : ∀ m ∈ sweep covering run rest, Gathers m.into m.olds := by
  have hrun : ∀ {covering : Window} {run : List Window}, Gathers covering run →
      ∀ m ∈ runMerge covering run, Gathers m.into m.olds := by
    intro covering run h m hm
    obtain ⟨-, rfl⟩ := mem_runMerge.mp hm
    exact h
  induction rest generalizing covering run with
  | nil => exact hrun h
  | cons w rest ih =>
    rw [sweep]
    split
    · rename_i hmeets
      exact ih (h.extend hmeets)
    · intro m hm
      rcases List.mem_append.mp hm with hm | hm
      · exact hrun h m hm
      · exact ih (gathers_one w) m hm

/-- Windows in two stretches of which one ends before the other starts do not overlap. -/
theorem Before.not_meet {r r' : Window × List Window} (h : Before r r') {p q p' q' : Int}
    (heq : r.1 = .interval p q) (heq' : r'.1 = .interval p' q') {v w : Window}
    (hv : (Window.interval p q).Covers v) (hw : (Window.interval p' q').Covers w) :
    v.intersects w = false := by
  have hle := h p q p' q' heq heq'
  refine Bool.eq_false_iff.mpr fun hmeets => ?_
  cases v <;> cases w <;> simp only [Window.Covers, Window.intersects_interval] at *
  omega

theorem one_lt_length {α : Type} {l : List α} {v w : α} (hv : v ∈ l) (hw : w ∈ l) (hne : v ≠ w) :
    1 < l.length := by
  match l with
  | [_] => exact absurd ((List.mem_singleton.mp hv).trans (List.mem_singleton.mp hw).symm) hne
  | _ :: _ :: _ => simp

theorem runs_apart {rs : List (Window × List Window)}
    (hruns : ∀ r ∈ rs, ∃ p q, r.1 = .interval p q ∧ Stretch p q r.2) (hpairs : rs.Pairwise Before)
    {r r' : Window × List Window} (hr : r ∈ rs) (hr' : r' ∈ rs) (hne : r ≠ r') {v w : Window}
    (hv : r.1.Covers v) (hw : r'.1.Covers w) : v.intersects w = false := by
  have hor : Before r r' ∨ Before r' r := by
    have : Std.Symm fun r r' => Before r r' ∨ Before r' r := ⟨fun _ _ => Or.symm⟩
    have hboth : rs.Pairwise fun r r' => Before r r' ∨ Before r' r := hpairs.imp Or.inl
    exact hboth.forall hr hr' hne
  obtain ⟨p, q, heq, -⟩ := hruns r hr
  obtain ⟨p', q', heq', -⟩ := hruns r' hr'
  rcases hor with h | h
  · exact h.not_meet heq heq' (heq ▸ hv) (heq' ▸ hw)
  · exact (Window.intersects_comm ..).trans (h.not_meet heq' heq (heq' ▸ hw) (heq ▸ hv))

/-- The merges of stretches that follow one another clear the overlap away. -/
theorem clearing_of_runs {active : List Window} {rs : List (Window × List Window)}
    (hflat : (rs.map Prod.snd).flatten = active)
    (hgathers : ∀ m ∈ rs.flatMap (fun r => runMerge r.1 r.2), Gathers m.into m.olds)
    (hruns : ∀ r ∈ rs, ∃ p q, r.1 = .interval p q ∧ Stretch p q r.2) (hpairs : rs.Pairwise Before) :
    Clearing (· ∈ active) (rs.flatMap fun r => runMerge r.1 r.2) := by
  have hof : ∀ m ∈ rs.flatMap (fun r => runMerge r.1 r.2), ∃ r ∈ rs, m = ⟨r.2, r.1⟩ := by
    intro m hm
    obtain ⟨r, hr, hm⟩ := List.mem_flatMap.mp hm
    exact ⟨r, hr, (mem_runMerge.mp hm).2⟩
  have hrun : ∀ v ∈ active, ∃ r ∈ rs, v ∈ r.2 := by
    intro v hv
    obtain ⟨l, hl, hvl⟩ := List.mem_flatten.mp (hflat.symm ▸ hv)
    obtain ⟨r, hr, rfl⟩ := List.mem_map.mp hl
    exact ⟨r, hr, hvl⟩
  have hwithin : ∀ r ∈ rs, ∀ v ∈ r.2, r.1.Covers v := by
    intro r hr v hv
    obtain ⟨p, q, heq, hstretch⟩ := hruns r hr
    exact heq ▸ hstretch.within v hv
  refine ⟨hgathers, fun m hm v hv hout => ?_, List.pairwise_flatMap.mpr ⟨fun r hr => ?_, ?_⟩,
    fun u v hu hv hout hne => ?_⟩
  · obtain ⟨r, hr, rfl⟩ := hof m hm
    obtain ⟨r', hr', hvr⟩ := hrun v hv
    exact runs_apart hruns hpairs hr hr' (fun e => hout (e ▸ hvr)) (Window.covers_refl _)
      (hwithin r' hr' v hvr)
  · rw [runMerge]
    split <;> simp
  · refine hpairs.imp_of_mem fun hr hr' h m hm m' hm' => ?_
    obtain ⟨-, rfl⟩ := mem_runMerge.mp hm
    obtain ⟨-, rfl⟩ := mem_runMerge.mp hm'
    obtain ⟨p, q, heq, -⟩ := hruns _ hr
    obtain ⟨p', q', heq', -⟩ := hruns _ hr'
    exact (Window.intersects_comm ..).trans (h.not_meet heq heq' (heq ▸ Window.covers_refl _)
      (heq' ▸ Window.covers_refl _))
  · obtain ⟨r, hr, hur⟩ := hrun u hu
    obtain ⟨r', hr', hvr⟩ := hrun v hv
    refine runs_apart hruns hpairs hr hr' (fun e => ?_) (hwithin r hr u hur) (hwithin r' hr' v hvr)
    -- two windows of one stretch are merged
    subst e
    have hlen := one_lt_length hur hvr hne
    exact (hout ⟨r.2, r.1⟩ (List.mem_flatMap.mpr ⟨r, hr, mem_runMerge.mpr ⟨hlen, rfl⟩⟩)).1 hur

theorem overlapping_clearing {active : List Window} (hsorted : active.Pairwise (· < ·))
    (hordered : ∀ w ∈ active, w.Ordered) : Clearing (· ∈ active) (overlapping active) := by
  rw [overlapping, sort_of_sorted hsorted]
  cases active with
  | nil => exact ⟨by simp, by simp, .nil, by simp⟩
  | cons w rest =>
    have hgathers := sweep_gathers (gathers_one w) rest
    show Clearing _ (sweep w [w] rest)
    cases w with
    | interval a b =>
      have hab : a ≤ b := hordered _ (List.mem_cons_self ..)
      obtain ⟨hstretches, hpairs⟩ := runs_stretch (stretch_one hab)
        (hsorted.imp Window.lt_asymm) fun w hw => hordered w (List.mem_cons_of_mem _ hw)
      rw [sweep_eq] at hgathers ⊢
      refine clearing_of_runs (flatten_runs ..) hgathers (fun r hr => ?_) hpairs
      obtain ⟨p, q, heq, -, hstretch⟩ := hstretches r hr
      exact ⟨p, q, heq, hstretch⟩
    | global =>
      rw [sweep_global, List.singleton_append] at hgathers ⊢
      refine ⟨hgathers, fun m hm v hv hout => ?_, ?_, fun u v hu hv hout hne => ?_⟩
      · rw [(mem_runMerge.mp hm).2] at hout
        exact absurd hv hout
      · rw [runMerge]
        split <;> simp
      · have hlen := one_lt_length hu hv hne
        exact absurd hu (hout _ (mem_runMerge.mpr ⟨hlen, rfl⟩)).1

end WindowFn

end EventTime
