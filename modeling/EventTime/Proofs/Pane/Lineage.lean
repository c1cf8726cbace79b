import Mathlib.Logic.Relation
import EventTime.Proofs.Pane.Chronicle
import EventTime.Proofs.Window.Clearing

/-!
# The lineage of a pane

The lineage of a window consists of the panes fired for it and for the windows merged into it,
directly or through others. What a buffer remembers of the lineage is its largest index, whether a
pane of it was on time, and whether one of them was the last. A pane that an open buffer fires from
such a memory is coherent with the lineage of its window.
-/

namespace EventTime

variable {ν : Type} {s : Strategy}

/-- A window has been merged into another one, directly or through others. -/
def MergedInto (es : List (Entry ν)) : Window → Window → Prop :=
  Relation.ReflTransGen fun v w => ∃ m, Entry.merged m ∈ es ∧ v ∈ m.olds ∧ m.into = w

/-- A pane has been fired for a window, or for one that has been merged into it. -/
def Lineage (es : List (Entry ν)) (w : Window) (pane : Pane ν) : Prop :=
  ∃ watermark, .fired pane watermark ∈ es ∧ MergedInto es pane.window w

/-- A pane continues the lineage of its window: it has the next index, says whether it is the first,
comes after no last one, and is on time if it is the first to be fired after the end of its
window. -/
structure Coherent (es : List (Entry ν)) (pane : Pane ν) (watermark : Int) : Prop where
  start : (∀ p, ¬Lineage es pane.window p) → pane.info.index = 0
  above : ∀ p, Lineage es pane.window p → p.info.index < pane.info.index
  next : (∃ p, Lineage es pane.window p) →
    ∃ p, Lineage es pane.window p ∧ pane.info.index = p.info.index + 1
  first : pane.info.isFirst = true ↔ ∀ p, ¬Lineage es pane.window p
  notLast : ∀ p, Lineage es pane.window p → p.info.isLast = false
  early : watermark ≤ pane.window.maxTimestamp → pane.info.timing = .early
  late : pane.window.maxTimestamp < watermark →
    (∃ p, Lineage es pane.window p ∧ p.info.timing = .onTime) → pane.info.timing = .late
  onTime : pane.window.maxTimestamp < watermark →
    (∀ p, Lineage es pane.window p → p.info.timing ≠ .onTime) → pane.info.timing = .onTime

section Merged

variable {es es' : List (Entry ν)} {u v w : Window}

theorem MergedInto.mono (h : MergedInto es v w)
    (hsub : ∀ m, Entry.merged m ∈ es → Entry.merged m ∈ es') : MergedInto es' v w :=
  Relation.ReflTransGen.mono (fun _ _ ⟨m, hm, hmem⟩ => ⟨m, hsub m hm, hmem⟩) _ _ h

theorem mergedInto_of_mem {m : Merge} (hm : Entry.merged m ∈ es) (hv : v ∈ m.olds) :
    MergedInto es v m.into :=
  .single ⟨m, hm, hv, rfl⟩

/-- After one more merge, its new window takes in what had been merged into the old ones. -/
theorem mergedInto_concat {m : Merge} : MergedInto (es ++ [.merged m]) v w ↔
    MergedInto es v w ∨ (∃ o ∈ m.olds, MergedInto es v o) ∧ MergedInto es m.into w := by
  have hmono : ∀ {x y}, MergedInto es x y → MergedInto (es ++ [.merged m]) x y := fun h =>
    h.mono fun _ hm => List.mem_append_left _ hm
  constructor
  · intro h
    induction h with
    | refl => exact .inl .refl
    | tail _ hstep ih =>
      obtain ⟨m', hm', hold, rfl⟩ := hstep
      rcases List.mem_append.mp hm' with hm' | hm'
      · have hlast := mergedInto_of_mem hm' hold
        exact ih.imp (·.trans hlast) (And.imp_right (·.trans hlast))
      · obtain rfl := Entry.merged.inj (List.mem_singleton.mp hm')
        refine .inr ⟨?_, .refl⟩
        rcases ih with ih | ⟨ih, -⟩
        · exact ⟨_, hold, ih⟩
        · exact ih
  · rintro (h | ⟨⟨o, ho, hvo⟩, hw⟩)
    · exact hmono h
    · exact (hmono hvo).trans ((mergedInto_of_mem (by simp) ho).trans (hmono hw))

theorem MergedInto.inside (hes : ∀ m, Entry.merged m ∈ es → ∀ v ∈ m.olds, v.Inside m.into)
    (h : MergedInto es v w) : v.Inside w := by
  induction h with
  | refl => exact Window.inside_refl v
  | tail _ hstep ih =>
    obtain ⟨m, hm, hold, rfl⟩ := hstep
    exact ih.trans (hes m hm _ hold)

theorem MergedInto.eq_of_unmerged (hes : ∀ m, Entry.merged m ∉ es) (h : MergedInto es v w) :
    v = w := by
  induction h with
  | refl => rfl
  | tail _ hstep _ =>
    obtain ⟨m, hm, -⟩ := hstep
    exact absurd hm (hes m)

/-- A pane has been fired for a window, or it took part in a merge. -/
def Known (es : List (Entry ν)) (w : Window) : Prop :=
  (∃ pane watermark, .fired pane watermark ∈ es ∧ pane.window = w) ∨
    ∃ m, Entry.merged m ∈ es ∧ (w ∈ m.olds ∨ m.into = w)

theorem Lineage.known {pane : Pane ν} (h : Lineage es w pane) : Known es w := by
  obtain ⟨watermark, hfired, hmerged⟩ := h
  rcases Relation.ReflTransGen.cases_tail hmerged with heq | ⟨_, -, m, hm, -, hinto⟩
  · exact .inl ⟨pane, watermark, hfired, heq.symm⟩
  · exact .inr ⟨m, hm, .inr hinto⟩

theorem Lineage.trans {pane : Pane ν} (h : Lineage es v pane) (hvw : MergedInto es v w) :
    Lineage es w pane := by
  obtain ⟨watermark, hfired, hmerged⟩ := h
  exact ⟨watermark, hfired, hmerged.trans hvw⟩

theorem Lineage.mono {pane : Pane ν} (h : Lineage es w pane) (hsub : es ⊆ es') :
    Lineage es' w pane := by
  obtain ⟨watermark, hfired, hmerged⟩ := h
  exact ⟨watermark, hsub hfired, hmerged.mono fun _ hm => hsub hm⟩

theorem mergedInto_fired {pane : Pane ν} {watermark : Int} :
    MergedInto (es ++ [.fired pane watermark]) v w ↔ MergedInto es v w :=
  ⟨fun h => h.mono (by simp), fun h => h.mono (by simp)⟩

theorem lineage_fired {pane p : Pane ν} {watermark : Int} :
    Lineage (es ++ [.fired pane watermark]) w p ↔
      Lineage es w p ∨ p = pane ∧ MergedInto es pane.window w := by
  simp only [Lineage, mergedInto_fired, List.mem_append, List.mem_singleton, Entry.fired.injEq]
  constructor
  · rintro ⟨_, hfired | ⟨rfl, rfl⟩, hmerged⟩
    · exact .inl ⟨_, hfired, hmerged⟩
    · exact .inr ⟨rfl, hmerged⟩
  · rintro (⟨_, hfired, hmerged⟩ | ⟨rfl, hmerged⟩)
    · exact ⟨_, .inl hfired, hmerged⟩
    · exact ⟨watermark, .inr ⟨rfl, rfl⟩, hmerged⟩

theorem known_fired {pane : Pane ν} {watermark : Int} :
    Known (es ++ [.fired pane watermark]) w ↔ Known es w ∨ pane.window = w := by
  simp only [Known, List.mem_append, List.mem_singleton, Entry.fired.injEq, reduceCtorEq, or_false]
  constructor
  · rintro (⟨_, _, hfired | ⟨rfl, rfl⟩, heq⟩ | hmerged)
    · exact .inl (.inl ⟨_, _, hfired, heq⟩)
    · exact .inr heq
    · exact .inl (.inr hmerged)
  · rintro ((⟨_, _, hfired, heq⟩ | hmerged) | heq)
    · exact .inl ⟨_, _, .inl hfired, heq⟩
    · exact .inr hmerged
    · exact .inl ⟨_, _, .inr ⟨rfl, rfl⟩, heq⟩

theorem lineage_merged {m : Merge} {p : Pane ν} :
    Lineage (es ++ [.merged m]) w p ↔
      Lineage es w p ∨ (∃ o ∈ m.olds, Lineage es o p) ∧ MergedInto es m.into w := by
  simp only [Lineage, mergedInto_concat, List.mem_append, List.mem_singleton, reduceCtorEq,
    or_false]
  constructor
  · rintro ⟨_, hfired, hmerged | ⟨⟨o, ho, hmerged⟩, hw⟩⟩
    · exact .inl ⟨_, hfired, hmerged⟩
    · exact .inr ⟨⟨o, ho, _, hfired, hmerged⟩, hw⟩
  · rintro (⟨_, hfired, hmerged⟩ | ⟨⟨o, ho, _, hfired, hmerged⟩, hw⟩)
    · exact ⟨_, hfired, .inl hmerged⟩
    · exact ⟨_, hfired, .inr ⟨⟨o, ho, hmerged⟩, hw⟩⟩

theorem known_merged {m : Merge} :
    Known (es ++ [.merged m]) w ↔ Known es w ∨ w ∈ m.olds ∨ m.into = w := by
  simp only [Known, List.mem_append, List.mem_singleton, Entry.merged.injEq, reduceCtorEq, or_false]
  constructor
  · rintro (hfired | ⟨_, hm | rfl, hw⟩)
    · exact .inl (.inl hfired)
    · exact .inl (.inr ⟨_, hm, hw⟩)
    · exact .inr hw
  · rintro ((hfired | ⟨m', hm, hw⟩) | hw)
    · exact .inl hfired
    · exact .inr ⟨m', .inl hm, hw⟩
    · exact .inr ⟨m, .inr rfl, hw⟩

end Merged

namespace Buffer

/-- A buffer knows of everything in the lineage of its window. -/
structure Recalls (b : Buffer ν) (es : List (Entry ν)) (w : Window) : Prop where
  above : ∀ p, Lineage es w p → p.info.index < b.panesFired
  onTime : ∀ p, Lineage es w p → p.info.timing = .onTime → b.onTimeFired = true
  last : ∀ p, Lineage es w p → p.info.isLast = true → b.closed = true

/-- What a buffer knows is borne out by the lineage of its window. -/
structure Vouched (b : Buffer ν) (es : List (Entry ν)) (w : Window) : Prop where
  counted : b.panesFired = 0 ∨ ∃ p, Lineage es w p ∧ b.panesFired = p.info.index + 1
  onTime : b.onTimeFired = true → ∃ p, Lineage es w p ∧ p.info.timing = .onTime

variable {b : Buffer ν} {es es' : List (Entry ν)} {v w : Window}

theorem Recalls.anti (h : b.Recalls es w) (hsub : ∀ p, Lineage es' v p → Lineage es w p) :
    b.Recalls es' v where
  above p hp := h.above p (hsub p hp)
  onTime p hp := h.onTime p (hsub p hp)
  last p hp := h.last p (hsub p hp)

theorem Vouched.mono (h : b.Vouched es w)
    (hsub : ∀ p, Lineage es w p → Lineage es' v p) : b.Vouched es' v where
  counted := h.counted.imp_right fun ⟨p, hp, heq⟩ => ⟨p, hsub p hp, heq⟩
  onTime ho := (h.onTime ho).imp fun p ⟨hp, heq⟩ => ⟨hsub p hp, heq⟩

theorem Recalls.fresh_iff (h : b.Recalls es w) (hv : b.Vouched es w) :
    b.panesFired = 0 ↔ ∀ p, ¬Lineage es w p := by
  constructor
  · intro hzero p hp
    have := h.above p hp
    omega
  · exact fun hnone => hv.counted.resolve_right fun ⟨p, hp, _⟩ => hnone p hp

section Fired

variable {b' : Buffer ν} {pane : Pane ν} {watermark : Int}

/-- An open buffer that has counted the pane it fired recalls the lineage that ends with it. -/
theorem Recalls.fire (h : b.Recalls es w) (hopen : b.closed = false)
    (hindex : pane.info.index = b.panesFired) (hcount : b'.panesFired = b.panesFired + 1)
    (htime : b'.onTimeFired = (b.onTimeFired || pane.info.timing == .onTime))
    (hlast : pane.info.isLast = true → b'.closed = true) :
    b'.Recalls (es ++ [.fired pane watermark]) w := by
  refine ⟨fun p hp => ?_, fun p hp ho => ?_, fun p hp hl => ?_⟩ <;>
    rcases lineage_fired.mp hp with hp | ⟨rfl, -⟩
  · have := h.above p hp
    omega
  · omega
  · simp [htime, h.onTime p hp ho]
  · simp [htime, ho]
  · rw [h.last p hp hl] at hopen
    cases hopen
  · exact hlast hl

theorem Vouched.fire (h : b.Vouched es w) (hpane : pane.window = w)
    (hindex : pane.info.index = b.panesFired) (hcount : b'.panesFired = b.panesFired + 1)
    (htime : b'.onTimeFired = (b.onTimeFired || pane.info.timing == .onTime)) :
    b'.Vouched (es ++ [.fired pane watermark]) w := by
  have hnew : Lineage (es ++ [.fired pane watermark]) w pane :=
    lineage_fired.mpr (.inr ⟨rfl, hpane ▸ .refl⟩)
  refine ⟨.inr ⟨pane, hnew, by omega⟩, fun ho => ?_⟩
  rw [htime, Bool.or_eq_true, beq_iff_eq] at ho
  rcases ho with ho | ho
  · obtain ⟨p, hp, hpo⟩ := h.onTime ho
    exact ⟨p, lineage_fired.mpr (.inl hp), hpo⟩
  · exact ⟨pane, hnew, ho⟩

end Fired

end Buffer

namespace Grouper

theorem coherent_of_recalls {g : Grouper s ν} {es : List (Entry ν)} {w : Window} {b : Buffer ν}
    (h : b.Recalls es w) (hv : b.Vouched es w) (hopen : b.closed = false) (isLast : Bool) :
    Coherent es ⟨w, ⟨b.panesFired, b.panesFired == 0, isLast, g.timing w b.onTimeFired⟩,
      b.values⟩ g.watermark where
  start hnone := (h.fresh_iff hv).mpr hnone
  above := h.above
  next := by
    rintro ⟨p, hp⟩
    exact hv.counted.resolve_left fun hzero => (h.fresh_iff hv).mp hzero p hp
  first := beq_iff_eq.trans (h.fresh_iff hv)
  notLast p hp := by
    refine Bool.eq_false_iff.mpr fun hlast => ?_
    rw [h.last p hp hlast] at hopen
    cases hopen
  early hle := if_pos hle
  late hlt := by
    rintro ⟨p, hp, hpo⟩
    exact (if_neg (Int.not_le.mpr hlt)).trans (if_pos (h.onTime p hp hpo))
  onTime hlt hnone := by
    refine (if_neg (Int.not_le.mpr hlt)).trans (if_neg fun ho => ?_)
    obtain ⟨p, hp, hpo⟩ := hv.onTime ho
    exact hnone p hp hpo

end Grouper

/-- Where windows merge, the collection of the global window ends an era: every live window would
have been merged into it. -/
def Entry.endsEra (s : Strategy) : Entry ν → Bool
  | .collected .global => !s.windowFn.nonMerging
  | _ => false

/-- What has happened in the present era. -/
def era (s : Strategy) (es : List (Entry ν)) : List (Entry ν) :=
  es.foldl (fun before e => if e.endsEra s then [] else before ++ [e]) []

theorem era_concat (es : List (Entry ν)) (e : Entry ν) :
    era s (es ++ [e]) = if e.endsEra s then [] else era s es ++ [e] := by
  rw [era, List.foldl_append]
  rfl

end EventTime
