import EventTime.Proofs.Pane.TrackedRun

/-!
# What becomes of every listing

Two results about the runs of built-in triggers, both read off the ledger that tracks a run. No
element waits past the end of its window, as long as some leaf of the trigger waits for the
watermark. And where sessions merge and panes discard, every listing is shown by one pane at most,
and by exactly one if the trigger is endless and the listing does not come late.
-/

namespace EventTime

variable {ν : Type}

namespace Grouper

/-- The groupings of a run at the moments when the watermark has just moved: before an element, or
once the input has ended. -/
inductive Moved (s : Strategy) (input : InputWatermark) (elements : List (Envelope ν)) :
    Grouper s ν → Prop
  | before {front back : List (Envelope ν)} {e : Envelope ν} {g g' : Grouper s ν} :
      inTimeOrder elements = front ++ e :: back → front.foldlM (Grouper.take input) {} = .ok g →
      g.follow input e.timestamp = .ok g' → g.watermark < g'.watermark → Moved s input elements g'
  | atEnd {g g' : Grouper s ν} : (inTimeOrder elements).foldlM (Grouper.take input) {} = .ok g →
      g.advance maxTime = .ok g' → g.watermark < g'.watermark → Moved s input elements g'

/-- A watermark that follows the elements moves before each one that is later than all before it. -/
theorem exists_moved {s : Strategy} {elements front back : List (Envelope ν)} {e : Envelope ν}
    (ht : s.trigger.isBuiltIn = true) (hplans : s.Plans)
    (hordered : s.windowFn.nonMerging = false → ∀ e ∈ elements, ∀ w ∈ e.windows, w.Ordered)
    (hsplit : inTimeOrder elements = front ++ e :: back) (hmin : minTime < e.timestamp)
    (hlater : ∀ d ∈ front, d.timestamp < e.timestamp) :
    ∃ g, Moved s .elementTime elements g ∧ g.watermark = e.timestamp := by
  obtain ⟨g, hfold, h, hbehind⟩ := run_onTrack s .elementTime ht hplans hordered hsplit
  obtain ⟨g', hfollow, -, hpace, -⟩ := h.follow ht e.timestamp
  have hlt : g.watermark < e.timestamp := by
    have hle := hbehind.le (e.timestamp - 1) (by omega) fun d hd => by
      have := hlater d hd
      omega
    omega
  have hwatermark : g'.watermark = e.timestamp :=
    hpace.trans (Int.max_eq_right (Int.le_of_lt hlt))
  exact ⟨g', .before hsplit hfold hfollow (by omega), hwatermark⟩

end Grouper

/-- Whenever the watermark has moved in a run, the open windows whose end it has passed hold no
element that has not been part of a pane. -/
theorem run_prompt (s : Strategy) (input : InputWatermark) (elements : List (Envelope ν))
    (ht : s.trigger.isBuiltIn = true) (hwaits : s.trigger.waits = true)
    (hfn : s.windowFn.nonMerging = true ∨ (∃ gap, s.windowFn = .sessions gap) ∧
      ∀ e ∈ elements, ∀ w ∈ e.windows, w.Ordered) :
    (∃ panes, Grouper.run s input elements = .ok panes) ∧
      ∀ g, Grouper.Moved s input elements g → g.Prompt := by
  have hplans : s.Plans := by
    rcases hfn with hfn | ⟨⟨gap, hgap⟩, -⟩
    · exact .inl hfn
    · exact s.plans_of_sessions hgap
  have hordered : s.windowFn.nonMerging = false → ∀ e ∈ elements, ∀ w ∈ e.windows, w.Ordered :=
    fun hmerging => (hfn.resolve_left (by simp [hmerging])).2
  obtain ⟨g, hfold, h, -⟩ := Grouper.run_onTrack s input ht hplans hordered (List.append_nil _).symm
  obtain ⟨g', hadvance, -, hprompt, -⟩ := h.finish ht
  refine ⟨⟨_, Grouper.run_of_fold hfold hadvance⟩, fun g'' hmoved => ?_⟩
  cases hmoved with
  | before hsplit hfold hfollow hlt =>
    obtain ⟨g, hfold', h, -⟩ := Grouper.run_onTrack s input ht hplans hordered hsplit
    obtain rfl := Except.ok.inj (hfold.symm.trans hfold')
    obtain ⟨g₁, hfollow', -, -, hprompt⟩ := h.follow ht _
    obtain rfl := Except.ok.inj (hfollow.symm.trans hfollow')
    exact hprompt hwaits hlt
  | atEnd hfold' hadvance' hlt =>
    obtain rfl := Except.ok.inj (hfold.symm.trans hfold')
    obtain rfl := Except.ok.inj (hadvance.symm.trans hadvance')
    exact hprompt hwaits hlt

theorem run_prompt_of_until :
    let s : Strategy := ⟨.sessions 5, .repeatedUntil (.afterCount 2) .afterWatermark,
      .accumulating, 3⟩
    let elements : List (Envelope Nat) :=
      [⟨1, 1, [.interval 1 6], .noFiring⟩, ⟨2, 4, [.interval 4 9], .noFiring⟩,
        ⟨3, 12, [.interval 12 17, .interval 7 7], .noFiring⟩]
    s.trigger.isBuiltIn = true ∧ s.trigger.waits = true ∧
      (∀ e ∈ elements, ∀ w ∈ e.windows, w.Ordered) ∧
      (∃ panes, Grouper.run s .elementTime elements = .ok panes) ∧
      ∃ g, Grouper.Moved s .elementTime elements g ∧ g.watermark = 12 ∧ g.Prompt := by
  intro s elements
  have hordered : ∀ e ∈ elements, ∀ w ∈ e.windows, w.Ordered := by
    simp [elements, Window.Ordered]
  obtain ⟨hrun, hprompt⟩ :=
    run_prompt s .elementTime elements rfl rfl (.inr ⟨⟨5, rfl⟩, hordered⟩)
  have hsplit : Grouper.inTimeOrder elements =
      elements.take 2 ++ ⟨3, 12, [.interval 12 17, .interval 7 7], .noFiring⟩ :: [] :=
    List.mergeSort_of_pairwise (by decide)
  obtain ⟨g, hmoved, hwatermark⟩ := Grouper.exists_moved (s := s) rfl (s.plans_of_sessions rfl)
    (fun _ => hordered) hsplit (by decide) (by decide)
  exact ⟨rfl, rfl, hordered, hrun, g, hmoved, hwatermark, hprompt g hmoved⟩

theorem Ledger.valuesOf_ne_zero {l : Ledger ν} {p : Listing ν × Fate} (hp : p ∈ l) :
    l.valuesOf p.2 ≠ 0 := by
  intro hzero
  have hmem : p.1.value ∈ l.valuesOf p.2 :=
    List.mem_map.mpr ⟨p, List.mem_filter.mpr ⟨hp, decide_eq_true rfl⟩, rfl⟩
  rw [hzero] at hmem
  exact Multiset.notMem_zero _ hmem

/-- Where sessions merge and panes discard, a ledger tells for every listing which pane shows it, or
that it was dropped: each pane holds the values of its listings and its window covers theirs, and
under an endless trigger only late listings are dropped. -/
theorem run_fates {gap : Int} (s : Strategy) (input : InputWatermark) (elements : List (Envelope ν))
    (hfn : s.windowFn = .sessions gap) (hmode : s.mode = .discarding)
    (ht : s.trigger.isBuiltIn = true) (hmax : ∀ e ∈ elements, e.timestamp < maxTime)
    (hordered : ∀ e ∈ elements, ∀ w ∈ e.windows, w.Ordered) :
    ∃ (panes : List (Pane ν)) (ledger : Ledger ν), Grouper.run s input elements = .ok panes ∧
      ledger.map Prod.fst = listingsOf (Grouper.inTimeOrder elements) ∧
      (∀ k, ledger.valuesOf (.shown k) =
        (panes[k]?).elim 0 fun pane => (pane.values : Multiset ν)) ∧
      ∀ p ∈ ledger,
        (∃ k pane, p.2 = .shown k ∧ panes[k]? = some pane ∧ pane.window.Covers p.1.window) ∨
        (p.2 = .dropped ∧ (s.trigger.Endless → p.1.Late s input)) := by
  obtain ⟨g, hfold, h, hbehind⟩ := Grouper.run_onTrack s input ht (s.plans_of_sessions hfn)
    (fun _ => hordered) (List.append_nil _).symm
  obtain ⟨g', hadvance, ⟨-, l, htracks, hfst⟩, -, hnone⟩ := h.finish ht
  have hlt := hbehind.lt_maxTime fun e he => hmax e (Grouper.mem_inTimeOrder.mp he)
  refine ⟨g'.panes, l, Grouper.run_of_fold hfold hadvance, hfst, htracks.shown hmode,
    fun p hp => ?_⟩
  have hfits := htracks.fits p hp
  have hvalues := Ledger.valuesOf_ne_zero hp
  obtain ⟨x, f⟩ := p
  cases f with
  | waiting w => exact absurd (htracks.of_not_has (hnone hlt w)).1 hvalues
  | shown k =>
    obtain ⟨pane, hpane, hcovers⟩ := hfits
    exact .inl ⟨k, pane, rfl, hpane, hcovers⟩
  | dropped => exact .inr ⟨rfl, hfits⟩

theorem run_fates_of_bridge :
    let s : Strategy := ⟨.sessions 5, .repeatedly (.afterCount 2), .discarding, 0⟩
    let elements : List (Envelope Nat) :=
      [⟨1, 1, [.interval 1 6], .noFiring⟩, ⟨2, 3, [.interval 8 13, .interval 5 9], .noFiring⟩]
    s.trigger.isBuiltIn = true ∧ (∀ e ∈ elements, e.timestamp < maxTime) ∧
      (∀ e ∈ elements, ∀ w ∈ e.windows, w.Ordered) ∧
      ∃ (panes : List (Pane Nat)) (ledger : Ledger Nat),
        Grouper.run s .elementTime elements = .ok panes ∧
        (ledger.map Prod.fst).length = 3 ∧ ∀ p ∈ ledger, ∃ k, p.2 = .shown k := by
  intro s elements
  have hmax : ∀ e ∈ elements, e.timestamp < maxTime := by decide
  have hordered : ∀ e ∈ elements, ∀ w ∈ e.windows, w.Ordered := by
    simp [elements, Window.Ordered]
  obtain ⟨panes, ledger, hrun, hfst, -, hfates⟩ :=
    run_fates s .elementTime elements rfl rfl rfl hmax hordered
  have hsorted : Grouper.inTimeOrder elements = elements :=
    List.mergeSort_of_pairwise (by decide)
  rw [hsorted] at hfst
  refine ⟨rfl, hmax, hordered, panes, ledger, hrun, hfst ▸ rfl, fun p hp => ?_⟩
  rcases hfates p hp with ⟨k, -, hk, -⟩ | ⟨-, hlate⟩
  · exact ⟨k, hk⟩
  · have hmem : p.1 ∈ listingsOf elements := hfst ▸ List.mem_map_of_mem hp
    have htimely : ∀ x ∈ listingsOf elements, ¬s.expiry x.window < x.timestamp := by decide
    exact absurd (hlate (.inr ⟨_, rfl⟩)).2 (htimely p.1 hmem)

end EventTime
