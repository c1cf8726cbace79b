import EventTime.Proofs.Pane.Lineage
import EventTime.Proofs.Pane.Operations

/-!
# What the buffers remember

Every live window has been merged into a live one whose buffer recalls the whole lineage, and so has
every window that is known and can still fire. While nothing is being merged, that live window is
the window itself. Firing, opening, collecting and merging keep this, so a window is never opened
again with a memory that falls short.
-/

namespace EventTime

variable {ν : Type} {s : Strategy}

namespace Trigger

variable {v w : Window}

theorem cutoff_leaf_mono (h : v.maxTimestamp ≤ w.maxTimestamp) (l : Leaf)
    (hl : l.isBuiltIn = true) : l.cutoff v ≤ l.cutoff w := by
  cases l with
  | afterCount count => exact Int.le_refl maxTime
  | afterWatermark => exact h
  | endOfWindow => exact h
  | custom p => cases hl

mutual

theorem cutoff_mono (h : v.maxTimestamp ≤ w.maxTimestamp) : (t : Trigger) → t.isBuiltIn = true →
    t.cutoff v ≤ t.cutoff w
  | .leaf l, ht => cutoff_leaf_mono h l ht
  | .afterFirst ts, ht => by
    simp only [isBuiltIn, Bool.and_eq_true] at ht
    exact cutoffAll_mono h ts ht.2
  | .repeatedly t, ht => cutoff_mono h t ht
  | .orFinally a b, ht => by
    simp only [isBuiltIn, Bool.and_eq_true] at ht
    have ha := cutoff_mono h a ht.1
    have hb := cutoff_mono h b ht.2
    simp only [cutoff]
    omega

theorem cutoffAll_mono (h : v.maxTimestamp ≤ w.maxTimestamp) : (ts : List Trigger) →
    isBuiltInAll ts = true → cutoffAll v ts ≤ cutoffAll w ts
  | [], _ => Int.le_refl maxTime
  | t :: ts, ht => by
    simp only [isBuiltInAll, Bool.and_eq_true] at ht
    have ht' := cutoff_mono h t ht.1
    have hts := cutoffAll_mono h ts ht.2
    simp only [cutoffAll]
    omega

end

end Trigger

theorem Window.Inside.maxTimestamp_le {v w : Window} (h : v.Inside w) (hw : w ≠ .global) :
    v.maxTimestamp ≤ w.maxTimestamp := by
  rcases h with rfl | ⟨hcovers, -⟩
  · exact Int.le_refl _
  · cases w with
    | global => exact absurd rfl hw
    | interval c d =>
      cases v with
      | global => cases hcovers
      | interval a b => exact clamp_mono (Int.sub_le_sub_right hcovers.2 1)

theorem Strategy.expiry_mono {v w : Window} (ht : s.trigger.isBuiltIn = true)
    (h : v.maxTimestamp ≤ w.maxTimestamp) : s.expiry v ≤ s.expiry w := by
  have hcutoff := Trigger.cutoff_mono h s.trigger ht
  exact clamp_mono (by omega)

namespace Buffer

theorem absorbAll_panesFired (bs : List (Buffer ν)) (start : Buffer ν) :
    start.panesFired ≤ (bs.foldl absorb start).panesFired ∧
      (∀ b ∈ bs, b.panesFired ≤ (bs.foldl absorb start).panesFired) ∧
      ((bs.foldl absorb start).panesFired = start.panesFired ∨
        ∃ b ∈ bs, (bs.foldl absorb start).panesFired = b.panesFired) := by
  induction bs generalizing start with
  | nil => exact ⟨Nat.le_refl _, nofun, .inl rfl⟩
  | cons c rest ih =>
    obtain ⟨hstart, hrest, hreached⟩ := ih (start.absorb c)
    have hmax : (start.absorb c).panesFired = max start.panesFired c.panesFired := rfl
    refine ⟨by rw [List.foldl_cons]; omega, List.forall_mem_cons.mpr
      ⟨by rw [List.foldl_cons]; omega, hrest⟩, ?_⟩
    rcases hreached with heq | ⟨b, hb, heq⟩
    · rcases Nat.le_total start.panesFired c.panesFired with hle | hle
      · exact .inr ⟨c, List.mem_cons_self .., heq.trans (hmax.trans (Nat.max_eq_right hle))⟩
      · exact .inl (heq.trans (hmax.trans (Nat.max_eq_left hle)))
    · exact .inr ⟨b, List.mem_cons_of_mem _ hb, heq⟩

theorem absorbAll_onTimeFired (bs : List (Buffer ν)) (start : Buffer ν) :
    (bs.foldl absorb start).onTimeFired = true ↔
      start.onTimeFired = true ∨ ∃ b ∈ bs, b.onTimeFired = true := by
  induction bs generalizing start with
  | nil => simp
  | cons c rest ih =>
    rw [List.foldl_cons, ih]
    simp [absorb, or_assoc]

end Buffer

namespace Grouper

variable {g g' : Grouper s ν} {es es' : List (Entry ν)} {u v w : Window} {b b' : Buffer ν}

/-- A window has been merged into a live one whose buffer recalls the whole lineage. -/
def Kept (g : Grouper s ν) (es : List (Entry ν)) (u : Window) : Prop :=
  ∃ v b, g.buffers.find? v = some b ∧ MergedInto es u v ∧ b.Recalls es v

/-- The buffers remember what the entries tell. -/
structure Recorded (g : Grouper s ν) (es : List (Entry ν)) : Prop where
  kept : ∀ u, g.Has u → g.Kept es u
  known : ∀ u, Known es u → g.Due u ∨ g.Kept es u
  vouched : ∀ u b, g.buffers.find? u = some b → b.Vouched es u
  inside : ∀ m, Entry.merged m ∈ es → ∀ v ∈ m.olds, v.Inside m.into

theorem recorded_nil (hnone : ∀ w, ¬g.Has w) : g.Recorded [] where
  kept u hu := absurd hu (hnone u)
  known u := by
    rintro (⟨_, _, h, -⟩ | ⟨_, h, -⟩) <;> cases h
  vouched u b hb := absurd ⟨b, hb⟩ (hnone u)
  inside _ h := nomatch h

/-- A window that has been merged into no other live one recalls its own lineage. -/
theorem Recorded.recalls (h : g.Recorded es) (hb : g.buffers.find? w = some b)
    (halone : ∀ v, g.Has v → MergedInto es w v → v = w) : b.Recalls es w := by
  obtain ⟨v, c, hc, hmerged, hrecalls⟩ := h.kept w ⟨b, hb⟩
  obtain rfl := halone v ⟨c, hc⟩ hmerged
  obtain rfl := Option.some.inj (hb.symm.trans hc)
  exact hrecalls

theorem Kept.imp (h : g.Kept es u)
    (hmerged : ∀ v, MergedInto es u v → MergedInto es' u v)
    (hbuffers : ∀ v b, g.buffers.find? v = some b → MergedInto es u v → b.Recalls es v →
      ∃ b', g'.buffers.find? v = some b' ∧ b'.Recalls es' v) : g'.Kept es' u := by
  obtain ⟨v, b, hb, huv, hrecalls⟩ := h
  obtain ⟨b', hb', hrecalls'⟩ := hbuffers v b hb huv hrecalls
  exact ⟨v, b', hb', hmerged v huv, hrecalls'⟩

/-! ### Operations -/

theorem Recorded.later (h : g.Recorded es) {target : Int} (hle : g.watermark ≤ target)
    (hne : g.watermark ≠ maxTime) : Recorded { g with watermark := target } es where
  kept := h.kept
  known u hu := (h.known u hu).imp_left fun hdue => hdue.later hle hne
  vouched := h.vouched
  inside := h.inside

/-- One buffer is replaced while the entries go on. Then its memory has to follow what is new in the
lineage of its window, and there may be nothing new in the lineages of the others. -/
theorem Recorded.replace (h : g.Recorded es) (hb : g.buffers.find? w = some b)
    (hfind : ∀ v, g'.buffers.find? v = if w = v then some b' else g.buffers.find? v)
    (hwatermark : g'.watermark = g.watermark) (hgrows : es ⊆ es')
    (hmerges : ∀ m, Entry.merged m ∈ es' → Entry.merged m ∈ es)
    (hknown : ∀ u, Known es' u → Known es u ∨ u = w) (hself : b.Recalls es w → b'.Recalls es' w)
    (hothers : ∀ v, w ≠ v → g.Has v → ∀ p, Lineage es' v p → Lineage es v p)
    (hvouched : b'.Vouched es' w) : g'.Recorded es' := by
  have hkept : ∀ u, g.Kept es u → g'.Kept es' u := fun u hu =>
    hu.imp (fun _ hmerged => hmerged.mono fun _ hm => hgrows hm) fun v c hc _ hrecalls => by
      rw [hfind]
      split
      · rename_i hv
        subst hv
        obtain rfl := Option.some.inj (hb.symm.trans hc)
        exact ⟨b', rfl, hself hrecalls⟩
      · rename_i hv
        exact ⟨c, hc, hrecalls.anti (hothers v hv ⟨c, hc⟩)⟩
  refine ⟨fun u ⟨c, hc⟩ => hkept u (h.kept u ?_), fun u hu => ?_, fun u c hc => ?_,
    fun m hm => h.inside m (hmerges m hm)⟩
  · rw [hfind] at hc
    split at hc
    · rename_i hu
      exact hu ▸ ⟨b, hb⟩
    · exact ⟨c, hc⟩
  · rcases hknown u hu with hu | rfl
    · exact (h.known u hu).imp (due_congr hwatermark).mpr (hkept u)
    · exact .inr (hkept u (h.kept u ⟨b, hb⟩))
  · rw [hfind] at hc
    split at hc
    · rename_i hu
      exact hu ▸ Option.some.inj hc ▸ hvouched
    · exact (h.vouched u c hc).mono fun p hp => hp.mono hgrows

theorem Recorded.update (h : g.Recorded es) (hb : g.buffers.find? w = some b)
    (hfind : ∀ v, g'.buffers.find? v = if w = v then some b' else g.buffers.find? v)
    (hcount : b'.panesFired = b.panesFired) (htime : b'.onTimeFired = b.onTimeFired)
    (hclosed : b.closed = true → b'.closed = true) (hwatermark : g'.watermark = g.watermark) :
    g'.Recorded es := by
  have hvouched := h.vouched w b hb
  exact h.replace hb hfind hwatermark (List.Subset.refl es) (fun _ => id) (fun _ => .inl)
    (fun hrecalls => ⟨hcount ▸ hrecalls.above, htime ▸ hrecalls.onTime,
      fun p hp hlast => hclosed (hrecalls.last p hp hlast)⟩)
    (fun _ _ _ _ => id) ⟨hcount ▸ hvouched.counted, htime ▸ hvouched.onTime⟩

/-- A buffer fires a pane; if this is the last one, it is closed as well. -/
theorem Recorded.fire (h : g.Recorded es) (hb : g.buffers.find? w = some b)
    (hopen : b.closed = false) (halone : ∀ v, g.Has v → MergedInto es w v → v = w) {pane : Pane ν}
    (hpane : pane.window = w) (hindex : pane.info.index = b.panesFired)
    (hfind : ∀ v, g'.buffers.find? v = if w = v then some b' else g.buffers.find? v)
    (hcount : b'.panesFired = b.panesFired + 1)
    (htime : b'.onTimeFired = (b.onTimeFired || pane.info.timing == .onTime))
    (hlast : pane.info.isLast = true → b'.closed = true) (hwatermark : g'.watermark = g.watermark)
    (watermark : Int) : g'.Recorded (es ++ [.fired pane watermark]) := by
  refine h.replace hb hfind hwatermark (List.subset_append_left _ _) (by simp) (fun u hu => ?_)
    (fun hrecalls => hrecalls.fire hopen hindex hcount htime hlast) (fun v hv hlive p hp => ?_)
    ((h.vouched w b hb).fire hpane hindex hcount htime)
  · exact (known_fired.mp hu).imp_right fun hu => hu.symm.trans hpane
  · -- the pane enters the lineage of no other live window
    refine (lineage_fired.mp hp).resolve_right fun hnew => ?_
    exact hv (halone v hlive (hpane ▸ hnew.2)).symm

/-- A window that can still fire is opened: it is unknown, or its lineage is recalled elsewhere. -/
theorem Recorded.opened (h : g.Recorded es) (hdue : ¬g.Due w) : (g.opened w).Recorded es := by
  have hfind : ∀ v c, g.buffers.find? v = some c → (g.opened w).buffers.find? v = some c := by
    intro v c hc
    rw [find?_opened, hc]
    split <;> rfl
  have hkept : ∀ u, g.Kept es u → (g.opened w).Kept es u := fun u hu =>
    hu.imp (fun _ => id) fun v c hc _ hrecalls => ⟨c, hfind v c hc, hrecalls⟩
  have hwatermark : (g.opened w).watermark = g.watermark := opened_watermark g w
  refine ⟨fun u hu => ?_, fun u hu => (h.known u hu).imp (due_congr hwatermark).mpr (hkept u),
    fun u c hc => ?_, h.inside⟩
  · by_cases hhas : g.Has u
    · exact hkept u (h.kept u hhas)
    · obtain rfl := (has_opened.mp hu).resolve_right hhas
      -- a known window that can still fire is kept elsewhere; an unknown one has no lineage
      by_cases hknown : Known es u
      · exact hkept u ((h.known u hknown).resolve_left hdue)
      · have hnone : ∀ p, ¬Lineage es u p := fun p hp => hknown hp.known
        refine ⟨u, {}, ?_, .refl, fun p hp => absurd hp (hnone p), fun p hp => absurd hp (hnone p),
          fun p hp => absurd hp (hnone p)⟩
        rw [find?_opened, if_pos rfl]
        cases hu : g.buffers.find? u with
        | none => rfl
        | some c => exact absurd ⟨c, hu⟩ hhas
  · rw [find?_opened] at hc
    split at hc
    · rename_i hv
      subst hv
      cases hu : g.buffers.find? w with
      | none =>
        rw [hu] at hc
        obtain rfl := Option.some.inj hc
        exact ⟨.inl rfl, fun ho => by cases ho⟩
      | some d =>
        rw [hu] at hc
        obtain rfl := Option.some.inj hc
        exact h.vouched w d hu
    · exact h.vouched u c hc

/-- A window that can fire no more loses its buffer, and so do the windows merged into it. -/
theorem Recorded.erase (h : g.Recorded es) (hdue : ∀ u, MergedInto es u w → g.Due u)
    (halone : ∀ u, g.Has u → MergedInto es u w → u = w)
    (hfind : ∀ v, g'.buffers.find? v = if w = v then none else g.buffers.find? v)
    (hwatermark : g'.watermark = g.watermark) : g'.Recorded es := by
  have hfind' : ∀ v c, w ≠ v → g.buffers.find? v = some c → g'.buffers.find? v = some c :=
    fun v c hv hc => (hfind v).trans ((if_neg hv).trans hc)
  have hkept : ∀ u, g.Kept es u → MergedInto es u w ∨ g'.Kept es u := by
    rintro u ⟨v, c, hc, huv, hrecalls⟩
    by_cases hv : w = v
    · exact .inl (hv ▸ huv)
    · exact .inr ⟨v, c, hfind' v c hv hc, huv, hrecalls⟩
  refine ⟨fun u ⟨c, hc⟩ => ?_, fun u hu => ?_, fun u c hc => ?_, h.inside⟩
  · rw [hfind] at hc
    split at hc
    · cases hc
    · rename_i hu
      exact (hkept u (h.kept u ⟨c, hc⟩)).resolve_left fun hmerged =>
        hu (halone u ⟨c, hc⟩ hmerged).symm
  · rw [due_congr hwatermark]
    rcases h.known u hu with hu | hu
    · exact .inl hu
    · exact (hkept u hu).imp_left (hdue u)
  · rw [hfind] at hc
    split at hc
    · cases hc
    · exact h.vouched u c hc

theorem Recorded.write (h : g.Recorded es) (w : Window) : g.Recorded (es ++ [.collected w]) := by
  have hmerged : ∀ {x y}, MergedInto (es ++ [.collected w]) x y ↔ MergedInto es x y :=
    ⟨fun h => h.mono (by simp), fun h => h.mono (by simp)⟩
  have hlineage : ∀ {v} {p : Pane ν}, Lineage (es ++ [.collected w]) v p ↔ Lineage es v p := by
    simp [Lineage, hmerged]
  have hkept : ∀ u, g.Kept es u → g.Kept (es ++ [.collected w]) u := fun u hu =>
    hu.imp (fun _ => hmerged.mpr) fun v c hc _ hrecalls =>
      ⟨c, hc, hrecalls.anti fun _ => hlineage.mp⟩
  refine ⟨fun u hu => hkept u (h.kept u hu), fun u hu => (h.known u ?_).imp_right (hkept u),
    fun u c hc => (h.vouched u c hc).mono fun p => hlineage.mpr, fun m hm => h.inside m ?_⟩
  · simpa [Known] using hu
  · simpa using hm

theorem absorbed_above {olds : List Window} (hv : v ∈ olds) (hb : g.buffers.find? v = some b) :
    b.panesFired ≤ (g.absorbed olds).panesFired ∧
      (b.onTimeFired = true → (g.absorbed olds).onTimeFired = true) := by
  have hmem : b ∈ olds.filterMap g.buffers.find? := List.mem_filterMap.mpr ⟨v, hv, hb⟩
  exact ⟨(Buffer.absorbAll_panesFired _ _).2.1 b hmem, fun ho =>
    (Buffer.absorbAll_onTimeFired _ _).mpr (.inr ⟨b, hmem, ho⟩)⟩

theorem absorbed_vouched {olds : List Window}
    (hv : ∀ v ∈ olds, ∀ b, g.buffers.find? v = some b → b.Vouched es' w) :
    (g.absorbed olds).Vouched es' w where
  counted := by
    rcases (Buffer.absorbAll_panesFired (olds.filterMap g.buffers.find?) {}).2.2 with
      heq | ⟨b, hb, heq⟩
    · exact .inl heq
    · obtain ⟨v, hmem, hb⟩ := List.mem_filterMap.mp hb
      exact ((hv v hmem b hb).counted.imp heq.trans) fun ⟨p, hp, hpeq⟩ => ⟨p, hp, heq.trans hpeq⟩
  onTime ho := by
    obtain ⟨b, hb, ho⟩ := ((Buffer.absorbAll_onTimeFired _ _).mp ho).resolve_left nofun
    obtain ⟨v, hmem, hb⟩ := List.mem_filterMap.mp hb
    exact (hv v hmem b hb).onTime ho

/-- What a merge needs to keep the memory of the old windows together: they are live and inside the
new one, which can still fire and overlaps no other live window. -/
structure Joins (g : Grouper s ν) (m : Merge) : Prop where
  olds_live : ∀ v ∈ m.olds, g.Has v
  into_live : g.Has m.into → m.into ∈ m.olds
  inside : ∀ v ∈ m.olds, v.Inside m.into
  apart : ∀ v, g.Has v → v ∉ m.olds → m.into.intersects v = false
  due : ¬g.Due m.into

/-- A live window into which the new window or an old one has been merged is an old one. -/
theorem Joins.mem_olds {m : Merge} (hm : g.Joins m) (hu : u.Inside m.into) (hv : g.Has v)
    (huv : u.Inside v) : v ∈ m.olds := by
  by_contra hout
  rcases hu.meet huv with rfl | hmeets
  · exact hout (hm.into_live hv)
  · rw [hm.apart v hv hout] at hmeets
    cases hmeets

theorem Joins.recalled {m : Merge} (hm : g.Joins m) (h : g.Recorded es) {p : Pane ν}
    (hp : Lineage (es ++ [.merged m]) m.into p) :
    ∃ v ∈ m.olds, ∃ b, g.buffers.find? v = some b ∧ Lineage es v p ∧ b.Recalls es v := by
  obtain ⟨u, hu, hkept, hp⟩ : ∃ u, u.Inside m.into ∧ g.Kept es u ∧ Lineage es u p := by
    rcases lineage_merged.mp hp with hp | ⟨⟨o, ho, hp⟩, -⟩
    · exact ⟨m.into, Window.inside_refl _, (h.known _ hp.known).resolve_left hm.due, hp⟩
    · exact ⟨o, hm.inside o ho, h.kept o (hm.olds_live o ho), hp⟩
  obtain ⟨v, b, hb, huv, hrecalls⟩ := hkept
  exact ⟨v, hm.mem_olds hu ⟨b, hb⟩ (huv.inside h.inside), b, hb, hp.trans huv, hrecalls⟩

theorem Recorded.merge (h : g.Recorded es) {m : Merge} (hm : g.Joins m)
    (hfind : ∀ v, g'.buffers.find? v = if m.into = v then some b' else
      if v ∈ m.olds then none else g.buffers.find? v)
    (hcount : b'.panesFired = (g.absorbed m.olds).panesFired)
    (htime : b'.onTimeFired = (g.absorbed m.olds).onTimeFired)
    (hclosed : ∀ v ∈ m.olds, ∀ b, g.buffers.find? v = some b → b.closed = true → b'.closed = true)
    (hwatermark : g'.watermark = g.watermark) : g'.Recorded (es ++ [.merged m]) := by
  have hinto : g'.buffers.find? m.into = some b' := (hfind _).trans (if_pos rfl)
  have hself : b'.Recalls (es ++ [.merged m]) m.into := by
    refine ⟨fun p hp => ?_, fun p hp ho => ?_, fun p hp hl => ?_⟩ <;>
      obtain ⟨v, hv, b, hb, hp, hrecalls⟩ := hm.recalled h hp
    · exact hcount ▸ Nat.lt_of_lt_of_le (hrecalls.above p hp) (absorbed_above hv hb).1
    · exact htime ▸ (absorbed_above hv hb).2 (hrecalls.onTime p hp ho)
    · exact hclosed v hv b hb (hrecalls.last p hp hl)
  have hmono : ∀ x y, MergedInto es x y → MergedInto (es ++ [.merged m]) x y := fun x y hxy =>
    mergedInto_concat.mpr (.inl hxy)
  have hjoined : ∀ v ∈ m.olds, MergedInto (es ++ [.merged m]) v m.into := fun v hv =>
    mergedInto_concat.mpr (.inr ⟨⟨v, hv, .refl⟩, .refl⟩)
  have hkept : ∀ u, g.Kept es u → g'.Kept (es ++ [.merged m]) u := by
    rintro u ⟨v, b, hb, huv, hrecalls⟩
    by_cases hv : v ∈ m.olds
    · exact ⟨m.into, b', hinto, (hmono u v huv).trans (hjoined v hv), hself⟩
    · have hne : m.into ≠ v := fun e => hv (e ▸ hm.into_live (e ▸ ⟨b, hb⟩))
      have hsame : ∀ p, Lineage (es ++ [.merged m]) v p → Lineage es v p := fun p hp =>
        (lineage_merged.mp hp).resolve_right fun hp =>
          hv (hm.mem_olds (Window.inside_refl _) ⟨b, hb⟩ (hp.2.inside h.inside))
      exact ⟨v, b, (hfind v).trans ((if_neg hne).trans ((if_neg hv).trans hb)), hmono u v huv,
        hrecalls.anti hsame⟩
  refine ⟨fun u ⟨c, hc⟩ => ?_, fun u hu => ?_, fun u c hc => ?_, fun m' hm' => ?_⟩
  · by_cases hu : m.into = u
    · exact hu ▸ ⟨m.into, b', hinto, .refl, hself⟩
    · rw [hfind, if_neg hu] at hc
      split at hc
      · cases hc
      · exact hkept u (h.kept u ⟨c, hc⟩)
  · rw [due_congr hwatermark]
    rcases known_merged.mp hu with hu | hu | rfl
    · exact (h.known u hu).imp_right (hkept u)
    · exact .inr (hkept u (h.kept u (hm.olds_live u hu)))
    · exact .inr ⟨m.into, b', hinto, .refl, hself⟩
  · by_cases hu : m.into = u
    · subst hu
      obtain rfl := Option.some.inj (hinto.symm.trans hc)
      have hvouched : (g.absorbed m.olds).Vouched (es ++ [.merged m]) m.into :=
        absorbed_vouched fun v hv b hb => (h.vouched v b hb).mono fun p hp =>
          lineage_merged.mpr (.inr ⟨⟨v, hv, hp⟩, .refl⟩)
      exact ⟨hcount ▸ hvouched.counted, htime ▸ hvouched.onTime⟩
    · rw [hfind, if_neg hu] at hc
      split at hc
      · cases hc
      · exact (h.vouched u c hc).mono fun p hp => lineage_merged.mpr (.inl hp)
  · rcases List.mem_append.mp hm' with hm' | hm'
    · exact h.inside m' hm'
    · obtain rfl := Entry.merged.inj (List.mem_singleton.mp hm')
      exact hm.inside

end Grouper

end EventTime
