import EventTime.Proofs.Combine.NewestFanout
import EventTime.Proofs.Combine.Whole
import EventTime.Proofs.WindowMap

/-!
# Views of panes that accumulate

A view keeps for each window the value of a pane with the highest index, whatever the order of the
panes. Where windows never merge, panes accumulate and the trigger repeats for ever, this is the
newest pane, which has taken in every listing of the window. So the view answers for a window what
all its inputs come to, and answers the default where there is none.
-/

namespace EventTime

variable {β γ : Type}

namespace WindowLookup

/-- What is held for a window, by index and value, once another pane has been taken in. -/
def newer (held : Option (Nat × β)) (pane : Nat × β) : Nat × β :=
  match held with
  | some last => if last.1 ≤ pane.1 then pane else last
  | none => pane

theorem newer_newer (held : Option (Nat × β)) (pane : Nat × β) :
    newer (some (newer held pane)) pane = newer held pane := by
  cases held with
  | none => simp [newer]
  | some last =>
    by_cases h : last.1 ≤ pane.1
    · simp [newer, h]
    · simp [newer, h]

theorem takePane_eq (values : WindowMap (Nat × β)) (e : Envelope β) :
    takePane values e = e.windows.foldl (fun values w =>
      values.insert w (newer (values.find? w) (e.pane.index, e.value))) values := by
  rw [takePane]
  congr 1
  funext values w
  cases h : values.find? w with
  | none => rfl
  | some last =>
    by_cases hle : last.1 ≤ e.pane.index
    · simp [newer, hle]
    · simp [newer, hle, WindowMap.insert_find? h]

theorem find?_takePane (values : WindowMap (Nat × β)) (e : Envelope β) (w : Window) :
    (takePane values e).find? w = if w ∈ e.windows then
      some (newer (values.find? w) (e.pane.index, e.value)) else values.find? w := by
  rw [takePane_eq]
  generalize e.windows = windows
  induction windows generalizing values with
  | nil => rfl
  | cons v rest ih =>
    rw [List.foldl_cons, ih, WindowMap.find?_insert]
    by_cases hv : v = w
    · subst hv
      simp [newer_newer]
    · simp [hv, Ne.symm hv]

/-- What is held for a window after some rows: a pane of the window with the highest index, or
nothing if there is no pane of the window. -/
inductive HoldsNewest (rows : List (Envelope β)) (w : Window) : Option (Nat × β) → Prop
  | absent : (∀ d ∈ rows, w ∉ d.windows) → HoldsNewest rows w none
  | present {e : Envelope β} : e ∈ rows → w ∈ e.windows →
      (∀ d ∈ rows, w ∈ d.windows → d.pane.index ≤ e.pane.index) →
      HoldsNewest rows w (some (e.pane.index, e.value))

theorem HoldsNewest.takePane {rows : List (Envelope β)} {w : Window}
    {values : WindowMap (Nat × β)} (h : HoldsNewest rows w (values.find? w)) (e : Envelope β) :
    HoldsNewest (rows ++ [e]) w ((takePane values e).find? w) := by
  rw [find?_takePane]
  generalize values.find? w = held at h ⊢
  by_cases hw : w ∈ e.windows
  · rw [if_pos hw]
    have hmem : e ∈ rows ++ [e] := by simp
    cases h with
    | absent hnone =>
      refine .present hmem hw fun d hd hwd => ?_
      rcases List.mem_append.mp hd with hd | hd
      · exact absurd hwd (hnone d hd)
      · rw [List.mem_singleton.mp hd]
    | @present last hlast hwlast hmax =>
      by_cases hle : last.pane.index ≤ e.pane.index
      · simp only [newer, hle, if_true]
        refine .present hmem hw fun d hd hwd => ?_
        rcases List.mem_append.mp hd with hd | hd
        · exact Nat.le_trans (hmax d hd hwd) hle
        · rw [List.mem_singleton.mp hd]
      · simp only [newer, hle, if_false]
        refine .present (List.mem_append_left _ hlast) hwlast fun d hd hwd => ?_
        rcases List.mem_append.mp hd with hd | hd
        · exact hmax d hd hwd
        · rw [List.mem_singleton.mp hd]
          omega
  · rw [if_neg hw]
    cases h with
    | absent hnone =>
      refine .absent fun d hd => ?_
      rcases List.mem_append.mp hd with hd | hd
      · exact hnone d hd
      · rwa [List.mem_singleton.mp hd]
    | present hlast hwlast hmax =>
      refine .present (List.mem_append_left _ hlast) hwlast fun d hd hwd => ?_
      rcases List.mem_append.mp hd with hd | hd
      · exact hmax d hd hwd
      · exact absurd (List.mem_singleton.mp hd ▸ hwd) hw

theorem holdsNewest_takePanes (rows : List (Envelope β)) (w : Window) :
    HoldsNewest rows w ((rows.foldl takePane .empty).find? w) := by
  induction rows using List.reverseRecOn with
  | nil => exact .absent (by simp)
  | append_singleton rows e ih =>
    rw [List.foldl_append]
    exact ih.takePane e

theorem find?_dropIndices (values : WindowMap (Nat × β)) (w : Window) :
    (dropIndices values).find? w = (values.find? w).map Prod.snd := by
  rw [dropIndices, WindowMap.find?_foldl_insert Prod.snd values.sorted]
  exact Option.or_none

/-- A window is answered by its newest pane. -/
theorem get?_ofRows_of_newest {rows : List (Envelope β)} {w : Window} {e : Envelope β}
    (he : e ∈ rows) (hw : w ∈ e.windows)
    (hnewest : ∀ d ∈ rows, w ∈ d.windows → d.value = e.value ∨ d.pane.index < e.pane.index)
    (default : Option β) : (ofRows rows default).get? w = some e.value := by
  have hheld := holdsNewest_takePanes rows w
  rw [get?, ofRows, find?_dropIndices]
  cases hfind : (rows.foldl takePane .empty).find? w with
  | none =>
    rw [hfind] at hheld
    cases hheld with
    | absent hnone => exact absurd hw (hnone e he)
  | some last =>
    rw [hfind] at hheld
    cases hheld with
    | @present d hd hwd hmax =>
      have hle := hmax e he hw
      have hsame : d.value = e.value := (hnewest d hd hwd).resolve_right (by omega)
      rw [← hsame]
      rfl

theorem get?_ofRows_of_absent {rows : List (Envelope β)} {w : Window}
    (h : ∀ d ∈ rows, w ∉ d.windows) (default : Option β) :
    (ofRows rows default).get? w = default := by
  have hheld := holdsNewest_takePanes rows w
  rw [get?, ofRows, find?_dropIndices]
  cases hfind : (rows.foldl takePane .empty).find? w with
  | none => rfl
  | some last =>
    rw [hfind] at hheld
    cases hheld with
    | present hd hwd hmax => exact absurd hwd (h _ hd)

end WindowLookup

/-- Every element is in one window, and some row lists it. -/
def PanesOver (out : List (Envelope β)) (rows : List (Envelope γ)) : Prop :=
  ∀ e ∈ out, ∃ w, e.windows = [w] ∧ ∃ d ∈ rows, w ∈ d.windows

theorem PanesOver.of_windows {β' : Type} {mid : List (Envelope β)} {rows : List (Envelope γ)}
    {out : List (Envelope β')} (h : PanesOver mid rows)
    (hout : ∀ e ∈ out, ∃ d ∈ mid, e.windows = d.windows) : PanesOver out rows := by
  intro e he
  obtain ⟨d, hd, hwindows⟩ := hout e he
  rw [hwindows]
  exact h d hd

theorem PanesOver.shuffled {rows : List (Envelope γ)} {out : List (Envelope β)}
    (h : PanesOver out rows) (σ : Shuffle (Envelope β)) : PanesOver (σ.apply out) rows :=
  h.of_windows fun e he => ⟨e, σ.mem_apply.mp he, rfl⟩

theorem PanesOver.trans {β' : Type} {mid : List (Envelope β')} {rows : List (Envelope γ)}
    {out : List (Envelope β)} (h : PanesOver out mid)
    (hmid : ∀ d ∈ mid, ∀ w ∈ d.windows, ∃ e ∈ rows, w ∈ e.windows) : PanesOver out rows := by
  intro e he
  obtain ⟨w, hw, d, hd, hwd⟩ := h e he
  exact ⟨w, hw, hmid d hd w hwd⟩

section

variable {κ ν α ο : Type} [DecidableEq κ] {s : Strategy} {mode : InputWatermark}

theorem groupRows_panesOver (hs : s.KeepsFiring) {rows : List (Envelope (κ × ν))}
    (hin : Grouper.InTime s mode rows) {groups : List (Envelope (κ × List ν))}
    (h : groupRows s mode rows = .ok groups) : PanesOver groups rows := by
  intro e he
  choose panes hrun hpanes using fun key =>
    Grouper.run_history hs.nonMerging hs.builtIn hs.endless (hin.rowsOf key)
  obtain ⟨groups', hgroups, hfilter⟩ := groupRows_of_runs hrun
  obtain rfl := Except.ok.inj (hgroups.symm.trans h)
  have hown : e ∈ (panes e.value.1).map (groupOf e.value.1) := by
    rw [← hfilter, List.mem_filter]
    exact ⟨he, decide_eq_true rfl⟩
  obtain ⟨pane, hpane, heq⟩ := List.mem_map.mp hown
  have hmem : pane ∈ (panes e.value.1).filter (·.window = pane.window) :=
    List.mem_filter.mpr ⟨hpane, decide_eq_true rfl⟩
  have hfired : ((panes e.value.1).filter (·.window = pane.window)).map (·.values) ≠ [] :=
    List.ne_nil_of_mem (List.mem_map_of_mem hmem)
  have hlisted := (hpanes e.value.1 pane.window).1.covered_ne_nil hfired
  obtain ⟨d, hd, hwd⟩ := listed_ne_nil_iff.mp hlisted
  obtain ⟨row, hrow, -, rfl⟩ := mem_rowsOf.mp (Grouper.mem_inTimeOrder.mp hd)
  exact ⟨pane.window, by rw [← heq]; rfl, row, hrow, hwd⟩

theorem combineRows_panesOver (hs : s.KeepsFiring) {f : KeyedCombineFn κ ν α ο}
    {width : Option Nat} {bundles : List (List (Envelope (κ × ν)))}
    (hin : Grouper.InTime s mode bundles.flatten) {out : List (Envelope (κ × ο))}
    (h : combineRows s f width mode bundles = .ok out) : PanesOver out bundles.flatten := by
  rw [combineRows_grouped hs.notLifted] at h
  obtain ⟨groups, hgroups, rfl⟩ := ok_of_map h
  refine (groupRows_panesOver hs hin hgroups).of_windows fun e he => ?_
  obtain ⟨g, hg, rfl⟩ := List.mem_map.mp he
  exact ⟨g, hg, rfl⟩

omit [DecidableEq κ] in
theorem windows_of_raised {activity : String} {rows : List (Envelope (κ × Except String β))}
    {out : List (Envelope (κ × β))} (h : rows.mapM (raiseStaged activity) = .ok out) :
    ∀ e ∈ out, ∃ d ∈ rows, e.windows = d.windows := by
  intro e he
  obtain ⟨d, hd, hraised⟩ := exists_mem_left (forall₂_of_mapM h) he
  exact ⟨d, hd, (raiseStaged_ok hraised).2.1⟩

omit [DecidableEq κ] in
theorem windows_of_coldRows {coder : Coder (InputOrAccum ν α)} {rows : List (Envelope (Shard κ ν))}
    {out : List (Envelope (κ × Bytes))} (h : coldRows coder rows = .ok out) :
    ∀ e ∈ out, ∃ t ∈ rows, e.windows = t.windows := by
  intro e he
  obtain ⟨lists, hlists, rfl⟩ := ok_of_map h
  obtain ⟨l, hl, hel⟩ := List.mem_flatten.mp he
  obtain ⟨t, ht, htl⟩ := exists_mem_left (forall₂_of_mapM hlists) hl
  refine ⟨t, ht, ?_⟩
  unfold coldBytes at htl
  split at htl
  · cases htl
    cases hel
  · split at htl
    · cases htl
      rw [List.mem_singleton.mp hel]
      rfl
    · cases htl

theorem combineTagged_panesOver (hs : s.KeepsFiring) {f : KeyedCombineFn κ ν α ο}
    {accumCoder : Coder α} {coder : Coder (InputOrAccum ν α)} {width : Option Nat}
    {bundles : List (List (Envelope (κ × ν)))}
    (hin : Grouper.InTime s .elementTime bundles.flatten)
    {tagged : List (List (Envelope (Shard κ ν)))}
    (htagged : List.Forall₂ (List.Forall₂ Tagged) bundles tagged) {out : List (Envelope (κ × ο))}
    {orders : StageOrders κ ο}
    (h : combineTagged orders s f accumCoder coder width tagged = .ok out) :
    PanesOver out bundles.flatten := by
  have hflat : List.Forall₂ Tagged bundles.flatten tagged.flatten := forall₂_flatten htagged
  obtain ⟨partials, hpartials, h⟩ := ok_of_bind h
  obtain ⟨hot, hhot, h⟩ := ok_of_bind h
  obtain ⟨cold, hcold, h⟩ := ok_of_bind h
  obtain ⟨results, hresults, hout⟩ := ok_of_bind h
  obtain ⟨fired, hfired, rfl⟩ := ok_of_map hpartials
  obtain ⟨final, hfinal, rfl⟩ := ok_of_map hresults
  have hshards : PanesOver (orders.first.apply fired) (hotRows tagged.flatten) := by
    refine PanesOver.shuffled ?_ orders.first
    rw [← flatten_hotRows]
    refine combineRows_panesOver (hs.withMode .discarding) ?_ hfired
    rw [flatten_hotRows]
    exact hin.hotRows hflat .discarding
  have hheld : Grouper.InTime s .heldUntilEnd (hot :: cold).flatten := nofun
  have hjoined : PanesOver (orders.second.apply final) (hot :: cold).flatten :=
    (combineRows_panesOver hs hheld hfinal).shuffled orders.second
  refine PanesOver.trans (hjoined.of_windows (windows_of_raised hout)) fun d hd w hw => ?_
  rcases List.mem_append.mp hd with hd | hd
  · obtain ⟨e, he, hraised⟩ := exists_mem_left (forall₂_of_mapM hhot) hd
    obtain ⟨v, hv, t, ht, hvt⟩ := hshards e he
    rw [(raiseStaged_ok hraised).2.1] at hw
    obtain rfl : w = v := List.mem_singleton.mp (hv ▸ hw)
    obtain ⟨row, hrow, -, hwindows, -⟩ := exists_of_mem_hotRows hflat ht
    exact ⟨row, hrow, hwindows ▸ hvt⟩
  · obtain ⟨l, hl, hdl⟩ := List.mem_flatten.mp hd
    obtain ⟨part, hpart, hrows⟩ := exists_mem_left (forall₂_of_mapM hcold) hl
    obtain ⟨t, ht, hwindows⟩ := windows_of_coldRows hrows d hdl
    obtain ⟨row, hrow, htag⟩ := exists_mem_left hflat (List.mem_flatten.mpr ⟨part, hpart, ht⟩)
    refine ⟨row, hrow, ?_⟩
    rw [hwindows] at hw
    rcases htag with rfl | ⟨shard, rfl⟩
    · exact hw
    · exact hw

end

/-! ### Combines of a whole collection -/

theorem listed_keyed {ν : Type} (w : Window) (rows : List (Envelope ν)) :
    valuesAt () w (rows.map fun e => e.withValue ((), e.value)) = listed w rows := by
  have hrows : rowsOf () (rows.map fun e => e.withValue ((), e.value)) = rows := by
    rw [rowsOf, List.filter_eq_self.mpr fun _ _ => decide_eq_true rfl, List.map_map]
    exact List.map_id rows
  rw [valuesAt, hrows]

/-- What a view of newest panes answers: what the inputs of a window come to, or the default. -/
theorem get?_of_newest {ν α ο : Type} {f : CombineFn ν α ο} {R : Unit → α → Multiset ν → Prop}
    (hf : (f.lift (κ := Unit)).MultisetContract R) {rows : List (Envelope ν)}
    {out : List (Envelope (Unit × ο))}
    (hnewest : NewestHoldAll out (f.lift (κ := Unit)) (rows.map fun e => e.withValue ((), e.value)))
    (hpanes : PanesOver out rows) (default : Option ο) (w : Window) :
    let lookup := WindowLookup.ofRows (out.map fun e => e.withValue e.value.2) default
    ((∃ e ∈ rows, w ∈ e.windows) →
      ∀ inputs, inputs.Perm (listed w rows) → lookup.get? w = some (f.apply inputs)) ∧
    ((∀ e ∈ rows, w ∉ e.windows) → lookup.get? w = default) := by
  intro lookup
  constructor
  · intro hoccurs inputs hinputs
    have hne : valuesAt () w (rows.map fun e => e.withValue ((), e.value)) ≠ [] := by
      rw [listed_keyed]
      exact listed_ne_nil_iff.mpr hoccurs
    obtain ⟨e, he, hvalue⟩ := hnewest () w hne
    rw [listed_keyed] at hvalue
    have happly : f.apply inputs = e.value.2 := by
      rw [hvalue]
      exact hf.apply_congr () (Multiset.coe_eq_coe.mpr hinputs)
    rw [happly]
    refine WindowLookup.get?_ofRows_of_newest (e := e.withValue e.value.2)
      (List.mem_map.mpr ⟨e, he.mem, rfl⟩) ?_ (fun d hd hwd => ?_) default
    · show w ∈ e.windows
      rw [he.windows_eq]
      exact List.mem_singleton_self w
    · obtain ⟨c, hc, rfl⟩ := List.mem_map.mp hd
      obtain ⟨v, hv, -⟩ := hpanes c hc
      have hwv : w = v := List.mem_singleton.mp (hv ▸ hwd)
      rcases he.newest c hc rfl (hwv ▸ hv) with rfl | hlt
      · exact .inl rfl
      · exact .inr hlt
  · intro hnone
    refine WindowLookup.get?_ofRows_of_absent (fun d hd hwd => ?_) default
    obtain ⟨c, hc, rfl⟩ := List.mem_map.mp hd
    obtain ⟨v, hv, e, he, hve⟩ := hpanes c hc
    have hwv : w = v := List.mem_singleton.mp (hv ▸ hwd)
    exact hnone e he (hwv ▸ hve)

namespace Pipeline

variable {k v o t : ElemType} {α : Type} {p : Pipeline} {s : Schedule}

/-- Spread over the same number of shards or not, a combine by key puts out newest panes that hold
all values. -/
theorem builds_withFanout_newest [DecidableEq k.Elem] (hp : p.graph.Ordered)
    {q : PerKey k v o α} {bundles : List (Rows (.pair k v))}
    (h : p.Carries s q.input (.ok bundles)) (hs : q.input.strategy.KeepsFiring)
    (hmode : q.input.strategy.mode = .accumulating)
    (hin : Grouper.InTime q.input.strategy .elementTime bundles.flatten) {accumCoder : Coder α}
    (hcoder : q.fn.accumulatorCoder p.registry q.inputCoder = .ok accumCoder)
    {R : k.Elem → α → Multiset v.Elem → Prop} (hf : q.fn.MultisetContract R) {m : UInt32}
    (hacc : 1 < m → accumCoder.Keeps R) :
    ∃ out, p.Builds s (q.withFanout m).apply q.input.strategy (.ok [out]) ∧
      NewestHoldAll out q.fn bundles.flatten ∧ PanesOver out bundles.flatten := by
  by_cases hm : 1 < m
  · simp only [PerKey.withFanout, PerKey.apply, if_pos hm]
    have htagged := tagged_tagEach s p.graph.nodes.length (fun _ : k.Elem => m) 0 bundles
    obtain ⟨_, hbuilds, orders, rfl⟩ := builds_of_reordered <| buildsReordered_combineHotKeys
      (Nat.le_refl _) (fun _ => Partition.shuffles_id) ((reordered_id p _).symm ▸ hp)
      ((reordered_id p _).symm ▸ h) hcoder (fun _ => m) q.width
    obtain ⟨out, hout, hnewest⟩ := combineTagged_newest orders hf hmode hs hin (hacc hm) q.width
      htagged (coldRoundTrip_of_hot hm q.inputCoder s _ 0 bundles)
    refine ⟨out, hbuilds.of_eq ?_, hnewest, combineTagged_panesOver hs hin htagged hout⟩
    exact congrArg (Except.map ([·])) hout
  · simp only [PerKey.withFanout, PerKey.apply, if_neg hm]
    obtain ⟨out, hout, hnewest⟩ := combineRows_newest hf hmode hs hin q.width
    refine ⟨out, ?_, hnewest, combineRows_panesOver hs hin hout⟩
    refine (builds_combineByKey hp h hcoder q.width .elementTime).of_eq ?_
    show (combineRows q.input.strategy q.fn q.width .elementTime bundles).map ([·]) = _
    rw [hout]
    rfl

theorem builds_underOneKey_newest (hp : p.graph.Ordered) {g : Globally t o α}
    {bundles : List (Rows t)} (h : p.Carries s g.input (.ok bundles))
    (hs : g.input.strategy.KeepsFiring) (hmode : g.input.strategy.mode = .accumulating)
    (hin : Grouper.InTime g.input.strategy .elementTime bundles.flatten) {accumCoder : Coder α}
    (hcoder : g.fn.accumulatorCoder p.registry t.coder = .ok accumCoder)
    {R : Unit → α → Multiset t.Elem → Prop} (hf : (g.fn.lift (κ := Unit)).MultisetContract R)
    (hacc : 1 < g.fanout → accumCoder.Keeps R) :
    ∃ out : Rows (.pair .unit o), p.Builds s g.combineUnderOneKey g.input.strategy
        (.ok [out.map fun e => e.withValue e.value.2]) ∧
      NewestHoldAll out (g.fn.lift (κ := Unit))
        (bundles.flatten.map fun e => e.withValue ((), e.value)) ∧
      PanesOver out bundles.flatten := by
  obtain ⟨keyed, p₁, hbuild, grown₁, hstrategy, keyed₁⟩ :=
    builds_map (u := .pair .unit t) hp h fun a => ((), a)
  have hflat : (bundles.map fun rows => rows.map fun e => e.withValue ((), e.value)).flatten =
      bundles.flatten.map fun e => e.withValue ((), e.value) := List.map_flatten.symm
  have hin₁ : Grouper.InTime keyed.strategy .elementTime
      (bundles.map fun rows => rows.map fun e => e.withValue ((), e.value)).flatten := by
    rw [hflat, hstrategy]
    intro hmode e he
    obtain ⟨d, hd, rfl⟩ := List.mem_map.mp he
    exact hin hmode d hd
  obtain ⟨out, hcombine, hnewest, hpanes⟩ := builds_withFanout_newest (o := o) grown₁.ordered
    (q := { input := keyed, fn := g.fn.lift }) keyed₁ (hstrategy ▸ hs) (hstrategy ▸ hmode) hin₁
    (grown₁.registry ▸ hcoder) hf hacc
  rw [hflat] at hnewest hpanes
  refine ⟨out, ?_, hnewest, hpanes.trans fun d hd w hw => ?_⟩
  · refine Builds.after hbuild grown₁ ?_
    refine hcombine.bind fun combined p₂ grown₂ strategy₂ combined₂ => ?_
    have hvalues := builds_map (u := o) grown₂.ordered combined₂ Prod.snd
    rw [strategy₂, hstrategy] at hvalues
    exact hvalues
  · obtain ⟨e, he, rfl⟩ := List.mem_map.mp hd
    exact ⟨e, he, hw⟩

end Pipeline

variable {t o : ElemType} {α : Type}

/-- Where windows never merge, panes accumulate and the trigger repeats for ever, a view of a whole
collection answers for every window what exactly the inputs that list it come to, in any order; for a
window without input it answers what no input comes to, if the default is kept. -/
theorem view_sees_all {p : Pipeline} (hp : p.graph.Ordered) {s : Schedule} {g : Globally t o α}
    {bundles : List (Rows t)} (hin : p.bundles s g.input = .ok bundles)
    (hfn : g.input.strategy.windowFn.nonMerging = true)
    (hmode : g.input.strategy.mode = .accumulating) {T : Trigger}
    (htrigger : g.input.strategy.trigger = .repeatedly T) (hT : T.isBuiltIn = true)
    (htime : ∀ e ∈ bundles.flatten, e.timestamp < maxTime ∧
      ∀ w ∈ e.windows, e.timestamp ≤ g.input.strategy.expiry w) {accumCoder : Coder α}
    (hcoder : g.fn.accumulatorCoder p.registry t.coder = .ok accumCoder)
    {R : Unit → α → Multiset t.Elem → Prop} (hf : (g.fn.lift (κ := Unit)).MultisetContract R)
    (hacc : 1 < g.fanout → accumCoder.Keeps R) :
    ∃ view p' lookup, g.asSingletonView.begin p = (.ok view, p') ∧
      view.materialize p' s = .ok lookup ∧ ∀ w,
        ((∃ e ∈ bundles.flatten, w ∈ e.windows) → ∀ inputs,
          inputs.Perm (listed w bundles.flatten) → lookup.get? w = some (g.fn.apply inputs)) ∧
        ((∀ e ∈ bundles.flatten, w ∉ e.windows) →
          lookup.get? w = if g.keepDefault then some (g.fn.apply []) else none) := by
  have hs := Strategy.keepsFiring_of_repeatedly hfn htrigger hT
  obtain ⟨out, hbuilds, hnewest, hpanes⟩ := Pipeline.builds_underOneKey_newest hp
    (Pipeline.carries_of_bundles hp hin) hs hmode (fun _ => htime) hcoder hf hacc
  obtain ⟨combined, p', hbuild, hgrown, -, hcarries⟩ := hbuilds
  refine ⟨_, p', _, Attempt.begin_bind hbuild _, ?_, get?_of_newest hf hnewest hpanes _⟩
  rw [SingletonView.materialize, hcarries.collect hgrown.ordered]
  simp only [Except.map, bind, Except.bind, pure, Except.pure, List.flatten_singleton]
  rfl

/-- Every element fires a pane of its own. The first window has four listings, the second has one, and
a third has none. -/
theorem view_sees_all_of_counting :
    let w : Window := .interval 0 10
    let w' : Window := .interval 10 20
    let bundles : List (Rows .word8) :=
      [[⟨1, 0, [w], .noFiring⟩, ⟨2, 4, [w, w], .noFiring⟩],
        [⟨4, 3, [w], .noFiring⟩, ⟨5, 12, [w'], .noFiring⟩]]
    let source : Node Partition := .source fun _ => bundles.map (Partition.mk .word8)
    let p : Pipeline := { graph := Graph.add {} source [] }
    let s : Schedule := ⟨2, fun _ _ => 0⟩
    let g : Globally .word8 .word32 Nat :=
      { input := ⟨0, ⟨.fixed 10, .repeatedly (.afterCount 1), .accumulating, 0⟩⟩
        fn := (KeyedCombineFn.counting Unit UInt8).bind ()
        fanout := 2 }
    p.graph.Ordered ∧ p.bundles s g.input = .ok bundles ∧
      (∀ e ∈ bundles.flatten, e.timestamp < maxTime ∧
        ∀ w ∈ e.windows, e.timestamp ≤ g.input.strategy.expiry w) ∧
      ∃ view p' lookup, g.asSingletonView.begin p = (.ok view, p') ∧
        view.materialize p' s = .ok lookup ∧ lookup.get? w = some 4 ∧ lookup.get? w' = some 1 ∧
        lookup.get? (.interval 20 30) = some 0 := by
  intro w w' bundles source p s g
  have hp : p.graph.Ordered := by
    intro e he
    cases he
  have hin : p.bundles s g.input = .ok bundles := rfl
  have htime : ∀ e ∈ bundles.flatten, e.timestamp < maxTime ∧
      ∀ w ∈ e.windows, e.timestamp ≤ g.input.strategy.expiry w := by
    decide
  obtain ⟨view, p', lookup, hbuild, hlookup, hget⟩ := view_sees_all hp hin rfl rfl rfl rfl htime rfl
    (KeyedCombineFn.counting_multiset Unit UInt8) fun _ => keeps_natural Unit UInt8
  refine ⟨hp, hin, htime, view, p', lookup, hbuild, hlookup, ?_, ?_, ?_⟩
  · exact (hget w).1 (by decide) [1, 2, 2, 4] (by decide)
  · exact (hget w').1 (by decide) [5] (by decide)
  · exact (hget (.interval 20 30)).2 (by decide)

end EventTime
