import EventTime.Proofs.Combine.Fanout
import EventTime.Proofs.Combine.SessionParts
import EventTime.Proofs.Pane.SessionRuns

/-!
# Spreading hot keys over session windows

The second combine of a spread key finds the sessions of the key again, and in each of them the parts
and cold elements that make up the session. So a combine by key over session windows puts out the
same elements whether its keys are spread over shards or not, although sessions are no lifted windows.
-/

namespace EventTime

variable {κ ν α ο : Type}

section

variable [DecidableEq κ]

theorem valuesWithin_rowsOf_cons (key : κ) (w : Window) (e : Envelope (κ × ν))
    (rest : List (Envelope (κ × ν))) :
    valuesWithin w (rowsOf key (e :: rest)) =
      (if e.value.1 = key then insides w e.windows • {e.value.2} else 0) +
        valuesWithin w (rowsOf key rest) := by
  rw [← List.singleton_append, rowsOf_append, valuesWithin_append]
  congr 1
  by_cases h : e.value.1 = key
  · simp [rowsOf, valuesWithin, h, Envelope.withValue]
  · simp [rowsOf, valuesWithin, h]

theorem valuesWithin_rowsOf (key : κ) (w : Window) (rows : List (Envelope (κ × ν))) :
    valuesWithin w (rowsOf key rows) = weightAt insides key w (rows.map weighing) := by
  induction rows with
  | nil => rfl
  | cons e rest ih =>
    rw [valuesWithin_rowsOf_cons, ih, List.map_cons, weightAt_cons]
    rfl

theorem windowsOf_weigh {coder : Coder (InputOrAccum ν α)} {R : κ → α → Multiset ν → Prop}
    {rows : List (Envelope (κ × Bytes))} {weights : List (Envelope (κ × Multiset ν))}
    (h : List.Forall₂ (Weighs coder R) rows weights) (key : κ) :
    windowsOf (rowsOf key rows) = windowsOf (rowsOf key weights) := by
  induction h with
  | nil => rfl
  | @cons e d rows weights hed _ ih =>
    obtain ⟨bytes, rfl, -⟩ := hed
    by_cases hkey : d.value.1 = key
    · simp only [windowsOf, rowsOf, Envelope.withValue, hkey, decide_true, List.filter_cons_of_pos,
        List.map_cons, List.flatMap_cons, List.append_cancel_left_eq] at ih ⊢
      exact ih
    · simpa [windowsOf, rowsOf, Envelope.withValue, hkey] using ih

theorem weightAt_parts {info : PaneInfo} {bags : List (Bag (κ × UInt32) ν)}
    {rows : List (Envelope (κ × ν))} {tagged : List (Envelope (Shard κ ν))}
    (htagged : List.Forall₂ Tagged rows tagged) {input : InputWatermark}
    (hrows : ∀ e ∈ rows, Grouper.Fits input e)
    (hbags : Bag.Enumerates bags (SessionBag (hotRows tagged))) (key : κ) {p q : Int}
    (hs : IsSession (windowsOf (rowsOf key rows)) p q) :
    weightAt insides key (.interval p q) (hotWeights info bags ++ tagged.flatMap coldWeight) =
      valuesWithin (.interval p q) (rowsOf key rows) := by
  rw [valuesWithin_rowsOf]
  refine weightAt_spread key _ htagged (fun c hc => ?_) fun d hd hkey => ?_
  · obtain ⟨p, q, -, -, hvalues⟩ := hbags.sound c hc
    rw [hvalues, valuesWithin_rowsOf]
  · exact insides_cover htagged hrows hbags hd (hkey ▸ hs)

theorem weighs_fit {coder : Coder (InputOrAccum ν α)} {R : κ → α → Multiset ν → Prop}
    {info : PaneInfo} {bags : List (Bag (κ × UInt32) ν)} {rows : List (Envelope (κ × ν))}
    {tagged : List (Envelope (Shard κ ν))} (htagged : List.Forall₂ Tagged rows tagged)
    {input : InputWatermark} (hrows : ∀ e ∈ rows, Grouper.Fits input e)
    (hbags : Bag.Enumerates bags (SessionBag (hotRows tagged)))
    {joined : List (Envelope (κ × Bytes))} (hjoined : List.Forall₂ (Weighs coder R) joined
      (hotWeights info bags ++ tagged.flatMap coldWeight)) :
    ∀ e ∈ joined, Grouper.Fits .heldUntilEnd e := by
  intro e he
  obtain ⟨d, hd, bytes, rfl, -⟩ := exists_mem_right hjoined he
  rcases List.mem_append.mp hd with hd | hd
  · obtain ⟨c, hc, rfl⟩ := List.mem_map.mp hd
    obtain ⟨p, q, hwindow, hs, -⟩ := hbags.sound c hc
    refine ⟨p, q, congrArg (fun w => [w]) hwindow, ?_, nofun⟩
    exact hs.proper (proper_of_fits (hotRows_fit htagged hrows) c.key)
  · obtain ⟨e, he, -, hwindows⟩ := exists_of_mem_coldWeight htagged hd
    obtain ⟨a, b, hwin, hproper, -⟩ := hrows e he
    exact ⟨a, b, hwindows.trans hwin, hproper, nofun⟩

theorem combineTagged_sessions (orders : StageOrders κ ο) (gap : Int) (mode : AccumulationMode)
    {lateness : Int} (hlateness : 0 ≤ lateness) {f : KeyedCombineFn κ ν α ο}
    {R : κ → α → Multiset ν → Prop}
    (hf : f.TracksBag R) {inputCoder : Coder ν} {accumCoder : Coder α}
    (hacc : accumCoder.Keeps R) (width : Option Nat) {bundles : List (List (Envelope (κ × ν)))}
    (hin : ∀ e ∈ bundles.flatten, inputCoder.RoundTrips e.value.2)
    (hrows : ∀ e ∈ bundles.flatten, Grouper.Fits .elementTime e)
    (tagged : List (List (Envelope (Shard κ ν))))
    (htagged : List.Forall₂ (List.Forall₂ Tagged) bundles tagged) :
    Summarizes (combineTagged orders (.sessions gap mode lateness) f accumCoder
      (inputCoder.inputOrAccum accumCoder) width tagged) f R .onTimeFirst
      (SessionBag bundles.flatten) := by
  have hflat : List.Forall₂ Tagged bundles.flatten tagged.flatten := forall₂_flatten htagged
  refine combineTagged_summarizes orders (D := SessionBag (hotRows tagged.flatten)) hf
    (coldRoundTrip_of_tagged hflat hin) hacc ?_ ?_
  · intro g S hg
    rw [← flatten_hotRows]
    refine combineRows_sessions hg gap .discarding hlateness width ?_
    rw [flatten_hotRows]
    exact hotRows_fit hflat hrows
  · intro bags hbags joined hjoined
    have hsessions : ∀ key p q, IsSession (windowsOf (rowsOf key joined.flatten)) p q ↔
        IsSession (windowsOf (rowsOf key bundles.flatten)) p q := by
      intro key p q
      rw [windowsOf_weigh hjoined]
      exact isSession_weights hflat hrows hbags key
    refine ⟨SessionBag joined.flatten, fun hg => ?_, ?_, ?_⟩
    · exact combineRows_sessions hg gap mode hlateness width
        (weighs_fit hflat hrows hbags hjoined)
    · rintro key w M ⟨p, q, rfl, hs, rfl⟩
      have hs' := (hsessions key p q).mp hs
      rw [valuesWithin_rowsOf]
      refine ⟨_, rel_weighing hjoined key _, p, q, rfl, hs', ?_⟩
      rw [sum_weighing, weightAt_parts hflat hrows hbags key hs']
    · rintro key w m ⟨p, q, rfl, hs, -⟩
      exact ⟨_, p, q, rfl, (hsessions key p q).mpr hs, rfl⟩

end

theorem fits_of_assign {gap : Int} (hgap : 1 ≤ gap) {e : Envelope ν} (hfrom : InRange e.timestamp)
    (hto : InRange (e.timestamp + gap))
    (hwindows : (WindowFn.sessions gap).assign e.timestamp = .ok e.windows) :
    Grouper.Fits .elementTime e :=
  (opens_of_assign hgap hwindows hfrom hto).fits

variable {k v o : ElemType} [DecidableEq k.Elem]

/-- In session windows that fire at their end, spreading keys over shards does not change what a
combine by key puts out, up to order: in whatever order its stages put out their rows, there is one
element for every session of a key, made of the values within it. -/
theorem session_fanout_perm {p : Pipeline} (hp : p.graph.Ordered) {s : Schedule}
    {q : PerKey k v o α} {bundles : List (Rows (.pair k v))}
    (hin : p.bundles s q.input = .ok bundles) {gap lateness : Int} {mode : AccumulationMode}
    (hstrategy : q.input.strategy = ⟨.sessions gap, .endOfWindow, mode, lateness⟩)
    (hgap : 1 ≤ gap) (hlateness : 0 ≤ lateness)
    (hrows : ∀ e ∈ bundles.flatten, InRange e.timestamp ∧ InRange (e.timestamp + gap) ∧
      (WindowFn.sessions gap).assign e.timestamp = .ok e.windows)
    {accumCoder : Coder α} (hcoder : q.fn.accumulatorCoder p.registry q.inputCoder = .ok accumCoder)
    {R : k.Elem → α → Multiset v.Elem → Prop} (hf : q.fn.MultisetContract R)
    (hinputs : ∀ e ∈ bundles.flatten, q.inputCoder.RoundTrips e.value.2)
    (haccums : accumCoder.Keeps R) (fanout : k.Elem → UInt32) :
    ∃ c p₁ c' p₂,
      (q.withFanoutFn fanout).apply.begin p = (.ok c, p₁) ∧
      { q with fanout := none }.apply.begin p = (.ok c', p₂) ∧
      ∀ order order', (∀ i, Partition.Shuffles (order i)) → (∀ i, Partition.Shuffles (order' i)) →
        ∃ spread plain,
          (p₁.reordered p.graph.nodes.length order).collect s c.node (.pair k o) = .ok spread ∧
          (p₂.reordered p.graph.nodes.length order').collect s c'.node (.pair k o) = .ok plain ∧
          spread.Perm plain ∧
          Summarizes (.ok plain) q.fn R .onTimeFirst (SessionBag bundles.flatten) := by
  have hfits : ∀ e ∈ bundles.flatten, Grouper.Fits .elementTime e := by
    intro e he
    obtain ⟨hfrom, hto, hwindows⟩ := hrows e he
    exact fits_of_assign hgap hfrom hto hwindows
  have hplain : Summarizes (combineRows q.input.strategy q.fn q.width .elementTime bundles) q.fn R
      .onTimeFirst (SessionBag bundles.flatten) := by
    rw [hstrategy]
    exact combineRows_sessions hf.toTracksBag gap mode hlateness q.width hfits
  refine PerKey.perm_of_summarizes hp hin hcoder hf ?_ hplain (fun orders tagged htagged => ?_)
    fanout
  · rintro key w m m' ⟨p, q, -, -, rfl⟩ ⟨p', q', -, -, rfl⟩
    rfl
  · rw [hstrategy]
    exact combineTagged_sessions orders gap mode hlateness hf.toTracksBag haccums q.width hinputs
      hfits tagged htagged

theorem session_fanout_perm_of_counting :
    let bundles : List (Rows (.pair .word8 .word8)) :=
      [[⟨(7, 1), 0, [.interval 0 10], .noFiring⟩, ⟨(7, 2), 30, [.interval 30 40], .noFiring⟩],
        [⟨(7, 3), 4, [.interval 4 14], .noFiring⟩]]
    let source : Node Partition := .source fun _ => bundles.map (Partition.mk (.pair .word8 .word8))
    let p : Pipeline := { graph := Graph.add {} source [] }
    let s : Schedule := ⟨2, fun _ _ => 0⟩
    let q : PerKey .word8 .word8 .word32 Nat :=
      { input := ⟨0, ⟨.sessions 10, .endOfWindow, .accumulating, 5⟩⟩, fn := .counting UInt8 UInt8 }
    p.graph.Ordered ∧ p.bundles s q.input = .ok bundles ∧
      q.input.strategy = ⟨.sessions 10, .endOfWindow, .accumulating, 5⟩ ∧
      (∀ e ∈ bundles.flatten, InRange e.timestamp ∧ InRange (e.timestamp + 10) ∧
        (WindowFn.sessions 10).assign e.timestamp = .ok e.windows) ∧
      (∀ e ∈ bundles.flatten, (ElemType.coder .word8).RoundTrips e.value.2) ∧
      ∃ c p₁ c' p₂,
        (q.withFanoutFn fun _ => 2).apply.begin p = (.ok c, p₁) ∧
        { q with fanout := none }.apply.begin p = (.ok c', p₂) ∧
        ∀ order order', (∀ i, Partition.Shuffles (order i)) →
          (∀ i, Partition.Shuffles (order' i)) → ∃ spread plain,
            (p₁.reordered 1 order).collect s c.node (.pair .word8 .word32) = .ok spread ∧
            (p₂.reordered 1 order').collect s c'.node (.pair .word8 .word32) = .ok plain ∧
            spread.Perm plain ∧ Summarizes (.ok plain) q.fn
              (fun _ n m => n = Multiset.card m) .onTimeFirst (SessionBag bundles.flatten) := by
  intro bundles source p s q
  have hp : p.graph.Ordered := by
    intro e he
    cases he
  have hin : p.bundles s q.input = .ok bundles := rfl
  have hrows : ∀ e ∈ bundles.flatten, InRange e.timestamp ∧ InRange (e.timestamp + 10) ∧
      (WindowFn.sessions 10).assign e.timestamp = .ok e.windows := by
    intro e he
    simp only [bundles, List.flatten_cons, List.flatten_nil, List.append_nil, List.cons_append,
      List.nil_append, List.mem_cons, List.not_mem_nil, or_false] at he
    rcases he with rfl | rfl | rfl
    · exact ⟨by decide, by decide, rfl⟩
    · exact ⟨by decide, by decide, rfl⟩
    · exact ⟨by decide, by decide, rfl⟩
  have hinputs : ∀ e ∈ bundles.flatten, (ElemType.coder .word8).RoundTrips e.value.2 :=
    fun e _ => roundTrips_word8 e.value.2
  exact ⟨hp, hin, rfl, hrows, hinputs, session_fanout_perm hp hin rfl (by decide) (by decide) hrows
    rfl (KeyedCombineFn.counting_multiset UInt8 UInt8) hinputs (keeps_natural UInt8 UInt8) fun _ => 2⟩

end EventTime
