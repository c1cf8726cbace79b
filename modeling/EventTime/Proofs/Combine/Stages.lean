import EventTime.Pipeline.HotKey
import EventTime.Proofs.Pipeline.Reordering

/-!
# What combine stages carry

A combine by key is a function of the bundles of its input, up to the order in which it puts out its
rows. A combine of hot keys is one, too, once the elements are tagged with their shards and both of
its stages have chosen an order.
-/

namespace EventTime

variable {κ ν α ο : Type}

/-- A group with its values reduced. -/
def reduced (f : KeyedCombineFn κ ν α ο) (e : Envelope (κ × List ν)) : Envelope (κ × ο) :=
  e.withValue (e.value.1, f.apply e.value.1 e.value.2)

/-- The results of a combine by key, in the shape that the windowing strategy allows. -/
def combineRows [DecidableEq κ] (strategy : Strategy) (f : KeyedCombineFn κ ν α ο)
    (width : Option Nat) (mode : InputWatermark) (bundles : List (List (Envelope (κ × ν)))) :
    Except Fault (List (Envelope (κ × ο))) :=
  if strategy.allowsLifting then .ok (combineBundles f width bundles)
  else (groupRows strategy mode bundles.flatten).map fun panes =>
    panes.map fun e => e.withValue (e.value.1, f.apply e.value.1 e.value.2)

section

variable [DecidableEq κ] {strategy : Strategy}

theorem combineRows_lifted (h : strategy.allowsLifting = true) (f : KeyedCombineFn κ ν α ο)
    (width : Option Nat) (mode : InputWatermark) (bundles : List (List (Envelope (κ × ν)))) :
    combineRows strategy f width mode bundles = .ok (combineBundles f width bundles) := if_pos h

theorem combineRows_grouped (h : strategy.allowsLifting = false) (f : KeyedCombineFn κ ν α ο)
    (width : Option Nat) (mode : InputWatermark) (bundles : List (List (Envelope (κ × ν)))) :
    combineRows strategy f width mode bundles =
      (groupRows strategy mode bundles.flatten).map fun panes => panes.map (reduced f) :=
  if_neg (Bool.eq_false_iff.mp h)

end

/-- One partition of rows, flattened, is these rows. -/
theorem map_flatten_singleton {β : Type} (x : Except Fault (List β)) :
    (x.map ([·])).map List.flatten = x := by
  cases x with
  | error e => rfl
  | ok rows => exact congrArg Except.ok List.flatten_singleton

namespace Pipeline

variable {k v o t : ElemType} {p : Pipeline} {s : Schedule}

theorem builds_accumulatorCoder {f : KeyedCombineFn k.Elem v.Elem α o.Elem}
    {inputCoder : Coder v.Elem} {accumCoder : Coder α}
    (h : f.accumulatorCoder p.registry inputCoder = .ok accumCoder) :
    (Collection.accumulatorCoder (k := k) (v := v) (o := o) f inputCoder).begin p =
      (.ok accumCoder, p) := by
  have hget : Attempt.begin (get : Build Pipeline) p = (.ok p, p) := rfl
  rw [Collection.accumulatorCoder, Attempt.begin_bind hget, h]
  rfl

theorem Builds.begin_bind {ρ : Type} {a : Build ρ} {r : ρ} (h : a.begin p = (.ok r, p))
    {f : ρ → Build (Collection t)} {strategy : Strategy} {x : Except Fault (List (Rows t))}
    (hf : p.Builds s (f r) strategy x) : p.Builds s (a >>= f) strategy x := by
  obtain ⟨c, p', hb, hpost⟩ := hf
  exact ⟨c, p', (Attempt.begin_bind h f).trans hb, hpost⟩

variable {c : Collection (.pair k v)} {x : Except Fault (List (Rows (.pair k v)))}
  [DecidableEq k.Elem]

theorem builds_combineLifted (hp : p.graph.Ordered) (h : p.Carries s c x)
    (f : KeyedCombineFn k.Elem v.Elem α o.Elem) (width : Option Nat) :
    p.Builds s (c.combineLifted f width) c.strategy
      (x >>= fun bundles => .ok [combineBundles f width bundles]) := by
  refine builds_whole (u := .pair k o) (y := fun bundles => .ok (combineBundles f width bundles))
    hp h ?_
  intro bundles
  rw [mapM_rowsFor]
  rfl

theorem builds_groupByKey (hp : p.graph.Ordered) (h : p.Carries s c x) (mode : InputWatermark) :
    p.Builds s (c.groupByKey mode) c.strategy
      (x >>= fun bundles => (groupRows c.strategy mode bundles.flatten).map ([·])) := by
  refine builds_whole (u := .pair k (.list v))
    (y := fun bundles => groupRows c.strategy mode bundles.flatten) hp h ?_
  intro bundles
  rw [allRowsFor_mk]
  simp only [bind, Except.bind]
  cases groupRows c.strategy mode bundles.flatten with
  | error e => rfl
  | ok panes => rfl

theorem builds_combineGrouped (hp : p.graph.Ordered) (h : p.Carries s c x)
    (f : KeyedCombineFn k.Elem v.Elem α o.Elem) (mode : InputWatermark) :
    p.Builds s (do let grouped ← c.groupByKey mode; grouped.combineGrouped (o := o) f) c.strategy
      (x >>= fun bundles => ((groupRows c.strategy mode bundles.flatten).map fun panes =>
        panes.map (reduced f)).map ([·])) := by
  refine (builds_groupByKey hp h mode).bind fun grouped p' hgrown hstrategy hgrouped => ?_
  have hb := builds_map (u := .pair k o) hgrown.ordered hgrouped fun q => (q.1, f.apply q.1 q.2)
  rw [hstrategy] at hb
  refine hb.of_eq ?_
  cases x with
  | error e => rfl
  | ok bundles =>
    simp only [bind, Except.bind]
    cases groupRows c.strategy mode bundles.flatten with
    | error e => rfl
    | ok panes => rfl

theorem builds_combineByKey (hp : p.graph.Ordered) (h : p.Carries s c x)
    {f : KeyedCombineFn k.Elem v.Elem α o.Elem} {inputCoder : Coder v.Elem} {accumCoder : Coder α}
    (hcoder : f.accumulatorCoder p.registry inputCoder = .ok accumCoder) (width : Option Nat)
    (mode : InputWatermark) :
    p.Builds s (c.combineByKey f width mode inputCoder) c.strategy
      (x >>= fun bundles => (combineRows c.strategy f width mode bundles).map ([·])) := by
  refine Builds.begin_bind (builds_accumulatorCoder hcoder) ?_
  cases hlift : c.strategy.allowsLifting with
  | true =>
    simp only [if_true, combineRows, hlift]
    exact builds_combineLifted hp h f width
  | false =>
    simp only [if_false, combineRows, hlift, Bool.false_eq_true]
    exact builds_combineGrouped hp h f mode

variable {n : Nat} {order : Nat → Partition → Partition}

theorem buildsReordered_groupByKey (hn : n ≤ p.graph.nodes.length)
    (horder : ∀ i, Partition.Shuffles (order i)) (hq : (p.reordered n order).graph.Ordered)
    (h : (p.reordered n order).Carries s c x) (mode : InputWatermark) :
    p.BuildsReordered n order s (c.groupByKey mode) c.strategy fun out =>
      ∃ σ : Shuffle (Envelope (k.Elem × List v.Elem)), out =
        ((x >>= fun bundles => groupRows c.strategy mode bundles.flatten).map σ.apply).map ([·]) := by
  refine buildsReordered_whole (u := .pair k (.list v))
    (y := fun bundles => groupRows c.strategy mode bundles.flatten) hn horder hq h fun bundles => ?_
  rw [allRowsFor_mk]
  simp only [bind, Except.bind]
  cases groupRows c.strategy mode bundles.flatten <;> rfl

/-- A combine by key puts out its rows in some order. -/
theorem buildsReordered_combineByKey (hn : n ≤ p.graph.nodes.length)
    (horder : ∀ i, Partition.Shuffles (order i)) (hq : (p.reordered n order).graph.Ordered)
    (h : (p.reordered n order).Carries s c x) {f : KeyedCombineFn k.Elem v.Elem α o.Elem}
    {inputCoder : Coder v.Elem} {accumCoder : Coder α}
    (hcoder : f.accumulatorCoder p.registry inputCoder = .ok accumCoder) (width : Option Nat)
    (mode : InputWatermark) :
    p.BuildsReordered n order s (c.combineByKey f width mode inputCoder) c.strategy fun out =>
      ∃ σ : Shuffle (Envelope (k.Elem × o.Elem)),
        out = ((x >>= combineRows c.strategy f width mode).map σ.apply).map ([·]) := by
  refine BuildsReordered.begin_bind (builds_accumulatorCoder hcoder) ?_
  cases hlift : c.strategy.allowsLifting with
  | true =>
    rw [show combineRows c.strategy f width mode = _ from
      funext fun bundles => combineRows_lifted hlift f width mode bundles, if_pos rfl]
    refine buildsReordered_whole (u := .pair k o) hn horder hq h fun bundles => ?_
    rw [mapM_rowsFor]
    rfl
  | false =>
    rw [show combineRows c.strategy f width mode = _ from
      funext fun bundles => combineRows_grouped hlift f width mode bundles, if_neg Bool.false_ne_true]
    refine (buildsReordered_groupByKey hn horder hq h mode).bind
      fun grouped p' y hn' hgrown hstrategy hcarries hy => ?_
    obtain ⟨σ, rfl⟩ := hy
    have hmap := buildsReordered_elementwise hn'
      (builds_map (u := .pair k o) hgrown.ordered hcarries fun q => (q.1, f.apply q.1 q.2))
    rw [hstrategy] at hmap
    refine hmap.imp fun out hout => ?_
    subst hout
    -- the panes were put in order before they were reduced
    cases x with
    | error e => exact ⟨default, rfl⟩
    | ok bundles =>
      simp only [bind, Except.bind]
      cases groupRows c.strategy mode bundles.flatten with
      | error e => exact ⟨default, rfl⟩
      | ok panes =>
        obtain ⟨τ, hτ⟩ := Shuffle.exists_of_perm ((σ.perm panes).map (reduced f))
        exact ⟨τ, congrArg (fun rows => Except.ok [rows]) hτ.symm⟩

end Pipeline

/-- The elements of a bundle, tagged with shards. -/
def tagRows (fanout : κ → UInt32) : Bundle → List (Envelope (κ × ν)) →
    List (Envelope (Shard κ ν))
  | _, [] => []
  | b, e :: rest => (tagShard fanout b e).1 :: tagRows fanout (tagShard fanout b e).2 rest

/-- The elements of all bundles, tagged with shards; each bundle has a seed of its own. -/
def tagEach (s : Schedule) (node : Nat) (fanout : κ → UInt32) :
    (bundle : Nat) → List (List (Envelope (κ × ν))) → List (List (Envelope (Shard κ ν)))
  | _, [] => []
  | bundle, rows :: rest =>
    tagRows fanout ⟨bundle, s.seed node bundle⟩ rows :: tagEach s node fanout (bundle + 1) rest

/-- A tagged element is the element it was, hot or cold. -/
def Tagged (e : Envelope (κ × ν)) (e' : Envelope (Shard κ ν)) : Prop :=
  e' = e.withValue (.cold e.value.1 e.value.2) ∨
    ∃ shard, e' = e.withValue (.hot e.value.1 shard e.value.2)

theorem tagged_tagShard (fanout : κ → UInt32) (b : Bundle) (e : Envelope (κ × ν)) :
    Tagged e (tagShard fanout b e).1 := by
  by_cases h : 1 < fanout e.value.1
  · exact .inr ⟨b.shard (fanout e.value.1), by simp only [tagShard, h, if_true]⟩
  · exact .inl (by simp only [tagShard, h, if_false])

theorem tagged_tagRows (fanout : κ → UInt32) (b : Bundle) (rows : List (Envelope (κ × ν))) :
    List.Forall₂ Tagged rows (tagRows fanout b rows) := by
  induction rows generalizing b with
  | nil => exact .nil
  | cons e rest ih => exact .cons (tagged_tagShard fanout b e) (ih _)

theorem tagged_tagEach (s : Schedule) (node : Nat) (fanout : κ → UInt32) (bundle : Nat)
    (bundles : List (List (Envelope (κ × ν)))) :
    List.Forall₂ (List.Forall₂ Tagged) bundles (tagEach s node fanout bundle bundles) := by
  induction bundles generalizing bundle with
  | nil => exact .nil
  | cons rows rest ih => exact .cons (tagged_tagRows ..) (ih _)

theorem forall₂_flatten {β γ : Type} {r : β → γ → Prop} {l : List (List β)} {m : List (List γ)}
    (h : List.Forall₂ (List.Forall₂ r) l m) : List.Forall₂ r l.flatten m.flatten := by
  induction h with
  | nil => exact .nil
  | cons hab _ ih => exact List.rel_append hab ih

/-! ### Combines of hot keys -/

/-- The tagged elements of hot keys, each under its key and shard. -/
def hotRows (rows : List (Envelope (Shard κ ν))) : List (Envelope ((κ × UInt32) × ν)) :=
  rows.flatMap fun e => e.value.hot?.map e.withValue

theorem hotRows_cons (e : Envelope (Shard κ ν)) (rest : List (Envelope (Shard κ ν))) :
    hotRows (e :: rest) = e.value.hot?.map e.withValue ++ hotRows rest := List.flatMap_cons

theorem flatten_hotRows (tagged : List (List (Envelope (Shard κ ν)))) :
    (tagged.map hotRows).flatten = hotRows tagged.flatten := by
  induction tagged with
  | nil => rfl
  | cons rows rest ih =>
    rw [List.map_cons, List.flatten_cons, ih, List.flatten_cons]
    exact List.flatMap_append.symm

/-- The tagged elements of other keys, encoded. -/
def coldRows (coder : Coder (InputOrAccum ν α)) (rows : List (Envelope (Shard κ ν))) :
    Except Fault (List (Envelope (κ × Bytes))) :=
  (rows.mapM (coldBytes coder)).map List.flatten

/-- The orders in which the two stages of a combine of hot keys put out their rows. -/
structure StageOrders (κ ο : Type) where
  first : Shuffle (Envelope ((κ × UInt32) × Except String Bytes))
  second : Shuffle (Envelope (κ × Except String ο))

/-- The results of a combine of hot keys, once the elements are tagged. The order of the first stage
is the one in which the second gets its rows. -/
def combineTagged [DecidableEq κ] (orders : StageOrders κ ο) (strategy : Strategy)
    (f : KeyedCombineFn κ ν α ο) (accumCoder : Coder α) (coder : Coder (InputOrAccum ν α))
    (width : Option Nat) (tagged : List (List (Envelope (Shard κ ν)))) :
    Except Fault (List (Envelope (κ × ο))) := do
  let partials ← (combineRows { strategy with mode := .discarding } (preCombine f coder accumCoder)
    width .elementTime (tagged.map hotRows)).map orders.first.apply
  let hot ← partials.mapM fun e =>
    raiseStaged "hot key pre-combine" (e.withValue (e.value.1.1, e.value.2))
  let cold ← tagged.mapM (coldRows coder)
  let results ← (combineRows strategy (postCombine f coder accumCoder) width .heldUntilEnd
    (hot :: cold)).map orders.second.apply
  results.mapM (raiseStaged "hot key post-combine")

/-- The stages of a combine of hot keys, one after another, give the results. They read the tagged
elements twice, and what is left to see is the order in which they may fail. -/
theorem stages_eq_combineTagged [DecidableEq κ] (orders : StageOrders κ ο) (strategy : Strategy)
    (f : KeyedCombineFn κ ν α ο) (accumCoder : Coder α) (coder : Coder (InputOrAccum ν α))
    (width : Option Nat) (tagged : Except Fault (List (List (Envelope (Shard κ ν))))) :
    ((((([((((tagged.map fun parts => parts.map hotRows) >>=
        combineRows { strategy with mode := .discarding } (preCombine f coder accumCoder) width
          .elementTime).map orders.first.apply).map ([·]) >>= fun bundles =>
        bundles.mapM fun rows => rows.mapM fun e =>
          raiseStaged "hot key pre-combine" (e.withValue (e.value.1.1, e.value.2))),
      tagged >>= fun parts => parts.mapM (coldRows coder)].mapM id).map List.flatten) >>=
        combineRows strategy (postCombine f coder accumCoder) width .heldUntilEnd).map
          orders.second.apply).map ([·]) >>= fun bundles =>
        bundles.mapM fun rows => rows.mapM (raiseStaged "hot key post-combine")) =
      (tagged >>= combineTagged orders strategy f accumCoder coder width).map ([·]) := by
  cases tagged with
  | error e => rfl
  | ok parts =>
    simp only [Except.map, bind, Except.bind, combineTagged]
    cases combineRows { strategy with mode := .discarding } (preCombine f coder accumCoder) width
        .elementTime (parts.map hotRows) with
    | error e => rfl
    | ok partials =>
      simp only [mapM_singleton]
      cases (orders.first.apply partials).mapM fun e =>
          raiseStaged "hot key pre-combine" (e.withValue (e.value.1.1, e.value.2)) with
      | error e => rfl
      | ok hot =>
        cases parts.mapM (coldRows coder) with
        | error e => rfl
        | ok cold =>
          have hjoin : [Except.map ([·]) (.ok hot), .ok cold].mapM id =
            (.ok [[hot], cold] : Except Fault _) := rfl
          have hflat : [[hot], cold].flatten = hot :: cold := by simp
          simp only [hjoin, hflat]
          cases combineRows strategy (postCombine f coder accumCoder) width .heldUntilEnd
              (hot :: cold) with
          | error e => rfl
          | ok results => exact mapM_singleton _ (orders.second.apply results)

theorem expandRows_tagShard {k v : ElemType} (fanout : k.Elem → UInt32) (b : Bundle)
    (rows : Rows (.pair k v)) :
    Collection.expandRows (t := .pair k v) (u := .shard k v)
      (fun b e => .ok ([(tagShard fanout b e).1], (tagShard fanout b e).2)) b rows =
      .ok (tagRows fanout b rows) := by
  induction rows generalizing b with
  | nil => rfl
  | cons e rest ih =>
    rw [Collection.expandRows]
    simp only [bind, Except.bind, ih]
    rfl

theorem expandRows_coldBytes {k v : ElemType} (coder : Coder (InputOrAccum v.Elem α))
    (b : Bundle) (rows : Rows (.shard k v)) :
    Collection.expandRows (t := .shard k v) (u := .pair k .bytes)
      (fun b e => (coldBytes coder e).map (·, b)) b rows =
      coldRows coder rows := by
  induction rows generalizing b with
  | nil => rfl
  | cons e rest ih =>
    rw [Collection.expandRows, coldRows, List.mapM_cons]
    cases he : coldBytes coder e with
    | error fault => rfl
    | ok out =>
      have hrest := ih b
      rw [coldRows] at hrest
      simp only [Except.map, bind, Except.bind] at hrest ⊢
      rw [hrest]
      cases rest.mapM (coldBytes coder) with
      | error fault => rfl
      | ok others => rfl

namespace Pipeline

variable {k v o t : ElemType} {p : Pipeline} {s : Schedule} {c : Collection (.pair k v)}

theorem runEach_tagShard (s : Schedule) (node : Nat) (fanout : k.Elem → UInt32) (bundle : Nat)
    (bundles : List (Rows (.pair k v))) :
    runEach (t := .pair k v) (u := .shard k v) s node
      (Collection.expandRows fun b e =>
        .ok ([(tagShard fanout b e).1], (tagShard fanout b e).2)) bundle bundles =
      .ok (tagEach s node fanout bundle bundles) := by
  induction bundles generalizing bundle with
  | nil => rfl
  | cons rows rest ih =>
    rw [runEach, expandRows_tagShard, ih]
    rfl

theorem runEach_coldBytes (s : Schedule) (node : Nat) (coder : Coder (InputOrAccum v.Elem α))
    (bundle : Nat) (bundles : List (Rows (.shard k v))) :
    runEach (t := .shard k v) (u := .pair k .bytes) s node
      (Collection.expandRows fun b e => (coldBytes coder e).map (·, b)) bundle bundles =
      bundles.mapM (coldRows coder) := by
  have hrows : (Collection.expandRows (t := .shard k v) (u := .pair k .bytes) fun b e =>
      (coldBytes coder e).map (·, b)) = fun _ rows => coldRows coder rows := by
    funext b rows
    exact expandRows_coldBytes coder b rows
  rw [hrows]
  exact runEach_const (t := .shard k v) (u := .pair k .bytes) s node (coldRows coder) bundle bundles

theorem Carries.withStrategy {d : Collection t} {x : Except Fault (List (Rows t))}
    (h : p.Carries s d x) (strategy : Strategy) : p.Carries s { d with strategy } x :=
  ⟨h.inside, h.output⟩

variable {n : Nat} {order : Nat → Partition → Partition}

/-- A combine of hot keys carries what becomes of the tagged elements, for some orders of its
stages. -/
theorem buildsReordered_combineHotKeys [DecidableEq k.Elem] (hn : n ≤ p.graph.nodes.length)
    (horder : ∀ i, Partition.Shuffles (order i)) (hq : (p.reordered n order).graph.Ordered)
    {x : Except Fault (List (Rows (.pair k v)))} (h : (p.reordered n order).Carries s c x)
    {f : KeyedCombineFn k.Elem v.Elem α o.Elem} {inputCoder : Coder v.Elem} {accumCoder : Coder α}
    (hcoder : f.accumulatorCoder p.registry inputCoder = .ok accumCoder)
    (fanout : k.Elem → UInt32) (width : Option Nat) :
    p.BuildsReordered n order s (c.combineHotKeys f fanout width inputCoder) c.strategy fun out =>
      ∃ orders, out = (x >>= fun bundles => combineTagged orders c.strategy f accumCoder
        (inputCoder.inputOrAccum accumCoder) width
        (tagEach s p.graph.nodes.length fanout 0 bundles)).map ([·]) := by
  refine BuildsReordered.begin_bind (builds_accumulatorCoder hcoder) ?_
  have htag := builds_perBundle (u := .shard k v) hq h (Collection.expandRows fun b e =>
    .ok ([(tagShard fanout b e).1], (tagShard fanout b e).2))
  have htagEach : (x >>= runEach (t := .pair k v) (u := .shard k v) s p.graph.nodes.length
      (Collection.expandRows fun b e => .ok ([(tagShard fanout b e).1], (tagShard fanout b e).2)) 0) =
      x.map (tagEach s p.graph.nodes.length fanout 0) := by
    cases x with
    | error e => rfl
    | ok bundles => exact runEach_tagShard ..
  rw [length_reordered, htagEach] at htag
  refine (buildsReordered_elementwise hn htag).bind
    fun tagged p₁ _ n₁ grown₁ strategy₁ tagged₁ heq => ?_
  subst heq
  generalize inputCoder.inputOrAccum accumCoder = coder
  have hhot := builds_flatMap (u := .pair (.pair k .word32) v) grown₁.ordered tagged₁ Shard.hot?
  refine (buildsReordered_elementwise n₁ hhot).bind
    fun hot p₂ _ n₂ grown₂ strategy₂ hot₂ heq => ?_
  subst heq
  have hpre : (preCombine f coder accumCoder).accumulatorCoder p₂.registry v.coder =
    .ok accumCoder := rfl
  have hpartials := buildsReordered_combineByKey (k := .pair k .word32) (o := .staged .bytes)
    n₂ horder grown₂.ordered (hot₂.withStrategy { hot.strategy with mode := .discarding }) hpre width
    .elementTime
  refine hpartials.bind fun partials p₃ _ n₃ grown₃ strategy₃ partials₃ heq => ?_
  obtain ⟨first, rfl⟩ := heq
  have hbytes := builds_mapEnvelopes (u := .pair k .bytes) grown₃.ordered partials₃ fun e =>
    raiseStaged "hot key pre-combine" (e.withValue (e.value.1.1, e.value.2))
  refine (buildsReordered_elementwise n₃ hbytes).bind
    fun hotBytes p₄ _ n₄ grown₄ strategy₄ hotBytes₄ heq => ?_
  subst heq
  have tagged₄ := tagged₁.grown grown₁.ordered ((grown₂.trans grown₃).trans grown₄)
  have hcold := builds_perBundle (u := .pair k .bytes) grown₄.ordered tagged₄
    (Collection.expandRows fun b e => (coldBytes coder e).map (·, b))
  rw [show runEach (t := .shard k v) (u := .pair k .bytes) s _ _ 0 =
    fun parts => parts.mapM (coldRows coder) from funext fun parts => runEach_coldBytes ..] at hcold
  refine (buildsReordered_elementwise n₄ hcold).bind
    fun cold p₅ _ n₅ grown₅ strategy₅ cold₅ heq => ?_
  subst heq
  have hotBytes₅ := (hotBytes₄.grown grown₄.ordered grown₅).withStrategy c.strategy
  have hunion := builds_union grown₅.ordered (.cons hotBytes₅ (.cons cold₅ .nil))
  refine (buildsReordered_union n₅ hunion rfl).bind
    fun joined p₆ _ n₆ grown₆ strategy₆ joined₆ heq => ?_
  subst heq
  have hpost : (postCombine f coder accumCoder).accumulatorCoder p₆.registry
    (ElemType.coder .bytes) = .ok accumCoder.staged := rfl
  have hresults := buildsReordered_combineByKey (k := k) (v := .bytes) (o := .staged o)
    n₆ horder grown₆.ordered joined₆ hpost width .heldUntilEnd
  refine hresults.bind fun results p₇ _ n₇ grown₇ strategy₇ results₇ heq => ?_
  obtain ⟨second, rfl⟩ := heq
  have hraise := buildsReordered_elementwise n₇ (builds_mapEnvelopes (u := .pair k o)
    grown₇.ordered results₇ (raiseStaged "hot key post-combine"))
  rw [strategy₇, show joined.strategy = c.strategy from strategy₆, strategy₂, strategy₁] at hraise
  refine hraise.imp fun out hout => ?_
  refine ⟨⟨first, second⟩, hout.trans ((stages_eq_combineTagged ⟨first, second⟩ ..).trans ?_)⟩
  cases x <;> rfl

end Pipeline

/-! ### Combines as they are built -/

section

variable {k v o : ElemType} [DecidableEq k.Elem] {p : Pipeline} {s : Schedule} {q : PerKey k v o α}
  {x : Except Fault (List (Rows (.pair k v)))} {accumCoder : Coder α}

/-- A combine of spread keys collects, in any order, what becomes of the tagged elements. -/
theorem PerKey.collect_spread (hp : p.graph.Ordered) (h : p.Carries s q.input x)
    (hcoder : q.fn.accumulatorCoder p.registry q.inputCoder = .ok accumCoder)
    (fanout : k.Elem → UInt32) :
    ∃ c p', (q.withFanoutFn fanout).apply.begin p = (.ok c, p') ∧
      ∀ order, (∀ i, Partition.Shuffles (order i)) → ∃ orders,
        (p'.reordered p.graph.nodes.length order).collect s c.node (.pair k o) =
          x >>= fun bundles => combineTagged orders q.input.strategy q.fn accumCoder
            (q.inputCoder.inputOrAccum accumCoder) q.width
            (tagEach s p.graph.nodes.length fanout 0 bundles) := by
  obtain ⟨c, p', hb, hcollect⟩ := Pipeline.exists_collected fun order horder => by
    have hsame : p.reordered p.graph.nodes.length order = p := Pipeline.reordered_of_le (Nat.le_refl _)
    exact Pipeline.buildsReordered_combineHotKeys (Nat.le_refl _) horder (hsame.symm ▸ hp)
      (hsame.symm ▸ h) hcoder fanout q.width
  refine ⟨c, p', hb, fun order horder => ?_⟩
  obtain ⟨_, hrun, orders, rfl⟩ := hcollect order horder
  refine ⟨orders, hrun.trans (map_flatten_singleton _)⟩

/-- A combine by key without spreading collects, in any order, what becomes of the elements. -/
theorem PerKey.collect_plain (hp : p.graph.Ordered) (h : p.Carries s q.input x)
    (hcoder : q.fn.accumulatorCoder p.registry q.inputCoder = .ok accumCoder) :
    ∃ c p', { q with fanout := none }.apply.begin p = (.ok c, p') ∧
      ∀ order, (∀ i, Partition.Shuffles (order i)) → ∃ σ : Shuffle (Envelope (k.Elem × o.Elem)),
        (p'.reordered p.graph.nodes.length order).collect s c.node (.pair k o) =
          (x >>= combineRows q.input.strategy q.fn q.width .elementTime).map σ.apply := by
  obtain ⟨c, p', hb, hcollect⟩ := Pipeline.exists_collected fun order horder => by
    have hsame : p.reordered p.graph.nodes.length order = p := Pipeline.reordered_of_le (Nat.le_refl _)
    exact Pipeline.buildsReordered_combineByKey (Nat.le_refl _) horder (hsame.symm ▸ hp)
      (hsame.symm ▸ h) hcoder q.width .elementTime
  refine ⟨c, p', hb, fun order horder => ?_⟩
  obtain ⟨_, hrun, σ, rfl⟩ := hcollect order horder
  exact ⟨σ, hrun.trans (map_flatten_singleton _)⟩

end

end EventTime
