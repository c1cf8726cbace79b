import Mathlib.Algebra.BigOperators.Group.Finset.Piecewise
import EventTime.Proofs.Combine.KeyPanes

/-!
# Spreading hot keys where panes accumulate

Under an early firing trigger the first combine of a spread key fires many panes for every shard. It
discards what it has fired, so these partial results are disjoint and together stand for every
listing of the shard once. The second combine accumulates: it folds partial results that it has
folded before again, but into a new pane. So its newest pane has folded each of them once, and
carries the same output as the newest pane of a combine without shards.
-/

namespace EventTime

variable {κ ν α ο M : Type}

/-- An element of a shard, under the key alone. -/
def offShard (e : Envelope ((κ × UInt32) × M)) : Envelope (κ × M) :=
  e.withValue (e.value.1.1, e.value.2)

section

variable [DecidableEq κ] [AddCommMonoid M] {mult : Window → List Window → ℕ}

/-- What a key weighs is what its shards weigh together. -/
theorem weightAt_offShard (key : κ) (w : Window) {rows : List (Envelope ((κ × UInt32) × M))}
    {shards : Finset (κ × UInt32)} (h : ∀ e ∈ rows, e.value.1 ∈ shards) :
    weightAt mult key w (rows.map offShard) =
      ∑ c ∈ shards, if c.1 = key then weightAt mult c w rows else 0 := by
  induction rows with
  | nil => simp
  | cons e rest ih =>
    have hterm : ∀ c : κ × UInt32, (if c.1 = key then weightAt mult c w (e :: rest) else 0) =
        (if e.value.1 = c then if c.1 = key then mult w e.windows • e.value.2 else 0 else 0) +
          if c.1 = key then weightAt mult c w rest else 0 := by
      intro c
      rw [weightAt_cons]
      by_cases hc : c.1 = key
      · simp [hc]
      · simp [hc]
    rw [List.map_cons, weightAt_cons, ih fun d hd => h d (List.mem_cons_of_mem _ hd),
      Finset.sum_congr rfl fun c _ => hterm c, Finset.sum_add_distrib, Finset.sum_ite_eq,
      if_pos (h e (List.mem_cons_self ..))]
    rfl

theorem weightAt_offShard_congr (key : κ) (w : Window)
    {rows rows' : List (Envelope ((κ × UInt32) × M))}
    (h : ∀ c, weightAt mult c w rows = weightAt mult c w rows') :
    weightAt mult key w (rows.map offShard) = weightAt mult key w (rows'.map offShard) := by
  have hmem : ∀ e ∈ rows ++ rows', e.value.1 ∈ ((rows ++ rows').map (·.value.1)).toFinset :=
    fun e he => List.mem_toFinset.mpr (List.mem_map_of_mem he)
  rw [weightAt_offShard key w fun e he => hmem e (List.mem_append_left _ he),
    weightAt_offShard key w fun e he => hmem e (List.mem_append_right _ he)]
  simp only [h]

end

variable {coder : Coder (InputOrAccum ν α)} {accumCoder : Coder α} {f : KeyedCombineFn κ ν α ο}
  {R : κ → α → Multiset ν → Prop}

/-- The partial result of a group weighs what the group weighs. -/
theorem partials_weigh (accumCoder : Coder α) (hf : f.TracksBag R)
    (hcoder : ∀ {key a m}, R key a m →
      ∃ bytes, coder.encode (.accum a) = .ok bytes ∧ Denotes coder R key bytes m)
    (groups : List (Envelope ((κ × UInt32) × List ν))) :
    ∃ hot, (groups.map (reduced (preCombine f coder accumCoder))).mapM (fun e =>
        raiseStaged "hot key pre-combine" (e.withValue (e.value.1.1, e.value.2))) = .ok hot ∧
      List.Forall₂ (Weighs coder R) hot ((groups.map groupWeight).map offShard) := by
  have hraise : ∀ g e, e = reduced (preCombine f coder accumCoder) g →
      ∃ d, raiseStaged "hot key pre-combine" (e.withValue (e.value.1.1, e.value.2)) = .ok d ∧
        Weighs coder R d (offShard (groupWeight g)) := by
    rintro g _ rfl
    have htracks : (preCombine f coder accumCoder).TracksBag fun key a m => R key.1 a m :=
      preCombine_tracks hf
    obtain ⟨bytes, hencode, hdenotes⟩ := hcoder (htracks.tracks.addAll g.value.1 g.value.2)
    have happly : (preCombine f coder accumCoder).apply g.value.1 g.value.2 = .ok bytes := by
      show staged (coder.encode _) = _
      rw [hencode]
      rfl
    refine ⟨g.withValue (g.value.1.1, bytes), ?_, bytes, rfl, hdenotes⟩
    simp only [raiseStaged, reduced, Envelope.withValue, happly]
  have hgroups : List.Forall₂ (fun g e => e = reduced (preCombine f coder accumCoder) g) groups
      (groups.map (reduced (preCombine f coder accumCoder))) :=
    List.forall₂_map_right_iff.mpr (List.forall₂_same.mpr fun _ _ => rfl)
  obtain ⟨hot, hmap, hall⟩ := mapM_of_forall₂ hgroups hraise
  refine ⟨hot, hmap, ?_⟩
  rw [List.map_map, List.forall₂_map_right_iff]
  exact hall.flip

theorem raiseStaged_ok {β : Type} {activity : String} {e : Envelope (κ × Except String β)}
    {d : Envelope (κ × β)} (h : raiseStaged activity e = .ok d) :
    d.value.1 = e.value.1 ∧ d.windows = e.windows ∧ d.pane = e.pane := by
  obtain ⟨b, -, rfl⟩ := raiseStaged_eq_ok h
  exact ⟨rfl, rfl, rfl⟩

theorem exists_rel {β γ : Type} {r : β → γ → Prop} {l : List β} (h : ∀ b ∈ l, ∃ c, r b c) :
    ∃ cs, Multiset.Rel r (l : Multiset β) cs := by
  induction l with
  | nil => exact ⟨0, .zero⟩
  | cons b rest ih =>
    obtain ⟨c, hc⟩ := h b (List.mem_cons_self ..)
    obtain ⟨cs, hcs⟩ := ih fun d hd => h d (List.mem_cons_of_mem _ hd)
    exact ⟨c ::ₘ cs, .cons hc hcs⟩

/-- The result of a group of encodings is the output for the inputs that they denote. -/
theorem raise_group (hf : f.TracksBag R) (e : Envelope (κ × List Bytes))
    {inputs : Multiset (Multiset ν)}
    (h : Multiset.Rel (Denotes coder R e.value.1) (e.value.2 : Multiset Bytes) inputs) :
    ∃ a, R e.value.1 a inputs.sum ∧ raiseStaged "hot key post-combine"
      (reduced (postCombine f coder accumCoder) e) =
        .ok (e.withValue (e.value.1, f.extract e.value.1 a)) := by
  have htracks : (postCombine f coder accumCoder).TracksBag (StagedFor coder R) :=
    postCombine_tracks hf
  obtain ⟨a, hacc, ha⟩ := htracks.tracks.addAll e.value.1 e.value.2 inputs h
  have happly : (postCombine f coder accumCoder).apply e.value.1 e.value.2 =
      .ok (f.extract e.value.1 a) := by
    show Except.map _ ((postCombine f coder accumCoder).addAll _ _ _) = _
    rw [hacc]
    rfl
  refine ⟨a, ha, ?_⟩
  simp only [raiseStaged, reduced, Envelope.withValue, happly]

theorem raise_groups (accumCoder : Coder α) (hf : f.TracksBag R)
    {groups : List (Envelope (κ × List Bytes))}
    (h : ∀ g ∈ groups, ∀ v ∈ g.value.2, ∃ m, Denotes coder R g.value.1 v m) :
    ∃ out, (groups.map (reduced (postCombine f coder accumCoder))).mapM
        (raiseStaged "hot key post-combine") = .ok out ∧
      List.Forall₂ (fun g d => raiseStaged "hot key post-combine"
        (reduced (postCombine f coder accumCoder) g) = .ok d) groups out := by
  have hmembers : List.Forall₂
      (fun g e => g ∈ groups ∧ e = reduced (postCombine f coder accumCoder) g) groups
      (groups.map (reduced (postCombine f coder accumCoder))) :=
    List.forall₂_map_right_iff.mpr (List.forall₂_same.mpr fun _ hg => ⟨hg, rfl⟩)
  refine mapM_of_forall₂ hmembers ?_
  rintro g _ ⟨hg, rfl⟩
  obtain ⟨ms, hms⟩ := exists_rel (h g hg)
  obtain ⟨a, -, hd⟩ := raise_group (f := f) hf g hms
  exact ⟨_, hd, hd⟩

theorem KeyedCombineFn.MultisetContract.apply_congr (hf : f.MultisetContract R) (key : κ)
    {xs ys : List ν} (h : (xs : Multiset ν) = ys) : f.apply key xs = f.apply key ys := by
  have hx := hf.toTracksBag.tracks.addAll key xs
  rw [h] at hx
  exact hf.extract hx (hf.toTracksBag.tracks.addAll key ys)

/-! ### Both ways of combining -/

section

variable [DecidableEq κ] {s : Strategy} {bundles : List (List (Envelope (κ × ν)))}

/-- Every key and window that occurs has a newest element, and this one carries the output for all
values of the key in the window. -/
def NewestHoldAll (out : List (Envelope (κ × ο))) (f : KeyedCombineFn κ ν α ο)
    (rows : List (Envelope (κ × ν))) : Prop :=
  ∀ key w, valuesAt key w rows ≠ [] →
    ∃ e, NewestPane out key w e ∧ e.value.2 = f.apply key (valuesAt key w rows)

omit [DecidableEq κ] in
theorem NewestPane.of_perm {rows rows' : List (Envelope (κ × ο))} {key : κ} {w : Window}
    {e : Envelope (κ × ο)} (h : NewestPane rows key w e) (hperm : rows'.Perm rows) :
    NewestPane rows' key w e where
  mem := hperm.mem_iff.mpr h.mem
  key_eq := h.key_eq
  windows_eq := h.windows_eq
  newest d hd := h.newest d (hperm.mem_iff.mp hd)

theorem NewestHoldAll.of_perm {out out' : List (Envelope (κ × ο))} {rows : List (Envelope (κ × ν))}
    (h : NewestHoldAll out f rows) (hperm : out'.Perm out) : NewestHoldAll out' f rows := by
  intro key w hne
  obtain ⟨e, he, hvalue⟩ := h key w hne
  exact ⟨e, he.of_perm hperm, hvalue⟩

theorem combineRows_newest (hf : f.MultisetContract R) (hmode : s.mode = .accumulating)
    (hs : s.KeepsFiring) (hin : Grouper.InTime s .elementTime bundles.flatten)
    (width : Option Nat) :
    ∃ out, combineRows s f width .elementTime bundles = .ok out ∧
      NewestHoldAll out f bundles.flatten := by
  obtain ⟨groups, hgroups, -, hnewest⟩ := groupRows_newest hmode hs hin
  refine ⟨groups.map (reduced f), ?_, fun key w hne => ?_⟩
  · rw [combineRows_grouped hs.notLifted, hgroups]
    rfl
  · obtain ⟨e, he, hvalues⟩ := hnewest key w hne
    refine ⟨reduced f e, he.image (fun x y => y = reduced f x) ?_ ?_ ?_ ?_ rfl, ?_⟩
    · rintro x _ rfl
      exact ⟨rfl, rfl, rfl⟩
    · rintro x _ _ rfl rfl
      rfl
    · intro y hy
      obtain ⟨x, hx, rfl⟩ := List.mem_map.mp hy
      exact ⟨x, hx, rfl⟩
    · exact List.mem_map_of_mem he.mem
    · show f.apply e.value.1 e.value.2 = _
      rw [he.key_eq]
      exact hf.apply_congr key hvalues

theorem weightAt_partials {rows : List (Envelope (κ × ν))} {tagged : List (Envelope (Shard κ ν))}
    (htagged : List.Forall₂ Tagged rows tagged) {groups : List (Envelope ((κ × UInt32) × List ν))}
    (hgroups : ∀ c w, weightAt listings c w (groups.map groupWeight) =
      (valuesAt c w (hotRows tagged) : Multiset ν)) (key : κ) (w : Window) :
    weightAt listings key w ((groups.map groupWeight).map offShard ++
      tagged.flatMap coldWeight) = (valuesAt key w rows : Multiset ν) := by
  have hhot : (hotRows tagged).map weighingHot =
      ((hotRows tagged).map weighing).map offShard := by
    rw [List.map_map]
    rfl
  rw [coe_valuesAt, weightAt_tagged key w htagged, weightAt_append, hhot]
  congr 1
  exact weightAt_offShard_congr key w fun c => by rw [hgroups, coe_valuesAt]

/-- What travels to the second combine denotes in every window the values of the key there. -/
theorem rel_valuesAt {joined : List (Envelope (κ × Bytes))}
    {weights : List (Envelope (κ × Multiset ν))} {rows : List (Envelope (κ × ν))}
    (hjoined : List.Forall₂ (Weighs coder R) joined weights)
    (hweights : ∀ key w, weightAt listings key w weights = (valuesAt key w rows : Multiset ν))
    (key : κ) (w : Window) :
    ∃ inputs, Multiset.Rel (Denotes coder R key) (valuesAt key w joined : Multiset Bytes) inputs ∧
      inputs.sum = (valuesAt key w rows : Multiset ν) := by
  refine ⟨weightAt listings key w (weights.map weighing), ?_, ?_⟩
  · rw [coe_valuesAt]
    exact rel_weighing hjoined key w
  · rw [sum_weighing, hweights]

theorem joined_newest (accumCoder : Coder α) (hf : f.MultisetContract R)
    (hmode : s.mode = .accumulating) (hs : s.KeepsFiring) (width : Option Nat)
    {joined : List (List (Envelope (κ × Bytes)))} {rows : List (Envelope (κ × ν))}
    (hrel : ∀ key w, ∃ inputs, Multiset.Rel (Denotes coder R key)
      (valuesAt key w joined.flatten : Multiset Bytes) inputs ∧
        inputs.sum = (valuesAt key w rows : Multiset ν)) :
    ∃ results out, combineRows s (postCombine f coder accumCoder) width .heldUntilEnd joined =
        .ok results ∧
      results.mapM (raiseStaged "hot key post-combine") = .ok out ∧ NewestHoldAll out f rows := by
  have hin : Grouper.InTime s .heldUntilEnd joined.flatten := nofun
  obtain ⟨groups, hgroups, hvalues, hnewest⟩ := groupRows_newest hmode hs hin
  -- every pane of a key, not only the newest, holds encodings under the key
  have hdenoted : ∀ g ∈ groups, ∀ v ∈ g.value.2, ∃ m, Denotes coder R g.value.1 v m := by
    intro g hg v hv
    obtain ⟨w, hsub⟩ := hvalues g hg
    obtain ⟨inputs, hinputs, -⟩ := hrel g.value.1 w
    obtain ⟨m, -, hm⟩ :=
      Multiset.exists_mem_of_rel_of_mem hinputs (Multiset.mem_coe.mpr (hsub v hv))
    exact ⟨m, hm⟩
  obtain ⟨out, hout, hall⟩ := raise_groups accumCoder hf.toTracksBag hdenoted
  refine ⟨_, out, ?_, hout, fun key w hne => ?_⟩
  · rw [combineRows_grouped hs.notLifted, hgroups]
    rfl
  · obtain ⟨inputs, hinputs, hsum⟩ := hrel key w
    have hoccurs : valuesAt key w joined.flatten ≠ [] := by
      intro hnil
      rw [hnil, Multiset.coe_nil, Multiset.rel_zero_left] at hinputs
      rw [hinputs, Multiset.sum_zero] at hsum
      exact hne ((Multiset.coe_eq_zero _).mp hsum.symm)
    obtain ⟨g, hg, hgvalues⟩ := hnewest key w hoccurs
    obtain ⟨d, hd, hgd⟩ := exists_mem_right hall hg.mem
    refine ⟨d, hg.image (fun x y => raiseStaged "hot key post-combine"
      (reduced (postCombine f coder accumCoder) x) = .ok y) (fun x y hxy => raiseStaged_ok hxy)
      (fun hxy hxz => Except.ok.inj (hxy.symm.trans hxz)) (fun y hy => exists_mem_left hall hy) hd
      hgd, ?_⟩
    rw [← hgvalues, ← hg.key_eq] at hinputs
    obtain ⟨a, ha, hraise⟩ := raise_group (f := f) hf.toTracksBag g hinputs
    rw [← Except.ok.inj (hraise.symm.trans hgd)]
    show f.extract g.value.1 a = _
    rw [hsum, hg.key_eq] at ha
    rw [hg.key_eq]
    exact hf.extract ha (hf.toTracksBag.tracks.addAll key _)

omit [DecidableEq κ] in
theorem Grouper.InTime.hotRows {rows : List (Envelope (κ × ν))} {tagged : List (Envelope (Shard κ ν))}
    (h : InTime s .elementTime rows) (htagged : List.Forall₂ Tagged rows tagged)
    (mode : AccumulationMode) :
    InTime { s with mode := mode } .elementTime (hotRows tagged) := by
  intro _ d hd
  obtain ⟨e, he, -, hwindows, htime⟩ := exists_of_mem_hotRows htagged hd
  rw [hwindows, htime]
  exact h rfl e he

/-- With spread keys, too, the newest pane carries the output for all values. -/
theorem combineTagged_newest (orders : StageOrders κ ο) (hf : f.MultisetContract R)
    (hmode : s.mode = .accumulating) (hs : s.KeepsFiring)
    (hin : Grouper.InTime s .elementTime bundles.flatten) {inputCoder : Coder ν}
    (hacc : accumCoder.Keeps R) (width : Option Nat)
    {tagged : List (List (Envelope (Shard κ ν)))}
    (htagged : List.Forall₂ (List.Forall₂ Tagged) bundles tagged)
    (hcoldTrips : ColdRoundTrip inputCoder tagged.flatten) :
    ∃ out, combineTagged orders s f accumCoder (inputCoder.inputOrAccum accumCoder) width tagged =
        .ok out ∧ NewestHoldAll out f bundles.flatten := by
  have hflat : List.Forall₂ Tagged bundles.flatten tagged.flatten := forall₂_flatten htagged
  have hhot := hin.hotRows hflat .discarding
  obtain ⟨groups, hgroups, hweights⟩ := weightAt_groups rfl (hs.withMode .discarding) hhot
  have hpartials : combineRows { s with mode := .discarding } (preCombine f
      (inputCoder.inputOrAccum accumCoder) accumCoder) width .elementTime (tagged.map hotRows) =
      .ok (groups.map (reduced (preCombine f (inputCoder.inputOrAccum accumCoder)
        accumCoder))) := by
    rw [combineRows_grouped (hs.withMode .discarding).notLifted, flatten_hotRows, hgroups]
    rfl
  -- the first stage puts out its partial results in some order, and so they weigh the same
  obtain ⟨_, hfirst, hotWeigh⟩ := partials_weigh accumCoder hf.toTracksBag
    (fun ha => denotes_accum inputCoder hacc ha) groups
  obtain ⟨hot, hhotOk, hperm⟩ := mapM_of_perm (orders.first.perm _) hfirst
  obtain ⟨weights, hotWeigh', hweightsPerm⟩ := List.perm_comp_forall₂ hperm hotWeigh
  obtain ⟨cold, hcold, coldWeigh⟩ := cold_weigh accumCoder R hcoldTrips
  have hjoined : List.Forall₂ (Weighs (inputCoder.inputOrAccum accumCoder) R)
      (hot :: cold).flatten (weights ++ tagged.flatten.flatMap coldWeight) := by
    rw [List.flatten_cons]
    exact List.rel_append hotWeigh' coldWeigh
  have hall : ∀ key w, weightAt listings key w (weights ++ tagged.flatten.flatMap coldWeight) =
      (valuesAt key w bundles.flatten : Multiset ν) := by
    intro key w
    rw [weightAt_perm key w (hweightsPerm.append_right _)]
    exact weightAt_partials hflat hweights key w
  obtain ⟨results, out, hresults, hout, hnewest⟩ := joined_newest accumCoder hf hmode hs width
    (rel_valuesAt hjoined hall)
  obtain ⟨out', hout', hperm'⟩ := mapM_of_perm (orders.second.perm results) hout
  refine ⟨out', ?_, hnewest.of_perm hperm'⟩
  simp only [combineTagged, bind, Except.bind, Except.map, hpartials, hhotOk, hcold, hresults, hout']

end

/-! ### The whole pipeline -/

variable {k v o : ElemType} [DecidableEq k.Elem]

/-- Where windows never merge, panes accumulate and the trigger repeats for ever, spreading keys over
shards does not fold an element twice: the newest pane of every key and window carries the output for
exactly the values of the key in the window, as it does without shards. -/
theorem fanout_newest_pane {p : Pipeline} (hp : p.graph.Ordered) {s : Schedule}
    {q : PerKey k v o α} {bundles : List (Rows (.pair k v))}
    (hin : p.bundles s q.input = .ok bundles)
    (hfn : q.input.strategy.windowFn.nonMerging = true)
    (hmode : q.input.strategy.mode = .accumulating) {t : Trigger}
    (htrigger : q.input.strategy.trigger = .repeatedly t) (ht : t.isBuiltIn = true)
    (htime : ∀ e ∈ bundles.flatten, e.timestamp < maxTime ∧
      ∀ w ∈ e.windows, e.timestamp ≤ q.input.strategy.expiry w) {accumCoder : Coder α}
    (hcoder : q.fn.accumulatorCoder p.registry q.inputCoder = .ok accumCoder)
    {R : k.Elem → α → Multiset v.Elem → Prop} (hf : q.fn.MultisetContract R)
    (hinputs : ∀ e ∈ bundles.flatten, q.inputCoder.RoundTrips e.value.2)
    (haccums : accumCoder.Keeps R) (fanout : k.Elem → UInt32) :
    ∃ c p₁ c' p₂,
      (q.withFanoutFn fanout).apply.begin p = (.ok c, p₁) ∧
      { q with fanout := none }.apply.begin p = (.ok c', p₂) ∧
      ∀ order order', (∀ i, Partition.Shuffles (order i)) → (∀ i, Partition.Shuffles (order' i)) →
        ∃ spread plain,
          (p₁.reordered p.graph.nodes.length order).collect s c.node (.pair k o) = .ok spread ∧
          (p₂.reordered p.graph.nodes.length order').collect s c'.node (.pair k o) = .ok plain ∧
          ∀ key w, (∃ e ∈ bundles.flatten, e.value.1 = key ∧ w ∈ e.windows) →
            ∃ e e', NewestPane spread key w e ∧ NewestPane plain key w e' ∧
              e.value.2 = q.fn.apply key (valuesAt key w bundles.flatten) ∧
              e'.value.2 = q.fn.apply key (valuesAt key w bundles.flatten) := by
  have hs := Strategy.keepsFiring_of_repeatedly hfn htrigger ht
  have hcarries := Pipeline.carries_of_bundles hp hin
  have htagged := tagged_tagEach s p.graph.nodes.length fanout 0 bundles
  obtain ⟨c, p₁, hbuild, hcollect⟩ := PerKey.collect_spread hp hcarries hcoder fanout
  obtain ⟨c', p₂, hbuild', hcollect'⟩ := PerKey.collect_plain hp hcarries hcoder
  refine ⟨c, p₁, c', p₂, hbuild, hbuild', fun order order' horder horder' => ?_⟩
  obtain ⟨orders, hrun⟩ := hcollect order horder
  obtain ⟨σ, hrun'⟩ := hcollect' order' horder'
  obtain ⟨spread, hspread, hnewest⟩ := combineTagged_newest orders hf hmode hs (fun _ => htime)
    haccums q.width htagged (coldRoundTrip_of_tagged (forall₂_flatten htagged) hinputs)
  obtain ⟨plain, hplain, hnewest'⟩ := combineRows_newest hf hmode hs (fun _ => htime) q.width
  refine ⟨spread, σ.apply plain, hrun.trans hspread,
    hrun'.trans (congrArg (Except.map σ.apply) hplain), fun key w hoccurs => ?_⟩
  have hne := valuesAt_ne_nil_iff.mpr hoccurs
  obtain ⟨e, he, hvalue⟩ := hnewest key w hne
  obtain ⟨e', he', hvalue'⟩ := hnewest'.of_perm (σ.perm plain) key w hne
  exact ⟨e, e', he, he', hvalue, hvalue'⟩

theorem fanout_newest_pane_of_counting :
    let w : Window := .interval 0 10
    let bundles : List (Rows (.pair .word8 .word8)) :=
      [[⟨(7, 1), 0, [w], .noFiring⟩, ⟨(7, 2), 4, [w], .noFiring⟩, ⟨(7, 3), 1, [w], .noFiring⟩],
        [⟨(7, 4), 3, [w], .noFiring⟩, ⟨(7, 5), 9, [w], .noFiring⟩]]
    let source : Node Partition := .source fun _ => bundles.map (Partition.mk (.pair .word8 .word8))
    let p : Pipeline := { graph := Graph.add {} source [] }
    let s : Schedule := ⟨2, fun _ _ => 0⟩
    let q : PerKey .word8 .word8 .word32 Nat :=
      { input := ⟨0, ⟨.fixed 10, .repeatedly (.afterCount 1), .accumulating, 0⟩⟩
        fn := .counting UInt8 UInt8 }
    p.graph.Ordered ∧ p.bundles s q.input = .ok bundles ∧
      (∀ e ∈ bundles.flatten, e.timestamp < maxTime ∧
        ∀ w ∈ e.windows, e.timestamp ≤ q.input.strategy.expiry w) ∧
      (∀ e ∈ bundles.flatten, (ElemType.coder .word8).RoundTrips e.value.2) ∧
      ∃ c p₁ c' p₂,
        (q.withFanoutFn fun _ => 2).apply.begin p = (.ok c, p₁) ∧
        { q with fanout := none }.apply.begin p = (.ok c', p₂) ∧
        ∀ order order', (∀ i, Partition.Shuffles (order i)) →
          (∀ i, Partition.Shuffles (order' i)) → ∃ spread plain e e',
            (p₁.reordered 1 order).collect s c.node (.pair .word8 .word32) = .ok spread ∧
            (p₂.reordered 1 order').collect s c'.node (.pair .word8 .word32) = .ok plain ∧
            (NewestPane spread 7 w e ∧ e.value.2 = 5) ∧ NewestPane plain 7 w e' ∧
            e'.value.2 = 5 := by
  intro w bundles source p s q
  have hp : p.graph.Ordered := by
    intro e he
    cases he
  have hin : p.bundles s q.input = .ok bundles := rfl
  have htime : ∀ e ∈ bundles.flatten, e.timestamp < maxTime ∧
      ∀ w ∈ e.windows, e.timestamp ≤ q.input.strategy.expiry w := by
    decide
  have hinputs : ∀ e ∈ bundles.flatten, (ElemType.coder .word8).RoundTrips e.value.2 :=
    fun e _ => roundTrips_word8 e.value.2
  have hoccurs : ∃ e ∈ bundles.flatten, e.value.1 = 7 ∧ w ∈ e.windows := by
    decide
  obtain ⟨c, p₁, c', p₂, hbuild, hbuild', hruns⟩ :=
    fanout_newest_pane hp hin rfl rfl rfl rfl htime rfl
      (KeyedCombineFn.counting_multiset UInt8 UInt8) hinputs (keeps_natural UInt8 UInt8) fun _ => 2
  refine ⟨hp, hin, htime, hinputs, c, p₁, c', p₂, hbuild, hbuild',
    fun order order' horder horder' => ?_⟩
  obtain ⟨spread, plain, hspread, hplain, hnewest⟩ := hruns order order' horder horder'
  obtain ⟨e, e', he, he', hvalue, hvalue'⟩ := hnewest 7 w hoccurs
  exact ⟨spread, plain, e, e', hspread, hplain, ⟨he, hvalue⟩, he', hvalue'⟩

end EventTime
