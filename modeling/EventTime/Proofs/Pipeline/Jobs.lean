import EventTime.Pipeline.Job
import EventTime.Proofs.Pipeline.Buildable

/-!
# Jobs build pipelines by calls

What the builders of collections do amounts to calls that insert one stage each, also where a
builder fails half way. So the pipeline of every job is one that can be built, and so is every
pipeline on the way to it.
-/

namespace EventTime

variable {t u k v w o : ElemType} {α ρ τ : Type} {handles : Handles}

theorem Call.mono {b : Build (Collection u)} {handles' : Handles} (hb : Call handles u b)
    (h : handles ⊆ handles') : Call handles' u b := by
  cases hb with
  | source rows => exact .source rows
  | elementwise hc run => exact .elementwise (h hc) run
  | whole hc stage run => exact .whole (h hc) stage run
  | union hcs => exact .union fun c hc => h (hcs c hc)
  | windowed hc strategy => exact .windowed (h hc) strategy

theorem Call.succeeds {b : Build (Collection u)} (hb : Call handles u b) (p : Pipeline) :
    ∃ c p', b.begin p = (.ok c, p') := by
  cases hb <;> exact ⟨_, _, rfl⟩

/-- Building keeps a pipeline one that can be built, whether it succeeds or fails; what it answers
stands in a relation to the collections there are then. -/
def Keeps (handles : Handles) (b : Build ρ) (post : Handles → ρ → Prop) : Prop :=
  ∀ p handles', handles ⊆ handles' → Buildable p handles' →
    ∃ handles'', handles' ⊆ handles'' ∧ Buildable (b.begin p).2 handles'' ∧
      ∀ r, (b.begin p).1 = .ok r → post handles'' r

/-- The node of a collection is that of one of the handles. -/
def Handled (handles : Handles) (c : Collection t) : Prop :=
  ∃ c' : Collection t, ⟨t, c'⟩ ∈ handles ∧ c'.node = c.node

/-- A builder answers a collection whose node is a handle's then. -/
abbrev Offers (handles : Handles) (b : Build (Collection u)) : Prop := Keeps handles b Handled

theorem Handled.mono {c : Collection t} {handles' : Handles} (hc : Handled handles c)
    (h : handles ⊆ handles') : Handled handles' c := by
  obtain ⟨c', hmem, hnode⟩ := hc
  exact ⟨c', h hmem, hnode⟩

variable {post : Handles → ρ → Prop} {post' : Handles → τ → Prop}

theorem Keeps.bind {b : Build ρ} {f : ρ → Build τ} (h : Keeps handles b post)
    (hf : ∀ handles' r, handles ⊆ handles' → post handles' r → Keeps handles' (f r) post') :
    Keeps handles (b >>= f) post' := by
  intro p h₁ hsub hp
  obtain ⟨h₂, hsub', hp', hpost⟩ := h p h₁ hsub hp
  cases hb : b.begin p with
  | mk x p' =>
    rw [hb] at hp' hpost
    cases x with
    | error e =>
      rw [Attempt.begin_bind_error hb]
      exact ⟨h₂, hsub', hp', nofun⟩
    | ok r =>
      rw [Attempt.begin_bind hb]
      obtain ⟨h₃, hsub'', hp'', hpost'⟩ :=
        hf h₂ r (List.Subset.trans hsub hsub') (hpost r rfl) p' h₂ (List.Subset.refl _) hp'
      exact ⟨h₃, List.Subset.trans hsub' hsub'', hp'', hpost'⟩

theorem Keeps.of_unchanged {b : Build ρ} (hstate : ∀ p, (b.begin p).2 = p)
    (hpost : ∀ p r handles', handles ⊆ handles' → (b.begin p).1 = .ok r → post handles' r) :
    Keeps handles b post := fun p h₁ hsub hp =>
  ⟨h₁, List.Subset.refl _, (hstate p).symm ▸ hp, fun r hr => hpost p r h₁ hsub hr⟩

theorem Keeps.pure {r : ρ} (h : ∀ handles', handles ⊆ handles' → post handles' r) :
    Keeps handles (Pure.pure r : Build ρ) post :=
  .of_unchanged (fun _ => rfl) fun p r' handles' hsub hr => by
    obtain rfl : r = r' := Except.ok.inj hr
    exact h handles' hsub

theorem Keeps.lift (x : Except Fault ρ) :
    Keeps handles (liftM x : Build ρ) fun _ r => x = .ok r := by
  refine .of_unchanged (fun _ => ?_) fun p r _ _ hr => ?_
  · cases x <;> rfl
  · cases x <;> exact hr

theorem Keeps.modify_registry (f : Registry → Registry) :
    Keeps handles (modify fun p => { p with registry := f p.registry } : Build Unit)
      fun _ _ => True :=
  fun p h₁ _ hp => ⟨h₁, List.Subset.refl _, hp.setRegistry (f p.registry), fun _ _ => trivial⟩

theorem offers_call {b : Build (Collection u)} (hb : Call handles u b) : Offers handles b := by
  intro p h₁ hsub hp
  obtain ⟨c, p', hc⟩ := hb.succeeds p
  rw [hc]
  exact ⟨_, List.subset_cons_self .., hp.call (hb.mono hsub) hc, fun r hr =>
    ⟨r, Except.ok.inj hr ▸ List.mem_cons_self .., rfl⟩⟩

/-- The collection itself is had by windowing the handle. -/
theorem Keeps.of_handled {c : Collection t} (hc : Handled handles c) {b : Build ρ}
    (h : ∀ handles', handles ⊆ handles' → ⟨t, c⟩ ∈ handles' → Keeps handles' b post) :
    Keeps handles b post := by
  intro p h₁ hsub hp
  obtain ⟨c', hmem, hnode⟩ := hc.mono hsub
  have hwindowed : Buildable p (⟨t, c⟩ :: h₁) :=
    hp.call (.windowed hmem c.strategy) (by cases c; cases hnode; rfl)
  obtain ⟨h₂, hsub', hrest⟩ := h _ (List.Subset.trans hsub (List.subset_cons_self ..))
    (List.mem_cons_self ..) p _ (List.Subset.refl _) hwindowed
  exact ⟨h₂, List.Subset.trans (List.subset_cons_self ..) hsub', hrest⟩

theorem Keeps.of_allHandled {cs : List (Collection t)} (hcs : ∀ c ∈ cs, Handled handles c)
    {b : Build ρ} (h : ∀ handles', handles ⊆ handles' → (∀ c ∈ cs, ⟨t, c⟩ ∈ handles') →
      Keeps handles' b post) :
    Keeps handles b post := by
  induction cs generalizing handles with
  | nil => exact h handles (List.Subset.refl _) nofun
  | cons c cs ih =>
    obtain ⟨hc, hrest⟩ := List.forall_mem_cons.mp hcs
    refine .of_handled hc fun h₁ hsub hmem => ?_
    refine ih (fun d hd => (hrest d hd).mono hsub) fun h₂ hsub' hmem' => ?_
    exact h h₂ (List.Subset.trans hsub hsub') (List.forall_mem_cons.mpr ⟨hsub' hmem, hmem'⟩)

/-! ### Stages -/

section Stages

variable {c : Collection t}

theorem offers_perBundle (hc : Handled handles c) (run : Bundle → Rows t → Except Fault (Rows u)) :
    Offers handles (c.perBundle run) :=
  .of_handled hc fun _ _ hmem => offers_call (.elementwise hmem run)

theorem offers_map (hc : Handled handles c) (f : t.Elem → u.Elem) : Offers handles (c.map f) :=
  offers_perBundle hc _

theorem offers_keyBy (hc : Handled handles c) (key : t.Elem → Except Fault u.Elem) :
    Offers handles (c.keyBy key) :=
  offers_perBundle hc _

theorem offers_whole (hc : Handled handles c) (stage : String)
    (run : List (Rows t) → Except Fault (Rows u)) {node : List Partition → Except Fault Partition}
    (h : ∀ parts, node parts = do return ⟨u, ← run (← parts.mapM (·.rowsFor t stage))⟩) :
    Offers handles (c.append (u := u) (.whole node)) := by
  obtain rfl : node = _ := funext h
  exact .of_handled hc fun _ _ hmem => offers_call (.whole hmem stage run)

theorem offers_union {cs : List (Collection t)} (hcs : ∀ c ∈ cs, Handled handles c) :
    Offers handles (Collection.union cs) :=
  .of_allHandled hcs fun _ _ hmem => offers_call (.union hmem)

theorem offers_windowInto (hc : Handled handles c) (fn : WindowFn) :
    Offers handles (c.windowInto fn) :=
  (offers_perBundle hc _).bind fun _ _ _ hhandled =>
    .pure fun _ hsub => hhandled.mono hsub

end Stages

section Keyed

variable [DecidableEq k.Elem] {c : Collection (.pair k v)}

theorem offers_groupByKey (hc : Handled handles c) (mode : InputWatermark) :
    Offers handles (c.groupByKey mode) := by
  refine offers_whole (u := .pair k (.list v)) hc "group_by_key"
    (fun bundles => groupRows c.strategy mode bundles.flatten) fun parts => ?_
  rw [Partition.allRowsFor]
  cases parts.mapM (·.rowsFor (.pair k v) "group_by_key") <;> rfl

theorem offers_combineLifted (hc : Handled handles c)
    (f : KeyedCombineFn k.Elem v.Elem α o.Elem) (width : Option Nat) :
    Offers handles (c.combineLifted f width) :=
  offers_whole (u := .pair k o) hc "combine_per_key local"
    (fun bundles => .ok (combineBundles f width bundles)) fun _ => rfl

omit [DecidableEq k.Elem] in
theorem keeps_accumulatorCoder (f : KeyedCombineFn k.Elem v.Elem α o.Elem)
    (inputCoder : Coder v.Elem) :
    Keeps handles (Collection.accumulatorCoder (k := k) (v := v) (o := o) f inputCoder)
      fun _ _ => True := by
  refine .of_unchanged (fun p => ?_) fun _ _ _ _ _ => trivial
  show Prod.snd (Attempt.begin (liftM (f.accumulatorCoder p.registry inputCoder)) p) = p
  cases f.accumulatorCoder p.registry inputCoder <;> rfl

theorem offers_combineByKey (hc : Handled handles c) (f : KeyedCombineFn k.Elem v.Elem α o.Elem)
    (width : Option Nat) (mode : InputWatermark) (inputCoder : Coder v.Elem) :
    Offers handles (c.combineByKey f width mode inputCoder) := by
  refine (keeps_accumulatorCoder f inputCoder).bind fun handles' _ hsub _ => ?_
  split
  · exact offers_combineLifted (hc.mono hsub) f width
  · exact (offers_groupByKey (hc.mono hsub) mode).bind fun _ _ _ hgrouped =>
      offers_perBundle hgrouped _

theorem offers_combineHotKeys (hc : Handled handles c) (f : KeyedCombineFn k.Elem v.Elem α o.Elem)
    (fanout : k.Elem → UInt32) (width : Option Nat) (inputCoder : Coder v.Elem) :
    Offers handles (c.combineHotKeys f fanout width inputCoder) := by
  refine (keeps_accumulatorCoder f inputCoder).bind fun h₁ accumCoder hsub _ => ?_
  refine (offers_perBundle (hc.mono hsub) _).bind fun h₂ tagged hsub₁ htagged => ?_
  refine (offers_perBundle htagged _).bind fun h₃ hot hsub₂ hhot => ?_
  refine (offers_combineByKey (c := hot.withMode .discarding) hhot _ width _ _).bind
    fun h₄ partials hsub₃ hpartials => ?_
  refine (offers_perBundle hpartials _).bind fun h₅ hotBytes hsub₄ hhotBytes => ?_
  have htagged' : Handled h₅ tagged :=
    htagged.mono (List.Subset.trans hsub₂ (List.Subset.trans hsub₃ hsub₄))
  refine (offers_perBundle htagged' _).bind fun h₆ coldBytes hsub₅ hcold => ?_
  have hboth : ∀ d ∈ [{ hotBytes with strategy := c.strategy }, coldBytes], Handled h₆ d := by
    refine List.forall_mem_cons.mpr ⟨?_, List.forall_mem_singleton.mpr hcold⟩
    exact Handled.mono (c := { hotBytes with strategy := c.strategy }) hhotBytes hsub₅
  refine (offers_union hboth).bind fun h₇ joined _ hjoined => ?_
  exact (offers_combineByKey hjoined _ width _ _).bind fun h₈ results _ hresults =>
    offers_perBundle hresults _

theorem offers_perKey {p : PerKey k v o α} (hc : Handled handles p.input) :
    Offers handles p.apply := by
  unfold PerKey.apply
  split
  · exact offers_combineHotKeys hc p.fn _ p.width _
  · exact offers_combineByKey hc p.fn p.width _ _

end Keyed

theorem offers_combineUnderOneKey {g : Globally t o α} (hg : Handled handles g.input) :
    Offers handles g.combineUnderOneKey :=
  (offers_perBundle hg _).bind fun _ keyed _ hkeyed =>
    (offers_perKey (p := PerKey.withFanout { input := keyed, fn := g.fn.lift } g.fanout) hkeyed).bind
      fun _ _ _ hcombined => offers_perBundle hcombined _

theorem offers_globally {g : Globally t o α} (hg : Handled handles g.input) :
    Offers handles g.apply := by
  dsimp only [Globally.apply]
  split
  · exact .of_unchanged (fun _ => rfl) fun _ _ _ _ hr => nomatch hr
  · refine (offers_combineUnderOneKey hg).bind fun _ combined _ hcombined => ?_
    split
    · refine offers_whole hcombined "combine_globally default"
        (fun bundles => .ok (Globally.orDefault g.emptyOutput bundles.flatten)) fun parts => ?_
      rw [Partition.allRowsFor]
      cases parts.mapM (·.rowsFor o "combine_globally default") <;> rfl
    · exact .pure fun _ hsub => hcombined.mono hsub

theorem keeps_view {g : Globally t o α} (hg : Handled handles g.input) :
    Keeps handles g.asSingletonView fun h view => Handled h view.collection :=
  (offers_combineUnderOneKey hg).bind fun _ _ _ hcombined =>
    .pure fun _ hsub => hcombined.mono hsub

section KeyedData

variable {c : KeyedData}

theorem offers_source (source : Source) : Offers handles source.build := by
  cases source <;> exact offers_call (.source _)

theorem offers_combine (hc : Handled handles c) (s : CombineSettings) :
    Offers handles (KeyedData.combine c s) := by
  dsimp only [KeyedData.combine]
  apply offers_perKey
  cases s.fanout <;> cases s.fanoutByKey <;> cases s.width <;> exact hc

theorem offers_values (hc : Handled handles c) : Offers (u := .datum) handles c.values :=
  offers_map hc Prod.snd

theorem offers_keys (hc : Handled handles c) : Offers (u := .text) handles c.keys :=
  offers_map hc Prod.fst

theorem keeps_globally (hc : Handled handles c) (s : GlobalSettings) :
    Keeps handles (KeyedData.globally c s) fun h g => Handled h g.input := by
  refine (offers_values hc).bind fun _ values _ hvalues => .pure fun _ hsub => ?_
  have hhandled := hvalues.mono hsub
  cases s.fanout <;> cases s.defaults <;> exact hhandled

theorem offers_combineAll (hc : Handled handles c) (s : GlobalSettings) :
    Offers handles (KeyedData.combineAll c s) :=
  (keeps_globally hc s).bind fun _ _ _ hg => (offers_globally hg).bind fun _ _ _ hcombined =>
    offers_perBundle hcombined _

theorem offers_group (hc : Handled handles c) : Offers handles (KeyedData.group c) :=
  (offers_groupByKey hc _).bind fun _ _ _ hgrouped => offers_perBundle hgrouped _

theorem offers_combineGrouped (hc : Handled handles c) (r : Recipe) (keyed : Bool) :
    Offers handles (KeyedData.combineGrouped c r keyed) :=
  (offers_groupByKey hc _).bind fun _ _ _ hgrouped => offers_perBundle hgrouped _

end KeyedData

namespace Stage

mutual

theorem offers_build : (stage : Stage) → (c : KeyedData) → (handles : Handles) →
    Handled handles c → Offers handles (build stage c)
  | .map _, c, _, hc => by rw [build]; exact offers_perBundle hc _
  | .mapValues _, c, _, hc => by rw [build]; exact offers_perBundle hc _
  | .filter _, c, _, hc => by rw [build]; exact offers_perBundle hc _
  | .successors _, c, _, hc => by rw [build]; exact offers_perBundle hc _
  | .words, c, _, hc => by rw [build]; exact offers_perBundle hc _
  | .keyBy n, c, _, hc => by
    refine (offers_values hc).bind fun _ values _ hvalues => ?_
    exact offers_keyBy (u := .text) hvalues (Datum.keyModulo n)
  | .keys, c, _, hc => by
    refine (offers_keys hc).bind fun _ keys _ hkeys => ?_
    exact offers_map (u := .keyed) hkeys fun key => (key, Datum.text key)
  | .withTimestamps _, c, _, hc => by rw [build]; exact offers_perBundle hc _
  | .window fn, c, _, hc => by rw [build]; exact offers_windowInto hc fn
  | .trigger t, c, _, hc => (Keeps.lift t).bind fun _ _ hsub _ => .pure fun _ hsub' => by
    obtain ⟨c', hmem, hnode⟩ := hc
    exact ⟨c', hsub' (hsub hmem), hnode⟩
  | .mode m, c, _, hc => .pure fun _ hsub => hc.mono hsub
  | .lateness ms, c, _, hc => .pure fun _ hsub => hc.mono hsub
  | .branches bs, c, _, hc => by
    refine (offers_buildEach bs c _ hc).bind fun _ cs _ hcs => ?_
    apply offers_union hcs
  | .union source, c, _, hc => (offers_source source).bind fun h other hsub hother =>
    have hboth : ∀ d ∈ [c, other], Handled h d :=
      List.forall_mem_cons.mpr ⟨hc.mono hsub, List.forall_mem_singleton.mpr hother⟩
    offers_union hboth
  | .combine s, c, _, hc => by rw [build]; exact offers_combine hc s
  | .group, c, _, hc => by rw [build]; exact offers_group hc
  | .combineGrouped r keyed, c, _, hc => by rw [build]; exact offers_combineGrouped hc r keyed
  | .ungroup, c, _, hc => by rw [build]; exact offers_perBundle hc _
  | .global s, c, _, hc => by rw [build]; exact offers_combineAll hc s
  | .register type, c, _, hc =>
    (Keeps.modify_registry (·.register type)).bind fun _ _ hsub _ =>
      .pure fun _ hsub' => hc.mono (List.Subset.trans hsub hsub')
  | .resetRegistry types, c, _, hc =>
    (Keeps.modify_registry fun _ => types.foldl Registry.register .standard).bind
      fun _ _ hsub _ => .pure fun _ hsub' => hc.mono (List.Subset.trans hsub hsub')

theorem offers_buildAll : (stages : List Stage) → (c : KeyedData) → (handles : Handles) →
    Handled handles c → Offers handles (buildAll stages c)
  | [], _, _, hc => .pure fun _ hsub => hc.mono hsub
  | stage :: rest, c, _, hc => (offers_build stage c _ hc).bind fun _ built _ hbuilt =>
    offers_buildAll rest built _ hbuilt

theorem offers_buildEach : (branches : List (List Stage)) → (c : KeyedData) →
    (handles : Handles) → Handled handles c →
      Keeps handles (buildEach branches c) fun h cs => ∀ d ∈ cs, Handled h d
  | [], _, _, _ => .pure fun _ _ => nofun
  | branch :: rest, c, _, hc => (offers_buildAll branch c _ hc).bind fun _ _ hsub hbuilt =>
    (offers_buildEach rest c _ (hc.mono hsub)).bind fun _ _ hsub' hothers =>
      .pure fun _ hsub'' => List.forall_mem_cons.mpr
        ⟨hbuilt.mono (List.Subset.trans hsub' hsub''), fun d hd => (hothers d hd).mono hsub''⟩

end

end Stage

/-- The pipeline of a job can be built by calls, as far as the job gets, and the collections that it
answers are those of handles. -/
theorem Job.buildable (j : Job) : ∃ handles, Buildable (j.build.begin {}).2 handles ∧
    ∀ c view, (j.build.begin {}).1 = .ok (c, view) →
      Handled handles c ∧ ∀ lookup, view = some lookup → Handled handles lookup.collection := by
  have hkeeps : Keeps [] j.build fun h r =>
      Handled h r.1 ∧ ∀ lookup, r.2 = some lookup → Handled h lookup.collection := by
    refine (offers_source j.source).bind fun _ c _ hc => ?_
    refine (Stage.offers_buildAll j.stages c _ hc).bind fun h built _ hbuilt => ?_
    split
    · rename_i inquiry _
      refine (keeps_globally hbuilt inquiry.settings).bind fun _ g hsub hg => ?_
      refine (keeps_view hg).bind fun _ view hsub' hview => .pure fun _ hsub'' => ?_
      refine ⟨hbuilt.mono (List.Subset.trans hsub (List.Subset.trans hsub' hsub'')), ?_⟩
      rintro _ ⟨⟩
      exact hview.mono hsub''
    · exact .pure fun _ hsub => ⟨hbuilt.mono hsub, nofun⟩
  obtain ⟨handles, -, hbuildable, hpost⟩ :=
    hkeeps {} [] (List.Subset.refl _) .new
  exact ⟨handles, hbuildable, fun c view h => hpost (c, view) h⟩

/-! ### Runs of jobs -/

/-- Reading a collection fails only with what the closure of a stage upstream failed with, and
serves every reader if none does. -/
structure Pipeline.ServesEach (p : Pipeline) (s : Schedule) (c : Collection t) : Prop where
  fails : ∀ e, p.collect s c.node t = .error e →
    ∃ n, p.graph.Upstream c.node n ∧ p.graph.Fails s n e
  served : (∀ n, p.graph.Upstream c.node n → ∀ e, ¬p.graph.Fails s n e) →
    ∃ (out : Nat → List Partition) (r : Noted Partition),
      p.graph.evaluateNoted s c.node = .ok (out c.node, r) ∧ Noted.ServedOnce p.graph c.node out r

theorem Handled.servesEach {p : Pipeline} {c : Collection t} (hc : Handled handles c)
    (hp : Buildable p handles) (s : Schedule) : p.ServesEach s c := by
  obtain ⟨c', hmem, hnode⟩ := hc
  refine ⟨fun e he => ?_, fun hruns => ?_⟩
  · rw [← hnode] at he ⊢
    exact hp.exists_fails_of_collect hmem he
  · rw [← hnode] at hruns ⊢
    obtain ⟨out, r, hnoted, -, hserved⟩ := hp.exists_servedOnce hmem hruns
    exact ⟨out, r, hnoted, hserved⟩

/-- What a job builds is served to every reader, under its own schedule as under any other. -/
theorem Job.servesEach (j : Job) {c : KeyedData} {view : Option (SingletonView .datum)}
    {p : Pipeline} (h : j.build.begin {} = (.ok (c, view), p)) (s : Schedule) :
    p.ServesEach s c ∧ ∀ lookup, view = some lookup → p.ServesEach s lookup.collection := by
  obtain ⟨handles, hp, hhandled⟩ := j.buildable
  rw [h] at hp hhandled
  obtain ⟨hc, hview⟩ := hhandled c view rfl
  exact ⟨hc.servesEach hp s, fun lookup hlookup => (hview lookup hlookup).servesEach hp s⟩

end EventTime
