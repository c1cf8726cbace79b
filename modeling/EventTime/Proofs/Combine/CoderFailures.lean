import Mathlib.Data.List.Permutation
import EventTime.Proofs.Combine.Fanout
import EventTime.Proofs.Pane.Watermark
import EventTime.Trigger.Policies

/-!
# Coders that fail between the stages of a combine

The accumulators of the first stage and the values of cold keys travel to the second stage as bytes.
A cold value that cannot be encoded fails the run at once. An accumulator that cannot be encoded and an
encoding that cannot be decoded travel on as errors: no value that is added later, no other bundle and
no merge makes up for one. So a run over inputs that are there fails exactly if some encoding or
decoding does, and a run that succeeds has used every input.
-/

namespace EventTime

variable {κ ν α ο : Type}

/-- An accumulator of the second stage is spoilt by every encoding that cannot be decoded, wherever it
stands and however the accumulator has been merged. -/
theorem postCombine_spoilt (f : KeyedCombineFn κ ν α ο) (coder : Coder (InputOrAccum ν α))
    (accumCoder : Coder α) : (postCombine f coder accumCoder).Tracks fun _ acc encoded =>
      (∃ bytes ∈ encoded, ∃ cause, coder.decodeFront bytes = .error cause) →
        ∃ text, acc = .error text where
  create key := by
    intro h
    obtain ⟨bytes, hmem, -⟩ := h
    cases hmem
  add {key acc encoded} hacc bytes := by
    intro h
    obtain ⟨bad, hbad, cause, hdecode⟩ := h
    rcases List.mem_append.mp hbad with hbad | hbad
    · obtain ⟨text, rfl⟩ := hacc ⟨bad, hbad, cause, hdecode⟩
      exact ⟨text, rfl⟩
    · obtain rfl := List.mem_singleton.mp hbad
      cases acc with
      | error text => exact ⟨text, rfl⟩
      | ok a =>
        refine ⟨cause.message, ?_⟩
        show foldStaged f coder key (.ok a) bad = _
        simp only [foldStaged, hdecode]
  merge {key accs lists} _ hall := by
    intro h
    obtain ⟨bad, hbad, hcause⟩ := h
    obtain ⟨encoded, hencoded, hmem⟩ := List.mem_flatten.mp hbad
    obtain ⟨acc, hacc, hspoilt⟩ := exists_mem_left hall hencoded
    obtain ⟨text, rfl⟩ := hspoilt ⟨bad, hmem, hcause⟩
    obtain ⟨text', htext⟩ := exists_error_of_mem (f := id) hacc rfl
    refine ⟨text', ?_⟩
    show (accs.mapM id).map (f.merge key) = _
    rw [htext]
    rfl

variable [DecidableEq κ] {f : KeyedCombineFn κ ν α ο} {coder : Coder (InputOrAccum ν α)}
  {accumCoder : Coder α}

theorem exists_fault_of_undecodable (f : KeyedCombineFn κ ν α ο) (accumCoder : Coder α)
    (width : Option Nat) (activity : String) (σ : Shuffle (Envelope (κ × Except String ο)))
    {joined : List (List (Envelope (κ × Bytes)))}
    {e : Envelope (κ × Bytes)} (he : e ∈ joined.flatten) {w : Window} (hw : w ∈ e.windows)
    {cause : CoderError} (hbad : coder.decodeFront e.value.2 = .error cause) :
    ∃ fault, (σ.apply (combineBundles (postCombine f coder accumCoder) width joined)).mapM
      (raiseStaged activity) = .error fault := by
  obtain ⟨partials, heq, hpartials⟩ :=
    combineBundles_eq (postCombine_spoilt f coder accumCoder) width joined
  rw [heq]
  have hlisted : e.value.2 ∈ valuesAt e.value.1 w joined.flatten := mem_valuesAt he hw
  cases hfind : Table.find? (e.value.1, w) partials with
  | none =>
    rw [hpartials.absent hfind] at hlisted
    cases hlisted
  | some acc =>
    obtain ⟨text, rfl⟩ := (hpartials.present hfind).2 ⟨e.value.2, hlisted, cause, hbad⟩
    exact exists_error_of_mem
      (σ.mem_apply.mpr (hpartials.mem_extractAll.mpr ⟨_, _, _, hfind, rfl⟩)) rfl

/-- The coder writes a value, and cannot read back what it has written. -/
def Coder.Loses (c : Coder ν) (a : ν) : Prop :=
  ∃ bytes cause, c.encode a = .ok bytes ∧ c.decodeFront bytes = .error cause

theorem Coder.loses_or_returns {c : Coder ν} {a : ν} {bytes : Bytes} (h : c.encode a = .ok bytes) :
    c.Loses a ∨ ∃ b, c.decodeFront bytes = .ok b := by
  cases hdecode : c.decodeFront bytes with
  | error cause => exact .inl ⟨bytes, cause, h, hdecode⟩
  | ok b => exact .inr ⟨b, rfl⟩

theorem Coder.Loses.unreadable {c : Coder ν} {a : ν} (h : c.Loses a) {bytes : Bytes}
    (hencode : c.encode a = .ok bytes) : ∃ cause, c.decodeFront bytes = .error cause := by
  obtain ⟨bytes', cause, hencode', hdecode⟩ := h
  obtain rfl := Except.ok.inj (hencode.symm.trans hencode')
  exact ⟨cause, hdecode⟩

theorem Coder.Loses.input {inputCoder : Coder ν} {x : ν} (h : inputCoder.Loses x)
    (accumCoder : Coder α) : (inputCoder.inputOrAccum accumCoder).Loses (.input x) := by
  obtain ⟨bytes, cause, hencode, hdecode⟩ := h
  refine ⟨0 :: bytes, cause, ?_, ?_⟩
  · show (inputCoder.encode x).map (0 :: ·) = _
    rw [hencode]
    rfl
  · show (inputCoder.decodeFront bytes).map InputOrAccum.input = _
    rw [hdecode]
    rfl

/-- A combine function at work on the shards of a key. -/
def KeyedCombineFn.onShards (f : KeyedCombineFn κ ν α ο) : KeyedCombineFn (κ × UInt32) ν α ο where
  create key := f.create key.1
  add key := f.add key.1
  merge key := f.merge key.1
  extract key := f.extract key.1
  accumulatorCoder := f.accumulatorCoder

/-- The accumulators with which the first stage ends, by key, shard and window. -/
def shardAccums (f : KeyedCombineFn κ ν α ο) (width : Option Nat)
    (tagged : List (List (Envelope (Shard κ ν)))) : Partials (κ × UInt32) α :=
  mergeRounds width (mergePartials f.onShards) ((tagged.map hotRows).map (addRows f.onShards))

/-- What is delivered to the second stage: every accumulator of the first, and the value of every cold
element that lists a window. -/
inductive Delivered (f : KeyedCombineFn κ ν α ο) (width : Option Nat)
    (tagged : List (List (Envelope (Shard κ ν)))) : InputOrAccum ν α → Prop
  | accum {p : ((κ × UInt32) × Window) × α} : p ∈ shardAccums f width tagged →
      Delivered f width tagged (.accum p.2)
  | input {e : Envelope (Shard κ ν)} {key : κ} {x : ν} {w : Window} : e ∈ tagged.flatten →
      e.value = .cold key x → w ∈ e.windows → Delivered f width tagged (.input x)

/-- Every accumulator of the first stage and every cold value is encoded, and nothing that is
delivered is lost. -/
structure Intact (f : KeyedCombineFn κ ν α ο) (coder : Coder (InputOrAccum ν α))
    (width : Option Nat) (tagged : List (List (Envelope (Shard κ ν)))) : Prop where
  encodes : ∀ p ∈ shardAccums f width tagged, ∃ bytes, coder.encode (.accum p.2) = .ok bytes
  writes : ∀ e ∈ tagged.flatten, ∀ key x, e.value = .cold key x →
    ∃ bytes, coder.encode (.input x) = .ok bytes
  keeps : ∀ y, Delivered f width tagged y → ¬coder.Loses y

theorem combineBundles_preCombine (width : Option Nat)
    (tagged : List (List (Envelope (Shard κ ν)))) :
    combineBundles (preCombine f coder accumCoder) width (tagged.map hotRows) =
      extractAll (preCombine f coder accumCoder) (shardAccums f width tagged) := rfl

variable {orders : StageOrders κ ο} {strategy : Strategy} {width : Option Nat}
  {tagged : List (List (Envelope (Shard κ ν)))}

omit [DecidableEq κ] in
theorem mem_coldRows {rows : List (Envelope (Shard κ ν))} {out : List (Envelope (κ × Bytes))}
    (h : coldRows coder rows = .ok out) {e : Envelope (Shard κ ν)} (he : e ∈ rows) {key : κ} {x : ν}
    (hvalue : e.value = .cold key x) {bytes : Bytes} (hencode : coder.encode (.input x) = .ok bytes) :
    e.withValue (key, bytes) ∈ out := by
  obtain ⟨lists, hlists, rfl⟩ := ok_of_map h
  obtain ⟨l, hl, hone⟩ := exists_mem_right (forall₂_of_mapM hlists) he
  simp only [coldBytes, hvalue, hencode] at hone
  obtain rfl := Except.ok.inj hone
  exact List.mem_flatten.mpr ⟨_, hl, List.mem_singleton_self _⟩

omit [DecidableEq κ] in
/-- Where the cold elements are encoded, each of their values is. -/
theorem exists_encoded_of_coldRows {cold : List (List (Envelope (κ × Bytes)))}
    (h : tagged.mapM (coldRows coder) = .ok cold) {e : Envelope (Shard κ ν)} (he : e ∈ tagged.flatten)
    {key : κ} {x : ν} (hvalue : e.value = .cold key x) :
    ∃ bytes, coder.encode (.input x) = .ok bytes ∧ e.withValue (key, bytes) ∈ cold.flatten := by
  obtain ⟨rows, hrows, hmem⟩ := List.mem_flatten.mp he
  obtain ⟨out, hout, hcold⟩ := exists_mem_right (forall₂_of_mapM h) hrows
  obtain ⟨lists, hlists, -⟩ := ok_of_map hcold
  obtain ⟨l, hone⟩ := exists_ok_of_mapM hlists e hmem
  cases hencode : coder.encode (.input x) with
  | error cause =>
    simp only [coldBytes, hvalue, hencode] at hone
    cases hone
  | ok bytes =>
    exact ⟨bytes, rfl, List.mem_flatten.mpr ⟨out, hout, mem_coldRows hcold hmem hvalue hencode⟩⟩

/-- A run that succeeds has lost nothing. -/
theorem intact_of_ok (hlift : strategy.allowsLifting = true) {out : List (Envelope (κ × ο))}
    (h : combineTagged orders strategy f accumCoder coder width tagged = .ok out) :
    Intact f coder width tagged := by
  obtain ⟨partials, hpartials, h⟩ := ok_of_bind h
  obtain ⟨hot, hhot, h⟩ := ok_of_bind h
  obtain ⟨cold, hcold, h⟩ := ok_of_bind h
  obtain ⟨results, hresults, hout⟩ := ok_of_bind h
  have hlift' : { strategy with mode := .discarding : Strategy }.allowsLifting = true := hlift
  rw [combineRows_lifted hlift', combineBundles_preCombine] at hpartials
  rw [combineRows_lifted hlift] at hresults
  obtain rfl := Except.ok.inj hpartials
  obtain rfl := Except.ok.inj hresults
  have hreadable : ∀ d ∈ (hot :: cold).flatten, ∀ w ∈ d.windows, ∀ cause,
      coder.decodeFront d.value.2 ≠ .error cause := by
    intro d hd w hw cause hbad
    obtain ⟨fault, hfault⟩ := exists_fault_of_undecodable f accumCoder width
      "hot key post-combine" orders.second hd hw hbad
    rw [hout] at hfault
    cases hfault
  have hshards : ∀ p ∈ shardAccums f width tagged, ∃ bytes,
      coder.encode (.accum p.2) = .ok bytes ∧
        .ofPane (p.1.1.1, bytes) p.1.2 .onTimeAndOnly ∈ hot := by
    intro p hp
    obtain ⟨d, hd, hraised⟩ := exists_mem_right (forall₂_of_mapM hhot)
      (orders.first.mem_apply.mpr (List.mem_map_of_mem hp))
    obtain ⟨bytes, hbytes, rfl⟩ := raiseStaged_eq_ok hraised
    exact ⟨bytes, staged_eq_ok hbytes, hd⟩
  refine ⟨fun p hp => ?_, fun e he key x hvalue => ?_, fun y hy hlost => ?_⟩
  · obtain ⟨bytes, hbytes, -⟩ := hshards p hp
    exact ⟨bytes, hbytes⟩
  · obtain ⟨bytes, hbytes, -⟩ := exists_encoded_of_coldRows hcold he hvalue
    exact ⟨bytes, hbytes⟩
  · cases hy with
    | @accum p hp =>
      obtain ⟨bytes, hencode, hmem⟩ := hshards p hp
      obtain ⟨cause, hdecode⟩ := hlost.unreadable hencode
      exact hreadable _ (List.mem_append_left _ hmem) p.1.2 (List.mem_singleton_self _) cause hdecode
    | @input e key x w he hvalue hw =>
      obtain ⟨bytes, hencode, hmem⟩ := exists_encoded_of_coldRows hcold he hvalue
      obtain ⟨cause, hdecode⟩ := hlost.unreadable hencode
      exact hreadable _ (List.mem_append_right _ hmem) w hw cause hdecode

/-! ### What is used -/

/-- An accumulator is made of some inputs, by the operations of a combine function and journeys
through a coder. -/
inductive KeyedCombineFn.MadeOf (f : KeyedCombineFn κ ν α ο) (coder : Coder α) (key : κ) :
    α → Multiset ν → Prop
  | create : MadeOf f coder key (f.create key) 0
  | add {a : α} {m : Multiset ν} (x : ν) : MadeOf f coder key a m →
      MadeOf f coder key (f.add key a x) (m + {x})
  | merge {accs : List α} {ms : List (Multiset ν)} : accs ≠ [] →
      List.Forall₂ (MadeOf f coder key) accs ms → MadeOf f coder key (f.merge key accs) ms.sum
  | returned {a b : α} {m : Multiset ν} : MadeOf f coder key a m → coder.Returns a b →
      MadeOf f coder key b m

omit [DecidableEq κ] in
theorem KeyedCombineFn.madeOf_tracksBag (f : KeyedCombineFn κ ν α ο) (coder : Coder α) :
    f.TracksBag (f.MadeOf coder) where
  create _ := .create
  add ha x := .add x ha
  merge hne hall := .merge hne hall

/-- The value that the coder reads back, if it reads back any. -/
def Coder.reread (c : Coder ν) (x : ν) : ν :=
  match c.encode x with
  | .ok bytes => (c.decodeFront bytes).toOption.getD x
  | .error _ => x

theorem Coder.returns_reread {c : Coder ν} {x : ν} {bytes : Bytes} (hencode : c.encode x = .ok bytes)
    (hkept : ¬c.Loses x) : c.Returns x (c.reread x) := by
  obtain ⟨y, hdecode⟩ := (loses_or_returns hencode).resolve_left hkept
  refine ⟨bytes, hencode, ?_⟩
  simp only [Coder.reread, hencode, hdecode]
  rfl

theorem Coder.reread_eq (c : Coder ν) (x : ν) : c.reread x = x ∨ c.Returns x (c.reread x) := by
  cases hencode : c.encode x with
  | error cause => simp only [Coder.reread, hencode, true_or]
  | ok bytes =>
    by_cases hlost : c.Loses x
    · obtain ⟨cause, hdecode⟩ := hlost.unreadable hencode
      refine .inl ?_
      simp only [Coder.reread, hencode, hdecode]
      rfl
    · exact .inr (returns_reread hencode hlost)

/-- A cold element with the value that the coder reads back. -/
def rereadCold (c : Coder ν) (e : Envelope (Shard κ ν)) : Envelope (Shard κ ν) :=
  match e.value with
  | .hot _ _ _ => e
  | .cold key x => e.withValue (.cold key (c.reread x))

/-- A tagged element under its key alone. -/
def untagged (e : Envelope (Shard κ ν)) : Envelope (κ × ν) :=
  match e.value with
  | .hot key _ x => e.withValue (key, x)
  | .cold key x => e.withValue (key, x)

omit [DecidableEq κ] in
theorem tagged_untagged (e : Envelope (Shard κ ν)) : Tagged (untagged e) e := by
  obtain ⟨value, timestamp, windows, pane⟩ := e
  cases value with
  | hot key shard x => exact .inr ⟨shard, rfl⟩
  | cold key x => exact .inl rfl

omit [DecidableEq κ] in
theorem hotRows_rereadCold (c : Coder ν) (rows : List (Envelope (Shard κ ν))) :
    hotRows (rows.map (rereadCold c)) = hotRows rows := by
  induction rows with
  | nil => rfl
  | cons e rest ih =>
    rw [List.map_cons, hotRows_cons, hotRows_cons, ih]
    obtain ⟨value, timestamp, windows, pane⟩ := e
    cases value with
    | hot key shard x => rfl
    | cold key x => rfl

/-- An element as it was, or with the value that the coder reads back. -/
def Brought (c : Coder ν) (e e' : Envelope (κ × ν)) : Prop :=
  e' = e ∨ ∃ x, c.Returns e.value.2 x ∧ e' = e.withValue (e.value.1, x)

omit [DecidableEq κ] in
theorem brought_untagged (c : Coder ν) {e : Envelope (κ × ν)} {t : Envelope (Shard κ ν)}
    (h : Tagged e t) : Brought c e (untagged (rereadCold c t)) := by
  rcases h with rfl | ⟨shard, rfl⟩
  · show Brought c e (e.withValue (e.value.1, c.reread e.value.2))
    rcases c.reread_eq e.value.2 with hsame | hreturns
    · rw [hsame]
      exact .inl rfl
    · exact .inr ⟨_, hreturns, rfl⟩
  · exact .inl rfl

variable {inputCoder : Coder ν}

omit [DecidableEq κ] in
theorem coldBytes_weigh (accumCoder : Coder α) (R : κ → α → Multiset ν → Prop)
    (e : Envelope (Shard κ ν)) (hwritten : ∀ key x, e.value = .cold key x →
      ∃ bytes, (inputCoder.inputOrAccum accumCoder).encode (.input x) = .ok bytes)
    (hkept : ∀ key x, e.value = .cold key x → e.windows ≠ [] →
      ¬(inputCoder.inputOrAccum accumCoder).Loses (.input x)) :
    ∃ out, coldBytes (inputCoder.inputOrAccum accumCoder) e = .ok out ∧
      List.Forall₂ (WeighsIf (· ≠ []) (inputCoder.inputOrAccum accumCoder) R) out
        (coldWeight (rereadCold inputCoder e)) := by
  obtain ⟨value, timestamp, windows, pane⟩ := e
  cases value with
  | hot key shard x => exact ⟨[], rfl, .nil⟩
  | cold key x =>
    obtain ⟨bytes, hencode⟩ := hwritten key x rfl
    obtain ⟨front, hfront, -⟩ := ok_of_map (x := inputCoder.encode x) hencode
    refine ⟨[⟨(key, bytes), timestamp, windows, pane⟩], ?_, .cons ⟨bytes, rfl, ?_⟩ .nil⟩
    · simp only [coldBytes, hencode]
      rfl
    · intro hwindows
      have hlost : ¬inputCoder.Loses x := fun hlost => hkept key x rfl hwindows (hlost.input _)
      obtain ⟨bytes', hencode', hdecode⟩ :=
        returns_input accumCoder (Coder.returns_reread hfront hlost)
      obtain rfl := Except.ok.inj (hencode.symm.trans hencode')
      exact .input hdecode

theorem rel_listed {R : κ → α → Multiset ν → Prop} {joined : List (Envelope (κ × Bytes))}
    {weights : List (Envelope (κ × Multiset ν))}
    (h : List.Forall₂ (WeighsIf (· ≠ []) coder R) joined weights) (key : κ) (w : Window) :
    Multiset.Rel (Denotes coder R key) (valuesAt key w joined) (valuesAt key w weights) := by
  rw [coe_valuesAt, coe_valuesAt]
  refine rel_weighing_of key w (h.imp fun e d hed => ?_)
  obtain ⟨bytes, heq, hdenotes⟩ := hed
  refine ⟨bytes, heq, fun hcount => hdenotes fun hnil => hcount ?_⟩
  rw [hnil]
  rfl

namespace Intact

theorem exists_hot (h : Intact f (inputCoder.inputOrAccum accumCoder) width tagged)
    (σ : Shuffle (Envelope ((κ × UInt32) × Except String Bytes))) :
    ∃ bags hot, Bag.Enumerates bags (ListedBag (hotRows tagged.flatten)) ∧
      (σ.apply (combineBundles (preCombine f (inputCoder.inputOrAccum accumCoder) accumCoder) width
        (tagged.map hotRows))).mapM (fun e => raiseStaged "hot key pre-combine"
          (e.withValue (e.value.1.1, e.value.2))) = .ok hot ∧
      List.Forall₂ (Weighs (inputCoder.inputOrAccum accumCoder) (f.MadeOf accumCoder)) hot
        (hotWeights .onTimeAndOnly bags) := by
  have htracks : (preCombine f (inputCoder.inputOrAccum accumCoder) accumCoder).TracksBag
      fun key a m => f.MadeOf accumCoder key.1 a m := preCombine_tracks (f.madeOf_tracksBag accumCoder)
  obtain ⟨bags, partials, hpartials, hbags, hrows⟩ :=
    (combineBundles_summarizes htracks width (tagged.map hotRows)).shuffled σ
  obtain rfl := Except.ok.inj hpartials
  rw [flatten_hotRows] at hbags
  obtain ⟨hot, hhot, hweigh⟩ := hotBytes_weigh_of_returns
    (fun _ _ _ _ ha hb => .returned ha hb) hrows fun e he => by
      rw [σ.mem_apply, combineBundles_preCombine] at he
      obtain ⟨p, hp, rfl⟩ := List.mem_map.mp he
      obtain ⟨bytes, hencode⟩ := h.encodes p hp
      obtain ⟨y, hdecode⟩ := (Coder.loses_or_returns hencode).resolve_left (h.keeps _ (.accum hp))
      refine ⟨bytes, y, ?_, hdecode⟩
      show staged ((inputCoder.inputOrAccum accumCoder).encode (.accum p.2)) = _
      rw [hencode]
      rfl
  exact ⟨bags, hot, hbags, hhot, hweigh⟩

theorem exists_cold (h : Intact f (inputCoder.inputOrAccum accumCoder) width tagged) :
    ∃ cold, tagged.mapM (coldRows (inputCoder.inputOrAccum accumCoder)) = .ok cold ∧
      List.Forall₂ (WeighsIf (· ≠ []) (inputCoder.inputOrAccum accumCoder) (f.MadeOf accumCoder))
        cold.flatten ((tagged.flatten.map (rereadCold inputCoder)).flatMap coldWeight) := by
  have hone : ∀ e e', e ∈ tagged.flatten ∧ e' = rereadCold inputCoder e →
      ∃ out, coldBytes (inputCoder.inputOrAccum accumCoder) e = .ok out ∧ List.Forall₂
        (WeighsIf (· ≠ []) (inputCoder.inputOrAccum accumCoder) (f.MadeOf accumCoder)) out
        (coldWeight e') := by
    intro e e' he
    obtain ⟨hmem, rfl⟩ := he
    refine coldBytes_weigh accumCoder (f.MadeOf accumCoder) e (h.writes e hmem)
      fun key x hvalue hwindows => ?_
    obtain ⟨w, hw⟩ := List.exists_mem_of_ne_nil _ hwindows
    exact h.keeps _ (.input hmem hvalue hw)
  have hsame : List.Forall₂ (List.Forall₂ fun e e' => e ∈ tagged.flatten ∧
      e' = rereadCold inputCoder e) tagged (tagged.map (·.map (rereadCold inputCoder))) := by
    rw [List.forall₂_map_right_iff, List.forall₂_same]
    intro part hpart
    rw [List.forall₂_map_right_iff, List.forall₂_same]
    exact fun e he => ⟨List.mem_flatten.mpr ⟨part, hpart, he⟩, rfl⟩
  obtain ⟨cold, hcold, hweigh⟩ := EventTime.exists_cold hone hsame
  rw [← List.map_flatten] at hweigh
  exact ⟨cold, hcold, hweigh⟩

/-- If nothing is lost, the run succeeds, and every output is made of all inputs of its key that list
its window. -/
theorem summarizes (h : Intact f (inputCoder.inputOrAccum accumCoder) width tagged)
    (orders : StageOrders κ ο) (hlift : strategy.allowsLifting = true)
    {rows : List (Envelope (κ × ν))} (htagged : List.Forall₂ Tagged rows tagged.flatten) :
    ∃ used, List.Forall₂ (Brought inputCoder) rows used ∧
      Summarizes (combineTagged orders strategy f accumCoder (inputCoder.inputOrAccum accumCoder)
        width tagged) f (f.MadeOf accumCoder) .onTimeAndOnly (ListedBag used) := by
  have hlift' : { strategy with mode := .discarding : Strategy }.allowsLifting = true := hlift
  have hreread : List.Forall₂ Tagged ((tagged.flatten.map (rereadCold inputCoder)).map untagged)
      (tagged.flatten.map (rereadCold inputCoder)) :=
    List.forall₂_map_left_iff.mpr (List.forall₂_same.mpr fun e _ => tagged_untagged e)
  obtain ⟨bags, hot, hbags, hhot, hotWeigh⟩ := h.exists_hot orders.first
  obtain ⟨cold, hcold, coldWeigh⟩ := h.exists_cold
  rw [← hotRows_rereadCold inputCoder] at hbags
  have hjoined : List.Forall₂ (WeighsIf (· ≠ []) (inputCoder.inputOrAccum accumCoder)
      (f.MadeOf accumCoder)) (hot :: cold).flatten (hotWeights .onTimeAndOnly bags ++
        (tagged.flatten.map (rereadCold inputCoder)).flatMap coldWeight) := by
    rw [List.flatten_cons]
    refine List.rel_append (hotWeigh.imp fun e d hed => ?_) coldWeigh
    obtain ⟨bytes, heq, hdenotes⟩ := hed
    exact ⟨bytes, heq, fun _ => hdenotes⟩
  have hsum : ∀ {g : KeyedCombineFn κ Bytes (Except String α) (Except String ο)}
      {S : κ → Except String α → Multiset Bytes → Prop}, g.TracksBag S →
      Summarizes (combineRows strategy g width .heldUntilEnd (hot :: cold)) g S .onTimeAndOnly
        (ListedBag (hot :: cold).flatten) := by
    intro g S hg
    rw [combineRows_lifted hlift]
    exact combineBundles_summarizes hg width _
  refine ⟨_, ?_, combineTagged_summarizes_of (f.madeOf_tracksBag accumCoder)
    (congrArg (Except.map orders.first.apply) (combineRows_lifted hlift' ..)) hhot hcold hsum
    (fun key w M hM => listedBag_joined hreread hbags (rel_listed hjoined key w) hM)
    fun key w m hm => exists_joined hreread hbags (rel_listed hjoined key w) hm⟩
  rw [List.forall₂_map_right_iff, List.forall₂_map_right_iff]
  exact htagged.imp fun e t ht => brought_untagged inputCoder ht

end Intact

/-! ### When a run fails -/

/-- Some accumulator of the first stage is not encoded, some cold value is not, or something that is
delivered to the second stage cannot be decoded. -/
def SomeCoderFails (f : KeyedCombineFn κ ν α ο) (inputCoder : Coder ν) (accumCoder : Coder α)
    (width : Option Nat) (tagged : List (List (Envelope (Shard κ ν)))) : Prop :=
  (∃ p ∈ shardAccums f width tagged, ∃ cause, accumCoder.encode p.2 = .error cause) ∨
  (∃ e ∈ tagged.flatten, ∃ key x cause, e.value = .cold key x ∧ inputCoder.encode x = .error cause) ∨
  ∃ y, Delivered f width tagged y ∧ (inputCoder.inputOrAccum accumCoder).Loses y

theorem not_intact_iff : ¬Intact f (inputCoder.inputOrAccum accumCoder) width tagged ↔
    SomeCoderFails f inputCoder accumCoder width tagged := by
  have haccum : ∀ a, (inputCoder.inputOrAccum accumCoder).encode (.accum a) =
      (accumCoder.encode a).map (1 :: ·) := fun _ => rfl
  have hinput : ∀ x, (inputCoder.inputOrAccum accumCoder).encode (.input x) =
      (inputCoder.encode x).map (0 :: ·) := fun _ => rfl
  constructor
  · intro hnot
    by_contra hnone
    obtain ⟨hrefused, hnone⟩ := not_or.mp hnone
    obtain ⟨hunwritten, hlost⟩ := not_or.mp hnone
    refine hnot ⟨fun p hp => ?_, fun e he key x hvalue => ?_, fun y hy hloses =>
      hlost ⟨y, hy, hloses⟩⟩
    · cases hp' : accumCoder.encode p.2 with
      | error cause => exact absurd ⟨p, hp, cause, hp'⟩ hrefused
      | ok bytes => exact ⟨1 :: bytes, by rw [haccum, hp']; rfl⟩
    · cases hx : inputCoder.encode x with
      | error cause => exact absurd ⟨e, he, key, x, cause, hvalue, hx⟩ hunwritten
      | ok bytes => exact ⟨0 :: bytes, by rw [hinput, hx]; rfl⟩
  · intro hfails h
    rcases hfails with ⟨p, hp, cause, hrefused⟩ | ⟨e, he, key, x, cause, hvalue, hrefused⟩ |
      ⟨y, hy, hlost⟩
    · obtain ⟨bytes, hbytes⟩ := h.encodes p hp
      rw [haccum, hrefused] at hbytes
      cases hbytes
    · obtain ⟨bytes, hbytes⟩ := h.writes e he key x hvalue
      rw [hinput, hrefused] at hbytes
      cases hbytes
    · exact h.keeps y hy hlost

theorem combineTagged_fails_iff (orders : StageOrders κ ο) (hlift : strategy.allowsLifting = true)
    {rows : List (Envelope (κ × ν))} (htagged : List.Forall₂ Tagged rows tagged.flatten) :
    (∃ fault, combineTagged orders strategy f accumCoder (inputCoder.inputOrAccum accumCoder) width
      tagged = .error fault) ↔ SomeCoderFails f inputCoder accumCoder width tagged := by
  rw [← not_intact_iff]
  constructor
  · intro hfails h
    obtain ⟨fault, hfault⟩ := hfails
    obtain ⟨used, -, bags, out, hout, -⟩ := h.summarizes orders hlift htagged
    rw [hfault] at hout
    cases hout
  · intro hnot
    cases h : combineTagged orders strategy f accumCoder (inputCoder.inputOrAccum accumCoder) width
        tagged with
    | error fault => exact ⟨fault, rfl⟩
    | ok out => exact absurd (intact_of_ok hlift h) hnot

variable {k v o : ElemType} [DecidableEq k.Elem]

/-- Where windows never merge and fire at their end, a combine of spread keys fails exactly if its
input does, some accumulator of the first stage or some cold value cannot be encoded, or something that
is delivered to the second stage cannot be decoded. If it succeeds it has used every input: each output
is extracted from an accumulator made of all values of its key that list its window. The order in which
stages put out their rows does not matter. -/
theorem fanout_fails_iff {p : Pipeline} (hp : p.graph.Ordered) {s : Schedule} {q : PerKey k v o α}
    {x : Except Fault (List (Rows (.pair k v)))} (hin : p.Carries s q.input x)
    (hfn : q.input.strategy.windowFn.nonMerging = true)
    (ht : q.input.strategy.trigger = .endOfWindow) {accumCoder : Coder α}
    (hcoder : q.fn.accumulatorCoder p.registry q.inputCoder = .ok accumCoder)
    (fanout : k.Elem → UInt32) :
    ∃ c p', (q.withFanoutFn fanout).apply.begin p = (.ok c, p') ∧
      ∀ order, (∀ i, Partition.Shuffles (order i)) →
        ((∃ fault, (p'.reordered p.graph.nodes.length order).collect s c.node (.pair k o) =
            .error fault) ↔
          (∃ fault, x = .error fault) ∨ ∃ bundles, x = .ok bundles ∧
            SomeCoderFails q.fn q.inputCoder accumCoder q.width
              (tagEach s p.graph.nodes.length fanout 0 bundles)) ∧
        ∀ out, (p'.reordered p.graph.nodes.length order).collect s c.node (.pair k o) = .ok out →
          ∃ bundles used, x = .ok bundles ∧
            List.Forall₂ (Brought q.inputCoder) bundles.flatten used ∧
            Summarizes (.ok out) q.fn (q.fn.MadeOf accumCoder) .onTimeAndOnly (ListedBag used) := by
  have hlift : q.input.strategy.allowsLifting = true := by
    rw [Strategy.allowsLifting, hfn, ht]
    rfl
  obtain ⟨c, p', hbuild, hcollect⟩ := PerKey.collect_spread hp hin hcoder fanout
  refine ⟨c, p', hbuild, fun order horder => ?_⟩
  obtain ⟨orders, hrun⟩ := hcollect order horder
  rw [hrun]
  cases x with
  | error fault =>
    refine ⟨⟨fun _ => .inl ⟨fault, rfl⟩, fun _ => ⟨fault, rfl⟩⟩, fun out hout => ?_⟩
    cases hout
  | ok bundles =>
    have htagged : List.Forall₂ Tagged bundles.flatten
        (tagEach s p.graph.nodes.length fanout 0 bundles).flatten :=
      forall₂_flatten (tagged_tagEach s p.graph.nodes.length fanout 0 bundles)
    refine ⟨(combineTagged_fails_iff orders hlift htagged).trans ⟨fun h => .inr ⟨bundles, rfl, h⟩, ?_⟩,
      fun out hout => ?_⟩
    · rintro (⟨fault, hfault⟩ | ⟨_, hsame, h⟩)
      · cases hfault
      · exact Except.ok.inj hsame ▸ h
    · obtain ⟨used, hused, hsummary⟩ := (intact_of_ok hlift hout).summarizes orders hlift htagged
      refine ⟨bundles, used, rfl, hused, ?_⟩
      rw [← show _ = Except.ok out from hout]
      exact hsummary

/-- Writes a number as one byte, and reads any byte back but a two. -/
def Coder.missingTwo : Coder Nat where
  encode n := .ok [UInt8.ofNat n]
  decode
    | [] => (.error .unexpectedEnd, [])
    | 2 :: rest => (.error (.unknownTag 2), rest)
    | b :: rest => (.ok b.toNat, rest)

/-- Writes any byte but a two. -/
def Coder.refusingTwo : Coder UInt8 where
  encode b := if b = 2 then .error .unexpectedEnd else .ok [b]
  decode
    | [] => (.error .unexpectedEnd, [])
    | b :: rest => (.ok b, rest)

/-- Two bundles have each a value for one shard, so that only merging them makes the accumulator that
is lost. The values of the other shard and of the other key do not make up for it. -/
theorem fanout_fails_iff_of_merged :
    let w : Window := .interval 0 10
    let bundles : List (Rows (.pair .word8 .word8)) :=
      [[⟨(7, 1), 0, [w], .noFiring⟩, ⟨(8, 5), 1, [w], .noFiring⟩],
        [⟨(7, 2), 4, [w], .noFiring⟩, ⟨(7, 3), 2, [w], .noFiring⟩]]
    let source : Node Partition := .source fun _ => bundles.map (Partition.mk (.pair .word8 .word8))
    let p : Pipeline := { graph := Graph.add {} source [] }
    let s : Schedule := ⟨2, fun _ _ => 0⟩
    let q : PerKey .word8 .word8 .word32 Nat :=
      { input := ⟨0, { windowFn := .fixed 10 }⟩
        fn := { KeyedCombineFn.counting UInt8 UInt8 with
          accumulatorCoder := fun _ _ => .ok .missingTwo } }
    let fanout : UInt8 → UInt32 := fun key => if key = 7 then 2 else 0
    p.graph.Ordered ∧ p.Carries s q.input (.ok bundles) ∧
      q.input.strategy.windowFn.nonMerging = true ∧ q.input.strategy.trigger = .endOfWindow ∧
      (((7, 0), w), 2) ∈ shardAccums q.fn none (tagEach s p.graph.nodes.length fanout 0 bundles) ∧
      ∃ c p', (q.withFanoutFn fanout).apply.begin p = (.ok c, p') ∧
        ∀ order, (∀ i, Partition.Shuffles (order i)) →
          ∃ fault, (p'.reordered 1 order).collect s c.node (.pair .word8 .word32) = .error fault := by
  intro w bundles source p s q fanout
  have hp : p.graph.Ordered := by
    intro e he
    cases he
  have hin : p.Carries s q.input (.ok bundles) := Pipeline.carries_of_bundles hp rfl
  have hmerged : shardAccums q.fn none (tagEach s p.graph.nodes.length fanout 0 bundles) =
      [(((7, 0), w), 2), (((7, 1), w), 1)] := by
    cbv
  obtain ⟨c, p', hbuild, hruns⟩ := fanout_fails_iff hp hin rfl rfl rfl fanout
  have hmem : (((7, 0), w), 2) ∈
      shardAccums q.fn none (tagEach s p.graph.nodes.length fanout 0 bundles) := by
    rw [hmerged]
    exact List.mem_cons_self ..
  refine ⟨hp, hin, rfl, rfl, hmem, c, p', hbuild, fun order horder => ?_⟩
  refine (hruns order horder).1.mpr (.inr ⟨bundles, rfl, .inr (.inr ⟨_, .accum hmem, ?_⟩)⟩)
  exact ⟨[1, 2], .unknownTag 2, rfl, rfl⟩

/-- A run may fail although every accumulator is encoded and everything that is delivered can be
decoded: if the coder of the inputs refuses a cold value, or if the input is a grouping whose trigger
gives up, so that nothing gets as far as the first stage. -/
theorem fanout_fails_elsewhere :
    let w : Window := .interval 0 10
    let bundles : List (Rows (.pair .word8 .word8)) := [[⟨(7, 2), 0, [w], .noFiring⟩]]
    let source : Node Partition := .source fun _ => bundles.map (Partition.mk (.pair .word8 .word8))
    let p : Pipeline := { graph := Graph.add {} source [] }
    let s : Schedule := ⟨1, fun _ _ => 0⟩
    let q : PerKey .word8 .word8 .word32 Nat :=
      { input := ⟨0, { windowFn := .fixed 10 }⟩
        fn := .counting UInt8 UInt8
        inputCoder := .refusingTwo }
    let tagged := tagEach s 1 (fun _ => 0) 0 bundles
    let givingUp : Collection (.pair .word8 .word8) :=
      ⟨0, { windowFn := .fixed 10, trigger := .leaf (.custom (.failing 1 .element)) }⟩
    let p₂ : Pipeline := (givingUp.groupByKey.begin p).2
    let q₂ : PerKey .word8 (.list .word8) .word32 Nat :=
      { input := ⟨1, { windowFn := .fixed 10 }⟩, fn := .counting UInt8 (List UInt8) }
    (∃ c p' fault, (q.withFanoutFn fun _ => 0).apply.begin p = (.ok c, p') ∧
        p'.collect s c.node (.pair .word8 .word32) = .error fault ∧
        ¬((∃ a ∈ shardAccums q.fn none tagged, ∃ cause,
            (Coder.ofWire Wire.natural).encode a.2 = .error cause) ∨
          ∃ y, Delivered q.fn none tagged y ∧
            (q.inputCoder.inputOrAccum (.ofWire Wire.natural)).Loses y)) ∧
    ∃ c p' fault, (q₂.withFanoutFn fun _ => 2).apply.begin p₂ = (.ok c, p') ∧
        p'.collect s c.node (.pair .word8 .word32) = .error fault ∧
        p₂.Carries s q₂.input (.error fault) := by
  intro w bundles source p s q tagged givingUp p₂ q₂
  have hp : p.graph.Ordered := by
    intro e he
    cases he
  constructor
  · have htagged : List.Forall₂ Tagged bundles.flatten tagged.flatten :=
      forall₂_flatten (tagged_tagEach s 1 (fun _ => 0) 0 bundles)
    obtain ⟨c, p', hbuild, hcollect⟩ := PerKey.collect_spread (q := q) hp
      (Pipeline.carries_of_bundles hp rfl) rfl fun _ => 0
    obtain ⟨orders, hrun⟩ := hcollect (fun _ => id) fun _ => Partition.shuffles_id
    rw [Pipeline.reordered_id] at hrun
    have hrefused : SomeCoderFails q.fn q.inputCoder (.ofWire Wire.natural) none tagged :=
      .inr (.inl ⟨_, List.mem_singleton_self _, 7, 2, .unexpectedEnd, rfl, rfl⟩)
    have hlift : q.input.strategy.allowsLifting = true := rfl
    obtain ⟨fault, hfault⟩ := (combineTagged_fails_iff orders hlift htagged).mpr hrefused
    refine ⟨c, p', fault, hbuild, hrun.trans hfault, ?_⟩
    have hcold : shardAccums q.fn none tagged = [] := by
      cbv
    rintro (⟨a, ha, -⟩ | ⟨y, hy, hlost⟩)
    · rw [hcold] at ha
      cases ha
    · cases hy with
      | accum ha =>
        rw [hcold] at ha
        cases ha
      | input he hvalue _ =>
        obtain rfl := List.mem_singleton.mp he
        cases hvalue
        obtain ⟨bytes, cause, hencode, -⟩ := hlost
        cases hencode
  · have hgroups : groupRows givingUp.strategy .elementTime bundles.flatten =
        .error (.during "group_by_key: trigger evaluation failed" (Policy.injected 0)) := by
      cbv
    have hcarries : p.Carries s givingUp (.ok bundles) := Pipeline.carries_of_bundles hp rfl
    obtain ⟨hgrown, -, hgrouped⟩ :=
      (Pipeline.builds_groupByKey hp hcarries .elementTime).answered rfl
    have hin := (hgrouped.withStrategy q₂.input.strategy).of_eq
      (congrArg (Except.map ([·])) hgroups)
    obtain ⟨c, p', hbuild, hcollect⟩ :=
      PerKey.collect_spread (q := q₂) hgrown.ordered hin rfl fun _ => 2
    obtain ⟨orders, hrun⟩ := hcollect (fun _ => id) fun _ => Partition.shuffles_id
    rw [Pipeline.reordered_id] at hrun
    exact ⟨c, p', _, hbuild, hrun, hin⟩

end EventTime
