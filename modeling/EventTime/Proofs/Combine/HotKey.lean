import EventTime.Proofs.Combine.Bags

/-!
# Combines of hot keys

The first combine turns the hot elements of a shard into an encoded accumulator, the second one
folds these and the encoded cold elements together. As long as coders keep what they are given, every
byte string on the way denotes a multiset of inputs, and so the results are accumulators that stand
for the inputs behind all of them.
-/

namespace EventTime

variable {κ ν α ο : Type}

/-- A value survives encoding. -/
def Coder.RoundTrips (c : Coder ν) (a : ν) : Prop :=
  ∃ bytes, c.encode a = .ok bytes ∧ c.decodeFront bytes = .ok a

/-- The coder writes `a`, and reads `b` back. -/
def Coder.Returns (c : Coder ν) (a b : ν) : Prop :=
  ∃ bytes, c.encode a = .ok bytes ∧ c.decodeFront bytes = .ok b

/-- Every accumulator is encoded, and decoded to one that stands for the same inputs. -/
def Coder.Keeps (c : Coder α) (R : κ → α → Multiset ν → Prop) : Prop :=
  ∀ k a m, R k a m → ∃ bytes b, c.encode a = .ok bytes ∧ c.decodeFront bytes = .ok b ∧ R k b m

theorem Coder.Keeps.returned {c : Coder α} {R : κ → α → Multiset ν → Prop} (h : c.Keeps R)
    (key : κ) (a b : α) (m : Multiset ν) (ha : R key a m) (hb : c.Returns a b) : R key b m := by
  obtain ⟨bytes, hencode, hdecode⟩ := hb
  obtain ⟨bytes', b', hencode', hdecode', hb'⟩ := h key a m ha
  obtain rfl := Except.ok.inj (hencode.symm.trans hencode')
  rwa [Except.ok.inj (hdecode.symm.trans hdecode')]

/-- The inputs behind an encoded input or accumulator. -/
inductive Denotes (coder : Coder (InputOrAccum ν α)) (R : κ → α → Multiset ν → Prop) (key : κ)
    (bytes : Bytes) : Multiset ν → Prop
  | input {x : ν} : coder.decodeFront bytes = .ok (.input x) → Denotes coder R key bytes {x}
  | accum {a : α} {m : Multiset ν} : coder.decodeFront bytes = .ok (.accum a) → R key a m →
      Denotes coder R key bytes m

variable {inputCoder : Coder ν} {accumCoder : Coder α} {coder : Coder (InputOrAccum ν α)}
  {f : KeyedCombineFn κ ν α ο} {R : κ → α → Multiset ν → Prop}

theorem Denotes.readable {key : κ} {bytes : Bytes} {m : Multiset ν}
    (h : Denotes coder R key bytes m) : ∃ y, coder.decodeFront bytes = .ok y := by
  cases h with
  | input hdecode => exact ⟨_, hdecode⟩
  | accum hdecode ha => exact ⟨_, hdecode⟩

theorem returns_input (accumCoder : Coder α) {x y : ν} (h : inputCoder.Returns x y) :
    (inputCoder.inputOrAccum accumCoder).Returns (.input x) (.input y) := by
  obtain ⟨bytes, hencode, hdecode⟩ := h
  refine ⟨0 :: bytes, ?_, ?_⟩
  · show (inputCoder.encode x).map (0 :: ·) = .ok (0 :: bytes)
    rw [hencode]
    rfl
  · show (inputCoder.decodeFront bytes).map InputOrAccum.input = .ok (.input y)
    rw [hdecode]
    rfl

theorem returns_accum (inputCoder : Coder ν) {a b : α} (h : accumCoder.Returns a b) :
    (inputCoder.inputOrAccum accumCoder).Returns (.accum a) (.accum b) := by
  obtain ⟨bytes, hencode, hdecode⟩ := h
  refine ⟨1 :: bytes, ?_, ?_⟩
  · show (accumCoder.encode a).map (1 :: ·) = .ok (1 :: bytes)
    rw [hencode]
    rfl
  · show (accumCoder.decodeFront bytes).map InputOrAccum.accum = .ok (.accum b)
    rw [hdecode]
    rfl

/-- What comes back for an accumulator is an accumulator. -/
theorem Coder.Returns.of_accum {a : α} {y : InputOrAccum ν α}
    (h : (inputCoder.inputOrAccum accumCoder).Returns (.accum a) y) :
    ∃ b, y = .accum b ∧ accumCoder.Returns a b := by
  obtain ⟨bytes, hencode, hdecode⟩ := h
  obtain ⟨front, hfront, rfl⟩ := ok_of_map (x := accumCoder.encode a) hencode
  obtain ⟨b, hb, rfl⟩ := ok_of_map (x := accumCoder.decodeFront front) hdecode
  exact ⟨b, rfl, front, hfront, hb⟩

theorem denotes_input (accumCoder : Coder α) (R : κ → α → Multiset ν → Prop)
    {x : ν} (h : inputCoder.RoundTrips x) (key : κ) :
    ∃ bytes, (inputCoder.inputOrAccum accumCoder).encode (.input x) = .ok bytes ∧
      Denotes (inputCoder.inputOrAccum accumCoder) R key bytes {x} := by
  obtain ⟨bytes, hencode, hdecode⟩ := returns_input accumCoder h
  exact ⟨bytes, hencode, .input hdecode⟩

theorem denotes_accum (inputCoder : Coder ν) (h : accumCoder.Keeps R) {key : κ} {a : α}
    {m : Multiset ν}
    (ha : R key a m) :
    ∃ bytes, (inputCoder.inputOrAccum accumCoder).encode (.accum a) = .ok bytes ∧
      Denotes (inputCoder.inputOrAccum accumCoder) R key bytes m := by
  obtain ⟨front, b, hfront, hback, hb⟩ := h key a m ha
  obtain ⟨bytes, hencode, hdecode⟩ := returns_accum inputCoder ⟨front, hfront, hback⟩
  exact ⟨bytes, hencode, .accum hdecode hb⟩

/-! ### The two combines -/

theorem preCombine_tracks (hf : f.TracksBag R) :
    (preCombine f coder accumCoder).TracksBag fun key a m => R key.1 a m where
  create key := hf.create key.1
  add := hf.add
  merge := hf.merge

/-- An accumulator of the second combine stands for encodings, whatever inputs these denote. -/
def StagedFor (coder : Coder (InputOrAccum ν α)) (R : κ → α → Multiset ν → Prop) (key : κ)
    (acc : Except String α) (encoded : Multiset Bytes) : Prop :=
  ∀ inputs, Multiset.Rel (Denotes coder R key) encoded inputs → ∃ a, acc = .ok a ∧
    R key a inputs.sum

theorem foldStaged_denotes (hf : f.TracksBag R) {key : κ} {a : α} {bytes : Bytes}
    {m m' : Multiset ν} (ha : R key a m) (hbytes : Denotes coder R key bytes m') :
    ∃ b, foldStaged f coder key (.ok a) bytes = .ok b ∧ R key b (m + m') := by
  cases hbytes with
  | @input x hdecode =>
    refine ⟨f.add key a x, ?_, hf.add ha x⟩
    simp only [foldStaged, hdecode]
  | @accum b _ hdecode hb =>
    refine ⟨f.merge key [a, b], ?_, ?_⟩
    · simp only [foldStaged, hdecode]
    · have h := hf.merge (by simp) (.cons ha (.cons hb .nil))
      rwa [List.sum_cons, List.sum_singleton] at h

theorem stagedFor_list {key : κ} {accs : List (Except String α)} {encoded : List (Multiset Bytes)}
    (h : List.Forall₂ (StagedFor coder R key) accs encoded) {inputs : Multiset (Multiset ν)}
    (hin : Multiset.Rel (Denotes coder R key) encoded.sum inputs) :
    ∃ as ms, accs.mapM id = .ok as ∧ as.length = accs.length ∧ List.Forall₂ (R key) as ms ∧
      ms.sum = inputs.sum := by
  induction h generalizing inputs with
  | nil =>
    rw [List.sum_nil, Multiset.rel_zero_left] at hin
    exact ⟨[], [], rfl, rfl, .nil, by rw [hin]; rfl⟩
  | @cons acc M accs encoded hacc _ ih =>
    rw [List.sum_cons, Multiset.rel_add_left] at hin
    obtain ⟨first, rest, hfirst, hrest, rfl⟩ := hin
    obtain ⟨a, rfl, ha⟩ := hacc first hfirst
    obtain ⟨as, ms, hmap, hlen, hall, hsum⟩ := ih hrest
    refine ⟨a :: as, first.sum :: ms, ?_, by simp [hlen], .cons ha hall, ?_⟩
    · rw [List.mapM_cons, hmap]
      rfl
    · rw [List.sum_cons, hsum, Multiset.sum_add]

theorem postCombine_tracks (hf : f.TracksBag R) :
    (postCombine f coder accumCoder).TracksBag (StagedFor coder R) where
  create key inputs hin := by
    rw [Multiset.rel_zero_left] at hin
    rw [hin]
    exact ⟨f.create key, rfl, hf.create key⟩
  add {key acc encoded} hacc bytes inputs hin := by
    rw [Multiset.rel_add_left] at hin
    obtain ⟨before, last, hbefore, hlast, rfl⟩ := hin
    obtain ⟨a, rfl, ha⟩ := hacc before hbefore
    rw [← Multiset.cons_zero, Multiset.rel_cons_left] at hlast
    obtain ⟨m, none, hm, hnone, rfl⟩ := hlast
    rw [Multiset.rel_zero_left] at hnone
    obtain ⟨b, hb, hR⟩ := foldStaged_denotes hf ha hm
    refine ⟨b, hb, ?_⟩
    rw [hnone, Multiset.sum_add, Multiset.cons_zero, Multiset.sum_singleton]
    exact hR
  merge {key accs encoded} hne hall inputs hin := by
    obtain ⟨as, ms, hmap, hlen, has, hsum⟩ := stagedFor_list hall hin
    have hne' : as ≠ [] := by
      intro hnil
      rw [hnil] at hlen
      exact hne (List.eq_nil_of_length_eq_zero hlen.symm)
    refine ⟨f.merge key as, ?_, hsum ▸ hf.merge hne' has⟩
    show ((accs.mapM id).map (f.merge key)) = _
    rw [hmap]
    rfl

theorem staged_eq_ok {β : Type} {x : Except CoderError β} {b : β} (h : staged x = .ok b) :
    x = .ok b := by
  cases x with
  | error cause => cases h
  | ok a => exact congrArg Except.ok (Except.ok.inj h)

theorem raiseStaged_eq_ok {β : Type} {activity : String} {e : Envelope (κ × Except String β)}
    {d : Envelope (κ × β)} (h : raiseStaged activity e = .ok d) :
    ∃ b, e.value.2 = .ok b ∧ d = e.withValue (e.value.1, b) := by
  unfold raiseStaged at h
  split at h
  · rename_i b hb
    exact ⟨b, hb, (Except.ok.inj h).symm⟩
  · cases h

/-- An encoding weighs what it denotes: same key, same envelope. -/
def Weighs (coder : Coder (InputOrAccum ν α)) (R : κ → α → Multiset ν → Prop)
    (e : Envelope (κ × Bytes)) (d : Envelope (κ × Multiset ν)) : Prop :=
  ∃ bytes, e = d.withValue (d.value.1, bytes) ∧ Denotes coder R d.value.1 bytes d.value.2

/-- The bags of the shards, each as one element under the key alone. -/
def hotWeights (info : PaneInfo) (bags : List (Bag (κ × UInt32) ν)) :
    List (Envelope (κ × Multiset ν)) :=
  bags.map fun c => .ofPane (c.key.1, c.values) c.window info

def coldWeight (e : Envelope (Shard κ ν)) : List (Envelope (κ × Multiset ν)) :=
  match e.value with
  | .hot _ _ _ => []
  | .cold key x => [e.withValue (key, {x})]

section

variable {rows : List (Envelope (κ × ν))} {tagged : List (Envelope (Shard κ ν))}

theorem exists_of_mem_hotRows (h : List.Forall₂ Tagged rows tagged)
    {d : Envelope ((κ × UInt32) × ν)} (hd : d ∈ hotRows tagged) :
    ∃ e ∈ rows, e.value.1 = d.value.1.1 ∧ d.windows = e.windows ∧ d.timestamp = e.timestamp := by
  obtain ⟨t, ht, hdt⟩ := List.mem_flatMap.mp hd
  obtain ⟨e, he, rfl | ⟨shard, rfl⟩⟩ := exists_mem_left h ht
  · cases hdt
  · rw [List.mem_singleton.mp hdt]
    exact ⟨e, he, rfl, rfl, rfl⟩

theorem exists_of_mem_coldWeight (h : List.Forall₂ Tagged rows tagged)
    {d : Envelope (κ × Multiset ν)} (hd : d ∈ tagged.flatMap coldWeight) :
    ∃ e ∈ rows, e.value.1 = d.value.1 ∧ d.windows = e.windows := by
  obtain ⟨t, ht, hdt⟩ := List.mem_flatMap.mp hd
  obtain ⟨e, he, rfl | ⟨shard, rfl⟩⟩ := exists_mem_left h ht
  · rw [List.mem_singleton.mp hdt]
    exact ⟨e, he, rfl, rfl⟩
  · cases hdt

theorem hot_or_cold (h : List.Forall₂ Tagged rows tagged) {e : Envelope (κ × ν)} (he : e ∈ rows) :
    (∃ d ∈ hotRows tagged, d.value.1.1 = e.value.1 ∧ d.windows = e.windows) ∨
      ∃ d ∈ tagged.flatMap coldWeight, d.value.1 = e.value.1 ∧ d.windows = e.windows := by
  obtain ⟨t, ht, rfl | ⟨shard, rfl⟩⟩ := exists_mem_right h he
  · exact .inr ⟨_, List.mem_flatMap.mpr ⟨_, ht, List.mem_singleton_self _⟩, rfl, rfl⟩
  · exact .inl ⟨_, List.mem_flatMap.mpr ⟨_, ht, List.mem_singleton_self _⟩, rfl, rfl⟩

end

/-- If the result of every shard is encoded and can be decoded, it weighs what the shard stands for. -/
theorem hotBytes_weigh_of_returns
    (hacc : ∀ key a b m, R key a m → accumCoder.Returns a b → R key b m) {info : PaneInfo}
    {bags : List (Bag (κ × UInt32) ν)}
    {partials : List (Envelope ((κ × UInt32) × Except String Bytes))}
    (h : List.Forall₂ (OutputOf (preCombine f (inputCoder.inputOrAccum accumCoder) accumCoder)
      (fun key => R key.1) info) bags partials)
    (hread : ∀ e ∈ partials, ∃ bytes y, e.value.2 = .ok bytes ∧
      (inputCoder.inputOrAccum accumCoder).decodeFront bytes = .ok y) :
    ∃ hot, partials.mapM (fun e => raiseStaged "hot key pre-combine"
        (e.withValue (e.value.1.1, e.value.2))) = .ok hot ∧
      List.Forall₂ (Weighs (inputCoder.inputOrAccum accumCoder) R) hot (hotWeights info bags) := by
  have hraise : ∀ (c : Bag (κ × UInt32) ν) (e : Envelope ((κ × UInt32) × Except String Bytes)),
      OutputOf (preCombine f (inputCoder.inputOrAccum accumCoder) accumCoder)
        (fun key => R key.1) info c e ∧ (∃ bytes y, e.value.2 = .ok bytes ∧
        (inputCoder.inputOrAccum accumCoder).decodeFront bytes = .ok y) →
      ∃ d, raiseStaged "hot key pre-combine" (e.withValue (e.value.1.1, e.value.2)) = .ok d ∧
        Weighs (inputCoder.inputOrAccum accumCoder) R d
          (.ofPane (c.key.1, c.values) c.window info) := by
    rintro c _ ⟨⟨acc, ha, rfl⟩, bytes, y, hbytes, hdecode⟩
    have hencode : (inputCoder.inputOrAccum accumCoder).encode (.accum acc) = .ok bytes :=
      staged_eq_ok hbytes
    obtain ⟨b, rfl, hreturns⟩ := Coder.Returns.of_accum ⟨bytes, hencode, hdecode⟩
    refine ⟨.ofPane (c.key.1, bytes) c.window info, ?_, bytes, rfl,
      .accum hdecode (hacc _ _ _ _ ha hreturns)⟩
    simp only [raiseStaged, preCombine, Envelope.ofPane, Envelope.withValue, hencode, staged]
  have hboth := ((List.forall₂_and_left partials bags).mpr ⟨hread, h.flip⟩).flip
  obtain ⟨hot, hmap, hall⟩ := mapM_of_forall₂ hboth fun c e hce => hraise c e hce.symm
  refine ⟨hot, hmap, ?_⟩
  rw [hotWeights, List.forall₂_map_right_iff]
  exact hall.flip

theorem hotBytes_weigh (hacc : accumCoder.Keeps R) {info : PaneInfo}
    {bags : List (Bag (κ × UInt32) ν)}
    {partials : List (Envelope ((κ × UInt32) × Except String Bytes))}
    (h : List.Forall₂ (OutputOf (preCombine f (inputCoder.inputOrAccum accumCoder) accumCoder)
      (fun key => R key.1) info) bags partials) :
    ∃ hot, partials.mapM (fun e => raiseStaged "hot key pre-combine"
        (e.withValue (e.value.1.1, e.value.2))) = .ok hot ∧
      List.Forall₂ (Weighs (inputCoder.inputOrAccum accumCoder) R) hot (hotWeights info bags) := by
  refine hotBytes_weigh_of_returns hacc.returned h fun e he => ?_
  obtain ⟨c, -, acc, ha, rfl⟩ := exists_mem_left h he
  obtain ⟨bytes, hencode, hdenotes⟩ := denotes_accum inputCoder hacc ha
  have hstaged : staged ((inputCoder.inputOrAccum accumCoder).encode (.accum acc)) = .ok bytes := by
    rw [hencode]
    rfl
  obtain ⟨y, hdecode⟩ := hdenotes.readable
  exact ⟨bytes, y, hstaged, hdecode⟩

/-- The cold elements have values that survive encoding. -/
def ColdRoundTrip (coder : Coder ν) (rows : List (Envelope (Shard κ ν))) : Prop :=
  ∀ e ∈ rows, ∀ key x, e.value = .cold key x → coder.RoundTrips x

theorem coldRoundTrip_of_tagged {rows : List (Envelope (κ × ν))}
    {tagged : List (Envelope (Shard κ ν))} (h : List.Forall₂ Tagged rows tagged)
    (hrows : ∀ e ∈ rows, inputCoder.RoundTrips e.value.2) : ColdRoundTrip inputCoder tagged := by
  intro t ht key x hvalue
  obtain ⟨e, he, rfl | ⟨shard, rfl⟩⟩ := exists_mem_left h ht
  · obtain ⟨-, rfl⟩ := Shard.cold.inj hvalue
    exact hrows e he
  · cases hvalue

/-- What is encoded for cold elements stands in a relation to the weights of others, if it does so
element by element. -/
theorem exists_cold {W : Envelope (κ × Bytes) → Envelope (κ × Multiset ν) → Prop}
    {r : Envelope (Shard κ ν) → Envelope (Shard κ ν) → Prop}
    (hone : ∀ e e', r e e' → ∃ out, coldBytes coder e = .ok out ∧
      List.Forall₂ W out (coldWeight e'))
    {tagged tagged' : List (List (Envelope (Shard κ ν)))}
    (h : List.Forall₂ (List.Forall₂ r) tagged tagged') :
    ∃ cold, tagged.mapM (coldRows coder) = .ok cold ∧
      List.Forall₂ W cold.flatten (tagged'.flatten.flatMap coldWeight) := by
  have hrows : ∀ rows' rows, List.Forall₂ r rows rows' → ∃ out, coldRows coder rows = .ok out ∧
      List.Forall₂ W out (rows'.flatMap coldWeight) := by
    intro rows' rows hrows
    obtain ⟨lists, hlists, hall⟩ := mapM_of_forall₂ (q := fun e' out =>
      List.Forall₂ W out (coldWeight e')) hrows.flip fun e' e he => hone e e' he
    refine ⟨lists.flatten, ?_, forall₂_flatten ?_⟩
    · rw [coldRows, hlists]
      rfl
    · rw [List.forall₂_map_right_iff]
      exact hall.flip
  obtain ⟨cold, hcold, hall⟩ := mapM_of_forall₂ (q := fun rows' out =>
    List.Forall₂ W out (rows'.flatMap coldWeight)) h.flip hrows
  refine ⟨cold, hcold, ?_⟩
  rw [List.flatMap_def, List.map_flatten, List.flatten_flatten, List.map_map]
  refine forall₂_flatten ?_
  rw [List.forall₂_map_right_iff]
  exact hall.flip

theorem cold_weigh (accumCoder : Coder α) (R : κ → α → Multiset ν → Prop)
    {tagged : List (List (Envelope (Shard κ ν)))}
    (hin : ColdRoundTrip inputCoder tagged.flatten) :
    ∃ cold, tagged.mapM (coldRows (inputCoder.inputOrAccum accumCoder)) = .ok cold ∧
      List.Forall₂ (Weighs (inputCoder.inputOrAccum accumCoder) R) cold.flatten
        (tagged.flatten.flatMap coldWeight) := by
  have hsame : List.Forall₂ (List.Forall₂ fun e e' => e ∈ tagged.flatten ∧ e = e') tagged tagged :=
    List.forall₂_same.mpr fun rows hrows => List.forall₂_same.mpr fun e he =>
      ⟨List.mem_flatten.mpr ⟨rows, hrows, he⟩, rfl⟩
  refine exists_cold ?_ hsame
  rintro e _ ⟨he, rfl⟩
  cases hvalue : e.value with
  | hot key shard x =>
    refine ⟨[], by simp only [coldBytes, hvalue], ?_⟩
    simp only [coldWeight, hvalue]
    exact .nil
  | cold key x =>
    obtain ⟨bytes, hencode, hdenotes⟩ := denotes_input accumCoder R (hin e he key x hvalue) key
    refine ⟨[e.withValue (key, bytes)], by simp only [coldBytes, hvalue, hencode], ?_⟩
    simp only [coldWeight, hvalue]
    exact .cons ⟨bytes, rfl, hdenotes⟩ .nil

theorem results_output {info : PaneInfo} {C : κ → Window → Multiset ν → Prop}
    {groups : List (Bag κ Bytes)} {results : List (Envelope (κ × Except String ο))}
    (h : List.Forall₂ (OutputOf (postCombine f coder accumCoder) (StagedFor coder R) info) groups
      results)
    (hgroups : ∀ c ∈ groups, ∃ ms, Multiset.Rel (Denotes coder R c.key) c.values ms ∧
      C c.key c.window ms.sum) :
    ∃ bags out, results.mapM (raiseStaged "hot key post-combine") = .ok out ∧
      bags.map (fun c => (c.key, c.window)) = groups.map (fun c => (c.key, c.window)) ∧
      (∀ c ∈ bags, C c.key c.window c.values) ∧ List.Forall₂ (OutputOf f R info) bags out := by
  induction h with
  | nil => exact ⟨[], [], rfl, rfl, by simp, .nil⟩
  | @cons c e groups results hce _ ih =>
    obtain ⟨bags, out, hmap, hkeys, hC, hall⟩ :=
      ih fun c hc => hgroups c (List.mem_cons_of_mem _ hc)
    obtain ⟨acc, hacc, rfl⟩ := hce
    obtain ⟨ms, hrel, hms⟩ := hgroups c (List.mem_cons_self ..)
    obtain ⟨a, rfl, ha⟩ := hacc ms hrel
    refine ⟨⟨c.key, c.window, ms.sum⟩ :: bags,
      .ofPane (c.key, f.extract c.key a) c.window info :: out, ?_, ?_, ?_, .cons ⟨a, ha, rfl⟩ hall⟩
    · rw [List.mapM_cons, hmap]
      rfl
    · rw [List.map_cons, List.map_cons, hkeys]
    · intro d hd
      rcases List.mem_cons.mp hd with rfl | hd
      · exact hms
      · exact hC d hd

/-- If what is encoded for the bags of the second combine denotes the bags that `C` describes, its
results are raised to one element for each of these. -/
theorem Summarizes.raised {info : PaneInfo} {C : κ → Window → Multiset ν → Prop}
    {C' : κ → Window → Multiset Bytes → Prop} {results : List (Envelope (κ × Except String ο))}
    (h : Summarizes (.ok results) (postCombine f coder accumCoder) (StagedFor coder R) info C')
    (hsound : ∀ k w M, C' k w M → ∃ ms, Multiset.Rel (Denotes coder R k) M ms ∧ C k w ms.sum)
    (hcomplete : ∀ k w m, C k w m → ∃ M, C' k w M) :
    Summarizes (results.mapM (raiseStaged "hot key post-combine")) f R info C := by
  obtain ⟨groups, results, hresults, hgroups, hrows⟩ := h
  obtain rfl := Except.ok.inj hresults
  obtain ⟨final, out, hout, hkeys, hfinal, houtputs⟩ := results_output hrows fun c hc =>
    hsound _ _ _ (hgroups.sound c hc)
  refine ⟨final, out, hout, ⟨hkeys ▸ hgroups.nodup, hfinal, ?_⟩, houtputs⟩
  intro k w m hm
  obtain ⟨M, hM⟩ := hcomplete k w m hm
  obtain ⟨c, hc, rfl, rfl⟩ := hgroups.complete hM
  have hmem : (c.key, c.window) ∈ final.map fun d => (d.key, d.window) := by
    rw [hkeys]
    exact List.mem_map_of_mem hc
  obtain ⟨d, hd, heq⟩ := List.mem_map.mp hmem
  exact ⟨d, hd, (Prod.mk.inj heq).1, (Prod.mk.inj heq).2⟩

/-! ### Both stages -/

variable [DecidableEq κ]

/-- If both stages of encoding succeed, and what they yield denotes for the bags of the second combine
the bags that `C` describes, then the whole puts out one element for each of these. -/
theorem combineTagged_summarizes_of {orders : StageOrders κ ο} {strategy : Strategy}
    {width : Option Nat}
    {tagged : List (List (Envelope (Shard κ ν)))} {info : PaneInfo}
    {C : κ → Window → Multiset ν → Prop} {C' : κ → Window → Multiset Bytes → Prop}
    {partials : List (Envelope ((κ × UInt32) × Except String Bytes))}
    {hot : List (Envelope (κ × Bytes))} {cold : List (List (Envelope (κ × Bytes)))}
    (hf : f.TracksBag R)
    (hpartials : (combineRows { strategy with mode := .discarding } (preCombine f coder accumCoder)
      width .elementTime (tagged.map hotRows)).map orders.first.apply = .ok partials)
    (hhot : partials.mapM (fun e => raiseStaged "hot key pre-combine"
      (e.withValue (e.value.1.1, e.value.2))) = .ok hot)
    (hcold : tagged.mapM (coldRows coder) = .ok cold)
    (hsum : ∀ {g : KeyedCombineFn κ Bytes (Except String α) (Except String ο)}
      {S : κ → Except String α → Multiset Bytes → Prop}, g.TracksBag S →
      Summarizes (combineRows strategy g width .heldUntilEnd (hot :: cold)) g S info C')
    (hsound : ∀ k w M, C' k w M → ∃ ms, Multiset.Rel (Denotes coder R k) M ms ∧ C k w ms.sum)
    (hcomplete : ∀ k w m, C k w m → ∃ M, C' k w M) :
    Summarizes (combineTagged orders strategy f accumCoder coder width tagged) f R info C := by
  have hstaged : (postCombine f coder accumCoder).TracksBag (StagedFor coder R) :=
    postCombine_tracks hf
  obtain ⟨groups, results, hresults, hgroups, hrows⟩ := (hsum hstaged).shuffled orders.second
  have hraise : combineTagged orders strategy f accumCoder coder width tagged =
      results.mapM (raiseStaged "hot key post-combine") := by
    simp only [combineTagged, bind, Except.bind, hpartials, hhot, hcold, hresults]
  rw [hraise]
  exact Summarizes.raised ⟨groups, results, rfl, hgroups, hrows⟩ hsound hcomplete

/-- If the first combine sorts the hot elements into bags, and the second sorts what weighs these bags
and the cold elements into the bags that `C` describes, then the whole puts out one element for each
of them, in whatever order its stages put out their rows. -/
theorem combineTagged_summarizes (orders : StageOrders κ ο) {strategy : Strategy}
    {width : Option Nat}
    {tagged : List (List (Envelope (Shard κ ν)))} {info : PaneInfo}
    {C : κ → Window → Multiset ν → Prop} {D : κ × UInt32 → Window → Multiset ν → Prop}
    (hf : f.TracksBag R) (hin : ColdRoundTrip inputCoder tagged.flatten)
    (hacc : accumCoder.Keeps R)
    (hpre : ∀ {g : KeyedCombineFn (κ × UInt32) ν α (Except String Bytes)}
      {S : κ × UInt32 → α → Multiset ν → Prop}, g.TracksBag S →
      Summarizes (combineRows { strategy with mode := .discarding } g width .elementTime
        (tagged.map hotRows)) g S info D)
    (hpost : ∀ bags, Bag.Enumerates bags D → ∀ joined : List (List (Envelope (κ × Bytes))),
      List.Forall₂ (Weighs (inputCoder.inputOrAccum accumCoder) R) joined.flatten
        (hotWeights info bags ++ tagged.flatten.flatMap coldWeight) →
      ∃ C' : κ → Window → Multiset Bytes → Prop,
        (∀ {g : KeyedCombineFn κ Bytes (Except String α) (Except String ο)}
          {S : κ → Except String α → Multiset Bytes → Prop}, g.TracksBag S →
          Summarizes (combineRows strategy g width .heldUntilEnd joined) g S info C') ∧
        (∀ k w M, C' k w M → ∃ ms,
          Multiset.Rel (Denotes (inputCoder.inputOrAccum accumCoder) R k) M ms ∧ C k w ms.sum) ∧
        ∀ k w m, C k w m → ∃ M, C' k w M) :
    Summarizes (combineTagged orders strategy f accumCoder (inputCoder.inputOrAccum accumCoder)
      width tagged) f R info C := by
  obtain ⟨bags, partials, hpartials, hbags, hrows⟩ :=
    (hpre (preCombine_tracks hf)).shuffled orders.first
  obtain ⟨hot, hhot, hotWeigh⟩ := hotBytes_weigh hacc hrows
  obtain ⟨cold, hcold, coldWeigh⟩ := cold_weigh accumCoder R hin
  obtain ⟨C', hsum, hsound, hcomplete⟩ := hpost bags hbags (hot :: cold)
    (by rw [List.flatten_cons]; exact List.rel_append hotWeigh coldWeigh)
  exact combineTagged_summarizes_of hf hpartials hhot hcold hsum hsound hcomplete

end EventTime
