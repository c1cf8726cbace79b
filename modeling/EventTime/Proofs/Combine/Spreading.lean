import Mathlib.Data.List.Chain
import EventTime.Proofs.Bundle
import EventTime.Proofs.Combine.Stages

/-!
# How far a hot key is spread

One counter of a bundle deals the shards of all hot keys in it, each among the shards of its own
fanout. Which shards a key gets depends on how many deals lie between its elements. If the counter
does not wrap to another remainder, two elements of a key share a shard exactly if the fanout of the
key divides the number of deals from one to the other. So other hot keys can take just the deals that
would have spread the key; for that they need a share of the deals that the fanout bounds.
-/

namespace EventTime

variable {κ ν : Type}

theorem Bundle.shard_after_eq_iff {b : Bundle} {n : UInt32} {i j : Nat} (hij : i ≤ j)
    (h : n.toNat ∣ UInt32.size ∨ b.counter.toNat + j < UInt32.size) :
    (b.after i).shard n = (b.after j).shard n ↔ n.toNat ∣ j - i := by
  have hmod : (b.after i).shard n = (b.after j).shard n ↔
      b.counter.toNat + i ≡ b.counter.toNat + j [MOD n.toNat] := by
    rw [← UInt32.toNat_inj]
    rcases h with hdvd | hfits
    · rw [toNat_shard_after, toNat_shard_after, Nat.mod_mod_of_dvd _ hdvd,
        Nat.mod_mod_of_dvd _ hdvd]
      rfl
    · rw [toNat_shard_before_wrap (by omega), toNat_shard_before_wrap hfits]
      rfl
  rw [hmod, Nat.modEq_iff_dvd' (Nat.add_le_add_left hij _), Nat.add_sub_add_left]

/-- Two deals in a row differ, unless the counter wraps to the same remainder between them; then there
are three shards or more, and the deal after them differs. -/
theorem Bundle.shard_ne_in_row (b : Bundle) {n : UInt32} (hn : 1 < n) :
    b.shard n ≠ (b.after 1).shard n ∨ 3 ≤ n.toNat ∧ (b.after 1).shard n ≠ (b.after 2).shard n := by
  have hone : 1 < n.toNat := UInt32.lt_iff_toNat_lt.mp hn
  have hnext : ∀ c : Bundle, n.toNat ∣ UInt32.size ∨ c.counter.toNat + 1 < UInt32.size →
      c.shard n ≠ (c.after 1).shard n := by
    intro c hc heq
    rw [← c.after_zero, after_after, shard_after_eq_iff (Nat.zero_le 1) hc] at heq
    exact absurd (Nat.le_of_dvd one_pos heq) (by omega)
  by_cases hfits : n.toNat ∣ UInt32.size ∨ b.counter.toNat + 1 < UInt32.size
  · exact .inl (hnext b hfits)
  · obtain ⟨hdvd, hwrap⟩ := not_or.mp hfits
    have htwo : n.toNat ≠ 2 := fun heq => hdvd (heq ▸ by decide)
    have hstart : (b.after 1).counter.toNat = 0 := by
      have hrange := b.counter.toNat_lt
      simp [after, UInt32.size] at hwrap ⊢
      omega
    have hne := hnext (b.after 1) (.inr (by rw [hstart]; decide))
    rw [after_after] at hne
    exact .inr ⟨by omega, hne⟩

/-- The number of deals that the elements of a bundle take: one for every element of a hot key. -/
def deals (fanout : κ → UInt32) (rows : List (Envelope (κ × ν))) : Nat :=
  rows.countP fun e => 1 < fanout e.value.1

theorem deals_cons (fanout : κ → UInt32) (e : Envelope (κ × ν)) (rest : List (Envelope (κ × ν))) :
    deals fanout (e :: rest) = deals fanout [e] + deals fanout rest := by
  rw [deals, ← List.singleton_append, List.countP_append]
  rfl

theorem deals_of_hot {fanout : κ → UInt32} {e : Envelope (κ × ν)} (h : 1 < fanout e.value.1) :
    deals fanout [e] = 1 := by
  simp [deals, h]

theorem tagShard_bundle (fanout : κ → UInt32) (b : Bundle) (e : Envelope (κ × ν)) :
    (tagShard fanout b e).2 = b.after (deals fanout [e]) := by
  by_cases h : 1 < fanout e.value.1
  · simp only [tagShard, h, if_true, deals_of_hot h]
    rfl
  · simp only [tagShard, h, if_false, deals, List.countP_singleton, decide_false,
      Bool.false_eq_true, Bundle.after_zero]

variable [DecidableEq κ]

/-- The turns of a key: for each of its elements, how many deals come before it. -/
def turns (fanout : κ → UInt32) (key : κ) : (dealt : Nat) → List (Envelope (κ × ν)) → List Nat
  | _, [] => []
  | dealt, e :: rest =>
    let later := turns fanout key (dealt + deals fanout [e]) rest
    if e.value.1 = key then dealt :: later else later

/-- The shards among which tagged elements spread a key. -/
def shardsOf (key : κ) (tagged : List (Envelope (Shard κ ν))) : List UInt32 :=
  ((hotRows tagged).filter (·.value.1.1 = key)).map (·.value.1.2)

/-- Two elements of the key are in different shards. -/
def Spread (key : κ) (tagged : List (Envelope (Shard κ ν))) : Prop :=
  ∃ shard ∈ shardsOf key tagged, ∃ other ∈ shardsOf key tagged, shard ≠ other

variable {fanout : κ → UInt32} {key : κ}

instance (key : κ) (tagged : List (Envelope (Shard κ ν))) : Decidable (Spread key tagged) :=
  inferInstanceAs (Decidable (∃ shard ∈ shardsOf key tagged,
    ∃ other ∈ shardsOf key tagged, shard ≠ other))

theorem shardsOf_cons (key : κ) (e : Envelope (Shard κ ν)) (rest : List (Envelope (Shard κ ν))) :
    shardsOf key (e :: rest) = shardsOf key [e] ++ shardsOf key rest := by
  simp only [shardsOf, ← List.map_append, ← List.filter_append]
  rw [hotRows_cons, hotRows_cons e []]
  simp [hotRows]

theorem shardsOf_tagShard (hhot : 1 < fanout key) (b : Bundle) (e : Envelope (κ × ν)) :
    shardsOf key [(tagShard fanout b e).1] =
      if e.value.1 = key then [b.shard (fanout key)] else [] := by
  by_cases hkey : e.value.1 = key
  · subst hkey
    simp [shardsOf, hotRows, tagShard, hhot, Shard.hot?, Envelope.withValue]
  · by_cases h : 1 < fanout e.value.1 <;>
      simp [shardsOf, hotRows, tagShard, h, hkey, Shard.hot?, Envelope.withValue]

/-- An element of a hot key gets the shard that the counter deals at its turn. -/
theorem shardsOf_tagRows (hhot : 1 < fanout key) (b : Bundle) (dealt : Nat)
    (rows : List (Envelope (κ × ν))) :
    shardsOf key (tagRows fanout (b.after dealt) rows) =
      (turns fanout key dealt rows).map fun i => (b.after i).shard (fanout key) := by
  induction rows generalizing dealt with
  | nil => rfl
  | cons e rest ih =>
    rw [tagRows, shardsOf_cons, shardsOf_tagShard hhot, tagShard_bundle, Bundle.after_after, ih,
      turns]
    split <;> rfl

theorem length_turns (fanout : κ → UInt32) (key : κ) (dealt : Nat)
    (rows : List (Envelope (κ × ν))) :
    (turns fanout key dealt rows).length = rows.countP (·.value.1 = key) := by
  induction rows generalizing dealt with
  | nil => rfl
  | cons e rest ih =>
    by_cases hkey : e.value.1 = key <;> simp [turns, hkey, ih]

theorem mem_turns_bounds (hhot : 1 < fanout key) {dealt i : Nat} {rows : List (Envelope (κ × ν))}
    (h : i ∈ turns fanout key dealt rows) : dealt ≤ i ∧ i < dealt + deals fanout rows := by
  induction rows generalizing dealt with
  | nil => cases h
  | cons e rest ih =>
    rw [deals_cons]
    rw [turns] at h
    split at h
    · next hkey =>
      have hdeal : deals fanout [e] = 1 := deals_of_hot (hkey ▸ hhot)
      rcases List.mem_cons.mp h with rfl | hlater
      · omega
      · have hbounds := ih hlater
        omega
    · have hbounds := ih h
      omega

/-- Every turn of a hot key takes a deal, so the next turn comes later. -/
theorem pairwise_turns (hhot : 1 < fanout key) (dealt : Nat) (rows : List (Envelope (κ × ν))) :
    (turns fanout key dealt rows).Pairwise (· < ·) := by
  induction rows generalizing dealt with
  | nil => exact .nil
  | cons e rest ih =>
    rw [turns]
    split
    · next hkey =>
      refine .cons (fun i hi => ?_) (ih _)
      have hdeal : deals fanout [e] = 1 := deals_of_hot (hkey ▸ hhot)
      have hlater := (mem_turns_bounds hhot hi).1
      omega
    · exact ih _

/-- Where no other key is hot, the turns of a key are all deals. -/
theorem turns_eq_range {rows : List (Envelope (κ × ν))} (hhot : 1 < fanout key)
    (honly : ∀ e ∈ rows, 1 < fanout e.value.1 → e.value.1 = key) (dealt : Nat) :
    turns fanout key dealt rows = List.range' dealt (rows.countP (·.value.1 = key)) := by
  induction rows generalizing dealt with
  | nil => rfl
  | cons e rest ih =>
    have hrest := ih fun d hd => honly d (List.mem_cons_of_mem e hd)
    by_cases hkey : e.value.1 = key
    · rw [turns, if_pos hkey, deals_of_hot (hkey ▸ hhot), hrest,
        List.countP_cons_of_pos (by simpa using hkey), List.range'_succ]
    · have hcold : deals fanout [e] = 0 := by
        simpa [deals] using mt (honly e List.mem_cons_self) hkey
      rw [turns, if_neg hkey, hcold, Nat.add_zero, hrest,
        List.countP_cons_of_neg (by simpa using hkey)]

/-- Images differ somewhere in a list exactly if those of two neighbours do. -/
theorem exists_ne_iff_neighbours {α β : Type} (f : α → β) (l : List α) :
    (∃ x ∈ l.map f, ∃ y ∈ l.map f, x ≠ y) ↔ ∃ a b, [a, b] <:+: l ∧ f a ≠ f b := by
  constructor
  · rintro ⟨x, hx, y, hy, hne⟩
    by_contra hsame
    have hchain : (l.map f).IsChain (· = ·) := by
      rw [List.isChain_map, List.isChain_iff_forall_rel_of_append_cons_cons]
      rintro a b before later rfl
      by_contra hab
      exact hsame ⟨a, b, ⟨before, later, by simp⟩, hab⟩
    exact hne ((List.isChain_iff_pairwise.mp hchain).forall_of_forall (fun _ _ => rfl) hx hy)
  · rintro ⟨a, b, hpair, hne⟩
    have ha : a ∈ l := hpair.subset List.mem_cons_self
    have hb : b ∈ l := hpair.subset (List.mem_cons_of_mem a List.mem_cons_self)
    exact ⟨f a, List.mem_map_of_mem ha, f b, List.mem_map_of_mem hb, hne⟩

/-- Numbers that grow by `step` or more leave room for a step between each two neighbours. -/
theorem add_mul_lt_of_isChain {step bound i : Nat} {l : List Nat}
    (hsteps : (i :: l).IsChain fun a b => a + step ≤ b) (hbound : ∀ j ∈ i :: l, j < bound) :
    i + step * l.length < bound := by
  induction l generalizing i with
  | nil => simpa using hbound
  | cons j rest ih =>
    obtain ⟨hstep, hrest⟩ := List.isChain_cons_cons.mp hsteps
    have hlater := ih hrest fun m hm => hbound m (List.mem_cons_of_mem i hm)
    rw [List.length_cons, Nat.mul_succ]
    omega

theorem lt_of_neighbours (hhot : 1 < fanout key) {rows : List (Envelope (κ × ν))} {i j : Nat}
    (h : [i, j] <:+: turns fanout key 0 rows) : i < j ∧ j < deals fanout rows := by
  have hpair := (pairwise_turns hhot 0 rows).sublist h.sublist
  have hj := mem_turns_bounds hhot (h.subset (List.mem_cons_of_mem i List.mem_cons_self))
  exact ⟨List.rel_of_pairwise_cons hpair List.mem_cons_self, by omega⟩

/-- Turns that are all multiples of `step` apart are few: every one but the first comes at least
`step` deals after the one before. -/
theorem mul_count_lt_of_dvd (hhot : 1 < fanout key) {step : Nat} (hstep : 0 < step)
    {rows : List (Envelope (κ × ν))}
    (hdvd : ∀ i j, [i, j] <:+: turns fanout key 0 rows → step ∣ j - i) :
    step * rows.countP (·.value.1 = key) < deals fanout rows + step := by
  have hsteps : (turns fanout key 0 rows).IsChain fun i j => i + step ≤ j := by
    rw [List.isChain_iff_forall_rel_of_append_cons_cons]
    intro i j before later heq
    have hpair : [i, j] <:+: turns fanout key 0 rows := ⟨before, later, by simp [heq]⟩
    obtain ⟨hij, -⟩ := lt_of_neighbours hhot hpair
    have hle := Nat.le_of_dvd (Nat.sub_pos_of_lt hij) (hdvd i j hpair)
    omega
  have hbound : ∀ i ∈ turns fanout key 0 rows, i < deals fanout rows := fun i hi => by
    simpa using (mem_turns_bounds hhot hi).2
  rw [← length_turns fanout key 0 rows]
  cases hturns : turns fanout key 0 rows with
  | nil =>
    rw [List.length_nil, Nat.mul_zero]
    exact Nat.lt_add_left _ hstep
  | cons i rest =>
    rw [hturns] at hsteps hbound
    have hroom := add_mul_lt_of_isChain hsteps hbound
    rw [List.length_cons, Nat.mul_succ]
    omega

/-! ### Spreading -/

variable {b : Bundle} {rows : List (Envelope (κ × ν))}

theorem spread_iff_neighbours (hhot : 1 < fanout key) :
    Spread key (tagRows fanout b rows) ↔ ∃ i j, [i, j] <:+: turns fanout key 0 rows ∧
      (b.after i).shard (fanout key) ≠ (b.after j).shard (fanout key) := by
  have hshards := shardsOf_tagRows hhot b 0 rows
  rw [Bundle.after_zero] at hshards
  rw [Spread, hshards]
  exact exists_ne_iff_neighbours ..

theorem spread_iff_not_dvd (hhot : 1 < fanout key)
    (h : (fanout key).toNat ∣ UInt32.size ∨
      b.counter.toNat + deals fanout rows ≤ UInt32.size) :
    Spread key (tagRows fanout b rows) ↔
      ∃ i j, [i, j] <:+: turns fanout key 0 rows ∧ ¬(fanout key).toNat ∣ j - i := by
  rw [spread_iff_neighbours hhot]
  refine exists_congr fun i => exists_congr fun j => and_congr_right fun hpair => ?_
  obtain ⟨hij, hj⟩ := lt_of_neighbours hhot hpair
  exact not_congr (Bundle.shard_after_eq_iff hij.le (h.imp_right (by omega)))

/-- A key with a large enough share of the deals is spread. -/
theorem spread_of_share (hhot : 1 < fanout key)
    (h : (fanout key).toNat ∣ UInt32.size ∨
      b.counter.toNat + deals fanout rows ≤ UInt32.size)
    (hshare : deals fanout rows + (fanout key).toNat ≤
      (fanout key).toNat * rows.countP (·.value.1 = key)) :
    Spread key (tagRows fanout b rows) := by
  have hone : 1 < (fanout key).toNat := UInt32.lt_iff_toNat_lt.mp hhot
  rw [spread_iff_not_dvd hhot h]
  by_contra hnone
  have hdvd : ∀ i j, [i, j] <:+: turns fanout key 0 rows → (fanout key).toNat ∣ j - i :=
    fun i j hpair => not_not.mp fun hnot => hnone ⟨i, j, hpair, hnot⟩
  exact absurd (mul_count_lt_of_dvd hhot (Nat.zero_lt_of_lt hone) hdvd) (Nat.not_lt.mpr hshare)

/-- A key that occurs often enough is spread if no other key of the bundle is hot. -/
theorem spread_of_only_hot (hhot : 1 < fanout key)
    (hcount : (fanout key).toNat ≤ rows.countP (·.value.1 = key))
    (honly : ∀ e ∈ rows, 1 < fanout e.value.1 → e.value.1 = key) :
    Spread key (tagRows fanout b rows) := by
  have hone : 1 < (fanout key).toNat := UInt32.lt_iff_toNat_lt.mp hhot
  rw [spread_iff_neighbours hhot, turns_eq_range hhot honly]
  rcases b.shard_ne_in_row hhot with hne | ⟨hthree, hne⟩
  · obtain ⟨count, heq⟩ := Nat.exists_eq_add_of_le (hone.trans_le hcount)
    refine ⟨0, 1, ⟨[], List.range' 2 count, ?_⟩, by rwa [Bundle.after_zero]⟩
    rw [heq, ← List.range'_append]
    rfl
  · obtain ⟨count, heq⟩ := Nat.exists_eq_add_of_le (hthree.trans hcount)
    refine ⟨1, 2, ⟨[0], List.range' 3 count, ?_⟩, hne⟩
    rw [heq, ← List.range'_append]
    rfl

theorem lt_of_mem_shardsOf (hhot : 1 < fanout key) {shard : UInt32}
    (h : shard ∈ shardsOf key (tagRows fanout b rows)) : shard < fanout key := by
  rw [← b.after_zero, shardsOf_tagRows hhot] at h
  obtain ⟨i, -, rfl⟩ := List.mem_map.mp h
  exact UInt32.mod_lt _ (UInt32.lt_trans (by decide) hhot)

theorem length_shardsOf (hhot : 1 < fanout key) :
    (shardsOf key (tagRows fanout b rows)).length = rows.countP (·.value.1 = key) := by
  rw [← b.after_zero, shardsOf_tagRows hhot, List.length_map, length_turns]

/-- The shards of a hot key in a bundle. The key is spread exactly if two neighbouring elements of it
are dealt different shards; where the counter keeps its remainder, exactly if some number of deals
from one element to the next is no multiple of the fanout. So it is spread if it has a large enough
share of the deals, and if it occurs often enough and no other key is hot. -/
theorem hotKey_spread_iff {k v : ElemType} [DecidableEq k.Elem] (fanout : k.Elem → UInt32)
    (b : Bundle) (rows : Rows (.pair k v)) {key : k.Elem} (hhot : 1 < fanout key) :
    ∃ tagged,
      Collection.expandRows (t := .pair k v) (u := .shard k v)
        (fun b e => .ok ([(tagShard fanout b e).1], (tagShard fanout b e).2)) b rows =
          .ok tagged ∧
      (shardsOf key tagged).length = rows.countP (·.value.1 = key) ∧
      (∀ shard ∈ shardsOf key tagged, shard < fanout key) ∧
      (Spread key tagged ↔ ∃ i j, [i, j] <:+: turns fanout key 0 rows ∧
        (b.after i).shard (fanout key) ≠ (b.after j).shard (fanout key)) ∧
      ((fanout key).toNat ∣ UInt32.size ∨ b.counter.toNat + deals fanout rows ≤ UInt32.size →
        (Spread key tagged ↔
          ∃ i j, [i, j] <:+: turns fanout key 0 rows ∧ ¬(fanout key).toNat ∣ j - i) ∧
        (deals fanout rows + (fanout key).toNat ≤
          (fanout key).toNat * rows.countP (·.value.1 = key) → Spread key tagged)) ∧
      ((fanout key).toNat ≤ rows.countP (·.value.1 = key) →
        (∀ e ∈ rows, 1 < fanout e.value.1 → e.value.1 = key) → Spread key tagged) :=
  ⟨tagRows fanout b rows, expandRows_tagShard fanout b rows, length_shardsOf hhot,
    fun _ => lt_of_mem_shardsOf hhot, spread_iff_neighbours hhot,
    fun h => ⟨spread_iff_not_dvd hhot h, spread_of_share hhot h⟩, spread_of_only_hot hhot⟩

/-- Key eight takes the second of four deals. The other three are for key seven, among three shards:
a large enough share. -/
theorem hotKey_spread_of_share :
    let fanout : UInt8 → UInt32 := fun key => if key = 7 then 3 else 2
    let row := fun key : UInt8 => (⟨(key, 1), 0, [.global], .noFiring⟩ : Envelope (UInt8 × UInt8))
    let rows : Rows (.pair .word8 .word8) := [row 7, row 8, row 7, row 7]
    1 < fanout 7 ∧ ∃ tagged,
      Collection.expandRows (t := .pair .word8 .word8) (u := .shard .word8 .word8)
        (fun b e => .ok ([(tagShard fanout b e).1], (tagShard fanout b e).2)) ⟨0, 5⟩ rows =
          .ok tagged ∧
      Spread (7 : UInt8) tagged := by
  intro fanout row rows
  have hhot : 1 < fanout 7 := by decide
  obtain ⟨tagged, htagged, -, -, -, hspread, -⟩ :=
    hotKey_spread_iff (k := .word8) (v := .word8) fanout ⟨0, 5⟩ rows hhot
  exact ⟨hhot, tagged, htagged, (hspread (.inr (by decide))).2 (by decide)⟩

/-- Two hot keys take turns, each with two shards: every key has one shard to itself. -/
theorem hotKey_kept_together :
    let fanout : UInt8 → UInt32 := fun _ => 2
    let row := fun key : UInt8 => (⟨(key, 1), 0, [.global], .noFiring⟩ : Envelope (UInt8 × UInt8))
    let rows : Rows (.pair .word8 .word8) := [row 7, row 8, row 7, row 8]
    1 < fanout 7 ∧ (fanout 7).toNat ≤ rows.countP (·.value.1 = 7) ∧ ∃ tagged,
      Collection.expandRows (t := .pair .word8 .word8) (u := .shard .word8 .word8)
        (fun b e => .ok ([(tagShard fanout b e).1], (tagShard fanout b e).2)) ⟨0, 0⟩ rows =
          .ok tagged ∧
      shardsOf (7 : UInt8) tagged = [0, 0] ∧ ¬Spread (7 : UInt8) tagged :=
  ⟨by decide, by decide, _, rfl, by decide, by decide⟩

end EventTime
