import Mathlib.Data.List.Nodup
import Mathlib.Data.List.Perm.Subperm
import Mathlib.Data.Nat.ModEq
import EventTime.Bundle

/-!
# Rounds of deals

A bundle deals the remainders of a 32-bit counter. A round is as many deals in a row among the same
shards as there are shards. It deals every shard once if the counter does not wrap in it, or if the
number of shards divides the range of the counter. In any other round the counter starts over at
zero before all shards have had their turn, so some shard is left out and another is dealt twice.
-/

namespace EventTime.Bundle

variable {b : Bundle} {n : UInt32}

/-- The bundle after a number of deals. -/
def after (b : Bundle) (deals : Nat) : Bundle := ⟨b.index, b.counter + UInt32.ofNat deals⟩

theorem after_zero (b : Bundle) : b.after 0 = b := by
  simp [after]

theorem after_after (b : Bundle) (i j : Nat) : (b.after i).after j = b.after (i + j) := by
  simp only [after, UInt32.ofNat_add, UInt32.add_assoc]

theorem toNat_shard_after (b : Bundle) (n : UInt32) (i : Nat) :
    ((b.after i).shard n).toNat = (b.counter.toNat + i) % UInt32.size % n.toNat := by
  simp [shard, after, UInt32.size]

theorem toNat_shard_before_wrap {i : Nat} (h : b.counter.toNat + i < UInt32.size) :
    ((b.after i).shard n).toNat = (b.counter.toNat + i) % n.toNat := by
  rw [toNat_shard_after, Nat.mod_eq_of_lt h]

theorem toNat_shard_after_wrap {wrap i : Nat} (hwrap : b.counter.toNat + wrap = UInt32.size)
    (h : i < UInt32.size) : ((b.after (wrap + i)).shard n).toNat = i % n.toNat := by
  rw [toNat_shard_after, ← Nat.add_assoc, hwrap, Nat.add_mod_left, Nat.mod_eq_of_lt h]

theorem shards_eq {fanouts : List UInt32} (h : 0 ∉ fanouts) :
    b.shards fanouts = .ok (fanouts.mapIdx fun i n => (b.after i).shard n) := by
  induction fanouts generalizing b with
  | nil => rfl
  | cons n rest ih =>
    obtain ⟨hn, hrest⟩ := not_or.mp (List.mem_cons.not.mp h)
    have hdeal : b.nextShard n = .ok (b.shard n, b.after 1) := if_neg (Ne.symm hn)
    rw [shards, hdeal]
    show (do let later ← (b.after 1).shards rest; return b.shard n :: later) = _
    rw [ih hrest, List.mapIdx_cons, after_zero]
    simp only [after_after, Nat.add_comm 1]
    rfl

/-- What a bundle deals in a round among `n` shards. -/
def round (b : Bundle) (n : UInt32) : List UInt32 :=
  (List.range n.toNat).map fun i => (b.after i).shard n

theorem shards_round {before : List UInt32} (hbefore : 0 ∉ before) (hn : n ≠ 0) :
    ∃ dealt, b.shards before = .ok dealt ∧
      b.shards (before ++ List.replicate n.toNat n) =
        .ok (dealt ++ (b.after before.length).round n) := by
  have hall : 0 ∉ before ++ List.replicate n.toNat n := by
    simp only [List.mem_append, hbefore, List.mem_replicate, hn.symm, and_false, or_self,
      not_false_eq_true]
  refine ⟨_, shards_eq hbefore, ?_⟩
  rw [shards_eq hall, List.mapIdx_append]
  congr 2
  refine List.ext_getElem (by simp [round]) fun i _ _ => ?_
  simp [round, after_after, Nat.add_comm]

theorem length_round (b : Bundle) (n : UInt32) : (b.round n).length = n.toNat := by
  simp [round]

theorem lt_of_mem_round (hn : n ≠ 0) {shard : UInt32} (h : shard ∈ b.round n) : shard < n := by
  obtain ⟨i, -, rfl⟩ := List.mem_map.mp h
  exact UInt32.mod_lt _ (UInt32.pos_iff_ne_zero.mpr hn)

/-- A round without repetition is the shards in some order. -/
theorem perm_round (hn : n ≠ 0) (h : (b.round n).Nodup) :
    ((b.round n).map UInt32.toNat).Perm (List.range n.toNat) := by
  have hnodup : ((b.round n).map UInt32.toNat).Nodup := h.map fun _ _ => UInt32.toNat.inj
  have hbelow : (b.round n).map UInt32.toNat ⊆ List.range n.toNat := by
    intro k hk
    obtain ⟨shard, hshard, rfl⟩ := List.mem_map.mp hk
    exact List.mem_range.mpr (lt_of_mem_round hn hshard)
  exact (List.subperm_of_subset hnodup hbelow).perm_of_length_le (by simp [length_round])

theorem count_round_iff (hn : n ≠ 0) :
    (∀ shard < n, (b.round n).count shard = 1) ↔ (b.round n).Nodup := by
  constructor
  · intro hcount
    refine List.nodup_iff_count_le_one.mpr fun shard => ?_
    by_cases hmem : shard ∈ b.round n
    · exact (hcount shard (lt_of_mem_round hn hmem)).le
    · rw [List.count_eq_zero_of_not_mem hmem]
      exact Nat.zero_le 1
  · intro hnodup shard hshard
    have hmem := (perm_round hn hnodup).mem_iff.mpr
      (List.mem_range.mpr (UInt32.lt_iff_toNat_lt.mp hshard))
    obtain ⟨dealt, hdealt, heq⟩ := List.mem_map.mp hmem
    exact List.count_eq_one_of_mem hnodup (UInt32.toNat.inj heq ▸ hdealt)

/-- No shard comes twice in a round unless the counter wraps to another remainder. -/
theorem nodup_round
    (h : n.toNat ∣ UInt32.size ∨ b.counter.toNat + n.toNat ≤ UInt32.size) : (b.round n).Nodup := by
  refine List.Nodup.map_on (fun i hi j hj heq => ?_) List.nodup_range
  rw [List.mem_range] at hi hj
  have hmod := congrArg UInt32.toNat heq
  have hround : (b.counter.toNat + i) % n.toNat = (b.counter.toNat + j) % n.toNat := by
    rcases h with hdvd | hfits
    · rwa [toNat_shard_after, toNat_shard_after, Nat.mod_mod_of_dvd _ hdvd,
        Nat.mod_mod_of_dvd _ hdvd] at hmod
    · rwa [toNat_shard_before_wrap (by omega), toNat_shard_before_wrap (by omega)] at hmod
  exact (Nat.ModEq.add_left_cancel' _ hround).eq_of_lt_of_lt hi hj

/-- Where the counter wraps in a round without repetition, the last shard has its turn before the
wrap. Shard zero comes right after it, and also right after the wrap: so the last shard is dealt
just before the wrap, from the greatest value of the counter. -/
theorem dvd_of_nodup_round (hn : n ≠ 0) (hnodup : (b.round n).Nodup)
    (hwrap : UInt32.size < b.counter.toNat + n.toNat) : n.toNat ∣ UInt32.size := by
  have hc : b.counter.toNat < UInt32.size := b.counter.toNat_lt
  have hsize : n.toNat < UInt32.size := n.toNat_lt
  have hpos : 0 < n.toNat := UInt32.pos_iff_ne_zero.mpr hn
  obtain ⟨wrap, hstart⟩ : ∃ wrap, b.counter.toNat + wrap = UInt32.size :=
    ⟨_, Nat.add_sub_of_le hc.le⟩
  have hlast := (perm_round hn hnodup).mem_iff.mpr
    (List.mem_range.mpr (Nat.sub_one_lt hpos.ne'))
  obtain ⟨_, hmem, hlast⟩ := List.mem_map.mp hlast
  obtain ⟨i, hi, rfl⟩ := List.mem_map.mp hmem
  rw [List.mem_range] at hi
  have hbefore : i < wrap := by
    by_contra hafter
    obtain ⟨j, rfl⟩ := Nat.exists_eq_add_of_le (Nat.le_of_not_lt hafter)
    rw [toNat_shard_after_wrap hstart (by omega), Nat.mod_eq_of_lt (by omega)] at hlast
    omega
  rw [toNat_shard_before_wrap (by omega)] at hlast
  have hnext : n.toNat ∣ b.counter.toNat + (i + 1) := by
    refine Nat.dvd_of_mod_eq_zero ?_
    rw [← Nat.add_assoc, ← Nat.mod_add_mod, hlast, Nat.sub_add_cancel hpos, Nat.mod_self]
  have hwhen : i + 1 = wrap := by
    by_contra hne
    have hturn : ((b.after (i + 1)).shard n).toNat = ((b.after wrap).shard n).toNat := by
      rw [toNat_shard_before_wrap (by omega), Nat.mod_eq_zero_of_dvd hnext,
        ← Nat.add_zero wrap, toNat_shard_after_wrap hstart (by omega), Nat.zero_mod]
    exact hne (List.inj_on_of_nodup_map hnodup (List.mem_range.mpr (by omega))
      (List.mem_range.mpr (by omega)) (UInt32.toNat.inj hturn))
  rwa [hwhen, hstart] at hnext

/-- The shards that a round deals, after any number of deals. Each is dealt once exactly if the
number of shards divides the range of the counter or the counter does not wrap within the round. -/
theorem round_robin_iff (b : Bundle) {before : List UInt32} (hbefore : 0 ∉ before) (hn : n ≠ 0) :
    ∃ dealt round, b.shards before = .ok dealt ∧
      b.shards (before ++ List.replicate n.toNat n) = .ok (dealt ++ round) ∧
      round.length = n.toNat ∧ (∀ shard ∈ round, shard < n) ∧
      ((∀ shard < n, round.count shard = 1) ↔ n.toNat ∣ UInt32.size ∨
        (b.counter + UInt32.ofNat before.length).toNat + n.toNat ≤ UInt32.size) := by
  obtain ⟨dealt, hdealt, hround⟩ := shards_round (b := b) hbefore hn
  refine ⟨dealt, _, hdealt, hround, length_round .., fun _ => lt_of_mem_round hn, ?_⟩
  rw [count_round_iff hn]
  refine ⟨fun hnodup => ?_, nodup_round (b := b.after before.length)⟩
  by_cases hwrap : UInt32.size < (b.after before.length).counter.toNat + n.toNat
  · exact .inl (dvd_of_nodup_round hn hnodup hwrap)
  · exact .inr (Nat.le_of_not_lt hwrap)

/-- After one deal the counter has its greatest value. The round among four shards wraps it, and
deals shard three first. -/
theorem round_robin_of_four :
    let b : Bundle := ⟨0, 4294967294⟩
    0 ∉ [(7 : UInt32)] ∧ (4 : UInt32) ≠ 0 ∧ ∃ dealt round, b.shards [7] = .ok dealt ∧
      b.shards [7, 4, 4, 4, 4] = .ok (dealt ++ round) ∧ ∀ shard < 4, round.count shard = 1 := by
  intro b
  have hbefore : 0 ∉ [(7 : UInt32)] := by decide
  have hn : (4 : UInt32) ≠ 0 := by decide
  obtain ⟨dealt, round, hdealt, hround, -, -, hcount⟩ := round_robin_iff b hbefore hn
  exact ⟨hbefore, hn, dealt, round, hdealt, hround, hcount.mpr (.inl (by decide))⟩

/-- Where the counter wraps in a round among three shards, shard zero is dealt twice. -/
theorem round_repeats_at_wrap :
    (Bundle.mk 0 4294967295).shards [3, 3, 3] = .ok [0, 0, 1] ∧
      ¬∀ shard < (3 : UInt32), [0, 0, 1].count shard = 1 :=
  ⟨rfl, fun h => absurd (h 2 (by decide)) (by decide)⟩

end EventTime.Bundle
