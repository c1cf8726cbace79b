import Mathlib.Algebra.GroupWithZero.Nat
import EventTime.Coder.DataType

/-!
# Formats that delimit themselves

A value is read back from its bytes whatever follows them, and what follows is left. This holds of
every basic format for the values it is meant for, and it passes from formats to those composed of
them, so that it holds of every type with a byte format.
-/

namespace EventTime

variable {α β : Type}

namespace Wire

/-- A value is read back from its bytes, and what follows them is left. -/
def Delimits (w : Wire α) (a : α) : Prop := ∀ rest, w.read (w.write a ++ rest) = .ok (a, rest)

theorem numberBytes_of_lt {n : Nat} (h : n < 128) : numberBytes n = [UInt8.ofNat n] := by
  rw [numberBytes, if_pos h]

theorem readNumber_of_lt {cap left n : Nat} (hn : n < 128) (hlast : left = 0 → n ≤ cap)
    (rest : Bytes) : readNumber cap (left + 1) (numberBytes n ++ rest) = .ok (n, rest) := by
  have hbyte : (UInt8.ofNat n).toNat = n :=
    UInt8.toNat_ofNat_of_lt' (Nat.lt_trans hn (by decide))
  rw [numberBytes_of_lt hn, List.singleton_append, readNumber, hbyte, if_pos hn, if_neg (by omega)]

theorem readNumber_numberBytes {cap left n : Nat} (hcap : cap < 128)
    (hn : n < (cap + 1) * 128 ^ left) (rest : Bytes) :
    readNumber cap (left + 1) (numberBytes n ++ rest) = .ok (n, rest) := by
  -- on the bytes that may follow the first: `cap` bounds the one in last place, should it be reached
  induction left generalizing n with
  | zero => exact readNumber_of_lt (by omega) (by omega) rest
  | succ left ih =>
    by_cases hsmall : n < 128
    · exact readNumber_of_lt hsmall (by omega) rest
    · have hbyte : (UInt8.ofNat (n % 128 + 128)).toNat = n % 128 + 128 := by
        rw [UInt8.toNat_ofNat']
        omega
      have hhigh : n / 128 < (cap + 1) * 128 ^ left := by
        rw [Nat.div_lt_iff_lt_mul (by decide), Nat.mul_assoc, ← Nat.pow_succ]
        exact hn
      rw [numberBytes, if_neg hsmall, List.cons_append, readNumber, hbyte, if_neg (by omega),
        ih hhigh]
      simp only [bind, Except.bind, pure, Except.pure, Except.ok.injEq, Prod.mk.injEq, and_true]
      omega

/-- The bound is `2 ^ width`, unless seven divides `width`. -/
theorem delimits_bits (width : Nat) {n : Nat} (hwidth : 0 < width)
    (hn : n < 2 ^ (width % 7) * 128 ^ ((width + 6) / 7 - 1)) : (bits width).Delimits n := by
  intro rest
  obtain ⟨left, hleft⟩ : ∃ left, (width + 6) / 7 = left + 1 := ⟨(width + 6) / 7 - 1, by omega⟩
  have hcap : 2 ^ (width % 7) - 1 + 1 = 2 ^ (width % 7) := Nat.sub_add_cancel Nat.one_le_two_pow
  have hpow : 2 ^ (width % 7) ≤ 2 ^ 6 := Nat.pow_le_pow_right (by decide) (by omega)
  show readNumber (2 ^ (width % 7) - 1) ((width + 6) / 7) (numberBytes n ++ rest) = _
  rw [hleft]
  refine readNumber_numberBytes (by omega) ?_ rest
  rwa [hcap, show left = (width + 6) / 7 - 1 by omega]

theorem fold_lt {n : Int} (half : Nat) (hlow : -half ≤ n) (hhigh : n < half) :
    fold n < 2 * half := by
  rw [fold]
  split <;> omega

theorem ofLowBytes_lowBytes {count n : Nat} (hn : n < 256 ^ count) :
    ofLowBytes (lowBytes count n) = n := by
  induction count generalizing n with
  | zero =>
    have hzero : n = 0 := by simpa using hn
    exact hzero.symm
  | succ count ih =>
    have hrest : n / 256 < 256 ^ count := by
      rw [Nat.div_lt_iff_lt_mul (by decide), ← Nat.pow_succ]
      exact hn
    rw [lowBytes, ofLowBytes, ih hrest, UInt8.toNat_ofNat']
    omega

theorem length_lowBytes (count n : Nat) : (lowBytes count n).length = count := by
  induction count generalizing n with
  | zero => rfl
  | succ count ih => rw [lowBytes, List.length_cons, ih]

theorem readBlock_append (block rest : Bytes) :
    readBlock block.length (block ++ rest) = .ok (block, rest) := by
  rw [readBlock, if_pos (by simp), List.take_left, List.drop_left]

theorem delimits_word (count : Nat) {n : Nat} (hn : n < 256 ^ count) : (word count).Delimits n := by
  intro rest
  have hblock := readBlock_append (lowBytes count n) rest
  rw [length_lowBytes] at hblock
  show (readBlock count (lowBytes count n ++ rest)).map _ = _
  rw [hblock, Except.map, ofLowBytes_lowBytes hn]

theorem Delimits.via {w : Wire β} {forth : α → β} {back : β → α} {a : α}
    (h : w.Delimits (forth a)) (hback : back (forth a) = a) : (w.via forth back).Delimits a := by
  intro rest
  show (w.read (w.write (forth a) ++ rest)).map _ = _
  rw [h, Except.map, hback]

theorem Delimits.pair {v : Wire α} {w : Wire β} {p : α × β} (h : v.Delimits p.1)
    (h' : w.Delimits p.2) : (v.pair w).Delimits p := by
  intro rest
  simp only [Wire.pair, List.append_assoc, h _, h' _, bind, Except.bind]
  rfl

theorem Delimits.option {w : Wire α} {a : Option α} (h : ∀ x ∈ a, w.Delimits x) :
    w.option.Delimits a := by
  intro rest
  cases a with
  | none => rfl
  | some x =>
    show (w.read (w.write x ++ rest)).map _ = _
    rw [h x rfl]
    rfl

theorem readMany_flatMap {w : Wire α} {l : List α} (h : ∀ a ∈ l, w.Delimits a) (done : List α)
    (rest : Bytes) : readMany w.read l.length done (l.flatMap w.write ++ rest) =
      .ok (done.reverse ++ l, rest) := by
  induction l generalizing done with
  | nil => rw [List.append_nil]; rfl
  | cons a l ih =>
    obtain ⟨ha, hl⟩ := List.forall_mem_cons.mp h
    rw [List.flatMap_cons, List.append_assoc, List.length_cons, readMany, ha]
    simp only [bind, Except.bind]
    rw [ih hl, List.reverse_cons, List.append_assoc, List.singleton_append]

theorem Delimits.sequence {w : Wire α} {l : List α} (hlength : l.length < UInt64.size)
    (h : ∀ a ∈ l, w.Delimits a) : w.sequence.Delimits l := by
  intro rest
  have hcount : readBits 64 (numberBytes l.length ++ (l.flatMap w.write ++ rest)) = _ :=
    delimits_bits 64 (by decide) hlength _
  simp only [Wire.sequence, List.append_assoc, hcount, bind, Except.bind]
  exact readMany_flatMap h [] rest

theorem delimits_unit (a : Unit) : unit.Delimits a := fun _ => rfl

theorem delimits_byte (a : UInt8) : byte.Delimits a := fun _ => rfl

theorem delimits_bool (a : Bool) : bool.Delimits a := fun _ => by cases a <;> rfl

theorem delimits_word16 (a : UInt16) : word16.Delimits a :=
  .via (delimits_bits 16 (by decide) a.toNat_lt) UInt16.ofNat_toNat

theorem delimits_word32 (a : UInt32) : word32.Delimits a :=
  .via (delimits_bits 32 (by decide) a.toNat_lt) UInt32.ofNat_toNat

theorem delimits_word64 (a : UInt64) : word64.Delimits a :=
  .via (delimits_bits 64 (by decide) a.toNat_lt) UInt64.ofNat_toNat

theorem delimits_int8 (a : Int8) : int8.Delimits a :=
  .via (delimits_byte _) a.toInt8_toUInt8

theorem delimits_int16 (a : Int16) : int16.Delimits a :=
  .via (delimits_bits 16 (by decide) (fold_lt (2 ^ 15) a.le_toInt a.toInt_lt))
    ((congrArg Int16.ofInt (unfold_fold _)).trans a.ofInt_toInt)

theorem delimits_int32 (a : Int32) : int32.Delimits a :=
  .via (delimits_bits 32 (by decide) (fold_lt (2 ^ 31) a.le_toInt a.toInt_lt))
    ((congrArg Int32.ofInt (unfold_fold _)).trans a.ofInt_toInt)

theorem delimits_int64 (a : Int64) : int64.Delimits a :=
  .via (delimits_bits 64 (by decide) (fold_lt (2 ^ 63) a.le_toInt a.toInt_lt))
    ((congrArg Int64.ofInt (unfold_fold _)).trans a.ofInt_toInt)

theorem delimits_binary64 (a : Binary64) : binary64.Delimits a :=
  .via (delimits_word 8 a.bits.toNat_lt) (congrArg Binary64.mk UInt64.ofNat_toNat)

theorem delimits_binary32 (a : Binary32) : binary32.Delimits a :=
  .via (delimits_word 4 a.bits.toNat_lt) (congrArg Binary32.mk UInt32.ofNat_toNat)

theorem fromUTF8?_toUTF8 (a : String) :
    String.fromUTF8? ⟨a.toUTF8.data.toList.toArray⟩ = some a := by
  rw [Array.toArray_toList]
  exact dif_pos a.isValidUTF8

theorem delimits_text {a : String} (h : a.toUTF8.size < UInt64.size) : text.Delimits a := by
  intro rest
  have hcount : readBits 64 (numberBytes a.toUTF8.size ++ (a.toUTF8.data.toList ++ rest)) = _ :=
    delimits_bits 64 (by decide) h _
  have hblock : readBlock a.toUTF8.size (a.toUTF8.data.toList ++ rest) = _ :=
    readBlock_append a.toUTF8.data.toList rest
  simp only [text, List.append_assoc, hcount, bind, Except.bind, hblock, fromUTF8?_toUTF8]

theorem delimits_time (t : { t : Int // InRange t }) : time.Delimits t := by
  obtain ⟨t, hlow, hhigh⟩ := t
  refine .via (delimits_int64 _) (Subtype.ext (Int64.toInt_ofInt_of_le hlow ?_))
  exact Int.lt_of_le_of_lt hhigh (by decide)

theorem readBits32_numberBytes {n : Nat} (h : n < 2 ^ 32) (rest : Bytes) :
    readBits 32 (numberBytes n ++ rest) = .ok (n, rest) :=
  delimits_bits 32 (by decide) h rest

theorem delimits_window (w : { w : Window // w.Storable }) : window.Delimits w := by
  intro rest
  obtain ⟨w, hw⟩ := w
  cases w with
  | global =>
    simp only [window, readBits32_numberBytes (n := 0) (by decide) rest]
    rfl
  | interval start stop =>
    simp only [window, List.append_assoc, readBits32_numberBytes (n := 1) (by decide), bind,
      Except.bind, delimits_time _ _]
    rfl

theorem delimits_timing (t : PaneTiming) : timing.Delimits t := by
  intro rest
  have hnumber : timingNumber t < 2 ^ 32 := by cases t <;> decide
  simp only [timing, readBits32_numberBytes hnumber, bind, Except.bind]
  cases t <;> rfl

theorem delimits_pane (p : { p : PaneInfo // p.Storable }) : pane.Delimits p := by
  obtain ⟨p, hp⟩ := p
  refine .via (.pair (delimits_word64 _) (.pair (delimits_bool _)
    (.pair (delimits_bool _) (delimits_timing _)))) (Subtype.ext ?_)
  have hindex : (UInt64.ofNat p.index).toNat = p.index := UInt64.toNat_ofNat_of_lt' hp
  simp only [hindex]

theorem delimits_timestamped (e : { e : Timestamped String // InRange e.timestamp })
    (h : e.1.value.toUTF8.size < UInt64.size) : timestamped.Delimits e :=
  .via (.pair (delimits_time _) (delimits_text h)) rfl

theorem delimits_envelope (e : { e : Envelope Int64 // e.Storable })
    (h : e.1.windows.length < UInt64.size) : envelope.Delimits e := by
  refine .via (.pair (delimits_int64 _) (.pair (delimits_time _) (.pair (.sequence ?_ fun w _ =>
    delimits_window w) (delimits_pane _)))) (Subtype.ext ?_)
  · rwa [List.length_attachWith]
  · simp only [List.attachWith_map_subtype_val]

theorem delimits_mean (m : Mean) : mean.Delimits m :=
  .via (.pair (delimits_binary64 _) (delimits_word64 _)) rfl

theorem delimits_digest {d : Digest} (h : d.log.toUTF8.size < UInt64.size) : digest.Delimits d :=
  .via (.pair (delimits_word64 _) (delimits_text h)) rfl

end Wire

namespace DataType

/-- The lengths of the texts and lists in a value. -/
def lengths : (t : DataType) → t.Value → List Nat
  | .text, a => [a.toUTF8.size]
  | .longs, l => [l.length]
  | .optionalText, a => a.toList.map (·.toUTF8.size)
  | .textAndLong, p => [p.1.toUTF8.size]
  | .timestamped, e => [e.1.value.toUTF8.size]
  | .envelope, e => [e.1.windows.length]
  | .digest, d => [d.log.toUTF8.size]
  | _, _ => []

theorem delimits_wire (t : DataType) (a : t.Value) (h : ∀ n ∈ t.lengths a, n < UInt64.size) :
    t.wire.Delimits a := by
  cases t with
  | unit => exact Wire.delimits_unit a
  | bool => exact Wire.delimits_bool a
  | uint8 => exact Wire.delimits_byte a
  | uint16 => exact Wire.delimits_word16 a
  | uint32 => exact Wire.delimits_word32 a
  | uint64 => exact Wire.delimits_word64 a
  | size => exact Wire.delimits_word64 a
  | int8 => exact Wire.delimits_int8 a
  | int16 => exact Wire.delimits_int16 a
  | int32 => exact Wire.delimits_int32 a
  | int64 => exact Wire.delimits_int64 a
  | binary32 => exact Wire.delimits_binary32 a
  | binary64 => exact Wire.delimits_binary64 a
  | text => exact Wire.delimits_text (h _ (List.mem_singleton_self _))
  | longs => exact .sequence (h _ (List.mem_singleton_self _)) fun n _ => Wire.delimits_int64 n
  | optionalText =>
    refine .option fun x hx => Wire.delimits_text (h _ ?_)
    exact List.mem_map_of_mem (Option.mem_toList.mpr hx)
  | textAndLong =>
    exact .pair (Wire.delimits_text (h _ (List.mem_singleton_self _))) (Wire.delimits_int64 _)
  | window => exact Wire.delimits_window a
  | pane => exact Wire.delimits_pane a
  | timestamped => exact Wire.delimits_timestamped a (h _ (List.mem_singleton_self _))
  | envelope => exact Wire.delimits_envelope a (h _ (List.mem_singleton_self _))
  | mean => exact Wire.delimits_mean a
  | digest => exact Wire.delimits_digest (h _ (List.mem_singleton_self _))

end DataType

end EventTime
