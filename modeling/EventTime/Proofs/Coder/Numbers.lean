import EventTime.Coder.Basic

/-!
# Reading numbers back

A number is read back from its bytes whatever follows them.
-/

namespace EventTime

namespace Wire

theorem readNatural_numberBytes (n : Nat) (rest : Bytes) :
    readNatural (numberBytes n ++ rest) = .ok (n, rest) := by
  fun_induction numberBytes n with
  | case1 n h =>
    have hbyte : (UInt8.ofNat n).toNat = n := by
      rw [UInt8.toNat_ofNat']
      omega
    rw [List.singleton_append, readNatural, hbyte, if_pos h]
  | case2 n h ih =>
    have hbyte : (UInt8.ofNat (n % 128 + 128)).toNat = n % 128 + 128 := by
      rw [UInt8.toNat_ofNat']
      omega
    rw [List.cons_append, readNatural, hbyte, if_neg (by omega), ih]
    simp only [bind, Except.bind, pure, Except.pure, Except.ok.injEq, Prod.mk.injEq, and_true]
    omega

end Wire

theorem Coder.decodeFront_natural (n : Nat) :
    (Coder.ofWire Wire.natural).decodeFront (Wire.numberBytes n) = .ok n := by
  have h := Wire.readNatural_numberBytes n []
  rw [List.append_nil] at h
  simp only [Coder.decodeFront, Coder.ofWire, Wire.natural, h]

end EventTime
