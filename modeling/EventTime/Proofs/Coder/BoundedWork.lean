import EventTime.Coder.Shape
import EventTime.Proofs.Coder.Locality

/-!
# How often a list asks the coder of its members

The length of a list comes from the bytes, so it bounds nothing. What stops the reading of a list is
a member that is refused, and a coder that has to take a byte for every value refuses once the bytes
are used up. A unit takes no byte: a list of units is read as long as the length says.
-/

namespace EventTime

variable {α : Type}

namespace Coder

variable {c : Coder α} {b : Bytes}

/-- Read `count` values and count how often the coder is asked; `asked` counts earlier requests. -/
def decodeManyCounted (c : Coder α) : (count : Nat) → (done : List α) → (asked : Nat) → Bytes →
    (Except CoderError (List α) × Bytes) × Nat
  | 0, done, asked, b => ((.ok done.reverse, b), asked)
  | count + 1, done, asked, b =>
    match c.decode b with
    | (.ok a, rest) => decodeManyCounted c count (a :: done) (asked + 1) rest
    | (.error e, rest) => ((.error e, rest), asked + 1)

/-- Read a list and count how often the coder of its members is asked. -/
def decodeListCounted (c : Coder α) (b : Bytes) : (Except CoderError (List α) × Bytes) × Nat :=
  match (ofWire Wire.word64).decode b with
  | (.ok count, rest) => c.decodeManyCounted count.toNat [] 0 rest
  | (.error e, rest) => ((.error e, rest), 0)

theorem decodeManyCounted_fst (count : Nat) (done : List α) (asked : Nat) (b : Bytes) :
    (c.decodeManyCounted count done asked b).1 = c.decodeMany count done b := by
  induction count generalizing done asked b with
  | zero => rfl
  | succ count ih =>
    rw [decodeManyCounted, decodeMany]
    rcases c.decode b with ⟨value, rest⟩
    cases value with
    | error e => rfl
    | ok a => exact ih (a :: done) (asked + 1) rest

theorem decodeListCounted_fst (b : Bytes) : (c.decodeListCounted b).1 = c.list.decode b := by
  simp only [decodeListCounted, list]
  rcases (ofWire Wire.word64).decode b with ⟨count, rest⟩
  cases count with
  | error e => rfl
  | ok count => exact decodeManyCounted_fst count.toNat [] 0 rest

/-- Every value takes at least one byte. -/
def Advances (c : Coder α) : Prop :=
  ∀ b a rest, c.decode b = (.ok a, rest) → rest.length < b.length

/-- A value that takes no byte would be read from no bytes. -/
theorem advances_of_refuses_nil (hlocal : DecodesLocally c.decode)
    (hnil : ∃ e, (c.decode []).1 = .error e) : c.Advances := by
  intro b a rest h
  obtain ⟨e, he⟩ := hnil
  obtain ⟨front, hfront, hagain⟩ := hlocal b
  have hread := hagain a (congrArg Prod.fst h)
  rw [h] at hfront
  cases front with
  | nil =>
    rw [show c.decode [] = (.ok a, []) from hread []] at he
    cases he
  | cons x front =>
    show rest.length < b.length
    rw [hfront, List.length_append, List.length_cons]
    exact Nat.lt_add_of_pos_left (Nat.succ_pos _)

theorem Advances.asked_le (h : c.Advances) (count : Nat) (done : List α) (asked : Nat)
    (b : Bytes) : (c.decodeManyCounted count done asked b).2 ≤ asked + (b.length + 1) := by
  induction count generalizing done asked b with
  | zero => exact Nat.le_add_right ..
  | succ count ih =>
    rw [decodeManyCounted]
    rcases hread : c.decode b with ⟨value, rest⟩
    cases value with
    | error e =>
      show asked + 1 ≤ asked + (b.length + 1)
      omega
    | ok a =>
      have hrest := h b a rest hread
      have hlater := ih (a :: done) (asked + 1) rest
      show (c.decodeManyCounted count (a :: done) (asked + 1) rest).2 ≤ asked + (b.length + 1)
      omega

theorem Advances.length_add_le (h : c.Advances) {count : Nat} {done l : List α} {left : Bytes}
    (hread : c.decodeMany count done b = (.ok l, left)) :
    l.length + left.length ≤ done.length + b.length := by
  induction count generalizing done b with
  | zero =>
    obtain ⟨hl, rfl⟩ := Prod.mk.inj hread
    exact Nat.le_of_eq (by rw [← Except.ok.inj hl, List.length_reverse])
  | succ count ih =>
    rw [decodeMany] at hread
    rcases hfirst : c.decode b with ⟨value, rest⟩
    rw [hfirst] at hread
    cases value with
    | error e => cases (Prod.mk.inj hread).1
    | ok a =>
      have hrest := h b a rest hfirst
      have hlater := ih hread
      rw [List.length_cons] at hlater
      omega

/-- A coder that reads locally and reads nothing from no bytes is asked for the members of a list at
most once more than there are bytes after the length, and no more members are read than there are such
bytes. Where the length is refused the coder is not asked. -/
theorem decodeListCounted_bounded (hlocal : DecodesLocally c.decode)
    (hnil : ∃ e, (c.decode []).1 = .error e) (b : Bytes) :
    (c.decodeListCounted b).1 = c.list.decode b ∧
    (∀ e rest, (ofWire Wire.word64).decode b = (.error e, rest) →
      (c.decodeListCounted b).2 = 0) ∧
    ∀ count rest, (ofWire Wire.word64).decode b = (.ok count, rest) →
      (c.decodeListCounted b).2 ≤ rest.length + 1 ∧
      ∀ l left, c.list.decode b = (.ok l, left) → l.length ≤ rest.length := by
  have hadvances : c.Advances := advances_of_refuses_nil hlocal hnil
  refine ⟨decodeListCounted_fst b, fun e rest h => ?_, fun count rest h => ⟨?_, ?_⟩⟩
  · rw [decodeListCounted, h]
  · have hasked := hadvances.asked_le count.toNat [] 0 rest
    rw [Nat.zero_add] at hasked
    rwa [decodeListCounted, h]
  · intro l left hread
    simp only [list, h] at hread
    have hlength := hadvances.length_add_le hread
    rw [List.length_nil, Nat.zero_add] at hlength
    omega

/-- Only a plain format may read a value from no bytes. -/
theorem Nested.refuses_nil (hc : c.Nested)
    (hplain : ∀ w, c = ofWire w → ∃ e, (c.decode []).1 = .error e) :
    ∃ e, (c.decode []).1 = .error e := by
  cases hc with
  | plain _ => exact hplain _ rfl
  | holder _ => exact ⟨_, rfl⟩
  | list _ => exact ⟨_, rfl⟩
  | inputOrAccum _ _ => exact ⟨_, rfl⟩

/-- So a list of members is bounded by its bytes under any nesting of coders over local formats,
unless the coder of its members is itself a format that reads a value from no bytes. -/
theorem Nested.decodeListCounted_bounded (hc : c.Nested)
    (hplain : ∀ w, c = ofWire w → ∃ e, (c.decode []).1 = .error e) (b : Bytes) :
    (c.decodeListCounted b).1 = c.list.decode b ∧
    (∀ e rest, (ofWire Wire.word64).decode b = (.error e, rest) →
      (c.decodeListCounted b).2 = 0) ∧
    ∀ count rest, (ofWire Wire.word64).decode b = (.ok count, rest) →
      (c.decodeListCounted b).2 ≤ rest.length + 1 ∧
      ∀ l left, c.list.decode b = (.ok l, left) → l.length ≤ rest.length :=
  c.decodeListCounted_bounded hc.decodesLocally (hc.refuses_nil hplain) b

/-- A list of units asks as often as the length says, whatever follows it. -/
theorem decodeManyCounted_unit (count : Nat) (done : List Unit) (asked : Nat) (b : Bytes) :
    (ofWire Wire.unit).decodeManyCounted count done asked b =
      ((.ok (done.reverse ++ List.replicate count ()), b), asked + count) := by
  induction count generalizing done asked with
  | zero => rw [decodeManyCounted, List.replicate_zero, List.append_nil, Nat.add_zero]
  | succ count ih =>
    show (ofWire Wire.unit).decodeManyCounted count (() :: done) (asked + 1) b = _
    rw [ih, List.reverse_cons, List.append_assoc, List.replicate_succ, Nat.add_assoc,
      Nat.add_comm 1 count]
    rfl

theorem decodeListCounted_unit {count : UInt64} {rest : Bytes}
    (h : (ofWire Wire.word64).decode b = (.ok count, rest)) :
    (ofWire Wire.unit).decodeListCounted b =
      ((.ok (List.replicate count.toNat ()), rest), count.toNat) := by
  rw [decodeListCounted, h]
  show (ofWire Wire.unit).decodeManyCounted count.toNat [] 0 rest = _
  rw [decodeManyCounted_unit, List.reverse_nil, List.nil_append, Nat.zero_add]

end Coder

namespace Shape

/-- Only a unit is read from no bytes. -/
theorem refuses_nil {s : Shape} (hs : s ≠ .plain .unit) : ∃ e, (s.coder.decode []).1 = .error e := by
  cases s with
  | plain t =>
    cases t with
    | unit => exact absurd rfl hs
    | _ => exact ⟨_, rfl⟩
  | holder s => exact ⟨_, rfl⟩
  | list s => exact ⟨_, rfl⟩
  | inputOrAccum s r => exact ⟨_, rfl⟩

/-- Reading a list asks the coder of its members at most once more than there are bytes after the
length, and reads no more members than there are such bytes, unless the members are units. Where the
length is refused the coder is not asked. -/
theorem list_decode_bounded {s : Shape} (hs : s ≠ .plain .unit) (b : Bytes) :
    (s.coder.decodeListCounted b).1 = s.coder.list.decode b ∧
    (∀ e rest, (Coder.ofWire Wire.word64).decode b = (.error e, rest) →
      (s.coder.decodeListCounted b).2 = 0) ∧
    ∀ count rest, (Coder.ofWire Wire.word64).decode b = (.ok count, rest) →
      (s.coder.decodeListCounted b).2 ≤ rest.length + 1 ∧
      ∀ l left, s.coder.list.decode b = (.ok l, left) → l.length ≤ rest.length :=
  s.nested_coder.decodeListCounted_bounded (fun _ _ => refuses_nil hs) b

/-- Nine marks are announced, two follow, and a byte that is no mark. -/
theorem list_decode_bounded_of_marks :
    Shape.holder (.plain .unit) ≠ .plain .unit ∧
      (Shape.holder (.plain .unit)).coder.list.decode [9, 0, 1, 7] =
        (.error (.unknownTag 7), []) ∧
      ((Shape.holder (.plain .unit)).coder.decodeListCounted [9, 0, 1, 7]).2 ≤ 3 + 1 := by
  have hs : Shape.holder (.plain .unit) ≠ .plain .unit := nofun
  obtain ⟨-, -, hbound⟩ := list_decode_bounded hs [9, 0, 1, 7]
  exact ⟨hs, rfl, (hbound 9 [0, 1, 7] rfl).1⟩

/-- Five units are read from no bytes, one request each. -/
theorem list_of_units_unbounded :
    (Coder.ofWire Wire.word64).decode [5] = (.ok 5, []) ∧
      (Shape.plain .unit).coder.list.decode [5] = (.ok [(), (), (), (), ()], []) ∧
      ¬((Shape.plain .unit).coder.decodeListCounted [5]).2 ≤ ([] : Bytes).length + 1 ∧
      ¬[(), (), (), (), ()].length ≤ ([] : Bytes).length := by
  have hlength : (Coder.ofWire Wire.word64).decode [5] = (.ok 5, []) := rfl
  have hasked : ((Shape.plain .unit).coder.decodeListCounted [5]).2 = 5 :=
    congrArg Prod.snd (Coder.decodeListCounted_unit hlength)
  exact ⟨hlength, rfl, by rw [hasked]; decide, by decide⟩

end Shape

end EventTime
