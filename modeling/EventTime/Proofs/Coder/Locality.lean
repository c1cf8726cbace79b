import EventTime.Coder.Shape
import EventTime.Proofs.Coder.Nested

/-!
# Reading is local

A reader looks at the bytes it consumes and at no others: with other bytes after them it answers the
same value, and of fewer of them it answers none. This holds of arbitrary bytes, not only of
encodings. It passes through every way in which readers are composed, and so from the plain formats
to the coders nested over them, which leave a tail of their bytes also when they fail.
-/

namespace EventTime

variable {α β : Type}

namespace Wire

/-- Whatever is read takes a front of the bytes, and is read again with others after that front. -/
def ReadsLocally (read : Bytes → Except WireError (α × Bytes)) : Prop :=
  ∀ b a rest, read b = .ok (a, rest) →
    ∃ front, b = front ++ rest ∧ ∀ more, read (front ++ more) = .ok (a, more)

def Local (w : Wire α) : Prop := ReadsLocally w.read

namespace ReadsLocally

theorem pure (a : α) : ReadsLocally fun b => .ok (a, b) := by
  intro b a' rest h
  obtain ⟨rfl, rfl⟩ := Prod.mk.inj (Except.ok.inj h)
  exact ⟨[], rfl, fun _ => rfl⟩

theorem error (e : WireError) : ReadsLocally fun _ => (.error e : Except WireError (α × Bytes)) := by
  intro b a rest h
  cases h

theorem bind {first : Bytes → Except WireError (α × Bytes)}
    {next : α × Bytes → Except WireError (β × Bytes)} (hfirst : ReadsLocally first)
    (hnext : ∀ a, ReadsLocally fun rest => next (a, rest)) :
    ReadsLocally fun b => first b >>= next := by
  intro b y rest h
  cases hread : first b with
  | error e => simp [hread, Bind.bind, Except.bind] at h
  | ok p =>
    obtain ⟨x, middle⟩ := p
    simp only [hread, Bind.bind, Except.bind] at h
    obtain ⟨front, rfl, hfront⟩ := hfirst b x middle hread
    obtain ⟨back, rfl, hback⟩ := hnext x middle y rest h
    refine ⟨front ++ back, (List.append_assoc ..).symm, fun more => ?_⟩
    simp only [List.append_assoc, hfront, Bind.bind, Except.bind, hback]

theorem map {read : Bytes → Except WireError (α × Bytes)} (h : ReadsLocally read) (f : α → β) :
    ReadsLocally fun b => (read b).map fun p => (f p.1, p.2) := by
  intro b y rest hmap
  cases hread : read b with
  | error e => simp [hread, Except.map] at hmap
  | ok p =>
    obtain ⟨x, rest'⟩ := p
    simp only [hread, Except.map, Except.ok.injEq, Prod.mk.injEq] at hmap
    obtain ⟨rfl, rfl⟩ := hmap
    obtain ⟨front, rfl, hfront⟩ := h b x rest' hread
    exact ⟨front, rfl, fun more => by simp only [hfront, Except.map]⟩

/-- Reading one byte, and then in a way chosen by it. -/
theorem byte {read : Bytes → Except WireError (α × Bytes)} {e : WireError}
    (hnil : read [] = .error e) (hcons : ∀ x, ReadsLocally fun rest => read (x :: rest)) :
    ReadsLocally read := by
  intro b a rest h
  cases b with
  | nil =>
    rw [hnil] at h
    cases h
  | cons x tail =>
    obtain ⟨front, rfl, hfront⟩ := hcons x tail a rest h
    exact ⟨x :: front, rfl, hfront⟩

end ReadsLocally

/-! ### Formats -/

theorem readsLocally_readNumber (cap left : Nat) : ReadsLocally (readNumber cap left) := by
  induction left with
  | zero => exact .error _
  | succ left ih =>
    refine .byte rfl fun x => ?_
    by_cases hlast : x.toNat < 128
    · by_cases hcap : left = 0 ∧ cap < x.toNat
      · simp only [readNumber, if_pos hlast, if_pos hcap]
        exact .error _
      · simp only [readNumber, if_pos hlast, if_neg hcap]
        exact .pure _
    · simp only [readNumber, if_neg hlast]
      exact .bind ih fun high => .pure (x.toNat - 128 + 128 * high)

theorem readsLocally_readBits (width : Nat) : ReadsLocally (readBits width) :=
  readsLocally_readNumber _ _

theorem readsLocally_readBlock (count : Nat) : ReadsLocally (readBlock count) := by
  intro b block rest h
  by_cases hlength : count ≤ b.length
  · rw [readBlock, if_pos hlength] at h
    obtain ⟨rfl, rfl⟩ := Prod.mk.inj (Except.ok.inj h)
    refine ⟨b.take count, (List.take_append_drop ..).symm, fun more => ?_⟩
    have hread := readBlock_append (b.take count) more
    rwa [List.length_take_of_le hlength] at hread
  · rw [readBlock, if_neg hlength] at h
    cases h

theorem local_bits (width : Nat) : (bits width).Local := readsLocally_readBits width

theorem local_word (count : Nat) : (word count).Local := .map (readsLocally_readBlock count) _

theorem Local.via {w : Wire β} (h : w.Local) {forth : α → β} {back : β → α} :
    (w.via forth back).Local :=
  .map h back

theorem Local.pair {v : Wire α} {w : Wire β} (h : v.Local) (h' : w.Local) : (v.pair w).Local :=
  .bind h fun x => .bind h' fun y => .pure (x, y)

theorem Local.option {w : Wire α} (h : w.Local) : w.option.Local := by
  refine .byte rfl fun x => ?_
  by_cases hnone : x = 0
  · subst hnone
    exact .pure none
  · by_cases hsome : x = 1
    · subst hsome
      exact .map h some
    · simp only [Wire.option]
      exact .error _

theorem readsLocally_readMany {w : Wire α} (h : w.Local) (count : Nat) (done : List α) :
    ReadsLocally (readMany w.read count done) := by
  induction count generalizing done with
  | zero => exact .pure _
  | succ count ih => exact .bind h fun a => ih (a :: done)

theorem Local.sequence {w : Wire α} (h : w.Local) : w.sequence.Local :=
  .bind (readsLocally_readBits 64) fun count => readsLocally_readMany h count []

theorem local_unit : unit.Local := .pure ()

theorem local_byte : byte.Local := .byte rfl .pure

theorem local_bool : bool.Local := by
  refine .byte rfl fun x => ?_
  by_cases hfalse : x = 0
  · subst hfalse
    exact .pure false
  · by_cases htrue : x = 1
    · subst htrue
      exact .pure true
    · simp only [bool]
      exact .error _

theorem local_int64 : int64.Local := (local_bits 64).via

theorem local_word64 : word64.Local := (local_bits 64).via

theorem local_text : text.Local := by
  refine .bind (readsLocally_readBits 64) fun count =>
    .bind (readsLocally_readBlock count) fun block => ?_
  cases htext : String.fromUTF8? ⟨block.toArray⟩ with
  | some s =>
    simp only [htext]
    exact .pure s
  | none =>
    simp only [htext]
    exact .error _

theorem local_time : time.Local := local_int64.via

theorem local_window : window.Local := by
  refine .bind (readsLocally_readBits 32) fun variant => ?_
  match variant with
  | 0 => exact .pure _
  | 1 => exact .bind local_time fun start => .bind local_time fun stop => .pure _
  | _ + 2 => exact .error _

theorem local_timing : timing.Local := by
  refine .bind (readsLocally_readBits 32) fun variant => ?_
  match variant with
  | 0 => exact .pure _
  | 1 => exact .pure _
  | 2 => exact .pure _
  | 3 => exact .pure _
  | _ + 4 => exact .error _

theorem local_pane : pane.Local :=
  (local_word64.pair (local_bool.pair (local_bool.pair local_timing))).via

end Wire

theorem DataType.local_wire (t : DataType) : t.wire.Local := by
  cases t with
  | unit => exact Wire.local_unit
  | bool => exact Wire.local_bool
  | uint8 => exact Wire.local_byte
  | uint16 => exact (Wire.local_bits 16).via
  | uint32 => exact (Wire.local_bits 32).via
  | uint64 => exact Wire.local_word64
  | size => exact Wire.local_word64
  | int8 => exact Wire.local_byte.via
  | int16 => exact (Wire.local_bits 16).via
  | int32 => exact (Wire.local_bits 32).via
  | int64 => exact Wire.local_int64
  | binary32 => exact (Wire.local_word 4).via
  | binary64 => exact (Wire.local_word 8).via
  | text => exact Wire.local_text
  | longs => exact Wire.local_int64.sequence
  | optionalText => exact Wire.local_text.option
  | textAndLong => exact Wire.local_text.pair Wire.local_int64
  | window => exact Wire.local_window
  | pane => exact Wire.local_pane
  | timestamped => exact (Wire.local_time.pair Wire.local_text).via
  | envelope =>
    exact (Wire.local_int64.pair (Wire.local_time.pair
      (Wire.local_window.sequence.pair Wire.local_pane))).via
  | mean => exact ((Wire.local_word 8).via.pair Wire.local_word64).via
  | digest => exact (Wire.local_word64.pair Wire.local_text).via

/-! ### Composing coders -/

namespace Coder

/-- What is left, also on failure, is a tail of the bytes, and what is read is read again with other
bytes after the front it took. -/
def DecodesLocally (decode : Bytes → Except CoderError α × Bytes) : Prop :=
  ∀ b, ∃ front, b = front ++ (decode b).2 ∧
    ∀ a, (decode b).1 = .ok a → ∀ more, decode (front ++ more) = (.ok a, more)

namespace DecodesLocally

theorem pure (a : α) : DecodesLocally fun b => (.ok a, b) := by
  refine fun b => ⟨[], rfl, fun a' ha more => ?_⟩
  obtain rfl := Except.ok.inj ha
  rfl

theorem mapRead {decode : Bytes → Except CoderError α × Bytes} (h : DecodesLocally decode)
    (f : α → β) : DecodesLocally fun b => Coder.mapRead f (decode b) := by
  intro b
  obtain ⟨front, hfront, hagain⟩ := h b
  refine ⟨front, hfront, fun y hy more => ?_⟩
  cases hread : (decode b).1 with
  | error e => simp [Coder.mapRead, hread, Except.map] at hy
  | ok a =>
    simp only [Coder.mapRead, hread, Except.map, Except.ok.injEq] at hy
    simp only [hagain a hread, Coder.mapRead, Except.map, hy]

/-- One decoder after another, unless the first fails. -/
theorem bind {decode : Bytes → Except CoderError β × Bytes}
    {first : Bytes → Except CoderError α × Bytes} {next : α → Bytes → Except CoderError β × Bytes}
    (hok : ∀ b a rest, first b = (.ok a, rest) → decode b = next a rest)
    (herror : ∀ b e rest, first b = (.error e, rest) → decode b = (.error e, rest))
    (hfirst : DecodesLocally first) (hnext : ∀ a, DecodesLocally (next a)) :
    DecodesLocally decode := by
  intro b
  obtain ⟨front, hfront, hagain⟩ := hfirst b
  rcases hread : first b with ⟨value, middle⟩
  rw [hread] at hfront hagain
  cases value with
  | error e =>
    rw [herror b e middle hread]
    exact ⟨front, hfront, nofun⟩
  | ok x =>
    obtain ⟨back, hback, hagain'⟩ := hnext x middle
    rw [hok b x middle hread]
    refine ⟨front ++ back, by rw [List.append_assoc, ← hback, hfront], fun y hy more => ?_⟩
    rw [List.append_assoc, hok _ x (back ++ more) (hagain x rfl _), hagain' y hy]

theorem readTagged {zero one : Bytes → Except CoderError α × Bytes} (hzero : DecodesLocally zero)
    (hone : DecodesLocally one) : DecodesLocally (Coder.readTagged zero one) := by
  intro b
  cases b with
  | nil => exact ⟨[], rfl, nofun⟩
  | cons tag rest =>
    by_cases h0 : tag = 0
    · subst h0
      obtain ⟨front, hfront, hagain⟩ := hzero rest
      exact ⟨0 :: front, congrArg (0 :: ·) hfront, hagain⟩
    · by_cases h1 : tag = 1
      · subst h1
        obtain ⟨front, hfront, hagain⟩ := hone rest
        exact ⟨1 :: front, congrArg (1 :: ·) hfront, hagain⟩
      · simp only [Coder.readTagged]
        exact ⟨[tag], rfl, nofun⟩

/-- Nothing is read of a proper front of the bytes that a value takes. -/
theorem fails_of_front {decode : Bytes → Except CoderError α × Bytes} (h : DecodesLocally decode)
    {a : α} {front short : Bytes} (hread : decode front = (.ok a, [])) (hshort : short <+: front)
    (hne : short ≠ front) : ∃ e, (decode short).1 = .error e := by
  cases hvalue : (decode short).1 with
  | error e => exact ⟨e, rfl⟩
  | ok a' =>
    -- what is left of `short` and the bytes that `front` has after it would be left of `front`
    obtain ⟨taken, htaken, hagain⟩ := h short
    obtain ⟨more, rfl⟩ := hshort
    have hleft := hagain a' hvalue ((decode short).2 ++ more)
    rw [← List.append_assoc, ← htaken, hread] at hleft
    obtain ⟨-, rfl⟩ := List.append_eq_nil_iff.mp (Prod.mk.inj hleft).2.symm
    exact absurd (List.append_nil short).symm hne

end DecodesLocally

theorem ofWire_decode_of_error {w : Wire α} {b : Bytes} {e : CoderError}
    (h : ((ofWire w).decode b).1 = .error e) : ((ofWire w).decode b).2 = b := by
  cases hread : w.read b with
  | error e => simp only [ofWire, hread]
  | ok p => simp [ofWire, hread] at h

theorem decodesLocally_ofWire {w : Wire α} (h : w.Local) : DecodesLocally (ofWire w).decode := by
  intro b
  cases hread : w.read b with
  | error e =>
    simp only [ofWire, hread]
    refine ⟨[], rfl, fun a ha => ?_⟩
    cases ha
  | ok p =>
    obtain ⟨a, rest⟩ := p
    obtain ⟨front, hfront, hagain⟩ := h b a rest hread
    simp only [ofWire, hread]
    refine ⟨front, hfront, fun a' ha more => ?_⟩
    simp only [hagain, ha]

theorem decodesLocally_decodeMany {c : Coder α} (h : DecodesLocally c.decode) (count : Nat)
    (done : List α) : DecodesLocally (c.decodeMany count done) := by
  induction count generalizing done with
  | zero => exact .pure _
  | succ count ih =>
    refine .bind (fun b a rest hread => ?_) (fun b e rest hread => ?_) h fun a => ih (a :: done)
    · rw [decodeMany, hread]
    · rw [decodeMany, hread]

theorem decodesLocally_list {c : Coder α} (h : DecodesLocally c.decode) :
    DecodesLocally c.list.decode := by
  refine .bind (fun b count rest hread => ?_) (fun b e rest hread => ?_)
    (decodesLocally_ofWire Wire.local_word64)
    fun count => decodesLocally_decodeMany h count.toNat []
  · simp only [list, hread]
  · simp only [list, hread]

/-- Built from the coders of local formats by the composite coders. -/
inductive Nested : {α : Type} → Coder α → Prop
  | plain {α : Type} {w : Wire α} (h : w.Local) : Nested (ofWire w)
  | holder {α : Type} {c : Coder α} (h : Nested c) : Nested c.holder
  | list {α : Type} {c : Coder α} (h : Nested c) : Nested c.list
  | inputOrAccum {α β : Type} {c : Coder α} {d : Coder β} (h : Nested c) (h' : Nested d) :
    Nested (c.inputOrAccum d)

theorem Nested.decodesLocally {c : Coder α} (h : c.Nested) : DecodesLocally c.decode := by
  induction h with
  | plain h => exact decodesLocally_ofWire h
  | holder _ ih => exact .readTagged (.pure none) (ih.mapRead some)
  | list _ ih => exact decodesLocally_list ih
  | inputOrAccum _ _ ih ih' =>
    exact .readTagged (ih.mapRead InputOrAccum.input) (ih'.mapRead InputOrAccum.accum)

end Coder

theorem Shape.nested_coder (s : Shape) : s.coder.Nested := by
  induction s with
  | plain t => exact .plain t.local_wire
  | holder _ ih => exact .holder ih
  | list _ ih => exact .list ih
  | inputOrAccum _ _ ih ih' => exact .inputOrAccum ih ih'

/-- Of arbitrary bytes a nested coder leaves a tail, all of them if a bare plain format fails. The
value it reads depends on the front it takes alone: it is read again whatever follows that front, and
no proper front of it is enough. -/
theorem nested_decode_local :
    (∀ s : Shape, s.coder.Nested) ∧
    ∀ (α : Type) (c : Coder α), c.Nested → ∀ b : Bytes,
      (∀ w, c = .ofWire w → ∀ e, (c.decode b).1 = .error e → (c.decode b).2 = b) ∧
      ∃ front, b = front ++ (c.decode b).2 ∧ ∀ a, (c.decode b).1 = .ok a →
        (∀ more, c.decode (front ++ more) = (.ok a, more)) ∧
        ∀ short, short <+: front → short ≠ front → ∃ e, (c.decode short).1 = .error e := by
  refine ⟨Shape.nested_coder, fun α c hc b => ⟨?_, ?_⟩⟩
  · rintro w rfl e he
    exact Coder.ofWire_decode_of_error he
  · obtain ⟨front, hfront, hagain⟩ := hc.decodesLocally b
    refine ⟨front, hfront, fun a ha => ⟨hagain a ha, fun short hshort hne => ?_⟩⟩
    have hread := hagain a ha []
    rw [List.append_nil] at hread
    exact hc.decodesLocally.fails_of_front hread hshort hne

/-- Two marks and a byte after them; and a mark with an unknown tag. -/
theorem nested_decode_local_of_marks :
    Shape.marksOrFlags.coder.decode [2, 0, 1, 0, 9] = (.ok [none, some (.input ())], [9]) ∧
      (∀ more, Shape.marksOrFlags.coder.decode ([2, 0, 1, 0] ++ more) =
        (.ok [none, some (.input ())], more)) ∧
      (∃ e, (Shape.marksOrFlags.coder.decode [2, 0, 1]).1 = .error e) ∧
      Shape.marksOrFlags.coder.decode [2, 7, 1, 0, 9] = (.error (.unknownTag 7), [1, 0, 9]) := by
  have hread : Shape.marksOrFlags.coder.decode [2, 0, 1, 0, 9] =
      (.ok [none, some (.input ())], [9]) := rfl
  obtain ⟨hshapes, hlocal⟩ := nested_decode_local
  obtain ⟨-, front, hfront, hvalue⟩ :=
    hlocal _ _ (hshapes Shape.marksOrFlags) [2, 0, 1, 0, 9]
  have hmarks : [2, 0, 1, 0] ++ [9] = front ++ [9] := hfront
  obtain rfl := List.append_cancel_right hmarks
  obtain ⟨hagain, hshort⟩ := hvalue _ (congrArg Prod.fst hread)
  exact ⟨hread, hagain, hshort [2, 0, 1] (by decide) (by decide), rfl⟩

end EventTime
