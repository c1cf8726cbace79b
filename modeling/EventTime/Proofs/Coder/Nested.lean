import EventTime.Coder.Shape
import EventTime.Proofs.Coder.Delimiting

/-!
# Nested coders delimit themselves

A composite coder writes tags, a length and the encodings of its parts one after another. Every part
is read up to where the next begins, so a value is read back at any nesting whatever follows it, and
no encoding is the front of another value's.
-/

namespace EventTime

variable {α β : Type}

namespace Coder

/-- A value is encoded, and read back from its bytes; what follows them is left. -/
def Delimits (c : Coder α) (a : α) : Prop :=
  ∃ bytes, c.encode a = .ok bytes ∧ ∀ rest, c.decode (bytes ++ rest) = (.ok a, rest)

theorem delimits_ofWire {w : Wire α} {a : α} (h : w.Delimits a) : (ofWire w).Delimits a := by
  refine ⟨w.write a, rfl, fun rest => ?_⟩
  simp only [ofWire, h rest]

theorem Delimits.eq_of_front {c : Coder α} {a b : α} (ha : c.Delimits a) (hb : c.Delimits b)
    {bytes bytes' : Bytes} (hbytes : c.encode a = .ok bytes) (hbytes' : c.encode b = .ok bytes')
    (h : bytes <+: bytes') : a = b ∧ bytes = bytes' := by
  obtain ⟨_, hencode, hread⟩ := ha
  obtain rfl := Except.ok.inj (hbytes.symm.trans hencode)
  obtain ⟨_, hencode', hread'⟩ := hb
  obtain rfl := Except.ok.inj (hbytes'.symm.trans hencode')
  obtain ⟨more, rfl⟩ := h
  -- the longer encoding is read both ways: with `more` left, and with nothing left
  have hboth := hread more
  rw [← List.append_nil (bytes ++ more), hread'] at hboth
  obtain ⟨hvalue, hmore⟩ := Prod.mk.inj hboth
  refine ⟨(Except.ok.inj hvalue).symm, ?_⟩
  rw [← hmore, List.append_nil]

theorem Delimits.holder {c : Coder α} {a : Option α} (h : ∀ x ∈ a, c.Delimits x) :
    c.holder.Delimits a := by
  cases a with
  | none => exact ⟨[0], rfl, fun _ => rfl⟩
  | some x =>
    obtain ⟨bytes, hencode, hdecode⟩ := h x rfl
    refine ⟨1 :: bytes, ?_, fun rest => ?_⟩
    · show tagged 1 (c.encode x) = _
      rw [hencode]
      rfl
    · show mapRead some (c.decode (bytes ++ rest)) = _
      rw [hdecode]
      rfl

theorem Delimits.input {c : Coder α} {a : α} (h : c.Delimits a) (d : Coder β) :
    (c.inputOrAccum d).Delimits (.input a) := by
  obtain ⟨bytes, hencode, hdecode⟩ := h
  refine ⟨0 :: bytes, ?_, fun rest => ?_⟩
  · show tagged 0 (c.encode a) = _
    rw [hencode]
    rfl
  · show mapRead InputOrAccum.input (c.decode (bytes ++ rest)) = _
    rw [hdecode]
    rfl

theorem Delimits.accum {d : Coder β} {b : β} (h : d.Delimits b) (c : Coder α) :
    (c.inputOrAccum d).Delimits (.accum b) := by
  obtain ⟨bytes, hencode, hdecode⟩ := h
  refine ⟨1 :: bytes, ?_, fun rest => ?_⟩
  · show tagged 1 (d.encode b) = _
    rw [hencode]
    rfl
  · show mapRead InputOrAccum.accum (d.decode (bytes ++ rest)) = _
    rw [hdecode]
    rfl

theorem exists_encodeMany {c : Coder α} {l : List α} (h : ∀ a ∈ l, c.Delimits a) :
    ∃ bytes, c.encodeMany l = .ok bytes ∧ ∀ done rest,
      c.decodeMany l.length done (bytes ++ rest) = (.ok (done.reverse ++ l), rest) := by
  induction l with
  | nil => exact ⟨[], rfl, fun done rest => by rw [List.append_nil]; rfl⟩
  | cons a l ih =>
    obtain ⟨⟨front, hencode, hdecode⟩, hl⟩ := List.forall_mem_cons.mp h
    obtain ⟨back, hencodes, hdecodes⟩ := ih hl
    refine ⟨front ++ back, ?_, fun done rest => ?_⟩
    · rw [encodeMany, hencode, hencodes]
      rfl
    · rw [List.length_cons, decodeMany, List.append_assoc, hdecode]
      show c.decodeMany l.length (a :: done) (back ++ rest) = _
      rw [hdecodes, List.reverse_cons, List.append_assoc, List.singleton_append]

theorem Delimits.list {c : Coder α} {l : List α} (hlength : l.length < UInt64.size)
    (h : ∀ a ∈ l, c.Delimits a) : c.list.Delimits l := by
  obtain ⟨bytes, hencode, hdecode⟩ := exists_encodeMany h
  refine ⟨Wire.numberBytes l.length ++ bytes, ?_, fun rest => ?_⟩
  · show (c.encodeMany l).map _ = _
    rw [hencode]
    rfl
  · have hlength' : (UInt64.ofNat l.length).toNat = l.length := UInt64.toNat_ofNat_of_lt' hlength
    obtain ⟨_, hwrite, hcount⟩ := delimits_ofWire (Wire.delimits_word64 (.ofNat l.length))
    obtain rfl : Wire.numberBytes (UInt64.ofNat l.length).toNat = _ := Except.ok.inj hwrite
    rw [hlength'] at hcount
    simp only [Coder.list, List.append_assoc, hcount, hlength', hdecode]
    rfl

end Coder

/-- The composite coders over leaf coders, nested to any depth. -/
inductive Nesting : Type → Type 1
  | leaf {α : Type} (c : Coder α) : Nesting α
  | holder {α : Type} (inner : Nesting α) : Nesting (Option α)
  | list {α : Type} (inner : Nesting α) : Nesting (List α)
  | inputOrAccum {α β : Type} (input : Nesting α) (accum : Nesting β) : Nesting (InputOrAccum α β)

namespace Nesting

def coder : {α : Type} → Nesting α → Coder α
  | _, .leaf c => c
  | _, .holder n => n.coder.holder
  | _, .list n => n.coder.list
  | _, .inputOrAccum n m => n.coder.inputOrAccum m.coder

/-- Write a value at the end of a buffer, each part as soon as it is encoded. A leaf coder encodes a
value before the bytes are written. -/
def encodeInto : {α : Type} → Nesting α → α → Bytes → Except CoderError Bytes
  | _, .leaf c, a, out => (c.encode a).map (out ++ ·)
  | _, .holder _, none, out => .ok (out ++ [0])
  | _, .holder n, some x, out => n.encodeInto x (out ++ [1])
  | _, .list n, l, out =>
    l.foldlM (fun out a => n.encodeInto a out) (out ++ Wire.numberBytes l.length)
  | _, .inputOrAccum n _, .input a, out => n.encodeInto a (out ++ [0])
  | _, .inputOrAccum _ m, .accum b, out => m.encodeInto b (out ++ [1])

/-- The leaf coders delimit the values that they are given. -/
def LeavesDelimit : {α : Type} → Nesting α → α → Prop
  | _, .leaf c, a => c.Delimits a
  | _, .holder n, a => ∀ x ∈ a, n.LeavesDelimit x
  | _, .list n, l => ∀ x ∈ l, n.LeavesDelimit x
  | _, .inputOrAccum n _, .input a => n.LeavesDelimit a
  | _, .inputOrAccum _ m, .accum b => m.LeavesDelimit b

/-- The lengths of the lists in a value fit 64-bit words, as they do in memory. -/
def Fits : {α : Type} → Nesting α → α → Prop
  | _, .leaf _, _ => True
  | _, .holder n, a => ∀ x ∈ a, n.Fits x
  | _, .list n, l => l.length < UInt64.size ∧ ∀ x ∈ l, n.Fits x
  | _, .inputOrAccum n _, .input a => n.Fits a
  | _, .inputOrAccum _ m, .accum b => m.Fits b

theorem map_append (out front : Bytes) (x : Except CoderError Bytes) :
    x.map (out ++ front ++ ·) = (x.map (front ++ ·)).map (out ++ ·) := by
  cases x with
  | error e => rfl
  | ok bytes => exact congrArg Except.ok (List.append_assoc ..)

theorem foldlM_encodeInto {c : Coder α} {into : α → Bytes → Except CoderError Bytes}
    (h : ∀ a out, into a out = (c.encode a).map (out ++ ·)) (l : List α) (out : Bytes) :
    l.foldlM (fun out a => into a out) out = (c.encodeMany l).map (out ++ ·) := by
  induction l generalizing out with
  | nil => exact congrArg Except.ok (List.append_nil out).symm
  | cons a l ih =>
    rw [List.foldlM_cons, h, Coder.encodeMany]
    cases c.encode a with
    | error e => rfl
    | ok front =>
      refine (ih (out ++ front)).trans ((map_append out front _).trans ?_)
      cases c.encodeMany l <;> rfl

/-- Encoding only adds to the end of a buffer, and it adds the same to every buffer. -/
theorem encodeInto_eq (n : Nesting α) (a : α) (out : Bytes) :
    n.encodeInto a out = (n.coder.encode a).map (out ++ ·) := by
  induction n generalizing out with
  | leaf c => rfl
  | holder n ih =>
    cases a with
    | none => rfl
    | some x => exact (ih x _).trans (map_append out [1] _)
  | list n ih => exact (foldlM_encodeInto ih a _).trans (map_append out _ _)
  | inputOrAccum n m ihn ihm =>
    cases a with
    | input a => exact (ihn a _).trans (map_append out [0] _)
    | accum b => exact (ihm b _).trans (map_append out [1] _)

theorem delimits_coder (n : Nesting α) (a : α) (hleaves : n.LeavesDelimit a) (hfits : n.Fits a) :
    n.coder.Delimits a := by
  induction n with
  | leaf c => exact hleaves
  | holder n ih => exact .holder fun x hx => ih x (hleaves x hx) (hfits x hx)
  | list n ih => exact .list hfits.1 fun x hx => ih x (hleaves x hx) (hfits.2 x hx)
  | inputOrAccum n m ihn ihm =>
    cases a with
    | input a => exact (ihn a hleaves hfits).input _
    | accum b => exact (ihm b hleaves hfits).accum _

end Nesting

/-! ### Nested formats -/

namespace Shape

/-- The lengths of the texts and lists in a value. -/
def lengths : (s : Shape) → s.Value → List Nat
  | .plain t, a => t.lengths a
  | .holder s, a => List.flatMap s.lengths (Option.toList a)
  | .list s, l => List.length l :: List.flatMap s.lengths l
  | .inputOrAccum s r, a =>
    match a with
    | .input i => s.lengths i
    | .accum c => r.lengths c

/-- Whether the lengths in a value fit 64-bit words, as they do in memory. -/
def Storable (s : Shape) (a : s.Value) : Prop := ∀ n ∈ s.lengths a, n < UInt64.size

instance (s : Shape) (a : s.Value) : Decidable (s.Storable a) :=
  inferInstanceAs (Decidable (∀ n ∈ s.lengths a, n < UInt64.size))

/-- The coders of a shape, nested as they are. -/
def nesting : (s : Shape) → Nesting s.Value
  | .plain t => .leaf t.coder
  | .holder s => .holder s.nesting
  | .list s => .list s.nesting
  | .inputOrAccum s r => .inputOrAccum s.nesting r.nesting

theorem coder_nesting (s : Shape) : s.nesting.coder = s.coder := by
  induction s with
  | plain t => rfl
  | holder s ih => exact congrArg Coder.holder ih
  | list s ih => exact congrArg Coder.list ih
  | inputOrAccum s r ihs ihr => exact congrArg₂ Coder.inputOrAccum ihs ihr

/-- The formats of the leaves delimit what fits in memory. -/
theorem leavesDelimit_nesting (s : Shape) (a : s.Value) (h : s.Storable a) :
    s.nesting.LeavesDelimit a ∧ s.nesting.Fits a := by
  induction s with
  | plain t => exact ⟨Coder.delimits_ofWire (t.delimits_wire a h), trivial⟩
  | holder s ih =>
    refine forall₂_and.mp fun x hx => ih x fun n hn => h n ?_
    exact List.mem_flatMap.mpr ⟨x, Option.mem_toList.mpr hx, hn⟩
  | list s ih =>
    refine ⟨fun x hx => (ih x ?_).1, h _ (List.mem_cons_self ..), fun x hx => (ih x ?_).2⟩
    all_goals exact fun n hn => h n (List.mem_cons_of_mem _ (List.mem_flatMap.mpr ⟨x, hx, hn⟩))
  | inputOrAccum s r ihs ihr =>
    cases a with
    | input i => exact ihs i h
    | accum c => exact ihr c h

end Shape

/-- Where the leaf coders delimit their values, a value is encoded at the end of every buffer and read
back from its bytes at any nesting, whatever follows them, and no encoding is the front of another
value's. The coders over plain formats are such nestings. -/
theorem coder_delimits_at_any_nesting :
    (∀ (α : Type) (n : Nesting α),
      (∀ a, n.LeavesDelimit a → n.Fits a → ∃ bytes, n.coder.encode a = .ok bytes ∧
        (∀ out, n.encodeInto a out = .ok (out ++ bytes)) ∧
        ∀ rest, n.coder.decode (bytes ++ rest) = (.ok a, rest)) ∧
      ∀ a b bytes bytes', n.LeavesDelimit a → n.Fits a → n.LeavesDelimit b → n.Fits b →
        n.coder.encode a = .ok bytes → n.coder.encode b = .ok bytes' → bytes <+: bytes' →
          a = b ∧ bytes = bytes') ∧
    ∀ s : Shape, s.nesting.coder = s.coder ∧
      ∀ a, s.Storable a → s.nesting.LeavesDelimit a ∧ s.nesting.Fits a := by
  refine ⟨fun α n => ⟨fun a hleaves hfits => ?_, ?_⟩,
    fun s => ⟨s.coder_nesting, s.leavesDelimit_nesting⟩⟩
  · obtain ⟨bytes, hencode, hdecode⟩ := n.delimits_coder a hleaves hfits
    refine ⟨bytes, hencode, fun out => ?_, hdecode⟩
    rw [n.encodeInto_eq, hencode]
    rfl
  · intro a b bytes bytes' ha hfitsA hb hfitsB hbytes hbytes' h
    exact (n.delimits_coder a ha hfitsA).eq_of_front (n.delimits_coder b hb hfitsB) hbytes hbytes' h

namespace Shape

/-- A list of marks and flags, each of which may be missing. -/
def marksOrFlags : Shape := .list (.holder (.inputOrAccum (.plain .unit) (.plain .bool)))

def someMarksAndFlags : marksOrFlags.Value := [none, some (.input ()), some (.accum true)]

theorem encode_someMarksAndFlags :
    marksOrFlags.coder.encode someMarksAndFlags = .ok [3, 0, 1, 0, 1, 1, 1] := by
  show Except.ok (Wire.numberBytes 3 ++ [0, 1, 0, 1, 1, 1]) = _
  rw [Wire.numberBytes_of_lt (by decide)]
  rfl

end Shape

open Shape in
theorem coder_delimits_at_any_nesting_of_marks :
    marksOrFlags.Storable someMarksAndFlags ∧
      marksOrFlags.nesting.LeavesDelimit someMarksAndFlags ∧
      marksOrFlags.nesting.Fits someMarksAndFlags ∧
      marksOrFlags.nesting.encodeInto someMarksAndFlags [9] = .ok ([9] ++ [3, 0, 1, 0, 1, 1, 1]) ∧
      ∀ rest, marksOrFlags.coder.decode ([3, 0, 1, 0, 1, 1, 1] ++ rest) =
        (.ok someMarksAndFlags, rest) := by
  have hstorable : marksOrFlags.Storable someMarksAndFlags := by decide
  obtain ⟨hnestings, hshapes⟩ := coder_delimits_at_any_nesting
  obtain ⟨hcoder, hkept⟩ := hshapes marksOrFlags
  obtain ⟨hleaves, hfits⟩ := hkept someMarksAndFlags hstorable
  obtain ⟨bytes, hbytes, hinto, hdecode⟩ :=
    (hnestings _ marksOrFlags.nesting).1 someMarksAndFlags hleaves hfits
  rw [hcoder] at hbytes hdecode
  obtain rfl := Except.ok.inj (encode_someMarksAndFlags.symm.trans hbytes)
  exact ⟨hstorable, hleaves, hfits, hinto [9], hdecode⟩

end EventTime
