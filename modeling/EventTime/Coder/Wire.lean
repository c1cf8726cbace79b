import EventTime.Fault
import EventTime.Number.Binary64

/-!
# Self-delimiting byte formats

A `Wire` writes every value and reads a value from the front of a byte string, answering what is
left. Numbers are written seven bits to a byte, lowest first, each byte but the last with its high
bit set; signed numbers are folded so that small magnitudes stay short; sequences are preceded by
their length, and alternatives by a number.
-/

namespace EventTime

variable {α β : Type}

abbrev Bytes := List UInt8

/-- A format whose values delimit themselves. -/
structure Wire (α : Type) where
  write : α → Bytes
  read : Bytes → Except WireError (α × Bytes)

namespace Wire

def numberBytes (n : Nat) : Bytes :=
  if n < 128 then [UInt8.ofNat n]
  else UInt8.ofNat (n % 128 + 128) :: numberBytes (n / 128)
termination_by n
decreasing_by omega

/-- Read a number of at most `left` bytes, of which a byte in last place is at most `cap`. -/
def readNumber (cap : Nat) : (left : Nat) → Bytes → Except WireError (Nat × Bytes)
  | 0, _ => .error .unterminatedNumber
  | _ + 1, [] => .error .endOfInput
  | left + 1, b :: rest =>
    if b.toNat < 128 then
      if left = 0 ∧ cap < b.toNat then .error .unterminatedNumber else .ok (b.toNat, rest)
    else do
      let (high, rest) ← readNumber cap left rest
      return (b.toNat - 128 + 128 * high, rest)

def readBits (bits : Nat) (b : Bytes) : Except WireError (Nat × Bytes) :=
  readNumber (Nat.pow 2 (bits % 7) - 1) ((bits + 6) / 7) b

def readNatural : Bytes → Except WireError (Nat × Bytes)
  | [] => .error .endOfInput
  | b :: rest =>
    if b.toNat < 128 then .ok (b.toNat, rest)
    else do
      let (high, rest) ← readNatural rest
      return (b.toNat - 128 + 128 * high, rest)

/-- Signed numbers folded onto the naturals: 0, -1, 1, -2, and so on. -/
def fold (n : Int) : Nat := if 0 ≤ n then 2 * n.toNat else 2 * (-n).toNat - 1

def unfold (n : Nat) : Int := if n % 2 = 0 then (n / 2 : Nat) else -((n / 2 : Nat) : Int) - 1

theorem unfold_fold (n : Int) : unfold (fold n) = n := by
  simp only [unfold, fold]
  split <;> split <;> omega

/-- The format of values that correspond one to one to those of another format. -/
def via (w : Wire β) (forth : α → β) (back : β → α) : Wire α where
  write a := w.write (forth a)
  read b := (w.read b).map fun p => (back p.1, p.2)

def unit : Wire Unit := ⟨fun _ => [], fun b => .ok ((), b)⟩

def byte : Wire UInt8 where
  write a := [a]
  read
    | [] => .error .endOfInput
    | a :: rest => .ok (a, rest)

def bits (bits : Nat) : Wire Nat := ⟨numberBytes, readBits bits⟩

def natural : Wire Nat := ⟨numberBytes, readNatural⟩

def word16 : Wire UInt16 := (bits 16).via UInt16.toNat UInt16.ofNat

def word32 : Wire UInt32 := (bits 32).via UInt32.toNat UInt32.ofNat

def word64 : Wire UInt64 := (bits 64).via UInt64.toNat UInt64.ofNat

def int8 : Wire Int8 := byte.via Int8.toUInt8 UInt8.toInt8

def int16 : Wire Int16 := (bits 16).via (fun n => fold n.toInt) fun n => Int16.ofInt (unfold n)

def int32 : Wire Int32 := (bits 32).via (fun n => fold n.toInt) fun n => Int32.ofInt (unfold n)

def int64 : Wire Int64 := (bits 64).via (fun n => fold n.toInt) fun n => Int64.ofInt (unfold n)

def integer : Wire Int := natural.via fold unfold

/-- The `count` low bytes of a number, lowest first. -/
def lowBytes : (count : Nat) → Nat → Bytes
  | 0, _ => []
  | count + 1, n => UInt8.ofNat (n % 256) :: lowBytes count (n / 256)

/-- The number whose bytes these are, lowest first. -/
def ofLowBytes : Bytes → Nat
  | [] => 0
  | b :: rest => b.toNat + 256 * ofLowBytes rest

def readBlock (count : Nat) (b : Bytes) : Except WireError (Bytes × Bytes) :=
  if count ≤ b.length then .ok (b.take count, b.drop count) else .error .endOfInput

/-- A word of `count` bytes, lowest first. -/
def word (count : Nat) : Wire Nat where
  write n := lowBytes count n
  read b := (readBlock count b).map fun p => (ofLowBytes p.1, p.2)

/-- A double-precision number: its bits in eight bytes. -/
def binary64 : Wire Binary64 :=
  (word 8).via (fun x => x.bits.toNat) fun n => ⟨UInt64.ofNat n⟩

/-- A single-precision number: its bits in four bytes. -/
def binary32 : Wire Binary32 :=
  (word 4).via (fun x => x.bits.toNat) fun n => ⟨UInt32.ofNat n⟩

def bool : Wire Bool where
  write a := [if a then 1 else 0]
  read
    | [] => .error .endOfInput
    | 0 :: rest => .ok (false, rest)
    | 1 :: rest => .ok (true, rest)
    | _ :: _ => .error .badBool

/-- A text: the number of its bytes, and then those bytes. -/
def text : Wire String where
  write s := numberBytes s.toUTF8.size ++ s.toUTF8.data.toList
  read b := do
    let (count, b) ← readBits 64 b
    let (block, rest) ← readBlock count b
    match String.fromUTF8? ⟨block.toArray⟩ with
    | some s => .ok (s, rest)
    | none => .error .badText

/-- One value after another. -/
def pair (v : Wire α) (w : Wire β) : Wire (α × β) where
  write p := v.write p.1 ++ w.write p.2
  read b := do
    let (x, b) ← v.read b
    let (y, b) ← w.read b
    return ((x, y), b)

/-- An optional value: a byte 0 for none, or a byte 1 and the value. -/
def option (w : Wire α) : Wire (Option α) where
  write
    | none => [0]
    | some a => 1 :: w.write a
  read
    | [] => .error .endOfInput
    | 0 :: rest => .ok (none, rest)
    | 1 :: rest => (w.read rest).map fun p => (some p.1, p.2)
    | _ :: _ => .error .badOption

/-- Read `count` values; `done` holds those already read, last first. -/
def readMany (read : Bytes → Except WireError (α × Bytes)) :
    (count : Nat) → (done : List α) → Bytes → Except WireError (List α × Bytes)
  | 0, done, b => .ok (done.reverse, b)
  | count + 1, done, b => do
    let (a, b) ← read b
    readMany read count (a :: done) b

/-- A sequence: its length, and then its members. -/
def sequence (w : Wire α) : Wire (List α) where
  write l := numberBytes l.length ++ l.flatMap w.write
  read b := do
    let (count, b) ← readBits 64 b
    readMany w.read count [] b

end Wire

end EventTime
