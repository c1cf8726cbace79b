import EventTime.Coder.Wire

/-!
# Coders

A coder writes a value, and reads one from the front of a byte string. Reading answers what is left
even when it fails: a coder over a plain format stays where it was, a composite coder has moved past
whatever it had already read. Composite coders need no framing, for every part delimits itself.
-/

namespace EventTime

variable {α β : Type}

/-- Writes values as bytes and reads them back. -/
structure Coder (α : Type) where
  encode : α → Except CoderError Bytes
  decode : Bytes → Except CoderError α × Bytes

/-- A value on its way into a combine: an input still to be folded in, or an accumulator. -/
inductive InputOrAccum (α β : Type)
  | input (value : α)
  | accum (value : β)
  deriving DecidableEq, Repr

namespace Coder

/-- The coder of a plain format. A byte string that is refused is left alone. -/
def ofWire (w : Wire α) : Coder α where
  encode a := .ok (w.write a)
  decode b :=
    match w.read b with
    | .ok (a, rest) => (.ok a, rest)
    | .error e => (.error (.wire e), b)

/-- Change the value read, and leave the rest. -/
def mapRead (f : α → β) (p : Except CoderError α × Bytes) : Except CoderError β × Bytes :=
  (p.1.map f, p.2)

/-- A tag byte and then an encoding. -/
def tagged (tag : UInt8) (e : Except CoderError Bytes) : Except CoderError Bytes :=
  e.map (tag :: ·)

/-- Read a tag byte, and then by one of two ways. -/
def readTagged (zero one : Bytes → Except CoderError α × Bytes) :
    Bytes → Except CoderError α × Bytes
  | [] => (.error .unexpectedEnd, [])
  | 0 :: rest => zero rest
  | 1 :: rest => one rest
  | tag :: rest => (.error (.unknownTag tag), rest)

/-- An optional value: a tag 0 for none, or a tag 1 and the value. -/
def holder (c : Coder α) : Coder (Option α) where
  encode
    | none => .ok [0]
    | some a => tagged 1 (c.encode a)
  decode := readTagged (fun rest => (.ok none, rest)) fun rest => mapRead some (c.decode rest)

def encodeMany (c : Coder α) : List α → Except CoderError Bytes
  | [] => .ok []
  | a :: rest => do
    let front ← c.encode a
    return front ++ (← encodeMany c rest)

/-- Read `count` values; `done` holds those already read, last first. -/
def decodeMany (c : Coder α) : (count : Nat) → (done : List α) → Bytes →
    Except CoderError (List α) × Bytes
  | 0, done, b => (.ok done.reverse, b)
  | count + 1, done, b =>
    match c.decode b with
    | (.ok a, rest) => decodeMany c count (a :: done) rest
    | (.error e, rest) => (.error e, rest)

/-- A list: its length, and then its members. -/
def list (c : Coder α) : Coder (List α) where
  encode l := (c.encodeMany l).map (Wire.numberBytes l.length ++ ·)
  decode b :=
    match (ofWire Wire.word64).decode b with
    | (.ok count, rest) => c.decodeMany count.toNat [] rest
    | (.error e, rest) => (.error e, rest)

/-- An input after a tag 0, or an accumulator after a tag 1. -/
def inputOrAccum (c : Coder α) (d : Coder β) : Coder (InputOrAccum α β) where
  encode
    | .input a => tagged 0 (c.encode a)
    | .accum b => tagged 1 (d.encode b)
  decode := readTagged (fun rest => mapRead .input (c.decode rest)) fun rest =>
    mapRead .accum (d.decode rest)

/-- A result after a tag 0, or the text of a failure after a tag 1. -/
def staged (c : Coder α) : Coder (Except String α) where
  encode
    | .ok a => tagged 0 (c.encode a)
    | .error text => tagged 1 ((ofWire Wire.text).encode text)
  decode := readTagged (fun rest => mapRead .ok (c.decode rest)) fun rest =>
    mapRead .error ((ofWire Wire.text).decode rest)

/-- Read one value and drop what is left. -/
def decodeFront (c : Coder α) (b : Bytes) : Except CoderError α := (c.decode b).1

def refusing : Coder α where
  encode _ := .error .unexpectedEnd
  decode b := (.error .unexpectedEnd, b)

/-- Writes one byte for every value, and reads none back. -/
def oneWay : Coder α where
  encode _ := .ok [0]
  decode b := (.error (.unknownTag 77), b)

/-- A 64-bit number in eight bytes, highest first. -/
def fixed64 : Coder Int64 where
  encode n := .ok ((Wire.lowBytes 8 n.toUInt64.toNat).reverse)
  decode b :=
    if 8 ≤ b.length then
      (.ok (UInt64.ofNat (Wire.ofLowBytes (b.take 8).reverse)).toInt64, b.drop 8)
    else (.error .unexpectedEnd, b)

end Coder

end EventTime
