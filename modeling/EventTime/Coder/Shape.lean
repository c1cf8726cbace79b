import EventTime.Coder.DataType

/-!
# Nested coders

A shape nests the composite coders over types with a byte format, to any depth.
-/

namespace EventTime

/-- A type with a byte format under any nesting of the composite coders. -/
inductive Shape
  | plain (type : DataType)
  | holder (inner : Shape)
  | list (inner : Shape)
  | inputOrAccum (input accum : Shape)
  deriving DecidableEq, Repr

namespace Shape

def Value : Shape → Type
  | .plain t => t.Value
  | .holder s => Option s.Value
  | .list s => List s.Value
  | .inputOrAccum s r => InputOrAccum s.Value r.Value

def coder : (s : Shape) → Coder s.Value
  | .plain t => t.coder
  | .holder s => s.coder.holder
  | .list s => s.coder.list
  | .inputOrAccum s r => s.coder.inputOrAccum r.coder

def toDatum : (s : Shape) → s.Value → Datum
  | .plain t, a => t.toDatum a
  | .holder s, a => Option.elim a .null s.toDatum
  | .list s, a => .list (List.map s.toDatum a)
  | .inputOrAccum s r, a =>
    match a with
    | .input i => .input (s.toDatum i)
    | .accum c => .accum (r.toDatum c)

def ofDatum? : (s : Shape) → Datum → Option s.Value
  | .plain t, d => t.ofDatum? d
  | .holder _, .null => some none
  | .holder s, d => (s.ofDatum? d).map some
  | .list s, .list items => items.mapM s.ofDatum?
  | .inputOrAccum s _, .input d => (s.ofDatum? d).map .input
  | .inputOrAccum _ r, .accum d => (r.ofDatum? d).map .accum
  | _, _ => none

/-- Read `count` values one after another, a failure not ending the reading; each reading is
reported with the number of bytes left after it. -/
def readings (s : Shape) : (count : Nat) → Bytes → List (Except CoderError Datum × Nat)
  | 0, _ => []
  | count + 1, b =>
    let (a, rest) := s.coder.decode b
    (a.map s.toDatum, rest.length) :: readings s count rest

end Shape

end EventTime
