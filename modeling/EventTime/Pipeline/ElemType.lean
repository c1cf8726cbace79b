import EventTime.Coder.DataType

/-!
# Element types of a pipeline

Every node of a pipeline carries elements of one type, named by an `ElemType`. The names make it
possible to tell at a node whether the elements it receives are of the type it was built for, and
every type has a byte format.
-/

namespace EventTime

/-- An element of a keyed collection on its way into a combine: spread over shards, or not. -/
inductive Shard (κ ν : Type)
  | hot (key : κ) (shard : UInt32) (value : ν)
  | cold (key : κ) (value : ν)
  deriving DecidableEq, Repr

/-- The name of an element type. -/
inductive ElemType
  | datum
  | text
  | unit
  | word8
  | word32
  | int64
  | bytes
  | pair (first second : ElemType)
  | list (item : ElemType)
  | shard (key value : ElemType)
  /-- A result, or the text of what spoiled it. -/
  | staged (result : ElemType)
  deriving DecidableEq, Repr

namespace ElemType

@[reducible] def Elem : ElemType → Type
  | .datum => Datum
  | .text => String
  | .unit => Unit
  | .word8 => UInt8
  | .word32 => UInt32
  | .int64 => Int64
  | .bytes => Bytes
  | .pair a b => a.Elem × b.Elem
  | .list a => List a.Elem
  | .shard k v => Shard k.Elem v.Elem
  | .staged a => Except String a.Elem

/-- The format of one of two alternatives: a number 0 or 1, and then the alternative. -/
def eitherWire {α β γ : Type} (v : Wire α) (w : Wire β) (forth : γ → Sum α β) (back : Sum α β → γ) :
    Wire γ where
  write c := match forth c with
    | .inl a => Wire.numberBytes 0 ++ v.write a
    | .inr b => Wire.numberBytes 1 ++ w.write b
  read b := do
    let (variant, b) ← Wire.readBits 32 b
    match variant with
    | 0 => (v.read b).map fun p => (back (.inl p.1), p.2)
    | 1 => (w.read b).map fun p => (back (.inr p.1), p.2)
    | _ => .error .badVariant

def wire : (t : ElemType) → Wire t.Elem
  | .datum => Datum.wire
  | .text => Wire.text
  | .unit => Wire.unit
  | .word8 => Wire.byte
  | .word32 => Wire.word32
  | .int64 => Wire.int64
  | .bytes => Wire.byte.sequence
  | .pair a b => a.wire.pair b.wire
  | .list a => a.wire.sequence
  | .shard k v =>
    eitherWire (k.wire.pair (Wire.word32.pair v.wire)) (k.wire.pair v.wire)
      (fun
        | .hot key number value => .inl (key, number, value)
        | .cold key value => .inr (key, value))
      fun
        | .inl (key, number, value) => .hot key number value
        | .inr (key, value) => .cold key value
  | .staged a =>
    eitherWire a.wire Wire.text
      (fun
        | .ok r => .inl r
        | .error e => .inr e)
      fun
        | .inl r => .ok r
        | .inr e => .error e

def coder (t : ElemType) : Coder t.Elem := .ofWire t.wire

end ElemType

end EventTime
