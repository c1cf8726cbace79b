import EventTime.Combine.Binary
import EventTime.Combine.Iterable
import EventTime.Combine.Accumulating

/-!
# Reductions of data

A `Reduction` reduces data of dynamic types under text keys, whatever its accumulators are. A
`Recipe` names one of the reductions of this library, with its parameters.
-/

namespace EventTime

variable {ι α ο : Type}

/-- A keyed combine function on data, with accumulators of some type. -/
structure Reduction where
  Accum : Type
  fn : KeyedCombineFn String Datum Accum Datum

namespace Reduction

/-- Let a combine function take data: a datum that does not stand for an input is passed over, and
accumulators travel as they do for inputs of the function's own type. -/
def ofKeyed (read : Datum → Option ι) (coder : Coder ι) (output : ο → Datum)
    (f : KeyedCombineFn String ι α ο) : Reduction where
  Accum := α
  fn :=
    { create := f.create
      add := fun k acc d =>
        match read d with
        | some x => f.add k acc x
        | none => acc
      merge := f.merge
      extract := fun k acc => output (f.extract k acc)
      accumulatorCoder := fun registry _ => f.accumulatorCoder registry coder }

/-- Let a combine function that ignores the key take data that stand for values of a type. -/
def ofTyped (type : DataType) (output : ο → Datum) (f : CombineFn type.Value α ο) : Reduction :=
  ofKeyed type.ofDatum? type.coder output f.lift

/-- The combine function of a reduction, which sees the keys or the empty key instead. -/
def seeing (r : Reduction) (keyed : Bool) : KeyedCombineFn String Datum r.Accum Datum :=
  if keyed then r.fn else (r.fn.bind "").lift

def count : Reduction :=
  ofKeyed some (.ofWire Datum.wire) (DataType.toDatum .uint64) CombineFn.count.lift

end Reduction

/-- An operator on texts. -/
inductive TextOp
  | longest
  | concat
  | pair
  deriving DecidableEq, Repr

/-- An operator on texts, applied. The longest text is the second one only if it has more bytes. -/
def TextOp.apply : TextOp → String → String → String
  | .longest, a, b => if a.utf8ByteSize < b.utf8ByteSize then b else a
  | .concat, a, b => a ++ b
  | .pair, a, b => "(" ++ a ++ " " ++ b ++ ")"

/-- An operator on 64-bit numbers. -/
inductive LongOp
  | add
  | mul
  | sub
  | max
  | xor
  deriving DecidableEq, Repr

def LongOp.apply : LongOp → Int64 → Int64 → Int64
  | .add, a, b => a + b
  | .mul, a, b => a * b
  | .sub, a, b => a - b
  | .max, a, b => CombineFn.larger a b
  | .xor, a, b => a ^^^ b

/-- What a callback makes of a list of texts. -/
inductive ListOp
  | concat
  | bracket
  deriving DecidableEq, Repr

def ListOp.apply : ListOp → List String → String
  | .concat, texts => String.join texts
  | .bracket, texts => "[" ++ ",".intercalate texts ++ "]"

/-- How the accumulators of a reduction are to travel. -/
inductive CoderChoice
  /-- As the reduction has it. -/
  | standard
  /-- By the plain coder of their type. -/
  | plain
  /-- By a coder that refuses every accumulator. -/
  | refusing
  /-- By a coder that reads nothing back. -/
  | oneWay
  deriving DecidableEq, Repr

/-- The coder chosen for a type, where `own` is the reduction's own. -/
def CoderChoice.coder (type : DataType) (own : Option (Coder type.Value)) :
    CoderChoice → Option (Coder type.Value)
  | .standard => own
  | .plain => some type.coder
  | .refusing => some .refusing
  | .oneWay => some .oneWay

/-- A reduction of this library, by name and parameters. -/
inductive Recipe
  | sumInt32
  | maxInt32
  | minInt32
  | sumInt64
  | maxInt64
  | minInt64
  | sumBinary64
  | maxBinary64
  | minBinary64
  | maxOfInt64
  | minOfInt64
  | maxOfText
  | minOfText
  | count
  | meanBinary64 (coder : CoderChoice)
  | meanInt32 (coder : CoderChoice)
  | binaryText (op : TextOp) (identity : Option String)
  | binaryInt64 (op : LongOp) (identity : Option Int64)
  | primitiveInt64 (op : LongOp) (identity : Int64)
  | iterableText (op : ListOp) (buffer : Option Nat)
  | iterableInt64 (buffer : Option Nat)
  | digest (coder : CoderChoice)
  | prefixCount
  | labelled
  deriving DecidableEq, Repr

namespace Recipe

def sumOf (l : List Int64) : Int64 := l.foldl (· + ·) 0

/-- The reduction that a recipe names. -/
def reduction : Recipe → Reduction
  | .sumInt32 => .ofTyped .int32 (DataType.toDatum .int32) .sumInt32
  | .maxInt32 => .ofTyped .int32 (DataType.toDatum .int32) .maxInt32
  | .minInt32 => .ofTyped .int32 (DataType.toDatum .int32) .minInt32
  | .sumInt64 => .ofTyped .int64 (DataType.toDatum .int64) .sumInt64
  | .maxInt64 => .ofTyped .int64 (DataType.toDatum .int64) .maxInt64
  | .minInt64 => .ofTyped .int64 (DataType.toDatum .int64) .minInt64
  | .sumBinary64 => .ofTyped .binary64 .double .sumBinary64
  | .maxBinary64 => .ofTyped .binary64 .double .maxBinary64
  | .minBinary64 => .ofTyped .binary64 .double .minBinary64
  | .maxOfInt64 => .ofTyped .int64 (Option.elim · .null (DataType.toDatum .int64)) .maxOf
  | .minOfInt64 => .ofTyped .int64 (Option.elim · .null (DataType.toDatum .int64)) .minOf
  | .maxOfText => .ofTyped .text (Option.elim · .null .text) .maxOf
  | .minOfText => .ofTyped .text (Option.elim · .null .text) .minOf
  | .count => .count
  | .meanBinary64 c =>
    .ofTyped .binary64 .double (.mean id (c.coder .mean (some DataType.mean.coder)))
  | .meanInt32 c =>
    .ofTyped .int32 .double
      (.mean (fun n => .ofInt n.toInt) (c.coder .mean (some DataType.mean.coder)))
  | .binaryText op identity =>
    .ofTyped .text (Option.elim · .null .text) (.binary op.apply identity)
  | .binaryInt64 op identity =>
    .ofTyped .int64 (Option.elim · .null (DataType.toDatum .int64)) (.binary op.apply identity)
  | .primitiveInt64 op identity =>
    .ofTyped .int64 (DataType.toDatum .int64) (.primitive op.apply identity)
  | .iterableText op buffer =>
    .ofTyped .text .text (.iterable op.apply (buffer.getD CombineFn.defaultBuffer))
  | .iterableInt64 buffer =>
    .ofTyped .int64 (DataType.toDatum .int64)
      (.iterable sumOf (buffer.getD CombineFn.defaultBuffer))
  | .digest c => .ofTyped .text .text (.digest (c.coder .digest none))
  | .prefixCount =>
    .ofKeyed (DataType.ofDatum? .text) (DataType.coder .text) (DataType.toDatum .uint64)
      .prefixCount
  | .labelled => .ofKeyed DataType.toInt64? (DataType.coder .int64) .text .labelled

end Recipe

end EventTime
