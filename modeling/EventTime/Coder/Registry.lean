import EventTime.Coder.DataType

/-!
# Registries of coders

A registry answers which coder encodes a type, for stages that have to encode accumulators and do
not know how.
-/

namespace EventTime

/-- The coders known for types. -/
structure Registry where
  find? : (t : DataType) → Option (Coder t.Value)

namespace Registry

def empty : Registry := ⟨fun _ => none⟩

/-- Let a type be encoded by a coder, in place of any earlier one. -/
def registerCoder (r : Registry) (t : DataType) (c : Coder t.Value) : Registry where
  find? u := if h : t = u then some (h ▸ c) else r.find? u

def register (r : Registry) (t : DataType) : Registry := r.registerCoder t t.coder

/-- The types that a registry knows from the start. -/
def basic : List DataType :=
  [.unit, .bool, .uint8, .uint16, .uint32, .uint64, .size, .int8, .int16, .int32, .int64, .binary32,
    .binary64, .text]

/-- The registry that knows numbers, texts, truth values and the unit. -/
def standard : Registry := basic.foldl register empty

/-- The coder of a type, which must have been registered. -/
def coderFor (r : Registry) (t : DataType) : Except Fault (Coder t.Value) :=
  match r.find? t with
  | some c => .ok c
  | none => .error .cannotProvideCoder

end Registry

end EventTime
