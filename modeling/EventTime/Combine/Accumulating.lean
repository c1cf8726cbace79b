import EventTime.Combine.Basic

/-!
# Reducing by accumulators with rules of their own

An accumulator type says how to add an input, how to take over another accumulator and what to
extract. Merging starts from a new accumulator and lets it take over each of the others.
-/

namespace EventTime

namespace CombineFn

variable {ι α ο : Type}

/-- Reduce through accumulators of a registered type, or by the coder given. -/
def accumulating (type : DataType) (create : type.Value) (add : type.Value → ι → type.Value)
    (absorb : type.Value → type.Value → type.Value) (extract : type.Value → ο)
    (coder : Option (Coder type.Value)) : CombineFn ι type.Value ο where
  create := create
  add := add
  merge accs := accs.foldl absorb create
  extract := extract
  accumulatorCoder registry _ :=
    match coder with
    | some c => .ok c
    | none => registry.coderFor type

/-- The arithmetic mean of numbers obtained from the inputs. -/
def mean (number : ι → Binary64) (coder : Option (Coder Mean) := some DataType.mean.coder) :
    CombineFn ι Mean Binary64 :=
  accumulating .mean {} (fun m x => m.add (number x)) Mean.absorb Mean.value coder

/-- The count and the log of texts. -/
def digest (coder : Option (Coder Digest) := none) : CombineFn String Digest String :=
  accumulating .digest {} Digest.add Digest.absorb Digest.value coder

end CombineFn

namespace KeyedCombineFn

/-- How many inputs start with the key. -/
def prefixCount : KeyedCombineFn String String UInt64 UInt64 where
  create _ := 0
  add key acc s := if key.toList.isPrefixOf s.toList then acc + 1 else acc
  merge _ accs := accs.foldl (· + ·) 0
  extract _ acc := acc
  accumulatorCoder registry _ := registry.coderFor .uint64

/-- The wrapping sum of the inputs, counted from the number of bytes of the key, under the key. -/
def labelled : KeyedCombineFn String Int64 Int64 String where
  create key := Int64.ofNat key.utf8ByteSize
  add _ acc n := acc + n
  merge _ accs := accs.foldl (· + ·) 0
  extract key acc := key ++ "=" ++ toString acc.toInt
  accumulatorCoder registry _ := registry.coderFor .int64

end KeyedCombineFn

end EventTime
