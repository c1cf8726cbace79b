import EventTime.Combine.Basic

/-!
# Reducing by a binary operator

`binary` keeps an optional value, so that a group without input can be told from any value;
`primitive` starts from an identity and keeps a plain value. Sums, maxima, minima and the count of
inputs are instances.
-/

namespace EventTime

namespace CombineFn

variable {ι ο : Type}

/-- Join a value to an optional one on its right. -/
def joinOn (op : ι → ι → ι) (acc : Option ι) (x : ι) : Option ι :=
  some (match acc with
    | none => x
    | some a => op a x)

/-- Reduce by an operator that is associative and commutative. A group without input gives the
identity, if there is one. -/
def binary (op : ι → ι → ι) (identity : Option ι := none) : CombineFn ι (Option ι) (Option ι) where
  create := none
  add := joinOn op
  merge accs := (accs.filterMap id).foldl (joinOn op) none
  extract acc := acc.or identity
  accumulatorCoder _ inputCoder := .ok inputCoder.holder

/-- Reduce by an operator with an identity. -/
def primitive (op : ι → ι → ι) (identity : ι) : CombineFn ι ι ι where
  create := identity
  add := op
  merge accs := accs.foldl op identity
  extract acc := acc
  accumulatorCoder _ inputCoder := .ok inputCoder

/-- The larger of two values, the second of two equals. -/
def larger [LT ι] [DecidableLT ι] (a b : ι) : ι := if b < a then a else b

/-- The smaller of two values, the first of two equals. -/
def smaller [LT ι] [DecidableLT ι] (a b : ι) : ι := if b < a then b else a

/-- The sum of 32-bit numbers, wrapping. -/
def sumInt32 : CombineFn Int32 Int32 Int32 := primitive (· + ·) 0

def sumInt64 : CombineFn Int64 Int64 Int64 := primitive (· + ·) 0

def sumBinary64 : CombineFn Binary64 Binary64 Binary64 := primitive .add .zero

def maxInt32 : CombineFn Int32 Int32 Int32 := primitive larger Int32.minValue

def maxInt64 : CombineFn Int64 Int64 Int64 := primitive larger Int64.minValue

def maxBinary64 : CombineFn Binary64 Binary64 Binary64 := primitive .max .negInfinity

def minInt32 : CombineFn Int32 Int32 Int32 := primitive smaller Int32.maxValue

def minInt64 : CombineFn Int64 Int64 Int64 := primitive smaller Int64.maxValue

def minBinary64 : CombineFn Binary64 Binary64 Binary64 := primitive .min .infinity

def maxOf [LT ι] [DecidableLT ι] : CombineFn ι (Option ι) (Option ι) := binary larger

def minOf [LT ι] [DecidableLT ι] : CombineFn ι (Option ι) (Option ι) := binary smaller

def count : CombineFn ι UInt64 UInt64 where
  create := 0
  add acc _ := acc + 1
  merge accs := accs.foldl (· + ·) 0
  extract acc := acc
  accumulatorCoder registry _ := registry.coderFor .uint64

end CombineFn

end EventTime
