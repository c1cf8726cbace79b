import EventTime.Coder.Registry

/-!
# Combine functions

A combine function reduces values in four steps: create an accumulator, add inputs to it, merge
several accumulators into one, extract the output. Partial accumulators may be merged in any
grouping, so the output must not depend on it. A keyed combine function sees the key at every step;
`lift` ignores the key and `bind` fixes it.
-/

namespace EventTime

variable {κ ι α ο : Type}

/-- A reduction of inputs `ι` through accumulators `α` to outputs `ο`. -/
structure CombineFn (ι α ο : Type) where
  create : α
  add : α → ι → α
  merge : List α → α
  extract : α → ο
  /-- The coder by which accumulators travel, given a registry and the coder of the inputs. -/
  accumulatorCoder : Registry → Coder ι → Except Fault (Coder α)

/-- A reduction whose steps may depend on the key being reduced. -/
structure KeyedCombineFn (κ ι α ο : Type) where
  create : κ → α
  add : κ → α → ι → α
  merge : κ → List α → α
  extract : κ → α → ο
  /-- The coder by which accumulators travel, given a registry and the coder of the inputs. -/
  accumulatorCoder : Registry → Coder ι → Except Fault (Coder α)

namespace CombineFn

def addAll (f : CombineFn ι α ο) (a : α) (inputs : List ι) : α := inputs.foldl f.add a

def apply (f : CombineFn ι α ο) (inputs : List ι) : ο := f.extract (f.addAll f.create inputs)

/-- The same reduction, for every key. -/
def lift (f : CombineFn ι α ο) : KeyedCombineFn κ ι α ο where
  create _ := f.create
  add _ := f.add
  merge _ := f.merge
  extract _ := f.extract
  accumulatorCoder := f.accumulatorCoder

end CombineFn

namespace KeyedCombineFn

def addAll (f : KeyedCombineFn κ ι α ο) (k : κ) (a : α) (inputs : List ι) : α :=
  inputs.foldl (f.add k) a

def apply (f : KeyedCombineFn κ ι α ο) (k : κ) (inputs : List ι) : ο :=
  f.extract k (f.addAll k (f.create k) inputs)

def bind (f : KeyedCombineFn κ ι α ο) (k : κ) : CombineFn ι α ο where
  create := f.create k
  add := f.add k
  merge := f.merge k
  extract := f.extract k
  accumulatorCoder := f.accumulatorCoder

end KeyedCombineFn

end EventTime
