import EventTime.Combine.Basic

/-!
# Reducing whole lists

The accumulator buffers inputs. Whenever it grows past its size, and on every merge, the buffered
values are replaced by what the callback makes of them, so the callback sees partial results among
its inputs.
-/

namespace EventTime

namespace CombineFn

variable {ι : Type}

/-- How many inputs are buffered if nothing else is said. -/
def defaultBuffer : Nat := 20

/-- Replace buffered values by the one value the callback makes of them. -/
def collapse (f : List ι → ι) (values : List ι) : List ι :=
  if values.isEmpty then [] else [f values]

/-- The buffer with one more input, collapsed if it is over its size. -/
def buffered (f : List ι → ι) (size : Nat) (values : List ι) (x : ι) : List ι :=
  if size < values.length + 1 then collapse f (values ++ [x]) else values ++ [x]

/-- Reduce by a callback on lists, with a buffer of `size` inputs. -/
def iterable (f : List ι → ι) (size : Nat := defaultBuffer) : CombineFn ι (List ι) ι where
  create := []
  add := buffered f size
  merge accs := collapse f accs.flatten
  extract := f
  accumulatorCoder _ inputCoder := .ok inputCoder.list

end CombineFn

end EventTime
