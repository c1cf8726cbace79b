import EventTime.Combine.Basic

/-!
# Reducing by hand

A workbench holds numbered accumulators of one combine function and performs single operations on
them. Merging and extracting use accumulators up; a new accumulator gets the next number.
-/

namespace EventTime

variable {ι α ο : Type}

/-- The accumulators of one combine function, and the coder by which they are shown and read, or why
there is none. -/
structure Workbench (ι α ο : Type) where
  fn : CombineFn ι α ο
  coder : Except Fault (Coder α)
  /-- The accumulators by number; one that has been used up is gone. -/
  accumulators : List (Option α) := []

/-- One operation. -/
inductive WorkStep (ι : Type)
  | create
  | add (acc : Nat) (inputs : List ι)
  | merge (accs : List Nat)
  | decode (bytes : Bytes)
  | extract (acc : Nat)
  deriving Repr

/-- What an operation reports. -/
inductive WorkReport (ο : Type)
  /-- The number of an accumulator and its encoding, if there is a coder. -/
  | accumulator (number : Nat) (encoding : Option (Except CoderError Bytes))
  | output (value : ο)
  | refused (cause : Fault)
  /-- An accumulator that is not there was asked for. -/
  | missing (number : Nat)

namespace Workbench

def find? (b : Workbench ι α ο) (number : Nat) : Option α := (b.accumulators[number]?).join

def shown (b : Workbench ι α ο) (number : Nat) (a : α) : WorkReport ο :=
  .accumulator number (b.coder.toOption.map fun c => c.encode a)

def place (b : Workbench ι α ο) (a : α) : WorkReport ο × Workbench ι α ο :=
  (b.shown b.accumulators.length a, { b with accumulators := b.accumulators ++ [some a] })

def use (b : Workbench ι α ο) (numbers : List Nat) : Workbench ι α ο :=
  { b with accumulators := numbers.foldl (fun l n => l.set n none) b.accumulators }

def step (b : Workbench ι α ο) : WorkStep ι → WorkReport ο × Workbench ι α ο
  | .create => b.place b.fn.create
  | .add number inputs =>
    match b.find? number with
    | none => (.missing number, b)
    | some a =>
      let a := b.fn.addAll a inputs
      (b.shown number a, { b with accumulators := b.accumulators.set number (some a) })
  | .merge numbers =>
    (b.use numbers).place (b.fn.merge (numbers.filterMap b.find?))
  | .decode bytes =>
    match b.coder with
    | .error e => (.refused e, b)
    | .ok c =>
      match c.decodeFront bytes with
      | .ok a => b.place a
      | .error e => (.refused (.coder e), b)
  | .extract number =>
    match b.find? number with
    | none => (.missing number, b)
    | some a => (.output (b.fn.extract a), b.use [number])

end Workbench

end EventTime
