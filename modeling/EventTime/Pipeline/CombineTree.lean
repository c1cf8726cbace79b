import EventTime.Pipeline.Partition
import EventTime.Pipeline.Table
import EventTime.Combine.Basic

/-!
# Combining before grouping

Where every window fires once at its end, values need not be grouped before they are reduced. Each
bundle adds its values to one accumulator per key and window; partial accumulators are merged in
rounds of bounded width; the outputs are extracted at the end.
-/

namespace EventTime

variable {κ ν α ο : Type} [DecidableEq κ]

/-- An accumulator for each key and window. -/
abbrev Partials (κ α : Type) : Type := Table (κ × Window) α

/-- Add a value to the accumulator of its key in a window. -/
def addTo (f : KeyedCombineFn κ ν α ο) (key : κ) (value : ν) (partials : Partials κ α)
    (w : Window) : Partials κ α :=
  partials.alter (key, w) fun acc => f.add key (acc.getD (f.create key)) value

def addRows (f : KeyedCombineFn κ ν α ο) (rows : List (Envelope (κ × ν))) : Partials κ α :=
  rows.foldl (fun partials e => e.windows.foldl (addTo f e.value.1 e.value.2) partials) []

/-- Merge the accumulators that several bundles have for each key and window. -/
def mergePartials (f : KeyedCombineFn κ ν α ο) (parts : List (Partials κ α)) : Partials κ α :=
  (Table.gather parts.flatten).map fun p => (p.1, f.merge p.1.1 p.2)

/-- Extract the outputs; each is the only pane of its window, fired on time. -/
def extractAll (f : KeyedCombineFn κ ν α ο) (partials : Partials κ α) : List (Envelope (κ × ο)) :=
  partials.map fun p => .ofPane (p.1.1, f.extract p.1.1 p.2) p.1.2 .onTimeAndOnly

/-- How many parts a round merges into one: all of them, unless a width is given. -/
def roundWidth (width : Option Nat) (parts : Nat) : Nat := max (width.getD parts) 2

/-- Merge parts in rounds until one is left. -/
def mergeRounds {β : Type} (width : Option Nat) (merge : List β → β) : List β → β
  | [] => merge []
  | [b] => b
  | a :: b :: rest =>
    mergeRounds width merge
      ((chunks (roundWidth width (rest.length + 2)) (a :: b :: rest)).map merge)
termination_by parts => parts.length
decreasing_by
  rw [List.length_map]
  refine length_chunks_lt ?_ (by simp)
  simp only [roundWidth]
  omega

/-- Reduce the elements of several bundles by key and window. -/
def combineBundles (f : KeyedCombineFn κ ν α ο) (width : Option Nat)
    (bundles : List (List (Envelope (κ × ν)))) : List (Envelope (κ × ο)) :=
  extractAll f (mergeRounds width (mergePartials f) (bundles.map (addRows f)))

end EventTime
