import EventTime.Window

/-!
# Window functions

A window function gives every timestamp its windows and says which of the live windows coalesce.
The module holds the whole time line, tumbling windows, sessions, sliding windows and windows that
snap to a grid.
-/

namespace EventTime

/-- Several windows that become one. -/
structure Merge where
  olds : List Window
  into : Window
  deriving DecidableEq, Repr

/-- How timestamps are assigned to windows, and which live windows merge. -/
structure WindowFn where
  assign : Int → Except Fault (List Window)
  /-- The merges to perform among the live windows. -/
  merge : List Window → Except Fault (List Merge) := fun _ => .ok []
  /-- Whether windows never merge. -/
  nonMerging : Bool := true
  /-- Whether every element belongs to the one global window. -/
  isGlobal : Bool := false

namespace WindowFn

/-- Every element belongs to the global window. -/
def global : WindowFn where
  assign _ := .ok [.global]
  isGlobal := true

/-- Tumbling windows of one size, shifted by an offset. The computation breaks off where a number
does not fit a word. -/
def fixed (size : Int) (offset : Int := 0) : WindowFn where
  assign t :=
    if size = 0 then .error .divisionByZero
    else match Window.tumble? t size offset with
      | some w => .ok [w]
      | none => .error .overflow

theorem assign_fixed_of_some {size offset t : Int} {w : Window} (hsize : size ≠ 0)
    (h : Window.tumble? t size offset = some w) : (fixed size offset).assign t = .ok [w] := by
  simp only [fixed, if_neg hsize, h]

theorem assign_fixed_of_none {size offset t : Int} (hsize : size ≠ 0)
    (h : Window.tumble? t size offset = none) : (fixed size offset).assign t = .error .overflow := by
  simp only [fixed, if_neg hsize, h]

/-- The starts of the windows of length `size` that hold `t`, latest first, where windows start at
every multiple of `period`. -/
def slidingStarts (t size period : Int) : List Int :=
  let last := Int.fdiv t period * period
  let count := if t - size < last then -Int.fdiv (t - size - last) period else 0
  (List.range count.toNat).map fun i : Nat => last - i * period

/-- Windows of one size, of which one starts in every period. -/
def sliding (size period : Int) : WindowFn where
  assign t :=
    if period = 0 then .error .divisionByZero
    else .ok ((slidingStarts t size period).map fun start => .interval start (start + size))

/-- The merge of a run of overlapping windows, unless it has one member only. -/
def runMerge (covering : Window) (run : List Window) : List Merge :=
  if 1 < run.length then [⟨run, covering⟩] else []

/-- Walk over sorted windows, collecting each run in which every window overlaps what the run
covers so far. -/
def sweep (covering : Window) (run : List Window) : List Window → List Merge
  | [] => runMerge covering run
  | w :: rest =>
    if covering.intersects w then sweep (covering.span w) (run ++ [w]) rest
    else runMerge covering run ++ sweep w [w] rest

/-- The groups of at least two windows that overlap directly or through others, each with the
window that covers it. -/
def overlapping (active : List Window) : List Merge :=
  match Window.sort active with
  | [] => []
  | w :: rest => sweep w [w] rest

/-- Session windows: an element opens the interval of length `gap` at its timestamp, and
overlapping sessions coalesce. -/
def sessions (gap : Int) : WindowFn where
  assign t := .ok [.interval t (later t gap)]
  merge active := .ok (overlapping active)
  nonMerging := false

/-- The grid cell in which an interval starts. -/
def cell? (size : Int) : Window → Option Int
  | .global => none
  | .interval start _ => some (Int.fdiv start size)

/-- The intervals among the windows, grouped by the cell in which they start, cells ascending. -/
def cells (size : Int) (active : List Window) : List (Int × List Window) :=
  let numbers := (active.filterMap (cell? size)).mergeSort
  let distinct := numbers.foldr (fun k rest => if rest.head? = some k then rest else k :: rest) []
  distinct.map fun k => (k, active.filter fun w => cell? size w == some k)

/-- One-millisecond windows that coalesce into the grid cell in which they start. -/
def snapping (size : Int) : WindowFn where
  assign t := .ok [.interval t (t + 1)]
  merge active :=
    if size = 0 ∧ active.any (· ≠ .global) then .error .divisionByZero
    else .ok <| (cells size active).filterMap fun (k, group) =>
      let whole := .interval (k * size) ((k + 1) * size)
      if group = [whole] then none else some ⟨group, whole⟩
  nonMerging := false

end WindowFn

end EventTime
