import EventTime.Pipeline.ElemType
import EventTime.Envelope

/-!
# Partitions

What travels between two nodes is a list of partitions, each the rows of one element type. The
module also cuts lists into consecutive parts, which is how a source is spread over bundles and how
partial results are grouped into rounds.
-/

namespace EventTime

/-- Cut a list into consecutive parts of `width` elements; a width of zero counts as one. -/
def chunks {α : Type} (width : Nat) : List α → List (List α)
  | [] => []
  | a :: rest => (a :: rest.take (width - 1)) :: chunks width (rest.drop (width - 1))
termination_by l => l.length
decreasing_by
  simp only [List.length_drop, List.length_cons]
  omega

/-- Cut a list into at most `n` parts of one size, and into at least one part even if it is
empty. -/
def split {α : Type} (n : Nat) (l : List α) : List (List α) :=
  if n ≤ 1 ∨ l.length ≤ 1 then [l] else chunks ((l.length + n - 1) / n) l

theorem flatten_chunks {α : Type} (width : Nat) (l : List α) : (chunks width l).flatten = l := by
  fun_induction chunks width l with
  | case1 => rfl
  | case2 a rest ih => simp [ih]

theorem flatten_split {α : Type} (n : Nat) (l : List α) : (split n l).flatten = l := by
  rw [split]
  split
  · exact List.flatten_singleton
  · exact flatten_chunks ..

theorem ne_nil_of_mem_chunks {α : Type} {width : Nat} {l part : List α}
    (h : part ∈ chunks width l) : part ≠ [] := by
  fun_induction chunks width l with
  | case1 => simp at h
  | case2 a rest ih =>
    rcases List.mem_cons.mp h with rfl | h
    · simp
    · exact ih h

theorem length_chunks_le {α : Type} (width : Nat) (l : List α) :
    (chunks width l).length ≤ l.length := by
  fun_induction chunks width l with
  | case1 => simp
  | case2 a rest ih =>
    simp only [List.length_cons, List.length_drop] at ih ⊢
    omega

/-- Parts of at least two elements are fewer than the elements, if there are two of those. -/
theorem length_chunks_lt {α : Type} {width : Nat} {l : List α} (hw : 2 ≤ width)
    (hl : 2 ≤ l.length) : (chunks width l).length < l.length := by
  cases l with
  | nil => simp at hl
  | cons a rest =>
    have h := length_chunks_le width (rest.drop (width - 1))
    simp only [List.length_cons, List.length_drop] at hl h
    rw [chunks, List.length_cons, List.length_cons]
    omega

abbrev Rows (t : ElemType) : Type := List (Envelope t.Elem)

/-- Some rows, and their element type. -/
structure Partition where
  type : ElemType
  rows : Rows type

namespace Partition

def rows? (p : Partition) (t : ElemType) : Option (Rows t) :=
  if h : p.type = t then some (h ▸ p.rows) else none

@[simp] theorem rows?_mk (t : ElemType) (rows : Rows t) : (mk t rows).rows? t = some rows := by
  simp [rows?]

/-- The rows of the type that a stage was built for. -/
def rowsFor (p : Partition) (t : ElemType) (stage : String) : Except Fault (Rows t) :=
  match p.rows? t with
  | some rows => .ok rows
  | none => .error (.inputType stage)

@[simp] theorem rowsFor_mk (t : ElemType) (rows : Rows t) (stage : String) :
    (mk t rows).rowsFor t stage = .ok rows := by
  simp [rowsFor]

/-- The rows of several partitions, one after another. -/
def allRowsFor (parts : List Partition) (t : ElemType) (stage : String) :
    Except Fault (Rows t) := do
  return (← parts.mapM (rowsFor · t stage)).flatten

end Partition

end EventTime
