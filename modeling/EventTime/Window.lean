import EventTime.Time
import EventTime.Fault

/-!
# Windows

A window is the whole time line or a closed-open interval of timestamps. The module holds the total
order on windows, the last timestamp of a window, overlap and covering, and the tumbling window of a
timestamp, as a matter of numbers and as it is computed on 64-bit words.
-/

namespace EventTime

/-- A grouping identity with a defined end; an interval runs from `start` to just before `stop`. -/
inductive Window
  | global
  | interval (start stop : Int)
  deriving DecidableEq, Repr

namespace Window

/-- The global window comes first; intervals follow by start, then by end. -/
protected def lt : Window → Window → Prop
  | _, .global => False
  | .global, .interval _ _ => True
  | .interval a b, .interval c d => a < c ∨ (a = c ∧ b < d)

instance : LT Window := ⟨Window.lt⟩

instance decidableLt : (a b : Window) → Decidable (a < b)
  | .global, .global => inferInstanceAs (Decidable False)
  | .interval _ _, .global => inferInstanceAs (Decidable False)
  | .global, .interval _ _ => inferInstanceAs (Decidable True)
  | .interval a b, .interval c d => inferInstanceAs (Decidable (a < c ∨ (a = c ∧ b < d)))

@[simp] theorem not_lt_global (a : Window) : ¬a < .global := by
  cases a <;> exact id

@[simp] theorem global_lt_interval (a b : Int) : Window.global < .interval a b := trivial

@[simp] theorem interval_lt_interval {a b c d : Int} :
    Window.interval a b < .interval c d ↔ a < c ∨ (a = c ∧ b < d) := Iff.rfl

theorem lt_irrefl (a : Window) : ¬a < a := by
  cases a with
  | global => simp
  | interval a b => rw [interval_lt_interval]; omega

theorem lt_trans {a b c : Window} (hab : a < b) (hbc : b < c) : a < c := by
  cases a <;> cases b <;> cases c <;> simp_all
  omega

theorem lt_trichotomy (a b : Window) : a < b ∨ a = b ∨ b < a := by
  cases a <;> cases b <;> simp
  omega

theorem lt_asymm {a b : Window} (hab : a < b) : ¬b < a :=
  fun hba => lt_irrefl a (lt_trans hab hba)

def sort (windows : List Window) : List Window :=
  windows.mergeSort fun a b => !decide (b < a)

theorem sort_perm (windows : List Window) : (sort windows).Perm windows :=
  List.mergeSort_perm _ _

def day : Int := 86400000

/-- The last timestamp that belongs to a window. The global window stops a day before the end of
time, so that an allowed lateness can be added to it. -/
def maxTimestamp : Window → Int
  | .global => maxTime - day
  | .interval _ stop => clamp (stop - 1)

/-- Whether two windows overlap; the global window overlaps every window. -/
def intersects : Window → Window → Bool
  | .interval a b, .interval c d => a < d && c < b
  | _, _ => true

def span : Window → Window → Window
  | .interval a b, .interval c d => .interval (min a c) (max b d)
  | _, _ => .global

def Ordered : Window → Prop
  | .global => True
  | .interval start stop => start ≤ stop

/-- The interval of length `size` that holds `t` among those that start at `offset` plus a multiple
of `size`. -/
def tumbling (t : Int) (size offset : Int) : Window :=
  let start := Int.fdiv (t - offset) size * size + offset
  .interval start (start + size)

/-- The tumbling window of a timestamp; no time line is cut into intervals of length zero. -/
def tumble (t : Int) (size offset : Int) : Except Fault Window :=
  if size = 0 then .error .divisionByZero else .ok (tumbling t size offset)

theorem tumble_of_pos {t : Int} {size offset : Int} (h : 0 < size) :
    tumble t size offset = .ok (tumbling t size offset) :=
  if_neg (by omega)

/-- A number, if it fits a 64-bit word. -/
def stored (n : Int) : Option Int := if InRange n then some n else none

/-- The quotient of two words, rounded down. The division of words truncates, so the quotient is one
too large where a remainder is left that has not the sign of the divisor. -/
def floorDiv? (a b : Int) : Option Int := do
  let quotient ← stored (a.tdiv b)
  let remainder ← stored (a.tmod b)
  if remainder ≠ 0 ∧ ¬(0 < remainder ↔ 0 < b) then stored (quotient - 1) else some quotient

/-- The tumbling window of a timestamp, if every number on the way to its ends fits a word. -/
def tumble? (t size offset : Int) : Option Window := do
  let distance ← stored (t - offset)
  let number ← floorDiv? distance size
  let multiple ← stored (number * size)
  let start ← stored (multiple + offset)
  let stop ← stored (start + size)
  return .interval start stop

end Window

end EventTime
