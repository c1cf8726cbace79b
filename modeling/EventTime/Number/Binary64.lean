/-!
# Binary floating-point numbers as bit patterns

A number is its IEEE-754 bit pattern, so equality is equality of bits and a value that is not a
number keeps its payload. Arithmetic on the hardware type decides every result that is a number;
the module adds which pattern a result has when it is not one.
-/

namespace EventTime

/-- A double-precision number, by its bits. -/
structure Binary64 where
  bits : UInt64
  deriving DecidableEq, Repr

structure Binary32 where
  bits : UInt32
  deriving DecidableEq, Repr

namespace Binary64

/-- The hardware number with these bits. -/
def toFloat (x : Binary64) : Float := Float.ofBits x.bits

/-- The bits of a hardware number. -/
def ofFloat (x : Float) : Binary64 := ⟨x.toBits⟩

/-- Whether the pattern is not a number: all exponent bits set, and a fraction. -/
def isNaN (x : Binary64) : Bool := 0x7ff0000000000000 < (x.bits &&& 0x7fffffffffffffff)

/-- The pattern with its quiet bit set. -/
def quieted (x : Binary64) : Binary64 := ⟨x.bits ||| 0x0008000000000000⟩

/-- The pattern of an invalid operation's result. -/
def invalid : Binary64 := ⟨0xfff8000000000000⟩

/-- The bits as they are shown: every pattern that is not a number is written alike. -/
def shown (x : Binary64) : UInt64 := if x.isNaN then 0x7ff8000000000000 else x.bits

/-- A result of arithmetic on two operands: the first operand that is not a number is passed on. -/
def arithmetic (op : Float → Float → Float) (a b : Binary64) : Binary64 :=
  if a.isNaN then a.quieted
  else if b.isNaN then b.quieted
  else
    let r := ofFloat (op a.toFloat b.toFloat)
    if r.isNaN then invalid else r

def add (a b : Binary64) : Binary64 := arithmetic (· + ·) a b

def sub (a b : Binary64) : Binary64 := arithmetic (· - ·) a b

def div (a b : Binary64) : Binary64 := arithmetic (· / ·) a b

/-- The larger of two numbers; an operand that is not a number gives way to the other, and of two
equal operands, such as the two zeros, the second is kept. -/
def max (a b : Binary64) : Binary64 :=
  if a.isNaN then b else if a.toFloat ≤ b.toFloat then b else a

/-- The smaller of two numbers, with the rules of `max`. -/
def min (a b : Binary64) : Binary64 :=
  if a.isNaN then b else if b.toFloat ≤ a.toFloat then b else a

def ofInt (n : Int) : Binary64 := ofFloat (Float.ofInt n)

def zero : Binary64 := ⟨0⟩

def infinity : Binary64 := ⟨0x7ff0000000000000⟩

def negInfinity : Binary64 := ⟨0xfff0000000000000⟩

/-- Whether two numbers lie within `tolerance` of each other, or are equal, or are both not a
number. -/
def near (a b tolerance : Binary64) : Bool :=
  (a.isNaN && b.isNaN) || (a.toFloat - b.toFloat).abs ≤ tolerance.toFloat ||
    a.toFloat == b.toFloat

end Binary64

def Binary32.isNaN (x : Binary32) : Bool := 0x7f800000 < (x.bits &&& 0x7fffffff)

def Binary32.shown (x : Binary32) : UInt32 := if x.isNaN then 0x7fc00000 else x.bits

end EventTime
