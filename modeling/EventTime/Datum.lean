import EventTime.Envelope
import EventTime.Coder.Wire

/-!
# Data

The values that a pipeline carries when their types are not fixed in advance, their total order, and
the data that windows, panes and envelopes are written as.
-/

namespace EventTime

/-- A value of a dynamic type. -/
inductive Datum
  | null
  | bool (value : Bool)
  | int (value : Int)
  | double (value : Binary64)
  | single (value : Binary32)
  | text (value : String)
  | list (items : List Datum)
  | input (value : Datum)
  | accum (value : Datum)
  deriving Repr, Inhabited

namespace Datum

/-- The place of each kind of datum in the order. -/
def rank : Datum → Nat
  | .null => 0
  | .bool _ => 1
  | .int _ => 2
  | .double _ => 3
  | .single _ => 4
  | .text _ => 5
  | .list _ => 6
  | .input _ => 7
  | .accum _ => 8

mutual

/-- Kinds are ordered by rank, numbers by value, floating-point numbers by their bits, texts by
their characters and lists lexicographically. -/
def compare : Datum → Datum → Ordering
  | .null, .null => .eq
  | .bool a, .bool b => Ord.compare a b
  | .int a, .int b => Ord.compare a b
  | .double a, .double b => Ord.compare a.shown b.shown
  | .single a, .single b => Ord.compare a.shown b.shown
  | .text a, .text b => Ord.compare a b
  | .list a, .list b => compareItems a b
  | .input a, .input b => compare a b
  | .accum a, .accum b => compare a b
  | a, b => Ord.compare a.rank b.rank

/-- Lists are compared at the first item that differs; a list comes after its beginnings. -/
def compareItems : List Datum → List Datum → Ordering
  | [], [] => .eq
  | [], _ :: _ => .lt
  | _ :: _, [] => .gt
  | a :: as, b :: bs => (compare a b).then (compareItems as bs)

end

def le (a b : Datum) : Bool := compare a b ≠ .gt

/-- The global window is a word, an interval the pair of its ends. -/
def ofWindow : Window → Datum
  | .global => .text "global"
  | .interval start stop => .list [.int start, .int stop]

/-- The window written as a datum. -/
def toWindow? : Datum → Option Window
  | .text "global" => some .global
  | .list [.int start, .int stop] => some (.interval start stop)
  | _ => none

def timingName : PaneTiming → String
  | .early => "Early"
  | .onTime => "OnTime"
  | .late => "Late"
  | .unknown => "Unknown"

def timingNamed? : String → Option PaneTiming
  | "Early" => some .early
  | "OnTime" => some .onTime
  | "Late" => some .late
  | "Unknown" => some .unknown
  | _ => none

def ofPane (p : PaneInfo) : Datum :=
  .list [.int p.index, .bool p.isFirst, .bool p.isLast, .text (timingName p.timing)]

def toPane? : Datum → Option PaneInfo
  | .list [.int index, .bool isFirst, .bool isLast, .text timing] =>
    if index < 0 then none
    else (timingNamed? timing).map fun timing => ⟨index.toNat, isFirst, isLast, timing⟩
  | _ => none

def ofEnvelope (e : Envelope Datum) : Datum :=
  .list [e.value, .int e.timestamp, .list (e.windows.map ofWindow), ofPane e.pane]

def toEnvelope? : Datum → Option (Envelope Datum)
  | .list [value, .int timestamp, .list windows, pane] => do
    return ⟨value, timestamp, ← windows.mapM toWindow?, ← toPane? pane⟩
  | _ => none

/-- A value with its timestamp is written with the timestamp first. -/
def ofTimestamped (e : Timestamped Datum) : Datum := .list [.int e.timestamp, e.value]

mutual

/-- The bytes of a datum: its rank, and then what it holds. -/
def bytes : Datum → Bytes
  | .null => [0]
  | .bool a => 1 :: Wire.bool.write a
  | .int a => 2 :: Wire.integer.write a
  | .double a => 3 :: Wire.binary64.write a
  | .single a => 4 :: Wire.binary32.write a
  | .text a => 5 :: Wire.text.write a
  | .list items => 6 :: (Wire.numberBytes items.length ++ bytesOfItems items)
  | .input a => 7 :: bytes a
  | .accum a => 8 :: bytes a

/-- The bytes of data one after another. -/
def bytesOfItems : List Datum → Bytes
  | [] => []
  | a :: rest => bytes a ++ bytesOfItems rest

end

/-- Read a datum that is nested at most `depth` deep. -/
def readNested : (depth : Nat) → Bytes → Except WireError (Datum × Bytes)
  | 0, _ => .error .endOfInput
  | _ + 1, [] => .error .endOfInput
  | depth + 1, kind :: b =>
    match kind.toNat with
    | 0 => .ok (.null, b)
    | 1 => (Wire.bool.read b).map fun p => (.bool p.1, p.2)
    | 2 => (Wire.integer.read b).map fun p => (.int p.1, p.2)
    | 3 => (Wire.binary64.read b).map fun p => (.double p.1, p.2)
    | 4 => (Wire.binary32.read b).map fun p => (.single p.1, p.2)
    | 5 => (Wire.text.read b).map fun p => (.text p.1, p.2)
    | 6 => do
      let (count, b) ← Wire.readNatural b
      let (items, b) ← Wire.readMany (readNested depth) count [] b
      return (.list items, b)
    | 7 => (readNested depth b).map fun p => (.input p.1, p.2)
    | 8 => (readNested depth b).map fun p => (.accum p.1, p.2)
    | _ => .error .badVariant

def wire : Wire Datum where
  write := bytes
  read b := readNested b.length b

end Datum

end EventTime
