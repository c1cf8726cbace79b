import EventTime.Coder.Basic
import EventTime.Combine.Accumulators
import EventTime.Datum

/-!
# Types that can be encoded

The element and accumulator types for which a byte format is fixed. `DataType.Value` is the type
behind each name; a timestamp or a pane index in an encoded value is one that fits a 64-bit word.
-/

namespace EventTime

/-- Whether a window's ends fit 64-bit words. -/
def Window.Storable : Window → Prop
  | .global => True
  | .interval start stop => InRange start ∧ InRange stop

instance : (w : Window) → Decidable w.Storable
  | .global => inferInstanceAs (Decidable True)
  | .interval start stop => inferInstanceAs (Decidable (InRange start ∧ InRange stop))

/-- Whether a pane's index fits a 64-bit word. -/
def PaneInfo.Storable (p : PaneInfo) : Prop := p.index < UInt64.size

instance (p : PaneInfo) : Decidable p.Storable := inferInstanceAs (Decidable (_ < _))

/-- Whether an envelope's timestamp, windows and pane fit 64-bit words. -/
def Envelope.Storable {α : Type} (e : Envelope α) : Prop :=
  InRange e.timestamp ∧ (∀ w ∈ e.windows, w.Storable) ∧ e.pane.Storable

instance {α : Type} (e : Envelope α) : Decidable e.Storable :=
  inferInstanceAs (Decidable (_ ∧ _ ∧ _))

namespace Wire

theorem inRange_toInt (x : Int64) : InRange x.toInt := by
  have hlt := x.toInt_lt
  have hle := x.le_toInt
  simp only [InRange, minTime, maxTime]
  omega

def time : Wire { t : Int // InRange t } :=
  int64.via (fun t => Int64.ofInt t.1) fun x => ⟨x.toInt, inRange_toInt x⟩

/-- A window: a number 0 for the global one, or a number 1 and the ends of an interval. -/
def window : Wire { w : Window // w.Storable } where
  write
    | ⟨.global, _⟩ => numberBytes 0
    | ⟨.interval start stop, h⟩ =>
      numberBytes 1 ++ (time.write ⟨start, h.1⟩ ++ time.write ⟨stop, h.2⟩)
  read b := do
    let (variant, b) ← readBits 32 b
    match variant with
    | 0 => return (⟨.global, trivial⟩, b)
    | 1 =>
      let (start, b) ← time.read b
      let (stop, b) ← time.read b
      return (⟨.interval start.1 stop.1, start.2, stop.2⟩, b)
    | _ => .error .badVariant

/-- The number of a timing. -/
def timingNumber : PaneTiming → Nat
  | .early => 0
  | .onTime => 1
  | .late => 2
  | .unknown => 3

def timing : Wire PaneTiming where
  write t := numberBytes (timingNumber t)
  read b := do
    let (variant, b) ← readBits 32 b
    match variant with
    | 0 => return (.early, b)
    | 1 => return (.onTime, b)
    | 2 => return (.late, b)
    | 3 => return (.unknown, b)
    | _ => .error .badVariant

def pane : Wire { p : PaneInfo // p.Storable } :=
  (word64.pair (bool.pair (bool.pair timing))).via
    (fun p => (UInt64.ofNat p.1.index, p.1.isFirst, p.1.isLast, p.1.timing))
    fun q => ⟨⟨q.1.toNat, q.2.1, q.2.2.1, q.2.2.2⟩, q.1.toNat_lt_size⟩

def timestamped : Wire { e : Timestamped String // InRange e.timestamp } :=
  (time.pair text).via (fun e => (⟨e.1.timestamp, e.2⟩, e.1.value))
    fun q => ⟨⟨q.1.1, q.2⟩, q.1.2⟩

/-- A number in its envelope: the value, the timestamp, the windows and the pane. -/
def envelope : Wire { e : Envelope Int64 // e.Storable } :=
  (int64.pair (time.pair (window.sequence.pair pane))).via
    (fun e => (e.1.value, ⟨e.1.timestamp, e.2.1⟩, e.1.windows.attachWith _ e.2.2.1,
      ⟨e.1.pane, e.2.2.2⟩))
    fun q => ⟨⟨q.1, q.2.1.1, q.2.2.1.map (·.1), q.2.2.2.1⟩, q.2.1.2, by
      intro w hw
      obtain ⟨v, _, rfl⟩ := List.mem_map.mp hw
      exact v.2, q.2.2.2.2⟩

def mean : Wire Mean :=
  (binary64.pair word64).via (fun m => (m.sum, m.count)) fun p => ⟨p.1, p.2⟩

def digest : Wire Digest :=
  (word64.pair text).via (fun d => (d.count, d.log)) fun p => ⟨p.1, p.2⟩

end Wire

/-- A type with a byte format. -/
inductive DataType
  | unit
  | bool
  | uint8
  | uint16
  | uint32
  | uint64
  | size
  | int8
  | int16
  | int32
  | int64
  | binary32
  | binary64
  | text
  | longs
  | optionalText
  | textAndLong
  | window
  | pane
  | timestamped
  | envelope
  | mean
  | digest
  deriving DecidableEq, Repr

namespace DataType

@[reducible] def Value : DataType → Type
  | .unit => Unit
  | .bool => Bool
  | .uint8 => UInt8
  | .uint16 => UInt16
  | .uint32 => UInt32
  | .uint64 => UInt64
  | .size => UInt64
  | .int8 => Int8
  | .int16 => Int16
  | .int32 => Int32
  | .int64 => Int64
  | .binary32 => Binary32
  | .binary64 => Binary64
  | .text => String
  | .longs => List Int64
  | .optionalText => Option String
  | .textAndLong => String × Int64
  | .window => { w : Window // w.Storable }
  | .pane => { p : PaneInfo // p.Storable }
  | .timestamped => { e : Timestamped String // InRange e.timestamp }
  | .envelope => { e : Envelope Int64 // e.Storable }
  | .mean => Mean
  | .digest => Digest

def wire : (t : DataType) → Wire t.Value
  | .unit => Wire.unit
  | .bool => Wire.bool
  | .uint8 => Wire.byte
  | .uint16 => Wire.word16
  | .uint32 => Wire.word32
  | .uint64 => Wire.word64
  | .size => Wire.word64
  | .int8 => Wire.int8
  | .int16 => Wire.int16
  | .int32 => Wire.int32
  | .int64 => Wire.int64
  | .binary32 => Wire.binary32
  | .binary64 => Wire.binary64
  | .text => Wire.text
  | .longs => Wire.int64.sequence
  | .optionalText => Wire.text.option
  | .textAndLong => Wire.text.pair Wire.int64
  | .window => Wire.window
  | .pane => Wire.pane
  | .timestamped => Wire.timestamped
  | .envelope => Wire.envelope
  | .mean => Wire.mean
  | .digest => Wire.digest

def coder (t : DataType) : Coder t.Value := .ofWire t.wire

/-! ### Values as data -/

def toDatum : (t : DataType) → t.Value → Datum
  | .unit, _ => .null
  | .bool, a => .bool a
  | .uint8, a => .int a.toNat
  | .uint16, a => .int a.toNat
  | .uint32, a => .int a.toNat
  | .uint64, a => .int a.toNat
  | .size, a => .int a.toNat
  | .int8, a => .int a.toInt
  | .int16, a => .int a.toInt
  | .int32, a => .int a.toInt
  | .int64, a => .int a.toInt
  | .binary32, a => .single a
  | .binary64, a => .double a
  | .text, a => .text a
  | .longs, a => .list (a.map fun n => .int n.toInt)
  | .optionalText, a => a.elim .null .text
  | .textAndLong, a => .list [.text a.1, .int a.2.toInt]
  | .window, a => .ofWindow a.1
  | .pane, a => .ofPane a.1
  | .timestamped, a => .list [.int a.1.timestamp, .text a.1.value]
  | .envelope, a => .ofEnvelope (a.1.withValue (.int a.1.value.toInt))
  | .mean, a => .list [.double a.sum, .int a.count.toNat]
  | .digest, a => .list [.int a.count.toNat, .text a.log]

/-- A value with a condition, if it holds. -/
def holding {α : Type} (p : α → Prop) [DecidablePred p] (a : α) : Option { a : α // p a } :=
  if h : p a then some ⟨a, h⟩ else none

/-- A 64-bit number given as a datum. -/
def toInt64? : Datum → Option Int64
  | .int n => some (.ofInt n)
  | _ => none

/-- The value that a datum stands for; integers are taken modulo the range of their type. -/
def ofDatum? : (t : DataType) → Datum → Option t.Value
  | .unit, .null => some ()
  | .bool, .bool a => some a
  | .uint8, .int n => some (UInt8.ofInt n)
  | .uint16, .int n => some (UInt16.ofInt n)
  | .uint32, .int n => some (UInt32.ofInt n)
  | .uint64, .int n => some (UInt64.ofInt n)
  | .size, .int n => some (UInt64.ofInt n)
  | .int8, .int n => some (Int8.ofInt n)
  | .int16, .int n => some (Int16.ofInt n)
  | .int32, .int n => some (Int32.ofInt n)
  | .int64, d => toInt64? d
  | .binary32, .single a => some a
  | .binary64, .double a => some a
  | .text, .text a => some a
  | .longs, .list items => items.mapM toInt64?
  | .optionalText, .null => some none
  | .optionalText, .text a => some (some a)
  | .textAndLong, .list [.text a, .int n] => some (a, .ofInt n)
  | .window, d => (Datum.toWindow? d).bind (holding Window.Storable)
  | .pane, d => (Datum.toPane? d).bind (holding PaneInfo.Storable)
  | .timestamped, .list [.int t, .text a] =>
    holding (fun e : Timestamped String => InRange e.timestamp) ⟨t, a⟩
  | .envelope, d => do
    let e ← Datum.toEnvelope? d
    holding Envelope.Storable (e.withValue (← toInt64? e.value))
  | .mean, .list [.double sum, .int n] => some ⟨sum, UInt64.ofInt n⟩
  | .digest, .list [.int n, .text log] => some ⟨UInt64.ofInt n, log⟩
  | _, _ => none

end DataType

end EventTime
