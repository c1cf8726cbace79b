import EventTime.Pipeline.Global
import EventTime.Combine.Recipe

/-!
# Stages on keyed data

A small language of stages on a collection of text keys and data. A list of stages is built on a
pipeline one after another; branches are built on copies of a collection and united.
-/

namespace EventTime

/-- The element type of keyed data. -/
abbrev ElemType.keyed : ElemType := .pair .text .datum

abbrev KeyedData : Type := Collection .keyed

/-- A function on values. Data that it is not meant for stay as they are. -/
inductive ValueFn
  | add (n : Int)
  | mul (n : Int)
  | toDouble
  | toText
  deriving DecidableEq, Repr

def ValueFn.apply : ValueFn → Datum → Datum
  | .add n, .int a => .int (Int64.ofInt a + Int64.ofInt n).toInt
  | .mul n, .int a => .int (Int64.ofInt a * Int64.ofInt n).toInt
  | .toDouble, .int a => .double (.ofInt a)
  | .toText, .int a => .text (toString a)
  | _, d => d

/-- A property of pairs. -/
inductive PairTest
  /-- The value is an integer no smaller than `n`. -/
  | atLeast (n : Int)
  /-- The key is the one given. -/
  | keyIs (key : String)
  /-- Nothing has the property. -/
  | never
  deriving DecidableEq, Repr

def PairTest.holds : PairTest → String × Datum → Bool
  | .atLeast n, (_, .int a) => n ≤ a
  | .atLeast _, _ => false
  | .keyIs key, (k, _) => k = key
  | .never, _ => false

namespace Datum

/-- An integer and those after it, `count` of them. -/
def successors (count : Nat) : Datum → List Datum
  | .int a => (List.range count).map fun i : Nat => .int (a + i)
  | _ => []

/-- The words of a text, which spaces separate. -/
def words : Datum → List Datum
  | .text a => ((a.splitOn " ").filter fun w => !w.isEmpty).map .text
  | _ => []

def items : Datum → List Datum
  | .list l => l
  | _ => []

/-- The key of a datum: the remainder of an integer modulo `n`, a text itself, or the length of a
list. There is no remainder modulo zero. -/
def keyModulo (n : Int) : Datum → Except Fault String
  | .int a => if n = 0 then .error .divisionByZero else .ok (toString (a % n))
  | .text a => .ok a
  | .list l => .ok (toString l.length)
  | _ => .ok ""

/-- The timestamp of an integer: so many times the integer. -/
def scaledTime (scale : Int) : Datum → Int
  | .int a => a * scale
  | _ => 0

end Datum

/-- Where keyed data come from. -/
inductive Source
  /-- Pairs at the smallest event time. -/
  | values (pairs : List (String × Datum))
  /-- Pairs at their event times. -/
  | events (pairs : List (Timestamped (String × Datum)))

def Source.build : Source → Build KeyedData
  | .values pairs => Collection.ofValues (t := .keyed) pairs
  | .events pairs => Collection.ofTimestamped (t := .keyed) pairs

/-- How a combine by key is set up. -/
structure CombineSettings where
  recipe : Recipe
  /-- Whether the reduction sees the keys; otherwise it sees the empty key. -/
  keyed : Bool := false
  fanout : Option UInt32 := none
  /-- Fanouts of some keys; the others are not spread. -/
  fanoutByKey : Option (List (String × UInt32)) := none
  width : Option Nat := none

/-- How a combine of a whole collection is set up. -/
structure GlobalSettings where
  recipe : Recipe
  fanout : Option UInt32 := none
  defaults : Bool := true

/-- A stage on keyed data. -/
inductive Stage
  | map (f : ValueFn)
  | mapValues (f : ValueFn)
  | filter (test : PairTest)
  | successors (count : Nat)
  | words
  | keyBy (n : Int)
  | keys
  | withTimestamps (scale : Int)
  | window (fn : WindowFn)
  | trigger (trigger : Except Fault Trigger)
  | mode (mode : AccumulationMode)
  | lateness (lateness : Int)
  | branches (branches : List (List Stage))
  | union (source : Source)
  | combine (settings : CombineSettings)
  | group
  | combineGrouped (recipe : Recipe) (keyed : Bool)
  | ungroup
  | global (settings : GlobalSettings)
  | register (type : DataType)
  | resetRegistry (types : List DataType)

namespace KeyedData

def combine (c : KeyedData) (s : CombineSettings) : Build KeyedData :=
  let p : PerKey .text .datum .datum s.recipe.reduction.Accum :=
    { input := c, fn := s.recipe.reduction.seeing s.keyed }
  let p := s.fanout.elim p p.withFanout
  let p := s.fanoutByKey.elim p fun l => p.withFanoutFn fun key => (l.lookup key).getD 1
  let p := s.width.elim p p.withWidth
  p.apply

def globally (c : KeyedData) (s : GlobalSettings) :
    Build (Globally .datum .datum s.recipe.reduction.Accum) := do
  let values : Collection .datum ← Collection.values c
  let g : Globally .datum .datum s.recipe.reduction.Accum :=
    ⟨values, s.recipe.reduction.fn.bind "", 0, true⟩
  let g := s.fanout.elim g g.withFanout
  return if s.defaults then g else g.withoutDefaults

def combineAll (c : KeyedData) (s : GlobalSettings) : Build KeyedData := do
  let g ← globally c s
  let combined ← g.apply
  combined.map fun d => ("", d)

/-- Group by key, each group a list. -/
def group (c : KeyedData) : Build KeyedData := do
  let grouped ← Collection.groupByKey c
  grouped.map fun p => (p.1, .list p.2)

/-- Group by key, and reduce each group. -/
def combineGrouped (c : KeyedData) (r : Recipe) (keyed : Bool) : Build KeyedData := do
  let grouped ← Collection.groupByKey c
  Collection.combineGrouped (v := .datum) grouped (r.reduction.seeing keyed)

end KeyedData

namespace Stage

mutual

def build : Stage → KeyedData → Build KeyedData
  | .map f, c => Collection.map c fun p => (p.1, f.apply p.2)
  | .mapValues f, c => Collection.mapValues c f.apply
  | .filter test, c => Collection.filter c test.holds
  | .successors count, c =>
    Collection.flatMap c fun p => (p.2.successors count).map fun d => (p.1, d)
  | .words, c => Collection.flatMap c fun p => p.2.words.map fun d => (p.1, d)
  | .keyBy n, c => do
    let values : Collection .datum ← Collection.values c
    Collection.keyBy (u := .text) values (Datum.keyModulo n)
  | .keys, c => do
    let keys : Collection .text ← Collection.keys c
    Collection.map keys fun key => (key, .text key)
  | .withTimestamps scale, c => Collection.withTimestamps c fun p => p.2.scaledTime scale
  | .window fn, c => Collection.windowInto c fn
  | .trigger t, c => do
    let t ← t
    return Collection.triggering c t
  | .mode m, c => return Collection.withMode c m
  | .lateness ms, c => return Collection.withLateness c ms
  | .branches bs, c => do Collection.union (← buildEach bs c)
  | .union source, c => do Collection.union [c, ← source.build]
  | .combine s, c => KeyedData.combine c s
  | .group, c => KeyedData.group c
  | .combineGrouped r keyed, c => KeyedData.combineGrouped c r keyed
  | .ungroup, c => Collection.flatMap c fun p => p.2.items.map fun d => (p.1, d)
  | .global s, c => KeyedData.combineAll c s
  | .register type, c => do
    Pipeline.register type
    return c
  | .resetRegistry types, c => do
    Pipeline.setRegistry (types.foldl Registry.register .standard)
    return c

def buildAll : List Stage → KeyedData → Build KeyedData
  | [], c => return c
  | s :: rest, c => do buildAll rest (← build s c)

/-- Build each list of stages on the same collection. -/
def buildEach : List (List Stage) → KeyedData → Build (List KeyedData)
  | [], _ => return []
  | b :: rest, c => do
    let built ← buildAll b c
    return built :: (← buildEach rest c)

end

end Stage

end EventTime
