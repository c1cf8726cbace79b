import EventTime.Pipeline.HotKey

/-!
# Combining a whole collection

A whole collection is combined, window by window, by giving every element the same key. In the
global window the result for no input is well defined, and is put out if a default is kept; a view
keeps the default for the windows it is asked about.
-/

namespace EventTime

variable {t o : ElemType} {α : Type}

/-- A combine of a whole collection, before it is built. -/
structure Globally (t o : ElemType) (α : Type) where
  input : Collection t
  fn : CombineFn t.Elem α o.Elem
  /-- Over how many shards the elements are spread. -/
  fanout : UInt32 := 0
  /-- Whether the output for no input is put out. -/
  keepDefault : Bool := true

/-- A combined collection, and what is answered for a window without input. -/
structure SingletonView (o : ElemType) where
  collection : Collection o
  default : Option o.Elem

/-- One value for each window, and what is answered for the others. -/
structure WindowLookup (β : Type) where
  values : WindowMap β
  default : Option β

namespace Globally

/-- Spread the elements over `n` shards; zero or one turns spreading off. -/
def withFanout (g : Globally t o α) (n : UInt32) : Globally t o α := { g with fanout := n }

/-- Put out nothing where there is no input. -/
def withoutDefaults (g : Globally t o α) : Globally t o α := { g with keepDefault := false }

/-- The output for no input. -/
def emptyOutput (g : Globally t o α) : o.Elem := g.fn.extract g.fn.create

/-- Combine with every element under the one key. -/
def combineUnderOneKey (g : Globally t o α) : Build (Collection o) := do
  let keyed : Collection (.pair .unit t) ← g.input.map fun a => ((), a)
  let combined : Collection (.pair .unit o) ←
    (PerKey.withFanout { input := keyed, fn := g.fn.lift } g.fanout).apply
  combined.values

/-- The rows, or the default in the global window if there are none. -/
def orDefault {β : Type} (value : β) (rows : List (Envelope β)) : List (Envelope β) :=
  if rows.isEmpty then [.ofPane value .global .onTimeAndOnly] else rows

/-- Build the combine. A default is put out in the global window only. -/
def apply (g : Globally t o α) : Build (Collection o) := do
  if g.keepDefault && !g.input.strategy.windowFn.isGlobal then
    throw .defaultOutsideGlobalWindows
  let combined ← g.combineUnderOneKey
  if g.keepDefault then
    combined.append <| .whole fun parts => do
      let rows ← Partition.allRowsFor parts o "combine_globally default"
      return ⟨o, orDefault g.emptyOutput rows⟩
  else return combined

/-- Build the combine, to be looked up by window. -/
def asSingletonView (g : Globally t o α) : Build (SingletonView o) := do
  return { collection := ← g.combineUnderOneKey,
           default := if g.keepDefault then some g.emptyOutput else none }

end Globally

namespace WindowLookup

variable {β : Type}

/-- Take in a pane: of several panes of a window the one with the highest index counts, the last of
several with that index. -/
def takePane (values : WindowMap (Nat × β)) (e : Envelope β) : WindowMap (Nat × β) :=
  e.windows.foldl (fun values w =>
    match values.find? w with
    | some (index, _) =>
      if index ≤ e.pane.index then values.insert w (e.pane.index, e.value) else values
    | none => values.insert w (e.pane.index, e.value)) values

/-- The values without the indices of their panes. -/
def dropIndices (values : WindowMap (Nat × β)) : WindowMap β :=
  values.entries.foldl (fun m p => m.insert p.1 p.2.2) .empty

/-- Index rows by window. -/
def ofRows (rows : List (Envelope β)) (default : Option β) : WindowLookup β :=
  ⟨dropIndices (rows.foldl takePane .empty), default⟩

/-- The value of a window, or the default. -/
def get? (l : WindowLookup β) (w : Window) : Option β := (l.values.find? w).or l.default

def size (l : WindowLookup β) : Nat := l.values.size

end WindowLookup

/-- Run a pipeline up to a view, and index the result. -/
def SingletonView.materialize {o : ElemType} (view : SingletonView o) (p : Pipeline)
    (s : Schedule) : Except Fault (WindowLookup o.Elem) := do
  return .ofRows (← p.collect s view.collection.node o) view.default

end EventTime
