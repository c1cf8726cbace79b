import EventTime.Pipeline.Graph
import EventTime.Pipeline.Partition
import EventTime.Windowing.Strategy
import EventTime.Coder.Registry
import EventTime.Attempt
import EventTime.Bundle

/-!
# Collections

A collection is a node of a pipeline together with the type of its elements and the windowing
strategy they carry. Building is an `Attempt` on the pipeline: the nodes inserted before a failure
stay. The stages of this module work on each element by itself.
-/

namespace EventTime

/-- A deferred graph of stages, and the registry that combine stages ask for coders. -/
structure Pipeline where
  graph : Graph Partition := {}
  registry : Registry := .standard

/-- An action that builds on a pipeline. -/
abbrev Build (ρ : Type) : Type := Attempt Pipeline ρ

/-- A node that carries elements of type `t`, and how they are windowed. -/
structure Collection (t : ElemType) where
  node : Nat
  strategy : Strategy := {}

namespace Pipeline

/-- Insert a node that reads the given inputs, and answer its number. -/
def insert (node : Node Partition) (inputs : List Nat) : Build Nat := .of fun p =>
  (.ok p.graph.nodes.length, { p with graph := p.graph.add node inputs })

def register (t : DataType) : Build Unit :=
  modify fun p => { p with registry := p.registry.register t }

def setRegistry (registry : Registry) : Build Unit :=
  modify fun p => { p with registry }

/-- The rows of type `t` that a node puts out. -/
def collect (p : Pipeline) (s : Schedule) (node : Nat) (t : ElemType) : Except Fault (Rows t) := do
  let (parts, _) ← p.graph.evaluate s node
  let rows ← parts.mapM fun part =>
    match part.rows? t with
    | some rows => .ok rows
    | none => .error .resultType
  return rows.flatten

end Pipeline

namespace Collection

variable {t u : ElemType}

/-- A collection of the given rows, in the global window. -/
def ofRows (rows : Rows t) : Build (Collection t) := do
  return { node := ← Pipeline.insert (.source fun n => (split n rows).map (⟨t, ·⟩)) [] }

def ofValues (values : List t.Elem) : Build (Collection t) :=
  ofRows (values.map .inGlobalWindow)

def ofTimestamped (values : List (Timestamped t.Elem)) : Build (Collection t) :=
  ofRows (values.map fun e => .stamped e.value e.timestamp)

/-- Append a node downstream of a collection. -/
def append (c : Collection t) (node : Node Partition) : Build (Collection u) := do
  return { c with node := ← Pipeline.insert node [c.node] }

/-- Let every bundle of rows be worked on by itself. -/
def perBundle (c : Collection t) (run : Bundle → Rows t → Except Fault (Rows u)) :
    Build (Collection u) :=
  c.append <| .elementwise fun index seed part => do
    return ⟨u, ← run ⟨index, seed⟩ (← part.rowsFor t "element-wise stage")⟩

/-- Replace every element by any number of envelopes, with the bundle at hand. -/
def expandRows (f : Bundle → Envelope t.Elem → Except Fault (Rows u × Bundle)) :
    Bundle → Rows t → Except Fault (Rows u)
  | _, [] => .ok []
  | b, e :: rest => do
    let (out, b) ← f b e
    return out ++ (← expandRows f b rest)

/-- Replace every element by any number of envelopes, with the bundle at hand. -/
def expand (c : Collection t) (f : Bundle → Envelope t.Elem → Except Fault (Rows u × Bundle)) :
    Build (Collection u) :=
  c.perBundle (expandRows f)

/-- Replace every envelope by one. -/
def mapEnvelopes (c : Collection t) (f : Envelope t.Elem → Except Fault (Envelope u.Elem)) :
    Build (Collection u) :=
  c.perBundle fun _ rows => rows.mapM f

def map (c : Collection t) (f : t.Elem → u.Elem) : Build (Collection u) :=
  c.perBundle fun _ rows => .ok (rows.map fun e => e.withValue (f e.value))

def filter (c : Collection t) (p : t.Elem → Bool) : Build (Collection t) :=
  c.perBundle fun _ rows => .ok (rows.filter fun e => p e.value)

/-- Replace every value by any number of values, in the same envelope. -/
def flatMap (c : Collection t) (f : t.Elem → List u.Elem) : Build (Collection u) :=
  c.perBundle fun _ rows => .ok (rows.flatMap fun e => (f e.value).map e.withValue)

/-- Give every element a timestamp; its windows stay. -/
def withTimestamps (c : Collection t) (f : t.Elem → Int) : Build (Collection t) :=
  c.mapEnvelopes fun e => .ok { e with timestamp := f e.value }

/-- Assign every element to windows anew. -/
def windowInto (c : Collection t) (fn : WindowFn) : Build (Collection t) := do
  let out ← c.mapEnvelopes fun e => (fn.assign e.timestamp).map fun windows => { e with windows }
  return { out with strategy := { c.strategy with windowFn := fn } }

/-- Let groupings downstream fire by another trigger. -/
def triggering (c : Collection t) (trigger : Trigger) : Collection t :=
  { c with strategy := { c.strategy with trigger } }

/-- Let the panes of groupings downstream accumulate or not. -/
def withMode (c : Collection t) (mode : AccumulationMode) : Collection t :=
  { c with strategy := { c.strategy with mode } }

/-- Let groupings downstream take elements up to `lateness` after the end of a window. -/
def withLateness (c : Collection t) (lateness : Int) : Collection t :=
  { c with strategy := { c.strategy with lateness } }

/-- The elements of several collections, windowed like the first. -/
def union (cs : List (Collection t)) : Build (Collection t) := do
  let node ← Pipeline.insert .union (cs.map (·.node))
  return { node, strategy := (cs.head?.map (·.strategy)).getD {} }

/-- Pair every value with a key derived from it. -/
def keyBy (c : Collection t) (key : t.Elem → Except Fault u.Elem) :
    Build (Collection (.pair u t)) :=
  c.mapEnvelopes fun e => (key e.value).map fun k => e.withValue (k, e.value)

variable {k v w : ElemType}

def mapValues (c : Collection (.pair k v)) (f : v.Elem → w.Elem) : Build (Collection (.pair k w)) :=
  c.map fun p => (p.1, f p.2)

def keys (c : Collection (.pair k v)) : Build (Collection k) := c.map Prod.fst

def values (c : Collection (.pair k v)) : Build (Collection v) := c.map Prod.snd

end Collection

end EventTime
