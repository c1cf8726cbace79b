import EventTime.Pipeline.Stage
import EventTime.Check

/-!
# Jobs

A job is a source, the stages built on it, and what is to be found out about the result. Its report
holds the findings or the first fault, and the size of the graph that was built.
-/

namespace EventTime

/-- How a collection is looked up by window. -/
structure Inquiry where
  settings : GlobalSettings
  windows : List Window

/-- What is to be found out about a collection. -/
inductive Question
  | envelopes
  | pairs
  /-- Whether every key and window has one pane, fired on time. -/
  | singleOnTimePanes
  /-- The combined values of some windows. -/
  | lookup (inquiry : Inquiry)
  /-- The rows, read as if they were bytes. -/
  | asBytes
  /-- The rows of a node of that number in a pipeline without nodes. -/
  | elsewhere

/-- What was found out. -/
inductive Findings
  | rows (rows : List Datum)
  | onTime (holds : Bool)
  | values (size : Nat) (values : List (Option Datum))
  | count (rows : Nat)

/-- A source, the stages on it, how they are run, and what is asked about the result. -/
structure Job where
  source : Source
  stages : List Stage
  schedule : Schedule
  question : Question
  /-- Whether rows are listed in the order in which they come, and not sorted. -/
  inOrder : Bool := false

/-- The findings or the first fault of a job, and the size of its graph. -/
structure Report where
  outcome : Except Fault (Findings × Strategy)
  nodes : Nat
  edges : Nat

namespace Job

def ofPair (p : String × Datum) : Datum := .list [.text p.1, p.2]

/-- Rows in the order of data, or as they come. -/
def listed (j : Job) (rows : List Datum) : Findings :=
  .rows (if j.inOrder then rows else rows.mergeSort Datum.le)

/-- One partition, whose bundles all start from the same shard. -/
def sequential : Schedule := ⟨1, fun _ _ => 0⟩

/-- Find out what is asked about a collection of a pipeline, once the pipeline has been built. -/
def answer (j : Job) (c : KeyedData) (view : Option (SingletonView .datum)) (p : Pipeline) :
    Except Fault Findings := do
  match j.question with
  | .envelopes =>
    let rows ← p.collect j.schedule c.node .keyed
    return j.listed (rows.map fun e => .ofEnvelope (e.withValue (ofPair e.value)))
  | .pairs =>
    let rows ← p.collect j.schedule c.node .keyed
    return j.listed (rows.map fun e => ofPair e.value)
  | .singleOnTimePanes =>
    let rows ← p.collect j.schedule c.node .keyed
    return .onTime (Check.singleOnTimePanes rows)
  | .asBytes =>
    let rows ← p.collect sequential c.node .word8
    return .count rows.length
  | .elsewhere =>
    let rows ← Pipeline.collect {} sequential c.node .keyed
    return .count rows.length
  | .lookup inquiry =>
    match view with
    | none => return .values 0 []
    | some view =>
      let lookup ← view.materialize p sequential
      return .values lookup.size (inquiry.windows.map lookup.get?)

/-- Build the source, the stages, and the view that the question asks for. -/
def build (j : Job) : Build (KeyedData × Option (SingletonView .datum)) := do
  let c ← Stage.buildAll j.stages (← j.source.build)
  match j.question with
  | .lookup inquiry =>
    let g ← KeyedData.globally c inquiry.settings
    return (c, some (← g.asSingletonView))
  | _ => return (c, none)

/-- Build a job on a new pipeline, and run it. -/
def run (j : Job) : Report :=
  let (built, p) := j.build.begin {}
  { outcome := do
      let (c, view) ← built
      return (← j.answer c view p, c.strategy)
    nodes := p.graph.nodes.length
    edges := p.graph.edges.length }

end Job

end EventTime
