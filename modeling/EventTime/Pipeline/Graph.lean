import EventTime.Fault

/-!
# Graphs of stages, and their evaluation

A graph is a list of nodes and the edges between them; a node's number is its place in the list, and
edges lead from older to newer nodes. What travels along an edge is a list of partitions of some
type `π`. An evaluation visits what the terminal node depends on, keeps each node's output until its
last reader has taken it, and counts the readings still to come.
-/

namespace EventTime

variable {π : Type}

/-- A stage of a pipeline. -/
inductive Node (π : Type)
  /-- Rows given at the start, cut into at most as many partitions as asked for. -/
  | source (cut : Nat → List π)
  /-- Works on each partition by itself, given its position and a seed. -/
  | elementwise (run : (bundle : Nat) → (seed : UInt32) → π → Except Fault π)
  /-- Sees all partitions at once and makes one of them. -/
  | whole (run : List π → Except Fault π)
  /-- The partitions of all inputs, in the order of the edges. -/
  | union

/-- The nodes of a pipeline by number, and the edges, each from an input to its reader. -/
structure Graph (π : Type) where
  nodes : List (Node π) := []
  edges : List (Nat × Nat) := []

/-- How a graph is evaluated: into how many partitions a source is cut, and the seed of each bundle
of each node. -/
structure Schedule where
  partitions : Nat
  seed : (node bundle : Nat) → UInt32

/-- How far an evaluation has come. -/
structure Evaluation (π : Type) where
  /-- The outputs kept for later readers. -/
  outputs : Nat → Option (List π) := fun _ => none
  /-- How many readings of each output are still to come. -/
  pending : Nat → Nat
  /-- The nodes evaluated so far, latest first. -/
  visited : List Nat := []

namespace Graph

/-- The graph with one more node, which reads the given inputs in order. -/
def add (g : Graph π) (node : Node π) (inputs : List Nat) : Graph π where
  nodes := g.nodes ++ [node]
  edges := g.edges ++ inputs.map fun i => (i, g.nodes.length)

def inputs (g : Graph π) (node : Nat) : List Nat :=
  (g.edges.filter fun e => e.2 = node).map (·.1)

/-- Extend a set of nodes by the inputs of those of its members that are below `n`. -/
def ancestorsBelow (g : Graph π) : (n : Nat) → List Nat → List Nat
  | 0, found => found
  | n + 1, found =>
    ancestorsBelow g n (if n ∈ found then (found ++ g.inputs n).eraseDups else found)

/-- The nodes that a terminal node depends on, itself included. -/
def ancestors (g : Graph π) (terminal : Nat) : List Nat :=
  g.ancestorsBelow (terminal + 1) [terminal]

/-- How often a node's output is read in an evaluation up to `terminal`: once for every edge to a
node that is evaluated, and once at the end for the terminal node itself. -/
def readings (g : Graph π) (terminal node : Nat) : Nat :=
  (g.edges.filter fun e => e.1 = node ∧ e.2 ∈ g.ancestors terminal).length +
    if node = terminal then 1 else 0

end Graph

namespace Evaluation

/-- The evaluation in which a node has been visited and its output is kept. -/
def store (r : Evaluation π) (node : Nat) (output : List π) : Evaluation π where
  outputs i := if i = node then some output else r.outputs i
  pending := r.pending
  visited := node :: r.visited

/-- Serve one reading of a node's output. The last reader takes it away; the others get copies, which
are as good as the output itself. -/
def serve (r : Evaluation π) (node : Nat) : Except Fault (List π × Evaluation π) :=
  match r.outputs node with
  | none => .error (.alreadyConsumed node)
  | some output =>
    let left := r.pending node - 1
    .ok (output,
      { r with
        pending := fun i => if i = node then left else r.pending i
        outputs := fun i => if i = node ∧ left = 0 then none else r.outputs i })

end Evaluation

namespace Graph

/-- The output of an element-wise node, partition by partition. -/
def runBundles (s : Schedule) (node : Nat) (run : Nat → UInt32 → π → Except Fault π) :
    (bundle : Nat) → List π → Except Fault (List π)
  | _, [] => .ok []
  | bundle, p :: rest => do
    let out ← run bundle (s.seed node bundle) p
    return out :: (← runBundles s node run (bundle + 1) rest)

/-- Read several outputs in turn, and join them. -/
def readEach (read : Nat → Evaluation π → Except Fault (List π × Evaluation π)) :
    List Nat → Evaluation π → Except Fault (List π × Evaluation π)
  | [], r => .ok ([], r)
  | i :: rest, r => do
    let (first, r) ← read i r
    let (others, r) ← readEach read rest r
    return (first ++ others, r)

/-- The output of a node, whose inputs are obtained by `read`. -/
def compute (g : Graph π) (s : Schedule)
    (read : Nat → Evaluation π → Except Fault (List π × Evaluation π)) (node : Nat)
    (r : Evaluation π) : Except Fault (List π × Evaluation π) :=
  match g.nodes[node]? with
  | none => .error (.missingNode node)
  | some (.source cut) => .ok (cut s.partitions, r)
  | some .union => readEach read (g.inputs node) r
  | some (.elementwise run) =>
    match g.inputs node with
    | [] => .error (.noInput node)
    | input :: _ => do
      let (parts, r) ← read input r
      return (← runBundles s node run 0 parts, r)
  | some (.whole run) =>
    match g.inputs node with
    | [] => .error (.noInput node)
    | input :: _ => do
      let (parts, r) ← read input r
      return ([← run parts], r)

/-- Serve one reading of a node's output, evaluating the node first if no output is kept. Inputs are
older than their readers, so a depth above the node's number is enough. -/
def read (g : Graph π) (s : Schedule) :
    (depth : Nat) → (node : Nat) → Evaluation π → Except Fault (List π × Evaluation π)
  | 0, node, _ => .error (.missingNode node)
  | depth + 1, node, r =>
    match r.outputs node with
    | some _ => r.serve node
    | none => do
      let (output, r) ← g.compute s (g.read s depth) node r
      (r.store node output).serve node

def evaluate (g : Graph π) (s : Schedule) (terminal : Nat) :
    Except Fault (List π × Evaluation π) :=
  g.read s (terminal + 1) terminal { pending := g.readings terminal }

end Graph

end EventTime
