import EventTime.Pipeline.Graph

/-!
# Who reads what in an evaluation

An evaluation is repeated with a log of its readings beside it: who read, which node, and what was
handed over. Without the log it is the evaluation itself.
-/

namespace EventTime

variable {π β γ : Type}

/-- A node's output handed over to a node that reads it, or to the caller. -/
structure Reading (π : Type) where
  reader : Option Nat
  node : Nat
  parts : List π

/-- An evaluation, and its readings so far. -/
structure Noted (π : Type) extends Evaluation π where
  log : List (Reading π) := []

namespace Noted

def serve (r : Noted π) (reader : Option Nat) (node : Nat) : Except Fault (List π × Noted π) := do
  let (parts, e) ← r.toEvaluation.serve node
  return (parts, ⟨e, r.log ++ [⟨reader, node, parts⟩]⟩)

def store (r : Noted π) (node : Nat) (output : List π) : Noted π :=
  ⟨r.toEvaluation.store node output, r.log⟩

/-- What one reader has read, in order: the nodes and what they handed over. -/
def readBy (r : Noted π) (reader : Option Nat) : List (Nat × List π) :=
  (r.log.filter fun e => e.reader = reader).map fun e => (e.node, e.parts)

/-- The evaluation without its log. -/
def forget (x : Except Fault (β × Noted π)) : Except Fault (β × Evaluation π) :=
  x.map fun p => (p.1, p.2.toEvaluation)

theorem forget_bind {x : Except Fault (β × Noted π)} {y : Except Fault (β × Evaluation π)}
    {f : β × Noted π → Except Fault (γ × Noted π)}
    {k : β × Evaluation π → Except Fault (γ × Evaluation π)} (hx : forget x = y)
    (hf : ∀ a r, forget (f (a, r)) = k (a, r.toEvaluation)) : forget (x >>= f) = y >>= k := by
  subst hx
  cases x with
  | error e => rfl
  | ok p => exact hf p.1 p.2

theorem forget_serve (r : Noted π) (reader : Option Nat) (node : Nat) :
    forget (r.serve reader node) = r.toEvaluation.serve node := by
  unfold serve
  cases r.toEvaluation.serve node <;> rfl

end Noted

namespace Graph

def readEachNoted (read : Nat → Noted π → Except Fault (List π × Noted π)) :
    List Nat → Noted π → Except Fault (List π × Noted π)
  | [], r => .ok ([], r)
  | i :: rest, r => do
    let (first, r) ← read i r
    let (others, r) ← readEachNoted read rest r
    return (first ++ others, r)

def computeNoted (g : Graph π) (s : Schedule)
    (read : Nat → Noted π → Except Fault (List π × Noted π)) (node : Nat) (r : Noted π) :
    Except Fault (List π × Noted π) :=
  match g.nodes[node]? with
  | none => .error (.missingNode node)
  | some (.source cut) => .ok (cut s.partitions, r)
  | some .union => readEachNoted read (g.inputs node) r
  | some (.elementwise run) =>
    match g.inputs node with
    | [] => .error (.noInput node)
    | input :: _ => do
      let (parts, r) ← read input r
      return (← runBundles s node run 0 parts, r)
  | some (.whole run) =>
    match g.inputs node with
    | [] => .error (.noInput node)
    | input :: _ => do
      let (parts, r) ← read input r
      return ([← run parts], r)

/-- Serve a reading, and note it. What a node reads to be evaluated is noted as its own. -/
def readNoted (g : Graph π) (s : Schedule) :
    (depth : Nat) → (reader : Option Nat) → (node : Nat) → Noted π →
      Except Fault (List π × Noted π)
  | 0, _, node, _ => .error (.missingNode node)
  | depth + 1, reader, node, r =>
    match r.outputs node with
    | some _ => r.serve reader node
    | none => do
      let (output, r) ← g.computeNoted s (g.readNoted s depth (some node)) node r
      (r.store node output).serve reader node

def evaluateNoted (g : Graph π) (s : Schedule) (terminal : Nat) :
    Except Fault (List π × Noted π) :=
  g.readNoted s (terminal + 1) none terminal { pending := g.readings terminal }

open Noted (forget forget_bind forget_serve)

section Forget

variable {read : Nat → Noted π → Except Fault (List π × Noted π)}
  {plain : Nat → Evaluation π → Except Fault (List π × Evaluation π)}

theorem forget_readEachNoted (h : ∀ i r, forget (read i r) = plain i r.toEvaluation) (l : List Nat)
    (r : Noted π) : forget (readEachNoted read l r) = readEach plain l r.toEvaluation := by
  induction l generalizing r with
  | nil => rfl
  | cons i rest ih =>
    exact forget_bind (h i r) fun first r => forget_bind (ih r) fun others r => rfl

theorem forget_computeNoted (h : ∀ i r, forget (read i r) = plain i r.toEvaluation) (g : Graph π)
    (s : Schedule) (node : Nat) (r : Noted π) :
    forget (g.computeNoted s read node r) = g.compute s plain node r.toEvaluation := by
  cases hnode : g.nodes[node]? with
  | none =>
    simp only [computeNoted, compute, hnode]
    rfl
  | some stage =>
    cases stage with
    | source cut =>
      simp only [computeNoted, compute, hnode]
      rfl
    | union =>
      simp only [computeNoted, compute, hnode]
      exact forget_readEachNoted h _ r
    | elementwise run =>
      simp only [computeNoted, compute, hnode]
      cases g.inputs node with
      | nil => rfl
      | cons i rest =>
        refine forget_bind (h i r) fun parts r => ?_
        cases runBundles s node run 0 parts <;> rfl
    | whole run =>
      simp only [computeNoted, compute, hnode]
      cases g.inputs node with
      | nil => rfl
      | cons i rest =>
        refine forget_bind (h i r) fun parts r => ?_
        cases run parts <;> rfl

end Forget

theorem forget_readNoted (g : Graph π) (s : Schedule) (depth : Nat) (reader : Option Nat)
    (node : Nat) (r : Noted π) :
    forget (g.readNoted s depth reader node r) = g.read s depth node r.toEvaluation := by
  induction depth generalizing reader node r with
  | zero => rfl
  | succ depth ih =>
    rw [readNoted, read]
    cases r.outputs node with
    | some output => exact forget_serve r reader node
    | none =>
      exact forget_bind (forget_computeNoted (ih (some node)) g s node r) fun output r =>
        forget_serve (r.store node output) reader node

theorem forget_evaluateNoted (g : Graph π) (s : Schedule) (terminal : Nat) :
    forget (g.evaluateNoted s terminal) = g.evaluate s terminal :=
  forget_readNoted ..

end Graph

end EventTime
