import EventTime.Trigger.Leaf

/-!
# Trigger trees

A trigger is a tree of composites over leaves. The nodes of a tree are numbered in pre-order, so a
subtree that starts at node `i` occupies the numbers from `i` to `i + size`. `Trigger.Memory` is
what a tree remembers in one window below its root's slot: a cell for a leaf, and the slots of the
children for a composite.
-/

namespace EventTime

/-- A firing policy built from leaves. -/
inductive Trigger
  | leaf (policy : Leaf)
  /-- Fire and finish as soon as any child fires. -/
  | afterFirst (children : List Trigger)
  /-- Run the child over and over, and never finish. -/
  | repeatedly (child : Trigger)
  /-- Behave like `main` until `last` fires; then fire and finish. -/
  | orFinally (main last : Trigger)

namespace Trigger

/-- Fire and finish once a window has seen `count` elements. -/
abbrev afterCount (count : Nat) : Trigger := .leaf (.afterCount count)

/-- Fire and finish when the watermark passes the end of the window. -/
abbrev afterWatermark : Trigger := .leaf .afterWatermark

/-- The trigger every collection starts with. -/
abbrev endOfWindow : Trigger := .leaf .endOfWindow

/-- The first of several triggers to fire; there must be at least two. -/
def firstOf (children : List Trigger) : Except Fault Trigger :=
  if children.length < 2 then .error (.tooFewSubTriggers "AfterFirst" 2 children.length)
  else .ok (.afterFirst children)

/-- Repeat `child` until `last` fires. -/
def repeatedUntil (child last : Trigger) : Trigger := .orFinally (.repeatedly child) last

def name : Trigger → String
  | .leaf l => l.name
  | .afterFirst _ => "AfterFirst"
  | .repeatedly _ => "Repeatedly"
  | .orFinally _ _ => "OrFinally"

/-- Whether this is the plain end-of-window trigger. -/
def isDefault : Trigger → Bool
  | .leaf .endOfWindow => true
  | _ => false

mutual

def size : Trigger → Nat
  | .leaf _ => 1
  | .afterFirst ts => 1 + sizeAll ts
  | .repeatedly t => 1 + size t
  | .orFinally a b => 1 + size a + size b

def sizeAll : List Trigger → Nat
  | [] => 0
  | t :: ts => size t + sizeAll ts

end

mutual

/-- The latest event time at which the tree is still sure not to have fired for `w`: that of the
child that may fire first. -/
def cutoff (w : Window) : Trigger → Int
  | .leaf l => l.cutoff w
  | .afterFirst ts => cutoffAll w ts
  | .repeatedly t => cutoff w t
  | .orFinally a b => min (cutoff w a) (cutoff w b)

def cutoffAll (w : Window) : List Trigger → Int
  | [] => maxTime
  | t :: ts => min (cutoff w t) (cutoffAll w ts)

end

mutual

/-- Whether every leaf is built in, and every choice of the first has at least two children. -/
def isBuiltIn : Trigger → Bool
  | .leaf l => l.isBuiltIn
  | .afterFirst ts => 2 ≤ ts.length && isBuiltInAll ts
  | .repeatedly t => isBuiltIn t
  | .orFinally a b => isBuiltIn a && isBuiltIn b

def isBuiltInAll : List Trigger → Bool
  | [] => true
  | t :: ts => isBuiltIn t && isBuiltInAll ts

end

mutual

/-- What a tree remembers in one window, the root's finished bit apart. -/
def Memory : Trigger → Type
  | .leaf _ => Cell
  | .afterFirst ts => Memories ts
  | .repeatedly t => Slot (Memory t)
  | .orFinally a b => Slot (Memory a) × Slot (Memory b)

def Memories : List Trigger → Type
  | [] => Unit
  | t :: ts => Slot (Memory t) × Memories ts

end

/-- What a tree remembers in one window. -/
abbrev State (t : Trigger) : Type := Slot t.Memory

mutual

/-- The memory of a tree that has seen nothing. -/
def blank : (t : Trigger) → t.Memory
  | .leaf _ => ({} : Cell)
  | .afterFirst ts => blanks ts
  | .repeatedly t => Slot.start (blank t)
  | .orFinally a b => (Slot.start (blank a), Slot.start (blank b))

def blanks : (ts : List Trigger) → Memories ts
  | [] => ()
  | t :: ts => (Slot.start (blank t), blanks ts)

end

def fresh (t : Trigger) : t.State := Slot.start t.blank

/-- The number of a node, if its slot is finished. -/
def finishedAt {σ : Type} (node : Nat) (s : Slot σ) : List Nat :=
  if s.finished then [node] else []

mutual

/-- The finished nodes below the root that has number `node`, ascending. -/
def finishedBelow : (t : Trigger) → (node : Nat) → t.Memory → List Nat
  | .leaf _, _, _ => []
  | .afterFirst ts, node, m => finishedAmong ts (node + 1) m
  | .repeatedly t, node, m => finishedAt (node + 1) m ++ finishedBelow t (node + 1) m.memory
  | .orFinally a b, node, m =>
    finishedAt (node + 1) m.1 ++ finishedBelow a (node + 1) m.1.memory ++
      (finishedAt (node + 1 + a.size) m.2 ++ finishedBelow b (node + 1 + a.size) m.2.memory)

/-- The finished nodes of several trees, of which the first has number `node`. -/
def finishedAmong : (ts : List Trigger) → (node : Nat) → Memories ts → List Nat
  | [], _, _ => []
  | t :: ts, node, m =>
    finishedAt node m.1 ++ finishedBelow t node m.1.memory ++ finishedAmong ts (node + t.size) m.2

end

def finishedNodes (t : Trigger) (s : t.State) : List Nat :=
  finishedAt 0 s ++ finishedBelow t 0 s.memory

mutual

/-- The pending timers of the tree whose root has number `node`, each with its node. -/
def timersFrom : (t : Trigger) → (node : Nat) → t.Memory → List (Int × Nat)
  | .leaf _, node, c => (Cell.timers c).map fun timestamp => (timestamp, node)
  | .afterFirst ts, node, m => timersAmong ts (node + 1) m
  | .repeatedly t, node, m => timersFrom t (node + 1) m.memory
  | .orFinally a b, node, m =>
    timersFrom a (node + 1) m.1.memory ++ timersFrom b (node + 1 + a.size) m.2.memory

/-- The pending timers of several trees, of which the first has number `node`. -/
def timersAmong : (ts : List Trigger) → (node : Nat) → Memories ts → List (Int × Nat)
  | [], _, _ => []
  | t :: ts, node, m => timersFrom t node m.1.memory ++ timersAmong ts (node + t.size) m.2

end

mutual

/-- The memory without the timer that node `target` has at `timestamp`. -/
def cancelFrom (timestamp : Int) (target : Nat) : (t : Trigger) → (node : Nat) → t.Memory → t.Memory
  | .leaf _, node, c => if node = target then Cell.cancel c timestamp else c
  | .afterFirst ts, node, m => cancelAmong timestamp target ts (node + 1) m
  | .repeatedly t, node, m => { m with memory := cancelFrom timestamp target t (node + 1) m.memory }
  | .orFinally a b, node, m =>
    ({ m.1 with memory := cancelFrom timestamp target a (node + 1) m.1.memory },
      { m.2 with memory := cancelFrom timestamp target b (node + 1 + a.size) m.2.memory })

/-- The slots of several trees without the timer that node `target` has at `timestamp`. -/
def cancelAmong (timestamp : Int) (target : Nat) :
    (ts : List Trigger) → (node : Nat) → Memories ts → Memories ts
  | [], _, m => m
  | t :: ts, node, m =>
    ({ m.1 with memory := cancelFrom timestamp target t node m.1.memory },
      cancelAmong timestamp target ts (node + t.size) m.2)

end

end Trigger

end EventTime
