import EventTime.Trigger.Basic

/-!
# The numbered tree

The table of a tree's nodes in pre-order: the name, the numbers of the children and the end of the
subtree of each. A node's subtree is the range from its number to its end, which is what routes a
timer. `build` fills the table node by node, and completes the row of a node after its subtree has
been entered.
-/

namespace EventTime

namespace Trigger

/-- One row of the table. -/
structure Node where
  name : String
  children : List Nat
  /-- One past the last number of the subtree. -/
  stop : Nat
  deriving DecidableEq, Repr

def children : Trigger → List Trigger
  | .leaf _ => []
  | .afterFirst ts => ts
  | .repeatedly t => [t]
  | .orFinally a b => [a, b]

/-- The numbers at which several trees start, the first at `node`. -/
def starts : (node : Nat) → List Trigger → List Nat
  | _, [] => []
  | node, t :: ts => node :: starts (node + t.size) ts

def row (t : Trigger) (node : Nat) : Node :=
  ⟨t.name, starts (node + 1) t.children, node + t.size⟩

mutual

def arenaFrom : (node : Nat) → Trigger → List Node
  | node, .leaf l => [row (.leaf l) node]
  | node, .afterFirst ts => row (.afterFirst ts) node :: arenaAmong (node + 1) ts
  | node, .repeatedly t => row (.repeatedly t) node :: arenaFrom (node + 1) t
  | node, .orFinally a b =>
    row (.orFinally a b) node :: (arenaFrom (node + 1) a ++ arenaFrom (node + 1 + a.size) b)

def arenaAmong : (node : Nat) → List Trigger → List Node
  | _, [] => []
  | node, t :: ts => arenaFrom node t ++ arenaAmong (node + t.size) ts

end

/-- The rows of a tree, by number. -/
def arena (t : Trigger) : List Node := t.arenaFrom 0

/-- The row of a node of which no child has been entered yet. -/
def opened (t : Trigger) (node : Nat) : Node := ⟨t.name, [], node + 1⟩

/-- Note a child in the row of its parent. -/
def adopt (rows : Array Node) (parent child : Nat) : Array Node :=
  rows.modify parent fun r => { r with children := r.children ++ [child] }

/-- Note in the row of a node that its subtree ends where the table does. -/
def close (rows : Array Node) (node : Nat) : Array Node :=
  rows.modify node fun r => { r with stop := rows.size }

mutual

/-- Enter a tree at the end of a table: its root, the children below it, and then its end. -/
def enter (rows : Array Node) : Trigger → Array Node
  | .leaf l => close (rows.push (opened (.leaf l) rows.size)) rows.size
  | .afterFirst ts =>
    close (enterAmong rows.size (rows.push (opened (.afterFirst ts) rows.size)) ts) rows.size
  | .repeatedly t =>
    let rows₁ := rows.push (opened (.repeatedly t) rows.size)
    close (adopt (enter rows₁ t) rows.size rows₁.size) rows.size
  | .orFinally a b =>
    let rows₁ := rows.push (opened (.orFinally a b) rows.size)
    let rows₂ := adopt (enter rows₁ a) rows.size rows₁.size
    close (adopt (enter rows₂ b) rows.size rows₂.size) rows.size

/-- Enter trees one after another as the next children of a node. -/
def enterAmong (parent : Nat) (rows : Array Node) : List Trigger → Array Node
  | [] => rows
  | t :: ts => enterAmong parent (adopt (enter rows t) parent rows.size) ts

end

/-- The table of a tree, filled from the root on. -/
def build (t : Trigger) : Array Node := enter #[] t

/-- The child of `node` whose subtree contains `destination`. -/
def nextStep (t : Trigger) (node destination : Nat) : Option Nat :=
  (t.arena[node]?).bind fun row =>
    row.children.find? fun child =>
      child ≤ destination && (t.arena[child]?).any fun r => destination < r.stop

mutual

theorem length_arenaFrom : (t : Trigger) → (node : Nat) → (t.arenaFrom node).length = t.size
  | .leaf _, _ => rfl
  | .afterFirst ts, node => by
    simp only [arenaFrom, size, List.length_cons, length_arenaAmong ts]
    omega
  | .repeatedly t, node => by
    simp only [arenaFrom, size, List.length_cons, length_arenaFrom t]
    omega
  | .orFinally a b, node => by
    simp only [arenaFrom, size, List.length_cons, List.length_append, length_arenaFrom a,
      length_arenaFrom b]
    omega

theorem length_arenaAmong :
    (ts : List Trigger) → (node : Nat) → (arenaAmong node ts).length = sizeAll ts
  | [], _ => rfl
  | t :: ts, node => by
    simp only [arenaAmong, sizeAll, List.length_append, length_arenaFrom t, length_arenaAmong ts]

end

/-- The table has one row for every node. -/
theorem length_arena (t : Trigger) : t.arena.length = t.size := length_arenaFrom t 0

end Trigger

end EventTime
