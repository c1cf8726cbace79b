import EventTime.Trigger.Basic

/-!
# Evaluating a trigger tree

How a tree reacts to an element, a merge and a timer in one window. Composites offer the event to
their children through `Slot.offer` and `Slot.merge`, which keep the finished bits; a child's
failure is the composite's, with whatever the child had already written.
-/

namespace EventTime

namespace Trigger

mutual

/-- React to an element; `node` is the number of the root. -/
def onElement (e : ElementEvent) :
    (t : Trigger) → (node : Nat) → t.Memory → Step t.Memory Outcome
  | .leaf l, node, c => (l.onElement node e c).step c
  | .afterFirst ts, node, m => onElementAmong e ts (node + 1) m
  | .repeatedly t, node, m =>
    (Slot.offer m (onElement e t (node + 1))).next id fun s o =>
      if o.finishes then ⟨Slot.start t.blank, true, .ok .fire⟩
      else .quiet s (.ok (if o.fires then .fire else .idle))
  | .orFinally a b, node, m =>
    (Slot.offer m.1 (onElement e a (node + 1))).next (·, m.2) fun sa oa =>
      (Slot.offer m.2 (onElement e b (node + 1 + a.size))).next (sa, ·) fun sb ob =>
        .quiet (sa, sb) (.ok (if ob.fires then .fireAndFinish else oa))

/-- Offer an element to several trees in turn, until one fires. -/
def onElementAmong (e : ElementEvent) :
    (ts : List Trigger) → (node : Nat) → Memories ts → Step (Memories ts) Outcome
  | [], _, m => .quiet m (.ok .idle)
  | t :: ts, node, m =>
    (Slot.offer m.1 (onElement e t node)).next (·, m.2) fun s o =>
      if o.fires then .quiet (s, m.2) (.ok .fireAndFinish)
      else (onElementAmong e ts (node + t.size) m.2).next (s, ·) fun rest o =>
        .quiet (s, rest) (.ok o)

end

mutual

/-- React to a merge; `olds` are the memories of the merged windows. -/
def onMerge (e : Merge) :
    (t : Trigger) → (node : Nat) → (olds : List t.Memory) → t.Memory → Step t.Memory MergeOutcome
  | .leaf l, node, olds, c => (l.onMerge node e olds c).step c
  | .afterFirst ts, node, olds, m => onMergeAmong e ts (node + 1) olds false m
  | .repeatedly t, node, olds, m =>
    (Slot.merge m olds (onMerge e t (node + 1))).next id fun s o =>
      if o.finishes then ⟨Slot.start t.blank, true, .ok (if o.fires then .fire else .idle)⟩
      else .quiet s (.ok (if o.fires then .fire else .idle))
  | .orFinally a b, node, olds, m =>
    (Slot.merge m.1 (olds.map (·.1)) (onMerge e a (node + 1))).next (·, m.2) fun sa oa =>
      (Slot.merge m.2 (olds.map (·.2)) (onMerge e b (node + 1 + a.size))).next (sa, ·) fun sb ob =>
        .quiet (sa, sb) <| .ok <|
          if ob = .alreadyFinished then .alreadyFinished
          else if ob.fires then .fireAndFinish else oa

/-- Merge several trees in turn, until one had already finished; `fired` tells whether an earlier
one fired. -/
def onMergeAmong (e : Merge) :
    (ts : List Trigger) → (node : Nat) → (olds : List (Memories ts)) → (fired : Bool) →
      Memories ts → Step (Memories ts) MergeOutcome
  | [], _, _, fired, m => .quiet m (.ok (if fired then .fireAndFinish else .idle))
  | t :: ts, node, olds, fired, m =>
    (Slot.merge m.1 (olds.map (·.1)) (onMerge e t node)).next (·, m.2) fun s o =>
      if o = .alreadyFinished then .quiet (s, m.2) (.ok .alreadyFinished)
      else (onMergeAmong e ts (node + t.size) (olds.map (·.2)) (fired || o.fires) m.2).next (s, ·)
        fun rest o => .quiet (s, rest) (.ok o)

end

/-- Whether the subtree of `t` that starts at `node` contains the node `destination`. -/
def Leads (t : Trigger) (node destination : Nat) : Prop :=
  node ≤ destination ∧ destination < node + t.size

instance (t : Trigger) (node destination : Nat) : Decidable (Leads t node destination) :=
  inferInstanceAs (Decidable (_ ∧ _))

mutual

/-- React to a timer. A composite that is addressed itself refuses the timer. A choice of the first
and a tree with a last child route it to the child whose subtree holds the destination; a repeated
child gets every timer. -/
def onTimer (e : TimerEvent) : (t : Trigger) → (node : Nat) → t.Memory → Step t.Memory Outcome
  | .leaf l, node, c => (l.onTimer node e c).step c
  | .afterFirst ts, node, m =>
    if e.destination = node then .quiet m (.error (.timerAtComposite "AfterFirst" node))
    else onTimerAmong e node ts (node + 1) m
  | .repeatedly t, node, m =>
    if e.destination = node then .quiet m (.error (.timerAtComposite "Repeatedly" node))
    else
      (Slot.offer m (onTimer e t (node + 1))).next id fun s o =>
        if o.finishes then ⟨Slot.start t.blank, true, .ok .fire⟩
        else .quiet s (.ok (if o.fires then .fire else .idle))
  | .orFinally a b, node, m =>
    if e.destination = node then .quiet m (.error (.timerAtComposite "OrFinally" node))
    else if Leads a (node + 1) e.destination then
      (Slot.offer m.1 (onTimer e a (node + 1))).next (·, m.2) fun s o => .quiet (s, m.2) (.ok o)
    else if Leads b (node + 1 + a.size) e.destination then
      (Slot.offer m.2 (onTimer e b (node + 1 + a.size))).next (m.1, ·) fun s o =>
        .quiet (m.1, s) (.ok (if o.fires then .fireAndFinish else o))
    else .quiet m (.error (.noPathToTimer node e.destination))

/-- Route a timer to the tree that holds its destination; `parent` is the node that routes it. -/
def onTimerAmong (e : TimerEvent) (parent : Nat) :
    (ts : List Trigger) → (node : Nat) → Memories ts → Step (Memories ts) Outcome
  | [], _, m => .quiet m (.error (.noPathToTimer parent e.destination))
  | t :: ts, node, m =>
    if Leads t node e.destination then
      (Slot.offer m.1 (onTimer e t node)).next (·, m.2) fun s o =>
        .quiet (s, m.2) (.ok (if o.fires then .fireAndFinish else .idle))
    else
      (onTimerAmong e parent ts (node + t.size) m.2).next (m.1, ·) fun rest o =>
        .quiet (m.1, rest) (.ok o)

end

end Trigger

end EventTime
