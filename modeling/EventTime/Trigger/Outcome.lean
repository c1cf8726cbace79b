import EventTime.Windowing.Fn

/-!
# Events and outcomes

What a trigger is told (an element arrived, windows merged, a timer came due) and what it answers.
A `Step` is one evaluation: the state it leaves, whether it wrote to that state, and its answer. A
step that fails still leaves a state; undoing it is the business of whoever keeps the states.
-/

namespace EventTime

variable {σ τ ρ υ : Type}

/-- New data arrived for a window. -/
structure ElementEvent where
  window : Window
  timestamp : Int
  deriving DecidableEq, Repr

/-- A timer scheduled by node `destination` came due. -/
structure TimerEvent where
  window : Window
  destination : Nat
  timestamp : Int
  deriving DecidableEq, Repr

/-- A wake-up scheduled by a node in a window. -/
structure Timer where
  timestamp : Int
  window : Window
  node : Nat
  deriving DecidableEq, Repr

namespace Timer

/-- Timers are ordered by timestamp, then by window, then by node. -/
protected def lt (a b : Timer) : Prop :=
  a.timestamp < b.timestamp ∨ a.timestamp = b.timestamp ∧
    (a.window < b.window ∨ a.window = b.window ∧ a.node < b.node)

instance : LT Timer := ⟨Timer.lt⟩

instance (a b : Timer) : Decidable (a < b) :=
  inferInstanceAs (Decidable (a.timestamp < b.timestamp ∨ a.timestamp = b.timestamp ∧
    (a.window < b.window ∨ a.window = b.window ∧ a.node < b.node)))

def least : List Timer → Option Timer
  | [] => none
  | a :: rest =>
    match least rest with
    | none => some a
    | some b => if b < a then some b else some a

/-- The least of those timers that are strictly before the watermark. -/
def nextDue (watermark : Int) (timers : List Timer) : Option Timer :=
  least (timers.filter fun a => a.timestamp < watermark)

def event (a : Timer) : TimerEvent := ⟨a.window, a.node, a.timestamp⟩

end Timer

/-- The answer to an element or a timer. -/
inductive Outcome
  | idle
  | fire
  | fireAndFinish
  deriving DecidableEq, Repr

def Outcome.fires : Outcome → Bool
  | .idle => false
  | _ => true

def Outcome.finishes : Outcome → Bool
  | .fireAndFinish => true
  | _ => false

/-- The answer to a merge. -/
inductive MergeOutcome
  | idle
  | fire
  | fireAndFinish
  /-- The node had finished in one of the merged windows: it is finished, and nothing fires. -/
  | alreadyFinished
  deriving DecidableEq, Repr

def MergeOutcome.fires : MergeOutcome → Bool
  | .fire => true
  | .fireAndFinish => true
  | _ => false

def MergeOutcome.finishes : MergeOutcome → Bool
  | .fireAndFinish => true
  | .alreadyFinished => true
  | _ => false

/-- An evaluation: the state left behind, whether anything was written, and the answer. -/
structure Step (σ ρ : Type) where
  state : σ
  wrote : Bool
  answer : Except Fault ρ

namespace Step

/-- Answer without touching the state. -/
def quiet (state : σ) (answer : Except Fault ρ) : Step σ ρ := ⟨state, false, answer⟩

/-- Go on with the answer of a step, or stop at its failure; `keep` puts the state the step left
into the larger state. -/
def next (s : Step σ ρ) (keep : σ → τ) (k : σ → ρ → Step τ υ) : Step τ υ :=
  match s.answer with
  | .ok a => { k s.state a with wrote := s.wrote || (k s.state a).wrote }
  | .error e => ⟨keep s.state, s.wrote, .error e⟩

theorem next_ok {s : Step σ ρ} {a : ρ} (h : s.answer = .ok a) (keep : σ → τ)
    (k : σ → ρ → Step τ υ) :
    s.next keep k = { k s.state a with wrote := s.wrote || (k s.state a).wrote } := by
  simp [next, h]

theorem next_error {s : Step σ ρ} {e : Fault} (h : s.answer = .error e) (keep : σ → τ)
    (k : σ → ρ → Step τ υ) : s.next keep k = ⟨keep s.state, s.wrote, .error e⟩ := by
  simp [next, h]

end Step

/-- What one node remembers in one window: whether it has finished, and its memory. -/
structure Slot (σ : Type) where
  finished : Bool
  memory : σ
  deriving DecidableEq, Repr

namespace Slot

/-- The slot of a node that has seen nothing. -/
def start (memory : σ) : Slot σ := ⟨false, memory⟩

/-- Offer an element or a timer to a node: a finished node lets it pass, and an outcome that
finishes is remembered. -/
def offer (s : Slot σ) (run : σ → Step σ Outcome) : Step (Slot σ) Outcome :=
  if s.finished then .quiet s (.ok .idle)
  else
    (run s.memory).next (⟨s.finished, ·⟩) fun m o =>
      ⟨⟨s.finished || o.finishes, m⟩, o.finishes, .ok o⟩

/-- Merge the slots of a node in several windows into its slot in another: if the node had finished
in one of them it is finished without being consulted. -/
def merge (s : Slot σ) (olds : List (Slot σ)) (run : List σ → σ → Step σ MergeOutcome) :
    Step (Slot σ) MergeOutcome :=
  if olds.any (·.finished) then ⟨⟨true, s.memory⟩, true, .ok .alreadyFinished⟩
  else (run (olds.map (·.memory)) s.memory).next (⟨s.finished, ·⟩) fun m o =>
    ⟨⟨s.finished || o.finishes, m⟩, o.finishes, .ok o⟩

end Slot

end EventTime
