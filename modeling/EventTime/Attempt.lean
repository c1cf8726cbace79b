import EventTime.Fault

/-!
# Actions that may fail half way

An attempt acts on a state and may fail; what it did to the state before failing stays done.
-/

namespace EventTime

/-- An action on a state that may fail and keeps what it did before failing. -/
abbrev Attempt (σ ρ : Type) : Type := ExceptT Fault (StateM σ) ρ

namespace Attempt

variable {σ ρ : Type}

def of (f : σ → Except Fault ρ × σ) : Attempt σ ρ := f

/-- The answer of an action begun in a state, and the state after it. -/
def begin (a : Attempt σ ρ) (s : σ) : Except Fault ρ × σ := a s

end Attempt

end EventTime
