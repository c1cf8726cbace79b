import EventTime.Attempt

/-!
# Actions that succeed

An action that succeeds in a state hands its answer and the state after it to the action that
follows. What a sequence of actions ensures is put together from what each of them ensures.
-/

namespace EventTime

namespace Attempt

variable {σ ρ τ : Type}

/-- An action succeeds in a state, and its answer and the state after it have a property. -/
def Succeeds (a : Attempt σ ρ) (s : σ) (post : ρ → σ → Prop) : Prop :=
  ∃ r s', a.begin s = (.ok r, s') ∧ post r s'

theorem begin_bind {a : Attempt σ ρ} {s s' : σ} {r : ρ} (h : a.begin s = (.ok r, s'))
    (f : ρ → Attempt σ τ) : Attempt.begin (a >>= f) s = (f r).begin s' := by
  have ha : a s = (.ok r, s') := h
  simp only [Attempt.begin, bind, ExceptT.bind, ExceptT.mk, StateT.bind, ha]
  rfl

theorem begin_bind_error {a : Attempt σ ρ} {s s' : σ} {e : Fault}
    (h : a.begin s = (.error e, s')) (f : ρ → Attempt σ τ) :
    Attempt.begin (a >>= f) s = (.error e, s') := by
  have ha : a s = (.error e, s') := h
  simp only [Attempt.begin, bind, ExceptT.bind, ExceptT.mk, StateT.bind, ha]
  rfl

/-- What follows an action sees of it the answer and the state. -/
theorem begin_bind_congr {a b : Attempt σ ρ} {s : σ} (h : a.begin s = b.begin s)
    (f : ρ → Attempt σ τ) : Attempt.begin (a >>= f) s = Attempt.begin (b >>= f) s := by
  rcases hb : b.begin s with ⟨e | r, s'⟩ <;> rw [hb] at h
  · rw [begin_bind_error h, begin_bind_error hb]
  · rw [begin_bind h, begin_bind hb]

theorem begin_get_bind (f : σ → Attempt σ τ) (s : σ) :
    Attempt.begin (do f (← get)) s = (f s).begin s := rfl

theorem begin_modify_bind (g : σ → σ) (f : Attempt σ τ) (s : σ) :
    Attempt.begin (do modify g; f) s = f.begin (g s) := rfl

theorem begin_lift_bind (r : ρ) (f : ρ → Attempt σ τ) (s : σ) :
    Attempt.begin (do f (← (Except.ok r : Except Fault ρ))) s = (f r).begin s := rfl

theorem begin_lift_error (fault : Fault) (f : ρ → Attempt σ τ) (s : σ) :
    Attempt.begin (do f (← (Except.error fault : Except Fault ρ))) s = (.error fault, s) := rfl

theorem begin_return (a : Attempt σ ρ) (g : ρ → τ) (s : σ) :
    Attempt.begin (do return g (← a)) s = ((a.begin s).1.map g, (a.begin s).2) := by
  cases h : a.begin s with
  | mk r s' =>
    cases r with
    | ok r => exact begin_bind h _
    | error e => exact begin_bind_error h _

theorem Succeeds.bind {a : Attempt σ ρ} {f : ρ → Attempt σ τ} {s : σ} {mid : ρ → σ → Prop}
    {post : τ → σ → Prop} (h : a.Succeeds s mid)
    (hf : ∀ r s', mid r s' → (f r).Succeeds s' post) : Attempt.Succeeds (a >>= f) s post := by
  obtain ⟨r, s', ha, hmid⟩ := h
  obtain ⟨r', s'', hb, hpost⟩ := hf r s' hmid
  exact ⟨r', s'', (begin_bind ha f).trans hb, hpost⟩

/-- An action keeps a property of the state, whether it succeeds or fails. -/
def Keeps (I : σ → Prop) (a : Attempt σ ρ) : Prop := ∀ s, I s → I (a.begin s).2

theorem Keeps.bind {I : σ → Prop} {a : Attempt σ ρ} {f : ρ → Attempt σ τ} (ha : Keeps I a)
    (hf : ∀ r, Keeps I (f r)) : Keeps I (a >>= f) := by
  intro s hs
  have hbefore := ha s hs
  rcases h : a.begin s with ⟨e | r, s'⟩ <;> rw [h] at hbefore
  · rwa [begin_bind_error h]
  · rw [begin_bind h]
    exact hf r s' hbefore

theorem keeps_quiet {I : σ → Prop} {a : Attempt σ ρ} {r : σ → Except Fault ρ}
    (h : ∀ s, a.begin s = (r s, s)) : Keeps I a := by
  intro s hs
  rwa [h]

theorem keeps_pure {I : σ → Prop} (r : ρ) : Keeps I (pure r : Attempt σ ρ) :=
  keeps_quiet fun _ => rfl

theorem keeps_throw {I : σ → Prop} (fault : Fault) : Keeps I (throw fault : Attempt σ ρ) :=
  keeps_quiet fun _ => rfl

/-- What neither of two actions changes, the two in a row do not change. -/
theorem view_bind {υ : Type} (view : σ → υ) {a : Attempt σ ρ} {f : ρ → Attempt σ τ}
    (ha : ∀ s, view (a.begin s).2 = view s) (hf : ∀ r s, view ((f r).begin s).2 = view s) (s : σ) :
    view (Attempt.begin (a >>= f) s).2 = view s :=
  Keeps.bind (I := fun s' => view s' = view s) (fun s' h => (ha s').trans h)
    (fun r s' h => (hf r s').trans h) s rfl

end Attempt

end EventTime
