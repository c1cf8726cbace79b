import Mathlib.Data.List.Perm.Basic
import EventTime.Proofs.Splits

/-!
# Computations that may fail

A fold or a map over a list fails with its first step that does. One that succeeds has succeeded at
every step, so what its steps preserve holds in the end, and its results stand beside the elements
one by one.
-/

namespace EventTime

variable {ε α β γ : Type}

theorem ok_of_bind {x : Except ε α} {f : α → Except ε β} {b : β} (h : x >>= f = .ok b) :
    ∃ a, x = .ok a ∧ f a = .ok b := by
  cases x with
  | ok a => exact ⟨a, rfl, h⟩
  | error e => cases h

theorem ok_of_map {x : Except ε α} {f : α → β} {b : β} (h : x.map f = .ok b) :
    ∃ a, x = .ok a ∧ f a = b := by
  cases x with
  | ok a => exact ⟨a, rfl, Except.ok.inj h⟩
  | error e => cases h

section

variable {l : List α}

/-- If every step succeeds and preserves an invariant, so does the fold. -/
theorem foldlM_rule (step : β → α → Except ε β) (I : List α → β → Prop)
    (hstep : ∀ front a back b, l = front ++ a :: back → I front b →
      ∃ b', step b a = .ok b' ∧ I (front ++ [a]) b') {b : β} (hb : I [] b) :
    ∃ b', l.foldlM step b = .ok b' ∧ I l b' := by
  have aux : ∀ back front b, l = front ++ back → I front b →
      ∃ b', back.foldlM step b = .ok b' ∧ I l b' := by
    intro back
    induction back with
    | nil =>
      intro front b hl hb
      rw [List.append_nil] at hl
      exact ⟨b, rfl, hl ▸ hb⟩
    | cons a back ih =>
      intro front b hl hb
      obtain ⟨b', hs, hI⟩ := hstep front a back b hl hb
      obtain ⟨b'', hfold, hI'⟩ := ih (front ++ [a]) b' (by simp [hl]) hI
      exact ⟨b'', by rw [List.foldlM_cons, hs]; exact hfold, hI'⟩
  exact aux l [] b rfl hb

/-- What every step that succeeds preserves holds after the whole fold. -/
theorem foldlM_preserves {step : β → α → Except ε β} (I : List α → β → Prop)
    (hstep : ∀ front a back b b', l = front ++ a :: back → I front b →
      step b a = .ok b' → I (front ++ [a]) b') {b b' : β} (hb : I [] b)
    (h : l.foldlM step b = .ok b') : I l b' := by
  have aux : ∀ back front b, l = front ++ back → I front b → back.foldlM step b = .ok b' →
      I l b' := by
    intro back
    induction back with
    | nil =>
      intro front b hl hb h
      rw [List.append_nil] at hl
      exact hl ▸ Except.ok.inj h ▸ hb
    | cons a back ih =>
      intro front b hl hb h
      rw [List.foldlM_cons] at h
      obtain ⟨b₁, hone, hrest⟩ := ok_of_bind h
      exact ih (front ++ [a]) b₁ (by simp [hl]) (hstep front a back b b₁ hl hb hone) hrest
  exact aux l [] b rfl hb h

/-- A fold whose steps are those of another one, seen through a map. -/
theorem map_foldlM {step : β → α → Except ε β} {k : γ → α → Except ε γ} (f : β → γ)
    (h : ∀ b a, (step b a).map f = k (f b) a) (l : List α) (b : β) :
    (l.foldlM step b).map f = l.foldlM k (f b) := by
  induction l generalizing b with
  | nil => rfl
  | cons a rest ih =>
    rw [List.foldlM_cons, List.foldlM_cons, ← h]
    cases step b a with
    | error e => rfl
    | ok b' => exact ih b'

end

theorem mapM_ok (f : α → β) (l : List α) :
    l.mapM (fun a => (.ok (f a) : Except ε β)) = .ok (l.map f) := by
  induction l with
  | nil => rfl
  | cons a rest ih =>
    rw [List.mapM_cons, ih]
    rfl

theorem mapM_singleton (f : α → Except ε β) (a : α) : [a].mapM f = (f a).map ([·]) := by
  rw [List.mapM_cons]
  cases f a with
  | error e => rfl
  | ok b => rfl

theorem mapM_of_forall₂ {r : α → β → Prop} {q : α → γ → Prop} {g : β → Except ε γ} {l : List α}
    {m : List β} (h : List.Forall₂ r l m) (hg : ∀ a b, r a b → ∃ c, g b = .ok c ∧ q a c) :
    ∃ out, m.mapM g = .ok out ∧ List.Forall₂ q l out := by
  induction h with
  | nil => exact ⟨[], rfl, .nil⟩
  | cons hab _ ih =>
    obtain ⟨c, hc, hr⟩ := hg _ _ hab
    obtain ⟨out, hout, hall⟩ := ih
    refine ⟨c :: out, ?_, .cons hr hall⟩
    rw [List.mapM_cons, hc, hout]
    rfl

section

variable {f : α → Except ε β} {l : List α}

theorem forall₂_of_mapM {out : List β} (h : l.mapM f = .ok out) :
    List.Forall₂ (fun a b => f a = .ok b) l out := by
  induction l generalizing out with
  | nil =>
    cases h
    exact .nil
  | cons a rest ih =>
    rw [List.mapM_cons] at h
    obtain ⟨b, hb, h⟩ := ok_of_bind h
    obtain ⟨others, hothers, h⟩ := ok_of_bind h
    obtain rfl := Except.ok.inj h
    exact .cons hb (ih hothers)

/-- A map that succeeds does so over the elements in any other order, with the same results in another
order. -/
theorem mapM_of_perm {l' : List α} (hperm : l'.Perm l) {out : List β} (h : l.mapM f = .ok out) :
    ∃ out', l'.mapM f = .ok out' ∧ out'.Perm out := by
  obtain ⟨out', hall, hperm'⟩ := List.perm_comp_forall₂ hperm (forall₂_of_mapM h)
  obtain ⟨made, hmade, hsame⟩ := mapM_of_forall₂ (q := fun b b' => b = b') hall.flip
    fun b a hab => ⟨b, hab, rfl⟩
  rw [List.forall₂_eq_eq_eq] at hsame
  exact ⟨out', hsame ▸ hmade, hperm'⟩

theorem exists_ok_of_mapM {out : List β} (h : l.mapM f = .ok out) : ∀ a ∈ l, ∃ b, f a = .ok b := by
  intro a ha
  obtain ⟨b, -, hb⟩ := exists_mem_right (forall₂_of_mapM h) ha
  exact ⟨b, hb⟩

theorem exists_error_of_mem {a : α} (ha : a ∈ l) {e : ε} (h : f a = .error e) :
    ∃ e', l.mapM f = .error e' := by
  cases hmap : l.mapM f with
  | error e' => exact ⟨e', rfl⟩
  | ok out =>
    obtain ⟨b, hb⟩ := exists_ok_of_mapM hmap a ha
    rw [h] at hb
    cases hb

end

end EventTime
