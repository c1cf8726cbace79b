import Mathlib.Data.Int.LeastGreatest
import EventTime.Window

/-!
# Sessions of windows

A window crosses a point if the point lies strictly inside. A session is a stretch of time whose
inner points are all crossed, whose ends are not, and which has a window in it. Sessions never
overlap, every window lies in one of them, and any tiling of the windows by linked stretches that
do not overlap consists of the sessions.
-/

namespace EventTime

namespace Window

/-- A point lies strictly inside an interval. -/
def Crosses (x : Int) : Window → Prop
  | .global => False
  | .interval a b => a < x ∧ x < b

/-- An interval lies within another one. -/
def Within : Window → Window → Prop
  | .interval a b, .interval p q => p ≤ a ∧ b ≤ q
  | _, _ => False

instance : (u w : Window) → Decidable (u.Within w)
  | .interval a b, .interval p q => inferInstanceAs (Decidable (p ≤ a ∧ b ≤ q))
  | .global, _ => inferInstanceAs (Decidable False)
  | .interval _ _, .global => inferInstanceAs (Decidable False)

def Proper : Window → Prop
  | .global => False
  | .interval a b => minTime ≤ a ∧ a < b ∧ b ≤ maxTime

theorem Within.trans {u v w : Window} (huv : u.Within v) (hvw : v.Within w) : u.Within w := by
  cases u <;> cases v <;> cases w <;> simp only [Within] at *
  omega

theorem within_refl {w : Window} (h : w.Proper) : w.Within w := by
  cases w <;> simp only [Proper, Within] at *
  omega

theorem Crosses.of_within {x : Int} {u w : Window} (h : u.Crosses x) (huw : u.Within w) :
    w.Crosses x := by
  cases u <;> cases w <;> simp only [Crosses, Within] at *
  omega

theorem intersects_comm (u w : Window) : u.intersects w = w.intersects u := by
  cases u <;> cases w <;> simp only [intersects]
  rw [Bool.and_comm]

theorem intersects_self {w : Window} (h : w.Proper) : w.intersects w = true := by
  cases w with
  | global => rfl
  | interval a b =>
    have hab := h.2.1
    simpa [intersects] using hab

theorem intersects_of_within {v u w : Window} (hv : v.Proper) (hu : v.Within u) (hw : v.Within w) :
    u.intersects w = true := by
  cases v <;> cases u <;> cases w <;> simp only [Proper, Within] at *
  simp only [intersects, Bool.and_eq_true, decide_eq_true_eq]
  omega

theorem maxTimestamp_of_proper {p q : Int} (h : (Window.interval p q).Proper) :
    (Window.interval p q).maxTimestamp = q - 1 := by
  simp only [Proper] at h
  exact clamp_of_inRange ⟨by omega, by omega⟩

end Window

/-- A stretch of time in which windows overlap one another, and which none of them leaves. -/
structure IsSession (ws : List Window) (p q : Int) : Prop where
  nonempty : p < q
  linked : ∀ x, p < x → x < q → ∃ w ∈ ws, w.Crosses x
  start_free : ∀ w ∈ ws, ¬w.Crosses p
  stop_free : ∀ w ∈ ws, ¬w.Crosses q
  inhabited : ∃ w ∈ ws, w.Within (.interval p q)

namespace IsSession

variable {ws : List Window} {p q p' q' a b : Int}

theorem eq_of_overlap (h : IsSession ws p q) (h' : IsSession ws p' q') (hpq : p < q')
    (hqp : p' < q) : p = p' ∧ q = q' := by
  have hstart : ∀ {p q p' q'}, IsSession ws p q → IsSession ws p' q' → p' < q → ¬p < p' := by
    intro p q p' q' h h' hlt hlt'
    obtain ⟨w, hw, hcross⟩ := h.linked p' hlt' hlt
    exact h'.start_free w hw hcross
  have hstop : ∀ {p q p' q'}, IsSession ws p q → IsSession ws p' q' → p < q' → ¬q' < q := by
    intro p q p' q' h h' hlt hlt'
    obtain ⟨w, hw, hcross⟩ := h.linked q' hlt hlt'
    exact h'.stop_free w hw hcross
  have h₁ := hstart h h' hqp
  have h₂ := hstart h' h hpq
  have h₃ := hstop h h' hpq
  have h₄ := hstop h' h hqp
  omega

theorem eq_of_within (h : IsSession ws p q) (h' : IsSession ws p' q') {w : Window}
    (hw : w.Proper) (hwp : w.Within (.interval p q)) (hwp' : w.Within (.interval p' q')) :
    p = p' ∧ q = q' := by
  cases w with
  | global => exact hw.elim
  | interval a b =>
    simp only [Window.Proper, Window.Within] at *
    exact h.eq_of_overlap h' (by omega) (by omega)

theorem proper (h : IsSession ws p q) (hws : ∀ w ∈ ws, w.Proper) :
    (Window.interval p q).Proper := by
  obtain ⟨w, hw, hwithin⟩ := h.inhabited
  have hproper := hws w hw
  cases w with
  | global => exact hwithin.elim
  | interval a b =>
    simp only [Window.Proper, Window.Within] at *
    refine ⟨?_, h.nonempty, ?_⟩
    · by_contra hlow
      obtain ⟨u, hu, hcross⟩ := h.linked (p + 1) (by omega) (by omega)
      have hproper' := hws u hu
      cases u <;> simp only [Window.Crosses] at hcross hproper'
      omega
    · by_contra hhigh
      obtain ⟨u, hu, hcross⟩ := h.linked (q - 1) (by omega) (by omega)
      have hproper' := hws u hu
      cases u <;> simp only [Window.Crosses] at hcross hproper'
      omega

theorem within_of_subset {vs : List Window} (h : IsSession ws p q) (h' : IsSession vs p' q')
    (hsub : vs ⊆ ws) (hpq : p < q') (hqp : p' < q) :
    (Window.interval p' q').Within (.interval p q) := by
  constructor
  · by_contra hlt
    obtain ⟨w, hw, hcross⟩ := h'.linked p (by omega) hpq
    exact h.start_free w (hsub hw) hcross
  · by_contra hlt
    obtain ⟨w, hw, hcross⟩ := h'.linked q hqp (by omega)
    exact h.stop_free w (hsub hw) hcross

theorem of_subset {vs : List Window} (h : IsSession ws p q) (hws : ws ⊆ vs) (hvs : vs ⊆ ws) :
    IsSession vs p q := by
  refine ⟨h.nonempty, fun x hp hq => ?_, fun w hw => h.start_free w (hvs hw),
    fun w hw => h.stop_free w (hvs hw), ?_⟩
  · obtain ⟨w, hw, hcross⟩ := h.linked x hp hq
    exact ⟨w, hws hw, hcross⟩
  · obtain ⟨w, hw, hwithin⟩ := h.inhabited
    exact ⟨w, hws hw, hwithin⟩

end IsSession

theorem isSession_perm {ws vs : List Window} (h : ws.Perm vs) {p q : Int} :
    IsSession ws p q ↔ IsSession vs p q :=
  ⟨fun hs => hs.of_subset h.subset h.symm.subset, fun hs => hs.of_subset h.symm.subset h.subset⟩

theorem exists_session {ws : List Window} (hws : ∀ w ∈ ws, w.Proper) {a b : Int}
    (hw : Window.interval a b ∈ ws) :
    ∃ p q, IsSession ws p q ∧ (Window.interval a b).Within (.interval p q) := by
  have hab : a < b := (hws _ hw).2.1
  have hlow : ∀ w ∈ ws, ¬w.Crosses minTime := by
    intro w hw
    have := hws w hw
    cases w <;> simp only [Window.Proper, Window.Crosses] at *
    omega
  have hhigh : ∀ w ∈ ws, ¬w.Crosses maxTime := by
    intro w hw
    have := hws w hw
    cases w <;> simp only [Window.Proper, Window.Crosses] at *
    omega
  obtain ⟨p, ⟨hpa, hp⟩, hpmax⟩ := Int.exists_greatest_of_bdd
    (P := fun x => x ≤ a ∧ ∀ w ∈ ws, ¬w.Crosses x) ⟨a, fun x hx => hx.1⟩
    ⟨minTime, (hws _ hw).1, hlow⟩
  obtain ⟨q, ⟨hbq, hq⟩, hqmin⟩ := Int.exists_least_of_bdd
    (P := fun x => b ≤ x ∧ ∀ w ∈ ws, ¬w.Crosses x) ⟨b, fun x hx => hx.1⟩
    ⟨maxTime, (hws _ hw).2.2, hhigh⟩
  refine ⟨p, q, ⟨by omega, ?_, hp, hq, _, hw, hpa, hbq⟩, hpa, hbq⟩
  intro x hpx hxq
  by_contra hnone
  have hfree : ∀ w ∈ ws, ¬w.Crosses x := fun w hw hc => hnone ⟨w, hw, hc⟩
  -- a point inside the window is crossed by it; one beside it contradicts the choice of its end
  rcases lt_or_ge a x with hax | hxa
  · rcases lt_or_ge x b with hxb | hbx
    · exact hfree _ hw ⟨hax, hxb⟩
    · have := hqmin x ⟨hbx, hfree⟩
      omega
  · have := hpmax x ⟨hxa, hfree⟩
    omega

/-- Linked stretches that do not overlap and in which all windows lie. -/
structure Tiling (ws : List Window) (cell : Window → Prop) : Prop where
  proper : ∀ w, cell w → w.Proper
  linked : ∀ w, cell w → ∀ x, w.Crosses x → ∃ v ∈ ws, v.Crosses x
  inhabited : ∀ w, cell w → ∃ v ∈ ws, v.Within w
  apart : ∀ u w, cell u → cell w → u.intersects w = true → u = w
  cover : ∀ v ∈ ws, ∃ w, cell w ∧ v.Within w

namespace Tiling

variable {ws : List Window} {cell : Window → Prop}

theorem eq_of_within (h : Tiling ws cell) {v u w : Window} (hv : v.Proper) (hu : cell u)
    (hw : cell w) (hvu : v.Within u) (hvw : v.Within w) : u = w :=
  h.apart u w hu hw (Window.intersects_of_within hv hvu hvw)

theorem not_crosses (h : Tiling ws cell) {p q : Int} (hcell : cell (.interval p q)) :
    ∀ w ∈ ws, ¬w.Crosses p ∧ ¬w.Crosses q := by
  intro w hw
  obtain ⟨u, hu, hwu⟩ := h.cover w hw
  have hpq := (h.proper _ hcell).2.1
  have hsame : u.intersects (.interval p q) = true → u = .interval p q := h.apart u _ hu hcell
  cases w with
  | global => exact ⟨id, id⟩
  | interval a b =>
    cases u with
    | global => exact hwu.elim
    | interval c d =>
      simp only [Window.intersects, Bool.and_eq_true, decide_eq_true_eq,
        Window.interval.injEq] at hsame
      simp only [Window.Within] at hwu
      simp only [Window.Crosses]
      omega

/-- The cells of a tiling are the sessions. -/
theorem isSession_iff (h : Tiling ws cell) (hws : ∀ w ∈ ws, w.Proper) {p q : Int} :
    IsSession ws p q ↔ cell (.interval p q) := by
  have hsession : ∀ {p q}, cell (.interval p q) → IsSession ws p q := by
    intro p q hcell
    have hfree := h.not_crosses hcell
    exact ⟨(h.proper _ hcell).2.1, fun x hp hq => h.linked _ hcell x ⟨hp, hq⟩,
      fun w hw => (hfree w hw).1, fun w hw => (hfree w hw).2, h.inhabited _ hcell⟩
  refine ⟨fun hs => ?_, hsession⟩
  obtain ⟨w, hw, hwithin⟩ := hs.inhabited
  obtain ⟨u, hcell, hwithin'⟩ := h.cover w hw
  cases u with
  | global =>
    cases w <;> exact hwithin'.elim
  | interval p' q' =>
    obtain ⟨rfl, rfl⟩ := hs.eq_of_within (hsession hcell) (hws w hw) hwithin hwithin'
    exact hcell

theorem cell_iff {cell' : Window → Prop} (h : Tiling ws cell) (h' : Tiling ws cell')
    (hws : ∀ w ∈ ws, w.Proper) {w : Window} : cell w ↔ cell' w := by
  cases w with
  | global => exact ⟨fun hw => (h.proper _ hw).elim, fun hw => (h'.proper _ hw).elim⟩
  | interval p q => rw [← h.isSession_iff hws, h'.isSession_iff hws]

end Tiling

/-- Windows that hold others and are crossed only where these are have the same sessions. -/
theorem isSession_congr {ws vs : List Window} (hws : ∀ w ∈ ws, w.Proper)
    (hheld : ∀ w ∈ ws, ∃ v ∈ vs, w.Within v) (hholds : ∀ v ∈ vs, ∃ w ∈ ws, w.Within v)
    (hcross : ∀ v ∈ vs, ∀ x, v.Crosses x → ∃ w ∈ ws, w.Crosses x) {p q : Int} :
    IsSession vs p q ↔ IsSession ws p q := by
  have hfree : ∀ x, (∀ v ∈ vs, ¬v.Crosses x) ↔ ∀ w ∈ ws, ¬w.Crosses x := by
    intro x
    constructor
    · intro h w hw hc
      obtain ⟨v, hv, hwv⟩ := hheld w hw
      exact h v hv (hc.of_within hwv)
    · intro h v hv hc
      obtain ⟨w, hw, hc'⟩ := hcross v hv x hc
      exact h w hw hc'
  have hlinked : ∀ x, (∃ v ∈ vs, v.Crosses x) ↔ ∃ w ∈ ws, w.Crosses x := by
    intro x
    have h := not_congr (hfree x)
    push Not at h
    exact h
  constructor
  · intro h
    refine ⟨h.nonempty, fun x hp hq => (hlinked x).mp (h.linked x hp hq),
      (hfree p).mp h.start_free, (hfree q).mp h.stop_free, ?_⟩
    obtain ⟨v, hv, hwithin⟩ := h.inhabited
    obtain ⟨w, hw, hwv⟩ := hholds v hv
    exact ⟨w, hw, hwv.trans hwithin⟩
  · intro h
    have hp := (hfree p).mpr h.start_free
    have hq := (hfree q).mpr h.stop_free
    refine ⟨h.nonempty, fun x hp hq => (hlinked x).mpr (h.linked x hp hq), hp, hq, ?_⟩
    obtain ⟨w, hw, hwithin⟩ := h.inhabited
    obtain ⟨v, hv, hwv⟩ := hheld w hw
    refine ⟨v, hv, ?_⟩
    have hproper := hws w hw
    have hp := hp v hv
    have hq := hq v hv
    cases w <;> cases v <;> simp only [Window.Within, Window.Crosses, Window.Proper] at *
    omega

end EventTime
