import Mathlib.Algebra.Order.Ring.Int
import EventTime.Windowing.Fn

/-!
# Tumbling windows cut the time line

The tumbling window of a timestamp is the one interval of its length that holds the timestamp and
starts at the offset plus a multiple of the length. Two such intervals that share a timestamp are one,
and where one ends the next one starts. Computed on 64-bit words, with a division that truncates, it
is the same window, as long as every intermediate result fits a word; of these results only the
distances of the timestamp and of the start from the offset, and the two ends, can be too large.
-/

namespace EventTime.Window

variable {t u size offset s e : Int}

/-- The window is determined by what it holds, its length and where it may start. -/
theorem tumble_eq_iff (hsize : 0 < size) :
    tumble t size offset = .ok (.interval s e) ↔
      s ≤ t ∧ t < e ∧ e - s = size ∧ size ∣ s - offset := by
  rw [tumble_of_pos hsize]
  simp only [tumbling, Except.ok.injEq, Window.interval.injEq]
  constructor
  · rintro ⟨rfl, rfl⟩
    have hdiv := Int.fmod_add_mul_fdiv (t - offset) size
    have hnonneg := Int.fmod_nonneg_of_pos (t - offset) hsize
    have hlt := Int.fmod_lt_of_pos (t - offset) hsize
    rw [Int.mul_comm] at hdiv
    refine ⟨by omega, by omega, by omega, ?_⟩
    rw [Int.add_sub_cancel]
    exact Int.dvd_mul_left ..
  · rintro ⟨hstart, hstop, hlength, number, hnumber⟩
    -- what is left of `t` after the start is a remainder, so the start is found by division
    have hdiv := ((Int.fdiv_fmod_unique (a := t - offset) (r := t - s) (q := number) hsize).mpr
      ⟨by omega, by omega, by omega⟩).1
    rw [hdiv, Int.mul_comm]
    omega

theorem exists_tumble (hsize : 0 < size) (t offset : Int) :
    ∃ s e, tumble t size offset = .ok (.interval s e) :=
  ⟨_, _, tumble_of_pos hsize⟩

theorem tumble_stop (hsize : 0 < size) (h : tumble t size offset = .ok (.interval s e)) :
    tumble e size offset = .ok (.interval e (e + size)) := by
  obtain ⟨-, -, hlength, hdvd⟩ := (tumble_eq_iff hsize).mp h
  refine (tumble_eq_iff hsize).mpr ⟨by omega, by omega, by omega, ?_⟩
  rw [show e - offset = s - offset + size by omega]
  exact Int.dvd_add hdvd (Int.dvd_refl size)

/-- A timestamp has the window of another one exactly if it lies in that window. -/
theorem tumble_eq_tumble_iff (hsize : 0 < size)
    (h : tumble t size offset = .ok (.interval s e)) :
    tumble u size offset = tumble t size offset ↔ s ≤ u ∧ u < e := by
  obtain ⟨-, -, hlength, hdvd⟩ := (tumble_eq_iff hsize).mp h
  rw [h, tumble_eq_iff hsize]
  simp only [hlength, hdvd, and_true]

/-- Windows that overlap share the later one of their starts. -/
theorem eq_or_apart_of_tumble (hsize : 0 < size) {v w : Window}
    (hv : tumble t size offset = .ok v) (hw : tumble u size offset = .ok w) :
    v = w ∨ v.intersects w = false := by
  obtain ⟨s, e, hv'⟩ := exists_tumble hsize t offset
  obtain ⟨s', e', hw'⟩ := exists_tumble hsize u offset
  obtain rfl := Except.ok.inj (hv.symm.trans hv')
  obtain rfl := Except.ok.inj (hw.symm.trans hw')
  cases hoverlap : (Window.interval s e).intersects (.interval s' e') with
  | false => exact .inr rfl
  | true =>
    simp only [intersects, Bool.and_eq_true, decide_eq_true_eq] at hoverlap
    have hlength := ((tumble_eq_iff hsize).mp hv).2.2.1
    have hlength' := ((tumble_eq_iff hsize).mp hw).2.2.1
    have hshared := (tumble_eq_tumble_iff (u := max s s') hsize hv).mpr (by omega)
    have hshared' := (tumble_eq_tumble_iff (u := max s s') hsize hw).mpr (by omega)
    rw [hshared, hv, hw] at hshared'
    exact .inl (Except.ok.inj hshared')

theorem stored_of_inRange {n : Int} (h : InRange n) : stored n = some n := if_pos h

theorem stored_bind {ρ : Type} (n : Int) (f : Int → Option ρ) :
    (stored n >>= f) = if InRange n then f n else none := by
  rw [stored]
  split <;> rfl

/-- A number between zero and one that fits a word fits a word. -/
theorem inRange_of_natAbs_le {a n : Int} (ha : InRange a) (hsize : n.natAbs ≤ a.natAbs)
    (hpos : 0 ≤ a → 0 ≤ n) (hneg : 0 ≤ -a → 0 ≤ -n) : InRange n := by
  simp only [InRange, minTime, maxTime] at ha ⊢
  omega

theorem inRange_fdiv {a b : Int} (hb : 0 < b) (ha : InRange a) : InRange (a.fdiv b) := by
  rw [Int.fdiv_eq_ediv_of_nonneg a hb.le]
  simp only [InRange, minTime, maxTime] at ha ⊢
  rcases Int.lt_or_le a 0 with hneg | hpos
  · have hlt := Int.ediv_neg_of_neg_of_pos hneg hb
    have hle : a ≤ a / b :=
      (Int.le_ediv_iff_mul_le hb).mpr (mul_le_of_one_le_right hneg.le hb)
    omega
  · have hnonneg := Int.ediv_nonneg hpos hb.le
    have hle := Int.ediv_le_self b hpos
    omega

/-- If the divisor is positive, no number on the way to the quotient is too large for a word. -/
theorem floorDiv?_of_inRange {a b : Int} (hb : 0 < b) (ha : InRange a) :
    floorDiv? a b = some (a.fdiv b) := by
  have hquotient : InRange (a.tdiv b) := by
    refine inRange_of_natAbs_le ha ?_ (Int.tdiv_nonneg · hb.le)
      fun h => Int.neg_tdiv a b ▸ Int.tdiv_nonneg h hb.le
    rw [Int.natAbs_tdiv]
    exact Nat.div_le_self ..
  have hremainder : InRange (a.tmod b) := by
    refine inRange_of_natAbs_le ha ?_ (Int.tmod_nonneg b)
      fun h => Int.neg_tmod a b ▸ Int.tmod_nonneg b h
    rw [Int.natAbs_tmod]
    exact Nat.mod_le ..
  have hdiv := Int.mul_tdiv_add_tmod a b
  have hlt := Int.tmod_lt_of_pos a hb
  have hgt := Int.lt_tmod_of_pos a hb
  rw [floorDiv?, stored_bind, if_pos hquotient, stored_bind, if_pos hremainder]
  split
  next hsign =>
    have hfloor : a.fdiv b = a.tdiv b - 1 := by
      refine ((Int.fdiv_fmod_unique (r := a.tmod b + b) hb).mpr ⟨?_, by omega, by omega⟩).1
      rw [Int.mul_sub]
      omega
    rw [← hfloor]
    exact stored_of_inRange (inRange_fdiv hb ha)
  next hsign =>
    exact congrArg some
      ((Int.fdiv_fmod_unique (r := a.tmod b) hb).mpr ⟨by omega, by omega, by omega⟩).1.symm

/-- Computed on words the window is the same, and it is computed if the way of the timestamp from
the offset, that of the start from the offset, and both ends fit a word. -/
theorem tumble?_eq (hsize : 0 < size) (h : tumble t size offset = .ok (.interval s e)) :
    tumble? t size offset =
      if InRange (t - offset) ∧ InRange (s - offset) ∧ InRange s ∧ InRange e then
        some (.interval s e) else none := by
  rw [tumble_of_pos hsize] at h
  obtain ⟨hstart, hstop⟩ := Window.interval.inj (Except.ok.inj h)
  have hmultiple : (t - offset).fdiv size * size = s - offset := by omega
  rw [hstart] at hstop
  rw [tumble?, stored_bind]
  by_cases hdistance : InRange (t - offset)
  · simp only [hdistance, if_true, true_and, floorDiv?_of_inRange hsize hdistance, stored_bind,
      Option.bind_eq_bind, Option.bind_some, hmultiple, Int.sub_add_cancel, hstop, ite_and]
    rfl
  · rw [if_neg hdistance, if_neg fun h => hdistance h.1]

theorem tumble_of_tumble? (hsize : 0 < size) {w : Window} (h : tumble? t size offset = some w) :
    tumble t size offset = .ok w := by
  obtain ⟨s, e, htumble⟩ := exists_tumble hsize t offset
  rw [tumble?_eq hsize htumble] at h
  exact htumble.trans (congrArg Except.ok (Option.some.inj (Option.ite_none_right_eq_some.mp h).2))

/-- Fixed windows of one size and offset cut the time line. Every timestamp has one window: it holds
the timestamp, has the size as its length, starts at the offset plus a multiple of the size, and the
next one starts where it ends. Two timestamps have the same window exactly if one lies in the window
of the other, and different windows do not overlap. On words the window is the same, and a timestamp
is assigned it, unless a number on the way to it does not fit. -/
theorem tumble_tiles (hsize : 0 < size) (offset : Int) :
    (∀ t, ∃ s e, tumble t size offset = .ok (.interval s e) ∧
      s ≤ t ∧ t < e ∧ e - s = size ∧ size ∣ s - offset ∧
      tumble e size offset = .ok (.interval e (e + size)) ∧
      ((tumble? t size offset).isSome ↔
        InRange (t - offset) ∧ InRange (s - offset) ∧ InRange s ∧ InRange e)) ∧
    (∀ t u s e, tumble t size offset = .ok (.interval s e) →
      (tumble u size offset = tumble t size offset ↔ s ≤ u ∧ u < e)) ∧
    (∀ t u v w, tumble t size offset = .ok v → tumble u size offset = .ok w →
      v = w ∨ v.intersects w = false) ∧
    (∀ t w, tumble? t size offset = some w →
      tumble t size offset = .ok w ∧ (WindowFn.fixed size offset).assign t = .ok [w]) ∧
    ∀ t, tumble? t size offset = none →
      (WindowFn.fixed size offset).assign t = .error .overflow := by
  refine ⟨fun t => ?_, fun t u s e => tumble_eq_tumble_iff hsize,
    fun t u v w => eq_or_apart_of_tumble hsize, fun t w h => ⟨tumble_of_tumble? hsize h, ?_⟩,
    fun t => WindowFn.assign_fixed_of_none (by omega)⟩
  · obtain ⟨s, e, h⟩ := exists_tumble hsize t offset
    obtain ⟨hstart, hstop, hlength, hdvd⟩ := (tumble_eq_iff hsize).mp h
    refine ⟨s, e, h, hstart, hstop, hlength, hdvd, tumble_stop hsize h, ?_⟩
    rw [tumble?_eq hsize h, Option.isSome_ite]
  · exact WindowFn.assign_fixed_of_some (by omega) h

/-- An offset beyond the size, a timestamp before it at an exact multiple, and the one before that.
The window of the first timestamp of all starts before the beginning of time. -/
theorem tumble_tiles_of_early :
    (0 : Int) < 10 ∧ tumble? (-15) 10 25 = some (.interval (-15) (-5)) ∧
      tumble (-15) 10 25 = .ok (.interval (-15) (-5)) ∧
      (WindowFn.fixed 10 25).assign (-15) = .ok [.interval (-15) (-5)] ∧
      tumble (-6) 10 25 = tumble (-15) 10 25 ∧ tumble (-16) 10 25 ≠ tumble (-15) 10 25 ∧
      (WindowFn.fixed 10 0).assign minTime = .error .overflow := by
  have hsize : (0 : Int) < 10 := by decide
  obtain ⟨-, hsame, -, hwords, -⟩ := tumble_tiles hsize 25
  have hcomputed : tumble? (-15) 10 25 = some (.interval (-15) (-5)) := by decide
  obtain ⟨hwindow, hassign⟩ := hwords _ _ hcomputed
  exact ⟨hsize, hcomputed, hwindow, hassign, (hsame _ _ _ _ hwindow).mpr (by decide),
    fun heq => absurd ((hsame _ _ _ _ hwindow).mp heq) (by decide),
    (tumble_tiles hsize 0).2.2.2.2 minTime (by decide)⟩

end EventTime.Window
