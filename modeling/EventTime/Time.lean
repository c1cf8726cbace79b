/-!
# Event time

A timestamp is an `Int`, in milliseconds since the epoch. Only the range between `minTime` and
`maxTime` can be stored in a 64-bit word; `clamp` brings a sum back into that range, and addition
that may leave it goes through `later`.
-/

namespace EventTime

/-- The smallest event time. -/
def minTime : Int := -9223372036854775808

/-- The largest event time, where the watermark stands once all input has been read. -/
def maxTime : Int := 9223372036854775807

def InRange (t : Int) : Prop := minTime ≤ t ∧ t ≤ maxTime

instance (t : Int) : Decidable (InRange t) :=
  inferInstanceAs (Decidable (minTime ≤ t ∧ t ≤ maxTime))

/-- The storable timestamp nearest to `t`. -/
def clamp (t : Int) : Int := max minTime (min t maxTime)

/-- The time `d` milliseconds after `t`, stopping at the ends of time. -/
def later (t : Int) (d : Int) : Int := clamp (t + d)

theorem clamp_of_inRange {t : Int} (h : InRange t) : clamp t = t := by
  simp only [InRange] at h
  simp only [clamp]
  omega

theorem inRange_clamp (t : Int) : InRange (clamp t) := by
  simp only [InRange, clamp, minTime, maxTime]
  omega

theorem clamp_mono {s t : Int} (h : s ≤ t) : clamp s ≤ clamp t := by
  simp only [clamp]
  omega

theorem later_of_inRange {t : Int} {d : Int} (h : InRange (t + d)) : later t d = t + d :=
  clamp_of_inRange h

theorem inRange_later (t : Int) (d : Int) : InRange (later t d) :=
  inRange_clamp _

end EventTime
