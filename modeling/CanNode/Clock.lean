/-!
# Time

Times and durations count microseconds in 64 bits.  `toNat_after` says that a deadline is the
sum of its parts, or the end of time if the sum lies beyond it.
-/

namespace CanNode

/-- A point in time, or a duration. -/
abbrev Micros := UInt64

namespace Micros

def endOfTime : Nat := 0xFFFFFFFFFFFFFFFF

/-- The time a duration after `start`, which is never past the end of time. -/
def after (start duration : Micros) : Micros :=
  UInt64.ofNat (min (start.toNat + duration.toNat) endOfTime)

theorem toNat_after (start duration : Micros) :
    (after start duration).toNat = min (start.toNat + duration.toNat) endOfTime := by
  have hle : min (start.toNat + duration.toNat) endOfTime ≤ endOfTime := Nat.min_le_right ..
  rw [after, UInt64.toNat_ofNat', Nat.mod_eq_of_lt]
  exact Nat.lt_of_le_of_lt hle (by decide)

end Micros

/-- A clock that can be read.  A reading may change the clock's state. -/
class Clock (κ : Type) where
  read : κ → Micros × κ

end CanNode
