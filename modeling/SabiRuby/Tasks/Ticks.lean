import Mathlib.Data.Int.Basic
import Mathlib.Algebra.Group.Nat.Defs
import Mathlib.Algebra.Group.Int.Defs

/-!
# The wrapping clock

The scheduler's clock is a 32-bit count of ticks that wraps.  A deadline is read
against it by the signed difference, so it lies at most half a turn ahead; the
largest count says that there is no deadline at all.
-/

namespace SabiRuby.Tasks

/-- Milliseconds a tick stands for. -/
def TICK_UNIT_MS : Nat := 4

/-- The value of a wakeup field that says there is none, `u32::MAX`. -/
def NO_WAKEUP : UInt32 := 4294967295

/-- How far ahead of the clock a deadline lies: the wrapping difference read as
a signed number. -/
def ahead (deadline now : UInt32) : Int := (deadline - now).toInt32.toInt

/-- A deadline never equals the value that says there is none. -/
def normalize (deadline : UInt32) : UInt32 :=
  if deadline = NO_WAKEUP then NO_WAKEUP - 1 else deadline

theorem ahead_eq (deadline now : UInt32) :
    ahead deadline now =
      ((deadline.toNat : Int) - now.toNat).bmod (2 ^ 32) := by
  have read : ahead deadline now =
      ((deadline - now).toNat : Int).bmod (2 ^ 32) :=
    BitVec.toInt_eq_toNat_bmod (deadline - now).toBitVec
  rw [read, UInt32.toNat_sub]
  have := deadline.toNat_lt
  have := now.toNat_lt
  simp only [Int.bmod_def]
  omega

theorem ahead_lt (deadline now : UInt32) : ahead deadline now < 2 ^ 31 := by
  rw [ahead_eq, Int.bmod_def]
  split <;> omega

/-- A distance is the wrapping difference when it is small enough to be one. -/
theorem ahead_unique
    {deadline now : UInt32} {distance : Int}
    (turn : ((deadline.toNat : Int) - now.toNat - distance) % 2 ^ 32 = 0)
    (low : -2 ^ 31 ≤ distance)
    (high : distance < 2 ^ 31) : ahead deadline now = distance := by
  rw [ahead_eq, Int.bmod_def]
  split <;> omega

theorem ahead_turn (deadline now : UInt32) :
    ((deadline.toNat : Int) - now.toNat - ahead deadline now) % 2 ^ 32 = 0 := by
  rw [ahead_eq, Int.bmod_def]
  split <;> omega

/-- Moving the clock brings a deadline nearer by as much. -/
theorem ahead_add
    (deadline now ticks : UInt32)
    (near : -2 ^ 31 ≤ ahead deadline now - ticks.toNat) :
    ahead deadline (now + ticks) = ahead deadline now - ticks.toNat := by
  have turn := ahead_turn deadline now
  have high := ahead_lt deadline now
  refine ahead_unique ?_ near (by omega)
  rw [UInt32.toNat_add]
  omega

/-- A deadline set from the clock lies as far ahead as it was set. -/
theorem ahead_of_add
    (now ticks : UInt32)
    (short : ticks.toNat < 2 ^ 31) :
    ahead (now + ticks) now = ticks.toNat := by
  refine ahead_unique ?_ (by omega) (by omega)
  rw [UInt32.toNat_add]
  omega

theorem ahead_injective
    (same : ahead first now = ahead second now) : first = second := by
  have firstTurn := ahead_turn first now
  have secondTurn := ahead_turn second now
  have := first.toNat_lt
  have := second.toNat_lt
  apply UInt32.toNat_inj.mp
  omega

/-- The distance between two deadlines is the difference of their distances
from the clock, as long as that is no more than half a turn. -/
theorem ahead_between
    (now : UInt32)
    (low : -2 ^ 31 ≤ ahead first now - ahead second now)
    (high : ahead first now - ahead second now < 2 ^ 31) :
    ahead first second = ahead first now - ahead second now := by
  have firstTurn := ahead_turn first now
  have secondTurn := ahead_turn second now
  exact ahead_unique (by omega) low high

theorem normalize_ne (deadline : UInt32) : normalize deadline ≠ NO_WAKEUP := by
  unfold normalize
  split
  · decide
  · assumption

/-- A deadline is moved back by one tick where it would be the largest count. -/
theorem ahead_normalize
    (now ticks : UInt32)
    (short : ticks.toNat < 2 ^ 31) :
    ahead (normalize (now + ticks)) now =
      if now + ticks = NO_WAKEUP then (ticks.toNat : Int) - 1
      else ticks.toNat := by
  unfold normalize
  split
  · rename_i last
    refine ahead_unique ?_ (by omega) (by omega)
    have turned := congrArg UInt32.toNat last
    rw [UInt32.toNat_add] at turned
    have : (NO_WAKEUP - 1).toNat = 2 ^ 32 - 2 := by decide
    have : NO_WAKEUP.toNat = 2 ^ 32 - 1 := by decide
    omega
  · exact ahead_of_add now ticks short

end SabiRuby.Tasks
