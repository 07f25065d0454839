import Mathlib.Algebra.Group.Basic
import Mathlib.Algebra.Group.Defs
import Mathlib.Algebra.Ring.Int.Defs
import Mathlib.Data.Nat.Sqrt
import Mathlib.Tactic.Linarith
import Mathlib.Tactic.Ring

/-!
# Powers and roots

A power by its binary digits and a square root by Newton's iteration.
-/

namespace SabiRuby.Library

/-! ## Powers by squaring

A power is the product of the factors that the binary digits of the exponent
pick.  What is to be multiplied yet stays the same when a digit is taken off.
-/

section Squaring

variable {M : Type*} [Monoid M]

/-- Take the last digit off the exponent. -/
theorem squaring_step (result base : M) (e : Nat) :
    (if e % 2 = 1 then result * base else result) * (base * base) ^ (e / 2) =
      result * base ^ e := by
  have digits : base ^ e = base ^ (e % 2) * (base * base) ^ (e / 2) := by
    rw [← pow_two, ← pow_mul, ← pow_add, Nat.mod_add_div]
  rw [digits]
  rcases Nat.mod_two_eq_zero_or_one e with even | odd
  · rw [even, if_neg (by omega), pow_zero, one_mul]
  · rw [odd, if_pos rfl, pow_one, mul_assoc]

/-- The last digit of an exponent of one digit. -/
theorem squaring_last (result base : M) {e : Nat} (last : e / 2 = 0) :
    (if e % 2 = 1 then result * base else result) = result * base ^ e := by
  rw [← squaring_step, last, pow_zero, mul_one]

/-! ## Up to a remainder toward zero -/

/-- Two integers with the same remainder toward zero. -/
def SameRemainder (m a b : ℤ) : Prop := a.tmod m = b.tmod m

namespace SameRemainder

variable {m a b c d : ℤ}

theorem refl (m a : ℤ) : SameRemainder m a a := rfl

theorem trans
    (first : SameRemainder m a b)
    (second : SameRemainder m b c) : SameRemainder m a c :=
  Eq.trans first second

theorem reduced (m a : ℤ) : SameRemainder m (a.tmod m) a := by
  rw [SameRemainder, Int.tmod_tmod]

theorem mul
    (first : SameRemainder m a b)
    (second : SameRemainder m c d) : SameRemainder m (a * c) (b * d) := by
  rw [SameRemainder, Int.mul_tmod, first, second, ← Int.mul_tmod]

theorem pow
    (same : SameRemainder m a b)
    (e : Nat) : SameRemainder m (a ^ e) (b ^ e) := by
  induction e with
  | zero => rw [pow_zero, pow_zero]; exact refl m 1
  | succ e ih =>
      rw [pow_succ, pow_succ]
      exact ih.mul same

end SameRemainder

end Squaring

/-! ## The square root by Newton's iteration

A step of the iteration never falls below the root, stops falling only at the
root, and halves the distance to it.
-/

section Newton

/-- A step never falls below the root. -/
theorem sqrt_le_newton
    (n : Nat)
    (positive : 0 < x) : n.sqrt ≤ (x + n / x) / 2 := by
  rw [Nat.le_div_iff_mul_le (by omega)]
  rcases Nat.lt_or_ge x (n.sqrt * 2) with small | large
  · have quotient : n.sqrt * 2 - x ≤ n / x := by
      rw [Nat.le_div_iff_mul_le positive]
      refine Nat.le_trans ?_ (Nat.sqrt_le n)
      obtain ⟨rest, restEq⟩ := Nat.exists_eq_add_of_le (Nat.le_of_lt small)
      have taken : n.sqrt * 2 - x = rest := by omega
      rw [taken]
      have squares : 4 * (rest * x) + (rest - x : Int) ^ 2 =
          4 * (n.sqrt * n.sqrt : Int) := by
        have twice : (n.sqrt : Int) * 2 = x + rest := by exact_mod_cast restEq
        calc 4 * ((rest : Int) * x) + (rest - x : Int) ^ 2
            = (x + rest) * (x + rest) := by ring
          _ = 4 * (n.sqrt * n.sqrt : Int) := by
            rw [← twice]
            ring
      have nonnegative := sq_nonneg (rest - x : Int)
      have compared : ((rest * x : Nat) : Int) ≤
          ((n.sqrt * n.sqrt : Nat) : Int) := by
        push_cast
        linarith only [squares, nonnegative]
      exact_mod_cast compared
    omega
  · exact Nat.le_trans large (Nat.le_add_right _ _)

/-- A step that does not fall is at the root. -/
theorem le_sqrt_of_newton
    (positive : 0 < x)
    (stopped : x ≤ (x + n / x) / 2) : x ≤ n.sqrt := by
  rw [Nat.le_div_iff_mul_le (by omega)] at stopped
  rw [Nat.le_sqrt, ← Nat.le_div_iff_mul_le positive]
  omega

/-- A step above the root halves the distance. -/
theorem newton_halves
    (above : n.sqrt < x) :
    (x + n / x) / 2 - n.sqrt ≤ (x - n.sqrt) / 2 := by
  have quotient : n / x ≤ n.sqrt := by
    have below : n / x < n.sqrt + 1 := by
      rw [Nat.div_lt_iff_lt_mul (by omega)]
      exact Nat.lt_of_lt_of_le (Nat.lt_succ_sqrt n)
        (Nat.mul_le_mul_left _ above)
    omega
  omega

/-- Half a number, rounded up, is no smaller than its root. -/
theorem sqrt_le_half (n : Nat) : n.sqrt ≤ (n + 1) / 2 := by
  rcases Nat.eq_zero_or_pos n with rfl | positive
  · simp
  · have step := sqrt_le_newton n positive
    rwa [Nat.div_self positive] at step

end Newton

end SabiRuby.Library
