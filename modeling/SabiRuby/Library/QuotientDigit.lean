import Mathlib.Tactic.Ring

/-!
# The estimate of a quotient digit

In long division a digit of the quotient is estimated from the leading digits of
the dividend and the divisor.  An estimate that is not too large for the two
leading digits of a divisor whose first digit is at least half the base is the
digit or one more.
-/

namespace SabiRuby.Library

/-- The leading digits of a divisor are `v1` and `v2`, and those of a dividend
are the ones of `u` and `u2`. -/
structure LeadingDigits (base v1 v2 u u2 divisor dividend : Nat) : Prop where
  digits : ∃ scale divisorRest dividendRest,
    divisor = (v1 * base + v2) * scale + divisorRest ∧
      divisorRest < scale ∧
      dividend = (u * base + u2) * scale + dividendRest ∧
        dividendRest < scale

variable {base v1 v2 u u2 divisor dividend : Nat}

section

variable (leading : LeadingDigits base v1 v2 u u2 divisor dividend)
include leading

/-- An estimate whose multiple of the leading digits is too large is larger than
the digit. -/
theorem LeadingDigits.div_lt
    (divided : estimate * v1 + rest = u)
    (tooLarge : rest * base + u2 < estimate * v2) :
    dividend / divisor < estimate := by
  obtain ⟨scale, divisorRest, dividendRest, rfl, _, rfl, small⟩ :=
    leading.digits
  refine Nat.div_lt_of_lt_mul ?_
  have digits : u * base + u2 + 1 ≤ (v1 * base + v2) * estimate := by
    have expanded : (v1 * base + v2) * estimate =
        estimate * v1 * base + estimate * v2 := by
      ring
    have taken : u * base = estimate * v1 * base + rest * base := by
      rw [← divided]
      ring
    omega
  calc (u * base + u2) * scale + dividendRest
      < (u * base + u2 + 1) * scale := by
        rw [Nat.succ_mul]
        omega
    _ ≤ (v1 * base + v2) * estimate * scale := Nat.mul_le_mul_right _ digits
    _ = (v1 * base + v2) * scale * estimate := by ring
    _ ≤ ((v1 * base + v2) * scale + divisorRest) * estimate :=
        Nat.mul_le_mul_right _ (Nat.le_add_right _ _)

/-- An estimate that is not too large for the leading digits is at most one more
than the digit. -/
theorem LeadingDigits.le_div_succ
    (baseBound : 2 ≤ base)
    (normalized : base ≤ 2 * v1)
    (oneDigit : dividend < base * divisor)
    (notTooLarge : estimate * (v1 * base + v2) ≤ u * base + u2) :
    estimate ≤ dividend / divisor + 1 := by
  obtain ⟨scale, divisorRest, dividendRest, divisorEq, divisorSmall,
    dividendEq, _⟩ := leading.digits
  have positive : 0 < divisor := by
    by_contra zero
    rw [Nat.eq_zero_of_not_pos zero] at oneDigit
    simp at oneDigit
  have digit : dividend / divisor < base :=
    Nat.div_lt_of_lt_mul (by rw [Nat.mul_comm]; exact oneDigit)
  have large : base ≤ v1 * base + v2 := by
    have one : 1 ≤ v1 := by omega
    have := Nat.mul_le_mul_right base one
    omega
  by_contra tooLarge
  have twoMore : dividend / divisor + 2 ≤ estimate := by omega
  have below : dividend < (dividend / divisor + 1) * divisor := by
    rw [Nat.mul_comm]
    exact Nat.lt_mul_div_succ dividend positive
  have divisorBound : divisor ≤ (v1 * base + v2 + 1) * scale := by
    rw [divisorEq, Nat.succ_mul]
    omega
  have scalePositive : 0 < scale := by omega
  have compared : (dividend / divisor + 2) * (v1 * base + v2) * scale <
      (dividend / divisor + 1) * (v1 * base + v2 + 1) * scale := by
    calc (dividend / divisor + 2) * (v1 * base + v2) * scale
        ≤ estimate * (v1 * base + v2) * scale :=
          Nat.mul_le_mul_right _ (Nat.mul_le_mul_right _ twoMore)
      _ ≤ (u * base + u2) * scale := Nat.mul_le_mul_right _ notTooLarge
      _ ≤ dividend := by
          rw [dividendEq]
          exact Nat.le_add_right _ _
      _ < (dividend / divisor + 1) * divisor := below
      _ ≤ (dividend / divisor + 1) * ((v1 * base + v2 + 1) * scale) :=
          Nat.mul_le_mul_left _ divisorBound
      _ = (dividend / divisor + 1) * (v1 * base + v2 + 1) * scale := by ring
  have reduced := Nat.lt_of_mul_lt_mul_right compared
  have left : (dividend / divisor + 2) * (v1 * base + v2) =
      (dividend / divisor + 1) * (v1 * base + v2) + (v1 * base + v2) := by
    ring
  have right : (dividend / divisor + 1) * (v1 * base + v2 + 1) =
      (dividend / divisor + 1) * (v1 * base + v2) +
        (dividend / divisor + 1) := by
    ring
  omega

/-- Two leading digits of a dividend below the divisor times the base. -/
theorem LeadingDigits.lt_of_oneDigit
    (v2Bound : v2 < base)
    (oneDigit : dividend < base * divisor) : u < (v1 + 1) * base := by
  obtain ⟨scale, divisorRest, dividendRest, divisorEq, divisorSmall,
    dividendEq, _⟩ := leading.digits
  by_contra large
  have scaled : (v1 + 1) * base * base * scale ≤ u * base * scale :=
    Nat.mul_le_mul_right _ (Nat.mul_le_mul_right _ (Nat.not_lt.mp large))
  have divisorBound : divisor ≤ (v1 * base + base) * scale := by
    have next : (v1 * base + v2 + 1) * scale ≤ (v1 * base + base) * scale :=
      Nat.mul_le_mul_right _ (by omega)
    rw [Nat.succ_mul] at next
    omega
  have baseBound := Nat.mul_le_mul_left base divisorBound
  have rearranged : base * ((v1 * base + base) * scale) =
      (v1 + 1) * base * base * scale := by
    ring
  have digits : (u * base + u2) * scale =
      u * base * scale + u2 * scale := Nat.add_mul _ _ _
  omega

/-- The quotient of the leading digits by the first digit of the divisor is an
estimate that is large enough. -/
theorem LeadingDigits.div_le
    (positive : 0 < v1)
    (u2Bound : u2 < base) : dividend / divisor ≤ u / v1 := by
  obtain ⟨scale, divisorRest, dividendRest, rfl, _, rfl, small⟩ :=
    leading.digits
  refine Nat.lt_succ_iff.mp (Nat.div_lt_of_lt_mul ?_)
  have above : u + 1 ≤ v1 * (u / v1 + 1) :=
    Nat.lt_mul_div_succ u positive
  calc (u * base + u2) * scale + dividendRest
      < (u * base + u2 + 1) * scale := by
        rw [Nat.succ_mul]
        omega
    _ ≤ ((u + 1) * base) * scale := by
        refine Nat.mul_le_mul_right _ ?_
        rw [Nat.succ_mul]
        omega
    _ ≤ (v1 * (u / v1 + 1) * base) * scale :=
        Nat.mul_le_mul_right _ (Nat.mul_le_mul_right _ above)
    _ = (v1 * base * scale) * (u / v1 + 1) := by ring
    _ ≤ ((v1 * base + v2) * scale + divisorRest) * (u / v1 + 1) := by
        refine Nat.mul_le_mul_right _ (Nat.le_trans ?_ (Nat.le_add_right _ _))
        exact Nat.mul_le_mul_right _ (Nat.le_add_right _ _)

end

/-- What the subtraction of an estimate's multiple leaves, modulo a power no
smaller than the divisor, tells the digit from the digit and one more. -/
theorem digit_of_difference
    {qhat left power : Nat}
    (difference : (left : Int) =
      dividend - qhat * divisor + if negative then (power : Int) else 0)
    (leftBound : left < power)
    (atLeast : dividend / divisor ≤ qhat)
    (atMost : qhat ≤ dividend / divisor + 1)
    (positive : 0 < divisor) :
    (negative = false →
        qhat = dividend / divisor ∧ left = dividend % divisor) ∧
      (negative = true →
        qhat = dividend / divisor + 1 ∧
          left + divisor = dividend % divisor + power) := by
  have parts := Nat.div_add_mod dividend divisor
  have below := Nat.mod_lt dividend positive
  generalize dividend / divisor = quotient at *
  generalize dividend % divisor = remainder at *
  have whole : (divisor : Int) * quotient + remainder = dividend := by
    exact_mod_cast parts
  rcases Nat.lt_or_ge quotient qhat with larger | notLarger
  · have oneMore : qhat = quotient + 1 := by omega
    have product : ((quotient : Int) + 1) * divisor =
        divisor * quotient + divisor := by
      ring
    rw [oneMore] at difference
    push_cast at difference
    cases negative with
    | false =>
        simp only [Bool.false_eq_true, if_false] at difference
        omega
    | true =>
        simp only [if_true] at difference
        refine ⟨nofun, fun _ => ?_⟩
        omega
  · have exact : qhat = quotient := by omega
    have product : (quotient : Int) * divisor = divisor * quotient := by ring
    rw [exact] at difference
    cases negative with
    | false =>
        simp only [Bool.false_eq_true, if_false] at difference
        refine ⟨fun _ => ?_, nofun⟩
        omega
    | true =>
        simp only [if_true] at difference
        omega

/-- Adding the divisor back goes past the power once. -/
theorem rest_of_addBack
    (left_ : left + divisor = remainder + power)
    (added : out + power * past = left + divisor)
    (outBound : out < power)
    (below : remainder < divisor)
    (wide : divisor ≤ power) : out = remainder := by
  rcases Nat.lt_trichotomy past 1 with zero | once | more
  · have none : past = 0 := by omega
    rw [none] at added
    omega
  · rw [once] at added
    omega
  · have := Nat.mul_le_mul_left power more
    omega

end SabiRuby.Library
