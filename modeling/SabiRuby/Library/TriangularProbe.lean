import Mathlib.Algebra.Order.Ring.Nat
import Mathlib.Data.Fintype.EquivFin
import Mathlib.Data.Int.ModEq
import Mathlib.Data.Nat.Prime.Basic
import Mathlib.Tactic.Ring
import Mathlib.Tactic.WLOG

/-!
# Triangular probing

The probe of an open-addressing table that steps by one more each time visits
`code + 0, code + 1, code + 3, code + 6, ...`, reduced by the table size.  When
the size is a power of two the first `size` steps visit every bucket once.
-/

namespace SabiRuby.Library

/-- The `step`th triangular number. -/
def triangle (step : Nat) : Nat := step * (step + 1) / 2

theorem two_mul_triangle (step : Nat) :
    2 * triangle step = step * (step + 1) := by
  unfold triangle
  exact Nat.mul_div_cancel' (Nat.even_mul_succ_self step).two_dvd

/-- The increments of the probe are `1, 2, 3, ...`. -/
theorem triangle_succ (step : Nat) :
    triangle (step + 1) = triangle step + (step + 1) := by
  have current := two_mul_triangle step
  have next := two_mul_triangle (step + 1)
  have expand : (step + 1) * (step + 1 + 1) =
      step * (step + 1) + 2 * (step + 1) := by ring
  omega

/-- The bucket met at one step of the triangular probe. -/
def triangularProbe (size code step : Nat) : Nat :=
  (code + triangle step) % size

theorem triangularProbe_lt
    (sizePositive : 0 < size) (code step : Nat) :
    triangularProbe size code step < size :=
  Nat.mod_lt _ sizePositive

/-- If a power of two divides a product whose factors have different parity, it
divides one of them. -/
theorem two_pow_dvd_of_odd_add
    (oddSum : (left + right) % 2 = 1)
    (divides : 2 ^ bits ∣ left * right) :
    2 ^ bits ∣ left ∨ 2 ^ bits ∣ right := by
  rcases Nat.mod_two_eq_zero_or_one left with leftEven | leftOdd
  · left
    have rightOdd : Odd right := Nat.odd_iff.mpr (by omega)
    exact Nat.Coprime.dvd_of_dvd_mul_right
      (Nat.Coprime.pow_left _ (Nat.coprime_two_left.mpr rightOdd)) divides
  · right
    have leftIsOdd : Odd left := Nat.odd_iff.mpr leftOdd
    exact Nat.Coprime.dvd_of_dvd_mul_left
      (Nat.Coprime.pow_left _ (Nat.coprime_two_left.mpr leftIsOdd)) divides

/-- Two steps of the probe below the table size meet the same bucket only when
they are the same step. -/
theorem triangularProbe_injective
    (firstBound : first < 2 ^ bits)
    (secondBound : second < 2 ^ bits)
    (same : triangularProbe (2 ^ bits) code first =
      triangularProbe (2 ^ bits) code second) :
    first = second := by
  wlog ordered : first ≤ second generalizing first second with symmetric
  · exact (symmetric secondBound firstBound same.symm (by omega)).symm
  have congruent : triangle first ≡ triangle second [MOD 2 ^ bits] :=
    Nat.ModEq.add_left_cancel' code same
  have increasing : triangle first ≤ triangle second := by
    have firstTwice := two_mul_triangle first
    have secondTwice := two_mul_triangle second
    have products : first * (first + 1) ≤ second * (second + 1) :=
      Nat.mul_le_mul ordered (by omega)
    omega
  have divides : 2 ^ bits ∣ triangle second - triangle first :=
    (Nat.modEq_iff_dvd' increasing).mp congruent
  obtain ⟨gap, rfl⟩ := Nat.exists_eq_add_of_le ordered
  have factored : 2 * (triangle (first + gap) - triangle first) =
      gap * (2 * first + gap + 1) := by
    have firstTwice := two_mul_triangle first
    have secondTwice := two_mul_triangle (first + gap)
    have expand : (first + gap) * (first + gap + 1) =
        first * (first + 1) + gap * (2 * first + gap + 1) := by ring
    omega
  have doubled : 2 ^ (bits + 1) ∣ gap * (2 * first + gap + 1) := by
    rw [← factored, pow_succ, mul_comm]
    exact Nat.mul_dvd_mul_left 2 divides
  rcases two_pow_dvd_of_odd_add (by omega) doubled with byGap | bySum
  · have gapZero : gap = 0 :=
      Nat.eq_zero_of_dvd_of_lt byGap (by rw [pow_succ]; omega)
    omega
  · have sumZero : 2 * first + gap + 1 = 0 :=
      Nat.eq_zero_of_dvd_of_lt bySum (by rw [pow_succ]; omega)
    omega

/-- The first `2 ^ bits` steps of the probe meet every bucket. -/
theorem triangularProbe_surjective
    (bucketBound : bucket < 2 ^ bits) :
    ∃ step < 2 ^ bits, triangularProbe (2 ^ bits) code step = bucket := by
  have positive : 0 < 2 ^ bits := Nat.two_pow_pos bits
  let visit : Fin (2 ^ bits) → Fin (2 ^ bits) := fun step =>
    ⟨triangularProbe (2 ^ bits) code step, triangularProbe_lt positive _ _⟩
  have injective : Function.Injective visit := by
    intro first second same
    exact Fin.ext (triangularProbe_injective first.isLt second.isLt
      (congrArg Fin.val same))
  obtain ⟨step, visited⟩ :=
    Finite.surjective_of_injective injective ⟨bucket, bucketBound⟩
  exact ⟨step, step.isLt, congrArg Fin.val visited⟩

end SabiRuby.Library
