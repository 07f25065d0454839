import Mathlib.Data.ZMod.Basic
import Mathlib.Dynamics.PeriodicPts.Lemmas
import Mathlib.Algebra.Ring.GeomSum
import Mathlib.Data.Int.ModEq
import Mathlib.Tactic.LinearCombination
import Mathlib.Tactic.Ring

/-!
# Linear congruential generators of a power of two

A generator `x ↦ a * x + c` modulo a power of two visits every residue, whatever
it starts from, where `a` is one modulo four and `c` is odd.
-/

namespace SabiRuby.Library

variable {a c : ℤ}

/-- One step, on the integers. -/
def congruential (a c x : ℤ) : ℤ := a * x + c

theorem congruential_iterate (a c x : ℤ) (n : Nat) :
    (congruential a c)^[n] x =
      x + (∑ i ∈ Finset.range n, a ^ i) * ((a - 1) * x + c) := by
  induction n with
  | zero => simp
  | succ n ih =>
      have geometric := geom_sum_mul a n
      rw [Function.iterate_succ_apply', ih, congruential,
        Finset.sum_range_succ]
      linear_combination ((a - 1) * x + c) * geometric

/-- The sum over a power of two of terms is that power times an odd number. -/
theorem geometric_two_pow (one : a % 4 = 1) (k : Nat) :
    ∃ u : ℤ, u % 2 = 1 ∧ ∑ i ∈ Finset.range (2 ^ k), a ^ i = 2 ^ k * u := by
  induction k with
  | zero => exact ⟨1, by omega, by simp⟩
  | succ k ih =>
      obtain ⟨u, odd, sum⟩ := ih
      have double : ∑ i ∈ Finset.range (2 ^ (k + 1)), a ^ i =
          (∑ i ∈ Finset.range (2 ^ k), a ^ i) * (1 + a ^ 2 ^ k) := by
        rw [pow_succ, mul_two, Finset.sum_range_add, mul_add, mul_one]
        congr 1
        rw [Finset.sum_mul]
        apply Finset.sum_congr rfl
        intro i _
        rw [pow_add, mul_comm]
      have power : a ^ 2 ^ k % 4 = 1 := by
        have congruent : a ^ 2 ^ k ≡ 1 ^ 2 ^ k [ZMOD 4] := by
          apply Int.ModEq.pow
          exact one
        rw [one_pow] at congruent
        exact congruent
      obtain ⟨half, isHalf⟩ : ∃ half, 1 + a ^ 2 ^ k = 2 * half ∧ half % 2 = 1 :=
        ⟨(1 + a ^ 2 ^ k) / 2, by omega, by omega⟩
      refine ⟨u * half, ?_, ?_⟩
      · rw [Int.mul_emod, odd, isHalf.2]
        rfl
      · rw [double, sum, isHalf.1]
        ring

variable (k : Nat)

/-- One step, modulo a power of two. -/
def congruentialMod (a c : ℤ) (x : ZMod (2 ^ k)) : ZMod (2 ^ k) := a * x + c

theorem congruentialMod_iterate (a c x : ℤ) (n : Nat) :
    (congruentialMod k a c)^[n] (x : ZMod (2 ^ k)) =
      (((congruential a c)^[n] x : ℤ) : ZMod (2 ^ k)) := by
  have semiconj : Function.Semiconj (fun y : ℤ => (y : ZMod (2 ^ k)))
      (congruential a c) (congruentialMod k a c) := by
    intro y
    simp [congruential, congruentialMod]
  exact ((semiconj.iterate_right n) x).symm

/-- The period from every residue is the whole modulus. -/
theorem congruential_period
    (one : a % 4 = 1)
    (odd : c % 2 = 1)
    (x : ZMod (2 ^ (k + 1))) :
    Function.minimalPeriod (congruentialMod (k + 1) a c) x = 2 ^ (k + 1) := by
  obtain ⟨start, rfl⟩ := ZMod.intCast_surjective x
  have factor : ((a - 1) * start + c) % 2 = 1 := by
    have even : (a - 1) * start % 2 = 0 := by
      rw [Int.mul_emod, show (a - 1) % 2 = 0 by omega, Int.zero_mul]
      rfl
    omega
  apply Function.minimalPeriod_eq_prime_pow
  · intro periodic
    obtain ⟨u, uOdd, sum⟩ := geometric_two_pow one k
    rw [Function.IsPeriodicPt, Function.IsFixedPt, congruentialMod_iterate,
      congruential_iterate, ZMod.intCast_eq_intCast_iff_dvd_sub, sum]
      at periodic
    obtain ⟨q, isMultiple⟩ := periodic
    have reduced : -(u * ((a - 1) * start + c)) = 2 * q := by
      apply mul_left_cancel₀ (pow_ne_zero k (two_ne_zero' ℤ))
      push_cast at isMultiple
      linear_combination isMultiple
    have oddProduct : u * ((a - 1) * start + c) % 2 = 1 := by
      rw [Int.mul_emod, uOdd, factor]
      rfl
    omega
  · obtain ⟨u, -, sum⟩ := geometric_two_pow one (k + 1)
    rw [Function.IsPeriodicPt, Function.IsFixedPt, congruentialMod_iterate,
      congruential_iterate, ZMod.intCast_eq_intCast_iff_dvd_sub, sum]
    refine ⟨-(u * ((a - 1) * start + c)), ?_⟩
    push_cast
    ring

/-- From every residue the generator comes to every other. -/
theorem congruential_reaches
    (one : a % 4 = 1)
    (odd : c % 2 = 1)
    (x y : ZMod (2 ^ (k + 1))) :
    ∃ n, (congruentialMod (k + 1) a c)^[n] x = y := by
  have period := congruential_period k one odd x
  let visit (n : Fin (2 ^ (k + 1))) : ZMod (2 ^ (k + 1)) :=
    (congruentialMod (k + 1) a c)^[n.1] x
  have injective : Function.Injective visit := by
    intro m n equal
    apply Fin.ext
    apply Function.iterate_injOn_Iio_minimalPeriod _ _ equal
    · rw [period]
      exact m.2
    · rw [period]
      exact n.2
  have bijective : Function.Bijective visit := by
    rw [Fintype.bijective_iff_injective_and_card]
    exact ⟨injective, by rw [Fintype.card_fin, ZMod.card]⟩
  obtain ⟨n, reaches⟩ := bijective.2 y
  exact ⟨n.1, reaches⟩

end SabiRuby.Library
