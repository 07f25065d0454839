import Mathlib.Tactic.SplitIfs
import Mathlib.Algebra.Order.Ring.Int

/-!
# Machine integers that may overflow

Computations with `i64` are written over the integers, each result going
through `i64`, which has no value where the machine integer would overflow.
Rust's division rounds towards zero; the last lemmas relate it to the floor.
-/

namespace SabiRuby.Library

/-- An `i64` holds the number. -/
def IsI64 (number : Int) : Prop :=
  -9223372036854775808 ≤ number ∧ number ≤ 9223372036854775807

instance (number : Int) : Decidable (IsI64 number) :=
  inferInstanceAs (Decidable (_ ∧ _))

/-- The result of an operation on `i64`, `none` where it overflows. -/
def i64 (number : Int) : Option Int :=
  if IsI64 number then some number else none

theorem i64_eq_some_iff {number result : Int} :
    i64 number = some result ↔ IsI64 number ∧ number = result := by
  unfold i64
  split_ifs with holds
  · simp [holds]
  · simp [holds]

variable {α : Type}

/-- An operation whose exact result is held goes on with it. -/
theorem i64_bind_of_eq
    (equal : number = value)
    (holds : IsI64 value)
    (rest : next value = result) :
    (i64 number >>= next) = result := by
  rw [equal, i64, if_pos holds]
  exact rest

/-- Going on from an operation whose bounds arithmetic shows. -/
theorem i64_bind
    (rest : next number = result)
    (holds : IsI64 number := by unfold IsI64; omega) :
    (i64 number >>= next) = result :=
  i64_bind_of_eq rfl holds rest

/-- Going on from an operation says that its exact result is held. -/
theorem i64_bind_eq_some_iff
    {result : α} :
    (i64 number >>= next) = some result ↔
      IsI64 number ∧ next number = some result := by
  simp only [Option.bind_eq_bind, Option.bind_eq_some_iff, i64_eq_some_iff]
  constructor
  · rintro ⟨value, ⟨holds, rfl⟩, rest⟩
    exact ⟨holds, rest⟩
  · rintro ⟨holds, rest⟩
    exact ⟨number, ⟨holds, rfl⟩, rest⟩

/-! ## Division -/

/-- `x as u32`. -/
def asU32 (number : Int) : Int := number % 4294967296

theorem asU32_of_mem
    (nonneg : 0 ≤ number)
    (lt : number < 4294967296) :
    asU32 number = number :=
  Int.emod_eq_of_lt nonneg lt

/-- A negative number is moved by the divisor less one before it is divided
towards zero. -/
theorem tdiv_of_shifted
    (number : Int)
    (pos : 0 < divisor) :
    (if number ≥ 0 then number else number - (divisor - 1)).tdiv divisor =
      number / divisor := by
  split_ifs with nonneg
  · exact Int.tdiv_eq_ediv_of_nonneg nonneg
  · have negated : number - (divisor - 1) = -(divisor - 1 - number) := by omega
    have quotient : (divisor - 1 - number) / divisor = -(number / divisor) := by
      have split := Int.mul_ediv_add_emod number divisor
      have lower := Int.emod_nonneg number pos.ne'
      have upper := Int.emod_lt_of_pos number pos
      refine ((Int.ediv_emod_unique (r := divisor - 1 - number % divisor)
        pos).mpr ⟨?_, by omega, by omega⟩).1
      rw [Int.mul_neg]
      omega
    rw [negated, Int.neg_tdiv, Int.tdiv_eq_ediv_of_nonneg (by omega), quotient]
    omega

end SabiRuby.Library
