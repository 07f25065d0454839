import SabiRuby.Integer.Exactness

/-!
# Powers of wide integers

A power takes a turn for each binary digit of its exponent, so that the turns of
a machine word are enough.
-/

namespace SabiRuby.Integer

open Library

namespace BigInt

/-- Multiply where the last digit of the exponent is one. -/
def mulDigit (result base : BigInt) (e : Nat) : Option BigInt :=
  if e % 2 = 1 then result.mul base else some result

/-- The loop of `pow`, with the turns it may take. -/
def powLoop : Nat → BigInt → BigInt → Nat → Option BigInt
  | 0, result, _, e => if e = 0 then some result else none
  | turns + 1, result, base, e =>
      if e = 0 then some result
      else do
        let result ← mulDigit result base e
        if e / 2 = 0 then some result
        else do
          let base ← base.mul base
          powLoop turns result base (e / 2)

/-- `pow`, of an exponent of 64 bits. -/
def pow (self : BigInt) (e : Nat) : Option BigInt :=
  powLoop 64 (fromI64 1) self e

/-- A turn multiplies where the digit is one. -/
theorem mulDigit_spec
    (formed : result.WellFormed)
    (base : BigInt)
    (e : Nat) :
    ∃ product, mulDigit result base e = some product ∧
      product.toInt =
        (if e % 2 = 1 then result.toInt * base.toInt else result.toInt) ∧
      product.WellFormed := by
  by_cases odd : e % 2 = 1
  · simp only [mulDigit, if_pos odd]
    exact mul_spec result base
  · simp only [mulDigit, if_neg odd]
    exact ⟨result, rfl, rfl, formed⟩

theorem powLoop_spec
    (lt : e < 2 ^ turns)
    (formed : result.WellFormed)
    (base : BigInt) :
    ∃ power, powLoop turns result base e = some power ∧
      power.toInt = result.toInt * base.toInt ^ e ∧ power.WellFormed := by
  induction turns generalizing e result base with
  | zero =>
      have none : e = 0 := by
        rw [pow_zero] at lt
        omega
      subst none
      refine ⟨result, rfl, ?_, formed⟩
      rw [pow_zero, mul_one]
  | succ turns ih =>
      by_cases none : e = 0
      · subst none
        refine ⟨result, rfl, ?_, formed⟩
        rw [pow_zero, mul_one]
      · obtain ⟨product, multiplies, value, productFormed⟩ :=
          mulDigit_spec formed base e
        simp only [powLoop, if_neg none, multiplies, Option.bind_eq_bind,
          Option.bind_some]
        by_cases last : e / 2 = 0
        · rw [if_pos last]
          refine ⟨product, rfl, ?_, productFormed⟩
          rw [value, squaring_last _ _ last]
        · obtain ⟨square, squares, squareValue, -⟩ := mul_spec base base
          obtain ⟨power, powers, powerValue, powerFormed⟩ := ih
            (by rw [pow_succ] at lt; omega : e / 2 < 2 ^ turns)
            productFormed square
          rw [if_neg last, squares, Option.bind_some]
          refine ⟨power, powers, ?_, powerFormed⟩
          rw [powerValue, value, squareValue, squaring_step]

/-- The power of a wide integer. -/
theorem pow_spec (self : BigInt) {e : Nat} (lt : e < 2 ^ 64) :
    ∃ power, self.pow e = some power ∧ power.toInt = self.toInt ^ e ∧
      power.WellFormed := by
  obtain ⟨power, powers, value, formed⟩ :=
    powLoop_spec lt (wellFormed_fromI64 1) self
  refine ⟨power, powers, ?_, formed⟩
  rw [value, toInt_fromI64, toInt_one, one_mul]

end BigInt

end SabiRuby.Integer
