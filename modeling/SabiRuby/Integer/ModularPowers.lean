import SabiRuby.Integer.Powers

/-!
# Modular powers

`Integer#pow` of a modulus has a loop of machine integers, which reduces what
overflows once and else falls back, and a loop of wide ones.  Both keep the
remainder toward zero of what is to be multiplied yet.
-/

namespace SabiRuby.Integer

open Library Number

/-! ## Wide integers -/

namespace BigInt

/-- `rem_trunc`. -/
def remTrunc (self other : BigInt) : Option BigInt :=
  (self.divmodTrunc other).map Prod.snd

/-- A product, reduced. -/
def mulRem (m a b : BigInt) : Option BigInt := (a.mul b).bind (·.remTrunc m)

/-- The binary digit of a magnitude, which is in its limbs. -/
def exponentDigit (mag : List UInt32) (i : Nat) : Option Bool :=
  (mag[i / 32]?).map fun limb => (limb >>> UInt32.ofNat (i % 32)) &&& 1 = 1

/-- Multiply, reduced, where a digit is one. -/
def mulRemIf (m result base : BigInt) (one : Bool) : Option BigInt :=
  if one then mulRem m result base else some result

/-- Square, reduced, but after the last digit. -/
def squareRemUnless (m base : BigInt) (last : Bool) : Option BigInt :=
  if last then some base else mulRem m base base

/-- The loop of `powm` from a digit on, with the digits left. -/
def powmLoop (e m : BigInt) : Nat → Nat → BigInt → BigInt → Option BigInt
  | 0, _, result, _ => some result
  | left + 1, i, result, base => do
      let one ← exponentDigit e.mag i
      let result ← mulRemIf m result base one
      let base ← squareRemUnless m base (left = 0)
      powmLoop e m left (i + 1) result base

/-- `powm`. -/
def powm (self e m : BigInt) : Option BigInt :=
  if m.mag = [1] then some zero
  else do
    let base ← self.remTrunc m
    powmLoop e m e.bitLength 0 (fromI64 1) base

theorem remTrunc_spec
    (a : BigInt)
    (formed : m.WellFormed)
    (nonzero : m.toInt ≠ 0) :
    ∃ r, a.remTrunc m = some r ∧ r.toInt = a.toInt.tmod m.toInt ∧
      r.WellFormed := by
  obtain ⟨q, r, divides, -, value, -, rFormed⟩ :=
    divmodTrunc_spec a formed.trimmed nonzero
  refine ⟨r, ?_, value, rFormed⟩
  rw [remTrunc, divides]
  rfl

theorem mulRem_spec
    (a b : BigInt)
    (formed : m.WellFormed)
    (nonzero : m.toInt ≠ 0) :
    ∃ r, mulRem m a b = some r ∧ r.toInt = (a.toInt * b.toInt).tmod m.toInt ∧
      r.WellFormed := by
  obtain ⟨product, multiplies, value, -⟩ := mul_spec a b
  obtain ⟨r, reduces, rValue, rFormed⟩ := remTrunc_spec product formed nonzero
  refine ⟨r, ?_, ?_, rFormed⟩
  · rw [mulRem, multiplies]
    exact reduces
  · rw [rValue, value]

/-- The digits of a magnitude are those of its value. -/
theorem testBit_value
    {mag : List UInt32}
    (there : mag[i / 32]? = some limb) :
    (value mag).testBit i = limb.toNat.testBit (i % 32) := by
  induction mag generalizing i with
  | nil => cases there
  | cons x mag ih =>
      rw [testBit_value_cons]
      by_cases first : i < 32
      · rw [Nat.div_eq_of_lt first] at there
        cases there
        rw [if_pos first, Nat.mod_eq_of_lt first]
      · have place : i / 32 = (i - 32) / 32 + 1 := by omega
        rw [place, List.getElem?_cons_succ] at there
        have rest : (i - 32) % 32 = i % 32 := by omega
        rw [if_neg first, ih there, rest]

theorem exponentDigit_spec
    {mag : List UInt32}
    (lt : i / 32 < mag.length) :
    exponentDigit mag i = some (decide (value mag / 2 ^ i % 2 = 1)) := by
  have there := List.getElem?_eq_getElem lt
  rw [exponentDigit, there, Option.map_some, ← Nat.testBit_eq_decide_div_mod_eq,
    testBit_value there, Nat.testBit_eq_decide_div_mod_eq]
  congr 2
  have width : (UInt32.ofNat (i % 32)).toNat = i % 32 :=
    UInt32.toNat_ofNat_of_lt (by
      have := Nat.mod_lt i (by omega : 0 < 32)
      change i % 32 < 2 ^ 32
      omega)
  rw [← UInt32.toNat_inj, UInt32.toNat_and, UInt32.toNat_shiftRight, width,
    Nat.mod_mod, Nat.shiftRight_eq_div_pow]
  have one : (1 : UInt32).toNat = 1 := rfl
  rw [one, Nat.and_one_is_mod]

theorem digits_in_limbs (e : BigInt) {i : Nat} (lt : i < e.bitLength) :
    i / 32 < e.mag.length := by
  have atMost : e.bitLength ≤ e.mag.length * 32 := by
    unfold bitLength
    cases last : e.mag.getLast? with
    | none => exact Nat.zero_le _
    | some top =>
        have nonempty : e.mag.length ≠ 0 := by
          intro empty
          rw [List.length_eq_zero_iff.mp empty] at last
          cases last
        dsimp only
        omega
  omega

theorem mulRemIf_spec
    (base : BigInt)
    (one : Bool)
    (formed : m.WellFormed)
    (nonzero : m.toInt ≠ 0)
    (resultFormed : result.WellFormed)
    (reduced : result.toInt.tmod m.toInt = result.toInt) :
    ∃ r, mulRemIf m result base one = some r ∧ r.WellFormed ∧
      r.toInt.tmod m.toInt = r.toInt ∧
      SameRemainder m.toInt r.toInt
        (if one then result.toInt * base.toInt else result.toInt) := by
  cases one with
  | false => exact ⟨result, rfl, resultFormed, reduced, SameRemainder.refl _ _⟩
  | true =>
      obtain ⟨r, multiplies, value, rFormed⟩ :=
        mulRem_spec result base formed nonzero
      refine ⟨r, multiplies, rFormed, ?_, ?_⟩
      · rw [value, Int.tmod_tmod]
      · rw [value]
        exact SameRemainder.reduced _ _

theorem squareRemUnless_spec
    (base : BigInt)
    (last : Bool)
    (formed : m.WellFormed)
    (nonzero : m.toInt ≠ 0) :
    ∃ r, squareRemUnless m base last = some r ∧
      (last = false →
        SameRemainder m.toInt r.toInt (base.toInt * base.toInt)) := by
  cases last with
  | true => exact ⟨base, rfl, fun is => (nomatch is)⟩
  | false =>
      obtain ⟨r, squares, value, -⟩ := mulRem_spec base base formed nonzero
      refine ⟨r, squares, fun _ => ?_⟩
      rw [value]
      exact SameRemainder.reduced _ _

theorem powmLoop_spec
    (formed : m.WellFormed)
    (nonzero : m.toInt ≠ 0)
    (inside : i + left = e.bitLength)
    {result : BigInt}
    (base : BigInt)
    (resultFormed : result.WellFormed)
    (reduced : result.toInt.tmod m.toInt = result.toInt) :
    ∃ r, powmLoop e m left i result base = some r ∧ r.WellFormed ∧
      r.toInt.tmod m.toInt = r.toInt ∧
      SameRemainder m.toInt r.toInt
        (result.toInt * base.toInt ^ (value e.mag / 2 ^ i)) := by
  induction left generalizing i result base with
  | zero =>
      have none : value e.mag / 2 ^ i = 0 := by
        apply Nat.div_eq_of_lt
        rw [Nat.add_zero] at inside
        rw [inside]
        exact value_lt_bitLength e
      refine ⟨result, rfl, resultFormed, reduced, ?_⟩
      rw [none, pow_zero, mul_one]
      exact SameRemainder.refl _ _
  | succ left ih =>
      have digit := exponentDigit_spec (digits_in_limbs e (by omega : i < _))
      obtain ⟨product, multiplies, productFormed, productReduced, product_⟩ :=
        mulRemIf_spec base (decide (value e.mag / 2 ^ i % 2 = 1)) formed nonzero
          resultFormed reduced
      obtain ⟨square, squares, square_⟩ :=
        squareRemUnless_spec base (decide (left = 0)) formed nonzero
      obtain ⟨r, loops, rFormed, rReduced, same⟩ :=
        @ih (i + 1) (by omega) product square productFormed productReduced
      have next : value e.mag / 2 ^ (i + 1) = value e.mag / 2 ^ i / 2 := by
        rw [pow_succ, Nat.div_div_eq_div_mul]
      refine ⟨r, ?_, rFormed, rReduced, ?_⟩
      · simp only [powmLoop, digit, multiplies, squares, Option.bind_eq_bind,
          Option.bind_some]
        exact loops
      · apply same.trans
        rw [← squaring_step result.toInt base.toInt, next]
        simp only [decide_eq_true_eq] at product_
        apply product_.mul
        cases left with
        | zero =>
            have none : value e.mag / 2 ^ i / 2 = 0 := by
              rw [← next]
              apply Nat.div_eq_of_lt
              rw [inside]
              exact value_lt_bitLength e
            rw [none, pow_zero, pow_zero]
            exact SameRemainder.refl _ _
        | succ left => exact (square_ (by simp)).pow _

/-- One is reduced by what is not a unit. -/
theorem one_tmod {m : Int} (nonzero : m ≠ 0) (large : m.natAbs ≠ 1) :
    (1 : Int).tmod m = 1 := by
  have size := Int.natAbs_tmod 1 m
  have nonneg := Int.tmod_nonneg m (by decide : (0 : Int) ≤ 1)
  have small : (1 : Int).natAbs % m.natAbs = 1 := by
    apply Nat.mod_eq_of_lt
    change 1 < m.natAbs
    omega
  omega

/-- The power of a modulus is the remainder toward zero of the power. -/
theorem powm_spec
    (self e : BigInt)
    (formed : m.WellFormed)
    (nonzero : m.toInt ≠ 0) :
    ∃ r, self.powm e m = some r ∧ r.WellFormed ∧
      r.toInt = (self.toInt ^ value e.mag).tmod m.toInt := by
  have size := natAbs_toInt m
  by_cases one : m.mag = [1]
  · have unit : m.toInt.natAbs = 1 := by
      rw [size, one]
      rfl
    refine ⟨zero, ?_, wellFormed_zero, ?_⟩
    · rw [powm, if_pos one]
    · rw [toInt_zero]
      symm
      apply Int.tmod_eq_zero_of_dvd
      rw [← Int.natAbs_dvd, unit]
      exact one_dvd _
  · have large : m.toInt.natAbs ≠ 1 := by
      intro unit
      apply one
      apply value_injective formed.trimmed
      · decide
      · rw [← size, unit]
        rfl
    obtain ⟨base, reduces, baseValue, -⟩ :=
      remTrunc_spec self formed nonzero
    have oneValue : (fromI64 1).toInt = 1 := toInt_fromI64 1
    obtain ⟨r, loops, rFormed, rReduced, same⟩ := powmLoop_spec formed nonzero
      (by omega : 0 + e.bitLength = e.bitLength) base (wellFormed_fromI64 1)
      (by
        rw [oneValue]
        exact one_tmod nonzero large)
    refine ⟨r, ?_, rFormed, ?_⟩
    · simp only [powm, if_neg one, reduces, Option.bind_eq_bind,
        Option.bind_some]
      exact loops
    · rw [oneValue, one_mul, pow_zero, Nat.div_one, baseValue] at same
      rw [← rReduced]
      exact same.trans ((SameRemainder.reduced _ _).pow _)

end BigInt

end SabiRuby.Integer
