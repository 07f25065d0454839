import SabiRuby.Integer.Checked
import SabiRuby.Integer.Denotation
import SabiRuby.Library.QuotientDigit

/-!
# Long division of magnitudes

The division takes one limb of the quotient at a time.  A limb is estimated from
the leading limbs, its multiple of the divisor is subtracted from the window of
the dividend, and the divisor is added back where the estimate was one too
large.  The limbs taken are those of the quotient, and what is left is the
remainder.
-/

namespace SabiRuby.Integer

open Library

/-! ## The estimate -/

theorem toNat_BASE : BASE.toNat = 2 ^ 32 := rfl

theorem tooLargeChecked_eq
    (b2 u2 : UInt32)
    (restBound : rhat.toNat < 2 ^ 32) :
    tooLargeChecked b2 u2 qhat rhat =
      some (decide (BASE ≤ qhat ∨
        qhat * b2.toUInt64 > (rhat <<< 32) ||| u2.toUInt64)) := by
  unfold tooLargeChecked
  by_cases wide : BASE ≤ qhat
  · rw [if_pos wide]
    simp [wide]
  · rw [if_neg wide]
    rw [UInt64.le_iff_toNat_le, toNat_BASE, Nat.not_le] at wide
    have fits : qhat.toNat * b2.toNat < 2 ^ 32 * 2 ^ 32 :=
      Nat.mul_lt_mul'' wide b2.toNat_lt
    have product := @mulChecked_eq qhat b2.toUInt64 (by
      rw [UInt32.toNat_toUInt64]
      exact fits)
    have high := shlChecked_limb restBound
    have narrow : ¬BASE ≤ qhat := by
      rw [UInt64.le_iff_toNat_le, toNat_BASE, Nat.not_le]
      exact wide
    simp [product, high, narrow]

/-- The corrections of an estimate end at the limb of the quotient or one
more. -/
theorem estimateLoop_spec
    (leading : LeadingDigits (2 ^ 32) b1.toNat b2.toNat u u2.toNat divisor
      dividend)
    (normalized : 2 ^ 31 ≤ b1.toNat)
    (oneDigit : dividend < 2 ^ 32 * divisor)
    (topBound : u < (b1.toNat + 1) * 2 ^ 32)
    (divided : qhat.toNat * b1.toNat + rhat.toNat = u)
    (restBound : rhat.toNat < 2 ^ 32)
    (atLeast : dividend / divisor ≤ qhat.toNat)
    (some_ : 0 < turns)
    (enough : 2 ^ 32 ≤ rhat.toNat + turns * b1.toNat) :
    ∃ digit, estimateLoop b1 b2 u2 turns qhat rhat = some digit ∧
      estimateLoopChecked b1 b2 u2 turns qhat rhat = some digit ∧
      dividend / divisor ≤ digit.toNat ∧
      digit.toNat ≤ dividend / divisor + 1 ∧ digit.toNat < 2 ^ 32 := by
  have digitBound : dividend / divisor < 2 ^ 32 :=
    Nat.div_lt_of_lt_mul (by rw [Nat.mul_comm]; exact oneDigit)
  have digitLow := Nat.zero_le (dividend / divisor)
  have b1Bound := b1.toNat_lt
  have b2Bound := b2.toNat_lt
  have u2Bound := u2.toNat_lt
  induction turns generalizing qhat rhat with
  | zero => exact absurd some_ (Nat.lt_irrefl _)
  | succ turns ih =>
      have compared := toNat_shiftLeft_or restBound u2
      have test := @tooLargeChecked_eq qhat _ b2 u2 restBound
      unfold estimateLoop estimateLoopChecked
      by_cases tooLarge : BASE ≤ qhat ∨
          qhat * b2.toUInt64 > (rhat <<< 32) ||| u2.toUInt64
      · have larger : dividend / divisor < qhat.toNat := by
          by_cases wide : 2 ^ 32 ≤ qhat.toNat
          · omega
          · rcases tooLarge with base | product
            · rw [UInt64.le_iff_toNat_le, toNat_BASE] at base
              exact absurd base wide
            · rw [gt_iff_lt, UInt64.lt_iff_toNat_lt, compared,
                UInt64.toNat_mul, UInt32.toNat_toUInt64] at product
              refine leading.div_lt divided ?_
              have := Nat.mod_le (qhat.toNat * b2.toNat) (2 ^ 64)
              omega
        have qhatOne : (qhat - 1).toNat = qhat.toNat - 1 := by
          rw [UInt64.toNat_sub, UInt64.toNat_one]
          have := qhat.toNat_lt
          omega
        have rhatMore : (rhat + b1.toUInt64).toNat =
            rhat.toNat + b1.toNat := by
          rw [UInt64.toNat_add, UInt32.toNat_toUInt64]
          omega
        have dividedAfter : (qhat - 1).toNat * b1.toNat +
            (rhat + b1.toUInt64).toNat = u := by
          rw [qhatOne, rhatMore, Nat.sub_mul, Nat.one_mul]
          have : b1.toNat ≤ qhat.toNat * b1.toNat :=
            Nat.le_mul_of_pos_left _ (by omega)
          omega
        have wordQhat := @subChecked_eq qhat 1 (by
          rw [UInt64.toNat_one]
          omega)
        have wordRhat := @addChecked_eq rhat b1.toUInt64 (by
          rw [UInt32.toNat_toUInt64]
          omega)
        rw [decide_eq_true tooLarge] at test
        simp only [if_pos tooLarge, test, wordQhat, wordRhat,
          Option.bind_eq_bind, Option.bind_some, if_true]
        by_cases again : rhat + b1.toUInt64 < BASE
        · rw [if_pos again, if_pos again]
          rw [UInt64.lt_iff_toNat_lt, toNat_BASE] at again
          rw [Nat.succ_mul] at enough
          exact ih dividedAfter again (by omega)
            (by
              by_contra none
              rw [Nat.eq_zero_of_not_pos none] at enough
              omega)
            (by omega)
        · rw [if_neg again, if_neg again]
          rw [UInt64.lt_iff_toNat_lt, toNat_BASE] at again
          have small : (qhat - 1).toNat < 2 ^ 32 := by
            by_contra wide
            have := Nat.mul_le_mul_right b1.toNat (Nat.not_lt.mp wide)
            rw [Nat.succ_mul] at topBound
            omega
          refine ⟨_, rfl, rfl, by omega, ?_, small⟩
          refine leading.le_div_succ (by omega) (by omega) oneDigit ?_
          have low : (qhat - 1).toNat * b2.toNat ≤
              (rhat + b1.toUInt64).toNat * 2 ^ 32 :=
            Nat.le_trans (Nat.mul_le_mul (Nat.le_of_lt small)
              (Nat.le_of_lt b2Bound)) (Nat.mul_le_mul_right _ (by omega))
          have expanded : (qhat - 1).toNat *
              (b1.toNat * 2 ^ 32 + b2.toNat) =
                (qhat - 1).toNat * b1.toNat * 2 ^ 32 +
                  (qhat - 1).toNat * b2.toNat := by
            ring
          have whole : u * 2 ^ 32 = (qhat - 1).toNat * b1.toNat * 2 ^ 32 +
              (rhat + b1.toUInt64).toNat * 2 ^ 32 := by
            rw [← dividedAfter]
            ring
          omega
      · rw [decide_eq_false tooLarge] at test
        simp only [if_neg tooLarge, test, Option.bind_eq_bind,
          Option.bind_some, Bool.false_eq_true, if_false]
        rw [not_or, UInt64.le_iff_toNat_le, toNat_BASE, gt_iff_lt,
          UInt64.lt_iff_toNat_lt, compared, UInt64.toNat_mul,
          UInt32.toNat_toUInt64] at tooLarge
        obtain ⟨narrow, low⟩ := tooLarge
        have product : qhat.toNat * b2.toNat ≤ (2 ^ 32 - 1) * (2 ^ 32 - 1) :=
          Nat.mul_le_mul (by omega) (by omega)
        rw [Nat.mod_eq_of_lt (by omega)] at low
        refine ⟨_, rfl, rfl, atLeast, ?_, by omega⟩
        refine leading.le_div_succ (by omega) (by omega) oneDigit ?_
        have expanded : qhat.toNat * (b1.toNat * 2 ^ 32 + b2.toNat) =
            qhat.toNat * b1.toNat * 2 ^ 32 + qhat.toNat * b2.toNat := by
          ring
        have whole : u * 2 ^ 32 = qhat.toNat * b1.toNat * 2 ^ 32 +
            rhat.toNat * 2 ^ 32 := by
          rw [← divided]
          ring
        omega

/-! ## The subtraction -/

/-- The two subtractions of a turn fit their words. -/
theorem subSigned_sub
    {a b borrow : Int64}
    (aLow : 0 ≤ a.toInt)
    (aHigh : a.toInt < 2 ^ 32)
    (bLow : 0 ≤ b.toInt)
    (bHigh : b.toInt < 2 ^ 32)
    (isBit : borrow.toInt = 0 ∨ borrow.toInt = 1) :
    subSigned a b = some (a - b) ∧
      subSigned (a - b) borrow = some (a - b - borrow) := by
  have first : (a - b).toInt = a.toInt - b.toInt := by
    rw [Int64.toInt_sub, bmod_of_small (by omega) (by omega)]
  exact ⟨subSigned_eq (by omega) (by omega),
    subSigned_eq (by omega) (by omega)⟩

/-- The window after the subtraction of a multiple of the divisor. -/
theorem mulSubLoop_spec
    (qhatBound : qhat.toNat < 2 ^ 32)
    (bn window rest : List UInt32)
    (top : UInt32)
    (sameLength : window.length = bn.length)
    (carryBound : carry.toNat < 2 ^ 32)
    (isBit : borrow.toInt = 0 ∨ borrow.toInt = 1) :
    ∃ out negative, mulSubLoop qhat bn (window ++ top :: rest) carry borrow =
        some (out ++ rest, negative) ∧
      mulSubLoopChecked qhat bn (window ++ top :: rest) carry borrow =
        some (out ++ rest, negative) ∧
      out.length = bn.length + 1 ∧
      (value out : Int) = value (window ++ [top]) -
        qhat.toNat * value bn - carry.toNat - borrow.toInt +
          if negative then (2 ^ 32) ^ (bn.length + 1) else 0 := by
  induction bn generalizing window carry borrow with
  | nil =>
      have empty := List.eq_nil_of_length_eq_zero sameLength
      subst empty
      have topBound := top.toNat_lt
      obtain ⟨low, _⟩ := @borrow_step (asI64 top) carry.toInt64 borrow
        (by rw [toInt_asI64]; omega) (by rw [toInt_asI64]; omega)
        (by rw [toInt_toInt64_of_lt (by omega)]; omega)
        (by rw [toInt_toInt64_of_lt (by omega)]; omega) isBit
      rw [toInt_asI64, toInt_toInt64_of_lt (by omega)] at low
      obtain ⟨wordTaken, wordT⟩ := @subSigned_sub (asI64 top)
        carry.toInt64 borrow (by rw [toInt_asI64]; omega)
        (by rw [toInt_asI64]; omega)
        (by rw [toInt_toInt64_of_lt (by omega)]; omega)
        (by rw [toInt_toInt64_of_lt (by omega)]; omega) isBit
      refine ⟨[asU32 (asI64 top - carry.toInt64 - borrow)], _, rfl, ?_,
        rfl, ?_⟩
      · simp only [List.nil_append, List.cons_append, mulSubLoopChecked,
          wordTaken, wordT, Option.bind_eq_bind, Option.bind_some]
      by_cases negative : asI64 top - carry.toInt64 - borrow < 0
      · rw [if_pos negative, show (1 : Int64).toInt = 1 from rfl] at low
        simp [negative, low]
      · rw [if_neg negative, Int64.toInt_zero] at low
        simp [negative, low]
  | cons b bn ih =>
      cases window with
      | nil => cases sameLength
      | cons a window =>
          have aBound := a.toNat_lt
          have product : qhat.toNat * b.toNat ≤
              (2 ^ 32 - 1) * (2 ^ 32 - 1) :=
            Nat.mul_le_mul (by omega) (Nat.le_pred_of_lt b.toNat_lt)
          have sum : (qhat * b.toUInt64 + carry).toNat =
              qhat.toNat * b.toNat + carry.toNat := by
            simp only [UInt64.toNat_add, UInt64.toNat_mul,
              UInt32.toNat_toUInt64]
            omega
          have masked : ((qhat * b.toUInt64 + carry) &&& 0xFFFFFFFF).toNat =
              (qhat * b.toUInt64 + carry).toNat % 2 ^ 32 := by
            rw [UInt64.toNat_and]
            exact Nat.and_two_pow_sub_one_eq_mod _ 32
          have high : ((qhat * b.toUInt64 + carry) >>> 32).toNat =
              (qhat * b.toUInt64 + carry).toNat / 2 ^ 32 := by
            simp [UInt64.toNat_shiftRight, Nat.shiftRight_eq_div_pow]
          obtain ⟨low, bit⟩ := @borrow_step (asI64 a)
            ((qhat * b.toUInt64 + carry) &&& 0xFFFFFFFF).toInt64 borrow
            (by rw [toInt_asI64]; omega) (by rw [toInt_asI64]; omega)
            (by rw [toInt_toInt64_of_lt (by omega)]; omega)
            (by rw [toInt_toInt64_of_lt (by omega)]; omega) isBit
          rw [toInt_asI64, toInt_toInt64_of_lt (by omega)] at low
          obtain ⟨wordTaken, wordT⟩ := @subSigned_sub (asI64 a)
            ((qhat * b.toUInt64 + carry) &&& 0xFFFFFFFF).toInt64 borrow
            (by rw [toInt_asI64]; omega) (by rw [toInt_asI64]; omega)
            (by rw [toInt_toInt64_of_lt (by omega)]; omega)
            (by rw [toInt_toInt64_of_lt (by omega)]; omega) isBit
          have wordProduct := @mulChecked_eq qhat b.toUInt64 (by
            rw [UInt32.toNat_toUInt64]
            omega)
          have wordSum := @addChecked_eq (qhat * b.toUInt64) carry (by
            rw [UInt64.toNat_mul, UInt32.toNat_toUInt64]
            omega)
          obtain ⟨out, negative, ran, ranChecked, outLength, outValue⟩ :=
            @ih ((qhat * b.toUInt64 + carry) >>> 32) _ window
              (Nat.succ.inj sameLength) (by omega) bit
          have parts : (qhat.toNat : Int) * value (b :: bn) =
              qhat.toNat * b.toNat + 2 ^ 32 * (qhat.toNat * value bn) := by
            rw [value_cons]
            push_cast
            ring
          have split : (qhat.toNat : Int) * b.toNat + carry.toNat =
              ((qhat * b.toUInt64 + carry) &&& 0xFFFFFFFF).toNat +
                2 ^ 32 * ((qhat * b.toUInt64 + carry) >>> 32).toNat := by
            have whole := Nat.mod_add_div
              (qhat * b.toUInt64 + carry).toNat (2 ^ 32)
            rw [← masked, ← high, sum] at whole
            exact_mod_cast whole.symm
          push_cast at split
          refine ⟨asU32 (asI64 a -
            ((qhat * b.toUInt64 + carry) &&& 0xFFFFFFFF).toInt64 - borrow) ::
              out, negative, ?_, ?_, ?_, ?_⟩
          · simp only [List.cons_append, mulSubLoop, ran,
              Option.bind_eq_bind, Option.bind_some]
          · simp only [List.cons_append, mulSubLoopChecked, wordProduct,
              wordSum, wordTaken, wordT, ranChecked, Option.bind_eq_bind,
              Option.bind_some]
          · simp [outLength]
          · rw [List.cons_append, value_cons, value_cons a, parts,
              List.length_cons, pow_succ (2 ^ 32) (bn.length + 1)]
            generalize (2 ^ 32 : Int) ^ (bn.length + 1) = power
              at outValue ⊢
            push_cast
            cases negative with
            | false =>
                simp only [Bool.false_eq_true, if_false] at outValue ⊢
                linarith only [outValue, low, split]
            | true =>
                simp only [if_true] at outValue ⊢
                linarith only [outValue, low, split]

/-- Adding the divisor back, without the carry past the window. -/
theorem addBackLoop_spec
    (bn window rest : List UInt32)
    (top : UInt32)
    (sameLength : window.length = bn.length)
    (carryBound : carry.toNat < 2 ^ 32) :
    ∃ out past, addBackLoop bn (window ++ top :: rest) carry =
        some (out ++ rest) ∧
      addBackLoopChecked bn (window ++ top :: rest) carry =
        some (out ++ rest) ∧
      out.length = bn.length + 1 ∧
      value out + (2 ^ 32) ^ (bn.length + 1) * past =
        value (window ++ [top]) + value bn + carry.toNat := by
  induction bn generalizing window carry with
  | nil =>
      have empty := List.eq_nil_of_length_eq_zero sameLength
      subst empty
      have topBound := top.toNat_lt
      have split := toUInt32_add_shiftRight (top.toUInt64 + carry)
      have sum : (top.toUInt64 + carry).toNat = top.toNat + carry.toNat := by
        simp only [UInt64.toNat_add, UInt32.toNat_toUInt64]
        omega
      refine ⟨[(top.toUInt64 + carry).toUInt32],
        ((top.toUInt64 + carry) >>> 32).toNat, rfl,
        by simp only [List.nil_append, List.cons_append, addBackLoopChecked],
        rfl, ?_⟩
      simp only [List.nil_append, value_cons, value_nil, List.length_nil,
        Nat.zero_add, Nat.pow_one, Nat.mul_zero, Nat.add_zero]
      omega
  | cons b bn ih =>
      cases window with
      | nil => cases sameLength
      | cons a window =>
          have aBound := a.toNat_lt
          have bBound := b.toNat_lt
          have split := toUInt32_add_shiftRight
            (a.toUInt64 + b.toUInt64 + carry)
          have sum : (a.toUInt64 + b.toUInt64 + carry).toNat =
              a.toNat + b.toNat + carry.toNat := by
            simp only [UInt64.toNat_add, UInt32.toNat_toUInt64]
            omega
          have wordSum := @addChecked_eq a.toUInt64 b.toUInt64 (by
            simp only [UInt32.toNat_toUInt64]
            omega)
          have wordS2 := @addChecked_eq (a.toUInt64 + b.toUInt64) carry (by
            simp only [UInt64.toNat_add, UInt32.toNat_toUInt64]
            omega)
          obtain ⟨out, past, ran, ranChecked, outLength, outValue⟩ :=
            @ih ((a.toUInt64 + b.toUInt64 + carry) >>> 32)
              window (Nat.succ.inj sameLength) (by omega)
          refine ⟨(a.toUInt64 + b.toUInt64 + carry).toUInt32 :: out, past, ?_,
            ?_, by simp [outLength], ?_⟩
          · simp only [List.cons_append, addBackLoop, ran, Option.map_some]
          · simp only [List.cons_append, addBackLoopChecked, wordSum, wordS2,
              ranChecked, Option.bind_eq_bind, Option.bind_some,
              Option.map_some]
          · rw [List.cons_append, value_cons, value_cons a, value_cons b,
              List.length_cons, pow_succ (2 ^ 32) (bn.length + 1)]
            have shifted : (2 ^ 32) ^ (bn.length + 1) * 2 ^ 32 * past =
                2 ^ 32 * ((2 ^ 32) ^ (bn.length + 1) * past) := by
              ring
            rw [shifted]
            omega

end SabiRuby.Integer
