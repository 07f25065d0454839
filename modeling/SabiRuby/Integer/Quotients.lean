import SabiRuby.Integer.LongDivision

/-!
# Quotients and remainders

One limb of the quotient leaves less than the divisor of the limbs it was taken
of, so the limbs taken from the highest down are the quotient and what is left is
the remainder.  No word overflows on the way.
-/

namespace SabiRuby.Integer

open Library

/-! ## One limb -/

theorem exists_window
    (low : Nat)
    (long : low + 3 ≤ an.length) :
    ∃ window u2 u1 u0 rest, an = window ++ u2 :: u1 :: u0 :: rest ∧
      window.length = low := by
  obtain ⟨u2, u1, u0, rest, high⟩ : ∃ u2 u1 u0 rest,
      an.drop low = u2 :: u1 :: u0 :: rest := by
    have count : 3 ≤ (an.drop low).length := by
      rw [List.length_drop]
      omega
    match an.drop low, count with
    | u2 :: u1 :: u0 :: rest, _ => exact ⟨u2, u1, u0, rest, rfl⟩
  refine ⟨an.take low, u2, u1, u0, rest, ?_, ?_⟩
  · rw [← high, List.take_append_drop]
  · rw [List.length_take]
    omega

/-- Limbs above a small value are zero. -/
theorem value_eq_zero_of_append_lt
    (a b : List UInt32)
    (small : value (a ++ b) < (2 ^ 32) ^ a.length) : value b = 0 := by
  rw [value_append] at small
  by_contra nonzero
  have := Nat.le_mul_of_pos_right ((2 ^ 32) ^ a.length)
    (Nat.pos_of_ne_zero nonzero)
  omega

/-- The subtraction of an estimate, corrected where it was too large. -/
theorem divided_of_estimate
    (small : qhat.toNat < 2 ^ 32)
    (window rest : List UInt32)
    (top : UInt32)
    (sameLength : window.length = bn.length)
    (atLeast : value (window ++ [top]) / value bn ≤ qhat.toNat)
    (atMost : qhat.toNat ≤ value (window ++ [top]) / value bn + 1)
    (positive : 0 < value bn) :
    ∃ an negative, mulSubLoop qhat bn (window ++ top :: rest) 0 0 =
        some (an ++ rest, negative) ∧
      mulSubLoopChecked qhat bn (window ++ top :: rest) 0 0 =
        some (an ++ rest, negative) ∧
      (negative = false → an.length = bn.length + 1 ∧
        qhat.toNat = value (window ++ [top]) / value bn ∧
        value an = value (window ++ [top]) % value bn) ∧
      (negative = true →
        qhat.toNat = value (window ++ [top]) / value bn + 1 ∧
        ∃ out, addBackLoop bn (an ++ rest) 0 = some (out ++ rest) ∧
          addBackLoopChecked bn (an ++ rest) 0 = some (out ++ rest) ∧
          out.length = bn.length + 1 ∧
          value out = value (window ++ [top]) % value bn) := by
  obtain ⟨an, negative, ran, ranChecked, anLength, anValue⟩ :=
    mulSubLoop_spec small bn window rest top sameLength
      (show (0 : UInt64).toNat < 2 ^ 32 by decide)
      (Or.inl (show (0 : Int64).toInt = 0 from rfl))
  have anBound := value_lt an
  have divisorBound := value_lt bn
  have wide : value bn ≤ (2 ^ 32) ^ (bn.length + 1) :=
    Nat.le_trans (Nat.le_of_lt divisorBound)
      (Nat.pow_le_pow_right (by omega) (Nat.le_succ _))
  rw [anLength] at anBound
  have difference : (value an : Int) =
      value (window ++ [top]) - qhat.toNat * value bn +
        if negative then (((2 ^ 32) ^ (bn.length + 1) : Nat) : Int)
        else 0 := by
    rw [anValue, UInt64.toNat_zero, Int64.toInt_zero]
    push_cast
    ring
  obtain ⟨exact, oneMore⟩ := digit_of_difference difference anBound atLeast
    atMost positive
  refine ⟨an, negative, ran, ranChecked, ?_, ?_⟩
  · intro notNegative
    obtain ⟨digit, left⟩ := exact notNegative
    exact ⟨anLength, digit, left⟩
  · intro isNegative
    obtain ⟨digit, left⟩ := oneMore isNegative
    refine ⟨digit, ?_⟩
    obtain ⟨low, high, rfl⟩ : ∃ low high, an = low ++ [high] := by
      rcases List.eq_nil_or_concat' an with rfl | concat
      · cases anLength
      · exact concat
    obtain ⟨out, past, added, addedChecked, outLength, outValue⟩ :=
      addBackLoop_spec bn low rest high (by simpa using anLength)
        (show (0 : UInt64).toNat < 2 ^ 32 by decide)
    have outBound := value_lt out
    rw [outLength] at outBound
    rw [UInt64.toNat_zero, Nat.add_zero] at outValue
    refine ⟨out, ?_, ?_, outLength, ?_⟩
    · simpa using added
    · simpa using addedChecked
    · exact rest_of_addBack left outValue outBound
        (Nat.mod_lt _ positive) wide

/-- The leading limbs of a window and of the divisor. -/
theorem leadingDigits_of_limbs
    (low window : List UInt32)
    (b2 b1 u2 u1 u0 : UInt32)
    (sameLength : window.length = low.length) :
    LeadingDigits (2 ^ 32) b1.toNat b2.toNat (u0.toNat * 2 ^ 32 + u1.toNat)
      u2.toNat (value (low ++ [b2, b1]))
      (value ((window ++ [u2, u1]) ++ [u0])) where
  digits := by
    refine ⟨(2 ^ 32) ^ low.length, value low, value window, ?_, value_lt low,
      ?_, ?_⟩
    · rw [value_append]
      simp only [value_cons, value_nil]
      ring
    · rw [List.append_assoc, value_append, sameLength]
      simp only [List.cons_append, List.nil_append, value_cons, value_nil]
      ring
    · rw [← sameLength]
      exact value_lt window

/-- A limb of the quotient, and less than the divisor is left. -/
theorem divStep_spec
    (low : List UInt32)
    (b2 b1 : UInt32)
    (bnEq : bn = low ++ [b2, b1])
    (normalized : 2 ^ 31 ≤ b1.toNat)
    (long : bn.length + 1 ≤ an.length)
    (oneDigit : value an < 2 ^ 32 * value bn) :
    ∃ digit out, divStep bn an = some (digit, out) ∧
      divStepChecked bn an = some (digit, out) ∧
      out.length = an.length ∧
      value an = digit.toNat * value bn + value out ∧
      value out < value bn := by
  have bnLength : bn.length = low.length + 2 := by simp [bnEq]
  obtain ⟨window, u2, u1, u0, rest, anEq, windowLength⟩ :=
    exists_window low.length (show low.length + 3 ≤ an.length by omega)
  have anSplit : an = ((window ++ [u2, u1]) ++ [u0]) ++ rest := by
    simp [anEq]
  have topLength : ((window ++ [u2, u1]) ++ [u0]).length = bn.length + 1 := by
    simp [windowLength, bnLength]
  have positive : 0 < value bn := by
    by_contra zero
    rw [Nat.eq_zero_of_not_pos zero] at oneDigit
    omega
  have restZero : value rest = 0 := by
    apply value_eq_zero_of_append_lt ((window ++ [u2, u1]) ++ [u0])
    rw [← anSplit, topLength, pow_succ, Nat.mul_comm]
    exact Nat.lt_of_lt_of_le oneDigit
      (Nat.mul_le_mul_left _ (Nat.le_of_lt (value_lt bn)))
  have anValue : value an = value ((window ++ [u2, u1]) ++ [u0]) := by
    rw [anSplit, value_append, restZero, Nat.mul_zero, Nat.add_zero]
  have leading := leadingDigits_of_limbs low window b2 b1 u2 u1 u0
    windowLength
  rw [← bnEq, ← anValue] at leading
  have topValue := @toNat_shiftLeft_or u0.toUInt64
    (by rw [UInt32.toNat_toUInt64]; exact u0.toNat_lt) u1
  rw [UInt32.toNat_toUInt64] at topValue
  have divided := Nat.div_add_mod (u0.toNat * 2 ^ 32 + u1.toNat) b1.toNat
  have restBound := Nat.mod_lt (u0.toNat * 2 ^ 32 + u1.toNat)
    (show 0 < b1.toNat by omega)
  have b1Bound := b1.toNat_lt
  have quotientEq : (((u0.toUInt64 <<< 32) ||| u1.toUInt64) /
      b1.toUInt64).toNat = (u0.toNat * 2 ^ 32 + u1.toNat) / b1.toNat := by
    rw [UInt64.toNat_div, topValue, UInt32.toNat_toUInt64, Nat.mul_comm]
  have restEq : (((u0.toUInt64 <<< 32) ||| u1.toUInt64) %
      b1.toUInt64).toNat = (u0.toNat * 2 ^ 32 + u1.toNat) % b1.toNat := by
    rw [UInt64.toNat_mod, topValue, UInt32.toNat_toUInt64, Nat.mul_comm]
  obtain ⟨qhat, estimated, estimatedChecked, atLeast, atMost, small⟩ :
      ∃ digit, estimateLoop b1 b2 u2 2
          (((u0.toUInt64 <<< 32) ||| u1.toUInt64) / b1.toUInt64)
          (((u0.toUInt64 <<< 32) ||| u1.toUInt64) % b1.toUInt64) =
            some digit ∧
        estimateLoopChecked b1 b2 u2 2
          (((u0.toUInt64 <<< 32) ||| u1.toUInt64) / b1.toUInt64)
          (((u0.toUInt64 <<< 32) ||| u1.toUInt64) % b1.toUInt64) =
            some digit ∧
        value an / value bn ≤ digit.toNat ∧
        digit.toNat ≤ value an / value bn + 1 ∧ digit.toNat < 2 ^ 32 := by
    refine estimateLoop_spec leading normalized oneDigit
      (leading.lt_of_oneDigit b2.toNat_lt oneDigit) ?_ ?_ ?_ (by omega) ?_
    · rw [quotientEq, restEq, Nat.mul_comm]
      exact divided
    · rw [restEq]
      omega
    · rw [quotientEq]
      exact leading.div_le (by omega) u2.toNat_lt
    · omega
  rw [anValue] at atLeast atMost
  obtain ⟨left, negative, ran, ranChecked, exact, oneMore⟩ :=
    divided_of_estimate small (window ++ [u2, u1]) rest u0
      (by simp [windowLength, bnLength]) atLeast atMost positive
  have parts := Nat.div_add_mod (value an) (value bn)
  have below := Nat.mod_lt (value an) positive
  rw [← anValue] at exact oneMore
  rw [List.append_assoc, List.cons_append, List.cons_append, List.nil_append,
    ← anEq] at ran ranChecked
  have b1At : bn[bn.length - 1]? = some b1 := by simp [bnEq]
  have b2At : bn[bn.length - 2]? = some b2 := by simp [bnEq]
  have u0At : an[bn.length]? = some u0 := by
    simp [anEq, bnLength, ← windowLength]
  have u1At : an[bn.length - 1]? = some u1 := by
    simp [anEq, bnLength, ← windowLength]
  have u2At : an[bn.length - 2]? = some u2 := by
    simp [anEq, bnLength, ← windowLength]
  have b1Nonzero : b1 ≠ 0 := by
    rintro rfl
    exact absurd normalized (by decide)
  have highChecked := @shlChecked_limb u0.toUInt64
    (by rw [UInt32.toNat_toUInt64]; exact u0.toNat_lt)
  unfold divStep divStepChecked
  simp only [b1At, b2At, u0At, u1At, u2At, highChecked, if_neg b1Nonzero,
    estimated, estimatedChecked, ran, ranChecked, Option.bind_eq_bind,
    Option.bind_some]
  have anLength : an.length = bn.length + 1 + rest.length := by
    rw [anSplit, List.length_append, topLength]
  cases negative with
  | false =>
      obtain ⟨leftLength, digit, leftValue⟩ := exact rfl
      refine ⟨qhat.toUInt32, left ++ rest, rfl, rfl, ?_, ?_, ?_⟩
      · rw [List.length_append, leftLength, anLength]
      · rw [value_append, restZero, leftValue, UInt64.toNat_toUInt32,
          Nat.mod_eq_of_lt small, digit]
        rw [Nat.mul_comm] at parts
        omega
      · rw [value_append, restZero, leftValue]
        omega
  | true =>
      obtain ⟨digit, out, added, addedChecked, outLength, outValue⟩ :=
        oneMore rfl
      have qhatOne := @subChecked_eq qhat 1 (by
        rw [UInt64.toNat_one, digit]
        exact Nat.succ_pos _)
      have digitEq : (qhat - 1).toNat = value an / value bn := by
        rw [UInt64.toNat_sub_of_le _ _ (UInt64.le_iff_toNat_le.mpr (by
          rw [UInt64.toNat_one, digit]
          exact Nat.succ_pos _)), digit]
        rfl
      simp only [added, addedChecked, qhatOne, if_true, Option.bind_some]
      refine ⟨(qhat - 1).toUInt32, out ++ rest, rfl, rfl, ?_, ?_, ?_⟩
      · rw [List.length_append, outLength, anLength]
      · rw [value_append, restZero, outValue, UInt64.toNat_toUInt32,
          Nat.mod_eq_of_lt (by
            rw [digitEq]
            rw [digit] at small
            exact Nat.lt_of_succ_lt small), digitEq]
        rw [Nat.mul_comm] at parts
        omega
      · rw [value_append, restZero, outValue]
        omega

/-! ## All limbs -/

/-- The limbs taken from position `j` down are a quotient. -/
theorem divLoop_spec
    (low : List UInt32)
    (b2 b1 : UInt32)
    (bnEq : bn = low ++ [b2, b1])
    (normalized : 2 ^ 31 ≤ b1.toNat)
    (j : Nat)
    (an q : List UInt32)
    (long : bn.length + j ≤ an.length)
    (highBound : value (an.drop j) < value bn) :
    ∃ digits left, divLoop bn j an q = some (digits ++ q, left) ∧
      divLoopChecked bn j an q = some (digits ++ q, left) ∧
      digits.length = j ∧ left.length = an.length ∧
      value an = value digits * value bn + value left ∧
      value left < value bn := by
  induction j generalizing an q with
  | zero => exact ⟨[], an, rfl, rfl, rfl, rfl, by simp, highBound⟩
  | succ j ih =>
      have inside : j < an.length := by omega
      have highEq : an.drop j = an[j] :: an.drop (j + 1) :=
        List.drop_eq_getElem_cons inside
      have limbBound := an[j].toNat_lt
      have oneDigit : value (an.drop j) < 2 ^ 32 * value bn := by
        rw [highEq, value_cons]
        omega
      obtain ⟨digit, high, step, stepChecked, highLength, taken, small⟩ :=
        divStep_spec low b2 b1 bnEq normalized
          (by rw [List.length_drop]; omega) oneDigit
      have keptLength : (an.take j ++ high).length = an.length := by
        rw [List.length_append, List.length_take, highLength,
          List.length_drop]
        omega
      have takeLength : (an.take j).length = j := by
        rw [List.length_take]
        omega
      obtain ⟨digits, left, ran, ranChecked, digitsLength, leftLength, whole,
        leftBound⟩ := ih (an.take j ++ high) (digit :: q)
          (by omega) (by rwa [List.drop_left' takeLength])
      refine ⟨digits ++ [digit], left, ?_, ?_, ?_, ?_, ?_, leftBound⟩
      · simp only [divLoop, step, Option.bind_eq_bind, Option.bind_some, ran,
          List.append_assoc, List.cons_append, List.nil_append]
      · simp only [divLoopChecked, stepChecked, Option.bind_eq_bind,
          Option.bind_some, ranChecked, List.append_assoc, List.cons_append,
          List.nil_append]
      · rw [List.length_append, digitsLength]
        rfl
      · rw [leftLength, keptLength]
      · calc value an
            = value (an.take j) + (2 ^ 32) ^ j * value (an.drop j) := by
              nth_rewrite 1 [← List.take_append_drop j an]
              rw [value_append, takeLength]
          _ = value (an.take j ++ high) +
              (2 ^ 32) ^ j * (digit.toNat * value bn) := by
            rw [value_append, takeLength, taken]
            ring
          _ = value (digits ++ [digit]) * value bn + value left := by
            rw [whole, value_append, digitsLength]
            simp only [value_cons, value_nil]
            ring

/-! ## The division -/

/-- `udiv_small` with its words checked. -/
theorem udivSmallLoopChecked_eq
    (positive : 0 < d.toNat)
    (a : List UInt32) :
    udivSmallLoopChecked d a = some (udivSmallLoop d a) := by
  induction a with
  | nil => rfl
  | cons x a ih =>
      obtain ⟨_, below⟩ := udivSmallLoop_spec positive a
      have dBound := d.toNat_lt
      simp only [udivSmallLoopChecked, ih, udivSmallLoop,
        shlChecked_limb (Nat.lt_trans below dBound), Option.bind_eq_bind,
        Option.bind_some]

theorem udivSmallChecked_eq
    (positive : 0 < d.toNat)
    (a : List UInt32) : udivSmallChecked a d = udivSmall a d := by
  unfold udivSmallChecked udivSmall
  split
  · rfl
  · rw [udivSmallLoopChecked_eq positive]
    rfl

/-- The first limbs hold a value that fits them. -/
theorem value_take_of_lt
    (small : value m < (2 ^ 32) ^ n)
    (long : n ≤ m.length) : value (m.take n) = value m := by
  have takeLength : (m.take n).length = n := by
    rw [List.length_take]
    omega
  have zero : value (m.drop n) = 0 := by
    apply value_eq_zero_of_append_lt (m.take n)
    rwa [List.take_append_drop, takeLength]
  have whole := value_append (m.take n) (m.drop n)
  rw [List.take_append_drop, zero, Nat.mul_zero, Nat.add_zero] at whole
  exact whole.symm

/-- The shift that puts a one in the first bit of a limb. -/
theorem leadingZeros_spec
    (nonzero : limb ≠ 0) :
    leadingZeros limb < 32 ∧
      2 ^ 31 ≤ limb.toNat * 2 ^ leadingZeros limb ∧
      (limb.toNat + 1) * 2 ^ leadingZeros limb ≤ 2 ^ 32 := by
  have positive : 0 < limb.toNat.size := by
    rw [Nat.lt_size, Nat.pow_zero]
    by_contra zero
    exact nonzero (UInt32.toNat_inj.mp (by simpa using zero))
  have atMost : limb.toNat.size ≤ 32 := Nat.size_le.mpr limb.toNat_lt
  have above := Nat.lt_size_self limb.toNat
  have below : 2 ^ (limb.toNat.size - 1) ≤ limb.toNat :=
    Nat.lt_size.mp (by omega)
  unfold leadingZeros
  generalize limb.toNat.size = size at *
  refine ⟨by omega, ?_, ?_⟩
  · calc 2 ^ 31 = 2 ^ (size - 1) * 2 ^ (32 - size) := by
          rw [← Nat.pow_add]
          congr 1
          omega
      _ ≤ limb.toNat * 2 ^ (32 - size) := Nat.mul_le_mul_right _ below
  · calc (limb.toNat + 1) * 2 ^ (32 - size)
        ≤ 2 ^ size * 2 ^ (32 - size) := Nat.mul_le_mul_right _ above
      _ = 2 ^ 32 := by
          rw [← Nat.pow_add]
          congr 1
          omega

/-- The divisor and the dividend of the long division, shifted so that the
divisor's first bit is one. -/
theorem shifted_spec
    (s : UInt32)
    (k : Nat)
    (width : s.toNat = k)
    (high : k < 32)
    (m : List UInt32) :
    (if s = 0 then m ++ [0]
      else (shlLoop s m 0).1 ++ [(shlLoop s m 0).2]).length = m.length + 1 ∧
      value (if s = 0 then m ++ [0]
        else (shlLoop s m 0).1 ++ [(shlLoop s m 0).2]) = value m * 2 ^ k := by
  by_cases zero : s = 0
  · have none : k = 0 := by
      rw [← width, zero]
      rfl
    rw [if_pos zero, none]
    refine ⟨by simp, ?_⟩
    rw [value_append]
    simp
  · have low : 0 < k := by
      rw [← width]
      by_contra none
      exact zero (UInt32.toNat_inj.mp (by simpa using none))
    obtain ⟨sameLength, shifted, _⟩ :=
      value_shlLoop width low high m
        (show (0 : UInt32).toNat < 2 ^ k from Nat.pow_pos (by omega))
    rw [if_neg zero]
    refine ⟨by simp [sameLength], ?_⟩
    rw [value_append, sameLength]
    simp only [value_cons, value_nil, Nat.mul_zero, Nat.add_zero]
    rw [shifted]
    rfl

/-- The shifted divisor keeps its length and starts with a one. -/
theorem shiftedDivisor_spec
    (s : UInt32)
    (k : Nat)
    (width : s.toNat = k)
    (high : k < 32)
    (front : List UInt32)
    (last : UInt32)
    (first : 2 ^ 31 ≤ last.toNat * 2 ^ k)
    (fits : (last.toNat + 1) * 2 ^ k ≤ 2 ^ 32) :
    (if s = 0 then front ++ [last]
      else (shlLoop s (front ++ [last]) 0).1).length = front.length + 1 ∧
      value (if s = 0 then front ++ [last]
        else (shlLoop s (front ++ [last]) 0).1) =
          value (front ++ [last]) * 2 ^ k ∧
      (s ≠ 0 → (shlLoop s (front ++ [last]) 0).2 = 0) ∧
      (2 ^ 32) ^ front.length * 2 ^ 31 ≤ value (front ++ [last]) * 2 ^ k := by
  have wholeValue : value (front ++ [last]) =
      value front + (2 ^ 32) ^ front.length * last.toNat := by
    rw [value_append]
    simp
  have atLeast : (2 ^ 32) ^ front.length * 2 ^ 31 ≤
      value (front ++ [last]) * 2 ^ k := by
    calc (2 ^ 32) ^ front.length * 2 ^ 31
        ≤ (2 ^ 32) ^ front.length * (last.toNat * 2 ^ k) :=
          Nat.mul_le_mul_left _ first
      _ = (2 ^ 32) ^ front.length * last.toNat * 2 ^ k := by ring
      _ ≤ value (front ++ [last]) * 2 ^ k := by
        rw [wholeValue]
        exact Nat.mul_le_mul_right _ (Nat.le_add_left _ _)
  have below : value (front ++ [last]) * 2 ^ k <
      (2 ^ 32) ^ (front.length + 1) := by
    calc value (front ++ [last]) * 2 ^ k
        < ((2 ^ 32) ^ front.length * (last.toNat + 1)) * 2 ^ k := by
          refine Nat.mul_lt_mul_of_pos_right ?_ (Nat.pow_pos (by omega))
          rw [wholeValue, Nat.mul_succ]
          have := value_lt front
          omega
      _ = (2 ^ 32) ^ front.length * ((last.toNat + 1) * 2 ^ k) := by ring
      _ ≤ (2 ^ 32) ^ front.length * 2 ^ 32 := Nat.mul_le_mul_left _ fits
      _ = (2 ^ 32) ^ (front.length + 1) := (Nat.pow_succ ..).symm
  by_cases zero : s = 0
  · have none : k = 0 := by
      rw [← width, zero]
      rfl
    rw [if_pos zero]
    exact ⟨by simp, by simp [none], fun some_ => absurd zero some_, atLeast⟩
  · have low : 0 < k := by
      rw [← width]
      by_contra none
      exact zero (UInt32.toNat_inj.mp (by simpa using none))
    obtain ⟨sameLength, shifted, _⟩ := value_shlLoop width low high
      (front ++ [last])
      (show (0 : UInt32).toNat < 2 ^ k from Nat.pow_pos (by omega))
    rw [UInt32.toNat_zero, Nat.add_zero, List.length_append,
      List.length_singleton] at shifted
    have carryZero : (shlLoop s (front ++ [last]) 0).2.toNat = 0 := by
      by_contra some_
      have := Nat.le_mul_of_pos_right ((2 ^ 32) ^ (front.length + 1))
        (Nat.pos_of_ne_zero some_)
      omega
    rw [if_neg zero]
    refine ⟨by simp [sameLength], ?_, ?_, atLeast⟩
    · rwa [carryZero, Nat.mul_zero, Nat.add_zero] at shifted
    · exact fun _ => UInt32.toNat_inj.mp carryZero

/-- The last limb of the shifted divisor. -/
theorem exists_normalized
    (atLeast : (2 ^ 32) ^ (n + 1) * 2 ^ 31 ≤ value bn)
    (bnLength : bn.length = n + 2) :
    ∃ low b2 b1, bn = low ++ [b2, b1] ∧ 2 ^ 31 ≤ b1.toNat := by
  obtain ⟨front, b1, rfl⟩ : ∃ front b1, bn = front ++ [b1] := by
    rcases List.eq_nil_or_concat' bn with rfl | concat
    · cases bnLength
    · exact concat
  obtain ⟨low, b2, rfl⟩ : ∃ low b2, front = low ++ [b2] := by
    rcases List.eq_nil_or_concat' front with rfl | concat
    · simp at bnLength
    · exact concat
  refine ⟨low, b2, b1, by simp, ?_⟩
  have frontLength : (low ++ [b2]).length = n + 1 := by
    simpa using bnLength
  have frontBound := value_lt (low ++ [b2])
  rw [value_append, frontLength] at atLeast
  rw [frontLength] at frontBound
  simp only [value_cons, value_nil, Nat.mul_zero, Nat.add_zero] at atLeast
  by_contra small
  have more : (2 ^ 32) ^ (n + 1) * (b1.toNat + 1) ≤
      (2 ^ 32) ^ (n + 1) * 2 ^ 31 := Nat.mul_le_mul_left _ (by omega)
  rw [Nat.mul_succ] at more
  omega

/-- The limbs above the first quotient limb are less than the divisor. -/
theorem value_drop_lt
    (anLength : an.length = a.length + 1)
    (anValue : value an = value a * 2 ^ k)
    (high : k < 32)
    (inside : n + 1 ≤ a.length)
    (divisor : (2 ^ 32) ^ n * 2 ^ 31 ≤ bound) :
    value (an.drop (a.length - n)) < bound := by
  have takeLength : (an.take (a.length - n)).length = a.length - n := by
    rw [List.length_take]
    omega
  have whole := value_append (an.take (a.length - n)) (an.drop (a.length - n))
  rw [List.take_append_drop, takeLength, anValue] at whole
  have power : 2 ^ k ≤ 2 ^ 31 := Nat.pow_le_pow_right (by omega) (by omega)
  have split : (2 ^ 32) ^ a.length =
      (2 ^ 32) ^ (a.length - n) * (2 ^ 32) ^ n := by
    rw [← Nat.pow_add]
    congr 1
    omega
  refine Nat.lt_of_lt_of_le ?_ divisor
  refine Nat.lt_of_mul_lt_mul_left (a := (2 ^ 32) ^ (a.length - n)) ?_
  calc (2 ^ 32) ^ (a.length - n) * value (an.drop (a.length - n))
      ≤ value a * 2 ^ k := by omega
    _ < (2 ^ 32) ^ a.length * 2 ^ k :=
        Nat.mul_lt_mul_of_pos_right (value_lt a) (Nat.pow_pos (by omega))
    _ ≤ (2 ^ 32) ^ a.length * 2 ^ 31 := Nat.mul_le_mul_left _ power
    _ = (2 ^ 32) ^ (a.length - n) * ((2 ^ 32) ^ n * 2 ^ 31) := by
      rw [split]
      ring

/-- The smaller of two magnitudes in the comparison has the smaller value. -/
theorem value_lt_of_ucmp
    (bTrimmed : Trimmed b)
    (less : ucmp a b = .lt) : value a < value b := by
  unfold ucmp at less
  by_cases same : a.length = b.length
  · rw [if_neg (not_not.mpr same), ucmpLoop_eq same,
      Nat.compare_eq_lt] at less
    exact less
  · rw [if_pos same, Nat.compare_eq_lt] at less
    exact value_lt_of_length_lt bTrimmed less

theorem length_le_of_ucmp (notLess : ucmp a b ≠ .lt) :
    b.length ≤ a.length := by
  by_contra shorter
  refine notLess ?_
  unfold ucmp
  rw [if_pos (by omega), Nat.compare_eq_lt]
  omega

/-- The division by a magnitude of two limbs or more. -/
theorem longDivision_spec
    (front : List UInt32)
    (last : UInt32)
    (nonzero : last ≠ 0)
    (two : 1 ≤ front.length)
    (long : front.length + 1 ≤ a.length)
    (notLess : ucmp a (front ++ [last]) ≠ .lt) :
    ∃ q r, udivmod a (front ++ [last]) = some (trim q, trim r) ∧
      udivmodChecked a (front ++ [last]) = some (trim q, trim r) ∧
      value a = value q * value (front ++ [last]) + value r ∧
      value r < value (front ++ [last]) := by
  obtain ⟨high, first, fits⟩ := leadingZeros_spec nonzero
  have width : (UInt32.ofNat (leadingZeros last)).toNat =
      leadingZeros last := by
    rw [UInt32.toNat_ofNat', Nat.mod_eq_of_lt]
    omega
  have getLast : (front ++ [last]).getLast? = some last := by simp
  have notOne : ¬(front ++ [last]).length = 1 := by
    rw [List.length_append, List.length_singleton]
    omega
  have notEmpty : ¬(front ++ [last]).isEmpty = true := by simp
  unfold udivmod udivmodChecked
  rw [if_neg notLess, if_neg notEmpty, if_neg notLess, getLast]
  simp only [if_neg notOne]
  generalize leadingZeros last = k at *
  generalize UInt32.ofNat k = s at *
  obtain ⟨bnLength, bnValue, carryZero, divisor⟩ :=
    shiftedDivisor_spec s k width high front last first fits
  obtain ⟨anLength, anValue⟩ := shifted_spec s k width high a
  have noAssertion : ¬(a.length < (front ++ [last]).length ∨
      (s ≠ 0 ∧ (shlLoop s (front ++ [last]) 0).2 ≠ 0)) := by
    rintro (short | ⟨some_, carry⟩)
    · rw [List.length_append, List.length_singleton] at short
      omega
    · exact carry (carryZero some_)
  rw [if_neg noAssertion]
  generalize (if s = 0 then front ++ [last]
    else (shlLoop s (front ++ [last]) 0).1) = bn at *
  generalize (if s = 0 then a ++ [0]
    else (shlLoop s a 0).1 ++ [(shlLoop s a 0).2]) = an at *
  rw [← bnValue] at divisor
  obtain ⟨low, b2, b1, bnEq, normalized⟩ :=
    exists_normalized (n := front.length - 1)
      (by rwa [Nat.sub_add_cancel two]) (by omega)
  have turns : a.length - (front ++ [last]).length + 1 =
      a.length - front.length := by
    rw [List.length_append, List.length_singleton]
    omega
  have above := value_drop_lt anLength anValue high long divisor
  obtain ⟨digits, left, ran, ranChecked, _, leftLength, whole, leftBound⟩ :=
    divLoop_spec low b2 b1 bnEq normalized (a.length - front.length) an []
      (by omega) above
  rw [List.append_nil] at ran ranChecked
  rw [turns, ran, ranChecked]
  have count : (front ++ [last]).length = bn.length := by
    rw [bnLength]
    simp
  have kept : value (left.take (front ++ [last]).length) = value left := by
    rw [count]
    exact value_take_of_lt (Nat.lt_trans leftBound (value_lt bn)) (by omega)
  refine ⟨digits, _, rfl, rfl, ?_⟩
  have shiftedBack : value (if s > 0 then
      ushr (left.take (front ++ [last]).length) 0 s
      else left.take (front ++ [last]).length) = value left / 2 ^ k := by
    by_cases zero : s = 0
    · have none : k = 0 := by
        rw [← width, zero]
        rfl
      rw [if_neg (by simp [zero]), kept, none, Nat.pow_zero, Nat.div_one]
    · have positive : s > 0 := by
        rw [gt_iff_lt, UInt32.lt_iff_toNat_lt, UInt32.toNat_zero]
        by_contra none
        exact zero (UInt32.toNat_inj.mp (by simpa using none))
      rw [if_pos positive, value_ushr width high, kept, Nat.mul_zero,
        Nat.zero_add]
  have power : 0 < 2 ^ k := Nat.pow_pos (by omega)
  rw [anValue, bnValue] at whole
  rw [bnValue] at leftBound
  obtain ⟨rest, restEq⟩ : 2 ^ k ∣ value left := by
    refine (Nat.dvd_add_right (?_ : 2 ^ k ∣
      value digits * (value (front ++ [last]) * 2 ^ k))).mp ?_
    · exact Nat.dvd_mul_left_of_dvd (Nat.dvd_mul_left _ _) _
    · rw [← whole]
      exact Nat.dvd_mul_left _ _
  rw [restEq] at whole leftBound
  have divided : 2 ^ k * rest / 2 ^ k = rest := Nat.mul_div_cancel_left _ power
  have scaled : value a * 2 ^ k =
      (value digits * value (front ++ [last]) + rest) * 2 ^ k := by
    rw [whole]
    ring
  constructor
  · rw [shiftedBack, restEq, divided]
    exact Nat.eq_of_mul_eq_mul_right power scaled
  · rw [shiftedBack, restEq, divided]
    rw [Nat.mul_comm] at leftBound
    exact Nat.lt_of_mul_lt_mul_right leftBound

theorem udivSmall_trimmed (ran : udivSmall a d = some (q, r)) :
    Trimmed q := by
  unfold udivSmall at ran
  split at ran
  · cases ran
  · cases ran
    exact trim_trimmed _

/-- The division of magnitudes.  The remainder of a dividend that is smaller is
the dividend as it is. -/
theorem udivmod_spec
    (bTrimmed : Trimmed b)
    (nonempty : b ≠ []) :
    ∃ q r, udivmod a b = some (q, r) ∧ udivmodChecked a b = some (q, r) ∧
      Trimmed q ∧ (ucmp a b = .lt → r = a) ∧
      (ucmp a b ≠ .lt → Trimmed r) ∧
      value a = value q * value b + value r ∧ value r < value b := by
  by_cases less : ucmp a b = .lt
  · have notEmpty : ¬b.isEmpty = true := by simpa using nonempty
    refine ⟨[], a, ?_, ?_, trimmed_nil, fun _ => rfl,
      fun not => absurd less not, by simp, value_lt_of_ucmp bTrimmed less⟩
    · unfold udivmod
      rw [if_pos less]
    · unfold udivmodChecked
      rw [if_neg notEmpty, if_pos less]
  · obtain ⟨front, last, rfl⟩ : ∃ front last, b = front ++ [last] := by
      rcases List.eq_nil_or_concat' b with rfl | concat
      · exact absurd rfl nonempty
      · exact concat
    have nonzero : last ≠ 0 := by
      simpa [Trimmed] using bTrimmed
    rcases Nat.eq_zero_or_pos front.length with one | more
    · have empty := List.eq_nil_of_length_eq_zero one
      subst empty
      have positive : 0 < last.toNat := by
        by_contra zero
        exact nonzero (UInt32.toNat_inj.mp (by simpa using zero))
      obtain ⟨q, r, ran, quotient, remainder⟩ := udivSmall_spec positive a
      refine ⟨q, trim [r], ?_, ?_, udivSmall_trimmed ran,
        fun yes => absurd yes less, fun _ => trim_trimmed _, ?_, ?_⟩
      · unfold udivmod
        rw [if_neg less]
        simp [ran]
      · unfold udivmodChecked
        rw [if_neg less]
        simp [udivSmallChecked_eq positive, ran]
      · simp only [List.nil_append, value_trim, value_cons, value_nil,
          Nat.mul_zero, Nat.add_zero, quotient, remainder]
        rw [Nat.mul_comm]
        exact (Nat.div_add_mod _ _).symm
      · simp only [List.nil_append, value_trim, value_cons, value_nil,
          Nat.mul_zero, Nat.add_zero, remainder]
        exact Nat.mod_lt _ positive
    · have long := length_le_of_ucmp less
      rw [List.length_append, List.length_singleton] at long
      obtain ⟨q, r, ran, ranChecked, whole, below⟩ :=
        longDivision_spec front last nonzero more long less
      refine ⟨trim q, trim r, ran, ranChecked, trim_trimmed _,
        fun yes => absurd yes less, fun _ => trim_trimmed _, ?_, ?_⟩
      · rw [value_trim, value_trim]
        exact whole
      · rw [value_trim]
        exact below

end SabiRuby.Integer
