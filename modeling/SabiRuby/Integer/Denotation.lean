import SabiRuby.Integer.Magnitude

/-!
# The integer a big integer stands for

A big integer with trimmed limbs and no signed zero stands for exactly one
integer, and it turns into a machine integer exactly when that integer fits.
-/

namespace SabiRuby.Integer

/-- Trimmed limbs are determined by their value. -/
theorem value_injective
    (aTrimmed : Trimmed a)
    (bTrimmed : Trimmed b)
    (same : value a = value b) : a = b := by
  induction a generalizing b with
  | nil => exact ((value_eq_zero_iff bTrimmed).mp same.symm).symm
  | cons x a ih =>
      cases b with
      | nil => exact (value_eq_zero_iff aTrimmed).mp same
      | cons y b =>
          rw [value_cons, value_cons] at same
          have xBound := x.toNat_lt
          have yBound := y.toNat_lt
          have limb : x.toNat = y.toNat := by omega
          have rest : value a = value b := by omega
          rw [UInt32.toNat_inj.mp limb,
            ih aTrimmed.tail bTrimmed.tail rest]

namespace BigInt

/-- The integer. -/
def toInt (self : BigInt) : Int :=
  if self.neg then -(value self.mag : Int) else value self.mag

/-- The limbs are trimmed, and zero has no sign. -/
structure WellFormed (number : BigInt) : Prop where
  trimmed : Trimmed number.mag
  unsigned : number.mag = [] → number.neg = false

theorem natAbs_toInt (self : BigInt) : self.toInt.natAbs = value self.mag := by
  unfold toInt
  split <;> omega

theorem WellFormed.neg_iff
    {self : BigInt}
    (formed : self.WellFormed) : self.neg = true ↔ self.toInt < 0 := by
  unfold toInt
  cases sign : self.neg with
  | false =>
      simp only [Bool.false_eq_true, if_false, false_iff]
      omega
  | true =>
      have nonzero : value self.mag ≠ 0 := by
        intro zero
        have empty := (value_eq_zero_iff formed.trimmed).mp zero
        have unsigned := formed.unsigned empty
        rw [sign] at unsigned
        cases unsigned
      simp only [if_true, true_iff]
      omega

/-- A well-formed integer is determined by what it stands for. -/
theorem WellFormed.eq_of_toInt
    {a b : BigInt}
    (aFormed : a.WellFormed)
    (bFormed : b.WellFormed)
    (same : a.toInt = b.toInt) : a = b := by
  have mag : a.mag = b.mag := by
    apply value_injective aFormed.trimmed bFormed.trimmed
    rw [← natAbs_toInt, ← natAbs_toInt, same]
  have sign : a.neg = b.neg := by
    rw [Bool.eq_iff_iff, aFormed.neg_iff, bFormed.neg_iff, same]
  cases a
  cases b
  cases mag
  cases sign
  rfl

theorem wellFormed_make (neg : Bool) (mag : List UInt32) :
    (make neg mag).WellFormed where
  trimmed := trim_trimmed mag
  unsigned := by
    intro empty
    have none : trim mag = [] := empty
    simp [make, none]

theorem toInt_make (neg : Bool) (mag : List UInt32) :
    (make neg mag).toInt =
      if neg then -(value mag : Int) else value mag := by
  unfold toInt make
  rw [value_trim]
  cases neg with
  | false => simp
  | true =>
      by_cases empty : (trim mag).isEmpty = true
      · have zero : value mag = 0 := by
          rw [← value_trim, List.isEmpty_iff.mp empty, value_nil]
        simp [zero]
      · simp [empty]

/-! ## Machine integers -/

theorem value_words (u : UInt64) :
    value [u.toUInt32, (u >>> 32).toUInt32] = u.toNat := by
  have high : (u >>> 32).toUInt32.toNat = (u >>> 32).toNat := by
    have bound := u.toNat_lt
    have shifted : (u >>> 32).toNat = u.toNat / 2 ^ 32 := by
      simp [UInt64.toNat_shiftRight, Nat.shiftRight_eq_div_pow]
    rw [UInt64.toNat_toUInt32, Nat.mod_eq_of_lt]
    omega
  have parts := toUInt32_add_shiftRight u
  simp only [value_cons, value_nil, high]
  omega

theorem fromSignU64_eq (neg : Bool) (u : UInt64) :
    fromSignU64 neg u = make neg [u.toUInt32, (u >>> 32).toUInt32] := rfl

theorem wellFormed_fromI64 (v : Int64) : (fromI64 v).WellFormed :=
  wellFormed_make _ _

theorem toInt_fromI64 (v : Int64) : (fromI64 v).toInt = v.toInt := by
  have low := Int64.le_toInt v
  have high := Int64.toInt_lt v
  have abs : (unsignedAbs v).toNat = v.toInt.natAbs := by
    unfold unsignedAbs
    rw [UInt64.toNat_ofNat', Nat.mod_eq_of_lt]
    omega
  unfold fromI64
  rw [fromSignU64_eq, toInt_make, value_words, abs]
  by_cases negative : v < 0
  · have sign : v.toInt < 0 := by simpa [Int64.lt_iff_toInt_lt] using negative
    simp only [negative, decide_true, if_true]
    omega
  · have sign : ¬v.toInt < 0 := by simpa [Int64.lt_iff_toInt_lt] using negative
    simp only [negative, decide_false, Bool.false_eq_true, if_false]
    omega

theorem wellFormed_fromU64 (v : UInt64) : (fromU64 v).WellFormed :=
  wellFormed_make _ _

theorem toInt_fromU64 (v : UInt64) : (fromU64 v).toInt = v.toNat := by
  unfold fromU64
  rw [fromSignU64_eq, toInt_make, value_words]
  simp

/-- The integer fits a machine integer. -/
def FitsI64 (number : Int) : Prop := -2 ^ 63 ≤ number ∧ number < 2 ^ 63

instance (number : Int) : Decidable (FitsI64 number) :=
  inferInstanceAs (Decidable (_ ∧ _))

theorem fitsI64_toInt (v : Int64) : FitsI64 v.toInt :=
  ⟨Int64.le_toInt v, Int64.toInt_lt v⟩

/-- The two words of a short magnitude. -/
theorem toNat_words (x y : UInt32) :
    (x.toUInt64 ||| y.toUInt64 <<< 32).toNat = value [x, y] := by
  have high : y.toUInt64.toNat < 2 ^ 32 := by
    rw [UInt32.toNat_toUInt64]
    exact y.toNat_lt
  have joined := toNat_shiftLeft_or high x
  rw [UInt64.or_comm, joined, UInt32.toNat_toUInt64]
  simp only [value_cons, value_nil]
  omega

theorem lt_word_iff
    (limitEq : limit.toNat = bound)
    (u : UInt64) : u > limit ↔ bound < u.toNat := by
  rw [gt_iff_lt, UInt64.lt_iff_toNat_lt, limitEq]

/-- The last steps of `to_i64`. -/
theorem toI64_word
    (neg : Bool)
    (u : UInt64) :
    (if u > (2 ^ 63 - 1 : UInt64) + (if neg then 1 else 0) then none
      else if neg then
        if u = (2 ^ 63 - 1) + 1 then some Int64.minValue
        else some (-u.toInt64)
      else some u.toInt64) =
    if FitsI64 (if neg then -(u.toNat : Int) else u.toNat) then
      some (Int64.ofInt (if neg then -(u.toNat : Int) else u.toNat))
    else none := by
  have word : u.toInt64 = Int64.ofInt u.toNat := by
    apply Int64.toInt_inj.mp
    rw [toInt_toInt64, Int64.toInt_ofInt]
    rfl
  cases neg with
  | false =>
      have above := lt_word_iff
        (show ((2 ^ 63 - 1 : UInt64) + 0).toNat = 2 ^ 63 - 1 by decide +kernel) u
      simp only [Bool.false_eq_true, if_false, above]
      by_cases fits : FitsI64 u.toNat
      · rw [if_neg (by unfold FitsI64 at fits; omega), if_pos fits, word]
      · rw [if_pos (by unfold FitsI64 at fits; omega), if_neg fits]
  | true =>
      have above := lt_word_iff
        (show ((2 ^ 63 - 1 : UInt64) + 1).toNat = 2 ^ 63 by decide +kernel) u
      simp only [if_true, above]
      by_cases fits : FitsI64 (-(u.toNat : Int))
      · rw [if_neg (by unfold FitsI64 at fits; omega), if_pos fits]
        by_cases least : u = (2 ^ 63 - 1) + 1
        · rw [if_pos least]
          subst least
          decide +kernel
        · rw [if_neg least, word, ← Int64.ofInt_neg]
      · rw [if_pos (by unfold FitsI64 at fits; omega), if_neg fits]

/-- `to_i64` answers exactly where the integer fits. -/
theorem WellFormed.toI64_eq
    {self : BigInt}
    (formed : self.WellFormed) :
    self.toI64 =
      if FitsI64 self.toInt then some (Int64.ofInt self.toInt) else none := by
  obtain ⟨neg, mag⟩ := self
  match mag, formed with
  | [], formed =>
      have positive : neg = false := formed.unsigned rfl
      subst positive
      rfl
  | [x], _ =>
      have word : x.toUInt64.toNat = value [x] := by
        simp [UInt32.toNat_toUInt64]
      have steps := toI64_word neg x.toUInt64
      rw [word] at steps
      unfold toInt
      rw [← steps]
      simp [toI64]
  | [x, y], _ =>
      have steps := toI64_word neg (x.toUInt64 ||| y.toUInt64 <<< 32)
      rw [toNat_words] at steps
      unfold toInt
      rw [← steps]
      simp [toI64]
  | x :: y :: z :: rest, formed =>
      have large := formed.trimmed.le_value
      have power : (2 ^ 32) ^ 2 ≤ (2 ^ 32) ^ (y :: z :: rest).length :=
        Nat.pow_le_pow_right (by omega) (by simp)
      have wide : ¬FitsI64 (toInt ⟨neg, x :: y :: z :: rest⟩) := by
        have size : (toInt ⟨neg, x :: y :: z :: rest⟩).natAbs =
            value (x :: y :: z :: rest) := natAbs_toInt _
        have least := Nat.le_trans power large
        unfold FitsI64
        omega
      rw [if_neg wide]
      simp [toI64]

end BigInt

end SabiRuby.Integer
