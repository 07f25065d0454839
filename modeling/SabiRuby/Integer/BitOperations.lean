import SabiRuby.Integer.Arithmetic
import SabiRuby.Library.Complements

/-!
# Bit operations on big integers

The operations read both integers as two's complement without end.  They work on
one limb more than the longer magnitude, whose limb is the sign of the result,
and shifts multiply and divide by powers of two.
-/

namespace SabiRuby.Integer

open Library

/-! ## The bits of limbs -/

theorem testBit_value_cons (x : UInt32) (m : List UInt32) (i : Nat) :
    (value (x :: m)).testBit i =
      if i < 32 then x.toNat.testBit i else (value m).testBit (i - 32) := by
  rw [value_cons, Nat.add_comm]
  exact Nat.testBit_two_pow_mul_add _ x.toNat_lt i

/-- The operation on limbs works bit by bit. -/
def Bitwise (op : UInt32 → UInt32 → UInt32) (bit : Bool → Bool → Bool) :
    Prop :=
  ∀ x y i, i < 32 →
    (op x y).toNat.testBit i = bit (x.toNat.testBit i) (y.toNat.testBit i)

theorem bitwise_and : Bitwise (· &&& ·) (· && ·) := by
  intro x y i _
  simp

theorem bitwise_or : Bitwise (· ||| ·) (· || ·) := by
  intro x y i _
  simp

theorem bitwise_xor : Bitwise (· ^^^ ·) (· ^^ ·) := by
  intro x y i _
  simp

theorem testBit_zipWith
    (bitwise : Bitwise op bit)
    (xs ys : List UInt32)
    (sameLength : xs.length = ys.length)
    (inside : i < 32 * xs.length) :
    (value (List.zipWith op xs ys)).testBit i =
      bit ((value xs).testBit i) ((value ys).testBit i) := by
  induction xs generalizing ys i with
  | nil => exact absurd inside (Nat.not_lt_zero _)
  | cons x xs ih =>
      cases ys with
      | nil => cases sameLength
      | cons y ys =>
          rw [List.zipWith_cons_cons, testBit_value_cons, testBit_value_cons,
            testBit_value_cons]
          by_cases first : i < 32
          · rw [if_pos first, if_pos first, if_pos first]
            exact bitwise x y i first
          · rw [if_neg first, if_neg first, if_neg first]
            rw [List.length_cons] at inside
            exact ih ys (Nat.succ.inj sameLength) (by omega)

/-- The limbs both magnitudes have; the others are zero in the result. -/
theorem testBit_zipWith_and (xs ys : List UInt32) (i : Nat) :
    (value (List.zipWith (· &&& ·) xs ys)).testBit i =
      ((value xs).testBit i && (value ys).testBit i) := by
  induction xs generalizing ys i with
  | nil => simp
  | cons x xs ih =>
      cases ys with
      | nil => simp
      | cons y ys =>
          rw [List.zipWith_cons_cons, testBit_value_cons, testBit_value_cons,
            testBit_value_cons]
          by_cases first : i < 32
          · rw [if_pos first, if_pos first, if_pos first]
            exact bitwise_and x y i first
          · rw [if_neg first, if_neg first, if_neg first]
            exact ih ys (i - 32)

theorem value_map_eq
    (same : ∀ x : UInt32, op x = x)
    (m : List UInt32) : value (m.map op) = value m := by
  rw [List.map_congr_left fun x _ => same x, List.map_id']

/-- The limbs of the longer magnitude, the shorter one counting as zero. -/
theorem testBit_zipLong
    (bitwise : Bitwise op bit)
    (leftZero : ∀ y, op 0 y = y)
    (rightZero : ∀ x, op x 0 = x)
    (leftFalse : ∀ b, bit false b = b)
    (rightFalse : ∀ b, bit b false = b)
    (xs ys : List UInt32)
    (i : Nat) :
    (value (BigInt.zipLong op xs ys)).testBit i =
      bit ((value xs).testBit i) ((value ys).testBit i) := by
  induction xs generalizing ys i with
  | nil =>
      rw [BigInt.zipLong, value_map_eq leftZero]
      simp [leftFalse]
  | cons x xs ih =>
      cases ys with
      | nil =>
          rw [BigInt.zipLong, value_map_eq rightZero]
          simp [rightFalse]
      | cons y ys =>
          rw [BigInt.zipLong, testBit_value_cons, testBit_value_cons,
            testBit_value_cons]
          by_cases first : i < 32
          · rw [if_pos first, if_pos first, if_pos first]
            exact bitwise x y i first
          · rw [if_neg first, if_neg first, if_neg first]
            exact ih ys (i - 32)

namespace BigInt

/-! ## Two's complement -/

/-- One limb: the complement, and the carry out of it. -/
theorem twoComp_spec (v : UInt32) (c : Bool) :
    (twoComp v c).1.toNat + 2 ^ 32 * (twoComp v c).2.toNat + v.toNat + 1 =
      2 ^ 32 + c.toNat := by
  have bound := v.toNat_lt
  have complement : (~~~v).toNat = 2 ^ 32 - 1 - v.toNat := UInt32.toNat_not v
  cases c with
  | false =>
      have plain : twoComp v false = (~~~v, false) := by
        simp [twoComp]
      rw [plain]
      simp only [complement, Bool.toNat_false]
      omega
  | true =>
      have sum : (~~~v + 1).toNat = (2 ^ 32 - 1 - v.toNat + 1) % 2 ^ 32 := by
        rw [UInt32.toNat_add, complement]
        rfl
      have negated : twoComp v true = (~~~v + 1, ~~~v + 1 == 0) := by
        simp [twoComp]
      rw [negated]
      dsimp only
      by_cases zero : ~~~v + 1 = 0
      · rw [zero] at sum ⊢
        simp only [beq_self_eq_true, Bool.toNat_true, UInt32.toNat_zero]
          at sum ⊢
        omega
      · have some_ : (~~~v + 1).toNat ≠ 0 := by
          intro none
          exact zero (UInt32.toNat_inj.mp none)
        rw [beq_false_of_ne zero, Bool.toNat_false, Bool.toNat_true]
        omega

theorem value_headD_tail (m : List UInt32) :
    value m = (m.headD 0).toNat + 2 ^ 32 * value m.tail := by
  cases m with
  | nil => rfl
  | cons x m => exact value_cons x m

theorem length_twosLoop (neg : Bool) (n : Nat) (mag : List UInt32) (c : Bool) :
    (twosLoop neg n mag c).length = n := by
  induction n generalizing mag c with
  | zero => rfl
  | succ n ih =>
      cases neg <;> simp [twosLoop, ih]

/-- The limbs of a negative integer. -/
theorem twosLoop_spec
    (n : Nat)
    (mag : List UInt32)
    (c : Bool)
    (fits : mag.length ≤ n) :
    ∃ after : Bool,
      value (twosLoop true n mag c) + (2 ^ 32) ^ n * after.toNat +
        value mag + 1 = (2 ^ 32) ^ n + c.toNat := by
  induction n generalizing mag c with
  | zero =>
      have empty := List.eq_nil_of_length_eq_zero (Nat.le_zero.mp fits)
      subst empty
      exact ⟨c, by simp [twosLoop]; omega⟩
  | succ n ih =>
      have limb := twoComp_spec (mag.headD 0) c
      obtain ⟨after, rest⟩ := ih mag.tail
        (twoComp (mag.headD 0) c).2 (by rw [List.length_tail]; omega)
      refine ⟨after, ?_⟩
      have unfolded : twosLoop true (n + 1) mag c =
          (twoComp (mag.headD 0) c).1 ::
            twosLoop true n mag.tail (twoComp (mag.headD 0) c).2 := rfl
      rw [unfolded, value_cons, value_headD_tail mag, pow_succ (2 ^ 32) n]
      generalize (2 ^ 32) ^ n = power at *
      have product : power * 2 ^ 32 * after.toNat =
          2 ^ 32 * (power * after.toNat) := by ring
      rw [product]
      omega

theorem twosLoop_positive
    (n : Nat)
    (mag : List UInt32)
    (c : Bool)
    (fits : mag.length ≤ n) : value (twosLoop false n mag c) = value mag := by
  induction n generalizing mag with
  | zero =>
      have empty := List.eq_nil_of_length_eq_zero (Nat.le_zero.mp fits)
      subst empty
      rfl
  | succ n ih =>
      have unfolded : twosLoop false (n + 1) mag c =
          mag.headD 0 :: twosLoop false n mag.tail c := rfl
      rw [unfolded, value_cons,
        ih mag.tail (by rw [List.length_tail]; omega),
        ← value_headD_tail]

/-- The limbs are the remainder by their width. -/
theorem value_twos
    (self : BigInt)
    (fits : self.mag.length ≤ n) :
    value (self.twos n) = (self.toInt % 2 ^ (32 * n)).toNat := by
  have below := value_lt self.mag
  have wide : (2 ^ 32) ^ self.mag.length ≤ (2 ^ 32) ^ n :=
    Nat.pow_le_pow_right (by omega) fits
  have powerEq : (2 : Int) ^ (32 * n) = (((2 ^ 32) ^ n : Nat) : Int) := by
    rw [Int.pow_mul]
    push_cast
    rfl
  rw [powerEq]
  unfold twos toInt
  cases self.neg with
  | false =>
      rw [twosLoop_positive n _ _ fits]
      simp only [Bool.false_eq_true, if_false]
      rw [Int.emod_eq_of_lt (by omega) (by exact_mod_cast by omega),
        Int.toNat_natCast]
  | true =>
      obtain ⟨after, whole⟩ := twosLoop_spec n self.mag true fits
      have limbs := value_lt (twosLoop true n self.mag true)
      rw [length_twosLoop] at limbs
      simp only [Bool.toNat_true, if_true] at whole ⊢
      generalize (2 ^ 32) ^ n = power at *
      cases after with
      | false =>
          rw [Bool.toNat_false] at whole
          have rest : -(value self.mag : Int) % power =
              (value (twosLoop true n self.mag true) : Int) := by
            rw [Int.emod_eq_iff (by omega)]
            refine ⟨by omega, by omega, 1, by omega⟩
          rw [rest, Int.toNat_natCast]
      | true =>
          rw [Bool.toNat_true] at whole
          have zero : value self.mag = 0 := by omega
          rw [zero]
          simp
          omega

theorem testBit_twos
    (self : BigInt)
    (fits : self.mag.length ≤ n)
    (inside : i < 32 * n) :
    (value (self.twos n)).testBit i = self.toInt.testBit i := by
  rw [value_twos self fits, testBit_toNat_emod _ inside]

/-! ## The operations -/

theorem twoCompLoop_eq (z : List UInt32) (c : Bool) :
    twoCompLoop z c = twosLoop true z.length z c := by
  induction z generalizing c with
  | nil => rfl
  | cons w z ih =>
      have left : twoCompLoop (w :: z) c =
          (twoComp w c).1 :: twoCompLoop z (twoComp w c).2 := rfl
      have right : twosLoop true (w :: z).length (w :: z) c =
          (twoComp w c).1 :: twosLoop true z.length z (twoComp w c).2 := rfl
      rw [left, right, ih]

/-- The two's complement of limbs that are not zero. -/
theorem value_twoCompLoop
    (z : List UInt32)
    (positive : 0 < value z) :
    value (twoCompLoop z true) + value z = (2 ^ 32) ^ z.length := by
  obtain ⟨after, whole⟩ := twosLoop_spec z.length z true (Nat.le_refl _)
  rw [twoCompLoop_eq]
  cases after with
  | false =>
      rw [Bool.toNat_false, Bool.toNat_true] at whole
      omega
  | true =>
      rw [Bool.toNat_true] at whole
      omega

/-- The last of some limbs is zero when the value fits the others. -/
theorem getLastD_eq_zero_iff
    (z : List UInt32)
    (length : z.length = n + 1) :
    z.getLastD 0 = 0 ↔ value z < (2 ^ 32) ^ n := by
  obtain ⟨front, last, rfl⟩ : ∃ front last, z = front ++ [last] := by
    rcases List.eq_nil_or_concat' z with rfl | concat
    · cases length
    · exact concat
  have frontLength : front.length = n := by simpa using length
  have frontBound := value_lt front
  rw [frontLength] at frontBound
  rw [value_append, frontLength]
  have lastEq : (front ++ [last]).getLastD 0 = last := by
    simp [List.getLastD_eq_getLast?]
  rw [lastEq]
  simp only [value_cons, value_nil, Nat.mul_zero, Nat.add_zero]
  constructor
  · rintro rfl
    simpa using frontBound
  · intro small
    by_contra some_
    have positive : 0 < last.toNat := by
      by_contra zero
      exact some_ (UInt32.toNat_inj.mp (by simpa using zero))
    have := Nat.le_mul_of_pos_right ((2 ^ 32) ^ n) positive
    omega

/-- The limbs read back as a sign and a magnitude. -/
theorem toInt_bitop
    (a b : BigInt)
    (op : UInt32 → UInt32 → UInt32) :
    (a.bitop b op).toInt =
      signedOfWord (32 * (max a.mag.length b.mag.length + 1))
        (value (List.zipWith op (a.twos (max a.mag.length b.mag.length + 1))
          (b.twos (max a.mag.length b.mag.length + 1))))
        ((List.zipWith op (a.twos (max a.mag.length b.mag.length + 1))
          (b.twos (max a.mag.length b.mag.length + 1))).getLastD 0 ≠ 0) := by
  have length : (List.zipWith op
      (a.twos (max a.mag.length b.mag.length + 1))
      (b.twos (max a.mag.length b.mag.length + 1))).length =
        max a.mag.length b.mag.length + 1 := by
    rw [List.length_zipWith, twos, twos, length_twosLoop, length_twosLoop,
      Nat.min_self]
  unfold bitop signedOfWord
  dsimp only
  generalize List.zipWith op (a.twos (max a.mag.length b.mag.length + 1))
    (b.twos (max a.mag.length b.mag.length + 1)) = z at *
  rw [toInt_make]
  by_cases zero : z.getLastD 0 = 0
  · simp only [zero, ne_eq, not_true_eq_false, decide_false,
      Bool.false_eq_true, if_false]
  · have positive : 0 < value z := by
      have notSmall := mt (getLastD_eq_zero_iff z length).mpr zero
      have := Nat.pow_pos (n := max a.mag.length b.mag.length)
        (show 0 < 2 ^ 32 by omega)
      omega
    have complement := value_twoCompLoop z positive
    rw [length, ← Nat.pow_mul] at complement
    simp only [zero, ne_eq, not_false_eq_true, decide_true, if_true]
    have cast : (value (twoCompLoop z true) : Int) + value z =
        2 ^ (32 * (max a.mag.length b.mag.length + 1)) := by
      exact_mod_cast complement
    omega

theorem bounds_toInt
    (self : BigInt)
    (fits : self.mag.length ≤ n) :
    -2 ^ (32 * n) ≤ self.toInt ∧ self.toInt < 2 ^ (32 * n) := by
  have below := value_lt self.mag
  have wide : (2 ^ 32) ^ self.mag.length ≤ (2 ^ 32) ^ n :=
    Nat.pow_le_pow_right (by omega) fits
  have power : (2 : Int) ^ (32 * n) = (((2 ^ 32) ^ n : Nat) : Int) := by
    rw [Int.pow_mul]
    push_cast
    rfl
  rw [power]
  unfold toInt
  split <;> omega

/-- Every bit of the result is the operation on the bits of the operands. -/
theorem testBit_bitop
    (bitwise : Bitwise op bit)
    (a b : BigInt)
    (i : Nat) :
    (a.bitop b op).toInt.testBit i =
      bit (a.toInt.testBit i) (b.toInt.testBit i) := by
  have aFits : a.mag.length ≤ max a.mag.length b.mag.length :=
    Nat.le_max_left _ _
  have bFits : b.mag.length ≤ max a.mag.length b.mag.length :=
    Nat.le_max_right _ _
  rw [toInt_bitop]
  generalize max a.mag.length b.mag.length = n at *
  obtain ⟨aLow, aHigh⟩ := bounds_toInt a aFits
  obtain ⟨bLow, bHigh⟩ := bounds_toInt b bFits
  have aLength : (a.twos (n + 1)).length = n + 1 := length_twosLoop _ _ _ _
  have bLength : (b.twos (n + 1)).length = n + 1 := length_twosLoop _ _ _ _
  have bits : ∀ j, j < 32 * (n + 1) →
      (value (List.zipWith op (a.twos (n + 1)) (b.twos (n + 1)))).testBit j =
        bit (a.toInt.testBit j) (b.toInt.testBit j) := by
    intro j inside
    rw [testBit_zipWith bitwise _ _ (aLength.trans bLength.symm)
      (by rw [aLength]; exact inside),
      testBit_twos a (Nat.le_succ_of_le aFits) inside,
      testBit_twos b (Nat.le_succ_of_le bFits) inside]
  have length : (List.zipWith op (a.twos (n + 1)) (b.twos (n + 1))).length =
      n + 1 := by
    rw [List.length_zipWith, aLength, bLength, Nat.min_self]
  have bound := value_lt
    (List.zipWith op (a.twos (n + 1)) (b.twos (n + 1)))
  rw [length, ← Nat.pow_mul] at bound
  have sign := getLastD_eq_zero_iff _ length
  rw [← Nat.pow_mul] at sign
  generalize List.zipWith op (a.twos (n + 1)) (b.twos (n + 1)) = z at *
  rw [testBit_signedOfWord bound]
  by_cases inside : i < 32 * (n + 1)
  · rw [if_pos inside, bits i inside]
  · rw [if_neg inside, testBit_eq_sign aLow aHigh (by omega),
      testBit_eq_sign bLow bHigh (by omega)]
    have extended : ∀ j, 32 * n ≤ j → j < 32 * (n + 1) →
        (value z).testBit j =
          bit (decide (a.toInt < 0)) (decide (b.toInt < 0)) := by
      intro j outside below
      rw [bits j below, testBit_eq_sign aLow aHigh outside,
        testBit_eq_sign bLow bHigh outside]
    cases signBit : bit (decide (a.toInt < 0)) (decide (b.toInt < 0)) with
    | false =>
        rw [decide_eq_false_iff_not, not_not, sign]
        apply Nat.lt_pow_two_of_testBit
        intro j outside
        by_cases below : j < 32 * (n + 1)
        · rw [extended j outside below, signBit]
        · refine Nat.testBit_lt_two_pow (Nat.lt_of_lt_of_le bound ?_)
          exact Nat.pow_le_pow_right (by omega) (Nat.not_lt.mp below)
    | true =>
        rw [decide_eq_true_iff, ne_eq, sign]
        intro small
        have first := extended (32 * n) (Nat.le_refl _) (by omega)
        rw [signBit, Nat.testBit_lt_two_pow small] at first
        cases first

theorem toInt_of_positive
    {self : BigInt}
    (positive : self.neg = false) : self.toInt = (value self.mag : Int) := by
  simp [toInt, positive]

theorem testBit_natCast (n i : Nat) : (n : Int).testBit i = n.testBit i := rfl

theorem testBit_zero (i : Nat) : (0 : Int).testBit i = false := by
  have cast : (0 : Int) = ((0 : Nat) : Int) := rfl
  rw [cast, testBit_natCast, Nat.zero_testBit]

theorem toInt_of_isZero
    {self : BigInt}
    (zero : self.isZero = true) : self.toInt = 0 := by
  have empty : self.mag = [] := List.isEmpty_iff.mp zero
  unfold toInt
  rw [empty]
  simp

theorem wellFormed_bitop (a b : BigInt) (op : UInt32 → UInt32 → UInt32) :
    (a.bitop b op).WellFormed := wellFormed_make _ _

theorem testBit_make
    (m : List UInt32)
    (i : Nat) : (make false m).toInt.testBit i = (value m).testBit i := by
  rw [toInt_make]
  rfl

theorem land_spec (a b : BigInt) (i : Nat) :
    (a.land b).toInt.testBit i = (a.toInt.testBit i && b.toInt.testBit i) ∧
      (a.land b).WellFormed := by
  unfold land
  by_cases zero : (a.isZero || b.isZero) = true
  · rw [if_pos zero]
    refine ⟨?_, wellFormed_zero⟩
    rw [toInt_zero, testBit_zero]
    rcases Bool.or_eq_true_iff.mp zero with left | right
    · rw [toInt_of_isZero left, testBit_zero, Bool.false_and]
    · rw [toInt_of_isZero right, testBit_zero, Bool.and_false]
  · rw [if_neg zero]
    by_cases positive : (!a.neg && !b.neg) = true
    · rw [if_pos positive]
      rw [Bool.and_eq_true, Bool.not_eq_true', Bool.not_eq_true'] at positive
      refine ⟨?_, wellFormed_make _ _⟩
      rw [testBit_make, testBit_zipWith_and, toInt_of_positive positive.1,
        toInt_of_positive positive.2, testBit_natCast, testBit_natCast]
    · rw [if_neg positive]
      exact ⟨testBit_bitop bitwise_and a b i, wellFormed_bitop _ _ _⟩

/-- The shape that `or` and `xor` share. -/
theorem zipLong_spec
    (bitwise : Bitwise op bit)
    (leftZero : ∀ y, op 0 y = y)
    (rightZero : ∀ x, op x 0 = x)
    (leftFalse : ∀ b, bit false b = b)
    (rightFalse : ∀ b, bit b false = b)
    {a b : BigInt}
    (aFormed : a.WellFormed)
    (bFormed : b.WellFormed)
    (i : Nat)
    (resultEq : result =
      if a.isZero then b
      else if b.isZero then a
      else if !a.neg && !b.neg then make false (zipLong op a.mag b.mag)
      else a.bitop b op) :
    result.toInt.testBit i = bit (a.toInt.testBit i) (b.toInt.testBit i) ∧
      result.WellFormed := by
  rw [resultEq]
  by_cases aZero : a.isZero = true
  · rw [if_pos aZero, toInt_of_isZero aZero, testBit_zero, leftFalse]
    exact ⟨rfl, bFormed⟩
  · rw [if_neg aZero]
    by_cases bZero : b.isZero = true
    · rw [if_pos bZero, toInt_of_isZero bZero, testBit_zero, rightFalse]
      exact ⟨rfl, aFormed⟩
    · rw [if_neg bZero]
      by_cases positive : (!a.neg && !b.neg) = true
      · rw [if_pos positive]
        rw [Bool.and_eq_true, Bool.not_eq_true', Bool.not_eq_true']
          at positive
        refine ⟨?_, wellFormed_make _ _⟩
        rw [testBit_make,
          testBit_zipLong bitwise leftZero rightZero leftFalse rightFalse,
          toInt_of_positive positive.1, toInt_of_positive positive.2,
          testBit_natCast, testBit_natCast]
      · rw [if_neg positive]
        exact ⟨testBit_bitop bitwise a b i, wellFormed_bitop _ _ _⟩

theorem lor_spec
    {a b : BigInt}
    (aFormed : a.WellFormed)
    (bFormed : b.WellFormed)
    (i : Nat) :
    (a.lor b).toInt.testBit i = (a.toInt.testBit i || b.toInt.testBit i) ∧
      (a.lor b).WellFormed :=
  zipLong_spec bitwise_or (by simp) (by simp) Bool.false_or Bool.or_false
    aFormed bFormed i rfl

theorem lxor_spec
    {a b : BigInt}
    (aFormed : a.WellFormed)
    (bFormed : b.WellFormed)
    (i : Nat) :
    (a.lxor b).toInt.testBit i = (a.toInt.testBit i ^^ b.toInt.testBit i) ∧
      (a.lxor b).WellFormed :=
  zipLong_spec bitwise_xor (by simp) (by simp) Bool.false_xor Bool.xor_false
    aFormed bFormed i rfl

theorem lnot_spec (a : BigInt) :
    a.lnot.toInt = -a.toInt - 1 ∧ a.lnot.WellFormed := by
  have one : (fromI64 1).toInt = 1 := toInt_fromI64 1
  obtain ⟨difference, formed⟩ :=
    sub_spec (b := fromI64 1) (wellFormed_negated a).trimmed
  refine ⟨?_, formed⟩
  unfold lnot
  rw [difference, toInt_negated, one]

/-! ## Shifts -/

theorem shift_width (n : Nat) :
    (UInt32.ofNat (n % 32)).toNat = n % 32 := by
  rw [UInt32.toNat_ofNat', Nat.mod_eq_of_lt]
  omega

theorem shl_spec (a : BigInt) (n : Nat) :
    (a.shl n).toInt = a.toInt * 2 ^ n ∧ (a.shl n).WellFormed := by
  refine ⟨?_, wellFormed_make _ _⟩
  unfold shl
  rw [toInt_make, value_ushl (shift_width n) (Nat.mod_lt _ (by omega)),
    Nat.div_add_mod]
  unfold toInt
  split <;> simp

/-- A shift to the right rounds downward. -/
theorem shr_spec
    {a : BigInt}
    (trimmed : Trimmed a.mag)
    (n : Nat) :
    (a.shr n).toInt = a.toInt.fdiv (2 ^ n) ∧ (a.shr n).WellFormed := by
  have power : (0 : Int) < 2 ^ n := Int.pow_pos (by omega)
  have shifted := value_ushr (shift_width n) (Nat.mod_lt n (by omega)) a.mag
    (n / 32)
  rw [Nat.div_add_mod] at shifted
  unfold shr
  dsimp only
  generalize ushr a.mag (n / 32) (UInt32.ofNat (n % 32)) = mag at *
  have one : (fromI64 1).toInt = 1 := toInt_fromI64 1
  have vFormed := wellFormed_make a.neg mag
  have vValue : value (make a.neg mag).mag = value mag := value_trim _
  have back := (shl_spec (make a.neg mag).abs n).1
  have backMag : value ((make a.neg mag).abs.shl n).mag =
      value a.mag / 2 ^ n * 2 ^ n := by
    rw [← natAbs_toInt, back, ← shifted, ← vValue]
    unfold abs toInt
    simp [Int.natAbs_mul, Int.natAbs_pow]
  have compared := ucmp_eq
    (shl_spec (make a.neg mag).abs n).2.trimmed trimmed
  rw [backMag] at compared
  have parts := Nat.div_add_mod (value a.mag) (2 ^ n)
  have below := Nat.mod_lt (value a.mag) (Nat.two_pow_pos n)
  have cast : (value a.mag : Int) =
      2 ^ n * (value mag : Int) + ((value a.mag % 2 ^ n : Nat) : Int) := by
    rw [shifted]
    exact_mod_cast parts.symm
  have restLow : (0 : Int) ≤ ((value a.mag % 2 ^ n : Nat) : Int) := by omega
  have restHigh : ((value a.mag % 2 ^ n : Nat) : Int) < 2 ^ n := by
    exact_mod_cast below
  have vInt := toInt_make a.neg mag
  have aInt : a.toInt = if a.neg then -(value a.mag : Int)
      else value a.mag := rfl
  by_cases lower : (a.neg &&
      ucmp ((make a.neg mag).abs.shl n).mag a.mag != .eq) = true
  · rw [if_pos lower]
    obtain ⟨difference, formed⟩ :=
      sub_spec (b := fromI64 1) vFormed.trimmed
    refine ⟨?_, formed⟩
    rw [Bool.and_eq_true, bne_iff_ne, compared, ne_eq,
      Nat.compare_eq_eq] at lower
    obtain ⟨negative, notWhole⟩ := lower
    rw [negative] at vInt aInt
    simp only [if_true] at vInt aInt
    rw [difference, one, negative, vInt]
    refine ((Int.fdiv_fmod_unique (r :=
      2 ^ n - ((value a.mag % 2 ^ n : Nat) : Int)) power).mpr
        ⟨?_, by omega, ?_⟩).1.symm
    · rw [aInt, cast]
      ring
    · have some_ : value a.mag % 2 ^ n ≠ 0 := by
        intro zero
        rw [zero, Nat.mul_comm] at parts
        exact notWhole (by omega)
      omega
  · rw [if_neg lower]
    refine ⟨?_, vFormed⟩
    rw [vInt]
    rw [Bool.and_eq_true, bne_iff_ne, compared, ne_eq, Nat.compare_eq_eq,
      not_and, not_not] at lower
    cases sign : a.neg with
    | false =>
        rw [sign] at aInt
        simp only [Bool.false_eq_true, if_false] at aInt ⊢
        refine ((Int.fdiv_fmod_unique power).mpr
          ⟨?_, restLow, restHigh⟩).1.symm
        rw [aInt, cast]
        ring
    | true =>
        have whole := lower sign
        rw [sign] at aInt
        simp only [if_true] at aInt ⊢
        have none : value a.mag % 2 ^ n = 0 := by
          rw [Nat.mul_comm] at parts
          omega
        rw [none] at cast
        refine ((Int.fdiv_fmod_unique (r := 0) power).mpr
          ⟨?_, by omega, power⟩).1.symm
        rw [aInt, cast]
        push_cast
        ring

/-- The bit operations are those on infinite two's complement, and shifts
multiply and divide by powers of two; every result is canonical. -/
theorem bit_operations
    {a b : BigInt}
    (aFormed : a.WellFormed)
    (bFormed : b.WellFormed) :
    (∀ i, (a.land b).toInt.testBit i =
        (a.toInt.testBit i && b.toInt.testBit i)) ∧
      (∀ i, (a.lor b).toInt.testBit i =
        (a.toInt.testBit i || b.toInt.testBit i)) ∧
      (∀ i, (a.lxor b).toInt.testBit i =
        (a.toInt.testBit i ^^ b.toInt.testBit i)) ∧
      a.lnot.toInt = -a.toInt - 1 ∧
      (∀ n, (a.shl n).toInt = a.toInt * 2 ^ n) ∧
      (∀ n, (a.shr n).toInt = a.toInt.fdiv (2 ^ n)) ∧
      (a.land b).WellFormed ∧ (a.lor b).WellFormed ∧
      (a.lxor b).WellFormed ∧ a.lnot.WellFormed ∧
      (∀ n, (a.shl n).WellFormed) ∧ ∀ n, (a.shr n).WellFormed := by
  refine ⟨fun i => (land_spec a b i).1,
    fun i => (lor_spec aFormed bFormed i).1,
    fun i => (lxor_spec aFormed bFormed i).1, (lnot_spec a).1,
    fun n => (shl_spec a n).1, fun n => (shr_spec aFormed.trimmed n).1,
    (land_spec a b 0).2, (lor_spec aFormed bFormed 0).2,
    (lxor_spec aFormed bFormed 0).2, (lnot_spec a).2,
    fun n => (shl_spec a n).2, fun n => (shr_spec aFormed.trimmed n).2⟩

theorem bit_operations_at :
    WellFormed ⟨true, [1]⟩ ∧ WellFormed ⟨false, [4294967295]⟩ ∧
      (∀ i, (lxor ⟨true, [1]⟩ ⟨false, [4294967295]⟩).toInt.testBit i =
        ((toInt ⟨true, [1]⟩).testBit i ^^
          (toInt ⟨false, [4294967295]⟩).testBit i)) ∧
      (shr ⟨true, [1]⟩ 3).toInt = (toInt ⟨true, [1]⟩).fdiv (2 ^ 3) := by
  have left : WellFormed ⟨true, [1]⟩ := ⟨by decide, by decide⟩
  have right : WellFormed ⟨false, [4294967295]⟩ := ⟨by decide, by decide⟩
  obtain ⟨_, _, xor, _, _, shifted, _⟩ := bit_operations left right
  exact ⟨left, right, xor, shifted 3⟩

end BigInt
end SabiRuby.Integer
