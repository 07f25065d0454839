import Mathlib.Data.Nat.Digits.Lemmas
import SabiRuby.Integer.BigInt

/-!
# The values of magnitudes

The value of limbs is the number they are the digits of in base `2 ^ 32`.  Every
operation on magnitudes computes with their values; its machine words never
overflow and it reads nothing out of range.
-/

namespace SabiRuby.Integer

/-- The number with the given limbs. -/
def value (m : List UInt32) : Nat :=
  Nat.ofDigits (2 ^ 32) (m.map UInt32.toNat)

@[simp] theorem value_nil : value [] = 0 := rfl

@[simp] theorem value_cons (x : UInt32) (m : List UInt32) :
    value (x :: m) = x.toNat + 2 ^ 32 * value m := by
  simp [value, Nat.ofDigits_cons]

theorem value_append (a b : List UInt32) :
    value (a ++ b) = value a + (2 ^ 32) ^ a.length * value b := by
  simp [value, Nat.ofDigits_append]

theorem value_lt (m : List UInt32) : value m < (2 ^ 32) ^ m.length := by
  have digits : ∀ digit ∈ m.map UInt32.toNat, digit < 2 ^ 32 := by
    intro digit member
    obtain ⟨limb, _, rfl⟩ := List.mem_map.mp member
    exact limb.toNat_lt
  have bound := Nat.ofDigits_lt_base_pow_length (by omega) digits
  rwa [List.length_map] at bound

@[simp] theorem value_replicate_zero (count : Nat) :
    value (List.replicate count 0) = 0 := by
  induction count with
  | zero => rfl
  | succ count ih =>
      rw [List.replicate_succ, value_cons, ih]
      rfl

/-! ## Trimming -/

/-- There is no zero limb at the end. -/
def Trimmed (m : List UInt32) : Prop := m.getLast? ≠ some 0

instance (m : List UInt32) : Decidable (Trimmed m) :=
  inferInstanceAs (Decidable (_ ≠ _))

theorem trim_trimmed (v : List UInt32) : Trimmed (trim v) := by
  induction v using List.reverseRecOn with
  | nil => simp [Trimmed, trim]
  | append_singleton v limb ih =>
      unfold trim
      by_cases zero : limb = 0
      · rw [List.rdropWhile_concat_pos _ _ _ (by simpa using zero)]
        exact ih
      · rw [List.rdropWhile_concat_neg _ _ _ (by simpa using zero)]
        simpa [Trimmed] using zero

theorem trimmed_nil : Trimmed [] := by
  simp [Trimmed]

theorem Trimmed.tail (trimmed : Trimmed (x :: m)) : Trimmed m := by
  cases m with
  | nil => exact trimmed_nil
  | cons y m => simpa [Trimmed, List.getLast?_cons_cons] using trimmed

/-- The last limb of trimmed limbs counts. -/
theorem Trimmed.le_value
    (trimmed : Trimmed (x :: m)) :
    (2 ^ 32) ^ m.length ≤ value (x :: m) := by
  induction m generalizing x with
  | nil =>
      have nonzero : x ≠ 0 := by
        simpa [Trimmed] using trimmed
      have positive : x.toNat ≠ 0 := by
        intro zero
        exact nonzero (UInt32.toNat_inj.mp zero)
      simp
      omega
  | cons y m ih =>
      have below := ih trimmed.tail
      rw [value_cons, List.length_cons, Nat.pow_succ]
      omega

@[simp] theorem value_trim (v : List UInt32) : value (trim v) = value v := by
  induction v using List.reverseRecOn with
  | nil => rfl
  | append_singleton v limb ih =>
      unfold trim
      by_cases zero : limb = 0
      · rw [List.rdropWhile_concat_pos _ _ _ (by simpa using zero), zero,
          value_append]
        exact ih
      · rw [List.rdropWhile_concat_neg _ _ _ (by simpa using zero)]

theorem value_eq_zero_iff (trimmed : Trimmed m) : value m = 0 ↔ m = [] := by
  cases m with
  | nil => simp
  | cons x m =>
      have positive := Nat.pow_pos (show 0 < 2 ^ 32 by omega) (n := m.length)
      have below := trimmed.le_value
      simp only [reduceCtorEq, iff_false]
      omega

/-! ## Comparison -/

/-- The longer of two trimmed magnitudes is larger. -/
theorem value_lt_of_length_lt
    (trimmed : Trimmed b)
    (shorter : a.length < b.length) : value a < value b := by
  cases b with
  | nil => exact absurd shorter (Nat.not_lt_zero _)
  | cons y b =>
      have bound := value_lt a
      have atMost : (2 ^ 32) ^ a.length ≤ (2 ^ 32) ^ b.length :=
        Nat.pow_le_pow_right (by omega) (Nat.lt_succ_iff.mp shorter)
      have below := trimmed.le_value
      omega

theorem compare_toNat (x y : UInt32) :
    compare x y = compare x.toNat y.toNat := by
  simp only [compare, compareOfLessAndEq, UInt32.lt_iff_toNat_lt,
    UInt32.toNat_inj]

theorem ucmpLoop_eq
    (sameLength : a.length = b.length) :
    ucmpLoop a b = compare (value a) (value b) := by
  induction a generalizing b with
  | nil =>
      cases b with
      | nil => rfl
      | cons y b => cases sameLength
  | cons x a ih =>
      cases b with
      | nil => cases sameLength
      | cons y b =>
          have rest := ih (Nat.succ.inj sameLength)
          have xBound := x.toNat_lt
          have yBound := y.toNat_lt
          simp only [ucmpLoop, rest, value_cons]
          rw [compare_toNat]
          rcases Nat.lt_trichotomy (value a) (value b) with less | same | more
          · rw [Nat.compare_eq_lt.mpr less]
            exact (Nat.compare_eq_lt.mpr (by omega)).symm
          · rw [Nat.compare_eq_eq.mpr same, same]
            rcases Nat.lt_trichotomy x.toNat y.toNat with less | equal | more
            · rw [Nat.compare_eq_lt.mpr less, Nat.compare_eq_lt.mpr (by omega)]
            · rw [Nat.compare_eq_eq.mpr equal, Nat.compare_eq_eq.mpr (by omega)]
            · rw [Nat.compare_eq_gt.mpr more, Nat.compare_eq_gt.mpr (by omega)]
          · rw [Nat.compare_eq_gt.mpr more]
            exact (Nat.compare_eq_gt.mpr (by omega)).symm

/-- Trimmed magnitudes compare as their values. -/
theorem ucmp_eq
    (aTrimmed : Trimmed a)
    (bTrimmed : Trimmed b) :
    ucmp a b = compare (value a) (value b) := by
  unfold ucmp
  rcases Nat.lt_trichotomy a.length b.length with shorter | same | longer
  · rw [if_pos (Nat.ne_of_lt shorter), Nat.compare_eq_lt.mpr shorter,
      Nat.compare_eq_lt.mpr (value_lt_of_length_lt bTrimmed shorter)]
  · rw [if_neg (by simpa using same), ucmpLoop_eq same]
  · rw [if_pos (Nat.ne_of_gt longer), Nat.compare_eq_gt.mpr longer,
      Nat.compare_eq_gt.mpr (value_lt_of_length_lt aTrimmed longer)]

/-! ## Sums and differences -/

/-- A double word is its low limb and the limbs it carries. -/
theorem toUInt32_add_shiftRight (s : UInt64) :
    s.toUInt32.toNat + 2 ^ 32 * (s >>> 32).toNat = s.toNat := by
  have shifted : (s >>> 32).toNat = s.toNat / 2 ^ 32 := by
    simp [UInt64.toNat_shiftRight, Nat.shiftRight_eq_div_pow]
  rw [shifted, UInt64.toNat_toUInt32]
  omega

theorem value_uaddLoop
    (long short : List UInt32)
    (shorter : short.length ≤ long.length)
    (carryBound : carry.toNat < 2 ^ 32) :
    value (uaddLoop long short carry) =
      value long + value short + carry.toNat := by
  induction long generalizing short carry with
  | nil =>
      have empty : short = [] := List.eq_nil_of_length_eq_zero (by
        simpa using shorter)
      subst empty
      unfold uaddLoop
      by_cases zero : carry = 0
      · simp [zero]
      · have low : carry.toUInt32.toNat = carry.toNat := by
          rw [UInt64.toNat_toUInt32]
          exact Nat.mod_eq_of_lt carryBound
        rw [if_pos zero, value_cons, low, value_nil]
        omega
  | cons x long ih =>
      have xBound := x.toNat_lt
      have split := toUInt32_add_shiftRight
        (x.toUInt64 + (short.headD 0).toUInt64 + carry)
      have headBound := (short.headD 0).toNat_lt
      have sum : (x.toUInt64 + (short.headD 0).toUInt64 + carry).toNat =
          x.toNat + (short.headD 0).toNat + carry.toNat := by
        simp only [UInt64.toNat_add, UInt32.toNat_toUInt64]
        omega
      have shortValue : value short =
          (short.headD 0).toNat + 2 ^ 32 * value short.tail := by
        cases short <;> simp
      have rest := ih short.tail
        (by rw [List.length_tail]; simp at shorter; omega)
        (show ((x.toUInt64 + (short.headD 0).toUInt64 + carry) >>> 32).toNat <
          2 ^ 32 by omega)
      simp only [uaddLoop, value_cons, rest, shortValue]
      omega

/-- The sum of magnitudes. -/
theorem value_uadd (a b : List UInt32) :
    value (uadd a b) = value a + value b := by
  unfold uadd
  split
  · rename_i shorter
    exact value_uaddLoop a b shorter (by decide)
  · rename_i longer
    have added := @value_uaddLoop 0 b a (by omega) (by decide)
    rw [added, Nat.add_comm (value b)]
    rfl

/-- A word read as a signed one. -/
theorem toInt_toInt64 (u : UInt64) :
    u.toInt64.toInt = (u.toNat : Int).bmod (2 ^ 64) :=
  BitVec.toInt_eq_toNat_bmod u.toBitVec

/-- A signed word read as an unsigned one. -/
theorem toInt_eq_bmod (t : Int64) :
    t.toInt = (t.toUInt64.toNat : Int).bmod (2 ^ 64) :=
  BitVec.toInt_eq_toNat_bmod t.toUInt64.toBitVec

/-- A number in the range of signed words is its own balanced remainder. -/
theorem bmod_of_small
    (low : -2 ^ 63 ≤ number)
    (high : number < 2 ^ 63) : number.bmod (2 ^ 64) = number := by
  rw [Int.bmod_eq_of_le (by omega) (by omega)]

theorem toInt_toInt64_of_lt
    {u : UInt64}
    (small : u.toNat < 2 ^ 63) : u.toInt64.toInt = u.toNat := by
  rw [toInt_toInt64, bmod_of_small (by omega) (by omega)]

/-- A limb is a small signed word. -/
theorem toInt_asI64 (limb : UInt32) : (asI64 limb).toInt = limb.toNat := by
  have bound := limb.toNat_lt
  unfold asI64
  rw [toInt_toInt64_of_lt (by rw [UInt32.toNat_toUInt64]; omega),
    UInt32.toNat_toUInt64]

/-- The low bits of a small signed word. -/
theorem toNat_asU32
    {t : Int64}
    (low : -2 ^ 32 ≤ t.toInt)
    (high : t.toInt < 2 ^ 32) :
    ((asU32 t).toNat : Int) =
      if t.toInt < 0 then t.toInt + 2 ^ 32 else t.toInt := by
  have signed := toInt_eq_bmod t
  have bound := t.toUInt64.toNat_lt
  unfold asU32
  rw [UInt64.toNat_toUInt32]
  rw [Int.bmod_def] at signed
  split at signed <;> split <;> omega

/-- A difference of small signed words. -/
theorem toInt_sub_sub
    {a b c : Int64}
    (low : -2 ^ 63 ≤ a.toInt - b.toInt)
    (high : a.toInt - b.toInt < 2 ^ 63)
    (lowAll : -2 ^ 63 ≤ a.toInt - b.toInt - c.toInt)
    (highAll : a.toInt - b.toInt - c.toInt < 2 ^ 63) :
    (a - b - c).toInt = a.toInt - b.toInt - c.toInt := by
  rw [Int64.toInt_sub, Int64.toInt_sub, bmod_of_small low high,
    bmod_of_small lowAll highAll]

/-- One step of a subtraction: the limb it leaves and what it borrows. -/
theorem borrow_step
    {a b borrow : Int64}
    (aLow : 0 ≤ a.toInt)
    (aHigh : a.toInt < 2 ^ 32)
    (bLow : 0 ≤ b.toInt)
    (bHigh : b.toInt < 2 ^ 32)
    (isBit : borrow.toInt = 0 ∨ borrow.toInt = 1) :
    ((asU32 (a - b - borrow)).toNat : Int) =
        a.toInt - b.toInt - borrow.toInt +
          2 ^ 32 * (if a - b - borrow < 0 then 1 else 0 : Int64).toInt ∧
      ((if a - b - borrow < 0 then 1 else 0 : Int64).toInt = 0 ∨
        (if a - b - borrow < 0 then 1 else 0 : Int64).toInt = 1) := by
  have difference : (a - b - borrow).toInt =
      a.toInt - b.toInt - borrow.toInt :=
    toInt_sub_sub (by omega) (by omega) (by omega) (by omega)
  have low := @toNat_asU32 (a - b - borrow) (by omega) (by omega)
  have negative : a - b - borrow < 0 ↔ (a - b - borrow).toInt < 0 := by
    rw [Int64.lt_iff_toInt_lt]
    rfl
  by_cases below : a - b - borrow < 0
  · rw [if_pos below]
    rw [if_pos (negative.mp below)] at low
    exact ⟨by rw [low, difference]; rfl, Or.inr rfl⟩
  · rw [if_neg below]
    rw [if_neg fun less => below (negative.mpr less)] at low
    exact ⟨by rw [low, difference]; simp, Or.inl rfl⟩

theorem value_usubLoop
    (a b : List UInt32)
    (borrow : Int64)
    (isBit : borrow.toInt = 0 ∨ borrow.toInt = 1)
    (atMost : (value b : Int) + borrow.toInt ≤ value a) :
    (value (usubLoop a b borrow) : Int) =
      value a - value b - borrow.toInt := by
  induction a generalizing b borrow with
  | nil =>
      simp only [usubLoop, value_nil] at atMost ⊢
      omega
  | cons x a ih =>
      have xBound := x.toNat_lt
      have headBound := (b.headD 0).toNat_lt
      have bValue : value b = (b.headD 0).toNat + 2 ^ 32 * value b.tail := by
        cases b <;> simp
      obtain ⟨low, isBitAfter⟩ := @borrow_step (asI64 x) (asI64 (b.headD 0))
        borrow (by rw [toInt_asI64]; omega) (by rw [toInt_asI64]; omega)
        (by rw [toInt_asI64]; omega) (by rw [toInt_asI64]; omega) isBit
      rw [toInt_asI64, toInt_asI64] at low
      have lowBound := (asU32 (asI64 x - asI64 (b.headD 0) - borrow)).toNat_lt
      rw [value_cons] at atMost
      have rest := ih b.tail _ isBitAfter (by omega)
      simp only [usubLoop, value_cons]
      omega

/-- The difference of magnitudes. -/
theorem value_usub (atMost : value b ≤ value a) :
    value (usub a b) = value a - value b := by
  have difference := value_usubLoop a b 0 (Or.inl rfl) (by
    rw [Int64.toInt_zero]
    omega)
  rw [Int64.toInt_zero] at difference
  rw [usub, value_trim]
  omega

/-! ## Products -/

/-- A carry that fits is added without leaving the limbs. -/
theorem carryLoop_spec
    (out : List UInt32)
    (carryBound : carry.toNat < 2 ^ 32)
    (fits : value out + carry.toNat < (2 ^ 32) ^ out.length) :
    ∃ after, carryLoop out carry = some after ∧
      after.length = out.length ∧
      value after = value out + carry.toNat := by
  induction out generalizing carry with
  | nil =>
      have zero : carry = 0 := by
        refine UInt64.toNat_inj.mp ?_
        simpa using fits
      subst zero
      exact ⟨[], by simp [carryLoop], rfl, rfl⟩
  | cons o out ih =>
      unfold carryLoop
      by_cases zero : carry = 0
      · subst zero
        exact ⟨o :: out, by simp, rfl, by simp⟩
      · rw [if_neg zero]
        have oBound := o.toNat_lt
        have split := toUInt32_add_shiftRight (o.toUInt64 + carry)
        have sum : (o.toUInt64 + carry).toNat = o.toNat + carry.toNat := by
          simp only [UInt64.toNat_add, UInt32.toNat_toUInt64]
          omega
        rw [value_cons, List.length_cons, pow_succ (2 ^ 32) out.length] at fits
        obtain ⟨after, ran, sameLength, afterValue⟩ :=
          @ih ((o.toUInt64 + carry) >>> 32) (by omega)
            (by omega)
        refine ⟨(o.toUInt64 + carry).toUInt32 :: after, by simp [ran],
          by simp [sameLength], ?_⟩
        rw [value_cons, value_cons, afterValue]
        omega

/-- A row that fits adds the multiple of `b`. -/
theorem umulRow_spec
    (x : UInt32)
    (b out : List UInt32)
    (carryBound : carry.toNat < 2 ^ 32)
    (inside : b.length ≤ out.length)
    (fits : value out + x.toNat * value b + carry.toNat <
      (2 ^ 32) ^ out.length) :
    ∃ after, umulRow x b out carry = some after ∧
      after.length = out.length ∧
      value after = value out + x.toNat * value b + carry.toNat := by
  induction b generalizing out carry with
  | nil =>
      simp only [value_nil, Nat.mul_zero, Nat.add_zero] at fits ⊢
      exact carryLoop_spec out carryBound fits
  | cons y b ih =>
      cases out with
      | nil => exact absurd inside (by simp)
      | cons o out =>
          have product : x.toNat * y.toNat ≤ (2 ^ 32 - 1) * (2 ^ 32 - 1) :=
            Nat.mul_le_mul (Nat.le_pred_of_lt x.toNat_lt)
              (Nat.le_pred_of_lt y.toNat_lt)
          have oBound := o.toNat_lt
          have split := toUInt32_add_shiftRight
            (x.toUInt64 * y.toUInt64 + o.toUInt64 + carry)
          have sum : (x.toUInt64 * y.toUInt64 + o.toUInt64 + carry).toNat =
              x.toNat * y.toNat + o.toNat + carry.toNat := by
            simp only [UInt64.toNat_add, UInt64.toNat_mul,
              UInt32.toNat_toUInt64]
            omega
          have row : x.toNat * value (y :: b) =
              x.toNat * y.toNat + 2 ^ 32 * (x.toNat * value b) := by
            rw [value_cons]
            ring
          rw [row, value_cons, List.length_cons,
            pow_succ (2 ^ 32) out.length] at fits
          obtain ⟨after, ran, sameLength, afterValue⟩ :=
            @ih
              ((x.toUInt64 * y.toUInt64 + o.toUInt64 + carry) >>> 32) out
              (by omega) (by simpa using inside) (by omega)
          refine ⟨(x.toUInt64 * y.toUInt64 + o.toUInt64 + carry).toUInt32 ::
            after, by simp [umulRow, ran], by simp [sameLength], ?_⟩
          rw [value_cons, value_cons o, afterValue, row]
          omega

/-- Rows that fit add the product. -/
theorem umulLoop_spec
    (a b out : List UInt32)
    (inside : a.length + b.length ≤ out.length)
    (fits : value out + value a * value b < (2 ^ 32) ^ out.length) :
    ∃ after, umulLoop a b out = some after ∧
      value after = value out + value a * value b := by
  induction a generalizing out with
  | nil => exact ⟨out, rfl, by simp⟩
  | cons x a ih =>
      have parts : value (x :: a) * value b =
          x.toNat * value b + 2 ^ 32 * (value a * value b) := by
        rw [value_cons]
        ring
      rw [parts] at fits ⊢
      rw [List.length_cons] at inside
      obtain ⟨row, ran, sameLength, rowValue⟩ : ∃ row,
          (if x = 0 then some out else umulRow x b out 0) = some row ∧
            row.length = out.length ∧
            value row = value out + x.toNat * value b := by
        by_cases zero : x = 0
        · exact ⟨out, by simp [zero], rfl, by simp [zero]⟩
        · obtain ⟨row, ran, sameLength, rowValue⟩ :=
            @umulRow_spec 0 x b out (by decide) (by omega)
              (by rw [UInt64.toNat_zero]; omega)
          exact ⟨row, by simp [zero, ran], sameLength, by simpa using rowValue⟩
      cases row with
      | nil =>
          rw [List.length_nil] at sameLength
          omega
      | cons o rest =>
          rw [← sameLength, List.length_cons] at inside
          rw [← sameLength, List.length_cons,
            pow_succ (2 ^ 32) rest.length] at fits
          rw [value_cons] at rowValue
          obtain ⟨after, looped, afterValue⟩ :=
            ih rest (by omega) (by omega)
          refine ⟨o :: after, ?_, ?_⟩
          · simp only [umulLoop, ran, Option.bind_eq_bind, Option.bind_some,
              List.tail_cons, looped]
            rfl
          · rw [value_cons, afterValue]
            omega

/-- The product of magnitudes. -/
theorem umul_spec (a b : List UInt32) :
    ∃ product, umul a b = some product ∧
      value product = value a * value b := by
  unfold umul
  by_cases empty : (a.isEmpty || b.isEmpty) = true
  · rw [if_pos empty]
    refine ⟨[], rfl, ?_⟩
    rw [Bool.or_eq_true, List.isEmpty_iff, List.isEmpty_iff] at empty
    rcases empty with rfl | rfl <;> simp
  · rw [if_neg empty]
    have bound : value a * value b < (2 ^ 32) ^ (a.length + b.length) := by
      rw [Nat.pow_add]
      exact Nat.mul_lt_mul'' (value_lt a) (value_lt b)
    obtain ⟨after, looped, afterValue⟩ :=
      umulLoop_spec a b (List.replicate (a.length + b.length) 0)
        (by rw [List.length_replicate])
        (by rw [List.length_replicate, value_replicate_zero]; omega)
    refine ⟨trim after, by rw [looped, Option.map_some], ?_⟩
    rw [value_trim, afterValue, value_replicate_zero, Nat.zero_add]

/-! ## Division by a limb -/

theorem toNat_shiftLeft_word
    {high : UInt64}
    (bound : high.toNat < 2 ^ 32) :
    (high <<< 32).toNat = 2 ^ 32 * high.toNat := by
  simp only [UInt64.toNat_shiftLeft]
  rw [show (32 : UInt64).toNat % 64 = 32 from rfl, Nat.shiftLeft_eq]
  omega

/-- A double word of two limbs. -/
theorem toNat_shiftLeft_or
    {high : UInt64}
    (bound : high.toNat < 2 ^ 32)
    (low : UInt32) :
    ((high <<< 32) ||| low.toUInt64).toNat =
      2 ^ 32 * high.toNat + low.toNat := by
  have lowBound := low.toNat_lt
  rw [UInt64.toNat_or, toNat_shiftLeft_word bound, UInt32.toNat_toUInt64,
    ← Nat.two_pow_add_eq_or_of_lt lowBound]

theorem udivSmallLoop_spec
    (positive : 0 < d.toNat)
    (a : List UInt32) :
    value a = value (udivSmallLoop d a).1 * d.toNat +
        (udivSmallLoop d a).2.toNat ∧
      (udivSmallLoop d a).2.toNat < d.toNat := by
  induction a with
  | nil => exact ⟨by simp [udivSmallLoop], positive⟩
  | cons x a ih =>
      obtain ⟨divided, small⟩ := ih
      have dBound := d.toNat_lt
      have cur := @toNat_shiftLeft_or (udivSmallLoop d a).2 (by omega) x
      have xBound := x.toNat_lt
      have quotient : ((2 ^ 32 * (udivSmallLoop d a).2.toNat + x.toNat) /
          d.toNat) < 2 ^ 32 := by
        refine (Nat.div_lt_iff_lt_mul positive).mpr ?_
        omega
      have whole := Nat.div_add_mod
        (2 ^ 32 * (udivSmallLoop d a).2.toNat + x.toNat) d.toNat
      have remainder := Nat.mod_lt
        (2 ^ 32 * (udivSmallLoop d a).2.toNat + x.toNat) positive
      simp only [udivSmallLoop, value_cons, UInt64.toNat_toUInt32,
        UInt64.toNat_div, UInt64.toNat_mod, cur, UInt32.toNat_toUInt64]
      rw [Nat.mod_eq_of_lt quotient]
      refine ⟨?_, remainder⟩
      rw [divided]
      ring_nf at whole ⊢
      omega

/-- The quotient and the remainder of a division by a limb. -/
theorem udivSmall_spec
    (positive : 0 < d.toNat)
    (a : List UInt32) :
    ∃ q r, udivSmall a d = some (q, r) ∧ value q = value a / d.toNat ∧
      r.toNat = value a % d.toNat := by
  have nonzero : d ≠ 0 := by
    rintro rfl
    exact absurd positive (by decide)
  obtain ⟨divided, small⟩ := udivSmallLoop_spec positive a
  have dBound := d.toNat_lt
  refine ⟨trim (udivSmallLoop d a).1, (udivSmallLoop d a).2.toUInt32, ?_, ?_,
    ?_⟩
  · rw [udivSmall, if_neg nonzero]
  · rw [value_trim, divided]
    exact (Nat.div_eq_of_lt_le (by omega) (by rw [Nat.succ_mul]; omega)).symm
  · rw [UInt64.toNat_toUInt32, divided, Nat.mul_add_mod_self_right,
      Nat.mod_eq_of_lt small]
    omega

/-! ## Shifts -/

section Shifts

variable {bits : UInt32} {k : Nat}

section

variable (width : bits.toNat = k)
include width

theorem toNat_shiftRight_limb
    (high : k < 32)
    (x : UInt32) : (x >>> bits).toNat = x.toNat / 2 ^ k := by
  rw [UInt32.toNat_shiftRight, width, Nat.mod_eq_of_lt high,
    Nat.shiftRight_eq_div_pow]

/-- A limb shifted to the left keeps its low bits. -/
theorem toNat_shiftLeft_limb
    (high : k < 32)
    (x : UInt32) : (x <<< bits).toNat = 2 ^ k * (x.toNat % 2 ^ (32 - k)) := by
  have power : 2 ^ 32 = 2 ^ k * 2 ^ (32 - k) := by
    rw [← Nat.pow_add]
    congr 1
    omega
  rw [UInt32.toNat_shiftLeft, width, Nat.mod_eq_of_lt high, Nat.shiftLeft_eq,
    power, Nat.mul_comm x.toNat, Nat.mul_mod_mul_left]

theorem toNat_complement
    (low : 0 < k)
    (high : k < 32) : (32 - bits).toNat = 32 - k := by
  rw [UInt32.toNat_sub, width, show (32 : UInt32).toNat = 32 from rfl]
  omega

/-- One limb of a shift to the left. -/
theorem shiftLeft_step
    (low : 0 < k)
    (high : k < 32)
    (x : UInt32)
    (carryBound : carry.toNat < 2 ^ k) :
    ((x <<< bits) ||| carry).toNat + 2 ^ 32 * (x >>> (32 - bits)).toNat =
        x.toNat * 2 ^ k + carry.toNat ∧
      (x >>> (32 - bits)).toNat < 2 ^ k := by
  have power : 2 ^ 32 = 2 ^ k * 2 ^ (32 - k) := by
    rw [← Nat.pow_add]
    congr 1
    omega
  have whole := Nat.div_add_mod x.toNat (2 ^ (32 - k))
  have shifted := toNat_shiftRight_limb
    (toNat_complement width low high) (show 32 - k < 32 by omega) x
  rw [UInt32.toNat_or, toNat_shiftLeft_limb width high,
    ← Nat.two_pow_add_eq_or_of_lt carryBound, shifted]
  constructor
  · conv_rhs => rw [← whole]
    rw [power]
    ring
  · refine (Nat.div_lt_iff_lt_mul (Nat.two_pow_pos _)).mpr ?_
    rw [← power]
    exact x.toNat_lt

theorem value_shlLoop
    (low : 0 < k)
    (high : k < 32)
    (a : List UInt32)
    (carryBound : carry.toNat < 2 ^ k) :
    (shlLoop bits a carry).1.length = a.length ∧
      value (shlLoop bits a carry).1 +
          (2 ^ 32) ^ a.length * (shlLoop bits a carry).2.toNat =
        value a * 2 ^ k + carry.toNat ∧
      (shlLoop bits a carry).2.toNat < 2 ^ k := by
  induction a generalizing carry with
  | nil => exact ⟨rfl, by simp [shlLoop], carryBound⟩
  | cons x a ih =>
      obtain ⟨limb, next⟩ := shiftLeft_step width low high x carryBound
      obtain ⟨sameLength, shifted, last⟩ := ih next
      simp only [shlLoop]
      refine ⟨by simp [sameLength], ?_, last⟩
      rw [value_cons, value_cons, List.length_cons, pow_succ (2 ^ 32) a.length]
      calc
        _ = ((x <<< bits) ||| carry).toNat +
            2 ^ 32 * (value (shlLoop bits a (x >>> (32 - bits))).1 +
              (2 ^ 32) ^ a.length *
                (shlLoop bits a (x >>> (32 - bits))).2.toNat) := by ring
        _ = ((x <<< bits) ||| carry).toNat +
            2 ^ 32 * (x >>> (32 - bits)).toNat +
              2 ^ 32 * (value a * 2 ^ k) := by
          rw [shifted]
          ring
        _ = (x.toNat + 2 ^ 32 * value a) * 2 ^ k + carry.toNat := by
          rw [limb]
          ring

/-- A magnitude shifted to the left. -/
theorem value_ushl
    (high : k < 32)
    (a : List UInt32)
    (limbs : Nat) :
    value (ushl a limbs bits) = value a * 2 ^ (32 * limbs + k) := by
  unfold ushl
  by_cases empty : a.isEmpty = true
  · rw [if_pos empty, List.isEmpty_iff.mp empty]
    simp
  · rw [if_neg empty]
    by_cases zero : bits = 0
    · have none : k = 0 := by
        rw [← width, zero]
        rfl
      rw [if_pos zero, value_trim, value_append, value_replicate_zero,
        List.length_replicate, none, Nat.pow_add, Nat.pow_mul]
      ring
    · have low : 0 < k := by
        by_contra none
        refine zero (UInt32.toNat_inj.mp ?_)
        rw [width]
        exact Nat.eq_zero_of_not_pos none
      obtain ⟨sameLength, shifted, _⟩ :=
        value_shlLoop width low high a
          (show (0 : UInt32).toNat < 2 ^ k from Nat.two_pow_pos _)
      have end_ : value (if (shlLoop bits a 0).2 ≠ 0 then
          [(shlLoop bits a 0).2] else []) = (shlLoop bits a 0).2.toNat := by
        split
        · simp
        · rename_i none
          rw [not_not] at none
          rw [none]
          rfl
      simp only [if_neg zero]
      rw [value_trim, value_append, value_append, value_replicate_zero,
        List.length_append, List.length_replicate, sameLength, end_,
        Nat.pow_add 2 (32 * limbs), Nat.pow_mul,
        Nat.pow_add (2 ^ 32) limbs]
      rw [UInt32.toNat_zero, Nat.add_zero] at shifted
      rw [Nat.zero_add, Nat.mul_assoc, ← Nat.mul_add, shifted]
      ring

/-- One limb of a shift to the right. -/
theorem shiftRight_step
    (low : 0 < k)
    (high : k < 32)
    (x y : UInt32) :
    ((x >>> bits) ||| (y <<< (32 - bits))).toNat =
      x.toNat / 2 ^ k + 2 ^ (32 - k) * (y.toNat % 2 ^ k) := by
  have power : 2 ^ 32 = 2 ^ (32 - k) * 2 ^ k := by
    rw [← Nat.pow_add]
    congr 1
    omega
  have small : x.toNat / 2 ^ k < 2 ^ (32 - k) := by
    refine (Nat.div_lt_iff_lt_mul (Nat.two_pow_pos _)).mpr ?_
    rw [← power]
    exact x.toNat_lt
  have shifted := toNat_shiftLeft_limb
    (toNat_complement width low high) (show 32 - k < 32 by omega) y
  rw [show 32 - (32 - k) = k by omega] at shifted
  rw [UInt32.toNat_or, toNat_shiftRight_limb width high, shifted, Nat.or_comm,
    ← Nat.two_pow_add_eq_or_of_lt small, Nat.add_comm]

theorem value_shrLoop
    (low : 0 < k)
    (high : k < 32)
    (src : List UInt32) :
    value (shrLoop bits src) = value src / 2 ^ k := by
  have power : 2 ^ 32 = 2 ^ k * 2 ^ (32 - k) := by
    rw [← Nat.pow_add]
    congr 1
    omega
  induction src with
  | nil => simp [shrLoop]
  | cons x src ih =>
      have hi : (if src.isEmpty then 0 else src.headD 0 <<< (32 - bits)) =
          src.headD 0 <<< (32 - bits) := by
        cases src <;> simp
      have head : (src.headD 0).toNat % 2 ^ k = value src % 2 ^ k := by
        cases src with
        | nil => simp
        | cons y src =>
            rw [List.headD_cons, value_cons, power, Nat.mul_assoc,
              Nat.add_mul_mod_self_left]
      simp only [shrLoop, hi, value_cons, ih,
        shiftRight_step width low high, head]
      have whole := Nat.div_add_mod (value src) (2 ^ k)
      rw [show 2 ^ 32 * value src = 2 ^ k * (2 ^ (32 - k) * value src) by
        rw [power]; ring, Nat.add_mul_div_left _ _ (Nat.two_pow_pos k)]
      conv_rhs => rw [← whole]
      rw [power]
      ring

/-- A magnitude shifted to the right. -/
theorem value_ushr
    (high : k < 32)
    (a : List UInt32)
    (limbs : Nat) :
    value (ushr a limbs bits) = value a / 2 ^ (32 * limbs + k) := by
  have power : 2 ^ (32 * limbs + k) = (2 ^ 32) ^ limbs * 2 ^ k := by
    rw [Nat.pow_add, Nat.pow_mul]
  unfold ushr
  by_cases past : a.length ≤ limbs
  · have small := value_lt a
    have wide : (2 ^ 32) ^ a.length ≤ (2 ^ 32) ^ limbs :=
      Nat.pow_le_pow_right (by omega) past
    have positive := Nat.two_pow_pos k
    rw [if_pos past, value_nil, power, Nat.div_eq_of_lt]
    exact Nat.lt_of_lt_of_le (Nat.lt_of_lt_of_le small wide)
      (Nat.le_mul_of_pos_right _ positive)
  · rw [if_neg past]
    have dropped : value (a.drop limbs) = value a / (2 ^ 32) ^ limbs := by
      have parts : value a = value (a.take limbs) +
          (2 ^ 32) ^ limbs * value (a.drop limbs) := by
        conv_lhs => rw [← List.take_append_drop limbs a]
        rw [value_append, List.length_take, Nat.min_eq_left (by omega)]
      have small := value_lt (a.take limbs)
      rw [List.length_take, Nat.min_eq_left (by omega)] at small
      rw [parts, Nat.add_mul_div_left _ _ (Nat.pow_pos (by omega)),
        Nat.div_eq_of_lt small, Nat.zero_add]
    rw [value_trim, power, ← Nat.div_div_eq_div_mul, ← dropped]
    by_cases zero : bits = 0
    · have none : k = 0 := by
        rw [← width, zero]
        rfl
      rw [if_pos zero, none, Nat.pow_zero, Nat.div_one]
    · have low : 0 < k := by
        by_contra none
        refine zero (UInt32.toNat_inj.mp ?_)
        rw [width]
        exact Nat.eq_zero_of_not_pos none
      rw [if_neg zero, value_shrLoop width low high]

end

end Shifts

end SabiRuby.Integer
