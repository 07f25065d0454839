import Mathlib.Data.Rat.Floor
import SabiRuby.Integer.Powers

/-!
# Rounding to a power of ten

`floor`, `ceil`, `round` and `truncate` of an Integer derive their answers from
one remainder downward.  An estimate of the digits answers zero before that.
-/

namespace SabiRuby.Integer

open Library Number

inductive Rounding
  | floor
  | ceil
  | round
  | truncate
  deriving DecidableEq, Repr

/-- A power of two. -/
def twoPow (e : Int) : ℚ :=
  if 0 ≤ e then (2 : ℚ) ^ e.toNat else 1 / (2 : ℚ) ^ (-e).toNat

/-- A number rounded to the nearest double, a tie to the even one.  The numbers
here are neither subnormal nor too large. -/
def f64 (q : ℚ) : ℚ :=
  if q = 0 then 0
  else
    let magnitude : Int := Nat.log2 q.num.natAbs - Nat.log2 q.den
    let e := if |q| < twoPow magnitude then magnitude - 1 else magnitude
    let ulp := twoPow (e - 52)
    let low := (q / ulp).floor
    let rest := q / ulp - low
    let n :=
      if rest < 1 / 2 then low
      else if 1 / 2 < rest then low + 1
      else if low % 2 = 0 then low
      else low + 1
    n * ulp

/-- More trailing zeros than the value has digits, by the estimate. -/
def fewDigits (x : BigInt) (nd : Int64) : Bool :=
  let bytes :=
    if x.mag.length > 2 then f64 (f64 (x.mag.length * 4 : Nat) + 1 / 8)
    else 8 - 1 / 8
  bytes < f64 (f64 (-415241 / 1000000) * f64 nd.toInt)

/-- What `int_rounding` derives from the remainder. -/
def roundingOf (mode : Rounding) (x f m n : BigInt) : BigInt :=
  match mode with
  | .floor => n
  | .ceil => if m.isZero then x else n.add f
  | .truncate => if n.sign < 0 then n.add f else n
  | .round =>
      let c := m.cmp (f.shr 1)
      if c = .gt ∨ (c = .eq ∧ x.sign > 0) then n.add f else n

/-- `int_rounding`. -/
def intRounding (s : Number) (nd : Int64) (mode : Rounding) : Option Number :=
  if nd ≥ 0 then some s
  else
    let x := s.asBigint
    if fewDigits x nd then some (.int 0)
    else do
      let f ← (BigInt.fromI64 10).pow (-nd).toUInt64.toNat
      let m ← x.modFloor f
      some (bintValue (roundingOf mode x f m (x.sub m)))

namespace Rounding

/-- The roundings of a number. -/
def rounded (mode : Rounding) (q : ℚ) : ℤ :=
  match mode with
  | .floor => ⌊q⌋
  | .ceil => ⌈q⌉
  | .truncate => if 0 ≤ q then ⌊q⌋ else ⌈q⌉
  | .round => if 0 ≤ q then ⌊q + 1 / 2⌋ else ⌈q - 1 / 2⌉

/-- The Integers that round to zero among the multiples of a power. -/
def Vanishes (mode : Rounding) (x power : ℤ) : Prop :=
  match mode with
  | .floor => 0 ≤ x ∧ x < power
  | .ceil => -power < x ∧ x ≤ 0
  | .truncate => -power < x ∧ x < power
  | .round => -power < 2 * x ∧ 2 * x < power

end Rounding

section

variable {x f z : ℤ}

theorem floor_div_iff (pos : 0 < f) :
    ⌊(x : ℚ) / f⌋ = z ↔ z * f ≤ x ∧ x < (z + 1) * f := by
  have positive : (0 : ℚ) < f := by exact_mod_cast pos
  rw [Int.floor_eq_iff, le_div_iff₀ positive, div_lt_iff₀ positive]
  norm_cast

theorem ceil_div_iff (pos : 0 < f) :
    ⌈(x : ℚ) / f⌉ = z ↔ (z - 1) * f < x ∧ x ≤ z * f := by
  have positive : (0 : ℚ) < f := by exact_mod_cast pos
  rw [Int.ceil_eq_iff, lt_div_iff₀ positive, div_le_iff₀ positive]
  norm_cast

theorem floor_half_iff (pos : 0 < f) :
    ⌊(x : ℚ) / f + 1 / 2⌋ = z ↔
      z * (2 * f) ≤ 2 * x + f ∧ 2 * x + f < (z + 1) * (2 * f) := by
  have positive : (f : ℚ) ≠ 0 := by exact_mod_cast (ne_of_gt pos)
  have sum : (x : ℚ) / f + 1 / 2 = ((2 * x + f : ℤ) : ℚ) / (2 * f : ℤ) := by
    push_cast
    field_simp
  rw [sum]
  exact floor_div_iff (by omega)

theorem ceil_half_iff (pos : 0 < f) :
    ⌈(x : ℚ) / f - 1 / 2⌉ = z ↔
      (z - 1) * (2 * f) < 2 * x - f ∧ 2 * x - f ≤ z * (2 * f) := by
  have positive : (f : ℚ) ≠ 0 := by exact_mod_cast (ne_of_gt pos)
  have sum : (x : ℚ) / f - 1 / 2 = ((2 * x - f : ℤ) : ℚ) / (2 * f : ℤ) := by
    push_cast
    field_simp
  rw [sum]
  exact ceil_div_iff (by omega)

theorem nonneg_div_iff (pos : 0 < f) : 0 ≤ (x : ℚ) / f ↔ 0 ≤ x := by
  have positive : (0 : ℚ) < f := by exact_mod_cast pos
  rw [le_div_iff₀ positive, zero_mul]
  norm_cast

end

namespace Rounding

section

variable {x f q : ℤ}

/-- Where the rounding of a quotient is, as a condition on the integers. -/
theorem rounded_floor_iff (pos : 0 < f) :
    rounded .floor ((x : ℚ) / f) = q ↔ q * f ≤ x ∧ x < (q + 1) * f :=
  floor_div_iff pos

theorem rounded_ceil_iff (pos : 0 < f) :
    rounded .ceil ((x : ℚ) / f) = q ↔ (q - 1) * f < x ∧ x ≤ q * f :=
  ceil_div_iff pos

theorem rounded_truncate_iff (pos : 0 < f) :
    rounded .truncate ((x : ℚ) / f) = q ↔
      if 0 ≤ x then q * f ≤ x ∧ x < (q + 1) * f
      else (q - 1) * f < x ∧ x ≤ q * f := by
  rw [rounded]
  simp only [nonneg_div_iff pos]
  split
  case isTrue => exact floor_div_iff pos
  case isFalse => exact ceil_div_iff pos

theorem rounded_round_iff (pos : 0 < f) :
    rounded .round ((x : ℚ) / f) = q ↔
      if 0 ≤ x then q * (2 * f) ≤ 2 * x + f ∧ 2 * x + f < (q + 1) * (2 * f)
      else (q - 1) * (2 * f) < 2 * x - f ∧ 2 * x - f ≤ q * (2 * f) := by
  rw [rounded]
  simp only [nonneg_div_iff pos]
  split
  case isTrue => exact floor_half_iff pos
  case isFalse => exact ceil_half_iff pos

/-- A number rounds to zero where it vanishes. -/
theorem rounded_eq_zero_iff (mode : Rounding) (pos : 0 < f) :
    rounded mode ((x : ℚ) / f) = 0 ↔ mode.Vanishes x f := by
  cases mode with
  | floor =>
      rw [rounded_floor_iff pos, Vanishes]
      constructor <;> rintro ⟨_, _⟩ <;> constructor <;> omega
  | ceil =>
      rw [rounded_ceil_iff pos, Vanishes]
      constructor <;> rintro ⟨_, _⟩ <;> constructor <;> omega
  | truncate =>
      rw [rounded_truncate_iff pos, Vanishes]
      split <;> constructor <;> rintro ⟨_, _⟩ <;> constructor <;> omega
  | round =>
      rw [rounded_round_iff pos, Vanishes]
      split <;> constructor <;> rintro ⟨_, _⟩ <;> constructor <;> omega

end

end Rounding

/-- The rounding of an Integer to a power of ten. -/
def exactRounding (mode : Rounding) (x : ℤ) (k : Nat) : ℤ :=
  10 ^ k * mode.rounded ((x : ℚ) / 10 ^ k)

/-- A rounding answers the exact one, as a canonical Integer. -/
def RoundsExactly (s : Number) (nd : Int64) (mode : Rounding) : Prop :=
  ∃ r, intRounding s nd mode = some r ∧
    r.Denotes (exactRounding mode s.toInt nd.toInt.natAbs)

/-- Where the estimate answers, that the Integer rounds to zero; elsewhere, that
it is not truncated at an exact negative multiple. -/
def RoundingFits (s : Number) (nd : Int64) (mode : Rounding) : Prop :=
  if fewDigits s.asBigint nd then
    mode.Vanishes s.toInt (10 ^ nd.toInt.natAbs)
  else
    ¬ (mode = .truncate ∧ s.toInt < 0 ∧
      (10 : ℤ) ^ nd.toInt.natAbs ∣ s.toInt)

section

variable {x f m q : ℤ}

/-- A number is negative where the multiple below it is. -/
theorem nonneg_parts
    (pos : 0 < f)
    (nonneg : 0 ≤ m)
    (lt : m < f)
    (sum : x = q * f + m) : 0 ≤ x ↔ 0 ≤ q * f := by
  constructor
  · intro whole
    by_contra negative
    have below : q < 0 := by
      by_contra above
      exact negative (Int.mul_nonneg (by omega) (by omega))
    have atMost : q * f ≤ -1 * f :=
      Int.mul_le_mul_of_nonneg_right (by omega) (by omega)
    omega
  · intro whole
    omega

/-- The rounding of a quotient and a remainder. -/
theorem Rounding.rounded_parts
    (mode : Rounding)
    (pos : 0 < f)
    (nonneg : 0 ≤ m)
    (lt : m < f)
    (sum : x = q * f + m) :
    mode.rounded ((x : ℚ) / f) =
      match mode with
      | .floor => q
      | .ceil => if m = 0 then q else q + 1
      | .truncate => if x < 0 ∧ m ≠ 0 then q + 1 else q
      | .round => if f < 2 * m ∨ (f = 2 * m ∧ 0 < x) then q + 1 else q := by
  have next : (q + 1) * f = q * f + f := by ring
  have second : (q + 1 + 1) * f = q * f + 2 * f := by ring
  have previous : (q - 1) * f = q * f - f := by ring
  have same : (q + 1 - 1) * f = q * f := by ring
  have twice : q * (2 * f) = 2 * (q * f) := by ring
  have twiceNext : (q + 1) * (2 * f) = 2 * (q * f) + 2 * f := by ring
  have twiceSecond : (q + 1 + 1) * (2 * f) = 2 * (q * f) + 4 * f := by ring
  have twicePrevious : (q - 1) * (2 * f) = 2 * (q * f) - 2 * f := by ring
  have twiceSame : (q + 1 - 1) * (2 * f) = 2 * (q * f) := by ring
  have sign := nonneg_parts pos nonneg lt sum
  cases mode with
  | floor =>
      rw [rounded_floor_iff pos]
      dsimp only
      omega
  | ceil =>
      rw [rounded_ceil_iff pos]
      dsimp only
      split <;> omega
  | truncate =>
      rw [rounded_truncate_iff pos]
      dsimp only
      split
      case isTrue whole =>
        rw [if_neg (by omega)]
        omega
      case isFalse negative => split <;> omega
  | round =>
      rw [rounded_round_iff pos]
      dsimp only
      split
      case isTrue whole => split <;> omega
      case isFalse negative => split <;> omega

end

/-- What is derived from the remainder is exact but for a truncation at an exact
negative multiple. -/
theorem roundingOf_spec
    (mode : Rounding)
    (xFormed : x.WellFormed)
    (fFormed : f.WellFormed)
    (mFormed : m.WellFormed)
    (nFormed : n.WellFormed)
    (even : f.toInt % 2 = 0)
    (pos : 0 < f.toInt)
    (mNonneg : 0 ≤ m.toInt)
    (mLt : m.toInt < f.toInt)
    (multiple : n.toInt = q * f.toInt)
    (sum : x.toInt = n.toInt + m.toInt) :
    (roundingOf mode x f m n).WellFormed ∧
      ((roundingOf mode x f m n).toInt =
          f.toInt * mode.rounded ((x.toInt : ℚ) / f.toInt) ↔
        ¬ (mode = .truncate ∧ x.toInt < 0 ∧ m.toInt = 0)) := by
  obtain ⟨raised, raisedFormed⟩ := BigInt.add_spec nFormed.trimmed
    fFormed.trimmed
  have next : f.toInt * (q + 1) = q * f.toInt + f.toInt := by ring
  have swapped : f.toInt * q = q * f.toInt := Int.mul_comm _ _
  have zero : m.isZero = true ↔ m.toInt = 0 := by
    rw [mFormed.toInt_eq_zero_iff, BigInt.isZero, List.isEmpty_iff]
  rw [mode.rounded_parts pos mNonneg mLt (by rw [sum, multiple])]
  cases mode with
  | floor =>
      refine ⟨nFormed, ?_⟩
      simp only [roundingOf, multiple, swapped, reduceCtorEq, false_and,
        not_false_eq_true]
  | ceil =>
      simp only [roundingOf, zero, reduceCtorEq, false_and, not_false_eq_true,
        iff_true]
      split
      case isTrue none => exact ⟨xFormed, by omega⟩
      case isFalse => exact ⟨raisedFormed, by omega⟩
  | truncate =>
      have sign := BigInt.sign_cases nFormed
      have whole := nonneg_parts pos mNonneg mLt
        (by rw [sum, multiple] : x.toInt = q * f.toInt + m.toInt)
      simp only [roundingOf, true_and]
      by_cases negative : n.sign < 0
      · simp only [if_pos negative]
        refine ⟨raisedFormed, ?_⟩
        split <;> omega
      · simp only [if_neg negative]
        refine ⟨nFormed, ?_⟩
        rw [if_neg (by omega)]
        omega
  | round =>
      obtain ⟨half, halfFormed⟩ := BigInt.shr_spec fFormed.trimmed 1
      have halves : (f.shr 1).toInt * 2 = f.toInt := by
        rw [half, pow_one, Int.fdiv_eq_ediv_of_nonneg _ (by omega)]
        omega
      have sign := BigInt.sign_cases xFormed
      have compared := BigInt.cmp_eq_compare mFormed halfFormed
      simp only [roundingOf, compared, reduceCtorEq, false_and,
        not_false_eq_true, iff_true, Int.compare_eq_gt, Int.compare_eq_eq]
      split
      case isTrue up =>
        rw [if_pos (by omega)]
        exact ⟨raisedFormed, by omega⟩
      case isFalse down =>
        rw [if_neg (by omega)]
        exact ⟨nFormed, by omega⟩

/-- A rounding is exact exactly where it fits. -/
theorem roundsExactly_iff
    {s : Number}
    {nd : Int64}
    (mode : Rounding)
    (canonical : s.Canonical)
    (negative : nd < 0) :
    RoundsExactly s nd mode ↔ RoundingFits s nd mode := by
  have zero : (0 : Int64).toInt = 0 := rfl
  have digits : nd.toInt < 0 := by
    rw [Int64.lt_iff_toInt_lt, zero] at negative
    exact negative
  have notNonneg : ¬ nd ≥ 0 := by
    rw [ge_iff_le, Int64.le_iff_toInt_le, zero]
    omega
  have exponent : (-nd).toUInt64.toNat = nd.toInt.natAbs := by
    have word := toInt_eq_bmod (-nd)
    have least := nd.le_toInt
    have lt := (-nd).toUInt64.toNat_lt
    rw [Int64.toInt_neg, Int.bmod_def, Int.bmod_def] at word
    split at word <;> split at word <;> omega
  have pos : (0 : ℤ) < 10 ^ nd.toInt.natAbs := by positivity
  have power : ((10 ^ nd.toInt.natAbs : ℤ) : ℚ) = 10 ^ nd.toInt.natAbs := by
    push_cast
    rfl
  unfold RoundsExactly RoundingFits intRounding exactRounding
  simp only [if_neg notNonneg]
  by_cases few : fewDigits s.asBigint nd = true
  · simp only [if_pos few, ← Rounding.rounded_eq_zero_iff mode pos, power]
    constructor
    · rintro ⟨r, answer, -, value⟩
      cases answer
      have product : (0 : ℤ) = 10 ^ nd.toInt.natAbs *
          mode.rounded ((s.toInt : ℚ) / 10 ^ nd.toInt.natAbs) := value
      rcases Int.mul_eq_zero.mp product.symm with none | none
      · omega
      · exact none
    · intro vanishes
      refine ⟨.int 0, rfl, trivial, ?_⟩
      rw [vanishes, Int.mul_zero]
      rfl
  · have formed := canonical.asBigint
    have whole := toInt_asBigint s
    have ten : (BigInt.fromI64 10).toInt = 10 := BigInt.toInt_fromI64 10
    have lt := (-nd).toUInt64.toNat_lt
    obtain ⟨f, powers, fValue, fFormed⟩ :=
      BigInt.pow_spec (BigInt.fromI64 10) lt
    rw [ten, exponent] at fValue
    obtain ⟨quotient, m, divides, -, mValue, -, mFormed⟩ :=
      BigInt.divmodFloor_spec s.asBigint fFormed.trimmed (by omega)
    obtain ⟨nValue, nFormed⟩ := @BigInt.sub_spec _ m formed.trimmed
    have modFloor : s.asBigint.modFloor f = some m := by
      rw [BigInt.modFloor, divides]
      rfl
    simp only [if_neg few, powers, modFloor, Option.bind_eq_bind,
      Option.bind_some]
    rw [whole] at mValue nValue
    have even : f.toInt % 2 = 0 := by
      obtain ⟨k, digit⟩ : ∃ k, nd.toInt.natAbs = k + 1 :=
        ⟨nd.toInt.natAbs - 1, by omega⟩
      rw [fValue, digit, pow_succ]
      omega
    have nonneg := Int.fmod_nonneg_of_pos s.toInt (by omega : 0 < f.toInt)
    have below := Int.fmod_lt_of_pos s.toInt (by omega : 0 < f.toInt)
    have parts := Int.fmod_add_mul_fdiv s.toInt f.toInt
    obtain ⟨rFormed, exact_⟩ := roundingOf_spec mode formed fFormed mFormed
      nFormed even (by omega) (by omega) (by omega)
      (by rw [nValue, mValue, Int.mul_comm]; omega :
        (s.asBigint.sub m).toInt = s.toInt.fdiv f.toInt * f.toInt)
      (by rw [whole]; omega)
    have multiple : m.toInt = 0 ↔ (10 : ℤ) ^ nd.toInt.natAbs ∣ s.toInt := by
      rw [mValue, ← fValue]
      exact ⟨Int.dvd_of_fmod_eq_zero, Int.fmod_eq_zero_of_dvd⟩
    have denotes := bintValue_denotes rFormed
    rw [whole, multiple, fValue, power] at exact_
    rw [← exact_]
    constructor
    · rintro ⟨r, answer, -, value⟩
      cases answer
      rw [← value]
      exact denotes.2.symm
    · intro value
      refine ⟨_, rfl, ?_⟩
      rw [← value]
      exact denotes

/-- Fifteen to the nearest ten. -/
theorem roundsExactly_iff_fifteen :
    RoundsExactly (.int 15) (-1) .round ↔ RoundingFits (.int 15) (-1) .round :=
  roundsExactly_iff .round trivial (by decide)

/-- Minus ten truncated to tens is zero instead of minus ten. -/
theorem truncate_exact_multiple :
    ¬ ∀ (s : Number) (nd : Int64) (mode : Rounding),
      s.Canonical → nd < 0 → RoundsExactly s nd mode := by
  intro exact_
  obtain ⟨r, answer, -, value⟩ :=
    exact_ (.int (-10)) (-1) .truncate trivial (by decide)
  have zero : intRounding (.int (-10)) (-1) .truncate = some (.int 0) := by
    decide +kernel
  rw [zero] at answer
  cases answer
  have exactly : exactRounding .truncate (Number.int (-10)).toInt
      (-1 : Int64).toInt.natAbs = -10 := by
    decide +kernel
  rw [exactly] at value
  exact absurd value (by decide)

end SabiRuby.Integer
