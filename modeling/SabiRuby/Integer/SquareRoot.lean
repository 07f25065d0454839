import SabiRuby.Integer.BitOperations
import SabiRuby.Library.PowersAndRoots

/-!
# Integer square roots

`Integer.sqrt` has an iteration for machine integers, one for big integers of two
limbs, and one for longer ones.  Each halves its distance to the root until it
stops there.
-/

namespace SabiRuby.Integer

open Library

/-- An Integer of the program. -/
inductive Number
  /-- A machine integer. -/
  | int (n : Int64)
  /-- A wide integer. -/
  | bint (b : BigInt)
  deriving DecidableEq, Repr

namespace Number

def toInt : Number → Int
  | .int n => n.toInt
  | .bint b => b.toInt

/-- A wide integer is trimmed, and zero has no sign. -/
def WellFormed : Number → Prop
  | .int _ => True
  | .bint b => b.WellFormed

/-- `bint_value`: a machine integer where the value fits. -/
def bintValue (b : BigInt) : Number :=
  match b.toI64 with
  | some i => .int i
  | none => .bint b

theorem toInt_bintValue
    (formed : b.WellFormed) : (bintValue b).toInt = b.toInt := by
  unfold bintValue
  rw [formed.toI64_eq]
  by_cases fits : BigInt.FitsI64 b.toInt
  · rw [if_pos fits]
    exact Int64.toInt_ofInt_of_le fits.1 fits.2
  · rw [if_neg fits]
    rfl

end Number

/-! ## The iterations -/

def isqrtLoop (n : Int64) : Nat → Int64 → Int64 → Option Int64
  | 0, _, _ => none
  | turns + 1, x, y =>
      if y < x then
        if y = 0 then none
        else isqrtLoop n turns y ((y + n / y) / 2)
      else some x

/-- The first step of `isqrt`. -/
def isqrtStart (n : Int64) : Int64 := (n + 1) / 2

/-- The square root of a machine integer. -/
def isqrt (n : Int64) : Option Int64 :=
  if n < 2 then some n else isqrtLoop n 65 n (isqrtStart n)

def isqrtU64Loop (n : UInt64) : Nat → UInt64 → UInt64 → Option UInt64
  | 0, _, _ => none
  | turns + 1, x, y =>
      if y < x then
        if y = 0 then none
        else isqrtU64Loop n turns y ((y + n / y) / 2)
      else some x

/-- `div_ceil`. -/
def divCeil (n d : UInt64) : UInt64 := n / d + if 0 < n % d then 1 else 0

/-- The square root of an unsigned word. -/
def isqrtU64 (n : UInt64) : Option UInt64 :=
  if n < 2 then some n else isqrtU64Loop n 65 n (divCeil n 2)

namespace BigInt

/-- The value where it fits an unsigned word. -/
def toU64 (self : BigInt) : Option UInt64 :=
  if self.neg ∨ 2 < self.mag.length then none
  else
    let low : UInt32 := self.mag[0]?.getD 0
    let high : UInt32 := self.mag[1]?.getD 0
    some (low.toUInt64 ||| high.toUInt64 <<< 32)

def bitLength (self : BigInt) : Nat :=
  match self.mag.getLast? with
  | none => 0
  | some top => (self.mag.length - 1) * 32 + (32 - leadingZeros top)

def sqrtLoop (self : BigInt) : Nat → BigInt → Option BigInt
  | 0, _ => none
  | turns + 1, x => do
      let q ← self.divFloor x
      let next := (x.add q).shr 1
      if next.cmp x ≠ .lt then some x else sqrtLoop self turns next

/-- A power of two above the root. -/
def sqrtStart (self : BigInt) : BigInt :=
  (fromI64 1).shl ((self.bitLength + 1) / 2)

def sqrt (self : BigInt) : Option BigInt :=
  if self.mag.length ≤ 2 then
    (isqrtU64 (self.toU64.getD 0)).map fromU64
  else sqrtLoop self (self.bitLength + 1) self.sqrtStart

end BigInt

/-- `Integer.sqrt`; an error has the text of its exception. -/
def integerSqrt : Number → Option (Except String Number)
  | .int n =>
      if n < 0 then some (.error "non-negative integer required")
      else (isqrt n).map fun r => .ok (.int r)
  | .bint b =>
      if b.sign < 0 then some (.error "square root of negative number")
      else b.sqrt.map fun r => .ok (Number.bintValue r)

/-! ## The iterations with checked words -/

def isqrtLoopChecked (n : Int64) : Nat → Int64 → Int64 → Option Int64
  | 0, _, _ => none
  | turns + 1, x, y =>
      if y < x then
        if y = 0 then none
        else do
          let sum ← addSigned y (n / y)
          isqrtLoopChecked n turns y (sum / 2)
      else some x

/-- `isqrt`. -/
def isqrtChecked (n : Int64) : Option Int64 :=
  if n < 2 then some n
  else do
    let sum ← addSigned n 1
    isqrtLoopChecked n 65 n (sum / 2)

def isqrtU64LoopChecked (n : UInt64) : Nat → UInt64 → UInt64 → Option UInt64
  | 0, _, _ => none
  | turns + 1, x, y =>
      if y < x then
        if y = 0 then none
        else do
          let sum ← addChecked y (n / y)
          isqrtU64LoopChecked n turns y (sum / 2)
      else some x

/-- `isqrtU64`. -/
def isqrtU64Checked (n : UInt64) : Option UInt64 :=
  if n < 2 then some n
  else do
    let start ← addChecked (n / 2) (if 0 < n % 2 then 1 else 0)
    isqrtU64LoopChecked n 65 n start

/-- `integerSqrt`. -/
def integerSqrtChecked : Number → Option (Except String Number)
  | .int n =>
      if n < 0 then some (.error "non-negative integer required")
      else (isqrtChecked n).map fun r => .ok (.int r)
  | .bint b =>
      if b.sign < 0 then some (.error "square root of negative number")
      else if b.mag.length ≤ 2 then
        (isqrtU64Checked (b.toU64.getD 0)).map fun r =>
          .ok (Number.bintValue (BigInt.fromU64 r))
      else b.sqrt.map fun r => .ok (Number.bintValue r)

/-! ## Machine integers -/

theorem toInt_div_two
    {a : Int64}
    (nonnegative : 0 ≤ a.toInt) : (a / 2).toInt = a.toInt / 2 := by
  rw [Int64.toInt_div_of_ne_right _ _ (by decide),
    Int.tdiv_eq_ediv_of_nonneg nonnegative]
  rfl

/-- The quotient of a step and its sum fit a word. -/
theorem newton_sum_lt
    (atLeast : number.sqrt ≤ y)
    (positive : 0 < y)
    (yBound : y ≤ 2 ^ width)
    (numberBound : number < 2 ^ (width + 1))
    (wide : 2 ≤ width) : y + number / y < 2 ^ (width + 1) := by
  have power : 2 ^ (width + 1) = 2 ^ width + 2 ^ width := by
    rw [pow_succ]
    ring
  have four : 2 ^ 2 ≤ 2 ^ width := Nat.pow_le_pow_right (by omega) wide
  rcases Nat.lt_or_ge y 2 with one | more
  · have yOne : y = 1 := by omega
    rw [yOne] at atLeast ⊢
    have small : number < 2 * 2 := Nat.sqrt_lt.mp (by omega)
    rw [Nat.div_one]
    omega
  · have quotient : number / y ≤ number / 2 :=
      Nat.div_le_div_left more (by omega)
    omega

/-- One step in machine integers. -/
theorem signedStep_spec
    {number next : Nat}
    (nEq : n.toInt = (number : Int))
    (yEq : y.toInt = (next : Int))
    (positive : 0 < next)
    (sumBound : next + number / next < 2 ^ 63) :
    addSigned y (n / y) = some (y + n / y) ∧
      ((y + n / y) / 2).toInt = ((next + number / next) / 2 : Nat) ∧
      (next + number / next) / 2 ≤ 2 ^ 62 := by
  have quotient : (n / y).toInt = (number / next : Nat) := by
    rw [Int64.toInt_div_of_ne_right _ _ (by
      rintro rfl
      have : (-1 : Int64).toInt = -1 := by decide
      omega), nEq, yEq, Int.tdiv_eq_ediv_of_nonneg (by omega)]
    push_cast
    rfl
  generalize number / next = taken at *
  have sum : (y + n / y).toInt = (next + taken : Nat) := by
    rw [Int64.toInt_add, yEq, quotient, bmod_of_small (by omega) (by omega)]
    push_cast
    rfl
  refine ⟨addSigned_eq (by omega) (by omega), ?_, by omega⟩
  rw [toInt_div_two (by omega), sum]
  push_cast
  rfl

theorem isqrtLoop_spec
    {n x y : Int64}
    {number root turns : Nat}
    (nEq : n.toInt = (number : Int))
    (one : 1 ≤ number)
    (xEq : x.toInt = (root : Int))
    (positive : 0 < root)
    (yEq : y.toInt = ((root + number / root) / 2 : Nat))
    (yBound : (root + number / root) / 2 ≤ 2 ^ 62)
    (above : number.sqrt ≤ root)
    (near : root < number.sqrt + 2 ^ turns) :
    ∃ r, isqrtLoop n (turns + 1) x y = some r ∧
      isqrtLoopChecked n (turns + 1) x y = some r ∧
      r.toInt = (number.sqrt : Int) := by
  induction turns generalizing x y root with
  | zero =>
      have atLeast := sqrt_le_newton number positive
      have stop : ¬y < x := by
        rw [Int64.lt_iff_toInt_lt]
        omega
      refine ⟨x, ?_, ?_, by omega⟩
      · rw [isqrtLoop, if_neg stop]
      · rw [isqrtLoopChecked, if_neg stop]
  | succ turns ih =>
      have atLeast := sqrt_le_newton number positive
      rw [isqrtLoop, isqrtLoopChecked]
      by_cases further : y < x
      · have falls : (root + number / root) / 2 < root := by
          rw [Int64.lt_iff_toInt_lt] at further
          omega
        have halves := newton_halves (Nat.lt_of_le_of_lt atLeast falls)
        have rootPositive : 0 < number.sqrt := Nat.sqrt_pos.mpr one
        have numberBound := n.toInt_lt
        generalize (root + number / root) / 2 = next at *
        have sumBound := newton_sum_lt atLeast (by omega)
          yBound (show number < 2 ^ (62 + 1) by omega) (by omega)
        have nonzero : ¬y = 0 := by
          rintro rfl
          rw [Int64.toInt_zero] at yEq
          omega
        obtain ⟨sumFits, stepEq, stepSmall⟩ := signedStep_spec nEq yEq
          (by omega) sumBound
        rw [if_pos further, if_neg nonzero, if_pos further, if_neg nonzero,
          sumFits, Option.bind_eq_bind, Option.bind_some]
        rw [pow_succ] at near
        exact ih yEq (by omega) stepEq stepSmall atLeast
          (by omega)
      · have stopped : root ≤ (root + number / root) / 2 := by
          rw [Int64.lt_iff_toInt_lt] at further
          omega
        have atMost := le_sqrt_of_newton positive stopped
        rw [if_neg further, if_neg further]
        exact ⟨x, rfl, rfl, by omega⟩

/-- The iteration on machine integers, but for the largest one. -/
theorem isqrt_spec
    {n : Int64}
    (nonnegative : 0 ≤ n.toInt)
    (notLargest : n ≠ Int64.maxValue) :
    ∃ r, isqrt n = some r ∧ isqrtChecked n = some r ∧
      r.toInt = (n.toInt.toNat.sqrt : Int) ∧
      (2 ≤ n.toInt → r.toInt ≤ (isqrtStart n).toInt) := by
  obtain ⟨number, nEq⟩ : ∃ number : Nat, n.toInt = number :=
    Int.eq_ofNat_of_zero_le nonnegative
  have bound := n.toInt_lt
  have two : (2 : Int64).toInt = 2 := by decide
  rw [nEq, Int.toNat_natCast]
  unfold isqrt isqrtChecked
  by_cases small : n < 2
  · rw [if_pos small, if_pos small]
    rw [Int64.lt_iff_toInt_lt, two] at small
    refine ⟨n, rfl, rfl, ?_, by omega⟩
    have atMost : number ≤ 1 := by omega
    rcases Nat.le_one_iff_eq_zero_or_eq_one.mp atMost with rfl | rfl
    · simp [nEq]
    · simp [nEq]
  · rw [if_neg small, if_neg small]
    rw [Int64.lt_iff_toInt_lt, two] at small
    have notMax : n.toInt ≠ 2 ^ 63 - 1 := by
      intro same
      refine notLargest (Int64.toInt_inj.mp ?_)
      rw [same]
      decide
    have one : (1 : Int64).toInt = 1 := by decide
    have sumFits := @addSigned_eq n 1 (by omega) (by omega)
    have sum : (n + 1).toInt = (number + 1 : Nat) := by
      rw [Int64.toInt_add, nEq, one, bmod_of_small (by omega) (by omega)]
      push_cast
      rfl
    have start : (isqrtStart n).toInt = ((number + 1) / 2 : Nat) := by
      unfold isqrtStart
      rw [toInt_div_two (by omega), sum]
      push_cast
      rfl
    have self : number / number = 1 := Nat.div_self (by omega)
    obtain ⟨r, ran, ranChecked, root⟩ :=
      isqrtLoop_spec nEq (by omega) nEq (by omega)
        (by rw [self]; exact start) (by rw [self]; omega)
        (Nat.sqrt_le_self number)
        (show number < number.sqrt + 2 ^ 64 by omega)
    rw [sumFits, Option.bind_eq_bind, Option.bind_some]
    refine ⟨r, ran, ranChecked, root, fun _ => ?_⟩
    have half := sqrt_le_half number
    omega

/-! ## Unsigned words -/

/-- One step in unsigned words. -/
theorem unsignedStep_spec
    (nEq : n.toNat = number)
    (yEq : y.toNat = next)
    (sumBound : next + number / next < 2 ^ 64) :
    addChecked y (n / y) = some (y + n / y) ∧
      ((y + n / y) / 2).toNat = (next + number / next) / 2 ∧
      (next + number / next) / 2 ≤ 2 ^ 63 := by
  have quotient : (n / y).toNat = number / next := by
    rw [UInt64.toNat_div, nEq, yEq]
  generalize number / next = taken at *
  refine ⟨addChecked_eq (by omega), ?_, by omega⟩
  rw [UInt64.toNat_div, UInt64.toNat_add, yEq, quotient,
    Nat.mod_eq_of_lt sumBound]
  rfl

theorem isqrtU64Loop_spec
    (nEq : n.toNat = number)
    (one : 1 ≤ number)
    (xEq : x.toNat = root)
    (positive : 0 < root)
    (yEq : y.toNat = (root + number / root) / 2)
    (yBound : (root + number / root) / 2 ≤ 2 ^ 63)
    (above : number.sqrt ≤ root)
    (near : root < number.sqrt + 2 ^ turns) :
    ∃ r, isqrtU64Loop n (turns + 1) x y = some r ∧
      isqrtU64LoopChecked n (turns + 1) x y = some r ∧
      r.toNat = number.sqrt := by
  induction turns generalizing x y root with
  | zero =>
      have atLeast := sqrt_le_newton number positive
      have stop : ¬y < x := by
        rw [UInt64.lt_iff_toNat_lt]
        omega
      refine ⟨x, ?_, ?_, by omega⟩
      · rw [isqrtU64Loop, if_neg stop]
      · rw [isqrtU64LoopChecked, if_neg stop]
  | succ turns ih =>
      have atLeast := sqrt_le_newton number positive
      rw [isqrtU64Loop, isqrtU64LoopChecked]
      by_cases further : y < x
      · have falls : (root + number / root) / 2 < root := by
          rw [UInt64.lt_iff_toNat_lt] at further
          omega
        have halves := newton_halves (Nat.lt_of_le_of_lt atLeast falls)
        have rootPositive : 0 < number.sqrt := Nat.sqrt_pos.mpr one
        have numberBound := n.toNat_lt
        generalize (root + number / root) / 2 = next at *
        have sumBound := newton_sum_lt atLeast (by omega)
          yBound (show number < 2 ^ (63 + 1) by omega) (by omega)
        have nonzero : ¬y = 0 := by
          rintro rfl
          rw [UInt64.toNat_zero] at yEq
          omega
        obtain ⟨sumFits, stepEq, stepSmall⟩ :=
          unsignedStep_spec nEq yEq sumBound
        rw [if_pos further, if_neg nonzero, if_pos further, if_neg nonzero,
          sumFits, Option.bind_eq_bind, Option.bind_some]
        rw [pow_succ] at near
        exact ih yEq (by omega) stepEq stepSmall atLeast
          (by omega)
      · have stopped : root ≤ (root + number / root) / 2 := by
          rw [UInt64.lt_iff_toNat_lt] at further
          omega
        have atMost := le_sqrt_of_newton positive stopped
        rw [if_neg further, if_neg further]
        exact ⟨x, rfl, rfl, by omega⟩

/-- Half a word, rounded up. -/
theorem divCeil_two (n : UInt64) :
    addChecked (n / 2) (if 0 < n % 2 then 1 else 0) = some (divCeil n 2) ∧
      (divCeil n 2).toNat = (n.toNat + 1) / 2 := by
  have bound := n.toNat_lt
  have two : (2 : UInt64).toNat = 2 := rfl
  have half : (n / 2).toNat = n.toNat / 2 := by
    rw [UInt64.toNat_div, two]
  have rest : (n % 2).toNat = n.toNat % 2 := by
    rw [UInt64.toNat_mod, two]
  have carry : (if 0 < n % 2 then (1 : UInt64) else 0).toNat =
      n.toNat % 2 := by
    have odd : 0 < n % 2 ↔ 0 < n.toNat % 2 := by
      rw [UInt64.lt_iff_toNat_lt, rest, UInt64.toNat_zero]
    by_cases isOdd : 0 < n % 2
    · rw [if_pos isOdd, UInt64.toNat_one]
      have := odd.mp isOdd
      omega
    · rw [if_neg isOdd, UInt64.toNat_zero]
      have := mt odd.mpr isOdd
      omega
  unfold divCeil
  generalize (if 0 < n % 2 then (1 : UInt64) else 0) = one at *
  refine ⟨addChecked_eq (by omega), ?_⟩
  rw [UInt64.toNat_add]
  omega

theorem isqrtU64_spec (n : UInt64) :
    ∃ r, isqrtU64 n = some r ∧ isqrtU64Checked n = some r ∧
      r.toNat = n.toNat.sqrt ∧
      (2 ≤ n.toNat → r.toNat ≤ (divCeil n 2).toNat) := by
  have bound := n.toNat_lt
  have two : (2 : UInt64).toNat = 2 := rfl
  unfold isqrtU64 isqrtU64Checked
  by_cases small : n < 2
  · rw [if_pos small, if_pos small]
    rw [UInt64.lt_iff_toNat_lt, two] at small
    refine ⟨n, rfl, rfl, ?_, by omega⟩
    have atMost : n.toNat ≤ 1 := by omega
    rcases Nat.le_one_iff_eq_zero_or_eq_one.mp atMost with zero | one
    · simp [zero]
    · simp [one]
  · rw [if_neg small, if_neg small]
    rw [UInt64.lt_iff_toNat_lt, two] at small
    obtain ⟨startFits, start⟩ := divCeil_two n
    have self : n.toNat / n.toNat = 1 := Nat.div_self (by omega)
    obtain ⟨r, ran, ranChecked, root⟩ :=
      isqrtU64Loop_spec rfl (by omega) rfl (by omega)
        (by rw [self]; exact start) (by rw [self]; omega)
        (Nat.sqrt_le_self n.toNat)
        (show n.toNat < n.toNat.sqrt + 2 ^ 64 by omega)
    rw [startFits, Option.bind_eq_bind, Option.bind_some]
    refine ⟨r, ran, ranChecked, root, fun _ => ?_⟩
    have half := sqrt_le_half n.toNat
    omega

namespace BigInt

/-! ## Big integers -/

theorem toU64_spec
    {self : BigInt}
    (positive : self.neg = false)
    (short : self.mag.length ≤ 2) :
    (self.toU64.getD 0).toNat = value self.mag := by
  have accepted : ¬(self.neg = true ∨ 2 < self.mag.length) := by
    rw [positive]
    simpa using short
  unfold toU64
  rw [if_neg accepted]
  match mag : self.mag, short with
  | [], _ => rfl
  | [x], _ => simp
  | [x, y], _ => exact toNat_words x y

theorem sign_eq
    {self : BigInt}
    (formed : self.WellFormed) :
    self.sign = if self.toInt = 0 then 0 else if self.toInt < 0 then -1
      else 1 := by
  unfold sign
  by_cases zero : self.toInt = 0
  · rw [if_pos zero, formed.toInt_eq_zero_iff.mp zero]
    rfl
  · have some_ : ¬self.mag.isEmpty = true := by
      rw [List.isEmpty_iff, ← formed.toInt_eq_zero_iff]
      exact zero
    rw [if_neg zero, if_neg some_]
    by_cases negative : self.toInt < 0
    · rw [if_pos negative, if_pos (formed.neg_iff.mpr negative)]
    · rw [if_neg negative, if_neg (mt formed.neg_iff.mp negative)]

/-- A comparison of integers that are not negative. -/
theorem cmp_eq
    {a b : BigInt}
    (aFormed : a.WellFormed)
    (bFormed : b.WellFormed)
    (aLow : 0 ≤ a.toInt)
    (bLow : 0 < b.toInt) : a.cmp b = .lt ↔ a.toInt < b.toInt := by
  have aSign := sign_eq aFormed
  have bSign := sign_eq bFormed
  rw [if_neg (by omega), if_neg (by omega)] at bSign
  unfold cmp
  by_cases zero : a.toInt = 0
  · rw [if_pos zero] at aSign
    rw [aSign, bSign, zero]
    simp only [ne_eq, zero_ne_one, not_false_eq_true, if_true]
    constructor
    · intro _
      exact bLow
    · intro _
      rfl
  · rw [if_neg zero, if_neg (by omega)] at aSign
    have same : ¬a.sign ≠ b.sign := by
      rw [aSign, bSign]
      simp
    rw [if_neg same, aSign]
    have positive : ¬(1 : Int) < 0 := by omega
    simp only [if_neg positive]
    rw [ucmp_eq aFormed.trimmed bFormed.trimmed, Nat.compare_eq_lt,
      ← natAbs_toInt, ← natAbs_toInt]
    omega

/-- The bits hold the magnitude. -/
theorem value_lt_bitLength (self : BigInt) :
    value self.mag < 2 ^ self.bitLength := by
  unfold bitLength
  rcases List.eq_nil_or_concat' self.mag with empty | ⟨front, top, concat⟩
  · rw [empty]
    simp
  · have getLast : (front ++ [top]).getLast? = some top := by simp
    rw [concat, getLast]
    dsimp only
    have width : 32 - leadingZeros top = top.toNat.size := by
      have atMost : top.toNat.size ≤ 32 := Nat.size_le.mpr top.toNat_lt
      unfold leadingZeros
      omega
    have topBound := Nat.lt_size_self top.toNat
    have frontBound := value_lt front
    have exponent : 2 ^ (front.length * 32 + top.toNat.size) =
        (2 ^ 32) ^ front.length * 2 ^ top.toNat.size := by
      rw [Nat.pow_add, Nat.mul_comm front.length 32, Nat.pow_mul]
    rw [width, value_append, List.length_append, List.length_singleton,
      Nat.add_sub_cancel, exponent]
    simp only [value_cons, value_nil, Nat.mul_zero, Nat.add_zero]
    calc value front + (2 ^ 32) ^ front.length * top.toNat
        < (2 ^ 32) ^ front.length * (top.toNat + 1) := by
          rw [Nat.mul_succ]
          omega
      _ ≤ (2 ^ 32) ^ front.length * 2 ^ top.toNat.size :=
          Nat.mul_le_mul_left _ topBound

/-- One step in big integers. -/
theorem bigStep_spec
    {self x : BigInt}
    {number root : Nat}
    (nEq : self.toInt = (number : Int))
    (formed : x.WellFormed)
    (xEq : x.toInt = (root : Int))
    (positive : 0 < root) :
    ∃ q, self.divFloor x = some q ∧ ((x.add q).shr 1).WellFormed ∧
      ((x.add q).shr 1).toInt = ((root + number / root) / 2 : Nat) := by
  obtain ⟨q, r, ran, quotient, _, qFormed, _⟩ :=
    divmodFloor_spec self formed.trimmed (by omega)
  obtain ⟨sum, sumFormed⟩ := add_spec formed.trimmed qFormed.trimmed
  obtain ⟨shifted, nextFormed⟩ := shr_spec sumFormed.trimmed 1
  refine ⟨q, by rw [divFloor, ran]; rfl, nextFormed, ?_⟩
  rw [shifted, sum, quotient, xEq, nEq,
    Int.fdiv_eq_ediv_of_nonneg _ (by omega),
    Int.fdiv_eq_ediv_of_nonneg _ (by omega)]
  push_cast
  rfl

theorem sqrtLoop_spec
    {number root turns : Nat}
    (nEq : self.toInt = (number : Int))
    (formed : x.WellFormed)
    (xEq : x.toInt = (root : Int))
    (positive : 0 < root)
    (one : 1 ≤ number)
    (above : number.sqrt ≤ root)
    (near : root < number.sqrt + 2 ^ turns) :
    ∃ r, sqrtLoop self (turns + 1) x = some r ∧ r.WellFormed ∧
      r.toInt = (number.sqrt : Int) := by
  induction turns generalizing x root with
  | zero =>
      obtain ⟨q, divided, nextFormed, nextEq⟩ :=
        bigStep_spec nEq formed xEq positive
      have atLeast := sqrt_le_newton number positive
      have compared := cmp_eq nextFormed formed (by omega) (by omega)
      have stop : ((x.add q).shr 1).cmp x ≠ .lt := by
        rw [ne_eq, compared]
        omega
      refine ⟨x, ?_, formed, by omega⟩
      rw [sqrtLoop, divided, Option.bind_eq_bind, Option.bind_some]
      exact if_pos stop
  | succ turns ih =>
      obtain ⟨q, divided, nextFormed, nextEq⟩ :=
        bigStep_spec nEq formed xEq positive
      have atLeast := sqrt_le_newton number positive
      have compared := cmp_eq nextFormed formed (by omega) (by omega)
      rw [sqrtLoop, divided, Option.bind_eq_bind, Option.bind_some]
      dsimp only
      by_cases further : ((x.add q).shr 1).cmp x ≠ .lt
      · rw [if_pos further]
        rw [ne_eq, compared] at further
        have atMost := le_sqrt_of_newton positive
          (show root ≤ (root + number / root) / 2 by omega)
        exact ⟨x, rfl, formed, by omega⟩
      · rw [if_neg further]
        rw [not_not, compared] at further
        have falls : (root + number / root) / 2 < root := by omega
        have halves := newton_halves (Nat.lt_of_le_of_lt atLeast falls)
        have rootPositive : 0 < number.sqrt := Nat.sqrt_pos.mpr one
        rw [pow_succ] at near
        exact ih nextFormed nextEq (by omega) atLeast
          (by omega)

/-- The start is above the root, and near enough. -/
theorem sqrtStart_spec
    {self : BigInt}
    {number : Nat}
    (nEq : self.toInt = (number : Int))
    (one : 1 ≤ number) :
    self.sqrtStart.WellFormed ∧
      self.sqrtStart.toInt = (2 ^ ((self.bitLength + 1) / 2) : Nat) ∧
      number.sqrt ≤ 2 ^ ((self.bitLength + 1) / 2) ∧
      2 ^ ((self.bitLength + 1) / 2) < number.sqrt + 2 ^ self.bitLength := by
  have unit : (fromI64 1).toInt = 1 := toInt_fromI64 1
  obtain ⟨shifted, formed⟩ := shl_spec (fromI64 1)
    ((self.bitLength + 1) / 2)
  have bound := value_lt_bitLength self
  have magEq : value self.mag = number := by
    rw [← natAbs_toInt, nEq, Int.natAbs_natCast]
  rw [magEq] at bound
  have bits : 1 ≤ self.bitLength := by
    by_contra none
    rw [Nat.lt_one_iff.mp (Nat.not_le.mp none), Nat.pow_zero] at bound
    omega
  refine ⟨formed, ?_, ?_, ?_⟩
  · unfold sqrtStart
    rw [shifted, unit]
    push_cast
    ring
  · refine Nat.le_of_lt (Nat.sqrt_lt.mpr ?_)
    rw [← Nat.pow_add]
    exact Nat.lt_of_lt_of_le bound
      (Nat.pow_le_pow_right (by omega) (by omega))
  · have atMost : 2 ^ ((self.bitLength + 1) / 2) ≤ 2 ^ self.bitLength :=
      Nat.pow_le_pow_right (by omega) (by omega)
    have rootPositive : 0 < number.sqrt := Nat.sqrt_pos.mpr one
    omega

end BigInt

/-! ## `Integer.sqrt` -/

/-- The value the iteration starts from, or the number itself where there is no
iteration. -/
def iterationStart : Number → Int
  | .int n => if n < 2 then n.toInt else (isqrtStart n).toInt
  | .bint b =>
      if b.mag.length ≤ 2 then
        let n := b.toU64.getD 0
        if n < 2 then n.toNat else (divCeil n 2).toNat
      else b.sqrtStart.toInt

/-- The root is found without overflow, from a start that is not below it. -/
def Rooted (n : Number) : Prop :=
  ∃ r, integerSqrt n = some (.ok r) ∧ integerSqrtChecked n = some (.ok r) ∧
    0 ≤ r.toInt ∧ r.toInt ^ 2 ≤ n.toInt ∧ n.toInt < (r.toInt + 1) ^ 2 ∧
    r.toInt ≤ iterationStart n

theorem sqrt_bounds
    {number : Nat}
    (nEq : n = (number : Int))
    (rEq : r = (number.sqrt : Int)) :
    0 ≤ r ∧ r ^ 2 ≤ n ∧ n < (r + 1) ^ 2 := by
  subst nEq rEq
  refine ⟨by omega, ?_, ?_⟩
  · exact_mod_cast Nat.sqrt_le' number
  · exact_mod_cast Nat.lt_succ_sqrt' number

theorem rooted_int
    (nonnegative : 0 ≤ n.toInt)
    (notLargest : n ≠ Int64.maxValue) : Rooted (.int n) := by
  obtain ⟨r, ran, ranChecked, root, start⟩ :=
    isqrt_spec nonnegative notLargest
  have two : (2 : Int64).toInt = 2 := by decide
  have notNegative : ¬n < 0 := by
    rw [Int64.lt_iff_toInt_lt, Int64.toInt_zero]
    omega
  obtain ⟨low, below, above⟩ := sqrt_bounds
    (show n.toInt = (n.toInt.toNat : Int) by omega) root
  refine ⟨.int r, ?_, ?_, low, below, above, ?_⟩
  · rw [integerSqrt, if_neg notNegative, ran]
    rfl
  · rw [integerSqrtChecked, if_neg notNegative, ranChecked]
    rfl
  · unfold iterationStart
    by_cases small : n < 2
    · simp only [if_pos small]
      change r.toInt ≤ n.toInt
      have := Nat.sqrt_le_self n.toInt.toNat
      omega
    · simp only [if_neg small]
      rw [Int64.lt_iff_toInt_lt, two] at small
      exact start (by omega)

theorem rooted_bint
    (formed : b.WellFormed)
    (nonnegative : 0 ≤ b.toInt) : Rooted (.bint b) := by
  have positive : b.neg = false := by
    rw [Bool.eq_false_iff]
    intro negative
    have := formed.neg_iff.mp negative
    omega
  have bEq : b.toInt = (value b.mag : Int) :=
    BigInt.toInt_of_positive positive
  have sign : ¬b.sign < 0 := by
    rw [BigInt.sign_eq formed]
    split
    · omega
    · rw [if_neg (by omega)]
      omega
  by_cases short : b.mag.length ≤ 2
  · obtain ⟨r, ran, ranChecked, root, start⟩ :=
      isqrtU64_spec (b.toU64.getD 0)
    have word := BigInt.toU64_spec positive short
    rw [word] at root start
    have resultEq : (Number.bintValue (BigInt.fromU64 r)).toInt =
        ((value b.mag).sqrt : Int) := by
      rw [Number.toInt_bintValue (BigInt.wellFormed_fromU64 r),
        BigInt.toInt_fromU64, root]
    obtain ⟨low, below, above⟩ := sqrt_bounds bEq resultEq
    refine ⟨Number.bintValue (BigInt.fromU64 r), ?_, ?_, low, below, above,
      ?_⟩
    · rw [integerSqrt, if_neg sign, BigInt.sqrt, if_pos short, ran]
      rfl
    · rw [integerSqrtChecked, if_neg sign, if_pos short, ranChecked]
      rfl
    · rw [resultEq]
      simp only [iterationStart, if_pos short]
      have two : (2 : UInt64).toNat = 2 := rfl
      by_cases small : b.toU64.getD 0 < 2
      · rw [if_pos small, word]
        exact_mod_cast Nat.sqrt_le_self (value b.mag)
      · rw [if_neg small]
        rw [UInt64.lt_iff_toNat_lt, word, two] at small
        have := start (by omega)
        omega
  · have long : 1 ≤ value b.mag := by
      by_contra zero
      have empty := (value_eq_zero_iff formed.trimmed).mp
        (Nat.lt_one_iff.mp (Nat.not_le.mp zero))
      rw [empty] at short
      exact short (Nat.zero_le _)
    obtain ⟨startFormed, startEq, above, near⟩ :=
      BigInt.sqrtStart_spec bEq long
    obtain ⟨r, ran, rFormed, root⟩ := BigInt.sqrtLoop_spec bEq startFormed
      startEq (Nat.two_pow_pos _) long above near
    have resultEq : (Number.bintValue r).toInt =
        ((value b.mag).sqrt : Int) := by
      rw [Number.toInt_bintValue rFormed, root]
    obtain ⟨low, below, belowNext⟩ := sqrt_bounds bEq resultEq
    have found : b.sqrt = some r := by
      rw [BigInt.sqrt, if_neg short]
      exact ran
    refine ⟨Number.bintValue r, ?_, ?_, low, below, belowNext, ?_⟩
    · rw [integerSqrt, if_neg sign, found]
      rfl
    · rw [integerSqrtChecked, if_neg sign, if_neg short, found]
      rfl
    · rw [resultEq]
      simp only [iterationStart, if_neg short]
      rw [startEq]
      exact_mod_cast above

/-- The start of the largest machine integer wraps. -/
theorem integerSqrt_maxValue :
    integerSqrt (.int Int64.maxValue) =
        some (.ok (.int (-4611686018427387904))) ∧
      integerSqrtChecked (.int Int64.maxValue) = none := by
  decide +kernel

/-- The integer square root is right for every Integer that is not negative,
but for the largest machine integer. -/
theorem rooted_iff
    {n : Number}
    (formed : n.WellFormed)
    (nonnegative : 0 ≤ n.toInt) :
    Rooted n ↔ n ≠ .int Int64.maxValue := by
  constructor
  · rintro ⟨r, _, ranChecked, _⟩ rfl
    rw [integerSqrt_maxValue.2] at ranChecked
    cases ranChecked
  · intro notLargest
    cases n with
    | int n =>
        exact rooted_int nonnegative fun largest =>
          notLargest (congrArg Number.int largest)
    | bint b => exact rooted_bint formed nonnegative

theorem rooted_at :
    Number.WellFormed (.int 99) ∧ 0 ≤ Number.toInt (.int 99) ∧
      (Rooted (.int 99) ↔ Number.int 99 ≠ .int Int64.maxValue) :=
  ⟨trivial, by decide, rooted_iff trivial (by decide)⟩

/-- The largest machine integer has no root: the first step wraps, and the
iteration ends at a negative number. -/
theorem not_rooted_maxValue :
    0 ≤ Number.toInt (.int Int64.maxValue) ∧
      integerSqrt (.int Int64.maxValue) =
        some (.ok (.int (-4611686018427387904))) ∧
      ¬Rooted (.int Int64.maxValue) := by
  refine ⟨by decide, integerSqrt_maxValue.1, ?_⟩
  rintro ⟨r, _, ranChecked, _⟩
  rw [integerSqrt_maxValue.2] at ranChecked
  cases ranChecked

end SabiRuby.Integer
