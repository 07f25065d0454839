import Mathlib.Data.Rat.Lemmas
import Mathlib.Algebra.Order.Ring.Unbundled.Rat
import Mathlib.Tactic.FieldSimp
import SabiRuby.Integer.Divisors

/-!
# Rationals

A Rational keeps a numerator and a denominator, Integers of any width.  However
the operators are composed, on Integers and Rationals in any mixture, they
compute what the rational numbers do and leave one representation of it.
-/

namespace SabiRuby.Integer.Rationals

open Number

/-- The hidden halves of a Rational. -/
structure Fraction where
  num : Number
  den : Number
  deriving DecidableEq, Repr

/-- An exact operand. -/
inductive Exact
  | integer (n : Number)
  | rational (f : Fraction)
  deriving DecidableEq, Repr

/-- What is raised, with its message. -/
inductive Raise
  | zeroDivision (message : String)
  | range (message : String)
  | type (message : String)
  deriving DecidableEq, Repr

/-- What a call answers or raises. -/
abbrev Outcome (α : Type) := Option (Except Raise α)

/-- Go on with the answer. -/
def Outcome.andThen (outcome : Outcome α) (next : α → Outcome β) : Outcome β :=
  match outcome with
  | none => none
  | some (.error e) => some (.error e)
  | some (.ok x) => next x

/-- `zero_div`. -/
def zeroDiv : Raise := .zeroDivision "divided by 0 in rational"

/-- The fraction of a positive denominator in lowest terms. -/
def reduce (n d : BigInt) : Option Fraction := do
  let g ← n.gcd d
  if !g.isZero && g.cmp (.fromI64 1) == .gt then
    let n ← n.divFloor g
    let d ← d.divFloor g
    some ⟨bintValue n, bintValue d⟩
  else some ⟨bintValue n, bintValue d⟩

/-- `new_rat`. -/
def newRat (n d : BigInt) : Outcome Fraction :=
  if d.isZero then some (.error zeroDiv)
  else if d.sign < 0 then (reduce n.negated d.negated).map .ok
  else (reduce n d).map .ok

/-- `as_frac`. -/
def asFrac : Exact → BigInt × BigInt
  | .integer n => (n.asBigint, .fromI64 1)
  | .rational f => (f.num.asBigint, f.den.asBigint)

/-- The four operators. -/
inductive Op
  | add
  | sub
  | mul
  | div
  deriving DecidableEq, Repr

/-- The fraction of an operator, before it is reduced. -/
def Op.cross (n₁ d₁ n₂ d₂ : BigInt) : Op → Option (BigInt × BigInt)
  | .add => do some ((← n₁.mul d₂).add (← n₂.mul d₁), ← d₁.mul d₂)
  | .sub => do some ((← n₁.mul d₂).sub (← n₂.mul d₁), ← d₁.mul d₂)
  | .mul => do some (← n₁.mul n₂, ← d₁.mul d₂)
  | .div => do some (← n₁.mul d₂, ← d₁.mul n₂)

/-- Both halves are machine integers. -/
def Exact.small : Exact → Bool
  | .rational ⟨.int _, .int _⟩ => true
  | _ => false

/-- `exact`. -/
def exact (x y : Exact) (op : Op) : Option (Except Raise Fraction) :=
  let (n₁, d₁) := asFrac x
  let (n₂, d₂) := asFrac y
  if op = .div ∧ n₂.isZero then
    if x.small ∧ y = .integer (.int 0) then
      some (.error (.zeroDivision "divided by 0"))
    else some (.error zeroDiv)
  else do
    let (n, d) ← op.cross n₁ d₁ n₂ d₂
    newRat n d

/-- `as_rational` of an Integer, and then the operator. -/
def asReceiver (x : Number) (y : Exact) (op : Op) : Outcome Fraction :=
  Outcome.andThen (newRat x.asBigint (.fromI64 1)) fun r =>
    exact (.rational r) y op

/-- `tower`: an Integer and a Rational. -/
def tower (x : Number) (y : Fraction) : Op → Outcome Fraction
  | .add => exact (.rational y) (.integer x) .add
  | .sub => asReceiver x (.rational y) .sub
  | .mul => exact (.rational y) (.integer x) .mul
  | .div => asReceiver x (.rational y) .div

/-- The operators of Integer on Integers. -/
def onNumbers (x y : Number) : Op → Outcome Exact
  | .add => (intArith .add x y).map fun r => .ok (.integer r)
  | .sub => (intArith .sub x y).map fun r => .ok (.integer r)
  | .mul => (intArith .mul x y).map fun r => .ok (.integer r)
  | .div => (intDiv x y).map fun
      | .ok r => .ok (.integer r)
      -- the one error of `Integer#/`
      | .error _ => .error (.zeroDivision "divided by 0")

/-- The operators of exact operands. -/
def arith (op : Op) : Exact → Exact → Outcome Exact
  | .integer x, .integer y => onNumbers x y op
  | .integer x, .rational y => (tower x y op).map (·.map .rational)
  | .rational x, y => (exact (.rational x) y op).map (·.map .rational)

/-- `cmp_exact`. -/
def cmpExact (x : Fraction) (y : Exact) : Option Ordering := do
  let (n, d) := asFrac y
  let left ← x.num.asBigint.mul d
  let right ← n.mul x.den.asBigint
  some (left.cmp right)

/-- `eq` of exact operands. -/
def eq (x : Fraction) (y : Exact) : Option Bool :=
  (cmpExact x y).map (· == .eq)

/-- `pow` with a whole exponent. -/
def pow (x : Fraction) : Number → Option (Except Raise Fraction)
  | .bint _ =>
      if x.num.asBigint.toI64.isSome then
        some (.error (.range "integer out of range"))
      else some (.error (.type "too big power"))
  | .int e =>
      if e = 0 then newRat (.fromI64 1) (.fromI64 1)
      else if e = Int64.minValue then
        some (.error (.range "integer overflow in rational"))
      else do
        let a ← x.num.asBigint.pow (unsignedAbs e).toNat
        let b ← x.den.asBigint.pow (unsignedAbs e).toNat
        if e < 0 then newRat b a else newRat a b

/-! ## The numbers -/

/-- The number a fraction stands for. -/
def Fraction.toRat (f : Fraction) : ℚ := f.num.toInt / f.den.toInt

/-- The one representation of a number. -/
structure Fraction.Reduced (f : Fraction) : Prop where
  num : f.num.Canonical
  den : f.den.Canonical
  positive : 0 < f.den.toInt
  coprime : Int.gcd f.num.toInt f.den.toInt = 1

theorem Fraction.Reduced.eq_of_toRat
    {f g : Fraction}
    (left : f.Reduced)
    (right : g.Reduced)
    (same : f.toRat = g.toRat) : f = g := by
  obtain ⟨num, den⟩ := Rat.div_int_inj left.positive right.positive
    left.coprime right.coprime same
  cases f
  cases g
  rw [Fraction.mk.injEq]
  exact ⟨left.num.eq_of_toInt right.num num,
    left.den.eq_of_toInt right.den den⟩

variable {n d g a b : BigInt}

/-- Both halves without their greatest common divisor. -/
theorem reduced_of_quotients
    (positive : 0 < d.toInt)
    (aFormed : a.WellFormed)
    (bFormed : b.WellFormed)
    (aValue : a.toInt = n.toInt / Int.gcd n.toInt d.toInt)
    (bValue : b.toInt = d.toInt / Int.gcd n.toInt d.toInt) :
    Fraction.Reduced ⟨bintValue a, bintValue b⟩ ∧
      Fraction.toRat ⟨bintValue a, bintValue b⟩ = n.toInt / d.toInt := by
  have common : 0 < Int.gcd n.toInt d.toInt :=
    Int.gcd_pos_of_ne_zero_right _ positive.ne'
  have nWhole := Int.mul_ediv_cancel' (Int.gcd_dvd_left n.toInt d.toInt)
  have dWhole := Int.mul_ediv_cancel' (Int.gcd_dvd_right n.toInt d.toInt)
  rw [← aValue] at nWhole
  rw [← bValue] at dWhole
  refine ⟨⟨(bintValue_denotes aFormed).1, (bintValue_denotes bFormed).1, ?_,
    ?_⟩, ?_⟩
  · rw [toInt_bintValue bFormed]
    rw [← dWhole] at positive
    exact Int.pos_of_mul_pos_right positive (by omega)
  · rw [toInt_bintValue aFormed, toInt_bintValue bFormed, aValue, bValue]
    exact Int.gcd_div_gcd_div_gcd common
  · rw [Fraction.toRat, toInt_bintValue aFormed, toInt_bintValue bFormed]
    generalize Int.gcd n.toInt d.toInt = g at *
    rw [← nWhole, ← dWhole]
    push_cast
    rw [mul_div_mul_left _ _ (by exact_mod_cast common.ne')]

theorem isZero_iff (formed : n.WellFormed) :
    n.isZero = true ↔ n.toInt = 0 := by
  rw [BigInt.isZero, List.isEmpty_iff, formed.toInt_eq_zero_iff]

theorem divFloor_spec
    (x : BigInt)
    (formed : g.WellFormed)
    (positive : 0 < g.toInt) :
    ∃ q, x.divFloor g = some q ∧ q.toInt = x.toInt / g.toInt ∧
      q.WellFormed := by
  obtain ⟨q, r, parts, quotient, -, qFormed, -⟩ :=
    BigInt.divmodFloor_spec x formed.trimmed positive.ne'
  refine ⟨q, ?_, ?_, qFormed⟩
  · rw [BigInt.divFloor, parts, Option.map_some]
  · rw [quotient, Int.fdiv_eq_ediv_of_nonneg _ positive.le]

theorem reduce_spec
    (nFormed : n.WellFormed)
    (dFormed : d.WellFormed)
    (positive : 0 < d.toInt) :
    ∃ f, reduce n d = some f ∧ f.Reduced ∧ f.toRat = n.toInt / d.toInt := by
  obtain ⟨g, divides, gFormed, gValue⟩ := BigInt.gcd_spec nFormed dFormed
  have common := Int.gcd_pos_of_ne_zero_right n.toInt positive.ne'
  have gPositive : 0 < g.toInt := by omega
  simp only [reduce, divides, Option.bind_eq_bind, Option.bind_some]
  by_cases large : (!g.isZero && g.cmp (.fromI64 1) == .gt) = true
  · obtain ⟨a, aRan, aValue, aFormed⟩ := divFloor_spec n gFormed gPositive
    obtain ⟨b, bRan, bValue, bFormed⟩ := divFloor_spec d gFormed gPositive
    rw [gValue] at aValue bValue
    rw [if_pos large, aRan, Option.bind_some, bRan, Option.bind_some]
    exact ⟨_, rfl,
      reduced_of_quotients positive aFormed bFormed aValue bValue⟩
  · have one : g.toInt = 1 := by
      have nonzero : g.isZero = false := by
        rw [← Bool.not_eq_true, isZero_iff gFormed]
        exact gPositive.ne'
      rw [BigInt.cmp_eq_compare gFormed (BigInt.wellFormed_fromI64 1),
        BigInt.toInt_fromI64, toInt_one, nonzero] at large
      have small : ¬1 < g.toInt := by
        intro above
        rw [Int.compare_eq_gt.mpr above] at large
        exact large rfl
      omega
    rw [if_neg large]
    refine ⟨_, rfl, reduced_of_quotients positive nFormed dFormed ?_ ?_⟩ <;>
      rw [← gValue, one, Int.ediv_one]

theorem newRat_zero (zero : d.isZero = true) :
    newRat n d = some (.error zeroDiv) :=
  if_pos zero

/-- A fraction is reduced, and has its sign in the numerator. -/
theorem newRat_spec
    (nFormed : n.WellFormed)
    (dFormed : d.WellFormed)
    (nonzero : d.toInt ≠ 0) :
    ∃ f, newRat n d = some (.ok f) ∧ f.Reduced ∧
      f.toRat = n.toInt / d.toInt := by
  rw [newRat, if_neg (mt (isZero_iff dFormed).mp nonzero)]
  rcases BigInt.sign_cases dFormed with ⟨negative, sign⟩ | ⟨zero, -⟩ |
    ⟨positive, sign⟩
  · obtain ⟨f, ran, reduced, value⟩ := reduce_spec
      (BigInt.wellFormed_negated n) (BigInt.wellFormed_negated d)
      (by rw [BigInt.toInt_negated]; omega)
    rw [if_pos (by omega), ran]
    refine ⟨f, rfl, reduced, ?_⟩
    rw [value, BigInt.toInt_negated, BigInt.toInt_negated]
    push_cast
    exact neg_div_neg_eq _ _
  · exact absurd zero nonzero
  · obtain ⟨f, ran, reduced, value⟩ := reduce_spec nFormed dFormed positive
    rw [if_neg (by omega), ran]
    exact ⟨f, rfl, reduced, value⟩

/-! ## The operators -/

namespace Exact

/-- An operand the VM can hold. -/
def Valid : Exact → Prop
  | .integer n => n.Canonical
  | .rational f => f.Reduced

/-- The number. -/
def toRat : Exact → ℚ
  | .integer n => n.toInt
  | .rational f => f.toRat

end Exact

theorem asFrac_spec {x : Exact} (valid : x.Valid) :
    (asFrac x).1.WellFormed ∧ (asFrac x).2.WellFormed ∧
      0 < (asFrac x).2.toInt ∧
      x.toRat = (asFrac x).1.toInt / (asFrac x).2.toInt := by
  cases x with
  | integer n =>
      refine ⟨valid.asBigint, BigInt.wellFormed_fromI64 1, Int.one_pos, ?_⟩
      rw [asFrac, toInt_asBigint, BigInt.toInt_fromI64, toInt_one]
      simp [Exact.toRat]
  | rational f =>
      refine ⟨valid.num.asBigint, valid.den.asBigint, ?_, ?_⟩
      · rw [asFrac, toInt_asBigint]
        exact valid.positive
      · rw [asFrac, toInt_asBigint, toInt_asBigint]
        rfl

/-- The operator on the rational numbers. -/
def Op.onRat : Op → ℚ → ℚ → ℚ
  | .add, p, q => p + q
  | .sub, p, q => p - q
  | .mul, p, q => p * q
  | .div, p, q => p / q

/-- Cross multiplication is exact. -/
theorem Op.cross_spec
    (op : Op)
    (n₁ : BigInt)
    {d₁ n₂ d₂ : BigInt}
    (first : d₁.toInt ≠ 0)
    (second : d₂.toInt ≠ 0)
    (divisor : op = .div → n₂.toInt ≠ 0) :
    ∃ n d, op.cross n₁ d₁ n₂ d₂ = some (n, d) ∧ n.WellFormed ∧
      d.WellFormed ∧ d.toInt ≠ 0 ∧
      (n.toInt / d.toInt : ℚ) =
        op.onRat (n₁.toInt / d₁.toInt) (n₂.toInt / d₂.toInt) := by
  obtain ⟨left, leftRan, leftValue, leftFormed⟩ := BigInt.mul_spec n₁ d₂
  obtain ⟨right, rightRan, rightValue, rightFormed⟩ := BigInt.mul_spec n₂ d₁
  obtain ⟨d, dRan, dValue, dFormed⟩ := BigInt.mul_spec d₁ d₂
  have nonzero : d.toInt ≠ 0 := dValue ▸ Int.mul_ne_zero first second
  have firstRat : (d₁.toInt : ℚ) ≠ 0 := by exact_mod_cast first
  have secondRat : (d₂.toInt : ℚ) ≠ 0 := by exact_mod_cast second
  cases op with
  | add =>
      obtain ⟨value, formed⟩ := BigInt.add_spec leftFormed.trimmed
        rightFormed.trimmed
      refine ⟨left.add right, d, by simp [cross, leftRan, rightRan, dRan],
        formed, dFormed, nonzero, ?_⟩
      simp only [value, leftValue, rightValue, dValue, onRat]
      push_cast
      field_simp
  | sub =>
      obtain ⟨value, formed⟩ := BigInt.sub_spec (b := right)
        leftFormed.trimmed
      refine ⟨left.sub right, d, by simp [cross, leftRan, rightRan, dRan],
        formed, dFormed, nonzero, ?_⟩
      simp only [value, leftValue, rightValue, dValue, onRat]
      push_cast
      field_simp
  | mul =>
      obtain ⟨n, nRan, nValue, nFormed⟩ := BigInt.mul_spec n₁ n₂
      refine ⟨n, d, by simp [cross, nRan, dRan], nFormed, dFormed, nonzero,
        ?_⟩
      rw [nValue, dValue, onRat, div_mul_div_comm]
      push_cast
      rfl
  | div =>
      obtain ⟨e, eRan, eValue, eFormed⟩ := BigInt.mul_spec d₁ n₂
      refine ⟨left, e, by simp [cross, leftRan, eRan], leftFormed, eFormed,
        eValue ▸ Int.mul_ne_zero first (divisor rfl), ?_⟩
      rw [leftValue, eValue, onRat, div_div_div_eq]
      push_cast
      rfl

/-- An operator with a Rational operand. -/
theorem exact_spec
    {x y : Exact}
    (op : Op)
    (xValid : x.Valid)
    (yValid : y.Valid)
    (divisor : op = .div → y.toRat ≠ 0) :
    ∃ f, exact x y op = some (.ok f) ∧ f.Reduced ∧
      f.toRat = op.onRat x.toRat y.toRat := by
  obtain ⟨-, -, first, xValue⟩ := asFrac_spec xValid
  obtain ⟨formed, -, second, yValue⟩ := asFrac_spec yValid
  have numerator : op = .div → (asFrac y).1.toInt ≠ 0 := by
    intro division zero
    rw [zero, Int.cast_zero, zero_div] at yValue
    exact divisor division yValue
  obtain ⟨n, d, ran, nFormed, dFormed, nonzero, value⟩ :=
    op.cross_spec (asFrac x).1 first.ne' second.ne' numerator
  obtain ⟨f, made, reduced, fValue⟩ := newRat_spec nFormed dFormed nonzero
  have goes : ¬(op = .div ∧ (asFrac y).1.isZero = true) := by
    rintro ⟨division, zero⟩
    exact numerator division ((isZero_iff formed).mp zero)
  refine ⟨f, ?_, reduced, ?_⟩
  · simp only [exact, if_neg goes, ran, Option.bind_eq_bind,
      Option.bind_some]
    exact made
  · rw [fValue, value, xValue, yValue]

theorem exact_zero
    {x y : Exact}
    (yValid : y.Valid)
    (zero : y.toRat = 0) :
    ∃ message, exact x y .div = some (.error (.zeroDivision message)) := by
  obtain ⟨formed, -, second, yValue⟩ := asFrac_spec yValid
  have none : (asFrac y).1.isZero = true := by
    rw [zero, eq_comm, div_eq_zero_iff, Int.cast_eq_zero, Int.cast_eq_zero]
      at yValue
    rw [isZero_iff formed]
    exact yValue.resolve_right second.ne'
  simp only [exact, none, and_self, if_true]
  split
  · exact ⟨_, rfl⟩
  · exact ⟨_, rfl⟩

/-! ## Integers and Rationals together -/

/-- What an operand stands for.  The kind decides how it divides. -/
inductive Meaning
  | integer (n : Int)
  | rational (q : ℚ)

/-- The number, whatever its kind. -/
def Meaning.toRat : Meaning → ℚ
  | .integer n => n
  | .rational q => q

/-- What an operand stands for. -/
def Exact.meaning : Exact → Meaning
  | .integer n => .integer n.toInt
  | .rational f => .rational f.toRat

theorem Exact.eq_of_meaning
    {x y : Exact}
    (xValid : x.Valid)
    (yValid : y.Valid)
    (same : x.meaning = y.meaning) : x = y := by
  cases x with
  | integer m =>
      cases y with
      | integer n => rw [xValid.eq_of_toInt yValid (Meaning.integer.inj same)]
      | rational g => cases same
  | rational f =>
      cases y with
      | integer n => cases same
      | rational g =>
          rw [xValid.eq_of_toRat yValid (Meaning.rational.inj same)]

/-- The operator on Integers alone; the quotient is downward. -/
def Op.onInt : Op → Int → Int → Int
  | .add, m, n => m + n
  | .sub, m, n => m - n
  | .mul, m, n => m * n
  | .div, m, n => m.fdiv n

/-- An operator with a Rational operand, if it does not divide by zero. -/
def Op.rational (op : Op) (p q : ℚ) : Option Meaning :=
  if op = .div ∧ q = 0 then none else some (.rational (op.onRat p q))

/-- The operator, if it does not divide by zero. -/
def Op.apply (op : Op) : Meaning → Meaning → Option Meaning
  | .integer m, .integer n =>
      if op = .div ∧ n = 0 then none else some (.integer (op.onInt m n))
  | x, y => op.rational x.toRat y.toRat

/-- The answer is the operand that stands for the meaning, or else
ZeroDivisionError. -/
def Answers (answer : Outcome Exact) : Option Meaning → Prop
  | some m => ∃ x, answer = some (.ok x) ∧ x.Valid ∧ x.meaning = m
  | none => ∃ message, answer = some (.error (.zeroDivision message))

/-- An answer is gone on with as its meaning is. -/
theorem Answers.andThen
    {outcome : Outcome Exact}
    {meaning : Option Meaning}
    {next : Exact → Outcome Exact}
    {apply : Meaning → Option Meaning}
    (answers : Answers outcome meaning)
    (nextAnswers : ∀ x : Exact, x.Valid → Answers (next x)
      (apply x.meaning)) :
    Answers (outcome.andThen next) (meaning.bind apply) := by
  cases meaning with
  | none =>
      obtain ⟨message, rfl⟩ := answers
      exact ⟨message, rfl⟩
  | some m =>
      obtain ⟨x, rfl, valid, rfl⟩ := answers
      exact nextAnswers x valid

theorem answers_ok
    {answer : Outcome Fraction}
    {f : Fraction}
    (ran : answer = some (.ok f))
    (reduced : f.Reduced) :
    Answers (answer.map (·.map .rational)) (some (.rational f.toRat)) :=
  ⟨.rational f, by rw [ran]; rfl, reduced, rfl⟩

theorem answers_zero
    {answer : Outcome Fraction}
    (raises : ∃ message, answer = some (.error (.zeroDivision message))) :
    Answers (answer.map (·.map .rational)) none := by
  obtain ⟨message, ran⟩ := raises
  exact ⟨message, by rw [ran]; rfl⟩

variable {x y : Exact}

theorem exact_answers
    (op : Op)
    (xValid : x.Valid)
    (yValid : y.Valid) :
    Answers ((exact x y op).map (·.map .rational))
      (op.rational x.toRat y.toRat) := by
  unfold Op.rational
  by_cases zero : op = .div ∧ y.toRat = 0
  · rw [if_pos zero]
    obtain ⟨rfl, zero⟩ := zero
    exact answers_zero (exact_zero yValid zero)
  · obtain ⟨f, ran, reduced, value⟩ := exact_spec op xValid yValid
      fun division none => zero ⟨division, none⟩
    rw [if_neg zero, ← value]
    exact answers_ok ran reduced

theorem onNumbers_answers
    {m n : Number}
    (op : Op)
    (left : m.Canonical)
    (right : n.Canonical) :
    Answers (onNumbers m n op) (op.apply (.integer m.toInt)
      (.integer n.toInt)) := by
  have promotes : ∀ op : IntOp,
      Answers ((intArith op m n).map fun r => .ok (.integer r))
        (some (.integer (op.exact m.toInt n.toInt))) := by
    intro op
    obtain ⟨r, ran, canonical, value⟩ := intArith_exact op left right
    exact ⟨.integer r, by rw [ran]; rfl, canonical, congrArg _ value⟩
  cases op with
  | add => exact promotes .add
  | sub => exact promotes .sub
  | mul => exact promotes .mul
  | div =>
      unfold onNumbers Op.apply
      by_cases zero : n.toInt = 0
      · simp only [zero, and_self, if_true]
        have divisor : n = .int 0 := right.eq_of_toInt trivial zero
        subst divisor
        cases m <;> exact ⟨_, rfl⟩
      · simp only [zero, and_false, if_false]
        obtain ⟨q, ran, canonical, value⟩ := intDiv_exact left right zero
        exact ⟨.integer q, by rw [ran]; rfl, canonical, congrArg _ value⟩

/-- An Integer as the receiver. -/
theorem asReceiver_answers
    {m : Number}
    (op : Op)
    (canonical : m.Canonical)
    (yValid : y.Valid) :
    Answers ((asReceiver m y op).map (·.map .rational))
      (op.rational m.toInt y.toRat) := by
  obtain ⟨r, made, reduced, value⟩ := newRat_spec canonical.asBigint
    (BigInt.wellFormed_fromI64 1) (by decide)
  rw [toInt_asBigint, BigInt.toInt_fromI64, toInt_one, Int.cast_one,
    div_one] at value
  rw [asReceiver, made, ← value]
  exact exact_answers (x := .rational r) op reduced yValid

theorem tower_answers
    {m : Number}
    {f : Fraction}
    (op : Op)
    (canonical : m.Canonical)
    (reduced : f.Reduced) :
    Answers ((tower m f op).map (·.map .rational))
      (op.rational m.toInt f.toRat) := by
  cases op with
  | add =>
      have answers := exact_answers (x := .rational f) (y := .integer m) .add
        reduced canonical
      rwa [Op.rational, Op.onRat, add_comm] at answers
  | sub => exact asReceiver_answers (y := .rational f) .sub canonical reduced
  | mul =>
      have answers := exact_answers (x := .rational f) (y := .integer m) .mul
        reduced canonical
      rwa [Op.rational, Op.onRat, mul_comm] at answers
  | div => exact asReceiver_answers (y := .rational f) .div canonical reduced

/-- Every operator is exact. -/
theorem arith_answers
    (op : Op)
    (xValid : x.Valid)
    (yValid : y.Valid) :
    Answers (arith op x y) (op.apply x.meaning y.meaning) := by
  cases x with
  | integer m =>
      cases y with
      | integer n => exact onNumbers_answers op xValid yValid
      | rational f => exact tower_answers op xValid yValid
  | rational f =>
      have answers := exact_answers (x := .rational f) op xValid yValid
      cases y <;> exact answers

/-- An expression over operands the VM can hold. -/
inductive Term
  | operand (x : Exact) (valid : x.Valid)
  | apply (op : Op) (left right : Term)

namespace Term

/-- The left operand first, then the right one, then the operator. -/
def evaluate : Term → Outcome Exact
  | operand x _ => some (.ok x)
  | apply op left right =>
      left.evaluate.andThen fun x =>
        right.evaluate.andThen fun y => arith op x y

/-- The number, if nothing divides by zero. -/
def meaning : Term → Option Meaning
  | operand x _ => some x.meaning
  | apply op left right => do
      let x ← left.meaning
      let y ← right.meaning
      op.apply x y

theorem evaluate_answers (t : Term) : Answers t.evaluate t.meaning := by
  induction t with
  | operand x valid => exact ⟨x, rfl, valid, rfl⟩
  | apply op left right leftAnswers rightAnswers =>
      refine leftAnswers.andThen fun x xValid => ?_
      refine rightAnswers.andThen fun y yValid => ?_
      exact arith_answers op xValid yValid

end Term

/-- Expressions are exact: each answers what it means, or ZeroDivisionError
where it divides by zero, and no other operand means the same. -/
theorem expressions_exact (t : Term) :
    Answers t.evaluate t.meaning ∧ ∀ x : Exact, x.Valid →
      (t.evaluate = some (.ok x) ↔ t.meaning = some x.meaning) := by
  have answers := t.evaluate_answers
  refine ⟨answers, fun x valid => ?_⟩
  cases means : t.meaning with
  | none =>
      rw [means] at answers
      obtain ⟨message, raised⟩ := answers
      simp [raised]
  | some m =>
      rw [means] at answers
      obtain ⟨y, ran, yValid, rfl⟩ := answers
      rw [ran, Option.some.injEq, Option.some.injEq, Except.ok.injEq]
      exact ⟨fun same => same ▸ rfl, Exact.eq_of_meaning yValid valid⟩

/-! ## Comparison and powers -/

theorem compare_div
    {m n : Int}
    {p q : Int}
    (pPositive : 0 < p)
    (qPositive : 0 < q) :
    compare (m * q) (n * p) = compare (m / p : ℚ) (n / q : ℚ) := by
  have first : (0 : ℚ) < p := by exact_mod_cast pPositive
  have second : (0 : ℚ) < q := by exact_mod_cast qPositive
  have left : ((m * q : Int) : ℚ) = m / p * (p * q) := by
    push_cast
    field_simp
  have right : ((n * p : Int) : ℚ) = n / q * (p * q) := by
    push_cast
    field_simp
  rw [← cmp_eq_compare, ← cmp_eq_compare,
    ← (Int.cast_strictMono (R := ℚ)).cmp_map_eq, left, right,
    cmp_mul_pos_right (mul_pos first second)]

/-- Comparison is that of the numbers, and equality with it. -/
theorem comparison_exact
    {f : Fraction}
    (reduced : f.Reduced)
    (yValid : y.Valid) :
    cmpExact f y = some (compare f.toRat y.toRat) ∧
      eq f y = some (decide (f.toRat = y.toRat)) := by
  obtain ⟨-, -, second, yValue⟩ := asFrac_spec yValid
  obtain ⟨left, leftRan, leftValue, leftFormed⟩ :=
    BigInt.mul_spec f.num.asBigint (asFrac y).2
  obtain ⟨right, rightRan, rightValue, rightFormed⟩ :=
    BigInt.mul_spec (asFrac y).1 f.den.asBigint
  have compared : cmpExact f y = some (compare f.toRat y.toRat) := by
    simp only [cmpExact, leftRan, rightRan, Option.bind_eq_bind,
      Option.bind_some]
    rw [BigInt.cmp_eq_compare leftFormed rightFormed, leftValue, rightValue,
      toInt_asBigint, toInt_asBigint, compare_div reduced.positive second,
      ← yValue]
    rfl
  refine ⟨compared, ?_⟩
  rw [eq, compared, Option.map_some, Option.some.injEq, Bool.eq_iff_iff,
    beq_iff_eq, compare_eq_iff_eq, decide_eq_true_eq]

/-- One half. -/
def half : Fraction := ⟨.int 1, .int 2⟩

theorem reduced_half : half.Reduced :=
  ⟨trivial, trivial, by decide, by decide⟩

theorem comparison_exact_half :
    cmpExact half (.rational half) = some .eq ∧
      eq half (.rational half) = some true := by
  simpa [Exact.toRat] using
    comparison_exact (y := .rational half) reduced_half reduced_half

theorem Fraction.Reduced.toRat_eq_zero_iff
    {f : Fraction}
    (reduced : f.Reduced) : f.toRat = 0 ↔ f.num.toInt = 0 := by
  rw [Fraction.toRat, div_eq_zero_iff, Int.cast_eq_zero, Int.cast_eq_zero,
    or_iff_left reduced.positive.ne']

/-- The fraction of two powers is the power of the fraction. -/
theorem newRat_powers
    {p q : Int}
    {k : Nat}
    (aFormed : a.WellFormed)
    (bFormed : b.WellFormed)
    (aValue : a.toInt = p ^ k)
    (bValue : b.toInt = q ^ k)
    (nonzero : q ≠ 0) :
    Answers ((newRat a b).map (·.map .rational))
      (some (.rational ((p / q) ^ k))) := by
  obtain ⟨g, ran, reduced, value⟩ := newRat_spec aFormed bFormed
    (bValue ▸ pow_ne_zero _ nonzero)
  have answers := answers_ok ran reduced
  rwa [value, aValue, bValue, Int.cast_pow, Int.cast_pow, ← div_pow]
    at answers

/-- A power turns the fraction over for a negative exponent. -/
theorem pow_exact
    {f : Fraction}
    {e : Int64}
    (reduced : f.Reduced)
    (inside : e ≠ Int64.minValue) :
    Answers ((pow f (.int e)).map (·.map .rational))
      (if f.toRat = 0 ∧ e < 0 then none
        else some (.rational (f.toRat ^ e.toInt))) := by
  have sign : e < 0 ↔ e.toInt < 0 := Int64.lt_iff_toInt_lt
  by_cases start : e = 0
  · subst start
    rw [if_neg (by simp), Int64.toInt_zero, zpow_zero, ← pow_zero f.toRat]
    exact newRat_powers (BigInt.wellFormed_fromI64 1)
      (BigInt.wellFormed_fromI64 1) (pow_zero _).symm (pow_zero _).symm
      reduced.positive.ne'
  obtain ⟨a, aRan, aValue, aFormed⟩ :=
    BigInt.pow_spec f.num.asBigint (unsignedAbs e).toNat_lt
  obtain ⟨b, bRan, bValue, bFormed⟩ :=
    BigInt.pow_spec f.den.asBigint (unsignedAbs e).toNat_lt
  rw [toInt_asBigint, toNat_unsignedAbs] at aValue bValue
  simp only [pow, if_neg start, if_neg inside, aRan, bRan,
    Option.bind_eq_bind, Option.bind_some]
  by_cases negative : e < 0
  · have exponent : e.toInt = -(e.toInt.natAbs : Int) := by
      have := sign.mp negative
      omega
    rw [if_pos negative]
    by_cases zero : f.num.toInt = 0
    · rw [if_pos ⟨reduced.toRat_eq_zero_iff.mpr zero, negative⟩]
      refine answers_zero ⟨_, newRat_zero ?_⟩
      have := sign.mp negative
      rw [isZero_iff aFormed, aValue, zero, zero_pow (by omega)]
    · rw [if_neg fun both => zero (reduced.toRat_eq_zero_iff.mp both.1),
        exponent, zpow_neg, zpow_natCast, ← inv_pow, Fraction.toRat, inv_div]
      exact newRat_powers bFormed aFormed bValue aValue zero
  · have exponent : e.toInt = (e.toInt.natAbs : Int) := by
      have := mt sign.mpr negative
      omega
    rw [if_neg negative, if_neg fun both => negative both.2, exponent,
      zpow_natCast]
    exact newRat_powers aFormed bFormed aValue bValue reduced.positive.ne'

theorem pow_exact_half :
    Answers ((pow half (.int (-1))).map (·.map .rational))
      (some (.rational (half.toRat ^ (-1 : Int)))) := by
  have nonzero : half.toRat ≠ 0 := by
    simp only [Fraction.toRat, half, ne_eq, div_eq_zero_iff, Int.cast_eq_zero]
    decide
  have answers := pow_exact (e := -1) reduced_half (by decide)
  rwa [if_neg fun both => nonzero both.1] at answers

end SabiRuby.Integer.Rationals
