import SabiRuby.Integer.ModularPowers

/-!
# The power methods

`**` and `pow` run on machine integers while their products fit and go on with
wide ones.  Operands that are not Integers, and powers that are Floats, are left
out.
-/

namespace SabiRuby.Integer

open Library Number
open SameRemainder (refl)

/-- What a method raises. -/
inductive Failure
  /-- ArgumentError of a negative exponent. -/
  | negativeExponent
  /-- RangeError `exponent too large`. -/
  | exponentTooLarge
  /-- RangeError `integer out of range`. -/
  | outOfRange
  /-- TypeError `too big power`. -/
  | tooBigPower
  /-- ZeroDivisionError. -/
  | zeroDivision
  /-- RangeError of an overflow. -/
  | overflow
  deriving DecidableEq, Repr

/-- How a method ends. -/
inductive Answer
  /-- An Integer. -/
  | number (n : Number)
  /-- The Float of a negative power. -/
  | float
  /-- An exception. -/
  | raises (failure : Failure)
  /-- A machine operation that is not checked overflows. -/
  | overflows
  deriving DecidableEq, Repr

/-! ## Powers -/

/-- Multiply where the last digit is one, `none` where it overflows. -/
def mulSignedDigit (r b : Int64) (e : Nat) : Option Int64 :=
  if e % 2 = 1 then mulSigned r b else some r

/-- The loop of `int_pow`: without turns left nothing, and `none` inside where a
product overflows. -/
def powSigned : Nat → Int64 → Int64 → Nat → Option (Option Int64)
  | 0, _, _, _ => none
  | turns + 1, r, b, e =>
      match mulSignedDigit r b e with
      | none => some none
      | some r =>
          if e / 2 = 0 then some (some r)
          else
            match mulSigned b b with
            | none => some none
            | some b => powSigned turns r b (e / 2)

def POW_MAX_BITS : Nat := 1000000

/-- `bint_pow`. -/
def bintPow (base : BigInt) (e : Int64) : Option Answer :=
  if e < 0 then some (.raises .negativeExponent)
  else
    let bits := max base.bitLength 1
    if e > 0 ∧ e.toInt.toNat > POW_MAX_BITS / bits then
      some (.raises .exponentTooLarge)
    else (base.pow e.toInt.toNat).map fun power => .number (bintValue power)

/-- `int_pow`. -/
def intPow (x y : Number) : Option Answer :=
  match x, y with
  | .bint _, .bint _ => some (.raises .tooBigPower)
  | .bint b, .int e => bintPow b e
  | .int _, .bint _ => some (.raises .outOfRange)
  | .int p, .int e =>
      if e < 0 then some .float
      else do
        match ← powSigned 64 1 p e.toInt.toNat with
        | some r => some (.number (.int r))
        | none => bintPow (.fromI64 p) e

/-! ## Modular powers -/

/-- A product whose factors are reduced once where it overflows. -/
def mulReduced (m result base : Int64) : Option (Int64 × Int64) :=
  match mulSigned result base with
  | some t => some (t, base)
  | none =>
      (mulSigned (result % m) (base % m)).map fun t => (t, base % m)

/-- Multiply and reduce where the last digit is one. -/
def mulReducedDigit (m result base : Int64) (e : Nat) :
    Option (Int64 × Int64) :=
  if e % 2 = 1 then
    (mulReduced m result base).map fun (t, base) => (t % m, base)
  else some (result, base)

/-- A square whose factor is reduced once where it overflows. -/
def squareReduced (m base : Int64) : Option Int64 :=
  match mulSigned base base with
  | some t => some t
  | none => mulSigned (base % m) (base % m)

/-- The loop of `int_powm`: without turns left nothing, and `none` inside where
it falls back. -/
def powmSigned (m : Int64) : Nat → Int64 → Int64 → Nat → Option (Option Int64)
  | 0, _, _, _ => none
  | turns + 1, result, base, e =>
      match mulReducedDigit m result base e with
      | none => some none
      | some (result, base) =>
          if e / 2 = 0 then some (some result)
          else
            match squareReduced m base with
            | none => some none
            | some t => powmSigned m turns result (t % m) (e / 2)

/-- `bint_powm`. -/
def bintPowm (x e m : Number) : Option Answer :=
  let modulus := m.asBigint
  if modulus.isZero then some (.raises .zeroDivision)
  else
    let negMod := decide (modulus.sign < 0)
    let modulus := if negMod then modulus.abs else modulus
    let exp := e.asBigint
    if exp.sign < 0 then some (.raises .negativeExponent)
    else
      let base := x.asBigint
      if base.isZero ∧ exp.sign > 0 then some (.number (.int 0))
      else do
        let r ← base.powm exp modulus
        let r := if negMod = true ∧ r.isZero = false then r.sub modulus else r
        some (.number (bintValue r))

/-- The result of a negative modulus. -/
def adjusted (negMod : Bool) (m result : Int64) : Answer :=
  if negMod = true ∧ result ≠ 0 then
    match subSigned result m with
    | some result => .number (.int result)
    | none => .overflows
  else .number (.int result)

/-- `int_powm` of a modulus. -/
def intPowm (s e m : Number) : Option Answer :=
  match s, e, m with
  | .int x, .int exp, .int modulus =>
      if exp < 0 then some (.raises .negativeExponent)
      else if modulus = 0 then some (.raises .zeroDivision)
      else
        let negMod := decide (modulus < 0)
        let reduced := if negMod then -modulus else modulus
        if reduced = 1 then some (.number (.int 0))
        else if x = 0 ∧ exp > 0 then some (.number (.int 0))
        else do
          match ← powmSigned reduced 64 1 x exp.toInt.toNat with
          | some result => some (adjusted negMod reduced result)
          | none => bintPowm s e m
  | _, _, _ => bintPowm s e m

/-! ## What they answer -/

theorem mulSigned_spec
    (ran : mulSigned a b = some t) : t.toInt = a.toInt * b.toInt :=
  IntOp.checked_exact .mul ran

theorem powSigned_spec
    (lt : e < 2 ^ turns)
    (some_ : 0 < turns)
    (r b : Int64) :
    ∃ outcome, powSigned turns r b e = some outcome ∧
      ∀ power, outcome = some power →
        power.toInt = r.toInt * b.toInt ^ e := by
  induction turns generalizing e r b with
  | zero => exact absurd some_ (Nat.lt_irrefl 0)
  | succ turns ih =>
      rw [powSigned]
      cases product : mulSignedDigit r b e with
      | none => exact ⟨none, rfl, fun _ is => (nomatch is)⟩
      | some t =>
          have value : t.toInt =
              if e % 2 = 1 then r.toInt * b.toInt else r.toInt := by
            rw [mulSignedDigit] at product
            split at product
            case isTrue odd =>
              rw [if_pos odd]
              exact mulSigned_spec product
            case isFalse even =>
              cases product
              rw [if_neg even]
          dsimp only
          by_cases last : e / 2 = 0
          · rw [if_pos last]
            refine ⟨some t, rfl, ?_⟩
            rintro power ⟨⟩
            rw [value, squaring_last _ _ last]
          · rw [if_neg last]
            cases square : mulSigned b b with
            | none => exact ⟨none, rfl, fun _ is => (nomatch is)⟩
            | some b' =>
                have more : 0 < turns := by
                  by_contra none
                  have zero : turns = 0 := by omega
                  rw [zero] at lt
                  omega
                obtain ⟨outcome, runs, powers⟩ := ih
                  (by rw [pow_succ] at lt; omega : e / 2 < 2 ^ turns) more t b'
                refine ⟨outcome, runs, ?_⟩
                intro power is
                rw [powers power is, value, mulSigned_spec square,
                  squaring_step]

/-- A power of a wide integer, with the bound under which it is answered. -/
theorem bintPow_spec
    {base : BigInt}
    {e : Int64}
    (nonneg : 0 ≤ e.toInt) :
    (∃ r, bintPow base e = some (.number r) ∧
      r.Denotes (base.toInt ^ e.toInt.toNat)) ∨
    (bintPow base e = some (.raises .exponentTooLarge) ∧
      POW_MAX_BITS / max base.bitLength 1 < e.toInt.toNat) := by
  have zero : (0 : Int64).toInt = 0 := rfl
  have lt := e.toInt_lt
  have notNegative : ¬ e < 0 := by
    rw [Int64.lt_iff_toInt_lt, zero]
    omega
  unfold bintPow
  simp only [if_neg notNegative]
  split
  case isTrue large => exact Or.inr ⟨rfl, large.2⟩
  case isFalse =>
    left
    obtain ⟨power, powers, value, formed⟩ :=
      BigInt.pow_spec base (by omega : e.toInt.toNat < 2 ^ 64)
    refine ⟨bintValue power, ?_, ?_⟩
    · rw [powers]
      rfl
    · rw [← value]
      exact bintValue_denotes formed

/-- The remainder of a power as the methods answer it. -/
def modularPower (x : ℤ) (e : Nat) (m : ℤ) : ℤ :=
  let r := (x ^ e).tmod m
  if m < 0 ∧ r ≠ 0 then r + m else r

theorem BigInt.abs_spec
    {a : BigInt}
    (formed : a.WellFormed) :
    a.abs.toInt = a.toInt.natAbs ∧ a.abs.WellFormed := by
  refine ⟨?_, formed.trimmed, fun _ => rfl⟩
  rw [BigInt.natAbs_toInt]
  rfl

/-- The modulus of `powm`, the sign taken off. -/
theorem tmod_natAbs (a m : ℤ) : a.tmod m.natAbs = a.tmod m := by
  rcases Int.natAbs_eq m with positive | negative
  · rw [← positive]
  · conv_rhs => rw [negative]
    rw [Int.tmod_neg]

theorem bintPowm_spec
    (xCanonical : x.Canonical)
    (eCanonical : e.Canonical)
    (mCanonical : m.Canonical)
    (nonneg : 0 ≤ e.toInt)
    (nonzero : m.toInt ≠ 0) :
    ∃ r, bintPowm x e m = some (.number r) ∧
      r.Denotes (modularPower x.toInt e.toInt.toNat m.toInt) := by
  have mSign := BigInt.sign_cases mCanonical.asBigint
  have eSign := BigInt.sign_cases eCanonical.asBigint
  have exponent := BigInt.natAbs_toInt e.asBigint
  rw [toInt_asBigint] at mSign eSign exponent
  obtain ⟨abs, absFormed⟩ := BigInt.abs_spec mCanonical.asBigint
  rw [toInt_asBigint] at abs
  let modulus :=
    if decide (m.asBigint.sign < 0) then m.asBigint.abs else m.asBigint
  obtain ⟨size, formed⟩ : modulus.toInt = m.toInt.natAbs ∧
      modulus.WellFormed := by
    by_cases negative : m.asBigint.sign < 0
    · simp only [modulus, negative, decide_true, if_true]
      exact ⟨abs, absFormed⟩
    · simp only [modulus, negative, decide_false, Bool.false_eq_true, if_false,
        toInt_asBigint]
      exact ⟨by omega, mCanonical.asBigint⟩
  have notZero : ¬ m.asBigint.isZero = true := by
    rw [isZero_asBigint mCanonical]
    exact nonzero
  unfold bintPowm
  dsimp only
  rw [if_neg notZero, if_neg (by omega)]
  by_cases none : x.asBigint.isZero = true ∧ e.asBigint.sign > 0
  · rw [if_pos none]
    refine ⟨.int 0, rfl, trivial, ?_⟩
    have zero : x.toInt = 0 := (isZero_asBigint xCanonical).mp none.1
    rw [modularPower, zero, zero_pow (by omega)]
    simp
    rfl
  · obtain ⟨r, powers, rFormed, value⟩ := BigInt.powm_spec x.asBigint
      e.asBigint formed (by omega)
    have digits : Integer.value e.asBigint.mag = e.toInt.toNat := by omega
    rw [toInt_asBigint, size, tmod_natAbs, digits] at value
    have zero : r.isZero = false ↔ r.toInt ≠ 0 := by
      rw [Ne, rFormed.toInt_eq_zero_iff, BigInt.isZero, ← Bool.not_eq_true,
        List.isEmpty_iff]
    rw [if_neg none]
    simp only [Option.bind_eq_bind]
    rw [powers, Option.bind_some]
    refine ⟨_, rfl, ?_⟩
    unfold modularPower
    dsimp only
    rw [← value]
    by_cases below : m.toInt < 0 ∧ r.toInt ≠ 0
    · rw [if_pos below, if_pos ⟨decide_eq_true (by omega), zero.mpr below.2⟩]
      obtain ⟨difference, formed'⟩ := BigInt.sub_spec rFormed.trimmed
      have sum : r.toInt + m.toInt = r.toInt - modulus.toInt := by omega
      rw [sum, ← difference]
      exact bintValue_denotes formed'
    · rw [if_neg below, if_neg]
      · exact bintValue_denotes rFormed
      · rintro ⟨negative, some_⟩
        have sign := of_decide_eq_true negative
        exact below ⟨by omega, zero.mp some_⟩

theorem intPow_spec
    {x e : Number}
    (nonneg : 0 ≤ e.toInt) :
    match x, e with
    | .bint _, .bint _ => intPow x e = some (.raises .tooBigPower)
    | .int _, .bint _ => intPow x e = some (.raises .outOfRange)
    | _, .int _ =>
        (∃ r, intPow x e = some (.number r) ∧
          r.Denotes (x.toInt ^ e.toInt.toNat)) ∨
        (intPow x e = some (.raises .exponentTooLarge) ∧
          POW_MAX_BITS / max x.asBigint.bitLength 1 < e.toInt.toNat) := by
  cases x with
  | bint b =>
      cases e with
      | bint _ => rfl
      | int n => exact bintPow_spec nonneg
  | int p =>
      cases e with
      | bint _ => rfl
      | int n =>
          have zero : (0 : Int64).toInt = 0 := rfl
          change 0 ≤ n.toInt at nonneg
          have lt := n.toInt_lt
          have notNegative : ¬ n < 0 := by
            rw [Int64.lt_iff_toInt_lt, zero]
            omega
          obtain ⟨outcome, runs, powers⟩ := powSigned_spec
            (by omega : n.toInt.toNat < 2 ^ 64) (by decide) 1 p
          dsimp only
          simp only [intPow, if_neg notNegative, runs, Option.bind_eq_bind,
            Option.bind_some]
          cases outcome with
          | none =>
              have wide := @bintPow_spec (.fromI64 p) n nonneg
              rw [BigInt.toInt_fromI64] at wide
              exact wide
          | some r =>
              left
              refine ⟨.int r, rfl, trivial, ?_⟩
              have power := powers r rfl
              rw [toInt_one, one_mul] at power
              exact power

section

variable {m : Int64}

theorem mulReduced_spec
    (ran : mulReduced m result base = some product) :
    SameRemainder m.toInt product.1.toInt (result.toInt * base.toInt) ∧
      SameRemainder m.toInt product.2.toInt base.toInt := by
  rw [mulReduced] at ran
  cases whole : mulSigned result base with
  | some t =>
      rw [whole] at ran
      cases ran
      dsimp only
      rw [mulSigned_spec whole]
      exact ⟨refl _ _, refl _ _⟩
  | none =>
      rw [whole] at ran
      obtain ⟨t, reduced, rfl⟩ := Option.map_eq_some_iff.mp ran
      dsimp only
      rw [mulSigned_spec reduced, Int64.toInt_mod, Int64.toInt_mod]
      exact ⟨(SameRemainder.reduced _ _).mul (SameRemainder.reduced _ _),
        SameRemainder.reduced _ _⟩

theorem squareReduced_spec
    (ran : squareReduced m base = some t) :
    SameRemainder m.toInt t.toInt (base.toInt * base.toInt) := by
  rw [squareReduced] at ran
  cases whole : mulSigned base base with
  | some t =>
      rw [whole] at ran
      cases ran
      rw [mulSigned_spec whole]
      exact refl _ _
  | none =>
      rw [whole] at ran
      rw [mulSigned_spec ran, Int64.toInt_mod]
      exact (SameRemainder.reduced _ _).mul (SameRemainder.reduced _ _)

theorem mulReducedDigit_spec
    (reduced : result.toInt.tmod m.toInt = result.toInt)
    (ran : mulReducedDigit m result base e = some product) :
    product.1.toInt.tmod m.toInt = product.1.toInt ∧
      SameRemainder m.toInt product.1.toInt
        (if e % 2 = 1 then result.toInt * base.toInt else result.toInt) ∧
      SameRemainder m.toInt product.2.toInt base.toInt := by
  rw [mulReducedDigit] at ran
  split at ran
  case isTrue odd =>
    obtain ⟨⟨t, base'⟩, multiplies, rfl⟩ := Option.map_eq_some_iff.mp ran
    obtain ⟨first, second⟩ := mulReduced_spec multiplies
    dsimp only at first second ⊢
    rw [if_pos odd, Int64.toInt_mod]
    exact ⟨Int.tmod_tmod _ _, (SameRemainder.reduced _ _).trans first, second⟩
  case isFalse even =>
    cases ran
    rw [if_neg even]
    exact ⟨reduced, refl _ _, refl _ _⟩

theorem powmSigned_spec
    {turns e : Nat}
    (lt : e < 2 ^ turns)
    (some_ : 0 < turns)
    {result : Int64}
    (reduced : result.toInt.tmod m.toInt = result.toInt)
    (base : Int64) :
    ∃ outcome, powmSigned m turns result base e = some outcome ∧
      ∀ r, outcome = some r → r.toInt.tmod m.toInt = r.toInt ∧
        SameRemainder m.toInt r.toInt (result.toInt * base.toInt ^ e) := by
  induction turns generalizing e result base with
  | zero => exact absurd some_ (Nat.lt_irrefl 0)
  | succ turns ih =>
      rw [powmSigned]
      cases product : mulReducedDigit m result base e with
      | none => exact ⟨none, rfl, fun _ is => (nomatch is)⟩
      | some parts =>
          obtain ⟨t, base'⟩ := parts
          obtain ⟨tReduced, value, same⟩ := mulReducedDigit_spec reduced product
          dsimp only at tReduced value same ⊢
          by_cases last : e / 2 = 0
          · rw [if_pos last]
            refine ⟨some t, rfl, ?_⟩
            rintro r ⟨⟩
            rw [squaring_last _ _ last] at value
            exact ⟨tReduced, value⟩
          · rw [if_neg last]
            cases square : squareReduced m base' with
            | none => exact ⟨none, rfl, fun _ is => (nomatch is)⟩
            | some s =>
                have more : 0 < turns := by
                  by_contra none
                  have zero : turns = 0 := by omega
                  rw [zero] at lt
                  omega
                obtain ⟨outcome, runs, powers⟩ := ih
                  (by rw [pow_succ] at lt; omega : e / 2 < 2 ^ turns) more
                  tReduced (s % m)
                refine ⟨outcome, runs, ?_⟩
                intro r is
                obtain ⟨rReduced, rSame⟩ := powers r is
                refine ⟨rReduced, rSame.trans ?_⟩
                rw [← squaring_step result.toInt base.toInt e]
                apply value.mul
                rw [Int64.toInt_mod]
                apply SameRemainder.pow
                exact ((SameRemainder.reduced _ _).trans
                  (squareReduced_spec square)).trans (same.mul same)

/-- The sign of a modulus taken off, as far as it can be. -/
theorem toInt_reduced (modulus : Int64) :
    let reduced := if decide (modulus < 0) then -modulus else modulus
    (modulus.toInt = -2 ^ 63 ∧ reduced.toInt = modulus.toInt) ∨
      reduced.toInt = modulus.toInt.natAbs := by
  have zero : (0 : Int64).toInt = 0 := rfl
  have least := modulus.le_toInt
  have lt := modulus.toInt_lt
  dsimp only
  by_cases negative : modulus.toInt < 0
  · have less : modulus < 0 := by
      rw [Int64.lt_iff_toInt_lt, zero]
      exact negative
    rw [if_pos (decide_eq_true less), Int64.toInt_neg, Int.bmod_def]
    split <;> omega
  · have notLess : ¬ modulus < 0 := by
      rw [Int64.lt_iff_toInt_lt, zero]
      exact negative
    rw [if_neg (by rw [decide_eq_true_eq]; exact notLess)]
    omega

end

/-- The remainder of a power is adjusted to a negative modulus although it is
negative itself, or the modulus has no opposite. -/
def Misadjusted (x : ℤ) (e : Nat) (m : ℤ) : Prop :=
  m < 0 ∧ ((x ^ e).tmod m < 0 ∨ (m = -2 ^ 63 ∧ (x ^ e).tmod m ≠ 0))

/-- The machine path of a modular power, which falls back to the wide one. -/
theorem intPowm_int
    (nonneg : 0 ≤ exp.toInt)
    (nonzero : modulus.toInt ≠ 0)
    (adjusts : ¬ Misadjusted x.toInt exp.toInt.toNat modulus.toInt) :
    ∃ r, intPowm (.int x) (.int exp) (.int modulus) = some (.number r) ∧
      r.Denotes (modularPower x.toInt exp.toInt.toNat modulus.toInt) := by
  have zero : (0 : Int64).toInt = 0 := rfl
  have lt := exp.toInt_lt
  have notNegative : ¬ exp < 0 := by
    rw [Int64.lt_iff_toInt_lt, zero]
    omega
  have notZero : ¬ modulus = 0 := by
    rw [← toInt_eq_zero_iff]
    exact nonzero
  have sign : decide (modulus < 0) = true ↔ modulus.toInt < 0 := by
    rw [decide_eq_true_eq, Int64.lt_iff_toInt_lt, zero]
  have signless := toInt_reduced modulus
  dsimp only at signless
  simp only [intPowm, if_neg notNegative, if_neg notZero]
  generalize (if decide (modulus < 0) then -modulus else modulus) = reduced
    at signless
  have remainders : ∀ a : ℤ, a.tmod reduced.toInt = a.tmod modulus.toInt := by
    intro a
    rcases signless with ⟨-, same⟩ | size
    · rw [same]
    · rw [size, tmod_natAbs]
  have unit : reduced = 1 ↔ modulus.toInt.natAbs = 1 := by
    rw [← Int64.toInt_inj, toInt_one]
    omega
  by_cases one : reduced = 1
  · rw [if_pos one]
    refine ⟨.int 0, rfl, trivial, ?_⟩
    have divides : (x.toInt ^ exp.toInt.toNat).tmod modulus.toInt = 0 := by
      apply Int.tmod_eq_zero_of_dvd
      rw [← Int.natAbs_dvd, unit.mp one]
      exact one_dvd _
    rw [modularPower, divides, if_neg (by simp)]
    rfl
  · rw [if_neg one]
    by_cases none : x = 0 ∧ exp > 0
    · rw [if_pos none]
      refine ⟨.int 0, rfl, trivial, ?_⟩
      have positive : exp.toInt.toNat ≠ 0 := by
        have greater := Int64.lt_iff_toInt_lt.mp none.2
        omega
      rw [modularPower, none.1, zero, zero_pow positive, Int.zero_tmod,
        if_neg (by simp)]
      rfl
    · obtain ⟨outcome, runs, powers⟩ := @powmSigned_spec reduced 64
        exp.toInt.toNat (by omega) (by decide) 1
        (by
          rw [toInt_one, remainders]
          exact BigInt.one_tmod nonzero (fun is => one (unit.mpr is))) x
      rw [if_neg none, runs, Option.bind_eq_bind, Option.bind_some]
      cases outcome with
      | none => exact bintPowm_spec trivial trivial trivial nonneg nonzero
      | some result =>
          obtain ⟨resultReduced, same⟩ := powers result rfl
          have value : result.toInt =
              (x.toInt ^ exp.toInt.toNat).tmod modulus.toInt := by
            rw [← resultReduced, same, toInt_one, one_mul, remainders]
          rw [Misadjusted, ← value] at adjusts
          unfold modularPower
          dsimp only
          rw [← value]
          by_cases below : modulus.toInt < 0 ∧ result.toInt ≠ 0
          · have size : result.toInt.natAbs < modulus.toInt.natAbs := by
              rw [value, Int.natAbs_tmod]
              exact Nat.mod_lt _ (Int.natAbs_pos.mpr nonzero)
            have least := modulus.le_toInt
            have opposite : reduced.toInt = -modulus.toInt := by omega
            have difference : subSigned result reduced =
                some (result - reduced) := if_pos (by omega)
            have notNone : result ≠ 0 := by
              rw [Ne, ← toInt_eq_zero_iff]
              exact below.2
            rw [if_pos below, adjusted,
              if_pos ⟨sign.mpr below.1, notNone⟩, difference]
            refine ⟨.int (result - reduced), rfl, trivial, ?_⟩
            have exact_ := IntOp.checked_exact .sub difference
            change (result - reduced).toInt = result.toInt + modulus.toInt
            rw [exact_, IntOp.exact, opposite]
            ring
          · rw [if_neg below, adjusted, if_neg]
            · exact ⟨_, rfl, trivial, rfl⟩
            · rintro ⟨negative, some_⟩
              apply below
              refine ⟨sign.mp negative, ?_⟩
              rw [Ne, toInt_eq_zero_iff]
              exact some_

/-- What a modular power answers is congruent to the power and smaller than the
modulus. -/
theorem modularPower_spec
    (nonzero : m ≠ 0)
    (adjusts : ¬ (m < 0 ∧ (x ^ e).tmod m < 0)) :
    m ∣ modularPower x e m - x ^ e ∧
      (modularPower x e m).natAbs < m.natAbs := by
  have divides : m ∣ (x ^ e).tmod m - x ^ e := by
    rw [← Int.dvd_neg, Int.neg_sub]
    exact Int.dvd_self_sub_tmod
  have size : ((x ^ e).tmod m).natAbs < m.natAbs := by
    rw [Int.natAbs_tmod]
    exact Nat.mod_lt _ (Int.natAbs_pos.mpr nonzero)
  unfold modularPower
  dsimp only
  split
  case isTrue below =>
    constructor
    · rw [add_sub_right_comm]
      exact Int.dvd_add divides (Int.dvd_refl m)
    · omega
  case isFalse => exact ⟨divides, size⟩

end SabiRuby.Integer
