import SabiRuby.Integer.Operators

/-!
# Integer arithmetic is exact

Every operator answers the integer it stands for, as a machine integer exactly
where it fits.
-/

namespace SabiRuby.Integer

open Library

namespace Number

/-- The number is kept in the one representation it has: a wide integer is
trimmed, has no signed zero and does not fit a machine integer. -/
def Canonical : Number → Prop
  | .int _ => True
  | .bint b => b.WellFormed ∧ ¬BigInt.FitsI64 b.toInt

/-- The number is the canonical one for an integer. -/
def Denotes (r : Number) (n : Int) : Prop := r.Canonical ∧ r.toInt = n

theorem bintValue_denotes
    (formed : b.WellFormed) : (bintValue b).Denotes b.toInt := by
  refine ⟨?_, toInt_bintValue formed⟩
  unfold bintValue
  rw [formed.toI64_eq]
  by_cases fits : BigInt.FitsI64 b.toInt
  · rw [if_pos fits]
    trivial
  · rw [if_neg fits]
    exact ⟨formed, fits⟩

@[simp] theorem toInt_asBigint (x : Number) : x.asBigint.toInt = x.toInt := by
  cases x with
  | int n => exact BigInt.toInt_fromI64 n
  | bint b => rfl

theorem Canonical.asBigint
    {x : Number}
    (canonical : x.Canonical) : x.asBigint.WellFormed := by
  cases x with
  | int n => exact BigInt.wellFormed_fromI64 n
  | bint b => exact canonical.1

/-- An integer has one canonical number. -/
theorem Canonical.eq_of_toInt
    {m n : Number}
    (left : m.Canonical)
    (right : n.Canonical)
    (same : m.toInt = n.toInt) : m = n := by
  cases m with
  | int i =>
      cases n with
      | int j => rw [Int64.toInt_inj.mp same]
      | bint c =>
          have value : i.toInt = c.toInt := same
          exact absurd (value ▸ BigInt.fitsI64_toInt i) right.2
  | bint b =>
      cases n with
      | int j =>
          have value : b.toInt = j.toInt := same
          exact absurd (value ▸ BigInt.fitsI64_toInt j) left.2
      | bint c => rw [left.1.eq_of_toInt right.1 same]

theorem int_denotes
    (same : r.toInt = n) : (Number.int r).Denotes n := ⟨trivial, same⟩

end Number

open Number

/-! ## Machine integers -/

theorem int64_bounds (p : Int64) : -2 ^ 63 ≤ p.toInt ∧ p.toInt < 2 ^ 63 :=
  BigInt.fitsI64_toInt p

theorem toInt_neg_one : (-1 : Int64).toInt = -1 := by decide

theorem toInt_one : (1 : Int64).toInt = 1 := by decide

/-- A machine operation that does not overflow is exact. -/
theorem IntOp.checked_exact
    (op : IntOp)
    (ran : op.checked p q = some r) : r.toInt = op.exact p.toInt q.toInt := by
  cases op with
  | add =>
      obtain ⟨fits, equal⟩ := Option.ite_none_right_eq_some.mp ran
      rw [Option.some.injEq] at equal
      rw [← equal, Int64.toInt_add]
      exact bmod_of_small fits.1 fits.2
  | sub =>
      obtain ⟨fits, equal⟩ := Option.ite_none_right_eq_some.mp ran
      rw [Option.some.injEq] at equal
      rw [← equal, Int64.toInt_sub]
      exact bmod_of_small fits.1 fits.2
  | mul =>
      obtain ⟨fits, equal⟩ := Option.ite_none_right_eq_some.mp ran
      rw [Option.some.injEq] at equal
      rw [← equal, Int64.toInt_mul]
      exact bmod_of_small fits.1 fits.2

theorem toInt_eq_zero_iff (q : Int64) : q.toInt = 0 ↔ q = 0 := by
  rw [← Int64.toInt_inj, Int64.toInt_zero]

variable {p q : Int64}

/-- The machine quotient, away from the one pair whose quotient does not fit. -/
theorem toInt_div
    (fits : ¬(p = Int64.minValue ∧ q = -1)) :
    (p / q).toInt = p.toInt.tdiv q.toInt := by
  by_cases least : p = Int64.minValue
  · exact Int64.toInt_div_of_ne_right p q fun minusOne =>
      fits ⟨least, minusOne⟩
  · exact Int64.toInt_div_of_ne_left p q least

/-- A remainder toward zero has the sign of the dividend. -/
theorem tmod_sign
    {n d : Int}
    (rest : n.tmod d ≠ 0) : decide (n.tmod d < 0) = decide (n < 0) := by
  rw [decide_eq_decide]
  rcases Int.lt_or_le n 0 with negative | nonnegative
  · have opposite := Int.neg_tmod (-n) d
    have low := Int.tmod_nonneg d (show 0 ≤ -n by omega)
    rw [Int.neg_neg] at opposite
    omega
  · have low := Int.tmod_nonneg d nonnegative
    omega

/-- Division downward, by the division toward zero. -/
theorem floor_of_trunc
    {n d : Int}
    (nonzero : d ≠ 0) :
    (n.tmod d ≠ 0 ∧ decide (n.tmod d < 0) ≠ decide (d < 0) →
      n.fdiv d = n.tdiv d - 1 ∧ n.fmod d = n.tmod d + d) ∧
    (¬(n.tmod d ≠ 0 ∧ decide (n.tmod d < 0) ≠ decide (d < 0)) →
      n.fdiv d = n.tdiv d ∧ n.fmod d = n.tmod d) := by
  have whole := Int.tmod_add_mul_tdiv n d
  have size : (n.tmod d).natAbs < d.natAbs := by
    rw [Int.natAbs_tmod]
    exact Nat.mod_lt _ (Int.natAbs_pos.mpr nonzero)
  have lowered : n.tmod d + d + d * (n.tdiv d - 1) = n := by
    rw [Int.mul_sub, Int.mul_one]
    omega
  constructor
  · rintro ⟨rest, opposite⟩
    rw [ne_eq, decide_eq_decide] at opposite
    rcases Int.lt_or_gt_of_ne nonzero with negative | positive
    · exact (Int.fdiv_fmod_unique' negative).mpr
        ⟨lowered, by omega, by omega⟩
    · exact (Int.fdiv_fmod_unique positive).mpr
        ⟨lowered, by omega, by omega⟩
  · intro kept
    rw [ne_eq, ne_eq, decide_eq_decide] at kept
    rcases Int.lt_or_gt_of_ne nonzero with negative | positive
    · exact (Int.fdiv_fmod_unique' negative).mpr ⟨whole, by omega, by omega⟩
    · exact (Int.fdiv_fmod_unique positive).mpr ⟨whole, by omega, by omega⟩

theorem lt_zero_iff (p : Int64) : decide (p < 0) = decide (p.toInt < 0) := by
  rw [decide_eq_decide, Int64.lt_iff_toInt_lt, Int64.toInt_zero]

/-- The machine quotient downward, away from the pair that overflows. -/
theorem divFloor_exact
    (nonzero : q ≠ 0)
    (fits : ¬(p = Int64.minValue ∧ q = -1)) :
    (divFloor p q).toInt = p.toInt.fdiv q.toInt := by
  have divisor : q.toInt ≠ 0 := mt (toInt_eq_zero_iff q).mp nonzero
  have quotient := toInt_div fits
  have rest : p % q ≠ 0 ↔ p.toInt.tmod q.toInt ≠ 0 := by
    rw [ne_eq, ← toInt_eq_zero_iff, Int64.toInt_mod]
  have bounds := int64_bounds p
  have divisorBounds := int64_bounds q
  unfold divFloor
  rw [lt_zero_iff, lt_zero_iff]
  by_cases lower : p % q ≠ 0 ∧ decide (p.toInt < 0) ≠ decide (q.toInt < 0)
  · have opposite := lower.2
    rw [← tmod_sign (rest.mp lower.1)] at opposite
    have floor := (floor_of_trunc divisor).1 ⟨rest.mp lower.1, opposite⟩
    simp only [if_pos lower]
    have small : (p.toInt.tdiv q.toInt).natAbs ≤ 2 ^ 63 / 2 := by
      rw [Int.natAbs_tdiv]
      have wide : 2 ≤ q.toInt.natAbs := by
        by_contra narrow
        have unit : q.toInt.natAbs = 1 := by omega
        apply rest.mp lower.1
        rw [← Int.natAbs_eq_zero, Int.natAbs_tmod, unit, Nat.mod_one]
      calc
        p.toInt.natAbs / q.toInt.natAbs ≤ p.toInt.natAbs / 2 :=
          Nat.div_le_div_left wide (by omega)
        _ ≤ 2 ^ 63 / 2 := Nat.div_le_div_right (by omega)
    rw [Int64.toInt_sub, quotient, toInt_one, floor.1]
    exact bmod_of_small (by omega) (by omega)
  · have kept : ¬(p.toInt.tmod q.toInt ≠ 0 ∧
        decide (p.toInt.tmod q.toInt < 0) ≠ decide (q.toInt < 0)) := by
      rintro ⟨some_, opposite⟩
      rw [tmod_sign some_] at opposite
      exact lower ⟨rest.mpr some_, opposite⟩
    simp only [if_neg lower]
    rw [quotient, ((floor_of_trunc divisor).2 kept).1]

/-- The machine remainder with the sign of the divisor. -/
theorem modFloor_exact
    (nonzero : q ≠ 0) : (modFloor p q).toInt = p.toInt.fmod q.toInt := by
  have divisor : q.toInt ≠ 0 := mt (toInt_eq_zero_iff q).mp nonzero
  have rest : p % q ≠ 0 ↔ p.toInt.tmod q.toInt ≠ 0 := by
    rw [ne_eq, ← toInt_eq_zero_iff, Int64.toInt_mod]
  have bounds := int64_bounds (p % q)
  have divisorBounds := int64_bounds q
  rw [Int64.toInt_mod] at bounds
  unfold modFloor
  simp only [lt_zero_iff, Int64.toInt_mod]
  by_cases raise : p % q ≠ 0 ∧
      decide (p.toInt.tmod q.toInt < 0) ≠ decide (q.toInt < 0)
  · have floor := (floor_of_trunc divisor).1 ⟨rest.mp raise.1, raise.2⟩
    have opposite := raise.2
    rw [ne_eq, decide_eq_decide] at opposite
    simp only [if_pos raise]
    rw [Int64.toInt_add, Int64.toInt_mod, floor.2]
    exact bmod_of_small (by omega) (by omega)
  · have kept : ¬(p.toInt.tmod q.toInt ≠ 0 ∧
        decide (p.toInt.tmod q.toInt < 0) ≠ decide (q.toInt < 0)) := by
      rintro ⟨some_, opposite⟩
      exact raise ⟨rest.mpr some_, opposite⟩
    simp only [if_neg raise]
    rw [Int64.toInt_mod, ((floor_of_trunc divisor).2 kept).2]

/-! ## Bits -/

/-- The bits of a machine integer are those of its word, and then its sign. -/
theorem testBit_toInt (p : Int64) (i : Nat) :
    p.toInt.testBit i =
      if i < 64 then p.toBitVec.getLsbD i else p.toBitVec.msb := by
  have word : p.toInt =
      signedOfWord 64 p.toBitVec.toNat p.toBitVec.msb := by
    unfold signedOfWord
    exact BitVec.toInt_eq_msb_cond p.toBitVec
  rw [word, testBit_signedOfWord p.toBitVec.isLt]
  rfl

theorem toNat_width
    (small : n < 64) : ((Int64.ofNat n).toBitVec.smod 64).toNat = n := by
  have inside : n ∈ List.range 64 := List.mem_range.mpr small
  revert inside
  revert n
  decide

/-- The shift of a machine integer to the right rounds downward. -/
theorem toInt_shiftRight
    (p : Int64)
    (small : n < 64) :
    (p >>> Int64.ofNat n).toInt = p.toInt.fdiv (2 ^ n) := by
  rw [← Int64.toInt_toBitVec, Int64.toBitVec_shiftRight,
    BitVec.sshiftRight_eq', BitVec.toInt_sshiftRight, toNat_width small,
    Int.shiftRight_eq_div_pow, Int64.toInt_toBitVec, Int.fdiv_eq_ediv_of_nonneg]
  · push_cast
    rfl
  · exact Int.le_of_lt (Int.pow_pos (by omega))

/-- A shift of a machine integer to the left that can be undone is exact. -/
theorem toInt_shiftLeft
    (small : n < 64)
    (undone : (p <<< Int64.ofNat n) >>> Int64.ofNat n = p) :
    (p <<< Int64.ofNat n).toInt = p.toInt * 2 ^ n := by
  have power : (0 : Int) < 2 ^ n := Int.pow_pos (by omega)
  have back : (p <<< Int64.ofNat n).toInt / 2 ^ n = p.toInt := by
    rw [← Int.fdiv_eq_ediv_of_nonneg _ (Int.le_of_lt power),
      ← toInt_shiftRight _ small, undone]
  have whole : (p <<< Int64.ofNat n).toInt % 2 ^ n = 0 := by
    rw [← Int64.toInt_toBitVec, Int64.toBitVec_shiftLeft,
      BitVec.shiftLeft_eq', BitVec.toInt_shiftLeft, toNat_width small,
      Int.bmod_eq_self_sub_mul_bdiv, Nat.shiftLeft_eq]
    apply Int.emod_eq_zero_of_dvd
    push_cast
    apply Int.dvd_sub (Int.dvd_mul_left _ _)
    exact Dvd.dvd.mul_right (pow_dvd_pow 2 (Nat.le_of_lt small)) _
  have parts := Int.mul_ediv_add_emod (p <<< Int64.ofNat n).toInt (2 ^ n)
  rw [whole, back, Int.add_zero, Int.mul_comm] at parts
  exact parts.symm

/-! ## Comparison -/

theorem BigInt.sign_cases
    {a : BigInt}
    (formed : a.WellFormed) :
    (a.toInt < 0 ∧ a.sign = -1) ∨ (a.toInt = 0 ∧ a.sign = 0) ∨
      (0 < a.toInt ∧ a.sign = 1) := by
  have sign := BigInt.sign_eq formed
  rcases Int.lt_trichotomy a.toInt 0 with negative | zero | positive
  · rw [if_neg (by omega), if_pos negative] at sign
    exact Or.inl ⟨negative, sign⟩
  · rw [if_pos zero] at sign
    exact Or.inr (Or.inl ⟨zero, sign⟩)
  · rw [if_neg (by omega), if_neg (by omega)] at sign
    exact Or.inr (Or.inr ⟨positive, sign⟩)

/-- Wide integers compare as what they stand for. -/
theorem BigInt.cmp_eq_compare
    {a b : BigInt}
    (aFormed : a.WellFormed)
    (bFormed : b.WellFormed) : a.cmp b = compare a.toInt b.toInt := by
  have aSign := sign_cases aFormed
  have bSign := sign_cases bFormed
  unfold cmp
  by_cases same : a.sign = b.sign
  · rw [if_neg (not_not_intro same), ucmp_eq aFormed.trimmed bFormed.trimmed,
      ← natAbs_toInt, ← natAbs_toInt]
    by_cases negative : a.sign < 0
    · simp only [if_pos negative]
      rcases Int.lt_trichotomy a.toInt b.toInt with less | equal | greater
      · rw [Int.compare_eq_lt.mpr less, Nat.compare_eq_gt.mpr (by omega)]
        rfl
      · rw [equal]
        simp
      · rw [Int.compare_eq_gt.mpr greater, Nat.compare_eq_lt.mpr (by omega)]
        rfl
    · simp only [if_neg negative]
      rcases Int.lt_trichotomy a.toInt b.toInt with less | equal | greater
      · rw [Int.compare_eq_lt.mpr less, Nat.compare_eq_lt.mpr (by omega)]
      · rw [equal]
        simp
      · rw [Int.compare_eq_gt.mpr greater, Nat.compare_eq_gt.mpr (by omega)]
  · rw [if_pos same]
    rcases Int.lt_or_gt_of_ne same with less | greater
    · rw [Int.compare_eq_lt.mpr less, Int.compare_eq_lt.mpr (by omega)]
    · rw [Int.compare_eq_gt.mpr greater, Int.compare_eq_gt.mpr (by omega)]

/-! ## The operators -/

theorem bintArith_exact
    {p q : BigInt}
    (op : IntOp)
    (pFormed : p.WellFormed)
    (qFormed : q.WellFormed) :
    ∃ r, bintArith op p q = some r ∧
      r.Denotes (op.exact p.toInt q.toInt) := by
  obtain ⟨b, ran, value, formed⟩ : ∃ b, op.wide p q = some b ∧
      b.toInt = op.exact p.toInt q.toInt ∧ b.WellFormed := by
    cases op with
    | add => exact ⟨_, rfl, BigInt.add_spec pFormed.trimmed qFormed.trimmed⟩
    | sub => exact ⟨_, rfl, BigInt.sub_spec pFormed.trimmed⟩
    | mul => exact BigInt.mul_spec p q
  refine ⟨bintValue b, ?_, ?_⟩
  · rw [bintArith, ran, Option.map_some]
  · rw [← value]
    exact bintValue_denotes formed

variable {x y : Number}

theorem intArith_exact
    (op : IntOp)
    (xCanonical : x.Canonical)
    (yCanonical : y.Canonical) :
    ∃ r, intArith op x y = some r ∧
      r.Denotes (op.exact x.toInt y.toInt) := by
  have wide := bintArith_exact op xCanonical.asBigint yCanonical.asBigint
  rw [toInt_asBigint, toInt_asBigint] at wide
  cases x with
  | bint b => exact wide
  | int p =>
      cases y with
      | bint b => exact wide
      | int q =>
          simp only [intArith]
          cases ran : op.checked p q with
          | some r => exact ⟨.int r, rfl, int_denotes (op.checked_exact ran)⟩
          | none => exact wide

theorem isZero_asBigint
    {y : Number}
    (canonical : y.Canonical) : y.asBigint.isZero = true ↔ y.toInt = 0 := by
  rw [← toInt_asBigint y, canonical.asBigint.toInt_eq_zero_iff,
    BigInt.isZero, List.isEmpty_iff]

/-- The quotient that does not fit. -/
theorem negated_minValue :
    (bintValue (BigInt.fromI64 Int64.minValue).negated).Denotes
      (Int64.minValue.toInt.fdiv (-1 : Int64).toInt) := by
  have value := BigInt.toInt_negated (BigInt.fromI64 Int64.minValue)
  rw [BigInt.toInt_fromI64] at value
  rw [toInt_neg_one, Int.fdiv_neg (by decide), Int.fdiv_one, ← value]
  exact bintValue_denotes (BigInt.wellFormed_negated _)

/-- Quotient and remainder of a division downward. -/
theorem intDivmod_exact
    (xCanonical : x.Canonical)
    (yCanonical : y.Canonical)
    (nonzero : y.toInt ≠ 0) :
    ∃ q r, intDivmod x y = some (.ok (q, r)) ∧
      q.Denotes (x.toInt.fdiv y.toInt) ∧ r.Denotes (x.toInt.fmod y.toInt) := by
  obtain ⟨q, r, ran, quotient, remainder, qFormed, rFormed⟩ :=
    BigInt.divmodFloor_spec x.asBigint yCanonical.asBigint.trimmed
      (by rwa [toInt_asBigint])
  rw [toInt_asBigint, toInt_asBigint] at quotient remainder
  have notZero : ¬y.asBigint.isZero = true :=
    mt (isZero_asBigint yCanonical).mp nonzero
  have wide : ∃ q r,
      (if y.asBigint.isZero = true then
          some (Except.error (ε := Raise) .zeroDivision)
        else
          (x.asBigint.divmodFloor y.asBigint).map fun r =>
            .ok (bintValue r.1, bintValue r.2)) = some (.ok (q, r)) ∧
      q.Denotes (x.toInt.fdiv y.toInt) ∧
      r.Denotes (x.toInt.fmod y.toInt) := by
    refine ⟨bintValue q, bintValue r, ?_, ?_, ?_⟩
    · rw [if_neg notZero, ran, Option.map_some]
    · rw [← quotient]
      exact bintValue_denotes qFormed
    · rw [← remainder]
      exact bintValue_denotes rFormed
  cases x with
  | bint b => exact wide
  | int p =>
      cases y with
      | bint b => exact wide
      | int d =>
          have divisor : d ≠ 0 := mt (toInt_eq_zero_iff d).mpr nonzero
          unfold intDivmod
          simp only [if_neg divisor]
          by_cases least : p = Int64.minValue ∧ d = -1
          · rw [if_pos least]
            obtain ⟨rfl, rfl⟩ := least
            refine ⟨_, _, rfl, negated_minValue, int_denotes ?_⟩
            decide
          · rw [if_neg least]
            exact ⟨_, _, rfl, int_denotes (divFloor_exact divisor least),
              int_denotes (modFloor_exact divisor)⟩

theorem intDiv_exact
    (xCanonical : x.Canonical)
    (yCanonical : y.Canonical)
    (nonzero : y.toInt ≠ 0) :
    ∃ q, intDiv x y = some (.ok q) ∧
      q.Denotes (x.toInt.fdiv y.toInt) := by
  obtain ⟨q, r, ran, quotient, _, formed, _⟩ :=
    BigInt.divmodFloor_spec x.asBigint yCanonical.asBigint.trimmed
      (by rwa [toInt_asBigint])
  rw [toInt_asBigint, toInt_asBigint] at quotient
  have notZero : ¬y.asBigint.isZero = true :=
    mt (isZero_asBigint yCanonical).mp nonzero
  have wide : ∃ q, bintDivFloor x y = some (.ok q) ∧
      q.Denotes (x.toInt.fdiv y.toInt) := by
    refine ⟨bintValue q, ?_, ?_⟩
    · simp only [bintDivFloor, if_neg notZero, BigInt.divFloor, ran,
        Option.map_some]
    · rw [← quotient]
      exact bintValue_denotes formed
  cases x with
  | bint b => exact wide
  | int p =>
      cases y with
      | bint b => exact wide
      | int d =>
          have divisor : d ≠ 0 := mt (toInt_eq_zero_iff d).mpr nonzero
          simp only [intDiv, if_neg divisor]
          by_cases least : p = Int64.minValue ∧ d = -1
          · rw [if_pos least]
            obtain ⟨rfl, rfl⟩ := least
            exact ⟨_, rfl, negated_minValue⟩
          · rw [if_neg least]
            exact ⟨_, rfl, int_denotes (divFloor_exact divisor least)⟩

theorem intMod_exact
    (xCanonical : x.Canonical)
    (yCanonical : y.Canonical)
    (nonzero : y.toInt ≠ 0) :
    ∃ r, intMod x y = some (.ok r) ∧
      r.Denotes (x.toInt.fmod y.toInt) := by
  obtain ⟨q, r, ran, _, remainder, _, formed⟩ :=
    BigInt.divmodFloor_spec x.asBigint yCanonical.asBigint.trimmed
      (by rwa [toInt_asBigint])
  rw [toInt_asBigint, toInt_asBigint] at remainder
  have notZero : ¬y.asBigint.isZero = true :=
    mt (isZero_asBigint yCanonical).mp nonzero
  have wide : ∃ r,
      (if y.asBigint.isZero = true then
          some (Except.error (ε := Raise) .zeroDivision)
        else
          (x.asBigint.modFloor y.asBigint).map fun r =>
            .ok (bintValue r)) = some (.ok r) ∧
      r.Denotes (x.toInt.fmod y.toInt) := by
    refine ⟨bintValue r, ?_, ?_⟩
    · simp only [if_neg notZero, BigInt.modFloor, ran, Option.map_some]
    · rw [← remainder]
      exact bintValue_denotes formed
  unfold intMod
  by_cases itself : x = .int 0 ∧ y.isBigint = false
  · rw [if_pos itself, itself.1]
    refine ⟨_, rfl, int_denotes ?_⟩
    simp [Number.toInt]
  · rw [if_neg itself]
    cases x with
    | bint b => exact wide
    | int p =>
        cases y with
        | bint b => exact wide
        | int d =>
            have divisor : d ≠ 0 := mt (toInt_eq_zero_iff d).mpr nonzero
            simp only [if_neg divisor]
            by_cases least : p = Int64.minValue ∧ d = -1
            · rw [if_pos least]
              obtain ⟨rfl, rfl⟩ := least
              exact ⟨_, rfl, int_denotes (by decide)⟩
            · rw [if_neg least]
              exact ⟨_, rfl, int_denotes (modFloor_exact divisor)⟩

/-- An operator whose two paths both work bit by bit does. -/
theorem bit_exact
    {op : Bool → Bool → Bool}
    (small : ∀ p q : Int64, ∀ i, (f p q).toInt.testBit i =
      op (p.toInt.testBit i) (q.toInt.testBit i))
    (large : ∀ p q : BigInt, p.WellFormed → q.WellFormed →
      (∀ i, (fb p q).toInt.testBit i =
        op (p.toInt.testBit i) (q.toInt.testBit i)) ∧ (fb p q).WellFormed)
    (xCanonical : x.Canonical)
    (yCanonical : y.Canonical) :
    (bit f fb x y).Canonical ∧
      ∀ i, (bit f fb x y).toInt.testBit i =
        op (x.toInt.testBit i) (y.toInt.testBit i) := by
  obtain ⟨bits, formed⟩ := large x.asBigint y.asBigint
    xCanonical.asBigint yCanonical.asBigint
  have value := bintValue_denotes formed
  have wide : (bintValue (fb x.asBigint y.asBigint)).Canonical ∧
      ∀ i, (bintValue (fb x.asBigint y.asBigint)).toInt.testBit i =
        op (x.toInt.testBit i) (y.toInt.testBit i) := by
    refine ⟨value.1, fun i => ?_⟩
    rw [value.2, bits i, toInt_asBigint, toInt_asBigint]
  cases x with
  | bint b => exact wide
  | int p =>
      cases y with
      | bint b => exact wide
      | int q => exact ⟨trivial, small p q⟩

theorem testBit_and (p q : Int64) (i : Nat) :
    (p &&& q).toInt.testBit i = (p.toInt.testBit i && q.toInt.testBit i) := by
  rw [testBit_toInt, testBit_toInt, testBit_toInt, Int64.toBitVec_and]
  by_cases inside : i < 64 <;> simp [inside]

theorem testBit_or (p q : Int64) (i : Nat) :
    (p ||| q).toInt.testBit i = (p.toInt.testBit i || q.toInt.testBit i) := by
  rw [testBit_toInt, testBit_toInt, testBit_toInt, Int64.toBitVec_or]
  by_cases inside : i < 64 <;> simp [inside]

theorem testBit_xor (p q : Int64) (i : Nat) :
    (p ^^^ q).toInt.testBit i = (p.toInt.testBit i ^^ q.toInt.testBit i) := by
  rw [testBit_toInt, testBit_toInt, testBit_toInt, Int64.toBitVec_xor]
  by_cases inside : i < 64 <;> simp [inside]

theorem intNot_exact
    {x : Number} : (intNot x).Denotes (-x.toInt - 1) := by
  cases x with
  | int p =>
      have bounds := int64_bounds p
      apply int_denotes
      rw [Int64.toInt_not]
      exact bmod_of_small (by omega) (by omega)
  | bint b =>
      have spec := BigInt.lnot_spec b
      have value := bintValue_denotes spec.2
      rw [spec.1] at value
      exact value

/-! ## Shifts -/

/-- A shift by a signed width: to the left it multiplies, to the right it
divides downward. -/
def shiftExact (n w : Int) : Int :=
  if 0 ≤ w then n * 2 ^ w.toNat else n.fdiv (2 ^ (-w).toNat)

/-- The signed width of a shift. -/
def leftward (left : Bool) (w : Int) : Int := if left then w else -w

theorem shiftExact_left (m : Int) (n : Nat) :
    shiftExact m n = m * 2 ^ n := by
  unfold shiftExact
  rw [if_pos (by omega), Int.toNat_natCast]

theorem shiftExact_right (m : Int) (n : Nat) :
    shiftExact m (-n) = m.fdiv (2 ^ n) := by
  unfold shiftExact
  by_cases zero : n = 0
  · rw [zero]
    simp
  · rw [if_neg (by omega), Int.neg_neg, Int.toNat_natCast]

/-- A machine integer shifted out to the right leaves its sign. -/
theorem fdiv_of_wide
    (p : Int64)
    (wide : 64 ≤ n) :
    p.toInt.fdiv (2 ^ n) = if p < 0 then -1 else 0 := by
  have bounds := int64_bounds p
  have power : (2 : Int) ^ 64 ≤ 2 ^ n := by
    exact_mod_cast Nat.pow_le_pow_right (by omega : 0 < 2) wide
  have positive : (0 : Int) < 2 ^ n := Int.pow_pos (by omega)
  simp only [Int64.lt_iff_toInt_lt, Int64.toInt_zero]
  by_cases negative : p.toInt < 0
  · rw [if_pos negative]
    exact ((Int.fdiv_fmod_unique (r := p.toInt + 2 ^ n) positive).mpr
      ⟨by omega, by omega, by omega⟩).1
  · rw [if_neg negative]
    exact ((Int.fdiv_fmod_unique (r := p.toInt) positive).mpr
      ⟨by omega, by omega, by omega⟩).1

theorem shiftSmall_exact
    (ran : shiftSmall p left n = some r) :
    r.toInt = shiftExact p.toInt (leftward left n) := by
  unfold shiftSmall at ran
  unfold leftward
  cases left with
  | false =>
      simp only [Bool.not_false, if_true, Option.some.injEq] at ran
      rw [if_neg (by decide), shiftExact_right, ← ran]
      by_cases wide : 64 ≤ n
      · rw [if_pos wide, fdiv_of_wide p wide]
        split
        · exact toInt_neg_one
        · exact Int64.toInt_zero
      · rw [if_neg wide]
        exact toInt_shiftRight p (by omega)
  | true =>
      simp only [Bool.not_true, Bool.false_eq_true, if_false] at ran
      rw [if_pos rfl, shiftExact_left]
      by_cases zero : p = 0
      · rw [if_pos zero] at ran
        rw [← Option.some.inj ran, zero, Int64.toInt_zero, Int.zero_mul]
      · rw [if_neg zero] at ran
        by_cases small : n < 64
        · rw [if_pos small] at ran
          obtain ⟨undone, equal⟩ := Option.ite_none_right_eq_some.mp ran
          rw [← Option.some.inj equal]
          exact toInt_shiftLeft small undone
        · rw [if_neg small] at ran
          cases ran

/-- The direction and the distance of a shift by a signed width. -/
theorem leftward_eq (left : Bool) (w : Int64) :
    leftward left w.toInt =
      leftward (if w < 0 then !left else left) w.toInt.natAbs := by
  unfold leftward
  simp only [Int64.lt_iff_toInt_lt, Int64.toInt_zero]
  by_cases negative : w.toInt < 0
  · have size : (w.toInt.natAbs : Int) = -w.toInt := by omega
    simp only [if_pos negative, size]
    cases left <;> simp
  · have size : (w.toInt.natAbs : Int) = w.toInt := by omega
    simp only [if_neg negative, size]

theorem shift_wide
    {x : Number}
    (canonical : x.Canonical)
    (left : Bool)
    (n : Nat) :
    (bintValue (if left then x.asBigint.shl n else x.asBigint.shr n)).Denotes
      (shiftExact x.toInt (leftward left n)) := by
  unfold leftward
  cases left with
  | true =>
      have spec := BigInt.shl_spec x.asBigint n
      rw [toInt_asBigint, ← shiftExact_left] at spec
      simp only [if_true]
      rw [← spec.1]
      exact bintValue_denotes spec.2
  | false =>
      have spec := BigInt.shr_spec canonical.asBigint.trimmed n
      rw [toInt_asBigint, ← shiftExact_right] at spec
      simp only [Bool.false_eq_true, if_false]
      rw [← spec.1]
      exact bintValue_denotes spec.2

/-- A shift that is not refused is exact. -/
theorem shift_exact
    (canonical : x.Canonical)
    (ran : shift x y left = .ok r) :
    ∃ w, y = .int w ∧
      r.Denotes (shiftExact x.toInt (leftward left w.toInt)) := by
  cases y with
  | bint b => cases ran
  | int w =>
      refine ⟨w, rfl, ?_⟩
      have wide := shift_wide canonical (if w < 0 then !left else left)
        w.toInt.natAbs
      rw [leftward_eq]
      simp only [shift] at ran
      generalize (if w < 0 then !left else left) = direction at ran wide ⊢
      cases x with
      | bint b =>
          simp only at ran
          split at ran
          · cases ran
          · rw [← Except.ok.inj ran]
            exact wide
      | int p =>
          simp only at ran
          cases small : shiftSmall p direction w.toInt.natAbs with
          | some s =>
              rw [small] at ran
              rw [← Except.ok.inj ran]
              exact int_denotes (shiftSmall_exact small)
          | none =>
              rw [small] at ran
              simp only at ran
              split at ran
              · cases ran
              · rw [← Except.ok.inj ran]
                exact wide

/-- A shift to the right, and one to the left by no more than the limit, are not
refused. -/
theorem shift_returns
    (x : Number)
    (narrow : leftward left w.toInt ≤ MAX_SHIFT) :
    ∃ r, shift x (.int w) left = .ok r := by
  rw [leftward_eq] at narrow
  have accepted : ¬((if w < 0 then !left else left) = true ∧
      MAX_SHIFT < w.toInt.natAbs) := by
    rintro ⟨direction, far⟩
    rw [direction] at narrow
    unfold leftward at narrow
    rw [if_pos rfl] at narrow
    omega
  simp only [shift, if_neg accepted]
  cases x with
  | bint b => exact ⟨_, rfl⟩
  | int p =>
      simp only
      cases shiftSmall p (if w < 0 then !left else left) w.toInt.natAbs with
      | some s => exact ⟨_, rfl⟩
      | none => exact ⟨_, rfl⟩

theorem compareNumbers_exact
    (xCanonical : x.Canonical)
    (yCanonical : y.Canonical) :
    compareNumbers x y = compare x.toInt y.toInt := by
  have wide := BigInt.cmp_eq_compare xCanonical.asBigint yCanonical.asBigint
  rw [toInt_asBigint, toInt_asBigint] at wide
  cases x with
  | bint b => exact wide
  | int p =>
      cases y with
      | bint b => exact wide
      | int q => rfl

/-! ## Every operator -/

/-- Arithmetic on Integers in their canonical representation is that of the
integers, and so is the representation of every result. -/
theorem operators_exact
    {x y : Number}
    (xCanonical : x.Canonical)
    (yCanonical : y.Canonical) :
    (∀ op, ∃ r, intArith op x y = some r ∧
      r.Denotes (op.exact x.toInt y.toInt)) ∧
    (y.toInt ≠ 0 →
      (∃ q, intDiv x y = some (.ok q) ∧ q.Denotes (x.toInt.fdiv y.toInt)) ∧
      (∃ r, intMod x y = some (.ok r) ∧ r.Denotes (x.toInt.fmod y.toInt)) ∧
      ∃ q r, intDivmod x y = some (.ok (q, r)) ∧
        q.Denotes (x.toInt.fdiv y.toInt) ∧
        r.Denotes (x.toInt.fmod y.toInt)) ∧
    ((intAnd x y).Canonical ∧ ∀ i, (intAnd x y).toInt.testBit i =
      (x.toInt.testBit i && y.toInt.testBit i)) ∧
    ((intOr x y).Canonical ∧ ∀ i, (intOr x y).toInt.testBit i =
      (x.toInt.testBit i || y.toInt.testBit i)) ∧
    ((intXor x y).Canonical ∧ ∀ i, (intXor x y).toInt.testBit i =
      (x.toInt.testBit i ^^ y.toInt.testBit i)) ∧
    (intNot x).Denotes (-x.toInt - 1) ∧
    (∀ left r, shift x y left = .ok r → ∃ w, y = .int w ∧
      r.Denotes (shiftExact x.toInt (leftward left w.toInt))) ∧
    (∀ left w, leftward left (Int64.toInt w) ≤ MAX_SHIFT →
      ∃ r, shift x (.int w) left = .ok r) ∧
    compareNumbers x y = compare x.toInt y.toInt := by
  refine ⟨fun op => intArith_exact op xCanonical yCanonical,
    fun nonzero => ⟨intDiv_exact xCanonical yCanonical nonzero,
      intMod_exact xCanonical yCanonical nonzero,
      intDivmod_exact xCanonical yCanonical nonzero⟩,
    ?_, ?_, ?_, intNot_exact,
    fun left r ran => shift_exact xCanonical ran,
    fun left w narrow => shift_returns x narrow,
    compareNumbers_exact xCanonical yCanonical⟩
  · apply bit_exact testBit_and _ xCanonical yCanonical
    intro p q _ _
    exact ⟨fun i => (BigInt.land_spec p q i).1, (BigInt.land_spec p q 0).2⟩
  · apply bit_exact testBit_or _ xCanonical yCanonical
    intro p q pFormed qFormed
    exact ⟨fun i => (BigInt.lor_spec pFormed qFormed i).1,
      (BigInt.lor_spec pFormed qFormed 0).2⟩
  · apply bit_exact testBit_xor _ xCanonical yCanonical
    intro p q pFormed qFormed
    exact ⟨fun i => (BigInt.lxor_spec pFormed qFormed i).1,
      (BigInt.lxor_spec pFormed qFormed 0).2⟩

theorem operators_exact_at :
    (∃ r, intArith .mul (.int Int64.minValue) (.int (-1)) = some r ∧
      r.Denotes (IntOp.mul.exact (Number.int Int64.minValue).toInt
        (Number.int (-1)).toInt)) ∧
      compareNumbers (.int Int64.minValue) (.int (-1)) =
        compare (Number.int Int64.minValue).toInt (Number.int (-1)).toInt := by
  have spec := operators_exact (x := .int Int64.minValue) (y := .int (-1))
    trivial trivial
  exact ⟨spec.1 .mul, spec.2.2.2.2.2.2.2.2⟩

end SabiRuby.Integer
