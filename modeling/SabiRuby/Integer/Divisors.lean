import Mathlib.Algebra.GCDMonoid.Nat
import SabiRuby.Integer.PowerMethods

/-!
# Common divisors and multiples

`gcd` and `lcm` have a path for two machine integers, which refuses what does
not fit, and a path through wide ones.
-/

namespace SabiRuby.Integer

open Library Number

namespace BigInt

/-- The loop of `gcd`, with the turns it may take. -/
def gcdLoop : Nat → BigInt → BigInt → Option BigInt
  | 0, _, _ => none
  | turns + 1, a, b =>
      if b.isZero then some a
      else do
        let r ← a.remTrunc b
        gcdLoop turns b r

/-- `gcd`, whose turns are bounded as the remainders decrease. -/
def gcd (self other : BigInt) : Option BigInt :=
  gcdLoop (value other.mag + 1) self.abs other.abs

/-- `lcm`. -/
def lcm (self other : BigInt) : Option BigInt :=
  if self.isZero || other.isZero then some zero
  else do
    let g ← self.gcd other
    let q ← self.abs.divFloor g
    q.mul other.abs

theorem gcdLoop_spec
    {turns : Nat}
    {a b : BigInt}
    (aFormed : a.WellFormed)
    (bFormed : b.WellFormed)
    (aNonneg : 0 ≤ a.toInt)
    (bNonneg : 0 ≤ b.toInt)
    (lt : b.toInt < turns) :
    ∃ g, gcdLoop turns a b = some g ∧ g.WellFormed ∧
      g.toInt = Int.gcd a.toInt b.toInt := by
  induction turns generalizing a b with
  | zero => omega
  | succ turns ih =>
      have zero : b.isZero = true ↔ b.toInt = 0 := by
        rw [bFormed.toInt_eq_zero_iff, isZero, List.isEmpty_iff]
      by_cases none : b.isZero = true
      · refine ⟨a, if_pos none, aFormed, ?_⟩
        rw [zero.mp none, Int.gcd_zero_right]
        omega
      · have nonzero : b.toInt ≠ 0 := fun is => none (zero.mpr is)
        obtain ⟨r, reduces, rValue, rFormed⟩ := remTrunc_spec a bFormed nonzero
        have rNonneg := Int.tmod_nonneg b.toInt aNonneg
        have rLt : a.toInt.tmod b.toInt < b.toInt :=
          Int.tmod_lt_of_pos _ (by omega)
        obtain ⟨g, loops, gFormed, gValue⟩ :=
          ih bFormed rFormed bNonneg (by omega) (by omega)
        refine ⟨g, ?_, gFormed, ?_⟩
        · simp only [gcdLoop, if_neg none, reduces, Option.bind_eq_bind,
            Option.bind_some]
          exact loops
        · rw [gValue, rValue, Int.tmod_eq_emod_of_nonneg aNonneg,
            Int.gcd_comm, Int.gcd_emod]

/-- The greatest common divisor of wide integers. -/
theorem gcd_spec
    {self other : BigInt}
    (formed : self.WellFormed)
    (otherFormed : other.WellFormed) :
    ∃ g, self.gcd other = some g ∧ g.WellFormed ∧
      g.toInt = Int.gcd self.toInt other.toInt := by
  obtain ⟨abs, absFormed⟩ := abs_spec formed
  obtain ⟨otherAbs, otherAbsFormed⟩ := abs_spec otherFormed
  have size := natAbs_toInt other
  obtain ⟨g, loops, gFormed, gValue⟩ := gcdLoop_spec absFormed
    otherAbsFormed (by omega) (by omega)
    (by omega : other.abs.toInt < (value other.mag + 1 : Nat))
  refine ⟨g, loops, gFormed, ?_⟩
  rw [gValue, abs, otherAbs]
  rfl

/-- The least common multiple of wide integers. -/
theorem lcm_spec
    {self other : BigInt}
    (formed : self.WellFormed)
    (otherFormed : other.WellFormed) :
    ∃ l, self.lcm other = some l ∧ l.WellFormed ∧
      l.toInt = Int.lcm self.toInt other.toInt := by
  obtain ⟨abs, absFormed⟩ := abs_spec formed
  obtain ⟨otherAbs, otherAbsFormed⟩ := abs_spec otherFormed
  have selfZero : self.isZero = true ↔ self.toInt = 0 := by
    rw [formed.toInt_eq_zero_iff, isZero, List.isEmpty_iff]
  have otherZero : other.isZero = true ↔ other.toInt = 0 := by
    rw [otherFormed.toInt_eq_zero_iff, isZero, List.isEmpty_iff]
  by_cases none : (self.isZero || other.isZero) = true
  · refine ⟨zero, ?_, wellFormed_zero, ?_⟩
    · rw [lcm, if_pos none]
    · rw [Bool.or_eq_true, selfZero, otherZero] at none
      rcases none with none | none
      · rw [none, Int.zero_lcm]
        rfl
      · rw [none, Int.lcm_zero]
        rfl
  · obtain ⟨g, divides, gFormed, gValue⟩ := gcd_spec formed otherFormed
    have some_ := none
    rw [Bool.or_eq_true, selfZero, otherZero, not_or] at some_
    have positive : 0 < Int.gcd self.toInt other.toInt :=
      Int.gcd_pos_of_ne_zero_left _ some_.1
    obtain ⟨q, r, parts, qValue, -, qFormed, -⟩ :=
      divmodFloor_spec self.abs gFormed.trimmed (by omega)
    have quotient : self.abs.divFloor g = some q := by
      rw [divFloor, parts]
      rfl
    obtain ⟨l, multiplies, lValue, lFormed⟩ := mul_spec q other.abs
    refine ⟨l, ?_, lFormed, ?_⟩
    · simp only [lcm, if_neg none, divides, quotient, Option.bind_eq_bind,
        Option.bind_some]
      exact multiplies
    · rw [lValue, qValue, abs, otherAbs, gValue,
        Int.fdiv_eq_ediv_of_nonneg _ (Int.natCast_nonneg _)]
      rw [← Int.natCast_ediv, ← Int.natCast_mul, Int.lcm,
        Nat.lcm_eq_mul_div, Int.gcd, Nat.div_mul_right_comm (Nat.gcd_dvd_left _ _)]

end BigInt

/-! ## The methods -/

/-- The loop of `gcd_raw`, with the turns it may take. -/
def gcdRawLoop : Nat → UInt64 → UInt64 → Option UInt64
  | 0, _, _ => none
  | turns + 1, ux, uy =>
      if uy = 0 then some ux else gcdRawLoop turns uy (ux % uy)

/-- `gcd_raw`, whose turns are bounded as the remainders decrease. -/
def gcdRaw (x y : Int64) : Option Int64 :=
  let ux := unsignedAbs x
  let uy := unsignedAbs y
  (gcdRawLoop (uy.toNat + 1) ux uy).map UInt64.toInt64

/-- `int_gcd`. -/
def intGcd (x y : Number) : Option Answer :=
  match x, y with
  | .int p, .int q => do
      let g ← gcdRaw p q
      some (if g < 0 then .raises .overflow else .number (.int g))
  | _, _ =>
      (x.asBigint.gcd y.asBigint).map fun g => .number (bintValue g)

/-- The absolute value, `none` where it overflows. -/
def absSigned (p : Int64) : Option Int64 :=
  if p = Int64.minValue then none else some (if p < 0 then -p else p)

/-- The product that `int_lcm` answers, from the absolute values. -/
def lcmOf (g p q : Int64) : Answer :=
  match absSigned p, absSigned q with
  | some p, some q =>
      match mulSigned (p / g) q with
      | some l => .number (.int l)
      | none => .raises .overflow
  | _, _ => .overflows

/-- `int_lcm`. -/
def intLcm (x y : Number) : Option Answer :=
  match x, y with
  | .int p, .int q =>
      if p = 0 ∨ q = 0 then some (.number (.int 0))
      else if p = Int64.minValue ∨ q = Int64.minValue then
        some (.raises .overflow)
      else do
        let g ← gcdRaw p q
        some (lcmOf g p q)
  | _, _ =>
      (x.asBigint.lcm y.asBigint).map fun l => .number (bintValue l)

theorem gcdRawLoop_spec
    {turns : Nat}
    {ux uy : UInt64}
    (lt : uy.toNat < turns) :
    ∃ g, gcdRawLoop turns ux uy = some g ∧
      g.toNat = Nat.gcd ux.toNat uy.toNat := by
  induction turns generalizing ux uy with
  | zero => omega
  | succ turns ih =>
      by_cases none : uy = 0
      · refine ⟨ux, if_pos none, ?_⟩
        subst none
        exact (Nat.gcd_zero_right _).symm
      · have positive : 0 < uy.toNat := by
          apply Nat.pos_of_ne_zero
          intro zero
          exact none (UInt64.toNat_inj.mp zero)
        have below : (ux % uy).toNat < uy.toNat := by
          rw [UInt64.toNat_mod]
          exact Nat.mod_lt _ positive
        obtain ⟨g, loops, value⟩ := @ih uy (ux % uy) (by omega)
        refine ⟨g, ?_, ?_⟩
        · rw [gcdRawLoop, if_neg none]
          exact loops
        · rw [value, UInt64.toNat_mod, Nat.gcd_comm, ← Nat.gcd_rec,
            Nat.gcd_comm]

theorem toNat_unsignedAbs (v : Int64) :
    (unsignedAbs v).toNat = v.toInt.natAbs := by
  have least := v.le_toInt
  have lt := v.toInt_lt
  unfold unsignedAbs
  apply UInt64.toNat_ofNat_of_lt
  change v.toInt.natAbs < 2 ^ 64
  omega

/-- The machine divisor is negative where it does not fit. -/
theorem gcdRaw_spec (p q : Int64) :
    ∃ g, gcdRaw p q = some g ∧
      g.toInt = (Int.gcd p.toInt q.toInt : Int).bmod (2 ^ 64) ∧
      Int.gcd p.toInt q.toInt ≤ 2 ^ 63 := by
  obtain ⟨g, loops, value⟩ := @gcdRawLoop_spec ((unsignedAbs q).toNat + 1)
    (unsignedAbs p) (unsignedAbs q) (Nat.lt_succ_self _)
  rw [toNat_unsignedAbs, toNat_unsignedAbs] at value
  refine ⟨g.toInt64, ?_, ?_, ?_⟩
  · rw [gcdRaw, loops]
    rfl
  · rw [toInt_toInt64, value]
    rfl
  · have pLeast := p.le_toInt
    have pLt := p.toInt_lt
    have qLeast := q.le_toInt
    have qLt := q.toInt_lt
    by_cases zero : p.toInt = 0
    · rw [zero, Int.gcd_zero_left]
      omega
    · have le := Nat.le_of_dvd (Int.natAbs_pos.mpr zero)
        (Int.gcd_dvd_natAbs_left p.toInt q.toInt)
      omega

/-- Every common divisor is answered but for the one that does not fit. -/
theorem intGcd_spec
    (xCanonical : x.Canonical)
    (yCanonical : y.Canonical) :
    (∃ r, intGcd x y = some (.number r) ∧
      r.Denotes (Int.gcd x.toInt y.toInt)) ∨
    (intGcd x y = some (.raises .overflow) ∧ x.isBigint = false ∧
      y.isBigint = false ∧ Int.gcd x.toInt y.toInt = 2 ^ 63) := by
  have wide : ∃ r, (x.asBigint.gcd y.asBigint).map
      (fun g => Answer.number (bintValue g)) = some (.number r) ∧
      r.Denotes (Int.gcd x.toInt y.toInt) := by
    obtain ⟨g, divides, formed, value⟩ :=
      BigInt.gcd_spec xCanonical.asBigint yCanonical.asBigint
    rw [toInt_asBigint, toInt_asBigint] at value
    refine ⟨bintValue g, ?_, ?_⟩
    · rw [divides]
      rfl
    · rw [← value]
      exact bintValue_denotes formed
  cases x with
  | bint _ => exact Or.inl wide
  | int p =>
      cases y with
      | bint _ => exact Or.inl wide
      | int q =>
          obtain ⟨g, divides, value, le⟩ := gcdRaw_spec p q
          have zero : (0 : Int64).toInt = 0 := rfl
          change (∃ r, _ ∧ Number.Denotes r (Int.gcd p.toInt q.toInt)) ∨
            (_ ∧ _ ∧ _ ∧ Int.gcd p.toInt q.toInt = 2 ^ 63)
          rw [intGcd, divides, Option.bind_eq_bind, Option.bind_some]
          by_cases large : Int.gcd p.toInt q.toInt = 2 ^ 63
          · right
            have negative : g < 0 := by
              rw [Int64.lt_iff_toInt_lt, zero, value, large]
              decide
            rw [if_pos negative]
            exact ⟨rfl, rfl, rfl, large⟩
          · left
            rw [bmod_of_small (by omega) (by omega)] at value
            have nonneg : ¬ g < 0 := by
              rw [Int64.lt_iff_toInt_lt, zero]
              omega
            rw [if_neg nonneg]
            exact ⟨.int g, rfl, trivial, value⟩

theorem absSigned_spec
    (ne : p ≠ Int64.minValue) :
    ∃ a, absSigned p = some a ∧ a.toInt = p.toInt.natAbs := by
  have zero : (0 : Int64).toInt = 0 := rfl
  have least := p.le_toInt
  have lt := p.toInt_lt
  have notLeast : p.toInt ≠ -2 ^ 63 := by
    intro is
    apply ne
    rw [← Int64.toInt_inj, is]
    rfl
  refine ⟨_, if_neg ne, ?_⟩
  split
  case isTrue negative =>
    rw [Int64.lt_iff_toInt_lt, zero] at negative
    rw [Int64.toInt_neg, bmod_of_small (by omega) (by omega)]
    omega
  case isFalse nonneg =>
    rw [Int64.lt_iff_toInt_lt, zero] at nonneg
    omega

/-- The machine product of an absolute value over a divisor is the multiple. -/
theorem lcmOf_spec
    {g p q : Int64}
    (pNe : p ≠ Int64.minValue)
    (qNe : q ≠ Int64.minValue)
    (value : g.toInt = Int.gcd p.toInt q.toInt) :
    (∃ l, lcmOf g p q = .number (.int l) ∧
      l.toInt = Int.lcm p.toInt q.toInt) ∨
    (lcmOf g p q = .raises .overflow ∧
      2 ^ 63 ≤ Int.lcm p.toInt q.toInt) := by
  obtain ⟨a, pAbs, aValue⟩ := absSigned_spec pNe
  obtain ⟨b, qAbs, bValue⟩ := absSigned_spec qNe
  have fits : ¬ (a = Int64.minValue ∧ g = -1) := by
    rintro ⟨-, rfl⟩
    rw [toInt_neg_one] at value
    omega
  have product : (a / g).toInt * b.toInt = Int.lcm p.toInt q.toInt := by
    rw [toInt_div fits, aValue, bValue, value,
      Int.tdiv_eq_ediv_of_nonneg (Int.natCast_nonneg _), ← Int.natCast_ediv,
      ← Int.natCast_mul, Int.lcm, Nat.lcm_eq_mul_div, Int.gcd,
      Nat.div_mul_right_comm (Nat.gcd_dvd_left _ _)]
  rw [lcmOf, pAbs, qAbs]
  dsimp only
  by_cases small : Int.lcm p.toInt q.toInt < 2 ^ 63
  · left
    have multiplies : mulSigned (a / g) b = some (a / g * b) :=
      if_pos (by omega)
    rw [multiplies]
    refine ⟨a / g * b, rfl, ?_⟩
    rw [mulSigned_spec multiplies, product]
  · right
    have overflows : mulSigned (a / g) b = none := if_neg (by omega)
    rw [overflows]
    exact ⟨rfl, by omega⟩

/-- Every common multiple is answered but for those that are refused. -/
theorem intLcm_spec
    {x y : Number}
    (xCanonical : x.Canonical)
    (yCanonical : y.Canonical) :
    (∃ r, intLcm x y = some (.number r) ∧
      r.Denotes (Int.lcm x.toInt y.toInt)) ∨
    (intLcm x y = some (.raises .overflow) ∧ x.isBigint = false ∧
      y.isBigint = false ∧ (x = .int Int64.minValue ∨
        y = .int Int64.minValue ∨ 2 ^ 63 ≤ Int.lcm x.toInt y.toInt)) := by
  have wide : ∃ r, (x.asBigint.lcm y.asBigint).map
      (fun l => Answer.number (bintValue l)) = some (.number r) ∧
      r.Denotes (Int.lcm x.toInt y.toInt) := by
    obtain ⟨l, multiple, formed, value⟩ :=
      BigInt.lcm_spec xCanonical.asBigint yCanonical.asBigint
    rw [toInt_asBigint, toInt_asBigint] at value
    refine ⟨bintValue l, ?_, ?_⟩
    · rw [multiple]
      rfl
    · rw [← value]
      exact bintValue_denotes formed
  cases x with
  | bint _ => exact Or.inl wide
  | int p =>
      cases y with
      | bint _ => exact Or.inl wide
      | int q =>
          change (∃ r, _ ∧ Number.Denotes r (Int.lcm p.toInt q.toInt)) ∨
            (_ ∧ _ ∧ _ ∧ (_ ∨ _ ∨ 2 ^ 63 ≤ Int.lcm p.toInt q.toInt))
          rw [intLcm]
          by_cases none : p = 0 ∨ q = 0
          · left
            rw [if_pos none]
            refine ⟨.int 0, rfl, trivial, ?_⟩
            rw [← toInt_eq_zero_iff, ← toInt_eq_zero_iff] at none
            rcases none with none | none
            · rw [none, Int.zero_lcm]
              rfl
            · rw [none, Int.lcm_zero]
              rfl
          · rw [if_neg none]
            by_cases least : p = Int64.minValue ∨ q = Int64.minValue
            · right
              rw [if_pos least]
              refine ⟨rfl, rfl, rfl, ?_⟩
              rcases least with least | least
              · exact Or.inl (congrArg Number.int least)
              · exact Or.inr (Or.inl (congrArg Number.int least))
            · rw [if_neg least]
              rw [not_or] at none least
              obtain ⟨g, divides, value, le⟩ := gcdRaw_spec p q
              have pSome : p.toInt ≠ 0 := by
                rw [Ne, toInt_eq_zero_iff]
                exact none.1
              have below := Nat.le_of_dvd (Int.natAbs_pos.mpr pSome)
                (Int.gcd_dvd_natAbs_left p.toInt q.toInt)
              obtain ⟨a, -, aValue⟩ := absSigned_spec least.1
              have aLt := a.toInt_lt
              rw [bmod_of_small (by omega) (by omega)] at value
              rw [divides, Option.bind_eq_bind, Option.bind_some]
              rcases lcmOf_spec least.1 least.2 value with
                ⟨l, answer, lValue⟩ | ⟨answer, large⟩
              · left
                rw [answer]
                exact ⟨.int l, rfl, trivial, lValue⟩
              · right
                rw [answer]
                exact ⟨rfl, rfl, rfl, Or.inr (Or.inr large)⟩

/-! ## Powers and divisors -/

/-- The Integers of which a modular power is not adjusted as it should be. -/
def MisadjustedNumbers (x e m : Number) : Prop :=
  m.toInt < 0 ∧ ((x.toInt ^ e.toInt.toNat).tmod m.toInt < 0 ∨
    (x.isBigint = false ∧ e.isBigint = false ∧ m = .int Int64.minValue ∧
      (x.toInt ^ e.toInt.toNat).tmod m.toInt ≠ 0))

/-- The paths of a modular power answer the same number. -/
theorem intPowm_eq_bintPowm
    (xCanonical : x.Canonical)
    (eCanonical : e.Canonical)
    (mCanonical : m.Canonical)
    (nonneg : 0 ≤ e.toInt)
    (nonzero : m.toInt ≠ 0)
    (adjusts : ¬ MisadjustedNumbers x e m) :
    intPowm x e m = bintPowm x e m := by
  obtain ⟨r, wide, denotes⟩ :=
    bintPowm_spec xCanonical eCanonical mCanonical nonneg nonzero
  cases x with
  | bint _ => rfl
  | int x =>
      cases e with
      | bint _ => rfl
      | int e =>
          cases m with
          | bint _ => rfl
          | int m =>
              have machine : ¬ Misadjusted x.toInt e.toInt.toNat m.toInt := by
                rintro ⟨negative, below | ⟨least, some_⟩⟩
                · exact adjusts ⟨negative, Or.inl below⟩
                · refine adjusts ⟨negative, Or.inr ⟨rfl, rfl, ?_, some_⟩⟩
                  apply congrArg Number.int
                  rw [← Int64.toInt_inj, least]
                  rfl
              obtain ⟨t, signed, denotes'⟩ :=
                intPowm_int nonneg nonzero machine
              rw [signed, wide, denotes.1.eq_of_toInt denotes'.1
                (denotes.2.trans denotes'.2.symm)]

/-- Powers, modular powers, common divisors and common multiples are exact. -/
theorem powers_and_divisors
    {x e m : Number}
    (xCanonical : x.Canonical)
    (eCanonical : e.Canonical)
    (mCanonical : m.Canonical) :
    (0 ≤ e.toInt →
      ((∃ r, intPow x e = some (.number r) ∧
        r.Denotes (x.toInt ^ e.toInt.toNat)) ∨
      intPow x e = some (.raises .exponentTooLarge) ∨
      intPow x e = some (.raises .outOfRange) ∨
      (x.isBigint = true ∧ e.isBigint = true ∧
        intPow x e = some (.raises .tooBigPower)))) ∧
    (0 ≤ e.toInt → m.toInt ≠ 0 → ¬ MisadjustedNumbers x e m →
      ∃ r, intPowm x e m = some (.number r) ∧
        bintPowm x e m = some (.number r) ∧ r.Canonical ∧
        m.toInt ∣ r.toInt - x.toInt ^ e.toInt.toNat ∧
        r.toInt.natAbs < m.toInt.natAbs) ∧
    ((∃ r, intGcd x m = some (.number r) ∧
      r.Denotes (Int.gcd x.toInt m.toInt)) ∨
      (intGcd x m = some (.raises .overflow) ∧ x.isBigint = false ∧
        m.isBigint = false ∧ Int.gcd x.toInt m.toInt = 2 ^ 63)) ∧
    ((∃ r, intLcm x m = some (.number r) ∧
      r.Denotes (Int.lcm x.toInt m.toInt)) ∨
      (intLcm x m = some (.raises .overflow) ∧ x.isBigint = false ∧
        m.isBigint = false ∧ (x = .int Int64.minValue ∨
          m = .int Int64.minValue ∨
          2 ^ 63 ≤ Int.lcm x.toInt m.toInt))) := by
  refine ⟨?_, ?_, intGcd_spec xCanonical mCanonical,
    intLcm_spec xCanonical mCanonical⟩
  · intro nonneg
    have powers := @intPow_spec x e nonneg
    cases e with
    | bint e =>
        cases x with
        | int x => exact Or.inr (Or.inr (Or.inl powers))
        | bint x => exact Or.inr (Or.inr (Or.inr ⟨rfl, rfl, powers⟩))
    | int e =>
        cases x with
        | int x => exact powers.imp_right fun refuses => Or.inl refuses.1
        | bint x => exact powers.imp_right fun refuses => Or.inl refuses.1
  · intro nonneg nonzero adjusts
    obtain ⟨r, wide, canonical, value⟩ :=
      bintPowm_spec xCanonical eCanonical mCanonical nonneg nonzero
    have same := intPowm_eq_bintPowm xCanonical eCanonical mCanonical nonneg
      nonzero adjusts
    have congruent := modularPower_spec nonzero
      (fun below => adjusts ⟨below.1, Or.inl below.2⟩)
    rw [← value] at congruent
    exact ⟨r, same.trans wide, wide, canonical, congruent⟩

/-- Minus three to the third, modulo five. -/
theorem powers_and_divisors_three :
    intPowm (.int (-3)) (.int 3) (.int 5) =
      bintPowm (.int (-3)) (.int 3) (.int 5) := by
  obtain ⟨r, signed, wide, -⟩ := (@powers_and_divisors (.int (-3)) (.int 3)
    (.int 5) trivial trivial trivial).2.1 (by decide) (by decide)
    (fun adjusts => absurd adjusts.1 (by decide))
  exact signed.trans wide.symm

/-- A wide power of a wide Integer is refused with a TypeError. -/
theorem wide_power_refused :
    ¬ ∀ x e : Number, x.Canonical → e.Canonical → 0 ≤ e.toInt →
      (∃ r, intPow x e = some (.number r) ∧
        r.Denotes (x.toInt ^ e.toInt.toNat)) ∨
      intPow x e = some (.raises .exponentTooLarge) ∨
      intPow x e = some (.raises .outOfRange) := by
  intro powers
  have canonical : (Number.bint ⟨false, [0, 0, 1]⟩).Canonical := by
    refine ⟨⟨by decide, by decide⟩, ?_⟩
    intro fits
    exact absurd fits.2 (by decide)
  rcases powers _ _ canonical canonical (by decide) with
    ⟨r, answer, -⟩ | answer | answer
  · cases answer
  · cases answer
  · cases answer

end SabiRuby.Integer
