import SabiRuby.Integer.Quotients

/-!
# Arithmetic of big integers

Sums, products and quotients of big integers stand for those of the integers,
and every result is trimmed and has no signed zero.
-/

namespace SabiRuby.Integer

namespace BigInt

/-! ## Sums and products -/

theorem wellFormed_zero : zero.WellFormed where
  trimmed := trimmed_nil
  unsigned := fun _ => rfl

@[simp] theorem toInt_zero : zero.toInt = 0 := rfl

theorem WellFormed.toInt_eq_zero_iff
    {self : BigInt}
    (formed : self.WellFormed) : self.toInt = 0 ↔ self.mag = [] := by
  rw [← Int.natAbs_eq_zero, natAbs_toInt, value_eq_zero_iff formed.trimmed]

theorem wellFormed_negated (self : BigInt) : self.negated.WellFormed :=
  wellFormed_make _ _

theorem toInt_negated (self : BigInt) : self.negated.toInt = -self.toInt := by
  unfold negated
  rw [toInt_make]
  unfold toInt
  cases self.neg <;> simp

theorem add_spec
    {a b : BigInt}
    (aTrimmed : Trimmed a.mag)
    (bTrimmed : Trimmed b.mag) :
    (a.add b).toInt = a.toInt + b.toInt ∧ (a.add b).WellFormed := by
  unfold add
  by_cases sameSign : a.neg = b.neg
  · rw [if_pos sameSign]
    refine ⟨?_, wellFormed_make _ _⟩
    rw [toInt_make, value_uadd]
    unfold toInt
    rw [← sameSign]
    cases a.neg with
    | false =>
        simp only [Bool.false_eq_true, if_false]
        push_cast
        rfl
    | true =>
        simp only [if_true]
        push_cast
        ring
  · rw [if_neg sameSign, ucmp_eq aTrimmed bTrimmed]
    have opposite : b.neg = !a.neg := by
      cases aSign : a.neg <;> cases bSign : b.neg <;> simp_all
    unfold toInt
    rw [opposite]
    rcases Nat.lt_trichotomy (value a.mag) (value b.mag) with
      less | same | greater
    · rw [Nat.compare_eq_lt.mpr less]
      refine ⟨?_, wellFormed_make _ _⟩
      dsimp only
      change (make (!a.neg) (usub b.mag a.mag)).toInt = _
      rw [toInt_make, value_usub (Nat.le_of_lt less)]
      cases a.neg <;> simp <;> omega
    · rw [Nat.compare_eq_eq.mpr same]
      refine ⟨?_, wellFormed_zero⟩
      cases a.neg <;> simp [zero, same]
    · rw [Nat.compare_eq_gt.mpr greater]
      refine ⟨?_, wellFormed_make _ _⟩
      dsimp only
      change (make a.neg (usub a.mag b.mag)).toInt = _
      rw [toInt_make, value_usub (Nat.le_of_lt greater)]
      cases a.neg <;> simp <;> omega

theorem sub_spec
    {a b : BigInt}
    (aTrimmed : Trimmed a.mag) :
    (a.sub b).toInt = a.toInt - b.toInt ∧ (a.sub b).WellFormed := by
  obtain ⟨sum, formed⟩ :=
    add_spec aTrimmed (wellFormed_negated b).trimmed
  refine ⟨?_, formed⟩
  unfold sub
  rw [sum, toInt_negated]
  ring

theorem mul_spec (a b : BigInt) :
    ∃ product, a.mul b = some product ∧
      product.toInt = a.toInt * b.toInt ∧ product.WellFormed := by
  obtain ⟨mag, ran, magValue⟩ := umul_spec a.mag b.mag
  refine ⟨make (a.neg != b.neg) mag, ?_, ?_, wellFormed_make _ _⟩
  · rw [mul, ran, Option.map_some]
  · rw [toInt_make, magValue]
    unfold toInt
    cases a.neg <;> cases b.neg <;> simp

/-! ## Quotients -/

/-- The quotient toward zero. -/
theorem divmodTrunc_spec
    (x : BigInt)
    (trimmed : Trimmed y.mag)
    (nonzero : y.toInt ≠ 0) :
    ∃ q r, x.divmodTrunc y = some (q, r) ∧
      q.toInt = x.toInt.tdiv y.toInt ∧ r.toInt = x.toInt.tmod y.toInt ∧
      q.WellFormed ∧ r.WellFormed := by
  have nonempty : y.mag ≠ [] := by
    intro empty
    refine nonzero ?_
    rw [← Int.natAbs_eq_zero, natAbs_toInt, empty, value_nil]
  obtain ⟨q, r, ran, _, _, _, _, whole, below⟩ :=
    udivmod_spec trimmed nonempty (a := x.mag)
  obtain ⟨quotient, remainder⟩ :=
    (Nat.div_mod_unique (Nat.zero_lt_of_lt below)).mpr
      ⟨(by rw [Nat.mul_comm] at whole; omega :
        value r + value y.mag * value q = value x.mag), below⟩
  refine ⟨make (x.neg != y.neg) q, make x.neg r, ?_, ?_, ?_,
    wellFormed_make _ _, wellFormed_make _ _⟩
  · simp only [divmodTrunc, ran, Option.bind_eq_bind, Option.bind_some]
  · rw [toInt_make, ← quotient]
    unfold toInt
    cases x.neg <;> cases y.neg <;> simp
  · rw [toInt_make, ← remainder]
    unfold toInt
    cases x.neg <;> cases y.neg <;>
      simp [Int.tmod_eq_emod_of_nonneg]

/-- The quotient downward. -/
theorem divmodFloor_spec
    (x : BigInt)
    {y : BigInt}
    (trimmed : Trimmed y.mag)
    (nonzero : y.toInt ≠ 0) :
    ∃ q r, x.divmodFloor y = some (q, r) ∧
      q.toInt = x.toInt.fdiv y.toInt ∧ r.toInt = x.toInt.fmod y.toInt ∧
      q.WellFormed ∧ r.WellFormed := by
  obtain ⟨q, r, ran, quotient, remainder, qFormed, rFormed⟩ :=
    divmodTrunc_spec x trimmed nonzero
  have whole := Int.tmod_add_mul_tdiv x.toInt y.toInt
  have size : (x.toInt.tmod y.toInt).natAbs < y.toInt.natAbs := by
    rw [Int.natAbs_tmod]
    exact Nat.mod_lt _ (Int.natAbs_pos.mpr nonzero)
  have nonnegative : x.neg = false → 0 ≤ x.toInt.tmod y.toInt := by
    intro positive
    refine Int.tmod_nonneg _ ?_
    simp [toInt, positive]
  have nonpositive : x.neg = true → x.toInt.tmod y.toInt ≤ 0 := by
    intro negative
    have opposite := Int.neg_tmod (-x.toInt) y.toInt
    have := Int.tmod_nonneg y.toInt (show 0 ≤ -x.toInt by
      simp [toInt, negative])
    rw [Int.neg_neg] at opposite
    omega
  have zero : r.isZero = true ↔ r.toInt = 0 := by
    rw [rFormed.toInt_eq_zero_iff, isZero, List.isEmpty_iff]
  have one : (fromI64 1).toInt = 1 := toInt_fromI64 1
  have ySign : y.toInt = if y.neg then -(value y.mag : Int)
      else value y.mag := rfl
  obtain ⟨lower, lowerFormed⟩ :=
    sub_spec (b := fromI64 1) qFormed.trimmed
  obtain ⟨raised, raisedFormed⟩ := add_spec rFormed.trimmed trimmed
  have unique : ∀ quotient_ remainder_ : Int,
      remainder_ + y.toInt * quotient_ = x.toInt →
      (y.neg = false → 0 ≤ remainder_ ∧ remainder_ < y.toInt) →
      (y.neg = true → y.toInt < remainder_ ∧ remainder_ ≤ 0) →
      quotient_ = x.toInt.fdiv y.toInt ∧
        remainder_ = x.toInt.fmod y.toInt := by
    intro quotient_ remainder_ divided above below
    cases sign : y.neg with
    | false =>
        rw [sign] at ySign
        simp only [Bool.false_eq_true, if_false] at ySign
        have := (Int.fdiv_fmod_unique (by omega)).mpr ⟨divided, above sign⟩
        exact ⟨this.1.symm, this.2.symm⟩
    | true =>
        rw [sign] at ySign
        simp only [if_true] at ySign
        have := (Int.fdiv_fmod_unique' (by omega)).mpr ⟨divided, below sign⟩
        exact ⟨this.1.symm, this.2.symm⟩
  unfold divmodFloor
  simp only [ran, Option.bind_eq_bind, Option.bind_some]
  by_cases kept : (r.isZero || x.neg == y.neg) = true
  · rw [if_pos kept]
    rw [Bool.or_eq_true, beq_iff_eq, zero] at kept
    obtain ⟨quotientEq, remainderEq⟩ := unique q.toInt r.toInt
      (by rw [quotient, remainder]; exact whole)
      (by
        intro sign
        rw [sign] at ySign kept
        simp only [Bool.false_eq_true, if_false] at ySign
        rcases kept with none | same
        · omega
        · have := nonnegative same
          omega)
      (by
        intro sign
        rw [sign] at ySign kept
        simp only [if_true] at ySign
        rcases kept with none | same
        · omega
        · have := nonpositive same
          omega)
    exact ⟨q, r, rfl, quotientEq, remainderEq, qFormed, rFormed⟩
  · rw [if_neg kept]
    rw [Bool.or_eq_true, beq_iff_eq, zero, not_or] at kept
    obtain ⟨some_, opposite⟩ := kept
    obtain ⟨quotientEq, remainderEq⟩ := unique
      (q.sub (fromI64 1)).toInt (r.add y).toInt
      (by
        rw [lower, raised, one, quotient, remainder]
        refine Eq.trans ?_ whole
        ring)
      (by
        intro sign
        rw [sign] at ySign opposite
        simp only [Bool.false_eq_true, if_false] at ySign
        have := nonpositive (by simpa using opposite)
        omega)
      (by
        intro sign
        rw [sign] at ySign opposite
        simp only [if_true] at ySign
        have := nonnegative (by simpa using opposite)
        omega)
    exact ⟨_, _, rfl, quotientEq, remainderEq, lowerFormed, raisedFormed⟩

end BigInt

/-- Long division is the division of the integers.  The remainder is trimmed
unless the dividend is not and is handed back as it is.  The division that
checks its words comes to the same result. -/
theorem long_division :
    (∀ a b : List UInt32, Trimmed b → b ≠ [] →
      ∃ q r, udivmod a b = some (q, r) ∧ udivmodChecked a b = some (q, r) ∧
        Trimmed q ∧ (Trimmed r ↔ Trimmed a ∨ ucmp a b ≠ .lt) ∧
        value a = value q * value b + value r ∧ value r < value b) ∧
    ∀ x y : BigInt, Trimmed y.mag → y.toInt ≠ 0 →
      (∃ q r, x.divmodTrunc y = some (q, r) ∧
        q.toInt = x.toInt.tdiv y.toInt ∧ r.toInt = x.toInt.tmod y.toInt ∧
        q.WellFormed ∧ r.WellFormed) ∧
      ∃ q r, x.divmodFloor y = some (q, r) ∧
        q.toInt = x.toInt.fdiv y.toInt ∧ r.toInt = x.toInt.fmod y.toInt ∧
        q.WellFormed ∧ r.WellFormed := by
  constructor
  · intro a b bTrimmed nonempty
    obtain ⟨q, r, ran, ranChecked, qTrimmed, same, trimmed, whole, below⟩ :=
      udivmod_spec bTrimmed nonempty (a := a)
    refine ⟨q, r, ran, ranChecked, qTrimmed, ?_, whole, below⟩
    by_cases less : ucmp a b = .lt
    · rw [same less]
      simp [less]
    · simp [less, trimmed less]
  · intro x y trimmed nonzero
    exact ⟨BigInt.divmodTrunc_spec x trimmed nonzero,
      BigInt.divmodFloor_spec x trimmed nonzero⟩

theorem long_division_at :
    Trimmed [5, 7] ∧ BigInt.toInt ⟨true, [5, 7]⟩ ≠ 0 ∧
      (∃ q r, udivmod [1, 2, 3] [5, 7] = some (q, r) ∧
        value [1, 2, 3] = value q * value [5, 7] + value r) ∧
      ∃ q r, BigInt.divmodFloor ⟨false, [1, 2, 3]⟩ ⟨true, [5, 7]⟩ =
          some (q, r) ∧
        q.toInt = (BigInt.toInt ⟨false, [1, 2, 3]⟩).fdiv
          (BigInt.toInt ⟨true, [5, 7]⟩) := by
  have trimmed : Trimmed [5, 7] := by decide
  have nonzero : BigInt.toInt ⟨true, [5, 7]⟩ ≠ 0 := by decide
  obtain ⟨magnitudes, integers⟩ := long_division
  obtain ⟨q, r, ran, _, _, _, whole, _⟩ :=
    magnitudes [1, 2, 3] [5, 7] trimmed (by decide)
  obtain ⟨_, quotient, remainder, floored, value_, _⟩ :=
    integers ⟨false, [1, 2, 3]⟩ ⟨true, [5, 7]⟩ trimmed nonzero
  exact ⟨trimmed, nonzero, ⟨q, r, ran, whole⟩,
    ⟨quotient, remainder, floored, value_⟩⟩

/-- A smaller dividend with a zero limb at its end is handed back with it. -/
theorem untrimmed_remainder :
    Trimmed [5, 7] ∧ udivmod [1, 0] [5, 7] = some ([], [1, 0]) ∧
      ¬Trimmed [1, 0] := by
  decide

end SabiRuby.Integer
