import SabiRuby.Integer.Positional

/-!
# Integers as texts, read again

`Integer#to_s` writes a number as the digits of the base behind a sign.  What
`String#to_i` makes of that text, and of any other, is the number by position,
or it is not, by one condition.
-/

namespace SabiRuby.Integer

/-! ## Writing -/

/-- `to_radix` -/
def toRadix (i : Int64) (base : Nat) : List UInt8 :=
  if i = 0 then [48]
  else
    let digits := (Nat.digits base i.toInt.natAbs).map fun d =>
      digitChar (UInt32.ofNat d)
    (if i < 0 then digits ++ [45] else digits).reverse

/-- `int_to_s`; the wide integers divide by a chunk, which may fail. -/
def intToS (self : Number) (base : Int) :
    Option (Except Refusal (List UInt8)) :=
  if ¬(2 ≤ base ∧ base ≤ 36) then some (.error (.invalidRadix base))
  else
    match self with
    | .int i =>
        some (.ok (if base = 10 then display i.toInt
          else toRadix i base.toNat))
    | .bint b =>
        (b.toStringRadix (UInt32.ofNat base.toNat)).map .ok

/-- The digits of a number, the highest first. -/
def writtenDigits (base number : Nat) : List Nat :=
  if number = 0 then [0] else (Nat.digits base number).reverse

/-- The character of a digit, by its value. -/
def digitByte (d : Nat) : UInt8 :=
  digitChar (UInt32.ofNat d)

/-- The text of a number. -/
def writtenText (base : Nat) (n : Int) : List UInt8 :=
  (if n < 0 then [45] else []) ++
    (writtenDigits base n.natAbs).map digitByte

theorem writtenDigits_lt
    (baseBound : 2 ≤ base)
    (number : Nat) : ∀ d ∈ writtenDigits base number, d < base := by
  intro d member
  unfold writtenDigits at member
  by_cases zero : number = 0
  · rw [if_pos zero, List.mem_singleton] at member
    omega
  · rw [if_neg zero, List.mem_reverse] at member
    exact Nat.digits_lt_base (by omega) member

/-- The digits write the number. -/
theorem writes_writtenDigits (base number : Nat) :
    writes base 0 (writtenDigits base number) = number := by
  unfold writtenDigits writes
  by_cases zero : number = 0
  · rw [if_pos zero, zero]
    simp
  · rw [if_neg zero, List.foldl_reverse]
    refine Eq.trans ?_ (Nat.ofDigits_digits base number)
    rw [Nat.ofDigits_eq_foldr]
    congr 1
    funext d acc
    rw [Nat.cast_id, Nat.add_comm, Nat.mul_comm]

theorem numeralText_written
    (small : base < 2 ^ 32)
    (number : Nat) :
    numeralText (UInt32.ofNat base) number =
      (writtenDigits base number).map digitByte := by
  have baseNat : (UInt32.ofNat base).toNat = base := by
    rw [UInt32.toNat_ofNat', Nat.mod_eq_of_lt small]
  unfold numeralText writtenDigits
  rw [baseNat]
  by_cases zero : number = 0
  · rw [if_pos zero, if_pos zero]
    rfl
  · rw [if_neg zero, if_neg zero]
    rfl

theorem display_eq (i : Int) : display i = writtenText 10 i := by
  have text : (decimalDigits i.natAbs).reverse.map digitChar =
      (writtenDigits 10 i.natAbs).map digitByte := by
    unfold decimalDigits writtenDigits
    by_cases zero : i.natAbs = 0
    · rw [if_pos zero, if_pos zero]
      rfl
    · rw [if_neg zero, if_neg zero, ← List.map_reverse, List.map_map]
      rfl
  unfold display signed writtenText
  rw [text]
  by_cases negative : i < 0
  · rw [if_pos (by simpa using negative), if_pos negative]
    rfl
  · rw [if_neg (by simpa using negative), if_neg negative]
    rfl

theorem toRadix_eq
    (i : Int64)
    (base : Nat) : toRadix i base = writtenText base i.toInt := by
  unfold toRadix writtenText writtenDigits
  by_cases zero : i = 0
  · subst zero
    rfl
  · have notZero := mt (toInt_eq_zero_iff i).mp zero
    have sign : (i < 0) = (i.toInt < 0) := by
      simpa using lt_zero_iff i
    rw [if_neg zero, if_neg (mt Int.natAbs_eq_zero.mp notZero)]
    simp only [sign]
    by_cases negative : i.toInt < 0
    · rw [if_pos negative, if_pos negative, List.reverse_append,
        ← List.map_reverse]
      rfl
    · rw [if_neg negative, if_neg negative, ← List.map_reverse]
      rfl

/-- Every representation is written alike. -/
theorem intToS_eq
    (canonical : n.Canonical)
    (baseBound : 2 ≤ base)
    (baseHigh : base ≤ 36) :
    intToS n (base : Nat) = some (.ok (writtenText base n.toInt)) := by
  unfold intToS
  rw [if_neg (by omega)]
  cases n with
  | int i =>
      change some (Except.ok (if (base : Int) = 10 then display i.toInt
        else toRadix i base)) = _
      by_cases decimal : (base : Int) = 10
      · have ten : base = 10 := by omega
        rw [if_pos decimal, display_eq, ten]
        rfl
      · rw [if_neg decimal, toRadix_eq]
        rfl
  | bint b =>
      have baseNat : (UInt32.ofNat base).toNat = base := by
        rw [UInt32.toNat_ofNat', Nat.mod_eq_of_lt (by omega)]
      have written := @BigInt.toStringRadix_eq (UInt32.ofNat base)
        (by omega) b canonical.1
      rw [numeralText_written (by omega)] at written
      change (b.toStringRadix (UInt32.ofNat base)).map Except.ok = _
      rw [written]
      rfl

/-! ## Reading what was written -/

theorem baseDigit_digitByte
    (baseHigh : base ≤ 36)
    (below : d < base) : baseDigit base (digitByte d) = some d := by
  have value : (UInt32.ofNat d).toNat = d := by
    rw [UInt32.toNat_ofNat', Nat.mod_eq_of_lt (by omega)]
  have baseNat : (UInt32.ofNat base).toNat = base := by
    rw [UInt32.toNat_ofNat', Nat.mod_eq_of_lt (by omega)]
  have small : UInt32.ofNat d < UInt32.ofNat base := by
    rw [UInt32.lt_iff_toNat_lt, value, baseNat]
    exact below
  have digit := digitVal_digitChar (d := UInt32.ofNat d) (by omega)
  rw [baseDigit_eq baseHigh, digitByte, digit.2]
  simp [Option.filter, small, value]

theorem runAt_written
    (baseHigh : base ≤ 36)
    (digits : List Nat)
    (below : ∀ d ∈ digits, d < base) :
    runAt base false (digits.map digitByte) = digits ∧
      looseRun base (digits.map digitByte) = digits := by
  induction digits with
  | nil => exact ⟨rfl, rfl⟩
  | cons d digits ih =>
      rw [List.forall_mem_cons] at below
      obtain ⟨strict, loose⟩ := ih below.2
      have found := baseDigit_digitByte baseHigh below.1
      have plain : digitByte d ≠ 95 := by
        intro underscore
        rw [underscore, baseDigit_underscore] at found
        cases found
      constructor
      · rw [List.map_cons, runAt, if_neg (by simp [plain]),
          digitRun_cons _ found, strict]
      · rw [List.map_cons, looseRun_cons _ found, loose]

/-- A digit is neither a blank nor a sign. -/
theorem digit_plain
    (found : baseDigit base c = some d) :
    isSpace c = false ∧ c ≠ 43 ∧ c ≠ 45 := by
  refine ⟨?_, ?_, ?_⟩
  · by_contra blank
    simp only [isSpace, decide_eq_false_iff_not, not_not] at blank
    rcases blank with rfl | rfl | rfl | rfl | rfl | rfl <;> cases found
  · rintro rfl
    cases found
  · rintro rfl
    cases found

/-- Only the number zero begins with a zero. -/
theorem writtenDigits_head (base number : Nat) :
    ∃ d digits, writtenDigits base number = d :: digits ∧
      (d = 0 → digits = []) := by
  unfold writtenDigits
  by_cases zero : number = 0
  · exact ⟨0, [], if_pos zero, fun _ => rfl⟩
  · rw [if_neg zero]
    have nonempty : Nat.digits base number ≠ [] :=
      Nat.digits_ne_nil_iff_ne_zero.mpr zero
    have last := Nat.getLast_digit_ne_zero base zero
    rw [← List.head_reverse (List.reverse_ne_nil_iff.mpr nonempty)] at last
    cases written : (Nat.digits base number).reverse with
    | nil => exact absurd (List.reverse_eq_nil_iff.mp written) nonempty
    | cons d digits =>
        refine ⟨d, digits, rfl, ?_⟩
        intro isZero
        simp only [written, List.head_cons] at last
        exact absurd isZero last

theorem digitByte_eq_zero
    (small : d < 36)
    (zero : digitByte d = 48) : d = 0 := by
  have every : ∀ d : Fin 36, digitByte d = 48 → d = 0 := by decide
  have := every ⟨d, small⟩ zero
  simpa using this

theorem header_written
    (baseBound : 2 ≤ base)
    (baseHigh : base ≤ 36)
    (n : Int) :
    header (writtenText base n) base =
      ⟨n < 0, base, (writtenDigits base n.natAbs).map digitByte⟩ := by
  obtain ⟨d, digits, shape, single⟩ := writtenDigits_head base n.natAbs
  have below := writtenDigits_lt baseBound n.natAbs d (by simp [shape])
  have found := baseDigit_digitByte baseHigh below
  obtain ⟨blank, plus, minus⟩ := digit_plain found
  have body : behindPrefix base ((d :: digits).map digitByte) =
      (d :: digits).map digitByte := by
    by_cases zero : digitByte d = 48
    · rw [single (digitByte_eq_zero (by omega) zero), List.map_cons, zero]
      rfl
    · simp [behindPrefix, zero]
  unfold header writtenText
  rw [shape]
  by_cases negative : n < 0
  · have dash : isSpace 45 = false := by decide
    simp only [negative, if_true, List.cons_append, List.nil_append,
      List.dropWhile_cons, dash, Bool.false_eq_true, if_false, body,
      if_neg (by omega : ¬base = 0), decide_true]
  · rw [List.map_cons] at body
    have notZero : base ≠ 0 := by omega
    simp [negative, blank, plus, minus, body, notZero]

/-- What a written text says is the number. -/
theorem positional_written
    (baseBound : 2 ≤ base)
    (baseHigh : base ≤ 36)
    (n : Int) :
    magnitudeOf (writtenText base n) base = n.natAbs ∧
      positional (writtenText base n) base = n ∧
      looseRun base ((writtenDigits base n.natAbs).map digitByte) =
        digitRun base ((writtenDigits base n.natAbs).map digitByte) := by
  have below := writtenDigits_lt baseBound n.natAbs
  obtain ⟨strict, loose⟩ := runAt_written baseHigh _ below
  have run : digitRun base ((writtenDigits base n.natAbs).map digitByte) =
      writtenDigits base n.natAbs := by
    obtain ⟨d, digits, shape, _⟩ := writtenDigits_head base n.natAbs
    have found := baseDigit_digitByte baseHigh (below d (by simp [shape]))
    have plain : digitByte d ≠ 95 := by
      intro underscore
      rw [underscore, baseDigit_underscore] at found
      cases found
    rw [runAt, if_neg (by simp [shape, plain])] at strict
    exact strict
  have magnitude : magnitudeOf (writtenText base n) base = n.natAbs := by
    unfold magnitudeOf
    rw [header_written baseBound baseHigh]
    simp only
    rw [run, writes_writtenDigits]
  refine ⟨magnitude, ?_, loose.trans run.symm⟩
  unfold positional
  rw [magnitude, header_written baseBound baseHigh]
  by_cases negative : n < 0
  · rw [if_pos (by simpa using negative)]
    omega
  · rw [if_neg (by simpa using negative)]
    omega

/-! ## Conversions by position -/

/-- A text is read as one number, in the one representation the number has; it
is the number the text writes by position exactly under the condition. -/
theorem strToInteger_exactly
    (s : List UInt8)
    (base : Nat)
    (valid : base = 0 ∨ 2 ≤ base ∧ base ≤ 36) :
    ∃ r, strToInteger s base = .ok r ∧ r.Canonical ∧
      (r.toInt = positional s base ↔ ReadByPosition s base) := by
  obtain ⟨reads, radixLow, radixHigh⟩ := strToInteger_eq s base valid
  obtain ⟨canonical, exactly⟩ := readDigits_exactly radixLow radixHigh
    (header s base).body (!(header s base).negative)
  refine ⟨_, reads, canonical, ?_⟩
  rw [Bool.not_not] at exactly
  have wanted : positional s base =
      withSign (header s base).negative (magnitudeOf s base) := rfl
  rw [wanted]
  exact exactly

/-- The conversion of a text is positional, and what a number was written as is
read as that number, unless its digits run past the least machine integer or
past a doubled underscore. -/
theorem conversion_positional
    (base : Nat)
    (valid : base = 0 ∨ 2 ≤ base ∧ base ≤ 36) :
    (∀ s : List UInt8, ∃ r, strToInteger s base = .ok r ∧ r.Canonical ∧
      (r.toInt = positional s base ↔ ReadByPosition s base)) ∧
    ∀ n : Number, n.Canonical → base ≠ 0 →
      ∃ text, intToS n base = some (.ok text) ∧
        positional text base = n.toInt ∧
        (strToInteger text base = .ok n ↔
          n.toInt.natAbs ≤ 2 ^ 63 ∨
            ¬MeetsMinimum (n.toInt < 0) base n.toInt.natAbs) := by
  refine ⟨fun s => strToInteger_exactly s base valid, ?_⟩
  intro n canonical notZero
  obtain ⟨baseBound, baseHigh⟩ := valid.resolve_left notZero
  obtain ⟨magnitude, same, loose⟩ :=
    positional_written baseBound baseHigh n.toInt
  refine ⟨_, intToS_eq canonical baseBound baseHigh, same, ?_⟩
  obtain ⟨r, reads, isCanonical, exactly⟩ := strToInteger_exactly
    (writtenText base n.toInt) base (Or.inr ⟨baseBound, baseHigh⟩)
  rw [same] at exactly
  have condition : ReadByPosition (writtenText base n.toInt) base ↔
      n.toInt.natAbs ≤ 2 ^ 63 ∨
        ¬MeetsMinimum (n.toInt < 0) base n.toInt.natAbs := by
    unfold ReadByPosition
    rw [header_written baseBound baseHigh, magnitude]
    simp only [loose, and_true]
    by_cases met : MeetsMinimum (n.toInt < 0) base n.toInt.natAbs
    · simp only [met, true_and, not_true, or_false]
      omega
    · simp [met]
  rw [reads, ← condition, ← exactly]
  constructor
  · intro equal
    rw [Except.ok.inj equal]
  · intro equal
    rw [isCanonical.eq_of_toInt canonical equal]

/-- "9223372036854775808__1", where the digits end at the doubled underscore. -/
def doubledText : List UInt8 :=
  [57, 50, 50, 51, 51, 55, 50, 48, 51, 54, 56, 53, 52, 55, 55, 53, 56, 48, 56,
    95, 95, 49]

/-- "-92233720368547758080", ten times the least machine integer. -/
def tenfoldText : List UInt8 :=
  [45, 57, 50, 50, 51, 51, 55, 50, 48, 51, 54, 56, 53, 52, 55, 55, 53, 56, 48,
    56, 48]

theorem conversion_not_positional :
    strToInteger doubledText 10 =
        .ok (.bint ⟨false, [1, 0, 5]⟩) ∧
      positional doubledText 10 = 9223372036854775808 ∧
      strToInteger tenfoldText 10 = .ok (.int Int64.minValue) ∧
      positional tenfoldText 10 = -92233720368547758080 := by
  refine ⟨?_, ?_, ?_, ?_⟩ <;> decide

theorem conversion_positional_at :
    (∃ r, strToInteger [45, 49, 95, 50, 95, 95, 51] 10 = .ok r ∧
      r.toInt = positional [45, 49, 95, 50, 95, 95, 51] 10) ∧
    ∃ text, intToS (.int (-12)) 7 = some (.ok text) ∧
      strToInteger text 7 = .ok (.int (-12)) := by
  constructor
  · obtain ⟨r, reads, _, exactly⟩ :=
      (conversion_positional 10 (by decide)).1 [45, 49, 95, 50, 95, 95, 51]
    have small : magnitudeOf [45, 49, 95, 50, 95, 95, 51] 10 < 2 ^ 63 := by
      decide
    exact ⟨r, reads, exactly.mpr (Or.inl small)⟩
  · obtain ⟨text, written, _, again⟩ :=
      (conversion_positional 7 (by decide)).2 (.int (-12)) trivial (by decide)
    exact ⟨text, written, again.mpr (Or.inl (by decide))⟩

end SabiRuby.Integer
