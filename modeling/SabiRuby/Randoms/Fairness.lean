import SabiRuby.Library.WholeRounds
import SabiRuby.Randoms.Draws

/-!
# Fair draws

The words that a draw rejects are those before the whole rounds of the span, so
that each value of the span comes from as many accepted words as another.  What
a range answers is in the range, also where the difference of its ends does not
fit a signed word.
-/

namespace SabiRuby.Randoms

open Library

theorem threshold64_toNat {span : UInt64} (pos : 0 < span.toNat) :
    (threshold64 span).toNat = 2 ^ 64 % span.toNat := by
  have lt := span.toNat_lt
  rw [threshold64, UInt64.toNat_mod, UInt64.toNat_sub]
  have zero : (0 : UInt64).toNat = 0 := rfl
  have fits : (2 ^ 64 - span.toNat) % 2 ^ 64 = 2 ^ 64 - span.toNat := by omega
  rw [zero, Nat.add_zero, fits, ← Nat.mod_eq_sub_mod (by omega)]

theorem threshold32_toNat {m : UInt32} (pos : 0 < m.toNat) :
    (threshold32 m).toNat = 2 ^ 32 % m.toNat := by
  have lt := m.toNat_lt
  rw [threshold32, UInt32.toNat_mod, UInt32.toNat_sub]
  have zero : (0 : UInt32).toNat = 0 := rfl
  have fits : (2 ^ 32 - m.toNat) % 2 ^ 32 = 2 ^ 32 - m.toNat := by omega
  rw [zero, Nat.add_zero, fits, ← Nat.mod_eq_sub_mod (by omega)]

/-- The remainder of a bound is less than half of it. -/
theorem mod_lt_half {bound modulus half : Nat}
    (le : modulus ≤ bound)
    (pos : 0 < modulus)
    (double : bound ≤ 2 * half) : bound % modulus < half := by
  have remainder := Nat.mod_lt bound pos
  have quotient : 1 ≤ bound / modulus := (Nat.one_le_div_iff pos).mpr le
  have divide := Nat.mod_add_div bound modulus
  have atLeast : modulus * 1 ≤ modulus * (bound / modulus) :=
    Nat.mul_le_mul_left modulus quotient
  omega

theorem toInt_toInt64 (w : UInt64) :
    w.toInt64.toInt = (w.toNat : Int).bmod (2 ^ 64) := by
  rw [← Int64.toInt_toBitVec, UInt64.toBitVec_toInt64,
    BitVec.toInt_eq_toNat_bmod]
  rfl

theorem toNat_toUInt64 (j : Int64) :
    (j.toUInt64.toNat : Int) = j.toInt % 2 ^ 64 := by
  have word : j.toInt = (j.toUInt64.toNat : Int).bmod (2 ^ 64) := by
    rw [← Int64.toInt_toBitVec, BitVec.toInt_eq_toNat_bmod]
    rfl
  have lt := j.toUInt64.toNat_lt
  have cast : (2 ^ 64 : Int) = ((2 ^ 64 : Nat) : Int) := rfl
  rw [word, cast, Int.bmod_emod]
  omega

/-- A word of less than half the domain as a signed number. -/
theorem toInt_of_small {w : UInt64} (lt : w.toNat < 2 ^ 63) :
    w.toInt64.toInt = w.toNat := by
  rw [toInt_toInt64]
  apply Int.bmod_eq_of_le <;> omega

theorem toNat_of_nonneg {j : Int64} (nonneg : 0 ≤ j.toInt) :
    (j.toUInt64.toNat : Int) = j.toInt := by
  have lt := j.toInt_lt
  rw [toNat_toUInt64]
  omega

theorem toUInt32_of_small {max : Int64}
    (pos : 0 < max.toInt)
    (le : max.toInt ≤ 4294967295) :
    (max.toUInt64.toUInt32.toNat : Int) = max.toInt := by
  have word := toNat_of_nonneg (Int.le_of_lt pos)
  rw [UInt64.toNat_toUInt32]
  omega

section

variable {S : Type} (uint32 : S → UInt32 × S)

theorem uint_toNat (s : S) :
    (uint uint32 s).1.toNat =
      (uint32 s).1.toNat * 2 ^ 32 + (uint32 (uint32 s).2).1.toNat := by
  have high := (uint32 s).1.toNat_lt
  have low := (uint32 (uint32 s).2).1.toNat_lt
  simp only [uint, UInt64.toNat_or, UInt64.toNat_shiftLeft,
    UInt32.toNat_toUInt64]
  have amount : (32 : UInt64).toNat % 64 = 32 := rfl
  rw [amount, Nat.shiftLeft_eq, Nat.mod_eq_of_lt (by omega), Nat.mul_comm,
    ← Nat.two_pow_add_eq_or_of_lt low]

theorem int_of_nonpos
    (turns : Nat)
    {max : Int64}
    (nonpos : max.toInt ≤ 0)
    (s : S) : int uint32 turns max s = some (0, s) := by
  rw [int, if_pos (Int64.le_iff_toInt_le.mpr nonpos)]

theorem int_of_small
    (turns : Nat)
    {max : Int64}
    (pos : 0 < max.toInt)
    (le : max.toInt ≤ 4294967295)
    (s : S) :
    int uint32 turns max s =
      (drawUntil uint32
        (fun r => threshold32 max.toUInt64.toUInt32 ≤ r) turns s).map
        fun (r, s) => ((r % max.toUInt64.toUInt32).toUInt64.toInt64, s) := by
  have limit : (4294967295 : Int64).toInt = 4294967295 := rfl
  have zero : (0 : Int64).toInt = 0 := rfl
  rw [int, if_neg, if_neg]
  · rw [gt_iff_lt, Int64.lt_iff_toInt_lt, limit]
    omega
  · rw [Int64.le_iff_toInt_le, zero]
    omega

theorem int_of_large
    (turns : Nat)
    {max : Int64}
    (large : 4294967295 < max.toInt)
    (s : S) :
    int uint32 turns max s =
      (drawUntil (uint uint32)
        (fun r => threshold64 max.toUInt64 ≤ r) turns s).map
        fun (r, s) => ((r % max.toUInt64).toInt64, s) := by
  have limit : (4294967295 : Int64).toInt = 4294967295 := rfl
  have zero : (0 : Int64).toInt = 0 := rfl
  rw [int, if_neg, if_pos]
  · rw [gt_iff_lt, Int64.lt_iff_toInt_lt, limit]
    exact large
  · rw [Int64.le_iff_toInt_le, zero]
    omega

end

/-- What a word draws below a bound that fits 32 bits. -/
theorem small_value {max : Int64}
    (pos : 0 < max.toInt)
    (le : max.toInt ≤ 4294967295)
    (r : UInt32) :
    (r % max.toUInt64.toUInt32).toUInt64.toInt64.toInt =
      ((r.toNat % max.toInt.toNat : Nat) : Int) := by
  have bound := toUInt32_of_small pos le
  have lt := r.toNat_lt
  have remainder := Nat.mod_le r.toNat max.toUInt64.toUInt32.toNat
  rw [toInt_of_small, UInt32.toNat_toUInt64, UInt32.toNat_mod, ← bound,
    Int.toNat_natCast]
  rw [UInt32.toNat_toUInt64, UInt32.toNat_mod]
  omega

/-- What a word draws below a bound of more than 32 bits. -/
theorem large_value {max : Int64}
    (pos : 0 < max.toInt)
    (r : UInt64) :
    (r % max.toUInt64).toInt64.toInt =
      ((r.toNat % max.toInt.toNat : Nat) : Int) := by
  have bound := toNat_of_nonneg (Int.le_of_lt pos)
  have lt := max.toInt_lt
  have remainder := Nat.mod_lt r.toNat (y := max.toUInt64.toNat) (by omega)
  rw [toInt_of_small, UInt64.toNat_mod, ← bound, Int.toNat_natCast]
  rw [UInt64.toNat_mod]
  omega

variable {turns : Nat}

/-- A draw from a positive bound is a number below it. -/
theorem int_below
    {uint32 : S → UInt32 × S}
    {max : Int64}
    {drawn : Int64 × S}
    (pos : 0 < max.toInt)
    (draws : int uint32 turns max s = some drawn) :
    0 ≤ drawn.1.toInt ∧ drawn.1.toInt < max.toInt := by
  by_cases le : max.toInt ≤ 4294967295
  · rw [int_of_small uint32 turns pos le, Option.map_eq_some_iff] at draws
    obtain ⟨⟨word, rest⟩, -, rfl⟩ := draws
    have remainder := Nat.mod_lt word.toNat (y := max.toInt.toNat) (by omega)
    dsimp only
    rw [small_value pos le word]
    constructor <;> omega
  · rw [int_of_large uint32 turns (by omega), Option.map_eq_some_iff] at draws
    obtain ⟨⟨word, rest⟩, -, rfl⟩ := draws
    have remainder := Nat.mod_lt word.toNat (y := max.toInt.toNat) (by omega)
    dsimp only
    rw [large_value pos word]
    constructor <;> omega

/-- The words of a list, and zeros after its end. -/
def listed : List UInt32 → UInt32 × List UInt32
  | [] => (0, [])
  | word :: words => (word, words)

/-- The words of 32 bits from which `int` draws a value at once. -/
def wordsOfInt (max value : Int64) : Finset Nat :=
  (Finset.range (2 ^ 32)).filter fun r =>
    (int listed 1 max [UInt32.ofNat r]).map Prod.fst = some value

/-- The words of 64 bits from which `int` draws a value at once. -/
def wordsOfLargeInt (max value : Int64) : Finset Nat :=
  (Finset.range (2 ^ 64)).filter fun r =>
    (int listed 1 max [UInt32.ofNat (r / 2 ^ 32), UInt32.ofNat r]).map
      Prod.fst = some value

/-- The words of 64 bits from which `u` draws a value at once. -/
def wordsOfSpan (span value : UInt64) : Finset Nat :=
  (Finset.range (2 ^ 64)).filter fun r =>
    (u listed 1 span [UInt32.ofNat (r / 2 ^ 32), UInt32.ofNat r]).map
      Prod.fst = some value

theorem uint_listed {r : Nat} (lt : r < 2 ^ 64) :
    uint listed [UInt32.ofNat (r / 2 ^ 32), UInt32.ofNat r] =
      (UInt64.ofNat r, []) := by
  apply Prod.ext
  · apply UInt64.toNat_inj.mp
    rw [uint_toNat]
    simp only [listed, UInt32.toNat_ofNat', UInt64.toNat_ofNat']
    omega
  · rfl

theorem drawUntil_once
    (next : S → W × S)
    (accepted : W → Bool)
    (s : S) :
    drawUntil next accepted 1 s =
      if accepted (next s).1 then some (next s) else none := rfl

/-- Every value below a bound of at most 32 bits is drawn from as many accepted
words. -/
theorem wordsOfInt_card
    {max value : Int64}
    (pos : 0 < max.toInt)
    (le : max.toInt ≤ 4294967295)
    (nonneg : 0 ≤ value.toInt)
    (lt : value.toInt < max.toInt) :
    (wordsOfInt max value).card = 2 ^ 32 / max.toInt.toNat := by
  apply accepted_card (by omega : value.toInt.toNat < max.toInt.toNat)
  intro r below
  have bound := toUInt32_of_small pos le
  have modulus : max.toUInt64.toUInt32.toNat = max.toInt.toNat := by omega
  have word : (UInt32.ofNat r).toNat = r := UInt32.toNat_ofNat_of_lt below
  have threshold := threshold32_toNat (m := max.toUInt64.toUInt32) (by omega)
  have drawn := small_value pos le (UInt32.ofNat r)
  rw [int_of_small listed 1 pos le, drawUntil_once]
  simp only [listed, decide_eq_true_eq, UInt32.le_iff_toNat_le, threshold,
    modulus, word]
  rw [word] at drawn
  split
  case isTrue accepted =>
    simp only [Option.map_some, Option.some.injEq, accepted, true_and]
    rw [← Int64.toInt_inj, drawn]
    omega
  case isFalse rejected =>
    constructor
    · intro drawn
      cases drawn
    · rintro ⟨accepted, -⟩
      exact absurd accepted rejected

/-- Every value below a larger bound is drawn from as many accepted words. -/
theorem wordsOfLargeInt_card
    {max value : Int64}
    (large : 4294967295 < max.toInt)
    (nonneg : 0 ≤ value.toInt)
    (lt : value.toInt < max.toInt) :
    (wordsOfLargeInt max value).card = 2 ^ 64 / max.toInt.toNat := by
  apply accepted_card (by omega : value.toInt.toNat < max.toInt.toNat)
  intro r below
  have bound := toNat_of_nonneg (j := max) (by omega)
  have modulus : max.toUInt64.toNat = max.toInt.toNat := by omega
  have word : (UInt64.ofNat r).toNat = r := UInt64.toNat_ofNat_of_lt below
  have threshold := @threshold64_toNat max.toUInt64 (by omega)
  have drawn := @large_value max (by omega) (UInt64.ofNat r)
  rw [int_of_large listed 1 large, drawUntil_once, uint_listed below]
  simp only [decide_eq_true_eq, UInt64.le_iff_toNat_le, threshold, modulus,
    word]
  rw [word] at drawn
  split
  case isTrue accepted =>
    simp only [Option.map_some, Option.some.injEq, accepted, true_and]
    rw [← Int64.toInt_inj, drawn]
    omega
  case isFalse rejected =>
    constructor
    · intro drawn
      cases drawn
    · rintro ⟨accepted, -⟩
      exact absurd accepted rejected

/-- Every value of a span is drawn from as many accepted words, every word of
the whole domain from one. -/
theorem wordsOfSpan_card
    (of_span : span = 0 ∨ value < span) :
    (wordsOfSpan span value).card =
      if span = 0 then 1 else 2 ^ 64 / span.toNat := by
  by_cases whole : span = 0
  · rw [if_pos whole]
    have one : 2 ^ 64 / 2 ^ 64 = 1 := rfl
    rw [← one]
    apply accepted_card value.toNat_lt
    intro r below
    rw [u, if_pos whole, uint_listed below, Option.map_some]
    simp only [Option.some.injEq, ← UInt64.toNat_inj, UInt64.toNat_ofNat',
      Nat.mod_self, Nat.zero_le, true_and]
  · have lt := UInt64.lt_iff_toNat_lt.mp (of_span.resolve_left whole)
    rw [if_neg whole]
    apply accepted_card lt
    intro r below
    have word : (UInt64.ofNat r).toNat = r := UInt64.toNat_ofNat_of_lt below
    have threshold := @threshold64_toNat span (by omega)
    rw [u, if_neg whole, drawUntil_once, uint_listed below]
    simp only [decide_eq_true_eq, UInt64.le_iff_toNat_le, threshold, word]
    split
    case isTrue accepted =>
      simp only [Option.map_some, Option.some.injEq, accepted, true_and,
        ← UInt64.toNat_inj, UInt64.toNat_mod, word]
    case isFalse rejected =>
      constructor
      · intro drawn
        cases drawn
      · rintro ⟨accepted, -⟩
        exact absurd accepted rejected

/-- A draw of a span is one of its values. -/
theorem u_below
    {uint32 : S → UInt32 × S}
    {drawn : UInt64 × S}
    (draws : u uint32 turns span s = some drawn) :
    span = 0 ∨ drawn.1 < span := by
  by_cases whole : span = 0
  · exact Or.inl whole
  · right
    rw [u, if_neg whole, Option.map_eq_some_iff] at draws
    obtain ⟨⟨word, rest⟩, -, rfl⟩ := draws
    apply UInt64.mod_lt
    rw [UInt64.lt_iff_toNat_lt]
    have zero : (0 : UInt64).toNat = 0 := rfl
    have ne : span.toNat ≠ 0 := by
      intro none
      exact whole (UInt64.toNat_inj.mp none)
    omega

/-- The range has no integer. -/
def EmptyRange (begin_ end_ : Int64) (excl : Bool) : Prop :=
  ¬ ∃ value : Int64,
    begin_ ≤ value ∧ if excl then value < end_ else value ≤ end_

theorem emptyRange_iff (begin_ end_ : Int64) (excl : Bool) :
    EmptyRange begin_ end_ excl ↔
      begin_ > end_ ∨ (excl = true ∧ begin_ = end_) := by
  simp only [EmptyRange, gt_iff_lt, Int64.le_iff_toInt_le,
    Int64.lt_iff_toInt_lt, ← Int64.toInt_inj]
  constructor
  · intro none
    by_contra some_
    apply none
    refine ⟨begin_, Int.le_refl _, ?_⟩
    cases excl with
    | false =>
        simp only [Bool.false_eq_true, if_false]
        omega
    | true =>
        simp only [true_and] at some_
        simp only [if_true]
        omega
  · rintro (above | ⟨rfl, equal⟩) ⟨value, le, inside⟩
    · cases excl with
      | false =>
          simp only [Bool.false_eq_true, if_false] at inside
          omega
      | true =>
          simp only [if_true] at inside
          omega
    · simp only [if_true] at inside
      omega

/-- A span of signed ends, as a number, of which zero stands for the whole
domain. -/
theorem span_toNat
    {begin_ end_ : Int64}
    {excl : Bool} :
    ((end_.toUInt64 - begin_.toUInt64 + if excl then 0 else 1).toNat : Int) =
      (end_.toInt - begin_.toInt + if excl then 0 else 1) % 2 ^ 64 := by
  have from_ := toNat_toUInt64 begin_
  have to_ := toNat_toUInt64 end_
  have above := end_.toInt_lt
  have below := begin_.le_toInt
  have zero : (0 : UInt64).toNat = 0 := rfl
  have one : (1 : UInt64).toNat = 1 := rfl
  cases excl with
  | false =>
      simp only [Bool.false_eq_true, if_false, UInt64.toNat_add,
        UInt64.toNat_sub, one]
      omega
  | true =>
      simp only [if_true, UInt64.toNat_add, UInt64.toNat_sub, zero]
      omega

/-- The integer at a distance from the beginning, where it is signed. -/
theorem toInt_of_distance
    {begin_ : Int64}
    (lt : begin_.toInt + r.toNat < 2 ^ 63) :
    (begin_.toUInt64 + r).toInt64.toInt = begin_.toInt + r.toNat := by
  have from_ := toNat_toUInt64 begin_
  have below := begin_.le_toInt
  rw [toInt_toInt64, Int.bmod_def, UInt64.toNat_add]
  split <;> omega

/-- What `rand_range_int` answers: nil for an empty range, else an integer of
the range. -/
theorem randRangeInt_inside
    {S : Type}
    {uint32 : S → UInt32 × S}
    {begin_ end_ : Int64}
    {s : S}
    {drawn : Option Int64 × S}
    (draws : randRangeInt uint32 turns begin_ end_ excl s = some drawn) :
    (drawn.1 = none ↔ EmptyRange begin_ end_ excl) ∧
      ∀ value, drawn.1 = some value →
        begin_ ≤ value ∧ if excl then value < end_ else value ≤ end_ := by
  rw [emptyRange_iff]
  by_cases empty : begin_ > end_ ∨ (excl = true ∧ begin_ = end_)
  · rw [randRangeInt, if_pos empty] at draws
    cases draws
    simp [empty]
  · rw [randRangeInt, if_neg empty, Option.map_eq_some_iff] at draws
    obtain ⟨⟨r, rest⟩, drew, rfl⟩ := draws
    have below := u_below drew
    dsimp only at below
    refine ⟨by simp [empty], ?_⟩
    rintro value ⟨⟩
    have le : begin_.toInt ≤ end_.toInt := by
      by_contra above
      exact empty (Or.inl (Int64.lt_iff_toInt_lt.mpr (by omega)))
    have above := end_.toInt_lt
    have least := begin_.le_toInt
    have some_ : (1 : Int) ≤
        end_.toInt - begin_.toInt + if excl then 0 else 1 := by
      cases excl with
      | false =>
          simp only [Bool.false_eq_true, if_false]
          omega
      | true =>
          have ne : begin_.toInt ≠ end_.toInt := by
            intro equal
            exact empty (Or.inr ⟨rfl, Int64.toInt_inj.mp equal⟩)
          simp only [if_true]
          omega
    have lt : (r.toNat : Int) <
        end_.toInt - begin_.toInt + if excl then 0 else 1 := by
      have span := @span_toNat begin_ end_ excl
      have word := r.toNat_lt
      have zero : (0 : UInt64).toNat = 0 := rfl
      have atMost : (if excl then (0 : Int) else 1) ≤ 1 := by
        split <;> omega
      rcases below with whole | below
      · rw [whole, zero] at span
        omega
      · rw [UInt64.lt_iff_toNat_lt] at below
        omega
    have value : (begin_.toUInt64 + r).toInt64.toInt =
        begin_.toInt + r.toNat := by
      apply toInt_of_distance
      split at lt <;> omega
    rw [Int64.le_iff_toInt_le, value]
    refine ⟨by omega, ?_⟩
    cases excl with
    | false =>
        simp only [Bool.false_eq_true, if_false] at lt ⊢
        rw [Int64.le_iff_toInt_le, value]
        omega
    | true =>
        simp only [if_true] at lt ⊢
        rw [Int64.lt_iff_toInt_lt, value]
        omega

end SabiRuby.Randoms
