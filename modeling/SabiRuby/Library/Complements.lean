import Mathlib.Data.Int.Bitwise
import Mathlib.Data.List.Induction
import Mathlib.Data.Nat.Digits.Lemmas
import Mathlib.Tactic.Linarith
import Mathlib.Tactic.Ring

/-!
# Complements

The bits and the digits of a negative integer, which go on without end.
-/

namespace SabiRuby.Library

/-! ## Two's complement of a finite width

The bits of an integer in two's complement go on without end.  Below a width
they are those of its remainder, and from a width that holds the integer on they
are its sign.
-/

section Binary

/-- The bits below a width are those of the remainder. -/
theorem testBit_toNat_emod
    (number : Int)
    (inside : i < width) :
    (number % 2 ^ width).toNat.testBit i = number.testBit i := by
  cases number with
  | ofNat n =>
      have cast : (Int.ofNat n % 2 ^ width).toNat = n % 2 ^ width := by
        rw [Int.ofNat_eq_natCast]
        exact_mod_cast Int.toNat_natCast (n % 2 ^ width)
      rw [cast, Nat.testBit_mod_two_pow]
      simp [inside, Int.testBit]
  | negSucc n =>
      have below := Nat.mod_lt n (Nat.two_pow_pos width)
      have cast : (Int.negSucc n % 2 ^ width).toNat =
          2 ^ width - (n % 2 ^ width + 1) := by
        rw [Int.negSucc_emod n (Int.pow_pos (by omega))]
        have mod : (n : Int) % 2 ^ width = ((n % 2 ^ width : Nat) : Int) := by
          push_cast
          rfl
        have power : (2 : Int) ^ width = ((2 ^ width : Nat) : Int) := by
          push_cast
          rfl
        rw [mod, power]
        omega
      rw [cast, Nat.testBit_two_pow_sub_succ below, Nat.testBit_mod_two_pow]
      simp [inside, Int.testBit]

/-- The bits from a width on that holds the integer are its sign. -/
theorem testBit_eq_sign
    (low : -2 ^ width ≤ number)
    (high : number < 2 ^ width)
    (outside : width ≤ i) : number.testBit i = decide (number < 0) := by
  have power : 2 ^ width ≤ 2 ^ i := Nat.pow_le_pow_right (by omega) outside
  cases number with
  | ofNat n =>
      have small : n < 2 ^ i := by
        rw [Int.ofNat_eq_natCast] at high
        have : n < 2 ^ width := by exact_mod_cast high
        omega
      have bit : (Int.ofNat n).testBit i = n.testBit i := rfl
      rw [bit, Nat.testBit_lt_two_pow small]
      simp
  | negSucc n =>
      have small : n < 2 ^ i := by
        have : (n : Int) + 1 ≤ 2 ^ width := by
          rw [Int.negSucc_eq] at low
          omega
        have cast : n + 1 ≤ 2 ^ width := by exact_mod_cast this
        omega
      have bit : (Int.negSucc n).testBit i = !n.testBit i := rfl
      rw [bit, Nat.testBit_lt_two_pow small]
      simp [Int.negSucc_lt_zero]

/-- The integer of a word in two's complement. -/
def signedOfWord (width word : Nat) (negative : Bool) : Int :=
  if negative then (word : Int) - 2 ^ width else word

/-- The bits of a word's integer are the word's, and then its sign. -/
theorem testBit_signedOfWord
    (bound : word < 2 ^ width)
    (i : Nat) :
    (signedOfWord width word negative).testBit i =
      if i < width then word.testBit i else negative := by
  have cast : (word : Int) < 2 ^ width := by exact_mod_cast bound
  by_cases inside : i < width
  · rw [if_pos inside, ← testBit_toNat_emod _ inside]
    congr 1
    have rest : signedOfWord width word negative % 2 ^ width = word := by
      unfold signedOfWord
      split
      · rw [Int.sub_emod_right, Int.emod_eq_of_lt (by omega) cast]
      · exact Int.emod_eq_of_lt (by omega) cast
    rw [rest, Int.toNat_natCast]
  · rw [if_neg inside, testBit_eq_sign ?_ ?_ (Nat.not_lt.mp inside)]
    · unfold signedOfWord
      cases negative with
      | false => simp
      | true => simpa using cast
    · unfold signedOfWord
      split <;> omega
    · unfold signedOfWord
      split <;> omega

end Binary

/-! ## Complements in a radix

Every integer has a digit at every position.  Those of a negative integer are
the highest digit from some position on, so finitely many digits with the
highest one repeated before them write exactly one integer.
-/

section Radix

/-- The digit of an integer at a position. -/
def radixDigit (base : Nat) (number : Int) (i : Nat) : Int :=
  number / (base : Int) ^ i % base

/-- The integer whose lowest digits are these, every other being the highest
digit there is. -/
def complementNumeral (base : Nat) (digits : List Nat) : Int :=
  Nat.ofDigits base digits - (base : Int) ^ digits.length

@[simp] theorem complementNumeral_nil (base : Nat) :
    complementNumeral base [] = -1 := by
  simp [complementNumeral]

@[simp] theorem complementNumeral_cons
    (base d : Nat)
    (digits : List Nat) :
    complementNumeral base (d :: digits) =
      d + base * complementNumeral base digits := by
  unfold complementNumeral
  rw [Nat.ofDigits_cons, List.length_cons, pow_succ]
  push_cast
  ring

/-- The highest digit there is may be written once more. -/
theorem complementNumeral_append_top
    (positive : 1 ≤ base)
    (digits : List Nat) :
    complementNumeral base (digits ++ [base - 1]) =
      complementNumeral base digits := by
  induction digits with
  | nil =>
      rw [List.nil_append, complementNumeral_cons, complementNumeral_nil]
      push_cast [positive]
      ring
  | cons d digits ih =>
      rw [List.cons_append, complementNumeral_cons, complementNumeral_cons,
        ih]

theorem radixDigit_zero (base : Nat) (number : Int) :
    radixDigit base number 0 = number % base := by
  simp [radixDigit]

theorem radixDigit_succ (base : Nat) (number : Int) (i : Nat) :
    radixDigit base number (i + 1) = radixDigit base (number / base) i := by
  unfold radixDigit
  rw [pow_succ', Int.ediv_ediv_of_nonneg (by omega)]

/-- The digits of a complement. -/
theorem radixDigit_complementNumeral
    (two : 2 ≤ base)
    (digits : List Nat)
    (small : ∀ d ∈ digits, d < base)
    (i : Nat) :
    radixDigit base (complementNumeral base digits) i =
      ((digits[i]?.getD (base - 1) : Nat) : Int) := by
  induction digits generalizing i with
  | nil =>
      have minusOne : ∀ i, radixDigit base (-1) i = (base : Int) - 1 := by
        intro i
        induction i with
        | zero =>
            rw [radixDigit_zero, Int.emod_eq_iff (by omega)]
            exact ⟨by omega, by omega, 1, by ring⟩
        | succ i ih =>
            have quotient : (-1 : Int) / base = -1 := by
              rw [Int.ediv_eq_iff_of_pos (by omega)]
              omega
            rw [radixDigit_succ, quotient, ih]
      rw [complementNumeral_nil, minusOne]
      simp
      omega
  | cons d digits ih =>
      have digit := small d List.mem_cons_self
      rw [complementNumeral_cons]
      cases i with
      | zero =>
          rw [radixDigit_zero, Int.add_mul_emod_self_left,
            Int.emod_eq_of_lt (by omega) (by omega)]
          rfl
      | succ i =>
          rw [radixDigit_succ, Int.add_mul_ediv_left _ _ (by omega),
            Int.ediv_eq_zero_of_lt (by omega) (by omega), Int.zero_add,
            ih fun other member =>
              small other (List.mem_cons_of_mem _ member)]
          rfl

/-- Integers with the same digits are the same. -/
theorem eq_of_radixDigit_eq
    (two : 2 ≤ base)
    (same : ∀ i, radixDigit base a i = radixDigit base b i) : a = b := by
  have divides : ∀ i, ∀ a b : Int,
      (∀ i, radixDigit base a i = radixDigit base b i) →
        (base : Int) ^ i ∣ a - b := by
    intro i
    induction i with
    | zero =>
        intro a b _
        simp
    | succ i ih =>
        intro a b same
        have lowest := same 0
        rw [radixDigit_zero, radixDigit_zero] at lowest
        obtain ⟨rest, restEq⟩ := ih (a / base) (b / base)
          (by
            intro i
            have next := same (i + 1)
            rwa [radixDigit_succ, radixDigit_succ] at next)
        refine ⟨rest, ?_⟩
        have aParts := Int.mul_ediv_add_emod a base
        have bParts := Int.mul_ediv_add_emod b base
        calc a - b = base * (a / base - b / base) := by linarith
          _ = (base : Int) ^ (i + 1) * rest := by
            rw [restEq, pow_succ]
            ring
  have small : (a - b).natAbs < base ^ (a - b).natAbs :=
    Nat.lt_pow_self (by omega)
  have zero := Int.eq_zero_of_abs_lt_dvd
    (divides (a - b).natAbs a b same) (by
      rw [Int.abs_eq_natAbs]
      exact_mod_cast small)
  omega

/-! ## The leading digit -/

/-- The highest digit of a number that is not zero, and its position. -/
structure LeadingDigit (base number k d : Nat) : Prop where
  positive : 0 < d
  digit : d < base
  le : d * base ^ k ≤ number
  lt : number < (d + 1) * base ^ k

theorem LeadingDigit.pow_le (lead : LeadingDigit base number k d) :
    base ^ k ≤ number :=
  calc base ^ k = 1 * base ^ k := (Nat.one_mul _).symm
    _ ≤ d * base ^ k := Nat.mul_le_mul_right _ lead.positive
    _ ≤ number := lead.le

theorem LeadingDigit.lt_pow (lead : LeadingDigit base number k d) :
    number < base ^ (k + 1) :=
  calc number < (d + 1) * base ^ k := lead.lt
    _ ≤ base * base ^ k := Nat.mul_le_mul_right _ lead.digit
    _ = base ^ (k + 1) := (Nat.pow_succ').symm

/-- A number has one leading digit. -/
theorem LeadingDigit.unique
    (left : LeadingDigit base number k d)
    (right : LeadingDigit base number j e) : k = j ∧ d = e := by
  have two : 1 < base := Nat.lt_of_le_of_lt left.positive left.digit
  have here : k < j + 1 := (Nat.pow_lt_pow_iff_right two).mp
    (Nat.lt_of_le_of_lt left.pow_le right.lt_pow)
  have there : j < k + 1 := (Nat.pow_lt_pow_iff_right two).mp
    (Nat.lt_of_le_of_lt right.pow_le left.lt_pow)
  have position : k = j := by omega
  subst position
  have up : d < e + 1 := Nat.lt_of_mul_lt_mul_right
    (Nat.lt_of_le_of_lt left.le right.lt)
  have down : e < d + 1 := Nat.lt_of_mul_lt_mul_right
    (Nat.lt_of_le_of_lt right.le left.lt)
  exact ⟨rfl, by omega⟩

/-- Digits below a leading one. -/
theorem LeadingDigit.of_digits
    (two : 2 ≤ base)
    (small : ∀ x ∈ low, x < base)
    (positive : 0 < d)
    (digit : d < base) :
    LeadingDigit base (Nat.ofDigits base (low ++ [d])) low.length d := by
  have rest := Nat.ofDigits_lt_base_pow_length two small
  have whole : Nat.ofDigits base (low ++ [d]) =
      Nat.ofDigits base low + d * base ^ low.length := by
    rw [Nat.ofDigits_append, Nat.ofDigits_singleton, Nat.mul_comm]
  refine ⟨positive, digit, ?_, ?_⟩
  · rw [whole]
    exact Nat.le_add_left _ _
  · rw [whole, Nat.add_mul, Nat.one_mul]
    omega

/-- The digits of a number end with its leading one. -/
theorem exists_leadingDigit
    (two : 2 ≤ base)
    (positive : number ≠ 0) :
    ∃ low d, Nat.digits base number = low ++ [d] ∧
      LeadingDigit base number low.length d := by
  have some_ := Nat.digits_ne_nil_iff_ne_zero (b := base) |>.mpr positive
  have last := Nat.getLast_digit_ne_zero base positive
  have small : ∀ x ∈ Nat.digits base number, x < base := fun x member =>
    Nat.digits_lt_base two member
  have back := Nat.ofDigits_digits base number
  rcases List.eq_nil_or_concat (Nat.digits base number) with
    empty | ⟨low, d, split⟩
  · exact absurd empty some_
  · rw [List.concat_eq_append] at split
    refine ⟨low, d, split, ?_⟩
    have nonzero : d ≠ 0 := by
      simpa [split] using last
    rw [split] at small back
    rw [← back]
    exact LeadingDigit.of_digits two
      (fun x member => small x (List.mem_append_left _ member))
      (Nat.pos_of_ne_zero nonzero)
      (small d (List.mem_append_right _ List.mem_cons_self))

/-- A complement below a digit that is not the highest. -/
theorem complementNumeral_append
    (base : Nat)
    (low : List Nat)
    (d : Nat) :
    complementNumeral base (low ++ [d]) =
      Nat.ofDigits base low + ((d : Int) - base) * (base : Int) ^ low.length := by
  unfold complementNumeral
  rw [Nat.ofDigits_append, Nat.ofDigits_singleton, List.length_append,
    List.length_singleton, pow_succ]
  push_cast
  ring

end Radix

end SabiRuby.Library
