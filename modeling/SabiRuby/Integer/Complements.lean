import SabiRuby.Integer.Formats

/-!
# Negative integers in a format

The digits behind the two dots are those of an integer.  It is the one that was
to be written unless the digits were taken for the sign: a first octal digit 1 or
3 of a machine integer, and the zeros a complement of limbs begins with.
-/

namespace SabiRuby.Integer

open Library

/-! ## Digits as text -/

/-- The characters of digits, the digits lowest first. -/
def digitText (digits : List Nat) : List UInt8 :=
  digits.reverse.map fun d => digitChar (UInt32.ofNat d)

theorem numeralText_eq
    (base : UInt32)
    (positive : number ≠ 0) :
    numeralText base number = digitText (Nat.digits base.toNat number) :=
  if_neg positive

theorem digitText_append (low : List Nat) (high : Nat) :
    digitText (low ++ [high]) =
      digitChar (UInt32.ofNat high) :: digitText low := by
  simp [digitText]

theorem digitChar_injective
    (left : a < 36)
    (right : b < 36)
    (same : digitChar (UInt32.ofNat a) = digitChar (UInt32.ofNat b)) :
    a = b := by
  have every : ∀ a b : Fin 36,
      digitChar (UInt32.ofNat a) = digitChar (UInt32.ofNat b) → a = b := by
    decide
  exact congrArg Fin.val (every ⟨a, left⟩ ⟨b, right⟩ same)

theorem digitText_dropWhile
    (small : ∀ d ∈ digits, d < 36)
    (topSmall : top < 36) :
    (digitText digits).dropWhile (· == digitChar (UInt32.ofNat top)) =
      digitText (digits.rdropWhile (· == top)) := by
  unfold digitText List.rdropWhile
  rw [List.reverse_reverse, List.dropWhile_map]
  congr 1
  have reversed : ∀ d ∈ digits.reverse, d < 36 := fun d member =>
    small d (List.mem_reverse.mp member)
  generalize digits.reverse = rest at reversed
  induction rest with
  | nil => rfl
  | cons d rest ih =>
      have first := reversed d List.mem_cons_self
      have others := ih fun other member =>
        reversed other (List.mem_cons_of_mem _ member)
      by_cases same : d = top
      · rw [List.dropWhile_cons_of_pos (by simp [same]),
          List.dropWhile_cons_of_pos (by simp [same]), others]
      · have differ : digitChar (UInt32.ofNat d) ≠
            digitChar (UInt32.ofNat top) := fun equal =>
          same (digitChar_injective first topSmall equal)
        rw [List.dropWhile_cons_of_neg (by simpa using differ),
          List.dropWhile_cons_of_neg (by simpa using same)]

/-- Highest digits before a complement are not needed. -/
theorem complementNumeral_rdropWhile
    (positive : 1 ≤ base)
    (digits : List Nat) :
    complementNumeral base (digits.rdropWhile (· == base - 1)) =
      complementNumeral base digits := by
  induction digits using List.reverseRecOn with
  | nil => rfl
  | append_singleton digits d ih =>
      by_cases top : d = base - 1
      · rw [List.rdropWhile_concat_pos _ _ _ (by simpa using top),
          ih, top, complementNumeral_append_top positive]
      · rw [List.rdropWhile_concat_neg _ _ _ (by simpa using top)]

theorem getLast?_rdropWhile_ne (digits : List Nat) (top : Nat) :
    (digits.rdropWhile (· == top)).getLast? ≠ some top := by
  induction digits using List.reverseRecOn with
  | nil => simp
  | append_singleton digits d ih =>
      by_cases same : d = top
      · rw [List.rdropWhile_concat_pos _ _ _ (by simpa using same)]
        exact ih
      · rw [List.rdropWhile_concat_neg _ _ _ (by simpa using same)]
        simpa using same

theorem mem_of_mem_rdropWhile
    {digits : List Nat}
    (member : d ∈ digits.rdropWhile p) : d ∈ digits :=
  List.IsPrefix.subset (List.rdropWhile_prefix p digits) member

/-! ## What a text denotes -/

/-- Behind the two dots stand digits whose first one repeats without end, and
they are those of the integer. -/
def Denotes (base : UInt32) (text : List UInt8) (number : Int) : Prop :=
  ∃ body digits, text.dropWhile (· != 46) = 46 :: 46 :: body ∧
    body.reverse.map digitVal = digits.map some ∧ Digits base digits ∧
    digits ≠ [] ∧
    ∀ i, radixDigit base.toNat number i =
      ((digits[i]?.getD (digits.getLastD 0)).toNat : Int)

/-- A text denotes one integer at most. -/
theorem Denotes.unique
    (two : 2 ≤ base.toNat)
    (left : Denotes base text a)
    (right : Denotes base text b) : a = b := by
  obtain ⟨body, digits, split, read, _, _, leftDigits⟩ := left
  obtain ⟨body', digits', split', read', _, _, rightDigits⟩ := right
  rw [split] at split'
  have sameBody : body = body' := by simpa using split'
  rw [sameBody, read'] at read
  have sameDigits : digits' = digits :=
    List.map_injective_iff.mpr (fun _ _ => Option.some.inj) read
  refine eq_of_radixDigit_eq two fun i => ?_
  rw [leftDigits, rightDigits, sameDigits]

/-- The highest digit, and digits behind it. -/
theorem denotes_complement
    (two : 2 ≤ base.toNat)
    (small : base.toNat ≤ 36)
    (mark : List UInt8)
    (noDot : 46 ∉ mark)
    (char : Nat → UInt8)
    (reads : ∀ d < base.toNat, digitVal (char d) = some (UInt32.ofNat d))
    (digits : List Nat)
    (isDigits : ∀ d ∈ digits, d < base.toNat) :
    Denotes base (mark ++ 46 :: 46 :: char (base.toNat - 1) ::
      digits.reverse.map char) (complementNumeral base.toNat digits) := by
  have allDigits : ∀ d ∈ digits ++ [base.toNat - 1], d < base.toNat := by
    intro d member
    rcases List.mem_append.mp member with inside | top
    · exact isDigits d inside
    · rw [List.mem_singleton.mp top]
      omega
  have wordEq : ∀ d < base.toNat, (UInt32.ofNat d).toNat = d := by
    intro d below
    rw [UInt32.toNat_ofNat', Nat.mod_eq_of_lt (by omega)]
  refine ⟨char (base.toNat - 1) :: digits.reverse.map char,
    (digits ++ [base.toNat - 1]).map UInt32.ofNat, ?_, ?_, ?_, ?_, ?_⟩
  · rw [List.dropWhile_append_of_pos (by
      intro c member
      have : c ≠ 46 := by
        rintro rfl
        exact noDot member
      simpa using this)]
    rw [List.dropWhile_cons_of_neg (by simp)]
  · have reversed : (char (base.toNat - 1) ::
        digits.reverse.map char).reverse =
          (digits ++ [base.toNat - 1]).map char := by
      simp
    rw [reversed, List.map_map, List.map_map]
    apply List.map_congr_left
    intro d member
    exact reads d (allDigits d member)
  · intro d member
    obtain ⟨digit, inDigits, rfl⟩ := List.mem_map.mp member
    rw [wordEq digit (allDigits digit inDigits)]
    exact allDigits digit inDigits
  · simp
  · intro i
    rw [← complementNumeral_append_top (by omega) digits,
      radixDigit_complementNumeral two _ allDigits, List.getElem?_map]
    cases at_ : (digits ++ [base.toNat - 1])[i]? with
    | none =>
        simp only [Option.map_none, Option.getD_none]
        have last : ((digits ++ [base.toNat - 1]).map
            UInt32.ofNat).getLastD 0 = UInt32.ofNat (base.toNat - 1) := by
          simp
        rw [last, wordEq _ (by omega)]
    | some d =>
        have below := allDigits d (List.mem_of_getElem? at_)
        simp only [Option.map_some, Option.getD_some]
        rw [wordEq d below]

/-! ## Digits of words and of limbs -/

theorem digitsU64Loop_eq
    {base : UInt32}
    (two : 2 ≤ base.toNat)
    (small : base.toNat ≤ 36)
    (turns : Nat)
    (u : UInt64)
    (enough : u.toNat < 2 ^ turns) :
    digitsU64Loop base.toUInt64 turns u =
      (Nat.digits base.toNat u.toNat).map
        fun d => digitChar (UInt32.ofNat d) := by
  have chars : ∀ r : Fin 36,
      (if UInt8.ofNat r < 10 then 48 + UInt8.ofNat r
        else 97 + UInt8.ofNat r - 10) = digitChar (UInt32.ofNat r) := by
    decide
  induction turns generalizing u with
  | zero =>
      have zero : u.toNat = 0 := by omega
      rw [zero, Nat.digits_zero]
      rfl
  | succ turns ih =>
      by_cases zero : u = 0
      · rw [digitsU64Loop, if_pos zero, zero, UInt64.toNat_zero,
          Nat.digits_zero]
        rfl
      · have positive : 0 < u.toNat := by
          apply Nat.pos_of_ne_zero
          intro none
          exact zero (UInt64.toNat_inj.mp none)
        have quotient : (u / base.toUInt64).toNat = u.toNat / base.toNat := by
          rw [UInt64.toNat_div, UInt32.toNat_toUInt64]
        have below : u.toNat % base.toNat < 36 :=
          Nat.lt_of_lt_of_le (Nat.mod_lt _ (by omega)) small
        have rest : (u % base.toUInt64).toUInt8 =
            UInt8.ofNat (u.toNat % base.toNat) := by
          apply UInt8.toNat_inj.mp
          rw [UInt64.toNat_toUInt8, UInt64.toNat_mod, UInt32.toNat_toUInt64,
            UInt8.toNat_ofNat']
        have fewer : (u / base.toUInt64).toNat < 2 ^ turns := by
          rw [quotient, Nat.div_lt_iff_lt_mul (by omega)]
          calc u.toNat < 2 ^ (turns + 1) := enough
            _ = 2 ^ turns * 2 := Nat.pow_succ ..
            _ ≤ 2 ^ turns * base.toNat := Nat.mul_le_mul_left _ two
        rw [digitsU64Loop, if_neg zero, ih _ fewer, quotient,
          Nat.digits_def' (by omega) positive, List.map_cons, rest]
        exact congrArg (· :: _) (chars ⟨u.toNat % base.toNat, below⟩)

theorem digitsU64_eq
    (two : 2 ≤ base.toNat)
    (small : base.toNat ≤ 36)
    (u : UInt64) : digitsU64 u base = numeralText base u.toNat := by
  unfold digitsU64 numeralText
  by_cases zero : u = 0
  · rw [if_pos zero, zero]
    rfl
  · have positive : u.toNat ≠ 0 := fun none =>
      zero (UInt64.toNat_inj.mp none)
    rw [if_neg zero, if_neg positive,
      digitsU64Loop_eq two small 64 u u.toNat_lt, List.map_reverse]

theorem udivSmall_trim
    (positive : 0 < d.toNat)
    (t : List UInt32) : udivSmall t d = udivSmall (trim t) d := by
  obtain ⟨q, r, divided, quotient, remainder⟩ := udivSmall_spec positive t
  obtain ⟨q', r', divided', quotient', remainder'⟩ :=
    udivSmall_spec positive (trim t)
  rw [value_trim] at quotient' remainder'
  rw [divided, divided',
    value_injective (udivSmall_trimmed divided) (udivSmall_trimmed divided')
      (quotient.trans quotient'.symm),
    UInt32.toNat_inj.mp (remainder.trans remainder'.symm)]

/-- Limbs need not be trimmed to be written. -/
theorem toStringRadix_untrimmed
    (two : 2 ≤ base.toNat)
    (t : List UInt32)
    (positive : value t ≠ 0) :
    (BigInt.mk false t).toStringRadix base =
      some (numeralText base (value t)) := by
  have some_ : t.isEmpty = false := by
    cases t with
    | nil => exact absurd rfl positive
    | cons _ _ => rfl
  have trimmedSome : (trim t).isEmpty = false := by
    cases none : trim t with
    | nil =>
        rw [← value_trim, none] at positive
        exact absurd rfl positive
    | cons _ _ => rfl
  have chunk := baseChunk_spec base
  have chunkPositive : 0 < (baseChunk base).1.toNat := by
    rw [chunk.power]
    exact Nat.pow_pos (by omega)
  have enough : value (trim t) < 2 ^ (32 * t.length) := by
    rw [value_trim, Nat.pow_mul]
    exact value_lt t
  obtain ⟨digits, text, isDigits, number, noZero⟩ :=
    radixLoop_spec chunk two (32 * t.length) (trim t) (trim_trimmed t) enough
  have same : radixLoop base (baseChunk base).1 (baseChunk base).2
        (32 * t.length + 1) t =
      radixLoop base (baseChunk base).1 (baseChunk base).2
        (32 * t.length + 1) (trim t) := by
    rw [radixLoop, radixLoop, some_, trimmedSome, udivSmall_trim chunkPositive]
  rw [value_trim] at number
  have nonempty : digits ≠ [] := by
    rintro rfl
    exact positive number.symm
  unfold BigInt.toStringRadix BigInt.isZero
  rw [some_, if_neg Bool.false_ne_true]
  change Option.map _ (radixLoop base (baseChunk base).1 (baseChunk base).2
    (32 * t.length + 1) t) = _
  rw [same, text, Option.map_some, if_neg Bool.false_ne_true, List.append_nil,
    ← List.map_reverse, map_digitChar_eq two isDigits noZero nonempty, number]

/-! ## The digits behind the dots -/

/-- The bases whose negative numbers are written as complements. -/
def Binary (base : UInt32) : Prop := base = 16 ∨ base = 8 ∨ base = 2

theorem Binary.bounds
    (binary : Binary base) : 2 ≤ base.toNat ∧ base.toNat ≤ 36 := by
  rcases binary with rfl | rfl | rfl <;> decide

theorem Binary.topDigit_eq
    (binary : Binary base) :
    topDigit base = digitChar (UInt32.ofNat (base.toNat - 1)) := by
  rcases binary with rfl | rfl | rfl <;> decide

/-- The digits without the highest ones before them. -/
def withoutTops (base : UInt32) (digits : List Nat) : List Nat :=
  digits.rdropWhile (· == base.toNat - 1)

theorem withoutTops_digitText
    (binary : Binary base)
    (small : ∀ d ∈ digits, d < base.toNat) :
    (digitText digits).dropWhile (· == topDigit base) =
      digitText (withoutTops base digits) := by
  obtain ⟨two, below⟩ := binary.bounds
  rw [binary.topDigit_eq]
  exact digitText_dropWhile
    (fun d member => Nat.lt_of_lt_of_le (small d member) below) (by omega)

theorem complementNumeral_withoutTops
    (binary : Binary base)
    (digits : List Nat) :
    complementNumeral base.toNat (withoutTops base digits) =
      complementNumeral base.toNat digits :=
  complementNumeral_rdropWhile (by have := binary.bounds; omega) digits

/-- A machine integer below zero, as an unsigned word. -/
theorem toNat_toUInt64_of_neg
    {v : Int64}
    (negative : v.toInt < 0) :
    (v.toUInt64.toNat : Int) = v.toInt + 2 ^ 64 := by
  have signed : v.toInt = v.toUInt64.toBitVec.toInt := rfl
  have word : v.toUInt64.toNat = v.toUInt64.toBitVec.toNat := rfl
  rw [BitVec.toInt_eq_toNat_cond, ← word] at signed
  have below := v.toUInt64.toNat_lt
  split at signed <;> omega

/-- What a machine integer below zero is written as. -/
theorem uintToCstr_eq
    {base : UInt32}
    (binary : Binary base)
    (negative : v.toInt < 0) :
    ∃ digits, uintToCstr v base = digitText digits ∧
      (∀ d ∈ digits, d < base.toNat) ∧
      complementNumeral base.toNat digits = v.toInt ∧
      digits.getLast? ≠ some (base.toNat - 1) := by
  obtain ⟨two, small⟩ := binary.bounds
  have word := toNat_toUInt64_of_neg negative
  have low := Int64.le_toInt v
  have below := v.toUInt64.toNat_lt
  have positive : v.toUInt64.toNat ≠ 0 := by omega
  have sign : v < 0 := Int64.lt_iff_toInt_lt.mpr negative
  obtain ⟨rest, d, split, lead⟩ := exists_leadingDigit two positive
  have restSmall : ∀ x ∈ Nat.digits base.toNat v.toUInt64.toNat,
      x < base.toNat := fun x member => Nat.digits_lt_base two member
  have whole := Nat.ofDigits_digits base.toNat v.toUInt64.toNat
  have text : digitsU64 v.toUInt64 base = digitText (rest ++ [d]) := by
    rw [digitsU64_eq two small, numeralText_eq base positive, split]
  rw [split] at restSmall whole
  -- the digits that are written once the octal sign is extended
  obtain ⟨digits, written, digitsSmall, denotes⟩ : ∃ digits,
      uintToCstr v base =
        (digitText digits).dropWhile (· == topDigit base) ∧
      (∀ x ∈ digits, x < base.toNat) ∧
      complementNumeral base.toNat digits = v.toInt := by
    by_cases octal : base = 8
    · subst octal
      change LeadingDigit 8 v.toUInt64.toNat rest.length d at lead
      have top : LeadingDigit 8 v.toUInt64.toNat 21 1 := by
        refine ⟨by omega, by omega, ?_, ?_⟩ <;> omega
      obtain ⟨length, digit⟩ := lead.unique top
      subst digit
      refine ⟨rest ++ [7], ?_, ?_, ?_⟩
      · unfold uintToCstr
        rw [text, digitText_append, if_pos sign, if_pos rfl,
          digitText_append]
        rfl
      · intro x member
        rcases List.mem_append.mp member with inside | last
        · exact restSmall x (List.mem_append_left _ inside)
        · rw [List.mem_singleton.mp last]
          decide
      · change Nat.ofDigits 8 (rest ++ [1]) = _ at whole
        rw [Nat.ofDigits_append, Nat.ofDigits_singleton, length] at whole
        change complementNumeral 8 (rest ++ [7]) = _
        rw [complementNumeral_append, length]
        omega
    · refine ⟨rest ++ [d], ?_, restSmall, ?_⟩
      · unfold uintToCstr
        rw [text, if_pos sign]
        simp only [octal, if_false]
      · have high : base.toNat ^ (rest.length + 1) = 2 ^ 64 := by
          have atMost := lead.pow_le
          have least := lead.lt_pow
          rcases binary with rfl | rfl | rfl
          · change 16 ^ rest.length ≤ _ at atMost
            change _ < 16 ^ (rest.length + 1) at least
            have up : rest.length < 16 :=
              (Nat.pow_lt_pow_iff_right (show 1 < 16 by omega)).mp (by omega)
            have down : 15 < rest.length + 1 :=
              (Nat.pow_lt_pow_iff_right (show 1 < 16 by omega)).mp (by omega)
            rw [show rest.length = 15 by omega]
            rfl
          · exact absurd rfl octal
          · change 2 ^ rest.length ≤ _ at atMost
            change _ < 2 ^ (rest.length + 1) at least
            have up : rest.length < 64 :=
              (Nat.pow_lt_pow_iff_right (show 1 < 2 by omega)).mp (by omega)
            have down : 63 < rest.length + 1 :=
              (Nat.pow_lt_pow_iff_right (show 1 < 2 by omega)).mp (by omega)
            rw [show rest.length = 63 by omega]
            rfl
        unfold complementNumeral
        rw [whole, List.length_append, List.length_singleton]
        have cast : (base.toNat : Int) ^ (rest.length + 1) = 2 ^ 64 := by
          exact_mod_cast high
        rw [cast]
        omega
  refine ⟨withoutTops base digits, ?_, ?_, ?_, ?_⟩
  · rw [written, withoutTops_digitText binary digitsSmall]
  · intro x member
    exact digitsSmall x (mem_of_mem_rdropWhile member)
  · rw [complementNumeral_withoutTops binary, denotes]
  · exact getLast?_rdropWhile_ne _ _

/-- The digits without a first octal digit 1 or 3. -/
def signless (base : UInt32) (digits : List Nat) : List Nat :=
  if base = 8 ∧ (digits.getLast? = some 1 ∨ digits.getLast? = some 3) then
    digits.dropLast
  else digits

theorem mem_of_mem_signless
    (member : d ∈ signless base digits) : d ∈ digits := by
  unfold signless at member
  split at member
  · exact List.mem_of_mem_dropLast member
  · exact member

theorem head?_digitText
    {digits : List Nat}
    (small : ∀ x ∈ digits, x < 36)
    (digit : d < 36) :
    (digitText digits).head? = some (digitChar (UInt32.ofNat d)) ↔
      digits.getLast? = some d := by
  rcases List.eq_nil_or_concat digits with rfl | ⟨low, top, rfl⟩
  · simp [digitText]
  · rw [List.concat_eq_append] at small ⊢
    rw [digitText_append, List.head?_cons, List.getLast?_concat,
      Option.some_inj, Option.some_inj]
    constructor
    · intro same
      exact digitChar_injective (small top (by simp)) digit same
    · intro same
      rw [same]

theorem tail_digitText (digits : List Nat) :
    (digitText digits).tail = digitText digits.dropLast := by
  rcases List.eq_nil_or_concat digits with rfl | ⟨low, top, rfl⟩
  · rfl
  · rw [List.concat_eq_append, digitText_append, List.tail_cons,
      List.dropLast_concat]

theorem stripDots_eq
    (binary : Binary base)
    (small : ∀ d ∈ digits, d < base.toNat) :
    stripDots base (digitText digits) =
      digitText (withoutTops base (signless base digits)) := by
  have wide : ∀ x ∈ digits, x < 36 := fun x member =>
    Nat.lt_of_lt_of_le (small x member) binary.bounds.2
  have one : (digitText digits).head? = some 49 ↔
      digits.getLast? = some 1 :=
    head?_digitText (d := 1) wide (by omega)
  have three : (digitText digits).head? = some 51 ↔
      digits.getLast? = some 3 :=
    head?_digitText (d := 3) wide (by omega)
  have first : (if base = 8 ∧ ((digitText digits).head? = some 49 ∨
        (digitText digits).head? = some 51) then (digitText digits).tail
      else digitText digits) = digitText (signless base digits) := by
    unfold signless
    simp only [one, three]
    split
    · exact tail_digitText digits
    · rfl
  unfold stripDots
  rw [first]
  exact withoutTops_digitText binary fun d member =>
    small d (mem_of_mem_signless member)

/-! ## Around the digits -/

/-- A complement in no width: its mark, two dots, the highest digit and the
others. -/
theorem layout_dots
    (t : IntText)
    (fc : UInt8)
    (flags : UInt32)
    (mark : Option (List UInt8))
    (dots : t.dots = true)
    (unsigned : t.sc = none)
    (width : t.width = -1)
    (head : t.s.head? ≠ some fc) :
    layout t fc flags (-1) mark =
      (if mark = some [48] then [] else
        if t.s = [48] then [] else mark.getD []) ++
        46 :: 46 :: fc :: t.s := by
  unfold layout
  simp only [dots, unsigned, width, if_true]
  generalize written : (if mark = some [48] then (none, t.s.length, (-1 : Int))
    else if t.s = [48] then (none, t.s.length, -1)
    else (mark, t.s.length, -1)) = placed
  have parts : placed.2.1 = t.s.length ∧ placed.2.2 = -1 ∧
      placed.1.getD [] = if mark = some [48] then [] else
        if t.s = [48] then [] else mark.getD [] := by
    rw [← written]
    split
    · exact ⟨rfl, rfl, rfl⟩
    · split <;> exact ⟨rfl, rfl, rfl⟩
  obtain ⟨length, precision, marked⟩ := parts
  rw [← marked]
  obtain ⟨mark', len, prec⟩ := placed
  dsimp only at length precision marked ⊢
  subst length precision
  have noPrecision : ¬(mark' = none ∧ (-1 : Int) = 0 ∧ t.s.length = 1 ∧
      t.s = [48]) := by
    rintro ⟨-, absurd, -⟩
    omega
  have below : (-1 : Int) < t.s.length := by omega
  rw [if_neg noPrecision, if_pos below]
  generalize sizedEq : (if flags &&& (FZERO ||| FMINUS ||| FPREC) = FZERO then
      ((0 : Int), -1 - ((mark'.getD []).length : Int), t.s.length)
    else (-1 - ((mark'.getD []).length : Int) - (t.s.length : Int),
      (t.s.length : Int), t.s.length)) = sized
  have sizes : sized.1 ≤ 0 ∧ sized.2.1 ≤ t.s.length ∧
      sized.2.2 = t.s.length := by
    rw [← sizedEq]
    split
    · refine ⟨Int.le_refl _, ?_, rfl⟩
      change -1 - ((mark'.getD []).length : Int) ≤ t.s.length
      omega
    · refine ⟨?_, Int.le_refl _, rfl⟩
      change -1 - ((mark'.getD []).length : Int) - (t.s.length : Int) ≤ 0
      omega
  obtain ⟨width', prec', len⟩ := sized
  obtain ⟨noWidth, short, rfl⟩ := sizes
  dsimp only at noWidth short ⊢
  have noSpaces : ¬(flags &&& FMINUS = 0 ∧ 0 < width') := by
    rintro ⟨-, more⟩
    omega
  have before : (if flags &&& FMINUS = 0 then width'.toNat else 0) = 0 := by
    split <;> omega
  have noFill : ¬(t.s.length : Int) < prec' - 3 := by omega
  have after : (width' - 3).toNat = 0 := by omega
  rw [if_neg noSpaces, if_pos head, before]
  dsimp only
  rw [if_neg noFill, after, List.take_length]
  simp

/-- The character of a digit where the letters may be capitals. -/
def letterChar (upper : Bool) (d : Nat) : UInt8 :=
  if upper then toAsciiUppercase (digitChar (UInt32.ofNat d))
  else digitChar (UInt32.ofNat d)

theorem digitVal_letterChar
    (upper : Bool)
    (small : d < 36) :
    digitVal (letterChar upper d) = some (UInt32.ofNat d) := by
  have every : ∀ (upper : Bool) (d : Fin 36),
      digitVal (letterChar upper d) = some (UInt32.ofNat d) := by
    decide
  exact every upper ⟨d, small⟩

theorem letterChar_injective
    (left : a < 36)
    (right : b < 36)
    (same : letterChar upper a = letterChar upper b) : a = b := by
  have read := congrArg digitVal same
  rw [digitVal_letterChar upper left, digitVal_letterChar upper right,
    Option.some_inj] at read
  have words := congrArg UInt32.toNat read
  rw [UInt32.toNat_ofNat', UInt32.toNat_ofNat', Nat.mod_eq_of_lt (by omega),
    Nat.mod_eq_of_lt (by omega)] at words
  exact words

theorem map_letterChar (upper : Bool) (digits : List Nat) :
    (if upper then (digitText digits).map toAsciiUppercase
      else digitText digits) = digits.reverse.map (letterChar upper) := by
  unfold digitText letterChar
  cases upper with
  | false => rfl
  | true =>
      rw [if_pos rfl, List.map_map]
      rfl

theorem head?_map_letterChar
    {digits : List Nat}
    (small : ∀ d ∈ digits, d < 36)
    (topSmall : top < 36)
    (last : digits.getLast? ≠ some top) :
    (digits.reverse.map (letterChar upper)).head? ≠
      some (letterChar upper top) := by
  rcases List.eq_nil_or_concat digits with rfl | ⟨low, d, rfl⟩
  · simp
  · rw [List.concat_eq_append] at small last ⊢
    rw [List.getLast?_concat] at last
    rw [List.reverse_append, List.reverse_singleton, List.singleton_append,
      List.map_cons, List.head?_cons]
    intro same
    exact last (congrArg some
      (letterChar_injective (small d (by simp)) topSmall
        (Option.some.inj same)))

theorem not_mem_alternate (base : UInt32) (upper : Bool) (flags : UInt32) :
    46 ∉ (alternate base upper flags).getD [] := by
  unfold alternate
  repeat' split
  all_goals decide

/-- A text with dots denotes the complement its digits stand for once a first
octal 1 or 3 and the highest digits are gone. -/
theorem formatInt_dots
    (conv : conversion c = (base, upper, false))
    (binary : Binary base)
    (ran : intText val base false flags (-1) = some
      { sc := none, dots := true, s := digitText digits, v := v, width := -1 })
    (small : ∀ d ∈ digits, d < base.toNat) :
    ∃ text, formatInt val c flags (-1) (-1) = some text ∧
      ∀ number, Denotes base text number ↔
        complementNumeral base.toNat (signless base digits) = number := by
  obtain ⟨two, wide⟩ := binary.bounds
  have stripped := stripDots_eq binary small
  have letters := map_letterChar upper
    (withoutTops base (signless base digits))
  have topChar : (if upper ∧ base = 16 then 70 else
      if base = 10 then 0 else topDigit base) =
        letterChar upper (base.toNat - 1) := by
    rcases binary with rfl | rfl | rfl <;> cases upper <;> decide
  have bodySmall : ∀ d ∈ withoutTops base (signless base digits),
      d < base.toNat := fun d member =>
    small d (mem_of_mem_signless (mem_of_mem_rdropWhile member))
  have head := @head?_map_letterChar (base.toNat - 1) upper
    (withoutTops base (signless base digits))
    (fun d member => Nat.lt_of_lt_of_le (bodySmall d member) wide)
    (by omega) (getLast?_rdropWhile_ne _ _)
  have denotes := denotes_complement two wide
    (if alternate base upper flags = some [48] then [] else
      if (withoutTops base (signless base digits)).reverse.map
        (letterChar upper) = [48] then []
      else (alternate base upper flags).getD [])
    (by
      have noDot := not_mem_alternate base upper flags
      split
      · simp
      · split
        · simp
        · exact noDot)
    (letterChar upper)
    (fun d below => digitVal_letterChar upper (by omega))
    (withoutTops base (signless base digits)) bodySmall
  rw [complementNumeral_withoutTops binary] at denotes
  refine ⟨_, ?_, fun number => ⟨fun other => denotes.unique two other, ?_⟩⟩
  rotate_left
  · rintro rfl
    exact denotes
  · unfold formatInt
    rw [conv]
    dsimp only [Option.bind_eq_bind]
    rw [ran, Option.bind_some]
    dsimp only
    rw [if_pos rfl, stripped, letters, topChar]
    exact congrArg some
      (layout_dots _ _ _ _ rfl rfl rfl head)

/-! ## Which negative integers are denoted -/

/-- A machine integer is, unless the leading octal digit of its complement is 1
or 3.  A wide one is where the leading digit of the complement of its limbs
stands in the highest place the limbs have, in base 8 as the 1 or 3 of two or
one bits or as a whole digit. -/
def Shown (base : UInt32) : Number → Prop
  | .int v => base = 8 → ∀ k,
      ¬LeadingDigit 8 (-v.toInt - 1).toNat k 6 ∧
      ¬LeadingDigit 8 (-v.toInt - 1).toNat k 4
  | .bint b => ∃ k d,
      LeadingDigit base.toNat
        ((2 ^ 32) ^ b.mag.length - value b.mag) k d ∧
      (2 ^ 32) ^ b.mag.length =
        (if base = 8 ∧ (d = 1 ∨ d = 3) then d + 1 else base.toNat) *
          base.toNat ^ k

/-- The leading digit of a complement, from the number one below its negation. -/
theorem leadingDigit_of_complement
    (two : 2 ≤ base)
    (small : ∀ x ∈ low, x < base)
    (digit : d < base - 1) :
    LeadingDigit base (-complementNumeral base (low ++ [d]) - 1).toNat
      low.length (base - 1 - d) := by
  have rest := Nat.ofDigits_lt_base_pow_length two small
  have whole := complementNumeral_append base low d
  have power : ((base ^ low.length : Nat) : Int) = (base : Int) ^ low.length :=
    by push_cast; rfl
  have number : (-complementNumeral base (low ++ [d]) - 1).toNat =
      (base - 1 - d) * base ^ low.length +
        (base ^ low.length - 1 - Nat.ofDigits base low) := by
    have count : (((base - 1 - d : Nat) : Int)) = base - 1 - d := by omega
    have natural : -complementNumeral base (low ++ [d]) - 1 =
        (((base - 1 - d) * base ^ low.length +
          (base ^ low.length - 1 - Nat.ofDigits base low) : Nat) : Int) := by
      have left : ((base ^ low.length - 1 - Nat.ofDigits base low : Nat) : Int) =
          (base : Int) ^ low.length - 1 - Nat.ofDigits base low := by
        omega
      rw [Int.natCast_add, Int.natCast_mul, left, count, power, whole]
      ring
    rw [natural, Int.toNat_natCast]
  refine ⟨by omega, by omega, ?_, ?_⟩
  · rw [number]
    exact Nat.le_add_right _ _
  · rw [number, Nat.add_mul, Nat.one_mul]
    omega

/-- A complement keeps its value without a first octal 1 or 3 only if there is
none. -/
theorem complementNumeral_signless_iff
    (small : ∀ d ∈ digits, d < base.toNat)
    (last : digits.getLast? ≠ some (base.toNat - 1)) :
    complementNumeral base.toNat (signless base digits) =
        complementNumeral base.toNat digits ↔
      (base = 8 → ∀ k,
        ¬LeadingDigit 8 (-complementNumeral base.toNat digits - 1).toNat k 6 ∧
        ¬LeadingDigit 8 (-complementNumeral base.toNat digits - 1).toNat k 4)
    := by
  unfold signless
  by_cases octal : base = 8
  · subst octal
    change ∀ d ∈ digits, d < 8 at small
    change digits.getLast? ≠ some 7 at last
    change complementNumeral 8 _ = complementNumeral 8 _ ↔ ((8 : UInt32) = 8 → ∀ k,
        ¬LeadingDigit 8 (-complementNumeral 8 digits - 1).toNat k 6 ∧
        ¬LeadingDigit 8 (-complementNumeral 8 digits - 1).toNat k 4)
    rcases List.eq_nil_or_concat digits with rfl | ⟨low, d, rfl⟩
    · simp only [List.getLast?_nil, reduceCtorEq, or_self, and_false, if_false,
        true_iff]
      rintro - k
      constructor
      all_goals
        rintro ⟨-, -, le, -⟩
        have := Nat.pow_pos (show 0 < 8 by omega) (n := k)
        simp at le
    · rw [List.concat_eq_append] at small last ⊢
      rw [List.getLast?_concat] at last
      have digit := small d (by simp)
      have notTop : d ≠ 7 := fun top => last (congrArg some top)
      have lead := leadingDigit_of_complement (show 2 ≤ 8 by omega)
        (fun x member => small x (List.mem_append_left _ member))
        (show d < 8 - 1 by omega)
      rw [List.getLast?_concat, List.dropLast_concat]
      constructor
      · intro same _ k
        by_cases odd : d = 1 ∨ d = 3
        · rw [if_pos ⟨rfl, by simpa using odd⟩, complementNumeral_append] at same
          unfold complementNumeral at same
          have eight : ((8 : Nat) : Int) = 8 := rfl
          rw [eight] at same
          have positive : (0 : Int) < 8 ^ low.length := Int.pow_pos (by omega)
          rcases odd with rfl | rfl <;> omega
        · constructor
          · intro other
            have := (lead.unique other).2
            omega
          · intro other
            have := (lead.unique other).2
            omega
      · intro none
        have := none rfl low.length
        by_cases odd : d = 1 ∨ d = 3
        · rcases odd with rfl | rfl
          · exact absurd lead this.1
          · exact absurd lead this.2
        · rw [if_neg (by simpa using odd)]
  · simp [octal]

theorem intText_int
    (flags : UInt32)
    (negative : v.toInt < 0) :
    intText (.int v) base false flags (-1) = some
      { sc := none, dots := true, s := uintToCstr v base
        v := v.toInt, width := -1 } := by
  have below : v < 0 := Int64.lt_iff_toInt_lt.mpr negative
  unfold intText
  simp [below]

/-- What a wide integer below zero is written as. -/
theorem intText_bint
    (binary : Binary base)
    (sign : flags &&& FPLUS = 0)
    (formed : b.WellFormed)
    (negative : b.toInt < 0) :
    intText (.bint b) base false flags (-1) = some
      { sc := none, dots := true
        s := digitText (Nat.digits base.toNat
          ((2 ^ 32) ^ b.mag.length - value b.mag))
        v := -1, width := -1 } := by
  have below : b.sign < 0 := by
    rw [BigInt.sign_eq formed, if_neg (by omega), if_pos negative]
    omega
  have positive : 0 < value b.mag := by
    rw [← BigInt.natAbs_toInt]
    omega
  have complement : value b.twoCompMag =
      (2 ^ 32) ^ b.mag.length - value b.mag := by
    have whole := BigInt.value_twoCompLoop b.mag positive
    unfold BigInt.twoCompMag
    omega
  have nonzero : value b.twoCompMag ≠ 0 := by
    have fits := value_lt b.mag
    omega
  have needDots : (flags &&& FPLUS = 0 ∧ (base = 16 ∨ base = 8 ∨ base = 2) ∧
      b.sign < 0) := ⟨sign, binary, below⟩
  unfold intText
  dsimp only [Option.bind_eq_bind]
  simp only [needDots, decide_true, if_true, and_self]
  rw [toStringRadix_untrimmed binary.bounds.1 _ nonzero, Option.bind_some,
    numeralText_eq _ nonzero, complement]

/-- The complement of limbs keeps its value where its leading digit stands in
the highest place. -/
theorem complementNumeral_limbs_iff
    (two : 2 ≤ base.toNat)
    (positive : number ≠ 0)
    (limit : Nat) :
    complementNumeral base.toNat
        (signless base (Nat.digits base.toNat number)) =
          (number : Int) - limit ↔
      ∃ k d, LeadingDigit base.toNat number k d ∧
        limit = (if base = 8 ∧ (d = 1 ∨ d = 3) then d + 1 else base.toNat) *
          base.toNat ^ k := by
  obtain ⟨low, d, split, lead⟩ := exists_leadingDigit two positive
  have whole := Nat.ofDigits_digits base.toNat number
  rw [split, Nat.ofDigits_append, Nat.ofDigits_singleton] at whole
  have total : complementNumeral base.toNat
      (signless base (Nat.digits base.toNat number)) =
        (number : Int) -
          (((if base = 8 ∧ (d = 1 ∨ d = 3) then d + 1 else base.toNat) *
            base.toNat ^ low.length : Nat) : Int) := by
    unfold signless
    rw [split, List.getLast?_concat, List.dropLast_concat, ← whole]
    by_cases odd : base = 8 ∧ (d = 1 ∨ d = 3)
    · rw [if_pos (by simpa using odd), if_pos odd]
      unfold complementNumeral
      push_cast
      ring
    · rw [if_neg (by simpa using odd), if_neg odd, complementNumeral_append]
      push_cast
      ring
  rw [total]
  constructor
  · intro same
    exact ⟨low.length, d, lead, by omega⟩
  · rintro ⟨k, e, other, same⟩
    obtain ⟨rfl, rfl⟩ := lead.unique other
    omega

/-- The text of a negative integer denotes it exactly where no digit of it is
taken for its sign and none is lost with the limbs, and it denotes nothing
else. -/
theorem complement_denotes_iff
    (val : Number)
    (formed : val.WellFormed)
    (negative : val.toInt < 0)
    (c : UInt8)
    (conv : c ∈ [120, 88, 111, 98, 66])
    (flags : UInt32)
    (plain : flags &&& (FPLUS ||| FSPACE ||| FWIDTH ||| FPREC ||| FPREC0) = 0) :
    ∃ text, formatInt val c flags (-1) (-1) = some text ∧
      (Denotes (conversion c).1 text val.toInt ↔ Shown (conversion c).1 val) ∧
      ∀ other, Denotes (conversion c).1 text val.toInt →
        Denotes (conversion c).1 text other → other = val.toInt := by
  have parts : conversion c = ((conversion c).1, (conversion c).2.1, false) ∧
      Binary (conversion c).1 := by
    simp only [List.mem_cons, List.not_mem_nil, or_false] at conv
    rcases conv with rfl | rfl | rfl | rfl | rfl
    · exact ⟨by decide, .inl (by decide)⟩
    · exact ⟨by decide, .inl (by decide)⟩
    · exact ⟨by decide, .inr (.inl (by decide))⟩
    · exact ⟨by decide, .inr (.inr (by decide))⟩
    · exact ⟨by decide, .inr (.inr (by decide))⟩
  obtain ⟨converted, binary⟩ := parts
  have two := binary.bounds.1
  have sign : flags &&& FPLUS = 0 := by
    have mask : FPLUS = (FPLUS ||| FSPACE ||| FWIDTH ||| FPREC ||| FPREC0) &&&
        FPLUS := by decide
    rw [mask, ← UInt32.and_assoc, plain]
    rfl
  cases val with
  | int v =>
      obtain ⟨digits, written, small, denotes, last⟩ :=
        uintToCstr_eq binary negative
      have ran := @intText_int v (conversion c).1 flags negative
      rw [written] at ran
      obtain ⟨text, formatted, meaning⟩ :=
        formatInt_dots converted binary ran small
      refine ⟨text, formatted, ?_, fun other left right =>
        right.unique two left⟩
      have kept := complementNumeral_signless_iff small last
      rw [denotes] at kept
      exact (meaning v.toInt).trans kept
  | bint b =>
      have ran := intText_bint binary sign formed negative
      have positive : (2 ^ 32) ^ b.mag.length - value b.mag ≠ 0 := by
        have fits := value_lt b.mag
        omega
      obtain ⟨text, formatted, meaning⟩ := formatInt_dots converted binary ran
        fun d member => Nat.digits_lt_base two member
      refine ⟨text, formatted, ?_, fun other left right =>
        right.unique two left⟩
      have limbs := complementNumeral_limbs_iff two positive
        ((2 ^ 32) ^ b.mag.length)
      have number : (((2 ^ 32) ^ b.mag.length - value b.mag : Nat) : Int) -
          ((2 ^ 32) ^ b.mag.length : Nat) = b.toInt := by
        have fits := value_lt b.mag
        have abs := BigInt.natAbs_toInt b
        change b.toInt < 0 at negative
        omega
      rw [number] at limbs
      exact (meaning b.toInt).trans limbs

theorem complement_denotes_at :
    ∃ text, formatInt (.int (-255)) 120 0 (-1) (-1) = some text ∧
      (Denotes (conversion 120).1 text (Number.int (-255)).toInt ↔
        Shown (conversion 120).1 (.int (-255))) ∧
      ∀ other, Denotes (conversion 120).1 text (Number.int (-255)).toInt →
        Denotes (conversion 120).1 text other →
          other = (Number.int (-255)).toInt :=
  complement_denotes_iff (.int (-255)) trivial (by decide) 120 (by decide) 0
    (by decide)

/-- -7 and -1 are both written as `..7` in base 8. -/
theorem octal_prints_alike :
    formatInt (.int (-7)) 111 0 (-1) (-1) = some [46, 46, 55] ∧
      formatInt (.int (-1)) 111 0 (-1) (-1) = some [46, 46, 55] ∧
      ¬Denotes 8 [46, 46, 55] (-7) := by
  refine ⟨by decide +kernel, by decide +kernel, ?_⟩
  intro denotes
  have minusOne : Denotes 8 [46, 46, 55] (-1) := by
    have text := denotes_complement (show 2 ≤ (8 : UInt32).toNat by decide)
      (by decide) [] (by simp) (letterChar false)
      (fun d below => digitVal_letterChar false
        (Nat.lt_of_lt_of_le below (by decide))) [] (by simp)
    rw [complementNumeral_nil] at text
    exact text
  have same := denotes.unique (show 2 ≤ (8 : UInt32).toNat by decide) minusOne
  omega

end SabiRuby.Integer
