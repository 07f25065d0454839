import Mathlib.Data.Nat.Digits.Defs
import SabiRuby.Integer.Denotation

/-!
# Integers as text

A big integer is read from digits in chunks of as many digits as a limb holds,
and written by dividing by the same chunk.  What is written has the value of the
integer, and so has what is read.
-/

namespace SabiRuby.Integer

/-! ## Digits -/

/-- `digit_val`. -/
def digitVal (c : UInt8) : Option UInt32 :=
  if 48 ≤ c ∧ c ≤ 57 then some (c - 48).toUInt32
  else if 97 ≤ c ∧ c ≤ 122 then some ((c - 97).toUInt32 + 10)
  else if 65 ≤ c ∧ c ≤ 90 then some ((c - 65).toUInt32 + 10)
  else none

/-- The character of a digit. -/
def digitChar (d : UInt32) : UInt8 :=
  if d < 10 then 48 + d.toUInt8 else 97 + (d - 10).toUInt8

def baseChunkLoop (base : UInt64) : Nat → UInt64 → Nat → UInt64 × Nat
  | 0, p, k => (p, k)
  | turns + 1, p, k =>
      if p * base ≤ 0xFFFFFFFF then
        baseChunkLoop base turns (p * base) (k + 1)
      else (p, k)

/-- The largest power of the base that fits a limb, and its exponent. -/
def baseChunk (base : UInt32) : UInt32 × Nat :=
  let (p, k) := baseChunkLoop base.toUInt64 32 base.toUInt64 1
  (p.toUInt32, k)

/-- Multiply by one limb; the carry is appended. -/
def umulSmallLoop (d : UInt32) : List UInt32 → UInt64 → List UInt32
  | [], carry =>
      if carry = 0 then []
      else carry.toUInt32 ::
        if carry >>> 32 = 0 then [] else [(carry >>> 32).toUInt32]
  | x :: a, carry =>
      let t := x.toUInt64 * d.toUInt64 + carry
      t.toUInt32 :: umulSmallLoop d a (t >>> 32)

/-- Multiply a magnitude by one limb and add another. -/
def umulSmall (a : List UInt32) (d add : UInt32) : List UInt32 :=
  trim (umulSmallLoop d a add.toUInt64)

/-- The powers the last, shorter chunk is multiplied by. -/
def basePower (base : UInt32) : Nat → UInt32
  | 0 => 1
  | n + 1 => basePower base n * base

/-- What is read of a number so far. -/
structure Reading where
  mag : List UInt32
  /-- The digits of the chunk being read. -/
  acc : UInt32
  n : Nat
  /-- A digit was read. -/
  any : Bool

/-- One digit. -/
def Reading.push (reading : Reading) (base chunk : UInt32) (k : Nat)
    (d : UInt32) : Reading :=
  let acc := reading.acc * base + d
  if reading.n + 1 = k then
    { mag := umulSmall reading.mag chunk acc, acc := 0, n := 0, any := true }
  else
    { reading with acc := acc, n := reading.n + 1, any := true }

/-- The digits from here on, `_` between them. -/
def fromStrLoop (base chunk : UInt32) (k : Nat) :
    List UInt8 → Reading → Option Reading
  | [], reading => some reading
  | c :: s, reading =>
      if c = 95 then fromStrLoop base chunk k s reading
      else
        match digitVal c with
        | none => none
        | some d =>
            if base ≤ d then none
            else fromStrLoop base chunk k s (reading.push base chunk k d)

/-- The digits of one chunk, the lowest first. -/
def chunkDigits (base : UInt32) (last : Bool) : Nat → UInt32 → List UInt8
  | 0, _ => []
  | k + 1, r =>
      if last ∧ r = 0 then []
      else digitChar (r % base) :: chunkDigits base last k (r / base)

/-- The digits of a magnitude, the lowest first. -/
def radixLoop (base chunk : UInt32) (k : Nat) :
    Nat → List UInt32 → Option (List UInt8)
  | 0, _ => none
  | turns + 1, t =>
      if t.isEmpty then some []
      else do
        let (t, r) ← udivSmall t chunk
        let rest ← radixLoop base chunk k turns t
        some (chunkDigits base t.isEmpty k r ++ rest)

namespace BigInt

/-- `from_str`: an optional sign and digits. -/
def fromStr (s : List UInt8) (base : UInt32) : Option BigInt :=
  let neg := s.head? = some 45
  let s := if neg ∨ s.head? = some 43 then s.tail else s
  let (chunk, k) := baseChunk base
  match fromStrLoop base chunk k s ⟨[], 0, 0, false⟩ with
  | none => none
  | some reading =>
      if !reading.any then none
      else
        let mag :=
          if 0 < reading.n then
            umulSmall reading.mag (basePower base reading.n) reading.acc
          else reading.mag
        some (make neg mag)

/-- `to_string_radix`: every chunk but the highest has all its digits. -/
def toStringRadix (self : BigInt) (base : UInt32) : Option (List UInt8) :=
  if self.isZero then some [48]
  else
    let (chunk, k) := baseChunk base
    (radixLoop base chunk k (32 * self.mag.length + 1) self.mag).map
      fun out => (out ++ if self.neg then [45] else []).reverse

end BigInt

/-! ## Numerals -/

/-- The digits are those of the base. -/
def Digits (base : UInt32) (digits : List UInt32) : Prop :=
  ∀ d ∈ digits, d.toNat < base.toNat

/-- The number written with these digits, the lowest first. -/
def numeral (base : UInt32) (digits : List UInt32) : Nat :=
  Nat.ofDigits base.toNat (digits.map UInt32.toNat)

@[simp] theorem numeral_nil (base : UInt32) : numeral base [] = 0 := rfl

@[simp] theorem numeral_cons (base d : UInt32) (digits : List UInt32) :
    numeral base (d :: digits) = d.toNat + base.toNat * numeral base digits :=
  by simp [numeral, Nat.ofDigits_cons]

theorem numeral_append (base : UInt32) (low high : List UInt32) :
    numeral base (low ++ high) =
      numeral base low + base.toNat ^ low.length * numeral base high := by
  simp [numeral, Nat.ofDigits_append]

theorem digitVal_digitChar
    (small : d.toNat < 36) :
    digitChar d ≠ 95 ∧ digitVal (digitChar d) = some d := by
  have every : ∀ d : Fin 36,
      digitChar (UInt32.ofNat d) ≠ 95 ∧
        digitVal (digitChar (UInt32.ofNat d)) = some (UInt32.ofNat d) := by
    decide
  have this := every ⟨d.toNat, small⟩
  rwa [UInt32.ofNat_toNat] at this

/-! ## Chunks -/

/-- A chunk is a power of the base. -/
structure IsChunk (base chunk : UInt32) (k : Nat) : Prop where
  positive : 0 < k
  power : chunk.toNat = base.toNat ^ k

theorem baseChunkLoop_spec
    (base : UInt64)
    (small : base.toNat < 2 ^ 32)
    (turns : Nat)
    (pSmall : p.toNat < 2 ^ 32)
    (power : p.toNat = base.toNat ^ k)
    (positive : 0 < k) :
    (baseChunkLoop base turns p k).1.toNat < 2 ^ 32 ∧
      (baseChunkLoop base turns p k).1.toNat =
        base.toNat ^ (baseChunkLoop base turns p k).2 ∧
      0 < (baseChunkLoop base turns p k).2 := by
  induction turns generalizing p k with
  | zero => exact ⟨pSmall, power, positive⟩
  | succ turns ih =>
      unfold baseChunkLoop
      split
      · rename_i fits
        have product : (p * base).toNat = p.toNat * base.toNat := by
          rw [UInt64.toNat_mul, Nat.mod_eq_of_lt]
          calc p.toNat * base.toNat
              ≤ (2 ^ 32 - 1) * (2 ^ 32 - 1) :=
                Nat.mul_le_mul (by omega) (by omega)
            _ < 2 ^ 64 := by decide
        apply ih
        · have bound := UInt64.le_iff_toNat_le.mp fits
          change (p * base).toNat ≤ 0xFFFFFFFF at bound
          omega
        · rw [product, power, Nat.pow_succ]
        · exact Nat.succ_pos k
      · exact ⟨pSmall, power, positive⟩

theorem baseChunk_spec (base : UInt32) :
    IsChunk base (baseChunk base).1 (baseChunk base).2 := by
  have bound : base.toUInt64.toNat < 2 ^ 32 := by
    rw [UInt32.toNat_toUInt64]
    exact base.toNat_lt
  obtain ⟨small, power, positive⟩ :=
    baseChunkLoop_spec base.toUInt64 bound 32 bound (Nat.pow_one _).symm
      Nat.one_pos
  refine ⟨positive, ?_⟩
  unfold baseChunk
  simp only [UInt64.toNat_toUInt32]
  rw [Nat.mod_eq_of_lt small, power, UInt32.toNat_toUInt64]

theorem IsChunk.pow_lt
    (chunk : IsChunk base p k)
    (baseBound : 2 ≤ base.toNat)
    (n : Nat)
    (below : n ≤ k) : base.toNat ^ n < 2 ^ 32 := by
  have atMost : base.toNat ^ n ≤ base.toNat ^ k :=
    Nat.pow_le_pow_right (by omega) below
  have limb := p.toNat_lt
  rw [chunk.power] at limb
  omega

theorem toNat_basePower
    (base : UInt32)
    (n : Nat)
    (fits : ∀ i ≤ n, base.toNat ^ i < 2 ^ 32) :
    (basePower base n).toNat = base.toNat ^ n := by
  induction n with
  | zero => rfl
  | succ n ih =>
      have prior := ih fun i below => fits i (by omega)
      have bound := fits (n + 1) (Nat.le_refl _)
      unfold basePower
      rw [UInt32.toNat_mul, prior, ← Nat.pow_succ, Nat.mod_eq_of_lt bound]

/-! ## Reading -/

theorem value_umulSmallLoop
    (d : UInt32)
    (a : List UInt32)
    (carryBound : carry.toNat < 2 ^ 32) :
    value (umulSmallLoop d a carry) = value a * d.toNat + carry.toNat := by
  induction a generalizing carry with
  | nil =>
      have low : (carry >>> 32) = 0 := by
        apply UInt64.toNat_inj.mp
        rw [UInt64.toNat_shiftRight]
        change carry.toNat >>> 32 = 0
        rw [Nat.shiftRight_eq_div_pow]
        omega
      unfold umulSmallLoop
      by_cases zero : carry = 0
      · simp [zero]
      · rw [if_neg zero, if_pos low]
        simp only [value_cons, value_nil, UInt64.toNat_toUInt32]
        omega
  | cons x a ih =>
      have xBound := x.toNat_lt
      have dBound := d.toNat_lt
      have product : x.toNat * d.toNat ≤ (2 ^ 32 - 1) * (2 ^ 32 - 1) :=
        Nat.mul_le_mul (by omega) (by omega)
      have step : (x.toUInt64 * d.toUInt64 + carry).toNat =
          x.toNat * d.toNat + carry.toNat := by
        rw [UInt64.toNat_add, UInt64.toNat_mul, UInt32.toNat_toUInt64,
          UInt32.toNat_toUInt64]
        omega
      have parts := toUInt32_add_shiftRight (x.toUInt64 * d.toUInt64 + carry)
      rw [step] at parts
      unfold umulSmallLoop
      simp only [value_cons]
      rw [ih (by omega)]
      calc (x.toUInt64 * d.toUInt64 + carry).toUInt32.toNat +
              2 ^ 32 * (value a * d.toNat +
                ((x.toUInt64 * d.toUInt64 + carry) >>> 32).toNat)
          = ((x.toUInt64 * d.toUInt64 + carry).toUInt32.toNat +
              2 ^ 32 * ((x.toUInt64 * d.toUInt64 + carry) >>> 32).toNat) +
              2 ^ 32 * (value a * d.toNat) := by ring
        _ = (x.toNat + 2 ^ 32 * value a) * d.toNat + carry.toNat := by
            rw [parts]
            ring

theorem value_umulSmall (a : List UInt32) (d add : UInt32) :
    value (umulSmall a d add) = value a * d.toNat + add.toNat := by
  have bound : add.toUInt64.toNat < 2 ^ 32 := by
    rw [UInt32.toNat_toUInt64]
    exact add.toNat_lt
  rw [umulSmall, value_trim, value_umulSmallLoop d a bound,
    UInt32.toNat_toUInt64]

/-- What is read so far fits its chunk. -/
structure Reading.Sound (reading : Reading) (base : UInt32) (k : Nat) :
    Prop where
  short : reading.n < k
  small : reading.acc.toNat < base.toNat ^ reading.n

/-- The number read so far. -/
def Reading.number (reading : Reading) (base : UInt32) : Nat :=
  value reading.mag * base.toNat ^ reading.n + reading.acc.toNat

/-- With one more digit stands less than one more power. -/
theorem Reading.Sound.next_lt
    {reading : Reading}
    {d : UInt32}
    (sound : reading.Sound base k)
    (digit : d.toNat < base.toNat) :
    reading.acc.toNat * base.toNat + d.toNat <
      base.toNat ^ (reading.n + 1) := by
  calc reading.acc.toNat * base.toNat + d.toNat
      < reading.acc.toNat * base.toNat + base.toNat := by omega
    _ = (reading.acc.toNat + 1) * base.toNat := by ring
    _ ≤ base.toNat ^ reading.n * base.toNat :=
        Nat.mul_le_mul_right _ sound.small
    _ = base.toNat ^ (reading.n + 1) := (Nat.pow_succ ..).symm

theorem Reading.Sound.push
    {reading : Reading}
    (sound : reading.Sound base k)
    (chunk : IsChunk base p k)
    (baseBound : 2 ≤ base.toNat)
    (digit : d.toNat < base.toNat) :
    (reading.push base p k d).Sound base k ∧
      (reading.push base p k d).number base =
        reading.number base * base.toNat + d.toNat := by
  have short := sound.short
  have limb := chunk.pow_lt baseBound (reading.n + 1) (by omega)
  have total := sound.next_lt digit
  have step : (reading.acc * base + d).toNat =
      reading.acc.toNat * base.toNat + d.toNat := by
    rw [UInt32.toNat_add, UInt32.toNat_mul]
    omega
  unfold Reading.push Reading.number
  by_cases full : reading.n + 1 = k
  · simp only [full, if_true]
    refine ⟨⟨chunk.positive, by simp⟩, ?_⟩
    rw [value_umulSmall, chunk.power, ← full, step]
    simp only [UInt32.toNat_zero, Nat.pow_zero, Nat.add_zero, Nat.pow_succ]
    ring
  · simp only [full, if_false]
    refine ⟨⟨by simp only; omega, by simpa only [step] using total⟩, ?_⟩
    rw [step, Nat.pow_succ]
    ring

/-- The characters of digits are read as the number they write. -/
theorem fromStrLoop_spec
    (chunk : IsChunk base p k)
    (baseBound : 2 ≤ base.toNat)
    (baseSmall : base.toNat ≤ 36)
    (digits : List UInt32)
    (isDigits : Digits base digits)
    {reading : Reading}
    (sound : reading.Sound base k) :
    ∃ after, fromStrLoop base p k (digits.map digitChar) reading =
        some after ∧
      after.Sound base k ∧
      (after.any = true ↔ reading.any = true ∨ digits ≠ []) ∧
      after.number base =
        digits.foldl (fun number d => number * base.toNat + d.toNat)
          (reading.number base) := by
  induction digits generalizing reading with
  | nil => exact ⟨reading, rfl, sound, by simp, rfl⟩
  | cons d digits ih =>
      have digit := isDigits d List.mem_cons_self
      obtain ⟨noSeparator, isDigit⟩ :=
        digitVal_digitChar (Nat.lt_of_lt_of_le digit baseSmall)
      obtain ⟨pushed, number⟩ := sound.push chunk baseBound digit
      obtain ⟨after, ran, afterSound, any, final⟩ := ih
        (fun other member => isDigits other (List.mem_cons_of_mem _ member))
        pushed
      have below : ¬base ≤ d := by
        rw [UInt32.le_iff_toNat_le]
        omega
      refine ⟨after, ?_, afterSound, ?_, ?_⟩
      · rw [List.map_cons, fromStrLoop, if_neg noSeparator, isDigit]
        simp only [below, if_false]
        exact ran
      · have seen : (reading.push base p k d).any = true := by
          unfold Reading.push
          split <;> rfl
        rw [any, seen]
        simp
      · rw [final, number, List.foldl_cons]

theorem foldl_reverse_eq_numeral
    (base : UInt32)
    (digits : List UInt32) :
    digits.reverse.foldl (fun number d => number * base.toNat + d.toNat) 0 =
      numeral base digits := by
  rw [List.foldl_reverse]
  induction digits with
  | nil => rfl
  | cons d digits ih =>
      rw [List.foldr_cons, ih, numeral_cons]
      ring

/-- The text of an integer: a sign where it is negative, and its digits. -/
def signed (neg : Bool) (text : List UInt8) : List UInt8 :=
  if neg then 45 :: text else text

theorem head_digits
    (baseSmall : base.toNat ≤ 36)
    (isDigits : Digits base digits)
    (sign : UInt8)
    (noDigit : digitVal sign = none) :
    (digits.map digitChar).head? ≠ some sign := by
  cases digits with
  | nil => simp
  | cons d digits =>
      have digit := isDigits d List.mem_cons_self
      have isDigit :=
        (digitVal_digitChar (Nat.lt_of_lt_of_le digit baseSmall)).2
      rw [List.map_cons, List.head?_cons]
      intro same
      rw [Option.some.inj same, noDigit] at isDigit
      cases isDigit

/-- The last, shorter chunk. -/
theorem Reading.Sound.finish
    {reading : Reading}
    (sound : reading.Sound base k)
    (chunk : IsChunk base p k)
    (baseBound : 2 ≤ base.toNat) :
    value (if 0 < reading.n then
        umulSmall reading.mag (basePower base reading.n) reading.acc
      else reading.mag) = reading.number base := by
  have power := toNat_basePower base reading.n fun i below =>
    chunk.pow_lt baseBound i (Nat.le_trans below (Nat.le_of_lt sound.short))
  unfold Reading.number
  by_cases pending : 0 < reading.n
  · rw [if_pos pending, value_umulSmall, power]
  · have none : reading.n = 0 := by omega
    have small := sound.small
    rw [none, Nat.pow_zero] at small
    rw [if_neg pending, none, Nat.pow_zero]
    omega

/-- `from_str` reads the characters of digits, highest first, as the integer
they write. -/
theorem fromStr_digits
    (baseBound : 2 ≤ base.toNat)
    (baseSmall : base.toNat ≤ 36)
    (isDigits : Digits base digits)
    (nonempty : digits ≠ [])
    (neg : Bool) :
    ∃ number, BigInt.fromStr
        (signed neg (digits.reverse.map digitChar)) base = some number ∧
      number.WellFormed ∧
      number.toInt =
        if neg then -(numeral base digits : Int) else numeral base digits := by
  have reversed : Digits base digits.reverse := by
    intro d member
    exact isDigits d (List.mem_reverse.mp member)
  have chunk := baseChunk_spec base
  have start : Reading.Sound ⟨[], 0, 0, false⟩ base (baseChunk base).2 :=
    ⟨chunk.positive, Nat.one_pos⟩
  obtain ⟨reading, ran, sound, any, total⟩ :=
    fromStrLoop_spec chunk baseBound baseSmall digits.reverse reversed start
  have seen : reading.any = true :=
    any.mpr (Or.inr (by simpa using nonempty))
  have number : reading.number base = numeral base digits := by
    rw [total]
    exact foldl_reverse_eq_numeral base digits
  have last : value
      (if 0 < reading.n then
        umulSmall reading.mag (basePower base reading.n) reading.acc
      else reading.mag) = numeral base digits := by
    rw [← number]
    exact sound.finish chunk baseBound
  refine ⟨BigInt.make neg
    (if 0 < reading.n then
      umulSmall reading.mag (basePower base reading.n) reading.acc
    else reading.mag), ?_, BigInt.wellFormed_make _ _, ?_⟩
  · unfold BigInt.fromStr signed
    cases neg with
    | true =>
        simp only [if_true, List.head?_cons, decide_true, true_or,
          List.tail_cons]
        rw [ran]
        simp [seen]
    | false =>
        have noMinus := head_digits baseSmall reversed 45 (by decide)
        have noPlus := head_digits baseSmall reversed 43 (by decide)
        simp only [Bool.false_eq_true, if_false, noMinus, noPlus, or_self,
          decide_false]
        rw [ran]
        simp [seen]
  · rw [BigInt.toInt_make, last]

/-! ## Writing -/

theorem toNat_digitStep
    (baseBound : 2 ≤ base.toNat)
    (r : UInt32) :
    (r % base).toNat = r.toNat % base.toNat ∧
      (r / base).toNat = r.toNat / base.toNat ∧
      (r % base).toNat < base.toNat := by
  refine ⟨UInt32.toNat_mod r base, UInt32.toNat_div r base, ?_⟩
  rw [UInt32.toNat_mod]
  exact Nat.mod_lt _ (by omega)

/-- The digits of a chunk write the number the chunk stands for; all but the
last chunk have every digit. -/
theorem chunkDigits_spec
    (baseBound : 2 ≤ base.toNat)
    (last : Bool)
    (k : Nat)
    (r : UInt32)
    (small : r.toNat < base.toNat ^ k) :
    ∃ digits, chunkDigits base last k r = digits.map digitChar ∧
      Digits base digits ∧ numeral base digits = r.toNat ∧
      (last = false → digits.length = k) ∧
      (last = true → digits.getLast? ≠ some 0) := by
  induction k generalizing r with
  | zero =>
      refine ⟨[], rfl, by simp [Digits], ?_, fun _ => rfl, by simp⟩
      rw [Nat.pow_zero] at small
      rw [numeral_nil]
      omega
  | succ k ih =>
      by_cases done : last = true ∧ r = 0
      · refine ⟨[], ?_, by simp [Digits], ?_, ?_, by simp⟩
        · rw [chunkDigits, if_pos done, List.map_nil]
        · rw [done.2]
          rfl
        · intro more
          rw [more] at done
          cases done.1
      · obtain ⟨digit, quotient, below⟩ := toNat_digitStep baseBound r
        have rest : (r / base).toNat < base.toNat ^ k := by
          rw [quotient, Nat.div_lt_iff_lt_mul (by omega), ← Nat.pow_succ]
          exact small
        obtain ⟨digits, text, isDigits, number, length, noZero⟩ :=
          ih (r / base) rest
        refine ⟨(r % base) :: digits, ?_, ?_, ?_, ?_, ?_⟩
        · rw [chunkDigits, if_neg done, text, List.map_cons]
        · intro d member
          cases member with
          | head => exact below
          | tail _ member => exact isDigits d member
        · rw [numeral_cons, number, digit, quotient]
          exact Nat.mod_add_div _ _
        · intro more
          rw [List.length_cons, length more]
        · intro isLast
          cases digits with
          | nil =>
              rw [numeral_nil, quotient] at number
              have whole := Nat.mod_add_div r.toNat base.toNat
              rw [← number, Nat.mul_zero, ← digit] at whole
              rw [List.getLast?_singleton]
              intro zero
              rw [Option.some.inj zero] at whole
              exact done ⟨isLast, UInt32.toNat_inj.mp whole.symm⟩
          | cons d digits =>
              rw [List.getLast?_cons_cons]
              exact noZero isLast

/-- The digits of a magnitude write its value, the highest not zero. -/
theorem radixLoop_spec
    (chunk : IsChunk base p k)
    (baseBound : 2 ≤ base.toNat)
    (turns : Nat)
    (t : List UInt32)
    (trimmed : Trimmed t)
    (enough : value t < 2 ^ turns) :
    ∃ digits, radixLoop base p k (turns + 1) t =
        some (digits.map digitChar) ∧
      Digits base digits ∧ numeral base digits = value t ∧
      digits.getLast? ≠ some 0 := by
  induction turns generalizing t with
  | zero =>
      have empty : t = [] := by
        rw [← value_eq_zero_iff trimmed]
        omega
      subst empty
      exact ⟨[], rfl, by simp [Digits], rfl, by simp⟩
  | succ turns ih =>
      by_cases empty : t = []
      · subst empty
        exact ⟨[], rfl, by simp [Digits], rfl, by simp⟩
      · have chunkBound : 2 ≤ p.toNat := by
          rw [chunk.power]
          calc 2 ≤ base.toNat := baseBound
            _ = base.toNat ^ 1 := (Nat.pow_one _).symm
            _ ≤ base.toNat ^ k :=
                Nat.pow_le_pow_right (by omega) chunk.positive
        obtain ⟨q, r, divided, quotient, remainder⟩ :=
          udivSmall_spec (show 0 < p.toNat by omega) t
        have qTrimmed : Trimmed q := by
          unfold udivSmall at divided
          split at divided
          · cases divided
          · cases divided
            exact trim_trimmed _
        have fewer : value q < 2 ^ turns := by
          rw [quotient, Nat.div_lt_iff_lt_mul (by omega)]
          calc value t < 2 ^ (turns + 1) := enough
            _ = 2 ^ turns * 2 := Nat.pow_succ ..
            _ ≤ 2 ^ turns * p.toNat := Nat.mul_le_mul_left _ chunkBound
        have rSmall : r.toNat < base.toNat ^ k := by
          rw [remainder, ← chunk.power]
          exact Nat.mod_lt _ (by omega)
        obtain ⟨low, lowText, lowDigits, lowNumber, lowLength, lowLast⟩ :=
          chunkDigits_spec baseBound q.isEmpty k r rSmall
        obtain ⟨high, highText, highDigits, highNumber, highLast⟩ :=
          ih q qTrimmed fewer
        have total : numeral base (low ++ high) = value t := by
          rw [numeral_append, lowNumber, highNumber, quotient, remainder]
          cases more : q.isEmpty with
          | true =>
              have zero : value t / p.toNat = 0 := by
                rw [← quotient, List.isEmpty_iff.mp more, value_nil]
              have whole := Nat.mod_add_div (value t) p.toNat
              rw [zero, Nat.mul_zero] at whole ⊢
              exact whole
          | false =>
              rw [lowLength more, ← chunk.power]
              exact Nat.mod_add_div _ _
        refine ⟨low ++ high, ?_, ?_, total, ?_⟩
        · rw [radixLoop, if_neg (by simpa using empty), divided]
          simp [lowText, highText]
        · intro d member
          rcases List.mem_append.mp member with member | member
          · exact lowDigits d member
          · exact highDigits d member
        · cases high with
          | nil =>
              rw [List.append_nil]
              refine lowLast ?_
              rw [numeral_nil] at highNumber
              rw [(value_eq_zero_iff qTrimmed).mp highNumber.symm]
              rfl
          | cons d high =>
              rw [List.getLast?_append_of_ne_nil _ (by simp)]
              exact highLast

/-- `to_string_radix` writes digits, highest first, of the value of the
integer; the highest is zero for zero only. -/
theorem BigInt.toStringRadix_spec
    (baseBound : 2 ≤ base.toNat)
    {self : BigInt}
    (formed : self.WellFormed) :
    ∃ digits, self.toStringRadix base =
        some (signed self.neg (digits.reverse.map digitChar)) ∧
      Digits base digits ∧ numeral base digits = value self.mag ∧
      digits ≠ [] ∧ (self.mag = [] → digits = [0]) ∧
      (self.mag ≠ [] → digits.getLast? ≠ some 0) := by
  obtain ⟨neg, mag⟩ := self
  by_cases zero : mag = []
  · subst zero
    have positive : neg = false := formed.unsigned rfl
    subst positive
    refine ⟨[0], rfl, ?_, by simp, by simp, by simp, by simp⟩
    intro d member
    rw [List.mem_singleton.mp member, UInt32.toNat_zero]
    omega
  · have enough : value mag < 2 ^ (32 * mag.length) := by
      rw [Nat.pow_mul]
      exact value_lt mag
    obtain ⟨digits, text, isDigits, number, noZero⟩ :=
      radixLoop_spec (baseChunk_spec base) baseBound (32 * mag.length) mag
        formed.trimmed enough
    have some : digits ≠ [] := by
      rintro rfl
      rw [numeral_nil] at number
      exact zero ((value_eq_zero_iff formed.trimmed).mp number.symm)
    refine ⟨digits, ?_, isDigits, number, some,
      fun empty => absurd empty zero, fun _ => noZero⟩
    unfold toStringRadix isZero signed
    rw [if_neg (by simpa using zero)]
    change Option.map _ (radixLoop base (baseChunk base).1 (baseChunk base).2
      (32 * mag.length + 1) mag) = _
    rw [text]
    cases neg <;> simp

/-! ## Decimal text -/

/-- The decimal digits, the lowest first. -/
def decimalDigits (number : Nat) : List UInt32 :=
  if number = 0 then [0] else (Nat.digits 10 number).map UInt32.ofNat

/-- `to_string` of a machine integer. -/
def display (number : Int) : List UInt8 :=
  signed (number < 0) ((decimalDigits number.natAbs).reverse.map digitChar)

def parseDigits : List UInt8 → Nat → Option Nat
  | [], number => some number
  | c :: s, number =>
      if 48 ≤ c ∧ c ≤ 57 then parseDigits s (number * 10 + (c.toNat - 48))
      else none

/-- The integer fits 128 bits. -/
def FitsI128 (number : Int) : Prop := -2 ^ 127 ≤ number ∧ number < 2 ^ 127

instance (number : Int) : Decidable (FitsI128 number) :=
  inferInstanceAs (Decidable (_ ∧ _))

/-- `parse::<i128>`: a sign, at least one digit and nothing else. -/
def parseI128 (s : List UInt8) : Option Int :=
  let neg := s.head? = some 45
  let s := if neg ∨ s.head? = some 43 then s.tail else s
  if s = [] then none
  else
    match parseDigits s 0 with
    | none => none
    | some number =>
        let number : Int := if neg then -(number : Int) else number
        if FitsI128 number then some number else none

theorem decimalDigits_spec (number : Nat) :
    Digits 10 (decimalDigits number) ∧
      numeral 10 (decimalDigits number) = number ∧
      decimalDigits number ≠ [] := by
  unfold decimalDigits
  by_cases zero : number = 0
  · rw [if_pos zero, zero]
    refine ⟨?_, rfl, by simp⟩
    intro d member
    rw [List.mem_singleton.mp member]
    decide
  · have small : ∀ d ∈ Nat.digits 10 number, d < 10 :=
      fun d member => Nat.digits_lt_base (by omega) member
    have same : ∀ d ∈ Nat.digits 10 number, (UInt32.ofNat d).toNat = d := by
      intro d member
      have below := small d member
      rw [UInt32.toNat_ofNat', Nat.mod_eq_of_lt (by omega)]
    rw [if_neg zero]
    refine ⟨?_, ?_, ?_⟩
    · intro d member
      obtain ⟨digit, inDigits, rfl⟩ := List.mem_map.mp member
      rw [same digit inDigits]
      exact small digit inDigits
    · unfold numeral
      rw [List.map_map]
      have identity : (Nat.digits 10 number).map
          (UInt32.toNat ∘ UInt32.ofNat) = Nat.digits 10 number :=
        (List.map_congr_left same).trans (List.map_id _)
      rw [identity]
      exact Nat.ofDigits_digits 10 number
    · simpa [Nat.digits_eq_nil_iff_eq_zero] using zero

theorem digitChar_decimal
    (small : d.toNat < 10) :
    48 ≤ digitChar d ∧ digitChar d ≤ 57 ∧
      (digitChar d).toNat - 48 = d.toNat := by
  have every : ∀ d : Fin 10,
      48 ≤ digitChar (UInt32.ofNat d) ∧ digitChar (UInt32.ofNat d) ≤ 57 ∧
        (digitChar (UInt32.ofNat d)).toNat - 48 =
          (UInt32.ofNat d).toNat := by
    decide
  have this := every ⟨d.toNat, small⟩
  rwa [UInt32.ofNat_toNat] at this

theorem parseDigits_spec
    (digits : List UInt32)
    (isDigits : Digits 10 digits)
    (number : Nat) :
    parseDigits (digits.map digitChar) number =
      some (digits.foldl
        (fun number d => number * (10 : UInt32).toNat + d.toNat) number) := by
  induction digits generalizing number with
  | nil => rfl
  | cons d digits ih =>
      obtain ⟨low, high, digit⟩ :=
        digitChar_decimal (isDigits d List.mem_cons_self)
      rw [List.map_cons, parseDigits, if_pos ⟨low, high⟩, digit,
        ih fun other member =>
          isDigits other (List.mem_cons_of_mem _ member)]
      rfl

/-- `parse` reads decimal digits, highest first, as the integer they write,
where it fits. -/
theorem parseI128_digits
    (isDigits : Digits 10 digits)
    (nonempty : digits ≠ [])
    (neg : Bool) :
    parseI128 (signed neg (digits.reverse.map digitChar)) =
      if FitsI128
        (if neg then -(numeral 10 digits : Int) else numeral 10 digits) then
        some (if neg then -(numeral 10 digits : Int) else numeral 10 digits)
      else none := by
  have reversed : Digits 10 digits.reverse := by
    intro d member
    exact isDigits d (List.mem_reverse.mp member)
  have parsed : parseDigits (digits.reverse.map digitChar) 0 =
      some (numeral 10 digits) := by
    rw [parseDigits_spec _ reversed, foldl_reverse_eq_numeral]
  have some : digits.reverse.map digitChar ≠ [] := by simpa using nonempty
  unfold parseI128 signed
  cases neg with
  | true =>
      simp only [if_true, List.head?_cons, true_or, List.tail_cons]
      rw [if_neg some, parsed]
  | false =>
      have noMinus := head_digits (by decide) reversed 45 (by decide)
      have noPlus := head_digits (by decide) reversed 43 (by decide)
      simp only [Bool.false_eq_true, if_false, noMinus, noPlus, or_self]
      rw [if_neg some, parsed]

/-- The decimal text of a big integer is read back where it fits. -/
theorem BigInt.parseI128_toStringRadix
    {self : BigInt}
    (formed : self.WellFormed) :
    ∃ text, self.toStringRadix 10 = some text ∧
      parseI128 text =
        if FitsI128 self.toInt then some self.toInt else none := by
  obtain ⟨digits, text, isDigits, number, nonempty, _⟩ :=
    toStringRadix_spec (show 2 ≤ (10 : UInt32).toNat by decide) formed
  refine ⟨_, text, ?_⟩
  rw [parseI128_digits isDigits nonempty, number]
  rfl

/-- `from_str` reads the decimal text of an integer. -/
theorem BigInt.fromStr_display (number : Int) :
    ∃ read, BigInt.fromStr (display number) 10 = some read ∧
      read.WellFormed ∧ read.toInt = number := by
  obtain ⟨isDigits, value, nonempty⟩ := decimalDigits_spec number.natAbs
  obtain ⟨read, parsed, formed, same⟩ :=
    fromStr_digits (by decide) (by decide) isDigits nonempty (number < 0)
  refine ⟨read, parsed, formed, ?_⟩
  rw [same, value]
  by_cases negative : number < 0
  · simp only [negative, decide_true, if_true]
    omega
  · simp only [negative, decide_false, Bool.false_eq_true, if_false]
    omega

end SabiRuby.Integer
