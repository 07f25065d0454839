import SabiRuby.Integer.Arithmetic
import SabiRuby.Integer.Text

/-!
# The round trip of text

What is written is the numeral of the integer, and it is read back as the
integer.  Whatever text is read has the value of its digits, and neither
direction overflows a word.
-/

namespace SabiRuby.Integer

/-! ## The conversions with checked words -/

def baseChunkLoopChecked (base : UInt64) :
    Nat → UInt64 → Nat → Option (UInt64 × Nat)
  | 0, p, k => some (p, k)
  | turns + 1, p, k => do
      let next ← mulChecked p base
      if next ≤ 0xFFFFFFFF then
        baseChunkLoopChecked base turns next (k + 1)
      else some (p, k)

/-- `baseChunk`. -/
def baseChunkChecked (base : UInt32) : Option (UInt32 × Nat) :=
  (baseChunkLoopChecked base.toUInt64 32 base.toUInt64 1).map
    fun (p, k) => (p.toUInt32, k)

def umulSmallLoopChecked (d : UInt32) :
    List UInt32 → UInt64 → Option (List UInt32)
  | [], carry =>
      some (if carry = 0 then []
      else carry.toUInt32 ::
        if carry >>> 32 = 0 then [] else [(carry >>> 32).toUInt32])
  | x :: a, carry => do
      let product ← mulChecked x.toUInt64 d.toUInt64
      let t ← addChecked product carry
      (umulSmallLoopChecked d a (t >>> 32)).map (t.toUInt32 :: ·)

/-- `umulSmall`. -/
def umulSmallChecked (a : List UInt32) (d add : UInt32) :
    Option (List UInt32) :=
  (umulSmallLoopChecked d a add.toUInt64).map trim

/-- `basePower`. -/
def basePowerChecked (base : UInt32) : Nat → Option UInt32
  | 0 => some 1
  | n + 1 => do
      let power ← basePowerChecked base n
      mulLimbs power base

/-- `Reading.push`. -/
def Reading.pushChecked (reading : Reading) (base chunk : UInt32) (k : Nat)
    (d : UInt32) : Option Reading := do
  let product ← mulLimbs reading.acc base
  let acc ← addLimbs product d
  if reading.n + 1 = k then
    let mag ← umulSmallChecked reading.mag chunk acc
    some { mag := mag, acc := 0, n := 0, any := true }
  else some { reading with acc := acc, n := reading.n + 1, any := true }

/-- `fromStrLoop`; the inner result is its own, which may be a refusal. -/
def fromStrLoopChecked (base chunk : UInt32) (k : Nat) :
    List UInt8 → Reading → Option (Option Reading)
  | [], reading => some (some reading)
  | c :: s, reading =>
      if c = 95 then fromStrLoopChecked base chunk k s reading
      else
        match digitVal c with
        | none => some none
        | some d =>
            if base ≤ d then some none
            else do
              let reading ← reading.pushChecked base chunk k d
              fromStrLoopChecked base chunk k s reading

/-- `radixLoop`. -/
def radixLoopChecked (base chunk : UInt32) (k : Nat) :
    Nat → List UInt32 → Option (List UInt8)
  | 0, _ => none
  | turns + 1, t =>
      if t.isEmpty then some []
      else do
        let (t, r) ← udivSmallChecked t chunk
        let rest ← radixLoopChecked base chunk k turns t
        some (chunkDigits base t.isEmpty k r ++ rest)

namespace BigInt

/-- `fromStr`. -/
def fromStrChecked (s : List UInt8) (base : UInt32) :
    Option (Option BigInt) := do
  let neg := s.head? = some 45
  let s := if neg ∨ s.head? = some 43 then s.tail else s
  let (chunk, k) ← baseChunkChecked base
  match ← fromStrLoopChecked base chunk k s ⟨[], 0, 0, false⟩ with
  | none => some none
  | some reading =>
      if !reading.any then some none
      else if 0 < reading.n then do
        let m ← basePowerChecked base reading.n
        let mag ← umulSmallChecked reading.mag m reading.acc
        some (some (make neg mag))
      else some (some (make neg reading.mag))

/-- `toStringRadix`. -/
def toStringRadixChecked (self : BigInt) (base : UInt32) :
    Option (List UInt8) :=
  if self.isZero then some [48]
  else do
    let (chunk, k) ← baseChunkChecked base
    (radixLoopChecked base chunk k (32 * self.mag.length + 1) self.mag).map
      fun out => (out ++ if self.neg then [45] else []).reverse

end BigInt

/-! ## No word overflows -/

theorem baseChunkLoopChecked_eq
    (base : UInt64)
    (small : base.toNat < 2 ^ 32)
    (turns : Nat)
    (pSmall : p.toNat < 2 ^ 32) :
    baseChunkLoopChecked base turns p k =
      some (baseChunkLoop base turns p k) := by
  induction turns generalizing p k with
  | zero => rfl
  | succ turns ih =>
      have product : p.toNat * base.toNat < 2 ^ 32 * 2 ^ 32 :=
        Nat.mul_lt_mul'' pSmall small
      rw [baseChunkLoopChecked, baseChunkLoop, mulChecked_eq product,
        Option.bind_eq_bind, Option.bind_some]
      by_cases fits : p * base ≤ 0xFFFFFFFF
      · rw [if_pos fits, if_pos fits]
        have bound := UInt64.le_iff_toNat_le.mp fits
        change (p * base).toNat ≤ 0xFFFFFFFF at bound
        exact ih (by omega)
      · rw [if_neg fits, if_neg fits]

theorem baseChunkChecked_eq (base : UInt32) :
    baseChunkChecked base = some (baseChunk base) := by
  have bound : base.toUInt64.toNat < 2 ^ 32 := by
    rw [UInt32.toNat_toUInt64]
    exact base.toNat_lt
  rw [baseChunkChecked, baseChunkLoopChecked_eq _ bound 32 bound]
  rfl

theorem umulSmallLoopChecked_eq
    (d : UInt32)
    (a : List UInt32)
    (carryBound : carry.toNat < 2 ^ 32) :
    umulSmallLoopChecked d a carry = some (umulSmallLoop d a carry) := by
  induction a generalizing carry with
  | nil => rfl
  | cons x a ih =>
      have xBound := x.toNat_lt
      have dBound := d.toNat_lt
      have product : x.toNat * d.toNat ≤ (2 ^ 32 - 1) * (2 ^ 32 - 1) :=
        Nat.mul_le_mul (by omega) (by omega)
      have wordProduct := @mulChecked_eq x.toUInt64 d.toUInt64 (by
        rw [UInt32.toNat_toUInt64, UInt32.toNat_toUInt64]
        omega)
      have wordSum := @addChecked_eq (x.toUInt64 * d.toUInt64) carry (by
        rw [UInt64.toNat_mul, UInt32.toNat_toUInt64, UInt32.toNat_toUInt64]
        omega)
      have high : ((x.toUInt64 * d.toUInt64 + carry) >>> 32).toNat <
          2 ^ 32 := by
        have shifted : ((x.toUInt64 * d.toUInt64 + carry) >>> 32).toNat =
            (x.toUInt64 * d.toUInt64 + carry).toNat / 2 ^ 32 := by
          simp [UInt64.toNat_shiftRight, Nat.shiftRight_eq_div_pow]
        have bound := (x.toUInt64 * d.toUInt64 + carry).toNat_lt
        omega
      rw [umulSmallLoopChecked, wordProduct, Option.bind_eq_bind,
        Option.bind_some, wordSum, Option.bind_some,
        ih high, Option.map_some, umulSmallLoop]

theorem umulSmallChecked_eq (a : List UInt32) (d add : UInt32) :
    umulSmallChecked a d add = some (umulSmall a d add) := by
  have bound : add.toUInt64.toNat < 2 ^ 32 := by
    rw [UInt32.toNat_toUInt64]
    exact add.toNat_lt
  rw [umulSmallChecked, umulSmallLoopChecked_eq d a bound, Option.map_some,
    umulSmall]

theorem basePowerChecked_eq
    (base : UInt32)
    (n : Nat)
    (fits : ∀ i ≤ n, base.toNat ^ i < 2 ^ 32) :
    basePowerChecked base n = some (basePower base n) := by
  induction n with
  | zero => rfl
  | succ n ih =>
      have prior := ih fun i below => fits i (by omega)
      have power := toNat_basePower base n fun i below => fits i (by omega)
      have bound := fits (n + 1) (Nat.le_refl _)
      rw [basePowerChecked, prior, Option.bind_eq_bind, Option.bind_some,
        basePower]
      apply mulLimbs_eq
      rwa [power, ← Nat.pow_succ]

theorem Reading.Sound.pushChecked_eq
    {reading : Reading}
    (sound : reading.Sound base k)
    (chunk : IsChunk base p k)
    (baseBound : 2 ≤ base.toNat)
    (digit : d.toNat < base.toNat) :
    reading.pushChecked base p k d = some (reading.push base p k d) := by
  have limb := chunk.pow_lt baseBound (reading.n + 1)
    (Nat.succ_le_of_lt sound.short)
  have total := sound.next_lt digit
  have product := @mulLimbs_eq reading.acc base (by omega)
  have sum := @addLimbs_eq (reading.acc * base) d (by
    rw [UInt32.toNat_mul, Nat.mod_eq_of_lt (by omega)]
    omega)
  unfold Reading.pushChecked Reading.push
  simp only [product, sum, umulSmallChecked_eq, Option.bind_eq_bind,
    Option.bind_some]
  split <;> rfl

/-- A chunk of digits is read without overflow, whatever the text. -/
theorem fromStrLoopChecked_eq
    (chunk : IsChunk base p k)
    (baseBound : 2 ≤ base.toNat)
    (s : List UInt8)
    {reading : Reading}
    (sound : reading.Sound base k) :
    fromStrLoopChecked base p k s reading =
      some (fromStrLoop base p k s reading) := by
  induction s generalizing reading with
  | nil => rfl
  | cons c s ih =>
      rw [fromStrLoopChecked, fromStrLoop]
      by_cases separator : c = 95
      · rw [if_pos separator, if_pos separator]
        exact ih sound
      · rw [if_neg separator, if_neg separator]
        cases digit : digitVal c with
        | none => rfl
        | some d =>
            dsimp only
            by_cases large : base ≤ d
            · rw [if_pos large, if_pos large]
            · have below : d.toNat < base.toNat := by
                rw [UInt32.le_iff_toNat_le] at large
                omega
              rw [if_neg large, if_neg large,
                sound.pushChecked_eq chunk baseBound below,
                Option.bind_eq_bind, Option.bind_some]
              exact ih
                (sound.push chunk baseBound below).1

theorem radixLoopChecked_eq
    (positive : 0 < p.toNat)
    (turns : Nat)
    (t : List UInt32) :
    radixLoopChecked base p k turns t = radixLoop base p k turns t := by
  induction turns generalizing t with
  | zero => rfl
  | succ turns ih =>
      simp only [radixLoopChecked, radixLoop, udivSmallChecked_eq positive,
        ih]

/-! ## What is read -/

/-- The digits of a text, the highest first; underscores are ignored. -/
def digitsOf (base : UInt32) (s : List UInt8) : Option (List UInt32) :=
  (s.filter (· ≠ 95)).mapM fun c => (digitVal c).filter (· < base)

/-- The text behind its sign. -/
def unsignedText (s : List UInt8) : List UInt8 :=
  if s.head? = some 45 ∨ s.head? = some 43 then s.tail else s

/-- A text is read to the number its digits write, or it is refused. -/
theorem fromStrLoop_of_digitsOf
    (chunk : IsChunk base p k)
    (baseBound : 2 ≤ base.toNat)
    (s : List UInt8)
    (sound : reading.Sound base k) :
    match digitsOf base s with
    | none => fromStrLoop base p k s reading = none
    | some digits => ∃ after, fromStrLoop base p k s reading = some after ∧
        after.Sound base k ∧
        (after.any = true ↔ reading.any = true ∨ digits ≠ []) ∧
        after.number base =
          digits.foldl (fun number d => number * base.toNat + d.toNat)
            (reading.number base) := by
  induction s generalizing reading with
  | nil => exact ⟨reading, rfl, sound, by simp, rfl⟩
  | cons c s ih =>
      rw [fromStrLoop]
      by_cases separator : c = 95
      · have skipped : digitsOf base (c :: s) = digitsOf base s := by
          unfold digitsOf
          rw [List.filter_cons_of_neg (by simp [separator])]
        rw [if_pos separator, skipped]
        exact ih sound
      · have first : digitsOf base (c :: s) =
            ((digitVal c).filter (· < base)).bind fun d =>
              (digitsOf base s).map (d :: ·) := by
          unfold digitsOf
          rw [List.filter_cons_of_pos (by simpa using separator),
            List.mapM_cons]
          simp only [Option.bind_eq_bind, Option.map_eq_bind,
            Option.pure_def]
          rfl
        rw [if_neg separator, first]
        cases digit : digitVal c with
        | none => rfl
        | some d =>
            by_cases large : base ≤ d
            · have refused : (some d).filter (· < base) = none := by
                simp [Option.filter, large]
              rw [refused]
              simp [large]
            · have below : d.toNat < base.toNat := by
                rw [UInt32.le_iff_toNat_le] at large
                omega
              have taken : (some d).filter (· < base) = some d := by
                have less : d < base := by
                  rw [UInt32.lt_iff_toNat_lt]
                  exact below
                simp [Option.filter, less]
              obtain ⟨pushed, number⟩ := sound.push chunk baseBound below
              have rest := ih pushed
              have seen : (reading.push base p k d).any = true := by
                unfold Reading.push
                split <;> rfl
              rw [taken, Option.bind_some]
              simp only [if_neg large]
              cases others : digitsOf base s with
              | none =>
                  rw [others] at rest
                  exact rest
              | some digits =>
                  rw [others] at rest
                  obtain ⟨after, ran, afterSound, any, final⟩ := rest
                  refine ⟨after, ran, afterSound, ?_, ?_⟩
                  · rw [any, seen]
                    simp
                  · rw [final, number, List.foldl_cons]

namespace BigInt

theorem fromStr_eq
    (baseBound : 2 ≤ base.toNat)
    (s : List UInt8) :
    match digitsOf base (unsignedText s) with
    | none => fromStr s base = none
    | some digits => if digits = [] then fromStr s base = none
        else ∃ number, fromStr s base = some number ∧ number.WellFormed ∧
          number.toInt = if s.head? = some 45
            then -(numeral base digits.reverse : Int)
            else numeral base digits.reverse := by
  have chunk := baseChunk_spec base
  have start : Reading.Sound ⟨[], 0, 0, false⟩ base (baseChunk base).2 :=
    ⟨chunk.positive, Nat.one_pos⟩
  have loop := fromStrLoop_of_digitsOf chunk baseBound (unsignedText s) start
  have textEq : (if s.head? = some 45 ∨ s.head? = some 43
      then s.tail else s) = unsignedText s := rfl
  cases read : digitsOf base (unsignedText s) with
  | none =>
      rw [read] at loop
      unfold fromStr
      dsimp only
      rw [textEq, loop]
  | some digits =>
      rw [read] at loop
      obtain ⟨reading, ran, sound, any, total⟩ := loop
      dsimp only
      by_cases empty : digits = []
      · have unread : reading.any = false := by
          rw [Bool.eq_false_iff]
          intro seen
          rcases any.mp seen with before | some_
          · cases before
          · exact some_ empty
        rw [if_pos empty]
        unfold fromStr
        dsimp only
        rw [textEq, ran]
        simp [unread]
      · have seen : reading.any = true := any.mpr (Or.inr empty)
        have number : reading.number base = numeral base digits.reverse := by
          rw [total, ← foldl_reverse_eq_numeral, List.reverse_reverse]
          rfl
        have last := sound.finish chunk baseBound
        rw [number] at last
        rw [if_neg empty]
        refine ⟨make (s.head? = some 45) (if 0 < reading.n then
            umulSmall reading.mag (basePower base reading.n) reading.acc
          else reading.mag), ?_, wellFormed_make _ _, ?_⟩
        · unfold fromStr
          dsimp only
          rw [textEq, ran]
          simp [seen]
        · rw [toInt_make, last]
          simp

theorem fromStrChecked_eq
    (baseBound : 2 ≤ base.toNat)
    (s : List UInt8) : fromStrChecked s base = some (fromStr s base) := by
  have chunk := baseChunk_spec base
  have start : Reading.Sound ⟨[], 0, 0, false⟩ base (baseChunk base).2 :=
    ⟨chunk.positive, Nat.one_pos⟩
  have loop := fromStrLoop_of_digitsOf chunk baseBound (unsignedText s) start
  have textEq : (if s.head? = some 45 ∨ s.head? = some 43
      then s.tail else s) = unsignedText s := rfl
  unfold fromStrChecked fromStr
  simp only [baseChunkChecked_eq, Option.bind_eq_bind, Option.bind_some,
    textEq, fromStrLoopChecked_eq chunk baseBound (unsignedText s) start]
  cases read : fromStrLoop base (baseChunk base).1 (baseChunk base).2
      (unsignedText s) ⟨[], 0, 0, false⟩ with
  | none => rfl
  | some reading =>
      have sound : reading.Sound base (baseChunk base).2 := by
        rw [read] at loop
        cases digits : digitsOf base (unsignedText s) with
        | none =>
            rw [digits] at loop
            cases loop
        | some digits_ =>
            rw [digits] at loop
            obtain ⟨after, ran, sound, _⟩ := loop
            rw [Option.some.inj ran]
            exact sound
      have power := basePowerChecked_eq base reading.n fun i below =>
        chunk.pow_lt baseBound i
          (Nat.le_trans below (Nat.le_of_lt sound.short))
      simp only [power, umulSmallChecked_eq, Option.bind_some]
      split
      · rfl
      · split <;> rfl

theorem toStringRadixChecked_eq
    (baseBound : 2 ≤ base.toNat)
    (self : BigInt) :
    self.toStringRadixChecked base = self.toStringRadix base := by
  have positive : 0 < (baseChunk base).1.toNat := by
    rw [(baseChunk_spec base).power]
    exact Nat.pow_pos (by omega)
  unfold toStringRadixChecked toStringRadix
  simp only [baseChunkChecked_eq, Option.bind_eq_bind, Option.bind_some,
    radixLoopChecked_eq positive]

end BigInt

/-! ## What is written -/

/-- The digits of a number as text, the highest first. -/
def numeralText (base : UInt32) (number : Nat) : List UInt8 :=
  if number = 0 then [48]
  else (Nat.digits base.toNat number).reverse.map fun d =>
    digitChar (UInt32.ofNat d)

theorem map_digitChar_eq
    (baseBound : 2 ≤ base.toNat)
    (isDigits : Digits base digits)
    (noZero : digits.getLast? ≠ some 0)
    (nonempty : digits ≠ []) :
    digits.reverse.map digitChar = numeralText base (numeral base digits) := by
  have digitsEq : Nat.digits base.toNat (numeral base digits) =
      digits.map UInt32.toNat := by
    refine Nat.digits_ofDigits base.toNat baseBound _ ?_ ?_
    · intro d member
      obtain ⟨digit, inDigits, rfl⟩ := List.mem_map.mp member
      exact isDigits digit inDigits
    · intro some_
      rw [List.getLast_map]
      intro zero
      refine noZero ?_
      rw [List.getLast?_eq_some_getLast nonempty]
      exact congrArg some (UInt32.toNat_inj.mp zero)
  have positive : numeral base digits ≠ 0 := by
    intro zero
    rw [zero, Nat.digits_zero] at digitsEq
    exact nonempty (List.map_eq_nil_iff.mp digitsEq.symm)
  unfold numeralText
  rw [if_neg positive, digitsEq, ← List.map_reverse, List.map_map]
  apply List.map_congr_left
  intro d _
  rw [Function.comp_apply, UInt32.ofNat_toNat]

theorem BigInt.toStringRadix_eq
    (baseBound : 2 ≤ base.toNat)
    {self : BigInt}
    (formed : self.WellFormed) :
    self.toStringRadix base =
      some ((if self.toInt < 0 then [45] else []) ++
        numeralText base self.toInt.natAbs) := by
  obtain ⟨digits, text, isDigits, number, nonempty, zero, noZero⟩ :=
    toStringRadix_spec baseBound formed
  have sign : signed self.neg (digits.reverse.map digitChar) =
      (if self.toInt < 0 then [45] else []) ++
        digits.reverse.map digitChar := by
    have negative := formed.neg_iff
    unfold signed
    by_cases below : self.toInt < 0
    · rw [if_pos (negative.mpr below), if_pos below]
      rfl
    · rw [if_neg (mt negative.mp below), if_neg below]
      rfl
  rw [text, sign, natAbs_toInt]
  congr 2
  by_cases empty : self.mag = []
  · rw [zero empty, empty]
    rfl
  · rw [map_digitChar_eq baseBound isDigits (noZero empty) nonempty, number]

/-- Text is written as the digits of the integer and read back as it; what is
read has the value of its digits.  The conversions that check their words come
to the same results. -/
theorem text_round_trip
    (baseBound : 2 ≤ base.toNat)
    (baseSmall : base.toNat ≤ 36) :
    (∀ b : BigInt, b.WellFormed → ∃ text,
      b.toStringRadix base = some text ∧
      b.toStringRadixChecked base = some text ∧
      BigInt.fromStr text base = some b ∧
      text = (if b.toInt < 0 then [45] else []) ++
        numeralText base b.toInt.natAbs) ∧
    ∀ s : List UInt8,
      BigInt.fromStrChecked s base = some (BigInt.fromStr s base) ∧
      ∀ b, BigInt.fromStr s base = some b ↔
        ∃ digits, digitsOf base (unsignedText s) = some digits ∧
          digits ≠ [] ∧ b.WellFormed ∧
          b.toInt = if s.head? = some 45
            then -(numeral base digits.reverse : Int)
            else numeral base digits.reverse := by
  constructor
  · intro b formed
    obtain ⟨digits, text, isDigits, number, nonempty, _⟩ :=
      BigInt.toStringRadix_spec baseBound formed
    obtain ⟨read, parsed, readFormed, same⟩ :=
      fromStr_digits baseBound baseSmall isDigits nonempty b.neg
    have written := BigInt.toStringRadix_eq baseBound formed
    have sameInt : read.toInt = b.toInt := by
      rw [same, number]
      rfl
    refine ⟨_, text, ?_, ?_, ?_⟩
    · rw [BigInt.toStringRadixChecked_eq baseBound, text]
    · rw [parsed, readFormed.eq_of_toInt formed sameInt]
    · exact Option.some.inj (text.symm.trans written)
  · intro s
    refine ⟨BigInt.fromStrChecked_eq baseBound s, ?_⟩
    intro b
    have loop := BigInt.fromStr_eq baseBound s
    cases read : digitsOf base (unsignedText s) with
    | none =>
        rw [read] at loop
        simp [loop]
    | some digits =>
        rw [read] at loop
        dsimp only at loop
        by_cases empty : digits = []
        · rw [if_pos empty] at loop
          simp [loop, empty]
        · rw [if_neg empty] at loop
          obtain ⟨number, parsed, formed, total⟩ := loop
          rw [parsed]
          constructor
          · intro same
            rw [← Option.some.inj same]
            exact ⟨digits, rfl, empty, formed, total⟩
          · rintro ⟨others, same, _, bFormed, bTotal⟩
            rw [← Option.some.inj same] at bTotal
            congr 1
            exact formed.eq_of_toInt bFormed (total.trans bTotal.symm)

theorem text_round_trip_at :
    2 ≤ (7 : UInt32).toNat ∧ (7 : UInt32).toNat ≤ 36 ∧
      (BigInt.WellFormed ⟨true, [0, 0, 1]⟩ ∧ ∃ text,
        BigInt.toStringRadix ⟨true, [0, 0, 1]⟩ 7 = some text ∧
          BigInt.fromStr text 7 = some ⟨true, [0, 0, 1]⟩) ∧
      BigInt.fromStrChecked [45, 49, 95, 50] 7 =
        some (BigInt.fromStr [45, 49, 95, 50] 7) := by
  obtain ⟨written, read⟩ :=
    text_round_trip (show 2 ≤ (7 : UInt32).toNat by decide) (by decide)
  have formed : BigInt.WellFormed ⟨true, [0, 0, 1]⟩ :=
    ⟨by decide, by decide⟩
  obtain ⟨text, wrote, _, same, _⟩ := written _ formed
  exact ⟨by decide, by decide, ⟨formed, text, wrote, same⟩,
    (read [45, 49, 95, 50]).1⟩

end SabiRuby.Integer
