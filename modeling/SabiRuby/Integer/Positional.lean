import SabiRuby.Integer.Scanner
import Mathlib.Tactic.ByContra

/-!
# When a text is read by position

A text should be read as the number its digits write, up to a doubled underscore
or the first character that is no digit.  The scanner does so until the number
leaves the machine integers; then it reads on past a doubled underscore, or not
on at all where it met the least machine integer.
-/

namespace SabiRuby.Integer

/-! ## The rule -/

/-- The radix a letter behind a `0` stands for. -/
def letterRadix (c : UInt8) : Option Nat :=
  if c = 120 ∨ c = 88 then some 16
  else if c = 98 ∨ c = 66 then some 2
  else if c = 111 ∨ c = 79 then some 8
  else if c = 100 ∨ c = 68 then some 10
  else none

/-- The radix that a text names before its digits. -/
def namedRadix : List UInt8 → Nat
  | 48 :: c :: _ => (letterRadix c).getD 8
  | [48] => 8
  | _ => 10

/-- The text behind the prefix of a radix. -/
def behindPrefix (radix : Nat) : List UInt8 → List UInt8
  | 48 :: c :: rest =>
      if letterRadix c = some radix then rest else 48 :: c :: rest
  | t => t

/-- What a text says before its digits. -/
structure Header where
  negative : Bool
  radix : Nat
  body : List UInt8

/-- Blanks, one sign and a radix prefix.  Base 0 takes the radix the text
names. -/
def header (s : List UInt8) (base : Nat) : Header :=
  let (negative, t) := match s.dropWhile isSpace with
    | 43 :: t => (false, t)
    | 45 :: t => (true, t)
    | t => (false, t)
  let radix := if base = 0 then namedRadix t else base
  ⟨negative, radix, behindPrefix radix t⟩

/-- Digits with single underscores between them. -/
def digitRun (base : Nat) : List UInt8 → List Nat
  | [] => []
  | [c] => (baseDigit base c).toList
  | c :: c' :: s =>
      match baseDigit base c with
      | none => []
      | some d =>
          d :: if c' = 95 then digitRun base s else digitRun base (c' :: s)

/-- The number that digits write behind another one. -/
def writes (base acc : Nat) (digits : List Nat) : Nat :=
  digits.foldl (fun number d => number * base + d) acc

/-- The number a text writes, without its sign. -/
def magnitudeOf (s : List UInt8) (base : Nat) : Nat :=
  let h := header s base
  writes h.radix 0 (digitRun h.radix h.body)

/-- The number a text writes. -/
def positional (s : List UInt8) (base : Nat) : Int :=
  if (header s base).negative then -(magnitudeOf s base : Int)
  else magnitudeOf s base

/-! ## The condition -/

/-- The digits with any underscores between them. -/
def looseRun (base : Nat) (s : List UInt8) : List Nat :=
  (s.takeWhile fun c => c = 95 ∨ (baseDigit base c).isSome).filterMap
    (baseDigit base)

/-- A negative text whose digits begin with those of the least machine integer,
which do not end in a zero. -/
def MeetsMinimum (negative : Bool) (base number : Nat) : Prop :=
  negative = true ∧ 2 ^ 63 % base ≠ 0 ∧ ∃ k, number / base ^ k = 2 ^ 63

/-- The number is no wider than a machine integer; or it is the least one, met
on the way; or the digits do not begin with it, and none follows a doubled
underscore. -/
def ReadByPosition (s : List UInt8) (base : Nat) : Prop :=
  let h := header s base
  let number := magnitudeOf s base
  number < 2 ^ 63 ∨
    (MeetsMinimum h.negative h.radix number ∧ number = 2 ^ 63) ∨
      (¬MeetsMinimum h.negative h.radix number ∧
        looseRun h.radix h.body = digitRun h.radix h.body)

/-! ## Digits -/

theorem baseDigit_underscore (base : Nat) : baseDigit base 95 = none := by
  rfl

theorem baseDigit_lt (found : baseDigit base c = some d) : d < base := by
  unfold baseDigit at found
  rw [Option.filter_eq_some_iff] at found
  simpa using found.2

/-- The digits from a position inside the digits. -/
def runAt (base : Nat) (under : Bool) (s : List UInt8) : List Nat :=
  if !under ∧ s.head? = some 95 then digitRun base s.tail else digitRun base s

theorem digitRun_cons
    (s : List UInt8)
    (found : baseDigit base c = some d) :
    digitRun base (c :: s) = d :: runAt base false s := by
  cases s with
  | nil => simp [digitRun, runAt, found]
  | cons c' s =>
      by_cases under : c' = 95 <;> simp [digitRun, runAt, found, under]

theorem digitRun_none
    (s : List UInt8)
    (none : baseDigit base c = none) : digitRun base (c :: s) = [] := by
  cases s <;> simp [digitRun, none]

theorem runAt_lt
    (base : Nat)
    (s : List UInt8)
    (under : Bool) : ∀ d ∈ runAt base under s, d < base := by
  induction s generalizing under with
  | nil => simp [runAt, digitRun]
  | cons c s ih =>
      have plain : ∀ d ∈ digitRun base (c :: s), d < base := by
        cases found : baseDigit base c with
        | none => simp [digitRun_none s found]
        | some d =>
            rw [digitRun_cons s found, List.forall_mem_cons]
            exact ⟨baseDigit_lt found, ih false⟩
      unfold runAt
      by_cases passed : !under ∧ (c :: s).head? = some 95
      · have rest := ih true
        rw [if_pos passed]
        simpa [runAt] using rest
      · rw [if_neg passed]
        exact plain

/-! ## Numbers -/

theorem writes_eq (base acc : Nat) (digits : List Nat) :
    writes base acc digits =
      acc * base ^ digits.length + writes base 0 digits := by
  unfold writes
  induction digits generalizing acc with
  | nil => simp
  | cons d digits ih =>
      rw [List.foldl_cons, List.foldl_cons, ih,
        ih (0 * base + d), List.length_cons, pow_succ]
      ring

theorem writes_lt
    (digits : List Nat)
    (below : ∀ d ∈ digits, d < base) :
    writes base 0 digits < base ^ digits.length := by
  induction digits with
  | nil => simp [writes]
  | cons d digits ih =>
      rw [List.forall_mem_cons] at below
      have rest := ih below.2
      have split : writes base 0 (d :: digits) =
          d * base ^ digits.length + writes base 0 digits := by
        rw [writes, List.foldl_cons, Nat.zero_mul, Nat.zero_add]
        exact writes_eq base d digits
      rw [split, List.length_cons, pow_succ']
      calc d * base ^ digits.length + writes base 0 digits
          < (d + 1) * base ^ digits.length := by
            rw [Nat.succ_mul]
            omega
        _ ≤ base * base ^ digits.length := Nat.mul_le_mul_right _ below.1

/-- The number before some digits. -/
theorem writes_div
    (digits : List Nat)
    (below : ∀ d ∈ digits, d < base) :
    writes base acc digits / base ^ digits.length = acc := by
  have small := writes_lt digits below
  have positive : 0 < base ^ digits.length := Nat.zero_lt_of_lt small
  rw [writes_eq, Nat.add_comm, Nat.add_mul_div_right _ _ positive,
    Nat.div_eq_of_lt small, Nat.zero_add]

theorem writes_ge
    (baseBound : 2 ≤ base)
    (digits : List Nat) : acc ≤ writes base acc digits := by
  have positive : 0 < base ^ digits.length := Nat.pow_pos (by omega)
  rw [writes_eq]
  exact (Nat.le_mul_of_pos_right acc positive).trans (Nat.le_add_right _ _)

/-- A number that leaves the machine integers at some digit: what is before that
digit decides whether the least machine integer was met. -/
theorem meets_iff
    (digits : List Nat)
    (below : ∀ d ∈ digits, d < base)
    (baseBound : 2 ≤ base)
    (small : acc < 2 ^ 63)
    (large : 2 ^ 63 ≤ acc * base + d)
    (digit : d < base) :
    (∃ k, writes base (acc * base + d) digits / base ^ k = 2 ^ 63) ↔
      acc * base + d = 2 ^ 63 := by
  have here := @writes_div base (acc * base + d) digits below
  constructor
  · rintro ⟨k, quotient⟩
    rcases Nat.lt_trichotomy k digits.length with fewer | same | more
    · -- with fewer digits cut off the number is at least twice as large
      have split : base ^ digits.length =
          base ^ k * base ^ (digits.length - k) := by
        rw [← pow_add]
        congr 1
        omega
      rw [split, ← Nat.div_div_eq_div_mul, quotient] at here
      have twice : 2 ≤ base ^ (digits.length - k) :=
        baseBound.trans (Nat.le_self_pow (by omega) base)
      have half : 2 ^ 63 / base ^ (digits.length - k) ≤ 2 ^ 63 / 2 :=
        Nat.div_le_div_left twice (by decide)
      have value : (2 : Nat) ^ 63 / 2 < 2 ^ 63 := by decide
      omega
    · rw [same, here] at quotient
      exact quotient
    · have split : base ^ k =
          base ^ digits.length * base ^ (k - digits.length) := by
        rw [← pow_add]
        congr 1
        omega
      rw [split, ← Nat.div_div_eq_div_mul, here] at quotient
      have one : base ≤ base ^ (k - digits.length) :=
        Nat.le_self_pow (by omega) base
      have cut : (acc * base + d) / base ^ (k - digits.length) ≤
          (acc * base + d) / base :=
        Nat.div_le_div_left one (by omega)
      have before : (acc * base + d) / base = acc := by
        rw [Nat.add_comm, Nat.add_mul_div_right _ _ (by omega),
          Nat.div_eq_of_lt digit, Nat.zero_add]
      omega
  · intro met
    exact ⟨digits.length, here.trans met⟩

theorem meets_of_small
    (small : number < 2 ^ 63)
    (base : Nat) : ¬∃ k, number / base ^ k = 2 ^ 63 := by
  rintro ⟨k, quotient⟩
  have := Nat.div_le_self number (base ^ k)
  omega

/-! ## The scan -/

/-- What the loop over the digits finds out about the number they write. -/
def Scan.Tells (sign : Bool) (base number : Nat) : Scan → Prop
  | .done acc => acc = number ∧ number < 2 ^ 63
  | .minimum => MeetsMinimum (!sign) base number
  | .wide => 2 ^ 63 ≤ number ∧ ¬MeetsMinimum (!sign) base number

theorem scanLoop_tells
    (baseBound : 2 ≤ base)
    (baseHigh : base ≤ 36)
    (sign under : Bool)
    (acc : Nat)
    (s : List UInt8)
    (small : acc < 2 ^ 63) :
    (scanLoop base sign under acc s).Tells sign base
      (writes base acc (runAt base under s)) := by
  induction s generalizing under acc with
  | nil =>
      have none : runAt base under [] = [] := by simp [runAt, digitRun]
      rw [none]
      exact ⟨rfl, small⟩
  | cons c s ih =>
      rw [scanLoop]
      by_cases underscore : c = 95
      · subst underscore
        rw [if_pos rfl]
        cases under with
        | true =>
            have none : runAt base true (95 :: s) = [] :=
              digitRun_none s (baseDigit_underscore base)
            rw [none]
            exact ⟨rfl, small⟩
        | false =>
            have same : runAt base false (95 :: s) = runAt base true s := rfl
            rw [same]
            exact ih true acc small
      · have plain : runAt base under (c :: s) = digitRun base (c :: s) := by
          simp [runAt, underscore]
        rw [if_neg underscore, plain]
        cases found : baseDigit base c with
        | none =>
            rw [digitRun_none s found]
            exact ⟨rfl, small⟩
        | some d =>
            have digit := baseDigit_lt found
            have below := runAt_lt base s false
            have whole : writes base acc (digitRun base (c :: s)) =
                writes base (acc * base + d) (runAt base false s) := by
              rw [digitRun_cons s found]
              rfl
            have atLeast := @writes_ge base (acc * base + d) baseBound
              (runAt base false s)
            rw [whole]
            simp only
            by_cases product : 2 ^ 63 - 1 < acc * base
            · rw [if_pos product]
              refine ⟨by omega, ?_⟩
              rintro ⟨_, uneven, met⟩
              have exact := (meets_iff _ below baseBound small (by omega)
                digit).mp met
              have zero : d = 0 := by omega
              apply uneven
              rw [← exact, zero, Nat.add_zero, Nat.mul_mod_left]
            · rw [if_neg product]
              by_cases room : 2 ^ 63 - 1 - d < acc * base
              · rw [if_pos room]
                have iff := meets_iff _ below baseBound small (by omega) digit
                by_cases least : !sign ∧ 2 ^ 63 - 1 - acc * base = d - 1
                · rw [if_pos least]
                  have exact : acc * base + d = 2 ^ 63 := by omega
                  refine ⟨by simpa using least.1, ?_, iff.mpr exact⟩
                  have remainder : 2 ^ 63 % base = d := by
                    rw [← exact, Nat.add_comm, Nat.add_mul_mod_self_right,
                      Nat.mod_eq_of_lt digit]
                  omega
                · rw [if_neg least]
                  refine ⟨by omega, ?_⟩
                  rintro ⟨negative, _, met⟩
                  have exact := iff.mp met
                  exact least ⟨by simpa using negative, by omega⟩
              · rw [if_neg room]
                exact ih false (acc * base + d) (by omega)

/-! ## Zeros in front -/

theorem writes_zeros (base j : Nat) (digits : List Nat) :
    writes base 0 (List.replicate j 0 ++ digits) = writes base 0 digits := by
  induction j with
  | zero => rfl
  | succ j ih =>
      rw [List.replicate_succ, List.cons_append, writes, List.foldl_cons,
        Nat.zero_mul, Nat.zero_add]
      exact ih

theorem baseDigit_zero (baseBound : 2 ≤ base) : baseDigit base 48 = some 0 := by
  have digit : convDigit 48 = some 0 := by decide
  unfold baseDigit
  rw [digit]
  simp [Option.filter]
  omega

theorem looseRun_underscore (base : Nat) (s : List UInt8) :
    looseRun base (95 :: s) = looseRun base s := by
  simp [looseRun, baseDigit_underscore]

theorem looseRun_cons
    (s : List UInt8)
    (found : baseDigit base c = some d) :
    looseRun base (c :: s) = d :: looseRun base s := by
  simp [looseRun, found]

/-- The text that squeezing zeros leaves. -/
def squeezed (result : UInt8 × List UInt8) : List UInt8 :=
  if result.1 = 48 then 48 :: result.2 else result.2

/-- Squeezing passes zeros only.  Before it a zero, or a zero and an underscore,
were passed. -/
theorem squeezeLoop_digits
    (baseBound : 2 ≤ base)
    (before : UInt8)
    (s : List UInt8)
    (passed : before = 48 ∨ before = 95 ∧ s.head? ≠ some 95) :
    ∃ j, digitRun base (squeezed (before, s)) =
        List.replicate j 0 ++
          digitRun base (squeezed (squeezeLoop before s)) ∧
      looseRun base (squeezed (before, s)) =
        List.replicate j 0 ++
          looseRun base (squeezed (squeezeLoop before s)) := by
  have zero := baseDigit_zero baseBound
  induction s generalizing before with
  | nil => exact ⟨0, rfl, rfl⟩
  | cons c s ih =>
      rw [squeezeLoop]
      by_cases underscore : c = 95
      · subst underscore
        have isZero : before = 48 := by
          rcases passed with same | ⟨_, other⟩
          · exact same
          · exact absurd rfl other
        subst isZero
        rw [if_pos rfl]
        have strict : digitRun base (squeezed (48, 95 :: s)) =
            0 :: digitRun base s := by
          change digitRun base (48 :: 95 :: s) = _
          rw [digitRun_cons _ zero]
          rfl
        have loose : looseRun base (squeezed (48, 95 :: s)) =
            0 :: looseRun base s := by
          change looseRun base (48 :: 95 :: s) = _
          rw [looseRun_cons _ zero, looseRun_underscore]
        rw [strict, loose]
        by_cases double : s.head? = some 95
        · rw [if_pos double]
          exact ⟨1, rfl, rfl⟩
        · rw [if_neg double]
          obtain ⟨j, strictLater, looseLater⟩ :=
            ih 95 (Or.inr ⟨rfl, double⟩)
          refine ⟨j + 1, ?_, ?_⟩
          · exact congrArg (0 :: ·) strictLater
          · exact congrArg (0 :: ·) looseLater
      · rw [if_neg underscore]
        by_cases more : c = 48
        · subst more
          rw [if_neg (by decide)]
          obtain ⟨j, strictLater, looseLater⟩ :=
            ih 48 (Or.inl rfl)
          rcases passed with same | ⟨same, _⟩ <;> subst same
          · refine ⟨j + 1, ?_, ?_⟩
            · refine Eq.trans ?_ (congrArg (0 :: ·) strictLater)
              exact digitRun_cons _ zero
            · refine Eq.trans ?_ (congrArg (0 :: ·) looseLater)
              exact looseRun_cons _ zero
          · exact ⟨j, strictLater, looseLater⟩
        · rw [if_pos more]
          exact ⟨0, rfl, rfl⟩

theorem squeezeZeros_digits
    (baseBound : 2 ≤ base)
    (s : List UInt8) :
    ∃ j, digitRun base s =
        List.replicate j 0 ++ digitRun base (squeezeZeros s) ∧
      looseRun base s =
        List.replicate j 0 ++ looseRun base (squeezeZeros s) := by
  cases s with
  | nil => exact ⟨0, rfl, rfl⟩
  | cons c s =>
      by_cases zero : c = 48
      · subst zero
        exact squeezeLoop_digits baseBound 48 s (Or.inl rfl)
      · have same : squeezeZeros (c :: s) = c :: s := if_neg zero
        rw [same]
        exact ⟨0, rfl, rfl⟩

/-! ## Reading wide -/

/-- The loose digits go on where the others end. -/
theorem looseRun_extends
    (base : Nat)
    (under : Bool)
    (s : List UInt8) :
    ∃ extra, looseRun base s = runAt base under s ++ extra := by
  induction s generalizing under with
  | nil => exact ⟨[], by simp [looseRun, runAt, digitRun]⟩
  | cons c s ih =>
      by_cases underscore : c = 95
      · subst underscore
        rw [looseRun_underscore]
        cases under with
        | false =>
            obtain ⟨extra, same⟩ := ih true
            exact ⟨extra, same⟩
        | true =>
            have none : runAt base true (95 :: s) = [] :=
              digitRun_none s (baseDigit_underscore base)
            exact ⟨looseRun base s, by rw [none, List.nil_append]⟩
      · have plain : runAt base under (c :: s) = digitRun base (c :: s) := by
          simp [runAt, underscore]
        rw [plain]
        cases found : baseDigit base c with
        | none =>
            refine ⟨[], ?_⟩
            rw [digitRun_none s found]
            simp [looseRun, found, underscore]
        | some d =>
            obtain ⟨extra, same⟩ := ih false
            refine ⟨extra, ?_⟩
            rw [digitRun_cons s found, looseRun_cons s found, same]
            rfl

/-- More digits behind a number that is not zero write another number. -/
theorem writes_append_eq_iff
    (baseBound : 2 ≤ base)
    (positive : 0 < writes base 0 digits)
    (extra : List Nat) :
    writes base 0 (digits ++ extra) = writes base 0 digits ↔ extra = [] := by
  constructor
  · intro same
    by_contra more
    have length := List.length_pos_of_ne_nil more
    rw [writes, List.foldl_append] at same
    change writes base (writes base 0 digits) extra = _ at same
    rw [writes_eq] at same
    have twice : 2 ≤ base ^ extra.length :=
      baseBound.trans (Nat.le_self_pow (by omega) base)
    have grown := Nat.mul_le_mul_left (writes base 0 digits) twice
    omega
  · rintro rfl
    rw [List.append_nil]

/-- The digit of a character, as the wide integers read it. -/
theorem baseDigit_eq
    (baseHigh : base ≤ 36)
    (c : UInt8) :
    baseDigit base c =
      ((digitVal c).filter (· < UInt32.ofNat base)).map UInt32.toNat := by
  have baseNat : (UInt32.ofNat base).toNat = base := by
    rw [UInt32.toNat_ofNat', Nat.mod_eq_of_lt (by omega)]
  have letter : ∀ c : UInt8, (c.toUInt32 + 10).toNat = c.toNat + 10 := by
    intro c
    have small := c.toNat_lt
    rw [UInt32.toNat_add, UInt8.toNat_toUInt32, Nat.mod_eq_of_lt]
    · rfl
    · change c.toNat + 10 < _
      omega
  have digit : ∀ n : UInt32, ((some n.toNat).filter (· < base)) =
      ((some n).filter (· < UInt32.ofNat base)).map UInt32.toNat := by
    intro n
    by_cases below : n.toNat < base
    · have same : n < UInt32.ofNat base := by
        rw [UInt32.lt_iff_toNat_lt, baseNat]
        exact below
      simp [Option.filter, below, same]
    · have same : ¬n < UInt32.ofNat base := by
        rw [UInt32.lt_iff_toNat_lt, baseNat]
        exact below
      simp [Option.filter, below, same]
  unfold baseDigit convDigit digitVal
  by_cases decimal : 48 ≤ c ∧ c ≤ 57
  · rw [if_pos decimal, if_pos decimal, ← digit, UInt8.toNat_toUInt32]
  · rw [if_neg decimal, if_neg decimal]
    by_cases low : 97 ≤ c ∧ c ≤ 122
    · rw [if_pos low, if_pos low, ← digit, letter]
    · rw [if_neg low, if_neg low]
      by_cases high : 65 ≤ c ∧ c ≤ 90
      · rw [if_pos high, if_pos high, ← digit, letter]
      · rw [if_neg high, if_neg high]
        rfl

/-- Loose digits as the wide integers read them. -/
theorem digitsOf_takeWhile
    (baseHigh : base ≤ 36)
    (s : List UInt8) :
    ∃ digits, digitsOf (UInt32.ofNat base)
        (s.takeWhile fun c => c = 95 ∨ (baseDigit base c).isSome) =
          some digits ∧
      digits.map UInt32.toNat = looseRun base s := by
  induction s with
  | nil => exact ⟨[], rfl, rfl⟩
  | cons c s ih =>
      obtain ⟨digits, read, same⟩ := ih
      by_cases underscore : c = 95
      · subst underscore
        refine ⟨digits, ?_, same.trans (looseRun_underscore base s).symm⟩
        rw [List.takeWhile_cons, if_pos (by simp), ← read, digitsOf, digitsOf,
          List.filter_cons, if_neg (by decide)]
      · cases found : baseDigit base c with
        | none =>
            refine ⟨[], ?_, ?_⟩
            · rw [List.takeWhile_cons, if_neg (by simp [underscore, found])]
              rfl
            · simp [looseRun, found, underscore]
        | some d =>
            have value := found
            rw [baseDigit_eq baseHigh, Option.map_eq_some_iff] at value
            obtain ⟨digit, filtered, toNat⟩ := value
            refine ⟨digit :: digits, ?_, ?_⟩
            · rw [List.takeWhile_cons, if_pos (by simp [found]), digitsOf,
                List.filter_cons, if_pos (by simpa using underscore),
                List.mapM_cons, filtered]
              rw [digitsOf] at read
              rw [read]
              rfl
            · rw [List.map_cons, same, toNat, looseRun_cons s found]

theorem tooWide_denotes
    (baseBound : 2 ≤ base)
    (baseHigh : base ≤ 36)
    (s : List UInt8)
    (sign : Bool)
    (found : baseDigit base c = some d) :
    (tooWide (c :: s) base sign).Denotes
      (if sign then (writes base 0 (looseRun base (c :: s)) : Int)
        else -(writes base 0 (looseRun base (c :: s)) : Int)) := by
  obtain ⟨digits, read, same⟩ := digitsOf_takeWhile baseHigh (c :: s)
  have baseNat : (UInt32.ofNat base).toNat = base := by
    rw [UInt32.toNat_ofNat', Nat.mod_eq_of_lt (by omega)]
  unfold tooWide
  generalize text : ((c :: s).takeWhile fun c =>
    c = 95 ∨ (baseDigit base c).isSome) = run at read
  have head : run.head? = some c := by
    rw [← text, List.takeWhile_cons, if_pos (by simp [found])]
    rfl
  have notSign : c ≠ 45 ∧ c ≠ 43 := by
    constructor <;> rintro rfl <;> cases found
  have unsigned : unsignedText run = run := by
    simp [unsignedText, head, notSign.1, notSign.2]
  have wide := @BigInt.fromStr_eq (UInt32.ofNat base)
    (by omega) run
  rw [unsigned, read] at wide
  have nonempty : digits ≠ [] := by
    rintro rfl
    rw [looseRun_cons s found] at same
    cases same
  have value : numeral (UInt32.ofNat base) digits.reverse =
      writes base 0 (looseRun base (c :: s)) := by
    rw [← foldl_reverse_eq_numeral, List.reverse_reverse, ← same, writes,
      List.foldl_map, baseNat]
  simp only [if_neg nonempty, head, Option.some.injEq, if_neg notSign.1, value]
    at wide
  obtain ⟨number, isNumber, formed, exact⟩ := wide
  simp only [isNumber]
  cases sign with
  | true =>
      simp only [if_true]
      rw [← exact]
      exact Number.bintValue_denotes formed
  | false =>
      simp only [Bool.false_eq_true, if_false]
      rw [← exact, ← BigInt.toInt_negated]
      exact Number.bintValue_denotes (BigInt.wellFormed_negated number)

/-! ## The whole text -/

/-- A number with a sign. -/
def withSign (negative : Bool) (number : Nat) : Int :=
  if negative then -(number : Int) else number

theorem withSign_inj (negative : Bool) (a b : Nat) :
    withSign negative a = withSign negative b ↔ a = b := by
  cases negative <;> simp [withSign]

theorem int_denotes
    (sign : Bool)
    (number : Nat)
    (small : number < 2 ^ 63) :
    (Number.int (Int64.ofInt
      (if sign then (number : Int) else -(number : Int)))).Denotes
      (withSign (!sign) number) := by
  have bound : (number : Int) < 2 ^ 63 := by exact_mod_cast small
  refine ⟨trivial, ?_⟩
  change (Int64.ofInt _).toInt = _
  cases sign with
  | true =>
      rw [Int64.toInt_ofInt_of_le]
      · rfl
      · simp only [if_true]
        omega
      · simpa using bound
  | false =>
      rw [Int64.toInt_ofInt_of_le]
      · rfl
      · simp only [Bool.false_eq_true, if_false]
        omega
      · simp only [Bool.false_eq_true, if_false]
        omega

/-- What is read for some digits, behind which there may be loose ones, is what
they write exactly under the condition. -/
def ReadsExactly
    (sign : Bool)
    (base : Nat)
    (r : Number)
    (digits loose : List Nat) : Prop :=
  r.Canonical ∧
    (r.toInt = withSign (!sign) (writes base 0 digits) ↔
      writes base 0 digits < 2 ^ 63 ∨
        (MeetsMinimum (!sign) base (writes base 0 digits) ∧
          writes base 0 digits = 2 ^ 63) ∨
        (¬MeetsMinimum (!sign) base (writes base 0 digits) ∧ loose = digits))

theorem readsExactly_nothing
    (sign : Bool)
    (base : Nat)
    (loose : List Nat) : ReadsExactly sign base (.int 0) [] loose := by
  have value : writes base 0 [] = 0 := rfl
  refine ⟨trivial, ?_⟩
  rw [value]
  cases sign <;> simp [withSign, Number.toInt]

/-- The digits from the first one that is no squeezed zero. -/
theorem scanned_exactly
    (baseBound : 2 ≤ base)
    (baseHigh : base ≤ 36)
    (s : List UInt8)
    (sign : Bool)
    (plain : s.head? ≠ some 95) :
    ReadsExactly sign base
      (match scanLoop base sign false 0 s with
        | .done acc => .int (Int64.ofInt (if sign then acc else -acc))
        | .minimum => .int Int64.minValue
        | .wide => tooWide s base sign)
      (digitRun base s) (looseRun base s) := by
  have tells := scanLoop_tells baseBound baseHigh sign false 0 s (by decide)
  have run : runAt base false s = digitRun base s := by simp [runAt, plain]
  rw [run] at tells
  generalize value : writes base 0 (digitRun base s) = number at tells
  unfold ReadsExactly
  rw [value]
  cases scan : scanLoop base sign false 0 s with
  | done acc =>
      rw [scan] at tells
      obtain ⟨rfl, small⟩ := tells
      have denotes := int_denotes sign acc small
      exact ⟨denotes.1, fun _ => Or.inl small, fun _ => denotes.2⟩
  | minimum =>
      rw [scan] at tells
      have met : MeetsMinimum (!sign) base number := tells
      have atLeast : ¬number < 2 ^ 63 := fun small =>
        meets_of_small small base met.2.2
      refine ⟨trivial, ?_⟩
      have least : (Number.int Int64.minValue).toInt =
          withSign (!sign) (2 ^ 63) := by
        rw [met.1]
        decide
      rw [least, withSign_inj, or_iff_right atLeast]
      constructor
      · exact fun same => Or.inl ⟨met, same.symm⟩
      · rintro (⟨_, same⟩ | ⟨notMet, _⟩)
        · exact same.symm
        · exact absurd met notMet
  | wide =>
      rw [scan] at tells
      obtain ⟨large, notMet⟩ := tells
      cases s with
      | nil =>
          simp only [digitRun] at value
          have : writes base 0 [] = 0 := rfl
          omega
      | cons c s =>
          cases found : baseDigit base c with
          | none =>
              rw [digitRun_none s found] at value
              have : writes base 0 [] = 0 := rfl
              omega
          | some d =>
              obtain ⟨canonical, exact⟩ :=
                tooWide_denotes baseBound baseHigh s sign found
              have signed : (tooWide (c :: s) base sign).toInt =
                  withSign (!sign)
                    (writes base 0 (looseRun base (c :: s))) := by
                rw [exact]
                cases sign <;> rfl
              refine ⟨canonical, ?_⟩
              obtain ⟨extra, goesOn⟩ := looseRun_extends base false (c :: s)
              rw [run] at goesOn
              have same := writes_append_eq_iff baseBound
                (by omega : 0 < writes base 0 (digitRun base (c :: s))) extra
              rw [signed, withSign_inj, goesOn, ← value, same]
              rw [value]
              have atLeast : ¬number < 2 ^ 63 := by omega
              rw [or_iff_right atLeast, or_iff_right (fun met => notMet met.1),
                and_iff_right notMet, List.append_right_eq_self]

/-- The digits behind the radix prefix. -/
theorem readDigits_exactly
    (baseBound : 2 ≤ base)
    (baseHigh : base ≤ 36)
    (s : List UInt8)
    (sign : Bool) :
    ReadsExactly sign base (readDigits s base sign)
      (digitRun base s) (looseRun base s) := by
  unfold readDigits
  by_cases empty : s.isEmpty = true
  · rw [if_pos empty, List.isEmpty_iff.mp empty]
    exact readsExactly_nothing sign base _
  · rw [if_neg empty]
    obtain ⟨j, strict, loose⟩ := squeezeZeros_digits baseBound s
    have moved : ∀ r, ReadsExactly sign base r
        (digitRun base (squeezeZeros s)) (looseRun base (squeezeZeros s)) →
        ReadsExactly sign base r (digitRun base s) (looseRun base s) := by
      intro r exactly
      unfold ReadsExactly at exactly ⊢
      rwa [strict, loose, writes_zeros, List.append_cancel_left_eq]
    apply moved
    generalize squeezeZeros s = t
    simp only
    by_cases zero : t.isEmpty = true ∨ t.head? = some 95
    · have none : digitRun base t = [] := by
        rcases zero with nil | under
        · rw [List.isEmpty_iff.mp nil]
          rfl
        · obtain ⟨rest, rfl⟩ := List.head?_eq_some_iff.mp under
          exact digitRun_none rest (baseDigit_underscore base)
      rw [if_pos zero, none]
      exact readsExactly_nothing sign base _
    · rw [if_neg zero]
      exact scanned_exactly baseBound baseHigh t sign
        (fun under => zero (Or.inr under))

/-! ## The header -/

theorem letterRadix_eq_some
    (c : UInt8)
    (radix : Nat) :
    letterRadix c = some radix ↔
      (radix = 16 ∧ (c = 120 ∨ c = 88)) ∨ (radix = 2 ∧ (c = 98 ∨ c = 66)) ∨
        (radix = 8 ∧ (c = 111 ∨ c = 79)) ∨
        (radix = 10 ∧ (c = 100 ∨ c = 68)) := by
  unfold letterRadix
  constructor
  · intro named
    split_ifs at named with x b o d <;> cases named <;> simp [*]
  · rintro (⟨rfl, rfl | rfl⟩ | ⟨rfl, rfl | rfl⟩ | ⟨rfl, rfl | rfl⟩ |
      ⟨rfl, rfl | rfl⟩) <;> rfl

theorem namedRadix_bounds (s : List UInt8) :
    2 ≤ namedRadix s ∧ namedRadix s ≤ 36 := by
  unfold namedRadix
  split
  · rename_i c _
    cases named : letterRadix c with
    | none => simp
    | some radix =>
        rw [letterRadix_eq_some] at named
        rw [Option.getD_some]
        omega
  · decide
  · decide

/-- The radix that the code takes from the text. -/
theorem radixOf_eq
    (s : List UInt8)
    (base : Nat) :
    radixOf s base = .ok ((if base = 0 then namedRadix s else base : Nat) : Int)
    := by
  unfold radixOf
  by_cases zero : base = 0
  · rw [if_pos (by omega), if_pos zero]
    match s with
    | [] => simp [charAt, namedRadix, zero]
    | [c] =>
        by_cases digit : c = 48 <;>
          simp [charAt, namedRadix, zero, digit]
    | c :: c' :: rest =>
        by_cases digit : c = 48
        · subst digit
          have first : charAt (48 :: c' :: rest) = 48 := rfl
          have second : charAt (48 :: c' :: rest).tail = c' := rfl
          rw [if_pos first, second, namedRadix, letterRadix]
          simp only
          by_cases x : c' = 120 ∨ c' = 88
          · rw [if_pos x, if_pos x]
            rfl
          rw [if_neg x, if_neg x]
          by_cases b : c' = 98 ∨ c' = 66
          · rw [if_pos b, if_pos b]
            rfl
          rw [if_neg b, if_neg b]
          by_cases o : c' = 111 ∨ c' = 79
          · rw [if_pos o, if_pos o]
            rfl
          rw [if_neg o, if_neg o]
          by_cases d : c' = 100 ∨ c' = 68
          · rw [if_pos d, if_pos d]
            rfl
          · rw [if_neg d, if_neg d]
            rfl
        · simp [charAt, namedRadix, zero, digit]
  · rw [if_neg (by omega), if_neg zero]

theorem behindPrefix_other
    (s : List UInt8)
    (other : ∀ c, letterRadix c ≠ some radix) : behindPrefix radix s = s := by
  unfold behindPrefix
  split
  · rw [if_neg (other _)]
  · rfl

theorem passPrefix_eq
    (s : List UInt8)
    (letters : ∀ c, letterRadix c = some radix ↔ c = low ∨ c = high)
    (lowNul : low ≠ 0)
    (highNul : high ≠ 0) : passPrefix s low high = behindPrefix radix s := by
  unfold passPrefix
  match s with
  | [] => simp [charAt, behindPrefix]
  | [c] => simp [charAt, behindPrefix, lowNul.symm, highNul.symm]
  | c :: c' :: rest =>
      by_cases digit : c = 48
      · subst digit
        by_cases letter : c' = low ∨ c' = high
        · simp [charAt, behindPrefix, letters, letter]
        · simp [charAt, behindPrefix, letters, letter]
      · simp [charAt, behindPrefix, digit]

/-- The prefix that the code passes. -/
theorem passRadix_eq
    (s : List UInt8)
    (radix : Nat)
    (radixLow : 2 ≤ radix)
    (radixHigh : radix ≤ 36) :
    passRadix s radix = .ok (behindPrefix radix s) := by
  unfold passRadix
  by_cases two : radix = 2
  · have letters : ∀ c, letterRadix c = some 2 ↔ c = 98 ∨ c = 66 := by
      simp [letterRadix_eq_some]
    rw [if_pos (by omega), two,
      passPrefix_eq s letters (by decide) (by decide)]
  rw [if_neg (by omega)]
  by_cases eight : radix = 8
  · have letters : ∀ c, letterRadix c = some 8 ↔ c = 111 ∨ c = 79 := by
      simp [letterRadix_eq_some]
    rw [if_pos (by omega), eight,
      passPrefix_eq s letters (by decide) (by decide)]
  rw [if_neg (by omega)]
  by_cases ten : radix = 10
  · have letters : ∀ c, letterRadix c = some 10 ↔ c = 100 ∨ c = 68 := by
      simp [letterRadix_eq_some]
    rw [if_pos (by omega), ten,
      passPrefix_eq s letters (by decide) (by decide)]
  rw [if_neg (by omega)]
  by_cases sixteen : radix = 16
  · have letters : ∀ c, letterRadix c = some 16 ↔ c = 120 ∨ c = 88 := by
      simp [letterRadix_eq_some]
    rw [if_pos (by omega), sixteen,
      passPrefix_eq s letters (by decide) (by decide)]
  rw [if_neg (by omega), if_pos (by omega), behindPrefix_other]
  intro c named
  rw [letterRadix_eq_some] at named
  omega

/-- The code reads the digits that the header leaves, in its radix. -/
theorem strToInteger_eq
    (s : List UInt8)
    (base : Nat)
    (valid : base = 0 ∨ 2 ≤ base ∧ base ≤ 36) :
    strToInteger s base = .ok
        (readDigits (header s base).body (header s base).radix
          (!(header s base).negative)) ∧
      2 ≤ (header s base).radix ∧ (header s base).radix ≤ 36 := by
  have radixBounds : ∀ t,
      2 ≤ (if base = 0 then namedRadix t else base) ∧
        (if base = 0 then namedRadix t else base) ≤ 36 := by
    intro t
    have named := namedRadix_bounds t
    by_cases zero : base = 0
    · rwa [if_pos zero]
    · rw [if_neg zero]
      omega
  have reads : ∀ t sign, (do
      let base ← radixOf t base
      let t ← passRadix t base
      .ok (readDigits t base.toNat sign) : Except Refusal Number) =
        .ok (readDigits
          (behindPrefix (if base = 0 then namedRadix t else base) t)
          (if base = 0 then namedRadix t else base) sign) := by
    intro t sign
    rw [radixOf_eq]
    change (do
      let t ← passRadix t _
      .ok (readDigits t _ sign) : Except Refusal Number) = _
    rw [passRadix_eq t _ (radixBounds t).1 (radixBounds t).2]
    rfl
  unfold strToInteger header
  generalize s.dropWhile isSpace = t
  match t with
  | [] => exact ⟨reads [] true, radixBounds []⟩
  | c :: t =>
      by_cases plus : c = 43
      · subst plus
        exact ⟨reads t true, radixBounds t⟩
      · by_cases minus : c = 45
        · subst minus
          exact ⟨reads t false, radixBounds t⟩
        · have behind : (match c :: t with
              | 43 :: t => (false, t)
              | 45 :: t => (true, t)
              | t => (false, t)) = (false, c :: t) := by
            simp [plus, minus]
          simp only [behind]
          have same : charAt (c :: t) = c := rfl
          simp only [same, plus, minus, or_self, if_false]
          refine ⟨?_, radixBounds (c :: t)⟩
          have := reads (c :: t) true
          simpa [minus] using this

end SabiRuby.Integer
