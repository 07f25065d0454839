import SabiRuby.Integer.Exactness
import SabiRuby.Integer.RoundTrip

/-!
# Reading an Integer from a text

`str_to_integer` as `String#to_i`, `hex` and `oct` call it, without `badcheck`.
A position in the text is the text from it on; past the end stands a NUL.
-/

namespace SabiRuby.Integer

/-- The character at a position. -/
def charAt (s : List UInt8) : UInt8 :=
  s.head?.getD 0

/-- `is_space` -/
def isSpace (c : UInt8) : Bool :=
  c = 32 ∨ c = 9 ∨ c = 10 ∨ c = 11 ∨ c = 12 ∨ c = 13

/-- `conv_digit`, with nothing for -1. -/
def convDigit (c : UInt8) : Option Nat :=
  if 48 ≤ c ∧ c ≤ 57 then some (c - 48).toNat
  else if 97 ≤ c ∧ c ≤ 122 then some ((c - 97).toNat + 10)
  else if 65 ≤ c ∧ c ≤ 90 then some ((c - 65).toNat + 10)
  else none

/-- The digit of the base that a character is. -/
def baseDigit (base : Nat) (c : UInt8) : Option Nat :=
  (convDigit c).filter (· < base)

/-- The loop that squeezes zeros, with the character before the position. -/
def squeezeLoop (before : UInt8) : List UInt8 → UInt8 × List UInt8
  | [] => (before, [])
  | c :: s =>
      if c = 95 then
        if s.head? = some 95 then (95, s) else squeezeLoop 95 s
      else if c ≠ 48 then (before, c :: s)
      else squeezeLoop 48 s

/-- The zeros in front of the digits.  The last one stays where it is the last
character passed. -/
def squeezeZeros (s : List UInt8) : List UInt8 :=
  match s with
  | [] => []
  | c :: rest =>
      if c = 48 then
        let (before, s) := squeezeLoop 48 rest
        if before = 48 then 48 :: s else s
      else c :: rest

/-- Where the loop over the digits stops. -/
inductive Scan
  /-- At the end of the digits, with what they write. -/
  | done (acc : Nat)
  /-- At the digit that makes the least machine integer. -/
  | minimum
  /-- At a digit for which there is no room. -/
  | wide
  deriving DecidableEq, Repr

/-- The loop over the digits; `under` says that a `_` was passed since the last
one. -/
def scanLoop (base : Nat) (sign : Bool) (under : Bool) (acc : Nat) :
    List UInt8 → Scan
  | [] => .done acc
  | c :: s =>
      if c = 95 then
        if under then .done acc else scanLoop base sign true acc s
      else
        match baseDigit base c with
        | none => .done acc
        | some d =>
            if 2 ^ 63 - 1 < acc * base then .wide
            else if 2 ^ 63 - 1 - d < acc * base then
              if !sign ∧ 2 ^ 63 - 1 - acc * base = d - 1 then .minimum
              else .wide
            else scanLoop base sign false (acc * base + d) s

/-- `too_wide`: the digits, and every `_` among them, read as a wide integer. -/
def tooWide (s : List UInt8) (base : Nat) (sign : Bool) : Number :=
  let digits := s.takeWhile fun c => c = 95 ∨ (baseDigit base c).isSome
  match BigInt.fromStr digits (UInt32.ofNat base) with
  | some b => .bintValue (if sign then b else b.negated)
  | none => .int 0

/-- What the conversions raise for a radix. -/
inductive Refusal
  /-- "illegal radix", by `str_to_integer` -/
  | illegalRadix (base : Int)
  /-- "invalid radix", by `int_to_s` -/
  | invalidRadix (base : Int)
  deriving DecidableEq, Repr

/-- The base that is used where none was given: the radix prefix of the text
says it. -/
def radixOf (s : List UInt8) (base : Int) : Except Refusal Int :=
  if base ≤ 0 then
    if charAt s = 48 then
      let c := charAt s.tail
      if c = 120 ∨ c = 88 then .ok 16
      else if c = 98 ∨ c = 66 then .ok 2
      else if c = 111 ∨ c = 79 then .ok 8
      else if c = 100 ∨ c = 68 then .ok 10
      else .ok 8
    else if base < -1 then
      if base < -(2 ^ 63 - 1) then .error (.illegalRadix base) else .ok (-base)
    else .ok 10
  else .ok base

/-- Pass `0` and one of two letters. -/
def passPrefix (s : List UInt8) (low high : UInt8) : List UInt8 :=
  if charAt s = 48 ∧ (charAt s.tail = low ∨ charAt s.tail = high) then s.drop 2
  else s

/-- Pass the radix prefix of a base. -/
def passRadix (s : List UInt8) (base : Int) : Except Refusal (List UInt8) :=
  if base = 2 then .ok (passPrefix s 98 66)
  else if base = 8 then .ok (passPrefix s 111 79)
  else if base = 10 then .ok (passPrefix s 100 68)
  else if base = 16 then .ok (passPrefix s 120 88)
  else if 3 ≤ base ∧ base ≤ 36 then .ok s
  else .error (.illegalRadix base)

/-- The digits behind the radix prefix. -/
def readDigits (s : List UInt8) (base : Nat) (sign : Bool) : Number :=
  if s.isEmpty then .int 0
  else
    let s := squeezeZeros s
    if s.isEmpty ∨ s.head? = some 95 then .int 0
    else
      match scanLoop base sign false 0 s with
      | .done acc => .int (Int64.ofInt (if sign then acc else -acc))
      | .minimum => .int Int64.minValue
      | .wide => tooWide s base sign

/-- `str_to_integer` without `badcheck`. -/
def strToInteger (s : List UInt8) (base : Int) : Except Refusal Number := do
  let s := s.dropWhile isSpace
  let sign := charAt s ≠ 45
  let s := if charAt s = 43 ∨ charAt s = 45 then s.tail else s
  let base ← radixOf s base
  let s ← passRadix s base
  .ok (readDigits s base.toNat sign)

end SabiRuby.Integer
