import SabiRuby.Integer.RoundTrip
import SabiRuby.Integer.SquareRoot

/-!
# Integers in a format

`sprintf` writes an Integer in the base of its conversion.  A negative one in a
base that is a power of two is written as two dots and its two's complement,
whose first digit stands for itself without end.
-/

namespace SabiRuby.Integer

open Library

/-! ## Flags and digits -/

def FSHARP : UInt32 := 1
def FMINUS : UInt32 := 2
def FPLUS : UInt32 := 4
def FZERO : UInt32 := 8
def FSPACE : UInt32 := 16
def FWIDTH : UInt32 := 32
def FPREC : UInt32 := 64
def FPREC0 : UInt32 := 128

def digitsU64Loop (base : UInt64) : Nat → UInt64 → List UInt8
  | 0, _ => []
  | turns + 1, u =>
      if u = 0 then []
      else
        let r := (u % base).toUInt8
        (if r < 10 then 48 + r else 97 + r - 10) ::
          digitsU64Loop base turns (u / base)

/-- The digits of an unsigned word. -/
def digitsU64 (u : UInt64) (base : UInt32) : List UInt8 :=
  if u = 0 then [48] else (digitsU64Loop base.toUInt64 64 u).reverse

/-- The highest digit of a base. -/
def topDigit (base : UInt32) : UInt8 :=
  if base = 16 then 102 else if base = 8 then 55 else 49

/-- The digits of a machine integer as an unsigned word, those of a negative one
without the highest digits before them. -/
def uintToCstr (v : Int64) (base : UInt32) : List UInt8 :=
  let d := digitsU64 v.toUInt64 base
  if v < 0 then
    let d :=
      if base = 8 then
        match d with
        | first :: rest => (first ||| 6) :: rest
        | [] => []
      else d
    d.dropWhile (· == topDigit base)
  else d

namespace BigInt

/-- The two's complement of the magnitude, as many limbs long. -/
def twoCompMag (self : BigInt) : List UInt32 := twoCompLoop self.mag true

end BigInt

/-! ## One conversion -/

/-- An Integer's digits before they are laid out. -/
structure IntText where
  /-- The character of the sign. -/
  sc : Option UInt8
  /-- The digits are a complement. -/
  dots : Bool
  s : List UInt8
  v : Int
  width : Int

/-- The base of a conversion, whether its letters are capitals, and whether it
writes a sign. -/
def conversion (c : UInt8) : UInt32 × Bool × Bool :=
  if c = 100 ∨ c = 105 ∨ c = 117 then (10, false, true)
  else if c = 111 then (8, false, false)
  else if c = 120 then (16, false, false)
  else if c = 88 then (16, true, false)
  else if c = 98 then (2, false, false)
  else (2, true, false)

/-- What `#` puts before the digits of a base. -/
def alternate (base : UInt32) (upper : Bool) (flags : UInt32) :
    Option (List UInt8) :=
  if flags &&& FSHARP ≠ 0 then
    if base = 8 then some [48]
    else if base = 16 then some (if upper then [48, 88] else [48, 120])
    else if base = 2 then some (if upper then [48, 66] else [48, 98])
    else none
  else none

def intText (val : Number) (base : UInt32) (signed : Bool) (flags : UInt32)
    (width : Int) : Option IntText :=
  match val with
  | .bint b => do
      let needDots := flags &&& FPLUS = 0 ∧
        (base = 16 ∨ base = 8 ∨ base = 2) ∧ b.sign < 0
      let t : BigInt :=
        if needDots then { neg := false, mag := b.twoCompMag } else b
      let s ← t.toStringRadix base
      some
        { sc := none, dots := needDots, s := s
          v := if needDots then -1 else 0, width := width }
  | .int v =>
      if signed then
        let sc :=
          if 0 ≤ v then
            if flags &&& FPLUS ≠ 0 then some 43
            else if flags &&& FSPACE ≠ 0 then some 32
            else none
          else some 45
        some
          { sc := sc, dots := false, s := digitsU64 (unsignedAbs v) base
            v := v.toInt, width := if sc.isSome then width - 1 else width }
      else
        some
          { sc := none, dots := v < 0, s := uintToCstr v base
            v := v.toInt, width := width }

/-- The digits of a complement without the highest digits before them. -/
def stripDots (base : UInt32) (s : List UInt8) : List UInt8 :=
  let s :=
    if base = 8 ∧ (s.head? = some 49 ∨ s.head? = some 51) then s.tail else s
  s.dropWhile (· == topDigit base)

def toAsciiUppercase (c : UInt8) : UInt8 :=
  if 97 ≤ c ∧ c ≤ 122 then c - 32 else c

/-- The signs, the zeros and the spaces around the digits. -/
def layout (t : IntText) (fc : UInt8) (flags : UInt32) (prec : Int)
    (mark : Option (List UInt8)) : List UInt8 :=
  let zero := t.s = [48]
  let (mark, len, prec) :=
    if mark = some [48] then
      if t.dots then (none, t.s.length, prec)
      else if zero then
        (mark, 0, if flags &&& FPREC ≠ 0 then prec - 1 else prec)
      else if flags &&& FPREC ≠ 0 ∧ t.s.length < prec then
        (none, t.s.length, prec)
      else (mark, t.s.length, prec)
    else if zero then (none, t.s.length, prec)
    else (mark, t.s.length, prec)
  let width := t.width - ((mark.getD []).length : Int)
  let (width, prec, len) :=
    if flags &&& (FZERO ||| FMINUS ||| FPREC) = FZERO then (0, width, len)
    else if prec < len then
      let len := if mark = none ∧ prec = 0 ∧ len = 1 ∧ zero then 0 else len
      (width - len, (len : Int), len)
    else (width - prec, prec, len)
  let before := if flags &&& FMINUS = 0 then width.toNat else 0
  let width := if flags &&& FMINUS = 0 ∧ 0 < width then 0 else width
  let (dots, width, prec) :=
    if t.dots then
      if t.s.head? ≠ some fc then ([46, 46, fc], width - 3, prec - 3)
      else ([46, 46], width - 2, prec - 2)
    else ([], width, prec)
  let fill :=
    if (len : Int) < prec then
      if flags &&& (FMINUS ||| FPREC) ≠ FMINUS then
        List.replicate (prec - len).toNat 48
      else if t.v < 0 then List.replicate (prec - len).toNat fc
      else []
    else []
  List.replicate before 32 ++ t.sc.toList ++ mark.getD [] ++ dots ++ fill ++
    t.s.take len ++ List.replicate width.toNat 32

/-- `format_int`, for an Integer. -/
def formatInt (val : Number) (c : UInt8) (flags : UInt32) (width prec : Int) :
    Option (List UInt8) := do
  let (base, upper, signed) := conversion c
  let t ← intText val base signed flags width
  let s := if t.dots then stripDots base t.s else t.s
  let fc := if base = 10 then 0 else topDigit base
  let fc := if upper ∧ base = 16 then 70 else fc
  let s := if upper then s.map toAsciiUppercase else s
  some (layout { t with s := s } fc flags prec (alternate base upper flags))

end SabiRuby.Integer
