import Mathlib.Data.List.DropRight
import Mathlib.Data.Nat.Size
import Mathlib.Data.UInt

/-!
# Integers of arbitrary size

A big integer is a sign and the limbs of its absolute value, 32 bits each and
the least significant first.  The machine words of the source are machine words
here, so its sums, products and casts wrap as in a release build.  A function
answers `none` where the source would index out of range, divide by zero, or not
come to an end.
-/

namespace SabiRuby.Integer

/-- An integer of arbitrary size. -/
structure BigInt where
  /-- The integer is negative. -/
  neg : Bool
  /-- The limbs of the absolute value. -/
  mag : List UInt32
  deriving DecidableEq, Repr

/-- One more than the largest limb. -/
def BASE : UInt64 := 0x100000000

/-! ## Magnitudes -/

/-- Without the zero limbs at the end. -/
def trim (v : List UInt32) : List UInt32 :=
  v.rdropWhile fun limb => limb == 0

/-- Compare from the last limb on. -/
def ucmpLoop : List UInt32 → List UInt32 → Ordering
  | x :: a, y :: b =>
      match ucmpLoop a b with
      | .eq => compare x y
      | other => other
  | _, _ => .eq

/-- Compare two magnitudes. -/
def ucmp (a b : List UInt32) : Ordering :=
  if a.length ≠ b.length then compare a.length b.length else ucmpLoop a b

/-- Add limb by limb; `short` counts as zero past its end. -/
def uaddLoop : List UInt32 → List UInt32 → UInt64 → List UInt32
  | [], _, carry => if carry ≠ 0 then [carry.toUInt32] else []
  | x :: long, short, carry =>
      let s := x.toUInt64 + (short.headD 0).toUInt64 + carry
      s.toUInt32 :: uaddLoop long short.tail (s >>> 32)

/-- The sum of two magnitudes. -/
def uadd (a b : List UInt32) : List UInt32 :=
  if b.length ≤ a.length then uaddLoop a b 0 else uaddLoop b a 0

/-- A limb as a signed word. -/
def asI64 (limb : UInt32) : Int64 := limb.toUInt64.toInt64

/-- The low 32 bits of a signed word. -/
def asU32 (t : Int64) : UInt32 := t.toUInt64.toUInt32

/-- Subtract limb by limb; `b` counts as zero past its end. -/
def usubLoop : List UInt32 → List UInt32 → Int64 → List UInt32
  | [], _, _ => []
  | x :: a, b, borrow =>
      let t := asI64 x - asI64 (b.headD 0) - borrow
      asU32 t :: usubLoop a b.tail (if t < 0 then 1 else 0)

/-- The difference of two magnitudes, the first being the larger. -/
def usub (a b : List UInt32) : List UInt32 := trim (usubLoop a b 0)

/-- Add a carry to limbs until it is zero. -/
def carryLoop : List UInt32 → UInt64 → Option (List UInt32)
  | out, carry =>
      if carry = 0 then some out
      else
        match out with
        | [] => none
        | o :: out =>
            let t := o.toUInt64 + carry
            (carryLoop out (t >>> 32)).map (t.toUInt32 :: ·)

/-- Add `x` times the limbs of `b`. -/
def umulRow (x : UInt32) :
    List UInt32 → List UInt32 → UInt64 → Option (List UInt32)
  | [], out, carry => carryLoop out carry
  | _ :: _, [], _ => none
  | y :: b, o :: out, carry =>
      let t := x.toUInt64 * y.toUInt64 + o.toUInt64 + carry
      (umulRow x b out (t >>> 32)).map (t.toUInt32 :: ·)

/-- Add the rows of the limbs of `a`, each one limb further. -/
def umulLoop : List UInt32 → List UInt32 → List UInt32 → Option (List UInt32)
  | [], _, out => some out
  | x :: a, b, out => do
      let out ← (if x = 0 then some out else umulRow x b out 0)
      let rest ← umulLoop a b out.tail
      some (out.take 1 ++ rest)

/-- The product of two magnitudes. -/
def umul (a b : List UInt32) : Option (List UInt32) :=
  if a.isEmpty || b.isEmpty then some []
  else
    (umulLoop a b (List.replicate (a.length + b.length) 0)).map trim

/-- Divide from the last limb on; the quotient and the remainder so far. -/
def udivSmallLoop (d : UInt32) : List UInt32 → List UInt32 × UInt64
  | [] => ([], 0)
  | x :: a =>
      let (q, r) := udivSmallLoop d a
      let cur := (r <<< 32) ||| x.toUInt64
      ((cur / d.toUInt64).toUInt32 :: q, cur % d.toUInt64)

/-- Divide a magnitude by one limb. -/
def udivSmall (a : List UInt32) (d : UInt32) :
    Option (List UInt32 × UInt32) :=
  if d = 0 then none
  else
    let (q, r) := udivSmallLoop d a
    some (trim q, r.toUInt32)

/-- Shift limbs to the left by less than a limb; the bits shifted out last. -/
def shlLoop (bits : UInt32) : List UInt32 → UInt32 → List UInt32 × UInt32
  | [], carry => ([], carry)
  | x :: a, carry =>
      let (out, last) := shlLoop bits a (x >>> (32 - bits))
      (((x <<< bits) ||| carry) :: out, last)

/-- Shift a magnitude to the left. -/
def ushl (a : List UInt32) (limbs : Nat) (bits : UInt32) : List UInt32 :=
  if a.isEmpty then []
  else if bits = 0 then trim (List.replicate limbs 0 ++ a)
  else
    let (out, carry) := shlLoop bits a 0
    trim (List.replicate limbs 0 ++ out ++ if carry ≠ 0 then [carry] else [])

/-- Shift limbs to the right by less than a limb. -/
def shrLoop (bits : UInt32) : List UInt32 → List UInt32
  | [] => []
  | x :: src =>
      let hi := if src.isEmpty then 0 else src.headD 0 <<< (32 - bits)
      ((x >>> bits) ||| hi) :: shrLoop bits src

/-- Shift a magnitude to the right. -/
def ushr (a : List UInt32) (limbs : Nat) (bits : UInt32) : List UInt32 :=
  if a.length ≤ limbs then []
  else
    let src := a.drop limbs
    trim (if bits = 0 then src else shrLoop bits src)

/-! ## Long division -/

/-- `leading_zeros`. -/
def leadingZeros (limb : UInt32) : Nat := 32 - limb.toNat.size

/-- Correct the estimate of a quotient limb while it is too large for the two
highest limbs of the divisor. -/
def estimateLoop (b1 b2 u2 : UInt32) : Nat → UInt64 → UInt64 → Option UInt64
  | 0, _, _ => none
  | turns + 1, qhat, rhat =>
      if BASE ≤ qhat ∨
          qhat * b2.toUInt64 > (rhat <<< 32) ||| u2.toUInt64 then
        let qhat := qhat - 1
        let rhat := rhat + b1.toUInt64
        if rhat < BASE then estimateLoop b1 b2 u2 turns qhat rhat
        else some qhat
      else some qhat

/-- Subtract `qhat` times the divisor; whether the result is negative. -/
def mulSubLoop (qhat : UInt64) : List UInt32 → List UInt32 → UInt64 → Int64 →
    Option (List UInt32 × Bool)
  | b :: bn, a :: an, carry, borrow => do
      let p := qhat * b.toUInt64 + carry
      let t := asI64 a - (p &&& 0xFFFFFFFF).toInt64 - borrow
      let (out, negative) ←
        mulSubLoop qhat bn an (p >>> 32) (if t < 0 then 1 else 0)
      some (asU32 t :: out, negative)
  | [], a :: an, carry, borrow =>
      let t := asI64 a - carry.toInt64 - borrow
      some (asU32 t :: an, t < 0)
  | _, [], _, _ => none

/-- Add the divisor back. -/
def addBackLoop : List UInt32 → List UInt32 → UInt64 → Option (List UInt32)
  | b :: bn, a :: an, carry =>
      let s2 := a.toUInt64 + b.toUInt64 + carry
      (addBackLoop bn an (s2 >>> 32)).map (s2.toUInt32 :: ·)
  | [], a :: an, carry => some ((a.toUInt64 + carry).toUInt32 :: an)
  | _, [], _ => none

/-- One limb of the quotient, and what is left of the limbs it was taken of. -/
def divStep (bn an : List UInt32) : Option (UInt32 × List UInt32) := do
  let n := bn.length
  let b1 ← bn[n - 1]?
  let b2 ← bn[n - 2]?
  let u0 ← an[n]?
  let u1 ← an[n - 1]?
  let u2 ← an[n - 2]?
  if b1 = 0 then none
  else
    let top := (u0.toUInt64 <<< 32) ||| u1.toUInt64
    let qhat ← estimateLoop b1 b2 u2 2 (top / b1.toUInt64) (top % b1.toUInt64)
    let (an, negative) ← mulSubLoop qhat bn an 0 0
    if negative then
      let an ← addBackLoop bn an 0
      some ((qhat - 1).toUInt32, an)
    else some (qhat.toUInt32, an)

/-- The limbs of the quotient from the highest down. -/
def divLoop (bn : List UInt32) :
    Nat → List UInt32 → List UInt32 → Option (List UInt32 × List UInt32)
  | 0, an, q => some (q, an)
  | j + 1, an, q => do
      let (digit, high) ← divStep bn (an.drop j)
      divLoop bn j (an.take j ++ high) (digit :: q)

/-- The quotient and the remainder of two magnitudes. -/
def udivmod (a b : List UInt32) : Option (List UInt32 × List UInt32) :=
  if ucmp a b = .lt then some ([], a)
  else
    match b.getLast? with
    | none => none
    | some last =>
        if b.length = 1 then do
          let (q, r) ← udivSmall a last
          some (q, trim [r])
        else do
          let s := UInt32.ofNat (leadingZeros last)
          let n := b.length
          let bn := if s = 0 then b else (shlLoop s b 0).1
          let an :=
            if s = 0 then a ++ [0]
            else (shlLoop s a 0).1 ++ [(shlLoop s a 0).2]
          let (q, an) ← divLoop bn (a.length - n + 1) an []
          let r := an.take n
          let r := if s > 0 then ushr r 0 s else r
          some (trim q, trim r)

/-! ## Signed integers -/

/-- `unsigned_abs`. -/
def unsignedAbs (v : Int64) : UInt64 := .ofNat v.toInt.natAbs

namespace BigInt

def zero : BigInt := { neg := false, mag := [] }

def isZero (self : BigInt) : Bool := self.mag.isEmpty

/-- -1, 0 or 1. -/
def sign (self : BigInt) : Int :=
  if self.mag.isEmpty then 0 else if self.neg then -1 else 1

/-- Trimmed, and zero without a sign. -/
def make (neg : Bool) (mag : List UInt32) : BigInt :=
  { neg := neg && !(trim mag).isEmpty, mag := trim mag }

def fromSignU64 (neg : Bool) (u : UInt64) : BigInt :=
  let mag := trim [u.toUInt32, (u >>> 32).toUInt32]
  { neg := neg && !mag.isEmpty, mag := mag }

def fromI64 (v : Int64) : BigInt := fromSignU64 (v < 0) (unsignedAbs v)

def fromU64 (v : UInt64) : BigInt := fromSignU64 false v

/-- The value where it fits a machine integer. -/
def toI64 (self : BigInt) : Option Int64 :=
  match self.mag with
  | [] => some 0
  | x :: rest =>
      if rest.length > 1 then none
      else
        let u := x.toUInt64 ||| match rest with
          | [] => 0
          | y :: _ => y.toUInt64 <<< 32
        let limit := (2 ^ 63 - 1 : UInt64) + if self.neg then 1 else 0
        if u > limit then none
        else if self.neg then
          if u = (2 ^ 63 - 1) + 1 then some Int64.minValue
          else some (-u.toInt64)
        else some u.toInt64

/-- `cmp`. -/
def cmp (self other : BigInt) : Ordering :=
  if self.sign ≠ other.sign then compare self.sign other.sign
  else
    let o := ucmp self.mag other.mag
    if self.sign < 0 then o.swap else o

/-- `neg`. -/
def negated (self : BigInt) : BigInt := make (!self.neg) self.mag

def abs (self : BigInt) : BigInt := { neg := false, mag := self.mag }

def add (self other : BigInt) : BigInt :=
  if self.neg = other.neg then make self.neg (uadd self.mag other.mag)
  else
    match ucmp self.mag other.mag with
    | .eq => zero
    | .gt => make self.neg (usub self.mag other.mag)
    | .lt => make other.neg (usub other.mag self.mag)

def sub (self other : BigInt) : BigInt := self.add other.negated

def mul (self other : BigInt) : Option BigInt :=
  (umul self.mag other.mag).map (make (self.neg != other.neg))

/-- The quotient toward zero, and the remainder with the sign of the dividend. -/
def divmodTrunc (self other : BigInt) : Option (BigInt × BigInt) := do
  let (q, r) ← udivmod self.mag other.mag
  some (make (self.neg != other.neg) q, make self.neg r)

/-- The quotient downward, and the remainder with the sign of the divisor. -/
def divmodFloor (self other : BigInt) : Option (BigInt × BigInt) := do
  let (q, r) ← self.divmodTrunc other
  if r.isZero || self.neg == other.neg then some (q, r)
  else some (q.sub (fromI64 1), r.add other)

def divFloor (self other : BigInt) : Option BigInt :=
  (self.divmodFloor other).map (·.1)

def modFloor (self other : BigInt) : Option BigInt :=
  (self.divmodFloor other).map (·.2)

/-- Shift to the left by a number of bits. -/
def shl (self : BigInt) (n : Nat) : BigInt :=
  make self.neg (ushl self.mag (n / 32) (UInt32.ofNat (n % 32)))

/-- Shift to the right, a negative number downward. -/
def shr (self : BigInt) (n : Nat) : BigInt :=
  let mag := ushr self.mag (n / 32) (UInt32.ofNat (n % 32))
  let v := make self.neg mag
  if self.neg && ucmp (v.abs.shl n).mag self.mag != .eq then
    v.sub (fromI64 1)
  else v

/-! ## Bit operations -/

/-- One limb of a two's complement. -/
def twoComp (v : UInt32) (c : Bool) : UInt32 × Bool :=
  let t := (~~~v) + if c then 1 else 0
  (t, t == 0 && c)

/-- The two's complement of limbs. -/
def twoCompLoop : List UInt32 → Bool → List UInt32
  | [], _ => []
  | w :: z, carry =>
      let (t, carry) := twoComp w carry
      t :: twoCompLoop z carry

/-- The value as `n` limbs in two's complement. -/
def twosLoop (neg : Bool) : Nat → List UInt32 → Bool → List UInt32
  | 0, _, _ => []
  | n + 1, mag, carry =>
      let v := mag.headD 0
      if neg then
        let (t, carry) := twoComp v carry
        t :: twosLoop neg n mag.tail carry
      else v :: twosLoop neg n mag.tail carry

def twos (self : BigInt) (n : Nat) : List UInt32 :=
  twosLoop self.neg n self.mag true

/-- An operation on the bits of two integers, at least one negative. -/
def bitop (self other : BigInt) (op : UInt32 → UInt32 → UInt32) : BigInt :=
  let n := max self.mag.length other.mag.length + 1
  let z := List.zipWith op (self.twos n) (other.twos n)
  let neg := z.getLastD 0 ≠ 0
  make neg (if neg then twoCompLoop z true else z)

/-- An operation on the limbs of two magnitudes; the shorter one counts as zero
past its end. -/
def zipLong (op : UInt32 → UInt32 → UInt32) :
    List UInt32 → List UInt32 → List UInt32
  | [], b => b.map fun y => op 0 y
  | x :: a, [] => (x :: a).map fun x => op x 0
  | x :: a, y :: b => op x y :: zipLong op a b

/-- `and`. -/
def land (self other : BigInt) : BigInt :=
  if self.isZero || other.isZero then zero
  else if !self.neg && !other.neg then
    make false (List.zipWith (· &&& ·) self.mag other.mag)
  else self.bitop other (· &&& ·)

/-- `or`. -/
def lor (self other : BigInt) : BigInt :=
  if self.isZero then other
  else if other.isZero then self
  else if !self.neg && !other.neg then
    make false (zipLong (· ||| ·) self.mag other.mag)
  else self.bitop other (· ||| ·)

/-- `xor`. -/
def lxor (self other : BigInt) : BigInt :=
  if self.isZero then other
  else if other.isZero then self
  else if !self.neg && !other.neg then
    make false (zipLong (· ^^^ ·) self.mag other.mag)
  else self.bitop other (· ^^^ ·)

/-- `not`. -/
def lnot (self : BigInt) : BigInt := self.negated.sub (fromI64 1)

end BigInt

end SabiRuby.Integer
