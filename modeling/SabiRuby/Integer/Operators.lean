import SabiRuby.Integer.SquareRoot

/-!
# The operators of Integer

Every operator has a path for two machine integers and a path through wide ones,
which it takes when an operand is wide or the result does not fit.  Operands that
are not Integers are left out.
-/

namespace SabiRuby.Integer

open Library

/-- What an operator raises. -/
inductive Raise
  /-- ZeroDivisionError. -/
  | zeroDivision
  /-- RangeError `shift width too big`. -/
  | shiftTooBig
  /-- RangeError of a shift width that is wide itself. -/
  | wideWidth
  deriving DecidableEq, Repr

/-! ## Machine integers -/

/-- Truncating product, `none` where it does not fit. -/
def mulSigned (a b : Int64) : Option Int64 :=
  if -2 ^ 63 ≤ a.toInt * b.toInt ∧ a.toInt * b.toInt < 2 ^ 63 then
    some (a * b)
  else none

/-- `div_floor` of two machine integers. -/
def divFloor (p q : Int64) : Int64 :=
  let d := p / q
  if p % q ≠ 0 ∧ decide (p < 0) ≠ decide (q < 0) then d - 1 else d

/-- `mod_floor` of two machine integers. -/
def modFloor (p q : Int64) : Int64 :=
  let m := p % q
  if m ≠ 0 ∧ decide (m < 0) ≠ decide (q < 0) then m + q else m

/-! ## The operators -/

/-- The three operations that promote on overflow. -/
inductive IntOp
  | add
  | sub
  | mul
  deriving DecidableEq, Repr

namespace IntOp

/-- The operation on integers. -/
def exact : IntOp → Int → Int → Int
  | .add => (· + ·)
  | .sub => (· - ·)
  | .mul => (· * ·)

/-- The operation on machine integers, `none` where it overflows. -/
def checked : IntOp → Int64 → Int64 → Option Int64
  | .add => addSigned
  | .sub => subSigned
  | .mul => mulSigned

/-- The operation on wide integers. -/
def wide : IntOp → BigInt → BigInt → Option BigInt
  | .add => fun p q => some (p.add q)
  | .sub => fun p q => some (p.sub q)
  | .mul => BigInt.mul

end IntOp

namespace Number

/-- `as_bigint`. -/
def asBigint : Number → BigInt
  | .int n => .fromI64 n
  | .bint b => b

/-- The number is a wide integer. -/
def isBigint : Number → Bool
  | .int _ => false
  | .bint _ => true

end Number

open Number

/-- `bint_arith`. -/
def bintArith (op : IntOp) (p q : BigInt) : Option Number :=
  (op.wide p q).map bintValue

/-- `Integer#+`, `#-` and `#*`. -/
def intArith (op : IntOp) (x y : Number) : Option Number :=
  match x, y with
  | .int p, .int q =>
      match op.checked p q with
      | some r => some (.int r)
      | none => bintArith op (.fromI64 p) (.fromI64 q)
  | x, y => bintArith op x.asBigint y.asBigint

/-- `bint_div_floor`. -/
def bintDivFloor (x y : Number) : Option (Except Raise Number) :=
  let q := y.asBigint
  if q.isZero then some (.error .zeroDivision)
  else (x.asBigint.divFloor q).map fun r => .ok (bintValue r)

/-- `Integer#/`. -/
def intDiv (x y : Number) : Option (Except Raise Number) :=
  match x, y with
  | .int p, .int q =>
      if q = 0 then some (.error .zeroDivision)
      else if p = Int64.minValue ∧ q = -1 then
        some (.ok (bintValue (BigInt.fromI64 p).negated))
      else some (.ok (.int (divFloor p q)))
  | x, y => bintDivFloor x y

/-- `Integer#%`.  A receiver of zero answers itself to a machine integer before
the divisor is looked at. -/
def intMod (x y : Number) : Option (Except Raise Number) :=
  if x = .int 0 ∧ y.isBigint = false then some (.ok x)
  else
    match x, y with
    | .int p, .int q =>
        if q = 0 then some (.error .zeroDivision)
        else if p = Int64.minValue ∧ q = -1 then some (.ok (.int 0))
        else some (.ok (.int (modFloor p q)))
    | x, y =>
        let q := y.asBigint
        if q.isZero then some (.error .zeroDivision)
        else (x.asBigint.modFloor q).map fun r => .ok (bintValue r)

/-- `Integer#divmod`. -/
def intDivmod (x y : Number) : Option (Except Raise (Number × Number)) :=
  match x, y with
  | .int p, .int q =>
      if q = 0 then some (.error .zeroDivision)
      else if p = Int64.minValue ∧ q = -1 then
        some (.ok (bintValue (BigInt.fromI64 p).negated, .int 0))
      else some (.ok (.int (divFloor p q), .int (modFloor p q)))
  | x, y =>
      let q := y.asBigint
      if q.isZero then some (.error .zeroDivision)
      else
        (x.asBigint.divmodFloor q).map fun r =>
          .ok (bintValue r.1, bintValue r.2)

/-- An operator on the bits, given what it does to machine and wide integers. -/
def bit (f : Int64 → Int64 → Int64) (fb : BigInt → BigInt → BigInt)
    (x y : Number) : Number :=
  match x, y with
  | .int p, .int q => .int (f p q)
  | x, y => bintValue (fb x.asBigint y.asBigint)

/-- `Integer#&`. -/
def intAnd : Number → Number → Number := bit (· &&& ·) BigInt.land

/-- `Integer#|`. -/
def intOr : Number → Number → Number := bit (· ||| ·) BigInt.lor

/-- `Integer#^`. -/
def intXor : Number → Number → Number := bit (· ^^^ ·) BigInt.lxor

/-- `Integer#~`. -/
def intNot : Number → Number
  | .int i => .int (~~~i)
  | .bint b => bintValue b.lnot

/-- Widest left shift accepted, in bits. -/
def MAX_SHIFT : Nat := 2 ^ 26

/-- A shift of a machine integer that needs no wide one. -/
def shiftSmall (p : Int64) (left : Bool) (n : Nat) : Option Int64 :=
  if !left then
    some (if 64 ≤ n then if p < 0 then -1 else 0 else p >>> Int64.ofNat n)
  else if p = 0 then some 0
  else if n < 64 then
    let r := p <<< Int64.ofNat n
    if r >>> Int64.ofNat n = p then some r else none
  else none

/-- `Integer#<<` and `Integer#>>`. -/
def shift (x y : Number) (left : Bool) : Except Raise Number :=
  match y with
  | .bint _ => .error .wideWidth
  | .int w =>
      let left' := if w < 0 then !left else left
      let n := w.toInt.natAbs
      let small :=
        match x with
        | .int p => shiftSmall p left' n
        | .bint _ => none
      match small with
      | some r => .ok (.int r)
      | none =>
          let p := x.asBigint
          if left' = true ∧ MAX_SHIFT < n then .error .shiftTooBig
          else .ok (bintValue (if left' then p.shl n else p.shr n))

/-- `Integer#<=>`. -/
def compareNumbers (x y : Number) : Ordering :=
  match x, y with
  | .int p, .int q => compare p.toInt q.toInt
  | x, y => x.asBigint.cmp y.asBigint

end SabiRuby.Integer
