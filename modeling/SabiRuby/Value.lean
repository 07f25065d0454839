import Mathlib.Algebra.Group.Nat.Defs

/-!
# Ruby values

A value is an immediate or a handle to a heap object.  A Float is kept as its
IEEE 754 bit pattern, so that its comparisons are definitions on bits.
-/

namespace SabiRuby

/-- Handle to a heap object. -/
structure ObjId where
  /-- Index into the heap. -/
  index : Nat
  deriving DecidableEq, Repr, Inhabited

/-- An interned symbol. -/
structure Sym where
  /-- The number of the symbol. -/
  number : UInt32
  deriving DecidableEq, Repr, Inhabited

/-- A double-precision number as its bits. -/
structure F64 where
  /-- Sign, exponent and fraction. -/
  bits : UInt64
  deriving DecidableEq, Repr, Inhabited

namespace F64

/-- The bits without the sign. -/
def magnitude (number : F64) : UInt64 := number.bits &&& 0x7fffffffffffffff

/-- The number is not a number. -/
def isNan (number : F64) : Bool := 0x7ff0000000000000 < number.magnitude

/-- The number is `0.0` or `-0.0`. -/
def isZero (number : F64) : Bool := number.magnitude == 0

/-- The number `0.0`. -/
def zero : F64 := ⟨0⟩

/-- IEEE equality: no NaN is equal to anything, and the two zeros are equal. -/
def eq (left right : F64) : Bool :=
  !left.isNan && !right.isNan &&
    (left.bits == right.bits || (left.isZero && right.isZero))

/-- The cast to a 64-bit integer: toward zero, a NaN as zero, and the nearest
end of the range for a number outside it. -/
def toInt64 (number : F64) : Int64 :=
  let exponent := (number.magnitude >>> 52).toNat
  let fraction := (number.magnitude &&& 0x000fffffffffffff).toNat
  let negative := number.bits != number.magnitude
  if number.isNan then 0
  else if exponent < 1023 then 0
  else if 1086 ≤ exponent then
    if negative then Int64.minValue else Int64.maxValue
  else
    let significand := fraction + 2 ^ 52
    let whole : Nat :=
      if exponent ≤ 1075 then significand / 2 ^ (1075 - exponent)
      else significand * 2 ^ (exponent - 1075)
    Int64.ofInt (if negative then -(whole : Int) else (whole : Int))

end F64

/-- A Ruby value. -/
inductive Value
  | nil
  | falseValue
  | trueValue
  | int (number : Int64)
  | float (number : F64)
  | sym (symbol : Sym)
  | obj (object : ObjId)
  deriving DecidableEq, Repr, Inhabited

namespace Value

/-- The derived comparison of values: Floats by IEEE equality, everything else
by identity. -/
def eq : Value → Value → Bool
  | .float left, .float right => left.eq right
  | left, right => left == right

/-- Everything but `nil` and `false` counts as true. -/
def truthy : Value → Bool
  | .nil => Bool.false
  | .falseValue => Bool.false
  | _ => Bool.true

/-- The value is `nil`. -/
def isNil : Value → Bool
  | .nil => Bool.true
  | _ => Bool.false

end Value

/-- The same value, a Float by its bits, so that a NaN is itself. -/
def sameWord : Value → Value → Bool
  | .float left, .float right => left.bits == right.bits
  | left, right => left.eq right

/-- The same word is the same value. -/
theorem sameWord_iff (left right : Value) :
    sameWord left right = true ↔ left = right := by
  cases left <;> cases right <;> simp [sameWord, Value.eq]
  case float.float leftNumber rightNumber =>
    cases leftNumber
    cases rightNumber
    simp

theorem Value.int_eq_iff (number : Int64) (stored : Value) :
    (Value.int number).eq stored = true ↔ stored = .int number := by
  cases stored with
  | int other =>
      simp only [Value.eq, beq_iff_eq, Value.int.injEq]
      exact eq_comm
  | _ => simp [Value.eq]

theorem Value.sym_eq_iff (symbol : Sym) (stored : Value) :
    (Value.sym symbol).eq stored = true ↔ stored = .sym symbol := by
  cases stored with
  | sym other =>
      simp only [Value.eq, beq_iff_eq, Value.sym.injEq]
      exact eq_comm
  | _ => simp [Value.eq]

end SabiRuby
