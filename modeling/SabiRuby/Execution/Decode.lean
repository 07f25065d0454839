import SabiRuby.Execution.Opcode

/-!
# Decoding one instruction

One turn of `exec_frames` reads an opcode and its operands at a position of an
instruction sequence.  An `EXT1`, `EXT2` or `EXT3` executed just before makes
the first, the second or both operands two bytes wide.
-/

namespace SabiRuby.Execution

/-- One decoded instruction and the position after it. -/
structure Instruction where
  op : Op
  a : Nat
  b : Nat
  c : Nat
  next : Nat
deriving DecidableEq, Repr

/-- Why a turn finds no instruction: an undefined opcode is an internal error,
a position past the end of the sequence panics. -/
inductive DecodeError
  | badOpcode (byte : UInt8)
  | outOfRange
deriving DecidableEq, Repr

/-- One byte of the sequence, as an index of a slice. -/
def byteAt (iseq : List UInt8) (pc : Nat) : Except DecodeError Nat :=
  match iseq[pc]? with
  | some byte => .ok byte.toNat
  | none => .error .outOfRange

/-- An operand of one byte. -/
def readB (iseq : List UInt8) (pc : Nat) : Except DecodeError (Nat × Nat) := do
  let v ← byteAt iseq pc
  return (v, pc + 1)

/-- An operand of two bytes, the higher one first. -/
def readS (iseq : List UInt8) (pc : Nat) : Except DecodeError (Nat × Nat) := do
  let high ← byteAt iseq pc
  let low ← byteAt iseq (pc + 1)
  return (high * 256 + low, pc + 2)

/-- An operand of three bytes. -/
def readW (iseq : List UInt8) (pc : Nat) : Except DecodeError (Nat × Nat) := do
  let high ← byteAt iseq pc
  let middle ← byteAt iseq (pc + 1)
  let low ← byteAt iseq (pc + 2)
  return (high * 65536 + middle * 256 + low, pc + 3)

/-- An operand that a prefix may have widened. -/
def readBOrS
    (wide : Bool)
    (iseq : List UInt8)
    (pc : Nat) : Except DecodeError (Nat × Nat) :=
  if wide then readS iseq pc else readB iseq pc

/-- The operands of an opcode of the given layout under the pending width
`ext`. -/
def readOperands
    (layout : Operands)
    (ext : Nat)
    (iseq : List UInt8)
    (pc : Nat) : Except DecodeError (Nat × Nat × Nat × Nat) := do
  let aWide := ext == 1 || ext == 3
  let bWide := ext == 2 || ext == 3
  match layout with
  | .z => return (0, 0, 0, pc)
  | .b =>
      let (a, pc) ← readBOrS aWide iseq pc
      return (a, 0, 0, pc)
  | .bb =>
      let (a, pc) ← readBOrS aWide iseq pc
      let (b, pc) ← readBOrS bWide iseq pc
      return (a, b, 0, pc)
  | .bbb =>
      let (a, pc) ← readBOrS aWide iseq pc
      let (b, pc) ← readBOrS bWide iseq pc
      let (c, pc) ← readB iseq pc
      return (a, b, c, pc)
  | .bs =>
      let (a, pc) ← readBOrS aWide iseq pc
      let (b, pc) ← readS iseq pc
      return (a, b, 0, pc)
  | .bss =>
      let (a, pc) ← readBOrS aWide iseq pc
      let (b, pc) ← readS iseq pc
      let (c, pc) ← readS iseq pc
      return (a, b, c, pc)
  | .s =>
      let (a, pc) ← readS iseq pc
      return (a, 0, 0, pc)
  | .w =>
      let (a, pc) ← readW iseq pc
      return (a, 0, 0, pc)

/-- The instruction at a position under the pending width `ext`. -/
def decode
    (iseq : List UInt8)
    (pc ext : Nat) : Except DecodeError Instruction :=
  match iseq[pc]? with
  | none => .error .outOfRange
  | some byte =>
      match Op.fromU8 byte with
      | none => .error (.badOpcode byte)
      | some op => do
          let (a, b, c, next) ← readOperands op.operands ext iseq (pc + 1)
          return { op, a, b, c, next }

/-- The width an executed instruction leaves for the one after it. -/
def Op.ext : Op → Nat
  | .ext1 => 1
  | .ext2 => 2
  | .ext3 => 3
  | _ => 0

/-- `EXT1` widens the first operand of the instruction after it. -/
example :
    decode [115, 3, 1, 0, 7] 1 1 =
      .ok { op := .loadi8, a := 256, b := 7, c := 0, next := 5 } :=
  rfl

end SabiRuby.Execution
