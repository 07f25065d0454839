import Mathlib.Data.List.Basic
import SabiRuby.Execution.Decode

/-!
# The other decoders

`Irep::decode` reads the instruction at a position, and `insn_ending_at` and
`Vm::send_before` look for the one that ends at a position, from the start of
the sequence.  Each reads the operands by a rule of its own, and on a sequence
of instructions all of them split it where the run loop does.
-/

namespace SabiRuby.Execution

variable {Sym : Type}

/-- What the decoders use of an `Irep`. -/
structure Irep (Sym : Type) where
  iseq : List UInt8
  syms : List Sym

/-! ## `Irep::decode` -/

def rdB (iseq : List UInt8) (p : Nat) : Option (Nat × Nat) := do
  let v ← iseq[p]?
  some (v.toNat, p + 1)

def rdS (iseq : List UInt8) (p : Nat) : Option (Nat × Nat) := do
  let high ← iseq[p]?
  let low ← iseq[p + 1]?
  some (high.toNat <<< 8 ||| low.toNat, p + 2)

def rdW (iseq : List UInt8) (p : Nat) : Option (Nat × Nat) := do
  let high ← iseq[p]?
  let middle ← iseq[p + 1]?
  let low ← iseq[p + 2]?
  some (high.toNat <<< 16 ||| middle.toNat <<< 8 ||| low.toNat, p + 3)

/-- One or two bytes, as a prefix has it. -/
def rdBOrS (wide : Bool) (iseq : List UInt8) (p : Nat) : Option (Nat × Nat) :=
  if wide then rdS iseq p else rdB iseq p

/-- The operands as `Irep::decode` reads them. -/
def decodeOperands
    (layout : Operands)
    (ext : Nat)
    (iseq : List UInt8)
    (p : Nat) : Option (Nat × Nat × Nat × Nat) :=
  let aWide := ext == 1 || ext == 3
  let bWide := ext == 2 || ext == 3
  match layout with
  | .z => some (0, 0, 0, p)
  | .b => do
      let (a, p) ← rdBOrS aWide iseq p
      some (a, 0, 0, p)
  | .bb => do
      let (a, p) ← rdBOrS aWide iseq p
      let (b, p) ← rdBOrS bWide iseq p
      some (a, b, 0, p)
  | .bbb => do
      let (a, p) ← rdBOrS aWide iseq p
      let (b, p) ← rdBOrS bWide iseq p
      let (c, p) ← rdB iseq p
      some (a, b, c, p)
  | .bs => do
      let (a, p) ← rdBOrS aWide iseq p
      let (b, p) ← rdS iseq p
      some (a, b, 0, p)
  | .bss => do
      let (a, p) ← rdBOrS aWide iseq p
      let (b, p) ← rdS iseq p
      let (c, p) ← rdS iseq p
      some (a, b, c, p)
  | .s => do
      let (a, p) ← rdS iseq p
      some (a, 0, 0, p)
  | .w => do
      let (a, p) ← rdW iseq p
      some (a, 0, 0, p)

/-- The opcode at a position. -/
def opAt (iseq : List UInt8) (p : Nat) : Option Op := do
  let byte ← iseq[p]?
  Op.fromU8 byte

/-- The loop of `Irep::decode` over the prefixes before an opcode. -/
def afterPrefixes (iseq : List UInt8) :
    Nat → Op → Nat → Nat → Option (Op × Nat × Nat)
  | 0, _, _, _ => none
  | fuel + 1, op, p, ext =>
      if op.ext = 0 then some (op, p, ext)
      else do
        let next ← opAt iseq p
        afterPrefixes iseq fuel next (p + 1) op.ext

/-- `Irep::decode`. -/
def Irep.decode
    (irep : Irep Sym)
    (pc : Nat) : Option (Op × Nat × Nat × Nat × Nat) := do
  let first ← opAt irep.iseq pc
  let (op, p, ext) ←
    afterPrefixes irep.iseq (irep.iseq.length + 1) first (pc + 1) 0
  let (a, b, c, p) ← decodeOperands op.operands ext irep.iseq p
  some (op, a, b, c, p)

/-! ## `insn_ending_at` -/

/-- The operand reader of the two scans. -/
def rd (code : List UInt8) (p : Nat) (wide : Bool) : Option (Nat × Nat) := do
  let v ←
    if wide then do
      let high ← code[p]?
      let low ← code[p + 1]?
      some (high.toNat <<< 8 ||| low.toNat)
    else do
      let v ← code[p]?
      some v.toNat
  some (v, p + if wide then 2 else 1)

/-- The operands as `insn_ending_at` reads them: the one of `W` is skipped. -/
def endingOperands
    (layout : Operands)
    (ext : Nat)
    (code : List UInt8)
    (p : Nat) : Option (Nat × Nat × Nat × Nat) :=
  let aw := ext == 1 || ext == 3
  let bw := ext == 2 || ext == 3
  match layout with
  | .z => some (0, 0, 0, p)
  | .b => do
      let (a, p) ← rd code p aw
      some (a, 0, 0, p)
  | .bb => do
      let (a, p) ← rd code p aw
      let (b, p) ← rd code p bw
      some (a, b, 0, p)
  | .bbb => do
      let (a, p) ← rd code p aw
      let (b, p) ← rd code p bw
      let (c, p) ← rd code p false
      some (a, b, c, p)
  | .bs => do
      let (a, p) ← rd code p aw
      let (b, p) ← rd code p true
      some (a, b, 0, p)
  | .bss => do
      let (a, p) ← rd code p aw
      let (b, p) ← rd code p true
      let (c, p) ← rd code p true
      some (a, b, c, p)
  | .s => do
      let (a, p) ← rd code p true
      some (a, 0, 0, p)
  | .w => some (0, 0, 0, p + 3)

/-- The loop of `insn_ending_at`; a turn ends behind where it begins, so that
`pc` of them are enough. -/
def endingFrom (code : List UInt8) (pc : Nat) :
    Nat → Nat → Option (Nat × Op × Nat × Nat × Nat)
  | 0, _ => none
  | fuel + 1, start =>
      if start < pc then do
        let first ← opAt code start
        let ext := first.ext
        let (op, p) ←
          if ext ≠ 0 then do
            let op ← opAt code (start + 1)
            some (op, start + 2)
          else some (first, start + 1)
        let (a, b, c, p) ← endingOperands op.operands ext code p
        if p = pc then some (start, op, a, b, c)
        else endingFrom code pc fuel p
      else none

/-- `insn_ending_at`. -/
def insnEndingAt
    (irep : Irep Sym)
    (pc : Nat) : Option (Nat × Op × Nat × Nat × Nat) :=
  endingFrom irep.iseq pc (pc + 1) 0

/-! ## `Vm::send_before` -/

/-- The operands as `send_before` reads them: those it has no use for are
skipped. -/
def sendOperands
    (layout : Operands)
    (ext : Nat)
    (code : List UInt8)
    (p : Nat) : Option (Nat × Nat × Nat) :=
  let aw := ext == 1 || ext == 3
  let bw := ext == 2 || ext == 3
  match layout with
  | .z => some (0, 0, p)
  | .b => do
      let (a, p) ← rd code p aw
      some (a, 0, p)
  | .bb => do
      let (a, p) ← rd code p aw
      let (b, p) ← rd code p bw
      some (a, b, p)
  | .bbb => do
      let (a, p) ← rd code p aw
      let (b, p) ← rd code p bw
      some (a, b, p + 1)
  | .bs => do
      let (a, p) ← rd code p aw
      some (a, 0, p + 2)
  | .bss => do
      let (a, p) ← rd code p aw
      some (a, 0, p + 4)
  | .s => some (0, 0, p + 2)
  | .w => some (0, 0, p + 3)

/-- The register and the method name of a call instruction. -/
def callNamed
    (aref aset : Sym)
    (syms : List Sym)
    (op : Op)
    (a b : Nat) : Option (Nat × Sym) :=
  match op with
  | .send | .send0 | .sendb | .ssend | .ssend0 | .ssendb => do
      let name ← syms[b]?
      some (a, name)
  | .getidx | .getidx0 => some (a, aref)
  | .setidx => some (a, aset)
  | _ => none

/-- The loop of `send_before`, where a prefix is a turn of its own. -/
def sendFrom (aref aset : Sym) (irep : Irep Sym) (pc : Nat) :
    Nat → Nat → Nat → Option (Nat × Sym)
  | 0, _, _ => none
  | fuel + 1, start, ext =>
      if start < pc then do
        let op ← opAt irep.iseq start
        let (a, b, p) ← sendOperands op.operands ext irep.iseq (start + 1)
        if p = pc then callNamed aref aset irep.syms op a b
        else sendFrom aref aset irep pc fuel p op.ext
      else none

/-- `Vm::send_before`. -/
def sendBefore
    (aref aset : Sym)
    (irep : Irep Sym)
    (pc : Nat) : Option (Nat × Sym) :=
  sendFrom aref aset irep pc (pc + 1) 0 0

/-! ## The run loop -/

/-- What the run loop decodes at the start of an instruction: a prefix takes a
turn of its own. -/
def runLoopDecode
    (iseq : List UInt8)
    (pc : Nat) : Except DecodeError Instruction :=
  match decode iseq pc 0 with
  | .error why => .error why
  | .ok first =>
      if first.op.ext = 0 then .ok first
      else decode iseq first.next first.op.ext

end SabiRuby.Execution
