import SabiRuby.Execution.Decoders

/-!
# Where instructions begin and end

A sequence of instructions, each with its operands in the widths that its
prefix gives them, is split by every decoder at the same places.
-/

namespace SabiRuby.Execution

variable {Sym : Type}

/-! ## Instructions in bytes -/

/-- A number fits into one byte, or into two where it is wide. -/
def InWord (wide : Bool) (v : Nat) : Prop := v < if wide then 65536 else 256

/-- The bytes of a number, the higher one first. -/
def wordBytes (wide : Bool) (v : Nat) : List UInt8 :=
  if wide then [UInt8.ofNat (v / 256), UInt8.ofNat (v % 256)]
  else [UInt8.ofNat v]

abbrev aWide (ext : Nat) : Bool := ext == 1 || ext == 3

abbrev bWide (ext : Nat) : Bool := ext == 2 || ext == 3

/-- The operands that a layout has room for under a prefix. -/
def Fits (layout : Operands) (ext a b c : Nat) : Prop :=
  match layout with
  | .z => a = 0 ∧ b = 0 ∧ c = 0
  | .b => InWord (aWide ext) a ∧ b = 0 ∧ c = 0
  | .bb => InWord (aWide ext) a ∧ InWord (bWide ext) b ∧ c = 0
  | .bbb => InWord (aWide ext) a ∧ InWord (bWide ext) b ∧ InWord false c
  | .bs => InWord (aWide ext) a ∧ InWord true b ∧ c = 0
  | .bss => InWord (aWide ext) a ∧ InWord true b ∧ InWord true c
  | .s => InWord true a ∧ b = 0 ∧ c = 0
  | .w => a < 16777216 ∧ b = 0 ∧ c = 0

/-- The operands of a layout in bytes. -/
def operandBytes (layout : Operands) (ext a b c : Nat) : List UInt8 :=
  match layout with
  | .z => []
  | .b => wordBytes (aWide ext) a
  | .bb => wordBytes (aWide ext) a ++ wordBytes (bWide ext) b
  | .bbb =>
      wordBytes (aWide ext) a ++ (wordBytes (bWide ext) b ++ wordBytes false c)
  | .bs => wordBytes (aWide ext) a ++ wordBytes true b
  | .bss => wordBytes (aWide ext) a ++ (wordBytes true b ++ wordBytes true c)
  | .s => wordBytes true a
  | .w =>
      [UInt8.ofNat (a / 65536), UInt8.ofNat (a / 256 % 256),
        UInt8.ofNat (a % 256)]

/-- The byte of a prefix. -/
def extBytes : Nat → List UInt8
  | 0 => []
  | 1 => [115]
  | 2 => [116]
  | _ => [117]

/-- A known instruction behind at most one prefix. -/
structure Insn where
  ext : Nat
  byte : UInt8
  op : Op
  a : Nat
  b : Nat
  c : Nat
  width : ext ≤ 3
  known : Op.fromU8 byte = some op
  plain : op.ext = 0
  fits : Fits op.operands ext a b c

namespace Insn

def operands (i : Insn) : List UInt8 :=
  operandBytes i.op.operands i.ext i.a i.b i.c

def bytes (i : Insn) : List UInt8 :=
  extBytes i.ext ++ i.byte :: i.operands

theorem bytes_length (i : Insn) :
    i.bytes.length = (extBytes i.ext).length + 1 + i.operands.length := by
  rw [bytes, List.length_append, List.length_cons]
  omega

end Insn

/-- The instruction sequence of instructions. -/
def stream (code : List Insn) : List UInt8 := code.flatMap Insn.bytes

theorem stream_nil : stream [] = [] := rfl

theorem stream_append (front back : List Insn) :
    stream (front ++ back) = stream front ++ stream back :=
  List.flatMap_append

theorem stream_cons (i : Insn) (back : List Insn) :
    stream (i :: back) = i.bytes ++ stream back :=
  List.flatMap_cons

/-! ## Bytes at a position -/

/-- The sequence has these bytes at a position. -/
def At (iseq : List UInt8) (p : Nat) (bytes : List UInt8) : Prop :=
  bytes <+: iseq.drop p

section Positions

variable {iseq bytes : List UInt8} {p : Nat} {v : UInt8}

theorem At.get (here : At iseq p (v :: bytes)) : iseq[p]? = some v := by
  obtain ⟨rest, split⟩ := here
  have first : (iseq.drop p)[0]? = some v := by
    rw [← split]
    rfl
  rwa [List.getElem?_drop] at first

theorem At.behind
    {front : List UInt8}
    (here : At iseq p (front ++ bytes)) :
    At iseq (p + front.length) bytes := by
  obtain ⟨rest, split⟩ := here
  refine ⟨rest, ?_⟩
  rw [← List.drop_drop, ← split, List.append_assoc]
  exact (List.drop_left' rfl).symm

theorem At.left
    (here : At iseq p (bytes ++ back)) :
    At iseq p bytes :=
  (List.prefix_append bytes back).trans here

theorem At.tail (here : At iseq p (v :: bytes)) : At iseq (p + 1) bytes :=
  @At.behind iseq bytes p [v] here

end Positions

/-! ## Operands read back -/

theorem toNat_ofNat {n : Nat} (small : n < 256) : (UInt8.ofNat n).toNat = n := by
  rw [UInt8.toNat_ofNat']
  exact Nat.mod_eq_of_lt small

theorem highLow (v : Nat) : (v / 256) <<< 8 ||| v % 256 = v := by
  rw [← Nat.shiftLeft_add_eq_or_of_lt (Nat.mod_lt v (by decide)),
    Nat.shiftLeft_eq]
  omega

variable {iseq : List UInt8} {p v ext a b c : Nat} {wide : Bool}

theorem readBOrS_at
    (here : At iseq p (wordBytes wide v))
    (fits : InWord wide v) :
    readBOrS wide iseq p = .ok (v, p + (wordBytes wide v).length) := by
  cases wide with
  | false =>
      have byte := here.get
      simp only [readBOrS, readB, byteAt, byte]
      rw [toNat_ofNat fits]
      rfl
  | true =>
      have high := here.get
      have low := here.tail.get
      have small : v < 65536 := fits
      simp only [readBOrS, readS, byteAt, high, low]
      rw [toNat_ofNat (by omega), toNat_ofNat (by omega)]
      apply congrArg fun n => Except.ok (n, p + 2)
      omega

theorem rd_at
    (here : At iseq p (wordBytes wide v))
    (fits : InWord wide v) :
    rd iseq p wide = some (v, p + (wordBytes wide v).length) := by
  cases wide with
  | false =>
      have byte := here.get
      have value := toNat_ofNat fits
      simp [rd, byte, value, wordBytes]
  | true =>
      have high := here.get
      have low := here.tail.get
      have small : v < 65536 := fits
      have whole := highLow v
      rw [← Nat.mod_eq_of_lt (show v / 256 < 256 by omega)] at whole
      simp [rd, high, low, whole, wordBytes]

theorem rdBOrS_eq_rd (wide : Bool) (iseq : List UInt8) (p : Nat) :
    rdBOrS wide iseq p = rd iseq p wide := by
  cases wide <;> simp [rdBOrS, rdB, rdS, rd]

theorem readW_at
    (here : At iseq p (operandBytes .w ext a b c))
    (fits : a < 16777216) :
    readW iseq p = .ok (a, p + 3) := by
  have high := here.get
  have middle := here.tail.get
  have low := here.tail.tail.get
  simp only [readW, byteAt, high, middle, low]
  rw [toNat_ofNat (by omega), toNat_ofNat (by omega), toNat_ofNat (by omega)]
  apply congrArg fun n => Except.ok (n, p + 3)
  omega

theorem readOperands_at
    (here : At iseq p (operandBytes layout ext a b c))
    (fits : Fits layout ext a b c) :
    readOperands layout ext iseq p =
      .ok (a, b, c, p + (operandBytes layout ext a b c).length) := by
  cases layout with
  | z =>
      obtain ⟨rfl, rfl, rfl⟩ := fits
      rfl
  | b =>
      obtain ⟨first, rfl, rfl⟩ := fits
      simp only [readOperands]
      rw [readBOrS_at here first]
      rfl
  | bb =>
      obtain ⟨first, second, rfl⟩ := fits
      simp only [readOperands]
      rw [readBOrS_at here.left first]
      simp only [bind, Except.bind]
      rw [readBOrS_at here.behind second, operandBytes, List.length_append,
        ← Nat.add_assoc]
      rfl
  | bbb =>
      obtain ⟨first, second, third⟩ := fits
      simp only [readOperands]
      rw [readBOrS_at here.left first]
      simp only [bind, Except.bind]
      rw [readBOrS_at here.behind.left second]
      have last := readBOrS_at here.behind.behind third
      rw [readBOrS, if_neg Bool.false_ne_true] at last
      dsimp only
      rw [last, operandBytes, List.length_append, List.length_append,
        ← Nat.add_assoc, ← Nat.add_assoc]
      rfl
  | bs =>
      obtain ⟨first, second, rfl⟩ := fits
      simp only [readOperands]
      rw [readBOrS_at here.left first]
      simp only [bind, Except.bind]
      have last := readBOrS_at here.behind second
      rw [readBOrS, if_pos rfl] at last
      rw [last, operandBytes, List.length_append, ← Nat.add_assoc]
      rfl
  | bss =>
      obtain ⟨first, second, third⟩ := fits
      simp only [readOperands]
      rw [readBOrS_at here.left first]
      simp only [bind, Except.bind]
      have next := readBOrS_at here.behind.left second
      rw [readBOrS, if_pos rfl] at next
      rw [next]
      have last := readBOrS_at here.behind.behind third
      rw [readBOrS, if_pos rfl] at last
      dsimp only
      rw [last, operandBytes, List.length_append, List.length_append,
        ← Nat.add_assoc, ← Nat.add_assoc]
      rfl
  | s =>
      obtain ⟨first, rfl, rfl⟩ := fits
      simp only [readOperands]
      have last := readBOrS_at here first
      rw [readBOrS, if_pos rfl] at last
      rw [last]
      rfl
  | w =>
      obtain ⟨first, rfl, rfl⟩ := fits
      simp only [readOperands]
      rw [readW_at here first]
      rfl

/-- `insn_ending_at` reads every operand but that of `W`. -/
theorem endingOperands_at
    (here : At iseq p (operandBytes layout ext a b c))
    (fits : Fits layout ext a b c) :
    endingOperands layout ext iseq p =
      some (if layout = .w then 0 else a, b, c,
        p + (operandBytes layout ext a b c).length) := by
  cases layout with
  | z =>
      obtain ⟨rfl, rfl, rfl⟩ := fits
      rfl
  | b | s =>
      obtain ⟨first, rfl, rfl⟩ := fits
      simp only [endingOperands]
      rw [rd_at here first]
      rfl
  | bb | bs =>
      obtain ⟨first, second, rfl⟩ := fits
      simp only [endingOperands]
      rw [rd_at here.left first]
      simp only [Option.bind_eq_bind, Option.bind_some]
      rw [rd_at here.behind second, operandBytes, List.length_append,
        ← Nat.add_assoc]
      rfl
  | bbb | bss =>
      obtain ⟨first, second, third⟩ := fits
      simp only [endingOperands]
      rw [rd_at here.left first]
      simp only [Option.bind_eq_bind, Option.bind_some]
      rw [rd_at here.behind.left second]
      simp only [Option.bind_some]
      rw [rd_at here.behind.behind third, operandBytes, List.length_append,
        List.length_append, ← Nat.add_assoc, ← Nat.add_assoc]
      rfl
  | w =>
      obtain ⟨-, rfl, rfl⟩ := fits
      rfl

theorem rdW_at
    (here : At iseq p (operandBytes .w ext a b c))
    (fits : a < 16777216) :
    rdW iseq p = some (a, p + 3) := by
  have high := here.get
  have middle := here.tail.get
  have low := here.tail.tail.get
  have whole : (a / 65536) <<< 16 ||| (a / 256 % 256) <<< 8 ||| a % 256 =
      a := by
    rw [Nat.or_assoc, show a % 256 = a % 65536 % 256 by omega,
      show a / 256 % 256 = a % 65536 / 256 by omega, highLow,
      ← Nat.shiftLeft_add_eq_or_of_lt (Nat.mod_lt a (by decide)),
      Nat.shiftLeft_eq]
    omega
  simp only [rdW, high, middle, low, Option.bind_eq_bind, Option.bind_some]
  rw [toNat_ofNat (by omega), toNat_ofNat (by omega), toNat_ofNat (by omega),
    whole]

theorem decodeOperands_at
    (here : At iseq p (operandBytes layout ext a b c))
    (fits : Fits layout ext a b c) :
    decodeOperands layout ext iseq p =
      some (a, b, c, p + (operandBytes layout ext a b c).length) := by
  by_cases skipped : layout = .w
  · subst skipped
    obtain ⟨first, rfl, rfl⟩ := fits
    simp only [decodeOperands]
    rw [rdW_at here first]
    rfl
  · have read := endingOperands_at here fits
    rw [if_neg skipped] at read
    rw [← read]
    have narrow : ∀ q, rdB iseq q = rd iseq q false := rdBOrS_eq_rd false iseq
    have broad : ∀ q, rdS iseq q = rd iseq q true := rdBOrS_eq_rd true iseq
    cases layout <;>
      first
      | exact absurd rfl skipped
      | simp only [decodeOperands, endingOperands, rdBOrS_eq_rd, narrow, broad]

/-- `send_before` reads the register and the symbol of the layouts with one. -/
theorem sendOperands_at
    (here : At iseq p (operandBytes layout ext a b c))
    (fits : Fits layout ext a b c) :
    sendOperands layout ext iseq p =
      some (if layout = .s ∨ layout = .w then 0 else a,
        if layout = .bb ∨ layout = .bbb then b else 0,
        p + (operandBytes layout ext a b c).length) := by
  cases layout with
  | z =>
      obtain ⟨rfl, rfl, rfl⟩ := fits
      rfl
  | b =>
      simp only [sendOperands]
      rw [rd_at here fits.1]
      rfl
  | bb =>
      simp only [sendOperands]
      rw [rd_at here.left fits.1]
      simp only [Option.bind_eq_bind, Option.bind_some]
      rw [rd_at here.behind fits.2.1, operandBytes, List.length_append,
        ← Nat.add_assoc]
      rfl
  | bbb =>
      simp only [sendOperands]
      rw [rd_at here.left fits.1]
      simp only [Option.bind_eq_bind, Option.bind_some]
      rw [rd_at here.behind.left fits.2.1, operandBytes, List.length_append,
        List.length_append, ← Nat.add_assoc, ← Nat.add_assoc]
      rfl
  | bs =>
      simp only [sendOperands]
      rw [rd_at here.left fits.1, operandBytes, List.length_append,
        ← Nat.add_assoc]
      rfl
  | bss =>
      simp only [sendOperands]
      rw [rd_at here.left fits.1, operandBytes, List.length_append,
        List.length_append, ← Nat.add_assoc]
      rfl
  | s => rfl
  | w => rfl

/-! ## One instruction -/

theorem opAt_at
    (here : At iseq p (byte :: bytes))
    (known : Op.fromU8 byte = some op) :
    opAt iseq p = some op := by
  simp only [opAt, here.get, Option.bind_eq_bind, Option.bind_some, known]

/-- A prefix is an opcode of its own. -/
theorem extBytes_eq {ext : Nat} (pending : ext ≠ 0) (width : ext ≤ 3) :
    ∃ byte op, extBytes ext = [byte] ∧ Op.fromU8 byte = some op ∧
      op.ext = ext ∧ op.operands = .z := by
  match ext, width with
  | 1, _ => exact ⟨115, .ext1, rfl, rfl, rfl, rfl⟩
  | 2, _ => exact ⟨116, .ext2, rfl, rfl, rfl, rfl⟩
  | 3, _ => exact ⟨117, .ext3, rfl, rfl, rfl, rfl⟩

section Decoding

variable {i : Insn} {pc fuel : Nat} {aref aset : Sym} {irep : Irep Sym}

/-- The run loop decodes an instruction under its prefix. -/
theorem runLoopDecode_at (here : At iseq p i.bytes) :
    runLoopDecode iseq p =
      .ok { op := i.op, a := i.a, b := i.b, c := i.c,
            next := p + i.bytes.length } := by
  have plain : ∀ q ext, At iseq q (i.byte :: i.operands) → ext = i.ext →
      decode iseq q ext =
        .ok { op := i.op, a := i.a, b := i.b, c := i.c,
              next := q + 1 + i.operands.length } := by
    rintro q ext here rfl
    simp only [decode, here.get, i.known]
    rw [readOperands_at here.tail i.fits]
    rfl
  unfold runLoopDecode
  rw [i.bytes_length]
  by_cases bare : i.ext = 0
  · rw [Insn.bytes, bare] at here
    rw [plain p 0 here bare.symm, bare]
    simp only [i.plain, if_true, extBytes, List.length_nil, Nat.zero_add,
      Nat.add_assoc]
  · obtain ⟨byte, op, single, known, isExt, none⟩ := extBytes_eq bare i.width
    rw [Insn.bytes, single] at here
    have first : decode iseq p 0 =
        .ok { op := op, a := 0, b := 0, c := 0, next := p + 1 } := by
      simp only [decode, here.get, known, none, readOperands]
      rfl
    rw [first]
    simp only [isExt, if_neg bare]
    rw [plain (p + 1) i.ext here.tail rfl, single, List.length_singleton]
    simp only [Nat.add_assoc]

/-- `Irep::decode` decodes it so as well. -/
theorem decode_at (here : At irep.iseq p i.bytes) :
    irep.decode p = some (i.op, i.a, i.b, i.c, p + i.bytes.length) := by
  unfold Irep.decode
  rw [i.bytes_length]
  by_cases bare : i.ext = 0
  · rw [Insn.bytes, bare] at here
    have read := decodeOperands_at here.tail i.fits
    rw [bare] at read
    simp only [opAt_at here i.known, Option.bind_eq_bind, Option.bind_some,
      afterPrefixes, i.plain, if_true]
    rw [read, Insn.operands, bare]
    simp only [Option.bind_some, extBytes, List.length_nil, Nat.zero_add,
      Nat.add_assoc]
  · obtain ⟨byte, op, single, known, isExt, -⟩ := extBytes_eq bare i.width
    rw [Insn.bytes, single] at here
    have read := decodeOperands_at here.tail.tail i.fits
    have room : 0 < irep.iseq.length := by
      by_contra none
      have empty := List.length_eq_zero_iff.mp (Nat.eq_zero_of_not_pos none)
      have first := here.get
      rw [empty] at first
      cases first
    obtain ⟨fuel, isFuel⟩ : ∃ fuel, irep.iseq.length = fuel + 1 :=
      ⟨irep.iseq.length - 1, by omega⟩
    simp only [opAt_at here known, Option.bind_eq_bind, Option.bind_some,
      isFuel, afterPrefixes, isExt, if_neg bare, opAt_at here.tail i.known,
      i.plain, if_true]
    rw [read, single]
    simp only [Option.bind_some, List.length_singleton, Nat.add_assoc,
      Insn.operands]

/-- What `insn_ending_at` answers for an instruction that begins at `p`. -/
def Insn.ending (i : Insn) (p : Nat) : Nat × Op × Nat × Nat × Nat :=
  (p, i.op, if i.op.operands = .w then 0 else i.a, i.b, i.c)

/-- A turn of `insn_ending_at` reads one instruction. -/
theorem endingFrom_at
    (here : At iseq p i.bytes)
    (before : p < pc) :
    endingFrom iseq pc (fuel + 1) p =
      if p + i.bytes.length = pc then some (i.ending p)
      else endingFrom iseq pc fuel (p + i.bytes.length) := by
  rw [endingFrom, if_pos before, i.bytes_length]
  by_cases bare : i.ext = 0
  · rw [Insn.bytes, bare] at here
    have read := endingOperands_at here.tail i.fits
    rw [bare] at read
    simp only [opAt_at here i.known, Option.bind_eq_bind, Option.bind_some,
      i.plain, ne_eq, not_true_eq_false, if_false]
    rw [read, Insn.operands, bare]
    simp only [Option.bind_some, extBytes, List.length_nil, Nat.zero_add,
      Nat.add_assoc, Insn.ending]
  · obtain ⟨byte, op, single, known, isExt, -⟩ := extBytes_eq bare i.width
    rw [Insn.bytes, single] at here
    have read := endingOperands_at here.tail.tail i.fits
    simp only [opAt_at here known, Option.bind_eq_bind, Option.bind_some,
      isExt, ne_eq, bare, not_false_eq_true, if_true,
      opAt_at here.tail i.known]
    rw [read, single]
    simp only [Option.bind_some, List.length_singleton, Nat.add_assoc,
      Insn.operands, Insn.ending]

/-- Of a call instruction `send_before` has the operands it names. -/
theorem callNamed_read (syms : List Sym) (op : Op) (a b : Nat) :
    callNamed aref aset syms op
        (if op.operands = .s ∨ op.operands = .w then 0 else a)
        (if op.operands = .bb ∨ op.operands = .bbb then b else 0) =
      callNamed aref aset syms op a b := by
  cases op <;> rfl

/-- One instruction takes `send_before` a turn, and one more for its prefix. -/
theorem sendFrom_at
    (here : At irep.iseq p i.bytes)
    (before : p + i.bytes.length ≤ pc) :
    sendFrom aref aset irep pc (fuel + 1 + (extBytes i.ext).length) p 0 =
      if p + i.bytes.length = pc then
        callNamed aref aset irep.syms i.op i.a i.b
      else sendFrom aref aset irep pc fuel (p + i.bytes.length) 0 := by
  have turn : ∀ q ext, At irep.iseq q (i.byte :: i.operands) → ext = i.ext →
      q < pc →
      sendFrom aref aset irep pc (fuel + 1) q ext =
        if q + 1 + i.operands.length = pc then
          callNamed aref aset irep.syms i.op i.a i.b
        else
          sendFrom aref aset irep pc fuel (q + 1 + i.operands.length) 0 := by
    rintro q ext here rfl inside
    have read := sendOperands_at here.tail i.fits
    rw [sendFrom, if_pos inside]
    simp only [opAt_at here i.known, Option.bind_eq_bind, Option.bind_some]
    rw [read]
    simp only [Option.bind_some, callNamed_read, i.plain, Insn.operands]
    rfl
  rw [i.bytes_length] at before ⊢
  by_cases bare : i.ext = 0
  · rw [Insn.bytes, bare] at here
    rw [bare] at before ⊢
    have single := turn p 0 here bare.symm (by omega)
    simp only [extBytes, List.length_nil, Nat.zero_add, Nat.add_zero,
      Nat.add_assoc] at single ⊢
    exact single
  · obtain ⟨byte, op, single, known, isExt, none⟩ := extBytes_eq bare i.width
    rw [Insn.bytes, single] at here
    rw [single, List.length_singleton] at before ⊢
    have next := turn (p + 1) i.ext here.tail rfl (by omega)
    rw [sendFrom, if_pos (by omega)]
    simp only [opAt_at here known, Option.bind_eq_bind, Option.bind_some, none,
      sendOperands]
    rw [if_neg (by omega), isExt, next]
    simp only [Nat.add_assoc]

/-- `insn_ending_at` stops at the instruction that ends at the position. -/
theorem endingFrom_stream
    (code : List Insn)
    (here : At iseq p (stream code ++ i.bytes))
    (enough : (stream code).length + i.bytes.length ≤ fuel) :
    endingFrom iseq (p + ((stream code).length + i.bytes.length)) fuel p =
      some (i.ending (p + (stream code).length)) := by
  induction code generalizing p fuel with
  | nil =>
      have size := i.bytes_length
      rw [stream_nil, List.nil_append] at here
      rw [stream_nil, List.length_nil, Nat.zero_add] at enough ⊢
      obtain ⟨fuel, rfl⟩ : ∃ rest, fuel = rest + 1 := ⟨fuel - 1, by omega⟩
      rw [endingFrom_at here (by omega)]
      exact if_pos rfl
  | cons first code ih =>
      have size := i.bytes_length
      have one := first.bytes_length
      rw [stream_cons, List.append_assoc] at here
      rw [stream_cons, List.length_append] at enough ⊢
      obtain ⟨fuel, rfl⟩ : ∃ rest, fuel = rest + 1 := ⟨fuel - 1, by omega⟩
      rw [endingFrom_at here.left (by omega), if_neg (by omega)]
      have rest := @ih (p + first.bytes.length) fuel here.behind (by omega)
      rw [Nat.add_assoc, Nat.add_assoc] at rest
      rw [Nat.add_assoc]
      exact rest

/-- `send_before` stops there too. -/
theorem sendFrom_stream
    (code : List Insn)
    (here : At irep.iseq p (stream code ++ i.bytes))
    (enough : (stream code).length + i.bytes.length ≤ fuel) :
    sendFrom aref aset irep (p + ((stream code).length + i.bytes.length)) fuel
        p 0 =
      callNamed aref aset irep.syms i.op i.a i.b := by
  induction code generalizing p fuel with
  | nil =>
      have size := i.bytes_length
      rw [stream_nil, List.nil_append] at here
      rw [stream_nil, List.length_nil, Nat.zero_add] at enough ⊢
      obtain ⟨fuel, rfl⟩ : ∃ rest, fuel = rest + 1 + (extBytes i.ext).length :=
        ⟨fuel - 1 - (extBytes i.ext).length, by omega⟩
      rw [sendFrom_at here (Nat.le_refl _)]
      exact if_pos rfl
  | cons first code ih =>
      have size := i.bytes_length
      have one := first.bytes_length
      rw [stream_cons, List.append_assoc] at here
      rw [stream_cons, List.length_append] at enough ⊢
      obtain ⟨fuel, rfl⟩ :
          ∃ rest, fuel = rest + 1 + (extBytes first.ext).length :=
        ⟨fuel - 1 - (extBytes first.ext).length, by omega⟩
      rw [sendFrom_at here.left (by omega), if_neg (by omega)]
      have rest := @ih (p + first.bytes.length) fuel here.behind (by omega)
      rw [Nat.add_assoc] at rest
      rw [Nat.add_assoc]
      exact rest

end Decoding

/-- In every sequence of known instructions, each behind at most one prefix, the
four decoders find the same instruction at the same place with the same
operands; only the operand of `W` is none of what the scans answer. -/
theorem decoders_agree
    (aref aset : Sym)
    (syms : List Sym)
    (front : List Insn)
    (i : Insn)
    (back : List Insn) :
    let irep : Irep Sym := ⟨stream (front ++ i :: back), syms⟩
    let start := (stream front).length
    let stop := (stream (front ++ [i])).length
    irep.decode start = some (i.op, i.a, i.b, i.c, stop) ∧
      runLoopDecode irep.iseq start =
        .ok { op := i.op, a := i.a, b := i.b, c := i.c, next := stop } ∧
      insnEndingAt irep stop =
        some (start, i.op, if i.op.operands = .w then 0 else i.a, i.b, i.c) ∧
      sendBefore aref aset irep stop =
        callNamed aref aset syms i.op i.a i.b := by
  intro irep start stop
  have isStop : stop = start + i.bytes.length := by
    change (stream (front ++ [i])).length = _
    rw [stream_append, List.length_append, stream_cons, stream_nil,
      List.append_nil]
  have whole : At irep.iseq 0 (stream front ++ i.bytes) := by
    refine ⟨stream back, ?_⟩
    change _ = stream (front ++ i :: back)
    rw [stream_append, stream_cons, List.append_assoc]
  have here : At irep.iseq start i.bytes := by
    have behind := whole.behind
    rwa [Nat.zero_add] at behind
  have enough : (stream front).length + i.bytes.length ≤ stop + 1 := by
    rw [isStop]
    exact Nat.le_succ _
  refine ⟨?_, ?_, ?_, ?_⟩
  · rw [isStop]
    exact decode_at here
  · rw [isStop]
    exact runLoopDecode_at here
  · have ending := endingFrom_stream front whole enough
    rw [Nat.zero_add, Nat.zero_add, ← isStop] at ending
    exact ending
  · have named := @sendFrom_stream _ _ _ _ aref aset irep front whole enough
    rw [Nat.zero_add, ← isStop] at named
    exact named

end SabiRuby.Execution
