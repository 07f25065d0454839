import Mathlib.Data.Nat.Notation

/-!
# The opcodes

The instruction set: each opcode, the byte that encodes it and the layout of
its operands.
-/

namespace SabiRuby.Execution

/-- Operand layout of an instruction. -/
inductive Operands
  | z
  | b
  | bb
  | bbb
  | bs
  | bss
  | s
  | w
deriving DecidableEq, Repr

/-- The opcodes, in the order of their bytes. -/
inductive Op
  | nop
  | move
  | loadl
  | loadi8
  | loadineg
  | loadiM1
  | loadi0
  | loadi1
  | loadi2
  | loadi3
  | loadi4
  | loadi5
  | loadi6
  | loadi7
  | loadi16
  | loadi32
  | loadsym
  | loadnil
  | loadself
  | loadtrue
  | loadfalse
  | getgv
  | setgv
  | getsv
  | setsv
  | getiv
  | setiv
  | getcv
  | setcv
  | getconst
  | setconst
  | getmcnst
  | setmcnst
  | getupvar
  | setupvar
  | getidx
  | getidx0
  | setidx
  | jmp
  | jmpif
  | jmpnot
  | jmpnil
  | jmpuw
  | except
  | rescue
  | raiseif
  | matcherr
  | ssend
  | ssend0
  | ssendb
  | send
  | send0
  | sendb
  | call
  | blkcall
  | super
  | argary
  | enter
  | keyP
  | keyend
  | karg
  | «return»
  | returnBlk
  | retself
  | retnil
  | rettrue
  | retfalse
  | break
  | blkpush
  | add
  | addi
  | sub
  | subi
  | addilv
  | subilv
  | mul
  | div
  | eq
  | lt
  | le
  | gt
  | ge
  | array
  | array2
  | arycat
  | arypush
  | arysplat
  | aref
  | aset
  | apost
  | intern
  | symbol
  | string
  | strcat
  | hash
  | hashadd
  | hashcat
  | lambda
  | block
  | method
  | rangeInc
  | rangeExc
  | oclass
  | «class»
  | «module»
  | exec
  | «def»
  | tdef
  | sdef
  | «alias»
  | undef
  | sclass
  | tclass
  | debug
  | err
  | ext1
  | ext2
  | ext3
  | stop
deriving DecidableEq, Repr

namespace Op

/-- The opcode a byte encodes; `none` for an undefined byte. -/
def fromU8 (byte : UInt8) : Option Op :=
  match byte.toNat with
  | 0 => some .nop
  | 1 => some .move
  | 2 => some .loadl
  | 3 => some .loadi8
  | 4 => some .loadineg
  | 5 => some .loadiM1
  | 6 => some .loadi0
  | 7 => some .loadi1
  | 8 => some .loadi2
  | 9 => some .loadi3
  | 10 => some .loadi4
  | 11 => some .loadi5
  | 12 => some .loadi6
  | 13 => some .loadi7
  | 14 => some .loadi16
  | 15 => some .loadi32
  | 16 => some .loadsym
  | 17 => some .loadnil
  | 18 => some .loadself
  | 19 => some .loadtrue
  | 20 => some .loadfalse
  | 21 => some .getgv
  | 22 => some .setgv
  | 23 => some .getsv
  | 24 => some .setsv
  | 25 => some .getiv
  | 26 => some .setiv
  | 27 => some .getcv
  | 28 => some .setcv
  | 29 => some .getconst
  | 30 => some .setconst
  | 31 => some .getmcnst
  | 32 => some .setmcnst
  | 33 => some .getupvar
  | 34 => some .setupvar
  | 35 => some .getidx
  | 36 => some .getidx0
  | 37 => some .setidx
  | 38 => some .jmp
  | 39 => some .jmpif
  | 40 => some .jmpnot
  | 41 => some .jmpnil
  | 42 => some .jmpuw
  | 43 => some .except
  | 44 => some .rescue
  | 45 => some .raiseif
  | 46 => some .matcherr
  | 47 => some .ssend
  | 48 => some .ssend0
  | 49 => some .ssendb
  | 50 => some .send
  | 51 => some .send0
  | 52 => some .sendb
  | 53 => some .call
  | 54 => some .blkcall
  | 55 => some .super
  | 56 => some .argary
  | 57 => some .enter
  | 58 => some .keyP
  | 59 => some .keyend
  | 60 => some .karg
  | 61 => some .«return»
  | 62 => some .returnBlk
  | 63 => some .retself
  | 64 => some .retnil
  | 65 => some .rettrue
  | 66 => some .retfalse
  | 67 => some .break
  | 68 => some .blkpush
  | 69 => some .add
  | 70 => some .addi
  | 71 => some .sub
  | 72 => some .subi
  | 73 => some .addilv
  | 74 => some .subilv
  | 75 => some .mul
  | 76 => some .div
  | 77 => some .eq
  | 78 => some .lt
  | 79 => some .le
  | 80 => some .gt
  | 81 => some .ge
  | 82 => some .array
  | 83 => some .array2
  | 84 => some .arycat
  | 85 => some .arypush
  | 86 => some .arysplat
  | 87 => some .aref
  | 88 => some .aset
  | 89 => some .apost
  | 90 => some .intern
  | 91 => some .symbol
  | 92 => some .string
  | 93 => some .strcat
  | 94 => some .hash
  | 95 => some .hashadd
  | 96 => some .hashcat
  | 97 => some .lambda
  | 98 => some .block
  | 99 => some .method
  | 100 => some .rangeInc
  | 101 => some .rangeExc
  | 102 => some .oclass
  | 103 => some .«class»
  | 104 => some .«module»
  | 105 => some .exec
  | 106 => some .«def»
  | 107 => some .tdef
  | 108 => some .sdef
  | 109 => some .«alias»
  | 110 => some .undef
  | 111 => some .sclass
  | 112 => some .tclass
  | 113 => some .debug
  | 114 => some .err
  | 115 => some .ext1
  | 116 => some .ext2
  | 117 => some .ext3
  | 118 => some .stop
  | _ => none

/-- Operand layout of an opcode. -/
def operands : Op → Operands
  | .nop | .call | .keyend | .retself | .retnil | .rettrue | .retfalse
  | .ext1 | .ext2 | .ext3 | .stop => .z
  | .move | .loadl | .loadi8 | .loadineg | .loadsym | .getgv | .setgv
  | .getsv | .setsv | .getiv | .setiv | .getcv | .setcv | .getconst
  | .setconst | .getmcnst | .setmcnst | .getidx0 | .rescue | .ssend0
  | .send0 | .blkcall | .super | .keyP | .karg | .addi | .subi | .array
  | .arypush | .symbol | .string | .hash | .hashadd | .lambda | .block
  | .method | .«class» | .«module» | .exec | .«def» | .«alias» => .bb
  | .loadiM1 | .loadi0 | .loadi1 | .loadi2 | .loadi3 | .loadi4 | .loadi5
  | .loadi6 | .loadi7 | .loadnil | .loadself | .loadtrue | .loadfalse
  | .getidx | .setidx | .except | .raiseif | .matcherr | .«return»
  | .returnBlk | .break | .add | .sub | .mul | .div | .eq | .lt | .le | .gt
  | .ge | .arycat | .arysplat | .intern | .strcat | .hashcat | .rangeInc
  | .rangeExc | .oclass | .undef | .sclass | .tclass | .err => .b
  | .loadi16 | .jmpif | .jmpnot | .jmpnil | .argary | .blkpush => .bs
  | .loadi32 => .bss
  | .getupvar | .setupvar | .ssend | .ssendb | .send | .sendb | .addilv
  | .subilv | .array2 | .aref | .aset | .apost | .tdef | .sdef | .debug => .bbb
  | .jmp | .jmpuw => .s
  | .enter => .w

end Op

end SabiRuby.Execution
