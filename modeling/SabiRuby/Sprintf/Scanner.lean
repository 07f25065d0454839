import SabiRuby.Integer.Formats
import SabiRuby.Library.Exec
import SabiRuby.Lossy

/-!
# The scanner of a format

`format_str_enc` walks over the bytes of a format.  Between specifiers it copies
bytes; in a specifier it takes one byte after the other until a conversion ends
it.  An index or a slice out of range and an integer that leaves its 64 bits are
panics.  What the VM does for the scanner is a parameter.
-/

namespace SabiRuby.Sprintf

open Library Exec
open Integer

/-- What the scanner raises itself, and what the VM raises for it. -/
inductive Error (ε : Type)
  | argument (text : String)
  | key (text : String)
  | vm (error : ε)

/-- What the scanner asks of the VM. -/
structure Host (V ε σ : Type) where
  /-- The value is a Hash. -/
  isHash : V → σ → Bool
  /-- The entry of a Hash under a Symbol. -/
  hashGet : V → String → Exec (Error ε) σ (Option V)
  expectInt : V → String → Exec (Error ε) σ Int
  /-- The Integer of `%c`, which is a code point or a byte. -/
  code : V → Option Int
  charBytes : Int → Option (List UInt8)
  strBytes : V → σ → Option (List UInt8)
  strBinary : V → σ → Bool
  respondsToStr : V → Exec (Error ε) σ Bool
  toStr : V → Exec (Error ε) σ V
  inspect : V → Exec (Error ε) σ (List UInt8)
  asString : V → Exec (Error ε) σ (List UInt8)
  /-- The Integer that a conversion of one writes. -/
  integer : V → Exec (Error ε) σ Number
  /-- The text of a conversion of a Float. -/
  float : V → UInt8 → UInt32 → Int → Int → Exec (Error ε) σ (List UInt8)

variable {V ε σ : Type}

def argErr (text : String) : Exec (Error ε) σ α := raise (.argument text)

def INT_MAX : Int := 2147483647

/-! ## Bytes -/

def slice (xs : List α) (first last : Nat) : Option (List α) :=
  if first ≤ last ∧ last ≤ xs.length then some ((xs.take last).drop first)
  else none

/-- `s[..len as usize]` -/
def sliceTo (xs : List α) (len : Int) : Option (List α) :=
  if 0 ≤ len ∧ len ≤ xs.length then some (xs.take len.toNat) else none

/-- The first place from here on where the byte is, or the end. -/
def find (f : List UInt8) (p : Nat) (byte : UInt8) : Nat :=
  p + (f.drop p).findIdx (· == byte)

def isDigit (c : UInt8) : Bool := 48 ≤ c ∧ c ≤ 57

def getNumLoop : List UInt8 → Int → Nat → Option (Int × Nat)
  | [], n, p => some (n, p)
  | c :: s, n, p =>
      if isDigit c then
        let n := n * 10 + (c.toNat - 48 : Int)
        if n > INT_MAX then none else getNumLoop s n (p + 1)
      else some (n, p)

/-- Decimal digits at `p`; none when they do not fit an int. -/
def getNum (f : List UInt8) (p : Nat) : Option (Int × Nat) :=
  getNumLoop (f.drop p) 0 p

/-! ## Arguments -/

/-- `posarg` is 0 at first, the index of the last argument taken in order, -1
after a numbered one and -2 after a named one. -/
structure Fmt (V : Type) where
  posarg : Int
  nextarg : Int
  hash : Option V

namespace Fmt

/-- The argument of a number, from 1. -/
def nth (args : List V) (n : Int) : Exec (Error ε) σ V :=
  if n < 1 ∨ n > args.length then argErr "too few arguments"
  else orPanic args[(n - 1).toNat]?

def next (self : Fmt V) (args : List V) : Exec (Error ε) σ (V × Fmt V) :=
  if self.posarg = -1 then
    argErr ("unnumbered(" ++ toString self.nextarg ++ ") mixed with numbered")
  else if self.posarg = -2 then
    argErr ("unnumbered(" ++ toString self.nextarg ++ ") mixed with named")
  else do
    let v ← nth args self.nextarg
    pure (v, { self with posarg := self.nextarg, nextarg := self.nextarg + 1 })

def pos (self : Fmt V) (args : List V) (n : Int) :
    Exec (Error ε) σ (V × Fmt V) :=
  if self.posarg > 0 then
    argErr ("numbered(" ++ toString n ++ ") after unnumbered(" ++
      toString self.posarg ++ ")")
  else if self.posarg = -2 then
    argErr ("numbered(" ++ toString n ++ ") after named")
  else if n < 1 then argErr ("invalid index - " ++ toString n ++ "$")
  else do
    let v ← nth args n
    pure (v, { self with posarg := -1 })

/-- The Hash the names are looked up in: the only argument. -/
def theHash (host : Host V ε σ) (self : Fmt V) (args : List V) :
    Exec (Error ε) σ V :=
  match self.hash with
  | some h => pure h
  | none =>
      match args with
      | [h] => do
          let vm ← get
          if host.isHash h vm then pure h else argErr "one hash required"
      | _ => argErr "one hash required"

/-- The value of a name, its brackets included. -/
def named (host : Host V ε σ) (self : Fmt V) (args : List V)
    (name : List UInt8) : Exec (Error ε) σ (V × Fmt V) :=
  let shown := fromUtf8Lossy name
  if self.posarg > 0 then
    argErr ("named" ++ shown ++ " after unnumbered(" ++ toString self.posarg ++
      ")")
  else if self.posarg = -1 then
    argErr ("named" ++ shown ++ " after numbered")
  else do
    let h ← self.theHash host args
    let key ← orPanic (slice name 1 (name.length - 1))
    let found ← host.hashGet h (fromUtf8Lossy key)
    match found with
    | some v => pure (v, { self with posarg := -2, hash := some h })
    | none => raise (.key ("key" ++ shown ++ " not found"))

end Fmt

/-! ## A specifier -/

/-- What was read of a specifier. -/
structure Spec (V : Type) where
  width : Int
  prec : Int
  nextvalue : Option V
  flags : UInt32
  id : Option (List UInt8)

/-- Where the scanner is: between specifiers, in one, or at the digits of an
Integer. -/
inductive Mode (V : Type)
  | text
  | spec (sp : Spec V)
  | integer (sp : Spec V) (c : UInt8) (val : Number)

structure Scan (V : Type) where
  p : Nat
  st : Fmt V
  out : List UInt8
  binary : Bool
  mode : Mode V

/-- What a scan is done with: the bytes, and whether they are read as bytes. -/
abbrev Answer := List UInt8 × Bool

/-- The end of a specifier. -/
def Scan.endSpec (s : Scan V) (more : List UInt8) : Scan V :=
  { s with p := s.p + 1, out := s.out ++ more, mode := .text }

/-- `GETASTER`: the argument, and the position to go on from. -/
def getaster (f : List UInt8) (args : List V) (st : Fmt V) (p : Nat) :
    Exec (Error ε) σ (V × Fmt V × Nat) :=
  match getNum f (p + 1) with
  | none => argErr "width too big"
  | some (n, q) =>
      if f[q]? = some 36 then do
        let (v, st) ← st.pos args n
        pure (v, st, q)
      else do
        let (v, st) ← st.next args
        pure (v, st, p)

/-- The value of a conversion. -/
def taken (args : List V) (s : Scan V) (sp : Spec V) :
    Exec (Error ε) σ (V × Fmt V) :=
  match sp.nextvalue with
  | some v => pure (v, s.st)
  | none => s.st.next args

def formatString (text : List UInt8) (flags : UInt32) (width prec : Int) :
    Exec (Error ε) σ (List UInt8) :=
  let len : Int := text.length
  if flags &&& (FPREC ||| FWIDTH) ≠ 0 then
    let short := flags &&& FPREC ≠ 0 ∧ prec < len
    let slen := if short then prec else len
    if flags &&& FWIDTH ≠ 0 ∧ width > slen then do
      let pad := List.replicate (width - slen).toNat 32
      let body ← orPanic (sliceTo text slen)
      pure (if flags &&& FMINUS = 0 then pad ++ body else body ++ pad)
    else orPanic (sliceTo text slen)
  else orPanic (sliceTo text len)

/-- The bytes of `%c`, and whether they are read as bytes. -/
def charText (host : Host V ε σ) (val : V) :
    Exec (Error ε) σ (List UInt8 × Bool) :=
  match host.code val with
  | some code =>
      match host.charBytes code with
      | some b => pure (b, false)
      | none => argErr "invalid character"
  | none => do
      let vm ← get
      let s ← (match host.strBytes val vm with
        | some b => pure b
        | none => do
            let responds ← host.respondsToStr val
            if responds then do
              let r ← host.toStr val
              let vm ← get
              match host.strBytes r vm with
              | some b => pure b
              | none => argErr "invalid character"
            else argErr "invalid character" :
        Exec (Error ε) σ (List UInt8))
      if s.length ≠ 1 then argErr "%c requires a character"
      else do
        let vm ← get
        pure (s, host.strBinary val vm ∧ 0x80 ≤ s.headD 0)

/-- A character in its width. -/
def padChar (ch : List UInt8) (flags : UInt32) (width : Int) : List UInt8 :=
  let pad := List.replicate (width - 1).toNat 32
  if flags &&& FWIDTH = 0 then ch
  else if flags &&& FMINUS ≠ 0 then ch ++ pad
  else pad ++ ch

/-- What the width and the precision of an Integer become on its way. -/
def layoutNumbers (t : IntText) (fc : UInt8) (flags : UInt32) (prec : Int)
    (mark : Option (List UInt8)) : List Int :=
  let zero := t.s = [48]
  let (mark, len, prec) :=
    if mark = some [48] then
      if t.dots then (none, t.s.length, prec)
      else if zero then
        (mark, 0, if flags &&& FPREC ≠ 0 then prec - 1 else prec)
      else if flags &&& FPREC ≠ 0 ∧ t.s.length < prec then
        (none, t.s.length, prec)
      else (mark, t.s.length, prec)
    else if zero then (none, t.s.length, prec)
    else (mark, t.s.length, prec)
  let marked := t.width - ((mark.getD []).length : Int)
  let (width, prec, len) :=
    if flags &&& (FZERO ||| FMINUS ||| FPREC) = FZERO then (0, marked, len)
    else if prec < len then
      let len := if mark = none ∧ prec = 0 ∧ len = 1 ∧ zero then 0 else len
      (marked - len, (len : Int), len)
    else (marked - prec, prec, len)
  let spaced := if flags &&& FMINUS = 0 ∧ 0 < width then 0 else width
  let (dotted, precise) :=
    if t.dots then
      if t.s.head? ≠ some fc then (spaced - 3, prec - 3)
      else (spaced - 2, prec - 2)
    else (spaced, prec)
  [t.width, marked, width, dotted, precise,
    if (len : Int) < precise then precise - len else 0]

/-- No number on the way of `format_int` leaves 64 bits. -/
def formatIntFits (val : Number) (c : UInt8) (flags : UInt32)
    (width prec : Int) : Bool :=
  let (base, upper, signed) := conversion c
  match intText val base signed flags width with
  | none => false
  | some t =>
      let s := if t.dots then stripDots base t.s else t.s
      let fc := if base = 10 then 0 else topDigit base
      let fc := if upper ∧ base = 16 then 70 else fc
      let s := if upper then s.map toAsciiUppercase else s
      (layoutNumbers { t with s := s } fc flags prec
        (alternate base upper flags)).all fun n => BigInt.FitsI64 n

/-- `format_int`, with the checks of its arithmetic. -/
def formatIntChecked (val : Number) (c : UInt8) (flags : UInt32)
    (width prec : Int) : Option (List UInt8) :=
  if formatIntFits val c flags width prec then formatInt val c flags width prec
  else none

/-! ## One step -/

/-- A flag. -/
def flagStep (s : Scan V) (sp : Spec V) (c : UInt8) :
    Exec (Error ε) σ (Scan V) :=
  if sp.flags &&& FWIDTH ≠ 0 then argErr "flag after width"
  else if sp.flags &&& FPREC0 ≠ 0 then argErr "flag after precision"
  else
    let flag := if c = 32 then FSPACE else if c = 35 then FSHARP
      else if c = 43 then FPLUS else if c = 45 then FMINUS else FZERO
    pure { s with
      p := s.p + 1, mode := .spec { sp with flags := sp.flags ||| flag } }

/-- A width or the number of an argument. -/
def numberStep (f : List UInt8) (args : List V) (s : Scan V) (sp : Spec V) :
    Exec (Error ε) σ (Scan V) :=
  match getNum f s.p with
  | none => argErr "width too big"
  | some (n, q) =>
      if f[q]? = some 36 then
        if sp.nextvalue.isSome then
          argErr ("value given twice - " ++ toString n ++ "$")
        else do
          let (v, st) ← s.st.pos args n
          pure { s with
            p := q + 1, st := st, mode := .spec { sp with nextvalue := some v } }
      else if sp.flags &&& FWIDTH ≠ 0 then argErr "width given twice"
      else if sp.flags &&& FPREC0 ≠ 0 then argErr "width after precision"
      else
        pure { s with
          p := q
          mode := .spec { sp with width := n, flags := sp.flags ||| FWIDTH } }

/-- The name from here to its closing bracket. -/
def nameAt (f : List UInt8) (p : Nat) (c : UInt8) : List UInt8 :=
  let close := find f p (if c = 60 then 62 else 125)
  (f.take (min (close + 1) f.length)).drop p

/-- `%<name>` or `%{name}` -/
def nameStep (host : Host V ε σ) (f : List UInt8) (args : List V) (s : Scan V)
    (sp : Spec V) (c : UInt8) : Exec (Error ε) σ (Scan V) :=
  let q := find f s.p (if c = 60 then 62 else 125)
  let name := nameAt f s.p c
  match sp.id with
  | some prev => do
      let inner ← orPanic (slice prev 1 (prev.length - 1))
      argErr ("name" ++ fromUtf8Lossy name ++ " after <" ++
        fromUtf8Lossy inner ++ ">")
  | none => do
      let (v, st) ← s.st.named host args name
      if c = 60 then
        pure { s with
          p := q + 1, st := st
          mode := .spec { sp with nextvalue := some v, id := some name } }
      else do
        let text ← host.asString v
        let more ← formatString text sp.flags sp.width sp.prec
        pure (Scan.endSpec { s with p := q, st := st } more)

/-- A width from an argument. -/
def starStep (host : Host V ε σ) (f : List UInt8) (args : List V) (s : Scan V)
    (sp : Spec V) : Exec (Error ε) σ (Scan V) :=
  if sp.flags &&& FWIDTH ≠ 0 then argErr "width given twice"
  else if sp.flags &&& FPREC0 ≠ 0 then argErr "width after precision"
  else do
    let (v, st, q) ← getaster f args s.st s.p
    let w ← host.expectInt v "width"
    if w > 32767 ∨ w < -32768 then argErr "width too big"
    else
      let flags := sp.flags ||| FWIDTH
      let sp := if w < 0 then { sp with width := -w, flags := flags ||| FMINUS }
        else { sp with width := w, flags := flags }
      pure { s with p := q + 1, st := st, mode := .spec sp }

/-- A precision. -/
def precisionStep (host : Host V ε σ) (f : List UInt8) (args : List V)
    (s : Scan V) (sp : Spec V) : Exec (Error ε) σ (Scan V) :=
  if sp.flags &&& FPREC0 ≠ 0 then argErr "precision given twice"
  else
    let flags := sp.flags ||| FPREC ||| FPREC0
    if f[s.p + 1]? = some 42 then do
      let (v, st, q) ← getaster f args s.st (s.p + 1)
      let prec ← host.expectInt v "precision"
      let flags := if prec < 0 then flags &&& ~~~FPREC else flags
      pure { s with
        p := q + 1, st := st
        mode := .spec { sp with prec := prec, flags := flags } }
    else
      match getNum f (s.p + 1) with
      | none => argErr "precision too big"
      | some (prec, q) =>
          pure { s with
            p := q, mode := .spec { sp with prec := prec, flags := flags } }

/-- `%%`, or `%` before a line end or a zero byte, which is not taken. -/
def percentStep (s : Scan V) (sp : Spec V) (c : UInt8) :
    Exec (Error ε) σ (Scan V) := do
  let p ← (if c ≠ 37 then orPanic (if 1 ≤ s.p then some (s.p - 1) else none)
    else pure s.p : Exec (Error ε) σ Nat)
  if sp.flags ≠ 0 then argErr "invalid format character - %"
  else pure (Scan.endSpec { s with p := p } [37])

/-- One byte of a specifier. -/
def specStep (host : Host V ε σ) (f : List UInt8) (args : List V) (s : Scan V)
    (sp : Spec V) (c : UInt8) : Exec (Error ε) σ (Scan V) :=
  if c = 32 ∨ c = 35 ∨ c = 43 ∨ c = 45 ∨ c = 48 then flagStep s sp c
  else if 49 ≤ c ∧ c ≤ 57 then numberStep f args s sp
  else if c = 60 ∨ c = 123 then nameStep host f args s sp c
  else if c = 42 then starStep host f args s sp
  else if c = 46 then precisionStep host f args s sp
  else if c = 10 ∨ c = 0 ∨ c = 37 then percentStep s sp c
  else if c = 99 then do
    let (val, st) ← taken args s sp
    let (ch, bytes) ← charText host val
    pure (Scan.endSpec { s with st := st, binary := s.binary || bytes }
      (padChar ch sp.flags sp.width))
  else if c = 115 ∨ c = 112 then do
    let (val, st) ← taken args s sp
    let vm ← get
    let bytes := c = 115 ∧ host.strBinary val vm ∧
      ((host.strBytes val vm).getD []).any (0x80 ≤ ·)
    let text ← (if c = 112 then host.inspect val else host.asString val)
    let more ← formatString text sp.flags sp.width sp.prec
    pure (Scan.endSpec { s with st := st, binary := s.binary || bytes } more)
  else if c ∈ [100, 105, 117, 111, 120, 88, 98, 66] then do
    let (val, st) ← taken args s sp
    let number ← host.integer val
    pure { s with st := st, mode := .integer sp c number }
  else if c ∈ [102, 101, 69, 103, 71] then do
    let (val, st) ← taken args s sp
    let more ← host.float val c sp.flags sp.width sp.prec
    pure (Scan.endSpec { s with st := st } more)
  else
    argErr ("malformed format string - %" ++
      String.singleton (Char.ofNat c.toNat))

/-- One step of `format_str_enc`. -/
def scanStep (host : Host V ε σ) (f : List UInt8) (args : List V)
    (s : Scan V) : Exec (Error ε) σ (Scan V ⊕ Answer) :=
  match s.mode with
  | .text =>
      if s.p < f.length then
        let t := find f s.p 37
        if t + 1 = f.length then
          argErr "incomplete format specifier; use %% (double %) instead"
        else do
          let more ← orPanic (slice f s.p t)
          let out := s.out ++ more
          if f.length ≤ t then pure (.inr (out, s.binary))
          else
            pure (.inl { s with
              p := t + 1, out := out
              mode := .spec
                { width := -1, prec := -1, nextvalue := none, flags := 0
                  id := none } })
      else pure (.inr (s.out, s.binary))
  | .spec sp =>
      if f.length ≤ s.p then
        argErr "malformed format string - unexpected end"
      else do
        let c ← orPanic f[s.p]?
        .inl <$> specStep host f args s sp c
  | .integer sp c val => do
      let more ← orPanic
        (formatIntChecked val c sp.flags sp.width sp.prec)
      pure (.inl (s.endSpec more))

def Scan.start : Scan V :=
  { p := 0, st := { posarg := 0, nextarg := 1, hash := none }, out := []
    binary := false, mode := .text }

/-- `format_str_enc`: steps enough for every byte of the format. -/
def formatStrEnc (host : Host V ε σ) (f : List UInt8) (args : List V) :
    Exec (Error ε) σ Answer :=
  iterate (scanStep host f args) (3 * f.length + 4) Scan.start

end SabiRuby.Sprintf
