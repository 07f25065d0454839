import SabiRuby.Binaries.Reader

/-!
# Records and sections

The record tree, the section of the line numbers and the one of the local
variable names, and the loop over the sections of a binary.
-/

namespace SabiRuby.Binaries

/-! ## Records -/

/-- `as i32`. -/
def asI32 (n : Nat) : Int := if n < 2147483648 then n else (n : Int) - 4294967296

/-- `as i64`. -/
def asI64 (n : Nat) : Int :=
  if n < 9223372036854775808 then n else (n : Int) - 18446744073709551616

/-- `as i8`. -/
def asI8 (c : UInt8) : Int :=
  if c.toNat < 128 then c.toNat else (c.toNat : Int) - 256

def catchType (t : UInt8) : Reader CatchType :=
  if t = 0 then pure .rescue
  else if t = 1 then pure .ensure
  else fails (.badCatchType t)

def readHandler : Reader CatchHandler := do
  let t ← u8
  let kind ← catchType t
  let begin_ ← u32
  let end_ ← u32
  let target ← u32
  pure { kind, begin_, end_, target }

def poolEntry (tt : UInt8) : Reader Pool :=
  if tt = 1 then do
    let n ← u32
    pure (.int (asI32 n))
  else if tt = 3 then do
    let hi ← u32
    let lo ← u32
    pure (.int (asI64 (hi * 4294967296 + lo)))
  else if tt = 7 then do
    let len ← u8
    let base ← u8
    let digits ← bytes len.toNat
    pure (.bigInt (asI8 base) digits)
  else if tt = 5 then do
    let raw ← bytes 8
    pure (.float raw)
  else if tt = 0 then do
    let len ← u16
    let s ← bytes len
    let _ ← u8
    pure (.str s)
  else fails (.badPoolType tt)

def readPool : Reader Pool := do
  let tt ← u8
  poolEntry tt

def symbolEntry (n : Nat) : Reader (Option (List UInt8)) :=
  if n = 65535 then pure none
  else do
    let s ← bytes n
    let _ ← u8
    pure (some s)

def readSymbol : Reader (Option (List UInt8)) := do
  let n ← u16
  symbolEntry n

/-- `out.push`, answering the index. -/
def pushIrep (irep : Irep) : Reader Nat := fun _ s =>
  (.ok s.ireps.length, { s with ireps := s.ireps ++ [irep] })

/-- A change of `ireps[i]`. -/
def editIrep (i : Nat) (edit : Irep → Irep) : Reader Unit := fun _ s =>
  match s.ireps[i]? with
  | some irep => (.ok (), { s with ireps := s.ireps.set i (edit irep) })
  | none => (.error .panics, s)

/-- The end of `read_record`: the record, its children and their indices. -/
def readChildren (irep : Irep) (rlen : Nat) (child : Reader Nat) : Reader Nat := do
  let idx ← pushIrep irep
  reserve .children rlen
  let reps ← times rlen child
  editIrep idx fun irep => { irep with reps }
  pure idx

/-- `read_record` behind the check of its locals. -/
def readBody (nlocals nregs : Nat) (child : Reader Nat) : Reader Nat := do
  let rlen ← u16
  let clen ← u16
  let ilen ← u32
  let iseq ← bytes ilen
  reserve .handlers clen
  let catch_ ← times clen readHandler
  let plen ← u16
  reserve .pool plen
  let pool ← times plen readPool
  let slen ← u16
  reserve .symbols slen
  let syms ← times slen readSymbol
  readChildren
    { nlocals, nregs, iseq, catch_, pool, syms
      reps := [], lv := [], lines := [], filename := none }
    rlen child

/-- `read_record`. -/
def readRecord : Nat → Reader Nat
  | 0 => endless
  | fuel + 1 => do
      let _ ← u32
      let nlocals ← u16
      let nregs ← u16
      if nlocals > nregs then fails (.moreLocals nlocals nregs)
      else readBody nlocals nregs (readRecord fuel)

/-! ## Annotations -/

/-- `ireps[i]`. -/
def irepAt (i : Nat) : Reader Irep := fun _ s =>
  match s.ireps[i]? with
  | some irep => (.ok irep, s)
  | none => (.error .panics, s)

/-- The number of records, as fuel for a walk over them. -/
def irepCount : Reader Nat := fun _ s => (.ok s.ireps.length, s)

def forEach (read : Nat → Reader Unit) : List Nat → Reader Unit
  | [] => pure ()
  | r :: rs => do
      read r
      forEach read rs

def readName : Reader (List UInt8) := do
  let n ← u16
  bytes n

/-- `mrb_debug_line_ary`: one line for each byte. -/
def lineArray : Nat → Nat → List (Nat × Nat) → Reader (List (Nat × Nat))
  | 0, _, lines => pure lines
  | entries + 1, pc, lines => do
      let line ← u16
      lineArray entries (pc + 1)
        (if lines.getLast?.map Prod.snd = some line then lines
        else lines ++ [(pc, line)])

/-- An entry of `mrb_debug_line_flat_map`. -/
def linePair : Reader (Nat × Nat) := do
  let start ← u32
  let line ← u16
  pure (start, line)

/-- `packed_int`, from a number and a shift on. -/
def packedFrom (n : UInt32) (shift : Nat) : List UInt8 → UInt32 × List UInt8
  | [] => (n, [])
  | byte :: rest =>
      let next := n ||| ((byte &&& 0x7F).toUInt32 <<< UInt32.ofNat shift)
      if byte &&& 0x80 = 0 ∨ shift + 7 ≥ 32 then (next, rest)
      else packedFrom next (shift + 7) rest

theorem packedFrom_length (n : UInt32) (shift : Nat) (bs : List UInt8) :
    (packedFrom n shift bs).2.length ≤ bs.length := by
  induction bs generalizing n shift with
  | nil => exact Nat.le_refl _
  | cons byte rest ih =>
      rw [packedFrom]
      split
      · exact Nat.le_succ _
      · exact Nat.le_succ_of_le (ih _ _)

theorem packedFrom_cons_length (byte : UInt8) (rest : List UInt8) :
    (packedFrom 0 0 (byte :: rest)).2.length ≤ rest.length := by
  rw [packedFrom]
  split
  · exact Nat.le_refl _
  · exact packedFrom_length _ _ _

/-- `mrb_debug_line_packed_map`: pairs of differences. -/
def packedLines (pos line : UInt32) : List UInt8 → List (Nat × Nat)
  | [] => []
  | byte :: rest =>
      let first := packedFrom 0 0 (byte :: rest)
      let second := packedFrom 0 0 first.2
      let pos := pos + first.1
      let line := line + second.1
      (pos.toNat, line.toNat) :: packedLines pos line second.2
termination_by bs => bs.length
decreasing_by
  have one := packedFrom_cons_length byte rest
  have two := packedFrom_length 0 0 (packedFrom 0 0 (byte :: rest)).2
  exact Nat.lt_succ_of_le (Nat.le_trans two one)

def readLines (lineType : UInt8) (entries : Nat) : Reader (List (Nat × Nat)) :=
  if lineType = 0 then lineArray entries 0 []
  else if lineType = 1 then times entries linePair
  else if lineType = 2 then do
    let packed ← bytes entries
    pure (packedLines 0 0 packed)
  else fails (.unknownLineType lineType)

/-- One file of a debug record; only the first is kept. -/
def debugFile (filenames : List (List UInt8)) (i f : Nat) : Reader Unit := do
  let _ ← u32
  let filenameIdx ← u16
  let entries ← u32
  let lineType ← u8
  let lines ← readLines lineType entries
  if f = 0 then
    editIrep i fun irep =>
      { irep with lines, filename := filenames[filenameIdx]? }
  else pure ()

/-- `rec` of `read_debug`. -/
def debugRecord (filenames : List (List UInt8)) : Nat → Nat → Reader Unit
  | 0, _ => endless
  | fuel + 1, i => do
      let _ ← u32
      let files ← u16
      forEach (debugFile filenames i) (List.range files)
      let irep ← irepAt i
      forEach (debugRecord filenames fuel) irep.reps

/-- `read_debug`. -/
def readDebug (root : Nat) : Reader Unit := do
  let flen ← u16
  reserve .fileNames flen
  let filenames ← times flen readName
  let count ← irepCount
  debugRecord filenames count root

def readLocal (names : List (List UInt8)) : Reader (Option (List UInt8)) := do
  let idx ← u16
  pure (if idx = 65535 then none else names[idx]?)

/-- `rec` of `read_lvar`. -/
def lvarRecord (names : List (List UInt8)) : Nat → Nat → Reader Unit
  | 0, _ => endless
  | fuel + 1, i => do
      let irep ← irepAt i
      let lv ← times (irep.nlocals - 1) (readLocal names)
      editIrep i fun irep => { irep with lv }
      forEach (lvarRecord names fuel) irep.reps

/-- `read_lvar`; the count of the names has 32 bits. -/
def readLvar (root : Nat) : Reader Unit := do
  let slen ← u32
  reserve .localNames slen
  let names ← times slen readName
  let count ← irepCount
  lvarRecord names count root

/-! ## Sections -/

/-- The answer of `parse`. -/
structure Rite where
  compilerName : List UInt8
  compilerVersion : List UInt8
  ireps : List Irep
  root : Nat
deriving DecidableEq, Repr

def position : Reader Nat := fun _ s => (.ok s.p, s)

def inputLength : Reader Nat := fun b s => (.ok b.length, s)

def seek (p : Nat) : Reader Unit := fun _ s => (.ok (), { s with p })

/-- A `Cur` of its own on the bytes up to the end of the section. -/
def within {α : Type} (end_ : Nat) (read : Reader α) : Reader α := fun b s =>
  let answer := read (b.take end_) s
  (answer.1, { answer.2 with p := s.p })

/-- `.ok()`: an error is dropped, a panic is not. -/
def bestEffort (read : Reader Unit) : Reader Unit := fun b s =>
  match read b s with
  | (.error (.rite _), s) => (.ok (), s)
  | answer => answer

/-- An annotation of the records, if there are any. -/
def annotate (read : Nat → Reader Unit) (end_ : Nat) (root : Option Nat) :
    Reader (Option Nat × Bool) :=
  match root with
  | some r => do
      bestEffort (within end_ (read r))
      pure (root, true)
  | none => pure (root, true)

/-- A section, and whether there are more. -/
def readSection
    (debug lvar : Nat → Reader Unit)
    (ident : List UInt8)
    (end_ : Nat)
    (root : Option Nat) : Reader (Option Nat × Bool) :=
  if ident = [73, 82, 69, 80] then do
    let _ ← bytes 4
    let r ← within end_ (readRecord (end_ + 1))
    pure (some r, true)
  else if ident = [68, 66, 71, 0] then annotate debug end_ root
  else if ident = [76, 86, 65, 82] then annotate lvar end_ root
  else if ident = [69, 78, 68, 0] then pure (root, false)
  else fails (.unknownSection ident)

/-- The identifier and the end of the section that begins here. -/
def sectionHeader : Reader (List UInt8 × Nat) := do
  let ident ← bytes 4
  let size ← u32
  if size < 8 then fails .sectionTooSmall
  else do
    let p ← position
    let len ← inputLength
    if p - 8 + size > len then fails .sectionExceedsBuffer
    else pure (ident, p - 8 + size)

/-- The loop of `parse` over the sections. -/
def readSections (debug lvar : Nat → Reader Unit) (total : Nat) :
    Nat → Option Nat → Reader (Option Nat)
  | 0, _ => endless
  | fuel + 1, root => do
      let p ← position
      if p + 8 ≤ total then do
        let header ← sectionHeader
        let next ← readSection debug lvar header.1 header.2 root
        if next.2 then do
          seek header.2
          readSections debug lvar total fuel next.1
        else pure next.1
      else pure root

def allIreps : Reader (List Irep) := fun _ s => (.ok s.ireps, s)

/-- The end of `parse`. -/
def finish (compilerName compilerVersion : List UInt8) (root : Option Nat) :
    Reader Rite :=
  match root with
  | none => fails .noIrep
  | some root => do
      let ireps ← allIreps
      pure { compilerName, compilerVersion, ireps, root }

/-- `parse` up to its answer, with given readers of the annotations: the two
names of the compiler and the root. -/
def parseSections (debug lvar : Nat → Reader Unit) :
    Reader (List UInt8 × List UInt8 × Option Nat) := do
  let magic ← bytes 4
  if magic ≠ [82, 73, 84, 69] then fails .badIdentifier
  else do
    let ver ← bytes 4
    if ver ≠ [48, 52, 48, 48] then fails (.unsupportedVersion ver)
    else do
      let total ← u32
      let len ← inputLength
      if total > len then fails (.sizeExceedsBuffer total len)
      else do
        let compilerName ← bytes 4
        let compilerVersion ← bytes 4
        let root ← readSections debug lvar total (len + 1) none
        pure (compilerName, compilerVersion, root)

def parseWith (debug lvar : Nat → Reader Unit) : Reader Rite := do
  let found ← parseSections debug lvar
  finish found.1 found.2.1 found.2.2

/-- `parse`, with every reservation it makes. -/
def parse (bin : List UInt8) : Except Fault Rite × Reading :=
  parseWith readDebug readLvar bin ⟨0, [], []⟩

/-- `parse` where the annotations are not read. -/
def parseBare (bin : List UInt8) : Except Fault Rite × Reading :=
  parseWith (fun _ => pure ()) (fun _ => pure ()) bin ⟨0, [], []⟩

end SabiRuby.Binaries
