import SabiRuby.Checkpoint.Image

/-!
# The whole image

The header, the tables, the contexts, the scheduler, sections with a tag and a
length, and an end mark.  A section the reader knows must fill its length.
-/

namespace SabiRuby.Checkpoint

open Library

namespace Cur

def frame : R FrameRec := do
  let kind ← u8
  let mid ← u32
  let proc ← u32
  let cfunc ← (if kind = 0 then pure none
    else if kind = 1 then some <$> string
    else throw ("bad frame kind " ++ toString kind) : R (Option String))
  let base ← u32
  let pc ← u32
  let n ← u8
  let nk ← u8
  let cci ← u8
  let vis ← u8
  let blk ← u32
  let envKind ← u8
  let env ← u32
  pure
    { cfunc := cfunc, mid := mid, proc := proc, base := base, pc := pc, n := n
      nk := nk, cci := cci, vis := vis, blk := blk, envKind := envKind
      env := env }

def context : R CtxRec := do
  let status ← u8
  let flags ← u8
  let prev ← u32
  let fib ← u32
  let n ← u32
  let stack ← val.counted "truncated image" n.toNat
  let n ← u32
  let frames ← frame.counted "truncated image" n.toNat
  pure
    { status := status, flags := flags, prev := prev, fib := fib
      stack := stack, frames := frames }

def wait (reason : UInt8) : R WaitRec :=
  if reason = 0 then pure .none
  else if reason = 1 then do
    let left ← u32
    pure (.sleep left.toInt32)
  else if reason = 4 then do
    let task ← u32
    pure (.join task)
  else if reason = 8 then do
    let q ← u32
    let has ← u8
    let left ← u32
    pure (.queue q (if has = 1 then some left.toInt32 else none))
  else throw ("a Task waits for reason " ++ toString reason)

def task : R TaskRec := do
  let obj ← u32
  let ctx ← u32
  let status ← u8
  let queue ← u8
  let priority ← u8
  let reason ← u8
  let timeslice ← u8
  let name ← val
  let result ← val
  let wait ← wait reason
  pure
    { obj := obj, ctx := ctx, status := status, queue := queue
      priority := priority, reason := reason, timeslice := timeslice
      name := name, result := result, wait := wait }

def scheduler : R SchedRec := do
  let fl ← u8
  let unit ← u16
  let tick ← u32
  let hasWakeup ← u8
  let wakeup ← u32
  let ntask ← u32
  let tasks ← task.counted "truncated image" ntask.toNat
  let running ← u32
  let host ← u32
  pure
    { switchPending := fl &&& 1 ≠ 0, loopRunning := fl &&& 2 ≠ 0, unit := unit
      tick := tick, wakeup := if hasWakeup = 1 then some wakeup.toInt32 else none
      tasks := tasks, running := running, host := host }

/-! ## The header -/

/-- `MRCK` -/
def mark : List UInt8 := [77, 82, 67, 75]

/-- `RITE0400` -/
def rite0400 : List UInt8 := [82, 73, 84, 69, 48, 52, 48, 48]

/-- The format version this reader takes. -/
def FORMAT_VERSION : UInt16 := 1

/-- A reader whose refusals all have one text. -/
def refusing (r : R α) (text : String) : R α := fun c =>
  match r c with
  | .ok result => .ok result
  | .error _ => .error text

def header : R (UInt16 × String) := do
  let m ← refusing (take 4) "not a checkpoint image"
  if m ≠ mark then throw "not a checkpoint image"
  else do
    let version ← u16
    if version ≠ FORMAT_VERSION then
      throw ("checkpoint format " ++ toString version ++ " is not supported")
    else do
      let writer ← string
      let rite ← bytes
      if rite ≠ rite0400 then
        throw ("bytecode " ++ fromUtf8Lossy rite ++ " is not RITE0400")
      else do
        let ibits ← u8
        let fbits ← u8
        let utf8 ← u8
        let _ ← u8
        if ibits ≠ 64 ∨ fbits ≠ 64 ∨ utf8 ≠ 1 then
          throw ("value representation differs (needs 64-bit Integer, " ++
            "double Float, UTF-8)")
        else pure (version, writer)

/-- Everything before the sections. -/
def body : R Image := do
  let (version, writer) ← header
  let n ← u32
  let syms ← bytes.many n.toNat
  let n ← u32
  let ireps ← irep.many n.toNat
  let n ← u32
  let objs ← object.many n.toNat
  let n ← u32
  let patches ← patch.many n.toNat
  let nctx ← u32
  let ctxs ← context.many nctx.toNat
  let current ← u32
  let sched ← scheduler
  pure
    { version := version, writer := writer, syms := syms, ireps := ireps
      objs := objs, patches := patches, ctxs := ctxs, current := current
      sched := sched, lines := [] }

/-! ## Sections -/

/-- `END0` -/
def END0 : List UInt8 := [69, 78, 68, 48]

/-- `DBG0`: line numbers. -/
def DBG0 : List UInt8 := [68, 66, 71, 48]

/-- `GCS0`: the settings of the writer's collector. -/
def GCS0 : List UInt8 := [71, 67, 83, 48]

def lineEntry : R (UInt32 × UInt32) := do
  let pc ← u32
  let line ← u32
  pure (pc, line)

def debugFile : R (List UInt8 × List (UInt32 × UInt32)) := do
  let f ← bytes
  let _ ← u32
  let _ ← u32
  let ne ← u32
  let ents ← lineEntry.many ne.toNat
  pure (f, ents)

/-- The lines of an irep are in the file of its first part. -/
def debugIrep : R LinesRec := do
  let id ← u32
  let nf ← u16
  let files ← debugFile.many nf.toNat
  let file := (files.head?.map fun part => fromUtf8Lossy part.1).getD ""
  pure (id, file, files.flatMap fun part => part.2)

/-- The contents of a section; one this reader does not know is skipped. -/
def sectionContents (tag : List UInt8) : R (List LinesRec) :=
  if tag = DBG0 then do
    let n ← u32
    debugIrep.many n.toNat
  else if tag = GCS0 then do
    let _ ← take (1 + 4 + 4 + 8 + 8 + 8)
    pure []
  else fun s => .ok ([], { s with p := s.b.length })

/-- The contents of a section fill its length. -/
def filled (tag content : List UInt8) : Except String (List LinesRec) :=
  match sectionContents tag ⟨content, 0⟩ with
  | .error e => .error e
  | .ok (lines, s) =>
      if s.p ≠ content.length then
        .error ("section " ++ fromUtf8Lossy tag ++ ": " ++
          toString (content.length - s.p) ++ " bytes left inside its length")
      else .ok lines

/-- The contents of a section, as long as it says. -/
def takeContents (tag : List UInt8) (len : Nat) : R (List UInt8) := fun c =>
  if c.b.length - c.p < len then
    .error ("section " ++ fromUtf8Lossy tag ++ ": " ++ toString len ++
      " bytes of contents, only " ++ toString (c.b.length - c.p) ++ " left")
  else take len c

/-- One section, or the end mark. -/
def sectionStep : R (Option (List LinesRec)) := do
  let tag ← take 4
  if tag = END0 then pure none
  else do
    let len ← u32
    let content ← takeContents tag len.toNat
    match filled tag content with
    | .error e => throw e
    | .ok lines => pure (some lines)

/-- Sections up to the end mark.  It is not reached where fewer bytes are left
than a tag has. -/
def sectionsLoop :
    Nat → Cursor UInt8 → List LinesRec →
      Except String (Bool × List LinesRec × Cursor UInt8)
  | 0, c, lines => .ok (false, lines, c)
  | turns + 1, c, lines =>
      if 4 ≤ c.b.length - c.p then
        match sectionStep c with
        | .error e => .error e
        | .ok (none, c) => .ok (true, lines, c)
        | .ok (some more, c) => sectionsLoop turns c (lines ++ more)
      else .ok (false, lines, c)

end Cur

open Cur

/-- Reads the whole image; checks the header and that nothing is left over. -/
def parse (bytes : List UInt8) : Except String Image :=
  match body ⟨bytes, 0⟩ with
  | .error e => .error e
  | .ok (image, c) =>
      match sectionsLoop (bytes.length + 1) c [] with
      | .error e => .error e
      | .ok (ended, lines, c) =>
          if !ended then .error "truncated image (no end mark)"
          else if c.p ≠ bytes.length then
            .error (toString (bytes.length - c.p) ++
              " bytes left after the image")
          else .ok { image with lines := lines }

end SabiRuby.Checkpoint
