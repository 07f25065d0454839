import SabiRuby.HashTable.Algorithm

/-!
# The algorithm of a Set

A Set keeps its elements in the storage of a Hash.  Up to four elements have no
table and are compared one by one; the fifth builds a table of eight buckets,
which grows when seven eighths of them are taken.  A new element goes to the
first deleted bucket of its probe, or to the first empty one.
-/

namespace SabiRuby.SetTable

open Library HashTable

/-- Elements up to which a Set has no table. -/
def KHASH_SMALL_LIMIT : Nat := 4

/-- The width of the first table. -/
def KHASH_MIN_BIT : Nat := 3

/-- Seven eighths of the buckets. -/
def khUpperBound (h : HashData) : Nat := h.ib.length - (h.ib.length >>> 3)

/-- A rebuild moved the table. -/
def bumpGen (h : HashData) : HashData := { h with epoch := u32 (h.epoch + 1) }

/-- What a lookup compares before and after a call into Ruby. -/
def khMark (h : HashData) : Nat × Nat := (h.epoch, h.ibBit)

/-- `(n as u32).wrapping_sub(1)`. -/
def lookupMask (n : Nat) : Nat := u32 (u32 n + (2 ^ 32 - 1))

/-- The next bucket of a probe. -/
def nextBucket (mask b step : Nat) : Nat := u32 (b + step) &&& mask

/-- The value whose elements an operation is called on. -/
inductive Receiver
  /-- A Set, frozen or not. -/
  | set (frozen : Bool)
  /-- Anything else. -/
  | other
  deriving DecidableEq, Repr

section Algorithm

variable {ω : Type} (callbacks : Callbacks ω)

/-- The hash code of an element, asked without a modification check. -/
def hCodeUnchecked (key : Value) : Exec VmError (Vm ω) Nat := do
  let vm ← get
  match key with
  | .nil => pure (mix 0).toNat
  | .falseValue => pure (mix 2).toNat
  | .trueValue => pure (mix 6).toNat
  | .int number => pure (mix (intCode number)).toNat
  | .sym symbol => pure (mix symbol.number).toNat
  | .float number => pure (mix (floatCode number)).toNat
  | .obj object =>
      match vm.heap.string object with
      | some bytes => pure (mix (byteHash bytes)).toNat
      | none => do
          let tt := vm.heap.vtype object
          let answer ← callbacks.callHash key
          pure (mix (tt ^^^ hashNumber answer)).toNat

/-- The hash code of an element; a `hash` that raises counts as 0. -/
def ksetHash (key : Value) : Exec VmError (Vm ω) Nat := fun vm =>
  match hCodeUnchecked callbacks key vm with
  | .error (.raised _) after => .ok 0 after
  | other => other

/-- The comparison of a stored element with the one asked about. -/
def ksetEqual (a b : Value) : Exec VmError (Vm ω) Bool := do
  let vm ← get
  match a with
  | .sym _ => pure (a.eq b)
  | .int _ => pure (a.eq b)
  | .float x =>
      match b with
      | .float y => pure (x.eq y)
      | _ => pure false
  | .obj x =>
      match vm.heap.string x with
      | some bytes =>
          match b with
          | .obj y => pure (vm.heap.string y == some bytes)
          | _ => pure false
      | none => mrbEql callbacks a b
  | _ => mrbEql callbacks a b

/-- The end of the modification check of a Set. -/
def khVerify (mark : Nat × Nat) : Exec VmError (Vm ω) Unit := do
  let vm ← get
  if khMark vm.table = mark then pure () else Exec.raise .tableModified

/-- The search without a table from element `i` on. -/
def khGetSmallLoop (key : Value) :
    Nat → Nat → Exec VmError (Vm ω) (Option Nat)
  | 0, _ => throw .unfinished
  | fuel + 1, i => do
      let vm ← get
      match vm.table.keyAt i with
      | none => pure none
      | some stored => do
          let mark := khMark vm.table
          let eq ← ksetEqual callbacks stored key
          khVerify mark
          if eq then pure (some i) else khGetSmallLoop key fuel (i + 1)

/-- The search in a table from bucket `b` on. -/
def khGetLoop (key : Value) (mark : Nat × Nat) (mask : Nat) :
    Nat → Nat → Nat → Exec VmError (Vm ω) (Option Nat)
  | 0, _, _ => pure none
  | left + 1, b, step => do
      let vm ← get
      match vm.table.bucket b with
      | .empty => pure none
      | .deleted =>
          khGetLoop key mark mask left (nextBucket mask b (step + 1)) (step + 1)
      | .live v => do
          let stored := (vm.table.keyAt v).getD .nil
          let eq ← ksetEqual callbacks stored key
          khVerify mark
          if eq then pure (some v)
          else
            khGetLoop key mark mask left (nextBucket mask b (step + 1))
              (step + 1)

/-- The position of an element, if it is in the Set.  Without a table there are
at most four elements, which the fuel of the walk leaves room for. -/
def khGet (key : Value) : Exec VmError (Vm ω) (Option Nat) := do
  let vm ← get
  if vm.table.isHt then do
    let mark := khMark vm.table
    let code ← ksetHash callbacks key
    khVerify mark
    let vm ← get
    let n := vm.table.ib.length
    let mask := lookupMask n
    khGetLoop callbacks key mark mask n (code &&& mask) 0
  else
    khGetSmallLoop callbacks key (vm.table.len + KHASH_SMALL_LIMIT + 1) 0

/-- The search for an empty bucket from bucket `b` on. -/
def khPlaceLoop (h : HashData) (p mask : Nat) :
    Nat → Nat → Nat → Option HashData
  | 0, _, _ => some h
  | left + 1, b, step =>
      match h.ib[b]? with
      | none => none
      | some .empty => some { h with ib := h.ib.set b (.live p) }
      | some _ =>
          khPlaceLoop h p mask left (nextBucket mask b (step + 1)) (step + 1)

/-- Store a position in the first empty bucket of the probe from a code. -/
def khPlace (h : HashData) (code p : Nat) : Option HashData :=
  khPlaceLoop h p h.mask h.ib.length (code &&& h.mask) 0

/-- Hash and place the elements from `p` on. -/
def khRebuildLoop : Nat → Nat → Exec VmError (Vm ω) Unit
  | 0, p => do
      let vm ← get
      match vm.table.keyAt p with
      | none => pure ()
      | some _ => throw .unfinished
  | fuel + 1, p => do
      let vm ← get
      match vm.table.keyAt p with
      | none => pure ()
      | some key => do
          let code ← ksetHash callbacks key
          let vm ← get
          if p < vm.table.len then tryTable fun h => khPlace h code p
          khRebuildLoop fuel (p + 1)

/-- A table of a width that holds every element again.  The fuel is the number
of elements, which only a `hash` that adds elements can exceed. -/
def khRebuild (bit : Nat) : Exec VmError (Vm ω) Unit := do
  modifyTable fun h => bumpGen (h.htReset bit)
  let vm ← get
  khRebuildLoop callbacks vm.table.len 0

/-- The first deleted bucket and the first empty one of a probe from bucket `b`
on, the search ending at an empty one. -/
def khSlotLoop (h : HashData) (mask : Nat) :
    Nat → Nat → Nat → Option Nat → Option Nat × Option Nat
  | 0, _, _, del => (del, none)
  | left + 1, b, step, del =>
      match h.bucket b with
      | .empty => (del, some b)
      | .deleted =>
          khSlotLoop h mask left (nextBucket mask b (step + 1)) (step + 1)
            (del <|> some b)
      | .live _ =>
          khSlotLoop h mask left (nextBucket mask b (step + 1)) (step + 1) del

/-- Put a new element into a table.  Where the probe met neither an empty bucket
nor a deleted one, the table is rebuilt and the search made again; the fuel
counts these turns. -/
def khPutLoop (key : Value) : Nat → Exec VmError (Vm ω) Unit
  | 0 => throw .unfinished
  | turns + 1 => do
      let code ← ksetHash callbacks key
      let vm ← get
      let n := vm.table.ib.length
      let mask := lookupMask n
      match khSlotLoop vm.table mask n (code &&& mask) 0 none with
      | (some d, _) =>
          modifyTable fun h =>
            (h.arPush key .trueValue).setBucket d h.len
      | (none, some e) =>
          modifyTable fun h =>
            (h.arPush key .trueValue).setBucket e h.len
      | (none, none) => do
          khRebuild callbacks vm.table.ibBit
          khPutLoop key turns

/-- Grow a full table and put a new element into it. -/
def khPutTable (key : Value) : Exec VmError (Vm ω) Unit := do
  let vm ← get
  if khUpperBound vm.table ≤ vm.table.len then
    khRebuild callbacks (vm.table.ibBit + 1)
  khPutLoop callbacks key 2

/-- Put in an element known not to be there. -/
def khPutNew (key : Value) : Exec VmError (Vm ω) Unit := do
  let vm ← get
  if vm.table.isHt then khPutTable callbacks key
  else if KHASH_SMALL_LIMIT ≤ vm.table.len then do
    khRebuild callbacks KHASH_MIN_BIT
    khPutTable callbacks key
  else modifyTable fun h => h.arPush key .trueValue

/-- `Set#include?`. -/
def setContains (receiver : Receiver) (key : Value) :
    Exec VmError (Vm ω) Bool :=
  match receiver with
  | .other => pure false
  | .set _ => do
      let found ← khGet callbacks key
      pure found.isSome

/-- `Set#add`: an unfrozen String is stored as a frozen copy. -/
def setInsert (receiver : Receiver) (key : Value) :
    Exec VmError (Vm ω) Unit :=
  match receiver with
  | .other => Exec.raise .notASet
  | .set true => Exec.raise .frozen
  | .set false => do
      match ← khGet callbacks key with
      | some _ => pure ()
      | none => do
          let key ← hKeyFor key
          khPutNew callbacks key

/-- `Set#delete`; whether the element was there. -/
def setRemove (receiver : Receiver) (key : Value) :
    Exec VmError (Vm ω) Bool :=
  match receiver with
  | .other => pure false
  | .set _ => do
      match ← khGet callbacks key with
      | none => pure false
      | some p => do
          let vm ← get
          if p < vm.table.len then do
            let (_, table) ← Exec.orPanic (vm.table.removeEntry p)
            set { vm with table := table }
            pure true
          else pure false

end Algorithm

end SabiRuby.SetTable
