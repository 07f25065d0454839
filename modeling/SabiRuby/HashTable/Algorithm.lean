import SabiRuby.HashTable.Data
import SabiRuby.Library.Exec

/-!
# The algorithm of a Hash

The searches, stores and rebuilds of one Hash object.  Where a key answers
`hash` or `eql?` in Ruby, the algorithm calls a member of `Callbacks`, which may
do anything to the machine, the Hash included.  A key that is a String, Symbol,
Integer or Float is hashed and compared without a call.
-/

namespace SabiRuby.HashTable

open Library

/-- The kinds of heap objects a Hash tells apart. -/
inductive ObjKind
  | string (bytes : List UInt8)
  /-- Any other object, with the number of its type. -/
  | other (vtype : UInt32)
  deriving DecidableEq, Repr

/-- A heap object. -/
structure HeapObject where
  /-- What the object is. -/
  kind : ObjKind
  /-- The object may not be changed. -/
  frozen : Bool
  deriving DecidableEq, Repr

/-- The heap objects by handle. -/
abbrev Heap := List HeapObject

namespace Heap

/-- The bytes of a String. -/
def string (heap : Heap) (object : ObjId) : Option (List UInt8) :=
  match heap[object.index]? with
  | some ⟨.string bytes, _⟩ => some bytes
  | _ => none

/-- The type number of an object that is sent `hash`. -/
def vtype (heap : Heap) (object : ObjId) : UInt32 :=
  match heap[object.index]? with
  | some ⟨.other vtype, _⟩ => vtype
  | _ => 18

/-- The object may not be changed. -/
def isFrozen (heap : Heap) (object : ObjId) : Bool :=
  match heap[object.index]? with
  | some held => held.frozen
  | none => false

end Heap

/-- What the operations of a Hash raise. -/
inductive VmError
  /-- RuntimeError `hash modified`. -/
  | hashModified
  /-- ArgumentError `hash too big`. -/
  | hashTooBig
  /-- RuntimeError `hash table modified during callback`. -/
  | tableModified
  /-- TypeError `not a set`. -/
  | notASet
  /-- FrozenError of the receiver. -/
  | frozen
  /-- An exception of the program's own. -/
  | ruby (exception : Value)
  deriving DecidableEq, Repr

/-- The machine as an operation on one Hash sees it. -/
structure Vm (ω : Type) where
  /-- The table of the Hash. -/
  table : HashData
  /-- The heap. -/
  heap : Heap
  /-- Everything else, which only Ruby code reads and changes. -/
  world : ω
  deriving DecidableEq, Repr

/-- The Ruby code that the algorithm calls. -/
structure Callbacks (ω : Type) where
  /-- The class of the value finds the plain `Object#eql?`. -/
  eqlBasic : Vm ω → Value → Bool
  /-- The two values name the same thing. -/
  sameValue : Vm ω → Value → Value → Bool
  /-- Send `hash`. -/
  callHash : Value → Exec VmError (Vm ω) Value
  /-- Send `eql?`. -/
  callEql : Value → Value → Exec VmError (Vm ω) Value

/-! ## Hash codes -/

/-- The final mix of a hash code. -/
def mix (h : UInt32) : UInt32 :=
  let h := h ^^^ (h >>> 16)
  let h := h * 0x45d9f3b
  h ^^^ (h >>> 16)

/-- The 32-bit FNV-1a hash of bytes. -/
def byteHash (bytes : List UInt8) : UInt32 :=
  bytes.foldl (fun h x => (h ^^^ x.toUInt32) * 0x01000193) 0x811c9dc5

/-- The eight bytes of a word, the low one first. -/
def leBytes (word : UInt64) : List UInt8 :=
  [word.toUInt8, (word >>> 8).toUInt8, (word >>> 16).toUInt8,
    (word >>> 24).toUInt8, (word >>> 32).toUInt8, (word >>> 40).toUInt8,
    (word >>> 48).toUInt8, (word >>> 56).toUInt8]

/-- The low half of an Integer. -/
def intCode (number : Int64) : UInt32 := number.toUInt64.toUInt32

/-- The hash of a Float's bytes; the two zeros have one. -/
def floatCode (number : F64) : UInt32 :=
  byteHash (leBytes (if number.eq F64.zero then F64.zero else number).bits)

/-- The number in what a `hash` answered. -/
def hashNumber : Value → UInt32
  | .int number => intCode number
  | .float number => intCode number.toInt64
  | _ => 0

/-- The code of a key that needs no `hash` sent. -/
def nativeCode (heap : Heap) : Value → Option Nat
  | .int number => some (mix (intCode number)).toNat
  | .sym symbol => some (mix symbol.number).toNat
  | .float number => some (mix (floatCode number)).toNat
  | .obj object =>
      (heap.string object).map fun bytes => (mix (byteHash bytes)).toNat
  | _ => none

/-- The bytes of a String key, nothing for the other keys no Ruby answers for,
and `none` for a key that is not one. -/
def nativeBytes (heap : Heap) : Value → Option (Option (List UInt8))
  | .int _ => some none
  | .sym _ => some none
  | .float _ => some none
  | .obj object => (heap.string object).map some
  | _ => none

/-- Two Floats are the same key. -/
def floatEql (left right : F64) : Bool :=
  left.eq right || (!left.eq left && left.bits == right.bits)

/-- The comparison of a key that answers it without Ruby with a stored one. -/
def nativeEql (heap : Heap) (key : Value) (bytes : Option (List UInt8))
    (stored : Value) : Bool :=
  match key with
  | .float number =>
      match stored with
      | .float other => floatEql number other
      | _ => false
  | .obj _ =>
      match bytes, stored with
      | some bytes, .obj other => heap.string other == some bytes
      | _, _ => false
  | _ => key.eq stored

/-! ## Calls under the modification check -/

/-- What a keyed search found. -/
inductive Found
  /-- Entry `p` matched. -/
  | atEntry (p : Nat)
  | missing
  deriving DecidableEq, Repr

section Algorithm

variable {ω : Type} (callbacks : Callbacks ω)

/-- What the modification check sees now. -/
def hCheck : Exec VmError (Vm ω) HCheck := do
  let vm ← get
  Exec.orPanic vm.table.check

/-- The end of the modification check. -/
def hVerify (before : HCheck) : Exec VmError (Vm ω) Unit := do
  let now ← hCheck
  if before.same now then pure () else Exec.raise .hashModified

/-- Change the table of the Hash. -/
def modifyTable (change : HashData → HashData) : Exec VmError (Vm ω) Unit :=
  modify fun vm => { vm with table := change vm.table }

/-- Change the table of the Hash by an operation that can panic. -/
def tryTable (change : HashData → Option HashData) :
    Exec VmError (Vm ω) Unit := do
  let vm ← get
  let table ← Exec.orPanic (change vm.table)
  set { vm with table := table }

/-- The code a Hash places and looks a key up by. -/
def hCode (key : Value) : Exec VmError (Vm ω) Nat := do
  let vm ← get
  match key with
  | .nil => pure (mix 0).toNat
  | .falseValue => pure (mix 2).toNat
  | .trueValue => pure (mix 6).toNat
  | .int number => pure (mix (intCode number)).toNat
  | .sym symbol => pure (mix symbol.number).toNat
  | .float number => pure (mix (floatCode number)).toNat
  | .obj object =>
      match vm.heap.string object with
      | some bytes => pure (mix (byteHash bytes)).toNat
      | none => do
          let tt := vm.heap.vtype object
          let before ← hCheck
          let answer ← callbacks.callHash key
          hVerify before
          pure (mix (tt ^^^ hashNumber answer)).toNat

/-- Two values are `eql?`: immediates and Strings are compared here, and a class
whose `eql?` is the plain one answers without a send. -/
def mrbEql (a b : Value) : Exec VmError (Vm ω) Bool := do
  let vm ← get
  if sameWord a b then pure true
  else
    let general : Exec VmError (Vm ω) Bool :=
      if callbacks.eqlBasic vm a then pure (callbacks.sameValue vm a b)
      else do
        let answer ← callbacks.callEql a b
        pure answer.truthy
    match a with
    | .int _ => pure (a.eq b)
    | .float _ => pure (a.eq b)
    | .obj x =>
        match vm.heap.string x with
        | some bytes =>
            match b with
            | .obj y => pure (vm.heap.string y == some bytes)
            | _ => pure false
        | none => general
    | _ => general

/-- The comparison of the key asked about with a stored one. -/
def hObjEql (a b : Value) : Exec VmError (Vm ω) Bool := do
  let vm ← get
  let general : Exec VmError (Vm ω) Bool := do
    let before ← hCheck
    let answer ← mrbEql callbacks a b
    hVerify before
    pure answer
  match a with
  | .sym _ => pure (a.eq b)
  | .int _ => pure (a.eq b)
  | .float x =>
      match b with
      | .float y => pure (floatEql x y)
      | _ => pure false
  | .obj x =>
      match vm.heap.string x with
      | some bytes =>
          match b with
          | .obj y => pure (vm.heap.string y == some bytes)
          | _ => pure false
      | none => general
  | _ => general

/-- Where a slot is now, if it still holds the key read from it before a call
into Ruby; `hash modified` where the call took that entry away. -/
def hCheckVacated (slot : Nat) (stored : Value) :
    Exec VmError (Vm ω) Nat := do
  let vm ← get
  match ← Exec.orPanic (vm.table.slotHolds slot stored) with
  | some p => pure p
  | none => Exec.raise .hashModified

/-- The comparison of a keyed search against entry `p`. -/
def hCompare (key : Value) (p : Nat) :
    Exec VmError (Vm ω) (Option Nat) := do
  let vm ← get
  match vm.table.keyAt p with
  | none => pure none
  | some stored => do
      let slot ← Exec.orPanic (vm.table.slotAt p)
      if ← hObjEql callbacks key stored then
        return some (← hCheckVacated slot stored)
      else pure none

/-! ## The searches no Ruby takes part in -/

/-- The probe of `findNative` from one step on. -/
def findNativeLoop (h : HashData) (code : Nat) (eql : Value → Bool) :
    Nat → Nat → Option (Option Nat)
  | _, 0 => some none
  | step, left + 1 =>
      match h.ib[probeAt h.mask code step]? with
      | none => none
      | some .empty => some none
      | some .deleted => findNativeLoop h code eql (step + 1) left
      | some (.live v) =>
          match h.entries[v]? with
          | none => none
          | some entry =>
              if eql entry.1 then some (some v)
              else findNativeLoop h code eql (step + 1) left

/-- The search for a key no Ruby answers for; `none` when the key is not one. -/
def findNative (key : Value) :
    Exec VmError (Vm ω) (Option (Option Nat)) := do
  let vm ← get
  match nativeBytes vm.heap key with
  | none => pure none
  | some bytes =>
      let eql := nativeEql vm.heap key bytes
      if vm.table.isHt then
        match nativeCode vm.heap key with
        | none => pure none
        | some code => do
            let found ← Exec.orPanic
              (findNativeLoop vm.table code eql 0 (vm.table.mask + 1))
            pure (some found)
      else pure (some (vm.table.entries.findIdx? fun entry => eql entry.1))

/-- The probe of `probeNative` from one step on. -/
def probeNativeLoop (h : HashData) (code : Nat) (eql : Value → Bool) :
    Nat → Nat → Option (Option (Except Nat Nat))
  | _, 0 => some none
  | step, left + 1 =>
      let b := probeAt h.mask code step
      match h.ib[b]? with
      | none => none
      | some .empty => some (some (.error b))
      | some .deleted => probeNativeLoop h code eql (step + 1) left
      | some (.live v) =>
          match h.entries[v]? with
          | none => none
          | some entry =>
              if eql entry.1 then some (some (.ok v))
              else probeNativeLoop h code eql (step + 1) left

/-- The probe of a store for a key no Ruby answers for: the entry it matches or
the empty bucket a new entry goes in. -/
def probeNative (key : Value) :
    Exec VmError (Vm ω) (Option (Except Nat Nat)) := do
  let vm ← get
  match nativeBytes vm.heap key, nativeCode vm.heap key with
  | some bytes, some code =>
      Exec.orPanic (probeNativeLoop vm.table code
        (nativeEql vm.heap key bytes) 0 (vm.table.mask + 1))
  | _, _ => pure none

/-! ## Searches -/

/-- The walk of a Hash without an index from entry `p` on. -/
def hFindArLoop (key : Value) :
    Nat → Nat → Exec VmError (Vm ω) Found
  | 0, _ => pure .missing
  | left + 1, p => do
      let vm ← get
      if p < vm.table.len then
        let slot ← Exec.orPanic (vm.table.slotAt p)
        match ← hCompare callbacks key p with
        | some p => pure (.atEntry p)
        | none => do
            let vm ← get
            hFindArLoop key left (vm.table.slotsAfter slot)
      else pure .missing

/-- The probe of a Hash with an index from one step on. -/
def hFindHtLoop (key : Value) (code mask : Nat) :
    Nat → Nat → Exec VmError (Vm ω) Found
  | _, 0 => pure .missing
  | step, left + 1 => do
      let vm ← get
      match vm.table.bucket (probeAt mask code step) with
      | .empty => pure .missing
      | .deleted => hFindHtLoop key code mask (step + 1) left
      | .live v =>
          match ← hCompare callbacks key v with
          | some p => pure (.atEntry p)
          | none => hFindHtLoop key code mask (step + 1) left

/-- The search of a Hash for a key. -/
def hFind (key : Value) : Exec VmError (Vm ω) Found := do
  match ← findNative key with
  | some (some p) => pure (.atEntry p)
  | some none => pure .missing
  | none => do
      let vm ← get
      if vm.table.isHt then
        let code ← hCode callbacks key
        let vm ← get
        if vm.table.isHt then
          let mask := vm.table.mask
          hFindHtLoop callbacks key code mask 0 (mask + 1)
        else pure .missing
      else hFindArLoop callbacks key vm.table.len 0

/-! ## Stores -/

/-- Rebuild an index whose keys need no `hash` sent; false, with nothing done,
otherwise. -/
def hRebuildNative : Exec VmError (Vm ω) Bool := do
  let vm ← get
  match vm.table.entries.mapM fun entry => nativeCode vm.heap entry.1 with
  | none => pure false
  | some codes => do
      tryTable fun h => h.placeAll 0 codes
      pure true

/-- Hash and place the entries from `p` on.  The Hash keeps its length from one
call into Ruby to the next, so its length at the start is fuel enough. -/
def hRebuildLoop : Nat → Nat → Exec VmError (Vm ω) Unit
  | 0, p => do
      let vm ← get
      match vm.table.keyAt p with
      | none => pure ()
      | some _ => throw .unfinished
  | fuel + 1, p => do
      let vm ← get
      match vm.table.keyAt p with
      | none => pure ()
      | some key => do
          let code ← hCode callbacks key
          let vm ← get
          if p < vm.table.len then tryTable fun h => h.place code p
          hRebuildLoop fuel (p + 1)

/-- Rebuild the index at a width: every key is hashed again, in order. -/
def hRebuild (bit : Nat) : Exec VmError (Vm ω) Unit := do
  modifyTable fun h => (h.htReset bit).setNUsed (u32 h.len)
  if ← hRebuildNative then pure ()
  else do
    let vm ← get
    hRebuildLoop callbacks vm.table.len 0

/-- An unfrozen String key is stored as a frozen copy. -/
def hKeyFor (key : Value) : Exec VmError (Vm ω) Value := do
  let vm ← get
  match key with
  | .obj object =>
      match vm.heap.string object with
      | some bytes =>
          if vm.heap.isFrozen object then pure key
          else do
            let copy : HeapObject := { kind := .string bytes, frozen := true }
            set { vm with heap := vm.heap ++ [copy] }
            pure (.obj ⟨vm.heap.length⟩)
      | none => pure key
  | _ => pure key

/-- Store a new entry in bucket `b`. -/
def htStoreNew (b : Nat) (key value : Value) :
    Exec VmError (Vm ω) Unit := do
  let vm ← get
  if vm.table.nUsed = EA_MAX_CAPA then Exec.raise .hashTooBig
  else do
    let key ← hKeyFor key
    modifyTable fun h => h.htPush b key value

/-- The probe of a store from one step on. -/
def htStoreLoop (key value : Value) (code mask : Nat) :
    Nat → Nat → Exec VmError (Vm ω) Unit
  | _, 0 => pure ()
  | step, left + 1 => do
      let vm ← get
      let b := probeAt mask code step
      match vm.table.bucket b with
      | .deleted => htStoreLoop key value code mask (step + 1) left
      | .empty => htStoreNew b key value
      | .live v =>
          match ← hCompare callbacks key v with
          | some p => modifyTable fun h => h.setValueAt p value
          | none => htStoreLoop key value code mask (step + 1) left

/-- The part of a store into an indexed Hash after room was made. -/
def htStore (key value : Value) : Exec VmError (Vm ω) Unit := do
  match ← probeNative key with
  | some (.ok p) => modifyTable fun h => h.setValueAt p value
  | some (.error b) => htStoreNew b key value
  | none => do
      let code ← hCode callbacks key
      let vm ← get
      if vm.table.isHt then
        let mask := vm.table.mask
        htStoreLoop callbacks key value code mask 0 (mask + 1)
      else pure ()

/-- A store into a Hash, given the store into an indexed one. -/
def hSetWith (htSet : Value → Value → Exec VmError (Vm ω) Unit)
    (key value : Value) : Exec VmError (Vm ω) Unit := do
  let vm ← get
  if vm.table.isHt then htSet key value
  else
    match ← hFind callbacks key with
    | .atEntry p => modifyTable fun h => h.setValueAt p value
    | .missing => do
        let key ← hKeyFor key
        let vm ← get
        let (toHt, table) := vm.table.arMakeRoom
        set { vm with table := table }
        if toHt then do
          hRebuild callbacks IB_INIT_BIT
          htSet key value
        else modifyTable fun h => h.arPush key value

/-- A store into an indexed Hash.  It can fall back to a store without an index,
which can build an index again; the fuel counts these turns. -/
def htSetFuel : Nat → Value → Value → Exec VmError (Vm ω) Unit
  | 0, _, _ => throw .unfinished
  | fuel + 1, key, value => do
      let vm ← get
      let (room, table) := vm.table.htMakeRoom
      set { vm with table := table }
      match room with
      | .fits => htStore callbacks key value
      | .rebuild bit => do
          hRebuild callbacks bit
          htStore callbacks key value
      | .toAr => do
          modifyTable HashData.toAr
          hSetWith callbacks (htSetFuel fuel) key value

/-- A store into an indexed Hash; it falls back at most once. -/
def htSet (key value : Value) : Exec VmError (Vm ω) Unit :=
  htSetFuel callbacks 2 key value

/-- A store into a Hash. -/
def hSet (key value : Value) : Exec VmError (Vm ω) Unit :=
  hSetWith callbacks (htSet callbacks) key value

/-! ## Removals and rehash -/

/-- Remove a key; the value it had. -/
def hDelete (key : Value) : Exec VmError (Vm ω) (Option Value) := do
  match ← hFind callbacks key with
  | .missing => pure none
  | .atEntry p => do
      let vm ← get
      let (entry, table) ← Exec.orPanic (vm.table.removeEntry p)
      set { vm with table := table }
      pure (some entry.2)

/-- Take the first entry. -/
def hShift : Exec VmError (Vm ω) (Option (Value × Value)) := do
  let vm ← get
  match vm.table.keyAt 0 with
  | none => pure none
  | some key => do
      if vm.table.isHt then
        let _ ← hCode callbacks key
      let vm ← get
      if vm.table.len = 0 then pure none
      else do
        let (entry, table) ← Exec.orPanic (vm.table.removeEntry 0)
        set { vm with table := table }
        pure (some entry)

/-- The search of a rehash among the entries written so far, without an index,
from entry `j` on. -/
def rehashArLoop (key : Value) :
    Nat → Nat → Exec VmError (Vm ω) (Except Nat Nat)
  | 0, _ => pure (.error 0)
  | left + 1, j => do
      match ← hCompare callbacks key j with
      | some p => pure (.ok p)
      | none => rehashArLoop key left (j + 1)

/-- The probe of a rehash from one step on. -/
def rehashHtLoop (key : Value) (code mask : Nat) :
    Nat → Nat → Exec VmError (Vm ω) (Except Nat Nat)
  | _, 0 => pure (.error 0)
  | step, left + 1 => do
      let vm ← get
      let b := probeAt mask code step
      match vm.table.bucket b with
      | .empty => pure (.error b)
      | .deleted => pure (.error b)
      | .live v =>
          match ← hCompare callbacks key v with
          | some p => pure (.ok p)
          | none => rehashHtLoop key code mask (step + 1) left

/-- Move the entry in place `r` to place `w`. -/
def rehashMove (ht : Bool) (r w b : Nat) : Exec VmError (Vm ω) Unit := do
  if r ≠ w then
    tryTable fun h =>
      match h.removeEntry r with
      | none => none
      | some (entry, h) => h.reinsert w entry
  tryTable fun h => h.setSlot w w
  if ht then modifyTable fun h => h.setBucket b w

/-- The loop of a rehash: `left` entries to go, the ones before `w` written. -/
def hRehashLoop (ht : Bool) : Nat → Nat → Exec VmError (Vm ω) Unit
  | 0, _ => pure ()
  | left + 1, w => do
      let vm ← get
      match vm.table.keyAt w with
      | none => pure ()
      | some key => do
          let slot ← Exec.orPanic (vm.table.slotAt w)
          let dup ←
            if ht then do
              let code ← hCode callbacks key
              let vm ← get
              let mask := vm.table.mask
              rehashHtLoop callbacks key code mask 0 (mask + 1)
            else rehashArLoop callbacks key w 0
          let r ← hCheckVacated slot key
          match dup with
          | .ok p => do
              let vm ← get
              let entry ← Exec.orPanic vm.table.entries[r]?
              modifyTable fun h => h.setValueAt p entry.2
              tryTable fun h => (h.removeEntry r).map (·.2)
              hRehashLoop ht left w
          | .error b => do
              rehashMove ht r w b
              hRehashLoop ht left (w + 1)

/-- Store `len` entries again in order, in the mode the Hash is in, and give the
table the size of what is left. -/
def hRehashAll (len : Nat) : Exec VmError (Vm ω) Unit := do
  let vm ← get
  let ht := vm.table.isHt
  let eaCapa := vm.table.eaCapa
  if ht then
    modifyTable fun h => (h.htReset (ibBitFor len)).setNUsed 0
  hRehashLoop callbacks ht len 0
  let vm ← get
  let size := u32 vm.table.len
  modifyTable fun h => h.setNUsed size
  if ht ∧ size ≤ AR_MAX_SIZE then modifyTable HashData.toAr
  else modifyTable fun h => h.adjustEa size eaCapa

/-- Store every entry again in order, a later duplicate giving its value to the
earlier one. -/
def hRehash : Exec VmError (Vm ω) Unit := do
  let vm ← get
  let len := u32 vm.table.len
  if len = 0 then modifyTable HashData.clear
  else do
    if vm.table.isHt ∧ len ≤ AR_MAX_SIZE then modifyTable HashData.toAr
    hRehashAll callbacks len

end Algorithm

end SabiRuby.HashTable
