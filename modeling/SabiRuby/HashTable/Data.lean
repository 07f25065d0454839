import SabiRuby.Library.BinarySearch
import SabiRuby.Library.OpenAddressing
import SabiRuby.Value

/-!
# The storage of a Hash

The entries of a Hash in insertion order, the bookkeeping of the entry array
they stand for (`slots`, `nUsed`, `eaCapa`) and the index buckets a Hash of more
than sixteen entries keeps.  A `u32` of the source is a natural number here, and
its arithmetic is written out where it can leave the range: as in a release
build, sums and casts are taken modulo `2 ^ 32` and the width of a shift modulo
32.  An operation that indexes out of range answers `none`.
-/

namespace SabiRuby.HashTable

open Library

/-- A number as a `u32`. -/
def u32 (number : Nat) : Nat := number % 2 ^ 32

/-- `1u32 << bit`. -/
def shiftOne (bit : Nat) : Nat := 2 ^ (bit % 32)

/-- Entries up to which a Hash has no index. -/
def AR_MAX_SIZE : Nat := 16

/-- The smallest capacity of an entry array. -/
def AR_DEFAULT_CAPA : Nat := 4

/-- The bucket width a Hash starts with when it gets an index. -/
def IB_INIT_BIT : Nat := 5

/-- Bucket values reserved for empty and deleted buckets. -/
def EA_N_RESERVED_INDICES : Nat := 2

/-- The most an entry array grows by at once. -/
def EA_MAX_INCREASE : Nat := 2 ^ 16 - 1

/-- The largest capacity of an entry array. -/
def EA_MAX_CAPA : Nat := 2 ^ 31 - EA_N_RESERVED_INDICES

/-- The capacity of an entry array for `size` entries. -/
def eaNextCapaFor (size maxCapa : Nat) : Nat :=
  if size < AR_DEFAULT_CAPA then AR_DEFAULT_CAPA
  else
    let wanted := size * 6 / 5 + 6
    let capa :=
      if EA_MAX_INCREASE < wanted - size then size + EA_MAX_INCREASE
      else wanted
    if capa ≤ maxCapa then capa else maxCapa

/-- Three quarters of a bucket count. -/
def ibUpperBoundFor (capa : Nat) : Nat := (capa >>> 2) ||| (capa >>> 1)

/-- The number of binary digits of a size. -/
def bitLength (size : Nat) : Nat := if size = 0 then 0 else size.log2 + 1

/-- The bucket width for `size` entries.  The capacity of the source is a power
of two and is carried as its exponent. -/
def ibBitFor (size : Nat) : Nat :=
  let width := min (bitLength size) 31
  if width ≠ 31 ∧ ibUpperBoundFor (2 ^ width) < size then width + 1
  else width

/-- The `step`th bucket of the probe from a code. -/
def probeAt (mask code step : Nat) : Nat :=
  u32 (code + u32 (u32 (step * step) + step) / 2) &&& mask

/-- A key and its value. -/
abbrev Entry := Value × Value

/-- A Hash: its entries in insertion order and the bookkeeping of them. -/
structure HashData where
  /-- The live entries in insertion order. -/
  entries : List Entry
  /-- Each entry's position in the entry array. -/
  slots : List Nat
  /-- Slots used, live or deleted. -/
  nUsed : Nat
  /-- The capacity of the entry array. -/
  eaCapa : Nat
  /-- The bucket width, zero while the Hash has no index. -/
  ibBit : Nat
  /-- The buckets of the index. -/
  ib : List Bucket
  /-- Bumped where the table is allocated afresh. -/
  epoch : Nat
  /-- What `Hash#default` answers with. -/
  default : Value
  deriving DecidableEq, Repr

/-- What the modification check compares before and after a call into Ruby. -/
structure HCheck where
  /-- The bucket width. -/
  bit : Nat
  /-- The capacity of the entry array. -/
  eaCapa : Nat
  /-- The live count. -/
  size : Nat
  /-- The allocation count of the table. -/
  epoch : Nat
  /-- Without an index, the key in slot zero. -/
  first : Option Value
  deriving DecidableEq, Repr

/-- The two checks saw the same table. -/
def HCheck.same (before after : HCheck) : Bool :=
  before.bit == after.bit && before.eaCapa == after.eaCapa &&
    before.size == after.size && before.epoch == after.epoch &&
      match before.first, after.first with
      | none, none => true
      | some left, some right => sameWord left right
      | _, _ => false

namespace HashData

/-- A Hash with nothing in it and no entry array. -/
def initial : HashData where
  entries := []
  slots := []
  nUsed := 0
  eaCapa := 0
  ibBit := 0
  ib := []
  epoch := 0
  default := .nil

/-- An index of `bit` with every bucket empty. -/
def htReset (h : HashData) (bit : Nat) : HashData :=
  { h with ibBit := bit, ib := List.replicate (2 ^ bit) .empty }

/-- An empty Hash with room for `capa` entries. -/
def withCapa (capa : Nat) : HashData :=
  if capa = 0 then initial
  else
    let size := min capa EA_MAX_CAPA
    let h := { initial with eaCapa := size }
    if AR_MAX_SIZE < size then h.htReset (ibBitFor size) else h

/-- The number of entries. -/
def len (h : HashData) : Nat := h.entries.length

/-- The Hash has an index. -/
def isHt (h : HashData) : Bool := h.ibBit ≠ 0

/-- The bucket mask. -/
def mask (h : HashData) : Nat := shiftOne h.ibBit - 1

/-- The contents of a bucket; an empty one past the end. -/
def bucket (h : HashData) (b : Nat) : Bucket := h.ib[b]?.getD .empty

/-- The key of entry `p`. -/
def keyAt (h : HashData) (p : Nat) : Option Value := h.entries[p]?.map (·.1)

/-- The value of entry `p`. -/
def valueAt (h : HashData) (p : Nat) : Option Value := h.entries[p]?.map (·.2)

/-- The slot of entry `p`. -/
def slotAt (h : HashData) (p : Nat) : Option Nat := h.slots[p]?

/-- Where the entry in a slot is now, if it is still live. -/
def posOfSlot (h : HashData) (slot : Nat) : Option Nat :=
  match binarySearch h.slots slot with
  | .ok p => some p
  | .error _ => none

/-- Whether a slot still holds a key, and where. -/
def slotHolds (h : HashData) (slot : Nat) (key : Value) :
    Option (Option Nat) :=
  match h.posOfSlot slot with
  | none => some none
  | some p =>
      match h.entries[p]? with
      | none => none
      | some entry => some (if sameWord entry.1 key then some p else none)

/-- What the modification check sees now. -/
def check (h : HashData) : Option HCheck :=
  let seen (first : Option Value) : HCheck :=
    { bit := h.ibBit, eaCapa := h.eaCapa, size := u32 h.entries.length,
      epoch := h.epoch, first := first }
  if h.isHt then some (seen none)
  else
    match h.slots.head? with
    | some 0 =>
        match h.entries[0]? with
        | none => none
        | some entry => some (seen (some entry.1))
    | _ => some (seen none)

/-- Set the count of used slots. -/
def setNUsed (h : HashData) (count : Nat) : HashData :=
  { h with nUsed := count }

/-- Overwrite the value of entry `p`. -/
def setValueAt (h : HashData) (p : Nat) (value : Value) : HashData :=
  { h with entries := h.entries.modify p fun entry => (entry.1, value) }

/-- The holes are given back and every entry's slot is its position. -/
def compress (h : HashData) : HashData :=
  { h with
    slots := List.range h.slots.length
    nUsed := u32 h.entries.length }

/-- The capacity of the entry array for `size` entries, at most `max`. -/
def adjustEa (h : HashData) (size max : Nat) : HashData :=
  { h with eaCapa := eaNextCapaFor size max }

/-- The search of `place` from one step of the probe on. -/
def placeLoop (h : HashData) (code p : Nat) : Nat → Nat → Option HashData
  | _, 0 => some h
  | step, left + 1 =>
      let b := probeAt h.mask code step
      match h.ib[b]? with
      | none => none
      | some .empty => some { h with ib := h.ib.set b (.live p) }
      | some _ => placeLoop h code p (step + 1) left

/-- Store a position in the first empty bucket of the probe from a code. -/
def place (h : HashData) (code p : Nat) : Option HashData :=
  h.placeLoop code p 0 (h.mask + 1)

/-- Place the entries from `p` on by their codes. -/
def placeAll (h : HashData) (p : Nat) : List Nat → Option HashData
  | [] => some h
  | code :: codes =>
      match h.place code p with
      | none => none
      | some h => placeAll h (p + 1) codes

/-- Drop the index and give the entry array the capacity of a small one. -/
def toAr (h : HashData) : HashData :=
  let h := h.compress
  { h with
    eaCapa := eaNextCapaFor (u32 h.entries.length) AR_MAX_SIZE
    ibBit := 0
    ib := [] }

/-- Make room for one more entry of a Hash without an index; `true` when the
Hash has to get an index instead. -/
def arMakeRoom (h : HashData) : Bool × HashData :=
  let size := u32 h.entries.length
  if h.eaCapa = h.nUsed then
    if size = h.nUsed then
      if size = AR_MAX_SIZE then (true, h)
      else (false, h.adjustEa size AR_MAX_SIZE)
    else
      let h := h.compress
      (false, h.adjustEa size (min h.eaCapa AR_MAX_SIZE))
  else (false, h)

/-- Append an entry at the end of the entry array. -/
def arPush (h : HashData) (key value : Value) : HashData :=
  { h with
    entries := h.entries ++ [(key, value)]
    slots := h.slots ++ [h.nUsed]
    nUsed := u32 (h.nUsed + 1) }

/-- What making room leaves to the caller. -/
inductive HtRoom
  /-- There is room: probe and store. -/
  | fits
  /-- Rebuild the index at this width, then probe and store. -/
  | rebuild (bit : Nat)
  /-- Drop the index and store without one. -/
  | toAr
  deriving DecidableEq, Repr

/-- The part of a store into an indexed Hash before the probe. -/
def htMakeRoom (h : HashData) : HtRoom × HashData :=
  let size := u32 h.entries.length
  let bit := h.ibBit
  let capa := shiftOne bit
  if ibUpperBoundFor capa ≤ size then
    (.rebuild (bit + 1), if size = h.nUsed then h else h.compress)
  else if size ≠ h.nUsed then
    if capa - EA_N_RESERVED_INDICES ≤ h.nUsed then
      let h := h.compress
      (.rebuild bit, h.adjustEa size h.eaCapa)
    else if h.eaCapa = h.nUsed then
      if size ≤ AR_MAX_SIZE then (.toAr, h)
      else if eaNextCapaFor size EA_MAX_CAPA ≤ h.eaCapa then
        let h := h.compress
        (.rebuild bit, h.adjustEa size h.eaCapa)
      else (.fits, h)
    else (.fits, h)
  else (.fits, h)

/-- Write a new entry and its position into bucket `b`. -/
def htPush (h : HashData) (b : Nat) (key value : Value) : HashData :=
  let h := if h.nUsed = h.eaCapa then h.adjustEa h.nUsed EA_MAX_CAPA else h
  { h with
    entries := h.entries ++ [(key, value)]
    slots := h.slots ++ [h.nUsed]
    nUsed := u32 (h.nUsed + 1)
    ib := h.ib.set b (.live h.entries.length) }

/-- Remove entry `p`: its slot becomes a hole and its bucket a deleted one. -/
def removeEntry (h : HashData) (p : Nat) : Option (Entry × HashData) :=
  match h.entries[p]?, h.slots[p]? with
  | some entry, some _ =>
      some (entry, { h with
        entries := h.entries.eraseIdx p
        slots := h.slots.eraseIdx p
        ib := if h.isHt then h.ib.map (Bucket.vacate p) else h.ib })
  | _, _ => none

/-- The walk of `removeNilValues` from entry `p` on; how many went so far. -/
def removeNilLoop (h : HashData) (p removed : Nat) :
    Nat → Option (Nat × HashData)
  | 0 => some (removed, h)
  | fuel + 1 =>
      match h.entries[p]? with
      | none => some (removed, h)
      | some entry =>
          if entry.2.isNil then
            match h.removeEntry p with
            | none => none
            | some (_, h) => removeNilLoop h p (removed + 1) fuel
          else removeNilLoop h (p + 1) removed fuel

/-- Remove every entry whose value is nil; how many went.  Each turn of the walk
removes an entry or passes one, so as many turns as entries are enough. -/
def removeNilValues (h : HashData) : Option (Nat × HashData) :=
  h.removeNilLoop 0 0 h.entries.length

/-- An empty Hash with no entry array. -/
def clear (h : HashData) : HashData :=
  { h with
    entries := []
    slots := []
    nUsed := 0
    eaCapa := 0
    ibBit := 0
    ib := []
    epoch := u32 (h.epoch + 1) }

/-- Take a copy of another table; the default stays. -/
def replaceTable (h other : HashData) : HashData :=
  { other with epoch := u32 (h.epoch + 1), default := h.default }

/-- The position of the first entry whose slot is past a slot. -/
def slotsAfter (h : HashData) (slot : Nat) : Nat :=
  partitionPoint (fun held => decide (held ≤ slot)) h.slots

/-- What becomes of a bucket when an entry is put in at a position. -/
def shiftUp (p : Nat) : Bucket → Bucket
  | .live position => .live (if p ≤ position then position + 1 else position)
  | other => other

/-- Put back at `p` an entry that was taken out. -/
def reinsert (h : HashData) (p : Nat) (entry : Entry) : Option HashData :=
  if p ≤ h.entries.length ∧ p ≤ h.slots.length then
    some { h with
      entries := h.entries.insertIdx p entry
      slots := h.slots.insertIdx p 0
      ib := if h.isHt then h.ib.map (shiftUp p) else h.ib }
  else none

/-- Write the slot of entry `p`. -/
def setSlot (h : HashData) (p slot : Nat) : Option HashData :=
  if p < h.slots.length then some { h with slots := h.slots.set p slot }
  else none

/-- Write a position into bucket `b`. -/
def setBucket (h : HashData) (b p : Nat) : HashData :=
  { h with ib := h.ib.set b (.live p) }

end HashData
end SabiRuby.HashTable
