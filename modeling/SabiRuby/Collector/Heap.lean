import SabiRuby.Value
import Mathlib.Data.List.DropRight

/-!
# The heap and its collector

The slots of the heap with their flags, and the mark and sweep collector.  Of an
object only what the collector looks at and what tells it apart from a freed one
is kept; what lives on the stacks of contexts is handed back by the marker and
comes in again as marked roots.
-/

namespace SabiRuby.Collector

/-- An entry of a method table. -/
inductive Method
  /-- A method written in Ruby. -/
  | ruby (proc : ObjId)
  /-- Any other kind; it refers to no object. -/
  | other
  deriving DecidableEq, Repr

/-- What a class refers to. -/
structure ClassData where
  superclass : Option ObjId
  iclassOf : Option ObjId
  origin : Option ObjId
  originOf : Option ObjId
  outer : Option ObjId
  methods : List (Sym × Method)
  consts : List (Sym × Value)
  cvars : List (Sym × Value)
  attached : Option Value
  deriving DecidableEq, Repr

/-- What a Proc refers to. -/
structure ProcData where
  upper : Option ObjId
  env : Option ObjId
  targetClass : Option ObjId
  deriving DecidableEq, Repr

/-- What an environment refers to.  While it is attached its values are a window
of a context's stack. -/
structure EnvData where
  ctx : Nat
  base : Nat
  len : Nat
  attached : Bool
  values : List Value
  targetClass : Option ObjId
  /-- The special variables, once one was asked for. -/
  svar : Option (Value × Value)
  svarFwd : Option ObjId
  deriving DecidableEq, Repr

/-- What a Task refers to. -/
structure TaskData where
  ctx : Nat
  name : Value
  result : Value
  join : Option ObjId
  queue : Option ObjId
  deriving DecidableEq, Repr

/-- The kinds of heap objects. -/
inductive ObjKind
  | object
  | breakOut (value : Value)
  | classData (data : ClassData)
  | string (bytes : List UInt8)
  | array (items : List Value)
  | hash (entries : List (Value × Value)) (default : Value)
  | range (first last : Value)
  | proc (data : ProcData)
  | env (data : EnvData)
  | exception
  | fiber (ctx : Nat)
  | task (data : TaskData)
  | bigInt (limbs : List UInt32)
  | regexp
  | matchData (source regexp : Value)
  /-- A value of the host. -/
  | data (tag : UInt32) (handle : UInt64)
  deriving DecidableEq, Repr

/-- A heap object. -/
structure HeapObject where
  classId : ObjId
  ivars : List (Sym × Value)
  frozen : Bool
  binary : Bool
  noIvars : Bool
  ttStruct : Bool
  kind : ObjKind
  deriving DecidableEq, Repr

/-- The class of an object that has none yet. -/
def NO_CLASS : ObjId := ⟨2 ^ 32 - 1⟩

/-- The context of a Fiber or a Task that has none. -/
def NO_CONTEXT : Nat := 2 ^ 64 - 1

/-- The slot was reached in the current mark phase. -/
def MARKED : UInt8 := 1

/-- The slot is on the free list. -/
def FREE : UInt8 := 2

/-- The heap. -/
structure Heap where
  objs : List HeapObject
  /-- `MARKED` and `FREE` of every slot. -/
  flags : List UInt8
  /-- The free slots; the last one is used first. -/
  free : List Nat
  /-- What the host objects freed by the last sweep named. -/
  freedData : List (UInt32 × UInt64)
  deriving DecidableEq, Repr

namespace Heap

/-- The slot was swept and not used again, or is past the end. -/
def isFree (h : Heap) (id : ObjId) : Bool :=
  match h.flags[id.index]? with
  | some f => f &&& FREE ≠ 0
  | none => true

/-- The current mark phase reached the slot. -/
def isMarked (h : Heap) (id : ObjId) : Bool :=
  match h.flags[id.index]? with
  | some f => f &&& MARKED ≠ 0
  | none => false

/-- Put an object in a free slot, the lowest first, or in a new one. -/
def alloc (h : Heap) (o : HeapObject) : ObjId × Heap :=
  match h.free.getLast? with
  | some i =>
      (⟨i⟩, { h with
        free := h.free.dropLast
        flags := h.flags.set i 0
        objs := h.objs.set i o })
  | none =>
      (⟨h.objs.length⟩, { h with
        objs := h.objs ++ [o]
        flags := h.flags ++ [0] })

end Heap

/-! ## Marking -/

/-- The object a value refers to. -/
def ofValue : Value → List ObjId
  | .obj o => [o]
  | _ => []

/-- What an object of a kind refers to, in the order it is marked. -/
def kindReferences : ObjKind → List ObjId
  | .object => []
  | .string _ => []
  | .exception => []
  | .bigInt _ => []
  | .data _ _ => []
  | .regexp => []
  | .breakOut value => ofValue value
  | .array items => items.flatMap ofValue
  | .hash entries default =>
      entries.flatMap (fun (k, v) => ofValue k ++ ofValue v) ++ ofValue default
  | .range first last => ofValue first ++ ofValue last
  | .proc p => [p.upper, p.env, p.targetClass].filterMap id
  | .matchData source regexp => ofValue source ++ ofValue regexp
  | .env e =>
      e.values.flatMap ofValue ++
        (match e.svar with
          | some (backref, lastline) => ofValue backref ++ ofValue lastline
          | none => []) ++ e.svarFwd.toList ++ e.targetClass.toList
  | .classData c =>
      [c.superclass, c.iclassOf, c.origin, c.originOf, c.outer].filterMap id ++
        c.methods.filterMap (fun (_, m) =>
          match m with
          | .ruby p => some p
          | .other => none) ++
        c.consts.flatMap (fun (_, v) => ofValue v) ++
        c.cvars.flatMap (fun (_, v) => ofValue v) ++
        c.attached.toList.flatMap ofValue
  | .fiber _ => []
  | .task t =>
      ofValue t.name ++ ofValue t.result ++ [t.join, t.queue].filterMap id

/-- What an object refers to. -/
def references (o : HeapObject) : List ObjId :=
  (if o.classId = NO_CLASS then [] else [o.classId]) ++
    o.ivars.flatMap (fun (_, v) => ofValue v) ++ kindReferences o.kind

/-- The context an object leads to. -/
def contextsOf (o : HeapObject) : List Nat :=
  match o.kind with
  | .fiber ctx => if ctx = NO_CONTEXT then [] else [ctx]
  | .task t => if t.ctx = NO_CONTEXT then [] else [t.ctx]
  | _ => []

/-- The window of a context's stack that an object keeps. -/
def windowsOf (o : HeapObject) : List (Nat × Nat × Nat) :=
  match o.kind with
  | .env e => if e.attached then [(e.ctx, e.base, e.len)] else []
  | _ => []

/-- A mark phase: the heap, the grey objects with the last one first, and what
was handed back, the last one first. -/
structure Phase where
  heap : Heap
  work : List ObjId
  ctxs : List Nat
  windows : List (Nat × Nat × Nat)
  deriving DecidableEq, Repr

namespace Phase

/-- Mark a slot.  A slot past the end and a free one stop the machine. -/
def markId (p : Phase) (id : ObjId) : Option Phase :=
  match p.heap.flags[id.index]? with
  | none => none
  | some f =>
      if f &&& MARKED ≠ 0 then some p
      else if f &&& FREE ≠ 0 then none
      else
        some { p with
          heap := { p.heap with
            flags := p.heap.flags.set id.index (f ||| MARKED) }
          work := id :: p.work }

/-- Mark slots one after another. -/
def markAll (p : Phase) : List ObjId → Option Phase
  | [] => some p
  | id :: ids => do
      let p ← p.markId id
      p.markAll ids

/-- Blacken grey objects until none is left, in at most so many turns. -/
def drainLoop : Nat → Phase → Option Phase
  | turns, p =>
      match p.work with
      | [] => some p
      | id :: work =>
          match turns with
          | 0 => none
          | turns + 1 => do
              let o ← p.heap.objs[id.index]?
              let marked ← { p with work := work }.markAll (references o)
              drainLoop turns { marked with
                ctxs := contextsOf o ++ marked.ctxs
                windows := windowsOf o ++ marked.windows }

/-- `mark_drain`.  No object turns grey twice. -/
def markDrain (p : Phase) : Option Phase := drainLoop p.heap.objs.length p

/-- What the machine does in a mark phase. -/
inductive Event
  /-- A root is marked: one of the machine's own, or a slot of a context or a
  window that was handed back. -/
  | root (id : ObjId)
  | drain
  deriving DecidableEq, Repr

/-- One event. -/
def handle (p : Phase) : Event → Option Phase
  | .root id => p.markId id
  | .drain => p.markDrain

/-- A mark phase from its start. -/
def run (p : Phase) : List Event → Option Phase
  | [] => some p
  | e :: events => do
      let p ← p.handle e
      p.run events

/-- Nothing is marked yet. -/
def start (h : Heap) : Phase := ⟨h, [], [], []⟩

end Phase

/-! ## Sweeping -/

/-- What a freed slot holds. -/
def inert : HeapObject :=
  { classId := ⟨0⟩, ivars := [], frozen := false, binary := false,
    noIvars := false, ttStruct := false, kind := .object }

/-- What a host object names. -/
def hostData (o : HeapObject) : Option (UInt32 × UInt64) :=
  match o.kind with
  | .data tag handle => some (tag, handle)
  | _ => none

/-- One slot of the sweep: the slot it leaves, the data it hands to the host and
whether it freed the slot. -/
def sweepSlot (o : HeapObject) (f : UInt8) :
    HeapObject × UInt8 × List (UInt32 × UInt64) × Nat :=
  if f &&& MARKED ≠ 0 then (o, 0, [], 0)
  else if f &&& FREE = 0 then (inert, FREE, (hostData o).toList, 1)
  else (o, f, [], 0)

/-- The sweep over all slots. -/
def sweepLoop : List HeapObject → List UInt8 →
    List HeapObject × List UInt8 × List (UInt32 × UInt64) × Nat
  | o :: objs, f :: flags =>
      let (o, f, data, one) := sweepSlot o f
      let (objs, flags, rest, freed) := sweepLoop objs flags
      (o :: objs, f :: flags, data ++ rest, one + freed)
  | _, _ => ([], [], [], 0)

/-- Free what was not marked, drop the free slots at the end, and list the
others. -/
def sweep (h : Heap) : Heap × Nat :=
  let (objs, flags, data, freed) := sweepLoop h.objs h.flags
  let flags := flags.rdropWhile (fun f => f &&& FREE ≠ 0)
  let len := flags.length
  ({ objs := objs.take len
     flags := flags
     free := (List.range len).reverse.filter fun i =>
       (flags[i]?.getD 0) &&& FREE ≠ 0
     freedData := h.freedData ++ data }, freed)

end SabiRuby.Collector
