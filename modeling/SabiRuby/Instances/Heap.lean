import SabiRuby.Library.Exec
import SabiRuby.Value

/-!
# Objects and their primitive writes

The heap as the natives of `Struct`, `Data` and `Method` see it, and the
functions that read and write it.  What a native does to an object goes through
one of the primitives of this module.
-/

namespace SabiRuby.Instances

open Library

/-- What kind of object it is, with what the kind stores. -/
inductive Kind
  | object
  | array (items : List Value)
  | hash (entries : List (Value × Value))
  | string (bytes : List UInt8)
  | cls
  | other
deriving DecidableEq, Repr

/-- A heap object.  An instance of a `Struct` or a `Data` class is an Array
marked as `MRB_TT_STRUCT`. -/
structure HeapObject where
  cls : ObjId
  kind : Kind
  ivars : List (Sym × Value)
  frozen : Bool
  noIvars : Bool
  ttStruct : Bool
deriving DecidableEq, Repr

namespace HeapObject

/-- Whether the object can hold instance variables. -/
def ivP (object : HeapObject) : Bool :=
  let kind := match object.kind with
    | .object | .cls | .hash _ => true
    | _ => false
  kind && !object.noIvars

/-- The value of an instance variable, where there is one. -/
def ivar? (object : HeapObject) (name : Sym) : Option Value :=
  (object.ivars.find? fun entry => entry.1 == name).map Prod.snd

/-- An instance variable; `nil` when there is none. -/
def ivarGet (object : HeapObject) (name : Sym) : Value :=
  (object.ivar? name).getD .nil

/-- Sets a variable of a list, in its place or at the end. -/
def setVar (name : Sym) (v : Value) :
    List (Sym × Value) → List (Sym × Value)
  | [] => [(name, v)]
  | entry :: entries =>
      if entry.1 == name then (name, v) :: entries
      else entry :: setVar name v entries

/-- Sets an instance variable. -/
def ivarSet (object : HeapObject) (name : Sym) (v : Value) : HeapObject :=
  { object with ivars := setVar name v object.ivars }

end HeapObject

/-- The classes of the exceptions raised. -/
inductive ErrorClass
  | typeError
  | argumentError
  | nameError
  | noMethodError
  | indexError
  | frozenError
deriving DecidableEq, Repr

/-- A raised exception, or a call that goes on in code this model stops at: a
method written in Ruby, a closure of the host, another native. -/
inductive VmError
  | raise (cls : ErrorClass) (message : String)
  | outside
deriving DecidableEq, Repr

/-- The natives a call can run. -/
inductive NativeFn
  | structRef
  | structSet
  | structAref
  | structAset
  | structInitialize
  | structInitCopy
  | structValues
  | structNew
  | dataInitialize
  | dataInitCopy
  | dataWith
  | dataNew
  | kernelInitCopy
  | kernelDup
  | kernelSend
  | kernelMethod
  | moduleInstanceMethod
  | methodCall
  | methodUnbind
  | unboundBind
  | unboundBindCall
deriving DecidableEq, Repr

/-- An entry of a method table.  A native comes with the least and, unless it
takes any number, the greatest number of arguments. -/
inductive Method
  | native (f : NativeFn) (least : Nat) (most : Option Nat)
  | attrReader (iv : Sym)
  | attrWriter (iv : Sym)
  | ruby (proc : ObjId)
  | other
deriving DecidableEq, Repr

/-- The class graph, the method tables and the symbol table, which none of the
natives of this model writes, with the conversions they use. -/
structure Classes where
  immediateClass : Value → ObjId
  ancestors : ObjId → List ObjId
  realClass : ObjId → ObjId
  tableClass : ObjId → ObjId
  isModule : ObjId → Bool
  isSingleton : ObjId → Bool
  isKindOf : ObjId → ObjId → Bool
  findMethod : ObjId → Sym → Option (Method × ObjId)
  membersIvar : ObjId → Value
  keywordInitIvar : ObjId → Value
  arrayClass : ObjId
  hashClass : ObjId
  structClass : ObjId
  dataClass : ObjId
  methodClass : ObjId
  unboundMethodClass : ObjId
  symName : Sym → String
  intern : String → Sym
  internBytes : List UInt8 → Sym
  describe : Value → String
  asString : Value → String
  expectInt : Value → Except VmError Int
  respondToMissing : Value → Sym → Bool

/-- The state.  `overwritten` is not a field of the source: it records that a
step wrote to a frozen instance a value it did not have there. -/
structure Vm where
  heap : List HeapObject
  overwritten : Bool
deriving DecidableEq, Repr

/-- A native's computation. -/
abbrev Native (α : Type) := Exec VmError Vm α

/-- Raises an exception. -/
def raise (cls : ErrorClass) (message : String) : Native α :=
  Exec.raise (.raise cls message)

/-- Reads the heap. -/
def read (look : Vm → α) : Native α :=
  fun vm => .ok (look vm) vm

/-- Reads the heap, or raises. -/
def check (look : Vm → Except VmError α) : Native α :=
  fun vm =>
    match look vm with
    | .ok value => .ok value vm
    | .error error => .error (.raised error) vm

namespace Vm

/-- The object a value refers to. -/
def object? (vm : Vm) : Value → Option HeapObject
  | .obj o => vm.heap[o.index]?
  | _ => none

/-- Changes an object in place. -/
def update (vm : Vm) (o : ObjId) (change : HeapObject → HeapObject) : Vm :=
  { vm with heap := vm.heap.modify o.index change }

/-- Whether an object is frozen. -/
def isFrozen (vm : Vm) (o : ObjId) : Bool :=
  match vm.heap[o.index]? with
  | some object => object.frozen
  | none => false

/-- The elements of an Array, or of what is stored like one. -/
def aryVals (vm : Vm) (v : Value) : Option (List Value) :=
  match vm.object? v with
  | some { kind := .array items, .. } => some items
  | _ => none

/-- The values of a struct. -/
def values (vm : Vm) (s : Value) : List Value :=
  (vm.aryVals s).getD []

/-- Whether a value is stored like a struct. -/
def isStruct (vm : Vm) (s : Value) : Bool :=
  (vm.aryVals s).isSome

/-- The entries of a Hash. -/
def hashEntries (vm : Vm) (v : Value) : List (Value × Value) :=
  match vm.object? v with
  | some { kind := .hash entries, .. } => entries
  | _ => []

/-- Whether a value is a Hash. -/
def isHash (vm : Vm) (v : Value) : Bool :=
  match vm.object? v with
  | some { kind := .hash _, .. } => true
  | _ => false

/-- The bytes of a String. -/
def strBytes (vm : Vm) (v : Value) : Option (List UInt8) :=
  match vm.object? v with
  | some { kind := .string bytes, .. } => some bytes
  | _ => none

/-- An instance variable of any value. -/
def iv (vm : Vm) (v : Value) (name : Sym) : Value :=
  match vm.object? v with
  | some object => object.ivarGet name
  | none => .nil

/-- The class a value's methods are looked up in. -/
def classOf (C : Classes) (vm : Vm) (v : Value) : ObjId :=
  match vm.object? v with
  | some object => object.cls
  | none => C.immediateClass v

/-- The class of a value, past its singleton class. -/
def realClassOf (C : Classes) (vm : Vm) (v : Value) : ObjId :=
  C.realClass (vm.classOf C v)

/-- What an object stores: its members and its instance variables. -/
def contents (vm : Vm) (o : ObjId) : Option (Kind × List (Sym × Value)) :=
  vm.heap[o.index]?.map fun object => (object.kind, object.ivars)

end Vm

section Primitives

variable (C : Classes)

/-- The error for a write to a frozen object. -/
def frozenError (v : Value) : VmError :=
  .raise .frozenError ("can't modify frozen " ++ C.describe v)

/-- Writes to an object unless it is frozen. -/
def writeGuarded (s : Value) (change : HeapObject → HeapObject) : Native Unit :=
  fun vm =>
    match s with
    | .obj o =>
        if vm.isFrozen o then .error (.raised (frozenError C s)) vm
        else .ok () (vm.update o change)
    | _ => .ok () vm

/-- Puts a value at an index of what is stored like an Array, grown with
`nil`. -/
def putItem (i : Nat) (v : Value) (object : HeapObject) : HeapObject :=
  match object.kind with
  | .array items =>
      let grown := items ++ List.replicate (i + 1 - items.length) .nil
      { object with kind := .array (grown.set i v) }
  | _ => object

/-- Replaces what is stored like an Array. -/
def putItems (vals : List Value) (object : HeapObject) : HeapObject :=
  match object.kind with
  | .array _ => { object with kind := .array vals }
  | _ => object

/-- `mrb_ary_set` on an instance. -/
def arySet (s : Value) (i : Nat) (v : Value) : Native Unit :=
  writeGuarded C s (putItem i v)

/-- `mrb_ary_replace` on an instance. -/
def aryReplace (dst src : Value) : Native Unit := do
  let vals ← read fun vm => vm.values src
  writeGuarded C dst (putItems vals)

/-- `mrb_iv_set`: the write of an attribute writer that is sent. -/
def ivSet (recv : Value) (name : Sym) (v : Value) : Native Unit := do
  let able ← read fun vm => match vm.object? recv with
    | some object => object.ivP
    | none => false
  if able then writeGuarded C recv (·.ivarSet name v)
  else raise .argumentError "cannot set instance variable"

/-- A new object. -/
def allocObject (object : HeapObject) : Native Value :=
  fun vm =>
    .ok (.obj ⟨vm.heap.length⟩) { vm with heap := vm.heap ++ [object] }

/-- Writes to an object whether it is frozen or not.  `differs` says of the
object before the write whether the write puts something else in it. -/
def writeUnguarded
    (s : Value)
    (differs : HeapObject → Bool)
    (change : HeapObject → HeapObject) : Native Unit :=
  fun vm =>
    match s with
    | .obj o =>
        let harm := match vm.object? s with
          | some object => object.frozen && differs object
          | none => false
        .ok () { vm.update o change with overwritten := vm.overwritten || harm }
    | _ => .ok () vm

/-- Freezes an object. -/
def freeze (s : Value) : Native Unit :=
  fun vm =>
    match s with
    | .obj o =>
        .ok () (vm.update o fun object => { object with frozen := true })
    | _ => .ok () vm

/-- Arguments that are not as many as expected. -/
def argnumError (given : Nat) (expected : String) : Native α :=
  raise .argumentError
    s!"wrong number of arguments (given {given}, expected {expected})"

end Primitives

end SabiRuby.Instances
