import SabiRuby.Instances.Heap

/-!
# The natives of Struct, Data and Method

Each native under its name.  A native gets the name it was called by, the
keyword Hash of the call (`nil` when there is none; it is also the last
argument), the receiver and the arguments.
-/

namespace SabiRuby.Instances

open Library

variable (C : Classes)

/-- How a native is run: the native, the name it was called by, the pending
keywords, the receiver and the arguments. -/
abbrev Call := NativeFn → Sym → Value → Value → List Value → Native Value

/-- The keyword Hash among the arguments. -/
def pending (kw : Value) (args : List Value) : Option Value :=
  match args.getLast? with
  | some last => if !kw.isNil && kw.eq last then some kw else none
  | none => none

/-- The arguments without the keyword Hash. -/
def positional (kw : Value) (args : List Value) : List Value :=
  if (pending kw args).isSome then args.dropLast else args

/-- The error for storage that is not a struct's. -/
def corrupted (what : String) : VmError :=
  .raise .typeError ("corrupted " ++ what)

/-- The Symbols of a list of values. -/
def symbols (what : String) : List Value → Except VmError (List Sym)
  | [] => .ok []
  | .sym s :: vals => do
      let rest ← symbols what vals
      return s :: rest
  | _ :: _ => .error (corrupted what)

/-- The members of the nearest class that has them. -/
def sMembers
    (vm : Vm)
    (top : ObjId)
    (what : String) : List ObjId → Except VmError (List Sym)
  | [] => .error (.raise .typeError ("uninitialized " ++ what))
  | c :: cs =>
      match C.membersIvar c with
      | .nil =>
          match cs with
          | s :: _ =>
              if s = top then
                .error (.raise .typeError ("uninitialized " ++ what))
              else sMembers vm top what cs
          | [] => .error (.raise .typeError ("uninitialized " ++ what))
      | v =>
          match vm.aryVals v with
          | some vals => symbols what vals
          | none => .error (corrupted what)

section Struct

/-- The members of the instance's class, sized like the instance. -/
def structMembers (vm : Vm) (s : Value) : Except VmError (List Sym) := do
  if !vm.isStruct s then throw (corrupted "struct")
  let m ← sMembers C vm C.structClass "struct"
    (C.ancestors (vm.realClassOf C s))
  let len := (vm.values s).length
  if 0 < len && len != m.length then
    throw (.raise .typeError
      s!"struct size differs ({m.length} required {len} given)")
  return m

/-- The option of the nearest class that has it. -/
def keywordInit (c : ObjId) : Value :=
  let classes := (C.ancestors c).takeWhile (· != C.structClass)
  ((classes.map C.keywordInitIvar).find? fun v => !v.isNil).getD .nil

/-- The index of the member the accessor was called as. -/
def memberIndex
    (mid : Sym)
    (setter : Bool)
    (s : Value)
    (vm : Vm) : Except VmError Nat := do
  let name := C.symName mid
  let name := if setter then (name.dropEnd 1).toString else name
  let m ← structMembers C vm s
  let want := C.intern name
  match m.findIdx? (· == want) with
  | some i => return i
  | none => throw (corrupted "struct")

def structRef (mid : Sym) (s : Value) (args : List Value) : Native Value := do
  if !args.isEmpty then argnumError args.length "0"
  let i ← check (memberIndex C mid false s)
  read fun vm => (vm.values s)[i]?.getD .nil

def structSet (mid : Sym) (s : Value) (args : List Value) : Native Value := do
  match args with
  | [v] =>
      let i ← check (memberIndex C mid true s)
      arySet C s i v
      return v
  | _ => argnumError args.length "1"

/-- Sets the members from an index on. -/
def fillMembers (s : Value) : Nat → List Value → Native Unit
  | _, [] => pure ()
  | i, v :: vals => do
      arySet C s i v
      fillMembers s (i + 1) vals

def initWithArgs (s : Value) (argv : List Value) : Native Value := do
  let m ← check fun vm => structMembers C vm s
  let n := m.length
  if n < argv.length then raise .argumentError "struct size differs"
  fillMembers C s 0 argv
  fillMembers C s argv.length (List.replicate (n - argv.length) .nil)
  return s

/-- The value a Hash has under a Symbol. -/
def hashGetSym (entries : List (Value × Value)) (key : Sym) : Option Value :=
  (entries.find? fun entry => entry.1.eq (.sym key)).map Prod.snd

/-- Sets the members from an index on to what a Hash has for their names. -/
def fillFromHash (s hash : Value) : Nat → List Sym → Native Unit
  | _, [] => pure ()
  | i, mem :: m => do
      let v ← read fun vm => (hashGetSym (vm.hashEntries hash) mem).getD .nil
      arySet C s i v
      fillFromHash s hash (i + 1) m

/-- Whether a key is the name of a member. -/
def isMember (m : List Sym) : Value → Bool
  | .sym s => m.contains s
  | _ => false

def initWithKeywords (s hash : Value) : Native Value := do
  let m ← check fun vm => structMembers C vm s
  fillFromHash C s hash 0 m
  let invalid ← read fun vm =>
    ((vm.hashEntries hash).map Prod.fst).filter fun k => !isMember m k
  if !invalid.isEmpty then
    raise .argumentError
      ("unknown keywords: " ++ ", ".intercalate (invalid.map C.asString))
  return s

/-- Fills an instance from the constructor's arguments. -/
def initBody (kw : Value) (s : Value) (args : List Value) : Native Value := do
  let kwGiven ← read fun vm => match pending kw args with
    | some k => !(vm.hashEntries k).isEmpty
    | none => false
  let ki ← read fun vm => keywordInit C (vm.realClassOf C s)
  let firstIsHash ← read fun vm => match args with
    | a :: _ => vm.isHash a
    | [] => false
  if ki.truthy then
    if 1 < args.length || (args.length == 1 && !firstIsHash) then
      argnumError args.length "0"
    else
      match args with
      | hash :: _ => initWithKeywords C s hash
      | [] => do
          let hash ← allocObject
            { cls := C.hashClass
              kind := .hash []
              ivars := []
              frozen := false
              noIvars := false
              ttStruct := false }
          initWithKeywords C s hash
  else
    match args with
    | [hash] =>
        if ki.isNil && kwGiven && firstIsHash then initWithKeywords C s hash
        else initWithArgs C s args
    | _ => initWithArgs C s args

def structInitialize
    (kw : Value)
    (s : Value)
    (args : List Value) : Native Value :=
  initBody C kw s args

/-- The object another one is made a copy of, checked to be of its class and
stored like it. -/
def copySource (what : String) (s : Value) (src : Value) : Native Unit := do
  let same ← read fun vm =>
    decide (vm.realClassOf C src = vm.realClassOf C s)
  if !same then raise .typeError "wrong argument class"
  let stored ← read fun vm => vm.isStruct src
  if !stored then Exec.raise (corrupted what)

def structInitCopy (s : Value) (args : List Value) : Native Value := do
  let src ← Exec.orPanic args.head?
  if sameWord s src then return s
  copySource C "struct" s src
  aryReplace C s src
  return s

/-- The name an index argument stands for. -/
def keySym (idx : Value) (vm : Vm) : Option Sym :=
  match idx with
  | .sym s => some s
  | v => (vm.strBytes v).map C.internBytes

/-- The error for a name that is no member. -/
def noMember (id : Sym) : VmError :=
  .raise .nameError s!"no member '{C.symName id}' in struct"

/-- The position of a member name. -/
def memberPosition (s : Value) (id : Sym) (vm : Vm) : Except VmError Nat := do
  let m ← structMembers C vm s
  match m.findIdx? (· == id) with
  | some i => return i
  | none => throw (noMember C id)

/-- An index counted from either end, in range. -/
def structIndex (i : Int) (len : Nat) : Except VmError Nat :=
  let idx := if i < 0 then len + i else i
  if idx < 0 then
    .error (.raise .indexError
      s!"offset {i} too small for struct(size:{len})")
  else if (len : Int) ≤ idx then
    .error (.raise .indexError
      s!"offset {i} too large for struct(size:{len})")
  else .ok idx.toNat

/-- The position of an index argument that is no name. -/
def indexPosition (s idx : Value) (vm : Vm) : Except VmError Nat := do
  let i ← C.expectInt idx
  let m ← structMembers C vm s
  structIndex i m.length

/-- The position an index argument names. -/
def position (s idx : Value) (vm : Vm) : Except VmError Nat :=
  match keySym C idx vm with
  | some id => memberPosition C s id vm
  | none => indexPosition C s idx vm

def structAref (s : Value) (args : List Value) : Native Value := do
  let idx ← Exec.orPanic args.head?
  let i ← check (position C s idx)
  read fun vm => (vm.values s)[i]?.getD .nil

def structAset (s : Value) (args : List Value) : Native Value := do
  let idx ← Exec.orPanic args.head?
  let v ← Exec.orPanic args[1]?
  let i ← check (position C s idx)
  arySet C s i v
  return v

/-- A new Array. -/
def aryNew (items : List Value) : Native Value :=
  allocObject
    { cls := C.arrayClass
      kind := .array items
      ivars := []
      frozen := false
      noIvars := false
      ttStruct := false }

def structValues (s : Value) : Native Value := do
  let v ← read fun vm => vm.values s
  aryNew C v

end Struct

section Data

def classMembers (vm : Vm) (c : ObjId) : Except VmError (List Sym) :=
  sMembers C vm C.dataClass "data" (C.ancestors c)

/-- The members of a built instance. -/
def dataMembers (vm : Vm) (s : Value) : Except VmError (List Sym) := do
  let len := (vm.values s).length
  if !vm.isStruct s || len == 0 then throw (corrupted "data")
  let m ← classMembers C vm (vm.realClassOf C s)
  if len != m.length then
    throw (.raise .typeError
      s!"data size differs ({m.length} required {len} given)")
  return m

/-- Whether an object stores other values than these. -/
def storesOther (vals : List Value) (object : HeapObject) : Bool :=
  match object.kind with
  | .array items => items != vals
  | _ => false

/-- `data_store`: the values, then frozen. -/
def dataStore (data : Value) (vals : List Value) : Native Unit := do
  writeUnguarded data (storesOther vals) (putItems vals)
  freeze data

/-- A Data instance: an Array underneath. -/
def newInstance (c : ObjId) : Native Value :=
  allocObject
    { cls := c
      kind := .array []
      ivars := []
      frozen := false
      noIvars := false
      ttStruct := true }

/-- The members as keywords: with `required`, the members in order, the first
one not given being an error; then the first key that is no member. -/
def takeKeywords
    (entries : List (Value × Value))
    (mems : List Sym)
    (required : Bool) : Except VmError (List (Option Value)) := do
  let vals := mems.map (hashGetSym entries)
  if required then
    match mems.find? fun m => (hashGetSym entries m).isNone with
    | some m =>
        throw (.raise .argumentError s!"missing keyword: {C.symName m}")
    | none => pure ()
  match entries.find? fun entry => !isMember mems entry.1 with
  | some entry =>
      throw (.raise .argumentError
        s!"unknown keyword: {C.describe entry.1}")
  | none => return vals

def dataInitialize
    (kw : Value)
    (s : Value)
    (args : List Value) : Native Value := do
  let mems ← check fun vm => classMembers C vm (vm.realClassOf C s)
  let vals ← check fun vm =>
    takeKeywords C (match pending kw args with
      | some k => vm.hashEntries k
      | none => []) mems true
  let pos := positional kw args
  if !pos.isEmpty then argnumError pos.length "0"
  dataStore s (vals.map fun v => v.getD .nil)
  return s

def dataInitCopy (s : Value) (args : List Value) : Native Value := do
  match args with
  | [src] =>
      if sameWord s src then return s
      copySource C "data" s src
      aryReplace C s src
      freeze s
      return s
  | _ => argnumError args.length "1"

/-- The given values where there are some, the present ones elsewhere. -/
def mergeValues (given : List (Option Value)) (cur : List Value) : List Value :=
  given.zipIdx.map fun entry => entry.1.getD (cur[entry.2]?.getD .nil)

def dataWith (kw : Value) (s : Value) (args : List Value) : Native Value := do
  let c ← read fun vm => vm.realClassOf C s
  let mems ← check fun vm => dataMembers C vm s
  let pos := positional kw args
  if !pos.isEmpty then argnumError pos.length "0"
  match pending kw args with
  | none => return s
  | some kw =>
      let given ← check fun vm => takeKeywords C (vm.hashEntries kw) mems false
      let cur ← read fun vm => vm.values s
      let data ← newInstance c
      dataStore data (mergeValues given cur)
      return data

end Data

section Dispatch

/-- The check of the number of arguments of a native. -/
def checkAspec
    (least : Nat)
    (most : Option Nat)
    (args : List Value) : Native Unit :=
  let tooMany := match most with
    | some most => decide (most < args.length)
    | none => false
  if decide (args.length < least) || tooMany then
    argnumError args.length
      (match most with
        | some most => if most = least then s!"{least}" else s!"{least}..{most}"
        | none => s!"{least}+")
  else pure ()

/-- The error for a name nothing answers. -/
def noMethod (mid : Sym) (recv : Value) : VmError :=
  .raise .noMethodError
    s!"undefined method '{C.symName mid}' for {C.describe recv}"

/-- A call from native code. -/
def funcall
    (call : Call)
    (kw : Value)
    (recv : Value)
    (mid : Sym)
    (args : List Value) : Native Value := do
  let found ← read fun vm => C.findMethod (vm.classOf C recv) mid
  match found with
  | some (.native f least most, _) => do
      checkAspec least most args
      call f mid kw recv args
  | some (.attrReader name, _) => read fun vm => vm.iv recv name
  | some (.attrWriter name, _) => do
      let v := args.head?.getD .nil
      ivSet C recv name v
      return v
  | some _ => Exec.raise .outside
  | none => Exec.raise (noMethod C mid recv)

/-- A call by an instruction, where the keyword Hash of the call is set. -/
def opSend
    (call : Call)
    (kw : Value)
    (recv : Value)
    (mid : Sym)
    (args : List Value) : Native Value := do
  let found ← read fun vm => C.findMethod (vm.classOf C recv) mid
  match found with
  | some (.native f least most, _) => do
      checkAspec least most args
      call f mid kw recv args
  | some (.attrReader name, _) =>
      if !args.isEmpty then argnumError args.length "0"
      else read fun vm => vm.iv recv name
  | some (.attrWriter name, _) =>
      match args with
      | [v] => do
          ivSet C recv name v
          return v
      | _ => argnumError args.length "1"
  | some _ => Exec.raise .outside
  | none => Exec.raise (noMethod C mid recv)

/-- A name given as a Symbol or a String. -/
def symArg (v : Value) (vm : Vm) : Except VmError Sym :=
  match v with
  | .sym s => .ok s
  | v =>
      match vm.strBytes v with
      | some bytes => .ok (C.internBytes bytes)
      | none => .error (.raise .typeError
          s!"{C.describe v} is not a symbol nor a string")

def kernelSend
    (call : Call)
    (kw : Value)
    (s : Value)
    (args : List Value) : Native Value := do
  match args with
  | [] => argnumError 0 "1+"
  | name :: rest =>
      let m ← check (symArg C name)
      funcall C call kw s m rest

def kernelInitCopy (s : Value) (args : List Value) : Native Value := do
  match args with
  | [src] =>
      if s.eq src then return s
      let same ← read fun vm =>
        decide (vm.realClassOf C s = vm.realClassOf C src) &&
          match s, src with
          | .obj _, .obj _ => true
          | .int _, .int _ => true
          | .float _, .float _ => true
          | .sym _, .sym _ => true
          | _, _ => false
      if !same then
        raise .typeError "initialize_copy should take same class object"
      return s
  | _ => argnumError args.length "1"

/-- What the copy of an object starts with. -/
def emptyCopy (object : HeapObject) : Option Kind :=
  match object.kind with
  | .object => some .object
  | .string _ => some (.string [])
  | .array _ => some (.array [])
  | .hash entries => some (.hash entries)
  | .cls => none
  | .other => none

/-- The copy of an object before `initialize_copy`. -/
def copyOf (s : Value) (vm : Vm) : Option HeapObject := do
  let object ← vm.object? s
  let kind ← emptyCopy object
  return {
    cls := vm.realClassOf C s
    kind := kind
    ivars := object.ivars
    frozen := false
    noIvars := object.noIvars
    ttStruct := object.ttStruct }

/-- Whether `initialize` of a class is the given native. -/
def initializeIs (c : ObjId) (f : NativeFn) : Bool :=
  match C.findMethod c (C.intern "initialize") with
  | some (.native g _ _, _) => g == f
  | _ => false

/-- The singleton `new` of a struct class. -/
def structNew
    (call : Call)
    (kw : Value)
    (s : Value)
    (args : List Value) : Native Value := do
  let klass ← Exec.orPanic (match s with
    | .obj c => some c
    | _ => none)
  let object ← newInstance klass
  if initializeIs C klass .structInitialize then
    initBody C kw object args
  else
    match pending kw args with
    | some k => do
        let pos ← aryNew C args.dropLast
        let _ ← funcall C call kw object (C.intern "__struct_init_fwd") [pos, k]
        return object
    | none => do
        let _ ← funcall C call kw object (C.intern "initialize") args
        return object

/-- The entries of a Hash after the given ones are stored. -/
def storeEntries (entries given : List (Value × Value)) :
    List (Value × Value) :=
  given.foldl
    (fun entries pair =>
      if entries.any fun entry => entry.1.eq pair.1 then
        entries.map fun entry => if entry.1.eq pair.1 then pair else entry
      else entries ++ [pair])
    entries

/-- The members as keywords for an `initialize` of the program. -/
def initializeKeywords
    (kw : Value)
    (args : List Value)
    (mems : List Sym)
    (vm : Vm) : List (Value × Value) :=
  let named := ((positional kw args).zip mems).map fun pair =>
    (Value.sym pair.2, pair.1)
  match pending kw args with
  | some k => storeEntries (storeEntries [] named) (vm.hashEntries k)
  | none => storeEntries [] named

/-- The values of a new instance. -/
def newValues
    (kw : Value)
    (args : List Value)
    (mems : List Sym)
    (vm : Vm) : Except VmError (List Value) := do
  let pos := positional kw args
  match pending kw args with
  | some k =>
      if !pos.isEmpty then
        throw (.raise .argumentError
          s!"wrong number of arguments (given {pos.length}, expected 0)")
      let vals ← takeKeywords C (vm.hashEntries k) mems true
      return vals.map fun v => v.getD .nil
  | none =>
      if pos.length != mems.length then
        throw (.raise .argumentError "wrong number of arguments")
      return pos

/-- The singleton `new` of a Data class. -/
def dataNew
    (call : Call)
    (kw : Value)
    (s : Value)
    (args : List Value) : Native Value := do
  let c ← Exec.orPanic (match s with
    | .obj c => some c
    | _ => none)
  let mems ← check fun vm => classMembers C vm c
  let data ← newInstance c
  if initializeIs C c .dataInitialize then
    let vals ← check (newValues C kw args mems)
    dataStore data vals
    return data
  else if mems.length < (positional kw args).length then
    raise .argumentError
      (s!"wrong number of arguments (given {(positional kw args).length}, " ++
        s!"expected 0..{mems.length})")
  else
    let entries ← read (initializeKeywords kw args mems)
    let h ← allocObject
      { cls := C.hashClass
        kind := .hash entries
        ivars := []
        frozen := false
        noIvars := false
        ttStruct := false }
    let _ ← funcall C call kw data (C.intern "__init_with_kw") [h]
    return data

def kernelDup (call : Call) (kw : Value) (s : Value) : Native Value := do
  match s with
  | .obj _ =>
      let copy ← read (copyOf C s)
      match copy with
      | none => Exec.raise .outside
      | some copy => do
          let n ← allocObject copy
          let _ ← funcall C call kw n (C.intern "initialize_copy") [s]
          return n
  | _ => return s

end Dispatch

section MethodObjects

/-- What a `Method` or an `UnboundMethod` is made of. -/
structure MethodParts where
  owner : ObjId
  recv : Value
  name : Sym
  proc : Value
  klass : ObjId
  missing : Bool

/-- A new `Method` or `UnboundMethod`. -/
def newMethodObj (cls : ObjId) (parts : MethodParts) : Native Value :=
  allocObject
    { cls := cls
      kind := .object
      ivars :=
        [(C.intern "_owner", .obj parts.owner),
         (C.intern "_recv", parts.recv),
         (C.intern "_name", .sym parts.name),
         (C.intern "_proc", parts.proc),
         (C.intern "_klass", .obj parts.klass),
         (C.intern "_missing",
           if parts.missing then .trueValue else .falseValue)]
      frozen := false
      noIvars := false
      ttStruct := false }

/-- The parts of a method object, read back from its instance variables. -/
def methodParts (method : Value) (vm : Vm) : Except VmError MethodParts := do
  let owner ← match vm.iv method (C.intern "_owner") with
    | .obj o => pure o
    | _ => throw (.raise .typeError
        "not class/module as owner of method object")
  let name ← match vm.iv method (C.intern "_name") with
    | .sym m => pure m
    | _ => throw (.raise .typeError "not a symbol")
  let klass := match vm.iv method (C.intern "_klass") with
    | .obj k => k
    | _ => owner
  return {
    owner := owner
    recv := vm.iv method (C.intern "_recv")
    name := name
    proc := vm.iv method (C.intern "_proc")
    klass := klass
    missing := (vm.iv method (C.intern "_missing")).truthy }

/-- Whether a method of `owner` may be run on a receiver. -/
def bindCheck (recv : Value) (owner : ObjId) (vm : Vm) : Except VmError Unit :=
  if !C.isModule owner && owner != vm.realClassOf C recv &&
      !C.isKindOf (vm.classOf C recv) owner then
    if C.isSingleton owner then
      .error (.raise .typeError
        "singleton method called for a different object")
    else
      .error (.raise .typeError
        s!"bind argument must be an instance of {C.describe (.obj owner)}")
  else .ok ()

def methodAlloc
    (c : ObjId)
    (object : Value)
    (name : Sym)
    (unbound : Bool) : Native Value := do
  let cls := if unbound then C.unboundMethodClass else C.methodClass
  let recv := if unbound then .nil else object
  match C.findMethod c name with
  | some (m, owner) =>
      let proc : Value := match m with
        | .ruby p => .obj p
        | _ => .nil
      newMethodObj C cls
        { owner := C.tableClass owner, recv, name, proc, klass := c,
          missing := false }
  | none =>
      if !unbound && C.respondToMissing object name then
        newMethodObj C cls
          { owner := C.tableClass c, recv, name, proc := .nil, klass := c,
            missing := true }
      else
        raise .nameError
          (s!"undefined method '{C.symName name}' " ++
            s!"for class '{C.describe (.obj c)}'")

def kernelMethod (s : Value) (args : List Value) : Native Value := do
  match args with
  | [name] =>
      let n ← check (symArg C name)
      let c ← read fun vm => vm.classOf C s
      methodAlloc C c s n false
  | _ => argnumError args.length "1"

def moduleInstanceMethod (s : Value) (args : List Value) : Native Value := do
  match args with
  | [name] =>
      let n ← check (symArg C name)
      match s with
      | .obj c => methodAlloc C c s n true
      | _ => Exec.orPanic none
  | _ => argnumError args.length "1"

/-- Whether an object has another value, or none, for a variable. -/
def variableDiffers (name : Sym) (v : Value) (object : HeapObject) : Bool :=
  object.ivar? name != some v

/-- The receiver a method object is run on: the one given, checked, or its
own. -/
def receiverFor
    (parts : MethodParts)
    (recv : Option Value)
    (vm : Vm) : Except VmError Value :=
  match recv with
  | some r => do
      bindCheck C r parts.owner vm
      return r
  | none => .ok parts.recv

/-- Runs what a method object names on a receiver: a method that is no Proc is
found again by its owner and its name. -/
def runMethod
    (call : Call)
    (mid : Sym)
    (kw : Value)
    (parts : MethodParts)
    (recv : Value)
    (args : List Value) : Native Value :=
  if parts.missing then
    funcall C call kw recv (C.intern "method_missing") (.sym parts.name :: args)
  else
    match parts.proc with
    | .obj _ => Exec.raise .outside
    | _ =>
        match C.findMethod parts.owner parts.name with
        | some (.native f least most, _) => do
            checkAspec least most args
            call f mid kw recv args
        | some (.attrReader name, _) => read fun vm => vm.iv recv name
        | some (.attrWriter name, _) =>
            match args with
            | [v] => do
                writeUnguarded recv (variableDiffers name v)
                  (·.ivarSet name v)
                return v
            | _ => argnumError args.length "1"
        | some (.other, _) => Exec.raise .outside
        | _ => funcall C call kw recv parts.name args

def mcall
    (call : Call)
    (mid : Sym)
    (kw : Value)
    (method : Value)
    (recv : Option Value)
    (args : List Value) : Native Value := do
  let parts ← check (methodParts C method)
  let recv ← check (receiverFor C parts recv)
  runMethod C call mid kw parts recv args

def methodCall
    (call : Call)
    (mid : Sym)
    (kw : Value)
    (s : Value)
    (args : List Value) : Native Value :=
  mcall C call mid kw s none args

def unboundBindCall
    (call : Call)
    (mid : Sym)
    (kw : Value)
    (s : Value)
    (args : List Value) : Native Value :=
  match args with
  | [] => argnumError 0 "1+"
  | recv :: rest => mcall C call mid kw s (some recv) rest

def unboundBind (s : Value) (args : List Value) : Native Value := do
  match args with
  | [recv] =>
      let parts ← check (methodParts C s)
      check (bindCheck C recv parts.owner)
      newMethodObj C C.methodClass { parts with recv }
  | _ => argnumError args.length "1"

def methodUnbind (s : Value) : Native Value := do
  let parts ← check (methodParts C s)
  newMethodObj C C.unboundMethodClass { parts with recv := .nil }

end MethodObjects

/-- A native, given how the natives it calls are run. -/
def native (call : Call) : Call := fun f mid kw s args =>
  match f with
  | .structRef => structRef C mid s args
  | .structSet => structSet C mid s args
  | .structAref => structAref C s args
  | .structAset => structAset C s args
  | .structInitialize => structInitialize C kw s args
  | .structInitCopy => structInitCopy C s args
  | .structValues => structValues C s
  | .structNew => structNew C call kw s args
  | .dataInitialize => dataInitialize C kw s args
  | .dataInitCopy => dataInitCopy C s args
  | .dataWith => dataWith C kw s args
  | .dataNew => dataNew C call kw s args
  | .kernelInitCopy => kernelInitCopy C s args
  | .kernelDup => kernelDup C call kw s
  | .kernelSend => kernelSend C call kw s args
  | .kernelMethod => kernelMethod C s args
  | .moduleInstanceMethod => moduleInstanceMethod C s args
  | .methodCall => methodCall C call mid kw s args
  | .methodUnbind => methodUnbind C s
  | .unboundBind => unboundBind C s args
  | .unboundBindCall => unboundBindCall C call mid kw s args

/-- A native with so many calls nested in it. -/
def runNative : Nat → Call
  | 0 => fun _ _ _ _ _ => throw .unfinished
  | fuel + 1 => native C (runNative fuel)

/-- One call of a program. -/
def send
    (fuel : Nat)
    (recv : Value)
    (mid : Sym)
    (args : List Value)
    (kw : Value) : Native Value :=
  opSend C (runNative C fuel) kw recv mid args

end SabiRuby.Instances
