import SabiRuby.Library.Readers
import SabiRuby.Serde.Data
import SabiRuby.Lossy

/-!
# Reading a checkpoint image

An image is read into plain records.  Numbers are big-endian; a symbol, an irep,
an object or a context is referred to by its index from 1 into its own table, 0
being none.  Floats are their bits.
-/

namespace SabiRuby.Checkpoint

open Library
open Serde (fromUtf8)

/-! ## Records -/

/-- A value as the image writes it. -/
inductive Val
  | nil
  | false
  | true
  | int (i : Int64)
  | float (bits : UInt64)
  | sym (s : UInt32)
  | obj (o : UInt32)
  /-- The writer's "no value". -/
  | undef
  deriving DecidableEq, Repr

inductive PoolRec
  | str (s : List UInt8)
  | int (i : Int64)
  | float (bits : UInt64)
  | bigInt (b : List UInt8)
  deriving DecidableEq, Repr

structure IrepRec where
  kind : UInt8
  hash : UInt64
  nlocals : UInt16
  nregs : UInt16
  clen : UInt16
  iseq : List UInt8
  catch_ : List UInt8
  pool : List PoolRec
  syms : List UInt32
  reps : List UInt32
  lv : List UInt32
  deriving DecidableEq, Repr

/-- The class of an object that is not permanent and whether it is frozen. -/
structure Head where
  class_ : UInt32
  frozen : Bool
  deriving DecidableEq, Repr

inductive MethBody
  | proc (p : UInt32)
  | func (name : String) (spec : UInt32)
  | undef
  deriving DecidableEq, Repr

structure MethRec where
  name : UInt32
  vis : UInt8
  body : MethBody
  deriving DecidableEq, Repr

inductive ProcBody
  | irep (i : UInt32)
  | func (name : String)
  | alias (name : UInt32)
  deriving DecidableEq, Repr

inductive EnvPlace
  | stack (cx off : UInt32)
  | values (vals : List Val)
  deriving DecidableEq, Repr

abbrev Ivars := List (UInt32 × Val)

inductive ObjRec
  | perm (name : String)
  | permBody (name : String) (irep : UInt32)
  | object (head : Head) (ivars : Ivars)
  | str (head : Head) (bytes : List UInt8)
  | binStr (head : Head) (bytes : List UInt8)
  | array (head : Head) (items : List Val)
  | hash (head : Head) (flags : UInt8) (pairs : List (Val × Val))
      (ivars : Ivars)
  | range (head : Head) (first last : Val) (excl : Bool)
  | exception (head : Head) (mesg bt : Val) (ivars : Ivars)
  | class_ (head : Head) (kind : UInt8) (sup : UInt32) (inst cflags : UInt8)
      (ivars : Ivars) (methods : List MethRec)
  | iclass (head : Head) (sup : UInt32)
  | proc (head : Head) (flags : UInt8) (body : ProcBody) (upper : UInt32)
      (envKind : UInt8) (env : UInt32)
  | env (head : Head) (mid : UInt32) (len bidx vis : UInt8) (place : EnvPlace)
  | data (head : Head) (typeName : String) (blob : List UInt8) (ivars : Ivars)
  | task (head : Head) (task : UInt32) (ivars : Ivars)
  | fiber (head : Head) (ctx : UInt32)
  deriving DecidableEq, Repr

inductive PatchRec
  | methodSet (c : UInt32) (m : MethRec)
  | methodRemove (c s : UInt32)
  | ivSet (o s : UInt32) (v : Val)
  | ivRemove (o s : UInt32)
  | superSet (c s : UInt32)
  | gvSet (s : UInt32) (v : Val)
  | gvRemove (s : UInt32)
  | strSet (o : UInt32) (frozen : Bool) (bytes : List UInt8)
  | aryContents (o : UInt32) (frozen : Bool) (vals : List Val)
  deriving DecidableEq, Repr

structure FrameRec where
  cfunc : Option String
  mid : UInt32
  proc : UInt32
  base : UInt32
  pc : UInt32
  n : UInt8
  nk : UInt8
  cci : UInt8
  vis : UInt8
  blk : UInt32
  envKind : UInt8
  env : UInt32
  deriving DecidableEq, Repr

structure CtxRec where
  status : UInt8
  flags : UInt8
  prev : UInt32
  fib : UInt32
  stack : List Val
  frames : List FrameRec
  deriving DecidableEq, Repr

/-- What a waiting Task waits for. -/
inductive WaitRec
  | none
  | sleep (left : Int32)
  | join (task : UInt32)
  | queue (q : UInt32) (left : Option Int32)
  deriving DecidableEq, Repr

structure TaskRec where
  obj : UInt32
  ctx : UInt32
  status : UInt8
  queue : UInt8
  priority : UInt8
  reason : UInt8
  timeslice : UInt8
  name : Val
  result : Val
  wait : WaitRec
  deriving DecidableEq, Repr

structure SchedRec where
  switchPending : Bool
  loopRunning : Bool
  unit : UInt16
  tick : UInt32
  wakeup : Option Int32
  tasks : List TaskRec
  running : UInt32
  host : UInt32
  deriving DecidableEq, Repr

/-- An irep, its file, and where its lines change. -/
abbrev LinesRec := UInt32 × String × List (UInt32 × UInt32)

structure Image where
  version : UInt16
  writer : String
  syms : List (List UInt8)
  ireps : List IrepRec
  objs : List ObjRec
  patches : List PatchRec
  ctxs : List CtxRec
  current : UInt32
  sched : SchedRec
  lines : List LinesRec
  deriving DecidableEq, Repr

/-! ## The cursor -/

namespace Cur

abbrev R := Reader UInt8 String

def take (n : Nat) : R (List UInt8) := fun c =>
  if c.b.length - c.p < n then
    .error ("truncated image at byte " ++ toString c.p)
  else .ok ((c.b.drop c.p).take n, { c with p := c.p + n })

def u8 : R UInt8 := do
  let s ← take 1
  pure (s.getD 0 0)

def u16 : R UInt16 := do
  let s ← take 2
  pure ((s.getD 0 0).toUInt16 <<< 8 ||| (s.getD 1 0).toUInt16)

def u32 : R UInt32 := do
  let s ← take 4
  pure ((s.getD 0 0).toUInt32 <<< 24 ||| (s.getD 1 0).toUInt32 <<< 16 |||
    (s.getD 2 0).toUInt32 <<< 8 ||| (s.getD 3 0).toUInt32)

def u64 : R UInt64 := do
  let hi ← u32
  let lo ← u32
  pure (hi.toUInt64 <<< 32 ||| lo.toUInt64)

def bytes : R (List UInt8) := do
  let n ← u32
  take n.toNat

def string : R String := do
  let b ← bytes
  match fromUtf8 b with
  | some s => pure s
  | none => throw "a name in the image is not UTF-8"

def val : R Val := do
  let t ← u8
  if t = 0 then pure .nil
  else if t = 1 then pure .false
  else if t = 2 then pure .true
  else if t = 3 then do
    let i ← u64
    pure (.int i.toInt64)
  else if t = 4 then do
    let bits ← u64
    pure (.float bits)
  else if t = 5 then do
    let s ← u32
    pure (.sym s)
  else if t = 6 then do
    let o ← u32
    pure (.obj o)
  else if t = 7 then pure .undef
  else throw ("bad value tag " ++ toString t)

def ivar : R (UInt32 × Val) := do
  let s ← u32
  let v ← val
  pure (s, v)

def ivars : R Ivars := do
  let n ← u32
  ivar.many n.toNat

def head : R Head := do
  let class_ ← u32
  let frozen ← u8
  pure { class_ := class_, frozen := frozen ≠ 0 }

def method : R MethRec := do
  let name ← u32
  let vis ← u8
  let k ← u8
  if k = 0 then do
    let p ← u32
    pure { name := name, vis := vis, body := .proc p }
  else if k = 1 then do
    let f ← string
    let spec ← u32
    pure { name := name, vis := vis, body := .func f spec }
  else if k = 2 then pure { name := name, vis := vis, body := .undef }
  else throw ("bad method kind " ++ toString k)

def poolEntry : R PoolRec := do
  let t ← u8
  if t = 0 then do
    let s ← bytes
    pure (.str s)
  else if t = 1 then do
    let i ← u64
    pure (.int i.toInt64)
  else if t = 2 then do
    let bits ← u64
    pure (.float bits)
  else if t = 3 then do
    let b ← bytes
    pure (.bigInt b)
  else throw ("bad pool entry type " ++ toString t)

def irep : R IrepRec := do
  let kind ← u8
  let hash ← u64
  if kind = 1 then
    pure
      { kind := kind, hash := hash, nlocals := 0, nregs := 0, clen := 0
        iseq := [], catch_ := [], pool := [], syms := [], reps := [], lv := [] }
  else if kind = 0 ∨ kind = 2 then do
    let nlocals ← u16
    let nregs ← u16
    let clen ← u16
    let ilen ← u32
    let iseq ← take ilen.toNat
    let catch_ ← take (13 * clen.toNat)
    let plen ← u16
    let pool ← poolEntry.many plen.toNat
    let slen ← u16
    let syms ← u32.many slen.toNat
    let rlen ← u16
    let reps ← u32.many rlen.toNat
    let nlv ← u16
    let lv ← u32.many nlv.toNat
    pure
      { kind := kind, hash := hash, nlocals := nlocals, nregs := nregs
        clen := clen, iseq := iseq, catch_ := catch_, pool := pool
        syms := syms, reps := reps, lv := lv }
  else throw ("bad irep kind " ++ toString kind)

def pair : R (Val × Val) := do
  let k ← val
  let v ← val
  pure (k, v)

def procBody : R ProcBody := do
  let k ← u8
  if k = 0 then do
    let i ← u32
    pure (.irep i)
  else if k = 1 then do
    let f ← string
    let _ ← u32
    pure (.func f)
  else if k = 2 then do
    let name ← u32
    pure (.alias name)
  else throw ("bad proc body kind " ++ toString k)

def envPlace (len : UInt8) : R EnvPlace := do
  let k ← u8
  if k = 1 then do
    let cx ← u32
    let off ← u32
    pure (.stack cx off)
  else do
    let vals ← val.many len.toNat
    pure (.values vals)

/-- What a kind of object that is not read yet is called. -/
def unreadKind (kind : UInt8) : String :=
  if kind = 16 then "Integer beyond 64 bits"
  else if kind = 17 then "Struct"
  else if kind = 18 then "Set"
  else if kind = 19 then "Rational"
  else if kind = 20 then "Complex"
  else if kind = 21 then "break through ensure"
  else if kind = 23 then "Random"
  else if kind = 24 then "origin of a prepended class"
  else "?"

/-- An object that is not permanent. -/
def carried (kind : UInt8) (head : Head) : R ObjRec :=
  if kind = 2 then do
    let iv ← ivars
    pure (.object head iv)
  else if kind = 3 then do
    let s ← bytes
    pure (.str head s)
  else if kind = 25 then do
    let s ← bytes
    pure (.binStr head s)
  else if kind = 4 then do
    let n ← u32
    let items ← val.many n.toNat
    pure (.array head items)
  else if kind = 5 then do
    let flags ← u8
    let n ← u32
    let pairs ← pair.many n.toNat
    let iv ← ivars
    pure (.hash head flags pairs iv)
  else if kind = 6 then do
    let first ← val
    let last ← val
    let excl ← u8
    pure (.range head first last (excl ≠ 0))
  else if kind = 7 then do
    let mesg ← val
    let bt ← val
    let iv ← ivars
    pure (.exception head mesg bt iv)
  else if kind = 8 ∨ kind = 9 ∨ kind = 10 then do
    let sup ← u32
    let inst ← u8
    let cflags ← u8
    let iv ← ivars
    let n ← u32
    let methods ← method.many n.toNat
    pure (.class_ head kind sup inst cflags iv methods)
  else if kind = 11 then do
    let sup ← u32
    pure (.iclass head sup)
  else if kind = 12 then do
    let flags ← u8
    let body ← procBody
    let upper ← u32
    let envKind ← u8
    let env ← u32
    pure (.proc head flags body upper envKind env)
  else if kind = 13 then do
    let mid ← u32
    let len ← u8
    let bidx ← u8
    let vis ← u8
    let place ← envPlace len
    pure (.env head mid len bidx vis place)
  else if kind = 14 then do
    let typeName ← string
    let blob ← bytes
    let iv ← ivars
    pure (.data head typeName blob iv)
  else if kind = 26 then do
    let task ← u32
    let iv ← ivars
    pure (.task head task iv)
  else if kind = 27 then do
    let ctx ← u32
    pure (.fiber head ctx)
  else if 16 ≤ kind ∧ kind ≤ 24 then
    throw ("object kind " ++ toString kind ++ " (" ++ unreadKind kind ++
      ") is not carried to this VM yet")
  else throw ("bad object kind " ++ toString kind)

def object : R ObjRec := do
  let kind ← u8
  if kind = 1 then do
    let name ← string
    pure (.perm name)
  else if kind = 15 then do
    let name ← string
    let irep ← u32
    pure (.permBody name irep)
  else do
    let head ← head
    carried kind head

/-- The new contents of a permanent String or Array. -/
def contents (o : UInt32) (frozen : Bool) : R PatchRec := do
  let t ← u8
  if t = 3 then do
    let s ← bytes
    pure (.strSet o frozen s)
  else if t = 4 then do
    let n ← u32
    let vals ← val.many n.toNat
    pure (.aryContents o frozen vals)
  else if t = 5 then
    throw ("new contents of a built-in Hash (change kind 10) are not carried " ++
      "to this VM yet")
  else throw ("bad contents type " ++ toString t)

def patch : R PatchRec := do
  let k ← u8
  if k = 1 then do
    let c ← u32
    let m ← method
    pure (.methodSet c m)
  else if k = 2 then do
    let c ← u32
    let s ← u32
    pure (.methodRemove c s)
  else if k = 3 then do
    let o ← u32
    let s ← u32
    let v ← val
    pure (.ivSet o s v)
  else if k = 4 then do
    let o ← u32
    let s ← u32
    pure (.ivRemove o s)
  else if k = 5 then do
    let c ← u32
    let s ← u32
    pure (.superSet c s)
  else if k = 6 then do
    let s ← u32
    let v ← val
    pure (.gvSet s v)
  else if k = 7 then do
    let s ← u32
    pure (.gvRemove s)
  else if k = 8 then
    throw ("the state of the default Random (change kind 8) is not carried " ++
      "to this VM yet")
  else if k = 9 then
    throw ("prepended modules on a built-in class (change kind 9) are not " ++
      "carried to this VM yet")
  else if k = 10 then do
    let o ← u32
    let frozen ← u8
    contents o (frozen ≠ 0)
  else throw ("bad change kind " ++ toString k)

end Cur

end SabiRuby.Checkpoint
