import SabiRuby.SetTable.Algorithm
import SabiRuby.Integer.Denotation

/-!
# The builtin `hash` and `eql?`

The equality and the hash code of keys whose class is builtin and keeps its own
methods.  Both are sent down the same objects, but are written apart: a lookup
hashes immediates and Strings itself and sends `hash` to the rest, and compares
Integers, Floats and Strings itself and sends `eql?` to the rest.

No method called here changes an object, so a comparison is a function of the
heap.  It has no answer where the sends nest too deep.
-/

namespace SabiRuby.KeyCodes

open HashTable SetTable Integer

/-- An Integer too wide for an immediate, as the machine keeps it. -/
structure WideInteger where
  /-- The number. -/
  value : BigInt
  /-- No leading zero limb, and no negative zero. -/
  formed : value.WellFormed
  /-- A number that fits is an immediate. -/
  wide : value.toI64 = none

/-- The contents of an object that is a key.  A class makes objects of one kind,
so only a Struct or Data instance names its class here. -/
inductive ObjKind
  | string (bytes : List UInt8)
  | bigInt (number : WideInteger)
  /-- What a host object names. -/
  | data (tag : UInt32) (handle : UInt64)
  | time (sec nsec : Int64) (utc : Bool)
  | set (table : HashData)
  /-- An instance of a Struct class. -/
  | struct (realClass : ObjId) (values : List Value)
  /-- An instance of a `Data.define` class. -/
  | record (realClass : ObjId) (values : List Value)

/-- The objects by handle. -/
abbrev Heap := ObjId → ObjKind

/-- The elements of a Set, the first added first. -/
def elements (table : HashData) : List Value := table.entries.map (·.1)

/-! ## Hash codes -/

/-- The 64-bit FNV-1a hash of bytes. -/
def fnvWord (bytes : List UInt8) : UInt64 :=
  bytes.foldl (fun h b => (h ^^^ b.toUInt64) * 0x100000001b3) 0xcbf29ce484222325

/-- The hash of bytes as an Integer that is not negative. -/
def fnv (bytes : List UInt8) : Int64 := (fnvWord bytes >>> 1).toInt64

/-- The four bytes of a limb, the low one first. -/
def limbBytes (limb : UInt32) : List UInt8 :=
  [limb.toUInt8, (limb >>> 8).toUInt8, (limb >>> 16).toUInt8,
    (limb >>> 24).toUInt8]

/-- The limbs and the sign of a wide Integer. -/
def hashBytes (number : BigInt) : List UInt8 :=
  number.mag.flatMap limbBytes ++ [if number.neg then 0xff else 1]

/-- The hash of an object by its identity. -/
def identityHash (object : ObjId) : Int64 :=
  ((UInt64.ofNat object.index + 1) * 8).toInt64

/-- `Object#hash`. -/
def valueHash (heap : Heap) : Value → Int64
  | .obj object =>
      match heap object with
      | .string bytes => fnv bytes
      | .bigInt number => fnv (hashBytes number.value)
      | .data tag handle => fnv (limbBytes tag ++ leBytes handle)
      | _ => identityHash object
  | .int number => number
  | .float number => number.bits.toInt64 >>> 1
  | .sym symbol => symbol.number.toUInt64.toInt64 * 31 + 7
  | .nil => 8
  | .trueValue => 20
  | .falseValue => 0

/-- `Time#hash`. -/
def timeHash (sec nsec : Int64) (utc : Bool) : Int64 :=
  let h := fnvWord (leBytes sec.toUInt64 ++ leBytes nsec.toUInt64 ++
    [if utc then 1 else 0])
  h.toUInt32.toUInt64.toInt64

/-- The odd number the hashes of the elements of a Set are spread by. -/
def GOLDEN_RATIO_PRIME : UInt64 := 0x9e3779b97f4a7c15

/-- One element's part of the hash of its Set. -/
def elementHash (answer : Int64) : UInt64 :=
  answer.toUInt64.toUInt32.toUInt64 * GOLDEN_RATIO_PRIME

/-- `Set#hash`. -/
def setHash (heap : Heap) (table : HashData) : Int64 :=
  let n := UInt64.ofNat table.len
  let h := (elements table).foldl
    (fun h e => h ^^^ elementHash (valueHash heap e)) (n * GOLDEN_RATIO_PRIME)
  (h ^^^ (h >>> 32)).toInt64

/-- What an object answers to `hash`.  A Struct and a Data instance have
`Object#hash`. -/
def hashMethod (heap : Heap) (object : ObjId) : Int64 :=
  match heap object with
  | .time sec nsec utc => timeHash sec nsec utc
  | .set table => setHash heap table
  | _ => valueHash heap (.obj object)

/-- The type number of an object: Struct and Data instances are Arrays, Times
are plain objects. -/
def vtype : ObjKind → UInt32
  | .string _ => 18
  | .bigInt _ => 27
  | .data _ _ => 13
  | .time _ _ _ => 8
  | .set _ => 12
  | .struct _ _ => 17
  | .record _ _ => 17

/-- The code a Hash and a Set look a key up by. -/
def keyCode (heap : Heap) : Value → UInt32
  | .nil => mix 0
  | .falseValue => mix 2
  | .trueValue => mix 6
  | .int number => mix (intCode number)
  | .sym symbol => mix symbol.number
  | .float number => mix (floatCode number)
  | .obj object =>
      match heap object with
      | .string bytes => mix (byteHash bytes)
      | kind => mix (vtype kind ^^^ intCode (hashMethod heap object))

/-! ## Equality -/

/-- What a host object names. -/
def dataOf (heap : Heap) : Value → Option (UInt32 × UInt64)
  | .obj object =>
      match heap object with
      | .data tag handle => some (tag, handle)
      | _ => none
  | _ => none

/-- `Object#eql?`. -/
def sameValue (heap : Heap) (a b : Value) : Bool :=
  a.eq b ||
    match dataOf heap a, dataOf heap b with
    | some x, some y => x == y
    | _, _ => false

/-- The bytes of a String. -/
def strBytes (heap : Heap) : Value → Option (List UInt8)
  | .obj object =>
      match heap object with
      | .string bytes => some bytes
      | _ => none
  | _ => none

/-- The class of the value has `Object#eql?`. -/
def eqlBasic (heap : Heap) : Value → Bool
  | .nil | .falseValue | .trueValue | .sym _ => true
  | .int _ | .float _ => false
  | .obj object =>
      match heap object with
      | .data _ _ => true
      | _ => false

section Comparisons

variable (heap : Heap) (send : Value → Value → Option Bool)

/-- The same value; Integers, Floats and Strings are compared here, and
`Object#eql?` is not sent. -/
def mrbEql (a b : Value) : Option Bool :=
  if sameWord a b then some true
  else
    let general :=
      if eqlBasic heap a then some (sameValue heap a b) else send a b
    match a with
    | .int _ => some (a.eq b)
    | .float _ => some (a.eq b)
    | .obj _ =>
        match strBytes heap a with
        | some bytes => some (strBytes heap b == some bytes)
        | none => general
    | _ => general

/-- The comparison of the key asked about with a stored one. -/
def hObjEql (a b : Value) : Option Bool :=
  match a with
  | .sym _ => some (a.eq b)
  | .int _ => some (a.eq b)
  | .float x =>
      match b with
      | .float y => some (floatEql x y)
      | _ => some false
  | .obj _ =>
      match strBytes heap a with
      | some bytes => some (strBytes heap b == some bytes)
      | none => mrbEql heap send a b
  | _ => mrbEql heap send a b

/-- The comparison of a stored element with the one asked about. -/
def ksetEqual (a b : Value) : Option Bool :=
  match a with
  | .sym _ => some (a.eq b)
  | .int _ => some (a.eq b)
  | .float x =>
      match b with
      | .float y => some (x.eq y)
      | _ => some false
  | .obj _ =>
      match strBytes heap a with
      | some bytes => some (strBytes heap b == some bytes)
      | none => mrbEql heap send a b
  | _ => mrbEql heap send a b

/-- The search of a Set without a table. -/
def khGetSmall (key : Value) : List Value → Option Bool
  | [] => some false
  | stored :: rest => do
      if ← ksetEqual heap send stored key then some true
      else khGetSmall key rest

/-- The search of a Set in its table from bucket `b` on. -/
def khGetLoop (table : HashData) (key : Value) (mask : Nat) :
    Nat → Nat → Nat → Option Bool
  | 0, _, _ => some false
  | left + 1, b, step =>
      match table.bucket b with
      | .empty => some false
      | .deleted =>
          khGetLoop table key mask left (nextBucket mask b (step + 1)) (step + 1)
      | .live v => do
          if ← ksetEqual heap send ((table.keyAt v).getD .nil) key then some true
          else
            khGetLoop table key mask left (nextBucket mask b (step + 1))
              (step + 1)

/-- The value is an element of the Set. -/
def setContains (table : HashData) (key : Value) : Option Bool :=
  if table.isHt then
    let n := table.ib.length
    let mask := lookupMask n
    khGetLoop heap send table key mask n
      ((keyCode heap key).toNat &&& mask) 0
  else khGetSmall heap send key (elements table)

/-- Every value is an element of the Set. -/
def allIn (table : HashData) : List Value → Option Bool
  | [] => some true
  | e :: rest => do
      if ← setContains heap send table e then allIn table rest else some false

/-- `Set#eql?`. -/
def setEqual (x : ObjId) (table : HashData) (b : Value) : Option Bool :=
  match b with
  | .obj y =>
      if x = y then some true
      else
        match heap y with
        | .set other =>
            if table.len ≠ other.len then some false
            else allIn heap send other (elements table)
        | _ => some false
  | _ => some false

/-- The members one by one. -/
def compareValues : List Value → List Value → Option Bool
  | v :: vs, w :: ws => do
      if ← send v w then compareValues vs ws else some false
  | _, _ => some true

end Comparisons

/-- `Integer#eql?` of a wide Integer. -/
def bigIntEql (heap : Heap) (number : BigInt) : Value → Bool
  | .int q => number.cmp (.fromI64 q) == .eq
  | .obj y =>
      match heap y with
      | .bigInt q => number.cmp q.value == .eq
      | _ => false
  | _ => false

/-- What a value answers to `eql?`, with `depth` sends left to nest and the pairs
of Struct instances that are being compared. -/
def eqlMethod (heap : Heap) :
    Nat → List (ObjId × ObjId) → Value → Value → Option Bool
  | 0, _, _, _ => none
  | depth + 1, guard, a, b =>
      match a with
      | .int p =>
          match b with
          | .int q => some (p == q)
          | _ => some false
      | .float p =>
          match b with
          | .float q => some (p.eq q)
          | _ => some false
      | .obj x =>
          match heap x with
          | .string bytes => some (strBytes heap b == some bytes)
          | .bigInt number => some (bigIntEql heap number.value b)
          | .data _ _ => some (sameValue heap b a)
          | .time sec nsec _ =>
              match b with
              | .obj y =>
                  match heap y with
                  | .time sec' nsec' _ => some (sec == sec' && nsec == nsec')
                  | _ => some false
              | _ => some false
          | .set table => setEqual heap (eqlMethod heap depth guard) x table b
          | .struct realClass values =>
              match b with
              | .obj y =>
                  if x = y then some true
                  else
                    match heap y with
                    | .struct realClass' values' =>
                        if realClass ≠ realClass' then some false
                        else if values.length ≠ values'.length then some false
                        else if (x, y) ∈ guard then some true
                        else
                          compareValues (eqlMethod heap depth ((x, y) :: guard))
                            values values'
                    | _ => some false
              | _ => some false
          | .record realClass values =>
              match b with
              | .obj y =>
                  if x = y then some true
                  else
                    match heap y with
                    | .record realClass' values' =>
                        if realClass ≠ realClass' then some false
                        else if values.length ≠ values'.length then some false
                        else
                          compareValues (eqlMethod heap depth guard)
                            values values'
                    | _ => some false
              | _ => some false
      | _ => some (sameValue heap b a)

end SabiRuby.KeyCodes
