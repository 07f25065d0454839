import SabiRuby.HashTable.SetKey
import SabiRuby.Integer.Text

/-!
# The data model of serde and the values of the VM

A value of a Rust type is seen here as its `Serialize` presents it, and a type as
its `Deserialize` asks for it.  The VM keeps a table of symbols and a heap; no
object moves or goes away during a conversion, so a new object is the next one.
-/

namespace SabiRuby.Serde

open Library Integer

/-! ## The data model -/

/-- The integer types. -/
inductive IntKind
  | i8 | i16 | i32 | i64 | i128
  | u8 | u16 | u32 | u64 | u128
  deriving DecidableEq, Repr

namespace IntKind

/-- The least number of the type. -/
def least : IntKind → Int
  | .i8 => -2 ^ 7
  | .i16 => -2 ^ 15
  | .i32 => -2 ^ 31
  | .i64 => -2 ^ 63
  | .i128 => -2 ^ 127
  | _ => 0

/-- The largest number of the type. -/
def largest : IntKind → Int
  | .i8 => 2 ^ 7 - 1
  | .i16 => 2 ^ 15 - 1
  | .i32 => 2 ^ 31 - 1
  | .i64 => 2 ^ 63 - 1
  | .i128 => 2 ^ 127 - 1
  | .u8 => 2 ^ 8 - 1
  | .u16 => 2 ^ 16 - 1
  | .u32 => 2 ^ 32 - 1
  | .u64 => 2 ^ 64 - 1
  | .u128 => 2 ^ 128 - 1

/-- The number is one of the type. -/
def Holds (kind : IntKind) (number : Int) : Prop :=
  kind.least ≤ number ∧ number ≤ kind.largest

instance (kind : IntKind) (number : Int) : Decidable (kind.Holds number) :=
  inferInstanceAs (Decidable (_ ∧ _))

/-- The name of the type. -/
def name : IntKind → String
  | .i8 => "i8"
  | .i16 => "i16"
  | .i32 => "i32"
  | .i64 => "i64"
  | .i128 => "i128"
  | .u8 => "u8"
  | .u16 => "u16"
  | .u32 => "u32"
  | .u64 => "u64"
  | .u128 => "u128"

end IntKind

/-- A value as its type's `Serialize` presents it. -/
inductive Datum
  | bool (v : Bool)
  | int (kind : IntKind) (v : Int)
  | char (v : Char)
  | str (v : String)
  | bytes (v : List UInt8)
  | none
  | some (value : Datum)
  | unit
  | unitStruct
  | newtypeStruct (value : Datum)
  | seq (items : List Datum)
  | tuple (items : List Datum)
  | tupleStruct (items : List Datum)
  | map (pairs : List (Datum × Datum))
  | struct (fields : List (String × Datum))
  | unitVariant (variant : String)
  | newtypeVariant (variant : String) (value : Datum)
  | tupleVariant (variant : String) (items : List Datum)
  | structVariant (variant : String) (fields : List (String × Datum))

/-- A type as its `Deserialize` asks for it.  A variant of an enum is asked for
as a struct of its kind, and a type that contains itself by its name. -/
inductive Shape
  | bool
  | int (kind : IntKind)
  | char
  | str
  | bytes
  | option (value : Shape)
  | unit
  | unitStruct
  | newtypeStruct (value : Shape)
  | seq (item : Shape)
  | tuple (items : List Shape)
  | tupleStruct (items : List Shape)
  | map (key value : Shape)
  | struct (fields : List (String × Shape))
  | enum (variants : List (String × Shape))
  | named (index : Nat)

/-- What the names of types stand for. -/
def Types := Nat → Shape

/-- The type itself where it is given by its name. -/
def Types.view (types : Types) : Shape → Shape
  | .named index => types index
  | shape => shape

/-- The value serializes to `nil`. -/
def Datum.writesNil : Datum → Bool
  | .none => true
  | .unit => true
  | .unitStruct => true
  | .some value => value.writesNil
  | .newtypeStruct value => value.writesNil
  | _ => false

/-- The keys of the maps: integers and strings. -/
def Datum.isKey : Datum → Bool
  | .int _ _ => true
  | .str _ => true
  | _ => false

mutual

/-- The value is one of the type, its maps have pairwise different integers or
strings as keys, and no `Some` holds a value that serializes to `nil`. -/
def Datum.HasShape (types : Types) : Datum → Shape → Prop
  | .bool _, shape => types.view shape = .bool
  | .int kind v, shape => types.view shape = .int kind ∧ kind.Holds v
  | .char _, shape => types.view shape = .char
  | .str _, shape => types.view shape = .str
  | .bytes _, shape => types.view shape = .bytes
  | .none, shape => ∃ inner, types.view shape = .option inner
  | .some value, shape => ∃ inner, types.view shape = .option inner ∧
      value.HasShape types inner ∧ value.writesNil = false
  | .unit, shape => types.view shape = .unit
  | .unitStruct, shape => types.view shape = .unitStruct
  | .newtypeStruct value, shape =>
      ∃ inner, types.view shape = .newtypeStruct inner ∧
        value.HasShape types inner
  | .seq items, shape =>
      ∃ item, types.view shape = .seq item ∧ AllHaveShape types items item
  | .tuple items, shape =>
      ∃ shapes, types.view shape = .tuple shapes ∧
        HaveShapes types items shapes
  | .tupleStruct items, shape =>
      ∃ shapes, types.view shape = .tupleStruct shapes ∧
        HaveShapes types items shapes
  | .map pairs, shape =>
      ∃ key value, types.view shape = .map key value ∧
        PairsHaveShape types pairs key value ∧ (pairs.map (·.1)).Nodup
  | .struct fields, shape =>
      ∃ shapes, types.view shape = .struct shapes ∧
        FieldsHaveShapes types fields shapes ∧ (shapes.map (·.1)).Nodup
  | .unitVariant variant, shape =>
      ∃ variants, types.view shape = .enum variants ∧
        variants.lookup variant = some .unitStruct
  | .newtypeVariant variant value, shape =>
      ∃ variants inner, types.view shape = .enum variants ∧
        variants.lookup variant = some (.newtypeStruct inner) ∧
        value.HasShape types inner
  | .tupleVariant variant items, shape =>
      ∃ variants shapes, types.view shape = .enum variants ∧
        variants.lookup variant = some (.tupleStruct shapes) ∧
        HaveShapes types items shapes
  | .structVariant variant fields, shape =>
      ∃ variants shapes, types.view shape = .enum variants ∧
        variants.lookup variant = some (.struct shapes) ∧
        FieldsHaveShapes types fields shapes ∧ (shapes.map (·.1)).Nodup

/-- Every item is of the type. -/
def AllHaveShape (types : Types) : List Datum → Shape → Prop
  | [], _ => True
  | item :: items, shape =>
      item.HasShape types shape ∧ AllHaveShape types items shape

/-- The items are of the types in order. -/
def HaveShapes (types : Types) : List Datum → List Shape → Prop
  | [], shapes => shapes = []
  | item :: items, shapes => ∃ shape rest, shapes = shape :: rest ∧
      item.HasShape types shape ∧ HaveShapes types items rest

/-- The keys and the values are of their types. -/
def PairsHaveShape (types : Types) :
    List (Datum × Datum) → Shape → Shape → Prop
  | [], _, _ => True
  | (key, value) :: pairs, keyShape, valueShape =>
      key.HasShape types keyShape ∧ key.isKey = true ∧
        value.HasShape types valueShape ∧
        PairsHaveShape types pairs keyShape valueShape

/-- The fields have the names and are of the types in order. -/
def FieldsHaveShapes (types : Types) :
    List (String × Datum) → List (String × Shape) → Prop
  | [], shapes => shapes = []
  | (name, value) :: fields, shapes =>
      ∃ shape rest, shapes = (name, shape) :: rest ∧
        value.HasShape types shape ∧ FieldsHaveShapes types fields rest

end

/-! ## The VM -/

inductive ObjKind
  | string (bytes : List UInt8)
  | bigInt (number : BigInt)
  | array (items : List Value)
  /-- The entries of a Hash in insertion order. -/
  | hash (entries : List (Value × Value))
  | other

structure HeapObject where
  className : String
  kind : ObjKind
  frozen : Bool
  /-- A String that is bytes and not text. -/
  binary : Bool

/-- An object as it is made. -/
def HeapObject.fresh (className : String) (kind : ObjKind) : HeapObject where
  className := className
  kind := kind
  frozen := false
  binary := false

structure Vm where
  /-- The names of the symbols. -/
  syms : List (List UInt8)
  heap : List HeapObject

inductive VmError
  | typeError (message : String)
  | frozenError (object : Value)
  deriving DecidableEq, Repr

/-- What goes wrong in a conversion. -/
inductive Error
  | message (text : String)
  | vm (error : VmError)
  deriving DecidableEq, Repr

/-- The bytes of a text. -/
def utf8 (text : String) : List UInt8 := text.toByteArray.data.toList

/-- The text of bytes, where they are one. -/
def fromUtf8 (bytes : List UInt8) : Option String :=
  String.fromUTF8? (ByteArray.mk bytes.toArray)

namespace Vm

/-- The object of a value. -/
def object (vm : Vm) : Value → Option HeapObject
  | .obj o => vm.heap[o.index]?
  | _ => none

/-- The bytes of a String. -/
def strBytes (vm : Vm) (v : Value) : Option (List UInt8) :=
  match vm.object v with
  | some object =>
      match object.kind with
      | .string bytes => some bytes
      | _ => none
  | none => none

/-- The value is a String of bytes. -/
def strBinary (vm : Vm) (v : Value) : Bool :=
  match vm.object v with
  | some object =>
      match object.kind with
      | .string _ => object.binary
      | _ => false
  | none => false

/-- The number of a wide Integer. -/
def bigInt (vm : Vm) (v : Value) : Option BigInt :=
  match vm.object v with
  | some object =>
      match object.kind with
      | .bigInt number => some number
      | _ => none
  | none => none

/-- The elements of an Array. -/
def aryVals (vm : Vm) (v : Value) : Option (List Value) :=
  match vm.object v with
  | some object =>
      match object.kind with
      | .array items => some items
      | _ => none
  | none => none

/-- The entries of a Hash. -/
def hashEntries (vm : Vm) (v : Value) : Option (List (Value × Value)) :=
  match vm.object v with
  | some object =>
      match object.kind with
      | .hash entries => some entries
      | _ => none
  | none => none

/-- The name of a symbol. -/
def name (vm : Vm) (s : Sym) : Option (List UInt8) :=
  vm.syms[s.number.toNat]?

end Vm

/-! ## Making objects -/

/-- The symbol of a name: the one it has, or the next one. -/
def intern (name : String) : Exec Error Vm Sym := do
  let vm ← get
  match vm.syms.findIdx? (· == utf8 name) with
  | some index => pure ⟨UInt32.ofNat index⟩
  | none => do
      set { vm with syms := vm.syms ++ [utf8 name] }
      pure ⟨UInt32.ofNat vm.syms.length⟩

/-- `Heap::alloc`. -/
def alloc (className : String) (kind : ObjKind) : Exec Error Vm Value := do
  let vm ← get
  set { vm with heap := vm.heap ++ [HeapObject.fresh className kind] }
  pure (.obj ⟨vm.heap.length⟩)

/-- Change the object of a value. -/
def update (v : Value) (change : HeapObject → HeapObject) :
    Exec Error Vm Unit :=
  match v with
  | .obj o => modify fun vm => { vm with heap := vm.heap.modify o.index change }
  | _ => pure ()

def strNew (bytes : List UInt8) : Exec Error Vm Value :=
  alloc "String" (.string bytes)

def strSetBinary (v : Value) (binary : Bool) : Exec Error Vm Unit :=
  update v fun object => { object with binary := binary }

def aryNew (items : List Value) : Exec Error Vm Value :=
  alloc "Array" (.array items)

def hashNew : Exec Error Vm Value := alloc "Hash" (.hash [])

/-- A wide Integer where the number is wide. -/
def bintValue (number : BigInt) : Exec Error Vm Value :=
  match number.toI64 with
  | some i => pure (.int i)
  | none => alloc "Integer" (.bigInt number)

/-! ## Hashes -/

/-- What `eql?` compares of a key. -/
inductive KeyContent
  | integer (number : Int)
  | text (bytes : List UInt8)
  | word (v : Value)
  deriving DecidableEq

/-- What `eql?` compares of a key: of an Integer the number, of a String the
bytes.  Another object counts as itself. -/
def Vm.content (vm : Vm) (key : Value) : KeyContent :=
  match key with
  | .int i => .integer i.toInt
  | key =>
      match vm.strBytes key, vm.bigInt key with
      | some bytes, _ => .text bytes
      | _, some number => .integer number.toInt
      | _, _ => .word key

/-- An unfrozen String key is stored as a frozen copy. -/
def hKeyFor (key : Value) : Exec Error Vm Value := do
  let vm ← get
  match vm.object key with
  | some object =>
      match object.kind with
      | .string bytes =>
          if object.frozen then pure key
          else do
            let copy ← strNew bytes
            update copy fun object => { object with frozen := true }
            pure copy
      | _ => pure key
  | none => pure key

/-- A store into the entries of a Hash.  A Hash with as many entries as its index
has room for takes no more. -/
def hSet (h : Value) (entries : List (Value × Value)) (key value : Value) :
    Exec Error Vm Unit := do
  let vm ← get
  let same := fun stored => decide (vm.content stored = vm.content key)
  match AssociationList.lookup same entries with
  | some p =>
      update h fun object => { object with
        kind := .hash (AssociationList.overwrite p value entries) }
  | none =>
      if entries.length < HashTable.indexLimit then do
        let key ← hKeyFor key
        update h fun object => { object with
          kind := .hash (entries ++ [(key, value)]) }
      else pure ()

/-- `h[k] = v`. -/
def hashSet (h key value : Value) : Exec Error Vm Unit := do
  let vm ← get
  match vm.object h with
  | none => Exec.raise (.vm (.typeError "not a hash"))
  | some object =>
      match object.kind with
      | .hash entries =>
          if object.frozen then Exec.raise (.vm (.frozenError h))
          else hSet h entries key value
      | _ => Exec.raise (.vm (.typeError "not a hash"))

end SabiRuby.Serde
