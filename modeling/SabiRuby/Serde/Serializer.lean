import SabiRuby.Serde.Data

/-!
# Rust to Ruby

The serializer makes the values of the VM.  The parts of an Array and of a Hash
are collected first, and the object is made once.
-/

namespace SabiRuby.Serde

open Library Integer

/-- How the keys are written. -/
structure Options where
  /-- Struct fields and variant names as Symbols. -/
  symbolKeys : Bool
  /-- A map's String keys as Symbols. -/
  symbolMapKeys : Bool
  deriving DecidableEq, Repr

/-- `Value::bool`. -/
def ofBool (v : Bool) : Value := if v then .trueValue else .falseValue

variable (opts : Options)

/-- A field or variant name as a key of a Hash. -/
def key (name : String) : Exec Error Vm Value :=
  if opts.symbolKeys then do
    let s ← intern name
    pure (.sym s)
  else strNew (utf8 name)

/-- A map's key as it goes into the Hash. -/
def mapKey (k : Value) : Exec Error Vm Value := do
  let vm ← get
  if !opts.symbolMapKeys || vm.strBinary k then pure k
  else
    match (vm.strBytes k).bind fromUtf8 with
    | some name => do
        let s ← intern name
        pure (.sym s)
    | none => pure k

/-- A Hash of one entry. -/
def tagged (name : String) (value : Value) : Exec Error Vm Value := do
  let k ← key opts name
  let h ← hashNew
  hashSet h k value
  pure h

/-- An integer by its decimal text. -/
def int128 (v : Int) : Exec Error Vm Value :=
  match BigInt.fromStr (display v) 10 with
  | some number => bintValue number
  | none => Exec.raise (.message s!"{v} is not an integer")

/-- `serialize_i8` … `serialize_u128`. -/
def serializeInt (kind : IntKind) (v : Int) : Exec Error Vm Value :=
  match kind with
  | .i128 | .u128 =>
      if BigInt.FitsI64 v then pure (.int (Int64.ofInt v)) else int128 v
  | .u64 =>
      if BigInt.FitsI64 v then pure (.int (Int64.ofInt v))
      else bintValue (BigInt.fromU64 (UInt64.ofNat v.toNat))
  | _ => pure (.int (Int64.ofInt v))

/-- Store the pairs one after another. -/
def storePairs (h : Value) : List (Value × Value) → Exec Error Vm Unit
  | [] => pure ()
  | (k, v) :: pairs => do
      hashSet h k v
      storePairs h pairs

/-- `build_hash`. -/
def buildHash (pairs : List (Value × Value)) : Exec Error Vm Value := do
  let h ← hashNew
  storePairs h pairs
  pure h

mutual

/-- `Serialize::serialize` with the serializer. -/
def serialize : Datum → Exec Error Vm Value
  | .bool v => pure (ofBool v)
  | .int kind v => serializeInt kind v
  | .char v => strNew (utf8 (String.singleton v))
  | .str v => strNew (utf8 v)
  | .bytes v => do
      let s ← strNew v
      strSetBinary s true
      pure s
  | .none => pure .nil
  | .some value => serialize value
  | .unit => pure .nil
  | .unitStruct => pure .nil
  | .newtypeStruct value => serialize value
  | .seq items => do
      let items ← serializeItems items
      aryNew items
  | .tuple items => do
      let items ← serializeItems items
      aryNew items
  | .tupleStruct items => do
      let items ← serializeItems items
      aryNew items
  | .map pairs => do
      let pairs ← serializePairs pairs
      buildHash pairs
  | .struct fields => do
      let pairs ← serializeFields fields
      buildHash pairs
  | .unitVariant variant => do
      let s ← intern variant
      pure (.sym s)
  | .newtypeVariant variant value => do
      let v ← serialize value
      tagged opts variant v
  | .tupleVariant variant items => do
      let items ← serializeItems items
      let a ← aryNew items
      tagged opts variant a
  | .structVariant variant fields => do
      let pairs ← serializeFields fields
      let inner ← buildHash pairs
      tagged opts variant inner

/-- `serialize_element` of each item. -/
def serializeItems : List Datum → Exec Error Vm (List Value)
  | [] => pure []
  | item :: items => do
      let v ← serialize item
      let vs ← serializeItems items
      pure (v :: vs)

/-- `serialize_key` and `serialize_value` of each pair. -/
def serializePairs :
    List (Datum × Datum) → Exec Error Vm (List (Value × Value))
  | [] => pure []
  | (k, value) :: pairs => do
      let k ← serialize k
      let k ← mapKey opts k
      let v ← serialize value
      let rest ← serializePairs pairs
      pure ((k, v) :: rest)

/-- `serialize_field` of each field. -/
def serializeFields :
    List (String × Datum) → Exec Error Vm (List (Value × Value))
  | [] => pure []
  | (name, value) :: fields => do
      let v ← serialize value
      let k ← key opts name
      let rest ← serializeFields fields
      pure ((k, v) :: rest)

end

end SabiRuby.Serde
