import SabiRuby.Serde.Data

/-!
# Ruby to Rust

The deserializer reads a value as a type asks for it.  A type that contains
itself asks again for every value inside, so the reading takes fuel.  Of a type
only the visitors that serde makes for it are seen: a struct wants each of its
fields once, and an enum one of its variants.
-/

namespace SabiRuby.Serde

open Library Integer

/-- What reading answers. -/
abbrev Answer := Except (Stop Error)

/-- Refuse with a message. -/
def refuse (text : String) : Answer α := throw (.raised (.message text))

variable (vm : Vm)

/-- What a value is, for a message. -/
def what (value : Value) : String :=
  match value with
  | .nil => "nil"
  | .trueValue => "true"
  | .falseValue => "false"
  | .int _ => "Integer"
  | .float _ => "Float"
  | .sym _ => "Symbol"
  | .obj _ =>
      match vm.object value with
      | some object => object.className
      | none => ""

/-- `wrong`. -/
def wrong (value : Value) (wanted : String) : Answer α :=
  refuse s!"cannot deserialize {what vm value} as {wanted}"

/-- An Integer as an `i128`. -/
def asI128 (value : Value) : Option Int :=
  match value with
  | .int i => some i.toInt
  | .obj _ =>
      match vm.bigInt value with
      | none => none
      | some number =>
          match number.toI64 with
          | some i => some i.toInt
          | none => (number.toStringRadix 10).bind parseI128
  | _ => none

/-- The text of a String or a Symbol; `lossy` is the text of a Symbol whose name
is not valid. -/
def asStr (lossy : List UInt8 → String) (value : Value) : Option String :=
  match value with
  | .sym s =>
      (vm.name s).map fun bytes => (fromUtf8 bytes).getD (lossy bytes)
  | .obj _ => (vm.strBytes value).bind fromUtf8
  | _ => none

/-- `int_method!`: an Integer that fits, and nothing else. -/
def deserializeInt (kind : IntKind) (value : Value) : Answer Int :=
  match asI128 vm value with
  | some i =>
      if kind.Holds i then pure i
      else refuse s!"{i} is out of range for {kind.name}"
  | none => wrong vm value kind.name

def deserializeBool (value : Value) : Answer Bool :=
  match value with
  | .trueValue => pure true
  | .falseValue => pure false
  | _ => wrong vm value "bool"

/-- The one character of a text. -/
def oneChar (text : String) : Option Char :=
  match text.toList with
  | [c] => some c
  | _ => none

variable (lossy : List UInt8 → String)

def deserializeChar (value : Value) : Answer Char :=
  match (asStr vm lossy value).bind oneChar with
  | some c => pure c
  | none => wrong vm value "char"

def deserializeString (value : Value) : Answer String :=
  match asStr vm lossy value with
  | some text => pure text
  | none =>
      if (vm.strBytes value).isSome then
        refuse "String is not valid UTF-8; read it as bytes"
      else wrong vm value "String"

/-- The bytes of an Array of small Integers. -/
def byteSeq : List Value → Answer (List UInt8)
  | [] => pure []
  | item :: items => do
      let byte ← deserializeInt vm .u8 item
      let rest ← byteSeq items
      pure (UInt8.ofNat byte.toNat :: rest)

def deserializeByteBuf (value : Value) : Answer (List UInt8) :=
  match vm.strBytes value with
  | some bytes => pure bytes
  | none =>
      match vm.aryVals value with
      | some items => byteSeq vm items
      | none => wrong vm value "bytes"

def deserializeUnit (value : Value) : Answer Unit :=
  if value.isNil then pure () else wrong vm value "nil"

/-- The elements of an Array. -/
def deserializeSeq (value : Value) : Answer (List Value) :=
  match vm.aryVals value with
  | some items => pure items
  | none => wrong vm value "Array"

/-- The entries of a Hash. -/
def deserializeMap (value : Value) : Answer (List (Value × Value)) :=
  match vm.hashEntries value with
  | some entries => pure entries
  | none => wrong vm value "Hash"

/-! ## The visitors -/

section Visitors

variable (types : Types) (read : Shape → Value → Answer Datum)

/-- Every element. -/
def visitSeq (item : Shape) : List Value → Answer (List Datum)
  | [] => pure []
  | value :: values => do
      let first ← read item value
      let rest ← visitSeq item values
      pure (first :: rest)

/-- As many elements as there are types. -/
def visitTuple : List Shape → List Value → Answer (List Datum)
  | [], _ => pure []
  | _ :: _, [] => refuse "invalid length"
  | shape :: shapes, value :: values => do
      let first ← read shape value
      let rest ← visitTuple shapes values
      pure (first :: rest)

/-- Every entry. -/
def visitMap (key value : Shape) :
    List (Value × Value) → Answer (List (Datum × Datum))
  | [] => pure []
  | (k, v) :: entries => do
      let k ← read key k
      let v ← read value v
      let rest ← visitMap key value entries
      pure ((k, v) :: rest)

/-- The fields among the entries; an entry that is no field is passed. -/
def visitFields (fields : List (String × Shape)) :
    List (Value × Value) → List (String × Datum) →
      Answer (List (String × Datum))
  | [], seen => pure seen
  | (k, v) :: entries, seen => do
      let name ← deserializeString vm lossy k
      match fields.lookup name with
      | none => visitFields fields entries seen
      | some shape =>
          if (seen.lookup name).isSome then refuse s!"duplicate field `{name}`"
          else do
            let value ← read shape v
            visitFields fields entries (seen ++ [(name, value)])

/-- The fields in the order of the type; an option that is missing is `None`. -/
def fillFields (seen : List (String × Datum)) :
    List (String × Shape) → Answer (List (String × Datum))
  | [] => pure []
  | (name, shape) :: fields =>
      match seen.lookup name with
      | some value => do
          let rest ← fillFields seen fields
          pure ((name, value) :: rest)
      | none =>
          match types.view shape with
          | .option _ => do
              let rest ← fillFields seen fields
              pure ((name, .none) :: rest)
          | _ => refuse s!"missing field `{name}`"

/-- A struct. -/
def visitStruct (fields : List (String × Shape))
    (entries : List (Value × Value)) : Answer (List (String × Datum)) := do
  let seen ← visitFields vm lossy read fields entries []
  fillFields types seen fields

/-- The name of a variant. -/
def variantName (tag : Value) : Answer String :=
  match asStr vm lossy tag with
  | some name => pure name
  | none => wrong vm tag "a variant name (Symbol or String)"

/-- `EnumDe` and `VariantDe`. -/
def visitEnum (variants : List (String × Shape)) (tag : Value)
    (value : Option Value) : Answer Datum := do
  let name ← variantName vm lossy tag
  match variants.lookup name with
  | some .unitStruct =>
      match value with
      | none => pure (.unitVariant name)
      | some .nil => pure (.unitVariant name)
      | some _ => refuse "a unit variant carries nothing"
  | some (.newtypeStruct inner) => do
      let v ← read inner (value.getD .nil)
      pure (.newtypeVariant name v)
  | some (.tupleStruct shapes) => do
      let items ← deserializeSeq vm (value.getD .nil)
      let items ← visitTuple read shapes items
      pure (.tupleVariant name items)
  | some (.struct fields) => do
      let entries ← deserializeMap vm (value.getD .nil)
      let fields ← visitStruct vm lossy types read fields entries
      pure (.structVariant name fields)
  | _ => refuse s!"unknown variant `{name}`"

/-- `deserialize_enum`. -/
def deserializeEnum (variants : List (String × Shape)) (value : Value) :
    Answer Datum :=
  match vm.hashEntries value with
  | some [(k, v)] => visitEnum vm lossy types read variants k (some v)
  | some entries =>
      let length := entries.length
      refuse s!"a variant is a Hash of one entry, got {length}"
  | none =>
      if (asStr vm lossy value).isSome then
        visitEnum vm lossy types read variants value none
      else wrong vm value "a variant (Symbol, String or a Hash of one entry)"

end Visitors

/-- `Deserialize::deserialize` with the deserializer. -/
def deserialize (types : Types) : Nat → Shape → Value → Answer Datum
  | 0, _, _ => throw .unfinished
  | fuel + 1, shape, value =>
      let read := deserialize types fuel
      match types.view shape with
      | .bool => .bool <$> deserializeBool vm value
      | .int kind => .int kind <$> deserializeInt vm kind value
      | .char => .char <$> deserializeChar vm lossy value
      | .str => .str <$> deserializeString vm lossy value
      | .bytes => .bytes <$> deserializeByteBuf vm value
      | .option inner =>
          if value.isNil then pure .none else .some <$> read inner value
      | .unit => (fun _ => .unit) <$> deserializeUnit vm value
      | .unitStruct => (fun _ => .unitStruct) <$> deserializeUnit vm value
      | .newtypeStruct inner => .newtypeStruct <$> read inner value
      | .seq item => do
          let items ← deserializeSeq vm value
          .seq <$> visitSeq read item items
      | .tuple shapes => do
          let items ← deserializeSeq vm value
          .tuple <$> visitTuple read shapes items
      | .tupleStruct shapes => do
          let items ← deserializeSeq vm value
          .tupleStruct <$> visitTuple read shapes items
      | .map k v => do
          let entries ← deserializeMap vm value
          .map <$> visitMap read k v entries
      | .struct fields => do
          let entries ← deserializeMap vm value
          .struct <$> visitStruct vm lossy types read fields entries
      | .enum variants =>
          deserializeEnum vm lossy types read variants value
      | .named _ => throw .panicked

end SabiRuby.Serde
