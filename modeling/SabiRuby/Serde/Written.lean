import SabiRuby.Serde.Hashes

/-!
# What the serializer writes

How a value looks in the VM once it is written: an Integer is wide only where it
has to be, a name is a String or a Symbol, and of a map or a struct the Hash has
the entries it has room for.  The serializer writes every value so, and nothing
that comes later changes that.
-/

namespace SabiRuby.Serde

open Library Integer

/-! ## Texts -/

theorem fromUtf8_utf8 (text : String) : fromUtf8 (utf8 text) = some text := by
  have bytes : ByteArray.mk (utf8 text).toArray = text.toByteArray := by
    simp [utf8]
  unfold fromUtf8
  rw [bytes]
  unfold String.fromUTF8?
  rw [dif_pos text.isValidUTF8]
  rfl

theorem utf8_injective (same : utf8 text = utf8 other) : text = other := by
  have read := fromUtf8_utf8 text
  rw [same, fromUtf8_utf8 other] at read
  exact (Option.some.inj read).symm

/-! ## The relation -/

/-- The Integer that stands for a number. -/
def IsInteger (vm : Vm) (number : Int) (w : Value) : Prop :=
  BigInt.FitsI64 number ∧ w = .int (Int64.ofInt number) ∨
    ¬BigInt.FitsI64 number ∧ ∃ wide, vm.bigInt w = some wide ∧
      wide.WellFormed ∧ wide.toInt = number

/-- A String or a Symbol that is a name. -/
def IsName (vm : Vm) (name : String) (w : Value) : Prop :=
  vm.strBytes w = some (utf8 name) ∨
    ∃ s, w = .sym s ∧ vm.name s = some (utf8 name)

/-- The key of a map. -/
def KeyWritten (vm : Vm) : Datum → Value → Prop
  | .int _ v, w => IsInteger vm v w
  | .str v, w => IsName vm v w
  | _, _ => False

mutual

/-- The value as it is written. -/
def Datum.Written (vm : Vm) : Datum → Value → Prop
  | .bool v, w => w = ofBool v
  | .int _ v, w => IsInteger vm v w
  | .char v, w => vm.strBytes w = some (utf8 (String.singleton v))
  | .str v, w => vm.strBytes w = some (utf8 v)
  | .bytes v, w => vm.strBytes w = some v
  | .none, w => w = .nil
  | .some value, w => value.Written vm w
  | .unit, w => w = .nil
  | .unitStruct, w => w = .nil
  | .newtypeStruct value, w => value.Written vm w
  | .seq items, w =>
      ∃ ws, vm.aryVals w = some ws ∧ ItemsWritten vm items ws
  | .tuple items, w =>
      ∃ ws, vm.aryVals w = some ws ∧ ItemsWritten vm items ws
  | .tupleStruct items, w =>
      ∃ ws, vm.aryVals w = some ws ∧ ItemsWritten vm items ws
  | .map pairs, w => ∃ stored,
      vm.hashEntries w = some (stored.take HashTable.indexLimit) ∧
        PairsWritten vm pairs stored
  | .struct fields, w => ∃ stored,
      vm.hashEntries w = some (stored.take HashTable.indexLimit) ∧
        FieldsWritten vm fields stored
  | .unitVariant variant, w =>
      ∃ s, w = .sym s ∧ vm.name s = some (utf8 variant)
  | .newtypeVariant variant value, w => ∃ k inner,
      vm.hashEntries w = some [(k, inner)] ∧ IsName vm variant k ∧
        value.Written vm inner
  | .tupleVariant variant items, w => ∃ k inner ws,
      vm.hashEntries w = some [(k, inner)] ∧ IsName vm variant k ∧
        vm.aryVals inner = some ws ∧ ItemsWritten vm items ws
  | .structVariant variant fields, w => ∃ k inner stored,
      vm.hashEntries w = some [(k, inner)] ∧ IsName vm variant k ∧
        vm.hashEntries inner = some (stored.take HashTable.indexLimit) ∧
        FieldsWritten vm fields stored

/-- The items as they are written. -/
def ItemsWritten (vm : Vm) : List Datum → List Value → Prop
  | [], ws => ws = []
  | item :: items, ws => ∃ w rest, ws = w :: rest ∧ item.Written vm w ∧
      ItemsWritten vm items rest

/-- The pairs as they are written. -/
def PairsWritten (vm : Vm) :
    List (Datum × Datum) → List (Value × Value) → Prop
  | [], ws => ws = []
  | (key, value) :: pairs, ws => ∃ k w rest, ws = (k, w) :: rest ∧
      KeyWritten vm key k ∧ value.Written vm w ∧ PairsWritten vm pairs rest

/-- The fields as they are written. -/
def FieldsWritten (vm : Vm) :
    List (String × Datum) → List (Value × Value) → Prop
  | [], ws => ws = []
  | (name, value) :: fields, ws => ∃ k w rest, ws = (k, w) :: rest ∧
      IsName vm name k ∧ value.Written vm w ∧ FieldsWritten vm fields rest

end

/-! ## It stays written -/

variable {vm after : Vm}

section

variable (extended : vm.Extends after)
include extended

theorem IsInteger.extends
    (written : IsInteger vm number w) : IsInteger after number w := by
  rcases written with fits | ⟨wide, big, held, formed⟩
  · exact Or.inl fits
  · exact Or.inr ⟨wide, big, extended.bigInt held, formed⟩

theorem IsName.extends
    (written : IsName vm name w) : IsName after name w := by
  rcases written with held | ⟨s, isSym, named⟩
  · exact Or.inl (extended.strBytes held)
  · exact Or.inr ⟨s, isSym, extended.name named⟩

theorem KeyWritten.extends
    (written : KeyWritten vm label w) : KeyWritten after label w := by
  cases label with
  | int kind v => exact IsInteger.extends extended written
  | str v => exact IsName.extends extended written
  | _ => exact written.elim

end

mutual

variable {vm after : Vm}

theorem Datum.Written.extends
    (extended : vm.Extends after) :
    ∀ (v : Datum) {w : Value}, v.Written vm w → v.Written after w
  | .bool _, _, written => written
  | .int _ _, _, written => IsInteger.extends extended written
  | .char _, _, written => extended.strBytes written
  | .str _, _, written => extended.strBytes written
  | .bytes _, _, written => extended.strBytes written
  | .none, _, written => written
  | .some value, _, written => Datum.Written.extends extended value written
  | .unit, _, written => written
  | .unitStruct, _, written => written
  | .newtypeStruct value, _, written =>
      Datum.Written.extends extended value written
  | .seq items, _, ⟨ws, held, written⟩ =>
      ⟨ws, extended.aryVals held,
        ItemsWritten.extends extended items written⟩
  | .tuple items, _, ⟨ws, held, written⟩ =>
      ⟨ws, extended.aryVals held,
        ItemsWritten.extends extended items written⟩
  | .tupleStruct items, _, ⟨ws, held, written⟩ =>
      ⟨ws, extended.aryVals held,
        ItemsWritten.extends extended items written⟩
  | .map pairs, _, ⟨stored, held, written⟩ =>
      ⟨stored, extended.hashEntries held,
        PairsWritten.extends extended pairs written⟩
  | .struct fields, _, ⟨stored, held, written⟩ =>
      ⟨stored, extended.hashEntries held,
        FieldsWritten.extends extended fields written⟩
  | .unitVariant _, _, ⟨s, isSym, named⟩ => ⟨s, isSym, extended.name named⟩
  | .newtypeVariant _ value, _, ⟨k, inner, held, named, written⟩ =>
      ⟨k, inner, extended.hashEntries held, IsName.extends extended named,
        Datum.Written.extends extended value written⟩
  | .tupleVariant _ items, _, ⟨k, inner, ws, held, named, array, written⟩ =>
      ⟨k, inner, ws, extended.hashEntries held,
        IsName.extends extended named, extended.aryVals array,
        ItemsWritten.extends extended items written⟩
  | .structVariant _ fields, _,
      ⟨k, inner, stored, held, named, hash, written⟩ =>
      ⟨k, inner, stored, extended.hashEntries held,
        IsName.extends extended named, extended.hashEntries hash,
        FieldsWritten.extends extended fields written⟩

theorem ItemsWritten.extends
    (extended : vm.Extends after) :
    ∀ (items : List Datum) {ws : List Value},
      ItemsWritten vm items ws → ItemsWritten after items ws
  | [], _, written => written
  | item :: items, _, ⟨w, rest, same, first, written⟩ =>
      ⟨w, rest, same, Datum.Written.extends extended item first,
        ItemsWritten.extends extended items written⟩

theorem PairsWritten.extends
    (extended : vm.Extends after) :
    ∀ (pairs : List (Datum × Datum)) {ws : List (Value × Value)},
      PairsWritten vm pairs ws → PairsWritten after pairs ws
  | [], _, written => written
  | (_, value) :: pairs, _, ⟨k, w, rest, same, label, first, written⟩ =>
      ⟨k, w, rest, same, KeyWritten.extends extended label,
        Datum.Written.extends extended value first,
        PairsWritten.extends extended pairs written⟩

theorem FieldsWritten.extends
    (extended : vm.Extends after) :
    ∀ (fields : List (String × Datum)) {ws : List (Value × Value)},
      FieldsWritten vm fields ws → FieldsWritten after fields ws
  | [], _, written => written
  | (_, value) :: fields, _, ⟨k, w, rest, same, named, first, written⟩ =>
      ⟨k, w, rest, same, IsName.extends extended named,
        Datum.Written.extends extended value first,
        FieldsWritten.extends extended fields written⟩

end

end SabiRuby.Serde
