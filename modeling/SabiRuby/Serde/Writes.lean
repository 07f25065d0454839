import SabiRuby.Serde.Written

/-!
# The serializer writes

Every value of a type is written, whatever the options, as long as the table of
symbols has room for the names the options make symbols of.
-/

namespace SabiRuby.Serde

open Library Integer
open Makes (pure)

/-! ## Symbols a value needs -/

/-- The symbols for one name. -/
def symbolsFor (asSymbol : Bool) : Nat := if asSymbol then 1 else 0

/-- The symbols for the key of a map. -/
def keySymbols (opts : Options) : Datum → Nat
  | .str _ => symbolsFor opts.symbolMapKeys
  | _ => 0

mutual

/-- The symbols that writing a value makes at most. -/
def Datum.symbols (opts : Options) : Datum → Nat
  | .some value => value.symbols opts
  | .newtypeStruct value => value.symbols opts
  | .seq items => itemsSymbols opts items
  | .tuple items => itemsSymbols opts items
  | .tupleStruct items => itemsSymbols opts items
  | .map pairs => pairsSymbols opts pairs
  | .struct fields => fieldsSymbols opts fields
  | .unitVariant _ => 1
  | .newtypeVariant _ value =>
      value.symbols opts + symbolsFor opts.symbolKeys
  | .tupleVariant _ items =>
      itemsSymbols opts items + symbolsFor opts.symbolKeys
  | .structVariant _ fields =>
      fieldsSymbols opts fields + symbolsFor opts.symbolKeys
  | _ => 0

def itemsSymbols (opts : Options) : List Datum → Nat
  | [] => 0
  | item :: items => item.symbols opts + itemsSymbols opts items

def pairsSymbols (opts : Options) : List (Datum × Datum) → Nat
  | [] => 0
  | (label, value) :: pairs =>
      keySymbols opts label + value.symbols opts + pairsSymbols opts pairs

def fieldsSymbols (opts : Options) : List (String × Datum) → Nat
  | [] => 0
  | (_, value) :: fields =>
      value.symbols opts + symbolsFor opts.symbolKeys +
        fieldsSymbols opts fields

end

/-- The VM goes on with at most so many symbols more. -/
structure Vm.Gains (vm : Vm) (count : Nat) (after : Vm) : Prop where
  extended : vm.Extends after
  symbols : after.syms.length ≤ vm.syms.length + count

theorem Vm.Gains.refl (vm : Vm) : vm.Gains 0 vm :=
  ⟨Vm.Extends.refl vm, Nat.le_refl _⟩

theorem Vm.Gains.trans
    {vm middle after : Vm}
    (first : vm.Gains count middle)
    (second : middle.Gains more after) : vm.Gains (count + more) after where
  extended := first.extended.trans second.extended
  symbols := by
    have one := first.symbols
    have two := second.symbols
    omega

theorem Vm.Gains.of_syms
    {vm after : Vm}
    (extended : vm.Extends after)
    (syms : after.syms = vm.syms) : vm.Gains 0 after where
  extended := extended
  symbols := by
    rw [syms]
    exact Nat.le_refl _

/-! ## Keys -/

variable {vm : Vm}

theorem IsInteger.hasContent
    (written : IsInteger vm number w) :
    vm.HasContent w (.integer number) := by
  rcases written with ⟨fits, rfl⟩ | ⟨_, wide, held, _, rfl⟩
  · have same : (Int64.ofInt number).toInt = number := by
      unfold BigInt.FitsI64 at fits
      rw [Int64.toInt_ofInt]
      exact bmod_of_small fits.1 fits.2
    rw [← congrArg KeyContent.integer same]
    exact .int _
  · exact .wide held

theorem IsName.exists_content
    (written : IsName vm name w) :
    ∃ c, vm.HasContent w c ∧ ∀ number, c ≠ .integer number := by
  rcases written with held | ⟨s, rfl, _⟩
  · exact ⟨_, .text held, fun _ same => by cases same⟩
  · exact ⟨_, .sym s, fun _ same => by cases same⟩

/-- Names with the same content are the same. -/
theorem IsName.eq_of_content
    (written : IsName vm name w)
    (otherWritten : IsName vm other v)
    (same : vm.content w = vm.content v) : name = other := by
  rcases written with held | ⟨s, rfl, named⟩
  · rw [(Vm.HasContent.text held).content_eq] at same
    rcases otherWritten with otherHeld | ⟨s, rfl, _⟩
    · rw [(Vm.HasContent.text otherHeld).content_eq] at same
      exact utf8_injective (KeyContent.text.inj same)
    · rw [(Vm.HasContent.sym s).content_eq] at same
      cases same
  · rw [(Vm.HasContent.sym s).content_eq] at same
    rcases otherWritten with otherHeld | ⟨r, rfl, otherNamed⟩
    · rw [(Vm.HasContent.text otherHeld).content_eq] at same
      cases same
    · rw [(Vm.HasContent.sym r).content_eq] at same
      cases same
      rw [named] at otherNamed
      exact utf8_injective (Option.some.inj otherNamed)

theorem KeyWritten.exists_content
    (written : KeyWritten vm label w) : ∃ c, vm.HasContent w c := by
  cases label with
  | int kind v => exact ⟨_, IsInteger.hasContent written⟩
  | str v =>
      obtain ⟨c, holds, _⟩ := IsName.exists_content written
      exact ⟨c, holds⟩
  | _ => exact written.elim

/-- Keys of one type with the same content are the same. -/
theorem KeyWritten.eq_of_content
    (written : KeyWritten vm label w)
    (otherWritten : KeyWritten vm other v)
    (typed : label.HasShape types shape)
    (otherTyped : other.HasShape types shape)
    (same : vm.content w = vm.content v) : label = other := by
  cases label with
  | int kind number =>
      have holds := IsInteger.hasContent written
      rw [holds.content_eq] at same
      cases other with
      | int otherKind otherNumber =>
          rw [(IsInteger.hasContent otherWritten).content_eq] at same
          have kinds := typed.1.symm.trans otherTyped.1
          cases kinds
          cases same
          rfl
      | str v =>
          obtain ⟨c, holdsName, noInteger⟩ :=
            IsName.exists_content otherWritten
          rw [holdsName.content_eq] at same
          exact absurd same.symm (noInteger number)
      | _ => exact otherWritten.elim
  | str name =>
      cases other with
      | int otherKind otherNumber =>
          rw [(IsInteger.hasContent otherWritten).content_eq] at same
          obtain ⟨c, holdsName, noInteger⟩ := IsName.exists_content written
          rw [holdsName.content_eq] at same
          exact absurd same (noInteger otherNumber)
      | str v => rw [IsName.eq_of_content written otherWritten same]
      | _ => exact otherWritten.elim
  | _ => exact written.elim

theorem IsName.copy
    (written : IsName vm name k)
    (copied : KeyCopy vm k stored) : IsName vm name stored := by
  rcases copied with rfl | ⟨bytes, ofKey, ofStored⟩
  · exact written
  · rcases written with held | ⟨s, rfl, _⟩
    · rw [ofKey] at held
      cases held
      exact Or.inl ofStored
    · cases ofKey

theorem KeyWritten.copy
    (written : KeyWritten vm label k)
    (copied : KeyCopy vm k stored) : KeyWritten vm label stored := by
  cases label with
  | int kind v =>
      rcases copied with rfl | ⟨bytes, ofKey, ofStored⟩
      · exact written
      · rcases written with ⟨_, rfl⟩ | ⟨_, wide, held, _, _⟩
        · cases ofKey
        · have text := (Vm.HasContent.text ofKey).content_eq
          rw [(Vm.HasContent.wide held).content_eq] at text
          cases text
  | str v => exact IsName.copy written copied
  | _ => exact written.elim

/-! ## Parts -/

theorem key_makes
    (opts : Options)
    (name : String)
    (vm : Vm)
    (room : vm.syms.length + symbolsFor opts.symbolKeys ≤ 2 ^ 32) :
    Makes (key opts name) vm fun k after =>
      vm.Gains (symbolsFor opts.symbolKeys) after ∧ IsName after name k := by
  unfold key
  cases asSymbol : opts.symbolKeys with
  | true =>
      rw [asSymbol] at room
      apply (intern_makes name vm (by change _ + 1 ≤ _ at room; omega)).bind
      rintro s after ⟨extended, few, named⟩
      exact pure ⟨⟨extended, few⟩, Or.inr ⟨s, rfl, named⟩⟩
  | false =>
      apply (strNew_makes (utf8 name) vm).mono
      rintro k after ⟨extended, syms, held, _⟩
      exact ⟨.of_syms extended syms, Or.inl held⟩

/-- The key of a map after `map_key`. -/
theorem mapKey_makes
    (opts : Options)
    (isText : ∀ text, label = .str text →
      vm.strBytes k = some (utf8 text) ∧ vm.strBinary k = false)
    (isInteger : ∀ kind number, label = .int kind number →
      IsInteger vm number k)
    (isKey : label.isKey = true)
    (room : vm.syms.length + keySymbols opts label ≤ 2 ^ 32) :
    Makes (mapKey opts k) vm fun k after =>
      vm.Gains (keySymbols opts label) after ∧ KeyWritten after label k := by
  unfold mapKey
  apply Makes.get
  cases label with
  | int kind number =>
      have integer := isInteger kind number rfl
      have noBytes : vm.strBytes k = none := by
        rcases integer with ⟨_, rfl⟩ | ⟨_, wide, held, _, _⟩
        · rfl
        · cases bytes : vm.strBytes k with
          | none => rfl
          | some bytes =>
              have text := (Vm.HasContent.text ‹_›).content_eq
              rw [(Vm.HasContent.wide held).content_eq] at text
              cases text
      rw [noBytes]
      split
      · exact pure ⟨.refl vm, integer⟩
      · exact pure ⟨.refl vm, integer⟩
  | str text =>
      obtain ⟨held, notBinary⟩ := isText text rfl
      rw [held, notBinary, Option.bind_some, fromUtf8_utf8]
      cases asSymbol : opts.symbolMapKeys with
      | true =>
          simp only [keySymbols, asSymbol] at room ⊢
          apply (intern_makes text vm
            (by change _ + 1 ≤ _ at room; omega)).bind
          rintro s after ⟨extended, few, named⟩
          exact pure ⟨⟨extended, few⟩, Or.inr ⟨s, rfl, named⟩⟩
      | false =>
          simp only [keySymbols, asSymbol]
          exact pure ⟨.refl vm, Or.inl held⟩
  | _ => cases isKey

theorem serializeInt_makes
    (kind : IntKind)
    {number : Int}
    (holds : kind.Holds number)
    (vm : Vm) :
    Makes (serializeInt kind number) vm fun w after =>
      vm.Gains 0 after ∧ IsInteger after number w := by
  have small : BigInt.FitsI64 number →
      Makes (pure (.int (Int64.ofInt number))) vm fun w after =>
        vm.Gains 0 after ∧ IsInteger after number w :=
    fun fits => pure ⟨.refl vm, Or.inl ⟨fits, rfl⟩⟩
  have wide : ∀ big : BigInt, big.WellFormed → big.toInt = number →
      Makes (bintValue big) vm fun w after =>
        vm.Gains 0 after ∧ IsInteger after number w := by
    rintro big formed rfl
    apply (bintValue_makes formed vm).mono
    rintro w after ⟨extended, syms, ⟨fits, rfl⟩ | ⟨large, held⟩⟩
    · exact ⟨.of_syms extended syms, Or.inl ⟨fits, rfl⟩⟩
    · exact ⟨.of_syms extended syms, Or.inr ⟨large, big, held, formed, rfl⟩⟩
  have text : Makes
      (if BigInt.FitsI64 number then pure (.int (Int64.ofInt number))
        else int128 number) vm
      fun w after => vm.Gains 0 after ∧ IsInteger after number w := by
    split
    · exact small ‹_›
    · obtain ⟨big, read, formed, same⟩ := BigInt.fromStr_display number
      unfold int128
      rw [read]
      exact wide big formed same
  cases kind with
  | i128 => exact text
  | u128 => exact text
  | u64 =>
      simp only [serializeInt]
      split
      · exact small ‹_›
      · apply wide _ (BigInt.wellFormed_fromU64 _)
        have positive : 0 ≤ number := holds.1
        have bound : number ≤ 2 ^ 64 - 1 := holds.2
        rw [BigInt.toInt_fromU64, UInt64.toNat_ofNat', Nat.mod_eq_of_lt]
        · omega
        · omega
  | _ =>
      apply small
      simp only [IntKind.Holds, IntKind.least, IntKind.largest] at holds
      unfold BigInt.FitsI64
      omega

/-! ## Distinct keys -/

/-- Pairs that belong to different labels have keys of different contents. -/
theorem distinct_contents
    {belongs : κ → Value × Value → Prop}
    (apart : ∀ label other pair otherPair, belongs label pair →
      belongs other otherPair →
      vm.content pair.1 = vm.content otherPair.1 → label = other)
    (related : List.Forall₂ belongs labels pairs)
    (distinct : labels.Nodup) :
    (pairs.map fun pair => vm.content pair.1).Nodup := by
  induction related with
  | nil => exact List.nodup_nil
  | @cons label pair labels pairs first rest ih =>
      obtain ⟨unseen, distinct⟩ := List.nodup_cons.mp distinct
      rw [List.map_cons, List.nodup_cons]
      refine ⟨?_, ih distinct⟩
      intro member
      obtain ⟨other, inPairs, same⟩ := List.mem_map.mp member
      obtain ⟨place, held⟩ := List.mem_iff_getElem.mp inPairs
      obtain ⟨inside, rfl⟩ := held
      have inLabels : place < labels.length := by
        rw [rest.length_eq]
        exact inside
      have pairOf := rest.get inLabels inside
      have equal := apart _ _ _ _ first pairOf same.symm
      apply unseen
      rw [equal]
      exact List.get_mem _ _

/-- The pair is the key and the value as they are written. -/
theorem PairsWritten.forall₂ :
    ∀ {pairs : List (Datum × Datum)} {ws : List (Value × Value)},
      PairsWritten vm pairs ws →
      PairsHaveShape types pairs keyShape valueShape →
      List.Forall₂ (fun label w => KeyWritten vm label w.1 ∧
        label.HasShape types keyShape) (pairs.map (·.1)) ws
  | [], _, written, _ => by
      cases written
      exact List.Forall₂.nil
  | (_, _) :: _, _, ⟨_, _, _, same, label, _, written⟩,
      ⟨typed, _, _, others⟩ => by
      subst same
      exact List.Forall₂.cons ⟨label, typed⟩
        (PairsWritten.forall₂ written others)

theorem FieldsWritten.forall₂ :
    ∀ {fields : List (String × Datum)} {ws : List (Value × Value)},
      FieldsWritten vm fields ws →
      List.Forall₂ (fun name w => IsName vm name w.1) (fields.map (·.1)) ws
  | [], _, written => by
      cases written
      exact List.Forall₂.nil
  | (_, _) :: _, _, ⟨_, _, _, same, named, _, written⟩ => by
      subst same
      exact List.Forall₂.cons named (FieldsWritten.forall₂ written)

/-- The pairs that are stored are written as well. -/
theorem PairsWritten.stored :
    ∀ {pairs : List (Datum × Datum)} {ws stored : List (Value × Value)},
      PairsWritten vm pairs ws →
      List.Forall₂ (StoredPair vm) ws stored → PairsWritten vm pairs stored
  | [], _, _, written, copies => by
      cases written
      cases copies
      rfl
  | (_, _) :: _, _, _, ⟨_, _, _, same, label, first, written⟩, copies => by
      subst same
      cases copies with
      | @cons _ copy _ copies isCopy others =>
          obtain ⟨stored, value⟩ := copy
          obtain ⟨sameValue, copied⟩ := isCopy
          cases sameValue
          exact ⟨stored, _, copies, rfl, KeyWritten.copy label copied, first,
            PairsWritten.stored written others⟩

theorem FieldsWritten.stored :
    ∀ {fields : List (String × Datum)} {ws stored : List (Value × Value)},
      FieldsWritten vm fields ws →
      List.Forall₂ (StoredPair vm) ws stored → FieldsWritten vm fields stored
  | [], _, _, written, copies => by
      cases written
      cases copies
      rfl
  | (_, _) :: _, _, _, ⟨_, _, _, same, named, first, written⟩, copies => by
      subst same
      cases copies with
      | @cons _ copy _ copies isCopy others =>
          obtain ⟨stored, value⟩ := copy
          obtain ⟨sameValue, copied⟩ := isCopy
          cases sameValue
          exact ⟨stored, _, copies, rfl, IsName.copy named copied, first,
            FieldsWritten.stored written others⟩

theorem FieldsHaveShapes.names :
    ∀ {fields : List (String × Datum)} {shapes : List (String × Shape)},
      FieldsHaveShapes types fields shapes →
      fields.map (·.1) = shapes.map (·.1)
  | [], _, typed => by
      cases typed
      rfl
  | (_, _) :: _, _, ⟨_, _, same, _, typed⟩ => by
      subst same
      rw [List.map_cons, List.map_cons, FieldsHaveShapes.names typed]

/-- The Hash of a map. -/
theorem buildPairs_makes
    (written : PairsWritten vm pairs ws)
    (typed : PairsHaveShape types pairs keyShape valueShape)
    (distinct : (pairs.map (·.1)).Nodup) :
    Makes (buildHash ws) vm fun w after =>
      vm.Gains 0 after ∧ (Datum.map pairs).Written after w := by
  have labelled := PairsWritten.forall₂ written typed
  have contents := distinct_contents
    (fun _ _ _ _ one other same =>
      one.1.eq_of_content other.1 one.2 other.2 same) labelled distinct
  have keys : ∀ pair ∈ ws, ∃ c, vm.HasContent pair.1 c := by
    intro pair member
    obtain ⟨place, inside, rfl⟩ := List.mem_iff_getElem.mp member
    have inLabels : place < (pairs.map (·.1)).length := by
      rw [labelled.length_eq]
      exact inside
    exact (labelled.get inLabels inside).1.exists_content
  apply (buildHash_makes ws keys contents).mono
  rintro w after ⟨extended, syms, stored, copies, held⟩
  exact ⟨.of_syms extended syms, stored, held,
    PairsWritten.stored (PairsWritten.extends extended pairs written) copies⟩

/-- The Hash of a struct. -/
theorem buildFields_makes
    (written : FieldsWritten vm fields ws)
    (typed : FieldsHaveShapes types fields shapes)
    (distinct : (shapes.map (·.1)).Nodup) :
    Makes (buildHash ws) vm fun w after =>
      vm.Gains 0 after ∧ (Datum.struct fields).Written after w := by
  have labelled := FieldsWritten.forall₂ written
  rw [FieldsHaveShapes.names typed] at labelled
  have contents := distinct_contents
    (fun _ _ _ _ one other same => one.eq_of_content other same) labelled
    distinct
  have keys : ∀ pair ∈ ws, ∃ c, vm.HasContent pair.1 c := by
    intro pair member
    obtain ⟨place, inside, rfl⟩ := List.mem_iff_getElem.mp member
    have inLabels : place < (shapes.map (·.1)).length := by
      rw [labelled.length_eq]
      exact inside
    obtain ⟨c, holds, _⟩ := (labelled.get inLabels inside).exists_content
    exact ⟨c, holds⟩
  apply (buildHash_makes ws keys contents).mono
  rintro w after ⟨extended, syms, stored, copies, held⟩
  exact ⟨.of_syms extended syms, stored, held,
    FieldsWritten.stored (FieldsWritten.extends extended fields written)
      copies⟩

theorem tagged_eq (opts : Options) (name : String) (value : Value) :
    tagged opts name value =
      key opts name >>= fun k => buildHash [(k, value)] := by
  simp [tagged, buildHash, storePairs]

/-- The Hash of a variant. -/
theorem tagged_makes
    (opts : Options)
    (name : String)
    (value : Value)
    (vm : Vm)
    (room : vm.syms.length + symbolsFor opts.symbolKeys ≤ 2 ^ 32) :
    Makes (tagged opts name value) vm fun w after =>
      vm.Gains (symbolsFor opts.symbolKeys) after ∧
        ∃ k, after.hashEntries w = some [(k, value)] ∧
          IsName after name k := by
  rw [tagged_eq]
  apply (key_makes opts name vm room).bind
  rintro k middle ⟨gained, named⟩
  obtain ⟨c, holds, _⟩ := named.exists_content
  apply (buildHash_makes [(k, value)] (by simpa using ⟨c, holds⟩)
    (by simp)).mono
  rintro w after ⟨extended, syms, stored, copies, held⟩
  refine ⟨gained.trans (.of_syms extended syms), ?_⟩
  cases copies with
  | @cons _ copy _ copies isCopy others =>
      cases others
      obtain ⟨storedKey, storedValue⟩ := copy
      obtain ⟨sameValue, copied⟩ := isCopy
      cases sameValue
      refine ⟨storedKey, ?_, IsName.copy (named.extends extended) copied⟩
      rw [held, List.take_of_length_le (show 1 ≤ HashTable.indexLimit by decide)]

/-! ## Every value -/

/-- What `serialize_key` has before `map_key`. -/
theorem serializeKey_makes
    (opts : Options)
    {label : Datum}
    (typed : label.HasShape types shape)
    (isKey : label.isKey = true)
    (vm : Vm) :
    Makes (serialize opts label) vm fun k after =>
      vm.Gains 0 after ∧
        (∀ text, label = .str text →
          after.strBytes k = some (utf8 text) ∧ after.strBinary k = false) ∧
        ∀ kind number, label = .int kind number →
          IsInteger after number k := by
  cases label with
  | int kind number =>
      unfold serialize
      apply (serializeInt_makes kind typed.2 vm).mono
      rintro k after ⟨gained, integer⟩
      refine ⟨gained, fun _ same => (by cases same), ?_⟩
      rintro _ _ ⟨⟩
      exact integer
  | str text =>
      unfold serialize
      apply (strNew_makes (utf8 text) vm).mono
      rintro k after ⟨extended, syms, held, notBinary⟩
      refine ⟨.of_syms extended syms, ?_, fun _ _ same => by cases same⟩
      rintro _ ⟨⟩
      exact ⟨held, notBinary⟩
  | _ => cases isKey

theorem strSetBinary_makes
    (held : vm.object (.obj o) = some cell)
    (kind : cell.kind = .string bytes) :
    Makes (strSetBinary (.obj o) true) vm fun _ after =>
      vm.Grows o.index after ∧ after.strBytes (.obj o) = some bytes := by
  apply (update_makes o.index _ vm).mono
  rintro _ after ⟨grown, changed⟩
  refine ⟨grown, (after.strBytes_eq_some_iff _ _).mpr
    ⟨{ cell with binary := true }, ?_, kind⟩⟩
  rw [changed, held]
  rfl

theorem serializeBytes_makes
    (opts : Options)
    (bytes : List UInt8)
    (vm : Vm) :
    Makes (serialize opts (.bytes bytes)) vm fun w after =>
      vm.Gains 0 after ∧ after.strBytes w = some bytes := by
  unfold serialize
  apply (alloc_makes "String" (.string bytes) vm).bind
  rintro _ middle ⟨rfl, syms, heap⟩
  have extended := extends_of_append syms heap
  have held : middle.object (.obj ⟨vm.heap.length⟩) =
      some (HeapObject.fresh "String" (.string bytes)) := by
    simp [Vm.object, heap]
  apply (strSetBinary_makes held rfl).bind
  rintro _ after ⟨grown, bytesAfter⟩
  refine pure ⟨.of_syms ⟨?_, ?_, ?_⟩ (grown.syms.trans syms),
    bytesAfter⟩
  · intro i inside
    rw [grown.kept i (Nat.lt_of_lt_of_le inside extended.longer)
      (Nat.ne_of_lt inside)]
    exact extended.kept i inside
  · exact Nat.le_trans extended.longer grown.longer
  · intro i _
    rw [grown.syms, syms]

theorem serializeArray_makes
    {items : List Datum}
    (written : ItemsWritten vm items ws) :
    Makes (aryNew ws) vm fun w after =>
      vm.Gains 0 after ∧ ∃ ws, after.aryVals w = some ws ∧
        ItemsWritten after items ws := by
  apply (aryNew_makes ws vm).mono
  rintro w after ⟨extended, syms, held⟩
  exact ⟨.of_syms extended syms, ws, held,
    ItemsWritten.extends extended items written⟩

mutual

/-- The serializer writes every value of a type. -/
theorem serialize_makes (opts : Options) (types : Types) :
    ∀ (v : Datum) (shape : Shape) (vm : Vm), v.HasShape types shape →
      vm.syms.length + v.symbols opts ≤ 2 ^ 32 →
      Makes (serialize opts v) vm fun w after =>
        vm.Gains (v.symbols opts) after ∧ v.Written after w
  | .bool v, shape, vm, typed, room => by
      unfold serialize
      exact pure ⟨.refl vm, rfl⟩
  | .int kind v, shape, vm, typed, room => by
      unfold serialize
      exact serializeInt_makes kind typed.2 vm
  | .char v, shape, vm, typed, room => by
      unfold serialize
      apply (strNew_makes (utf8 (String.singleton v)) vm).mono
      rintro w after ⟨extended, syms, held, _⟩
      exact ⟨.of_syms extended syms, held⟩
  | .str v, shape, vm, typed, room => by
      unfold serialize
      apply (strNew_makes (utf8 v) vm).mono
      rintro w after ⟨extended, syms, held, _⟩
      exact ⟨.of_syms extended syms, held⟩
  | .bytes v, shape, vm, typed, room => serializeBytes_makes opts v vm
  | .none, shape, vm, typed, room => by
      unfold serialize
      exact pure ⟨.refl vm, rfl⟩
  | .some value, shape, vm, ⟨inner, _, typed, _⟩, room => by
      unfold serialize
      exact serialize_makes opts types value inner vm typed room
  | .unit, shape, vm, typed, room => by
      unfold serialize
      exact pure ⟨.refl vm, rfl⟩
  | .unitStruct, shape, vm, typed, room => by
      unfold serialize
      exact pure ⟨.refl vm, rfl⟩
  | .newtypeStruct value, shape, vm, ⟨inner, _, typed⟩, room => by
      unfold serialize
      exact serialize_makes opts types value inner vm typed room
  | .seq items, shape, vm, ⟨item, _, typed⟩, room => by
      unfold serialize
      apply (serializeAll_makes opts types items item vm typed room).bind
      rintro ws middle ⟨gained, written⟩
      apply (serializeArray_makes written).mono
      rintro w after ⟨more, array⟩
      exact ⟨gained.trans more, array⟩
  | .tuple items, shape, vm, ⟨shapes, _, typed⟩, room => by
      unfold serialize
      apply (serializeItems_makes opts types items shapes vm typed room).bind
      rintro ws middle ⟨gained, written⟩
      apply (serializeArray_makes written).mono
      rintro w after ⟨more, array⟩
      exact ⟨gained.trans more, array⟩
  | .tupleStruct items, shape, vm, ⟨shapes, _, typed⟩, room => by
      unfold serialize
      apply (serializeItems_makes opts types items shapes vm typed room).bind
      rintro ws middle ⟨gained, written⟩
      apply (serializeArray_makes written).mono
      rintro w after ⟨more, array⟩
      exact ⟨gained.trans more, array⟩
  | .map pairs, shape, vm, ⟨keyShape, valueShape, _, typed, distinct⟩,
      room => by
      unfold serialize
      apply (serializePairs_makes opts types pairs keyShape valueShape vm
        typed room).bind
      rintro ws middle ⟨gained, written⟩
      apply (buildPairs_makes written typed distinct).mono
      rintro w after ⟨more, hash⟩
      exact ⟨gained.trans more, hash⟩
  | .struct fields, shape, vm, ⟨shapes, _, typed, distinct⟩, room => by
      unfold serialize
      apply (serializeFields_makes opts types fields shapes vm typed
        room).bind
      rintro ws middle ⟨gained, written⟩
      apply (buildFields_makes written typed distinct).mono
      rintro w after ⟨more, hash⟩
      exact ⟨gained.trans more, hash⟩
  | .unitVariant variant, shape, vm, typed, room => by
      unfold serialize
      apply (intern_makes variant vm
        (by change _ + 1 ≤ _ at room; omega)).bind
      rintro s after ⟨extended, few, named⟩
      exact pure ⟨⟨extended, few⟩, s, rfl, named⟩
  | .newtypeVariant variant value, shape, vm, ⟨_, inner, _, _, typed⟩,
      room => by
      change _ + (value.symbols opts + symbolsFor opts.symbolKeys) ≤ _ at room
      unfold serialize
      apply (serialize_makes opts types value inner vm typed
        (by omega)).bind
      rintro w middle ⟨gained, written⟩
      have few := gained.symbols
      apply (tagged_makes opts variant w middle (by omega)).mono
      rintro h after ⟨more, k, held, named⟩
      exact ⟨gained.trans more, k, w, held, named,
        Datum.Written.extends more.extended value written⟩
  | .tupleVariant variant items, shape, vm, ⟨_, shapes, _, _, typed⟩,
      room => by
      change _ + (itemsSymbols opts items + symbolsFor opts.symbolKeys) ≤ _
        at room
      unfold serialize
      apply (serializeItems_makes opts types items shapes vm typed
        (by omega)).bind
      rintro ws first ⟨gained, written⟩
      apply (serializeArray_makes written).bind
      rintro a middle ⟨arrayGained, ws, array, written⟩
      have few := (gained.trans arrayGained).symbols
      apply (tagged_makes opts variant a middle (by omega)).mono
      rintro h after ⟨more, k, held, named⟩
      exact ⟨(gained.trans arrayGained).trans more, k, a, ws, held, named,
        more.extended.aryVals array,
        ItemsWritten.extends more.extended items written⟩
  | .structVariant variant fields, shape, vm,
      ⟨_, shapes, _, _, typed, distinct⟩, room => by
      change _ + (fieldsSymbols opts fields + symbolsFor opts.symbolKeys) ≤ _
        at room
      unfold serialize
      apply (serializeFields_makes opts types fields shapes vm typed
        (by omega)).bind
      rintro ws first ⟨gained, written⟩
      apply (buildFields_makes written typed distinct).bind
      rintro inner middle ⟨hashGained, stored, hash, written⟩
      have few := (gained.trans hashGained).symbols
      apply (tagged_makes opts variant inner middle (by omega)).mono
      rintro h after ⟨more, k, held, named⟩
      exact ⟨(gained.trans hashGained).trans more, k, inner, stored, held,
        named, more.extended.hashEntries hash,
        FieldsWritten.extends more.extended fields written⟩

theorem serializeAll_makes (opts : Options) (types : Types) :
    ∀ (items : List Datum) (shape : Shape) (vm : Vm),
      AllHaveShape types items shape →
      vm.syms.length + itemsSymbols opts items ≤ 2 ^ 32 →
      Makes (serializeItems opts items) vm fun ws after =>
        vm.Gains (itemsSymbols opts items) after ∧ ItemsWritten after items ws
  | [], _, vm, _, _ => by
      unfold serializeItems
      exact pure ⟨.refl vm, rfl⟩
  | item :: items, shape, vm, ⟨typed, others⟩, room => by
      change _ + (item.symbols opts + itemsSymbols opts items) ≤ _ at room
      unfold serializeItems
      apply (serialize_makes opts types item shape vm typed (by omega)).bind
      rintro w middle ⟨gained, first⟩
      have few := gained.symbols
      apply (serializeAll_makes opts types items shape middle others
        (by omega)).bind
      rintro ws after ⟨more, written⟩
      exact pure ⟨gained.trans more, w, ws, rfl,
        Datum.Written.extends more.extended item first, written⟩

theorem serializeItems_makes (opts : Options) (types : Types) :
    ∀ (items : List Datum) (shapes : List Shape) (vm : Vm),
      HaveShapes types items shapes →
      vm.syms.length + itemsSymbols opts items ≤ 2 ^ 32 →
      Makes (serializeItems opts items) vm fun ws after =>
        vm.Gains (itemsSymbols opts items) after ∧ ItemsWritten after items ws
  | [], _, vm, _, _ => by
      unfold serializeItems
      exact pure ⟨.refl vm, rfl⟩
  | item :: items, _, vm, ⟨shape, rest, _, typed, others⟩, room => by
      change _ + (item.symbols opts + itemsSymbols opts items) ≤ _ at room
      unfold serializeItems
      apply (serialize_makes opts types item shape vm typed (by omega)).bind
      rintro w middle ⟨gained, first⟩
      have few := gained.symbols
      apply (serializeItems_makes opts types items rest middle others
        (by omega)).bind
      rintro ws after ⟨more, written⟩
      exact pure ⟨gained.trans more, w, ws, rfl,
        Datum.Written.extends more.extended item first, written⟩

theorem serializePairs_makes (opts : Options) (types : Types) :
    ∀ (pairs : List (Datum × Datum)) (keyShape valueShape : Shape) (vm : Vm),
      PairsHaveShape types pairs keyShape valueShape →
      vm.syms.length + pairsSymbols opts pairs ≤ 2 ^ 32 →
      Makes (serializePairs opts pairs) vm fun ws after =>
        vm.Gains (pairsSymbols opts pairs) after ∧ PairsWritten after pairs ws
  | [], _, _, vm, _, _ => by
      unfold serializePairs
      exact pure ⟨.refl vm, rfl⟩
  | (label, value) :: pairs, keyShape, valueShape, vm,
      ⟨labelTyped, isKey, typed, others⟩, room => by
      change _ + (keySymbols opts label + value.symbols opts +
        pairsSymbols opts pairs) ≤ _ at room
      unfold serializePairs
      apply (serializeKey_makes opts labelTyped isKey vm).bind
      rintro k first ⟨gained, isText, isInteger⟩
      have few := gained.symbols
      apply (mapKey_makes opts isText isInteger isKey (by omega)).bind
      rintro k second ⟨keyGained, labelled⟩
      have fewer := (gained.trans keyGained).symbols
      apply (serialize_makes opts types value valueShape second typed
        (by omega)).bind
      rintro w third ⟨valueGained, first⟩
      have fewest := ((gained.trans keyGained).trans valueGained).symbols
      apply (serializePairs_makes opts types pairs keyShape valueShape third
        others (by omega)).bind
      rintro ws after ⟨more, written⟩
      refine pure ⟨?_, k, w, ws, rfl, ?_, ?_, written⟩
      · have total := ((gained.trans keyGained).trans valueGained).trans more
        rwa [Nat.zero_add] at total
      · exact (labelled.extends valueGained.extended).extends more.extended
      · exact Datum.Written.extends more.extended value first

theorem serializeFields_makes (opts : Options) (types : Types) :
    ∀ (fields : List (String × Datum)) (shapes : List (String × Shape))
      (vm : Vm), FieldsHaveShapes types fields shapes →
      vm.syms.length + fieldsSymbols opts fields ≤ 2 ^ 32 →
      Makes (serializeFields opts fields) vm fun ws after =>
        vm.Gains (fieldsSymbols opts fields) after ∧
          FieldsWritten after fields ws
  | [], _, vm, _, _ => by
      unfold serializeFields
      exact pure ⟨.refl vm, rfl⟩
  | (name, value) :: fields, _, vm, ⟨shape, rest, _, typed, others⟩,
      room => by
      change _ + (value.symbols opts + symbolsFor opts.symbolKeys +
        fieldsSymbols opts fields) ≤ _ at room
      unfold serializeFields
      apply (serialize_makes opts types value shape vm typed (by omega)).bind
      rintro w first ⟨gained, isWritten⟩
      have few := gained.symbols
      apply (key_makes opts name first (by omega)).bind
      rintro k second ⟨keyGained, named⟩
      have fewer := (gained.trans keyGained).symbols
      apply (serializeFields_makes opts types fields rest second others
        (by omega)).bind
      rintro ws after ⟨more, written⟩
      refine pure ⟨(gained.trans keyGained).trans more, k, w, ws, rfl,
        named.extends more.extended, ?_, written⟩
      exact Datum.Written.extends more.extended value
        (Datum.Written.extends keyGained.extended value isWritten)

end

end SabiRuby.Serde
