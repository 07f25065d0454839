import SabiRuby.Serde.RoundTrip

/-!
# The conversion there and back

The induction over the value, and what it says of writing a value and reading
the result with the same type.
-/

namespace SabiRuby.Serde

open Library Integer

theorem fieldsReadBack_iff (fields : List (String × Datum)) :
    FieldsReadBack fields ↔ ∀ field ∈ fields, field.2.ReadsBack := by
  induction fields with
  | nil => simp [FieldsReadBack]
  | cons field fields ih =>
      rw [List.forall_mem_cons, ← ih]
      rfl

/-- A struct whose fields are read where they read back. -/
theorem visitRows_eq_ok_iff
    (lossy : List UInt8 → String)
    {read : Shape → Value → Answer Datum}
    {rows : List Row}
    (named : ∀ row ∈ rows, IsName vm row.name row.k)
    (typed : ∀ row ∈ rows, row.value.HasShape types row.shape)
    (reads : ∀ row ∈ rows,
      (read row.shape row.w = .ok row.value ↔ row.value.ReadsBack))
    (distinct : ((rows.map Row.declared).map (·.1)).Nodup) :
    visitStruct vm lossy types read (rows.map Row.declared)
        ((rows.map Row.stored).take HashTable.indexLimit) =
          .ok (rows.map Row.field) ↔
      FieldsReadBack (rows.map Row.field) ∧
        ∀ field ∈ (rows.map Row.field).drop HashTable.indexLimit,
          field.2 = .none := by
  rw [List.map_map] at distinct
  rw [visitStruct_eq_ok_iff rows named typed distinct, fieldsReadBack_iff,
    ← List.map_drop, List.forall_mem_map, List.forall_mem_map]
  constructor
  · rintro ⟨taken, dropped⟩
    refine ⟨?_, dropped⟩
    intro row member
    rw [← List.take_append_drop HashTable.indexLimit rows] at member
    rcases List.mem_append.mp member with inTaken | inDropped
    · exact (reads row (List.mem_of_mem_take inTaken)).mp (taken row inTaken)
    · change row.value.ReadsBack
      rw [dropped row inDropped]
      exact trivial
  · rintro ⟨back, dropped⟩
    refine ⟨?_, dropped⟩
    intro row member
    have inRows := List.mem_of_mem_take member
    exact (reads row inRows).mpr (back row inRows)

/-- What a map was read as has as many entries as the Hash. -/
theorem length_of_visitMap
    {read : Shape → Value → Answer Datum}
    (entries : List (Value × Value))
    (answered : visitMap read keyShape valueShape entries = .ok pairs) :
    pairs.length = entries.length := by
  induction entries generalizing pairs with
  | nil =>
      cases answered
      rfl
  | cons entry entries ih =>
      obtain ⟨k, v⟩ := entry
      unfold visitMap at answered
      obtain ⟨_, _, answered⟩ := (bind_eq_ok_iff _ _).mp answered
      obtain ⟨_, _, answered⟩ := (bind_eq_ok_iff _ _).mp answered
      obtain ⟨rest, visited, answered⟩ := (bind_eq_ok_iff _ _).mp answered
      cases answered
      rw [List.length_cons, List.length_cons, ih visited]

theorem PairsWritten.length_eq :
    ∀ {pairs : List (Datum × Datum)} {ws : List (Value × Value)},
      PairsWritten vm pairs ws → ws.length = pairs.length
  | [], _, written => by
      cases written
      rfl
  | (_, _) :: _, _, ⟨_, _, _, same, _, _, written⟩ => by
      subst same
      rw [List.length_cons, List.length_cons, PairsWritten.length_eq written]

/-- The name that a variant is found under. -/
theorem variantName_of_name
    (written : IsName vm name w) :
    variantName vm lossy w = .ok name := by
  unfold variantName
  rw [asStr_of_name written]
  rfl

/-- A key is written as a value is, or as the Symbol of its text. -/
theorem deserialize_key_eq_ok_iff
    (lossy : List UInt8 → String)
    (typed : label.HasShape types shape)
    (written : KeyWritten vm label w)
    (fuel : Nat) :
    deserialize vm lossy types (fuel + 1) shape w = .ok label ↔
      label.ReadsBack := by
  cases label with
  | int kind number =>
      simp only [deserialize, typed.1]
      rw [wrap_eq_ok_iff (fun _ _ same => (Datum.int.inj same).2)]
      exact deserializeInt_eq_ok_iff typed.2 written
  | str text =>
      simp only [deserialize, show types.view shape = .str from typed]
      rw [wrap_eq_ok_iff (fun _ _ same => Datum.str.inj same),
        deserializeString_of_name lossy written]
      simp [Datum.ReadsBack]
  | _ => exact written.elim

mutual

/-- A value that was written is read back exactly where it reads back. -/
theorem deserialize_eq_ok_iff
    (vm : Vm) (lossy : List UInt8 → String) (types : Types) :
    ∀ (v : Datum) (shape : Shape) (w : Value) (fuel : Nat),
      v.HasShape types shape → v.Written vm w → sizeOf v < fuel →
      (deserialize vm lossy types fuel shape w = .ok v ↔ v.ReadsBack)
  | _, _, _, 0, _, _, size => absurd size (Nat.not_lt_zero _)
  | .bool v, shape, w, fuel + 1, typed, written, _ => by
      simp only [deserialize, show types.view shape = .bool from typed]
      rw [wrap_eq_ok_iff (fun _ _ same => Datum.bool.inj same),
        show w = ofBool v from written]
      cases v <;> simp [ofBool, deserializeBool, Datum.ReadsBack, pure,
        Except.pure]
  | .int kind v, shape, w, fuel + 1, typed, written, _ => by
      simp only [deserialize, typed.1]
      rw [wrap_eq_ok_iff (fun _ _ same => (Datum.int.inj same).2)]
      exact deserializeInt_eq_ok_iff typed.2 written
  | .char v, shape, w, fuel + 1, typed, written, _ => by
      simp only [deserialize, show types.view shape = .char from typed]
      rw [wrap_eq_ok_iff (fun _ _ same => Datum.char.inj same)]
      unfold deserializeChar
      rw [asStr_of_bytes written]
      simp [oneChar, Datum.ReadsBack, pure, Except.pure]
  | .str v, shape, w, fuel + 1, typed, written, _ => by
      simp only [deserialize, show types.view shape = .str from typed]
      rw [wrap_eq_ok_iff (fun _ _ same => Datum.str.inj same),
        deserializeString_of_name lossy (Or.inl written)]
      simp [Datum.ReadsBack]
  | .bytes v, shape, w, fuel + 1, typed, written, _ => by
      simp only [deserialize, show types.view shape = .bytes from typed]
      rw [wrap_eq_ok_iff (fun _ _ same => Datum.bytes.inj same)]
      unfold deserializeByteBuf
      rw [show vm.strBytes w = some v from written]
      simp [Datum.ReadsBack, pure, Except.pure]
  | .none, shape, w, fuel + 1, ⟨inner, view⟩, written, _ => by
      simp only [deserialize, view]
      rw [show w = .nil from written]
      simp [Value.isNil, Datum.ReadsBack, pure, Except.pure]
  | .some value, shape, w, fuel + 1, ⟨inner, view, typed, notNil⟩, written,
      size => by
      have smaller : sizeOf value < fuel := by
        simp only [Datum.some.sizeOf_spec] at size
        omega
      have isNil : w.isNil = false :=
        (Datum.Written.isNil_eq value written).trans notNil
      simp only [deserialize, view, isNil, Bool.false_eq_true, if_false]
      rw [wrap_eq_ok_iff (fun _ _ same => Datum.some.inj same)]
      exact deserialize_eq_ok_iff vm lossy types value inner w fuel typed
        written smaller
  | .unit, shape, w, fuel + 1, typed, written, _ => by
      simp only [deserialize, show types.view shape = .unit from typed]
      rw [show w = .nil from written]
      simp [deserializeUnit, Value.isNil, Datum.ReadsBack, pure, Except.pure,
        Functor.map, Except.map]
  | .unitStruct, shape, w, fuel + 1, typed, written, _ => by
      simp only [deserialize, show types.view shape = .unitStruct from typed]
      rw [show w = .nil from written]
      simp [deserializeUnit, Value.isNil, Datum.ReadsBack, pure, Except.pure,
        Functor.map, Except.map]
  | .newtypeStruct value, shape, w, fuel + 1, ⟨inner, view, typed⟩, written,
      size => by
      have smaller : sizeOf value < fuel := by
        simp only [Datum.newtypeStruct.sizeOf_spec] at size
        omega
      simp only [deserialize, view]
      rw [wrap_eq_ok_iff (fun _ _ same => Datum.newtypeStruct.inj same)]
      exact deserialize_eq_ok_iff vm lossy types value inner w fuel typed
        written smaller
  | .seq items, shape, w, fuel + 1, ⟨item, view, typed⟩, ⟨ws, held, written⟩,
      size => by
      have smaller : sizeOf items < fuel := by
        simp only [Datum.seq.sizeOf_spec] at size
        omega
      simp only [deserialize, view, deserializeSeq, held, pure_bind]
      rw [wrap_eq_ok_iff (fun _ _ same => Datum.seq.inj same)]
      exact visitSeq_eq_ok_iff vm lossy types items item ws fuel typed written
        smaller
  | .tuple items, shape, w, fuel + 1, ⟨shapes, view, typed⟩,
      ⟨ws, held, written⟩, size => by
      have smaller : sizeOf items < fuel := by
        simp only [Datum.tuple.sizeOf_spec] at size
        omega
      simp only [deserialize, view, deserializeSeq, held, pure_bind]
      rw [wrap_eq_ok_iff (fun _ _ same => Datum.tuple.inj same)]
      exact visitTuple_eq_ok_iff vm lossy types items shapes ws fuel typed
        written smaller
  | .tupleStruct items, shape, w, fuel + 1, ⟨shapes, view, typed⟩,
      ⟨ws, held, written⟩, size => by
      have smaller : sizeOf items < fuel := by
        simp only [Datum.tupleStruct.sizeOf_spec] at size
        omega
      simp only [deserialize, view, deserializeSeq, held, pure_bind]
      rw [wrap_eq_ok_iff (fun _ _ same => Datum.tupleStruct.inj same)]
      exact visitTuple_eq_ok_iff vm lossy types items shapes ws fuel typed
        written smaller
  | .map pairs, shape, w, fuel + 1, ⟨key, value, view, typed, _⟩,
      ⟨stored, held, written⟩, size => by
      have smaller : sizeOf pairs < fuel := by
        simp only [Datum.map.sizeOf_spec] at size
        omega
      simp only [deserialize, view, deserializeMap, held, pure_bind]
      rw [wrap_eq_ok_iff (fun _ _ same => Datum.map.inj same)]
      have length := PairsWritten.length_eq written
      by_cases fits : pairs.length ≤ HashTable.indexLimit
      · rw [List.take_of_length_le (by omega),
          visitMap_eq_ok_iff vm lossy types pairs key value stored fuel typed
            written smaller]
        simp [Datum.ReadsBack, fits]
      · constructor
        · intro answered
          have short := length_of_visitMap _ answered
          rw [List.length_take] at short
          omega
        · rintro ⟨few, _⟩
          exact absurd few fits
  | .struct fields, shape, w, fuel + 1, ⟨shapes, view, typed, distinct⟩,
      ⟨stored, held, written⟩, size => by
      have smaller : sizeOf fields < fuel := by
        simp only [Datum.struct.sizeOf_spec] at size
        omega
      obtain ⟨rows, rfl, rfl, rfl, each⟩ :=
        exists_rows vm lossy types fields shapes stored fuel typed written
          smaller
      simp only [deserialize, view, deserializeMap, held, pure_bind]
      rw [wrap_eq_ok_iff (fun _ _ same => Datum.struct.inj same)]
      exact visitRows_eq_ok_iff lossy (fun row member => (each row member).1)
        (fun row member => (each row member).2.1)
        (fun row member => (each row member).2.2) distinct
  | .unitVariant variant, shape, w, fuel + 1, ⟨variants, view, found⟩,
      ⟨s, isSym, named⟩, _ => by
      subst isSym
      have isName : IsName vm variant (.sym s) := Or.inr ⟨s, rfl, named⟩
      simp only [deserialize, view]
      unfold deserializeEnum
      rw [show vm.hashEntries (.sym s) = none from rfl]
      simp only [asStr_of_name isName, Option.isSome_some, if_true, visitEnum,
        bind_eq_ok_iff, variantName_of_name isName, Except.ok.injEq,
        exists_eq_left', found]
      simp [Datum.ReadsBack, pure, Except.pure]
  | .newtypeVariant variant value, shape, w, fuel + 1,
      ⟨variants, inner, view, found, typed⟩,
      ⟨k, v, held, named, written⟩, size => by
      have smaller : sizeOf value < fuel := by
        simp only [Datum.newtypeVariant.sizeOf_spec] at size
        omega
      simp only [deserialize, view]
      unfold deserializeEnum
      rw [held]
      simp only [visitEnum, bind_eq_ok_iff, variantName_of_name named,
        Except.ok.injEq, exists_eq_left', found, Option.getD_some]
      rw [Datum.ReadsBack, ← deserialize_eq_ok_iff vm lossy types value inner v
        fuel typed written smaller]
      simp [pure, Except.pure]
  | .tupleVariant variant items, shape, w, fuel + 1,
      ⟨variants, shapes, view, found, typed⟩,
      ⟨k, v, ws, held, named, array, written⟩, size => by
      have smaller : sizeOf items < fuel := by
        simp only [Datum.tupleVariant.sizeOf_spec] at size
        omega
      simp only [deserialize, view]
      unfold deserializeEnum
      rw [held]
      simp only [visitEnum, bind_eq_ok_iff, variantName_of_name named,
        Except.ok.injEq, exists_eq_left', found, Option.getD_some,
        deserializeSeq, array]
      rw [Datum.ReadsBack, ← visitTuple_eq_ok_iff vm lossy types items shapes ws
        fuel typed written smaller]
      simp [pure, Except.pure]
  | .structVariant variant fields, shape, w, fuel + 1,
      ⟨variants, shapes, view, found, typed, distinct⟩,
      ⟨k, v, stored, held, named, hash, written⟩, size => by
      have smaller : sizeOf fields < fuel := by
        simp only [Datum.structVariant.sizeOf_spec] at size
        omega
      obtain ⟨rows, rfl, rfl, rfl, each⟩ :=
        exists_rows vm lossy types fields shapes stored fuel typed written
          smaller
      have struct := visitRows_eq_ok_iff lossy
        (fun row member => (each row member).1)
        (fun row member => (each row member).2.1)
        (fun row member => (each row member).2.2) distinct
      simp only [deserialize, view]
      unfold deserializeEnum
      rw [held]
      simp only [visitEnum, bind_eq_ok_iff, variantName_of_name named,
        Except.ok.injEq, exists_eq_left', found, Option.getD_some,
        deserializeMap, hash]
      rw [Datum.ReadsBack, ← struct]
      simp [pure, Except.pure]

theorem visitSeq_eq_ok_iff
    (vm : Vm) (lossy : List UInt8 → String) (types : Types) :
    ∀ (items : List Datum) (shape : Shape) (ws : List Value) (fuel : Nat),
      AllHaveShape types items shape → ItemsWritten vm items ws →
      sizeOf items < fuel →
      (visitSeq (deserialize vm lossy types fuel) shape ws = .ok items ↔
        ItemsReadBack items)
  | [], _, _, _, _, written, _ => by
      cases written
      simp [visitSeq, ItemsReadBack, pure, Except.pure]
  | item :: items, shape, _, fuel, ⟨typed, others⟩,
      ⟨w, rest, same, first, written⟩, size => by
      subst same
      rw [List.cons.sizeOf_spec] at size
      have head := deserialize_eq_ok_iff vm lossy types item shape w fuel typed
        first (by omega)
      have tail := visitSeq_eq_ok_iff vm lossy types items shape rest fuel
        others written (by omega)
      rw [visitSeq, ItemsReadBack, ← head, ← tail]
      simp [bind_eq_ok_iff, pure, Except.pure]

theorem visitTuple_eq_ok_iff
    (vm : Vm) (lossy : List UInt8 → String) (types : Types) :
    ∀ (items : List Datum) (shapes : List Shape) (ws : List Value)
      (fuel : Nat), HaveShapes types items shapes →
      ItemsWritten vm items ws → sizeOf items < fuel →
      (visitTuple (deserialize vm lossy types fuel) shapes ws = .ok items ↔
        ItemsReadBack items)
  | [], _, _, _, typed, written, _ => by
      cases written
      cases typed
      simp [visitTuple, ItemsReadBack, pure, Except.pure]
  | item :: items, _, _, fuel, ⟨shape, shapes, sameShapes, typed, others⟩,
      ⟨w, rest, same, first, written⟩, size => by
      subst same
      subst sameShapes
      rw [List.cons.sizeOf_spec] at size
      have head := deserialize_eq_ok_iff vm lossy types item shape w fuel typed
        first (by omega)
      have tail := visitTuple_eq_ok_iff vm lossy types items shapes rest fuel
        others written (by omega)
      rw [visitTuple, ItemsReadBack, ← head, ← tail]
      simp [bind_eq_ok_iff, pure, Except.pure]

theorem visitMap_eq_ok_iff
    (vm : Vm) (lossy : List UInt8 → String) (types : Types) :
    ∀ (pairs : List (Datum × Datum)) (key value : Shape)
      (ws : List (Value × Value)) (fuel : Nat),
      PairsHaveShape types pairs key value → PairsWritten vm pairs ws →
      sizeOf pairs < fuel →
      (visitMap (deserialize vm lossy types fuel) key value ws = .ok pairs ↔
        PairsReadBack pairs)
  | [], _, _, _, _, _, written, _ => by
      cases written
      simp [visitMap, PairsReadBack, pure, Except.pure]
  | (label, v) :: pairs, key, value, _, 0, _, _, size =>
      absurd size (Nat.not_lt_zero _)
  | (label, v) :: pairs, key, value, _, fuel + 1,
      ⟨labelTyped, _, typed, others⟩,
      ⟨k, w, rest, same, isLabel, first, written⟩, size => by
      subst same
      rw [List.cons.sizeOf_spec, Prod.mk.sizeOf_spec] at size
      have labelIff := deserialize_key_eq_ok_iff lossy labelTyped
        isLabel fuel
      have head := deserialize_eq_ok_iff vm lossy types v value w (fuel + 1)
        typed first (by omega)
      have tail := visitMap_eq_ok_iff vm lossy types pairs key value rest
        (fuel + 1) others written (by omega)
      rw [visitMap, PairsReadBack, ← labelIff, ← head, ← tail]
      simp [bind_eq_ok_iff, pure, Except.pure]

theorem exists_rows
    (vm : Vm) (lossy : List UInt8 → String) (types : Types) :
    ∀ (fields : List (String × Datum)) (shapes : List (String × Shape))
      (stored : List (Value × Value)) (fuel : Nat),
      FieldsHaveShapes types fields shapes → FieldsWritten vm fields stored →
      sizeOf fields < fuel →
      ∃ rows : List Row, fields = rows.map Row.field ∧
        shapes = rows.map Row.declared ∧ stored = rows.map Row.stored ∧
        ∀ row ∈ rows, IsName vm row.name row.k ∧
          row.value.HasShape types row.shape ∧
          (deserialize vm lossy types fuel row.shape row.w = .ok row.value ↔
            row.value.ReadsBack)
  | [], _, _, _, typed, written, _ => by
      cases written
      cases typed
      exact ⟨[], rfl, rfl, rfl, by simp⟩
  | (name, value) :: fields, _, _, fuel,
      ⟨shape, shapes, sameShapes, typed, others⟩,
      ⟨k, w, rest, same, named, first, written⟩, size => by
      subst same
      subst sameShapes
      rw [List.cons.sizeOf_spec, Prod.mk.sizeOf_spec] at size
      have head := deserialize_eq_ok_iff vm lossy types value shape w fuel
        typed first (by omega)
      obtain ⟨rows, rfl, rfl, rfl, each⟩ := exists_rows vm lossy types fields
        shapes rest fuel others written (by omega)
      refine ⟨⟨name, value, shape, k, w⟩ :: rows, rfl, rfl, rfl, ?_⟩
      intro row member
      rcases List.mem_cons.mp member with rfl | member
      · exact ⟨named, typed, head⟩
      · exact each row member

end

/-! ## Every value of every type -/

/-- The value is written, and reading the result with its type gives it back
once there is fuel enough. -/
def RoundTrips (opts : Options) (lossy : List UInt8 → String) (types : Types)
    (vm : Vm) (v : Datum) (shape : Shape) : Prop :=
  ∃ w after, serialize opts v vm = .ok w after ∧
    ∃ bound, ∀ fuel, bound ≤ fuel →
      deserialize after lossy types fuel shape w = .ok v

theorem exists_written
    (opts : Options)
    (typed : v.HasShape types shape)
    (room : vm.syms.length + v.symbols opts ≤ 2 ^ 32) :
    ∃ w after, serialize opts v vm = .ok w after ∧ v.Written after w := by
  obtain ⟨w, after, ran, _, written⟩ :=
    (serialize_makes opts types v shape vm typed room).exists_ok
  exact ⟨w, after, ran, written⟩

/-- Every value comes back, whatever the options, exactly where it has no
unsigned integer from `2 ^ 127` on and no more entries than a Hash has room
for. -/
theorem round_trips_iff_reads_back
    (opts : Options)
    (lossy : List UInt8 → String)
    (types : Types)
    (vm : Vm)
    (v : Datum)
    (shape : Shape)
    (typed : v.HasShape types shape)
    (room : vm.syms.length + v.symbols opts ≤ 2 ^ 32) :
    RoundTrips opts lossy types vm v shape ↔ v.ReadsBack := by
  obtain ⟨w, after, ran, written⟩ := exists_written opts typed room
  have reads := deserialize_eq_ok_iff after lossy types v shape w
  constructor
  · rintro ⟨other, otherAfter, otherRan, bound, back⟩
    rw [ran] at otherRan
    cases otherRan
    have enough := back (max bound (sizeOf v + 1)) (Nat.le_max_left _ _)
    exact (reads _ typed written (by omega)).mp enough
  · intro back
    refine ⟨w, after, ran, sizeOf v + 1, ?_⟩
    intro fuel enough
    exact (reads fuel typed written (by omega)).mpr back

/-- A struct with a wide integer and a map from a text to a variant comes
back. -/
theorem struct_round_trips :
    RoundTrips ⟨true, true⟩ (fun _ => "") (fun _ => .unit) ⟨[], []⟩
      (.struct [("wide", .int .u64 (2 ^ 63)),
        ("map", .map [(.str "key", .unitVariant "Red")])])
      (.struct [("wide", .int .u64),
        ("map", .map .str (.enum [("Red", .unitStruct)]))]) := by
  apply (round_trips_iff_reads_back ⟨true, true⟩ (fun _ => "")
    (fun _ => .unit) ⟨[], []⟩ _ _ ?_ (by decide)).mpr
  · refine ⟨⟨nofun, ⟨by decide, trivial, trivial, trivial⟩, trivial⟩, ?_⟩
    intro field member
    cases member
  · refine ⟨_, rfl, ⟨_, _, rfl, ⟨rfl, by decide⟩, _, _, rfl, ?_, rfl⟩,
      by decide⟩
    exact ⟨_, _, rfl, ⟨rfl, rfl, ⟨_, rfl, rfl⟩, trivial⟩, by simp⟩

/-- The least unsigned integer that does not fit an `i128` is written and does
not come back. -/
theorem wide_unsigned_does_not_round_trip :
    (Datum.int .u128 (2 ^ 127)).HasShape (fun _ => .unit) (.int .u128) ∧
      ¬RoundTrips ⟨false, false⟩ (fun _ => "") (fun _ => .unit) ⟨[], []⟩
        (.int .u128 (2 ^ 127)) (.int .u128) := by
  have typed : (Datum.int .u128 (2 ^ 127)).HasShape (fun _ => .unit)
      (.int .u128) := ⟨rfl, by decide⟩
  refine ⟨typed, ?_⟩
  rintro ⟨w, after, ran, bound, back⟩
  obtain ⟨other, otherAfter, otherRan, written⟩ :=
    exists_written ⟨false, false⟩ typed
      (show (⟨[], []⟩ : Vm).syms.length + 0 ≤ 2 ^ 32 by decide)
  rw [ran] at otherRan
  cases otherRan
  have small := (deserialize_eq_ok_iff after (fun _ => "") (fun _ => .unit)
    (.int .u128 (2 ^ 127)) (.int .u128) w (bound + 3 + sizeOf
      (Datum.int .u128 (2 ^ 127))) typed written (by omega)).mp
    (back _ (by omega)) rfl
  omega

end SabiRuby.Serde
