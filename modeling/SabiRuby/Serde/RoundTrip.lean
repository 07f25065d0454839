import SabiRuby.Serde.Deserializer
import SabiRuby.Serde.Writes

/-!
# Reading back what was written

The serializer writes every integer, and a map or a struct as far as a Hash has
room.  The deserializer reads an integer as an `i128`, so an unsigned one from
`2 ^ 127` on is refused.  Everything else comes back.
-/

namespace SabiRuby.Serde

open Library Integer

mutual

/-- No unsigned integer is too wide for an `i128`, no map has more entries than a
Hash has room for, and no struct more fields, those that are `None` apart. -/
def Datum.ReadsBack : Datum → Prop
  | .int kind v => kind = .u128 → v < 2 ^ 127
  | .some value => value.ReadsBack
  | .newtypeStruct value => value.ReadsBack
  | .seq items => ItemsReadBack items
  | .tuple items => ItemsReadBack items
  | .tupleStruct items => ItemsReadBack items
  | .map pairs =>
      pairs.length ≤ HashTable.indexLimit ∧ PairsReadBack pairs
  | .struct fields => FieldsReadBack fields ∧
      ∀ field ∈ fields.drop HashTable.indexLimit, field.2 = .none
  | .newtypeVariant _ value => value.ReadsBack
  | .tupleVariant _ items => ItemsReadBack items
  | .structVariant _ fields => FieldsReadBack fields ∧
      ∀ field ∈ fields.drop HashTable.indexLimit, field.2 = .none
  | _ => True

def ItemsReadBack : List Datum → Prop
  | [] => True
  | item :: items => item.ReadsBack ∧ ItemsReadBack items

def PairsReadBack : List (Datum × Datum) → Prop
  | [] => True
  | (label, value) :: pairs =>
      label.ReadsBack ∧ value.ReadsBack ∧ PairsReadBack pairs

def FieldsReadBack : List (String × Datum) → Prop
  | [] => True
  | (_, value) :: fields => value.ReadsBack ∧ FieldsReadBack fields

end

/-! ## Answers -/

theorem bind_eq_ok_iff
    (first : Answer α)
    (second : α → Answer β) :
    first >>= second = .ok result ↔
      ∃ value, first = .ok value ∧ second value = .ok result := by
  cases first with
  | error stop =>
      constructor
      · intro impossible
        cases impossible
      · rintro ⟨_, impossible, _⟩
        cases impossible
  | ok value =>
      constructor
      · intro answered
        exact ⟨value, rfl, answered⟩
      · rintro ⟨_, ⟨⟩, answered⟩
        exact answered

theorem map_eq_ok_iff (change : α → β) (first : Answer α) :
    change <$> first = .ok result ↔
      ∃ value, first = .ok value ∧ change value = result := by
  cases first with
  | error stop =>
      constructor
      · intro impossible
        cases impossible
      · rintro ⟨_, impossible, _⟩
        cases impossible
  | ok value =>
      constructor
      · rintro ⟨⟩
        exact ⟨value, rfl, rfl⟩
      · rintro ⟨_, ⟨⟩, rfl⟩
        rfl

/-- A constructor around an answer. -/
theorem wrap_eq_ok_iff
    {wrap : α → β}
    (injective : ∀ one other, wrap one = wrap other → one = other)
    (first : Answer α) :
    wrap <$> first = .ok (wrap result) ↔ first = .ok result := by
  rw [map_eq_ok_iff]
  constructor
  · rintro ⟨value, answered, same⟩
    rw [answered, injective _ _ same]
  · intro answered
    exact ⟨result, answered, rfl⟩

/-! ## Leaves -/

theorem asI128_eq
    (written : IsInteger vm number w) :
    asI128 vm w = if FitsI128 number then some number else none := by
  rcases written with ⟨fits, rfl⟩ | ⟨large, wide, held, formed, rfl⟩
  · have same : (Int64.ofInt number).toInt = number := by
      rw [Int64.toInt_ofInt]
      exact bmod_of_small fits.1 fits.2
    have wider : FitsI128 number := by
      unfold BigInt.FitsI64 at fits
      unfold FitsI128
      omega
    rw [if_pos wider]
    exact congrArg some same
  · obtain ⟨text, shown, parsed⟩ := BigInt.parseI128_toStringRadix formed
    have narrow : wide.toI64 = none := by rw [formed.toI64_eq, if_neg large]
    cases w with
    | obj o => simp only [asI128, held, narrow, shown, Option.bind_some, parsed]
    | _ =>
        obtain ⟨_, there, _⟩ := (vm.bigInt_eq_some_iff _ _).mp held
        cases there

/-- Every integer comes back but an unsigned one that is too wide. -/
theorem deserializeInt_eq_ok_iff
    (holds : kind.Holds number)
    (written : IsInteger vm number w) :
    deserializeInt vm kind w = .ok number ↔
      (kind = .u128 → number < 2 ^ 127) := by
  have fits : FitsI128 number ↔ (kind = .u128 → number < 2 ^ 127) := by
    unfold FitsI128
    cases kind with
    | u128 =>
        have positive : 0 ≤ number := holds.1
        simp only [true_implies]
        omega
    | _ =>
        simp only [IntKind.Holds, IntKind.least, IntKind.largest] at holds
        simp only [reduceCtorEq, false_implies, iff_true]
        omega
  unfold deserializeInt
  rw [asI128_eq written, ← fits]
  by_cases inside : FitsI128 number
  · rw [if_pos inside]
    simp only [holds, if_true, inside, iff_true]
    rfl
  · rw [if_neg inside]
    simp only [inside, iff_false]
    intro impossible
    cases impossible

theorem asStr_of_bytes
    (held : vm.strBytes w = some (utf8 text)) :
    asStr vm lossy w = some text := by
  cases w with
  | obj o => simp only [asStr, held, Option.bind_some, fromUtf8_utf8]
  | _ =>
      obtain ⟨_, there, _⟩ := (vm.strBytes_eq_some_iff _ _).mp held
      cases there

theorem asStr_of_name
    (written : IsName vm name w) : asStr vm lossy w = some name := by
  rcases written with held | ⟨s, rfl, named⟩
  · exact asStr_of_bytes held
  · simp only [asStr, named, Option.map_some, fromUtf8_utf8, Option.getD_some]

theorem deserializeString_of_name
    (lossy : List UInt8 → String)
    (written : IsName vm name w) :
    deserializeString vm lossy w = .ok name := by
  unfold deserializeString
  rw [asStr_of_name written]
  rfl

theorem isNil_of_object
    {vm : Vm}
    (held : vm.object w = some cell) : w.isNil = false := by
  cases w with
  | nil => cases held
  | _ => rfl

theorem isNil_of_bytes
    {vm : Vm}
    (held : vm.strBytes w = some bytes) : w.isNil = false := by
  obtain ⟨_, there, _⟩ := (vm.strBytes_eq_some_iff _ _).mp held
  exact isNil_of_object there

theorem isNil_of_array
    {vm : Vm}
    (held : vm.aryVals w = some items) : w.isNil = false := by
  obtain ⟨_, there, _⟩ := (vm.aryVals_eq_some_iff _ _).mp held
  exact isNil_of_object there

theorem isNil_of_hash
    {vm : Vm}
    (held : vm.hashEntries w = some entries) : w.isNil = false := by
  obtain ⟨_, there, _⟩ := (vm.hashEntries_eq_some_iff _ _).mp held
  exact isNil_of_object there

/-- A value is written as `nil` exactly where it says so. -/
theorem Datum.Written.isNil_eq :
    ∀ (v : Datum) {w : Value}, v.Written vm w → w.isNil = v.writesNil
  | .bool v, _, written => by
      rw [show _ = ofBool v from written]
      cases v <;> rfl
  | .int _ _, _, written => by
      rcases written with ⟨_, rfl⟩ | ⟨_, wide, held, _⟩
      · rfl
      · obtain ⟨_, there, _⟩ := (vm.bigInt_eq_some_iff _ _).mp held
        exact isNil_of_object there
  | .char _, _, written => isNil_of_bytes written
  | .str _, _, written => isNil_of_bytes written
  | .bytes _, _, written => isNil_of_bytes written
  | .none, _, written => by
      rw [show _ = Value.nil from written]
      rfl
  | .some value, _, written =>
      Datum.Written.isNil_eq value written
  | .unit, _, written => by
      rw [show _ = Value.nil from written]
      rfl
  | .unitStruct, _, written => by
      rw [show _ = Value.nil from written]
      rfl
  | .newtypeStruct value, _, written =>
      Datum.Written.isNil_eq value written
  | .seq _, _, ⟨_, held, _⟩ => isNil_of_array held
  | .tuple _, _, ⟨_, held, _⟩ => isNil_of_array held
  | .tupleStruct _, _, ⟨_, held, _⟩ => isNil_of_array held
  | .map _, _, ⟨_, held, _⟩ => isNil_of_hash held
  | .struct _, _, ⟨_, held, _⟩ => isNil_of_hash held
  | .unitVariant _, _, ⟨_, isSym, _⟩ => by
      rw [isSym]
      rfl
  | .newtypeVariant _ _, _, ⟨_, _, held, _⟩ => isNil_of_hash held
  | .tupleVariant _ _, _, ⟨_, _, _, held, _⟩ => isNil_of_hash held
  | .structVariant _ _, _, ⟨_, _, _, held, _⟩ => isNil_of_hash held
/-! ## Structs -/

/-- A field with its type, as it is written. -/
structure Row where
  name : String
  value : Datum
  shape : Shape
  k : Value
  w : Value

namespace Row

def field (row : Row) : String × Datum := (row.name, row.value)

def declared (row : Row) : String × Shape := (row.name, row.shape)

def stored (row : Row) : Value × Value := (row.k, row.w)

end Row

section Rows

variable {vm : Vm} {lossy : List UInt8 → String} {types : Types}
  {read : Shape → Value → Answer Datum}

/-- What is read of the fields among the entries. -/
theorem visitFields_eq_ok_iff
    (declared : List (String × Shape))
    (rows : List Row)
    (named : ∀ row ∈ rows, IsName vm row.name row.k)
    (known : ∀ row ∈ rows, declared.lookup row.name = some row.shape)
    (distinct : (rows.map Row.name).Nodup)
    (seen : List (String × Datum))
    (unseen : ∀ row ∈ rows, seen.lookup row.name = none) :
    visitFields vm lossy read declared (rows.map Row.stored) seen = .ok out ↔
      ∃ values, List.Forall₂
          (fun row value => read row.shape row.w = .ok value) rows values ∧
        out = seen ++ (rows.map Row.name).zip values := by
  induction rows generalizing seen with
  | nil =>
      constructor
      · rintro ⟨⟩
        exact ⟨[], List.Forall₂.nil, by simp⟩
      · rintro ⟨values, related, rfl⟩
        cases related
        simp [visitFields, pure, Except.pure]
  | cons row rows ih =>
      obtain ⟨apart, distinct⟩ := List.nodup_cons.mp distinct
      have name := deserializeString_of_name lossy
        (named row List.mem_cons_self)
      have shape := known row List.mem_cons_self
      have fresh := unseen row List.mem_cons_self
      have rest : ∀ value, visitFields vm lossy read declared
          (rows.map Row.stored) (seen ++ [(row.name, value)]) = .ok out ↔ _ :=
        fun value => ih
          (fun other member => named other (List.mem_cons_of_mem _ member))
          (fun other member => known other (List.mem_cons_of_mem _ member))
          distinct (seen ++ [(row.name, value)]) (by
            intro other member
            have different : (other.name == row.name) = false := by
              apply beq_false_of_ne
              intro same
              apply apart
              rw [← same]
              exact List.mem_map.mpr ⟨other, member, rfl⟩
            rw [List.lookup_append,
              unseen other (List.mem_cons_of_mem _ member)]
            simp [List.lookup_cons, different])
      rw [List.map_cons, Row.stored, visitFields, bind_eq_ok_iff]
      constructor
      · rintro ⟨_, answered, visited⟩
        rw [name] at answered
        cases answered
        simp only [shape, fresh, Option.isSome_none, Bool.false_eq_true,
          if_false] at visited
        obtain ⟨value, isRead, visited⟩ := (bind_eq_ok_iff _ _).mp visited
        obtain ⟨values, related, rfl⟩ := (rest value).mp visited
        exact ⟨value :: values, List.Forall₂.cons isRead related, by simp⟩
      · rintro ⟨values, related, rfl⟩
        cases related with
        | @cons _ value _ values isRead related =>
            refine ⟨row.name, name, ?_⟩
            simp only [shape, fresh, Option.isSome_none, Bool.false_eq_true,
              if_false]
            apply (bind_eq_ok_iff _ _).mpr
            exact ⟨value, isRead, (rest value).mpr ⟨values, related, by simp⟩⟩

theorem lookup_zip_of_notMem
    {names : List String}
    (values : List Datum)
    (absent : name ∉ names) : (names.zip values).lookup name = none := by
  induction names generalizing values with
  | nil => rfl
  | cons first names ih =>
      rw [List.mem_cons, not_or] at absent
      obtain ⟨different, absent⟩ := absent
      cases values with
      | nil => rfl
      | cons value values =>
          rw [List.zip_cons_cons, List.lookup_cons,
            beq_false_of_ne different]
          exact ih values absent

/-- The value that is found for a field is the one that was read. -/
theorem exists_lookup_zip
    (related : List.Forall₂
      (fun row value => read row.shape row.w = .ok value) rows values)
    (distinct : (rows.map Row.name).Nodup) :
    ∀ row ∈ rows, ∃ value, read row.shape row.w = .ok value ∧
      ((rows.map Row.name).zip values).lookup row.name = some value := by
  induction related with
  | nil => simp
  | @cons first value rows values isRead related ih =>
      obtain ⟨apart, distinct⟩ := List.nodup_cons.mp distinct
      intro row member
      rcases List.mem_cons.mp member with rfl | member
      · exact ⟨value, isRead, by simp⟩
      · obtain ⟨found, foundRead, held⟩ :=
          ih distinct row member
        have different : (row.name == first.name) = false := by
          apply beq_false_of_ne
          intro same
          apply apart
          rw [← same]
          exact List.mem_map.mpr ⟨row, member, rfl⟩
        refine ⟨found, foundRead, ?_⟩
        rw [List.map_cons, List.zip_cons_cons, List.lookup_cons, different]
        exact held

/-- The fields are filled in with what was seen, and with `None` where nothing
was. -/
theorem fillFields_eq_ok_iff
    (seen : List (String × Datum))
    (rows : List Row) :
    fillFields types seen (rows.map Row.declared) =
        .ok (rows.map Row.field) ↔
      ∀ row ∈ rows, seen.lookup row.name = some row.value ∨
        seen.lookup row.name = none ∧
          (∃ inner, types.view row.shape = .option inner) ∧
          row.value = .none := by
  induction rows with
  | nil => simp [fillFields, pure, Except.pure]
  | cons row rows ih =>
      rw [List.forall_mem_cons, ← ih]
      rw [List.map_cons, List.map_cons, Row.declared, fillFields]
      cases found : seen.lookup row.name with
      | some value =>
          dsimp only
          rw [bind_eq_ok_iff]
          constructor
          · rintro ⟨rest, filled, same⟩
            obtain ⟨first, rfl⟩ := List.cons.inj (Except.ok.inj same)
            exact ⟨Or.inl (congrArg some (Prod.ext_iff.mp first).2), filled⟩
          · rintro ⟨isValue | ⟨absent, _⟩, filled⟩
            · refine ⟨_, filled, ?_⟩
              rw [Option.some.inj isValue]
              rfl
            · cases absent
      | none =>
          dsimp only
          cases shape : types.view row.shape with
          | option inner =>
              dsimp only
              rw [bind_eq_ok_iff]
              constructor
              · rintro ⟨rest, filled, same⟩
                obtain ⟨first, rfl⟩ := List.cons.inj (Except.ok.inj same)
                exact ⟨Or.inr ⟨rfl, ⟨inner, rfl⟩,
                  (Prod.ext_iff.mp first).2.symm⟩, filled⟩
              · rintro ⟨present | ⟨_, _, isNone⟩, filled⟩
                · cases present
                · refine ⟨_, filled, ?_⟩
                  rw [Row.field, isNone]
                  rfl
          | _ =>
              constructor
              · intro impossible
                cases impossible
              · rintro ⟨present | ⟨_, ⟨_, otherwise⟩, _⟩, _⟩
                · cases present
                · cases otherwise

theorem lookup_declared
    {rows : List Row}
    (distinct : (rows.map Row.name).Nodup) :
    ∀ row ∈ rows, (rows.map Row.declared).lookup row.name =
      some row.shape := by
  induction rows with
  | nil => simp
  | cons first rows ih =>
      obtain ⟨apart, distinct⟩ := List.nodup_cons.mp distinct
      intro row member
      rcases List.mem_cons.mp member with rfl | member
      · simp [Row.declared]
      · have different : (row.name == first.name) = false := by
          apply beq_false_of_ne
          intro same
          apply apart
          rw [← same]
          exact List.mem_map.mpr ⟨row, member, rfl⟩
        rw [List.map_cons, Row.declared, List.lookup_cons, different]
        exact ih distinct row member

/-- A struct comes back if the fields that are stored do and the others are
`None`. -/
theorem visitStruct_eq_ok_iff
    (rows : List Row)
    (named : ∀ row ∈ rows, IsName vm row.name row.k)
    (typed : ∀ row ∈ rows, row.value.HasShape types row.shape)
    (distinct : (rows.map Row.name).Nodup)
    (limit : Nat) :
    visitStruct vm lossy types read (rows.map Row.declared)
        ((rows.map Row.stored).take limit) = .ok (rows.map Row.field) ↔
      (∀ row ∈ rows.take limit, read row.shape row.w = .ok row.value) ∧
        ∀ row ∈ rows.drop limit, row.value = .none := by
  have known := lookup_declared distinct
  have apart : ∀ row ∈ rows.drop limit,
      row.name ∉ (rows.take limit).map Row.name := by
    intro row member inTaken
    have whole : ((rows.take limit).map Row.name ++
        (rows.drop limit).map Row.name).Nodup := by
      rw [← List.map_append, List.take_append_drop]
      exact distinct
    exact List.disjoint_of_nodup_append whole inTaken
      (List.mem_map.mpr ⟨row, member, rfl⟩)
  have distinctTaken : ((rows.take limit).map Row.name).Nodup :=
    distinct.sublist ((List.take_sublist limit rows).map Row.name)
  have visited : ∀ out, visitFields vm lossy read (rows.map Row.declared)
      ((rows.map Row.stored).take limit) [] = .ok out ↔
      ∃ values, List.Forall₂
          (fun row value => read row.shape row.w = .ok value)
          (rows.take limit) values ∧
        out = [] ++ ((rows.take limit).map Row.name).zip values := by
    intro out
    rw [← List.map_take]
    exact visitFields_eq_ok_iff (rows.map Row.declared) (rows.take limit)
      (fun row member => named row (List.mem_of_mem_take member))
      (fun row member => known row (List.mem_of_mem_take member))
      distinctTaken [] (fun _ _ => rfl)
  unfold visitStruct
  rw [bind_eq_ok_iff]
  constructor
  · rintro ⟨out, answered, filled⟩
    obtain ⟨values, related, rfl⟩ := (visited out).mp answered
    have each := (fillFields_eq_ok_iff _ rows).mp filled
    rw [List.nil_append] at each
    constructor
    · intro row member
      obtain ⟨value, isRead, found⟩ :=
        exists_lookup_zip related distinctTaken row member
      rcases each row (List.mem_of_mem_take member) with held | ⟨absent, _⟩
      · rw [found] at held
        rw [← Option.some.inj held]
        exact isRead
      · rw [found] at absent
        cases absent
    · intro row member
      have absent := lookup_zip_of_notMem values (apart row member)
      rcases each row (List.mem_of_mem_drop member) with held | ⟨_, _, isNone⟩
      · rw [absent] at held
        cases held
      · exact isNone
  · rintro ⟨taken, dropped⟩
    have related : List.Forall₂
        (fun row value => read row.shape row.w = .ok value) (rows.take limit)
        ((rows.take limit).map Row.value) := by
      rw [List.forall₂_map_right_iff]
      exact List.forall₂_same.mpr taken
    refine ⟨_, (visited _).mpr ⟨_, related, rfl⟩, ?_⟩
    apply (fillFields_eq_ok_iff _ rows).mpr
    intro row member
    rw [List.nil_append]
    rw [← List.take_append_drop limit rows] at member
    rcases List.mem_append.mp member with inTaken | inDropped
    · obtain ⟨value, isRead, found⟩ :=
        exists_lookup_zip related distinctTaken row inTaken
      rw [taken row inTaken] at isRead
      rw [found, Except.ok.inj isRead]
      exact Or.inl rfl
    · refine Or.inr ⟨lookup_zip_of_notMem _ (apart row inDropped), ?_,
        dropped row inDropped⟩
      have isTyped := typed row (List.mem_of_mem_drop inDropped)
      rw [dropped row inDropped] at isTyped
      exact isTyped

end Rows

end SabiRuby.Serde
