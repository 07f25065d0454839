import SabiRuby.HashTable.Store
import SabiRuby.HashTable.WellFormed

/-!
# Keys that change the table while they are asked

The `hash` and `eql?` of a key may store into the Hash they are asked for,
remove from it, empty it or replace its table, and the stores they make ask
keys again.  Every operation still stays in range, and what a search answers is
an entry of the table the search ends with, whose key is the one compared last.
-/

namespace SabiRuby.HashTable

open Library
open Exec (satisfies_bind satisfies_get satisfies_get_bind satisfies_orPanic
  satisfies_set satisfies_modify satisfies_pure)

/-- What the operations of a Hash raise by themselves. -/
def OwnError (error : VmError) : Prop :=
  error = .hashModified ∨ error = .hashTooBig

/-- The operation raised by itself and left a well-formed table. -/
def Refused (error : VmError) (after : Vm ω) : Prop :=
  WellFormed after.table ∧ OwnError error

/-- The table is well formed and of the same shape. -/
def Kept (before : HashData) (after : Vm ω) : Prop :=
  WellFormed after.table ∧ SameShape before after.table

/-- Keys leave well-formed tables well formed while they are asked. -/
structure Tame (callbacks : Callbacks ω) : Prop where
  hash : ∀ key vm, WellFormed vm.table →
    Exec.Satisfies (callbacks.callHash key) vm
      (fun _ after => WellFormed after.table) Refused
  eql : ∀ key stored vm, WellFormed vm.table →
    Exec.Satisfies (callbacks.callEql key stored) vm
      (fun _ after => WellFormed after.table) Refused

/-- Entry `p` of the table holds the key that was compared last: a comparison
with the key of some entry said yes and ended here, and the entry in that slot
is still this one. -/
def Compared (callbacks : Callbacks ω) (key : Value) (p : Nat)
    (after : Vm ω) : Prop :=
  ∃ before q stored, before.table.keyAt q = some stored ∧
    hObjEql callbacks key stored before = .ok true after ∧
    after.table.keyAt p = some stored ∧
    after.table.slotAt p = before.table.slotAt q

section Algorithm

variable {ω : Type} {callbacks : Callbacks ω} {vm : Vm ω}

theorem Compared.inside
    (compared : Compared callbacks key p after) :
    p < after.table.entries.length := by
  obtain ⟨_, _, _, _, _, held, _⟩ := compared
  obtain ⟨entry, there, _⟩ := Option.map_eq_some_iff.mp held
  exact (List.getElem?_eq_some_iff.mp there).1

/-! ## The modification check -/

/-- What the check of a table holds. -/
theorem check_spec
    (slotsLength : h.slots.length = h.entries.length) :
    ∃ seen, HashData.check h = some seen ∧ seen.bit = h.ibBit ∧
      seen.eaCapa = h.eaCapa ∧ seen.size = u32 h.entries.length := by
  obtain ⟨seen, checked⟩ := check_isSome slotsLength
  refine ⟨seen, checked, ?_⟩
  unfold HashData.check at checked
  simp only at checked
  split at checked
  · cases checked
    exact ⟨rfl, rfl, rfl⟩
  · split at checked
    · split at checked
      · cases checked
      · cases checked
        exact ⟨rfl, rfl, rfl⟩
    · cases checked
      exact ⟨rfl, rfl, rfl⟩

theorem HCheck.same_spec {before after : HCheck}
    (same : before.same after = true) :
    before.bit = after.bit ∧ before.eaCapa = after.eaCapa ∧
      before.size = after.size := by
  simp only [HCheck.same, Bool.and_eq_true, beq_iff_eq] at same
  obtain ⟨⟨⟨⟨bit, capa⟩, size⟩, _⟩, _⟩ := same
  exact ⟨bit, capa, size⟩

/-- A call under the modification check that comes back leaves the shape. -/
theorem checked_kept
    {call : Exec VmError (Vm ω) β}
    (wellFormed : WellFormed vm.table)
    (asked : Exec.Satisfies call vm (fun _ after => WellFormed after.table)
      Refused)
    (result : β → α) :
    Exec.Satisfies (do
      let before ← hCheck
      let answer ← call
      hVerify before
      pure (result answer)) vm (fun _ after => Kept vm.table after) Refused := by
  obtain ⟨seen, checked, bit, capa, size⟩ := check_spec wellFormed.slotsLength
  unfold hVerify hCheck
  simp only [satisfies_bind, satisfies_get, satisfies_orPanic]
  refine ⟨seen, checked, asked.mono ?_ fun _ _ refused => refused⟩
  intro answer after later
  obtain ⟨now, checkedNow, bitNow, capaNow, sizeNow⟩ :=
    check_spec later.slotsLength
  refine ⟨now, checkedNow, ?_⟩
  by_cases same : seen.same now = true
  · rw [if_pos same, satisfies_pure, satisfies_pure]
    obtain ⟨sameBit, sameCapa, sameSize⟩ := HCheck.same_spec same
    rw [bit, bitNow] at sameBit
    rw [capa, capaNow] at sameCapa
    rw [size, sizeNow, wellFormed.u32_length, later.u32_length] at sameSize
    exact ⟨later, sameBit.symm, sameCapa.symm, sameSize.symm⟩
  · rw [if_neg same, Exec.satisfies_raise]
    exact ⟨later, Or.inl rfl⟩

theorem Kept.refl (wellFormed : WellFormed vm.table) : Kept vm.table vm :=
  ⟨wellFormed, SameShape.refl _⟩

theorem Kept.trans {middle after : Vm ω}
    (first : Kept h middle)
    (second : Kept middle.table after) :
    Kept h after :=
  ⟨second.1, first.2.trans second.2⟩

/-! ## Hashing and comparing -/

section

variable (tame : Tame callbacks)
include tame

theorem hCode_kept
    (wellFormed : WellFormed vm.table)
    (key : Value) :
    Exec.Satisfies (hCode callbacks key) vm
      (fun _ after => Kept vm.table after) Refused := by
  unfold hCode
  rw [satisfies_get_bind]
  cases key with
  | obj object =>
      dsimp only
      cases vm.heap.string object with
      | some bytes => exact Kept.refl wellFormed
      | none =>
          exact checked_kept wellFormed (tame.hash (.obj object) vm wellFormed)
            fun answer => (mix (vm.heap.vtype object ^^^
              hashNumber answer)).toNat
  | _ => exact Kept.refl wellFormed

theorem mrbEql_wellFormed
    (wellFormed : WellFormed vm.table)
    (key stored : Value) :
    Exec.Satisfies (mrbEql callbacks key stored) vm
      (fun _ after => WellFormed after.table) Refused := by
  have general : Exec.Satisfies
      (if callbacks.eqlBasic vm key then
        pure (callbacks.sameValue vm key stored)
      else do
        let answer ← callbacks.callEql key stored
        pure answer.truthy) vm
      (fun _ after => WellFormed after.table) Refused := by
    split
    · exact wellFormed
    · rw [satisfies_bind]
      exact tame.eql key stored vm wellFormed
  unfold mrbEql
  rw [satisfies_get_bind]
  split
  · exact wellFormed
  · cases key with
    | int number => exact wellFormed
    | float number => exact wellFormed
    | obj object =>
        dsimp only
        cases vm.heap.string object with
        | some bytes => cases stored <;> exact wellFormed
        | none => exact general
    | _ => exact general

theorem hObjEql_kept
    (wellFormed : WellFormed vm.table)
    (key stored : Value) :
    Exec.Satisfies (hObjEql callbacks key stored) vm
      (fun _ after => Kept vm.table after) Refused := by
  have general := checked_kept wellFormed
    (mrbEql_wellFormed tame wellFormed key stored) id
  have same := Kept.refl wellFormed
  unfold hObjEql
  rw [satisfies_get_bind]
  cases key with
  | sym symbol => exact same
  | int number => exact same
  | float number => cases stored <;> exact same
  | obj object =>
      dsimp only
      cases vm.heap.string object with
      | some bytes => cases stored <;> exact same
      | none => exact general
  | _ => exact general

end

/-- A slot that still holds a key is an entry with that key. -/
theorem slotHolds_spec
    (slotsLength : h.slots.length = h.entries.length)
    (slot : Nat)
    (key : Value) :
    ∃ answer, HashData.slotHolds h slot key = some answer ∧
      ∀ p, answer = some p →
        h.slotAt p = some slot ∧ h.keyAt p = some key := by
  unfold HashData.slotHolds
  cases search : h.posOfSlot slot with
  | none => exact ⟨none, rfl, by simp⟩
  | some p =>
      have slotted : h.slots[p]? = some slot := by
        unfold HashData.posOfSlot at search
        split at search
        · rename_i q found
          cases search
          exact getElem?_of_binarySearch_ok found
        · cases search
      have inside : p < h.entries.length :=
        slotsLength ▸ (List.getElem?_eq_some_iff.mp slotted).1
      simp only [List.getElem?_eq_getElem inside]
      refine ⟨_, rfl, ?_⟩
      intro q answered
      split at answered
      · rename_i word
        cases answered
        refine ⟨slotted, ?_⟩
        unfold HashData.keyAt
        rw [List.getElem?_eq_getElem inside, Option.map_some,
          (sameWord_iff _ _).mp word]
      · cases answered

/-- The entry in a slot after a call, if it is still there. -/
theorem hCheckVacated_spec
    (wellFormed : WellFormed vm.table)
    (slot : Nat)
    (stored : Value) :
    Exec.Satisfies (hCheckVacated slot stored) vm
      (fun p after => after = vm ∧ vm.table.slotAt p = some slot ∧
        vm.table.keyAt p = some stored) Refused := by
  obtain ⟨answer, found, spec⟩ :=
    slotHolds_spec wellFormed.slotsLength slot stored
  unfold hCheckVacated
  simp only [satisfies_bind, satisfies_get, satisfies_orPanic]
  refine ⟨answer, found, ?_⟩
  cases answer with
  | none => exact ⟨wellFormed, Or.inl rfl⟩
  | some p => exact ⟨rfl, spec p rfl⟩

/-- What a comparison answers is the entry it compared. -/
theorem hCompare_compared
    (tame : Tame callbacks)
    (wellFormed : WellFormed vm.table)
    (key : Value)
    (p : Nat) :
    Exec.Satisfies (hCompare callbacks key p) vm
      (fun answer after => Kept vm.table after ∧
        ∀ q, answer = some q → Compared callbacks key q after) Refused := by
  unfold hCompare
  rw [satisfies_get_bind]
  cases held : vm.table.keyAt p with
  | none => exact ⟨Kept.refl wellFormed, by simp⟩
  | some stored =>
      obtain ⟨entry, there, _⟩ := Option.map_eq_some_iff.mp held
      obtain ⟨slot, slotted⟩ :=
        wellFormed.slotAt (List.getElem?_eq_some_iff.mp there).1
      simp only [satisfies_bind, satisfies_orPanic]
      refine ⟨slot, slotted, ?_⟩
      refine (hObjEql_kept tame wellFormed key stored).ran.mono ?_
        fun _ _ refused => refused
      rintro answer after ⟨kept, ran⟩
      cases answer with
      | false => exact ⟨kept, by simp⟩
      | true =>
          rw [if_pos rfl, satisfies_bind]
          refine (hCheckVacated_spec kept.1 slot stored).mono ?_
            fun _ _ refused => refused
          rintro q _ ⟨rfl, sameSlot, sameKey⟩
          refine ⟨kept, ?_⟩
          rintro _ ⟨⟩
          exact ⟨vm, p, stored, held, ran, sameKey, sameSlot.trans slotted.symm⟩

/-! ## Searches -/

/-- What was found is the entry compared last. -/
def FoundCompared (callbacks : Callbacks ω) (key : Value) (found : Found)
    (after : Vm ω) : Prop :=
  ∀ p, found = .atEntry p → Compared callbacks key p after

theorem WellFormed.indexInRange
    (wellFormed : WellFormed h)
    (hasIndex : h.isHt = true) : InRange h :=
  ⟨wellFormed.mask_inside hasIndex, wellFormed.inRange hasIndex⟩

section

variable (native : nativeBytes vm.heap key = some bytes)
include native

/-- A native key is compared without a call. -/
theorem hObjEql_native
    (stored : Value) :
    hObjEql callbacks key stored vm =
      .ok (nativeEql vm.heap key bytes stored) vm := by
  cases key with
  | nil => simp [nativeBytes] at native
  | falseValue => simp [nativeBytes] at native
  | trueValue => simp [nativeBytes] at native
  | int number => rfl
  | sym symbol => rfl
  | float number => cases stored <;> rfl
  | obj object =>
      cases text : vm.heap.string object with
      | none => simp [nativeBytes, text] at native
      | some own =>
          have sameBytes : bytes = some own := by
            simpa [nativeBytes, text] using native.symm
          subst sameBytes
          cases stored <;>
            simp [hObjEql, nativeEql, text, bind, EStateM.bind, Exec.get_apply,
              pure, EStateM.pure]

/-- A native key that is the same as the one of an entry was compared with
it. -/
theorem compared_of_native
    (held : vm.table.entries[p]? = some entry)
    (same : nativeEql vm.heap key bytes entry.1 = true) :
    Compared callbacks key p vm := by
  have stored : vm.table.keyAt p = some entry.1 := by
    unfold HashData.keyAt
    rw [held, Option.map_some]
  refine ⟨vm, p, entry.1, stored, ?_, stored, rfl⟩
  rw [hObjEql_native native, same]

/-- The probe of an index without Ruby answers the entry it compared last. -/
theorem scanKeys_compared
    (found : scanKeys vm.table code (nativeEql vm.heap key bytes) = .found p) :
    Compared callbacks key p vm := by
  obtain ⟨_, matching⟩ := scan_found found
  cases held : vm.table.entries[p]? with
  | none => simp [held] at matching
  | some entry =>
      rw [held, Option.any_some] at matching
      exact compared_of_native native held matching

end

/-- The search without Ruby. -/
theorem findNative_kept
    (callbacks : Callbacks ω)
    (wellFormed : WellFormed vm.table)
    (key : Value) :
    Exec.Satisfies (findNative key) vm
      (fun answer after => after = vm ∧
        ∀ p, answer = some (some p) → Compared callbacks key p vm)
      Refused := by
  unfold findNative
  rw [satisfies_get_bind]
  cases native : nativeBytes vm.heap key with
  | none => exact ⟨rfl, by simp⟩
  | some bytes =>
      dsimp only
      by_cases hasIndex : vm.table.isHt = true
      · rw [if_pos hasIndex]
        cases coded : nativeCode vm.heap key with
        | none => exact ⟨rfl, by simp⟩
        | some code =>
            dsimp only
            rw [findNativeLoop_eq (wellFormed.indexInRange hasIndex)]
            refine ⟨rfl, ?_⟩
            intro p answered
            cases scanned : scanKeys vm.table code
                (nativeEql vm.heap key bytes) with
            | found q =>
                rw [scanned] at answered
                cases answered
                exact scanKeys_compared native scanned
            | vacant b =>
                rw [scanned] at answered
                cases answered
            | exhausted =>
                rw [scanned] at answered
                cases answered
      · rw [if_neg hasIndex]
        refine ⟨rfl, ?_⟩
        intro p answered
        have first := Option.some.inj answered
        obtain ⟨inside, same, _⟩ :=
          List.findIdx?_eq_some_iff_getElem.mp first
        exact compared_of_native native (List.getElem?_eq_getElem inside) same

section

variable (tame : Tame callbacks)
include tame

/-- A search that goes on past a key it has compared answers the entry compared
last. -/
theorem hCompare_searches
    (wellFormed : WellFormed vm.table)
    (key : Value)
    (j : Nat)
    (named : Nat → β)
    (injective : ∀ {p q}, named p = named q → p = q)
    (hit : ∀ q, onward (some q) = pure (named q))
    (missed : ∀ after : Vm ω, WellFormed after.table →
      Exec.Satisfies (onward none) after (fun answer later =>
        Kept after.table later ∧
          ∀ p, answer = named p → Compared callbacks key p later) Refused) :
    Exec.Satisfies (hCompare callbacks key j >>= onward) vm
      (fun answer after => Kept vm.table after ∧
        ∀ p, answer = named p → Compared callbacks key p after) Refused := by
  rw [satisfies_bind]
  refine (hCompare_compared tame wellFormed key j).mono ?_
    fun _ _ refused => refused
  rintro found after ⟨kept, compared⟩
  cases found with
  | some q =>
      rw [hit q]
      refine ⟨kept, ?_⟩
      intro p same
      rw [← injective same]
      exact compared q rfl
  | none =>
      refine (missed after kept.1).mono ?_ fun _ _ refused => refused
      rintro answer later ⟨keptLater, comparedLater⟩
      exact ⟨kept.trans keptLater, comparedLater⟩

theorem hFindArLoop_kept
    (key : Value)
    (left : Nat)
    (p : Nat)
    (wellFormed : WellFormed vm.table) :
    Exec.Satisfies (hFindArLoop callbacks key left p) vm
      (fun found after => Kept vm.table after ∧
        FoundCompared callbacks key found after) Refused := by
  induction left generalizing p vm with
  | zero => exact ⟨Kept.refl wellFormed, by simp [FoundCompared]⟩
  | succ left ih =>
      unfold hFindArLoop
      rw [satisfies_get_bind]
      by_cases inside : p < vm.table.len
      · obtain ⟨slot, slotted⟩ := wellFormed.slotAt inside
        rw [if_pos inside]
        rw [satisfies_bind, satisfies_orPanic]
        refine ⟨slot, slotted, ?_⟩
        refine hCompare_searches tame wellFormed key p Found.atEntry
          Found.atEntry.inj (fun _ => rfl) ?_
        intro after wellFormed
        simp only [satisfies_bind, satisfies_get]
        exact ih _ wellFormed
      · rw [if_neg inside]
        exact ⟨Kept.refl wellFormed, by simp [FoundCompared]⟩

theorem hFindHtLoop_kept
    (key : Value)
    (code mask step left : Nat)
    (wellFormed : WellFormed vm.table) :
    Exec.Satisfies (hFindHtLoop callbacks key code mask step left) vm
      (fun found after => Kept vm.table after ∧
        FoundCompared callbacks key found after) Refused := by
  induction left generalizing step vm with
  | zero => exact ⟨Kept.refl wellFormed, by simp [FoundCompared]⟩
  | succ left ih =>
      unfold hFindHtLoop
      rw [satisfies_get_bind]
      cases vm.table.bucket (probeAt mask code step) with
      | empty => exact ⟨Kept.refl wellFormed, by simp [FoundCompared]⟩
      | deleted => exact ih (step + 1) wellFormed
      | live v =>
          exact hCompare_searches tame wellFormed key v Found.atEntry
            Found.atEntry.inj (fun _ => rfl) fun _ => ih (step + 1)

/-- What a search answers is the entry compared last. -/
theorem hFind_kept
    (wellFormed : WellFormed vm.table)
    (key : Value) :
    Exec.Satisfies (hFind callbacks key) vm
      (fun found after => Kept vm.table after ∧
        FoundCompared callbacks key found after) Refused := by
  unfold hFind
  rw [satisfies_bind]
  refine (findNative_kept callbacks wellFormed key).mono ?_
    fun _ _ refused => refused
  rintro answer before ⟨rfl, native⟩
  cases answer with
  | some found =>
      cases found with
      | some p =>
          refine ⟨Kept.refl wellFormed, ?_⟩
          rintro _ ⟨⟩
          exact native p rfl
      | none => exact ⟨Kept.refl wellFormed, by simp [FoundCompared]⟩
  | none =>
      rw [satisfies_get_bind]
      by_cases hasIndex : before.table.isHt = true
      · rw [if_pos hasIndex, satisfies_bind]
        refine (hCode_kept tame wellFormed key).mono ?_
          fun _ _ refused => refused
        intro code after kept
        rw [satisfies_get_bind]
        split
        · refine (hFindHtLoop_kept tame key code _ 0 _ kept.1).mono ?_
            fun _ _ refused => refused
          rintro found later ⟨keptLater, foundCompared⟩
          exact ⟨kept.trans keptLater, foundCompared⟩
        · exact ⟨kept, by simp [FoundCompared]⟩
      · rw [if_neg hasIndex]
        exact hFindArLoop_kept tame key _ 0 wellFormed

end

/-! ## Rebuilds -/

theorem hRebuildLoop_kept
    (tame : Tame callbacks)
    (wellFormed : WellFormed vm.table)
    (hasIndex : vm.table.isHt = true)
    (rest : p + fuel = vm.table.entries.length) :
    Exec.Satisfies (hRebuildLoop callbacks fuel p) vm
      (fun _ after => Kept vm.table after) Refused := by
  induction fuel generalizing p vm with
  | zero =>
      have past : vm.table.keyAt p = none := by
        unfold HashData.keyAt
        have length : vm.table.entries.length ≤ p := Nat.le_of_eq rest.symm
        rw [List.getElem?_eq_none length, Option.map_none]
      unfold hRebuildLoop
      rw [satisfies_get_bind, past]
      exact Kept.refl wellFormed
  | succ fuel ih =>
      unfold hRebuildLoop
      rw [satisfies_get_bind]
      cases vm.table.keyAt p with
      | none => exact Kept.refl wellFormed
      | some key =>
          dsimp only
          rw [satisfies_bind]
          refine (hCode_kept tame wellFormed key).mono ?_
            fun _ _ refused => refused
          intro code after kept
          have length := kept.2.length
          have inside : p < after.table.entries.length := by omega
          have index : after.table.isHt = true := kept.2.isHt.trans hasIndex
          obtain ⟨placed, place, placedWell, placedShape⟩ :=
            kept.1.place index inside code
          rw [satisfies_get_bind]
          have bound : p < after.table.len := inside
          simp only [bound, if_true, tryTable, satisfies_bind,
            satisfies_get, satisfies_orPanic, satisfies_set]
          refine ⟨placed, place, ?_⟩
          have placedLength := placedShape.length
          refine (ih placedWell
            (placedShape.isHt.trans index) ?_).mono ?_
            fun _ _ refused => refused
          · dsimp only
            omega
          · intro _ later keptLater
            exact (kept.trans ⟨placedWell, placedShape⟩).trans keptLater

theorem length_of_mapM_nativeCode
    {entries : List Entry}
    (coded : entries.mapM (fun entry : Entry => nativeCode heap entry.1) =
      some codes) :
    codes.length = entries.length := by
  let silentOracle : KeyOracle Unit :=
    ⟨id, fun _ => 0, fun _ => false, fun _ => 0, none⟩
  have same := (mapM_nativeCode silentOracle coded).1
  rw [same, List.length_map]

/-- A rebuild leaves the entries and room for one more. -/
theorem hRebuild_spacious
    (tame : Tame callbacks)
    (wellFormed : WellFormed vm.table)
    (low : 5 ≤ bit)
    (load : bit ≤ 31 →
      4 * (vm.table.entries.length + 1) ≤ 3 * 2 ^ bit) :
    Exec.Satisfies (hRebuild callbacks bit) vm
      (fun _ after => Spacious after.table ∧
        after.table.eaCapa = vm.table.eaCapa ∧
        after.table.entries.length = vm.table.entries.length) Refused := by
  let base : HashData :=
    (vm.table.htReset bit).setNUsed (u32 vm.table.entries.length)
  have used : u32 vm.table.entries.length = vm.table.entries.length :=
    wellFormed.u32_length
  have baseWell : WellFormed base := by
    refine wellFormed.htReset low ?_ ?_ ?_
    · rw [used]
      exact wellFormed.lengthBound
    · intro narrow
      have := load (by omega)
      omega
    · intro _
      exact Nat.le_of_eq used.symm
  have index : base.isHt = true := (isHt_iff base).mpr (by
    show bit ≠ 0
    omega)
  have spacious : Spacious base := ⟨baseWell, index, load⟩
  have finish : ∀ after : Vm ω, Kept base after →
      Spacious after.table ∧ after.table.eaCapa = vm.table.eaCapa ∧
        after.table.entries.length = vm.table.entries.length :=
    fun after kept => ⟨spacious.of_shape kept.1 kept.2, kept.2.eaCapa,
      kept.2.length⟩
  unfold hRebuild modifyTable
  simp only [satisfies_bind, satisfies_modify]
  cases coded : base.entries.mapM fun entry => nativeCode vm.heap entry.1 with
  | none =>
      rw [hRebuildNative_satisfies (by exact coded), Option.elim_none,
        satisfies_pure]
      simp only [Bool.false_eq_true, if_false, satisfies_bind,
        satisfies_get]
      have loop : Exec.Satisfies (hRebuildLoop callbacks base.len 0)
          { vm with table := base } (fun _ after => Kept base after) Refused :=
        hRebuildLoop_kept tame baseWell index (Nat.zero_add _)
      refine loop.mono ?_ fun _ _ refused => refused
      intro _ after kept
      exact finish after kept
  | some codes =>
      rw [hRebuildNative_satisfies (by exact coded)]
      obtain ⟨placed, place, placedWell, placedShape⟩ :=
        baseWell.placeAll index (length_of_mapM_nativeCode coded)
      simp only [Option.elim_some, tryTable, satisfies_bind,
        satisfies_get, satisfies_orPanic, satisfies_set,
        satisfies_pure, if_true]
      exact ⟨placed, place, finish { vm with table := placed }
        ⟨placedWell, placedShape⟩⟩

/-! ## Stores -/

/-- What the search of a store into an index answers. -/
inductive StoreTarget
  /-- The entry that has the key. -/
  | entry (p : Nat)
  /-- The bucket of a new entry. -/
  | bucket (b : Nat)
  /-- No bucket of the probe was empty. -/
  | lost
  deriving DecidableEq, Repr

/-- The search of a store from one step on. -/
def htStoreSearchLoop (callbacks : Callbacks ω) (key : Value)
    (code mask : Nat) : Nat → Nat → Exec VmError (Vm ω) StoreTarget
  | _, 0 => pure .lost
  | step, left + 1 => do
      let vm ← get
      let b := probeAt mask code step
      match vm.table.bucket b with
      | .deleted => htStoreSearchLoop callbacks key code mask (step + 1) left
      | .empty => pure (.bucket b)
      | .live v =>
          match ← hCompare callbacks key v with
          | some p => pure (.entry p)
          | none => htStoreSearchLoop callbacks key code mask (step + 1) left

/-- The search of a store into an index. -/
def htStoreSearch (callbacks : Callbacks ω) (key : Value) :
    Exec VmError (Vm ω) StoreTarget := do
  match ← probeNative key with
  | some (.ok p) => pure (.entry p)
  | some (.error b) => pure (.bucket b)
  | none => do
      let code ← hCode callbacks key
      let vm ← get
      if vm.table.isHt then
        let mask := vm.table.mask
        htStoreSearchLoop callbacks key code mask 0 (mask + 1)
      else pure .lost

/-- The write of a store after its search. -/
def storeAt (key value : Value) : StoreTarget → Exec VmError (Vm ω) Unit
  | .entry p => modifyTable fun h => h.setValueAt p value
  | .bucket b => htStoreNew b key value
  | .lost => pure ()

theorem htStoreLoop_eq (key value : Value) (code mask step left : Nat) :
    htStoreLoop callbacks key value code mask step left =
      htStoreSearchLoop callbacks key code mask step left >>=
        storeAt key value := by
  induction left generalizing step with
  | zero => rfl
  | succ left ih =>
      unfold htStoreLoop htStoreSearchLoop
      rw [bind_assoc]
      apply bind_congr
      intro vm
      dsimp only
      cases vm.table.bucket (probeAt mask code step) with
      | empty => rfl
      | deleted => exact ih (step + 1)
      | live v =>
          dsimp only
          rw [bind_assoc]
          apply bind_congr
          intro answer
          cases answer with
          | some p => rfl
          | none => exact ih (step + 1)

/-- A store into an index is its search and its write. -/
theorem htStore_eq (key value : Value) :
    htStore callbacks key value =
      htStoreSearch callbacks key >>= storeAt key value := by
  unfold htStore htStoreSearch
  rw [bind_assoc]
  apply bind_congr
  intro answer
  cases answer with
  | some target => cases target <;> rfl
  | none =>
      dsimp only
      rw [bind_assoc]
      apply bind_congr
      intro code
      rw [bind_assoc]
      apply bind_congr
      intro vm
      split
      · exact htStoreLoop_eq key value code _ 0 _
      · rfl

/-- The entry a store's search answers is the one compared last. -/
def TargetCompared (callbacks : Callbacks ω) (key : Value)
    (target : StoreTarget) (after : Vm ω) : Prop :=
  ∀ p, target = .entry p → Compared callbacks key p after

theorem htStoreSearchLoop_kept
    (tame : Tame callbacks)
    (key : Value)
    (code mask step left : Nat)
    (wellFormed : WellFormed vm.table) :
    Exec.Satisfies (htStoreSearchLoop callbacks key code mask step left) vm
      (fun target after => Kept vm.table after ∧
        TargetCompared callbacks key target after) Refused := by
  induction left generalizing step vm with
  | zero => exact ⟨Kept.refl wellFormed, by simp [TargetCompared]⟩
  | succ left ih =>
      unfold htStoreSearchLoop
      rw [satisfies_get_bind]
      dsimp only
      cases vm.table.bucket (probeAt mask code step) with
      | empty => exact ⟨Kept.refl wellFormed, by simp [TargetCompared]⟩
      | deleted => exact ih (step + 1) wellFormed
      | live v =>
          exact hCompare_searches tame wellFormed key v StoreTarget.entry
            StoreTarget.entry.inj (fun _ => rfl) fun _ => ih (step + 1)

theorem probeNative_kept
    (callbacks : Callbacks ω)
    (wellFormed : WellFormed vm.table)
    (hasIndex : vm.table.isHt = true)
    (key : Value) :
    Exec.Satisfies (probeNative key) vm
      (fun answer after => after = vm ∧
        ∀ p, answer = some (.ok p) → Compared callbacks key p vm)
      Refused := by
  unfold probeNative
  rw [satisfies_get_bind]
  cases native : nativeBytes vm.heap key with
  | none => exact ⟨rfl, by simp⟩
  | some bytes =>
      cases coded : nativeCode vm.heap key with
      | none => exact ⟨rfl, by simp⟩
      | some code =>
          dsimp only
          rw [probeNativeLoop_eq (wellFormed.indexInRange hasIndex)]
          refine ⟨rfl, ?_⟩
          intro p answered
          cases scanned : scanKeys vm.table code
              (nativeEql vm.heap key bytes) with
          | found q =>
              have same : q = p := by
                unfold scanKeys at scanned
                rw [scanned] at answered
                cases answered
                rfl
              exact scanKeys_compared native (same ▸ scanned)
          | vacant b =>
              unfold scanKeys at scanned
              rw [scanned] at answered
              cases answered
          | exhausted =>
              unfold scanKeys at scanned
              rw [scanned] at answered
              cases answered

theorem htStoreSearch_kept
    (tame : Tame callbacks)
    (wellFormed : WellFormed vm.table)
    (hasIndex : vm.table.isHt = true)
    (key : Value) :
    Exec.Satisfies (htStoreSearch callbacks key) vm
      (fun target after => Kept vm.table after ∧
        TargetCompared callbacks key target after) Refused := by
  unfold htStoreSearch
  rw [satisfies_bind]
  refine (probeNative_kept callbacks wellFormed hasIndex key).mono ?_
    fun _ _ refused => refused
  rintro answer before ⟨rfl, native⟩
  cases answer with
  | some target =>
      cases target with
      | ok p =>
          refine ⟨Kept.refl wellFormed, ?_⟩
          rintro _ ⟨⟩
          exact native p rfl
      | error b => exact ⟨Kept.refl wellFormed, by simp [TargetCompared]⟩
  | none =>
      dsimp only
      rw [satisfies_bind]
      refine (hCode_kept tame wellFormed key).mono ?_
        fun _ _ refused => refused
      intro code after kept
      rw [satisfies_get_bind]
      split
      · refine (htStoreSearchLoop_kept tame key code _ 0 _ kept.1).mono ?_
          fun _ _ refused => refused
        rintro target later ⟨keptLater, targetCompared⟩
        exact ⟨kept.trans keptLater, targetCompared⟩
      · exact ⟨kept, by simp [TargetCompared]⟩

theorem htPush_entries (h : HashData) (b : Nat) (key value : Value) :
    (h.htPush b key value).entries = h.entries ++ [(key, value)] := by
  unfold HashData.htPush
  split <;> rfl

/-- What a store has done when it comes back. -/
inductive StoreEnd (callbacks : Callbacks ω) (key value : Value)
    (after : Vm ω) : Prop
  /-- It gave the entry compared last the value. -/
  | overwritten (before : Vm ω) (p : Nat)
      (compared : Compared callbacks key p before)
      (written : after =
        { before with table := before.table.setValueAt p value })
  /-- It put a new entry at the end. -/
  | appended (before : Vm ω) (stored : Value)
      (written : after.table.entries =
        before.table.entries ++ [(stored, value)])
  /-- The probe of its search met no empty bucket. -/
  | lost (before : Vm ω)
      (search : htStoreSearch callbacks key before = .ok .lost after)

/-- A store into an index that has room. -/
theorem htStore_end
    (tame : Tame callbacks)
    (spacious : Spacious vm.table)
    (key value : Value) :
    Exec.Satisfies (htStore callbacks key value) vm
      (fun _ after => WellFormed after.table ∧
        StoreEnd callbacks key value after) Refused := by
  rw [htStore_eq, satisfies_bind]
  refine (htStoreSearch_kept tame spacious.wellFormed spacious.hasIndex
    key).ran.mono ?_ fun _ _ refused => refused
  rintro target middle ⟨⟨kept, compared⟩, search⟩
  cases target with
  | entry p =>
      exact ⟨kept.1.setValueAt p value,
        .overwritten middle p (compared p rfl) rfl⟩
  | lost => exact ⟨kept.1, .lost vm search⟩
  | bucket b =>
      unfold storeAt htStoreNew
      rw [satisfies_get_bind]
      by_cases full : middle.table.nUsed = EA_MAX_CAPA
      · rw [if_pos full]
        exact ⟨kept.1, Or.inr rfl⟩
      · rw [if_neg full, Exec.satisfies_bind_of_ok (hKeyFor_eq _ _)]
        exact ⟨(spacious.of_shape kept.1 kept.2).htPush full b _ value,
          .appended middle _ (htPush_entries _ _ _ _)⟩

/-- What a store of a key has done: the key it looked for is the one given or
the copy of it that is stored. -/
def SetEnd (callbacks : Callbacks ω) (key value : Value) (after : Vm ω) :
    Prop :=
  ∃ asked, (asked = key ∨ ∃ heap, asked = (storedKey heap key).1) ∧
    StoreEnd callbacks asked value after

section

variable (tame : Tame callbacks)
include tame

/-- A store into a table with an index, given what happens where the index is
given up. -/
theorem htSetFuel_kept
    (wellFormed : WellFormed vm.table)
    (hasIndex : vm.table.isHt = true)
    (stored : ∀ after : Vm ω, WellFormed after.table →
      StoreEnd callbacks key value after → post after)
    (small : vm.table.entries.length ≤ AR_MAX_SIZE →
      vm.table.entries.length ≠ vm.table.eaCapa →
        Exec.Satisfies (hSetWith callbacks (htSetFuel callbacks fuel) key value)
          { vm with table := vm.table.toAr } (fun _ => post) Refused) :
    Exec.Satisfies (htSetFuel callbacks (fuel + 1) key value) vm
      (fun _ => post) Refused := by
  have finish : ∀ middle : Vm ω, Spacious middle.table →
      Exec.Satisfies (htStore callbacks key value) middle (fun _ => post)
        Refused :=
    fun middle spacious => (htStore_end tame spacious key value).mono
      (fun _ after ended => stored after ended.1 ended.2)
      fun _ _ refused => refused
  unfold htSetFuel
  rw [satisfies_get_bind]
  cases made : vm.table.htMakeRoom with
  | mk room table =>
      obtain ⟨tableWell, tableIndex, entries, spec⟩ :=
        wellFormed.htMakeRoom hasIndex made
      rw [satisfies_bind, satisfies_set]
      cases room with
      | fits =>
          obtain ⟨rfl, load⟩ := spec
          exact finish _ ⟨tableWell, tableIndex, load⟩
      | rebuild bit =>
          obtain ⟨low, load⟩ := spec
          rw [← entries] at load
          dsimp only
          rw [satisfies_bind]
          have rebuilt : Exec.Satisfies (hRebuild callbacks bit)
              { vm with table := table }
              (fun _ after => Spacious after.table) Refused :=
            (hRebuild_spacious tame tableWell low load).mono
              (fun _ _ spacious => spacious.1) fun _ _ refused => refused
          refine rebuilt.mono ?_ fun _ _ refused => refused
          intro _ after spacious
          exact finish after spacious
      | toAr =>
          obtain ⟨rfl, few, holes⟩ := spec
          dsimp only
          unfold modifyTable
          rw [satisfies_bind, satisfies_modify]
          exact small few holes

/-- A store into a table without an index. -/
theorem hSetWith_kept
    (wellFormed : WellFormed vm.table)
    (noIndex : vm.table.isHt = false)
    (fuel : Nat)
    (key value : Value) :
    Exec.Satisfies
      (hSetWith callbacks (htSetFuel callbacks (fuel + 1)) key value) vm
      (fun _ after => WellFormed after.table ∧
        SetEnd callbacks key value after) Refused := by
  unfold hSetWith
  rw [satisfies_get_bind, if_neg (by simp [noIndex]),
    satisfies_bind]
  refine (hFind_kept tame wellFormed key).mono ?_ fun _ _ refused => refused
  rintro found middle ⟨kept, compared⟩
  cases found with
  | atEntry p =>
      exact ⟨kept.1.setValueAt p value, key, Or.inl rfl,
        .overwritten middle p (compared p rfl) rfl⟩
  | missing =>
      dsimp only
      rw [Exec.satisfies_bind_of_ok (hKeyFor_eq _ _), satisfies_bind,
        satisfies_get]
      dsimp only
      have without : middle.table.isHt = false := kept.2.isHt.trans noIndex
      cases made : middle.table.arMakeRoom with
      | mk toHt table =>
          obtain ⟨tableWell, width, entries, full, free⟩ :=
            kept.1.arMakeRoom without made
          dsimp only
          rw [satisfies_bind, satisfies_set]
          cases toHt with
          | false =>
              rw [if_neg Bool.false_ne_true]
              exact ⟨tableWell.arPush ((not_isHt_iff table).mpr width)
                (free rfl) _ value, key, Or.inl rfl,
                .appended { middle with table := table } _ rfl⟩
          | true =>
              obtain ⟨sixteen, capa⟩ := full rfl
              have small : table.entries.length ≤ 16 := Nat.le_of_eq sixteen
              rw [if_pos rfl, satisfies_bind]
              refine (hRebuild_spacious tame tableWell (Nat.le_refl 5) ?_).mono
                ?_ fun _ _ refused => refused
              · intro _
                dsimp only
                omega
              · rintro _ after ⟨spacious, sameCapa, sameLength⟩
                have fullAfter :
                    after.table.entries.length = after.table.eaCapa := by
                  rw [sameCapa, sameLength, sixteen, capa]
                refine htSetFuel_kept tame spacious.wellFormed
                  spacious.hasIndex ?_ fun _ holes => absurd fullAfter holes
                intro later laterWell stored
                exact ⟨laterWell, _, Or.inr ⟨middle.heap, rfl⟩, stored⟩

/-- A store into a table with an index. -/
theorem htSet_kept
    (wellFormed : WellFormed vm.table)
    (hasIndex : vm.table.isHt = true)
    (key value : Value) :
    Exec.Satisfies (htSet callbacks key value) vm
      (fun _ after => WellFormed after.table ∧
        SetEnd callbacks key value after) Refused := by
  refine htSetFuel_kept tame wellFormed hasIndex ?_ ?_
  · intro after afterWell stored
    exact ⟨afterWell, key, Or.inl rfl, stored⟩
  · intro few _
    exact hSetWith_kept tame (wellFormed.toAr few) rfl 0 key value

/-- A store of a key. -/
theorem hSet_kept
    (wellFormed : WellFormed vm.table)
    (key value : Value) :
    Exec.Satisfies (hSet callbacks key value) vm
      (fun _ after => WellFormed after.table ∧
        SetEnd callbacks key value after) Refused := by
  cases hasIndex : vm.table.isHt with
  | true =>
      unfold hSet hSetWith
      rw [satisfies_get_bind, if_pos hasIndex]
      exact htSet_kept tame wellFormed hasIndex key value
  | false => exact hSetWith_kept tame wellFormed hasIndex 1 key value

end

/-! ## Removals -/

/-- A removal takes the entry compared last and answers its value. -/
theorem hDelete_kept
    (tame : Tame callbacks)
    (wellFormed : WellFormed vm.table)
    (key : Value) :
    Exec.Satisfies (hDelete callbacks key) vm
      (fun answer after => WellFormed after.table ∧
        ∀ value, answer = some value →
          ∃ before p stored, Compared callbacks key p before ∧
            before.table.entries[p]? = some (stored, value) ∧
            after.table.entries = before.table.entries.eraseIdx p) Refused := by
  unfold hDelete
  rw [satisfies_bind]
  refine (hFind_kept tame wellFormed key).mono ?_ fun _ _ refused => refused
  rintro found middle ⟨kept, compared⟩
  cases found with
  | missing => exact ⟨kept.1, by simp⟩
  | atEntry p =>
      have inside := (compared p rfl).inside
      have held := List.getElem?_eq_getElem inside
      obtain ⟨table, removed, tableWell, entries, _⟩ :=
        kept.1.removeEntry held
      dsimp only
      rw [satisfies_get_bind, satisfies_bind,
        satisfies_orPanic]
      refine ⟨_, removed, tableWell, ?_⟩
      rintro value ⟨⟩
      exact ⟨middle, p, _, compared p rfl, held, entries⟩

/-- The first entry goes, if there is one. -/
theorem shiftFirst_kept
    (wellFormed : WellFormed vm.table) :
    Exec.Satisfies (do
      let vm ← get
      if vm.table.len = 0 then pure none
      else do
        let (entry, table) ← Exec.orPanic (vm.table.removeEntry 0)
        set { vm with table := table }
        pure (some entry) : Exec VmError (Vm ω) (Option (Value × Value)))
      vm
      (fun answer after => WellFormed after.table ∧
        ∀ entry, answer = some entry →
          ∃ before : Vm ω,
            before.table.entries = entry :: after.table.entries)
      Refused := by
  rw [satisfies_get_bind]
  by_cases none : vm.table.len = 0
  · rw [if_pos none]
    exact ⟨wellFormed, by simp⟩
  · obtain ⟨first, rest, all⟩ :=
      List.exists_cons_of_length_pos (Nat.pos_of_ne_zero none)
    have held : vm.table.entries[0]? = some first := by
      rw [all]
      rfl
    obtain ⟨table, removed, tableWell, entries, _⟩ :=
      wellFormed.removeEntry held
    rw [if_neg none, satisfies_bind, satisfies_orPanic]
    refine ⟨_, removed, tableWell, ?_⟩
    rintro entry ⟨⟩
    refine ⟨vm, ?_⟩
    dsimp only
    rw [entries, all]
    rfl

/-- Taking the first entry answers the entry that is first then. -/
theorem hShift_kept
    (tame : Tame callbacks)
    (wellFormed : WellFormed vm.table) :
    Exec.Satisfies (hShift callbacks) vm
      (fun answer after => WellFormed after.table ∧
        ∀ entry, answer = some entry →
          ∃ before : Vm ω, before.table.entries = entry :: after.table.entries)
      Refused := by
  unfold hShift
  rw [satisfies_get_bind]
  cases vm.table.keyAt 0 with
  | none => exact ⟨wellFormed, by simp⟩
  | some key =>
      dsimp only
      split
      · rw [satisfies_bind]
        refine (hCode_kept tame wellFormed key).mono ?_
          fun _ _ refused => refused
        intro code after kept
        exact shiftFirst_kept kept.1
      · exact shiftFirst_kept wellFormed

/-! ## Rehash -/

/-- The search of a rehash without an index answers the entry compared last. -/
theorem rehashArLoop_kept
    (tame : Tame callbacks)
    (key : Value)
    (left j : Nat)
    (wellFormed : WellFormed vm.table) :
    Exec.Satisfies (rehashArLoop callbacks key left j) vm
      (fun dup after => Kept vm.table after ∧
        ∀ p, dup = .ok p → Compared callbacks key p after) Refused := by
  induction left generalizing j vm with
  | zero => exact ⟨Kept.refl wellFormed, by simp⟩
  | succ left ih =>
      unfold rehashArLoop
      exact hCompare_searches tame wellFormed key j Except.ok
        Except.ok.inj (fun _ => rfl) fun _ => ih (j + 1)

/-- The search of a rehash in the index answers the entry compared last. -/
theorem rehashHtLoop_kept
    (tame : Tame callbacks)
    (key : Value)
    (code mask step left : Nat)
    (wellFormed : WellFormed vm.table) :
    Exec.Satisfies (rehashHtLoop callbacks key code mask step left) vm
      (fun dup after => Kept vm.table after ∧
        ∀ p, dup = .ok p → Compared callbacks key p after) Refused := by
  induction left generalizing step vm with
  | zero => exact ⟨Kept.refl wellFormed, by simp⟩
  | succ left ih =>
      unfold rehashHtLoop
      rw [satisfies_get_bind]
      dsimp only
      cases vm.table.bucket (probeAt mask code step) with
      | empty => exact ⟨Kept.refl wellFormed, by simp⟩
      | deleted => exact ⟨Kept.refl wellFormed, by simp⟩
      | live v =>
          exact hCompare_searches tame wellFormed key v Except.ok
            Except.ok.inj (fun _ => rfl) fun _ => ih (step + 1)

/-- Moving an entry to its new place keeps the shape. -/
theorem rehashMove_kept
    (wellFormed : WellFormed vm.table)
    (ht : Bool)
    (source : r < vm.table.entries.length)
    (target : w < vm.table.entries.length)
    (b : Nat) :
    Exec.Satisfies (rehashMove ht r w b) vm
      (fun _ after => Kept vm.table after) Refused := by
  have finish : ∀ middle : Vm ω, Kept vm.table middle →
      Exec.Satisfies (do
        tryTable fun h => h.setSlot w w
        if ht then modifyTable fun h => h.setBucket b w :
          Exec VmError (Vm ω) Unit) middle
        (fun _ after => Kept vm.table after) Refused := by
    intro middle kept
    have length := kept.2.length
    have inside : w < middle.table.entries.length := by omega
    obtain ⟨table, set, tableWell, shape⟩ := kept.1.setSlot inside w
    simp only [tryTable, satisfies_bind, satisfies_get,
      satisfies_orPanic, satisfies_set]
    refine ⟨table, set, ?_⟩
    have keptTable : Kept vm.table { middle with table := table } :=
      kept.trans ⟨tableWell, shape⟩
    split
    · have stillInside : w < table.entries.length := by
        rw [shape.length]
        exact inside
      exact ⟨tableWell.setBucket stillInside b,
        keptTable.2.trans ⟨rfl, rfl, rfl⟩⟩
    · exact keptTable
  unfold rehashMove
  by_cases moved : r ≠ w
  · obtain ⟨between, table, took, put, tableWell, shape⟩ :=
      wellFormed.reinsert (List.getElem?_eq_getElem source) target
    rw [if_pos moved, satisfies_bind]
    simp only [tryTable, satisfies_bind, satisfies_get,
      satisfies_orPanic, satisfies_set, took]
    exact ⟨table, put, by
      simpa only [tryTable, satisfies_bind, satisfies_get,
        satisfies_orPanic, satisfies_set] using
        finish { vm with table := table } ⟨tableWell, shape⟩⟩
  · rw [if_neg moved]
    exact finish vm (Kept.refl wellFormed)

/-- The table is well formed, of the same width and capacity. -/
def SameFrame (before : HashData) (after : Vm ω) : Prop :=
  WellFormed after.table ∧ after.table.ibBit = before.ibBit ∧
    after.table.eaCapa = before.eaCapa

theorem Kept.frame {after : Vm ω} (kept : Kept h after) : SameFrame h after :=
  ⟨kept.1, kept.2.ibBit, kept.2.eaCapa⟩

theorem SameFrame.trans {middle after : Vm ω}
    (first : SameFrame h middle)
    (second : SameFrame middle.table after) :
    SameFrame h after :=
  ⟨second.1, second.2.1.trans first.2.1, second.2.2.trans first.2.2⟩

/-- Writing the entry a rehash looked at, where its slot has it now. -/
theorem rehashWrite_kept
    (ht : Bool)
    (left w slot : Nat)
    (key : Value)
    (dup : Except Nat Nat)
    (wellFormed : WellFormed vm.table)
    (inside : w < vm.table.entries.length)
    (rest : ∀ (next : Nat) (middle : Vm ω), SameFrame vm.table middle →
      Exec.Satisfies (hRehashLoop callbacks ht left next) middle
        (fun _ after => SameFrame vm.table after) Refused) :
    Exec.Satisfies (do
      let r ← hCheckVacated slot key
      match dup with
      | .ok p => do
          let vm ← get
          let entry ← Exec.orPanic vm.table.entries[r]?
          modifyTable fun h => h.setValueAt p entry.2
          tryTable fun h => (h.removeEntry r).map (·.2)
          hRehashLoop callbacks ht left w
      | .error b => do
          rehashMove ht r w b
          hRehashLoop callbacks ht left (w + 1)) vm
      (fun _ after => SameFrame vm.table after) Refused := by
  rw [satisfies_bind]
  refine (hCheckVacated_spec wellFormed slot key).mono ?_
    fun _ _ refused => refused
  rintro r middle ⟨rfl, _, heldKey⟩
  obtain ⟨entry, held, _⟩ := Option.map_eq_some_iff.mp heldKey
  have source := (List.getElem?_eq_some_iff.mp held).1
  cases dup with
  | error b =>
      dsimp only
      rw [satisfies_bind]
      refine (rehashMove_kept wellFormed ht source inside b).mono ?_
        fun _ _ refused => refused
      intro _ moved kept
      exact rest (w + 1) moved kept.frame
  | ok p =>
      have valued := wellFormed.setValueAt p entry.2
      have length : (middle.table.setValueAt p entry.2).entries.length =
          middle.table.entries.length := List.length_modify _ _ _
      obtain ⟨table, removed, tableWell, _, width, capa, _⟩ :=
        valued.removeEntry (List.getElem?_eq_getElem (length ▸ source))
      simp only [modifyTable, tryTable, satisfies_bind,
        satisfies_get, satisfies_orPanic, satisfies_modify,
        satisfies_set]
      refine ⟨entry, held, table, ?_, ?_⟩
      · rw [removed, Option.map_some]
      · exact rest w { middle with table := table } ⟨tableWell, width, capa⟩

/-- The loop of a rehash keeps the table well formed. -/
theorem hRehashLoop_kept
    (tame : Tame callbacks)
    (ht : Bool)
    (left w : Nat)
    (wellFormed : WellFormed vm.table) :
    Exec.Satisfies (hRehashLoop callbacks ht left w) vm
      (fun _ after => SameFrame vm.table after) Refused := by
  induction left generalizing w vm with
  | zero => exact (Kept.refl wellFormed).frame
  | succ left ih =>
      unfold hRehashLoop
      rw [satisfies_get_bind]
      cases heldKey : vm.table.keyAt w with
      | none => exact (Kept.refl wellFormed).frame
      | some key =>
          obtain ⟨entry, there, _⟩ := Option.map_eq_some_iff.mp heldKey
          have inside := (List.getElem?_eq_some_iff.mp there).1
          obtain ⟨slot, slotted⟩ := wellFormed.slotAt inside
          have write : ∀ (dup : Except Nat Nat) (middle : Vm ω),
              Kept vm.table middle → Exec.Satisfies (do
                let r ← hCheckVacated slot key
                match dup with
                | .ok p => do
                    let vm ← get
                    let entry ← Exec.orPanic vm.table.entries[r]?
                    modifyTable fun h => h.setValueAt p entry.2
                    tryTable fun h => (h.removeEntry r).map (·.2)
                    hRehashLoop callbacks ht left w
                | .error b => do
                    rehashMove ht r w b
                    hRehashLoop callbacks ht left (w + 1)) middle
                (fun _ after => SameFrame vm.table after) Refused := by
            intro dup middle kept
            have stillInside : w < middle.table.entries.length := by
              rw [kept.2.length]
              exact inside
            refine (rehashWrite_kept ht left w slot key dup kept.1 stillInside
              ?_).mono (fun _ _ frame => kept.frame.trans frame)
              fun _ _ refused => refused
            intro next later frame
            refine (ih next frame.1).mono
              (fun _ _ onward => frame.trans onward) fun _ _ refused => refused
          dsimp only
          rw [satisfies_bind, satisfies_orPanic]
          refine ⟨slot, slotted, ?_⟩
          split
          · rw [satisfies_bind]
            refine (hCode_kept tame wellFormed key).mono ?_
              fun _ _ refused => refused
            intro code coded kept
            rw [satisfies_get_bind, satisfies_bind]
            refine (rehashHtLoop_kept tame key code _ 0 _ kept.1).mono ?_
              fun _ _ refused => refused
            rintro dup later ⟨keptLater, _⟩
            exact write dup later (kept.trans keptLater)
          · rw [satisfies_bind]
            refine (rehashArLoop_kept tame key w 0 wellFormed).mono ?_
              fun _ _ refused => refused
            rintro dup later ⟨kept, _⟩
            exact write dup later kept

/-- The end of a rehash counts the entries and sizes the table for them. -/
theorem rehashEnd_wellFormed
    (frame : SameFrame h middle)
    (ht : Bool) :
    Exec.Satisfies (do
      let vm ← get
      let size := u32 vm.table.len
      modifyTable fun h => h.setNUsed size
      if ht ∧ size ≤ AR_MAX_SIZE then modifyTable HashData.toAr
      else modifyTable fun table => table.adjustEa size h.eaCapa :
        Exec VmError (Vm ω) Unit) middle
      (fun _ after => WellFormed after.table) Refused := by
  obtain ⟨wellFormed, width, capa⟩ := frame
  have size : u32 middle.table.len = middle.table.entries.length :=
    wellFormed.u32_length
  simp only [modifyTable, satisfies_bind, satisfies_get,
    satisfies_modify, size]
  split
  · rename_i few
    exact wellFormed.recount.toAr few.2
  · rw [satisfies_modify, ← capa]
    exact wellFormed.recount.adjustEa_counted rfl

/-- The width for a size has room for it, up to the largest widths. -/
theorem ibBitFor_load_of_narrow
    (large : AR_MAX_SIZE < size)
    (narrow : ibBitFor size ≤ 30) :
    4 * size ≤ 3 * 2 ^ ibBitFor size := by
  refine ibBitFor_load large ?_
  by_contra beyond
  have wide : ¬bitLength size ≤ 30 := by
    intro short
    have := (bitLength_le_iff size 30).mp short
    omega
  unfold ibBitFor at narrow
  simp only at narrow
  split at narrow <;> omega

/-- A rehash keeps the table well formed. -/
theorem hRehash_kept
    (tame : Tame callbacks)
    (wellFormed : WellFormed vm.table) :
    Exec.Satisfies (hRehash callbacks) vm
      (fun _ after => WellFormed after.table) Refused := by
  have all : ∀ before : Vm ω, WellFormed before.table →
      (before.table.isHt = true → AR_MAX_SIZE < before.table.entries.length) →
        Exec.Satisfies
          (hRehashAll callbacks before.table.entries.length) before
          (fun _ after => WellFormed after.table) Refused := by
    intro before beforeWell large
    have loop : ∀ (ht : Bool) (start : Vm ω), WellFormed start.table →
        start.table.eaCapa = before.table.eaCapa →
          Exec.Satisfies (do
            hRehashLoop callbacks ht before.table.entries.length 0
            let vm ← get
            let size := u32 vm.table.len
            modifyTable fun h => h.setNUsed size
            if ht ∧ size ≤ AR_MAX_SIZE then modifyTable HashData.toAr
            else modifyTable fun h => h.adjustEa size before.table.eaCapa :
              Exec VmError (Vm ω) Unit) start
            (fun _ after => WellFormed after.table) Refused := by
      intro ht start startWell capa
      rw [satisfies_bind]
      refine (hRehashLoop_kept tame ht _ 0 startWell).mono ?_
        fun _ _ refused => refused
      intro _ after frame
      rw [← capa]
      exact rehashEnd_wellFormed frame ht
    unfold hRehashAll
    rw [satisfies_get_bind]
    cases hasIndex : before.table.isHt with
    | false => exact loop false before beforeWell rfl
    | true =>
        have many := large hasIndex
        have reset : WellFormed ((before.table.htReset
            (ibBitFor before.table.entries.length)).setNUsed 0) := by
          refine beforeWell.htReset (ibBitFor_range many).1 (Nat.zero_le _)
            (ibBitFor_load_of_narrow many) ?_
          intro wide
          have := (ibBitFor_range many).2
          omega
        exact loop true _ reset rfl
  unfold hRehash
  rw [satisfies_get_bind]
  have len : u32 vm.table.len = vm.table.entries.length :=
    wellFormed.u32_length
  simp only [len]
  split
  · exact WellFormed.clear vm.table
  · split
    · rename_i few
      simp only [modifyTable, satisfies_bind, satisfies_modify]
      exact all { vm with table := vm.table.toAr } (wellFormed.toAr few.2)
        fun hasIndex => by cases hasIndex
    · rename_i many
      refine all vm wellFormed fun hasIndex => ?_
      by_contra few
      exact many ⟨hasIndex, Nat.le_of_not_lt few⟩

end Algorithm

end SabiRuby.HashTable
