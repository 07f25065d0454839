import SabiRuby.HashTable.Rehash
import SabiRuby.HashTable.Remove
import SabiRuby.HashTable.SetKey

/-!
# Operations during which a key raises

The keys of a program answer `hash` and `eql?` by functions of the key, except
that one call, counted from the start of the operation, raises.  After an
operation that raised, every entry is found again by its own key exactly when
the raising call was not made while the index was being rebuilt.
-/

namespace SabiRuby.HashTable

open Library AssociationList

/-- What the keys that are asked answer. -/
structure KeyAnswers where
  hash : Value → Value
  eql : Value → Value → Bool
  /-- The keys whose class has the plain `eql?`. -/
  basic : Value → Bool

namespace KeyAnswers

variable (answers : KeyAnswers)

/-- The next call: it raises if it is the raising one. -/
def call (raiseAt : Option Nat) (error : VmError) (answer : Vm Nat → Value) :
    Exec VmError (Vm Nat) Value := do
  let vm ← get
  if raiseAt = some vm.world then Exec.raise error
  else do
    set { vm with world := vm.world + 1 }
    pure (answer vm)

/-- A key that is asked is `eql?` to a stored one. -/
def eqlStored (heap : Heap) (key stored : Value) : Bool :=
  !isNative heap stored && answers.eql key stored

/-- The callbacks of a program whose keys answer so; the machine counts the
calls. -/
def callbacks (raiseAt : Option Nat) (error : VmError) : Callbacks Nat where
  eqlBasic := fun _ key => answers.basic key
  sameValue := fun vm key stored => answers.eqlStored vm.heap key stored
  callHash := fun key => call raiseAt error fun _ => answers.hash key
  callEql := fun key stored => call raiseAt error fun vm =>
    if answers.eqlStored vm.heap key stored then .trueValue else .falseValue

/-- The code of a key that is asked. -/
def customCode (heap : Heap) : Value → Nat
  | .nil => (mix 0).toNat
  | .falseValue => (mix 2).toNat
  | .trueValue => (mix 6).toNat
  | .obj object =>
      (mix (heap.vtype object ^^^
        hashNumber (answers.hash (.obj object)))).toNat
  | _ => 0

/-- The code of a key. -/
def code (heap : Heap) (key : Value) : Nat :=
  (nativeCode heap key).getD (answers.customCode heap key)

/-- A key is the same as a stored one. -/
def same (heap : Heap) (key stored : Value) : Bool :=
  match nativeBytes heap key with
  | some bytes => nativeEql heap key bytes stored
  | none => answers.eqlStored heap key stored

/-- A key of the heap that is asked. -/
def Asked (heap : Heap) (key : Value) : Prop :=
  isNative heap key = false ∧ ValidKey heap key

/-- The keys answer consistently: `eql?` is an equivalence and keys that are
`eql?` have one code. -/
structure Lawful (heap : Heap) : Prop where
  refl : ∀ key, Asked heap key → answers.eql key key = true
  symm : ∀ first second, Asked heap first → Asked heap second →
    answers.eql first second = true → answers.eql second first = true
  trans : ∀ first second third, Asked heap first → Asked heap second →
    Asked heap third → answers.eql first second = true →
      answers.eql second third = true → answers.eql first third = true
  code : ∀ first second, Asked heap first → Asked heap second →
    answers.eql first second = true →
      answers.customCode heap first = answers.customCode heap second

/-- A table of keys of the heap in its representation, none stored twice. -/
structure Table (heap : Heap) (h : HashData) : Prop where
  representation : Representation (answers.code heap) h
  distinct : h.entries.Pairwise fun first second =>
    answers.same heap first.1 second.1 = false
  valid : ∀ entry ∈ h.entries, ValidKey heap entry.1

end KeyAnswers

/-- An operation that asks keys. -/
inductive AskingOperation
  | set (key value : Value)
  | delete (key : Value)
  | shift
  | rehash

namespace AskingOperation

/-- The key of an operation is a value of the heap. -/
def Valid (heap : Heap) : AskingOperation → Prop
  | .set key _ => ValidKey heap key
  | .delete key => ValidKey heap key
  | .shift => True
  | .rehash => True

/-- Run an operation for its effect. -/
def run (callbacks : Callbacks ω) :
    AskingOperation → Exec VmError (Vm ω) Unit
  | .set key value => hSet callbacks key value
  | .delete key => (fun _ => ()) <$> hDelete callbacks key
  | .shift => (fun _ => ()) <$> hShift callbacks
  | .rehash => hRehash callbacks

end AskingOperation

namespace KeyAnswers

variable (answers : KeyAnswers)

/-- The rebuild a store into a table without an index makes: how many calls come
before it, and the width of the index. -/
def smallRebuild (heap : Heap) (h : HashData) (key : Value) :
    Option (Nat × Nat) :=
  if (h.entries.all fun entry => !answers.same heap key entry.1) ∧
      h.arMakeRoom.1 = true then
    some (if isNative heap key || answers.basic key then 0
      else h.entries.length, IB_INIT_BIT)
  else none

/-- The rebuild a store makes. -/
def storeRebuild (heap : Heap) (h : HashData) (key : Value) :
    Option (Nat × Nat) :=
  if h.isHt then
    match h.htMakeRoom.1 with
    | .fits => none
    | .rebuild bit => some (0, bit)
    | .toAr => answers.smallRebuild heap h.toAr key
  else answers.smallRebuild heap h key

/-- The raising call is made while the index is being rebuilt, or after it was
rebuilt at a width whose shift wraps. -/
def RaisesInRebuild (heap : Heap) (h : HashData) (raiseAt : Nat) :
    AskingOperation → Prop
  | .set key _ => ∃ before bit,
      answers.storeRebuild heap h key = some (before, bit) ∧
        before ≤ raiseAt ∧
          (raiseAt < before + rebuildCalls heap h.entries ∨ 31 < bit)
  | .delete _ => False
  | .shift => False
  | .rehash => h.isHt = true ∧ AR_MAX_SIZE < h.entries.length

/-- Every entry is found by its own key when no call raises. -/
def AllFound (after : Vm Nat) : Prop :=
  ∀ (p : Nat) (entry : Entry), after.table.entries[p]? = some entry →
    ∃ vm, hFind (answers.callbacks none .hashModified) entry.1 after =
      .ok (.atEntry p) vm

/-! ## The oracle of the answers -/

/-- The keys that are asked, up to `eql?`. -/
def setoid (lawful : answers.Lawful heap) :
    Setoid { key : Value // Asked heap key } where
  r := fun first second => answers.eql first.1 second.1 = true
  iseqv := {
    refl := fun key => lawful.refl key.1 key.2
    symm := fun {first second} same =>
      lawful.symm first.1 second.1 first.2 second.2 same
    trans := fun {first second third} same next =>
      lawful.trans first.1 second.1 third.1 first.2 second.2 third.2 same next }

open Classical in
/-- The key that stands for the keys `eql?` to a key. -/
noncomputable def representative (lawful : answers.Lawful heap)
    (key : Value) : Value :=
  if asked : Asked heap key then
    (Quotient.mk (answers.setoid lawful) ⟨key, asked⟩).out.1
  else key

/-- The oracle of the answers: the machine counts the calls. -/
noncomputable def oracle (lawful : answers.Lawful heap)
    (raiseAt : Option Nat) : KeyOracle Nat where
  representative := answers.representative lawful
  customCode := answers.customCode heap
  basic := answers.basic
  calls := id
  raiseAt := raiseAt

variable {answers : KeyAnswers} {heap : Heap}

/-- Keys have one representative exactly when they are `eql?`. -/
theorem representative_eq_iff
    (lawful : answers.Lawful heap)
    (firstAsked : Asked heap first)
    (secondAsked : Asked heap second) :
    answers.representative lawful first =
        answers.representative lawful second ↔
      answers.eql first second = true := by
  unfold representative
  rw [dif_pos firstAsked, dif_pos secondAsked, Subtype.val_inj,
    Quotient.out_inj]
  exact Quotient.eq

/-- The representative of a key has its code. -/
theorem customCode_representative
    (lawful : answers.Lawful heap)
    (asked : Asked heap key) :
    answers.customCode heap (answers.representative lawful key) =
      answers.customCode heap key := by
  unfold representative
  rw [dif_pos asked]
  have related : (answers.setoid lawful).r
      (Quotient.mk (answers.setoid lawful) ⟨key, asked⟩).out ⟨key, asked⟩ :=
    @Quotient.mk_out _ (answers.setoid lawful) ⟨key, asked⟩
  exact lawful.code _ _ (Subtype.property _) asked related

theorem content_of_custom
    (custom : isNative heap key = false)
    (representative : Value → Value) :
    content representative heap key = .custom (representative key) := by
  rcases (not_isNative_iff heap key).mp custom with
    rfl | rfl | rfl | ⟨object, rfl, text⟩
  · rfl
  · rfl
  · rfl
  · simp [content, text]

theorem content_of_native
    (native : isNative heap key = true)
    (representative : Value → Value)
    (other : Value) :
    content representative heap key ≠ .custom other := by
  cases key with
  | obj object =>
      rw [isNative_obj, Option.isSome_iff_exists] at native
      obtain ⟨bytes, held⟩ := native
      simp [content, held]
  | nil => simp [isNative, nativeBytes] at native
  | falseValue => simp [isNative, nativeBytes] at native
  | trueValue => simp [isNative, nativeBytes] at native
  | int number => simp [content]
  | float number => simp [content]
  | sym symbol => simp [content]

section

variable (lawful : answers.Lawful heap)
include lawful

/-- The oracle says of a key that is asked what the callbacks answer. -/
theorem oracle_same_of_asked
    (raiseAt : Option Nat)
    (grown : heap <+: later)
    (asked : Asked heap key)
    (known : ValidKey heap stored ∨ isNative later stored = true) :
    (answers.oracle lawful raiseAt).same later key stored =
      answers.eqlStored later key stored := by
  have keyCustom : isNative later key = false := by
    rw [isNative_of_extends grown asked.2]
    exact asked.1
  rw [Bool.eq_iff_iff, KeyOracle.same, decide_eq_true_eq, KeyOracle.content,
    KeyOracle.content, content_of_custom keyCustom, eqlStored]
  cases native : isNative later stored with
  | true =>
      simp only [Bool.not_true, Bool.false_and, Bool.false_eq_true, iff_false]
      exact content_of_native native _ _
  | false =>
      have valid : ValidKey heap stored := by
        rcases known with valid | isNat
        · exact valid
        · rw [native] at isNat
          cases isNat
      have storedAsked : Asked heap stored := by
        refine ⟨?_, valid⟩
        rw [← isNative_of_extends grown valid]
        exact native
      rw [content_of_custom native, KeyContent.custom.injEq]
      simp only [Bool.not_false, Bool.true_and]
      rw [← representative_eq_iff lawful asked storedAsked]
      exact eq_comm

theorem oracle_same
    (raiseAt : Option Nat)
    (valid : ValidKey heap key)
    (storedValid : ValidKey heap stored) :
    (answers.oracle lawful raiseAt).same heap key stored =
      answers.same heap key stored := by
  unfold same
  cases native : nativeBytes heap key with
  | some bytes => exact (nativeEql_eq_same native stored).symm
  | none =>
      have asked : Asked heap key := ⟨by simp [isNative, native], valid⟩
      exact oracle_same_of_asked lawful raiseAt (List.prefix_refl _) asked
        (Or.inl storedValid)

theorem oracle_code
    (raiseAt : Option Nat)
    (valid : ValidKey heap key) :
    (answers.oracle lawful raiseAt).code heap key = answers.code heap key := by
  unfold code
  cases native : isNative heap key with
  | true =>
      rw [nativeCode_eq native (answers.representative lawful)
        (answers.customCode heap), Option.getD_some]
      rfl
  | false =>
      rw [nativeCode_eq_none native, Option.getD_none, KeyOracle.code,
        KeyOracle.content, content_of_custom native]
      exact customCode_representative lawful ⟨native, valid⟩

/-- A call makes one call. -/
theorem call_asks
    (raiseAt : Option Nat)
    (error : VmError)
    (answer : Vm Nat → Value)
    (vm : Vm Nat) :
    Asks (answers.oracle lawful raiseAt) (call raiseAt error answer) vm 1
      (answer vm) := by
  unfold call
  rw [asks_get_bind]
  by_cases now : raiseAt = some vm.world
  · rw [if_pos now]
    exact ⟨vm.world, rfl, vm.world, now, Nat.le_refl _, Nat.lt_succ_self _⟩
  · rw [if_neg now]
    refine ⟨rfl, vm.world + 1, rfl, rfl, ?_⟩
    rintro ⟨other, raises, low, high⟩
    have same : other = vm.world := by
      simp only [oracle, id] at low high
      omega
    exact now (same ▸ raises)

end

theorem vtype_of_extends
    {later : Heap}
    (grown : heap <+: later)
    (valid : ValidKey heap (.obj object)) :
    later.vtype object = heap.vtype object := by
  unfold Heap.vtype
  rw [getElem?_of_extends grown valid]

/-- The callbacks answer as their oracle says. -/
theorem callbacks_consistent
    (lawful : answers.Lawful heap)
    (raiseAt : Option Nat)
    (error : VmError) :
    Consistent (answers.callbacks raiseAt error)
      (answers.oracle lawful raiseAt) heap (ValidKey heap) where
  valid := fun _ valid => valid
  hash := by
    intro vm object grown valid text
    have native : isNative heap (.obj object) = false := by
      simp [isNative_obj, text]
    refine ⟨_, call_asks lawful raiseAt error _ vm, ?_⟩
    rw [oracle_code lawful raiseAt valid, code, nativeCode_eq_none native,
      Option.getD_none, vtype_of_extends grown valid]
    rfl
  nilCode := fun valid => oracle_code lawful raiseAt valid
  falseCode := fun valid => oracle_code lawful raiseAt valid
  trueCode := fun valid => oracle_code lawful raiseAt valid
  eql := by
    intro vm key stored grown valid custom known
    refine ⟨_, call_asks lawful raiseAt error _ vm, ?_⟩
    rw [oracle_same_of_asked lawful raiseAt grown ⟨custom, valid⟩ known]
    cases answers.eqlStored vm.heap key stored <;> rfl
  eqlBasic := fun _ _ _ _ => rfl
  sameValue := by
    intro vm key stored grown valid custom known _
    exact (oracle_same_of_asked lawful raiseAt grown ⟨custom, valid⟩
      known).symm

/-- A table of the answers is sound. -/
theorem Table.sound
    (table : answers.Table heap h)
    (lawful : answers.Lawful heap)
    (raiseAt : Option Nat)
    (error : VmError)
    (world : Nat) :
    Sound (answers.callbacks raiseAt error) (answers.oracle lawful raiseAt)
      (ValidKey heap) ⟨h, heap, world⟩ := by
  refine ⟨callbacks_consistent lawful raiseAt error,
    table.representation.congr ?_, ?_, table.valid⟩
  · intro entry member
    exact (oracle_code lawful raiseAt (table.valid entry member)).symm
  · refine List.pairwise_map.mpr ?_
    refine table.distinct.imp_of_mem ?_
    intro first second firstMember secondMember different same
    rw [← oracle_same lawful raiseAt (table.valid first firstMember)
      (table.valid second secondMember), KeyOracle.same,
      decide_eq_false_iff_not] at different
    exact different same.symm

/-! ## Finding the entries afterwards -/

/-- Keys of the old heap answer consistently in the grown one. -/
theorem Table.consistent
    (lawful : answers.Lawful heap)
    (raiseAt : Option Nat)
    (error : VmError)
    (grown : GrownBy heap later) :
    Consistent (answers.callbacks raiseAt error)
      (answers.oracle lawful raiseAt) later (ValidKey heap) :=
  (callbacks_consistent lawful raiseAt error).grow grown fun _ valid =>
    Or.inl valid

/-- In an intact table every entry is found. -/
theorem Table.allFound
    (table : answers.Table heap h)
    (lawful : answers.Lawful heap)
    (intact : Intact (answers.oracle lawful raiseAt) ⟨h, heap, 0⟩ after) :
    answers.AllFound after := by
  obtain ⟨grown, entries, representation⟩ := intact
  dsimp only at grown entries
  have before := table.sound lawful none .hashModified 0
  have sound : Sound (answers.callbacks none .hashModified)
      (answers.oracle lawful none) (ValidKey heap) after := by
    refine ⟨Table.consistent lawful none .hashModified grown, representation,
      ?_, ?_⟩
    · rw [entries]
      exact before.distinct_of_extends grown.kept
    · rw [entries]
      exact table.valid
  intro p entry held
  have isKey := sound.stored entry (List.mem_of_getElem? held)
  obtain ⟨found, vm, ran, same, _⟩ :=
    (hFind_asks sound.searchable sound.inRange isKey).exists_ok
      fun _ _ ⟨_, _, within⟩ => within.raises rfl
  refine ⟨vm, ?_⟩
  have located : lookup ((answers.oracle lawful none).same after.heap entry.1)
      after.table.entries = some p := sound.distinct.lookup_self held
  rw [ran, same, sound.tableFind_eq, located]
  rfl

/-- In a damaged table an entry is not found. -/
theorem Table.not_allFound
    (table : answers.Table heap h)
    (lawful : answers.Lawful heap)
    (damaged : Damaged (⟨h, heap, 0⟩ : Vm Nat) after) :
    ¬answers.AllFound after := by
  obtain ⟨grown, entries, hasIndex, slotsLength, ascending, inRange, p, bound,
    lost⟩ := damaged
  dsimp only at grown entries
  have before := table.sound lawful none .hashModified 0
  have valid : ∀ entry ∈ after.table.entries, ValidKey heap entry.1 := by
    rw [entries]
    exact table.valid
  have searchable : Searchable (answers.callbacks none .hashModified)
      (answers.oracle lawful none) (ValidKey heap) after :=
    ⟨Table.consistent lawful none .hashModified grown, slotsLength, ascending,
      fun entry member => (valid entry member).of_extends grown.kept⟩
  have distinct : Distinct ((answers.oracle lawful none).content after.heap)
      after.table.entries := by
    rw [entries]
    exact before.distinct_of_extends grown.kept
  intro allFound
  have held := List.getElem?_eq_getElem bound
  have isKey := valid _ (List.getElem_mem bound)
  obtain ⟨vm, ran⟩ := allFound p _ held
  obtain ⟨found, other, otherRan, same, _⟩ :=
    (hFind_asks searchable (fun _ => inRange) isKey).exists_ok
      fun _ _ ⟨_, _, within⟩ => within.raises rfl
  rw [ran] at otherRan
  cases otherRan
  unfold tableFind at same
  rw [if_pos hasIndex] at same
  cases scanned : scanKeys after.table
      ((answers.oracle lawful none).code after.heap
        after.table.entries[p].1)
      ((answers.oracle lawful none).same after.heap
        after.table.entries[p].1) with
  | vacant b =>
      rw [scanned] at same
      cases same
  | exhausted =>
      rw [scanned] at same
      cases same
  | found q =>
      rw [scanned] at same
      cases same
      obtain ⟨⟨bucket, there⟩, _⟩ := scan_found scanned
      exact lost bucket there

/-! ## The rebuild a raising call interrupts -/

/-- Looking for a key that is absent compares it with every entry. -/
theorem walkCalls_of_absent
    {oracle : KeyOracle ω}
    (custom : isNative heap key = false)
    (absent : ∀ entry ∈ entries, oracle.same heap key entry.1 = false) :
    oracle.walkCalls heap key entries =
      if oracle.basic key then 0 else entries.length := by
  induction entries with
  | nil => simp [KeyOracle.walkCalls]
  | cons entry entries ih =>
      have other := absent entry List.mem_cons_self
      have different : key ≠ entry.1 := by
        intro same
        rw [← same, KeyOracle.same] at other
        simp at other
      have rest := ih fun later member =>
        absent later (List.mem_cons_of_mem _ member)
      unfold KeyOracle.walkCalls
      rw [rest, other]
      by_cases basic : oracle.basic key = true
      · simp [KeyOracle.eqlCalls, basic]
      · simp [KeyOracle.eqlCalls, basic, custom, different]
        omega

section

variable (lawful : answers.Lawful heap)
include lawful

theorem smallRebuild_eq
    (raiseAt : Option Nat)
    (world : Nat)
    (valid : ValidKey heap key)
    (entriesValid : ∀ entry ∈ h.entries, ValidKey heap entry.1) :
    answers.smallRebuild heap h key =
      arRebuild (answers.oracle lawful raiseAt) ⟨h, heap, world⟩ key := by
  have same : ∀ entry ∈ h.entries,
      (answers.oracle lawful raiseAt).same heap key entry.1 =
        answers.same heap key entry.1 :=
    fun entry member => oracle_same lawful raiseAt valid
      (entriesValid entry member)
  have absent : (h.entries.all fun entry =>
      !answers.same heap key entry.1) = true ↔
      lookup ((answers.oracle lawful raiseAt).same heap key) h.entries =
        none := by
    rw [lookup_eq_none_iff, List.all_eq_true]
    refine forall₂_congr fun entry member => ?_
    rw [same entry member, Bool.not_eq_true']
  unfold smallRebuild arRebuild
  dsimp only
  by_cases rebuilds : (h.entries.all fun entry =>
      !answers.same heap key entry.1) = true ∧ h.arMakeRoom.1 = true
  · have missing := absent.mp rebuilds.1
    rw [if_pos rebuilds, missing, rebuilds.2]
    simp only [Option.isNone_none, and_self, if_true]
    cases native : isNative heap key with
    | true => simp
    | false =>
        rw [walkCalls_of_absent native ((lookup_eq_none_iff _ _).mp missing)]
        simp only [Bool.false_eq_true, if_false, Bool.false_or]
        rfl
  · rw [if_neg rebuilds, if_neg]
    rintro ⟨missing, room⟩
    exact rebuilds ⟨absent.mpr (Option.isNone_iff_eq_none.mp missing), room⟩

theorem storeRebuild_eq
    (raiseAt : Option Nat)
    (world : Nat)
    (valid : ValidKey heap key)
    (entriesValid : ∀ entry ∈ h.entries, ValidKey heap entry.1) :
    answers.storeRebuild heap h key =
      setRebuild (answers.oracle lawful raiseAt) ⟨h, heap, world⟩ key := by
  unfold storeRebuild setRebuild
  dsimp only
  split
  · cases h.htMakeRoom.1 with
    | fits => rfl
    | rebuild bit => rfl
    | toAr => exact smallRebuild_eq lawful raiseAt world valid entriesValid
  · exact smallRebuild_eq lawful raiseAt world valid entriesValid

theorem raisesInRebuild_set_iff
    (raiseAt : Nat)
    (valid : ValidKey heap key)
    (entriesValid : ∀ entry ∈ h.entries, ValidKey heap entry.1)
    (value : Value) :
    answers.RaisesInRebuild heap h raiseAt (.set key value) ↔
      HashTable.RaisesInRebuild (answers.oracle lawful (some raiseAt))
        ⟨h, heap, 0⟩ (setRebuild (answers.oracle lawful (some raiseAt))
          ⟨h, heap, 0⟩ key) := by
  unfold RaisesInRebuild HashTable.RaisesInRebuild
  simp only
  rw [storeRebuild_eq lawful (some raiseAt) 0 valid entriesValid]
  refine exists_congr fun before => exists_congr fun bit =>
    and_congr_right fun _ => ?_
  constructor
  · rintro ⟨from_, within | wide⟩
    · exact Or.inl ⟨raiseAt, rfl, by simpa [oracle] using from_,
        by simpa [oracle] using within⟩
    · exact Or.inr ⟨wide, raiseAt, rfl, by simpa [oracle] using from_⟩
  · rintro (⟨call, same, from_, within⟩ | ⟨wide, call, same, from_⟩)
    · cases same
      exact ⟨by simpa [oracle] using from_,
        Or.inl (by simpa [oracle] using within)⟩
    · cases same
      exact ⟨by simpa [oracle] using from_, Or.inr wide⟩

end

/-- What an operation that raised has left behind. -/
theorem Table.outcome
    (table : answers.Table heap h)
    (lawful : answers.Lawful heap)
    (operation : AskingOperation)
    (valid : operation.Valid heap)
    (raiseAt : Nat)
    (error : VmError) :
    Exec.Satisfies
      (operation.run (answers.callbacks (some raiseAt) error)) ⟨h, heap, 0⟩
      (fun _ _ => True)
      (fun _ after =>
        (answers.RaisesInRebuild heap h raiseAt operation ∧
          Damaged (⟨h, heap, 0⟩ : Vm Nat) after) ∨
        (¬answers.RaisesInRebuild heap h raiseAt operation ∧
          Intact (answers.oracle lawful (some raiseAt)) ⟨h, heap, 0⟩
            after)) := by
  have sound := table.sound lawful (some raiseAt) error 0
  cases operation with
  | set key value =>
      refine (hSet_outcome sound valid value).mono (fun _ _ _ => trivial) ?_
      rintro _ after ⟨_, raised⟩
      rw [raisesInRebuild_set_iff lawful raiseAt valid table.valid]
      exact raised
  | delete key =>
      unfold AskingOperation.run
      rw [Exec.satisfies_map]
      refine (hDelete_outcome sound valid).mono (fun _ _ _ => trivial) ?_
      rintro _ after ⟨_, intact⟩
      exact Or.inr ⟨id, intact⟩
  | shift =>
      unfold AskingOperation.run
      rw [Exec.satisfies_map]
      refine (hShift_outcome sound).mono (fun _ _ _ => trivial) ?_
      rintro _ after ⟨_, intact⟩
      exact Or.inr ⟨id, intact⟩
  | rehash =>
      refine (hRehash_outcome sound).mono (fun _ _ _ => trivial) ?_
      rintro _ after ⟨_, raised⟩
      unfold RaisesInRebuild
      dsimp only at raised
      split at raised
      · rename_i indexed
        exact Or.inl ⟨indexed, raised⟩
      · rename_i without
        exact Or.inr ⟨without, raised⟩

/-- After an operation during which a key raised, every entry is found again
exactly when the raising call was not made while the index was being rebuilt. -/
theorem raising_leaves_entries_findable_iff
    (answers : KeyAnswers)
    (lawful : answers.Lawful heap)
    (table : answers.Table heap h)
    (operation : AskingOperation)
    (valid : operation.Valid heap)
    (raiseAt : Nat)
    (error : VmError)
    (raised : operation.run (answers.callbacks (some raiseAt) error)
      ⟨h, heap, 0⟩ = .error (.raised exception) after) :
    answers.AllFound after ↔
      ¬answers.RaisesInRebuild heap h raiseAt operation := by
  have outcome := table.outcome lawful operation valid raiseAt error
  unfold Exec.Satisfies at outcome
  rw [raised] at outcome
  rcases outcome with ⟨within, damaged⟩ | ⟨elsewhere, intact⟩
  · exact ⟨fun all => absurd all (table.not_allFound lawful damaged),
      fun without => absurd within without⟩
  · exact ⟨fun _ => elsewhere, fun _ => table.allFound lawful intact⟩

/-- Keys that are `eql?` to themselves only. -/
def identityKeys : KeyAnswers where
  hash := fun _ => .int 0
  eql := fun key stored => decide (key = stored)
  basic := fun _ => false

/-- A heap with one object that is not a String. -/
def objectHeap : Heap := [{ kind := .other 20, frozen := false }]

/-- A full table without an index, its first key the object. -/
def fullTable : HashData where
  entries := (.obj ⟨0⟩, .nil) ::
    (List.range 15).map fun i => (.int (Int64.ofNat i), .nil)
  slots := List.range 16
  nUsed := 16
  eaCapa := 16
  ibBit := 0
  ib := []
  epoch := 0
  default := .nil

theorem lawful_identityKeys (heap : Heap) : identityKeys.Lawful heap where
  refl := fun _ _ => decide_eq_true rfl
  symm := fun _ _ _ _ same => decide_eq_true (of_decide_eq_true same).symm
  trans := fun _ _ _ _ _ _ same next =>
    decide_eq_true ((of_decide_eq_true same).trans (of_decide_eq_true next))
  code := fun _ _ _ _ same => by rw [of_decide_eq_true same]

theorem table_fullTable : identityKeys.Table objectHeap fullTable where
  representation := {
    slotsLength := by decide
    ascending := by decide
    slotsBound := by decide
    usedBound := by decide
    capaBound := by decide
    small := by decide
    indexed := fun indexed => absurd indexed (by decide) }
  distinct := by decide
  valid := by
    refine List.forall_mem_cons.mpr ⟨Nat.zero_lt_one, ?_⟩
    intro entry member
    obtain ⟨i, _, rfl⟩ := List.mem_map.mp member
    trivial

/-- Looking for `true` in the full table asks it for `eql?` first. -/
theorem raising_delete_findable_iff :
    ∃ after,
      AskingOperation.run (identityKeys.callbacks (some 0) (.ruby .nil))
        (.delete .trueValue) ⟨fullTable, objectHeap, 0⟩ =
          .error (.raised (.ruby .nil)) after ∧
      (identityKeys.AllFound after ↔
        ¬identityKeys.RaisesInRebuild objectHeap fullTable 0
          (.delete .trueValue)) :=
  ⟨_, rfl, raising_leaves_entries_findable_iff identityKeys
    (lawful_identityKeys objectHeap) table_fullTable (.delete .trueValue)
    trivial 0 (.ruby .nil) rfl⟩

/-- A seventeenth entry gives the full table an index; when the object raises as
it is asked for its hash, the index is left without it. -/
theorem raising_set_loses_entry :
    identityKeys.Lawful objectHeap ∧
      identityKeys.Table objectHeap fullTable ∧
      AskingOperation.Valid objectHeap (.set (.int 15) .nil) ∧
      ∃ after,
        AskingOperation.run (identityKeys.callbacks (some 0) (.ruby .nil))
          (.set (.int 15) .nil) ⟨fullTable, objectHeap, 0⟩ =
            .error (.raised (.ruby .nil)) after ∧
        ¬identityKeys.AllFound after := by
  refine ⟨lawful_identityKeys objectHeap, table_fullTable, trivial, _, rfl, ?_⟩
  intro allFound
  obtain ⟨vm, ran⟩ := allFound 0 (.obj ⟨0⟩, .nil) rfl
  cases ran

end KeyAnswers

end SabiRuby.HashTable
