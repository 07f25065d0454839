import SabiRuby.HashTable.Invariant
import SabiRuby.HashTable.Keys

/-!
# Searches that ask the keys

A computation asks when it leaves the table and the heap alone and only calls
keys, each call answering the same whenever it is made, except for one call,
counted from the start of the program, that raises.  Searches ask: their answer
is the answer of an association list, and a search for a native key makes no
call at all.
-/

namespace SabiRuby.HashTable

open Library AssociationList

/-- How the keys of a program answer `hash` and `eql?`. -/
structure KeyOracle (ω : Type) where
  /-- Of the keys that are `eql?` to a key, the one that stands for them. -/
  representative : Value → Value
  /-- The code of a representative. -/
  customCode : Value → Nat
  /-- The keys whose class has the plain `eql?`. -/
  basic : Value → Bool
  /-- How many calls were made so far. -/
  calls : ω → Nat
  /-- The call that raises. -/
  raiseAt : Option Nat

namespace KeyOracle

variable {ω : Type} (oracle : KeyOracle ω)

/-- The raising call is one of the next `count` ones. -/
def RaisesWithin (start count : Nat) : Prop :=
  ∃ call, oracle.raiseAt = some call ∧ start ≤ call ∧ call < start + count

/-- The raising call is still to come. -/
def RaisesFrom (start : Nat) : Prop :=
  ∃ call, oracle.raiseAt = some call ∧ start ≤ call

/-- What a key is compared by. -/
def content (heap : Heap) (key : Value) : KeyContent :=
  HashTable.content oracle.representative heap key

/-- The code of a key. -/
def code (heap : Heap) (key : Value) : Nat :=
  (oracle.content heap key).code oracle.customCode

/-- A stored key is the key that is asked about. -/
def same (heap : Heap) (key stored : Value) : Bool :=
  decide (oracle.content heap stored = oracle.content heap key)

/-- How many calls it takes to compare a key with a stored one. -/
def eqlCalls (heap : Heap) (key stored : Value) : Nat :=
  if isNative heap key ∨ key = stored ∨ oracle.basic key then 0 else 1

/-- How many calls it takes to look for a key along a list of entries. -/
def walkCalls (heap : Heap) (key : Value) : List Entry → Nat
  | [] => 0
  | entry :: entries =>
      oracle.eqlCalls heap key entry.1 +
        if oracle.same heap key entry.1 then 0
        else walkCalls heap key entries

/-- How many calls it takes to look for a key along a probe. -/
def probeCalls (heap : Heap) (h : HashData) (key : Value) (code mask : Nat) :
    Nat → Nat → Nat
  | _, 0 => 0
  | step, left + 1 =>
      match h.bucket (probeAt mask code step) with
      | .empty => 0
      | .deleted => probeCalls heap h key code mask (step + 1) left
      | .live v =>
          match h.entries[v]? with
          | none => probeCalls heap h key code mask (step + 1) left
          | some entry =>
              oracle.eqlCalls heap key entry.1 +
                if oracle.same heap key entry.1 then 0
                else probeCalls heap h key code mask (step + 1) left

@[simp] theorem not_raisesWithin_zero (start : Nat) :
    ¬oracle.RaisesWithin start 0 := by
  rintro ⟨call, _, low, high⟩
  omega

theorem raisesWithin_add (start first second : Nat) :
    oracle.RaisesWithin start (first + second) ↔
      oracle.RaisesWithin start first ∨
        oracle.RaisesWithin (start + first) second := by
  constructor
  · rintro ⟨call, raises, low, high⟩
    rcases Nat.lt_or_ge call (start + first) with early | late
    · exact Or.inl ⟨call, raises, low, early⟩
    · exact Or.inr ⟨call, raises, late, by omega⟩
  · rintro (⟨call, raises, low, high⟩ | ⟨call, raises, low, high⟩)
    · exact ⟨call, raises, low, by omega⟩
    · exact ⟨call, raises, by omega, by omega⟩

variable {oracle : KeyOracle ω}

theorem RaisesWithin.raisesFrom
    (within : oracle.RaisesWithin start count) : oracle.RaisesFrom start := by
  obtain ⟨call, raises, low, _⟩ := within
  exact ⟨call, raises, low⟩

theorem RaisesFrom.raises
    (raisesFrom : oracle.RaisesFrom start) : oracle.raiseAt ≠ none := by
  obtain ⟨call, raises, _⟩ := raisesFrom
  simp [raises]

theorem RaisesWithin.raises
    (within : oracle.RaisesWithin start count) : oracle.raiseAt ≠ none :=
  within.raisesFrom.raises

theorem RaisesFrom.mono
    (raisesFrom : oracle.RaisesFrom later)
    (before : start ≤ later) : oracle.RaisesFrom start := by
  obtain ⟨call, raises, low⟩ := raisesFrom
  exact ⟨call, raises, Nat.le_trans before low⟩

end KeyOracle

section Asks

variable {ω α β : Type} {oracle : KeyOracle ω}

/-- The computation only calls keys: `count` calls are made before it returns
the answer, none of them the raising one, or it stops at that one. -/
def Asks
    (oracle : KeyOracle ω)
    (command : Exec VmError (Vm ω) α)
    (vm : Vm ω)
    (count : Nat)
    (answer : α) : Prop :=
  Exec.Satisfies command vm
    (fun value after => value = answer ∧
      ∃ world, after = { vm with world := world } ∧
        oracle.calls world = oracle.calls vm.world + count ∧
        ¬oracle.RaisesWithin (oracle.calls vm.world) count)
    (fun _ after => ∃ world, after = { vm with world := world } ∧
      oracle.RaisesWithin (oracle.calls vm.world) count)

theorem asks_pure (vm : Vm ω) (answer : α) :
    Asks oracle (pure answer) vm 0 answer :=
  ⟨rfl, vm.world, rfl, rfl, oracle.not_raisesWithin_zero _⟩

theorem asks_get_bind (next : Vm ω → Exec VmError (Vm ω) α) :
    Asks oracle (get >>= next) vm count answer ↔
      Asks oracle (next vm) vm count answer :=
  Iff.rfl

theorem asks_orPanic_bind
    (read : access = some value)
    (next : β → Exec VmError (Vm ω) α) :
    Asks oracle (Exec.orPanic access >>= next) vm count answer ↔
      Asks oracle (next value) vm count answer := by
  subst read
  exact Iff.rfl

theorem asks_orPanic
    (read : access = some answer) (vm : Vm ω) :
    Asks oracle (Exec.orPanic access) vm 0 answer := by
  subst read
  exact asks_pure vm answer

variable
  {command : Exec VmError (Vm ω) β}
  {next : β → Exec VmError (Vm ω) α}

/-- What follows a computation that asks. -/
theorem Asks.satisfies_bind
    (asks : Asks oracle command vm count answer)
    (returning : ∀ world,
      oracle.calls world = oracle.calls vm.world + count →
      ¬oracle.RaisesWithin (oracle.calls vm.world) count →
      Exec.Satisfies (next answer) { vm with world := world } returns raises)
    (raising : ∀ error world,
      oracle.RaisesWithin (oracle.calls vm.world) count →
      raises error { vm with world := world }) :
    Exec.Satisfies (command >>= next) vm returns raises := by
  rw [Exec.satisfies_bind]
  refine Exec.Satisfies.mono asks ?_ ?_
  · rintro value after ⟨rfl, world, rfl, counted, quiet⟩
    exact returning world counted quiet
  · rintro error after ⟨world, rfl, within⟩
    exact raising error world within

/-- One asking computation after another asks. -/
theorem Asks.bind
    (first : Asks oracle command vm count middle)
    (second : ∀ world,
      Asks oracle (next middle) { vm with world := world } more answer) :
    Asks oracle (command >>= next) vm (count + more) answer := by
  refine first.satisfies_bind ?_ ?_
  · intro world counted quiet
    refine Exec.Satisfies.mono (second world) ?_ ?_
    · rintro value after ⟨rfl, later, rfl, countedLater, quietLater⟩
      dsimp only at countedLater quietLater
      refine ⟨rfl, later, rfl, by rw [countedLater, counted]; omega, ?_⟩
      rw [oracle.raisesWithin_add, ← counted]
      exact not_or.mpr ⟨quiet, quietLater⟩
    · rintro error after ⟨later, rfl, within⟩
      dsimp only at within
      refine ⟨later, rfl, ?_⟩
      rw [oracle.raisesWithin_add, ← counted]
      exact Or.inr within
  · intro error world within
    refine ⟨world, rfl, ?_⟩
    rw [oracle.raisesWithin_add]
    exact Or.inl within

/-- A pure step after a computation that asks. -/
theorem Asks.bind_pure
    (first : Asks oracle command vm count middle)
    (result : β → α) :
    Asks oracle (command >>= fun value => pure (result value)) vm count
      (result middle) :=
  show Asks oracle _ vm (count + 0) _ from
    first.bind fun world => asks_pure { vm with world := world } (result middle)

end Asks

/-- The callbacks answer for these keys as the oracle says. -/
structure Consistent
    (callbacks : Callbacks ω)
    (oracle : KeyOracle ω)
    (heap : Heap)
    (keys : Value → Prop) : Prop where
  /-- The keys are values of the heap. -/
  valid : ∀ key, keys key → ValidKey heap key
  /-- `hash` answers the code of the key. -/
  hash : ∀ (vm : Vm ω) (object : ObjId),
    heap <+: vm.heap → keys (.obj object) → heap.string object = none →
      ∃ answer, Asks oracle (callbacks.callHash (.obj object)) vm 1 answer ∧
        (mix (vm.heap.vtype object ^^^ hashNumber answer)).toNat =
          oracle.code heap (.obj object)
  /-- `nil`, `false` and `true` have the codes of the source. -/
  nilCode : keys .nil → oracle.code heap .nil = (mix 0).toNat
  falseCode : keys .falseValue →
    oracle.code heap .falseValue = (mix 2).toNat
  trueCode : keys .trueValue → oracle.code heap .trueValue = (mix 6).toNat
  /-- `eql?` answers whether the keys are the same. -/
  eql : ∀ (vm : Vm ω) (key stored : Value),
    heap <+: vm.heap → keys key → isNative heap key = false →
      ValidKey heap stored ∨ isNative vm.heap stored = true →
      ∃ answer, Asks oracle (callbacks.callEql key stored) vm 1 answer ∧
        answer.truthy = oracle.same vm.heap key stored
  /-- The class of a key either has the plain `eql?` or has not. -/
  eqlBasic : ∀ (vm : Vm ω) (key : Value), keys key →
    isNative heap key = false →
      callbacks.eqlBasic vm key = oracle.basic key
  /-- The plain `eql?` answers whether the keys are the same. -/
  sameValue : ∀ (vm : Vm ω) (key stored : Value),
    heap <+: vm.heap → keys key → isNative heap key = false →
      ValidKey heap stored ∨ isNative vm.heap stored = true →
      oracle.basic key = true →
      callbacks.sameValue vm key stored = oracle.same vm.heap key stored

/-- The callbacks still answer so when the heap has grown, for native keys of
the new heap as well. -/
theorem Consistent.grow
    {callbacks : Callbacks ω}
    (consistent : Consistent callbacks oracle heap keys)
    (growth : GrownBy heap later)
    (known : ∀ key, more key →
      keys key ∨ (isNative later key = true ∧ ValidKey later key)) :
    Consistent callbacks oracle later more := by
  have grown := growth.kept
  have custom : ∀ key, more key → isNative later key = false →
      keys key ∧ isNative heap key = false := by
    intro key isKey notNative
    rcases known key isKey with old | ⟨native, _⟩
    · rw [isNative_of_extends grown (consistent.valid key old)] at notNative
      exact ⟨old, notNative⟩
    · rw [native] at notNative
      cases notNative
  have sameCode : ∀ key, keys key →
      oracle.code later key = oracle.code heap key := by
    intro key isKey
    unfold KeyOracle.code KeyOracle.content
    rw [content_of_extends grown (consistent.valid key isKey)]
  have immediate : ∀ key, more key → isNative later key = false →
      oracle.code later key = oracle.code heap key :=
    fun key isKey notNative => sameCode key (custom key isKey notNative).1
  have storedOld : ∀ vm : Vm ω, ∀ stored, later <+: vm.heap →
      ValidKey later stored ∨ isNative vm.heap stored = true →
      ValidKey heap stored ∨ isNative vm.heap stored = true := by
    rintro vm stored extended (valid | native)
    · rcases growth.news stored valid with old | native
      · exact Or.inl old
      · right
        rw [isNative_of_extends extended valid]
        exact native
    · exact Or.inr native
  refine ⟨?_, ?_, ?_, ?_, ?_, ?_, ?_, ?_⟩
  · intro key isKey
    rcases known key isKey with old | ⟨_, valid⟩
    · exact (consistent.valid key old).of_extends grown
    · exact valid
  · intro vm object extended isKey noText
    have notNative : isNative later (.obj object) = false := by
      simp [isNative_obj, noText]
    obtain ⟨old, oldNative⟩ := custom _ isKey notNative
    have oldText : heap.string object = none := by
      simpa [isNative_obj] using oldNative
    obtain ⟨answer, asks, coded⟩ :=
      consistent.hash vm object (grown.trans extended) old oldText
    exact ⟨answer, asks, by rw [coded, sameCode _ old]⟩
  · intro isKey
    obtain ⟨old, _⟩ := custom .nil isKey rfl
    rw [sameCode _ old, consistent.nilCode old]
  · intro isKey
    obtain ⟨old, _⟩ := custom .falseValue isKey rfl
    rw [sameCode _ old, consistent.falseCode old]
  · intro isKey
    obtain ⟨old, _⟩ := custom .trueValue isKey rfl
    rw [sameCode _ old, consistent.trueCode old]
  · intro vm key stored extended isKey notNative valid
    obtain ⟨old, oldNative⟩ := custom key isKey notNative
    exact consistent.eql vm key stored (grown.trans extended) old oldNative
      (storedOld vm stored extended valid)
  · intro vm key isKey notNative
    obtain ⟨old, oldNative⟩ := custom key isKey notNative
    exact consistent.eqlBasic vm key old oldNative
  · intro vm key stored extended isKey notNative valid basic
    obtain ⟨old, oldNative⟩ := custom key isKey notNative
    exact consistent.sameValue vm key stored (grown.trans extended) old
      oldNative (storedOld vm stored extended valid) basic

/-! ## Hashing and comparing keys -/

/-- Every entry has a slot, so the modification check reads within range. -/
theorem check_isSome
    (slotsLength : h.slots.length = h.entries.length) :
    ∃ seen, HashData.check h = some seen := by
  unfold HashData.check
  simp only
  split
  · exact ⟨_, rfl⟩
  · split
    · rename_i first
      have nonempty : 0 < h.slots.length := by
        cases slots : h.slots with
        | nil => simp [slots] at first
        | cons slot slots => simp
      rw [List.getElem?_eq_getElem (slotsLength ▸ nonempty)]
      exact ⟨_, rfl⟩
    · exact ⟨_, rfl⟩

@[simp] theorem HCheck.same_self (seen : HCheck) : seen.same seen = true := by
  unfold HCheck.same
  cases first : seen.first with
  | none => simp
  | some key => simp [(sameWord_iff key key).mpr rfl]

section Keys

variable {ω : Type} {callbacks : Callbacks ω} {oracle : KeyOracle ω}
variable {vm : Vm ω} {keys : Value → Prop}

theorem asks_hCheck_bind
    (seen : vm.table.check = some before)
    (next : HCheck → Exec VmError (Vm ω) α) :
    Asks oracle (hCheck >>= next) vm count answer ↔
      Asks oracle (next before) vm count answer := by
  unfold hCheck
  rw [bind_assoc, asks_get_bind, seen]
  exact Iff.rfl

/-- The modification check passes a table that is as it was. -/
theorem hVerify_asks
    (seen : vm.table.check = some before) :
    Asks oracle (hVerify before) vm 0 () := by
  unfold hVerify
  rw [asks_hCheck_bind seen, if_pos (HCheck.same_self before)]
  exact asks_pure vm ()

/-- A call under the modification check asks when the call does. -/
theorem checked_asks
    {call : Exec VmError (Vm ω) β}
    (slotsLength : vm.table.slots.length = vm.table.entries.length)
    (asks : Asks oracle call vm count answer)
    (result : β → α) :
    Asks oracle (do
      let before ← hCheck
      let answer ← call
      hVerify before
      pure (result answer)) vm count (result answer) := by
  obtain ⟨before, seen⟩ := check_isSome slotsLength
  rw [asks_hCheck_bind seen]
  refine show Asks oracle _ vm (count + 0) _ from asks.bind fun world => ?_
  have verified : Asks oracle (hVerify before)
      { vm with world := world } 0 () := hVerify_asks seen
  exact verified.bind_pure fun _ => result answer

/-- Hashing a key asks for its code. -/
theorem hCode_asks
    (consistent : Consistent callbacks oracle vm.heap keys)
    (slotsLength : vm.table.slots.length = vm.table.entries.length)
    (isKey : keys key) :
    Asks oracle (hCode callbacks key) vm (hashCalls vm.heap key)
      (oracle.code vm.heap key) := by
  unfold hCode
  rw [asks_get_bind]
  cases key with
  | nil =>
      rw [consistent.nilCode isKey]
      exact asks_pure vm _
  | falseValue =>
      rw [consistent.falseCode isKey]
      exact asks_pure vm _
  | trueValue =>
      rw [consistent.trueCode isKey]
      exact asks_pure vm _
  | int number => exact asks_pure vm _
  | sym symbol => exact asks_pure vm _
  | float number =>
      have coded : oracle.code vm.heap (.float number) =
          (mix (floatCode number)).toNat := by
        rw [floatCode_eq]
        rfl
      rw [coded]
      exact asks_pure vm _
  | obj object =>
      cases text : vm.heap.string object with
      | some bytes =>
          have coded : oracle.code vm.heap (.obj object) =
              (mix (byteHash bytes)).toNat := by
            simp [KeyOracle.code, KeyOracle.content, content, text,
              KeyContent.code]
          have silent : hashCalls vm.heap (.obj object) = 0 := by
            simp [hashCalls, asksHash, text]
          rw [coded, silent]
          simp only [text]
          exact asks_pure vm _
      | none =>
          obtain ⟨answer, asks, coded⟩ :=
            consistent.hash vm object (List.prefix_refl _) isKey text
          have once : hashCalls vm.heap (.obj object) = 1 := by
            simp [hashCalls, asksHash, text]
          rw [once, ← coded]
          simp only [text]
          exact checked_asks slotsLength asks fun answer =>
            (mix (vm.heap.vtype object ^^^ hashNumber answer)).toNat

/-- A native key is the same as a stored one when the source's comparison says
so. -/
theorem nativeEql_eq_same
    (native : nativeBytes heap key = some bytes) (stored : Value) :
    nativeEql heap key bytes stored = oracle.same heap key stored :=
  nativeEql_eq native stored

theorem not_isNative_iff (heap : Heap) (key : Value) :
    isNative heap key = false ↔
      key = .nil ∨ key = .falseValue ∨ key = .trueValue ∨
        ∃ object, key = .obj object ∧ heap.string object = none := by
  cases key <;> simp [isNative, nativeBytes]

/-- `eql?` of a key that is not native asks whether the keys are the same. -/
theorem mrbEql_asks
    (consistent : Consistent callbacks oracle vm.heap keys)
    (isKey : keys key)
    (custom : isNative vm.heap key = false)
    (valid : ValidKey vm.heap stored) :
    Asks oracle (mrbEql callbacks key stored) vm
      (oracle.eqlCalls vm.heap key stored)
      (oracle.same vm.heap key stored) := by
  have general : key ≠ stored →
      Asks oracle
        (if callbacks.eqlBasic vm key then
          pure (callbacks.sameValue vm key stored)
        else do
          let answer ← callbacks.callEql key stored
          pure answer.truthy) vm
        (oracle.eqlCalls vm.heap key stored)
        (oracle.same vm.heap key stored) := by
    intro different
    rw [consistent.eqlBasic vm key isKey custom]
    by_cases basic : oracle.basic key = true
    · have silent : oracle.eqlCalls vm.heap key stored = 0 := by
        simp [KeyOracle.eqlCalls, basic]
      rw [if_pos basic, silent, consistent.sameValue vm key stored
        (List.prefix_refl _) isKey custom (Or.inl valid) basic]
      exact asks_pure vm _
    · have once : oracle.eqlCalls vm.heap key stored = 1 := by
        simp [KeyOracle.eqlCalls, basic, custom, different]
      obtain ⟨answer, asks, truth⟩ := consistent.eql vm key stored
        (List.prefix_refl _) isKey custom (Or.inl valid)
      rw [if_neg basic, once, ← truth]
      exact asks.bind_pure Value.truthy
  unfold mrbEql
  rw [asks_get_bind]
  by_cases word : sameWord key stored = true
  · have equal := (sameWord_iff key stored).mp word
    subst equal
    have silent : oracle.eqlCalls vm.heap key key = 0 := by
      simp [KeyOracle.eqlCalls]
    have same : oracle.same vm.heap key key = true := by
      simp [KeyOracle.same]
    rw [if_pos word, silent, same]
    exact asks_pure vm true
  · have different : key ≠ stored := by
      intro equal
      exact word ((sameWord_iff key stored).mpr equal)
    rw [if_neg word]
    rcases (not_isNative_iff vm.heap key).mp custom with
      rfl | rfl | rfl | ⟨object, rfl, text⟩
    · exact general different
    · exact general different
    · exact general different
    · simp only [text]
      exact general different

/-- Comparing a key with a stored one asks whether they are the same. -/
theorem hObjEql_asks
    (consistent : Consistent callbacks oracle vm.heap keys)
    (slotsLength : vm.table.slots.length = vm.table.entries.length)
    (isKey : keys key)
    (valid : ValidKey vm.heap stored) :
    Asks oracle (hObjEql callbacks key stored) vm
      (oracle.eqlCalls vm.heap key stored)
      (oracle.same vm.heap key stored) := by
  unfold hObjEql
  rw [asks_get_bind]
  cases native : nativeBytes vm.heap key with
  | none =>
      have custom : isNative vm.heap key = false := by
        simp [isNative, native]
      have asks := checked_asks slotsLength
        (mrbEql_asks consistent isKey custom valid) id
      rcases (not_isNative_iff vm.heap key).mp custom with
        rfl | rfl | rfl | ⟨object, rfl, text⟩
      · exact asks
      · exact asks
      · exact asks
      · simp only [text]
        exact asks
  | some bytes =>
      have silent : oracle.eqlCalls vm.heap key stored = 0 := by
        simp [KeyOracle.eqlCalls, isNative, native]
      rw [silent, ← nativeEql_eq_same native stored]
      cases key with
      | nil => simp [nativeBytes] at native
      | falseValue => simp [nativeBytes] at native
      | trueValue => simp [nativeBytes] at native
      | int number => exact asks_pure vm _
      | sym symbol => exact asks_pure vm _
      | float number =>
          cases stored <;> exact asks_pure vm _
      | obj object =>
          cases text : vm.heap.string object with
          | none => simp [nativeBytes, text] at native
          | some own =>
              have sameBytes : bytes = some own := by
                simpa [nativeBytes, text, eq_comm] using native
              subst sameBytes
              simp only [text]
              cases stored <;> exact asks_pure vm _

/-- The slot of an entry leads back to it. -/
theorem slotHolds_self
    (ascending : h.slots.Pairwise (· < ·))
    (slotted : h.slots[p]? = some slot)
    (held : h.entries[p]? = some entry) :
    HashData.slotHolds h slot entry.1 = some (some p) := by
  have found : binarySearch h.slots slot = .ok p :=
    binarySearch_eq_ok ascending slotted
  simp [HashData.slotHolds, HashData.posOfSlot, found, held,
    (sameWord_iff entry.1 entry.1).mpr rfl]

/-- The entries past a slot start right after its entry. -/
theorem slotsAfter_slot
    (ascending : h.slots.Pairwise (· < ·))
    (slotted : h.slots[p]? = some slot) :
    HashData.slotsAfter h slot = p + 1 := by
  obtain ⟨bound, here⟩ := List.getElem?_eq_some_iff.mp slotted
  have order := List.pairwise_iff_getElem.mp ascending
  obtain ⟨atMost, split⟩ := @partitionPoint_spec _ h.slots
    (fun held => decide (held ≤ slot)) (by
      intro first second before above secondBound
      have firstBound := Nat.lt_trans before secondBound
      have between := order first second firstBound secondBound before
      rw [List.getElem?_eq_getElem firstBound] at above
      rw [List.getElem?_eq_getElem secondBound]
      simp only [Option.map_some, Option.some.injEq,
        decide_eq_false_iff_not] at above ⊢
      omega)
  have below : p < HashData.slotsAfter h slot := by
    have inside := split p bound
    rw [slotted] at inside
    simpa [HashData.slotsAfter] using inside.symm
  rcases Nat.lt_or_ge (p + 1) (HashData.slotsAfter h slot) with past | done
  · have nextBound : p + 1 < h.slots.length := Nat.lt_of_lt_of_le past atMost
    have inside := split (p + 1) nextBound
    have between := order p (p + 1) bound nextBound (Nat.lt_succ_self p)
    rw [List.getElem?_eq_getElem nextBound] at inside
    have still : h.slots[p + 1] ≤ slot ↔
        p + 1 < HashData.slotsAfter h slot := by
      simpa [HashData.slotsAfter] using inside
    have := still.mpr past
    omega
  · omega

end Keys

/-! ## Searches -/

/-- The slots of a table ascend with its entries, and its keys and the keys that
are asked about answer as the oracle says. -/
structure Searchable
    (callbacks : Callbacks ω)
    (oracle : KeyOracle ω)
    (keys : Value → Prop)
    (vm : Vm ω) : Prop where
  consistent : Consistent callbacks oracle vm.heap keys
  /-- Every entry has a slot. -/
  slotsLength : vm.table.slots.length = vm.table.entries.length
  /-- The slots ascend. -/
  ascending : vm.table.slots.Pairwise (· < ·)
  /-- The stored keys are values of the heap. -/
  valid : ∀ entry ∈ vm.table.entries, ValidKey vm.heap entry.1

/-- What Ruby did elsewhere does not matter. -/
theorem Searchable.setWorld
    {vm : Vm ω}
    (searchable : Searchable callbacks oracle keys vm) (world : ω) :
    Searchable callbacks oracle keys { vm with world := world } :=
  ⟨searchable.consistent, searchable.slotsLength, searchable.ascending,
    searchable.valid⟩

/-- What a search of a list of entries answers. -/
def foundAt : Option Nat → Found
  | some p => .atEntry p
  | none => .missing

section Searches

variable {ω : Type} {callbacks : Callbacks ω} {oracle : KeyOracle ω}
variable {vm : Vm ω} {keys : Value → Prop}

/-- Comparing a key with entry `p` asks whether `p` is its entry. -/
theorem hCompare_asks
    (searchable : Searchable callbacks oracle keys vm)
    (isKey : keys key)
    (held : vm.table.entries[p]? = some entry) :
    Asks oracle (hCompare callbacks key p) vm
      (oracle.eqlCalls vm.heap key entry.1)
      (if oracle.same vm.heap key entry.1 then some p else none) := by
  obtain ⟨bound, _⟩ := List.getElem?_eq_some_iff.mp held
  obtain ⟨slot, slotted⟩ : ∃ slot, vm.table.slotAt p = some slot :=
    ⟨_, List.getElem?_eq_getElem (searchable.slotsLength ▸ bound)⟩
  have valid := searchable.valid entry (List.mem_of_getElem? held)
  have stored : vm.table.keyAt p = some entry.1 := by
    simp [HashData.keyAt, held]
  unfold hCompare
  rw [asks_get_bind]
  simp only [stored]
  rw [asks_orPanic_bind slotted]
  refine show Asks oracle _ vm (_ + 0) _ from
    (hObjEql_asks searchable.consistent searchable.slotsLength isKey
      valid).bind fun world => ?_
  by_cases same : oracle.same vm.heap key entry.1 = true
  · rw [if_pos same, if_pos same]
    unfold hCheckVacated
    rw [bind_assoc, asks_get_bind, bind_assoc,
      asks_orPanic_bind
        (slotHolds_self searchable.ascending slotted held)]
    exact asks_pure _ _
  · rw [if_neg same, if_neg same]
    exact asks_pure _ _

/-- The search of a Hash without an index asks for the first entry of the key
from `p` on. -/
theorem hFindArLoop_asks
    (searchable : Searchable callbacks oracle keys vm)
    (isKey : keys key)
    (enough : vm.table.entries.length ≤ p + left) :
    Asks oracle (hFindArLoop callbacks key left p) vm
      (oracle.walkCalls vm.heap key (vm.table.entries.drop p))
      (foundAt ((lookup (oracle.same vm.heap key)
        (vm.table.entries.drop p)).map (· + p))) := by
  induction left generalizing p vm with
  | zero =>
      rw [List.drop_eq_nil_of_le (by omega)]
      exact asks_pure vm _
  | succ left ih =>
      unfold hFindArLoop
      rw [asks_get_bind]
      rw [HashData.len]
      by_cases bound : p < vm.table.entries.length
      · have held := List.getElem?_eq_getElem bound
        obtain ⟨slot, slotted⟩ : ∃ slot, vm.table.slotAt p = some slot :=
          ⟨_, List.getElem?_eq_getElem (searchable.slotsLength ▸ bound)⟩
        rw [if_pos bound, asks_orPanic_bind slotted,
          List.drop_eq_getElem_cons bound]
        refine (hCompare_asks searchable isKey held).bind fun world => ?_
        by_cases same : oracle.same vm.heap key vm.table.entries[p].1 = true
        · have first : lookup (oracle.same vm.heap key)
              (vm.table.entries[p] :: vm.table.entries.drop (p + 1)) =
                some 0 := by
            unfold lookup
            rw [List.findIdx?_cons, if_pos same]
          rw [if_pos same, if_pos same, first]
          simp only [Option.map_some, Nat.zero_add]
          exact asks_pure _ _
        · have later : (lookup (oracle.same vm.heap key)
              (vm.table.entries[p] :: vm.table.entries.drop (p + 1))).map
                (· + p) =
              (lookup (oracle.same vm.heap key)
                (vm.table.entries.drop (p + 1))).map (· + (p + 1)) := by
            simp only [lookup, List.findIdx?_cons, same, Bool.false_eq_true,
              if_false, Option.map_map]
            congr 1
            funext position
            simp only [Function.comp]
            omega
          rw [if_neg same, if_neg same, later]
          rw [asks_get_bind, slotsAfter_slot searchable.ascending slotted]
          exact @ih { vm with world := world } (p + 1)
            (searchable.setWorld world) (by dsimp only; omega)
      · rw [List.drop_eq_nil_of_le (by omega), if_neg bound]
        exact asks_pure vm _

/-- The probe of a Hash with an index asks for what the scan of its buckets
finds. -/
theorem hFindHtLoop_asks
    (searchable : Searchable callbacks oracle keys vm)
    (isKey : keys key) :
    Asks oracle (hFindHtLoop callbacks key code mask step left) vm
      (oracle.probeCalls vm.heap vm.table key code mask step left)
      (foundAt (scan (probeAt mask) vm.table.ib code
        (fun p => vm.table.entries[p]?.any fun entry =>
          oracle.same vm.heap key entry.1) step left).position?) := by
  induction left generalizing step vm with
  | zero => exact asks_pure vm _
  | succ left ih =>
      have onward := fun world => @ih
        { vm with world := world } (step + 1) (searchable.setWorld world)
      unfold hFindHtLoop scan KeyOracle.probeCalls
      rw [asks_get_bind]
      simp only [HashData.bucket]
      cases met : vm.table.ib[probeAt mask code step]? with
      | none => exact asks_pure vm _
      | some bucket =>
          cases bucket with
          | empty => exact asks_pure vm _
          | deleted => exact onward vm.world
          | live v =>
              simp only [Option.getD_some]
              cases held : vm.table.entries[v]? with
              | none =>
                  have nothing : vm.table.keyAt v = none := by
                    simp [HashData.keyAt, held]
                  unfold hCompare
                  rw [bind_assoc, asks_get_bind]
                  simp only [nothing]
                  exact onward vm.world
              | some entry =>
                  refine (hCompare_asks searchable isKey held).bind
                    fun world => ?_
                  by_cases same : oracle.same vm.heap key entry.1 = true
                  · simp only [same, if_true, Option.any_some]
                    exact asks_pure _ _
                  · simp only [same, if_false, Option.any_some,
                      Bool.false_eq_true]
                    exact onward world

/-! ## Searches for native keys -/

/-- A probe of the index reads no bucket and no entry out of range. -/
structure InRange (h : HashData) : Prop where
  mask : h.mask < h.ib.length
  live : ∀ bucket position : Nat,
    h.ib[bucket]? = some (.live position) → position < h.entries.length

theorem Indexed.inRange (index : Indexed code h) : InRange h where
  mask := by
    have := index.mask_succ
    omega
  live := by
    intro bucket position held
    simpa using index.indexes.bounded bucket position held

/-- What the probe of a store answers with. -/
def storeTarget? : Scan → Option (Except Nat Nat)
  | .found position => some (.ok position)
  | .vacant bucket => some (.error bucket)
  | .exhausted => none

theorem probeNativeLoop_eq
    (inRange : InRange h)
    (code : Nat)
    (eql : Value → Bool)
    (step left : Nat) :
    probeNativeLoop h code eql step left =
      some (storeTarget? (scan (probeAt h.mask) h.ib code
        (fun p => h.entries[p]?.any fun entry => eql entry.1) step left)) := by
  induction left generalizing step with
  | zero => rfl
  | succ left ih =>
      have inside : probeAt h.mask code step < h.ib.length :=
        Nat.lt_of_le_of_lt (probeAt_le _ _ _) inRange.mask
      obtain ⟨bucket, met⟩ : ∃ bucket, h.ib[probeAt h.mask code step]? =
          some bucket :=
        ⟨_, List.getElem?_eq_getElem inside⟩
      unfold probeNativeLoop scan
      simp only [met]
      cases bucket with
      | empty => rfl
      | deleted => exact ih (step + 1)
      | live v =>
          obtain ⟨entry, held⟩ : ∃ entry, h.entries[v]? = some entry :=
            ⟨_, List.getElem?_eq_getElem (inRange.live _ v met)⟩
          simp only [held, Option.any_some]
          by_cases same : eql entry.1 = true
          · simp [same, storeTarget?]
          · simpa [same] using ih (step + 1)

/-- The search for a native key is the probe of a store, less the bucket. -/
theorem findNativeLoop_eq_probe
    (h : HashData)
    (code : Nat)
    (eql : Value → Bool)
    (step left : Nat) :
    findNativeLoop h code eql step left =
      (probeNativeLoop h code eql step left).map fun target =>
        target.bind Except.toOption := by
  induction left generalizing step with
  | zero => rfl
  | succ left ih =>
      unfold findNativeLoop probeNativeLoop
      simp only
      cases h.ib[probeAt h.mask code step]? with
      | none => rfl
      | some bucket =>
          cases bucket with
          | empty => rfl
          | deleted => exact ih (step + 1)
          | live v =>
              cases held : h.entries[v]? with
              | none => simp [held]
              | some entry =>
                  by_cases same : eql entry.1 = true
                  · simp [held, same, Except.toOption]
                  · simpa [held, same] using ih (step + 1)

theorem findNativeLoop_eq
    (inRange : InRange h)
    (code : Nat)
    (eql : Value → Bool) :
    findNativeLoop h code eql 0 (h.mask + 1) =
      some (scanKeys h code eql).position? := by
  rw [findNativeLoop_eq_probe, probeNativeLoop_eq inRange, Option.map_some,
    scanKeys]
  generalize scan _ _ _ _ _ _ = found
  cases found <;> rfl

/-- Where a Hash finds a key: along the probe of its code, or without an index
in the list of its entries. -/
def tableFind (oracle : KeyOracle ω) (vm : Vm ω) (key : Value) : Option Nat :=
  if vm.table.isHt then
    (scanKeys vm.table (oracle.code vm.heap key)
      (oracle.same vm.heap key)).position?
  else lookup (oracle.same vm.heap key) vm.table.entries

theorem nativeEql_eq_same_fun
    (oracle : KeyOracle ω)
    (native : nativeBytes heap key = some bytes) :
    nativeEql heap key bytes = oracle.same heap key := by
  funext stored
  exact nativeEql_eq_same native stored

/-- The search without Ruby answers for a native key and passes on the others. -/
theorem findNative_asks
    (inRange : vm.table.isHt = true → InRange vm.table)
    (key : Value) :
    Asks oracle (findNative key) vm 0
      (if isNative vm.heap key then some (tableFind oracle vm key)
        else none) := by
  unfold findNative
  rw [asks_get_bind]
  cases native : nativeBytes vm.heap key with
  | none =>
      have custom : isNative vm.heap key = false := by
        simp [isNative, native]
      simp only [custom, Bool.false_eq_true, if_false]
      exact asks_pure vm _
  | some bytes =>
      have isNat : isNative vm.heap key = true := by simp [isNative, native]
      rw [if_pos isNat]
      simp only [nativeEql_eq_same_fun oracle native]
      unfold tableFind
      by_cases hasIndex : vm.table.isHt = true
      · rw [if_pos hasIndex, if_pos hasIndex,
          nativeCode_eq isNat oracle.representative oracle.customCode]
        simp only
        rw [asks_orPanic_bind (findNativeLoop_eq (inRange hasIndex) _ _)]
        exact asks_pure vm _
      · rw [if_neg hasIndex, if_neg hasIndex]
        exact asks_pure vm _

/-- The probe of a store answers for a native key and passes on the others. -/
theorem probeNative_asks
    (inRange : InRange vm.table)
    (key : Value) :
    Asks oracle (probeNative key) vm 0
      (if isNative vm.heap key then
        storeTarget? (scanKeys vm.table (oracle.code vm.heap key)
          (oracle.same vm.heap key))
        else none) := by
  unfold probeNative
  rw [asks_get_bind]
  cases native : nativeBytes vm.heap key with
  | none =>
      have custom : isNative vm.heap key = false := by
        simp [isNative, native]
      simp only [custom, Bool.false_eq_true, if_false]
      exact asks_pure vm _
  | some bytes =>
      have isNat : isNative vm.heap key = true := by simp [isNative, native]
      rw [if_pos isNat,
        nativeCode_eq isNat oracle.representative oracle.customCode]
      simp only [nativeEql_eq_same_fun oracle native]
      exact asks_orPanic (probeNativeLoop_eq inRange _ _ _ _) vm

/-! ## The search of a Hash -/

/-- How many calls it takes to look for a key. -/
def findCalls (oracle : KeyOracle ω) (vm : Vm ω) (key : Value) : Nat :=
  if isNative vm.heap key then 0
  else if vm.table.isHt then
    hashCalls vm.heap key +
      oracle.probeCalls vm.heap vm.table key (oracle.code vm.heap key)
        vm.table.mask 0 (vm.table.mask + 1)
  else oracle.walkCalls vm.heap key vm.table.entries

/-- The search of a Hash asks for the entry of the key. -/
theorem hFind_asks
    (searchable : Searchable callbacks oracle keys vm)
    (inRange : vm.table.isHt = true → InRange vm.table)
    (isKey : keys key) :
    Asks oracle (hFind callbacks key) vm (findCalls oracle vm key)
      (foundAt (tableFind oracle vm key)) := by
  unfold hFind findCalls
  rw [← Nat.zero_add (if isNative vm.heap key = true then 0 else _)]
  refine (findNative_asks inRange key).bind fun world => ?_
  by_cases native : isNative vm.heap key = true
  · rw [if_pos native, if_pos native]
    cases tableFind oracle vm key <;> exact asks_pure _ _
  · rw [if_neg native, if_neg native]
    simp only
    rw [asks_get_bind]
    unfold tableFind
    by_cases hasIndex : vm.table.isHt = true
    · rw [if_pos hasIndex, if_pos hasIndex, if_pos hasIndex]
      have hashed := hCode_asks (searchable.setWorld world).consistent
        searchable.slotsLength isKey
      refine hashed.bind fun later => ?_
      rw [asks_get_bind, if_pos hasIndex]
      exact hFindHtLoop_asks (searchable.setWorld later) isKey
    · rw [if_neg hasIndex, if_neg hasIndex, if_neg hasIndex]
      have enough : vm.table.entries.length ≤ 0 + vm.table.len := by
        simp [HashData.len]
      simpa using
        hFindArLoop_asks (searchable.setWorld world) isKey enough

end Searches

end SabiRuby.HashTable
