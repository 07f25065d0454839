import SabiRuby.HashTable.Asking

/-!
# Stores of keys that answer

What a store into a Hash leaves behind when its keys answer as an oracle says.
A store that returns has stored in the association list of the entries.  A store
that raises has left the entries alone, and either the representation holds as
before, or the call that raised was made while the index was being rebuilt and
an entry is in no bucket.
-/

namespace SabiRuby.HashTable

open Library AssociationList
open Exec (satisfies_bind satisfies_get satisfies_get_bind)

/-- A Hash in its representation, with distinct keys that answer as the oracle
says. -/
structure Sound
    (callbacks : Callbacks ω)
    (oracle : KeyOracle ω)
    (keys : Value → Prop)
    (vm : Vm ω) : Prop where
  consistent : Consistent callbacks oracle vm.heap keys
  representation : Representation (oracle.code vm.heap) vm.table
  /-- No key is stored twice. -/
  distinct : Distinct (oracle.content vm.heap) vm.table.entries
  /-- The stored keys answer too. -/
  stored : ∀ entry ∈ vm.table.entries, keys entry.1

/-- The entries and the heap after a store. -/
def storeResult (oracle : KeyOracle ω) (vm : Vm ω) (key value : Value) :
    List Entry × Heap :=
  match lookup (oracle.same vm.heap key) vm.table.entries with
  | some p => (overwrite p value vm.table.entries, vm.heap)
  | none =>
      let (copy, heap) := storedKey vm.heap key
      (vm.table.entries ++ [(copy, value)], heap)

/-- The store was made. -/
structure Stored
    (oracle : KeyOracle ω)
    (before : Vm ω)
    (key value : Value)
    (after : Vm ω) : Prop where
  entries : after.table.entries = (storeResult oracle before key value).1
  heap : after.heap = (storeResult oracle before key value).2
  representation : Representation (oracle.code after.heap) after.table

/-- The entries are as they were and the representation holds. -/
structure Intact
    (oracle : KeyOracle ω) (before after : Vm ω) : Prop where
  grown : GrownBy before.heap after.heap
  entries : after.table.entries = before.table.entries
  representation : Representation (oracle.code after.heap) after.table

/-- The entries are as they were, but an entry is in no bucket of the index. -/
structure Damaged (before after : Vm ω) : Prop where
  grown : GrownBy before.heap after.heap
  entries : after.table.entries = before.table.entries
  hasIndex : after.table.isHt = true
  slotsLength : after.table.slots.length = after.table.entries.length
  ascending : after.table.slots.Pairwise (· < ·)
  inRange : InRange after.table
  /-- An entry is in no bucket. -/
  lost : ∃ p < after.table.entries.length, ∀ bucket : Nat,
    after.table.ib[bucket]? ≠ some (.live p)

section Store

variable {ω : Type} {callbacks : Callbacks ω} {oracle : KeyOracle ω}
variable {vm : Vm ω} {keys : Value → Prop}

theorem Sound.valid
    (sound : Sound callbacks oracle keys vm) :
    ∀ entry ∈ vm.table.entries, ValidKey vm.heap entry.1 :=
  fun entry member => sound.consistent.valid _ (sound.stored entry member)

theorem Sound.setWorld
    (sound : Sound callbacks oracle keys vm) (world : ω) :
    Sound callbacks oracle keys { vm with world := world } :=
  ⟨sound.consistent, sound.representation, sound.distinct, sound.stored⟩

section

variable (sound : Sound callbacks oracle keys vm)
include sound

/-- Another table with the same entries is sound when its representation is. -/
theorem Sound.setTable
    (entries : table.entries = vm.table.entries)
    (representation : Representation (oracle.code vm.heap) table) :
    Sound callbacks oracle keys { vm with table := table } :=
  ⟨sound.consistent, representation, by
    show Distinct _ table.entries
    rw [entries]
    exact sound.distinct, by
    show ∀ entry ∈ table.entries, keys entry.1
    rw [entries]
    exact sound.stored⟩

theorem Sound.searchable :
    Searchable callbacks oracle keys vm :=
  ⟨sound.consistent, sound.representation.slotsLength,
    sound.representation.ascending, sound.valid⟩

theorem Sound.inRange :
    vm.table.isHt = true → InRange vm.table :=
  fun hasIndex => (sound.representation.indexed hasIndex).inRange

/-- What the scan of the index of a sound Hash finds. -/
theorem Sound.scanKeys_eq
    (hasIndex : vm.table.isHt = true)
    (key : Value) :
    match lookup (oracle.same vm.heap key) vm.table.entries with
    | some p => scanKeys vm.table (oracle.code vm.heap key)
        (oracle.same vm.heap key) = .found p
    | none => ∃ b, scanKeys vm.table (oracle.code vm.heap key)
        (oracle.same vm.heap key) = .vacant b ∧
        FirstEmpty (probeAt vm.table.mask) vm.table.ib
          (oracle.code vm.heap key) b := by
  refine scanKeys_spec (sound.representation.indexed hasIndex) ?_
    (sound.distinct.only (oracle.content vm.heap key))
  intro entry _ same
  have equal : oracle.content vm.heap entry.1 =
      oracle.content vm.heap key := of_decide_eq_true same
  simp only [KeyOracle.code, equal]

end

/-- A sound Hash finds a key where its entries hold it. -/
theorem Sound.tableFind_eq
    (sound : Sound callbacks oracle keys vm) (key : Value) :
    tableFind oracle vm key =
      lookup (oracle.same vm.heap key) vm.table.entries := by
  unfold tableFind
  by_cases hasIndex : vm.table.isHt = true
  · rw [if_pos hasIndex]
    have scanned := sound.scanKeys_eq hasIndex key
    cases search : lookup (oracle.same vm.heap key) vm.table.entries with
    | some p =>
        simp only [search] at scanned
        rw [scanned, Scan.position?]
    | none =>
        simp only [search] at scanned
        obtain ⟨b, vacant, _⟩ := scanned
        rw [vacant, Scan.position?]
  · rw [if_neg hasIndex]

theorem Sound.intact (sound : Sound callbacks oracle keys vm) (world : ω) :
    Intact oracle vm { vm with world := world } :=
  ⟨GrownBy.refl _, rfl, sound.representation⟩

/-- The code of an old key in a grown heap. -/
theorem Sound.code_of_extends
    (sound : Sound callbacks oracle keys vm)
    (grown : vm.heap <+: later) :
    ∀ entry ∈ vm.table.entries,
      oracle.code vm.heap entry.1 = oracle.code later entry.1 := by
  intro entry member
  unfold KeyOracle.code KeyOracle.content
  rw [content_of_extends grown (sound.valid entry member)]

/-! ## Writing the entry -/

/-- A new entry goes into the first empty bucket of its probe. -/
theorem htStoreNew_stored
    (sound : Sound callbacks oracle keys vm)
    (ready : Ready (oracle.code vm.heap) vm.table)
    (missing : lookup (oracle.same vm.heap key) vm.table.entries = none)
    (vacant : FirstEmpty (probeAt vm.table.mask) vm.table.ib
      (oracle.code vm.heap key) b)
    (value : Value) :
    Exec.Satisfies (htStoreNew b key value) vm
      (fun _ after => Stored oracle vm key value after) raises := by
  have index := ready.indexed ready.hasIndex
  have widest : 2 ^ vm.table.ibBit ≤ 2 ^ 31 :=
    Nat.pow_le_pow_right (by omega) index.widthHigh
  have below : vm.table.nUsed ≠ EA_MAX_CAPA := by
    have := ready.roomForOne
    unfold EA_MAX_CAPA EA_N_RESERVED_INDICES
    omega
  have grown := storedKey_extends vm.heap key
  have later : Ready (oracle.code (storedKey vm.heap key).2) vm.table :=
    ⟨ready.toRepresentation.congr (sound.code_of_extends grown),
      ready.hasIndex, ready.roomForOne, ready.loadForOne⟩
  have sameCode :
      oracle.code (storedKey vm.heap key).2 (storedKey vm.heap key).1 =
        oracle.code vm.heap key := by
    unfold KeyOracle.code KeyOracle.content
    rw [content_storedKey]
  rw [← sameCode] at vacant
  obtain ⟨representation, entries⟩ :=
    representation_htPush later vacant value
  unfold htStoreNew
  rw [satisfies_get_bind, if_neg below,
    Exec.satisfies_bind_of_ok (hKeyFor_eq key vm)]
  refine ⟨?_, ?_, representation⟩
  · simp only [storeResult, missing]
    exact entries
  · simp only [storeResult, missing]

/-- What a store does with what its probe found. -/
def storeAct (key value : Value) : Scan → Exec VmError (Vm ω) Unit
  | .found p => modifyTable fun h => h.setValueAt p value
  | .vacant b => htStoreNew b key value
  | .exhausted => pure ()

/-- The probe of a store does what the scan of the buckets tells it to. -/
theorem htStoreLoop_satisfies
    (searchable : Searchable callbacks oracle keys vm)
    (isKey : keys key)
    (acting : ∀ world, Exec.Satisfies
      (storeAct key value (scan (probeAt mask) vm.table.ib code
        (fun p => vm.table.entries[p]?.any fun entry =>
          oracle.same vm.heap key entry.1) step left))
      { vm with world := world } returns raises)
    (raising : ∀ error world, oracle.RaisesFrom (oracle.calls vm.world) →
      raises error { vm with world := world }) :
    Exec.Satisfies (htStoreLoop callbacks key value code mask step left) vm
      returns raises := by
  induction left generalizing step vm with
  | zero => exact acting vm.world
  | succ left ih =>
      unfold scan at acting
      unfold htStoreLoop
      rw [satisfies_get_bind]
      simp only [HashData.bucket]
      cases met : vm.table.ib[probeAt mask code step]? with
      | none =>
          simp only [met] at acting
          exact acting vm.world
      | some bucket =>
          cases bucket with
          | empty =>
              simp only [met] at acting
              exact acting vm.world
          | deleted =>
              simp only [met] at acting
              exact ih searchable acting raising
          | live v =>
              simp only [met] at acting
              simp only [Option.getD_some]
              cases held : vm.table.entries[v]? with
              | none =>
                  have nothing : vm.table.keyAt v = none := by
                    simp [HashData.keyAt, held]
                  simp only [held, Option.any_none, Bool.false_eq_true,
                    if_false] at acting
                  unfold hCompare
                  rw [bind_assoc, satisfies_bind, satisfies_get]
                  simp only [nothing]
                  exact ih searchable acting raising
              | some entry =>
                  simp only [held, Option.any_some] at acting
                  refine (hCompare_asks searchable isKey held).satisfies_bind
                    ?_ ?_
                  · intro world counted _
                    by_cases same : oracle.same vm.heap key entry.1 = true
                    · simp only [same, if_true] at acting ⊢
                      exact acting world
                    · simp only [same, Bool.false_eq_true, if_false]
                        at acting ⊢
                      refine @ih { vm with world := world }
                        (step + 1) (searchable.setWorld world) acting ?_
                      intro error later fromHere
                      dsimp only at fromHere
                      exact raising error later (fromHere.mono (by omega))
                  · intro error world within
                    exact raising error world within.raisesFrom

/-- A store after room was made does what the scan of the buckets tells it to. -/
theorem htStore_satisfies
    (searchable : Searchable callbacks oracle keys vm)
    (hasIndex : vm.table.isHt = true)
    (inRange : InRange vm.table)
    (isKey : keys key)
    (acting : ∀ world, Exec.Satisfies
      (storeAct key value (scanKeys vm.table (oracle.code vm.heap key)
        (oracle.same vm.heap key)))
      { vm with world := world } returns raises)
    (raising : ∀ error world, oracle.RaisesFrom (oracle.calls vm.world) →
      raises error { vm with world := world }) :
    Exec.Satisfies (htStore callbacks key value) vm returns raises := by
  have probing : ∀ world, oracle.calls world = oracle.calls vm.world →
      Exec.Satisfies (do
        let code ← hCode callbacks key
        let vm ← get
        if vm.table.isHt then
          let mask := vm.table.mask
          htStoreLoop callbacks key value code mask 0 (mask + 1)
        else pure ()) { vm with world := world } returns raises := by
    intro world counted
    have hashed := hCode_asks (searchable.setWorld world).consistent
      searchable.slotsLength isKey
    refine hashed.satisfies_bind ?_ ?_
    · intro later countedLater _
      dsimp only at countedLater
      rw [satisfies_get_bind, if_pos hasIndex]
      refine htStoreLoop_satisfies (searchable.setWorld later) isKey acting ?_
      intro error last fromHere
      dsimp only at fromHere
      exact raising error last (fromHere.mono (by omega))
    · intro error later within
      exact raising error later (within.raisesFrom.mono (Nat.le_of_eq
        counted.symm))
  unfold htStore
  have probed : Asks oracle (probeNative key) vm 0 _ :=
    probeNative_asks inRange key
  refine probed.satisfies_bind ?_ ?_
  · intro world counted _
    by_cases native : isNative vm.heap key = true
    · rw [if_pos native]
      have act := acting world
      generalize scanKeys vm.table _ _ = scanned at act acting probing ⊢
      cases scanned with
      | found p => exact act
      | vacant b => exact act
      | exhausted => exact probing world counted
    · rw [if_neg native]
      exact probing world counted
  · intro error world within
    exact absurd within (oracle.not_raisesWithin_zero _)

/-- A store into an index with room is made, or raises with the Hash intact. -/
theorem htStore_stored
    (sound : Sound callbacks oracle keys vm)
    (ready : Ready (oracle.code vm.heap) vm.table)
    (isKey : keys key)
    (value : Value) :
    Exec.Satisfies (htStore callbacks key value) vm
      (fun _ after => Stored oracle vm key value after)
      (fun _ after => oracle.RaisesFrom (oracle.calls vm.world) ∧
        Intact oracle vm after) := by
  refine htStore_satisfies sound.searchable ready.hasIndex
    (sound.inRange ready.hasIndex) isKey ?_ ?_
  · intro world
    have scanned := sound.scanKeys_eq ready.hasIndex key
    cases search : lookup (oracle.same vm.heap key) vm.table.entries with
    | some p =>
        simp only [search] at scanned
        rw [scanned]
        refine ⟨?_, ?_, representation_setValueAt sound.representation p value⟩
        · simp only [storeResult, search]
          rfl
        · simp only [storeResult, search]
    | none =>
        simp only [search] at scanned
        obtain ⟨b, vacant, firstEmpty⟩ := scanned
        rw [vacant]
        refine (htStoreNew_stored (sound.setWorld world) ready search firstEmpty
          value).mono ?_ (fun error after raised => raised)
        rintro _ after ⟨entries, heap, representation⟩
        exact ⟨entries, heap, representation⟩
  · intro error world fromHere
    exact ⟨fromHere, sound.intact world⟩

/-! ## Rebuilding the index -/

/-- The part of a rebuild that asks the keys from `p` on: either all are placed,
or the ones before the key that raised. -/
theorem hRebuildLoop_satisfies
    (searchable : Searchable callbacks oracle keys vm)
    (stored : ∀ entry ∈ vm.table.entries, keys entry.1)
    (inside : vm.table.mask < vm.table.ib.length)
    (enough : vm.table.entries.length ≤ p + fuel)
    (returning : ∀ world table,
      oracle.calls world = oracle.calls vm.world +
        rebuildCalls vm.heap (vm.table.entries.drop p) →
      ¬oracle.RaisesWithin (oracle.calls vm.world)
        (rebuildCalls vm.heap (vm.table.entries.drop p)) →
      vm.table.placeAll p ((vm.table.entries.drop p).map fun entry =>
        oracle.code vm.heap entry.1) = some table →
      returns () { vm with table := table, world := world })
    (raising : ∀ error world table count,
      p + count < vm.table.entries.length →
      oracle.RaisesWithin (oracle.calls vm.world)
        (rebuildCalls vm.heap (vm.table.entries.drop p)) →
      vm.table.placeAll p (((vm.table.entries.drop p).map fun entry =>
        oracle.code vm.heap entry.1).take count) = some table →
      raises error { vm with table := table, world := world }) :
    Exec.Satisfies (hRebuildLoop callbacks fuel p) vm returns raises := by
  induction fuel generalizing p vm with
  | zero =>
      have past : vm.table.entries[p]? = none :=
        List.getElem?_eq_none (by omega)
      rw [List.drop_eq_nil_of_le (by omega)] at returning
      unfold hRebuildLoop
      rw [satisfies_get_bind]
      simp only [HashData.keyAt, past, Option.map_none]
      exact returning vm.world vm.table rfl
        (oracle.not_raisesWithin_zero _) rfl
  | succ fuel ih =>
      unfold hRebuildLoop
      rw [satisfies_get_bind]
      rcases Nat.lt_or_ge p vm.table.entries.length with bound | past
      · rw [List.drop_eq_getElem_cons bound] at returning raising
        simp only [HashData.keyAt, List.getElem?_eq_getElem bound,
          Option.map_some]
        simp only [rebuildCalls, List.map_cons] at returning raising
        have member := List.getElem_mem bound
        refine (hCode_asks searchable.consistent searchable.slotsLength
          (stored _ member)).satisfies_bind ?_ ?_
        · intro world counted quiet
          obtain ⟨ib, placed, sameLength, _⟩ := place_inRange inside
            (oracle.code vm.heap vm.table.entries[p].1) p
          rw [satisfies_get_bind, HashData.len,
            if_pos bound, satisfies_bind]
          unfold tryTable
          rw [satisfies_get_bind, satisfies_bind,
            Exec.satisfies_orPanic]
          refine ⟨_, placed, ?_⟩
          rw [Exec.satisfies_set]
          refine @ih
            { vm with table := { vm.table with ib := ib }, world := world }
            (p + 1) ?_ stored ?_ (by dsimp only; omega) ?_ ?_
          · exact ⟨searchable.consistent, searchable.slotsLength,
              searchable.ascending, searchable.valid⟩
          · dsimp only
            rw [sameLength]
            exact inside
          · intro later table countedLater quietLater placedAll
            dsimp only at countedLater quietLater placedAll
            refine returning later table (by omega) ?_ ?_
            · rw [oracle.raisesWithin_add, ← counted]
              exact not_or.mpr ⟨quiet, quietLater⟩
            · simp only [HashData.placeAll, placed]
              exact placedAll
          · intro error later table count countBound within placedAll
            dsimp only at countBound within placedAll
            refine raising error later table (count + 1) (by omega) ?_ ?_
            · rw [oracle.raisesWithin_add, ← counted]
              exact Or.inr within
            · simp only [List.take_succ_cons, HashData.placeAll, placed]
              exact placedAll
        · intro error world within
          refine raising error world vm.table 0 (by omega) ?_ rfl
          rw [oracle.raisesWithin_add]
          exact Or.inl within
      · rw [List.drop_eq_nil_of_le past] at returning
        simp only [HashData.keyAt, List.getElem?_eq_none past,
          Option.map_none]
        exact returning vm.world vm.table rfl
          (oracle.not_raisesWithin_zero _) rfl

/-- The codes of native keys are read without a call. -/
theorem mapM_nativeCode
    (oracle : KeyOracle ω)
    (coded : entries.mapM (fun entry : Entry => nativeCode heap entry.1) =
      some codes) :
    codes = entries.map (fun entry => oracle.code heap entry.1) ∧
      rebuildCalls heap entries = 0 := by
  induction entries generalizing codes with
  | nil =>
      rw [List.mapM_nil] at coded
      cases coded
      exact ⟨rfl, rfl⟩
  | cons entry entries ih =>
      rw [List.mapM_cons] at coded
      cases native : isNative heap entry.1 with
      | false =>
          rw [nativeCode_eq_none native] at coded
          cases coded
      | true =>
          rw [nativeCode_eq native oracle.representative oracle.customCode]
            at coded
          cases rest : entries.mapM fun entry => nativeCode heap entry.1 with
          | none =>
              rw [rest] at coded
              cases coded
          | some later =>
              rw [rest] at coded
              obtain ⟨rfl, silent⟩ := ih rest
              cases coded
              exact ⟨rfl, by
                rw [rebuildCalls, hashCalls_of_isNative native, silent]⟩

/-- A rebuild without Ruby places the codes, if every key is native. -/
theorem hRebuildNative_satisfies
    {succeeds : Bool → Vm ω → Prop}
    (coded : (vm.table.entries.mapM fun entry =>
      nativeCode vm.heap entry.1) = codes) :
    Exec.Satisfies hRebuildNative vm succeeds fails ↔
      Exec.Satisfies (codes.elim (pure false) fun codes => do
          tryTable fun h => h.placeAll 0 codes
          pure true : Exec VmError (Vm ω) Bool) vm succeeds fails := by
  unfold hRebuildNative
  rw [satisfies_get_bind, coded]
  cases codes <;> rfl

/-- A rebuild places the codes of all keys in order, or of the keys before the
one that raised. -/
theorem hRebuild_satisfies
    (searchable : Searchable callbacks oracle keys vm)
    (stored : ∀ entry ∈ vm.table.entries, keys entry.1)
    (returning : ∀ world table,
      oracle.calls world = oracle.calls vm.world +
        rebuildCalls vm.heap vm.table.entries →
      ¬oracle.RaisesWithin (oracle.calls vm.world)
        (rebuildCalls vm.heap vm.table.entries) →
      (rebuildBase vm.table bit).placeAll 0 (vm.table.entries.map fun entry =>
        oracle.code vm.heap entry.1) = some table →
      returns () { vm with table := table, world := world })
    (raising : ∀ error world table count,
      count < vm.table.entries.length →
      oracle.RaisesWithin (oracle.calls vm.world)
        (rebuildCalls vm.heap vm.table.entries) →
      (rebuildBase vm.table bit).placeAll 0 ((vm.table.entries.map
        fun entry => oracle.code vm.heap entry.1).take count) = some table →
      raises error { vm with table := table, world := world }) :
    Exec.Satisfies (hRebuild callbacks bit) vm returns raises := by
  have inside := rebuildBase_inside vm.table bit
  unfold hRebuild modifyTable
  rw [satisfies_bind, Exec.satisfies_modify, satisfies_bind]
  show Exec.Satisfies hRebuildNative
    { vm with table := rebuildBase vm.table bit } _ _
  cases coded : vm.table.entries.mapM fun entry =>
      nativeCode vm.heap entry.1 with
  | none =>
      rw [hRebuildNative_satisfies (by exact coded)]
      simp only [Option.elim_none, Exec.satisfies_pure, Bool.false_eq_true,
        if_false]
      rw [satisfies_get_bind]
      refine hRebuildLoop_satisfies
        ⟨searchable.consistent, searchable.slotsLength, searchable.ascending,
          searchable.valid⟩ stored inside (by simp [HashData.len]) ?_ ?_
      · intro world table
        simpa using returning world table
      · intro error world table count
        simpa using raising error world table count
  | some codes =>
      rw [hRebuildNative_satisfies (by exact coded)]
      obtain ⟨rfl, silent⟩ := mapM_nativeCode oracle coded
      obtain ⟨ib, placed, _⟩ := placeAll_inRange inside 0
        (vm.table.entries.map fun entry => oracle.code vm.heap entry.1)
      unfold tryTable
      simp only [Option.elim_some, satisfies_bind,
        satisfies_get, Exec.satisfies_orPanic, Exec.satisfies_set,
        Exec.satisfies_pure, if_true]
      refine ⟨_, placed, returning vm.world _ ?_ ?_ placed⟩
      · rw [silent, Nat.add_zero]
      · rw [silent]
        exact oracle.not_raisesWithin_zero _

end Store

end SabiRuby.HashTable
