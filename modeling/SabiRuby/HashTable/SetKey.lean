import SabiRuby.HashTable.Store

/-!
# The store into a Hash as a whole

`hSet` makes room, rebuilds the index where it has to and writes the entry.
Below the number of entries that the widest index has room for, a store that
returns has stored.  From there on the index is rebuilt at a width whose shift
wraps, and the new entry is dropped.
-/

namespace SabiRuby.HashTable

open Library AssociationList

/-- The number of entries at which the widest index is full. -/
def indexLimit : Nat := 3 * 2 ^ 29

/-- The rebuild that a store into a Hash without an index makes: the calls made
before it and the width of the index. -/
def arRebuild (oracle : KeyOracle ω) (vm : Vm ω) (key : Value) :
    Option (Nat × Nat) :=
  if (lookup (oracle.same vm.heap key) vm.table.entries).isNone ∧
      vm.table.arMakeRoom.1 = true then
    some (if isNative vm.heap key then 0
      else oracle.walkCalls vm.heap key vm.table.entries, IB_INIT_BIT)
  else none

/-- The rebuild that a store into a Hash with an index makes after making
room. -/
def roomRebuild (oracle : KeyOracle ω) (vm : Vm ω) (key : Value) :
    HashData.HtRoom → Option (Nat × Nat)
  | .fits => none
  | .rebuild bit => some (0, bit)
  | .toAr => arRebuild oracle { vm with table := vm.table.toAr } key

/-- The rebuild that a store makes. -/
def setRebuild (oracle : KeyOracle ω) (vm : Vm ω) (key : Value) :
    Option (Nat × Nat) :=
  if vm.table.isHt then roomRebuild oracle vm key vm.table.htMakeRoom.1
  else arRebuild oracle vm key

/-- The call that raises is one the rebuild makes, or comes after a rebuild at a
width whose shift wraps. -/
def RaisesInRebuild (oracle : KeyOracle ω) (vm : Vm ω)
    (rebuild : Option (Nat × Nat)) : Prop :=
  ∃ before bit, rebuild = some (before, bit) ∧
    (oracle.RaisesWithin (oracle.calls vm.world + before)
        (rebuildCalls vm.heap vm.table.entries) ∨
      31 < bit ∧ oracle.RaisesFrom (oracle.calls vm.world + before))

/-- What a store that raised has left. -/
def SetRaised (oracle : KeyOracle ω) (before : Vm ω)
    (rebuild : Option (Nat × Nat)) (after : Vm ω) : Prop :=
  oracle.raiseAt ≠ none ∧
    ((RaisesInRebuild oracle before rebuild ∧ Damaged before after) ∨
      (¬RaisesInRebuild oracle before rebuild ∧ Intact oracle before after))

/-- The table has as many entries as before, and the second one is in no
bucket. -/
structure Dropped (before after : Vm ω) : Prop where
  length : after.table.entries.length = before.table.entries.length
  hasIndex : after.table.isHt = true
  lost : ∀ bucket : Nat, after.table.ib[bucket]? ≠ some (.live 1)

section SetKey

variable {ω : Type} {callbacks : Callbacks ω} {oracle : KeyOracle ω}
variable {vm : Vm ω} {keys : Value → Prop}

theorem KeyOracle.not_raisesWithin_of_raisesWithin
    (within : oracle.RaisesWithin start count) :
    ¬oracle.RaisesFrom (start + count) := by
  rintro ⟨call, raises, late⟩
  obtain ⟨other, otherRaises, _, early⟩ := within
  rw [raises] at otherRaises
  cases otherRaises
  omega

/-- A rebuild that stopped before the last entry has lost an entry. -/
theorem damaged_of_partial
    (grown : GrownBy before.heap vm.heap)
    (entries : base.entries = before.table.entries)
    (slotsLength : base.slots.length = base.entries.length)
    (ascending : base.slots.Pairwise (· < ·))
    (width : bit ≠ 0)
    (codes : List Nat)
    (bound : count < base.entries.length)
    (placed : (rebuildBase base bit).placeAll 0 (codes.take count) =
      some table)
    (world : ω) :
    Damaged before { vm with table := table, world := world } := by
  have inside := rebuildBase_inside base bit
  obtain ⟨ib, placedAll, sameLength, live⟩ :=
    placeAll_inRange inside 0 (codes.take count)
  rw [placedAll] at placed
  cases placed
  have held : ∀ b q : Nat, ib[b]? = some (.live q) → q < count := by
    intro b q there
    rcases live b q there with empty | early
    · rw [rebuildBase_ib, List.getElem?_replicate] at empty
      split at empty <;> simp at empty
    · have := List.length_take_le count codes
      omega
  refine ⟨grown, entries, (isHt_iff _).mpr width, slotsLength, ascending,
    ⟨?_, ?_⟩, count, bound, ?_⟩
  · show (rebuildBase base bit).mask < ib.length
    rw [sameLength]
    exact inside
  · intro b q there
    exact Nat.lt_trans (held b q there) bound
  · intro b there
    exact absurd (held b count there) (Nat.lt_irrefl _)

/-! ## A rebuild and the store after it -/

/-- A Hash without holes whose index is about to be rebuilt. -/
structure Rebuildable
    (callbacks : Callbacks ω)
    (oracle : KeyOracle ω)
    (keys : Value → Prop)
    (vm : Vm ω) : Prop where
  consistent : Consistent callbacks oracle vm.heap keys
  storage : Storage vm.table
  /-- Every slot is used by an entry. -/
  noHole : vm.table.nUsed = vm.table.entries.length
  distinct : Distinct (oracle.content vm.heap) vm.table.entries
  stored : ∀ entry ∈ vm.table.entries, keys entry.1

theorem Rebuildable.searchable
    (rebuildable : Rebuildable callbacks oracle keys vm) :
    Searchable callbacks oracle keys vm :=
  ⟨rebuildable.consistent, rebuildable.storage.slotsLength,
    rebuildable.storage.ascending, fun entry member =>
      rebuildable.consistent.valid _ (rebuildable.stored entry member)⟩

/-- A store is judged by the entries and the heap it started from. -/
theorem Stored.of_same
    (done : Stored oracle before key value after)
    (entries : before.table.entries = earlier.table.entries)
    (heap : before.heap = earlier.heap) :
    Stored oracle earlier key value after := by
  have same : storeResult oracle before key value =
      storeResult oracle earlier key value := by
    unfold storeResult
    rw [entries, heap]
  exact ⟨same ▸ done.entries, same ▸ done.heap, done.representation⟩

theorem Intact.of_grown
    (intact : Intact oracle before after)
    (entries : before.table.entries = earlier.table.entries)
    (grown : GrownBy earlier.heap before.heap) :
    Intact oracle earlier after :=
  ⟨grown.trans intact.grown, intact.entries.trans entries,
    intact.representation⟩

theorem Damaged.of_grown
    (damaged : Damaged before after)
    (entries : before.table.entries = earlier.table.entries)
    (grown : GrownBy earlier.heap before.heap) :
    Damaged earlier after :=
  ⟨grown.trans damaged.grown, damaged.entries.trans entries,
    damaged.hasIndex, damaged.slotsLength, damaged.ascending, damaged.inRange,
    damaged.lost⟩

/-- After a rebuild at a sufficient width the store is made, or it raises with
the Hash intact; a rebuild that raises has lost an entry. -/
theorem hRebuild_store
    {store : Exec VmError (Vm ω) Unit}
    (rebuildable : Rebuildable callbacks oracle keys vm)
    (widthLow : 5 ≤ bit)
    (widthHigh : bit ≤ 31)
    (load : 4 * (vm.table.entries.length + 1) ≤ 3 * 2 ^ bit)
    (isKey : keys key)
    (value : Value)
    (storing : ∀ ready : Vm ω,
      Ready (oracle.code vm.heap) ready.table →
      ready.table.nUsed = ready.table.entries.length →
      store ready = htStore callbacks key value ready) :
    Exec.Satisfies (do hRebuild callbacks bit; store) vm
      (fun _ after => Stored oracle vm key value after)
      (fun _ after =>
        (oracle.RaisesWithin (oracle.calls vm.world)
          (rebuildCalls vm.heap vm.table.entries) ∧ Damaged vm after) ∨
        (oracle.RaisesFrom (oracle.calls vm.world +
          rebuildCalls vm.heap vm.table.entries) ∧
            Intact oracle vm after)) := by
  have searchable := rebuildable.searchable
  rw [Exec.satisfies_bind]
  refine hRebuild_satisfies searchable rebuildable.stored ?_ ?_
  · intro world table counted _ placed
    obtain ⟨rebuilt, placedAll, entries, used, ready⟩ :=
      @rebuilt_spec bit (oracle.code vm.heap) vm.table rebuildable.storage
        rebuildable.noHole widthLow widthHigh load
    rw [placed] at placedAll
    cases placedAll
    have sound : Sound callbacks oracle keys
        { vm with table := table, world := world } :=
      ⟨rebuildable.consistent, ready.toRepresentation, by
        show Distinct _ table.entries
        rw [entries]
        exact rebuildable.distinct, by
        show ∀ entry ∈ table.entries, keys entry.1
        rw [entries]
        exact rebuildable.stored⟩
    have stores := htStore_stored sound ready isKey value
    unfold Exec.Satisfies at stores ⊢
    rw [storing _ ready (used.trans (congrArg _ entries.symm))]
    refine Exec.Satisfies.mono stores ?_ ?_
    · intro _ after done
      exact done.of_same entries rfl
    · rintro _ after ⟨fromHere, intact⟩
      dsimp only at fromHere
      rw [counted] at fromHere
      exact Or.inr ⟨fromHere, intact.of_grown entries (GrownBy.refl _)⟩
  · intro error world table count bound within placed
    refine Or.inl ⟨within, damaged_of_partial (GrownBy.refl _) rfl
      searchable.slotsLength searchable.ascending ?_ _ bound placed world⟩
    omega

/-- Into a fresh index without holes a store goes right away. -/
theorem htSetFuel_of_ready
    (ready : Ready code vm.table)
    (noHole : vm.table.nUsed = vm.table.entries.length)
    (fuel : Nat)
    (key value : Value) :
    htSetFuel callbacks (fuel + 1) key value vm =
      htStore callbacks key value vm := by
  have index := ready.indexed ready.hasIndex
  have quarter := ibUpperBoundFor_of_le
    (show 2 ≤ vm.table.ibBit by have := index.widthLow; omega)
  have load := ready.loadForOne
  have length := ready.toStorage.u32_length
  have fits : vm.table.htMakeRoom = (.fits, vm.table) := by
    unfold HashData.htMakeRoom
    simp only [length, shiftOne_of_lt (show vm.table.ibBit < 32 by
      have := index.widthHigh; omega)]
    rw [if_neg (by omega), if_neg (by omega)]
  unfold htSetFuel
  simp only [bind, EStateM.bind, Exec.get_apply, fits, set, MonadStateOf.set,
    EStateM.set]

/-! ## A store into a Hash without an index -/

/-- The copy under which a new entry is stored answers too. -/
theorem Sound.storedKey_consistent
    (sound : Sound callbacks oracle keys vm) (isKey : keys key) :
    Consistent callbacks oracle (storedKey vm.heap key).2
      (fun other => keys other ∨ other = (storedKey vm.heap key).1) := by
  refine sound.consistent.grow (grownBy_storedKey vm.heap key) ?_
  rintro other (old | rfl)
  · exact Or.inl old
  · rcases storedKey_cases vm.heap key with same | native
    · rw [same]
      exact Or.inl isKey
    · exact Or.inr ⟨native,
        validKey_storedKey (sound.consistent.valid key isKey)⟩

/-- The stored keys are distinct in a grown heap too. -/
theorem Sound.distinct_of_extends
    (sound : Sound callbacks oracle keys vm)
    (grown : vm.heap <+: later) :
    Distinct (oracle.content later) vm.table.entries := by
  have same : vm.table.entries.map (fun entry =>
      oracle.content later entry.1) =
      vm.table.entries.map fun entry => oracle.content vm.heap entry.1 := by
    refine List.map_congr_left ?_
    intro entry member
    exact content_of_extends grown (sound.valid entry member)
  unfold Distinct
  rw [same]
  exact sound.distinct

/-- Looking for the copy in the grown heap is looking for the key. -/
theorem Sound.lookup_storedKey
    (sound : Sound callbacks oracle keys vm) (key : Value) :
    lookup (oracle.same (storedKey vm.heap key).2 (storedKey vm.heap key).1)
        vm.table.entries =
      lookup (oracle.same vm.heap key) vm.table.entries := by
  refine lookup_congr ?_
  intro entry member
  have stored : oracle.content (storedKey vm.heap key).2 entry.1 =
      oracle.content vm.heap entry.1 :=
    content_of_extends (storedKey_extends vm.heap key)
      (sound.valid entry member)
  have asked : oracle.content (storedKey vm.heap key).2
      (storedKey vm.heap key).1 = oracle.content vm.heap key :=
    content_storedKey vm.heap key
  rw [KeyOracle.same, KeyOracle.same, stored, asked]

/-- A store into a Hash without an index. -/
theorem hSetWith_ar
    (sound : Sound callbacks oracle keys vm)
    (noIndex : vm.table.isHt = false)
    (isKey : keys key)
    (value : Value)
    (fuel : Nat) :
    Exec.Satisfies
      (hSetWith callbacks (htSetFuel callbacks (fuel + 1)) key value) vm
      (fun _ after => Stored oracle vm key value after)
      (fun _ after => SetRaised oracle vm (arRebuild oracle vm key) after) := by
  have callsBefore : findCalls oracle vm key =
      if isNative vm.heap key then 0
        else oracle.walkCalls vm.heap key vm.table.entries := by
    unfold findCalls
    simp only [noIndex, Bool.false_eq_true, if_false]
  unfold hSetWith
  rw [Exec.satisfies_bind, Exec.satisfies_get]
  simp only [noIndex, Bool.false_eq_true, if_false]
  refine (hFind_asks sound.searchable sound.inRange isKey).satisfies_bind
    ?_ ?_
  · intro world counted quiet
    rw [sound.tableFind_eq]
    cases search : lookup (oracle.same vm.heap key) vm.table.entries with
    | some p =>
        refine ⟨?_, ?_, representation_setValueAt sound.representation p value⟩
        · simp only [storeResult, search]
          rfl
        · simp only [storeResult, search]
    | none =>
        have grown := storedKey_extends vm.heap key
        have copied := grownBy_storedKey vm.heap key
        have result : storeResult oracle vm key value =
            (vm.table.entries ++ [((storedKey vm.heap key).1, value)],
              (storedKey vm.heap key).2) := by
          simp only [storeResult, search]
        have later : Representation (oracle.code (storedKey vm.heap key).2)
            vm.table :=
          sound.representation.congr (sound.code_of_extends grown)
        simp only [foundAt]
        rw [Exec.satisfies_bind_of_ok (hKeyFor_eq key _), Exec.satisfies_bind,
          Exec.satisfies_get]
        simp only
        rcases made : vm.table.arMakeRoom with ⟨toHt, table⟩
        obtain ⟨entries, width, representation, full, free⟩ :=
          arMakeRoom_spec later noIndex made
        rw [Exec.satisfies_bind, Exec.satisfies_set]
        cases toHt with
        | false =>
            simp only [Bool.false_eq_true, if_false]
            have pushed := representation_arPush representation
              ((not_isHt_iff table).mpr width) (free rfl)
              (storedKey vm.heap key).1 value
            refine ⟨?_, ?_, pushed⟩
            · rw [result]
              simp only [HashData.arPush, entries]
            · rw [result]
        | true =>
            obtain ⟨rfl, sixteen, used⟩ := full rfl
            have rebuild : arRebuild oracle vm key =
                some (findCalls oracle vm key, IB_INIT_BIT) := by
              rw [callsBefore]
              simp [arRebuild, search, made]
            have rebuildable : Rebuildable callbacks oracle
                (fun other => keys other ∨ other = (storedKey vm.heap key).1)
                { vm with heap := (storedKey vm.heap key).2, world := world } :=
              ⟨sound.storedKey_consistent isKey, later.toStorage,
                used.trans sixteen.symm, sound.distinct_of_extends grown,
                fun entry member => Or.inl (sound.stored entry member)⟩
            have sameResult : storeResult oracle
                { vm with heap := (storedKey vm.heap key).2, world := world }
                (storedKey vm.heap key).1 value =
                storeResult oracle vm key value := by
              have missing := sound.lookup_storedKey key
              rw [search] at missing
              rw [result]
              simp only [storeResult, missing, storedKey_storedKey]
            have asked := rebuildCalls_of_extends grown sound.valid
            refine Exec.Satisfies.mono (hRebuild_store rebuildable
              (Nat.le_refl _) (by decide) ?_ (Or.inr rfl) value
              fun ready isReady noHole =>
                htSetFuel_of_ready isReady noHole fuel _ _) ?_ ?_
            · show 4 * (vm.table.entries.length + 1) ≤ 3 * 2 ^ 5
              rw [sixteen]
              decide
            · intro _ after done
              exact ⟨sameResult ▸ done.entries, sameResult ▸ done.heap,
                done.representation⟩
            · intro _ after raised
              dsimp only at raised
              rw [counted, asked] at raised
              rcases raised with ⟨within, damaged⟩ | ⟨fromHere, intact⟩
              · exact ⟨within.raises, Or.inl ⟨⟨_, _, rebuild, Or.inl within⟩,
                  damaged.of_grown rfl copied⟩⟩
              · refine ⟨fromHere.raises, Or.inr ⟨?_,
                  intact.of_grown rfl copied⟩⟩
                rintro ⟨before, bit, same, within | ⟨wide, _⟩⟩
                · rw [rebuild] at same
                  cases same
                  exact KeyOracle.not_raisesWithin_of_raisesWithin within
                    fromHere
                · rw [rebuild] at same
                  cases same
                  exact absurd wide (by decide)
  · intro error world within
    refine ⟨within.raises, Or.inr ⟨?_, sound.intact world⟩⟩
    rintro ⟨before, bit, same, later | ⟨wide, _⟩⟩
    · unfold arRebuild at same
      split at same
      · cases same
        rw [callsBefore] at within
        exact KeyOracle.not_raisesWithin_of_raisesWithin within later.raisesFrom
      · cases same
    · unfold arRebuild at same
      split at same
      · cases same
        exact absurd wide (by decide)
      · cases same

/-! ## A store into a Hash with an index -/

/-- After a rebuild at a width whose shift wraps, a store appends nothing and
the second entry is in no bucket. -/
theorem hRebuild_wide
    (rebuildable : Rebuildable callbacks oracle keys vm)
    (width : bit ≠ 0)
    (wide : shiftOne bit = 1)
    (several : 2 ≤ vm.table.entries.length)
    (isKey : keys key)
    (value : Value) :
    Exec.Satisfies (do hRebuild callbacks bit; htStore callbacks key value) vm
      (fun _ after => Dropped vm after)
      (fun _ after => oracle.RaisesFrom (oracle.calls vm.world) ∧
        Damaged vm after) := by
  have searchable := rebuildable.searchable
  rw [Exec.satisfies_bind]
  refine hRebuild_satisfies searchable rebuildable.stored ?_ ?_
  · intro world table counted _ placed
    obtain ⟨first, others, list⟩ : ∃ first others,
        vm.table.entries = first :: others := by
      cases entries : vm.table.entries with
      | nil => simp [entries] at several
      | cons first others => exact ⟨first, others, rfl⟩
    rw [list, List.map_cons, placeAll_wide vm.table wide] at placed
    cases placed
    have inside : 0 < (rebuildBase vm.table bit).ib.length :=
      Nat.zero_lt_of_lt (rebuildBase_inside vm.table bit)
    have live : ∀ b q : Nat,
        ((rebuildBase vm.table bit).ib.set 0 (.live 0))[b]? =
          some (.live q) → q = 0 := by
      intro b q held
      rw [List.getElem?_set] at held
      split at held
      · have : 0 = q := by simpa [inside] using held
        exact this.symm
      · rw [rebuildBase_ib, List.getElem?_replicate] at held
        split at held <;> simp at held
    have lost : ∀ b : Nat,
        ((rebuildBase vm.table bit).ib.set 0 (.live 0))[b]? ≠
          some (.live 1) := by
      intro b held
      have := live b 1 held
      omega
    have mask : (rebuildBase vm.table bit).mask = 0 := by
      rw [rebuildBase_mask, wide]
    have inRange : InRange { rebuildBase vm.table bit with
        ib := (rebuildBase vm.table bit).ib.set 0 (.live 0) } := by
      constructor
      · show (rebuildBase vm.table bit).mask <
          ((rebuildBase vm.table bit).ib.set 0 (.live 0)).length
        rw [mask, List.length_set]
        exact inside
      · intro b q held
        rw [live b q held]
        exact Nat.lt_of_lt_of_le (by omega) several
    have hasIndex : HashData.isHt { rebuildBase vm.table bit with
        ib := (rebuildBase vm.table bit).ib.set 0 (.live 0) } = true :=
      (isHt_iff _).mpr width
    refine htStore_satisfies
      ⟨searchable.consistent, searchable.slotsLength, searchable.ascending,
        searchable.valid⟩ hasIndex inRange isKey ?_ ?_
    · intro later
      have step : ∀ code, probeAt (rebuildBase vm.table bit).mask code 0 = 0 :=
        fun code => by
          have := probeAt_le (rebuildBase vm.table bit).mask code 0
          omega
      have there : ((rebuildBase vm.table bit).ib.set 0 (.live 0))[0]? =
          some (.live 0) := List.getElem?_set_self inside
      have scanned : ∀ code (same : Value → Bool),
          scanKeys { rebuildBase vm.table bit with
            ib := (rebuildBase vm.table bit).ib.set 0 (.live 0) } code same =
              .found 0 ∨
          scanKeys { rebuildBase vm.table bit with
            ib := (rebuildBase vm.table bit).ib.set 0 (.live 0) } code same =
              .exhausted := by
        intro code same
        unfold scanKeys
        show scan (probeAt (rebuildBase vm.table bit).mask) _ _ _ 0
            ((rebuildBase vm.table bit).mask + 1) = _ ∨
          scan (probeAt (rebuildBase vm.table bit).mask) _ _ _ 0
            ((rebuildBase vm.table bit).mask + 1) = _
        rw [mask] at step ⊢
        unfold scan
        rw [step, there]
        simp only
        split
        · exact Or.inl rfl
        · exact Or.inr rfl
      rcases scanned (oracle.code vm.heap key) (oracle.same vm.heap key) with
        found | exhausted
      · rw [found]
        exact ⟨by simp [HashData.setValueAt], hasIndex, lost⟩
      · rw [exhausted]
        exact ⟨rfl, hasIndex, lost⟩
    · intro error later fromHere
      dsimp only at fromHere
      exact ⟨fromHere.mono (by omega), GrownBy.refl _, rfl, hasIndex,
        searchable.slotsLength, searchable.ascending, inRange, 1, several,
        lost⟩
  · intro error world table count bound within placed
    exact ⟨within.raisesFrom, damaged_of_partial (GrownBy.refl _) rfl
      searchable.slotsLength searchable.ascending width _ bound placed world⟩

/-- What a store that returned has left. -/
def SetReturned (oracle : KeyOracle ω) (before : Vm ω) (key value : Value)
    (after : Vm ω) : Prop :=
  if before.table.entries.length < indexLimit then
    Stored oracle before key value after
  else Dropped before after

/-- A store into a Hash with an index. -/
theorem htSet_outcome
    (sound : Sound callbacks oracle keys vm)
    (hasIndex : vm.table.isHt = true)
    (isKey : keys key)
    (value : Value) :
    Exec.Satisfies (htSet callbacks key value) vm
      (fun _ after => SetReturned oracle vm key value after)
      (fun _ after => SetRaised oracle vm (setRebuild oracle vm key)
        after) := by
  have rep := sound.representation
  have index := rep.indexed hasIndex
  unfold htSet htSetFuel
  rw [Exec.satisfies_bind, Exec.satisfies_get]
  simp only
  rcases made : vm.table.htMakeRoom with ⟨room, table⟩
  obtain ⟨entries, storage, rest⟩ := htMakeRoom_spec rep hasIndex made
  have rebuild : setRebuild oracle vm key = roomRebuild oracle vm key room := by
    unfold setRebuild
    rw [if_pos hasIndex, made]
  rw [Exec.satisfies_bind, Exec.satisfies_set]
  cases room with
  | fits =>
      obtain ⟨rfl, ready⟩ := rest
      have few : vm.table.entries.length < indexLimit := by
        have load := ready.loadForOne
        have widest : 2 ^ vm.table.ibBit ≤ 2 ^ 31 :=
          Nat.pow_le_pow_right (by omega) index.widthHigh
        unfold indexLimit
        omega
      refine (htStore_stored sound ready isKey value).mono ?_ ?_
      · intro _ after done
        unfold SetReturned
        rw [if_pos few]
        exact done
      · rintro _ after ⟨fromHere, intact⟩
        refine ⟨fromHere.raises, Or.inr ⟨?_, intact⟩⟩
        rintro ⟨before, bit, same, _⟩
        rw [rebuild] at same
        cases same
  | rebuild bit =>
      obtain ⟨noHole, load, widthLow, width⟩ := rest
      have rebuildable : Rebuildable callbacks oracle keys
          { vm with table := table } :=
        ⟨sound.consistent, storage, by rw [noHole, entries], by
          show Distinct _ table.entries
          rw [entries]
          exact sound.distinct, by
          show ∀ entry ∈ table.entries, keys entry.1
          rw [entries]
          exact sound.stored⟩
      have asked : rebuildCalls vm.heap table.entries =
          rebuildCalls vm.heap vm.table.entries := by rw [entries]
      rcases Nat.lt_or_ge 31 bit with wide | narrow
      · have top : vm.table.ibBit = 31 ∧ bit = 32 := by
          have := index.widthHigh
          omega
        have many : indexLimit ≤ vm.table.entries.length := by
          have := width.resolve_left (by omega)
          rw [top.1] at this
          unfold indexLimit
          omega
        obtain ⟨_, rfl⟩ := top
        have several : 2 ≤ table.entries.length := by
          rw [entries]
          unfold indexLimit at many
          omega
        refine (hRebuild_wide rebuildable (by decide) (by decide) several isKey
          value).mono ?_ ?_
        · rintro _ after ⟨length, indexed, lost⟩
          unfold SetReturned
          rw [if_neg (Nat.not_lt.mpr many)]
          exact ⟨length.trans (congrArg List.length entries), indexed, lost⟩
        · rintro _ after ⟨fromHere, damaged⟩
          exact ⟨fromHere.raises, Or.inl
            ⟨⟨0, 32, rebuild, Or.inr ⟨by decide, fromHere⟩⟩,
              damaged.of_grown entries (GrownBy.refl _)⟩⟩
      · have few : vm.table.entries.length < indexLimit := by
          have widest : 2 ^ bit ≤ 2 ^ 31 :=
            Nat.pow_le_pow_right (by omega) narrow
          unfold indexLimit
          omega
        refine (hRebuild_store rebuildable widthLow narrow
          (by rw [entries]; exact load) isKey value fun _ _ _ => rfl).mono ?_ ?_
        · intro _ after done
          unfold SetReturned
          rw [if_pos few]
          exact done.of_same entries rfl
        · intro _ after raised
          dsimp only at raised
          rw [asked] at raised
          rcases raised with ⟨within, damaged⟩ | ⟨fromHere, intact⟩
          · exact ⟨within.raises, Or.inl ⟨⟨0, bit, rebuild, Or.inl within⟩,
              damaged.of_grown entries (GrownBy.refl _)⟩⟩
          · refine ⟨fromHere.raises, Or.inr ⟨?_,
              intact.of_grown entries (GrownBy.refl _)⟩⟩
            rintro ⟨before, other, same, within | ⟨wide, _⟩⟩
            · rw [rebuild] at same
              cases same
              exact KeyOracle.not_raisesWithin_of_raisesWithin within fromHere
            · rw [rebuild] at same
              cases same
              omega
  | toAr =>
      obtain ⟨rfl, small⟩ := rest
      have few : vm.table.entries.length < indexLimit := by
        unfold AR_MAX_SIZE at small
        unfold indexLimit
        omega
      have without : Sound callbacks oracle keys
          { vm with table := vm.table.toAr } :=
        sound.setTable rfl (representation_toAr storage small)
      unfold modifyTable
      rw [Exec.satisfies_bind, Exec.satisfies_modify]
      refine (hSetWith_ar without rfl isKey value 0).mono ?_ ?_
      · intro _ after done
        unfold SetReturned
        rw [if_pos few]
        exact done.of_same rfl rfl
      · intro _ after raised
        rw [rebuild]
        obtain ⟨raises, ⟨inRebuild, damaged⟩ | ⟨elsewhere, intact⟩⟩ := raised
        · exact ⟨raises, Or.inl ⟨inRebuild,
            damaged.of_grown rfl (GrownBy.refl _)⟩⟩
        · exact ⟨raises, Or.inr ⟨elsewhere,
            intact.of_grown rfl (GrownBy.refl _)⟩⟩

/-- A Hash without an index is far from the limit of one with an index. -/
theorem Representation.length_lt_indexLimit
    (rep : Representation code h)
    (noIndex : HashData.isHt h = false) :
    h.entries.length < indexLimit := by
  have entries := rep.toStorage.length_le_nUsed
  have used := rep.usedBound
  have capa := (rep.small noIndex).2
  unfold AR_MAX_SIZE at capa
  unfold indexLimit
  omega

/-- A store into a Hash. -/
theorem hSet_outcome
    (sound : Sound callbacks oracle keys vm)
    (isKey : keys key)
    (value : Value) :
    Exec.Satisfies (hSet callbacks key value) vm
      (fun _ after => SetReturned oracle vm key value after)
      (fun _ after => SetRaised oracle vm (setRebuild oracle vm key)
        after) := by
  cases hasIndex : vm.table.isHt with
  | true =>
      unfold hSet hSetWith
      rw [Exec.satisfies_bind, Exec.satisfies_get]
      simp only [hasIndex, if_true]
      exact htSet_outcome sound hasIndex isKey value
  | false =>
      have few := sound.representation.length_lt_indexLimit hasIndex
      have rebuild : setRebuild oracle vm key = arRebuild oracle vm key := by
        unfold setRebuild
        simp only [hasIndex, Bool.false_eq_true, if_false]
      rw [rebuild]
      refine (hSetWith_ar sound hasIndex isKey value 1).mono ?_
        (fun _ _ raised => raised)
      intro _ after done
      unfold SetReturned
      rw [if_pos few]
      exact done

end SetKey

end SabiRuby.HashTable
