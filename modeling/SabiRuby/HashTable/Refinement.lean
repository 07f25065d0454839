import SabiRuby.HashTable.Program

/-!
# The machine refines the plain one

One operation leads matching machines to matching machines, with the same
answer, as long as a store meets fewer entries than the widest index has room
for.  A run of such operations does so by induction.
-/

namespace SabiRuby.HashTable

open Library AssociationList

/-- The machines have the same heap and the same entries, and every table is in
its representation. -/
structure Matches (machine : Machine ω) (plain : PlainMachine) : Prop where
  heap : machine.heap = plain.heap
  entries : machine.tables.map (·.entries) = plain.tables
  native : ∀ table ∈ machine.tables, NativeTable machine.heap table

/-! ## Tables under another heap -/

/-- A table stays native when the objects of its keys stay. -/
theorem NativeTable.of_agree
    (table : NativeTable heap h)
    (agree : ∀ entry ∈ h.entries, ∀ object, entry.1 = .obj object →
      later[object.index]? = heap[object.index]?) :
    NativeTable later h := by
  have kept : ∀ entry ∈ h.entries, HeldKey later entry.1 ∧
      (nativeOracle Unit).content later entry.1 =
        (nativeOracle Unit).content heap entry.1 :=
    fun entry member => HeldKey.of_agree
      ⟨table.native entry member, table.frozen entry member⟩
      (agree entry member) _
  have sameContents : h.entries.map (fun entry =>
      (nativeOracle Unit).content later entry.1) =
      h.entries.map fun entry => (nativeOracle Unit).content heap entry.1 :=
    List.map_congr_left fun entry member => (kept entry member).2
  refine ⟨table.representation.congr ?_, ?_, fun entry member =>
    (kept entry member).1.native, fun entry member =>
    (kept entry member).1.frozen⟩
  · intro entry member
    simp only [KeyOracle.code, (kept entry member).2]
  · unfold Distinct
    rw [sameContents]
    exact table.distinct

theorem NativeTable.of_extends
    (table : NativeTable heap h)
    (grown : heap <+: later) : NativeTable later h := by
  refine table.of_agree ?_
  intro entry member object key
  have valid := validKey_of_isNative (table.native entry member)
  rw [key] at valid
  exact getElem?_of_extends grown valid

/-! ## One operation -/

section Step

variable {ω : Type} {callbacks : Callbacks ω}
variable {machine : Machine ω} {plain : PlainMachine}

/-- An operation on one table keeps the machines matching. -/
theorem on_matches
    {command : Exec VmError (Vm ω) α}
    (matching : Matches machine plain)
    (bound : table < plain.tables.length)
    (spec : ∀ h, machine.tables[table]? = some h →
      NativeTable machine.heap h →
      ∃ value vm, command ⟨h, machine.heap, machine.world⟩ = .ok value vm ∧
        machine.heap <+: vm.heap ∧ NativeTable vm.heap vm.table ∧
        change h.entries = (answer value, vm.table.entries, vm.heap)) :
    ∃ given after plainAfter,
      machine.on table command answer = some (given, after) ∧
      plain.on table change = some (given, plainAfter) ∧
      Matches after plainAfter := by
  have sameLength : machine.tables.length = plain.tables.length := by
    rw [← matching.entries, List.length_map]
  obtain ⟨h, held⟩ : ∃ h, machine.tables[table]? = some h :=
    ⟨_, List.getElem?_eq_getElem (by omega)⟩
  have plainHeld : plain.tables[table]? = some h.entries := by
    rw [← matching.entries, List.getElem?_map, held, Option.map_some]
  obtain ⟨value, vm, ran, grown, native, changed⟩ :=
    spec h held (matching.native h (List.mem_of_getElem? held))
  refine ⟨answer value,
    { tables := machine.tables.set table vm.table, heap := vm.heap,
      world := vm.world },
    { tables := plain.tables.set table vm.table.entries, heap := vm.heap },
    ?_, ?_, ?_⟩
  · simp only [Machine.on, held, ran]
  · simp only [PlainMachine.on, plainHeld, changed]
  · refine ⟨rfl, ?_, ?_⟩
    · rw [List.map_set, matching.entries]
    · intro other member
      rcases List.mem_or_eq_of_mem_set member with old | rfl
      · exact (matching.native other old).of_extends grown
      · exact native

/-- Nothing raises where native keys are asked. -/
theorem native_raises_nothing
    (raises : (nativeOracle ω).raiseAt ≠ none) : False :=
  raises rfl

variable {h : HashData}

section

variable (table : NativeTable heap h)
include table

/-- A store into a native table that has room stores in its list. -/
theorem NativeTable.hSet
    (native : isNative heap key = true)
    (roomy : h.entries.length < indexLimit)
    (value : Value)
    (world : ω) :
    ∃ vm, hSet callbacks key value ⟨h, heap, world⟩ = .ok () vm ∧
      heap <+: vm.heap ∧ NativeTable vm.heap vm.table ∧
      PlainMachine.store ⟨[], heap⟩ key value h.entries =
        (vm.table.entries, vm.heap) := by
  have sound := table.sound callbacks world
  obtain ⟨_, vm, ran, returned⟩ :=
    (hSet_outcome sound native value).exists_ok
      fun _ _ raised => native_raises_nothing raised.1
  unfold SetReturned at returned
  rw [if_pos roomy] at returned
  obtain ⟨entries, grownHeap, representation⟩ := returned
  have plainStore : PlainMachine.store ⟨[], heap⟩ key value h.entries =
      storeResult (nativeOracle ω) ⟨h, heap, world⟩ key value := by
    cases search : lookup ((nativeOracle ω).same heap key) h.entries <;>
      simp only [PlainMachine.store, storeResult, plainSame_eq ω native, search]
  have grown : heap <+: vm.heap := by
    rw [grownHeap]
    unfold storeResult
    split
    · exact List.prefix_refl _
    · exact storedKey_extends heap key
  refine ⟨vm, ran, grown, ?_, by rw [plainStore, entries, grownHeap]⟩
  have later := table.of_extends grown
  cases search : lookup ((nativeOracle ω).same heap key) h.entries with
  | some p =>
      have result : storeResult (nativeOracle ω) ⟨h, heap, world⟩ key value =
          (overwrite p value h.entries, heap) := by
        unfold storeResult
        simp only [search]
      rw [result] at entries
      have keysOf : ∀ entry ∈ vm.table.entries,
          ∃ old ∈ h.entries, old.1 = entry.1 := by
        intro entry member
        rw [entries] at member
        exact exists_of_mem_overwrite member
      refine ⟨representation, ?_, ?_, ?_⟩
      · rw [entries]
        exact later.distinct.overwrite p value
      · intro entry member
        obtain ⟨old, oldMember, same⟩ := keysOf entry member
        exact same ▸ later.native old oldMember
      · intro entry member
        obtain ⟨old, oldMember, same⟩ := keysOf entry member
        exact same ▸ later.frozen old oldMember
  | none =>
      have result : storeResult (nativeOracle ω) ⟨h, heap, world⟩ key value =
          (h.entries ++ [((storedKey heap key).1, value)],
            (storedKey heap key).2) := by
        unfold storeResult
        simp only [search]
      rw [result] at entries grownHeap
      have missing := sound.lookup_storedKey key
      dsimp only at missing
      rw [search, ← grownHeap] at missing
      have copyNative : isNative vm.heap (storedKey heap key).1 = true := by
        rcases storedKey_cases heap key with same | copied
        · rw [grownHeap, same]
          exact native
        · rw [grownHeap]
          exact copied
      refine ⟨representation, ?_, ?_, ?_⟩
      · have byContent : ∀ entry ∈ h.entries,
            (nativeOracle ω).same vm.heap (storedKey heap key).1 entry.1 =
              decide ((nativeOracle Unit).content vm.heap entry.1 =
                (nativeOracle Unit).content vm.heap (storedKey heap key).1) :=
          fun entry _ => rfl
        have stored := later.distinct.store byContent value
        unfold AssociationList.store at stored
        simp only [missing] at stored
        rw [entries]
        exact stored
      · intro entry member
        rw [entries] at member
        rcases List.mem_append.mp member with old | new
        · exact later.native entry old
        · rw [List.mem_singleton.mp new]
          exact copyNative
      · intro entry member
        rw [entries] at member
        rcases List.mem_append.mp member with old | new
        · exact later.frozen entry old
        · rw [List.mem_singleton.mp new, grownHeap]
          exact storedKey_storedKey heap key

/-- The search of a native table for a native key finds it in its list. -/
theorem NativeTable.hFind
    (native : isNative heap key = true)
    (world : ω) :
    ∃ later, hFind callbacks key ⟨h, heap, world⟩ =
      .ok (foundAt (lookup (plainSame heap key) h.entries))
        ⟨h, heap, later⟩ := by
  have sound := table.sound callbacks world
  obtain ⟨found, vm, ran, same, later, after, _⟩ :=
    (hFind_asks sound.searchable sound.inRange native).exists_ok
      fun _ _ ⟨_, _, within⟩ => native_raises_nothing within.raises
  refine ⟨later, ?_⟩
  rw [ran, same, after, sound.tableFind_eq, plainSame_eq ω native]

/-- The removal of a native key removes it from the list. -/
theorem NativeTable.hDelete
    (native : isNative heap key = true)
    (world : ω) :
    ∃ vm, hDelete callbacks key ⟨h, heap, world⟩ =
        .ok ((lookup (plainSame heap key) h.entries).bind fun p =>
          h.entries[p]?.map (·.2)) vm ∧
      vm.heap = heap ∧ NativeTable heap vm.table ∧
      vm.table.entries = erase (plainSame heap key) h.entries := by
  have sound := table.sound callbacks world
  obtain ⟨answer, vm, ran, deleted⟩ :=
    (hDelete_outcome sound native).exists_ok
      fun _ _ raised => native_raises_nothing raised.1
  obtain ⟨soundAfter, sameHeap, entries, answered⟩ := deleted
  rw [← plainSame_eq ω native] at entries answered
  refine ⟨vm, by rw [ran, answered]; rfl, sameHeap, ?_, entries⟩
  refine table.of_sound sameHeap soundAfter ?_
  intro entry member
  rw [entries] at member
  unfold erase at member
  split at member
  · exact ⟨entry, List.mem_of_mem_eraseIdx member, rfl⟩
  · exact ⟨entry, member, rfl⟩

/-- Taking the first entry takes it from the list. -/
theorem NativeTable.hShift
    (world : ω) :
    ∃ vm, hShift callbacks ⟨h, heap, world⟩ = .ok h.entries.head? vm ∧
      vm.heap = heap ∧ NativeTable heap vm.table ∧
      vm.table.entries = h.entries.tail := by
  have sound := table.sound callbacks world
  obtain ⟨answer, vm, ran, shifted⟩ :=
    (hShift_outcome sound).exists_ok
      fun _ _ raised => native_raises_nothing raised.1
  obtain ⟨soundAfter, sameHeap, entries, answered⟩ := shifted
  refine ⟨vm, by rw [ran, answered], sameHeap, ?_, entries⟩
  refine table.of_sound sameHeap soundAfter ?_
  intro entry member
  rw [entries] at member
  exact ⟨entry, List.mem_of_mem_tail member, rfl⟩

/-- A rehash keeps the list. -/
theorem NativeTable.hRehash
    (world : ω) :
    ∃ vm, hRehash callbacks ⟨h, heap, world⟩ = .ok () vm ∧
      vm.heap = heap ∧ NativeTable heap vm.table ∧
      vm.table.entries = restore (plainSame heap) h.entries := by
  have sound := table.sound callbacks world
  obtain ⟨_, vm, ran, rehashed⟩ :=
    (hRehash_outcome sound).exists_ok
      fun _ _ raised => native_raises_nothing raised.1
  obtain ⟨soundAfter, sameHeap, entries⟩ := rehashed
  have unchanged : restore (plainSame heap) h.entries = h.entries := by
    refine table.distinct.restore_eq ?_
    intro key isKey entry _
    exact congrFun (plainSame_eq Unit (table.native key isKey)) entry.1
  refine ⟨vm, ran, sameHeap, ?_, by rw [unchanged, entries]⟩
  refine table.of_sound sameHeap soundAfter ?_
  intro entry member
  rw [entries] at member
  exact ⟨entry, member, rfl⟩

/-- Removing the nil values filters the list. -/
theorem NativeTable.removeNil
    (world : ω) :
    ∃ after, Machine.removeNil ⟨h, heap, world⟩ =
        .ok (h.entries.countP fun entry => entry.2.isNil)
          ⟨after, heap, world⟩ ∧
      NativeTable heap after ∧
      after.entries = h.entries.filter fun entry => !entry.2.isNil := by
  obtain ⟨count, after, walked, representation, entries, total⟩ :=
    removeNilValues_spec table.representation
  have counted : count = h.entries.countP fun entry => entry.2.isNil := by
    have all := @List.length_eq_countP_add_countP Entry
      (fun entry => entry.2.isNil) h.entries
    rw [entries, ← List.countP_eq_length_filter] at total
    simp only [Bool.not_eq_true] at all
    have same : (h.entries.countP fun entry => !entry.2.isNil) =
        h.entries.countP fun entry => decide (entry.2.isNil = false) := by
      refine List.countP_congr ?_
      intro entry _
      cases entry.2.isNil <;> simp
    omega
  refine ⟨after, ?_, ⟨representation, ?_, ?_, ?_⟩, entries⟩
  · simp only [Machine.removeNil, bind, EStateM.bind, Exec.get_apply, walked,
    Exec.orPanic, pure, EStateM.pure, set, MonadStateOf.set, EStateM.set,
    counted]
  · rw [entries]
    exact List.Nodup.sublist (List.Sublist.map _ List.filter_sublist)
      table.distinct
  · intro entry member
    rw [entries] at member
    exact table.native entry (List.mem_of_mem_filter member)
  · intro entry member
    rw [entries] at member
    exact table.frozen entry (List.mem_of_mem_filter member)

end

/-- A new empty table keeps the machines matching. -/
theorem Matches.append
    (matching : Matches machine plain)
    (empty : h.entries = [])
    (representation : ∀ code, Representation code h) :
    Matches { machine with tables := machine.tables ++ [h] }
      { plain with tables := plain.tables ++ [[]] } := by
  refine ⟨matching.heap, ?_, ?_⟩
  · rw [List.map_append, matching.entries, List.map_singleton, empty]
  · intro table member
    rcases List.mem_append.mp member with old | new
    · exact matching.native table old
    · rw [List.mem_singleton.mp new]
      refine ⟨representation _, ?_, ?_, ?_⟩
      · simp [Distinct, empty]
      · simp [empty]
      · simp [empty]

theorem withCapa_entries (capa : Nat) :
    (HashData.withCapa capa).entries = [] := by
  unfold HashData.withCapa
  split
  · rfl
  · simp only
    split <;> rfl

/-- One legal operation that has room leads matching machines to matching ones,
with the same answer. -/
theorem step_matches
    (callbacks : Callbacks ω)
    (matching : Matches machine plain)
    (legal : plain.Legal operation)
    (roomy : plain.Roomy operation) :
    ∃ given after plainAfter,
      machine.step callbacks operation = some (given, after) ∧
      plain.step operation = some (given, plainAfter) ∧
      Matches after plainAfter := by
  have sameHeap := matching.heap
  have sameLength : machine.tables.length = plain.tables.length := by
    rw [← matching.entries, List.length_map]
  unfold Machine.step PlainMachine.step
  cases operation with
  | new =>
      exact ⟨_, _, _, rfl, rfl, matching.append rfl representation_initial⟩
  | withCapa capa =>
      exact ⟨_, _, _, rfl, rfl, matching.append (withCapa_entries capa)
        fun code => representation_withCapa code capa⟩
  | set table key value =>
      obtain ⟨bound, native⟩ := legal
      rw [← sameHeap] at native
      refine on_matches matching bound ?_
      intro h held isNat
      have few : h.entries.length < indexLimit := by
        refine roomy h.entries ?_
        rw [← matching.entries, List.getElem?_map, held, Option.map_some]
      obtain ⟨vm, ran, grown, after, stored⟩ :=
        isNat.hSet native few value machine.world
      refine ⟨(), vm, ran, grown, after, ?_⟩
      have same : plain.store key value h.entries =
          PlainMachine.store ⟨[], machine.heap⟩ key value h.entries := by
        rw [sameHeap]
        rfl
      rw [same, stored]
  | find table key =>
      obtain ⟨bound, native⟩ := legal
      rw [← sameHeap] at native
      refine on_matches matching bound ?_
      intro h held isNat
      obtain ⟨later, ran⟩ :=
        isNat.hFind native machine.world
      refine ⟨_, _, ran, List.prefix_refl _, isNat, ?_⟩
      rw [← sameHeap]
      cases lookup (plainSame machine.heap key) h.entries <;> rfl
  | delete table key =>
      obtain ⟨bound, native⟩ := legal
      rw [← sameHeap] at native
      refine on_matches matching bound ?_
      intro h held isNat
      obtain ⟨vm, ran, heap, after, entries⟩ :=
        isNat.hDelete native machine.world
      refine ⟨_, vm, ran, by rw [heap], by rw [heap]; exact after, ?_⟩
      rw [entries, heap, ← sameHeap]
  | shift table =>
      refine on_matches matching legal ?_
      intro h held isNat
      obtain ⟨vm, ran, heap, after, entries⟩ :=
        isNat.hShift machine.world
      refine ⟨_, vm, ran, by rw [heap], by rw [heap]; exact after, ?_⟩
      rw [entries, heap, ← sameHeap]
  | clear table =>
      refine on_matches matching legal ?_
      intro h held isNat
      refine ⟨(), _, rfl, List.prefix_refl _, ?_, ?_⟩
      · exact ⟨representation_clear _ h, List.nodup_nil, by
          simp [HashData.clear], by simp [HashData.clear]⟩
      · rw [← sameHeap]
        rfl
  | replaceTable table other =>
      obtain ⟨bound, otherBound⟩ := legal
      obtain ⟨source, sourceHeld⟩ : ∃ source,
          machine.tables[other]? = some source :=
        ⟨_, List.getElem?_eq_getElem (by omega)⟩
      have plainHeld : plain.tables[other]? = some source.entries := by
        rw [← matching.entries, List.getElem?_map, sourceHeld,
          Option.map_some]
      have isNat := matching.native source (List.mem_of_getElem? sourceHeld)
      simp only [sourceHeld, plainHeld]
      refine on_matches matching bound ?_
      intro h held _
      refine ⟨(), _, rfl, List.prefix_refl _, ?_, ?_⟩
      · exact ⟨representation_replaceTable isNat.representation,
          isNat.distinct, isNat.native, isNat.frozen⟩
      · rw [← sameHeap]
        rfl
  | removeNilValues table =>
      refine on_matches matching legal ?_
      intro h held isNat
      obtain ⟨after, ran, native, entries⟩ := isNat.removeNil machine.world
      refine ⟨_, _, ran, List.prefix_refl _, native, ?_⟩
      rw [entries, ← sameHeap]
  | rehash table =>
      refine on_matches matching legal ?_
      intro h held isNat
      obtain ⟨vm, ran, heap, after, entries⟩ :=
        isNat.hRehash machine.world
      refine ⟨(), vm, ran, by rw [heap], by rw [heap]; exact after, ?_⟩
      rw [entries, heap, ← sameHeap]
  | elsewhere heap =>
      refine ⟨.done, { machine with heap := heap }, { plain with heap := heap },
        rfl, rfl, rfl, matching.entries, ?_⟩
      intro table member
      have isNat := matching.native table member
      refine isNat.of_agree ?_
      intro entry entryMember object key
      have native := isNat.native entry entryMember
      have frozen := isNat.frozen entry entryMember
      rw [key] at native frozen
      rw [sameHeap]
      refine legal table.entries ?_ entry entryMember object key ?_
      · rw [← matching.entries]
        exact List.mem_map_of_mem member
      · rw [← sameHeap]
        exact isFrozen_of_storedKey native frozen

/-- A run of legal operations that have room leads matching machines to matching
ones, with the same answers. -/
theorem run_matches
    (callbacks : Callbacks ω)
    (operations : List Operation)
    (matching : Matches machine plain)
    (legal : plain.Along PlainMachine.Legal operations)
    (roomy : plain.Along PlainMachine.Roomy operations) :
    ∃ answers after plainAfter,
      machine.run callbacks operations = some (answers, after) ∧
      plain.run operations = some (answers, plainAfter) ∧
      Matches after plainAfter := by
  induction operations generalizing machine plain with
  | nil => exact ⟨[], machine, plain, rfl, rfl, matching⟩
  | cons operation operations ih =>
      obtain ⟨given, middle, plainMiddle, stepped, plainStepped, same⟩ :=
        step_matches callbacks matching legal.1 roomy.1
      obtain ⟨answers, after, plainAfter, ran, plainRan, matched⟩ :=
        ih same (legal.2 given plainMiddle plainStepped)
          (roomy.2 given plainMiddle plainStepped)
      refine ⟨given :: answers, after, plainAfter, ?_, ?_, matched⟩
      · simp [Machine.run, stepped, ran]
      · simp [PlainMachine.run, plainStepped, plainRan]

end Step

end SabiRuby.HashTable
