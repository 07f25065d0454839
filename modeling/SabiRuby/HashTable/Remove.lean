import SabiRuby.HashTable.Store

/-!
# Removals

`hDelete`, `hShift` and `removeNilValues` take entries out of the association
list and keep the representation.  A removal that raises has removed nothing.
-/

namespace SabiRuby.HashTable

open Library AssociationList

section Remove

variable {ω : Type} {callbacks : Callbacks ω} {oracle : KeyOracle ω}
variable {vm : Vm ω} {keys : Value → Prop}

/-- Taking out an entry keeps a Hash sound. -/
theorem Sound.removeEntry
    (sound : Sound callbacks oracle keys vm)
    (removed : vm.table.removeEntry p = some (entry, table)) :
    Sound callbacks oracle keys { vm with table := table } := by
  obtain ⟨representation, _, entries⟩ :=
    representation_removeEntry sound.representation removed
  refine ⟨sound.consistent, representation, ?_, ?_⟩
  · show Distinct _ table.entries
    rw [entries]
    exact sound.distinct.eraseIdx p
  · intro stored member
    have after : stored ∈ vm.table.entries.eraseIdx p := entries ▸ member
    exact sound.stored stored (List.mem_of_mem_eraseIdx after)

/-- The entries, the answer and the soundness after a removal by key. -/
structure Deleted
    (callbacks : Callbacks ω)
    (oracle : KeyOracle ω)
    (keys : Value → Prop)
    (before : Vm ω)
    (key : Value)
    (answer : Option Value)
    (after : Vm ω) : Prop where
  sound : Sound callbacks oracle keys after
  heap : after.heap = before.heap
  entries : after.table.entries =
    erase (oracle.same before.heap key) before.table.entries
  answer : answer = (lookup (oracle.same before.heap key)
    before.table.entries).bind before.table.valueAt

/-- A removal by key removes the entry of the key, or raises with the Hash
intact. -/
theorem hDelete_outcome
    (sound : Sound callbacks oracle keys vm)
    (isKey : keys key) :
    Exec.Satisfies (hDelete callbacks key) vm
      (fun answer after => Deleted callbacks oracle keys vm key answer after)
      (fun _ after => oracle.raiseAt ≠ none ∧ Intact oracle vm after) := by
  unfold hDelete
  refine (hFind_asks sound.searchable sound.inRange isKey).satisfies_bind
    ?_ ?_
  · intro world _ _
    rw [sound.tableFind_eq]
    cases search : lookup (oracle.same vm.heap key) vm.table.entries with
    | none =>
        exact ⟨sound.setWorld world, rfl, by simp only [erase, search],
          by simp only [search, Option.bind_none]⟩
    | some p =>
        have bound := lookup_lt search
        have removed := removeEntry_eq sound.representation.slotsLength
          (List.getElem?_eq_getElem bound)
        have soundAfter := (sound.setWorld world).removeEntry removed
        simp only [foundAt]
        rw [Exec.satisfies_bind, Exec.satisfies_get, Exec.satisfies_bind,
          Exec.satisfies_orPanic]
        refine ⟨_, removed, soundAfter, rfl, ?_, ?_⟩
        · simp only [erase, search]
        · simp [search, HashData.valueAt, List.getElem?_eq_getElem bound]
  · intro error world within
    exact ⟨within.raises, sound.intact world⟩

/-- The entries, the answer and the soundness after the first entry went. -/
structure Shifted
    (callbacks : Callbacks ω)
    (oracle : KeyOracle ω)
    (keys : Value → Prop)
    (before : Vm ω)
    (answer : Option Entry)
    (after : Vm ω) : Prop where
  sound : Sound callbacks oracle keys after
  heap : after.heap = before.heap
  entries : after.table.entries = before.table.entries.tail
  answer : answer = before.table.entries.head?

/-- The first entry is taken out and answered. -/
theorem shiftFirst_satisfies
    (removed : vm.table.removeEntry 0 = some (entry, table))
    (nonempty : vm.table.len ≠ 0)
    (taken : returns (some entry) { vm with table := table }) :
    Exec.Satisfies (do
      let vm ← get
      if vm.table.len = 0 then pure none
      else do
        let (entry, table) ← Exec.orPanic (vm.table.removeEntry 0)
        set { vm with table := table }
        pure (some entry) : Exec VmError (Vm ω) (Option Entry))
      vm returns raises := by
  rw [Exec.satisfies_bind, Exec.satisfies_get, if_neg nonempty,
    Exec.satisfies_bind, Exec.satisfies_orPanic]
  exact ⟨_, removed, taken⟩

/-- `hShift` takes the first entry, or raises with the Hash intact. -/
theorem hShift_outcome
    (sound : Sound callbacks oracle keys vm) :
    Exec.Satisfies (hShift callbacks) vm
      (fun answer after => Shifted callbacks oracle keys vm answer after)
      (fun _ after => oracle.raiseAt ≠ none ∧ Intact oracle vm after) := by
  unfold hShift
  rw [Exec.satisfies_bind, Exec.satisfies_get]
  cases list : vm.table.entries with
  | nil =>
      simp only [HashData.keyAt, list, List.getElem?_nil, Option.map_none]
      exact ⟨sound, rfl, by simp [list], by simp [list]⟩
  | cons first others =>
      have held : vm.table.entries[0]? = some first := by simp [list]
      have member : first ∈ vm.table.entries := by simp [list]
      have removed := removeEntry_eq sound.representation.slotsLength held
      have nonempty : vm.table.len ≠ 0 := by simp [HashData.len, list]
      simp only [HashData.keyAt, held, Option.map_some]
      cases hasIndex : vm.table.isHt with
      | false =>
          simp only [Bool.false_eq_true, if_false]
          exact shiftFirst_satisfies removed nonempty
            ⟨sound.removeEntry removed, rfl, by simp [list], by simp [list]⟩
      | true =>
          simp only [if_true]
          refine (hCode_asks sound.consistent sound.representation.slotsLength
            (sound.stored first member)).satisfies_bind ?_ ?_
          · intro world _ _
            exact shiftFirst_satisfies removed nonempty
              ⟨(sound.setWorld world).removeEntry removed, rfl,
                by simp [list], by simp [list]⟩
          · intro error world within
            exact ⟨within.raises, sound.intact world⟩

/-! ## Removing the nil values -/

/-- The walk over the entries from `p` on removes those whose value is nil. -/
theorem removeNilLoop_spec
    {h : HashData}
    (rep : Representation code h)
    (enough : h.entries.length ≤ p + fuel)
    (removed : Nat) :
    ∃ count after, h.removeNilLoop p removed fuel = some (count, after) ∧
      Representation code after ∧
      after.entries = h.entries.take p ++
        (h.entries.drop p).filter (fun entry => !entry.2.isNil) ∧
      count + after.entries.length = removed + h.entries.length := by
  induction fuel generalizing h p removed with
  | zero =>
      refine ⟨removed, h, rfl, rep, ?_, rfl⟩
      rw [List.drop_eq_nil_of_le (by omega), List.take_of_length_le (by omega)]
      simp
  | succ fuel ih =>
      unfold HashData.removeNilLoop
      rcases Nat.lt_or_ge p h.entries.length with bound | past
      · have held := List.getElem?_eq_getElem bound
        simp only [held]
        have split := List.drop_eq_getElem_cons bound
        by_cases isNil : h.entries[p].2.isNil = true
        · have taken := removeEntry_eq rep.slotsLength held
          rw [if_pos isNil, taken]
          obtain ⟨representation, _, entries⟩ :=
            representation_removeEntry rep taken
          have shorter := List.length_eraseIdx_of_lt bound
          obtain ⟨count, after, walked, repAfter, result, total⟩ :=
            @ih p _ representation
              (by rw [entries, shorter]; omega) (removed + 1)
          refine ⟨count, after, walked, repAfter, ?_, ?_⟩
          · have before : (h.entries.eraseIdx p).take p =
                h.entries.take p := by
              rw [List.eraseIdx_eq_take_drop_succ, List.take_append_of_le_length
                (by rw [List.length_take]; omega), List.take_take,
                Nat.min_self]
            have behind : (h.entries.eraseIdx p).drop p =
                h.entries.drop (p + 1) := by
              rw [List.eraseIdx_eq_take_drop_succ, List.drop_append_of_le_length
                (by rw [List.length_take]; omega)]
              rw [List.drop_eq_nil_of_le (by rw [List.length_take]; omega),
                List.nil_append]
            rw [result, entries, before, behind, split,
              List.filter_cons_of_neg (by simp [isNil])]
          · rw [total, entries, shorter]
            omega
        · rw [if_neg isNil]
          obtain ⟨count, after, walked, repAfter, result, total⟩ :=
            @ih (p + 1) h rep (by omega) removed
          refine ⟨count, after, walked, repAfter, ?_, total⟩
          rw [result, split, List.filter_cons_of_pos (by simp [isNil]),
            List.take_succ_eq_append_getElem bound, List.append_assoc,
            List.singleton_append]
      · have gone := List.getElem?_eq_none past
        simp only [gone]
        refine ⟨removed, h, rfl, rep, ?_, rfl⟩
        rw [List.drop_eq_nil_of_le past, List.take_of_length_le past]
        simp

/-- `removeNilValues` keeps the entries whose value is not nil and counts the
others. -/
theorem removeNilValues_spec
    (rep : Representation code h) :
    ∃ count after, h.removeNilValues = some (count, after) ∧
      Representation code after ∧
      after.entries = h.entries.filter (fun entry => !entry.2.isNil) ∧
      count + after.entries.length = h.entries.length := by
  have enough : h.entries.length ≤ 0 + h.entries.length := by omega
  obtain ⟨count, after, walked, representation, entries, total⟩ :=
    removeNilLoop_spec rep enough 0
  refine ⟨count, after, walked, representation, by simpa using entries, ?_⟩
  simpa using total

end Remove

end SabiRuby.HashTable
