import SabiRuby.HashTable.Refinement

/-!
# Runs over native keys

What every run keeps whose stores meet fewer entries than the widest index has
room for, and the shortest run that stores once more: the index is rebuilt at
width 32, where the shift wraps to a single bucket, and the new entry is
dropped.
-/

namespace SabiRuby.HashTable

open Library AssociationList
open PlainMachine (along_cons)

/-- The machine gives the answers of the plain machine and ends with its
entries. -/
def RefinesPlain (callbacks : Callbacks ω) (heap : Heap) (world : ω)
    (operations : List Operation) : Prop :=
  ∃ answers after plainAfter,
    Machine.run callbacks ⟨[], heap, world⟩ operations =
      some (answers, after) ∧
    PlainMachine.run ⟨[], heap⟩ operations = some (answers, plainAfter) ∧
    after.tables.map (·.entries) = plainAfter.tables ∧
    after.heap = plainAfter.heap

/-- What the bookkeeping of a table says about its entries. -/
structure TableInvariant (h : HashData) : Prop where
  slotsLength : h.slots.length = h.entries.length
  ascending : h.slots.Pairwise (· < ·)
  slotsBound : ∀ slot ∈ h.slots, slot < h.nUsed
  usedBound : h.nUsed ≤ h.eaCapa
  /-- Every position is in exactly one bucket. -/
  held : h.isHt = true → ∀ p < h.entries.length,
    ∃ bucket : Nat, h.ib[bucket]? = some (.live p) ∧
      ∀ other : Nat, h.ib[other]? = some (.live p) → other = bucket
  /-- No bucket holds another position. -/
  bounded : h.isHt = true → ∀ bucket p : Nat,
    h.ib[bucket]? = some (.live p) → p < h.entries.length
  used : h.isHt = true → usedBuckets h.ib = h.nUsed
  roomy : h.isHt = true → ∃ bucket : Nat, h.ib[bucket]? = some .empty

/-- Every probe for a native key meets an empty bucket or the entry of the key,
and the probe of a store answers. -/
def ProbesEnd (heap : Heap) (world : ω) (h : HashData) : Prop :=
  h.isHt = true → ∀ key, isNative heap key = true →
    ∃ code, nativeCode heap key = some code ∧
      (∃ step ≤ h.mask, h.ib[probeAt h.mask code step]? = some .empty ∨
        ∃ p entry, h.ib[probeAt h.mask code step]? = some (.live p) ∧
          h.entries[p]? = some entry ∧ plainSame heap key entry.1 = true) ∧
      ∃ target after, probeNative key (⟨h, heap, world⟩ : Vm ω) =
        .ok (some target) after

/-- A store into an indexed table returns, and the key is found with the value
afterwards. -/
def StoreKept (callbacks : Callbacks ω) (heap : Heap) (world : ω)
    (h : HashData) : Prop :=
  h.isHt = true → ∀ key value, isNative heap key = true →
    ∃ vm, htSet callbacks key value ⟨h, heap, world⟩ = .ok () vm ∧
      ∃ p entry, lookup (plainSame vm.heap key) vm.table.entries = some p ∧
        vm.table.entries[p]? = some entry ∧ entry.2 = value

/-- The representation says what the invariant says. -/
theorem Representation.tableInvariant
    (rep : Representation code h) : TableInvariant h where
  slotsLength := rep.slotsLength
  ascending := rep.ascending
  slotsBound := rep.slotsBound
  usedBound := rep.usedBound
  held := by
    intro hasIndex p bound
    have index := rep.indexed hasIndex
    have coded : (h.entries.map fun entry => code entry.1)[p]? =
        some (code h.entries[p].1) := by
      rw [List.getElem?_map, List.getElem?_eq_getElem bound, Option.map_some]
    obtain ⟨step, _, there, _⟩ := index.indexes.reached p _ coded
    exact ⟨_, there, fun other held => index.indexes.unique _ _ p held there⟩
  bounded := by
    intro hasIndex bucket p held
    simpa using (rep.indexed hasIndex).indexes.bounded bucket p held
  used := fun hasIndex => (rep.indexed hasIndex).used
  roomy := fun hasIndex =>
    exists_empty_of_usedBuckets_lt (rep.indexed hasIndex).roomy

section Tables

variable {ω : Type} {callbacks : Callbacks ω}

theorem NativeTable.probesEnd
    (table : NativeTable heap h)
    (world : ω) :
    ProbesEnd heap world h := by
  intro hasIndex key native
  have sound := table.sound ⟨fun _ _ => false, fun _ _ _ => false,
    fun _ => pure .nil, fun _ _ => pure .nil⟩ world
  have index := sound.representation.indexed hasIndex
  have scanned := sound.scanKeys_eq hasIndex key
  dsimp only at index scanned
  refine ⟨(nativeOracle ω).code heap key,
    nativeCode_eq native id fun _ => 0, ?_, ?_⟩
  · cases search : lookup ((nativeOracle ω).same heap key) h.entries with
    | none =>
        simp only [search] at scanned
        obtain ⟨b, _, step, stepBound, met, empty, _⟩ := scanned
        rw [← index.mask_succ] at stepBound
        exact ⟨step, Nat.lt_succ_iff.mp stepBound, Or.inl (met ▸ empty)⟩
    | some p =>
        have bound := lookup_lt search
        have held := List.getElem?_eq_getElem bound
        have same := lookup_same search held
        have equal : (nativeOracle ω).content heap h.entries[p].1 =
            (nativeOracle ω).content heap key := of_decide_eq_true same
        have coded : (h.entries.map fun entry =>
            (nativeOracle ω).code heap entry.1)[p]? =
              some ((nativeOracle ω).code heap key) := by
          rw [List.getElem?_map, held, Option.map_some]
          simp only [KeyOracle.code, equal]
        obtain ⟨step, stepBound, there, _⟩ := index.indexes.reached p _ coded
        rw [← index.mask_succ] at stepBound
        refine ⟨step, Nat.lt_succ_iff.mp stepBound, Or.inr
          ⟨p, h.entries[p], there, held, ?_⟩⟩
        rw [plainSame_eq ω native]
        exact same
  · have probed : Asks (nativeOracle ω) (probeNative key)
        ⟨h, heap, world⟩ 0 _ := probeNative_asks index.inRange key
    obtain ⟨target, after, ran, answered, _⟩ := probed.exists_ok (by
      rintro _ _ ⟨_, _, within⟩
      exact native_raises_nothing within.raises)
    dsimp only at answered
    rw [if_pos native] at answered
    cases search : lookup ((nativeOracle ω).same heap key) h.entries with
    | none =>
        simp only [search] at scanned
        obtain ⟨b, vacant, _⟩ := scanned
        rw [vacant] at answered
        exact ⟨.error b, after, by rw [ran, answered]; rfl⟩
    | some p =>
        simp only [search] at scanned
        rw [scanned] at answered
        exact ⟨.ok p, after, by rw [ran, answered]; rfl⟩

/-- A store into an indexed table is the store of `htSet`. -/
theorem hSet_of_isHt
    (hasIndex : vm.table.isHt = true) (key value : Value) :
    hSet callbacks key value vm = htSet callbacks key value vm := by
  unfold hSet hSetWith
  simp only [bind, EStateM.bind, Exec.get_apply, hasIndex, if_true]

/-- After a store the list holds the key with the value. -/
theorem exists_stored
    (heap : Heap) (key value : Value) (entries : List Entry)
    (native : isNative heap key = true) :
    ∃ (p : Nat) (entry : Entry),
      (PlainMachine.store ⟨[], heap⟩ key value entries).1[p]? = some entry ∧
        entry.2 = value ∧
        (nativeOracle Unit).content
          (PlainMachine.store ⟨[], heap⟩ key value entries).2 entry.1 =
        (nativeOracle Unit).content
          (PlainMachine.store ⟨[], heap⟩ key value entries).2 key := by
  unfold PlainMachine.store
  cases search : lookup (plainSame heap key) entries with
  | some p =>
      have bound := lookup_lt search
      have held := List.getElem?_eq_getElem bound
      have same := lookup_same search held
      rw [plainSame_eq Unit native] at same
      refine ⟨p, (entries[p].1, value), ?_, rfl, of_decide_eq_true same⟩
      simp [overwrite, held]
  | none =>
      refine ⟨entries.length, ((storedKey heap key).1, value), ?_, rfl, ?_⟩
      · simp
      · have asked : (nativeOracle Unit).content (storedKey heap key).2 key =
            (nativeOracle Unit).content heap key :=
          content_of_extends (storedKey_extends heap key)
            (validKey_of_isNative native)
        rw [asked]
        exact content_storedKey heap key

theorem NativeTable.storeKept
    (table : NativeTable heap h)
    (roomy : h.entries.length < indexLimit)
    (callbacks : Callbacks ω)
    (world : ω) :
    StoreKept callbacks heap world h := by
  intro hasIndex key value native
  obtain ⟨vm, ran, grown, after, stored⟩ :=
    @NativeTable.hSet heap ω callbacks h table key native roomy value world
  rw [hSet_of_isHt hasIndex] at ran
  obtain ⟨p, entry, held, sameValue, sameContent⟩ :=
    exists_stored heap key value h.entries native
  rw [stored] at held sameContent
  refine ⟨vm, ran, p, entry, ?_, held, sameValue⟩
  have keyNative : isNative vm.heap key = true := by
    rw [isNative_of_extends grown (validKey_of_isNative native)]
    exact native
  have found := after.distinct.lookup_self held
  rw [sameContent] at found
  rw [plainSame_eq Unit keyNative]
  exact found

end Tables

/-! ## Every run with room -/

theorem matches_start (heap : Heap) (world : ω) :
    Matches ⟨[], heap, world⟩ ⟨[], heap⟩ :=
  ⟨rfl, rfl, by simp⟩

/-- Every run whose stores have room gives the answers and the entries of the
plain machine. -/
theorem native_run_refines_plain
    (callbacks : Callbacks ω)
    (heap : Heap)
    (world : ω)
    (operations : List Operation)
    (legal : PlainMachine.Along PlainMachine.Legal ⟨[], heap⟩ operations)
    (roomy : PlainMachine.Along PlainMachine.Roomy ⟨[], heap⟩ operations) :
    RefinesPlain callbacks heap world operations := by
  obtain ⟨answers, after, plainAfter, ran, plainRan, matched⟩ :=
    run_matches callbacks operations (matches_start heap world) legal roomy
  exact ⟨answers, after, plainAfter, ran, plainRan, matched.entries,
    matched.heap⟩

/-- Callbacks that are never called. -/
def silent : Callbacks Unit where
  eqlBasic := fun _ _ => true
  sameValue := fun _ _ _ => false
  callHash := fun _ => pure .nil
  callEql := fun _ _ => pure .nil

/-- A run that stores a String and an Integer, finds the String and removes
it. -/
def shortRun : List Operation :=
  [.new, .set 0 (.obj ⟨0⟩) (.int 1), .set 0 (.int 2) .nil,
    .find 0 (.obj ⟨0⟩), .delete 0 (.obj ⟨0⟩), .rehash 0]

/-- A heap with one unfrozen String. -/
def shortHeap : Heap := [{ kind := .string [104, 105], frozen := false }]

theorem legal_shortRun :
    PlainMachine.Along PlainMachine.Legal ⟨[], shortHeap⟩ shortRun :=
  along_cons trivial rfl <|
    along_cons ⟨by decide, by decide⟩ rfl <|
    along_cons ⟨by decide, by decide⟩ rfl <|
    along_cons ⟨by decide, by decide⟩ rfl <|
    along_cons ⟨by decide, by decide⟩ rfl <|
    along_cons (Nat.zero_lt_one) rfl trivial

theorem roomy_shortRun :
    PlainMachine.Along PlainMachine.Roomy ⟨[], shortHeap⟩ shortRun :=
  along_cons trivial rfl <|
    along_cons (by rintro _ ⟨⟩; decide) rfl <|
    along_cons (by rintro _ ⟨⟩; decide) rfl <|
    along_cons trivial rfl <|
    along_cons trivial rfl <|
    along_cons trivial rfl trivial

theorem shortRun_refines_plain :
    RefinesPlain silent shortHeap () shortRun :=
  native_run_refines_plain silent shortHeap () shortRun legal_shortRun
    roomy_shortRun

/-- Every run whose stores have room keeps the invariant of every table; its
probes end, and a store that has room keeps its entry. -/
theorem native_run_keeps_invariant
    (callbacks : Callbacks ω)
    (heap : Heap)
    (world : ω)
    (operations : List Operation)
    (legal : PlainMachine.Along PlainMachine.Legal ⟨[], heap⟩ operations)
    (roomy : PlainMachine.Along PlainMachine.Roomy ⟨[], heap⟩ operations) :
    ∃ answers after,
      Machine.run callbacks ⟨[], heap, world⟩ operations =
        some (answers, after) ∧
      ∀ table ∈ after.tables, TableInvariant table ∧
        ProbesEnd after.heap after.world table ∧
        (table.entries.length < indexLimit →
          StoreKept callbacks after.heap after.world table) := by
  obtain ⟨answers, after, plainAfter, ran, _, matched⟩ :=
    run_matches callbacks operations (matches_start heap world) legal roomy
  refine ⟨answers, after, ran, ?_⟩
  intro table member
  have native := matched.native table member
  exact ⟨native.representation.tableInvariant, native.probesEnd after.world,
    fun few => native.storeKept few callbacks after.world⟩

theorem shortRun_keeps_invariant :
    ∃ answers after,
      Machine.run silent ⟨[], shortHeap, ()⟩ shortRun =
        some (answers, after) ∧
      ∀ table ∈ after.tables, TableInvariant table ∧
        ProbesEnd after.heap after.world table ∧
        (table.entries.length < indexLimit →
          StoreKept silent after.heap after.world table) :=
  native_run_keeps_invariant silent shortHeap () shortRun legal_shortRun
    roomy_shortRun

/-! ## The store that has no room -/

/-- The run that stores the first `count` Integers in one table. -/
def fill (count : Nat) : List Operation :=
  .new :: (List.range count).map fun i => .set 0 (.int (Int64.ofNat i)) .nil

/-- The entries after that run. -/
def filled (count : Nat) : List Entry :=
  (List.range count).map fun i => (.int (Int64.ofNat i), .nil)

theorem fill_succ (count : Nat) :
    fill (count + 1) =
      fill count ++ [.set 0 (.int (Int64.ofNat count)) .nil] := by
  simp [fill, List.range_succ]

theorem Machine.run_append
    (callbacks : Callbacks ω)
    (machine : Machine ω)
    (operations : List Operation)
    (last : Operation) :
    machine.run callbacks (operations ++ [last]) =
      (machine.run callbacks operations).bind fun before =>
        (before.2.step callbacks last).map fun after =>
          (before.1 ++ [after.1], after.2) := by
  induction operations generalizing machine with
  | nil =>
      simp only [List.nil_append, Machine.run, Option.bind_some]
      cases machine.step callbacks last <;> rfl
  | cons operation operations ih =>
      simp only [List.cons_append, Machine.run]
      cases machine.step callbacks operation with
      | none => rfl
      | some stepped =>
          simp only [Option.bind_eq_bind, Option.bind_some,
            ih, Option.pure_def]
          cases Machine.run callbacks stepped.2 operations with
          | none => rfl
          | some before =>
              simp only [Option.bind_some]
              cases before.2.step callbacks last <;> rfl

theorem PlainMachine.run_append
    (machine : PlainMachine)
    (operations : List Operation)
    (last : Operation) :
    machine.run (operations ++ [last]) =
      (machine.run operations).bind fun before =>
        (before.2.step last).map fun after =>
          (before.1 ++ [after.1], after.2) := by
  induction operations generalizing machine with
  | nil =>
      simp only [List.nil_append, PlainMachine.run, Option.bind_some]
      cases machine.step last <;> rfl
  | cons operation operations ih =>
      simp only [List.cons_append, PlainMachine.run]
      cases machine.step operation with
      | none => rfl
      | some stepped =>
          simp only [Option.bind_eq_bind, Option.bind_some,
            ih, Option.pure_def]
          cases PlainMachine.run stepped.2 operations with
          | none => rfl
          | some before =>
              simp only [Option.bind_some]
              cases before.2.step last <;> rfl

theorem PlainMachine.along_append
    (condition : PlainMachine → Operation → Prop)
    (machine : PlainMachine)
    (operations : List Operation)
    (last : Operation)
    (along : machine.Along condition operations)
    (holds : ∀ answers after, machine.run operations = some (answers, after) →
      condition after last) :
    machine.Along condition (operations ++ [last]) := by
  induction operations generalizing machine with
  | nil => exact ⟨holds [] machine rfl, fun _ _ _ => trivial⟩
  | cons operation operations ih =>
      refine ⟨along.1, ?_⟩
      intro answer after stepped
      refine ih after (along.2 answer after stepped) ?_
      intro answers final ran
      refine holds (answer :: answers) final ?_
      simp [PlainMachine.run, stepped, ran]

/-- The Integers below the count are distinct keys. -/
theorem lookup_filled
    (small : count < 2 ^ 63) :
    lookup (plainSame heap (.int (Int64.ofNat count))) (filled count) =
      none := by
  rw [lookup_eq_none_iff]
  intro entry member
  obtain ⟨i, inside, rfl⟩ := List.mem_map.mp member
  have below := List.mem_range.mp inside
  show Value.eq (.int (Int64.ofNat count)) (.int (Int64.ofNat i)) = false
  have different : Int64.ofNat count ≠ Int64.ofNat i := by
    intro same
    have equal := congrArg Int64.toInt same
    rw [Int64.toInt_ofNat_of_lt small, Int64.toInt_ofNat_of_lt (by omega)]
      at equal
    omega
  simp [Value.eq, different]

theorem plain_run_fill
    (heap : Heap)
    (small : count ≤ 2 ^ 63) :
    ∃ answers, PlainMachine.run ⟨[], heap⟩ (fill count) =
      some (answers, ⟨[filled count], heap⟩) := by
  induction count with
  | zero => exact ⟨[.done], rfl⟩
  | succ count ih =>
      obtain ⟨answers, ran⟩ := ih (by omega)
      refine ⟨answers ++ [.done], ?_⟩
      rw [fill_succ, PlainMachine.run_append, ran, Option.bind_some]
      have stored : PlainMachine.store ⟨[filled count], heap⟩
          (.int (Int64.ofNat count)) .nil (filled count) =
          (filled (count + 1), heap) := by
        unfold PlainMachine.store
        rw [lookup_filled (by omega)]
        simp [storedKey, filled, List.range_succ]
      simp [PlainMachine.step, PlainMachine.on, stored]

theorem legal_fill
    (heap : Heap)
    (small : count ≤ 2 ^ 63) :
    PlainMachine.Along PlainMachine.Legal ⟨[], heap⟩ (fill count) := by
  induction count with
  | zero => exact ⟨trivial, fun _ _ _ => trivial⟩
  | succ count ih =>
      rw [fill_succ]
      refine PlainMachine.along_append _ _ _ _ (ih (by omega))
        ?_
      intro answers after ran
      obtain ⟨_, filledRun⟩ := @plain_run_fill count heap (by omega)
      rw [ran] at filledRun
      cases filledRun
      exact ⟨Nat.zero_lt_one, rfl⟩

theorem roomy_fill
    (heap : Heap)
    (atMost : count ≤ indexLimit) :
    PlainMachine.Along PlainMachine.Roomy ⟨[], heap⟩ (fill count) := by
  have small : indexLimit ≤ 2 ^ 63 := by decide
  induction count with
  | zero => exact ⟨trivial, fun _ _ _ => trivial⟩
  | succ count ih =>
      rw [fill_succ]
      refine PlainMachine.along_append _ _ _ _ (ih (by omega))
        ?_
      intro answers after ran
      obtain ⟨_, filledRun⟩ := @plain_run_fill count heap (by omega)
      rw [ran] at filledRun
      cases filledRun
      intro entries held
      cases held
      simp only [filled, List.length_map, List.length_range]
      omega

/-- One store more than there is room for ends with a table that has lost an
entry and has no more entries than before. -/
theorem fill_dropped
    (callbacks : Callbacks ω)
    (heap : Heap)
    (world : ω) :
    ∃ answers after h,
      Machine.run callbacks ⟨[], heap, world⟩ (fill (indexLimit + 1)) =
        some (answers, after) ∧
      after.tables = [h] ∧ h.entries.length = indexLimit ∧ h.isHt = true ∧
        ∀ bucket : Nat, h.ib[bucket]? ≠ some (.live 1) := by
  have small : indexLimit ≤ 2 ^ 63 := by decide
  obtain ⟨answers, before, plainBefore, ran, plainRan, matched⟩ :=
    run_matches callbacks (fill indexLimit) (matches_start heap world)
      (legal_fill heap small) (roomy_fill heap (Nat.le_refl _))
  obtain ⟨_, filledRun⟩ := @plain_run_fill indexLimit heap small
  rw [plainRan] at filledRun
  cases filledRun
  obtain ⟨h, tables⟩ : ∃ h, before.tables = [h] := by
    have length := congrArg List.length matched.entries
    rw [List.length_map] at length
    exact List.length_eq_one_iff.mp length
  have entries : h.entries = filled indexLimit := by
    have same := matched.entries
    rw [tables] at same
    simpa using same
  have length : h.entries.length = indexLimit := by
    rw [entries, filled, List.length_map, List.length_range]
  have native := matched.native h (by simp [tables])
  have sound := native.sound callbacks before.world
  have isKey : isNative before.heap (.int (Int64.ofNat indexLimit)) = true :=
    rfl
  obtain ⟨_, vm, stored, returned⟩ :=
    (hSet_outcome sound isKey .nil).exists_ok
      fun _ _ raised => native_raises_nothing raised.1
  unfold SetReturned at returned
  rw [if_neg (by simp [length])] at returned
  refine ⟨answers ++ [.done],
    { tables := [vm.table], heap := vm.heap, world := vm.world }, vm.table, ?_,
    rfl, ?_, returned.hasIndex, returned.lost⟩
  · rw [fill_succ, Machine.run_append, ran, Option.bind_some]
    simp only [Machine.step, Machine.on, tables, List.getElem?_cons_zero,
      stored, List.set_cons_zero, Option.map_some]
  · rw [returned.length]
    exact length

/-- The legal run with one store too many does not give the entries of the plain
machine. -/
theorem fill_not_refines_plain :
    PlainMachine.Along PlainMachine.Legal ⟨[], []⟩ (fill (indexLimit + 1)) ∧
      ¬RefinesPlain silent [] () (fill (indexLimit + 1)) := by
  have small : indexLimit + 1 ≤ 2 ^ 63 := by decide
  refine ⟨legal_fill [] small, ?_⟩
  rintro ⟨answers, after, plainAfter, ran, plainRan, entries, _⟩
  obtain ⟨_, final, h, dropped, tables, length, _, _⟩ :=
    fill_dropped silent [] ()
  obtain ⟨_, filledRun⟩ := @plain_run_fill (indexLimit + 1) [] small
  rw [ran] at dropped
  cases dropped
  rw [plainRan] at filledRun
  cases filledRun
  rw [tables, List.map_singleton, List.cons.injEq] at entries
  rw [entries.1, filled, List.length_map, List.length_range] at length
  omega

/-- The legal run with one store too many ends in a table without the
invariant. -/
theorem fill_breaks_invariant :
    PlainMachine.Along PlainMachine.Legal ⟨[], []⟩ (fill (indexLimit + 1)) ∧
      ∃ answers after,
        Machine.run silent ⟨[], [], ()⟩ (fill (indexLimit + 1)) =
          some (answers, after) ∧
        ∃ table ∈ after.tables, ¬TableInvariant table := by
  have small : indexLimit + 1 ≤ 2 ^ 63 := by decide
  refine ⟨legal_fill [] small, ?_⟩
  obtain ⟨answers, after, h, ran, tables, length, hasIndex, lost⟩ :=
    fill_dropped silent [] ()
  refine ⟨answers, after, ran, h, by simp [tables], ?_⟩
  intro invariant
  obtain ⟨bucket, there, _⟩ := invariant.held hasIndex 1 (by
    rw [length]
    decide)
  exact lost bucket there

end SabiRuby.HashTable
