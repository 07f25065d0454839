import SabiRuby.HashTable.Reentrant
import SabiRuby.HashTable.Refinement

/-!
# Runs whose keys change the table

The keys of a program run scripts: when a key is asked for `hash` or `eql?`, it
runs a list of operations on the Hash that asked and then gives an answer.  The
operations of a script ask keys again, up to any depth.  In every state that
such a program reaches, every operation raises `hash modified` or `hash too
big`, or ends with an answer about the entry compared last.
-/

namespace SabiRuby.HashTable

open Library AssociationList

/-- An operation a key makes on the Hash that asks it. -/
inductive Command
  | set (key value : Value)
  | delete (key : Value)
  | clear
  /-- The table of another Hash is taken over. -/
  | replace (other : { h : HashData // WellFormed h })

/-- What a key does when it is asked. -/
structure Script (ω : Type) where
  /-- The operations on the Hash, in order. -/
  commands : List Command
  /-- The answer. -/
  answer : Value
  /-- The heap the script has left when its operations start. -/
  heap : Heap
  /-- Everything else. -/
  world : ω

/-- The scripts of the keys of a program. -/
structure Program (ω : Type) where
  hash : Vm ω → Value → Script ω
  eql : Vm ω → Value → Value → Script ω
  /-- The class of the key has the plain `eql?`. -/
  eqlBasic : Vm ω → Value → Bool
  /-- The two values name the same thing. -/
  sameValue : Vm ω → Value → Value → Bool

section Runs

variable {ω : Type}

/-- Run one operation of a script. -/
def Command.run (callbacks : Callbacks ω) :
    Command → Exec VmError (Vm ω) Unit
  | .set key value => hSet callbacks key value
  | .delete key => (fun _ => ()) <$> hDelete callbacks key
  | .clear => modifyTable HashData.clear
  | .replace other => modifyTable fun h => h.replaceTable other.val

/-- Run the operations of a script in order. -/
def runCommands (callbacks : Callbacks ω) :
    List Command → Exec VmError (Vm ω) Unit
  | [] => pure ()
  | command :: commands => do
      command.run callbacks
      runCommands callbacks commands

/-- Run a script. -/
def Script.run (callbacks : Callbacks ω) (script : Script ω) :
    Exec VmError (Vm ω) Value := do
  modify fun vm => { vm with heap := script.heap, world := script.world }
  runCommands callbacks script.commands
  pure script.answer

namespace Program

/-- The callbacks of a program whose calls nest up to a depth: the scripts of
the innermost calls only answer. -/
def callbacks (program : Program ω) : Nat → Callbacks ω
  | 0 =>
      { eqlBasic := program.eqlBasic
        sameValue := program.sameValue
        callHash := fun key => do
          let vm ← get
          pure (program.hash vm key).answer
        callEql := fun key stored => do
          let vm ← get
          pure (program.eql vm key stored).answer }
  | depth + 1 =>
      { eqlBasic := program.eqlBasic
        sameValue := program.sameValue
        callHash := fun key => do
          let vm ← get
          (program.hash vm key).run (program.callbacks depth)
        callEql := fun key stored => do
          let vm ← get
          (program.eql vm key stored).run (program.callbacks depth) }

end Program

/-! ## Scripts keep tables well formed -/

variable {callbacks : Callbacks ω}

theorem Command.run_wellFormed
    (tame : Tame callbacks)
    (command : Command)
    (wellFormed : WellFormed vm.table) :
    Exec.Satisfies (command.run callbacks) vm
      (fun _ after => WellFormed after.table) Refused := by
  cases command with
  | set key value =>
      exact (hSet_kept tame wellFormed key value).mono
        (fun _ _ ended => ended.1) fun _ _ refused => refused
  | delete key =>
      unfold Command.run
      rw [Exec.satisfies_map]
      exact (hDelete_kept tame wellFormed key).mono
        (fun _ _ ended => ended.1) fun _ _ refused => refused
  | clear => exact WellFormed.clear vm.table
  | replace other => exact WellFormed.replaceTable vm.table other.property

theorem runCommands_wellFormed
    (tame : Tame callbacks)
    (commands : List Command)
    (wellFormed : WellFormed vm.table) :
    Exec.Satisfies (runCommands callbacks commands) vm
      (fun _ after => WellFormed after.table) Refused := by
  induction commands generalizing vm with
  | nil => exact wellFormed
  | cons command commands ih =>
      unfold runCommands
      rw [Exec.satisfies_bind]
      refine (command.run_wellFormed tame wellFormed).mono ?_
        fun _ _ refused => refused
      intro _ after afterWell
      exact ih afterWell

theorem Script.run_wellFormed
    (tame : Tame callbacks)
    (script : Script ω)
    (wellFormed : WellFormed vm.table) :
    Exec.Satisfies (script.run callbacks) vm
      (fun _ after => WellFormed after.table) Refused := by
  unfold Script.run
  rw [Exec.satisfies_bind, Exec.satisfies_modify, Exec.satisfies_bind]
  exact runCommands_wellFormed tame script.commands wellFormed

/-- Keys that run scripts leave tables well formed, however deep they nest. -/
theorem Program.tame (program : Program ω) (depth : Nat) :
    Tame (program.callbacks depth) := by
  induction depth with
  | zero =>
      constructor
      · intro key vm wellFormed
        exact wellFormed
      · intro key stored vm wellFormed
        exact wellFormed
  | succ depth ih =>
      constructor
      · intro key vm wellFormed
        exact Script.run_wellFormed ih _ wellFormed
      · intro key stored vm wellFormed
        exact Script.run_wellFormed ih _ wellFormed

/-! ## The states of a run -/

/-- An operation of the program on its Hash. -/
inductive TableOperation
  | find (key : Value)
  | perform (command : Command)
  | shift
  | rehash
  | compact

/-- Run an operation for its effect. -/
def TableOperation.run (callbacks : Callbacks ω) :
    TableOperation → Exec VmError (Vm ω) Unit
  | .find key => (fun _ => ()) <$> hFind callbacks key
  | .perform command => command.run callbacks
  | .shift => (fun _ => ()) <$> hShift callbacks
  | .rehash => hRehash callbacks
  | .compact => tryTable fun h => h.removeNilValues.map (·.2)

/-- The states a program reaches from a new Hash: an operation may come back or
raise, and between operations the program may change everything but the
table. -/
inductive Reached (callbacks : Callbacks ω) : Vm ω → Prop
  | new (capa : Nat) (heap : Heap) (world : ω) :
      Reached callbacks ⟨HashData.withCapa capa, heap, world⟩
  | returned {before after : Vm ω} (reached : Reached callbacks before)
      (operation : TableOperation)
      (ran : operation.run callbacks before = .ok () after) :
      Reached callbacks after
  | raised {before after : Vm ω} {error : VmError}
      (reached : Reached callbacks before)
      (operation : TableOperation)
      (ran : operation.run callbacks before = .error (.raised error) after) :
      Reached callbacks after
  | elsewhere {before : Vm ω} (reached : Reached callbacks before)
      (heap : Heap) (world : ω) :
      Reached callbacks { before with heap := heap, world := world }

theorem WellFormed.removeNilLoop
    (wellFormed : WellFormed h)
    (p removed fuel : Nat) :
    ∃ count after, h.removeNilLoop p removed fuel = some (count, after) ∧
      WellFormed after := by
  induction fuel generalizing h p removed with
  | zero => exact ⟨removed, h, rfl, wellFormed⟩
  | succ fuel ih =>
      unfold HashData.removeNilLoop
      cases held : h.entries[p]? with
      | none => exact ⟨removed, h, rfl, wellFormed⟩
      | some entry =>
          dsimp only
          split
          · obtain ⟨table, took, tableWell, _⟩ := wellFormed.removeEntry held
            rw [took]
            exact ih tableWell p (removed + 1)
          · exact ih wellFormed (p + 1) removed

theorem TableOperation.run_wellFormed
    (tame : Tame callbacks)
    (operation : TableOperation)
    (wellFormed : WellFormed vm.table) :
    Exec.Satisfies (operation.run callbacks) vm
      (fun _ after => WellFormed after.table) Refused := by
  cases operation with
  | find key =>
      unfold TableOperation.run
      rw [Exec.satisfies_map]
      exact (hFind_kept tame wellFormed key).mono
        (fun _ _ ended => ended.1.1) fun _ _ refused => refused
  | perform command => exact command.run_wellFormed tame wellFormed
  | shift =>
      unfold TableOperation.run
      rw [Exec.satisfies_map]
      exact (hShift_kept tame wellFormed).mono
        (fun _ _ ended => ended.1) fun _ _ refused => refused
  | rehash => exact hRehash_kept tame wellFormed
  | compact =>
      obtain ⟨count, after, ran, afterWell⟩ :=
        wellFormed.removeNilLoop 0 0 vm.table.entries.length
      unfold TableOperation.run tryTable
      simp only [Exec.satisfies_bind, Exec.satisfies_get,
        Exec.satisfies_orPanic, Exec.satisfies_set]
      refine ⟨after, ?_, afterWell⟩
      unfold HashData.removeNilValues
      rw [ran, Option.map_some]

/-- Every table a run reaches is well formed. -/
theorem Reached.wellFormed
    (tame : Tame callbacks)
    (reached : Reached callbacks vm) :
    WellFormed vm.table := by
  induction reached with
  | new capa heap world => exact wellFormed_withCapa capa
  | returned _ operation ran ih =>
      have outcome := operation.run_wellFormed tame ih
      unfold Exec.Satisfies at outcome
      rw [ran] at outcome
      exact outcome
  | raised _ operation ran ih =>
      have outcome := operation.run_wellFormed tame ih
      unfold Exec.Satisfies at outcome
      rw [ran] at outcome
      exact outcome.1
  | elsewhere _ _ _ ih => exact ih

/-- From a state, every operation stays in range; it raises by itself or ends
with an answer about the entry compared last. -/
structure AnswersCompared (callbacks : Callbacks ω) (vm : Vm ω) : Prop where
  /-- A search answers the entry compared last. -/
  find : ∀ key, Exec.Satisfies (hFind callbacks key) vm
    (fun found after => ∀ p, found = .atEntry p →
      Compared callbacks key p after) fun error _ => OwnError error
  /-- A store gives the entry compared last the value, or adds an entry. -/
  set : ∀ key value, Exec.Satisfies (hSet callbacks key value) vm
    (fun _ after => SetEnd callbacks key value after)
    fun error _ => OwnError error
  /-- So does a store into a table with an index. -/
  htSet : vm.table.isHt = true → ∀ key value,
    Exec.Satisfies (htSet callbacks key value) vm
      (fun _ after => SetEnd callbacks key value after)
      fun error _ => OwnError error
  /-- A removal takes the entry compared last. -/
  delete : ∀ key, Exec.Satisfies (hDelete callbacks key) vm
    (fun answer after => ∀ value, answer = some value →
      ∃ before p stored, Compared callbacks key p before ∧
        before.table.entries[p]? = some (stored, value) ∧
        after.table.entries = before.table.entries.eraseIdx p)
    fun error _ => OwnError error
  /-- Taking the first entry takes the entry that is first then. -/
  shift : Exec.Satisfies (hShift callbacks) vm
    (fun answer after => ∀ entry, answer = some entry →
      ∃ before : Vm ω, before.table.entries = entry :: after.table.entries)
    fun error _ => OwnError error
  /-- A rehash stays in range. -/
  rehash : Exec.Satisfies (hRehash callbacks) vm (fun _ _ => True)
    fun error _ => OwnError error
  /-- The search of a rehash without an index answers the entry compared
  last. -/
  rehashAr : ∀ key left j,
    Exec.Satisfies (rehashArLoop callbacks key left j) vm
      (fun dup after => ∀ p, dup = .ok p → Compared callbacks key p after)
      fun error _ => OwnError error
  /-- The search of a rehash in an index answers the entry compared last. -/
  rehashHt : ∀ key code mask step left,
    Exec.Satisfies (rehashHtLoop callbacks key code mask step left) vm
      (fun dup after => ∀ p, dup = .ok p → Compared callbacks key p after)
      fun error _ => OwnError error

/-- Keys that change the table while they are asked do not corrupt a lookup, in
any state a program reaches. -/
theorem reached_answers_compared
    (program : Program ω)
    (depth : Nat)
    (reached : Reached (program.callbacks depth) vm) :
    AnswersCompared (program.callbacks depth) vm := by
  have tame := program.tame depth
  have wellFormed := reached.wellFormed tame
  constructor
  · intro key
    exact (hFind_kept tame wellFormed key).mono (fun _ _ ended => ended.2)
      fun _ _ refused => refused.2
  · intro key value
    exact (hSet_kept tame wellFormed key value).mono
      (fun _ _ ended => ended.2) fun _ _ refused => refused.2
  · intro hasIndex key value
    exact (htSet_kept tame wellFormed hasIndex key value).mono
      (fun _ _ ended => ended.2) fun _ _ refused => refused.2
  · intro key
    exact (hDelete_kept tame wellFormed key).mono (fun _ _ ended => ended.2)
      fun _ _ refused => refused.2
  · exact (hShift_kept tame wellFormed).mono (fun _ _ ended => ended.2)
      fun _ _ refused => refused.2
  · exact (hRehash_kept tame wellFormed).mono (fun _ _ _ => trivial)
      fun _ _ refused => refused.2
  · intro key left j
    exact (rehashArLoop_kept tame key left j wellFormed).mono
      (fun _ _ ended => ended.2) fun _ _ refused => refused.2
  · intro key code mask step left
    exact (rehashHtLoop_kept tame key code mask step left wellFormed).mono
      (fun _ _ ended => ended.2) fun _ _ refused => refused.2

end Runs

/-- Keys that store an Integer into the Hash and remove it again. -/
def restlessKeys : Program Unit where
  hash := fun vm _ =>
    ⟨[.set (.int 0) .nil, .delete (.int 0)], .int 0, vm.heap, ()⟩
  eql := fun vm key _ => ⟨[.delete key], .trueValue, vm.heap, ()⟩
  eqlBasic := fun _ _ => false
  sameValue := fun _ _ _ => false

theorem restless_answers_compared :
    AnswersCompared (restlessKeys.callbacks 1)
      ⟨HashData.withCapa 20, [], ()⟩ :=
  reached_answers_compared restlessKeys 1 (.new 20 [] ())

/-! ## The store that has no slot -/

/-- A heap with one object that is not a String. -/
def plainObject : Heap := [{ kind := .other 20, frozen := false }]

/-- A table of the largest capacity with no entry and `count` slots used. -/
structure Spent (count : Nat) (heap : Heap) (h : HashData) : Prop where
  native : NativeTable heap h
  entries : h.entries = []
  nUsed : h.nUsed = count
  eaCapa : h.eaCapa = EA_MAX_CAPA
  ibBit : h.ibBit = 31
  epoch : h.epoch = 0

namespace Spent

variable {heap : Heap} {h : HashData} {count : Nat}

theorem isHt (spent : Spent count heap h) : h.isHt = true := by
  rw [isHt_iff, spent.ibBit]
  decide

theorem htMakeRoom
    (spent : Spent count heap h)
    (free : count < EA_MAX_CAPA) :
    h.htMakeRoom = (.fits, h) := by
  have upper : ibUpperBoundFor (2 ^ 31) = 3 * 2 ^ 29 :=
    ibUpperBoundFor_two_pow 29
  unfold HashData.htMakeRoom
  simp only [spent.entries, spent.nUsed, spent.eaCapa, spent.ibBit,
    shiftOne_of_lt (by decide : 31 < 32), upper, List.length_nil]
  have capa : EA_MAX_CAPA = 2 ^ 31 - 2 := rfl
  rw [if_neg (by decide)]
  split
  · rw [if_neg (by unfold EA_N_RESERVED_INDICES; omega), if_neg (by omega)]
  · rfl

/-- The probe of any code meets an empty bucket and no live one before. -/
theorem vacant (spent : Spent count heap h) (code : Nat)
    (eql : Value → Bool) :
    ∃ b, scanKeys h code eql = .vacant b ∧
      FirstEmpty (probeAt h.mask) h.ib code b := by
  have index := spent.native.representation.indexed spent.isHt
  have coded : ∀ entry ∈ h.entries, eql entry.1 = true →
      (nativeOracle Unit).code heap entry.1 = code := by
    simp [spent.entries]
  have only : h.entries.Pairwise fun first second =>
      eql first.1 = true → eql second.1 = false := by
    simp [spent.entries]
  simpa [spent.entries] using scanKeys_spec index coded only

variable {ω : Type}

/-- Storing an Integer uses a slot. -/
theorem hSet_eq
    (callbacks : Callbacks ω)
    (spent : Spent count heap h)
    (free : count < EA_MAX_CAPA)
    (world : ω) :
    ∃ b, hSet callbacks (.int 0) .nil ⟨h, heap, world⟩ =
      .ok () ⟨h.htPush b (.int 0) .nil, heap, world⟩ := by
  obtain ⟨b, vacant, _⟩ := spent.vacant (mix (intCode 0)).toNat
    (nativeEql heap (.int 0) none)
  have inRange :=
    (spent.native.representation.indexed spent.isHt).inRange
  have probed : probeNative (.int 0) (⟨h, heap, world⟩ : Vm ω) =
      .ok (some (.error b)) ⟨h, heap, world⟩ := by
    have looped := probeNativeLoop_eq inRange (mix (intCode 0)).toNat
      (nativeEql heap (.int 0) none) 0 (h.mask + 1)
    unfold scanKeys at vacant
    rw [vacant] at looped
    simp [probeNative, nativeBytes, nativeCode, looped, storeTarget?, bind,
      EStateM.bind, Exec.get_apply, Exec.orPanic, pure, EStateM.pure]
  have unfull : h.nUsed ≠ EA_MAX_CAPA := by
    rw [spent.nUsed]
    omega
  refine ⟨b, ?_⟩
  simp only [hSet, hSetWith, htSet, htSetFuel, htStore, htStoreNew, hKeyFor,
    modifyTable, bind, EStateM.bind, Exec.get_apply, spent.isHt, if_true,
    spent.htMakeRoom free, set, MonadStateOf.set, EStateM.set, probed, unfull,
    if_false, pure, EStateM.pure, modify, modifyGet, MonadStateOf.modifyGet,
    EStateM.modifyGet]

/-- Removing the only entry keeps the slots used. -/
theorem hDelete_eq
    (callbacks : Callbacks ω)
    (native : NativeTable heap h)
    (only : h.entries = [(.int 0, .nil)])
    (world : ω) :
    ∃ after left, hDelete callbacks (.int 0) ⟨h, heap, world⟩ =
        .ok (some .nil) ⟨after, heap, left⟩ ∧
      after.entries = [] ∧ after.nUsed = h.nUsed ∧
      after.eaCapa = h.eaCapa ∧ after.ibBit = h.ibBit ∧
      after.epoch = h.epoch := by
  have isNat : isNative heap (.int 0) = true := rfl
  have search : ∃ later, hFind callbacks (.int 0) ⟨h, heap, world⟩ =
      .ok (foundAt (lookup (plainSame heap (.int 0)) h.entries))
        ⟨h, heap, later⟩ := native.hFind isNat world
  have first : lookup (plainSame heap (.int 0)) h.entries = some 0 := by
    rw [only]
    rfl
  have held : h.entries[0]? = some (.int 0, .nil) := by
    rw [only]
    rfl
  obtain ⟨left, found⟩ := search
  rw [first] at found
  refine ⟨{ h with
    entries := h.entries.eraseIdx 0
    slots := h.slots.eraseIdx 0
    ib := if h.isHt then h.ib.map (Bucket.vacate 0) else h.ib },
    left, ?_, ?_⟩
  · unfold hDelete
    simp only [bind, EStateM.bind, found, foundAt, Exec.get_apply,
      removeEntry_eq native.representation.slotsLength held, Exec.orPanic, pure,
      EStateM.pure, set, MonadStateOf.set, EStateM.set]
  · simp [only]

/-- Storing an Integer and removing it uses a slot. -/
theorem spend
    (callbacks : Callbacks ω)
    (spent : Spent count heap h)
    (free : count < EA_MAX_CAPA)
    (world : ω) :
    ∃ after middle left, Spent (count + 1) heap after ∧
      hSet callbacks (.int 0) .nil ⟨h, heap, world⟩ = .ok () middle ∧
      hDelete callbacks (.int 0) middle =
        .ok (some .nil) ⟨after, heap, left⟩ := by
  obtain ⟨b, ran⟩ := spent.hSet_eq callbacks free world
  have isNat : isNative heap (.int 0) = true := rfl
  have roomy : h.entries.length < indexLimit := by
    rw [spent.entries]
    exact Nat.mul_pos (by decide) (Nat.two_pow_pos 29)
  have known : ∃ vm, hSet callbacks (.int 0) .nil ⟨h, heap, world⟩ =
      .ok () vm ∧ heap <+: vm.heap ∧ NativeTable vm.heap vm.table ∧
        PlainMachine.store ⟨[], heap⟩ (.int 0) .nil h.entries =
          (vm.table.entries, vm.heap) :=
    spent.native.hSet isNat roomy .nil world
  obtain ⟨_, sameRun, _, stored, _⟩ := known
  rw [ran] at sameRun
  cases sameRun
  have only : (h.htPush b (.int 0) .nil).entries = [(.int 0, .nil)] := by
    rw [htPush_entries, spent.entries]
    rfl
  obtain ⟨after, left, deleted, entries, used, capa, width, epoch⟩ :=
    hDelete_eq callbacks stored only world
  have known : ∃ vm, hDelete callbacks (.int 0)
      ⟨h.htPush b (.int 0) .nil, heap, world⟩ =
        .ok ((lookup (plainSame heap (.int 0))
          (h.htPush b (.int 0) .nil).entries).bind fun p =>
            (h.htPush b (.int 0) .nil).entries[p]?.map (·.2)) vm ∧
      vm.heap = heap ∧ NativeTable heap vm.table ∧
      vm.table.entries = erase (plainSame heap (.int 0))
        (h.htPush b (.int 0) .nil).entries := stored.hDelete isNat world
  obtain ⟨_, sameDelete, _, native, _⟩ := known
  rw [deleted] at sameDelete
  injection sameDelete with _ sameState
  subst sameState
  have next : u32 (count + 1) = count + 1 := by
    refine u32_of_lt ?_
    have : EA_MAX_CAPA + 1 < 2 ^ 32 := by decide
    omega
  have pushed : (h.htPush b (.int 0) .nil).nUsed = count + 1 ∧
      (h.htPush b (.int 0) .nil).eaCapa = EA_MAX_CAPA ∧
      (h.htPush b (.int 0) .nil).ibBit = 31 ∧
      (h.htPush b (.int 0) .nil).epoch = 0 := by
    have room : ¬h.nUsed = h.eaCapa := by
      rw [spent.nUsed, spent.eaCapa]
      omega
    unfold HashData.htPush
    rw [if_neg room]
    refine ⟨?_, spent.eaCapa, spent.ibBit, spent.epoch⟩
    dsimp only
    rw [spent.nUsed, next]
  exact ⟨after, _, left, ⟨native, entries, used.trans pushed.1,
    capa.trans pushed.2.1, width.trans pushed.2.2.1,
    epoch.trans pushed.2.2.2⟩, ran, deleted⟩

/-- A new table of the largest capacity is spent to no slot. -/
theorem new (heap : Heap) :
    Spent 0 heap (HashData.withCapa EA_MAX_CAPA) := by
  have width : ibBitFor EA_MAX_CAPA = 31 := by decide
  have table : HashData.withCapa EA_MAX_CAPA =
      HashData.htReset { HashData.initial with eaCapa := EA_MAX_CAPA } 31 := by
    unfold HashData.withCapa
    rw [if_neg (by decide)]
    simp only [Nat.min_self, width]
    rw [if_pos (by decide)]
  have entries : (HashData.withCapa EA_MAX_CAPA).entries = [] := by
    rw [table]
    rfl
  refine ⟨⟨representation_withCapa _ _, ?_, ?_, ?_⟩, entries, ?_, ?_, ?_, ?_⟩
  · rw [entries]
    exact List.Pairwise.nil
  · simp [entries]
  · simp [entries]
  · rw [table]
    rfl
  · rw [table]
    rfl
  · rw [table]
    rfl
  · rw [table]
    rfl

/-- Any number of slots up to the largest capacity can be spent. -/
theorem reached
    (callbacks : Callbacks Unit)
    (heap : Heap)
    (bound : count ≤ EA_MAX_CAPA) :
    ∃ h, Spent count heap h ∧ Reached callbacks ⟨h, heap, ()⟩ := by
  induction count with
  | zero => exact ⟨_, Spent.new heap, .new EA_MAX_CAPA heap ()⟩
  | succ count ih =>
      obtain ⟨h, spent, reached⟩ := ih (by omega)
      obtain ⟨after, middle, left, next, stored, deleted⟩ :=
        spent.spend callbacks (by omega) ()
      refine ⟨after, next, ?_⟩
      have there : Reached callbacks middle :=
        reached.returned (.perform (.set (.int 0) .nil)) stored
      refine there.returned (.perform (.delete (.int 0))) ?_
      show ((fun _ => ()) <$> hDelete callbacks (.int 0)) middle = _
      simp only [Functor.map, EStateM.map, deleted]

/-- The bucket of a store is the first empty one where no bucket is live. -/
theorem htStoreLoop_eq
    (callbacks : Callbacks ω)
    (key value : Value)
    (mask : Nat)
    (dead : ∀ b p : Nat, vm.table.ib[b]? ≠ some (.live p))
    (meets : ∃ ahead < left,
      vm.table.ib[probeAt mask code (step + ahead)]? = some .empty) :
    ∃ b, htStoreLoop callbacks key value code mask step left vm =
      htStoreNew b key value vm := by
  induction left generalizing step with
  | zero =>
      obtain ⟨_, none, _⟩ := meets
      exact absurd none (Nat.not_lt_zero _)
  | succ left ih =>
      unfold htStoreLoop
      simp only [bind, EStateM.bind, Exec.get_apply]
      cases met : vm.table.bucket (probeAt mask code step) with
      | empty => exact ⟨_, rfl⟩
      | deleted =>
          obtain ⟨ahead, bound, empty⟩ := meets
          cases ahead with
          | zero =>
              unfold HashData.bucket at met
              rw [Nat.add_zero] at empty
              rw [empty] at met
              cases met
          | succ ahead =>
              refine ih ⟨ahead, by omega, ?_⟩
              rw [Nat.add_right_comm]
              exact empty
      | live p =>
          unfold HashData.bucket at met
          cases there : vm.table.ib[probeAt mask code step]? with
          | none =>
              rw [there] at met
              cases met
          | some bucket =>
              rw [there, Option.getD_some] at met
              exact absurd (met ▸ there) (dead _ _)

theorem check
    (spent : Spent count heap h) :
    h.check = some ⟨31, EA_MAX_CAPA, 0, 0, none⟩ := by
  unfold HashData.check
  simp only [spent.isHt, if_true, spent.ibBit, spent.eaCapa, spent.entries,
    spent.epoch, List.length_nil]
  rfl

/-- Asking an object for its hash spends a slot. -/
theorem hCode_eq
    (spent : Spent count plainObject h)
    (free : count < EA_MAX_CAPA) :
    ∃ code after, Spent (count + 1) plainObject after ∧
      hCode (restlessKeys.callbacks 1) (.obj ⟨0⟩) ⟨h, plainObject, ()⟩ =
        .ok code ⟨after, plainObject, ()⟩ := by
  obtain ⟨after, middle, left, next, stored, deleted⟩ :=
    spent.spend (restlessKeys.callbacks 0) free ()
  have asked : (restlessKeys.callbacks 1).callHash (.obj ⟨0⟩)
      ⟨h, plainObject, ()⟩ = .ok (.int 0) ⟨after, plainObject, ()⟩ := by
    show (restlessKeys.hash ⟨h, plainObject, ()⟩ (.obj ⟨0⟩)).run
      (restlessKeys.callbacks 0) ⟨h, plainObject, ()⟩ = _
    have start : restlessKeys.hash ⟨h, plainObject, ()⟩ (.obj ⟨0⟩) =
        ⟨[.set (.int 0) .nil, .delete (.int 0)], .int 0, plainObject, ()⟩ := rfl
    rw [start]
    simp only [Script.run, runCommands, Command.run, bind, EStateM.bind,
      modify, modifyGet, MonadStateOf.modifyGet, EStateM.modifyGet, stored,
      Functor.map, EStateM.map, deleted, pure, EStateM.pure]
  have text : Heap.string plainObject ⟨0⟩ = none := rfl
  refine ⟨(mix (Heap.vtype plainObject ⟨0⟩ ^^^ hashNumber (.int 0))).toNat,
    after, next, ?_⟩
  simp only [hCode, hCheck, hVerify, bind, EStateM.bind, Exec.get_apply, text,
    spent.check, Exec.orPanic, asked, next.check, HCheck.same_self, if_true,
    pure, EStateM.pure]

/-- A store whose key spends the last slot while it is asked is refused. -/
theorem refused
    (spent : Spent (EA_MAX_CAPA - 1) plainObject h) :
    ∃ after, hSet (restlessKeys.callbacks 1) (.obj ⟨0⟩) .nil
      ⟨h, plainObject, ()⟩ = .error (.raised .hashTooBig) after := by
  have free : EA_MAX_CAPA - 1 < EA_MAX_CAPA := by decide
  obtain ⟨code, after, next, coded⟩ := spent.hCode_eq free
  have full : after.nUsed = EA_MAX_CAPA := next.nUsed
  have index := next.native.representation.indexed next.isHt
  have dead : ∀ b p : Nat, after.ib[b]? ≠ some (.live p) := by
    intro b p held
    have bound := index.indexes.bounded b p held
    rw [next.entries] at bound
    exact absurd bound (Nat.not_lt_zero _)
  obtain ⟨_, _, step, bound, met, empty, _⟩ := next.vacant code fun _ => false
  have meets : ∃ ahead < after.mask + 1,
      after.ib[probeAt after.mask code (0 + ahead)]? = some .empty := by
    refine ⟨step, ?_, ?_⟩
    · rw [index.mask_succ]
      exact bound
    · rw [Nat.zero_add, met]
      exact empty
  have search : ∃ b, htStoreLoop (restlessKeys.callbacks 1) (.obj ⟨0⟩) .nil
      code after.mask 0 (after.mask + 1) ⟨after, plainObject, ()⟩ =
        htStoreNew b (.obj ⟨0⟩) .nil ⟨after, plainObject, ()⟩ :=
    Spent.htStoreLoop_eq _ _ _ _ dead meets
  obtain ⟨b, looped⟩ := search
  have probed : probeNative (.obj ⟨0⟩) (⟨h, plainObject, ()⟩ : Vm Unit) =
      .ok none ⟨h, plainObject, ()⟩ := rfl
  refine ⟨⟨after, plainObject, ()⟩, ?_⟩
  simp only [hSet, hSetWith, htSet, htSetFuel, htStore, bind, EStateM.bind,
    Exec.get_apply, spent.isHt, if_true, spent.htMakeRoom free, set,
    MonadStateOf.set, EStateM.set, probed, coded, next.isHt, looped, htStoreNew,
    full]
  rfl

end Spent

/-- A reached table of the largest capacity refuses a store with `hash too
big`. -/
theorem restless_store_refused :
    ∃ vm after, Reached (restlessKeys.callbacks 1) vm ∧
      hSet (restlessKeys.callbacks 1) (.obj ⟨0⟩) .nil vm =
        .error (.raised .hashTooBig) after ∧
      VmError.hashTooBig ≠ .hashModified := by
  obtain ⟨h, spent, reached⟩ :=
    Spent.reached (restlessKeys.callbacks 1) plainObject
      (Nat.sub_le EA_MAX_CAPA 1)
  obtain ⟨after, refused⟩ := spent.refused
  exact ⟨_, after, reached, refused, by decide⟩

end SabiRuby.HashTable
