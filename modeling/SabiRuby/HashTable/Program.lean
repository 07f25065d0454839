import SabiRuby.HashTable.Rehash
import SabiRuby.HashTable.Remove
import SabiRuby.HashTable.SetKey

/-!
# Programs over tables with native keys

A program works on any number of tables over one heap.  Beside the machine that
runs the operations of the source stands the plain machine, whose tables are
association lists.  As long as no store meets a table with as many entries as
the widest index has room for, the two machines go through the same states and
give the same answers.
-/

namespace SabiRuby.HashTable

open Library AssociationList

/-- The tables of a program, its heap and everything else. -/
structure Machine (ω : Type) where
  tables : List HashData
  heap : Heap
  world : ω

/-- One step of a program. -/
inductive Operation
  /-- `HashData::default`. -/
  | new
  | withCapa (capa : Nat)
  | set (table : Nat) (key value : Value)
  | find (table : Nat) (key : Value)
  | delete (table : Nat) (key : Value)
  | shift (table : Nat)
  | clear (table : Nat)
  | replaceTable (table other : Nat)
  | removeNilValues (table : Nat)
  | rehash (table : Nat)
  /-- The program does something else to the heap. -/
  | elsewhere (heap : Heap)

/-- What an operation answers with. -/
inductive Answer
  | done
  | found (position : Option Nat)
  | value (value : Option Value)
  | entry (entry : Option Entry)
  | removed (count : Nat)
  deriving DecidableEq, Repr

/-- The position a search found. -/
def Found.position? : Found → Option Nat
  | .atEntry p => some p
  | .missing => none

namespace Machine

variable {ω : Type} (callbacks : Callbacks ω)

/-- Run an operation on one table; `none` if there is no such table, or if the
operation raises or goes wrong. -/
def on (machine : Machine ω) (table : Nat)
    (command : Exec VmError (Vm ω) α) (answer : α → Answer) :
    Option (Answer × Machine ω) :=
  match machine.tables[table]? with
  | none => none
  | some h =>
      match command ⟨h, machine.heap, machine.world⟩ with
      | .error _ _ => none
      | .ok value vm => some (answer value,
          { tables := machine.tables.set table vm.table, heap := vm.heap,
            world := vm.world })

/-- `removeNilValues` on the table of a machine. -/
def removeNil : Exec VmError (Vm ω) Nat := do
  let vm ← get
  let (count, table) ← Exec.orPanic vm.table.removeNilValues
  set { vm with table := table }
  pure count

/-- One operation of the source. -/
def step (machine : Machine ω) : Operation → Option (Answer × Machine ω)
  | .new => some (.done,
      { machine with tables := machine.tables ++ [HashData.initial] })
  | .withCapa capa => some (.done,
      { machine with tables := machine.tables ++ [HashData.withCapa capa] })
  | .set table key value =>
      machine.on table (hSet callbacks key value) fun _ => .done
  | .find table key =>
      machine.on table (hFind callbacks key) fun found =>
        .found found.position?
  | .delete table key => machine.on table (hDelete callbacks key) .value
  | .shift table => machine.on table (hShift callbacks) .entry
  | .clear table =>
      machine.on table (modifyTable HashData.clear) fun _ => .done
  | .replaceTable table other =>
      match machine.tables[other]? with
      | none => none
      | some other =>
          machine.on table (modifyTable fun h => h.replaceTable other)
            fun _ => .done
  | .removeNilValues table => machine.on table removeNil .removed
  | .rehash table => machine.on table (hRehash callbacks) fun _ => .done
  | .elsewhere heap => some (.done, { machine with heap := heap })

/-- The answers of the operations of a program. -/
def run (machine : Machine ω) :
    List Operation → Option (List Answer × Machine ω)
  | [] => some ([], machine)
  | operation :: operations => do
      let (answer, machine) ← machine.step callbacks operation
      let (answers, machine) ← machine.run operations
      pure (answer :: answers, machine)

end Machine

/-! ## The plain machine -/

/-- A stored key is equal to a key under `nativeEql`. -/
def plainSame (heap : Heap) (key stored : Value) : Bool :=
  match nativeBytes heap key with
  | none => false
  | some bytes => nativeEql heap key bytes stored

/-- Association lists over a heap. -/
structure PlainMachine where
  tables : List (List Entry)
  heap : Heap
  deriving DecidableEq, Repr

namespace PlainMachine

/-- Change one list. -/
def on (machine : PlainMachine) (table : Nat)
    (change : List Entry → Answer × List Entry × Heap) :
    Option (Answer × PlainMachine) :=
  match machine.tables[table]? with
  | none => none
  | some entries =>
      let (answer, entries, heap) := change entries
      some (answer,
        { tables := machine.tables.set table entries, heap := heap })

/-- Overwrite in place or append at the end, an unfrozen String as a frozen
copy. -/
def store (machine : PlainMachine) (key value : Value)
    (entries : List Entry) : List Entry × Heap :=
  match lookup (plainSame machine.heap key) entries with
  | some p => (overwrite p value entries, machine.heap)
  | none =>
      let (copy, heap) := storedKey machine.heap key
      (entries ++ [(copy, value)], heap)

/-- One operation on the lists. -/
def step (machine : PlainMachine) :
    Operation → Option (Answer × PlainMachine)
  | .new => some (.done, { machine with tables := machine.tables ++ [[]] })
  | .withCapa _ =>
      some (.done, { machine with tables := machine.tables ++ [[]] })
  | .set table key value =>
      machine.on table fun entries =>
        (.done, machine.store key value entries)
  | .find table key =>
      machine.on table fun entries =>
        (.found (lookup (plainSame machine.heap key) entries), entries,
          machine.heap)
  | .delete table key =>
      machine.on table fun entries =>
        (.value ((lookup (plainSame machine.heap key) entries).bind fun p =>
          entries[p]?.map (·.2)),
          erase (plainSame machine.heap key) entries, machine.heap)
  | .shift table =>
      machine.on table fun entries =>
        (.entry entries.head?, entries.tail, machine.heap)
  | .clear table =>
      machine.on table fun _ => (.done, [], machine.heap)
  | .replaceTable table other =>
      match machine.tables[other]? with
      | none => none
      | some other =>
          machine.on table fun _ => (.done, other, machine.heap)
  | .removeNilValues table =>
      machine.on table fun entries =>
        (.removed (entries.countP fun entry => entry.2.isNil),
          entries.filter (fun entry => !entry.2.isNil), machine.heap)
  | .rehash table =>
      machine.on table fun entries =>
        (.done, restore (plainSame machine.heap) entries, machine.heap)
  | .elsewhere heap => some (.done, { machine with heap := heap })

/-- The answers of the operations of a program. -/
def run (machine : PlainMachine) :
    List Operation → Option (List Answer × PlainMachine)
  | [] => some ([], machine)
  | operation :: operations => do
      let (answer, machine) ← machine.step operation
      let (answers, machine) ← machine.run operations
      pure (answer :: answers, machine)

/-- The condition holds of every operation and the lists it meets. -/
def Along (condition : PlainMachine → Operation → Prop)
    (machine : PlainMachine) : List Operation → Prop
  | [] => True
  | operation :: operations =>
      condition machine operation ∧
        ∀ answer after, machine.step operation = some (answer, after) →
          Along condition after operations

theorem along_cons
    (holds : condition machine operation)
    (stepped : machine.step operation = some (answer, after))
    (along : Along condition after operations) :
    Along condition machine (operation :: operations) := by
  refine ⟨holds, ?_⟩
  intro other final same
  rw [stepped] at same
  cases same
  exact along

/-- The operation names tables that exist and native keys, and what the program
does elsewhere leaves the frozen keys of the lists as they are. -/
def Legal (machine : PlainMachine) : Operation → Prop
  | .new => True
  | .withCapa _ => True
  | .set table key _ =>
      table < machine.tables.length ∧ isNative machine.heap key = true
  | .find table key =>
      table < machine.tables.length ∧ isNative machine.heap key = true
  | .delete table key =>
      table < machine.tables.length ∧ isNative machine.heap key = true
  | .shift table => table < machine.tables.length
  | .clear table => table < machine.tables.length
  | .replaceTable table other =>
      table < machine.tables.length ∧ other < machine.tables.length
  | .removeNilValues table => table < machine.tables.length
  | .rehash table => table < machine.tables.length
  | .elsewhere heap => ∀ entries ∈ machine.tables, ∀ entry ∈ entries,
      ∀ object, entry.1 = .obj object →
        machine.heap.isFrozen object = true →
          heap[object.index]? = machine.heap[object.index]?

/-- A store meets a list with fewer entries than the widest index has room
for. -/
def Roomy (machine : PlainMachine) : Operation → Prop
  | .set table _ _ => ∀ entries, machine.tables[table]? = some entries →
      entries.length < indexLimit
  | _ => True

end PlainMachine

/-! ## The oracle of native keys -/

/-- Native keys are asked nothing. -/
def nativeOracle (ω : Type) : KeyOracle ω where
  representative := id
  customCode := fun _ => 0
  basic := fun _ => true
  calls := fun _ => 0
  raiseAt := none

/-- Native keys answer consistently whatever Ruby does. -/
theorem native_consistent (callbacks : Callbacks ω) (heap : Heap) :
    Consistent callbacks (nativeOracle ω) heap
      (fun key => isNative heap key = true) where
  valid := fun _ native => validKey_of_isNative native
  hash := by
    intro vm object _ native text
    simp [isNative_obj, text] at native
  nilCode := by simp [isNative, nativeBytes]
  falseCode := by simp [isNative, nativeBytes]
  trueCode := by simp [isNative, nativeBytes]
  eql := by
    intro vm key stored _ native custom
    simp [native] at custom
  eqlBasic := by
    intro vm key native custom
    simp [native] at custom
  sameValue := by
    intro vm key stored _ native custom
    simp [native] at custom

theorem plainSame_eq
    (ω : Type)
    (native : isNative heap key = true) :
    plainSame heap key = (nativeOracle ω).same heap key := by
  funext stored
  obtain ⟨bytes, held⟩ := Option.isSome_iff_exists.mp native
  simp only [plainSame, held]
  exact nativeEql_eq_same held stored

/-- A table that the machine reaches: the representation holds, and the keys are
native, distinct, and stored as they are. -/
structure NativeTable (heap : Heap) (h : HashData) : Prop where
  representation : Representation ((nativeOracle Unit).code heap) h
  distinct : Distinct ((nativeOracle Unit).content heap) h.entries
  native : ∀ entry ∈ h.entries, isNative heap entry.1 = true
  /-- No key is an unfrozen String. -/
  frozen : ∀ entry ∈ h.entries, storedKey heap entry.1 = (entry.1, heap)

theorem NativeTable.sound
    (table : NativeTable heap h) (callbacks : Callbacks ω) (world : ω) :
    Sound callbacks (nativeOracle ω) (fun key => isNative heap key = true)
      ⟨h, heap, world⟩ :=
  ⟨native_consistent callbacks heap, table.representation, table.distinct,
    table.native⟩

/-- What is sound after an operation that stored nothing is a native table. -/
theorem NativeTable.of_sound
    {vm : Vm ω}
    (table : NativeTable heap h)
    (sameHeap : vm.heap = heap)
    (sound : Sound callbacks (nativeOracle ω) keys vm)
    (fewer : ∀ entry ∈ vm.table.entries, ∃ old ∈ h.entries, old.1 = entry.1) :
    NativeTable heap vm.table := by
  subst sameHeap
  refine ⟨sound.representation, sound.distinct, ?_, ?_⟩
  · intro entry member
    obtain ⟨old, oldMember, same⟩ := fewer entry member
    exact same ▸ table.native old oldMember
  · intro entry member
    obtain ⟨old, oldMember, same⟩ := fewer entry member
    exact same ▸ table.frozen old oldMember

end SabiRuby.HashTable
