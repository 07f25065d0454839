import SabiRuby.HashTable.NativeRuns
import SabiRuby.SetTable.Invariant

/-!
# Runs on a Set

A program adds and deletes elements of one Set, asks for them, and does other
things with the heap.  Beside the Set stands the list of its elements in the
order they were added.  As long as no element is added to a Set that is as full
as the widest table allows, both give the same answers and hold the same
elements.
-/

namespace SabiRuby.SetTable

open Library HashTable

/-- One step of a program on a Set. -/
inductive SetOperation
  | add (key : Value)
  | delete (key : Value)
  | contains (key : Value)
  /-- The program does something else to the heap. -/
  | elsewhere (heap : Heap)

section Run

variable {ω : Type} (callbacks : Callbacks ω)

/-- One operation of the source, and what it answers. -/
def setStep : SetOperation → Exec VmError (Vm ω) (Option Bool)
  | .add key => do
      setInsert callbacks (.set false) key
      pure none
  | .delete key => do
      let removed ← setRemove callbacks (.set false) key
      pure (some removed)
  | .contains key => do
      let found ← setContains callbacks (.set false) key
      pure (some found)
  | .elsewhere heap => do
      modify fun vm => { vm with heap := heap }
      pure none

/-- The answers of the operations of a program. -/
def setRun : List SetOperation → Exec VmError (Vm ω) (List (Option Bool))
  | [] => pure []
  | operation :: operations => do
      let answer ← setStep callbacks operation
      let answers ← setRun operations
      pure (answer :: answers)

end Run

/-- The elements of a Set in the order they were added, over a heap. -/
structure PlainSet where
  elements : List Value
  heap : Heap
  /-- How many elements were added since the Set was made. -/
  added : Nat
  deriving DecidableEq, Repr

namespace PlainSet

/-- An element is the same as a value. -/
def holds (set : PlainSet) (key : Value) : Bool :=
  set.elements.any fun element => ksetSame set.heap element key

/-- One operation on the list. -/
def step (set : PlainSet) : SetOperation → Option Bool × PlainSet
  | .add key =>
      if set.holds key then (none, set)
      else
        let (copy, heap) := storedKey set.heap key
        (none,
          { elements := set.elements ++ [copy]
            heap := heap
            added := set.added + 1 })
  | .delete key =>
      (some (set.holds key), { set with
        elements := set.elements.eraseP fun element =>
          ksetSame set.heap element key })
  | .contains key => (some (set.holds key), set)
  | .elsewhere heap => (none, { set with heap := heap })

theorem step_add_present
    {set : PlainSet}
    (present : set.holds key = true) :
    set.step (.add key) = (none, set) := by
  simp only [step, present, if_true]

theorem step_add_absent
    {set : PlainSet}
    (absent : set.holds key = false) :
    set.step (.add key) = (none,
      { elements := set.elements ++ [(storedKey set.heap key).1]
        heap := (storedKey set.heap key).2
        added := set.added + 1 }) := by
  simp only [step, absent, Bool.false_eq_true, if_false]

/-- The answers of the operations of a program. -/
def run (set : PlainSet) :
    List SetOperation → List (Option Bool) × PlainSet
  | [] => ([], set)
  | operation :: operations =>
      let (answer, middle) := set.step operation
      let (answers, after) := middle.run operations
      (answer :: answers, after)

/-- The condition holds of every operation and the list it meets. -/
def Along (condition : PlainSet → SetOperation → Prop) (set : PlainSet) :
    List SetOperation → Prop
  | [] => True
  | operation :: operations =>
      condition set operation ∧
        Along condition (set.step operation).2 operations

/-- The operation is about a native element, and what the program does elsewhere
leaves the frozen elements of the list as they are. -/
def Legal (set : PlainSet) : SetOperation → Prop
  | .add key => isNative set.heap key = true
  | .delete key => isNative set.heap key = true
  | .contains key => isNative set.heap key = true
  | .elsewhere heap => ∀ element ∈ set.elements, ∀ object,
      element = .obj object → set.heap.isFrozen object = true →
        heap[object.index]? = set.heap[object.index]?

/-- A new element meets a list with fewer elements than the widest table has
room for. -/
def Roomy (set : PlainSet) : SetOperation → Prop
  | .add key => set.holds key = true ∨ set.elements.length < elementLimit
  | _ => True

end PlainSet

/-- The Set and the list hold the same elements over the same heap.  The slots
count the elements that were ever added, and ascend until the count wraps. -/
structure Agrees (vm : Vm ω) (plain : PlainSet) : Prop where
  heap : vm.heap = plain.heap
  entries : vm.table.entries =
    plain.elements.map fun element => (element, .trueValue)
  set : NativeSet vm.heap vm.table
  nUsed : vm.table.nUsed = u32 plain.added
  ascending : plain.added < 2 ^ 32 → vm.table.slots.Pairwise (· < ·)
  slotsBound : plain.added < 2 ^ 32 → ∀ slot ∈ vm.table.slots,
    slot < vm.table.nUsed

section Steps

variable {ω : Type} {vm : Vm ω} {plain : PlainSet}

section

variable (agrees : Agrees vm plain)
include agrees

/-- The position of an element in the table is the one in the list. -/
theorem Agrees.position_eq
    (key : Value) :
    position vm.heap key vm.table.entries =
      plain.elements.findIdx? fun element =>
        ksetSame plain.heap element key := by
  unfold position
  rw [agrees.entries, agrees.heap, List.findIdx?_map]
  rfl

theorem Agrees.position_isSome
    (key : Value) :
    (position vm.heap key vm.table.entries).isSome = plain.holds key := by
  rw [agrees.position_eq, List.findIdx?_isSome]
  rfl

/-- Adding a new element leads to the list with it at its end. -/
theorem Agrees.added
    (added : Added (storedKey vm.heap key).2 vm.table (storedKey vm.heap key).1
      after) :
    Agrees { vm with table := after, heap := (storedKey vm.heap key).2 }
      { elements := plain.elements ++ [(storedKey plain.heap key).1]
        heap := (storedKey plain.heap key).2
        added := plain.added + 1 } := by
  refine ⟨?_, ?_, added.set, ?_, ?_, ?_⟩
  · rw [agrees.heap]
  · rw [added.entries, agrees.entries, agrees.heap, List.map_append]
    rfl
  · rw [added.nUsed, agrees.nUsed]
    unfold u32
    rw [Nat.mod_add_mod]
  · intro few
    have before : plain.added < 2 ^ 32 := Nat.lt_of_succ_lt few
    show after.slots.Pairwise (· < ·)
    rw [added.slots, List.pairwise_append]
    refine ⟨agrees.ascending before, List.pairwise_singleton _ _, ?_⟩
    intro slot member last new
    rw [List.mem_singleton.mp new]
    exact agrees.slotsBound before slot member
  · intro few slot member
    have before : plain.added < 2 ^ 32 := Nat.lt_of_succ_lt few
    have small : u32 (vm.table.nUsed + 1) = vm.table.nUsed + 1 := by
      rw [agrees.nUsed, u32_of_lt before]
      exact u32_of_lt few
    show slot < after.nUsed
    rw [added.nUsed, small]
    rw [show _ = after.slots from rfl, added.slots] at member
    rcases List.mem_append.mp member with old | new
    · exact Nat.lt_succ_of_lt (agrees.slotsBound before slot old)
    · rw [List.mem_singleton.mp new]
      exact Nat.lt_succ_self _

/-- Deleting an element leads to the list without it. -/
theorem Agrees.removed
    (removed : Removed vm.heap vm.table p after)
    (first : plain.elements.findIdx? (fun element =>
      ksetSame plain.heap element key) = some p) :
    Agrees { vm with table := after }
      { plain with
        elements := plain.elements.eraseP fun element =>
          ksetSame plain.heap element key } := by
  refine ⟨agrees.heap, ?_, removed.set, ?_, ?_, ?_⟩
  · have erased : plain.elements.eraseP (fun element =>
        ksetSame plain.heap element key) = plain.elements.eraseIdx p := by
      rw [List.eraseP_eq_eraseIdx, first]
    rw [removed.entries, agrees.entries, erased, List.eraseIdx_map]
  · rw [removed.nUsed, agrees.nUsed]
  · intro few
    show after.slots.Pairwise (· < ·)
    rw [removed.slots]
    exact (agrees.ascending few).sublist (List.eraseIdx_sublist _ _)
  · intro few slot member
    rw [show _ = after.slots from rfl, removed.slots] at member
    show slot < after.nUsed
    rw [removed.nUsed]
    exact agrees.slotsBound few slot (List.mem_of_mem_eraseIdx member)

/-- What the program does elsewhere leaves the Set and the list. -/
theorem Agrees.elsewhere
    {heap : Heap}
    (legal : plain.Legal (.elsewhere heap)) :
    Agrees { vm with heap := heap } { plain with heap := heap } := by
  refine ⟨rfl, agrees.entries, ?_, agrees.nUsed, agrees.ascending,
    agrees.slotsBound⟩
  refine agrees.set.of_agree ?_
  intro entry member object key
  have held := agrees.set.held entry member
  rw [key] at held
  have frozen := isFrozen_of_storedKey held.native held.frozen
  rw [agrees.entries] at member
  obtain ⟨element, elementMember, rfl⟩ := List.mem_map.mp member
  rw [agrees.heap] at frozen ⊢
  exact legal element elementMember object key frozen

end

/-- One legal operation that has room gives the answer of the list and keeps the
agreement. -/
theorem setStep_agrees
    (callbacks : Callbacks ω)
    (agrees : Agrees vm plain)
    (legal : plain.Legal operation)
    (roomy : plain.Roomy operation) :
    ∃ after, setStep callbacks operation vm =
        .ok (plain.step operation).1 after ∧
      Agrees after (plain.step operation).2 := by
  cases operation with
  | add key =>
      have native : isNative vm.heap key = true := agrees.heap ▸ legal
      have there := agrees.position_isSome key
      cases found : position vm.heap key vm.table.entries with
      | some p =>
          rw [found] at there
          rw [PlainSet.step_add_present there.symm]
          refine ⟨vm, ?_, agrees⟩
          simp only [setStep, bind, EStateM.bind,
            setInsert_present callbacks agrees.set native found]
          rfl
      | none =>
          rw [found] at there
          rw [PlainSet.step_add_absent there.symm]
          have few : vm.table.entries.length < elementLimit := by
            rcases roomy with held | few
            · rw [← there] at held
              cases held
            · rw [agrees.entries, List.length_map]
              exact few
          obtain ⟨after, ran, added⟩ :=
            setInsert_absent callbacks agrees.set native found few
          refine ⟨_, ?_, agrees.added added⟩
          simp only [setStep, bind, EStateM.bind, ran]
          rfl
  | delete key =>
      have native : isNative vm.heap key = true := agrees.heap ▸ legal
      have there := agrees.position_isSome key
      have first := agrees.position_eq key
      rw [show plain.step (.delete key) = (some (plain.holds key), { plain with
        elements := plain.elements.eraseP fun element =>
          ksetSame plain.heap element key }) from rfl]
      cases found : position vm.heap key vm.table.entries with
      | some p =>
          rw [found] at there first
          rw [← there]
          obtain ⟨after, ran, removed⟩ :=
            setRemove_present callbacks agrees.set native found false
          refine ⟨_, ?_, agrees.removed removed first.symm⟩
          simp only [setStep, bind, EStateM.bind, ran]
          rfl
      | none =>
          rw [found] at there first
          rw [← there]
          have same : plain.elements.eraseP (fun element =>
              ksetSame plain.heap element key) = plain.elements := by
            rw [List.eraseP_eq_eraseIdx, ← first]
          refine ⟨vm, ?_, ?_⟩
          · simp only [setStep, bind, EStateM.bind,
              setRemove_absent callbacks agrees.set native found false]
            rfl
          · rw [same]
            exact agrees
  | contains key =>
      have native : isNative vm.heap key = true := agrees.heap ▸ legal
      refine ⟨vm, ?_, agrees⟩
      simp only [setStep, bind, EStateM.bind,
        setContains_eq callbacks agrees.set native false,
        agrees.position_isSome]
      rfl
  | elsewhere heap => exact ⟨_, rfl, agrees.elsewhere legal⟩

/-- A legal run with room gives the answers of the list and keeps the
agreement. -/
theorem setRun_agrees
    (callbacks : Callbacks ω)
    (operations : List SetOperation)
    (agrees : Agrees vm plain)
    (legal : plain.Along PlainSet.Legal operations)
    (roomy : plain.Along PlainSet.Roomy operations) :
    ∃ after, setRun callbacks operations vm =
        .ok (plain.run operations).1 after ∧
      Agrees after (plain.run operations).2 := by
  induction operations generalizing vm plain with
  | nil => exact ⟨vm, rfl, agrees⟩
  | cons operation operations ih =>
      obtain ⟨middle, stepped, same⟩ :=
        setStep_agrees callbacks agrees legal.1 roomy.1
      obtain ⟨after, ran, matched⟩ :=
        ih same legal.2 roomy.2
      refine ⟨after, ?_, matched⟩
      simp only [setRun, bind, EStateM.bind, stepped, ran]
      rfl

/-! ## What the list holds -/

end Steps

/-! ## Every run with room -/

/-- What the storage of a Set says about its elements. -/
structure SetInvariant (plain : PlainSet) (h : HashData) : Prop where
  /-- No element is listed twice. -/
  distinct : h.entries.Pairwise fun earlier later =>
    ksetSame plain.heap earlier.1 later.1 = false
  slotsLength : h.slots.length = h.entries.length
  /-- Every position is in exactly one bucket. -/
  held : h.isHt = true → ∀ p < h.entries.length,
    ∃ bucket : Nat, h.ib[bucket]? = some (.live p) ∧
      ∀ other : Nat, h.ib[other]? = some (.live p) → other = bucket
  /-- No bucket holds another position. -/
  bounded : h.isHt = true → ∀ bucket p : Nat,
    h.ib[bucket]? = some (.live p) → p < h.entries.length
  /-- There are no more positions than buckets of the widest table. -/
  positions : h.entries.length ≤ elementLimit
  /-- Until the count of the slots wraps it is the number of added elements, and
  the slots ascend below it. -/
  counted : plain.added < 2 ^ 32 → h.nUsed = plain.added ∧
    h.slots.Pairwise (· < ·) ∧ ∀ slot ∈ h.slots, slot < h.nUsed

theorem Agrees.setInvariant
    (agrees : Agrees vm plain) : SetInvariant plain vm.table where
  distinct := agrees.heap ▸ agrees.set.distinct
  slotsLength := agrees.set.slotsLength
  held := by
    intro hasTable p bound
    have index := agrees.set.indexed hasTable
    have coded : (vm.table.entries.map fun entry =>
        elementCode vm.heap entry.1)[p]? =
          some (elementCode vm.heap vm.table.entries[p].1) := by
      rw [List.getElem?_map, List.getElem?_eq_getElem bound, Option.map_some]
    obtain ⟨step, _, there, _⟩ := index.indexes.reached p _ coded
    exact ⟨_, there, fun other held => index.indexes.unique _ _ p held there⟩
  bounded := by
    intro hasTable bucket p held
    simpa using (agrees.set.indexed hasTable).indexes.bounded bucket p held
  positions := by
    cases hasTable : vm.table.isHt with
    | false =>
        have few := agrees.set.small hasTable
        unfold KHASH_SMALL_LIMIT at few
        unfold elementLimit
        omega
    | true =>
        have index := agrees.set.indexed hasTable
        have load := index.load
        have width := Nat.pow_le_pow_right Nat.two_pos index.widthHigh
        unfold elementLimit
        omega
  counted := by
    intro few
    refine ⟨?_, agrees.ascending few, agrees.slotsBound few⟩
    rw [agrees.nUsed, u32_of_lt few]

theorem agrees_initial (heap : Heap) (world : ω) :
    Agrees ⟨HashData.initial, heap, world⟩ ⟨[], heap, 0⟩ where
  heap := rfl
  entries := rfl
  set := nativeSet_initial heap
  nUsed := rfl
  ascending := fun _ => List.Pairwise.nil
  slotsBound := by simp [HashData.initial]

/-- Every legal run on an empty Set, new elements meeting a Set with room, gives
the answers of the list and ends with its elements, and with an intact
storage. -/
theorem set_run_refines_list
    (callbacks : Callbacks ω)
    (heap : Heap)
    (world : ω)
    (operations : List SetOperation)
    (legal : PlainSet.Along PlainSet.Legal ⟨[], heap, 0⟩ operations)
    (roomy : PlainSet.Along PlainSet.Roomy ⟨[], heap, 0⟩ operations) :
    ∃ vm, setRun callbacks operations ⟨HashData.initial, heap, world⟩ =
        .ok (PlainSet.run ⟨[], heap, 0⟩ operations).1 vm ∧
      vm.table.entries.map (·.1) =
        (PlainSet.run ⟨[], heap, 0⟩ operations).2.elements ∧
      vm.heap = (PlainSet.run ⟨[], heap, 0⟩ operations).2.heap ∧
      SetInvariant (PlainSet.run ⟨[], heap, 0⟩ operations).2 vm.table := by
  obtain ⟨vm, ran, agrees⟩ :=
    setRun_agrees callbacks operations (agrees_initial heap world) legal roomy
  refine ⟨vm, ran, ?_, agrees.heap, agrees.setInvariant⟩
  rw [agrees.entries, List.map_map]
  exact List.map_id _

/-- A run that fills a table, deletes two elements and adds a String twice. -/
def shortSetRun : List SetOperation :=
  [.add (.int 1), .add (.int 2), .add (.int 3), .add (.int 4), .add (.int 5),
    .delete (.int 2), .delete (.int 2), .add (.obj ⟨0⟩), .add (.obj ⟨0⟩),
    .contains (.obj ⟨0⟩), .contains (.int 2)]

theorem shortSetRun_refines_list :
    ∃ vm, setRun silent shortSetRun ⟨HashData.initial, shortHeap, ()⟩ =
        .ok (PlainSet.run ⟨[], shortHeap, 0⟩ shortSetRun).1 vm ∧
      vm.table.entries.map (·.1) =
        (PlainSet.run ⟨[], shortHeap, 0⟩ shortSetRun).2.elements ∧
      vm.heap = (PlainSet.run ⟨[], shortHeap, 0⟩ shortSetRun).2.heap ∧
      SetInvariant (PlainSet.run ⟨[], shortHeap, 0⟩ shortSetRun).2
        vm.table :=
  set_run_refines_list silent shortHeap () shortSetRun
    ⟨rfl, rfl, rfl, rfl, rfl, rfl, rfl, rfl, rfl, rfl, rfl, trivial⟩
    ⟨Or.inr (by decide), Or.inr (by decide), Or.inr (by decide),
      Or.inr (by decide), Or.inr (by decide), trivial, trivial,
      Or.inr (by decide), Or.inr (by decide), trivial, trivial, trivial⟩

/-- A Float that is not a number. -/
def notANumber : Value := .float ⟨0x7ff8000000000000⟩

/-- A NaN that was added is not found, and is added again. -/
theorem nan_added_twice :
    PlainSet.Along PlainSet.Legal ⟨[], [], 0⟩
      [.add notANumber, .contains notANumber, .add notANumber] ∧
    ∃ vm, setRun silent
        [.add notANumber, .contains notANumber, .add notANumber]
        ⟨HashData.initial, [], ()⟩ = .ok [none, some false, none] vm ∧
      vm.table.entries.map (·.1) = [notANumber, notANumber] :=
  ⟨⟨rfl, rfl, rfl, trivial⟩, _, rfl, rfl⟩

end SabiRuby.SetTable
