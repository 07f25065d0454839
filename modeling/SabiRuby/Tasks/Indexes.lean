import SabiRuby.Tasks.Twins

/-!
# The indexes are only an optimisation

Two runs of the same operations, in which the indexes of the waiting tasks are
kept from different numbers of tasks on or switched on and off anywhere, do the
same as long as the deadlines in them are noted right.
-/

namespace SabiRuby.Tasks

open Library

/-- Whether an event only says when the waiting tasks are indexed. -/
def Event.switchesIndex : Event → Bool
  | .setIndexFrom _ => true
  | _ => false

/-- The events of a run without those that switch the indexes on or off. -/
def operations (events : List Event) : List Event :=
  events.filter fun event => !event.switchesIndex

namespace Vm

variable {first second : Vm} {o : ObjId} {t : TaskData} {event : Event}

theorem TwinsClocked.perform
    (clocked : first.TwinsClocked second)
    (right : first.NotesRight event) :
    Agree Twin (first.perform event) (second.perform event) := by
  have twins := clocked.twins
  have second_of {Answer : Type} {left right : Except Raised (Answer × Vm)}
      (agree : Agree TwinAnswer left right) :
      Agree Twin (Prod.snd <$> left) (Prod.snd <$> right) :=
    agree.map fun _ _ both => both.2
  cases event with
  | taskNew priority => exact second_of (twins.taskNew priority)
  | taskCurrent => exact .answered clocked.twin.taskCurrent.2
  | pass boundary => exact twins.taskPass boundary
  | sleepForever boundary => exact twins.sleepForever boundary
  | sleep call boundary => exact clocked.sleepFor call boundary
  | queueNew =>
      obtain ⟨line, alike, rfl⟩ := clocked.twin.eq
      exact .answered (.of_alike alike)
  | push q value => exact twins.queuePush q value
  | popTry q nonBlock deadline boundary =>
      exact second_of (twins.queuePopTry q nonBlock deadline boundary)
  | tryPop q => exact second_of (twins.queueTryPop q)
  | clear q => exact twins.queueClear q
  | closeQueue q => exact twins.queueClose q
  | setPriority o priority => exact twins.taskSetPriority o priority
  | suspend o => exact twins.taskSuspend o
  | resume o => exact twins.taskResume o
  | terminate o => exact twins.taskTerminate o
  | close o => exact twins.taskClose o
  | join o => exact second_of (twins.taskJoin o)
  | schedule => exact .answered twins.schedulerStep
  | leave outcome => exact .answered (twins.leaveTask outcome)
  | fiberSwitch ctx =>
      obtain ⟨line, alike, rfl⟩ := clocked.twin.eq
      exact .answered (.of_alike alike)
  | advanceTicks n => exact .answered (clocked.advanceTicks n right)
  | idle => exact .answered clocked.idle.2
  | setIndexFrom n =>
      refine .answered ?_
      have left : (first.line.setIndexFrom first.tasks first.tick n).Alike
          first.line := twins.left.placed.recorded.alike_setIndexFrom n
      have right : (second.line.setIndexFrom second.tasks second.tick n).Alike
          second.line := twins.right.placed.recorded.alike_setIndexFrom n
      obtain ⟨line, alike, rfl⟩ := clocked.twin.eq
      exact .of_alike (left.trans (alike.trans right.symm))

/-- Twins that agree on an event are twins after it. -/
theorem Twin.step
    (twin : first.Twin second)
    (agree : Agree Twin (first.perform event) (second.perform event)) :
    (first.step event).Twin (second.step event) := by
  unfold Vm.step
  generalize first.perform event = left at agree ⊢
  generalize second.perform event = right at agree ⊢
  cases agree with
  | raised error => exact twin
  | answered both => exact both

/-- What a deadline is noted against is the same in twins. -/
theorem Twin.notesRight
    (twin : first.Twin second)
    (right : first.NotesRight event) : second.NotesRight event := by
  obtain ⟨line, alike, rfl⟩ := twin.eq
  cases event with
  | popTry q nonBlock deadline boundary =>
      cases deadline with
      | none => trivial
      | some deadline => exact right
  | advanceTicks n => exact right
  | _ => trivial

theorem TwinsClocked.step
    (clocked : first.TwinsClocked second)
    (right : first.NotesRight event) :
    (first.step event).TwinsClocked (second.step event) :=
  ⟨clocked.twin.step (clocked.perform right), clocked.left.step right,
    clocked.right.step (clocked.twin.notesRight right)⟩

/-- Switching the indexes of a scheduler leaves it a twin. -/
theorem Clocked.switch
    {vm : Vm}
    (clocked : vm.Clocked)
    (switches : event.switchesIndex) :
    vm.TwinsClocked (vm.step event) ∧ vm.NotesRight event := by
  cases event with
  | setIndexFrom n =>
      refine ⟨⟨.of_alike ?_, clocked, clocked.step trivial⟩, trivial⟩
      exact (clocked.orderly.placed.recorded.alike_setIndexFrom n).symm
  | _ => cases switches

theorem TwinsClocked.symm
    (clocked : first.TwinsClocked second) : second.TwinsClocked first :=
  ⟨clocked.twin.symm, clocked.right, clocked.left⟩

theorem TwinsClocked.trans
    (left : first.TwinsClocked second)
    (right : second.TwinsClocked third) : first.TwinsClocked third :=
  ⟨left.twin.trans right.twin, left.left, right.right⟩

/-! ## Runs -/

/-- A run does what its operations do, wherever the indexes are switched. -/
theorem TwinsClocked.run_operations
    (events : List Event)
    (clocked : first.TwinsClocked second) :
    (StepsMeet Vm.step NotesRight first events ↔
      StepsMeet Vm.step NotesRight second (operations events)) ∧
      (StepsMeet Vm.step NotesRight first events →
        (first.run events).TwinsClocked (second.run (operations events))) := by
  induction events generalizing first second with
  | nil => exact ⟨.rfl, fun _ => clocked⟩
  | cons event rest ih =>
      cases switches : event.switchesIndex with
      | true =>
          have dropped : operations (event :: rest) = operations rest :=
            List.filter_cons_of_neg (by simp [switches])
          obtain ⟨switched, right⟩ := clocked.left.switch switches
          obtain ⟨meets, runs⟩ := ih
            (switched.symm.trans clocked)
          rw [dropped]
          exact ⟨⟨fun both => meets.mp both.2, fun later =>
            ⟨right, meets.mpr later⟩⟩, fun both => runs both.2⟩
      | false =>
          have kept : operations (event :: rest) =
              event :: operations rest :=
            List.filter_cons_of_pos (by simp [switches])
          rw [kept]
          refine ⟨⟨fun both => ?_, fun both => ?_⟩, fun both => ?_⟩
          · exact ⟨clocked.twin.notesRight both.1,
              (ih (clocked.step both.1)).1.mp both.2⟩
          · have right := clocked.twin.symm.notesRight both.1
            exact ⟨right,
              (ih (clocked.step right)).1.mpr both.2⟩
          · exact (ih (clocked.step both.1)).2 both.2

/-! ## What a host asks -/

/-- Something can run exactly if a task is ready or waits for the clock. -/
theorem Orderly.pending_iff
    {vm : Vm}
    (orderly : vm.Orderly) :
    vm.pending = true ↔ (vm.line.queues .ready).items ≠ [] ∨
      ∃ o t, vm.tasks o = some t ∧ t.timed := by
  unfold Vm.pending
  split
  · rename_i ready
    exact ⟨fun _ => .inl ready, fun _ => rfl⟩
  · rename_i none
    rw [or_iff_right none]
    split
    · rename_i indexed
      rw [decide_eq_true_eq]
      constructor
      · intro some
        obtain ⟨entry, member⟩ := List.exists_mem_of_ne_nil _ some
        obtain ⟨t, task, timed⟩ := (orderly.mem_sleepers_iff indexed entry.2).mp
          ⟨entry.1, member⟩
        exact ⟨entry.2, t, task, timed⟩
      · rintro ⟨o, t, task, timed⟩
        obtain ⟨key, member⟩ := (orderly.mem_sleepers_iff indexed o).mpr
          ⟨t, task, timed⟩
        exact List.ne_nil_of_mem member
    · rw [List.any_eq_true]
      constructor
      · rintro ⟨entry, member, has⟩
        obtain ⟨t, task, waits⟩ := (orderly.mem_waitingTasks_iff entry.2).mp
          (List.mem_map_of_mem member)
        rw [task] at has
        exact ⟨entry.2, t, task, waits, has⟩
      · rintro ⟨o, t, task, waits, has⟩
        obtain ⟨entry, member, same⟩ := List.mem_map.mp
          ((orderly.mem_waitingTasks_iff o).mpr ⟨t, task, waits⟩)
        refine ⟨entry, member, ?_⟩
        rw [same, task]
        exact has

/-- What two schedulers have in common that do the same: the same tasks in the
same queues, the same answers to the host, and the same tasks found for every
object that is waited for. -/
structure SameWork (first second : Vm) : Prop where
  twin : first.Twin second
  pending : second.pending = first.pending
  nextWakeup : second.nextWakeupTicks = first.nextWakeupTicks
  waiting : ∀ target, second.line.waitingFor second.tasks target =
    first.line.waitingFor first.tasks target
  woken : ∀ target, second.line.firstWaitingFor second.tasks target =
    first.line.firstWaitingFor first.tasks target
  answers : ∀ event, first.NotesRight event →
    Agree Twin (first.perform event) (second.perform event)

theorem TwinsClocked.sameWork
    (clocked : first.TwinsClocked second) : first.SameWork second where
  twin := clocked.twin
  pending := by
    apply Bool.eq_iff_iff.mpr
    rw [clocked.left.orderly.pending_iff, clocked.right.orderly.pending_iff,
      clocked.twin.tasks, clocked.twin.alike.queues]
  nextWakeup := by
    unfold nextWakeupTicks
    rw [clocked.twin.wakeupTick, clocked.twin.tick]
  waiting := clocked.twins.waitingFor
  woken := clocked.twins.firstWaitingFor
  answers _ := clocked.perform

theorem twinsClocked_initial (firstFrom secondFrom : Nat) :
    (initial firstFrom).TwinsClocked (initial secondFrom) :=
  ⟨.of_alike ⟨rfl, rfl, fun _ => rfl⟩, clocked_initial firstFrom,
    clocked_initial secondFrom⟩

/-- Two runs of the same operations do the same whatever is indexed when, as long
as the steps of one of them note their deadlines right. -/
theorem same_work_of_operations
    (firstFrom secondFrom : Nat)
    (firstEvents secondEvents : List Event)
    (same : operations firstEvents = operations secondEvents)
    (right : StepsMeet step NotesRight (initial firstFrom) firstEvents) :
    ((initial firstFrom).run firstEvents).SameWork
      ((initial secondFrom).run secondEvents) := by
  have start := twinsClocked_initial firstFrom secondFrom
  obtain ⟨meets, runs⟩ := start.run_operations firstEvents
  have again : (initial secondFrom).TwinsClocked (initial secondFrom) :=
    start.symm.trans start
  obtain ⟨meets', runs'⟩ := again.run_operations secondEvents
  rw [← same] at meets' runs'
  exact ((runs right).trans (runs' (meets'.mpr (meets.mp right))).symm).sameWork

/-- Two sleepers, and the indexes switched on and off while they sleep. -/
def switchedWhileSleeping : List Event :=
  [.advanceTicks 2147483647, .advanceTicks 2147483647, .taskNew none,
    .taskNew none, .schedule, .sleep (.usleep 20000) none, .leave .switched,
    .setIndexFrom 1, .schedule, .sleep (.sleepMs 8) none, .leave .switched,
    .setIndexFrom 3, .idle, .setIndexFrom 0, .advanceTicks 4]

theorem same_work_when_switched :
    ((initial 0).run switchedWhileSleeping).SameWork
      ((initial TASK_INDEX_FROM).run sleptThroughTurn) :=
  same_work_of_operations 0 TASK_INDEX_FROM switchedWhileSleeping
    sleptThroughTurn (by decide) (by decide +kernel)

/-- The sleeper that is overlooked is found by the index of the sleepers and not
by a walk. -/
theorem index_finds_more :
    ¬∀ (firstFrom secondFrom : Nat) (firstEvents secondEvents : List Event),
      operations firstEvents = operations secondEvents →
        (∀ n, Event.advanceTicks n ∈ firstEvents → n.toNat < 2 ^ 31) →
          ((initial firstFrom).run firstEvents).SameWork
            ((initial secondFrom).run secondEvents) := by
  intro always
  have half : ∀ n, Event.advanceTicks n ∈
      noteMisread ++ [.advanceTicks 5, .advanceTicks 2147483647] →
        n.toNat < 2 ^ 31 := by
    intro n member
    simp only [noteMisread, List.cons_append, List.nil_append, List.mem_cons,
      Event.advanceTicks.injEq, reduceCtorEq, List.not_mem_nil, or_false,
      false_or] at member
    rcases member with rfl | rfl | rfl | rfl | rfl <;> decide
  have same := (always 0 TASK_INDEX_FROM _ _ rfl half).twin.tasks
  have asleep : (((initial TASK_INDEX_FROM).run (noteMisread ++
      [.advanceTicks 5, .advanceTicks 2147483647])).tasks ⟨1⟩).map
        TaskData.status = some .waiting := by decide +kernel
  have awake : (((initial 0).run (noteMisread ++
      [.advanceTicks 5, .advanceTicks 2147483647])).tasks ⟨1⟩).map
        TaskData.status = some .ready := by decide +kernel
  rw [same, awake] at asleep
  exact absurd asleep (by decide)

end Vm

end SabiRuby.Tasks
