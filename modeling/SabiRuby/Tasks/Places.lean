import SabiRuby.Tasks.Outcomes
import Mathlib.Data.List.Induction

/-!
# Every task in its place

In every run of the scheduler each task is in the queue that its status names,
under the key its place records, unless it was closed or is the main task, which
the scheduler never schedules by itself; and the indexes, where they are kept,
hold exactly the waiting tasks with a deadline and those that wait for an
object.
-/

namespace SabiRuby.Tasks

open Library

namespace Vm

variable {vm vm' : Vm} {o q : ObjId}

/-- What one event keeps.  Only a close takes a task out of the queues, and only
`Task.current` makes one outside them. -/
structure Advances (vm vm' : Vm) (event : Event) : Prop where
  orderly : vm'.Orderly
  queued : ∀ o, event ≠ .close o →
    (vm.line.places o).q ≠ none → (vm'.line.places o).q ≠ none
  made : ∀ o, vm'.tasks o ≠ none →
    (vm'.line.places o).q ≠ none ∨ vm.tasks o ≠ none ∨ vm'.main = some o
  main : ∀ o, vm.main = some o → vm'.main = some o
  noMain : event ≠ .taskCurrent → vm'.main = vm.main

theorem Keeps.advances
    (keeps : vm.Keeps vm')
    (event : Event) : vm.Advances vm' event where
  orderly := keeps.orderly
  queued o _ := keeps.queued o
  made o held := (keeps.made o held).imp_right .inl
  main _ isMain := keeps.main.trans isMain
  noMain _ := keeps.main

section

variable (orderly : vm.Orderly)
include orderly

theorem Orderly.queuePush
    (done : vm.queuePush q value = .ok vm') : vm.Keeps vm' := by
  obtain ⟨data, _, _, rfl⟩ := queuePush_ok done
  have stored := orderly.setQueue q
    { data with items := data.items ++ [value] }
  exact stored.trans (stored.orderly.wakeQueueWaiters q false)

theorem Orderly.queueClose
    (done : vm.queueClose q = .ok vm') : vm.Keeps vm' := by
  obtain ⟨data, _, same | ⟨_, closed⟩⟩ := queueClose_ok done
  · rw [same]
    exact orderly.keeps
  · rw [closed]
    have stored := orderly.setQueue q { data with closed := true }
    exact stored.trans (stored.orderly.wakeQueueWaiters q true)

theorem Orderly.queueTryPop
    (done : vm.queueTryPop q = .ok popped) : vm.Keeps popped.2 := by
  obtain ⟨data, _, same | ⟨item, rest, _, taken⟩⟩ := queueTryPop_ok done
  · rw [same]
    exact orderly.keeps
  · rw [taken]
    exact orderly.setQueue q _

theorem Orderly.queuePopTry
    {nonBlock : Bool} {deadline : Option Int64} {boundary : Option String}
    (done : vm.queuePopTry q nonBlock deadline boundary = .ok popped) :
    vm.Keeps popped.2 := by
  obtain ⟨data, _, ⟨item, rest, _, rfl⟩ | ⟨_, ⟨rfl, _⟩ | ⟨_, waits⟩⟩⟩ :=
    queuePopTry_ok done
  · exact orderly.setQueue q _
  · exact orderly.keeps
  · rcases blockingPop_ok waits with rfl | ⟨me, _, _, rfl⟩
    · exact orderly.keeps
    · exact orderly.parkOnQueue me q _

theorem Orderly.sleepFor
    {call : SleepCall} {boundary : Option String}
    (done : vm.sleepFor call boundary = .ok vm') : vm.Keeps vm' := by
  obtain ⟨micros, _, ⟨_, rfl⟩ | ⟨me, _, rfl⟩⟩ := sleepFor_ok done
  · exact orderly.advanceTicks _
  · exact ((orderly.requeue me _).noteWakeup _).park

theorem Orderly.taskSuspend
    (done : vm.taskSuspend o = .ok vm') : vm.Keeps vm' := by
  obtain ⟨t, _, ⟨_, rfl⟩ | ⟨_, rfl | rfl⟩⟩ := taskSuspend_ok done
  · exact orderly.keeps
  · exact orderly.requeue o _
  · exact (orderly.requeue o _).park

theorem Orderly.taskResume
    (done : vm.taskResume o = .ok vm') : vm.Keeps vm' := by
  obtain ⟨t, _, rfl | ⟨_, rfl⟩⟩ := taskResume_ok done
  · exact orderly.keeps
  · exact orderly.requeue o _

theorem Orderly.taskTerminate
    (done : vm.taskTerminate o = .ok vm') : vm.Keeps vm' := by
  obtain ⟨t, _, ⟨_, rfl⟩ | ⟨_, rfl | rfl⟩⟩ := taskTerminate_ok done
  · exact orderly.keeps
  · exact orderly.stopTask o
  · exact (orderly.stopTask o).withFields rfl rfl rfl rfl

theorem Orderly.taskJoin
    (done : vm.taskJoin o = .ok joined) : vm.Keeps joined.2 := by
  obtain ⟨t, me, _, _, _, ⟨_, same⟩ | ⟨_, parked⟩⟩ := taskJoin_ok done
  · rw [same]
    exact orderly.keeps
  · rw [parked]
    exact (orderly.requeue me _).park

/-- A close takes the task out of the queues, and only that one. -/
theorem Orderly.taskClose
    (done : vm.taskClose o = .ok vm') : vm.Advances vm' (.close o) := by
  obtain ⟨t, held, _, rfl⟩ := taskClose_ok done
  have ended : ((vm.qDelete o).endContext t.ctx).line = vm.line.qDelete o ∧
      ((vm.qDelete o).endContext t.ctx).tasks = vm.tasks ∧
      ((vm.qDelete o).endContext t.ctx).next = vm.next ∧
      ((vm.qDelete o).endContext t.ctx).main = vm.main := by
    unfold Vm.endContext
    split
    · split <;> exact ⟨rfl, rfl, rfl, rfl⟩
    · exact ⟨rfl, rfl, rfl, rfl⟩
  obtain ⟨line, tasks, next, main⟩ := ended
  have queued : ∀ other, other ≠ o →
      ((vm.line.qDelete o).places other).q = (vm.line.places other).q := by
    intro other differs
    rw [TaskQueues.qDelete_places, Function.update_of_ne differs]
  have taskSelf : (((vm.qDelete o).endContext t.ctx).tdMut o fun t =>
      { t with status := .dormant }).tasks o =
        some { t with status := .dormant } := by
    simp [Vm.tdMut, tasks, held]
  have taskOther : ∀ other, other ≠ o →
      (((vm.qDelete o).endContext t.ctx).tdMut o fun t =>
        { t with status := .dormant }).tasks other = vm.tasks other := by
    intro other differs
    simp [Vm.tdMut, tasks, differs]
  refine ⟨⟨⟨?_, ?_, ?_⟩, ?_, ?_⟩, ?_, ?_, ?_, ?_⟩
  · change ((vm.qDelete o).endContext t.ctx).line.Recorded
    rw [line]
    exact orderly.placed.recorded.qDelete o
  · intro other inside
    by_cases same : other = o
    · rw [same, taskSelf]
      exact Option.some_ne_none _
    · rw [taskOther other same]
      apply orderly.placed.known
      change (((vm.qDelete o).endContext t.ctx).line.places other).q ≠ none
        at inside
      rwa [line, queued other same] at inside
  · intro other _
    by_cases same : other = o
    · apply TaskQueues.tidy_of_not_queued
      change (((vm.qDelete o).endContext t.ctx).line.places other).q = none
      rw [line, same]
      exact qDelete_q
    · apply (TaskQueues.tidy_congr (taskOther other same)).mpr
      change ((vm.qDelete o).endContext t.ctx).line.Tidy vm.tasks other
      rw [line]
      exact orderly.placed.recorded.tidy_qDelete vm.tasks
        fun _ => orderly.placed.tidy other
  · intro other free
    have free' : vm.next ≤ other.index := next ▸ free
    by_cases same : other = o
    · rw [same] at free'
      rw [orderly.fresh o free'] at held
      cases held
    · exact (taskOther other same).trans (orderly.fresh other free')
  · intro other t' held' out
    by_cases same : other = o
    · rw [same, taskSelf] at held'
      cases held'
      exact .inl rfl
    · rw [taskOther other same] at held'
      change (((vm.qDelete o).endContext t.ctx).line.places other).q = none
        at out
      rw [line, queued other same] at out
      exact (orderly.lost other t' held' out).imp_right
        fun both => ⟨both.1, main.trans both.2⟩
  · intro other differs inside
    have other_ne : other ≠ o := fun same => differs (by rw [same])
    change (((vm.qDelete o).endContext t.ctx).line.places other).q ≠ none
    rwa [line, queued other other_ne]
  · intro other made
    refine .inr (.inl fun absent => ?_)
    by_cases same : other = o
    · rw [same, held] at absent
      cases absent
    · exact made ((taskOther other same).trans absent)
  · intro other isMain
    exact main.trans isMain
  · intro _
    exact main

/-- The main task is made outside the queues. -/
theorem Orderly.taskCurrent : vm.Advances vm.taskCurrent.2 .taskCurrent := by
  unfold Vm.taskCurrent
  split
  · exact orderly.keeps.advances _
  · exact orderly.keeps.advances _
  · rename_i _ none
    have free := orderly.fresh ⟨vm.next⟩ le_rfl
    have out : (vm.line.places ⟨vm.next⟩).q = Option.none := by
      by_contra queued
      exact orderly.placed.known ⟨vm.next⟩ queued free
    refine ⟨⟨⟨orderly.placed.recorded, ?_, ?_⟩, ?_, ?_⟩,
      fun _ _ queued => queued, ?_, ?_, fun other => absurd rfl other⟩
    · intro o queued
      by_cases same : o = ⟨vm.next⟩
      · rw [same] at queued
        exact absurd out queued
      · simp only [Function.update_of_ne same]
        exact orderly.placed.known o queued
    · intro o _
      by_cases same : o = ⟨vm.next⟩
      · rw [same]
        exact TaskQueues.tidy_of_not_queued out
      · exact (TaskQueues.tidy_congr (Function.update_of_ne same ..)).mpr
          (orderly.placed.tidy o)
    · intro o beyond
      have differs : o ≠ ⟨vm.next⟩ := by
        rintro rfl
        exact absurd beyond (Nat.not_succ_le_self _)
      simp only [Function.update_of_ne differs]
      exact orderly.fresh o (Nat.le_of_succ_le beyond)
    · intro o t held lost
      by_cases same : o = ⟨vm.next⟩
      · rw [same] at held ⊢
        simp only [Function.update_self, Option.some.injEq] at held
        exact .inr ⟨by rw [← held], rfl⟩
      · simp only [Function.update_of_ne same] at held
        rcases orderly.lost o t held lost with isOver | ⟨_, isMain⟩
        · exact .inl isOver
        · rw [none] at isMain
          cases isMain
    · intro o made
      by_cases same : o = ⟨vm.next⟩
      · exact .inr (.inr (by rw [same]))
      · simp only [Function.update_of_ne same] at made
        exact .inr (.inl made)
    · intro o isMain
      rw [none] at isMain
      cases isMain

theorem Orderly.perform
    (event : Event)
    (done : vm.perform event = .ok vm') : vm.Advances vm' event := by
  have answered {α : Type} {run : Except Raised (α × Vm)}
      (done : Prod.snd <$> run = .ok vm') :
      ∃ answer, run = .ok answer ∧ vm' = answer.2 := by
    cases run with
    | error e => cases done
    | ok answer =>
        cases done
        exact ⟨answer, rfl, rfl⟩
  cases event with
  | taskNew priority =>
      obtain ⟨made, found, rfl⟩ := answered done
      obtain ⟨n, same⟩ := taskNew_ok found
      rw [same]
      exact (orderly.createTask n).advances _
  | taskCurrent =>
      cases done
      exact orderly.taskCurrent
  | pass boundary =>
      rcases taskPass_ok done with rfl | ⟨_, rfl⟩ | ⟨me, _, rfl⟩
      · exact orderly.keeps.advances _
      · exact orderly.schedulerStep.advances _
      · exact (orderly.requeue me _).park.advances _
  | sleepForever boundary =>
      rcases sleepForever_ok done with rfl | ⟨me, _, rfl⟩
      · exact orderly.keeps.advances _
      · exact (orderly.requeue me _).park.advances _
  | sleep call boundary => exact (orderly.sleepFor done).advances _
  | queueNew =>
      cases done
      refine ⟨⟨orderly.placed.congr rfl rfl, ?_, orderly.lost⟩,
        fun _ _ queued => queued, fun _ made => .inr (.inl made),
        fun _ isMain => isMain, fun _ => rfl⟩
      exact fun o beyond => orderly.fresh o (Nat.le_of_succ_le beyond)
  | push q value => exact (orderly.queuePush done).advances _
  | popTry q nonBlock deadline boundary =>
      obtain ⟨popped, found, rfl⟩ := answered done
      exact (orderly.queuePopTry found).advances _
  | tryPop q =>
      obtain ⟨popped, found, rfl⟩ := answered done
      exact (orderly.queueTryPop found).advances _
  | clear q =>
      obtain ⟨data, _, rfl⟩ := queueClear_ok done
      exact (orderly.setQueue q _).advances _
  | closeQueue q => exact (orderly.queueClose done).advances _
  | setPriority o priority =>
      obtain ⟨t, n, _, rfl⟩ := taskSetPriority_ok done
      exact (orderly.requeue o _).advances _
  | suspend o => exact (orderly.taskSuspend done).advances _
  | resume o => exact (orderly.taskResume done).advances _
  | terminate o => exact (orderly.taskTerminate done).advances _
  | close o => exact orderly.taskClose done
  | join o =>
      obtain ⟨joined, found, rfl⟩ := answered done
      exact (orderly.taskJoin found).advances _
  | schedule =>
      cases done
      exact orderly.schedulerStep.advances _
  | leave outcome =>
      cases done
      exact (orderly.leaveTask outcome).advances _
  | fiberSwitch ctx =>
      cases done
      have moved : vm.Keeps { vm with cur := ctx } :=
        orderly.keeps_of_same rfl rfl rfl rfl
      exact moved.advances _
  | advanceTicks n =>
      cases done
      exact (orderly.advanceTicks n).advances _
  | idle =>
      cases done
      exact orderly.idle.advances _
  | setIndexFrom n =>
      cases done
      exact (orderly.setIndexFrom n).advances _

theorem Orderly.step
    (event : Event) : vm.Advances (vm.step event) event := by
  unfold Vm.step
  split
  · rename_i next done
    exact orderly.perform event done
  · exact orderly.keeps.advances event

end

theorem orderly_initial (indexFrom : Nat) : (initial indexFrom).Orderly where
  placed :=
    ⟨TaskQueues.recorded_initial indexFrom, fun _ queued => absurd rfl queued,
      fun _ _ => TaskQueues.tidy_of_not_queued rfl⟩
  fresh _ _ := rfl
  lost _ _ held := by cases held

theorem run_append (first second : List Event) :
    vm.run (first ++ second) = (vm.run first).run second := by
  unfold Vm.run
  rw [List.foldl_append]

theorem run_concat (events : List Event) (event : Event) :
    vm.run (events ++ [event]) = (vm.run events).step event :=
  run_append events [event]

/-- What every run keeps. -/
theorem run_orderly (indexFrom : Nat) (events : List Event) :
    ((initial indexFrom).run events).Orderly := by
  induction events using List.reverseRecOn with
  | nil => exact orderly_initial indexFrom
  | append_singleton events event ih =>
      rw [run_concat]
      exact (ih.step event).orderly

/-- In every run only a task that was closed is in no queue, the main one
apart. -/
theorem run_queued
    (indexFrom : Nat)
    (events : List Event)
    (o : ObjId)
    (task : ((initial indexFrom).run events).tasks o ≠ none)
    (kept : Event.close o ∉ events)
    (scheduled : ((initial indexFrom).run events).main ≠ some o) :
    (((initial indexFrom).run events).line.places o).q ≠ none := by
  induction events using List.reverseRecOn with
  | nil => exact absurd rfl task
  | append_singleton events event ih =>
      rw [run_concat] at task scheduled ⊢
      simp only [List.mem_append, List.mem_singleton, not_or] at kept
      have step := (run_orderly indexFrom events).step event
      rcases step.made o task with queued | before | isMain
      · exact queued
      · refine step.queued o (fun same => kept.2 same.symm)
          (ih before kept.1 fun isMain => ?_)
        exact scheduled (step.main o isMain)
      · exact absurd isMain scheduled

/-- Without `Task.current` there is no main task. -/
theorem run_main
    (indexFrom : Nat)
    (events : List Event)
    (unasked : Event.taskCurrent ∉ events) :
    ((initial indexFrom).run events).main = none := by
  induction events using List.reverseRecOn with
  | nil => rfl
  | append_singleton events event ih =>
      rw [run_concat]
      simp only [List.mem_append, List.mem_singleton, not_or] at unasked
      have step := (run_orderly indexFrom events).step event
      rw [step.noMain fun same => unasked.2 same.symm]
      exact ih unasked.1

theorem qOf_eq_waiting_iff (status : Status) :
    qOf status = .waiting ↔ status = .waiting := by
  cases status <;> simp [qOf]

section

variable (orderly : vm.Orderly)
include orderly

/-- A task in a queue is in the one its status names, under the key its place
records. -/
theorem Orderly.of_mem_queue
    {q : QueueIndex}
    (held : vm.tasks o = some t)
    (member : (key, o) ∈ (vm.line.queues q).items) :
    q = qOf t.status ∧
      (vm.line.places o).queued = some (q, key) ∧
      key.major = (if q = .ready then t.priority else 0) := by
  have queued := orderly.placed.recorded.of_mem_queue member
  obtain ⟨inside, same⟩ := ((vm.line.places o).queued_eq_some_iff _ _).mp queued
  obtain ⟨t', held', here, priority, _⟩ := orderly.placed.tidy o q inside
  rw [held] at held'
  cases held'
  exact ⟨here, queued, (congrArg Key.major same).trans priority⟩

/-- A task that waits is in the waiting queue. -/
theorem Orderly.waiting_queued
    (held : vm.tasks o = some t)
    (waits : t.status = .waiting) :
    (vm.line.places o).q = some .waiting := by
  cases queued : (vm.line.places o).q with
  | none =>
      rcases orderly.lost o t held queued with isOver | ⟨runs, _⟩
      · rw [waits] at isOver
        cases isOver
      · rw [waits] at runs
        cases runs
  | some line =>
      obtain ⟨t', held', here, _⟩ := orderly.placed.tidy o line queued
      rw [held] at held'
      cases held'
      rw [here, waits]
      rfl

/-- The sleepers are the waiting tasks with a deadline. -/
theorem Orderly.mem_sleepers_iff
    (indexed : vm.line.indexed)
    (o : ObjId) :
    (∃ key, (key, o) ∈ vm.line.sleepers.items) ↔
      ∃ t, vm.tasks o = some t ∧ t.status = .waiting ∧ t.hasDeadline := by
  constructor
  · rintro ⟨key, member⟩
    have held := (orderly.placed.recorded.sleepers.mem_iff key o).mp member
    have some : (vm.line.places o).deadline ≠ none := by
      intro none
      simp [TaskPlace.sleepKey, none] at held
    cases queued : (vm.line.places o).q with
    | none =>
        exact absurd (orderly.placed.recorded.clear o queued).1 some
    | some line =>
        obtain ⟨t, task, here, _, deadline, _⟩ :=
          orderly.placed.tidy o line queued
        obtain ⟨_, waiting, has⟩ := deadline.mp
          (Option.isSome_iff_ne_none.mpr some)
        exact ⟨t, task, (qOf_eq_waiting_iff _).mp (here ▸ waiting), has⟩
  · rintro ⟨t, task, waits, has⟩
    have queued := orderly.waiting_queued task waits
    obtain ⟨t', task', here, _, deadline, _⟩ :=
      orderly.placed.tidy o .waiting queued
    rw [task] at task'
    cases task'
    obtain ⟨d, kept⟩ := Option.isSome_iff_exists.mp
      (deadline.mpr ⟨indexed, rfl, has⟩)
    refine ⟨⟨d, (vm.line.places o).seq⟩, ?_⟩
    apply (orderly.placed.recorded.sleepers.mem_iff _ o).mpr
    simp [TaskPlace.sleepKey, kept]

/-- The waiters are the waiting tasks that wait for an object, by that
object. -/
theorem Orderly.mem_waiters_iff
    (indexed : vm.line.indexed)
    (o target : ObjId) :
    (∃ key : Key, key.major = target.index ∧
        (key, o) ∈ vm.line.waiters.items) ↔
      ∃ t, vm.tasks o = some t ∧ t.status = .waiting ∧
        t.target = some target := by
  constructor
  · rintro ⟨key, major, member⟩
    have held := (orderly.placed.recorded.waiters.mem_iff key o).mp member
    cases kept : (vm.line.places o).target with
    | none => simp [TaskPlace.waitKey, kept] at held
    | some found =>
        have same : found = target := by
          simp only [TaskPlace.waitKey, kept, Option.map_some,
            Option.some.injEq] at held
          cases found
          cases target
          rw [← held] at major
          simpa using major
        cases queued : (vm.line.places o).q with
        | none =>
            rw [(orderly.placed.recorded.clear o queued).2] at kept
            cases kept
        | some line =>
            obtain ⟨t, task, here, _, _, waited⟩ :=
              orderly.placed.tidy o line queued
            rw [kept] at waited
            split at waited
            · rename_i both
              exact ⟨t, task, (qOf_eq_waiting_iff _).mp (here ▸ both.2),
                same ▸ waited.symm⟩
            · cases waited
  · rintro ⟨t, task, waits, waited⟩
    have queued := orderly.waiting_queued task waits
    obtain ⟨t', task', _, _, _, kept⟩ :=
      orderly.placed.tidy o .waiting queued
    rw [task] at task'
    cases task'
    rw [if_pos ⟨indexed, rfl⟩, waited] at kept
    refine ⟨⟨target.index, (vm.line.places o).seq⟩, rfl, ?_⟩
    apply (orderly.placed.recorded.waiters.mem_iff _ o).mpr
    simp [TaskPlace.waitKey, kept]

end

/-- An index holds a task once, under the key its place records. -/
structure HeldOnce
    (deque : SortedDeque Key ObjId)
    (place : ObjId → Option Key) : Prop where
  sorted : deque.Sorted
  recorded : ∀ key o, (key, o) ∈ deque.items → place o = some key

/-- In every run every task is in at most one queue, in the one its status names
unless it was closed or is the main task, under the key its place records; the
queues are strictly sorted; and while the indexes are kept they hold exactly one
entry for every waiting task with a deadline, respectively with an object it
waits for.  There is no main task unless a program asked for it. -/
theorem every_task_in_its_place (indexFrom : Nat) (events : List Event) :
    (∀ o t, ((initial indexFrom).run events).tasks o = some t →
      (∀ q key, (key, o) ∈
          (((initial indexFrom).run events).line.queues q).items →
        q = qOf t.status ∧
          (((initial indexFrom).run events).line.places o).queued =
            some (q, key) ∧
          key.major = (if q = .ready then t.priority else 0)) ∧
      (Event.close o ∉ events →
        ((initial indexFrom).run events).main ≠ some o →
          ∃ key, (key, o) ∈ (((initial indexFrom).run events).line.queues
            (qOf t.status)).items)) ∧
    (∀ q key o, (key, o) ∈
        (((initial indexFrom).run events).line.queues q).items →
      ((initial indexFrom).run events).tasks o ≠ none) ∧
    (∀ q, (((initial indexFrom).run events).line.queues q).Sorted) ∧
    HeldOnce ((initial indexFrom).run events).line.sleepers
      (fun o => (((initial indexFrom).run events).line.places o).sleepKey) ∧
    HeldOnce ((initial indexFrom).run events).line.waiters
      (fun o => (((initial indexFrom).run events).line.places o).waitKey) ∧
    (((initial indexFrom).run events).line.indexed →
      (∀ o, (∃ key, (key, o) ∈
          ((initial indexFrom).run events).line.sleepers.items) ↔
        ∃ t, ((initial indexFrom).run events).tasks o = some t ∧
          t.status = .waiting ∧ t.hasDeadline) ∧
      ∀ o target : ObjId, (∃ key : Key, key.major = target.index ∧
          (key, o) ∈ ((initial indexFrom).run events).line.waiters.items) ↔
        ∃ t, ((initial indexFrom).run events).tasks o = some t ∧
          t.status = .waiting ∧ t.target = some target) ∧
    (Event.taskCurrent ∉ events →
      ((initial indexFrom).run events).main = none) := by
  have orderly := run_orderly indexFrom events
  have recorded := orderly.placed.recorded
  refine ⟨fun o t held => ⟨fun q key member => ?_, fun kept scheduled => ?_⟩,
    fun q key o member => ?_, fun q => (recorded.queues q).sorted,
    ⟨recorded.sleepers.sorted,
      fun key o => (recorded.sleepers.mem_iff key o).mp⟩,
    ⟨recorded.waiters.sorted, fun key o => (recorded.waiters.mem_iff key o).mp⟩,
    fun indexed => ⟨orderly.mem_sleepers_iff indexed,
      orderly.mem_waiters_iff indexed⟩,
    run_main indexFrom events⟩
  · exact orderly.of_mem_queue held member
  · have placed := run_queued indexFrom events o
      (by rw [held]; exact Option.some_ne_none _) kept scheduled
    obtain ⟨q, queued⟩ := Option.ne_none_iff_exists'.mp placed
    obtain ⟨t', held', here, _⟩ := orderly.placed.tidy o q queued
    rw [held] at held'
    cases held'
    exact ⟨_, here ▸ recorded.mem_queue queued⟩
  · have queued := recorded.of_mem_queue member
    apply orderly.placed.known o
    rw [ne_eq, ← queued_eq_none_iff, queued]
    exact Option.some_ne_none _

/-! ## What a turn serves -/

/-- A turn of the scheduler serves the most urgent of the tasks that compete: it
enters a runnable task such that each of the others has a larger priority
number, or the same one and was queued later.  It does nothing only if no task
competes or if the context of that task is running. -/
def ServesMostUrgent
    (vm : Vm)
    (competes : ObjId → TaskData → Prop) : Prop :=
  (vm.schedulerStep = vm ∧ ∀ o t, ¬competes o t) ∨
    ∃ first t, vm.tasks first = some t ∧ qOf t.status = .ready ∧
      vm.schedulerStep =
        (if t.ctx = some vm.cur then vm else vm.enterTask first) ∧
      ∀ o t', competes o t' → o = first ∨ t.priority < t'.priority ∨
        t.priority = t'.priority ∧
          (vm.line.places first).seq < (vm.line.places o).seq

/-- A ready task that is queued is in the ready queue by its priority. -/
theorem Orderly.mem_ready
    (orderly : vm.Orderly)
    (queued : vm.tasks o = some t ∧ qOf t.status = .ready ∧
      (vm.line.places o).q ≠ none) :
    ∃ key, (key, o) ∈ (vm.line.queues .ready).items ∧
      key.major = t.priority ∧ key.seq = (vm.line.places o).seq := by
  obtain ⟨held, ready, placed⟩ := queued
  obtain ⟨q, inside⟩ := Option.ne_none_iff_exists'.mp placed
  have member := orderly.placed.recorded.mem_queue inside
  obtain ⟨here, -, priority⟩ := orderly.of_mem_queue held member
  rw [ready] at here
  cases here
  exact ⟨_, member, priority, rfl⟩

theorem Orderly.servesMostUrgent
    {competes : ObjId → TaskData → Prop}
    (orderly : vm.Orderly)
    (queued : ∀ o t, competes o t → vm.tasks o = some t ∧
      qOf t.status = .ready ∧ (vm.line.places o).q ≠ none) :
    vm.ServesMostUrgent competes := by
  have recorded := orderly.placed.recorded
  have sorted := (recorded.queues .ready).sorted
  cases items : (vm.line.queues .ready).items with
  | nil =>
      refine .inl ⟨by rw [Vm.schedulerStep, items]; rfl,
        fun o t competing => ?_⟩
      obtain ⟨key, inside, -⟩ := orderly.mem_ready (queued o t competing)
      rw [items] at inside
      cases inside
  | cons entry rest =>
      obtain ⟨key, first⟩ := entry
      have inside : (key, first) ∈ (vm.line.queues .ready).items :=
        items ▸ List.mem_cons_self
      have place := recorded.of_mem_queue inside
      obtain ⟨t, held⟩ := Option.ne_none_iff_exists'.mp
        (orderly.placed.known first (by
          rw [ne_eq, ← queued_eq_none_iff, place]
          exact Option.some_ne_none _))
      obtain ⟨here, -, priority⟩ := orderly.of_mem_queue held inside
      have live : t.status ≠ .dormant := by
        intro dormant
        rw [dormant] at here
        cases here
      refine .inr ⟨first, t, held, here.symm, ?_, fun o t' competing => ?_⟩
      · rw [Vm.schedulerStep, items]
        simp [held, live]
      · obtain ⟨other, later, otherPriority, otherSeq⟩ :=
          orderly.mem_ready (queued o t' competing)
        rw [items, List.mem_cons] at later
        rcases later with same | later
        · exact .inl (Prod.mk.inj same).2
        · unfold SortedDeque.Sorted at sorted
          rw [items, List.pairwise_cons] at sorted
          have less := (Key.lt_iff _ _).mp (sorted.1 _ later)
          rw [otherPriority, otherSeq, priority, if_pos rfl,
            congrArg Key.seq (((vm.line.places first).queued_eq_some_iff _
              _).mp place).2] at less
          exact .inr less

/-- In every run a turn of the scheduler serves the most urgent of the tasks
that are ready or running and were neither closed nor made the main task. -/
theorem schedules_most_urgent (indexFrom : Nat) (events : List Event) :
    ((initial indexFrom).run events).ServesMostUrgent fun o t =>
      ((initial indexFrom).run events).tasks o = some t ∧
        qOf t.status = .ready ∧ Event.close o ∉ events ∧
        ((initial indexFrom).run events).main ≠ some o := by
  refine (run_orderly indexFrom events).servesMostUrgent ?_
  rintro o t ⟨held, ready, kept, scheduled⟩
  exact ⟨held, ready, run_queued indexFrom events o
    (held ▸ Option.some_ne_none _) kept scheduled⟩

end Vm

end SabiRuby.Tasks
