import SabiRuby.Tasks.Invariant

/-!
# What an operation that is not refused does

One lemma for each operation: what it asks of the scheduler and the scheduler it
leaves.  The writes a method makes to a task before it requeues it are one
change with the requeueing.
-/

namespace SabiRuby.Tasks

open Library

/-- The fields of a task that sleeps until a deadline. -/
def TaskData.asleep (deadline : UInt32) (t : TaskData) : TaskData :=
  { t with reason := .sleep, wakeupTick := deadline, status := .waiting }

/-- The fields of a task that waits on a queue. -/
def TaskData.onQueue
    (q : ObjId)
    (deadline : Option UInt32)
    (t : TaskData) : TaskData :=
  { t with
    reason := .queue
    queue := some q
    wakeupTick := deadline.getD NO_WAKEUP
    status := .waiting }

/-- The fields of a task that joins another. -/
def TaskData.joining (o : ObjId) (t : TaskData) : TaskData :=
  { t with reason := .join, join := some o, status := .waiting }

/-- The fields of a task that is resumed. -/
def TaskData.resumed (t : TaskData) : TaskData :=
  { t with reason := .none, wakeupTick := NO_WAKEUP, status := .ready }

/-- The fields of a task whose join is over. -/
def TaskData.joined (t : TaskData) : TaskData :=
  { t with status := .ready, reason := .none, join := none }

namespace Vm

variable {vm vm' : Vm} {o q me : ObjId} {t : TaskData}

theorem bind_ok
    {next : α → Except Raised β}
    {answer : β}
    (done : computation >>= next = .ok answer) :
    ∃ value, computation = .ok value ∧ next value = .ok answer := by
  cases computation with
  | error e => cases done
  | ok value => exact ⟨value, rfl, done⟩

theorem taskId_ok (done : vm.taskId o = .ok t) : vm.tasks o = some t := by
  unfold taskId at done
  split at done
  · cases done
    assumption
  · cases done

theorem live_ok (done : vm.live o = .ok t) :
    vm.tasks o = some t ∧ (vm.line.isQueued o ∨ vm.main = some o) := by
  unfold live at done
  obtain ⟨t', held, checked⟩ := bind_ok done
  split at checked
  · obtain ⟨_, refused, _⟩ := bind_ok checked
    cases refused
  · rename_i known
    cases checked
    refine ⟨taskId_ok held, ?_⟩
    simp only [Bool.and_eq_true, Bool.not_eq_true', bne_iff_ne, not_and,
      not_not] at known
    cases queued : vm.line.isQueued o with
    | true => exact .inl rfl
    | false => exact .inr (known queued)

theorem currentTask_some
    (current : vm.currentTask = some me) :
    vm.cur ≠ ROOT ∧ vm.running = some me ∧
      ∃ t, vm.tasks me = some t ∧ t.ctx = some vm.cur := by
  unfold currentTask at current
  split at current
  · cases current
  · rename_i inside
    obtain ⟨runs, owns⟩ := Option.filter_eq_some_iff.mp current
    refine ⟨inside, runs, ?_⟩
    cases held : vm.tasks me with
    | none => simp [held] at owns
    | some t => exact ⟨t, rfl, by simpa [held] using owns⟩

theorem taskNew_ok
    {priority : Option Int64} {made : ObjId × Vm}
    (done : vm.taskNew priority = .ok made) :
    ∃ n, made = vm.createTask n := by
  unfold taskNew at done
  cases priority with
  | none =>
      cases done
      exact ⟨_, rfl⟩
  | some n =>
      obtain ⟨p, _, done⟩ := bind_ok done
      cases done
      exact ⟨p, rfl⟩

theorem taskPass_ok
    (done : vm.taskPass boundary = .ok vm') :
    vm' = vm ∨ vm.currentTask = none ∧ vm' = vm.schedulerStep ∨
      ∃ me, vm.currentTask = some me ∧ vm' = (vm.setStatus me .ready).park := by
  unfold taskPass at done
  split at done
  · rename_i outside
    cases done
    split
    · exact .inr (.inl ⟨outside, rfl⟩)
    · exact .inl rfl
  · rename_i me current
    split at done
    · cases done
    · cases done
      exact .inr (.inr ⟨me, current, rfl⟩)

theorem sleepForever_ok
    (done : vm.sleepForever boundary = .ok vm') :
    vm' = vm ∨
      ∃ me, vm.currentTask = some me ∧
        vm' = (vm.setStatus me .suspended).park := by
  unfold sleepForever at done
  split at done
  · cases done
    exact .inl rfl
  · rename_i me current
    split at done
    · cases done
    · cases done
      exact .inr ⟨me, current, rfl⟩

/-- A sleep parks the task that asks for it, and moves the clock where no task
does. -/
theorem sleepFor_ok
    {call : SleepCall} {boundary : Option String}
    (done : vm.sleepFor call boundary = .ok vm') :
    ∃ micros, call.micros = .ok micros ∧
      (vm.currentTask = none ∧ vm' = vm.advanceTicks (sleepTicks micros) ∨
        ∃ me, vm.currentTask = some me ∧
          vm' = ((vm.requeue me
            (TaskData.asleep
              (normalize (vm.tick + sleepTicks micros)))).noteWakeup
                (normalize (vm.tick + sleepTicks micros))).park) := by
  unfold sleepFor at done
  obtain ⟨micros, asked, done⟩ := bind_ok done
  refine ⟨micros, asked, ?_⟩
  unfold sleepUs at done
  split at done
  · rename_i outside
    cases done
    exact .inl ⟨outside, rfl⟩
  · rename_i me current
    split at done
    · cases done
    · unfold setStatus at done
      dsimp only at done
      rw [tdMut_requeue] at done
      cases done
      exact .inr ⟨me, current, rfl⟩

theorem qItems_ok
    (done : vm.qItems q = .ok data) : vm.queueObjects q = some data := by
  unfold qItems at done
  split at done
  · cases done
    assumption
  · cases done

theorem queuePush_ok
    {value : Value}
    (done : vm.queuePush q value = .ok vm') :
    ∃ data, vm.queueObjects q = some data ∧ data.closed = false ∧
      vm' = (vm.setQueue q
        { data with items := data.items ++ [value] }).wakeQueueWaiters q
          false := by
  unfold queuePush at done
  obtain ⟨data, held, done⟩ := bind_ok done
  refine ⟨data, qItems_ok held, ?_⟩
  split at done
  · obtain ⟨_, refused, _⟩ := bind_ok done
    cases refused
  · rename_i isOpen
    cases done
    exact ⟨by simpa using isOpen, rfl⟩

theorem queueTryPop_ok
    {popped : Option Value × Vm}
    (done : vm.queueTryPop q = .ok popped) :
    ∃ data, vm.queueObjects q = some data ∧
      (popped.2 = vm ∨
        ∃ item rest, data.items = item :: rest ∧
          popped.2 = vm.setQueue q { data with items := rest }) := by
  unfold queueTryPop at done
  obtain ⟨data, held, done⟩ := bind_ok done
  refine ⟨data, qItems_ok held, ?_⟩
  split at done
  · cases done
    exact .inl rfl
  · rename_i item rest items
    cases done
    exact .inr ⟨item, rest, items, rfl⟩

theorem queueClear_ok
    (done : vm.queueClear q = .ok vm') :
    ∃ data, vm.queueObjects q = some data ∧
      vm' = vm.setQueue q { data with items := [] } := by
  unfold queueClear at done
  obtain ⟨data, held, done⟩ := bind_ok done
  cases done
  exact ⟨data, qItems_ok held, rfl⟩

theorem queueClose_ok
    (done : vm.queueClose q = .ok vm') :
    ∃ data, vm.queueObjects q = some data ∧
      (vm' = vm ∨
        data.closed = false ∧
          vm' = (vm.setQueue q { data with closed := true }).wakeQueueWaiters q
            true) := by
  unfold queueClose at done
  obtain ⟨data, held, done⟩ := bind_ok done
  refine ⟨data, qItems_ok held, ?_⟩
  split at done
  · cases done
    exact .inl rfl
  · rename_i isOpen
    cases done
    exact .inr ⟨by simpa using isOpen, rfl⟩

theorem blockingPop_ok
    {deadline : Option UInt32} {boundary : Option String}
    (done : vm.blockingPop q deadline boundary = .ok popped) :
    popped = (.waitTimeout, vm) ∨
      ∃ me, vm.currentTask = some me ∧
        (∀ d, deadline = some d → 0 < ahead d vm.tick) ∧
        popped = (.waitRetry, vm.parkOnQueue me q deadline) := by
  unfold blockingPop at done
  split at done
  · cases done
    exact .inl rfl
  · rename_i waits
    split at done
    · cases done
    · rename_i me current
      split at done
      · cases done
      · cases done
        refine .inr ⟨me, current, ?_, rfl⟩
        intro d given
        simpa [given] using waits

/-- A pop that is not refused takes an item, answers without one, or parks the
task that asks. -/
theorem queuePopTry_ok
    {nonBlock : Bool} {deadline : Option Int64} {boundary : Option String}
    {popped : Popped × Vm}
    (done : vm.queuePopTry q nonBlock deadline boundary = .ok popped) :
    ∃ data, vm.queueObjects q = some data ∧
      ((∃ item rest, data.items = item :: rest ∧
          popped = (.item item, vm.setQueue q { data with items := rest })) ∨
        data.items = [] ∧
          (popped = (.closed, vm) ∧ data.closed = true ∨
            data.closed = false ∧
              vm.blockingPop q (deadline.map fun d => d.toUInt64.toUInt32)
                boundary = .ok popped)) := by
  unfold queuePopTry at done
  obtain ⟨data, held, done⟩ := bind_ok done
  refine ⟨data, qItems_ok held, ?_⟩
  split at done
  · rename_i item rest items
    cases done
    exact .inl ⟨item, rest, items, rfl⟩
  · rename_i items
    refine .inr ⟨items, ?_⟩
    split at done
    · rename_i closed
      cases done
      exact .inl ⟨rfl, closed⟩
    · rename_i isOpen
      split at done
      · cases done
      · exact .inr ⟨by simpa using isOpen, done⟩

/-- Parking on a queue is one requeueing. -/
theorem parkOnQueue_eq
    (deadline : Option UInt32) :
    vm.parkOnQueue me q deadline =
      ((match deadline with
        | some d => (vm.requeue me (TaskData.onQueue q deadline)).noteWakeup d
        | none => vm.requeue me (TaskData.onQueue q deadline)) : Vm).park := by
  unfold parkOnQueue setStatus
  dsimp only
  rw [tdMut_requeue]
  cases deadline <;> rfl

theorem taskSetPriority_ok
    {n : Int64}
    (done : vm.taskSetPriority o n = .ok vm') :
    ∃ t priority, vm.live o = .ok t ∧
      vm' = vm.requeue o fun t => { t with priority := priority } := by
  unfold taskSetPriority at done
  obtain ⟨t, known, done⟩ := bind_ok done
  obtain ⟨priority, _, done⟩ := bind_ok done
  cases done
  exact ⟨t, priority, known, rfl⟩

theorem taskSuspend_ok
    (done : vm.taskSuspend o = .ok vm') :
    ∃ t, vm.live o = .ok t ∧
      (t.status = .dormant ∧ vm' = vm ∨
        t.status ≠ .dormant ∧
          (vm' = vm.setStatus o .suspended ∨
            vm' = (vm.setStatus o .suspended).park)) := by
  unfold taskSuspend at done
  obtain ⟨t, known, done⟩ := bind_ok done
  refine ⟨t, known, ?_⟩
  split at done
  · rename_i dormant
    cases done
    exact .inl ⟨dormant, rfl⟩
  · rename_i alive
    split at done
    · cases done
      exact .inr ⟨alive, .inr rfl⟩
    · cases done
      exact .inr ⟨alive, .inl rfl⟩

theorem taskResume_ok
    (done : vm.taskResume o = .ok vm') :
    ∃ t, vm.live o = .ok t ∧
      (vm' = vm ∨
        (t.status = .suspended ∨ t.status = .waiting ∧ t.reason = .sleep) ∧
          vm' = vm.requeue o TaskData.resumed) := by
  unfold taskResume at done
  obtain ⟨t, known, done⟩ := bind_ok done
  refine ⟨t, known, ?_⟩
  split at done
  · rename_i stopped
    unfold setStatus at done
    dsimp only at done
    rw [tdMut_requeue] at done
    cases done
    exact .inr ⟨stopped, rfl⟩
  · cases done
    exact .inl rfl

theorem taskTerminate_ok
    (done : vm.taskTerminate o = .ok vm') :
    ∃ t, vm.live o = .ok t ∧
      (t.status = .dormant ∧ vm' = vm ∨
        t.status ≠ .dormant ∧
          (vm' = vm.stopTask o ∨
            vm' = { vm.stopTask o with
              terminated := Function.update (vm.stopTask o).terminated
                (vm.stopTask o).cur true
              cur := vm.previous o })) := by
  unfold taskTerminate at done
  obtain ⟨t, known, done⟩ := bind_ok done
  refine ⟨t, known, ?_⟩
  split at done
  · rename_i dormant
    cases done
    exact .inl ⟨dormant, rfl⟩
  · rename_i alive
    split at done
    · cases done
      exact .inr ⟨alive, .inr rfl⟩
    · cases done
      exact .inr ⟨alive, .inl rfl⟩

theorem taskClose_ok
    (done : vm.taskClose o = .ok vm') :
    ∃ t, vm.tasks o = some t ∧ vm.isCurrent o = false ∧
      vm' = ((vm.qDelete o).endContext t.ctx).tdMut o fun t =>
        { t with status := .dormant } := by
  unfold taskClose at done
  obtain ⟨t, held, done⟩ := bind_ok done
  refine ⟨t, taskId_ok held, ?_⟩
  split at done
  · obtain ⟨_, refused, _⟩ := bind_ok done
    cases refused
  · rename_i other
    cases done
    exact ⟨by simpa using other, rfl⟩

theorem taskJoin_ok
    {joined : Value × Vm}
    (done : vm.taskJoin o = .ok joined) :
    ∃ t me, vm.live o = .ok t ∧ vm.currentTask = some me ∧ me ≠ o ∧
      (t.status = .dormant ∧ joined.2 = vm ∨
        t.status ≠ .dormant ∧
          joined.2 = (vm.requeue me (TaskData.joining o)).park) := by
  unfold taskJoin at done
  obtain ⟨t, known, done⟩ := bind_ok done
  split at done
  · cases done
  · rename_i me current
    split at done
    · cases done
    · rename_i other
      refine ⟨t, me, known, current, other, ?_⟩
      split at done
      · rename_i dormant
        cases done
        exact .inl ⟨dormant, rfl⟩
      · rename_i alive
        unfold setStatus at done
        dsimp only at done
        rw [tdMut_requeue] at done
        cases done
        exact .inr ⟨alive, rfl⟩

end Vm

end SabiRuby.Tasks
