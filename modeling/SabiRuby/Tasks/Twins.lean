import SabiRuby.Tasks.Wakeups

/-!
# Schedulers that differ in their indexes

Two schedulers are twins when they are the same but for what the indexes of
their waiting tasks are.  Every operation leaves twins twins, and it answers the
same in both.
-/

namespace SabiRuby.Tasks

open Library

/-- Two computations that raise the same error, or answer what is related. -/
inductive Agree {Answer : Type} (related : Answer → Answer → Prop) :
    Except Raised Answer → Except Raised Answer → Prop
  | raised (error : Raised) : Agree related (.error error) (.error error)
  | answered {first second : Answer} (both : related first second) :
      Agree related (.ok first) (.ok second)

theorem Agree.bind
    {Value Answer : Type} {related : Answer → Answer → Prop}
    (computation : Except Raised Value)
    {first second : Value → Except Raised Answer}
    (both : ∀ value, computation = .ok value →
      Agree related (first value) (second value)) :
    Agree related (computation >>= first) (computation >>= second) := by
  cases computation with
  | error error => exact .raised error
  | ok value => exact both value rfl

theorem Agree.map
    {Value Answer : Type}
    {before : Value → Value → Prop} {related : Answer → Answer → Prop}
    {first second : Except Raised Value}
    {answer : Value → Answer}
    (agree : Agree before first second)
    (both : ∀ left right, before left right →
      related (answer left) (answer right)) :
    Agree related (answer <$> first) (answer <$> second) := by
  cases agree with
  | raised error => exact .raised error
  | answered held => exact .answered (both _ _ held)

namespace Vm

variable {first second third : Vm} {o q : ObjId} {t : TaskData}

/-- The same scheduler but for the indexes of the waiting tasks. -/
structure Twin (first second : Vm) : Prop where
  alike : first.line.Alike second.line
  rest : second = { first with line := second.line }

/-- The answer is the same and so is what it leaves, but for the indexes. -/
def TwinAnswer {Answer : Type} (first second : Answer × Vm) : Prop :=
  first.1 = second.1 ∧ first.2.Twin second.2

theorem Twin.symm (twin : first.Twin second) : second.Twin first := by
  refine ⟨twin.alike.symm, ?_⟩
  rw [twin.rest]

theorem Twin.trans
    (left : first.Twin second)
    (right : second.Twin third) : first.Twin third := by
  refine ⟨left.alike.trans right.alike, ?_⟩
  rw [right.rest, left.rest]

/-- A twin is the scheduler with another `line`. -/
theorem Twin.eq
    (twin : first.Twin second) :
    ∃ line, first.line.Alike line ∧ second = { first with line := line } :=
  ⟨second.line, twin.alike, twin.rest⟩

theorem Twin.of_alike
    {vm : Vm} {line : TaskQueues}
    (alike : vm.line.Alike line) : vm.Twin { vm with line := line } :=
  ⟨alike, rfl⟩

theorem Twin.tasks (twin : first.Twin second) : second.tasks = first.tasks := by
  rw [twin.rest]

theorem Twin.tick (twin : first.Twin second) : second.tick = first.tick := by
  rw [twin.rest]

section

variable (twin : first.Twin second)
include twin

theorem Twin.wakeupTick : second.wakeupTick = first.wakeupTick := by
  rw [twin.rest]

theorem Twin.waitingTasks :
    second.line.waitingTasks = first.line.waitingTasks := by
  unfold TaskQueues.waitingTasks
  rw [twin.alike.waiting]

theorem Twin.currentTask : second.currentTask = first.currentTask := by
  rw [twin.rest]
  rfl

theorem Twin.live
    (o : ObjId) : second.live o = first.live o := by
  unfold Vm.live
  rw [← twin.alike.isQueued, twin.rest]
  rfl

end

theorem Twin.park (twin : first.Twin second) : first.park.Twin second.park := by
  obtain ⟨line, alike, rfl⟩ := twin.eq
  exact .of_alike alike

section

variable (twin : first.Twin second)
include twin

theorem Twin.tdMut
    (o : ObjId)
    (change : TaskData → TaskData) :
    (first.tdMut o change).Twin (second.tdMut o change) := by
  obtain ⟨line, alike, rfl⟩ := twin.eq
  exact .of_alike alike

theorem Twin.setQueue
    (q : ObjId)
    (data : QueueData) :
    (first.setQueue q data).Twin (second.setQueue q data) := by
  obtain ⟨line, alike, rfl⟩ := twin.eq
  exact .of_alike alike

theorem Twin.noteWakeup
    (deadline : UInt32) :
    (first.noteWakeup deadline).Twin (second.noteWakeup deadline) := by
  obtain ⟨line, alike, rfl⟩ := twin.eq
  unfold Vm.noteWakeup
  dsimp only
  split <;> exact .of_alike alike

theorem Twin.endContext
    (ctx : Option Nat) : (first.endContext ctx).Twin (second.endContext ctx) := by
  obtain ⟨line, alike, rfl⟩ := twin.eq
  unfold Vm.endContext
  cases ctx with
  | none => exact .of_alike alike
  | some ctx =>
      dsimp only
      split <;> exact .of_alike alike

end

/-! ## Requeueing -/

theorem Twin.requeue
    (twin : first.Twin second)
    (left : first.line.Recorded)
    (right : second.line.Recorded)
    (o : ObjId)
    (change : TaskData → TaskData) :
    (first.requeue o change).Twin (second.requeue o change) := by
  refine ⟨?_, ?_⟩
  · cases held : first.tasks o with
    | none =>
        have absent : second.tasks o = none := by rw [twin.tasks, held]
        rw [requeue_line_of_absent held, requeue_line_of_absent absent]
        exact twin.alike.qDelete o
    | some t =>
        have known : second.tasks o = some t := by rw [twin.tasks, held]
        exact (requeue_alike left held change).trans
          (((twin.alike.withdraw o).enter o (change t)).trans
            (requeue_alike right known change).symm)
  · obtain ⟨line, alike, rfl⟩ := twin.eq
    rfl

/-- Twins that are both in order. -/
structure Twins (first second : Vm) : Prop where
  twin : first.Twin second
  left : first.Orderly
  right : second.Orderly

section

variable (twins : first.Twins second)
include twins

theorem Twins.requeue
    (o : ObjId)
    (change : TaskData → TaskData) :
    (first.requeue o change).Twins (second.requeue o change) :=
  ⟨twins.twin.requeue twins.left.placed.recorded twins.right.placed.recorded o
      change, (twins.left.requeue o change).orderly,
    (twins.right.requeue o change).orderly⟩

theorem Twins.setStatus
    (o : ObjId)
    (status : Status) :
    (first.setStatus o status).Twins (second.setStatus o status) :=
  twins.requeue o _

theorem Twins.park : first.park.Twins second.park :=
  ⟨twins.twin.park, (twins.left.keeps.park).orderly,
    (twins.right.keeps.park).orderly⟩

end

theorem Twins.fold
    {Item : Type}
    (items : List Item)
    (act : Vm → Item → Vm)
    (both : ∀ first second : Vm, first.Twins second → ∀ item,
      (act first item).Twins (act second item))
    (twins : first.Twins second) :
    (items.foldl act first).Twins (items.foldl act second) := by
  induction items generalizing first second with
  | nil => exact twins
  | cons item rest ih =>
      exact ih (both first second twins item)

section

variable (twins : first.Twins second)
include twins

theorem Twins.waitingFor
    (target : ObjId) :
    second.line.waitingFor second.tasks target =
      first.line.waitingFor first.tasks target := by
  rw [twins.left.waitingFor_eq, twins.right.waitingFor_eq,
    twins.twin.waitingTasks, twins.twin.tasks]

theorem Twins.firstWaitingFor
    (target : ObjId) :
    second.line.firstWaitingFor second.tasks target =
      first.line.firstWaitingFor first.tasks target := by
  rw [firstWaitingFor_eq, firstWaitingFor_eq, twins.waitingFor]

theorem Twins.wake
    (o : ObjId) : (first.wake o).Twins (second.wake o) := by
  have woke := twins.requeue o woken
  refine ⟨?_, (twins.left.wake o).orderly, (twins.right.wake o).orderly⟩
  obtain ⟨line, alike, same⟩ := woke.twin.eq
  unfold Vm.wake
  rw [same]
  exact .of_alike alike

theorem Twins.wakeQueueWaiter
    (q o : ObjId) :
    (first.wakeQueueWaiter q o).Twins (second.wakeQueueWaiter q o) := by
  unfold Vm.wakeQueueWaiter
  rw [twins.twin.tasks]
  split
  · split
    · exact twins.wake o
    · exact twins
  · exact twins

theorem Twins.wakeQueueWaiters
    (q : ObjId)
    (all : Bool) :
    (first.wakeQueueWaiters q all).Twins (second.wakeQueueWaiters q all) := by
  unfold Vm.wakeQueueWaiters
  rw [twins.waitingFor, twins.firstWaitingFor]
  split
  · exact .fold _ _ (fun _ _ twins o => twins.wakeQueueWaiter q o) twins
  · split
    · exact twins.wakeQueueWaiter q _
    · exact twins

theorem Twins.wakeJoinWaiters
    (done : ObjId) :
    (first.wakeJoinWaiters done).Twins (second.wakeJoinWaiters done) := by
  unfold Vm.wakeJoinWaiters
  rw [twins.waitingFor]
  refine .fold _ _ (fun first second twins o => ?_) twins
  unfold wakeJoinWaiter
  rw [twins.twin.tasks]
  split
  · split
    · exact twins.requeue o _
    · exact twins
  · exact twins

end

/-! ## The scheduler -/

theorem Twin.endTask
    (twin : first.Twin second)
    (o : ObjId) :
    (first.endContext ((first.tasks o).bind TaskData.ctx)).Twin
      (second.endContext ((second.tasks o).bind TaskData.ctx)) := by
  rw [twin.tasks]
  exact twin.endContext _

section

variable (twins : first.Twins second)
include twins

theorem Twins.halted
    (o : ObjId) : (first.halted o).Twins (second.halted o) := by
  refine ⟨?_, (twins.left.halted o).orderly, (twins.right.halted o).orderly⟩
  unfold Vm.halted
  rw [← twins.twin.alike.isQueued]
  split
  · exact (twins.setStatus o .dormant).twin.endTask o
  · exact (twins.twin.tdMut o _).endTask o

theorem Twins.stopTask
    (o : ObjId) : (first.stopTask o).Twins (second.stopTask o) := by
  rw [stopTask_eq, stopTask_eq]
  exact (twins.halted o).wakeJoinWaiters o

theorem Twins.setResult
    (o : ObjId)
    (value : Value) :
    (first.tdMut o fun t => { t with result := value }).Twins
      (second.tdMut o fun t => { t with result := value }) :=
  ⟨twins.twin.tdMut o _, (twins.left.setResult o value).orderly,
    (twins.right.setResult o value).orderly⟩

theorem Twins.enterTask
    (o : ObjId) : (first.enterTask o).Twin (second.enterTask o) := by
  unfold Vm.enterTask
  rw [twins.twin.tasks]
  split
  · exact (twins.stopTask o).twin
  · rename_i ctx _
    have isOver : second.terminated ctx = first.terminated ctx := by
      rw [twins.twin.rest]
    rw [isOver]
    split
    · exact (twins.stopTask o).twin
    · obtain ⟨line, alike, rfl⟩ := twins.twin.eq
      exact .of_alike alike

theorem Twins.schedulerStep :
    first.schedulerStep.Twin second.schedulerStep := by
  unfold Vm.schedulerStep
  rw [← twins.twin.alike.queues, twins.twin.tasks]
  split
  · exact twins.twin
  · split
    · exact twins.twin
    · split
      · obtain ⟨line, alike, rfl⟩ := twins.twin.eq
        exact .of_alike (alike.qDelete _)
      · have cur : second.cur = first.cur := by rw [twins.twin.rest]
        rw [cur]
        split
        · exact twins.twin
        · exact twins.enterTask _

theorem Twins.terminate
    (ctx : Nat) :
    ({ first with
      terminated := Function.update first.terminated ctx true } : Vm).Twins
      { second with
        terminated := Function.update second.terminated ctx true } := by
  refine ⟨?_, Keeps.orderly (twins.left.keeps_of_same rfl rfl rfl rfl),
    Keeps.orderly (twins.right.keeps_of_same rfl rfl rfl rfl)⟩
  obtain ⟨line, alike, rfl⟩ := twins.twin.eq
  exact .of_alike alike

theorem Twins.settle
    (o : ObjId)
    (ctx : Nat)
    (outcome : Outcome) :
    (first.settle o ctx outcome).Twin (second.settle o ctx outcome) := by
  unfold Vm.settle
  cases outcome with
  | returned value =>
      exact (((twins.terminate ctx).setResult o value).stopTask o).twin
  | switched =>
      have isOver : second.terminated ctx = first.terminated ctx := by
        rw [twins.twin.rest]
      dsimp only
      rw [isOver, twins.twin.tasks]
      split
      · exact ((twins.setResult o .nil).stopTask o).twin
      · split
        · exact (twins.setStatus o .ready).twin
        · exact twins.twin
  | raised exc =>
      exact (((twins.setResult o exc).terminate ctx).stopTask o).twin
  | failed => exact ((twins.terminate ctx).stopTask o).twin

theorem Twins.leaveTask
    (outcome : Outcome) :
    (first.leaveTask outcome).Twin (second.leaveTask outcome) := by
  have slices : second.slices = first.slices := by rw [twins.twin.rest]
  unfold Vm.leaveTask
  rw [slices]
  split
  · exact twins.twin
  · rename_i o old rest _
    have back : ({ first with
        running := none
        switching := false
        slices := rest
        cur := old } : Vm).Twins
        { second with
          running := none
          switching := false
          slices := rest
          cur := old } := by
      refine ⟨?_, Keeps.orderly (twins.left.keeps_of_same rfl rfl rfl rfl),
        Keeps.orderly (twins.right.keeps_of_same rfl rfl rfl rfl)⟩
      obtain ⟨line, alike, rfl⟩ := twins.twin.eq
      exact .of_alike alike
    cases context : (first.tasks o).bind TaskData.ctx with
    | none =>
        have same := context
        rw [← twins.twin.tasks] at same
        simp only [context, same]
        exact back.twin
    | some ctx =>
        have same := context
        rw [← twins.twin.tasks] at same
        simp only [context, same]
        exact back.settle o ctx outcome

theorem Twins.createTask
    (priority : Nat) :
    TwinAnswer (first.createTask priority) (second.createTask priority) := by
  have next : second.next = first.next := by rw [twins.twin.rest]
  have outside {vm : Vm} (orderly : vm.Orderly) :
      (vm.line.places ⟨vm.next⟩).q = none := by
    by_contra queued
    exact orderly.placed.known _ queued (orderly.fresh _ le_rfl)
  have left := outside twins.left
  have right := outside twins.right
  refine ⟨by unfold Vm.createTask; rw [next], ?_, ?_⟩
  · unfold Vm.createTask Vm.qInsert
    dsimp only
    have table : second.tasks = first.tasks := twins.twin.tasks
    have contexts : second.contexts = first.contexts := by rw [twins.twin.rest]
    rw [next] at right ⊢
    rw [table, contexts]
    have held := Function.update_self (⟨first.next⟩ : ObjId)
      (some (α := TaskData)
        { ctx := some first.contexts
          priority := priority
          status := .ready
          reason := .none
          result := .nil
          wakeupTick := NO_WAKEUP
          join := none
          queue := none }) first.tasks
    exact (twins.left.placed.recorded.alike_qInsert _ _ left held).trans
      ((twins.twin.alike.enter _ _).trans
        (twins.right.placed.recorded.alike_qInsert _ _ right held).symm)
  · obtain ⟨line, alike, rfl⟩ := twins.twin.eq
    rfl

end

theorem Twin.taskCurrent
    (twin : first.Twin second) :
    TwinAnswer first.taskCurrent second.taskCurrent := by
  have main : second.main = first.main := by rw [twin.rest]
  unfold Vm.taskCurrent
  rw [twin.currentTask, main]
  split
  · exact ⟨rfl, twin⟩
  · exact ⟨rfl, twin⟩
  · obtain ⟨line, alike, rfl⟩ := twin.eq
    exact ⟨rfl, .of_alike alike⟩

/-! ## The clock -/

/-- What a look at the clock reads is the same in both. -/
structure TwinsMoved (first second : Vm) : Prop where
  twin : first.Twin second
  left : first.Moved
  right : second.Moved

theorem TwinsMoved.due
    (moved : first.TwinsMoved second) :
    second.findDue.1.1 = first.findDue.1.1 := by
  rw [moved.left.orderly.due_eq moved.left.dated,
    moved.right.orderly.due_eq moved.right.dated, moved.twin.waitingTasks,
    moved.twin.tasks, moved.twin.tick]

/-- The tasks found due leave the queues as they were. -/
theorem Orderly.twin_findDue
    {vm : Vm}
    (orderly : vm.Orderly) : vm.Twin vm.findDue.2 := by
  obtain ⟨_, queued, same⟩ := orderly.placed.findDue
  have kept : vm.line.queues = vm.findDue.2.line.queues ∧
      vm.line.seq = vm.findDue.2.line.seq := by
    unfold Vm.findDue
    split
    · have clocked : (vm.line.absTick vm.tick).Recorded :=
        orderly.placed.recorded.withClock vm.line.indexed vm.line.indexFrom _ _
      have taken := clocked.takeDue (vm.line.absTick vm.tick).tickAbs
        (vm.line.absTick vm.tick).sleepers.items.length le_rfl
      exact ⟨(congrArg TaskQueues.queues taken.same).symm,
        (congrArg TaskQueues.seq taken.same).symm⟩
    · exact ⟨rfl, rfl⟩
  exact ⟨⟨kept.1, kept.2, fun o => (queued o).symm⟩, same⟩

theorem Twin.setWakeup
    (twin : first.Twin second)
    (same : secondWakeup = firstWakeup) :
    ({ first with wakeupTick := firstWakeup } : Vm).Twin
      { second with wakeupTick := secondWakeup } := by
  obtain ⟨line, alike, rfl⟩ := twin.eq
  rw [same]
  exact .of_alike alike

theorem twin_wakes
    (due : List ObjId)
    (twin : first.Twin second)
    (left : first.PlacedBut due)
    (right : second.PlacedBut due) :
    (due.foldl wake first).Twin (due.foldl wake second) := by
  induction due generalizing first second with
  | nil => exact twin
  | cons o rest ih =>
      have elsewhere : ∀ t, qOf (woken t).status ≠ .waiting := woken_elsewhere
      have woke := twin.requeue left.recorded right.recorded o woken
      refine ih ?_
        ((left.requeue_elsewhere woken elsewhere).congr rfl rfl)
        ((right.requeue_elsewhere woken elsewhere).congr rfl rfl)
      obtain ⟨line, alike, same⟩ := woke.eq
      unfold Vm.wake
      rw [same]
      exact .of_alike alike

theorem TwinsMoved.wakeSleepers
    (moved : first.TwinsMoved second) :
    first.wakeSleepers.Twin second.wakeSleepers := by
  have reachedIff : second.Reached ↔ first.Reached := by
    unfold Reached
    rw [moved.twin.wakeupTick, moved.twin.tick]
  by_cases reached : first.Reached
  · have found : first.findDue.2.Twin second.findDue.2 :=
      moved.left.orderly.twin_findDue.symm.trans
        (moved.twin.trans moved.right.orderly.twin_findDue)
    have woke := twin_wakes first.findDue.1.1 found
      moved.left.orderly.placed.findDue.1
      (moved.due ▸ moved.right.orderly.placed.findDue.1)
    have tasks : second.wakeSleepers.tasks = first.wakeSleepers.tasks := by
      funext o
      rw [moved.left.wakeSleepers_tasks, moved.right.wakeSleepers_tasks,
        moved.twin.tasks, moved.twin.tick]
    have wakeup : second.wakeSleepers.wakeupTick =
        first.wakeSleepers.wakeupTick := by
      have right := moved.right.wakeSleepers_earliest (reachedIff.mpr reached)
      rw [tasks, moved.twin.tick] at right
      exact right.unique (moved.left.wakeSleepers_earliest reached)
    rw [wakeSleepers_of_reached reached,
      wakeSleepers_of_reached (reachedIff.mpr reached)] at wakeup ⊢
    rw [moved.due] at wakeup ⊢
    exact woke.setWakeup wakeup
  · rw [wakeSleepers_of_not_reached reached,
      wakeSleepers_of_not_reached (mt reachedIff.mp reached)]
    exact moved.twin

/-- Twins between two events. -/
structure TwinsClocked (first second : Vm) : Prop where
  twin : first.Twin second
  left : first.Clocked
  right : second.Clocked

section

variable (clocked : first.TwinsClocked second)
include clocked

theorem TwinsClocked.twins : first.Twins second :=
  ⟨clocked.twin, clocked.left.orderly, clocked.right.orderly⟩

theorem TwinsClocked.moved
    (n : UInt32)
    (half : n.toNat < 2 ^ 31) :
    ({ first with tick := first.tick + n } : Vm).TwinsMoved
      { second with tick := second.tick + n } := by
  refine ⟨?_, clocked.left.moved n half, clocked.right.moved n half⟩
  obtain ⟨line, alike, rfl⟩ := clocked.twin.eq
  exact .of_alike alike

theorem TwinsClocked.advanceTicks
    (n : UInt32)
    (half : n.toNat < 2 ^ 31) :
    (first.advanceTicks n).Twin (second.advanceTicks n) :=
  (clocked.moved n half).wakeSleepers

theorem TwinsClocked.idle :
    TwinAnswer first.idle second.idle := by
  have wakeup := clocked.twin.wakeupTick
  have tick := clocked.twin.tick
  by_cases none : first.wakeupTick = NO_WAKEUP
  · unfold Vm.idle
    rw [wakeup, if_pos none, if_pos none]
    exact ⟨rfl, clocked.twin⟩
  · have same : second.ticksToWakeup = first.ticksToWakeup := by
      unfold ticksToWakeup
      rw [wakeup, tick]
    rw [idle_eq none, idle_eq (wakeup ▸ none), same]
    exact ⟨rfl, clocked.advanceTicks _ first.ticksToWakeup_lt⟩

end

/-! ## The methods -/

section

variable (twins : first.Twins second)
include twins

theorem Twins.taskNew
    (priority : Option Int64) :
    Agree TwinAnswer (first.taskNew priority) (second.taskNew priority) := by
  unfold Vm.taskNew
  cases priority with
  | none => exact .answered (twins.createTask _)
  | some n => exact .bind _ fun p _ => .answered (twins.createTask p)

theorem Twins.taskPass
    (boundary : Option String) :
    Agree Twin (first.taskPass boundary) (second.taskPass boundary) := by
  have cur : second.cur = first.cur := by rw [twins.twin.rest]
  unfold Vm.taskPass
  rw [twins.twin.currentTask, cur]
  split
  · split
    · exact .answered twins.schedulerStep
    · exact .answered twins.twin
  · split
    · exact .raised _
    · exact .answered (twins.setStatus _ .ready).park.twin

theorem Twins.sleepForever
    (boundary : Option String) :
    Agree Twin (first.sleepForever boundary) (second.sleepForever boundary) := by
  unfold Vm.sleepForever
  rw [twins.twin.currentTask]
  split
  · exact .answered twins.twin
  · split
    · exact .raised _
    · exact .answered (twins.setStatus _ .suspended).park.twin

end

theorem TwinsClocked.sleepFor
    (clocked : first.TwinsClocked second)
    (call : SleepCall)
    (boundary : Option String) :
    Agree Twin (first.sleepFor call boundary)
      (second.sleepFor call boundary) := by
  unfold Vm.sleepFor
  refine .bind _ fun micros _ => ?_
  unfold sleepUs
  rw [clocked.twin.currentTask, clocked.twin.tick]
  dsimp only
  split
  · have short := sleepTicks_le micros
    exact .answered (clocked.advanceTicks _ (by omega))
  · split
    · exact .raised _
    · unfold Vm.setStatus
      rw [tdMut_requeue, tdMut_requeue]
      exact .answered ((clocked.twins.requeue _ _).twin.noteWakeup _).park

theorem Twin.qItems
    (twin : first.Twin second)
    (q : ObjId) : second.qItems q = first.qItems q := by
  rw [twin.rest]
  rfl

section

variable (twins : first.Twins second)
include twins

theorem Twins.setQueue
    (q : ObjId)
    (data : QueueData) :
    (first.setQueue q data).Twins (second.setQueue q data) :=
  ⟨twins.twin.setQueue q data, (twins.left.setQueue q data).orderly,
    (twins.right.setQueue q data).orderly⟩

theorem Twins.queuePush
    (q : ObjId)
    (value : Value) :
    Agree Twin (first.queuePush q value) (second.queuePush q value) := by
  unfold Vm.queuePush
  rw [twins.twin.qItems]
  refine .bind _ fun data _ => ?_
  split
  · exact .raised _
  · exact .answered ((twins.setQueue q _).wakeQueueWaiters q false).twin

theorem Twins.queueTryPop
    (q : ObjId) :
    Agree TwinAnswer (first.queueTryPop q) (second.queueTryPop q) := by
  unfold Vm.queueTryPop
  rw [twins.twin.qItems]
  refine .bind _ fun data _ => ?_
  split
  · exact .answered ⟨rfl, twins.twin⟩
  · exact .answered ⟨rfl, (twins.setQueue q _).twin⟩

theorem Twins.queueClear
    (q : ObjId) : Agree Twin (first.queueClear q) (second.queueClear q) := by
  unfold Vm.queueClear
  rw [twins.twin.qItems]
  exact .bind _ fun data _ => .answered (twins.setQueue q _).twin

theorem Twins.queueClose
    (q : ObjId) : Agree Twin (first.queueClose q) (second.queueClose q) := by
  unfold Vm.queueClose
  rw [twins.twin.qItems]
  refine .bind _ fun data _ => ?_
  split
  · exact .answered twins.twin
  · exact .answered ((twins.setQueue q _).wakeQueueWaiters q true).twin

theorem Twins.blockingPop
    (q : ObjId)
    (deadline : Option UInt32)
    (boundary : Option String) :
    Agree TwinAnswer (first.blockingPop q deadline boundary)
      (second.blockingPop q deadline boundary) := by
  unfold Vm.blockingPop
  rw [twins.twin.currentTask, twins.twin.tick]
  split
  · exact .answered ⟨rfl, twins.twin⟩
  · split
    · exact .raised _
    · split
      · exact .raised _
      · refine .answered ⟨rfl, ?_⟩
        dsimp only
        rw [parkOnQueue_eq, parkOnQueue_eq]
        cases deadline with
        | none => exact (twins.requeue _ _).twin.park
        | some d => exact ((twins.requeue _ _).twin.noteWakeup d).park

theorem Twins.queuePopTry
    (q : ObjId)
    (nonBlock : Bool)
    (deadline : Option Int64)
    (boundary : Option String) :
    Agree TwinAnswer (first.queuePopTry q nonBlock deadline boundary)
      (second.queuePopTry q nonBlock deadline boundary) := by
  unfold Vm.queuePopTry
  rw [twins.twin.qItems]
  refine .bind _ fun data _ => ?_
  split
  · exact .answered ⟨rfl, (twins.setQueue q _).twin⟩
  · split
    · exact .answered ⟨rfl, twins.twin⟩
    · split
      · exact .raised _
      · exact twins.blockingPop q _ boundary

theorem Twins.taskSetPriority
    (o : ObjId)
    (n : Int64) :
    Agree Twin (first.taskSetPriority o n) (second.taskSetPriority o n) := by
  unfold Vm.taskSetPriority
  rw [twins.twin.live]
  exact .bind _ fun t _ => .bind _ fun priority _ =>
    .answered (twins.requeue o _).twin

theorem Twins.taskSuspend
    (o : ObjId) : Agree Twin (first.taskSuspend o) (second.taskSuspend o) := by
  unfold Vm.taskSuspend
  rw [twins.twin.live, twins.twin.currentTask]
  refine .bind _ fun t _ => ?_
  split
  · exact .answered twins.twin
  · dsimp only
    split
    · exact .answered (twins.setStatus o .suspended).park.twin
    · exact .answered (twins.setStatus o .suspended).twin

theorem Twins.taskResume
    (o : ObjId) : Agree Twin (first.taskResume o) (second.taskResume o) := by
  unfold Vm.taskResume
  rw [twins.twin.live]
  refine .bind _ fun t _ => ?_
  split
  · unfold Vm.setStatus
    dsimp only
    rw [tdMut_requeue, tdMut_requeue]
    exact .answered (twins.requeue o _).twin
  · exact .answered twins.twin

theorem Twins.taskTerminate
    (o : ObjId) :
    Agree Twin (first.taskTerminate o) (second.taskTerminate o) := by
  have previous : second.previous o = first.previous o := by
    rw [twins.twin.rest]
    rfl
  unfold Vm.taskTerminate
  rw [twins.twin.live, twins.twin.currentTask, previous]
  refine .bind _ fun t _ => ?_
  split
  · exact .answered twins.twin
  · have stopped := (twins.stopTask o).twin
    dsimp only
    split
    · obtain ⟨line, alike, same⟩ := stopped.eq
      rw [same]
      exact .answered (.of_alike alike)
    · exact .answered stopped

theorem Twins.taskClose
    (o : ObjId) : Agree Twin (first.taskClose o) (second.taskClose o) := by
  have known : second.taskId o = first.taskId o := by
    rw [twins.twin.rest]
    rfl
  have current : second.isCurrent o = first.isCurrent o := by
    rw [twins.twin.rest]
    rfl
  unfold Vm.taskClose
  rw [known, current]
  refine .bind _ fun t _ => ?_
  split
  · exact .raised _
  · have left : (first.qDelete o).Twin (second.qDelete o) := by
      obtain ⟨line, alike, same⟩ := twins.twin.eq
      rw [same]
      exact .of_alike (alike.qDelete o)
    exact .answered ((left.endContext t.ctx).tdMut o _)

theorem Twins.taskJoin
    (o : ObjId) :
    Agree TwinAnswer (first.taskJoin o) (second.taskJoin o) := by
  unfold Vm.taskJoin
  rw [twins.twin.live, twins.twin.currentTask]
  refine .bind _ fun t _ => ?_
  split
  · exact .raised _
  · split
    · exact .raised _
    · split
      · exact .answered ⟨rfl, twins.twin⟩
      · unfold Vm.setStatus
        dsimp only
        rw [tdMut_requeue, tdMut_requeue]
        exact .answered ⟨rfl, (twins.requeue _ _).park.twin⟩

end

end Vm

end SabiRuby.Tasks
