import SabiRuby.Tasks.Scheduler

/-!
# The methods of tasks and queues

What `Task`, `Task::Queue`, the `sleep` family and the host do to the scheduler,
one definition for each, and the run of a task from the moment it is handed the
CPU to the moment it gives it back.  An operation that is refused answers what
it raises and changes nothing.  Where a native of the task stands on the host
stack the operation is given its name.
-/

namespace SabiRuby.Tasks

open Library

namespace Vm

/-- The task that owns the running context. -/
def currentTask (vm : Vm) : Option ObjId :=
  if vm.cur = ROOT then none
  else vm.running.filter fun o =>
    (vm.tasks o).any fun t => t.ctx = some vm.cur

/-- The error of a wait that a native on the host stack prevents. -/
def boundaryError (method what : String) : Raised :=
  .runtime ("can't wait inside " ++ method ++ " (" ++ what ++ ")")

/-- An object that is a task. -/
def taskId (vm : Vm) (o : ObjId) : Except Raised TaskData :=
  match vm.tasks o with
  | some t => .ok t
  | none => .error (.type "not a Task")

/-- A task the scheduler still knows, or the main one. -/
def live (vm : Vm) (o : ObjId) : Except Raised TaskData := do
  let t ← vm.taskId o
  if !vm.line.isQueued o && vm.main != some o then
    throw (.argument "task is closed")
  return t

/-- Whether a task is the one running now, the main one included. -/
def isCurrent (vm : Vm) (o : ObjId) : Bool :=
  vm.currentTask = some o || (vm.cur = ROOT && vm.main = some o)

/-- Makes a task and puts it in the ready queue. -/
def createTask (vm : Vm) (priority : Nat) : ObjId × Vm :=
  let o : ObjId := ⟨vm.next⟩
  let task : TaskData :=
    { ctx := some vm.contexts
      priority := priority
      status := .ready
      reason := .none
      result := .nil
      wakeupTick := NO_WAKEUP
      join := none
      queue := none }
  let vm :=
    { vm with
      next := vm.next + 1
      contexts := vm.contexts + 1
      tasks := Function.update vm.tasks o (some task) }
  (o, vm.qInsert o)

/-- The priority a program asks for. -/
def taskPriority (priority : Int64) : Except Raised Nat :=
  if 0 ≤ priority.toInt ∧ priority.toInt ≤ 255 then .ok priority.toInt.toNat
  else .error (.argument "priority must be 0..255")

/-- `Task.new`. -/
def taskNew (vm : Vm) (priority : Option Int64) :
    Except Raised (ObjId × Vm) := do
  match priority with
  | none => return vm.createTask PRIORITY_DEFAULT
  | some n =>
      let priority ← taskPriority n
      return vm.createTask priority

/-- `Task.current`: in the root context the task that stands for the program
itself, made on first use and never scheduled. -/
def taskCurrent (vm : Vm) : ObjId × Vm :=
  match vm.currentTask, vm.main with
  | some o, _ => (o, vm)
  | none, some o => (o, vm)
  | none, none =>
      let o : ObjId := ⟨vm.next⟩
      let task : TaskData :=
        { ctx := some ROOT
          priority := 0
          status := .running
          reason := .none
          result := .nil
          wakeupTick := NO_WAKEUP
          join := none
          queue := none }
      (o,
        { vm with
          next := vm.next + 1
          tasks := Function.update vm.tasks o (some task)
          main := some o })

/-- A joined task is over: its joiner becomes ready. -/
def wakeJoinWaiter (done : ObjId) (vm : Vm) (o : ObjId) : Vm :=
  match vm.tasks o with
  | some t =>
      if t.reason = .join ∧ t.join = some done then
        vm.requeue o fun t =>
          { t with status := .ready, reason := .none, join := none }
      else vm
  | none => vm

/-- Whoever joined a task becomes ready. -/
def wakeJoinWaiters (vm : Vm) (done : ObjId) : Vm :=
  (vm.line.waitingFor vm.tasks done).foldl (wakeJoinWaiter done) vm

/-- Ends the context of a task, unless it is the running one. -/
def endContext (vm : Vm) (ctx : Option Nat) : Vm :=
  match ctx with
  | some ctx =>
      if ctx = vm.cur then vm
      else { vm with terminated := Function.update vm.terminated ctx true }
  | none => vm

/-- The task is over: dormant, and whoever joined it becomes ready. -/
def stopTask (vm : Vm) (o : ObjId) : Vm :=
  let vm :=
    if vm.line.isQueued o then vm.setStatus o .dormant
    else vm.tdMut o fun t => { t with status := .dormant }
  let vm := vm.endContext ((vm.tasks o).bind TaskData.ctx)
  vm.wakeJoinWaiters o

/-- Hands a task the CPU, unless its context is over already. -/
def enterTask (vm : Vm) (o : ObjId) : Vm :=
  match (vm.tasks o).bind TaskData.ctx with
  | none => vm.stopTask o
  | some ctx =>
      if vm.terminated ctx then vm.stopTask o
      else
        { vm.tdMut o (fun t => { t with status := .running }) with
          running := some o
          switching := false
          slices := (o, vm.cur) :: vm.slices
          cur := ctx }

/-- One turn of the scheduler. -/
def schedulerStep (vm : Vm) : Vm :=
  match (vm.line.queues .ready).items.head? with
  | none => vm
  | some (_, o) =>
      match vm.tasks o with
      | none => vm
      | some t =>
          if t.status = .dormant then vm.qDelete o
          else if t.ctx = some vm.cur then vm
          else vm.enterTask o

/-- How the run of a task ends for the scheduler: its block returned, it was
switched out, it raised, or the VM failed. -/
inductive Outcome
  | returned (value : Value)
  | switched
  | raised (exc : Value)
  | failed
deriving DecidableEq, Repr

/-- What the scheduler does with a task that gave the CPU back. -/
def settle (vm : Vm) (o : ObjId) (ctx : Nat) (outcome : Outcome) : Vm :=
  match outcome with
  | .returned value =>
      let vm :=
        { vm with terminated := Function.update vm.terminated ctx true }
      (vm.tdMut o fun t => { t with result := value }).stopTask o
  | .switched =>
      if vm.terminated ctx then
        (vm.tdMut o fun t => { t with result := .nil }).stopTask o
      else if (vm.tasks o).any fun t => t.status = .running then
        vm.setStatus o .ready
      else vm
  | .raised exc =>
      let vm := vm.tdMut o fun t => { t with result := exc }
      { vm with
        terminated := Function.update vm.terminated ctx true }.stopTask o
  | .failed =>
      { vm with
        terminated := Function.update vm.terminated ctx true }.stopTask o

/-- The innermost run of a task ends, and the context it was handed the CPU from
goes on. -/
def leaveTask (vm : Vm) (outcome : Outcome) : Vm :=
  match vm.slices with
  | [] => vm
  | (o, old) :: rest =>
      let vm :=
        { vm with
          running := none
          switching := false
          slices := rest
          cur := old }
      match (vm.tasks o).bind TaskData.ctx with
      | some ctx => vm.settle o ctx outcome
      | none => vm

/-- Hands the CPU back to the scheduler at the next instruction. -/
def park (vm : Vm) : Vm :=
  { vm with switching := true }

/-- `Task.pass`. -/
def taskPass (vm : Vm) (boundary : Option String) : Except Raised Vm :=
  match vm.currentTask with
  | none => .ok (if vm.cur = ROOT then vm.schedulerStep else vm)
  | some o =>
      match boundary with
      | some native => .error (boundaryError native "Task.pass")
      | none => .ok (vm.setStatus o .ready).park

/-- `sleep` without an argument. -/
def sleepForever (vm : Vm) (boundary : Option String) : Except Raised Vm :=
  match vm.currentTask with
  | none => .ok vm
  | some o =>
      match boundary with
      | some native => .error (boundaryError native "sleep")
      | none => .ok (vm.setStatus o .suspended).park

/-- The ticks of a wait in microseconds: rounded up to milliseconds, narrowed to
32 bits, and rounded up to ticks. -/
def sleepTicks (micros : Nat) : UInt32 :=
  let millis := (UInt32.ofNat ((micros + 999) / 1000)).toNat
  UInt32.ofNat ((millis + (TICK_UNIT_MS - 1)) / TICK_UNIT_MS)

/-- The wait itself: a task is parked until its deadline; outside a task the
clock moves on. -/
def sleepUs
    (vm : Vm)
    (micros : Nat)
    (what : String)
    (boundary : Option String) : Except Raised Vm :=
  let ticks := sleepTicks micros
  match vm.currentTask with
  | none => .ok (vm.advanceTicks ticks)
  | some o =>
      match boundary with
      | some native => .error (boundaryError native what)
      | none =>
          let deadline := normalize (vm.tick + ticks)
          let vm := vm.tdMut o fun t =>
            { t with reason := .sleep, wakeupTick := deadline }
          .ok ((vm.setStatus o .waiting).noteWakeup deadline).park

/-- The calls that sleep for a time given as an Integer. -/
inductive SleepCall
  | sleep (secs : Int64)
  | sleepMs (ms : Int64)
  | usleep (us : Int64)
deriving DecidableEq, Repr

/-- The microseconds a call hands to the wait, where it is not refused.
`sleep` multiplies as a Float and clamps the product to 32 bits, which for an
Integer is the exact product clamped; `sleep_ms` multiplies to at most
64 bits. -/
def SleepCall.micros : SleepCall → Except Raised Nat
  | .sleep secs =>
      if secs.toInt < 0 then
        .error (.argument "time interval must be positive")
      else .ok (min (secs.toInt.toNat * 1000000) (2 ^ 32 - 1))
  | .sleepMs ms =>
      if ms.toInt < 0 then
        .error (.argument "time interval must be positive")
      else .ok (min (ms.toInt.toNat * 1000) (2 ^ 64 - 1))
  | .usleep us =>
      if us.toInt < 0 then
        .error (.argument "time interval must be positive")
      else .ok us.toInt.toNat

/-- The name the error of a call uses. -/
def SleepCall.what : SleepCall → String
  | .sleep _ => "sleep"
  | .sleepMs _ => "sleep_ms"
  | .usleep _ => "usleep"

/-- `sleep`, `sleep_ms` and `usleep`. -/
def sleepFor
    (vm : Vm)
    (call : SleepCall)
    (boundary : Option String) : Except Raised Vm := do
  let micros ← call.micros
  vm.sleepUs micros call.what boundary

/-- `Task::Queue.new`. -/
def queueNew (vm : Vm) : ObjId × Vm :=
  let q : ObjId := ⟨vm.next⟩
  (q,
    { vm with
      next := vm.next + 1
      queueObjects := Function.update vm.queueObjects q
        (some { items := [], closed := false }) })

/-- A queue that went through `initialize`. -/
def qItems (vm : Vm) (q : ObjId) : Except Raised QueueData :=
  match vm.queueObjects q with
  | some data => .ok data
  | none => .error (.argument "invalid queue")

/-- Rewrites a queue. -/
def setQueue (vm : Vm) (q : ObjId) (data : QueueData) : Vm :=
  { vm with queueObjects := Function.update vm.queueObjects q (some data) }

/-- Makes one task parked on a queue ready. -/
def wakeQueueWaiter (queue : ObjId) (vm : Vm) (o : ObjId) : Vm :=
  match vm.tasks o with
  | some t =>
      if t.reason = .queue ∧ t.queue = some queue then vm.wake o else vm
  | none => vm

/-- Wakes the tasks parked on a queue: the first one for a push, all of them for
a close. -/
def wakeQueueWaiters (vm : Vm) (queue : ObjId) (all : Bool) : Vm :=
  if all then (vm.line.waitingFor vm.tasks queue).foldl (wakeQueueWaiter queue) vm
  else
    match vm.line.firstWaitingFor vm.tasks queue with
    | some o => vm.wakeQueueWaiter queue o
    | none => vm

/-- `Queue#push`, and a push from the host. -/
def queuePush (vm : Vm) (q : ObjId) (value : Value) : Except Raised Vm := do
  let data ← vm.qItems q
  if data.closed then throw (.task "queue closed")
  let vm := vm.setQueue q { data with items := data.items ++ [value] }
  return vm.wakeQueueWaiters q false

/-- One item out of a queue for the host, which never parks. -/
def queueTryPop (vm : Vm) (q : ObjId) : Except Raised (Option Value × Vm) := do
  let data ← vm.qItems q
  match data.items with
  | [] => return (none, vm)
  | item :: rest => return (some item, vm.setQueue q { data with items := rest })

/-- `Queue#clear`. -/
def queueClear (vm : Vm) (q : ObjId) : Except Raised Vm := do
  let data ← vm.qItems q
  return vm.setQueue q { data with items := [] }

/-- `Queue#close`. -/
def queueClose (vm : Vm) (q : ObjId) : Except Raised Vm := do
  let data ← vm.qItems q
  if data.closed then return vm
  return (vm.setQueue q { data with closed := true }).wakeQueueWaiters q true

/-- The deadline of a wait given in milliseconds, `Queue#__deadline`. -/
def queueDeadline (vm : Vm) (ms : Int64) : Except Raised UInt32 :=
  if ms.toInt < 0 then
    .error (.argument "timeout_ms must be non-negative")
  else
    let ticks := (ms.toInt.toNat + (TICK_UNIT_MS - 1)) / TICK_UNIT_MS
    if 2 ^ 31 - 1 < ticks then .error (.range "timeout_ms is too large")
    else .ok (normalize (vm.tick + UInt32.ofNat ticks))

/-- What `Queue#__pop_try` answers. -/
inductive Popped
  | item (value : Value)
  | closed
  | waitTimeout
  | waitRetry
deriving DecidableEq, Repr

/-- Parks a task on a queue. -/
def parkOnQueue
    (vm : Vm)
    (me q : ObjId)
    (deadline : Option UInt32) : Vm :=
  let vm := vm.tdMut me fun t =>
    { t with
      reason := .queue
      queue := some q
      wakeupTick := deadline.getD NO_WAKEUP }
  let vm := vm.setStatus me .waiting
  let vm :=
    match deadline with
    | some deadline => vm.noteWakeup deadline
    | none => vm
  vm.park

/-- A pop of an empty queue that may wait. -/
def blockingPop
    (vm : Vm)
    (q : ObjId)
    (deadline : Option UInt32)
    (boundary : Option String) : Except Raised (Popped × Vm) :=
  if deadline.any fun d => ahead d vm.tick ≤ 0 then .ok (.waitTimeout, vm)
  else
    match vm.currentTask with
    | none =>
        .error (.runtime "blocking pop can only be called from within a task")
    | some me =>
        match boundary with
        | some native => .error (boundaryError native "Task::Queue#pop")
        | none => .ok (.waitRetry, vm.parkOnQueue me q deadline)

/-- `Queue#__pop_try`: one item, or the sentinel that says the caller was parked
and should ask again once it runs. -/
def queuePopTry
    (vm : Vm)
    (q : ObjId)
    (nonBlock : Bool)
    (deadline : Option Int64)
    (boundary : Option String) : Except Raised (Popped × Vm) := do
  let data ← vm.qItems q
  match data.items with
  | item :: rest =>
      return (.item item, vm.setQueue q { data with items := rest })
  | [] =>
      if data.closed then return (.closed, vm)
      else if nonBlock then throw (.task "queue empty")
      else vm.blockingPop q (deadline.map fun d => d.toUInt64.toUInt32) boundary

/-- `Task#priority=`. -/
def taskSetPriority (vm : Vm) (o : ObjId) (n : Int64) : Except Raised Vm := do
  let _ ← vm.live o
  let priority ← taskPriority n
  return vm.requeue o fun t => { t with priority := priority }

/-- `Task#suspend`. -/
def taskSuspend (vm : Vm) (o : ObjId) : Except Raised Vm := do
  let t ← vm.live o
  if t.status = .dormant then return vm
  let suspended := vm.setStatus o .suspended
  if vm.currentTask = some o then return suspended.park
  return suspended

/-- `Task#resume`. -/
def taskResume (vm : Vm) (o : ObjId) : Except Raised Vm := do
  let t ← vm.live o
  if t.status = .suspended ∨ t.status = .waiting ∧ t.reason = .sleep then
    let vm := vm.tdMut o fun t =>
      { t with reason := .none, wakeupTick := NO_WAKEUP }
    return vm.setStatus o .ready
  return vm

/-- The context the CPU of a task was handed it from. -/
def previous (vm : Vm) (o : ObjId) : Nat :=
  ((vm.slices.find? fun slice => slice.1 = o).map Prod.snd).getD ROOT

/-- `Task#terminate`. -/
def taskTerminate (vm : Vm) (o : ObjId) : Except Raised Vm := do
  let t ← vm.live o
  if t.status = .dormant then return vm
  let stopped := vm.stopTask o
  if vm.currentTask = some o then
    return { stopped with
      terminated := Function.update stopped.terminated stopped.cur true
      cur := vm.previous o }
  return stopped

/-- `Task#close`. -/
def taskClose (vm : Vm) (o : ObjId) : Except Raised Vm := do
  let t ← vm.taskId o
  if vm.isCurrent o then throw (.runtime "cannot close the current task")
  let vm := (vm.qDelete o).endContext t.ctx
  return vm.tdMut o fun t => { t with status := .dormant }

/-- `Task#join`: the result as it stands. -/
def taskJoin (vm : Vm) (o : ObjId) : Except Raised (Value × Vm) := do
  let t ← vm.live o
  match vm.currentTask with
  | none => throw (.runtime "join can only be called from running task")
  | some me =>
      if me = o then throw (.argument "can't join self")
      else if t.status = .dormant then return (t.result, vm)
      else
        let vm := vm.tdMut me fun t =>
          { t with reason := .join, join := some o }
        return (t.result, (vm.setStatus me .waiting).park)

end Vm

/-- What can happen to the scheduler.  `fiberSwitch` is any switch between
contexts that is not the scheduler's own. -/
inductive Event
  | taskNew (priority : Option Int64)
  | taskCurrent
  | pass (boundary : Option String)
  | sleepForever (boundary : Option String)
  | sleep (call : Vm.SleepCall) (boundary : Option String)
  | queueNew
  | push (q : ObjId) (value : Value)
  | popTry
      (q : ObjId)
      (nonBlock : Bool)
      (deadline : Option Int64)
      (boundary : Option String)
  | tryPop (q : ObjId)
  | clear (q : ObjId)
  | closeQueue (q : ObjId)
  | setPriority (o : ObjId) (priority : Int64)
  | suspend (o : ObjId)
  | resume (o : ObjId)
  | terminate (o : ObjId)
  | close (o : ObjId)
  | join (o : ObjId)
  | schedule
  | leave (outcome : Vm.Outcome)
  | fiberSwitch (ctx : Nat)
  | advanceTicks (n : UInt32)
  | idle
  | setIndexFrom (n : Nat)
deriving DecidableEq, Repr

namespace Vm

/-- The VM an operation leaves, or what it raises. -/
def perform (vm : Vm) : Event → Except Raised Vm
  | .taskNew priority => Prod.snd <$> vm.taskNew priority
  | .taskCurrent => .ok vm.taskCurrent.2
  | .pass boundary => vm.taskPass boundary
  | .sleepForever boundary => vm.sleepForever boundary
  | .sleep call boundary => vm.sleepFor call boundary
  | .queueNew => .ok vm.queueNew.2
  | .push q value => vm.queuePush q value
  | .popTry q nonBlock deadline boundary =>
      Prod.snd <$> vm.queuePopTry q nonBlock deadline boundary
  | .tryPop q => Prod.snd <$> vm.queueTryPop q
  | .clear q => vm.queueClear q
  | .closeQueue q => vm.queueClose q
  | .setPriority o priority => vm.taskSetPriority o priority
  | .suspend o => vm.taskSuspend o
  | .resume o => vm.taskResume o
  | .terminate o => vm.taskTerminate o
  | .close o => vm.taskClose o
  | .join o => Prod.snd <$> vm.taskJoin o
  | .schedule => .ok vm.schedulerStep
  | .leave outcome => .ok (vm.leaveTask outcome)
  | .fiberSwitch ctx => .ok { vm with cur := ctx }
  | .advanceTicks n => .ok (vm.advanceTicks n)
  | .idle => .ok vm.idle.2
  | .setIndexFrom n =>
      .ok { vm with line := vm.line.setIndexFrom vm.tasks vm.tick n }

/-- One event: a refused operation changes nothing. -/
def step (vm : Vm) (event : Event) : Vm :=
  match vm.perform event with
  | .ok next => next
  | .error _ => vm

/-- A run. -/
def run (vm : Vm) (events : List Event) : Vm :=
  events.foldl step vm

end Vm

end SabiRuby.Tasks
