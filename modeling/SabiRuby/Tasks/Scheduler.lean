import SabiRuby.Tasks.Data

/-!
# Queues, indexes and the clock

How a task enters and leaves the queues, how the waiting ones are indexed once
there are enough of them, and what a move of the clock wakes.
-/

namespace SabiRuby.Tasks

open Library

namespace TaskData

/-- The object a waiting task waits for. -/
def target (t : TaskData) : Option ObjId :=
  match t.reason with
  | .queue => t.queue
  | .join => t.join
  | _ => none

/-- Whether a waiting task has a deadline. -/
def hasDeadline (t : TaskData) : Bool :=
  (t.reason = .sleep || t.reason = .queue) && t.wakeupTick != NO_WAKEUP

/-- Whether a waiting task waits for an object. -/
def waitsFor (t : TaskData) (target : ObjId) : Bool :=
  match t.reason with
  | .queue => t.queue = some target
  | .join => t.join = some target
  | _ => false

end TaskData

namespace TaskQueues

/-- The tasks waiting. -/
def waiting (line : TaskQueues) : SortedDeque Key ObjId :=
  line.queues .waiting

/-- Records where a task is. -/
def setPlace
    (line : TaskQueues)
    (o : ObjId)
    (place : TaskPlace) : TaskQueues :=
  { line with places := Function.update line.places o place }

/-- The tick counted from the start without wrapping, brought up to date. -/
def absTick (line : TaskQueues) (tick : UInt32) : TaskQueues :=
  { line with
    tickAbs := line.tickAbs + (tick - line.tickSeen).toNat
    tickSeen := tick }

/-- A deadline on the clock that does not wrap, which is brought up to date
first. -/
def absDeadline
    (line : TaskQueues)
    (tick deadline : UInt32) : Nat × TaskQueues :=
  let line := line.absTick tick
  (((line.tickAbs : Int) + ahead deadline tick).toNat, line)

/-- Puts a task in the sleepers where it has a deadline, and answers that. -/
def indexDeadline
    (line : TaskQueues)
    (tick : UInt32)
    (o : ObjId)
    (seq : Nat)
    (t : TaskData) : Option Nat × TaskQueues :=
  if t.hasDeadline then
    let (deadline, line) := line.absDeadline tick t.wakeupTick
    (some deadline,
      { line with sleepers := line.sleepers.insert ⟨deadline, seq⟩ o })
  else (none, line)

/-- Puts a task in the waiters where it waits for an object, and answers
that. -/
def indexTarget
    (line : TaskQueues)
    (o : ObjId)
    (seq : Nat)
    (t : TaskData) : Option ObjId × TaskQueues :=
  match t.target with
  | some target =>
      (some target,
        { line with waiters := line.waiters.insert ⟨target.index, seq⟩ o })
  | none => (none, line)

/-- Puts one waiting task in the indexes its fields call for, and records its
place in a queue with them. -/
def indexOne
    (line : TaskQueues)
    (tick : UInt32)
    (o : ObjId)
    (seq : Nat)
    (t : TaskData)
    (queued : QueueIndex × Key) : TaskQueues :=
  let (deadline, line) := line.indexDeadline tick o seq t
  let (target, line) := line.indexTarget o seq t
  line.setPlace o (.set queued.1 queued.2 deadline target)

section Tables

variable (tasks : ObjId → Option TaskData) (tick : UInt32)

/-- Indexes the task of an entry of the waiting queue. -/
def indexEntry (line : TaskQueues) (entry : Key × ObjId) : TaskQueues :=
  match tasks entry.2 with
  | some t =>
      line.indexOne tick entry.2 entry.1.seq t
        ((line.places entry.2).queued.getD (.waiting, ⟨0, entry.1.seq⟩))
  | none => line

/-- From now on a deadline and a waited-for object are found through the
indexes, and every task already waiting goes in them. -/
def buildIndex (line : TaskQueues) : TaskQueues :=
  line.waiting.items.foldl (indexEntry tasks tick)
    { line with indexed := true }

/-- The place of a waiting task leaves the indexes. -/
def unindexEntry (line : TaskQueues) (entry : Key × ObjId) : TaskQueues :=
  line.setPlace entry.2 (line.places entry.2).unindex

/-- Index the tasks already waiting. -/
def indexWaiting (line : TaskQueues) : TaskQueues :=
  if line.indexed then line else line.buildIndex tasks tick

/-- Stop indexing the tasks that wait. -/
def unindexWaiting (line : TaskQueues) : TaskQueues :=
  if line.indexed then
    { line.waiting.items.foldl unindexEntry line with
      sleepers := ⟨[]⟩
      waiters := ⟨[]⟩
      indexed := false }
  else line

/-- An empty waiting queue needs no index, unless the host wants it from the
first task on. -/
def unindexIfEmpty (line : TaskQueues) : TaskQueues :=
  if line.indexed ∧ 0 < line.indexFrom ∧ line.waiting.items = [] then
    { line with indexed := false }
  else line

/-- How many waiting tasks it takes to index them. -/
def setIndexFrom (line : TaskQueues) (n : Nat) : TaskQueues :=
  let line := { line with indexFrom := n }
  if n = 0 ∨ n ≤ line.waiting.items.length then
    line.indexWaiting tasks tick
  else line.unindexWaiting

/-- Takes the keys that the place of a task records out of its queue and out of
the indexes. -/
def withdraw (line : TaskQueues) (o : ObjId) : TaskQueues :=
  { line with
    queues :=
      match (line.places o).queued with
      | some (q, key) =>
          Function.update line.queues q ((line.queues q).remove key).2
      | none => line.queues
    sleepers :=
      match (line.places o).sleepKey with
      | some key => (line.sleepers.remove key).2
      | none => line.sleepers
    waiters :=
      match (line.places o).waitKey with
      | some key => (line.waiters.remove key).2
      | none => line.waiters
    places := Function.update line.places o .NONE }

/-- Takes a task out of whichever queue holds it, and out of the indexes. -/
def qDelete (line : TaskQueues) (o : ObjId) : TaskQueues :=
  if (line.places o).q = some .waiting then (line.withdraw o).unindexIfEmpty
  else line.withdraw o

/-- The key of a task in the queue its status names: the ready one is ordered by
priority and by arrival within one priority. -/
def keyOf (line : TaskQueues) (t : TaskData) : Key :=
  ⟨if qOf t.status = .ready then t.priority else 0, line.seq⟩

/-- Puts a task at the key of its queue. -/
def enqueue (line : TaskQueues) (o : ObjId) (t : TaskData) : TaskQueues :=
  { line with
    seq := line.seq + 1
    queues :=
      Function.update line.queues (qOf t.status)
        ((line.queues (qOf t.status)).insert (line.keyOf t) o) }

/-- Puts a task in the queue its status names, and a waiting one in the
indexes. -/
def qInsert (line : TaskQueues) (o : ObjId) : TaskQueues :=
  match tasks o with
  | none => line
  | some t =>
      let queued := (qOf t.status, line.keyOf t)
      let line := line.enqueue o t
      if queued.1 = .waiting then
        if line.indexed then line.indexOne tick o queued.2.seq t queued
        else
          let line := line.setPlace o (.set queued.1 queued.2 none none)
          if line.indexFrom ≤ line.waiting.items.length then
            line.buildIndex tasks tick
          else line
      else line.setPlace o (.set queued.1 queued.2 none none)

/-- The tasks waiting for an object in the order they began to wait. -/
def waitingFor (line : TaskQueues) (target : ObjId) : List ObjId :=
  if line.indexed then
    ((line.waiters.iterFrom ⟨target.index, 0⟩).takeWhile
      fun entry => entry.1.major = target.index).map Prod.snd
  else
    (line.waiting.items.map Prod.snd).filter fun o =>
      (tasks o).any fun t => t.waitsFor target

/-- The first task waiting for an object. -/
def firstWaitingFor (line : TaskQueues) (target : ObjId) : Option ObjId :=
  if line.indexed then
    ((line.waiters.iterFrom ⟨target.index, 0⟩).head?.filter
      fun entry => entry.1.major = target.index).map Prod.snd
  else
    (line.waiting.items.map Prod.snd).find? fun o =>
      (tasks o).any fun t => t.waitsFor target

/-- One entry of a walk of the waiting queue: the tasks due and the earliest of
the other deadlines. -/
def walkEntry
    (found : List ObjId × UInt32)
    (entry : Key × ObjId) : List ObjId × UInt32 :=
  match tasks entry.2 with
  | some t =>
      if !t.hasDeadline then found
      else if ahead t.wakeupTick tick ≤ 0 then
        (found.1 ++ [entry.2], found.2)
      else if found.2 = NO_WAKEUP ∨ ahead t.wakeupTick found.2 < 0 then
        (found.1, t.wakeupTick)
      else found
  | none => found

end Tables

/-- Whether a task is in a queue. -/
def isQueued (line : TaskQueues) (o : ObjId) : Bool :=
  (line.places o).queued.isSome

/-- Takes the first sleeper, whose key is given, out of the index. -/
def unsleep (line : TaskQueues) (key : Key) (o : ObjId) : TaskQueues :=
  { line with sleepers := (line.sleepers.remove key).2 }.setPlace o
    (line.places o).unsleep

/-- The sleepers that are due by a tick of the clock that does not wrap, taken
out of the index one by one from its front. -/
def takeDue (now : Nat) : Nat → TaskQueues → List (Nat × ObjId) × TaskQueues
  | 0, line => ([], line)
  | fuel + 1, line =>
      match line.sleepers.firstKeyValue with
      | some (key, o) =>
          if now < key.major then ([], line)
          else
            let (due, line) := takeDue now fuel (line.unsleep key o)
            ((key.seq, o) :: due, line)
      | none => ([], line)

end TaskQueues

namespace Vm

/-- Rewrites the fields of a task. -/
def tdMut (vm : Vm) (o : ObjId) (change : TaskData → TaskData) : Vm :=
  { vm with
    tasks := Function.update vm.tasks o ((vm.tasks o).map change) }

/-- Takes a task out of the queues. -/
def qDelete (vm : Vm) (o : ObjId) : Vm :=
  { vm with line := vm.line.qDelete o }

/-- Puts a task in the queue its fields say. -/
def qInsert (vm : Vm) (o : ObjId) : Vm :=
  { vm with line := vm.line.qInsert vm.tasks vm.tick o }

/-- Takes the task out of the queue and the indexes it is in, rewrites its
fields, and puts it where those fields say. -/
def requeue (vm : Vm) (o : ObjId) (change : TaskData → TaskData) : Vm :=
  ((vm.qDelete o).tdMut o change).qInsert o

/-- Requeues a task under another status. -/
def setStatus (vm : Vm) (o : ObjId) (status : Status) : Vm :=
  vm.requeue o fun t => { t with status := status }

/-- The tasks that are due, in the order they began to wait, and what the walk
of the waiting queue found to be the next deadline. -/
def findDue (vm : Vm) : (List ObjId × UInt32) × Vm :=
  if vm.line.indexed then
    let line := vm.line.absTick vm.tick
    let (due, line) := line.takeDue line.tickAbs line.sleepers.items.length
    (((due.insertionSort fun first second => first.1 ≤ second.1).map
      Prod.snd, NO_WAKEUP), { vm with line := line })
  else
    (vm.line.waiting.items.foldl (TaskQueues.walkEntry vm.tasks vm.tick)
      ([], NO_WAKEUP), vm)

/-- What waking a sleeper does to its fields. -/
def woken (t : TaskData) : TaskData :=
  { t with
    status := .ready
    reason := .none
    queue := none
    wakeupTick := NO_WAKEUP }

/-- A task made ready asks for a switch. -/
def wake (vm : Vm) (o : ObjId) : Vm :=
  { vm.requeue o woken with switching := true }

/-- The deadline the index holds first, or what a walk found. -/
def nextWakeup (vm : Vm) (next : UInt32) : UInt32 :=
  if vm.line.indexed then
    ((vm.line.sleepers.firstKeyValue.bind fun entry =>
      vm.tasks entry.2).map TaskData.wakeupTick).getD NO_WAKEUP
  else next

/-- Moves every waiting task whose deadline has passed to the ready queue, and
records the next deadline. -/
def wakeSleepers (vm : Vm) : Vm :=
  if vm.wakeupTick = NO_WAKEUP then vm
  else if 0 < ahead vm.wakeupTick vm.tick then vm
  else
    let ((due, next), vm) := vm.findDue
    let vm := due.foldl wake vm
    { vm with wakeupTick := vm.nextWakeup next }

/-- Lowers the recorded wakeup to a deadline that is earlier. -/
def noteWakeup (vm : Vm) (deadline : UInt32) : Vm :=
  if vm.wakeupTick = NO_WAKEUP ∨ ahead deadline vm.wakeupTick < 0 then
    { vm with wakeupTick := deadline }
  else vm

/-- Moves the clock on and wakes what was sleeping until then. -/
def advanceTicks (vm : Vm) (n : UInt32) : Vm :=
  { vm with tick := vm.tick + n }.wakeSleepers

/-- Nothing is ready, so the clock jumps to the next deadline; whether there was
one. -/
def idle (vm : Vm) : Bool × Vm :=
  if vm.wakeupTick = NO_WAKEUP then (false, vm)
  else if 0 < ahead vm.wakeupTick vm.tick then
    (true, { vm with tick := vm.wakeupTick }.wakeSleepers)
  else (true, vm.wakeSleepers)

/-- Ticks until the earliest deadline. -/
def nextWakeupTicks (vm : Vm) : Option Int :=
  if vm.wakeupTick = NO_WAKEUP then none
  else some (max (ahead vm.wakeupTick vm.tick) 0)

/-- Whether the scheduler still has something that can run. -/
def pending (vm : Vm) : Bool :=
  if (vm.line.queues .ready).items ≠ [] then true
  else if vm.line.indexed then vm.line.sleepers.items ≠ []
  else vm.line.waiting.items.any fun entry =>
    (vm.tasks entry.2).any TaskData.hasDeadline

end Vm

end SabiRuby.Tasks
