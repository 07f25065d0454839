import Mathlib.Data.Prod.Lex
import Mathlib.Data.List.Sort
import SabiRuby.Library.SortedDeque
import SabiRuby.Tasks.Ticks
import SabiRuby.Value

/-!
# Tasks and the scheduler's state

The four queues of tasks, the two indexes of the waiting ones, the clock and the
objects the scheduler works on.  The record of where a task stands in the queues
is kept beside the task's other fields, and sequence numbers and the clock that
does not wrap are unbounded.
-/

namespace SabiRuby.Tasks

open Library

/-- `MRB_TASK_STATUS_*`. -/
inductive Status
  | dormant
  | ready
  | running
  | waiting
  | suspended
deriving DecidableEq, Repr

/-- `MRB_TASK_REASON_*`. -/
inductive Reason
  | none
  | sleep
  | join
  | queue
deriving DecidableEq, Repr

/-- `MRB_TASK_QUEUE_*`. -/
inductive QueueIndex
  | dormant
  | ready
  | waiting
  | suspended
deriving DecidableEq, Repr

/-- Which queue a status belongs in. -/
def qOf : Status → QueueIndex
  | .ready => .ready
  | .running => .ready
  | .waiting => .waiting
  | .suspended => .suspended
  | .dormant => .dormant

/-- The key of an entry: what the sequence is sorted by first, and the order of
arrival. -/
structure Key where
  major : Nat
  seq : Nat
deriving DecidableEq, Repr

namespace Key

theorem lex_injective :
    Function.Injective (fun k : Key => toLex (k.major, k.seq)) := by
  intro first second same
  have parts := Prod.ext_iff.mp (toLex.injective same)
  cases first
  cases second
  simpa using parts

instance : LinearOrder Key :=
  LinearOrder.lift' (fun k : Key => toLex (k.major, k.seq)) lex_injective

theorem lt_iff (first second : Key) :
    first < second ↔
      first.major < second.major ∨
        first.major = second.major ∧ first.seq < second.seq :=
  Prod.Lex.toLex_lt_toLex

theorem le_iff (first second : Key) :
    first ≤ second ↔
      first.major < second.major ∨
        first.major = second.major ∧ first.seq ≤ second.seq :=
  Prod.Lex.toLex_le_toLex

end Key

/-- Where a task is in the scheduler's queues and indexes: the three keys share
their sequence number. -/
structure TaskPlace where
  seq : Nat
  deadline : Option Nat
  target : Option ObjId
  q : Option QueueIndex
  qpri : Nat
deriving DecidableEq, Repr

namespace TaskPlace

/-- A task in no queue and no index. -/
def NONE : TaskPlace :=
  { seq := 0, deadline := none, target := none, q := none, qpri := 0 }

/-- The queue the task is in and its key there. -/
def queued (place : TaskPlace) : Option (QueueIndex × Key) :=
  place.q.map fun q => (q, ⟨place.qpri, place.seq⟩)

/-- The key of its entry among the sleepers. -/
def sleepKey (place : TaskPlace) : Option Key :=
  place.deadline.map fun deadline => ⟨deadline, place.seq⟩

/-- The key of its entry among the tasks that wait for an object. -/
def waitKey (place : TaskPlace) : Option Key :=
  place.target.map fun target => ⟨target.index, place.seq⟩

/-- The place with the given keys. -/
def set
    (q : QueueIndex)
    (key : Key)
    (deadline : Option Nat)
    (target : Option ObjId) : TaskPlace :=
  { seq := key.seq
    deadline := deadline
    target := target
    q := some q
    qpri := key.major }

/-- The place without its entries in the indexes. -/
def unindex (place : TaskPlace) : TaskPlace :=
  { place with deadline := none, target := none }

/-- The place without its entry among the sleepers. -/
def unsleep (place : TaskPlace) : TaskPlace :=
  { place with deadline := none }

end TaskPlace

/-- A task: its context, `none` where it has none, and what the scheduler reads
and writes of it. -/
structure TaskData where
  ctx : Option Nat
  priority : Nat
  status : Status
  reason : Reason
  result : Value
  wakeupTick : UInt32
  join : Option ObjId
  queue : Option ObjId
deriving DecidableEq, Repr

/-- A `Task::Queue`: its items and whether it is closed. -/
structure QueueData where
  items : List Value
  closed : Bool
deriving DecidableEq, Repr

/-- The context of the program itself. -/
def ROOT : Nat := 0

/-- How many waiting tasks it takes to index them, unless the host says
otherwise. -/
def TASK_INDEX_FROM : Nat := 30

/-- `MRB_TASK_PRIORITY_DEFAULT`. -/
def PRIORITY_DEFAULT : Nat := 128

/-- The queues of the tasks and the indexes of the waiting ones, with the clock
that does not wrap, in which the deadlines of the sleepers are counted. -/
structure TaskQueues where
  queues : QueueIndex → SortedDeque Key ObjId
  seq : Nat
  sleepers : SortedDeque Key ObjId
  waiters : SortedDeque Key ObjId
  indexed : Bool
  indexFrom : Nat
  tickAbs : Nat
  tickSeen : UInt32
  places : ObjId → TaskPlace

/-- The scheduler with the objects it works on.  `next` is the index of the next
object made, `contexts` the number of contexts, `terminated` says which of them
are over, and `slices` are the tasks that the running Rust code has handed the
CPU to, the innermost one first, each with the context it was handed it from. -/
structure Vm where
  line : TaskQueues
  tick : UInt32
  wakeupTick : UInt32
  switching : Bool
  running : Option ObjId
  main : Option ObjId
  tasks : ObjId → Option TaskData
  queueObjects : ObjId → Option QueueData
  next : Nat
  cur : Nat
  contexts : Nat
  terminated : Nat → Bool
  slices : List (ObjId × Nat)

/-- No task in any queue. -/
def TaskQueues.initial (indexFrom : Nat) : TaskQueues :=
  { queues := fun _ => ⟨[]⟩
    seq := 0
    sleepers := ⟨[]⟩
    waiters := ⟨[]⟩
    indexed := false
    indexFrom := indexFrom
    tickAbs := 0
    tickSeen := 0
    places := fun _ => .NONE }

/-- A scheduler without tasks. -/
def Vm.initial (indexFrom : Nat) : Vm :=
  { line := .initial indexFrom
    tick := 0
    wakeupTick := NO_WAKEUP
    switching := false
    running := none
    main := none
    tasks := fun _ => none
    queueObjects := fun _ => none
    next := 0
    cur := ROOT
    contexts := 1
    terminated := fun _ => false
    slices := [] }

/-- The exceptions the scheduler's methods raise, with their messages. -/
inductive Raised
  | argument (message : String)
  | type (message : String)
  | runtime (message : String)
  | range (message : String)
  | task (message : String)
deriving DecidableEq, Repr

end SabiRuby.Tasks
