import SabiRuby.Library.StepRuns
import SabiRuby.Tasks.Quiet

/-!
# Pops that are to be retried

A push wakes one of the tasks that wait on a queue, and that one takes the item
only when it runs and asks again.  Beside the scheduler it is recorded which task
was told to retry a pop of which queue.  As long as those that were woken get to
ask again, or enough others do, the items of a queue on which a task waits are
never more than the tasks that are still to ask.
-/

namespace SabiRuby.Tasks

open Library

namespace Vm

/-- The task that an event keeps from running on: it is suspended, closed or
stopped. -/
def taken (vm : Vm) : Event → Option ObjId
  | .suspend o | .terminate o | .close o => some o
  | .leave outcome =>
      vm.innermost.filter fun o =>
        outcome ≠ .switched || vm.contextOver o
  | .schedule => vm.firstReady.filter vm.contextOver
  | .pass _ =>
      if vm.currentTask = none then vm.firstReady.filter vm.contextOver
      else none
  | _ => none

end Vm

/-- A task that the scheduler runs when its turn comes. -/
def TaskData.awake (t : TaskData) : Prop :=
  t.status = .ready ∨ t.status = .running

/-- The scheduler, and the queue each task was told to ask again. -/
structure Popping where
  vm : Vm
  retries : ObjId → Option ObjId

namespace Popping

/-- No task and no pop. -/
def initial (indexFrom : Nat) : Popping where
  vm := .initial indexFrom
  retries := fun _ => none

/-- The queue that the task asking it is to ask again, if it is told so. -/
def told (vm : Vm) : Event → Option ObjId
  | .popTry q nonBlock deadline boundary =>
      match vm.queuePopTry q nonBlock deadline boundary with
      | .ok (.waitRetry, _) => some q
      | _ => none
  | _ => none

/-- Whether an event asks a queue for an item. -/
def asks : Event → Bool
  | .popTry _ _ _ _ => true
  | _ => false

/-- One event: the answer to a pop replaces what its task was told before. -/
def step (s : Popping) (event : Event) : Popping where
  vm := s.vm.step event
  retries :=
    match s.vm.currentTask with
    | some me =>
        if asks event then Function.update s.retries me (told s.vm event)
        else s.retries
    | none => s.retries

/-- A task that is still to retry a pop, and will. -/
def Retrying (s : Popping) (q o : ObjId) : Prop :=
  s.retries o = some q ∧ ∃ t, s.vm.tasks o = some t ∧ t.awake

/-- Some task waits on a queue. -/
def Waited (s : Popping) (q : ObjId) : Prop :=
  ∃ o t, s.vm.tasks o = some t ∧ t.pops q

/-- Among some tasks are as many that are to retry a pop of a queue as it has
items. -/
def Covered
    (s : Popping)
    (q : ObjId)
    (items : List Value)
    (among : ObjId → Prop) : Prop :=
  ∃ others : List ObjId, others.Nodup ∧
    (∀ o ∈ others, among o ∧ s.Retrying q o) ∧ items.length ≤ others.length

/-- What can happen while a task that is to retry a pop of a queue is the
current one: it asks again once it runs, and until then the clock can move and
it can be switched out, or its run can end. -/
def mayDo (s : Popping) (me q : ObjId) : Event → Bool
  | .popTry asked _ _ _ =>
      asked = q && (s.vm.tasks me).map TaskData.status = some .running
  | .leave _ | .advanceTicks _ => true
  | _ => false

/-- `Queue#pop`, written in Ruby: a task told to retry asks the same queue again
before it does anything else. -/
def Follows (s : Popping) (event : Event) : Prop :=
  ∀ me q, s.vm.currentTask = some me → s.retries me = some q →
    s.mayDo me q event

instance (s : Popping) (event : Event) : Decidable (s.Follows event) :=
  decidable_of_iff
    (((s.vm.currentTask.bind fun me => (s.retries me).map fun q =>
      s.mayDo me q event).getD true) = true) (by
        constructor
        · intro allowed me q current retries
          rw [current] at allowed
          simpa [retries] using allowed
        · intro follows
          cases current : s.vm.currentTask with
          | none => rfl
          | some me =>
              cases retries : s.retries me with
              | none => simp [retries]
              | some q => simpa [retries] using follows me q current retries)

/-- A task that is still to retry a pop of an open queue is suspended, closed or
stopped only when no other task waits on that queue, or enough others are to
retry. -/
def HandsOn (s : Popping) (event : Event) : Prop :=
  ∀ o q data, s.vm.taken event = some o → s.Retrying q o →
    s.vm.queueObjects q = some data → data.closed = false →
      ¬s.Waited q ∨ s.Covered q data.items fun other => other ≠ o

/-- What a step has to meet for no wake-up to be lost. -/
def Hands (s : Popping) (event : Event) : Prop :=
  s.Follows event ∧ s.HandsOn event

/-- While a queue is open and holds an item and a task waits on it, a task that
was woken for it is still to retry its pop. -/
def NoneLost (s : Popping) : Prop :=
  ∀ q data, s.vm.queueObjects q = some data → data.closed = false →
    data.items ≠ [] → s.Waited q → ∃ o, s.Retrying q o

/-- What every step that meets the condition keeps. -/
structure Handed (s : Popping) : Prop where
  orderly : s.vm.Orderly
  apart : ∀ q, s.vm.queueObjects q ≠ none → s.vm.tasks q = none
  fresh : ∀ q : ObjId, s.vm.next ≤ q.index → s.vm.queueObjects q = none
  joins : ∀ o t other, s.vm.tasks o = some t → t.joins other →
    s.vm.tasks other ≠ none
  waits : ∀ o t q, s.vm.tasks o = some t → t.pops q → s.retries o = some q
  enough : ∀ q data, s.vm.queueObjects q = some data → data.closed = false →
    s.Waited q → s.Covered q data.items fun _ => True

variable {s : Popping} {o q : ObjId} {event : Event} {t t' : TaskData}

theorem handed_initial (indexFrom : Nat) : (initial indexFrom).Handed where
  orderly := Vm.orderly_initial indexFrom
  apart q held := absurd rfl held
  fresh _ _ := rfl
  joins _ _ _ held := by cases held
  waits _ _ _ held := by cases held
  enough _ _ held := by cases held

theorem Handed.noneLost (handed : s.Handed) : s.NoneLost := by
  intro q data held isOpen items waited
  obtain ⟨others, _, retrying, enough⟩ := handed.enough q data held isOpen waited
  cases others with
  | nil => exact absurd (List.length_eq_zero_iff.mp (Nat.le_zero.mp enough)) items
  | cons o rest => exact ⟨o, (retrying o (List.mem_cons_self ..)).2⟩

/-! ## One task -/

theorem stops_taken
    {vm : Vm}
    (stops : vm.stops event o) : vm.taken event = some o := by
  rcases stops with rfl | ⟨outcome, rfl, inner, isOver⟩ | ⟨turn, first, isOver⟩
  · rfl
  · simp only [Vm.taken, inner, Option.filter]
    rw [if_pos (by simpa using isOver)]
  · cases event with
    | schedule => simp [Vm.taken, first, Option.filter, isOver]
    | pass boundary =>
        have outside : vm.currentTask = none := turn
        simp [Vm.taken, outside, first, Option.filter, isOver]
    | _ => exact absurd turn id

/-- A task that is to retry a pop stays awake, unless it asks again or is kept
from running on. -/
theorem Follows.awake
    (follows : s.Follows event)
    (retries : s.retries o = some q)
    (changed : s.vm.Changed event o t t')
    (silent : asks event = true → s.vm.currentTask ≠ some o)
    (kept : s.vm.taken event ≠ some o)
    (awake : t.awake) : t'.awake := by
  have acts := fun current => follows o q current retries
  cases changed with
  | kept value => exact awake
  | prioritized priority => exact awake
  | entered | passed | switched | resumed | woken | joined =>
      first | exact .inl rfl | exact .inr rfl
  | suspended called =>
      rcases called with rfl | ⟨boundary, rfl, current⟩
      · exact absurd rfl kept
      · exact absurd (acts current) Bool.false_ne_true
  | asleep call boundary micros called asked current =>
      subst called
      exact absurd (acts current) Bool.false_ne_true
  | parked q nonBlock deadline boundary called current later =>
      subst called
      exact absurd current (silent rfl)
  | joining other called current =>
      subst called
      exact absurd (acts current) Bool.false_ne_true
  | ended value isOver =>
      rcases isOver with rfl | stops
      · exact absurd rfl kept
      · exact absurd (stops_taken stops) kept

/-- A task that waits on a queue after an event that is no pop did so
before. -/
theorem waits_before
    (changed : s.vm.Changed event o t t')
    (silent : asks event = false ∨ s.vm.currentTask ≠ some o)
    (pops : t'.pops q) : t.pops q := by
  obtain ⟨waits, reason, waited⟩ := pops
  cases changed with
  | kept value => exact ⟨waits, reason, waited⟩
  | prioritized priority => exact ⟨waits, reason, waited⟩
  | parked q nonBlock deadline boundary called current later =>
      subst called
      rcases silent with loud | other
      · cases loud
      · exact absurd current other
  | asleep | joining => cases reason
  | _ => cases waits

end Popping

end SabiRuby.Tasks
