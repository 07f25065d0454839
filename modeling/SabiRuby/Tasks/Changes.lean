import SabiRuby.Tasks.Effects

/-!
# What an event can do to a task

Every way in which an event changes a task, with what the event and the
scheduler have to be for it.  What holds of single tasks in every run is derived
from this list.
-/

namespace SabiRuby.Tasks

open Library

namespace TaskQueues

variable {tasks : ObjId → Option TaskData} {tick : UInt32}

/-- The tasks a walk of the waiting queue finds due, in its order. -/
theorem walk_due
    (entries : List (Key × ObjId))
    (found : List ObjId × UInt32) :
    (entries.foldl (walkEntry tasks tick) found).1 =
      found.1 ++ (entries.map Prod.snd).filter fun o =>
        (tasks o).any fun t =>
          t.hasDeadline && decide (ahead t.wakeupTick tick ≤ 0) := by
  induction entries generalizing found with
  | nil => simp
  | cons entry rest ih =>
      rw [List.foldl_cons, ih, List.map_cons]
      unfold walkEntry
      cases held : tasks entry.2 with
      | none => simp [held]
      | some t =>
          by_cases deadline : t.hasDeadline = true
          · by_cases passed : ahead t.wakeupTick tick ≤ 0
            · simp [held, deadline, passed]
            · have kept : ∀ (next : List ObjId × UInt32) (later : Prop)
                  [Decidable later], (if later then (found.1, t.wakeupTick)
                    else found).1 = found.1 := by
                intro _ later _
                split <;> rfl
              simp [held, deadline, passed, kept found]
          · simp [held, deadline]

end TaskQueues

namespace Vm

variable {vm vm' : Vm} {o q me : ObjId} {event : Event} {t t' : TaskData}

/-- Only waiting tasks with a deadline are found due. -/
theorem Orderly.of_mem_due
    (orderly : vm.Orderly)
    (member : o ∈ vm.findDue.1.1) :
    ∃ t, vm.tasks o = some t ∧ t.status = .waiting ∧ t.hasDeadline := by
  unfold findDue at member
  split at member
  · rename_i indexed
    have clocked : (vm.line.absTick vm.tick).Recorded :=
      orderly.placed.recorded.withClock vm.line.indexed vm.line.indexFrom _ _
    have taken := clocked.takeDue (vm.line.absTick vm.tick).tickAbs
      (vm.line.absTick vm.tick).sleepers.items.length le_rfl
    obtain ⟨found, sorted, rfl⟩ := List.mem_map.mp member
    have inside := (List.mem_insertionSort _).mp sorted
    rw [taken.due_eq] at inside
    obtain ⟨entry, early, rfl⟩ := List.mem_map.mp inside
    exact (orderly.mem_sleepers_iff indexed entry.2).mp
      ⟨entry.1, (List.takeWhile_sublist _).mem early⟩
  · rw [TaskQueues.walk_due, List.nil_append, List.mem_filter] at member
    obtain ⟨t, held, waits⟩ := (orderly.mem_waitingTasks_iff o).mp member.1
    refine ⟨t, held, waits, ?_⟩
    have due := member.2
    rw [held] at due
    simp only [Option.any_some, Bool.and_eq_true] at due
    exact due.1

/-- The task whose run is the innermost one. -/
def innermost (vm : Vm) : Option ObjId :=
  vm.slices.head?.map Prod.fst

/-- The task the next turn of the scheduler is for. -/
def firstReady (vm : Vm) : Option ObjId :=
  (vm.line.queues .ready).items.head?.map Prod.snd

/-- Whether a task has no context to run in any more. -/
def contextOver (vm : Vm) (o : ObjId) : Bool :=
  match (vm.tasks o).bind TaskData.ctx with
  | none => true
  | some ctx => vm.terminated ctx

/-- Whether an event is a turn of the scheduler. -/
def turns (vm : Vm) : Event → Prop
  | .schedule => True
  | .pass _ => vm.currentTask = none
  | _ => False

instance (vm : Vm) (event : Event) : Decidable (vm.turns event) := by
  cases event <;> unfold turns <;> infer_instance

/-- Whether an event stops a task: it is terminated, its run comes to its end,
or the scheduler finds that its context is over. -/
def stops (vm : Vm) (event : Event) (o : ObjId) : Prop :=
  event = .terminate o ∨
    (∃ outcome, event = .leave outcome ∧ vm.innermost = some o ∧
      (outcome ≠ .switched ∨ vm.contextOver o)) ∨
    vm.turns event ∧ vm.firstReady = some o ∧ vm.contextOver o

/-- How an event changes a task. -/
inductive Changed
    (vm : Vm)
    (event : Event)
    (o : ObjId)
    (t : TaskData) : TaskData → Prop
  | kept (value : Value) : Changed vm event o t { t with result := value }
  | prioritized (priority : Nat) :
      Changed vm event o t { t with priority := priority }
  | entered
      (turn : vm.turns event)
      (first : vm.firstReady = some o)
      (ready : qOf t.status = .ready) :
      Changed vm event o t { t with status := .running }
  | passed
      (boundary : Option String)
      (called : event = .pass boundary)
      (current : vm.currentTask = some o) :
      Changed vm event o t { t with status := .ready }
  | switched
      (left : event = .leave .switched)
      (running : t.status = .running) :
      Changed vm event o t { t with status := .ready }
  | suspended
      (called : event = .suspend o ∨
        ∃ boundary, event = .sleepForever boundary ∧
          vm.currentTask = some o) :
      Changed vm event o t { t with status := .suspended }
  | resumed
      (called : event = .resume o)
      (stopped : t.status = .suspended ∨
        t.status = .waiting ∧ t.reason = .sleep) :
      Changed vm event o t t.resumed
  | asleep
      (call : SleepCall)
      (boundary : Option String)
      (micros : Nat)
      (called : event = .sleep call boundary)
      (asked : call.micros = .ok micros)
      (current : vm.currentTask = some o) :
      Changed vm event o t
        (t.asleep (normalize (vm.tick + sleepTicks micros)))
  | parked
      (q : ObjId)
      (nonBlock : Bool)
      (deadline : Option Int64)
      (boundary : Option String)
      (called : event = .popTry q nonBlock deadline boundary)
      (current : vm.currentTask = some o)
      (later : ∀ d, (deadline.map fun d => d.toUInt64.toUInt32) = some d →
        0 < ahead d vm.tick) :
      Changed vm event o t
        (t.onQueue q (deadline.map fun d => d.toUInt64.toUInt32))
  | joining
      (other : ObjId)
      (called : event = .join other)
      (current : vm.currentTask = some o)
      (differs : o ≠ other)
      (alive : ∃ u, vm.tasks other = some u ∧ u.status ≠ .dormant) :
      Changed vm event o t (t.joining other)
  | woken
      (waits : t.status = .waiting)
      (timed : t.reason = .sleep ∨ t.reason = .queue) :
      Changed vm event o t (woken t)
  | joined
      (done : ObjId)
      (joins : t.joins done) : Changed vm event o t t.joined
  | ended
      (value : Value)
      (isOver : event = .close o ∨ vm.stops event o) :
      Changed vm event o t { t.ended with result := value }

theorem Changed.same (t : TaskData) : Changed vm event o t t := .kept t.result

/-- Only a close and a stop end a task. -/
theorem Changed.dormant
    (changed : Changed vm event o t t')
    (dormant : t'.status = .dormant) :
    t.status = .dormant ∨ event = .close o ∨ vm.stops event o := by
  cases changed with
  | kept value => exact .inl dormant
  | prioritized priority => exact .inl dormant
  | ended value isOver => exact .inr isOver
  | _ => cases dormant

/-- A task that joins another after an event did so before it, or asks to by
it. -/
theorem Changed.of_join
    (changed : Changed vm event o t t')
    (waits : t'.status = .waiting)
    (reason : t'.reason = .join) :
    t.status = .waiting ∧ t.reason = .join ∧ t.join = t'.join ∨
      ∃ other u, event = .join other ∧ o ≠ other ∧ t'.join = some other ∧
        vm.tasks other = some u ∧ u.status ≠ .dormant := by
  cases changed with
  | kept value => exact .inl ⟨waits, reason, rfl⟩
  | prioritized priority => exact .inl ⟨waits, reason, rfl⟩
  | joining other called current differs alive =>
      obtain ⟨u, held, awake⟩ := alive
      exact .inr ⟨other, u, called, differs, rfl, held, awake⟩
  | asleep | parked => cases reason
  | _ => cases waits

/-- What an event does to the table of tasks: it changes those there are, and
may make one.  A task that it ends takes those that join it out of their wait,
unless it is closed. -/
structure Alters (vm vm' : Vm) (event : Event) : Prop where
  changed : ∀ o t, vm.tasks o = some t →
    ∃ t', vm'.tasks o = some t' ∧ Changed vm event o t t'
  made : ∀ o t', vm.tasks o = none → vm'.tasks o = some t' →
    o = ⟨vm.next⟩ ∧ vm'.next = vm.next + 1 ∧ t'.reason = .none ∧
      (t'.status = .ready ∨ t'.status = .running)
  ended : ∀ o t t', vm.tasks o = some t → vm'.tasks o = some t' →
    t'.status = .dormant → t.status = .dormant ∨ event = .close o ∨
      ∀ other t, vm.tasks other = some t → other ≠ o → t.joins o →
        vm'.tasks other = some t.joined

/-- Every task changes by its own fields. -/
theorem Alters.map
    (change : ObjId → TaskData → TaskData)
    (written : ∀ o, vm'.tasks o = (vm.tasks o).map (change o))
    (changed : ∀ o t, vm.tasks o = some t →
      Changed vm event o t (change o t))
    (ended : ∀ o t, vm.tasks o = some t →
      (change o t).status = .dormant → t.status = .dormant ∨
        event = .close o ∨
          ∀ other t, vm.tasks other = some t → other ≠ o → t.joins o →
            change other t = t.joined) : vm.Alters vm' event where
  changed o t held :=
    ⟨change o t, by rw [written, held, Option.map_some], changed o t held⟩
  made o t' absent held := by
    rw [written, absent] at held
    cases held
  ended o t t' held held' dormant := by
    rw [written, held] at held'
    cases held'
    refine (ended o t held dormant).imp_right (.imp_right ?_)
    intro joiners other t held differs joins
    rw [written, held, Option.map_some, joiners other t held differs joins]

theorem Alters.of_eq (same : vm'.tasks = vm.tasks) : vm.Alters vm' event :=
  .map (fun _ t => t) (fun o => by rw [same, Option.map_id'])
    (fun _ t _ => .same t) fun _ _ _ dormant => .inl dormant

variable {change : TaskData → TaskData}

/-- One task changes. -/
theorem Alters.update
    (written : vm'.tasks =
      Function.update vm.tasks o ((vm.tasks o).map change))
    (changed : ∀ t, vm.tasks o = some t → Changed vm event o t (change t))
    (alive : ∀ t, vm.tasks o = some t → (change t).status = .dormant →
      t.status = .dormant ∨ event = .close o) : vm.Alters vm' event := by
  refine .map (fun other t => if other = o then change t else t)
    (fun other => ?_) (fun other t held => ?_) fun other t held dormant => ?_
  · rw [written]
    by_cases same : other = o
    · subst same
      simp
    · simp [same]
  · split
    · rename_i same
      exact same ▸ changed t (same ▸ held)
    · exact .same t
  · split at dormant
    · rename_i same
      rw [same] at held ⊢
      exact (alive t held dormant).imp_right .inl
    · exact .inl dormant

/-- A task becomes another that is not over. -/
theorem Alters.update_alive
    (written : vm'.tasks =
      Function.update vm.tasks o ((vm.tasks o).map change))
    (changed : ∀ t, vm.tasks o = some t → Changed vm event o t (change t))
    (alive : ∀ t, (change t).status ≠ .dormant) : vm.Alters vm' event :=
  .update written changed fun t _ dormant => absurd dormant (alive t)

theorem Orderly.alters_wakeSleepers
    {moved : Vm}
    (orderly : moved.Orderly)
    (same : moved.tasks = vm.tasks) : vm.Alters moved.wakeSleepers event := by
  refine .map (fun o t =>
    if moved.wakeupTick ≠ NO_WAKEUP ∧ ahead moved.wakeupTick moved.tick ≤ 0 ∧
      o ∈ moved.findDue.1.1 then woken t else t)
    (fun o => ?_) (fun o t held => ?_) fun o t held dormant => ?_
  · rw [wakeSleepers_tasks, same]
    split
    · rfl
    · rw [Option.map_id']
  · split
    · rename_i due
      obtain ⟨t', held', waits, timed⟩ := orderly.of_mem_due due.2.2
      rw [same, held] at held'
      cases held'
      refine .woken waits ?_
      simp only [TaskData.hasDeadline, Bool.and_eq_true, Bool.or_eq_true,
        decide_eq_true_eq] at timed
      exact timed.1
    · exact .same t
  · split at dormant
    · cases dormant
    · exact .inl dormant

variable {before : Vm}

/-- A task is stopped, perhaps with a result written first. -/
theorem Orderly.alters_stopTask
    (orderly : before.Orderly)
    (value : TaskData → Value)
    (written : ∀ other, before.tasks other = if other = o then
      (vm.tasks o).map fun t => { t with result := value t }
      else vm.tasks other)
    (stops : vm.stops event o) : vm.Alters (before.stopTask o) event := by
  refine .map (fun other t =>
    if other = o then { t.ended with result := value t }
    else if t.joins o then t.joined else t)
    (fun other => ?_) (fun other t held => ?_) fun other t held dormant => ?_
  · rw [stopTask_tasks orderly, written, written]
    by_cases same : other = o
    · subst same
      simp only [if_true, Option.map_map]
      rfl
    · simp only [if_neg same]
  · split
    · rename_i same
      exact same ▸ .ended (value t) (.inr stops)
    · split
      · rename_i joins
        exact .joined o joins
      · exact .same t
  · by_cases same : other = o
    · subst same
      refine .inr (.inr fun joiner t _ differs joins => ?_)
      rw [if_neg differs, if_pos joins]
    · rw [if_neg same] at dormant
      split at dormant
      · cases dormant
      · exact .inl dormant

/-- What an operation does before a task is stopped leaves the other tasks
alone. -/
theorem tdMut_result_tasks
    (same : before.tasks = vm.tasks)
    (o : ObjId)
    (value : Value)
    (other : ObjId) :
    (before.tdMut o fun t => { t with result := value }).tasks other =
      if other = o then (vm.tasks o).map fun t => { t with result := value }
      else vm.tasks other := by
  unfold tdMut
  rw [same]
  dsimp only
  by_cases equal : other = o
  · rw [equal, Function.update_self, if_pos rfl]
  · rw [Function.update_of_ne equal, if_neg equal]

/-- A task stopped as it is. -/
theorem Orderly.alters_stopped
    (orderly : before.Orderly)
    (same : before.tasks = vm.tasks)
    (stops : vm.stops event o) : vm.Alters (before.stopTask o) event := by
  refine orderly.alters_stopTask TaskData.result (fun other => ?_) stops
  rw [same]
  split
  · rename_i equal
    rw [equal, Option.map_id']
  · rfl

/-! ## The scheduler -/

theorem Orderly.alters_schedulerStep
    (orderly : vm.Orderly)
    (turn : vm.turns event) : vm.Alters vm.schedulerStep event := by
  unfold Vm.schedulerStep
  split
  · exact .of_eq rfl
  · rename_i key o head
    have first : vm.firstReady = some o := by
      unfold firstReady
      rw [head]
      rfl
    split
    · exact .of_eq rfl
    · rename_i t held
      split
      · exact .of_eq rfl
      · split
        · exact .of_eq rfl
        · unfold Vm.enterTask
          split
          · rename_i unknown
            refine orderly.alters_stopped rfl (.inr (.inr ⟨turn, first, ?_⟩))
            unfold contextOver
            rw [unknown]
          · rename_i ctx known
            split
            · rename_i isOver
              refine orderly.alters_stopped rfl
                (.inr (.inr ⟨turn, first, ?_⟩))
              unfold contextOver
              rw [known]
              exact isOver
            · refine .update_alive rfl
                (fun t' held' => .entered turn first ?_)
                fun _ dormant => by cases dormant
              exact orderly.placed.of_ready
                (orderly.placed.head_ready head) held'

theorem Orderly.alters_leaveTask
    (orderly : vm.Orderly) :
    vm.Alters (vm.leaveTask outcome) (.leave outcome) := by
  unfold Vm.leaveTask
  split
  · exact .of_eq rfl
  · rename_i o old rest slices
    have inner : vm.innermost = some o := by
      unfold innermost
      rw [slices]
      rfl
    have back : vm.Keeps { vm with
        running := none
        switching := false
        slices := rest
        cur := old } := orderly.keeps_of_same rfl rfl rfl rfl
    dsimp only
    split
    · rename_i ctx known
      have ended (vm' : Vm) (keeps : vm.Keeps vm') :
          vm.Keeps { vm' with
            terminated := Function.update vm'.terminated ctx true } :=
        keeps.withFields rfl rfl rfl rfl
      have stops (isOver : outcome ≠ .switched ∨ vm.contextOver o) :
          vm.stops (.leave outcome) o :=
        .inr (.inl ⟨outcome, rfl, inner, isOver⟩)
      unfold Vm.settle
      split
      · rename_i value
        refine ((ended _ back).orderly.setResult o
          value).orderly.alters_stopTask (fun _ => value)
            (tdMut_result_tasks rfl o value) (stops (.inl ?_))
        exact fun same => by cases same
      · split
        · rename_i isOver
          refine (back.orderly.setResult o
            .nil).orderly.alters_stopTask (fun _ => .nil)
              (tdMut_result_tasks rfl o .nil) (stops (.inr ?_))
          unfold contextOver
          change (vm.tasks o).bind TaskData.ctx = some ctx at known
          rw [known]
          exact isOver
        · split
          · rename_i running
            refine .update_alive rfl (fun t held => .switched rfl ?_)
              fun _ dormant => by cases dormant
            change (vm.tasks o).any (fun t => decide (t.status = .running)) =
              true at running
            rw [held] at running
            simpa using running
          · exact .of_eq rfl
      · rename_i exc
        refine (ended _ (back.trans (back.orderly.setResult o
          exc))).orderly.alters_stopTask (fun _ => exc)
            (tdMut_result_tasks rfl o exc) (stops (.inl ?_))
        exact fun same => by cases same
      · refine (ended _ back).orderly.alters_stopped rfl (stops (.inl ?_))
        exact fun same => by cases same
    · exact .of_eq rfl

/-! ## Queues -/

/-- A queue that is pushed to or closed wakes tasks that wait on it. -/
theorem Orderly.alters_wakeQueueWaiters
    (orderly : before.Orderly)
    (same : before.tasks = vm.tasks)
    (q : ObjId)
    (all : Bool) : vm.Alters (before.wakeQueueWaiters q all) event := by
  cases all with
  | true =>
      refine .map (fun _ t => if t.pops q then woken t else t)
        (fun o => by rw [wakeQueueWaiters_tasks orderly, same])
        (fun o t held => ?_) fun o t held dormant => ?_
      · split
        · rename_i pops
          exact .woken pops.1 (.inr pops.2.1)
        · exact .same t
      · split at dormant
        · cases dormant
        · exact .inl dormant
  | false =>
      unfold Vm.wakeQueueWaiters
      rw [if_neg Bool.false_ne_true]
      split
      · rename_i o first
        refine .update (by rw [wakeQueueWaiter_tasks, same])
          (fun t held => ?_) fun t held dormant => ?_
        · split
          · rename_i waits
            obtain ⟨t', held', status, _⟩ := orderly.firstWaitingFor_some first
            rw [same, held] at held'
            cases held'
            exact .woken status (.inr waits.1)
          · exact .same t
        · split at dormant
          · cases dormant
          · exact .inl dormant
      · exact .of_eq same

/-! ## Every event -/

/-- A task is made. -/
theorem Orderly.alters_made
    (orderly : vm.Orderly)
    (written : vm'.tasks = Function.update vm.tasks ⟨vm.next⟩ (some task))
    (next : vm'.next = vm.next + 1)
    (unasked : task.reason = .none)
    (awake : task.status = .ready ∨ task.status = .running) :
    vm.Alters vm' event where
  changed o t held := by
    have differs : o ≠ ⟨vm.next⟩ := by
      rintro rfl
      rw [orderly.fresh ⟨vm.next⟩ le_rfl] at held
      cases held
    exact ⟨t, by rw [written, Function.update_of_ne differs, held], .same t⟩
  made o t' absent held := by
    by_cases same : o = ⟨vm.next⟩
    · rw [written, same, Function.update_self] at held
      cases held
      exact ⟨same, next, unasked, awake⟩
    · rw [written, Function.update_of_ne same, absent] at held
      cases held
  ended o t t' held held' dormant := by
    have differs : o ≠ ⟨vm.next⟩ := by
      rintro rfl
      rw [orderly.fresh ⟨vm.next⟩ le_rfl] at held
      cases held
    rw [written, Function.update_of_ne differs, held] at held'
    cases held'
    exact .inl dormant

theorem Orderly.alters_taskCurrent
    (orderly : vm.Orderly) : vm.Alters vm.taskCurrent.2 event := by
  unfold Vm.taskCurrent
  split
  · exact .of_eq rfl
  · exact .of_eq rfl
  · exact orderly.alters_made rfl rfl rfl (.inr rfl)

theorem noteWakeup_tasks (deadline : UInt32) :
    (vm.noteWakeup deadline).tasks = vm.tasks := by
  unfold noteWakeup
  split <;> rfl

theorem parkOnQueue_tasks (deadline : Option UInt32) :
    (vm.parkOnQueue me q deadline).tasks =
      Function.update vm.tasks me
        ((vm.tasks me).map (TaskData.onQueue q deadline)) := by
  rw [parkOnQueue_eq]
  cases deadline with
  | none => rfl
  | some d => exact noteWakeup_tasks d

/-- What an answer of a fallible operation leaves. -/
theorem answered
    {operation : Except Raised (Answer × Vm)}
    (done : Prod.snd <$> operation = .ok vm') :
    ∃ answer, operation = .ok answer ∧ vm' = answer.2 := by
  cases operation with
  | error e => cases done
  | ok answer =>
      cases done
      exact ⟨answer, rfl, rfl⟩

theorem Orderly.alters_idle
    (orderly : vm.Orderly) : vm.Alters vm.idle.2 event := by
  unfold Vm.idle
  split
  · exact .of_eq rfl
  · split
    · have moved : vm.Keeps { vm with tick := vm.wakeupTick } :=
        orderly.keeps_of_same rfl rfl rfl rfl
      exact moved.orderly.alters_wakeSleepers rfl
    · exact orderly.alters_wakeSleepers rfl

theorem Orderly.alters_advanceTicks
    (orderly : vm.Orderly)
    (n : UInt32) : vm.Alters (vm.advanceTicks n) event := by
  have moved : vm.Keeps { vm with tick := vm.tick + n } :=
    orderly.keeps_of_same rfl rfl rfl rfl
  exact moved.orderly.alters_wakeSleepers rfl

theorem Orderly.alters_perform
    (orderly : vm.Orderly)
    (done : vm.perform event = .ok vm') : vm.Alters vm' event := by
  cases event with
  | taskNew priority =>
      obtain ⟨made, found, rfl⟩ := answered done
      obtain ⟨n, same⟩ := taskNew_ok found
      rw [same]
      exact orderly.alters_made rfl rfl rfl (.inl rfl)
  | taskCurrent =>
      cases done
      exact orderly.alters_taskCurrent
  | pass boundary =>
      rcases taskPass_ok done with rfl | ⟨outside, rfl⟩ | ⟨me, current, rfl⟩
      · exact .of_eq rfl
      · exact orderly.alters_schedulerStep outside
      · exact .update_alive rfl (fun t _ => .passed boundary rfl current)
          fun _ dormant => by cases dormant
  | sleepForever boundary =>
      rcases sleepForever_ok done with rfl | ⟨me, current, rfl⟩
      · exact .of_eq rfl
      · exact .update_alive rfl
          (fun t _ => .suspended (.inr ⟨boundary, rfl, current⟩))
          fun _ dormant => by cases dormant
  | sleep call boundary =>
      obtain ⟨micros, asked, ⟨_, rfl⟩ | ⟨me, current, rfl⟩⟩ :=
        sleepFor_ok done
      · exact orderly.alters_advanceTicks _
      · exact .update_alive (noteWakeup_tasks _)
          (fun t _ => .asleep call boundary micros rfl asked current)
          fun _ dormant => by cases dormant
  | queueNew =>
      cases done
      exact .of_eq rfl
  | push q value =>
      obtain ⟨data, _, _, rfl⟩ := queuePush_ok done
      exact (orderly.setQueue q _).orderly.alters_wakeQueueWaiters
        (show _ = vm.tasks from rfl) q _
  | popTry q nonBlock deadline boundary =>
      obtain ⟨popped, found, rfl⟩ := answered done
      obtain ⟨data, _, ⟨item, rest, _, rfl⟩ | ⟨_, ⟨rfl, _⟩ | ⟨_, waits⟩⟩⟩ :=
        queuePopTry_ok found
      · exact .of_eq rfl
      · exact .of_eq rfl
      · rcases blockingPop_ok waits with rfl | ⟨me, current, later, rfl⟩
        · exact .of_eq rfl
        · exact .update_alive (parkOnQueue_tasks _)
            (fun t _ =>
              .parked q nonBlock deadline boundary rfl current later)
            fun _ dormant => by cases dormant
  | tryPop q =>
      obtain ⟨popped, found, rfl⟩ := answered done
      obtain ⟨data, _, same | ⟨item, rest, _, taken⟩⟩ := queueTryPop_ok found
      · rw [same]
        exact .of_eq rfl
      · rw [taken]
        exact .of_eq rfl
  | clear q =>
      obtain ⟨data, _, rfl⟩ := queueClear_ok done
      exact .of_eq rfl
  | closeQueue q =>
      obtain ⟨data, _, rfl | ⟨_, rfl⟩⟩ := queueClose_ok done
      · exact .of_eq rfl
      · exact (orderly.setQueue q _).orderly.alters_wakeQueueWaiters
          (show _ = vm.tasks from rfl) q _
  | setPriority o priority =>
      obtain ⟨t, n, _, rfl⟩ := taskSetPriority_ok done
      exact .update rfl (fun t _ => .prioritized n)
        fun _ _ dormant => .inl dormant
  | suspend o =>
      obtain ⟨t, _, ⟨_, rfl⟩ | ⟨_, rfl | rfl⟩⟩ := taskSuspend_ok done
      · exact .of_eq rfl
      · exact .update_alive rfl (fun t _ => .suspended (.inl rfl))
          fun _ dormant => by cases dormant
      · exact .update_alive rfl (fun t _ => .suspended (.inl rfl))
          fun _ dormant => by cases dormant
  | resume o =>
      obtain ⟨t, known, rfl | ⟨stopped, rfl⟩⟩ := taskResume_ok done
      · exact .of_eq rfl
      · refine .update_alive rfl (fun t' held => .resumed rfl ?_)
          fun _ dormant => by cases dormant
        rw [(live_ok known).1] at held
        cases held
        exact stopped
  | terminate o =>
      obtain ⟨t, _, ⟨_, rfl⟩ | ⟨_, rfl | rfl⟩⟩ := taskTerminate_ok done
      · exact .of_eq rfl
      · exact orderly.alters_stopped rfl (.inl rfl)
      · have stopped : vm.Alters (vm.stopTask o) (.terminate o) :=
          orderly.alters_stopped rfl (.inl rfl)
        exact ⟨stopped.changed, stopped.made, stopped.ended⟩
  | close o =>
      obtain ⟨t, _, _, rfl⟩ := taskClose_ok done
      refine .update ?_ (fun t _ => .ended t.result (.inl rfl))
        fun _ _ _ => .inr rfl
      unfold tdMut
      dsimp only
      rw [endContext_tasks]
      rfl
  | join other =>
      obtain ⟨joined, found, rfl⟩ := answered done
      obtain ⟨t, me, known, current, differs, ⟨_, same⟩ | ⟨alive, parked⟩⟩ :=
        taskJoin_ok found
      · rw [same]
        exact .of_eq rfl
      · rw [parked]
        exact .update_alive rfl
          (fun _ _ => .joining other rfl current differs
            ⟨t, (live_ok known).1, alive⟩)
          fun _ dormant => by cases dormant
  | schedule =>
      cases done
      exact orderly.alters_schedulerStep trivial
  | leave outcome =>
      cases done
      exact orderly.alters_leaveTask
  | fiberSwitch ctx =>
      cases done
      exact .of_eq rfl
  | advanceTicks n =>
      cases done
      exact orderly.alters_advanceTicks n
  | idle =>
      cases done
      exact orderly.alters_idle
  | setIndexFrom n =>
      cases done
      exact .of_eq rfl

/-- What an event does to the tasks. -/
theorem Orderly.alters
    (orderly : vm.Orderly)
    (event : Event) : vm.Alters (vm.step event) event := by
  unfold Vm.step
  split
  · rename_i next done
    exact orderly.alters_perform done
  · exact .of_eq rfl

end Vm

end SabiRuby.Tasks
