import SabiRuby.Tasks.Clock

/-!
# Deadlines while the clock stands still

Every operation between two moves of the clock keeps the deadlines of the index
in step with those of the tasks.
-/

namespace SabiRuby.Tasks

open Library Function

namespace Vm

variable {vm vm' : Vm} {o q me : ObjId} {t : TaskData} {event : Event}
variable {watched : Set ObjId} {wakeup : Int}

/-- The deadlines in the index of the watched tasks are those of the tasks, and
all of them are upcoming. -/
structure Ticking
    (vm : Vm)
    (watched : Set ObjId)
    (wakeup : Int) : Prop where
  orderly : vm.Orderly
  dated : vm.line.Dated watched vm.tasks vm.tick wakeup
  soon : ∀ o ∈ watched, ∀ t, vm.tasks o = some t → t.timed →
    upcoming t.wakeupTick vm.tick
  short : wakeup < 2 ^ 31

theorem Clocked.ticking
    (clocked : vm.Clocked) :
    vm.Ticking Set.univ (ahead vm.wakeupTick vm.tick) :=
  ⟨clocked.orderly, clocked.dated, fun o _ => clocked.soon o, ahead_lt _ _⟩

theorem Ticking.withFields
    (ticking : vm.Ticking watched wakeup)
    (sameLine : vm'.line = vm.line)
    (sameTasks : vm'.tasks = vm.tasks)
    (sameTick : vm'.tick = vm.tick)
    (sameNext : vm'.next = vm.next)
    (sameMain : vm'.main = vm.main) : vm'.Ticking watched wakeup where
  orderly := (ticking.orderly.keeps_of_same sameLine sameTasks sameNext
    sameMain).orderly
  dated := by
    rw [sameLine, sameTasks, sameTick]
    exact ticking.dated
  soon := by
    rw [sameTasks, sameTick]
    exact ticking.soon
  short := ticking.short

theorem Ticking.park
    (ticking : vm.Ticking watched wakeup) : vm.park.Ticking watched wakeup :=
  ticking.withFields rfl rfl rfl rfl rfl

variable {change : TaskData → TaskData}

section

variable (ticking : vm.Ticking watched wakeup)
include ticking

/-- A task that is where it was and keeps its deadline. -/
theorem Ticking.tdMut
    (keeps : vm.Keeps (vm.tdMut o change))
    (same : ∀ t, (change t).wakeupTick = t.wakeupTick)
    (timed : ∀ t, vm.tasks o = some t → (change t).timed → t.timed) :
    (vm.tdMut o change).Ticking watched wakeup where
  orderly := keeps.orderly
  dated := by
    refine ticking.dated.congr rfl rfl fun other d held => ⟨held, ?_⟩
    by_cases equal : other = o
    · subst equal
      simp only [Vm.tdMut, update_self, Option.map_map]
      congr 1
      funext t
      exact same t
    · simp only [Vm.tdMut, update_of_ne equal]
  soon := by
    intro other inside t task isTimed
    by_cases equal : other = o
    · subst equal
      simp only [Vm.tdMut, update_self] at task
      obtain ⟨before, held, rfl⟩ := Option.map_eq_some_iff.mp task
      rw [same]
      exact ticking.soon other inside before held (timed before held isTimed)
    · simp only [Vm.tdMut, update_of_ne equal] at task
      exact ticking.soon other inside t task isTimed
  short := ticking.short

/-- A task that is requeued with a deadline that is upcoming, and may be watched
from then on. -/
theorem Ticking.requeue_watching
    {change : TaskData → TaskData} {watching : Set ObjId}
    (o : ObjId)
    (others : ∀ other ∈ watching, other ≠ o → other ∈ watched)
    (later : o ∈ watching → ∀ t, vm.tasks o = some t → (change t).timed →
      upcoming (change t).wakeupTick vm.tick) :
    (vm.requeue o change).Ticking watching wakeup := by
  have soon : ∀ other ∈ watching, ∀ t,
      (vm.requeue o change).tasks other = some t → t.timed →
        upcoming t.wakeupTick vm.tick := by
    intro other inside t task timed
    by_cases same : other = o
    · subst same
      rw [requeue_tasks, update_self] at task
      obtain ⟨before, held, rfl⟩ := Option.map_eq_some_iff.mp task
      exact later inside before held timed
    · rw [requeue_tasks_of_ne same] at task
      exact ticking.soon other (others other inside same) t task timed
  have gone : (vm.line.qDelete o).Dated watched (vm.requeue o change).tasks
      vm.tick wakeup :=
    ticking.dated.qDelete fun other differs => requeue_tasks_of_ne differs _
  have left := gone.watch others
  refine ⟨(ticking.orderly.requeue o change).orderly, ?_, soon, ticking.short⟩
  cases held : vm.tasks o with
  | none =>
      rw [requeue_line_of_absent held]
      exact left
  | some t =>
      have recorded := ticking.orderly.placed.recorded
      refine left.qInsert (recorded.qDelete o) ticking.short qDelete_q
        (requeue_tasks_self held change) (fun other differs => ?_)
        fun other inside u task waiting has => soon other inside u task
          ⟨(qOf_eq_waiting_iff _).mp waiting, has⟩
      have kept : (vm.line.qDelete o).Tidy vm.tasks other :=
        recorded.tidy_qDelete vm.tasks
          fun _ => ticking.orderly.placed.tidy other
      exact (TaskQueues.tidy_congr (requeue_tasks_of_ne differs _)).mpr kept

/-- A task that is requeued with a deadline that is upcoming. -/
theorem Ticking.requeue
    (o : ObjId)
    (later : o ∈ watched → ∀ t, vm.tasks o = some t → (change t).timed →
      upcoming (change t).wakeupTick vm.tick) :
    (vm.requeue o change).Ticking watched wakeup :=
  ticking.requeue_watching o (fun _ inside _ => inside) later

/-- A task that does not wait for the clock when it is requeued. -/
theorem Ticking.requeue_untimed
    (o : ObjId)
    (untimed : ∀ t, ¬(change t).timed) :
    (vm.requeue o change).Ticking watched wakeup :=
  ticking.requeue o fun _ t _ timed => absurd timed (untimed t)

theorem Ticking.setStatus
    (o : ObjId)
    (elsewhere : status ≠ .waiting) :
    (vm.setStatus o status).Ticking watched wakeup :=
  ticking.requeue_untimed o fun _ timed => elsewhere timed.1

end

theorem Ticking.fold
    (items : List Item)
    (act : Vm → Item → Vm)
    (keeps : ∀ vm : Vm, vm.Ticking watched wakeup → ∀ item,
      (act vm item).Ticking watched wakeup)
    (ticking : vm.Ticking watched wakeup) :
    (items.foldl act vm).Ticking watched wakeup := by
  induction items generalizing vm with
  | nil => exact ticking
  | cons item rest ih =>
      exact ih (keeps vm ticking item)

section

variable (ticking : vm.Ticking watched wakeup)
include ticking

theorem Ticking.wakeQueueWaiter
    (q o : ObjId) : (vm.wakeQueueWaiter q o).Ticking watched wakeup := by
  unfold Vm.wakeQueueWaiter
  split
  · split
    · have woke : (vm.requeue o woken).Ticking watched wakeup :=
        ticking.requeue_untimed o fun _ timed => by cases timed.1
      exact woke.withFields rfl rfl rfl rfl rfl
    · exact ticking
  · exact ticking

theorem Ticking.wakeQueueWaiters
    (q : ObjId)
    (all : Bool) : (vm.wakeQueueWaiters q all).Ticking watched wakeup := by
  unfold Vm.wakeQueueWaiters
  split
  · exact Ticking.fold _ _ (fun vm ticking o => ticking.wakeQueueWaiter q o)
      ticking
  · split
    · exact ticking.wakeQueueWaiter q _
    · exact ticking

theorem Ticking.wakeJoinWaiters
    (done : ObjId) : (vm.wakeJoinWaiters done).Ticking watched wakeup := by
  refine Ticking.fold _ _ (fun vm ticking o => ?_) ticking
  unfold Vm.wakeJoinWaiter
  split
  · split
    · exact ticking.requeue_untimed o fun _ timed => by cases timed.1
    · exact ticking
  · exact ticking

theorem Ticking.endContext
    (ctx : Option Nat) : (vm.endContext ctx).Ticking watched wakeup := by
  unfold Vm.endContext
  split
  · split
    · exact ticking
    · exact ticking.withFields rfl rfl rfl rfl rfl
  · exact ticking

theorem Ticking.stopTask
    (o : ObjId) : (vm.stopTask o).Ticking watched wakeup := by
  rw [stopTask_eq]
  refine Ticking.wakeJoinWaiters ?_ o
  unfold halted
  refine Ticking.endContext ?_ _
  split
  · exact ticking.setStatus o (by decide)
  · rename_i unqueued
    refine ticking.tdMut (ticking.orderly.tdMut_same o _ (fun t _ queued => ?_)
      (fun _ _ _ => .inl rfl) (fun _ => rfl) (fun _ => rfl) fun _ => rfl)
      (fun _ => rfl) fun _ _ timed => by cases timed.1
    exact absurd ((TaskQueues.isQueued_iff o).mpr queued) unqueued

theorem Ticking.enterTask
    (queued : (vm.line.places o).q = some .ready) :
    (vm.enterTask o).Ticking watched wakeup := by
  unfold Vm.enterTask
  split
  · exact ticking.stopTask o
  · split
    · exact ticking.stopTask o
    · have running := ticking.tdMut (ticking.orderly.tdMut_same o
        (fun t => { t with status := .running }) (fun t held _ => by
          rw [ticking.orderly.placed.of_ready queued held]
          rfl)
        (fun _ _ out => by rw [queued] at out; cases out)
        (fun _ => rfl) (fun _ => rfl) fun _ => rfl)
        (fun _ => rfl) fun _ _ timed => by cases timed.1
      exact running.withFields rfl rfl rfl rfl rfl

theorem Ticking.schedulerStep :
    vm.schedulerStep.Ticking watched wakeup := by
  unfold Vm.schedulerStep
  split
  · exact ticking
  · rename_i key o first
    have queued := ticking.orderly.placed.head_ready first
    split
    · exact ticking
    · rename_i t held
      have ready := ticking.orderly.placed.of_ready queued held
      split
      · rename_i dormant
        rw [dormant] at ready
        cases ready
      · split
        · exact ticking
        · exact ticking.enterTask queued

theorem Ticking.setResult
    (o : ObjId)
    (value : Value) :
    (vm.tdMut o fun t => { t with result := value }).Ticking watched wakeup :=
  ticking.tdMut (ticking.orderly.setResult o value) (fun _ => rfl)
    fun _ _ timed => timed

theorem Ticking.settle
    (o : ObjId)
    (ctx : Nat)
    (outcome : Outcome) : (vm.settle o ctx outcome).Ticking watched wakeup := by
  have ended (vm' : Vm) (ticking : vm'.Ticking watched wakeup) :
      ({ vm' with
        terminated := update vm'.terminated ctx true } : Vm).Ticking
          watched wakeup :=
    ticking.withFields rfl rfl rfl rfl rfl
  unfold Vm.settle
  split
  · rename_i value
    exact ((ended vm ticking).setResult o value).stopTask o
  · split
    · exact (ticking.setResult o .nil).stopTask o
    · split
      · exact ticking.setStatus o (by decide)
      · exact ticking
  · rename_i exc
    exact (ended _ (ticking.setResult o exc)).stopTask o
  · exact (ended vm ticking).stopTask o

theorem Ticking.leaveTask
    (outcome : Outcome) : (vm.leaveTask outcome).Ticking watched wakeup := by
  unfold Vm.leaveTask
  split
  · exact ticking
  · rename_i o old slices _
    have back : ({ vm with
        running := none
        switching := false
        slices := slices
        cur := old } : Vm).Ticking watched wakeup :=
      ticking.withFields rfl rfl rfl rfl rfl
    dsimp only
    split
    · exact back.settle o _ outcome
    · exact back

theorem Ticking.createTask
    (priority : Nat) : (vm.createTask priority).2.Ticking watched wakeup := by
  have free := ticking.orderly.fresh ⟨vm.next⟩ le_rfl
  have bare : (vm.line.places ⟨vm.next⟩).deadline = none := by
    by_contra has
    obtain ⟨_, t, held, _⟩ := ticking.orderly.of_deadline has
    rw [free] at held
    cases held
  refine ⟨(ticking.orderly.createTask priority).orderly, ?_, ?_, ticking.short⟩
  · unfold Vm.createTask Vm.qInsert
    dsimp only
    rw [TaskQueues.qInsert_of_not_waiting (update_self ..)
      (by simp [qOf])]
    have made : vm.line.Dated watched (update vm.tasks ⟨vm.next⟩ (some
        { ctx := some vm.contexts
          priority := priority
          status := .ready
          reason := .none
          result := .nil
          wakeupTick := NO_WAKEUP
          join := none
          queue := none })) vm.tick wakeup := by
      refine ticking.dated.congr rfl rfl fun o d held => ⟨held, ?_⟩
      have differs : o ≠ ⟨vm.next⟩ := by
        rintro rfl
        rw [bare] at held
        cases held
      rw [update_of_ne differs]
    refine TaskQueues.Dated.setPlace_none ?_ _ rfl
    exact made.congr rfl rfl fun _ _ held => ⟨held, rfl⟩
  · intro o inside t task timed
    change update vm.tasks _ _ o = some t at task
    by_cases same : o = ⟨vm.next⟩
    · rw [same, update_self] at task
      cases task
      cases timed.1
    · rw [update_of_ne same] at task
      exact ticking.soon o inside t task timed

theorem Ticking.taskCurrent :
    vm.taskCurrent.2.Ticking watched wakeup := by
  have keeps := ticking.orderly.taskCurrent
  unfold Vm.taskCurrent at keeps ⊢
  split
  · exact ticking
  · exact ticking
  · rename_i current none
    rw [current, none] at keeps
    refine ⟨keeps.orderly, ?_, ?_, ticking.short⟩
    · refine ticking.dated.congr rfl rfl fun o d held => ⟨held, ?_⟩
      have differs : o ≠ ⟨vm.next⟩ := by
        rintro rfl
        obtain ⟨_, t, known, _⟩ := ticking.orderly.of_deadline
          (o := ⟨vm.next⟩) (held ▸ Option.some_ne_none d)
        rw [ticking.orderly.fresh ⟨vm.next⟩ le_rfl] at known
        cases known
      dsimp only
      rw [update_of_ne differs]
    · intro o inside t task timed
      by_cases same : o = ⟨vm.next⟩
      · rw [same] at task
        simp only [update_self, Option.some.injEq] at task
        rw [← task] at timed
        cases timed.1
      · simp only [update_of_ne same] at task
        exact ticking.soon o inside t task timed

theorem Ticking.taskClose
    (done : vm.taskClose o = .ok vm') : vm'.Ticking watched wakeup := by
  have orderly := (ticking.orderly.taskClose done).orderly
  obtain ⟨t, held, _, rfl⟩ := taskClose_ok done
  have line : (((vm.qDelete o).endContext t.ctx).tdMut o fun t =>
      { t with status := .dormant }).line = vm.line.qDelete o := by
    unfold Vm.tdMut Vm.endContext
    split
    · split <;> rfl
    · rfl
  have tasks : (((vm.qDelete o).endContext t.ctx).tdMut o fun t =>
      { t with status := .dormant }).tasks =
        update vm.tasks o (some t.ended) := by
    unfold Vm.tdMut
    dsimp only
    rw [endContext_tasks]
    change update vm.tasks o ((vm.tasks o).map _) = _
    rw [held]
    rfl
  have tick : (((vm.qDelete o).endContext t.ctx).tdMut o fun t =>
      { t with status := .dormant }).tick = vm.tick := by
    unfold Vm.tdMut Vm.endContext
    split
    · split <;> rfl
    · rfl
  refine ⟨orderly, ?_, ?_, ticking.short⟩
  · rw [line, tasks, tick]
    exact ticking.dated.qDelete fun other differs =>
      update_of_ne differs ..
  · rw [tasks, tick]
    intro other inside u task timed
    by_cases same : other = o
    · rw [same, update_self] at task
      cases task
      cases timed.1
    · rw [update_of_ne same] at task
      exact ticking.soon other inside u task timed

theorem Ticking.setQueue
    (q : ObjId)
    (data : QueueData) : (vm.setQueue q data).Ticking watched wakeup :=
  ticking.withFields rfl rfl rfl rfl rfl

theorem Ticking.setIndexFrom
    (n : Nat) :
    ({ vm with line := vm.line.setIndexFrom vm.tasks vm.tick n } : Vm).Ticking
      watched wakeup where
  orderly := (ticking.orderly.setIndexFrom n).orderly
  dated := by
    refine ticking.dated.setIndexFrom ticking.short
      (fun entry member inside t task has => ?_) n
    obtain ⟨t', task', waits⟩ :=
      (ticking.orderly.mem_waitingTasks_iff entry.2).mp
        (List.mem_map_of_mem member)
    rw [task] at task'
    cases task'
    exact ticking.soon entry.2 inside t task ⟨waits, has⟩
  soon := ticking.soon
  short := ticking.short

/-- A task that keeps its deadline when it is requeued. -/
theorem Ticking.requeue_same
    (o : ObjId)
    (same : ∀ t, (change t).wakeupTick = t.wakeupTick)
    (timed : ∀ t, (change t).timed → t.timed) :
    (vm.requeue o change).Ticking watched wakeup :=
  ticking.requeue o fun inside t task isTimed => by
    rw [same]
    exact ticking.soon o inside t task (timed t isTimed)

theorem Ticking.quiet
    (quiet : event.quiet)
    (done : vm.perform event = .ok vm') : vm'.Ticking watched wakeup := by
  cases event with
  | taskNew priority =>
      obtain ⟨made, found, rfl⟩ := answered done
      obtain ⟨n, same⟩ := taskNew_ok found
      rw [same]
      exact ticking.createTask n
  | taskCurrent =>
      cases done
      exact ticking.taskCurrent
  | pass boundary =>
      rcases taskPass_ok done with rfl | ⟨_, rfl⟩ | ⟨me, _, rfl⟩
      · exact ticking
      · exact ticking.schedulerStep
      · exact (ticking.setStatus me (by decide)).park
  | sleepForever boundary =>
      rcases sleepForever_ok done with rfl | ⟨me, _, rfl⟩
      · exact ticking
      · exact (ticking.setStatus me (by decide)).park
  | setPriority o priority =>
      obtain ⟨t, n, _, rfl⟩ := taskSetPriority_ok done
      exact ticking.requeue_same o (fun _ => rfl) fun _ timed => timed
  | suspend o =>
      have suspended : (vm.setStatus o .suspended).Ticking watched wakeup :=
        ticking.setStatus o (by decide)
      obtain ⟨t, _, ⟨_, rfl⟩ | ⟨_, rfl | rfl⟩⟩ := taskSuspend_ok done
      · exact ticking
      · exact suspended
      · exact suspended.park
  | resume o =>
      obtain ⟨t, _, rfl | ⟨_, rfl⟩⟩ := taskResume_ok done
      · exact ticking
      · exact ticking.requeue_untimed o fun _ timed => by cases timed.1
  | terminate o =>
      obtain ⟨t, _, ⟨_, rfl⟩ | ⟨_, rfl | rfl⟩⟩ := taskTerminate_ok done
      · exact ticking
      · exact ticking.stopTask o
      · exact (ticking.stopTask o).withFields rfl rfl rfl rfl rfl
  | close o => exact ticking.taskClose done
  | join other =>
      obtain ⟨joined, found, rfl⟩ := answered done
      obtain ⟨t, me, _, _, _, ⟨_, same⟩ | ⟨_, parked⟩⟩ := taskJoin_ok found
      · rw [same]
        exact ticking
      · rw [parked]
        exact (ticking.requeue_untimed me fun t timed => by
          simp [TaskData.joining, TaskData.timed, TaskData.hasDeadline]
            at timed).park
  | schedule =>
      cases done
      exact ticking.schedulerStep
  | leave outcome =>
      cases done
      exact ticking.leaveTask outcome
  | fiberSwitch ctx =>
      cases done
      exact ticking.withFields rfl rfl rfl rfl rfl
  | setIndexFrom n =>
      cases done
      exact ticking.setIndexFrom n
  | _ => cases quiet

end

/-! ## Moves of the clock -/

/-- A wait for a time ends when it was set to, or one tick earlier where that is
the largest count. -/
theorem upcoming_normalize
    (now ticks : UInt32)
    (short : ticks.toNat < 2 ^ 31) : upcoming (normalize (now + ticks)) now := by
  have distance := ahead_normalize now ticks short
  by_cases last : now + ticks = NO_WAKEUP
  · rw [if_pos last] at distance
    by_cases zero : ticks.toNat = 0
    · have none : ticks = 0 := UInt32.toNat_inj.mp zero
      rw [none, UInt32.add_zero] at last
      exact .inr ⟨by omega, last⟩
    · exact .inl (by omega)
  · rw [if_neg last] at distance
    exact .inl (by omega)

theorem sleepTicks_le (micros : Nat) : (sleepTicks micros).toNat ≤ 2 ^ 30 := by
  unfold sleepTicks TICK_UNIT_MS
  have millis := (UInt32.ofNat ((micros + 999) / 1000)).toNat_lt
  rw [UInt32.toNat_ofNat']
  omega

/-- The ticks until the recorded wakeup, if it lies ahead. -/
def ticksToWakeup (vm : Vm) : UInt32 :=
  if 0 < ahead vm.wakeupTick vm.tick then vm.wakeupTick - vm.tick else 0

theorem ticksToWakeup_lt (vm : Vm) : vm.ticksToWakeup.toNat < 2 ^ 31 := by
  unfold ticksToWakeup
  split
  · have turn := ahead_turn vm.wakeupTick vm.tick
    have high := ahead_lt vm.wakeupTick vm.tick
    have := vm.wakeupTick.toNat_lt
    have := vm.tick.toNat_lt
    rw [UInt32.toNat_sub]
    omega
  · decide

/-- What idling does is one move of the clock. -/
theorem idle_eq
    (some : vm.wakeupTick ≠ NO_WAKEUP) :
    vm.idle = (true, vm.advanceTicks vm.ticksToWakeup) := by
  unfold idle ticksToWakeup Vm.advanceTicks
  rw [if_neg some]
  split
  · have reached : vm.tick + (vm.wakeupTick - vm.tick) = vm.wakeupTick := by
      rw [UInt32.add_comm, UInt32.sub_add_cancel]
    rw [reached]
  · rw [UInt32.add_zero]

/-- The ticks an event moves the clock by, if it does. -/
def clockMove (vm : Vm) : Event → Option UInt32
  | .advanceTicks n => some n
  | .idle =>
      if vm.wakeupTick = NO_WAKEUP then none else some vm.ticksToWakeup
  | .sleep call _ =>
      if vm.currentTask = none then call.micros.toOption.map sleepTicks else none
  | _ => none

theorem clockMove_of_sleep
    {call : SleepCall} {boundary : Option String} {micros : Nat}
    (outside : vm.currentTask = none)
    (asked : call.micros = .ok micros) :
    vm.clockMove (.sleep call boundary) = some (sleepTicks micros) := by
  unfold clockMove
  dsimp only
  rw [if_pos outside, asked]
  rfl

theorem step_of_clockMove
    (moves : vm.clockMove event = some n) :
    vm.step event = vm.advanceTicks n := by
  cases event with
  | advanceTicks m =>
      cases moves
      rfl
  | idle =>
      unfold clockMove at moves
      dsimp only at moves
      split at moves
      · cases moves
      · rename_i some
        cases moves
        unfold Vm.step perform
        dsimp only
        rw [idle_eq some]
  | sleep call boundary =>
      unfold clockMove at moves
      dsimp only at moves
      split at moves
      · rename_i outside
        obtain ⟨micros, asked, rfl⟩ := Option.map_eq_some_iff.mp moves
        have known : call.micros = .ok micros := by
          cases same : call.micros with
          | error e =>
              rw [same] at asked
              cases asked
          | ok value =>
              rw [same] at asked
              cases asked
              rfl
        have done : vm.perform (.sleep call boundary) =
            .ok (vm.advanceTicks (sleepTicks micros)) := by
          simp only [Vm.perform, Vm.sleepFor, known, sleepUs, outside, bind,
            Except.bind]
        unfold Vm.step
        rw [done]
      · cases moves
  | _ => cases moves

/-! ## Every event that leaves the clock alone -/

section

variable (ticking : vm.Ticking watched wakeup)
include ticking

theorem Ticking.noteWakeup
    (deadline : UInt32) : (vm.noteWakeup deadline).Ticking watched wakeup := by
  unfold Vm.noteWakeup
  split
  · exact ticking.withFields rfl rfl rfl rfl rfl
  · exact ticking

theorem Ticking.queuePopTry
    {nonBlock : Bool} {deadline : Option Int64} {boundary : Option String}
    (done : vm.queuePopTry q nonBlock deadline boundary = .ok popped) :
    popped.2.Ticking watched wakeup := by
  obtain ⟨data, held, ⟨item, rest, _, rfl⟩ | ⟨empty, ⟨rfl, _⟩ |
    ⟨isOpen, waits⟩⟩⟩ := queuePopTry_ok done
  · exact ticking.setQueue q _
  · exact ticking
  · rcases blockingPop_ok waits with rfl | ⟨me, current, later, rfl⟩
    · exact ticking
    · change (vm.parkOnQueue me q _).Ticking watched wakeup
      rw [parkOnQueue_eq]
      cases deadline with
      | none =>
          refine (ticking.requeue_untimed me fun t timed => ?_).park
          simp [TaskData.timed, TaskData.onQueue, TaskData.hasDeadline] at timed
      | some deadline =>
          have positive := later _ rfl
          have parked : (vm.requeue me (TaskData.onQueue q
              (some deadline.toUInt64.toUInt32))).Ticking watched wakeup :=
            ticking.requeue me fun _ _ _ _ => .inl positive.le
          exact (parked.noteWakeup _).park

theorem Ticking.perform
    (still : vm.clockMove event = none)
    (done : vm.perform event = .ok vm') : vm'.Ticking watched wakeup := by
  cases event with
  | sleep call boundary =>
      obtain ⟨micros, asked, ⟨outside, rfl⟩ | ⟨me, _, rfl⟩⟩ := sleepFor_ok done
      · rw [clockMove_of_sleep outside asked] at still
        cases still
      · have short := sleepTicks_le micros
        have parked : (vm.requeue me (TaskData.asleep
            (normalize (vm.tick + sleepTicks micros)))).Ticking watched
              wakeup :=
          ticking.requeue me fun _ _ _ _ =>
            upcoming_normalize vm.tick _ (by omega)
        exact (parked.noteWakeup _).park
  | popTry q nonBlock deadline boundary =>
      obtain ⟨popped, found, rfl⟩ := answered done
      exact ticking.queuePopTry found
  | advanceTicks n => cases still
  | idle =>
      cases done
      unfold clockMove at still
      dsimp only at still
      split at still
      · rename_i none
        unfold Vm.idle
        rw [if_pos none]
        exact ticking
      · cases still
  | queueNew =>
      have orderly := (ticking.orderly.step .queueNew).orderly
      cases done
      exact ⟨orderly, ticking.dated, ticking.soon, ticking.short⟩
  | push q value =>
      obtain ⟨data, _, _, rfl⟩ := queuePush_ok done
      exact (ticking.setQueue q _).wakeQueueWaiters q false
  | tryPop q =>
      obtain ⟨popped, found, rfl⟩ := answered done
      obtain ⟨data, _, same | ⟨item, rest, _, taken⟩⟩ := queueTryPop_ok found
      · rw [same]
        exact ticking
      · rw [taken]
        exact ticking.setQueue q _
  | clear q =>
      obtain ⟨data, _, rfl⟩ := queueClear_ok done
      exact ticking.setQueue q _
  | closeQueue q =>
      obtain ⟨data, _, rfl | ⟨_, rfl⟩⟩ := queueClose_ok done
      · exact ticking
      · exact (ticking.setQueue q _).wakeQueueWaiters q true
  | _ => exact ticking.quiet rfl done

theorem Ticking.step
    (still : vm.clockMove event = none) :
    (vm.step event).Ticking watched wakeup := by
  unfold Vm.step
  split
  · rename_i next done
    exact ticking.perform still done
  · exact ticking

end

/-- Whether an event can give a task a deadline. -/
def setsDeadline : Event → Bool
  | .sleep _ _ => true
  | .popTry _ _ (some _) _ => true
  | _ => false

/-- An event that leaves the clock alone changes the recorded wakeup only if it
gives a task a deadline. -/
theorem perform_still
    (still : vm.clockMove event = none)
    (done : vm.perform event = .ok vm') :
    vm'.tick = vm.tick ∧
      (setsDeadline event = false → vm'.wakeupTick = vm.wakeupTick) := by
  have of_still {after : Vm} (same : vm.Still after) : after.tick = vm.tick ∧
      (setsDeadline event = false → after.wakeupTick = vm.wakeupTick) :=
    ⟨same.tick, fun _ => same.wakeupTick⟩
  cases event with
  | sleep call boundary =>
      obtain ⟨micros, asked, ⟨outside, rfl⟩ | ⟨me, _, rfl⟩⟩ := sleepFor_ok done
      · rw [clockMove_of_sleep outside asked] at still
        cases still
      · exact ⟨noteWakeup_tick (vm.requeue me _) _, fun bare => by cases bare⟩
  | popTry q nonBlock deadline boundary =>
      obtain ⟨popped, found, rfl⟩ := answered done
      obtain ⟨data, _, ⟨item, rest, _, rfl⟩ | ⟨_, ⟨rfl, _⟩ |
        ⟨_, waits⟩⟩⟩ := queuePopTry_ok found
      · exact ⟨rfl, fun _ => rfl⟩
      · exact ⟨rfl, fun _ => rfl⟩
      · rcases blockingPop_ok waits with rfl | ⟨me, _, _, rfl⟩
        · exact ⟨rfl, fun _ => rfl⟩
        · dsimp only
          rw [parkOnQueue_eq]
          cases deadline with
          | none => exact ⟨rfl, fun _ => rfl⟩
          | some deadline =>
              exact ⟨noteWakeup_tick (vm.requeue me _) _,
                fun bare => by cases bare⟩
  | advanceTicks n => cases still
  | idle =>
      cases done
      unfold clockMove at still
      dsimp only at still
      split at still
      · rename_i none
        unfold Vm.idle
        rw [if_pos none]
        exact ⟨rfl, fun _ => rfl⟩
      · cases still
  | queueNew =>
      cases done
      exact ⟨rfl, fun _ => rfl⟩
  | push q value =>
      obtain ⟨data, _, _, rfl⟩ := queuePush_ok done
      have woke := (vm.setQueue q
        { data with items := data.items ++ [value] }).wakeQueueWaiters_still q
          false
      exact ⟨woke.tick, fun _ => woke.wakeupTick⟩
  | tryPop q =>
      obtain ⟨popped, found, rfl⟩ := answered done
      obtain ⟨data, _, same | ⟨item, rest, _, taken⟩⟩ := queueTryPop_ok found
      · rw [same]
        exact ⟨rfl, fun _ => rfl⟩
      · rw [taken]
        exact ⟨rfl, fun _ => rfl⟩
  | clear q =>
      obtain ⟨data, _, rfl⟩ := queueClear_ok done
      exact ⟨rfl, fun _ => rfl⟩
  | closeQueue q =>
      obtain ⟨data, _, rfl | ⟨_, rfl⟩⟩ := queueClose_ok done
      · exact ⟨rfl, fun _ => rfl⟩
      · have woke := (vm.setQueue q
          { data with closed := true }).wakeQueueWaiters_still q true
        exact ⟨woke.tick, fun _ => woke.wakeupTick⟩
  | _ => exact of_still (still_perform rfl done)

end Vm

end SabiRuby.Tasks
