import SabiRuby.Tasks.Alike

/-!
# The scheduler keeps its places

Every operation leaves every task where its fields call for, and takes no task
out of the queues but the one that is closed.  A task that is on its way from
one place to another is named until it has arrived.
-/

namespace SabiRuby.Tasks

open Library Function

namespace Vm

variable {vm : Vm} {moving rest : List ObjId} {o other : ObjId}

/-- The queues and the indexes hold what the places record, only tasks are in
the queues, and every task that is not on its way is where its fields call
for. -/
structure PlacedBut (vm : Vm) (moving : List ObjId) : Prop where
  recorded : vm.line.Recorded
  known : ∀ o, (vm.line.places o).q ≠ none → vm.tasks o ≠ none
  tidy : ∀ o, o ∉ moving → vm.line.Tidy vm.tasks o

/-- Every task is where its fields call for. -/
def Placed (vm : Vm) : Prop := vm.PlacedBut []

theorem Placed.tidy
    (placed : vm.Placed)
    (o : ObjId) : vm.line.Tidy vm.tasks o :=
  PlacedBut.tidy placed o (List.not_mem_nil)

theorem Placed.but
    (placed : vm.Placed)
    (moving : List ObjId) : vm.PlacedBut moving :=
  ⟨placed.recorded, placed.known, fun o _ => placed.tidy o⟩

theorem PlacedBut.congr
    (placed : vm.PlacedBut moving)
    {vm' : Vm}
    (sameLine : vm'.line = vm.line)
    (sameTasks : vm'.tasks = vm.tasks) : vm'.PlacedBut moving :=
  ⟨by rw [sameLine]; exact placed.recorded,
    by rw [sameLine, sameTasks]; exact placed.known,
    by rw [sameLine, sameTasks]; exact placed.tidy⟩

/-- The tasks an update leaves alone are where they were. -/
theorem tidy_tdMut_of_ne
    {line : TaskQueues}
    (differs : other ≠ o)
    (change : TaskData → TaskData) :
    line.Tidy (vm.tdMut o change).tasks other ↔ line.Tidy vm.tasks other :=
  TaskQueues.tidy_congr (update_of_ne differs ..)

theorem tdMut_eq_none_iff (change : TaskData → TaskData) :
    (vm.tdMut o change).tasks other = none ↔ vm.tasks other = none := by
  unfold Vm.tdMut
  by_cases same : other = o
  · subst same
    simp
  · simp [same]

/-- Fields that no queue depends on can change. -/
theorem PlacedBut.tdMut_same
    (placed : vm.PlacedBut moving)
    (o : ObjId)
    (change : TaskData → TaskData)
    (status : ∀ t, vm.tasks o = some t → o ∉ moving →
      (vm.line.places o).q ≠ none → qOf (change t).status = qOf t.status)
    (priority : ∀ t, (change t).priority = t.priority)
    (deadline : ∀ t, (change t).hasDeadline = t.hasDeadline)
    (target : ∀ t, (change t).target = t.target) :
    (vm.tdMut o change).PlacedBut moving := by
  refine ⟨placed.recorded, ?_, fun other out => ?_⟩
  · intro other queued
    rw [ne_eq, tdMut_eq_none_iff]
    exact placed.known other queued
  · by_cases same : other = o
    · subst same
      intro q queued
      obtain ⟨t, held, here, keys⟩ := placed.tidy other out q queued
      refine ⟨change t, ?_, ?_, ?_⟩
      · simp [Vm.tdMut, held]
      · rw [status t held out (by
          intro none
          exact absurd (none.symm.trans queued) (by simp))]
        exact here
      · rw [priority, deadline, target]
        exact keys
    · exact (tidy_tdMut_of_ne same change).mpr (placed.tidy other out)

/-! ## Requeueing -/

theorem requeue_tasks (change : TaskData → TaskData) :
    (vm.requeue o change).tasks =
      update vm.tasks o ((vm.tasks o).map change) := rfl

theorem requeue_tasks_self
    (held : vm.tasks o = some t)
    (change : TaskData → TaskData) :
    (vm.requeue o change).tasks o = some (change t) := by
  rw [requeue_tasks, update_self, held, Option.map_some]

theorem requeue_tasks_of_ne
    (differs : other ≠ o)
    (change : TaskData → TaskData) :
    (vm.requeue o change).tasks other = vm.tasks other := by
  rw [requeue_tasks, update_of_ne differs]

/-- Fields written before a task is requeued are written with it. -/
theorem tdMut_requeue (first second : TaskData → TaskData) :
    (vm.tdMut o first).requeue o second =
      vm.requeue o fun t => second (first t) := by
  unfold requeue
  congr 1
  simp [Vm.tdMut, Vm.qDelete, update_idem, comp_def]

theorem qDelete_q : ((vm.line.qDelete o).places o).q = none := by
  rw [TaskQueues.qDelete_places, update_self]
  rfl

theorem requeue_line_of_absent
    (absent : vm.tasks o = none)
    (change : TaskData → TaskData) :
    (vm.requeue o change).line = vm.line.qDelete o := by
  have still : ((vm.qDelete o).tdMut o change).tasks o = none := by
    simp [Vm.tdMut, Vm.qDelete, absent]
  unfold Vm.requeue Vm.qInsert TaskQueues.qInsert
  rw [still]
  rfl

section

variable (recorded : vm.line.Recorded)
include recorded

theorem requeue_alike
    (held : vm.tasks o = some t)
    (change : TaskData → TaskData) :
    (vm.requeue o change).line.Alike
      ((vm.line.withdraw o).enter o (change t)) := by
  have inserted := (recorded.qDelete o).alike_qInsert
    (vm.tdMut o change).tasks vm.tick qDelete_q
    (show (vm.tdMut o change).tasks o = some (change t) by
      simp [Vm.tdMut, held])
  exact inserted.trans ((TaskQueues.alike_qDelete o).enter o (change t))

/-- The place a requeued task has. -/
theorem requeue_queued_self
    (held : vm.tasks o = some t)
    (change : TaskData → TaskData) :
    ((vm.requeue o change).line.places o).queued =
      some (qOf (change t).status, vm.line.keyOf (change t)) := by
  rw [(requeue_alike recorded held change).queued, TaskQueues.enter,
    TaskQueues.setPlace_self]
  rfl

/-- The places of the other tasks stay. -/
theorem requeue_queued_of_ne
    (differs : other ≠ o)
    (change : TaskData → TaskData) :
    ((vm.requeue o change).line.places other).queued =
      (vm.line.places other).queued := by
  cases held : vm.tasks o with
  | none =>
      rw [requeue_line_of_absent held, TaskQueues.qDelete_places,
        update_of_ne differs]
  | some t =>
      rw [(requeue_alike recorded held change).queued, TaskQueues.enter,
        TaskQueues.setPlace_of_ne _ differs]
      exact congrArg TaskPlace.queued (update_of_ne differs ..)

end

theorem queued_eq_none_iff (place : TaskPlace) :
    place.queued = none ↔ place.q = none := by
  unfold TaskPlace.queued
  simp

/-- Only tasks are in the queues after one is requeued. -/
theorem PlacedBut.requeue_known
    (placed : vm.PlacedBut moving)
    (change : TaskData → TaskData) :
    ∀ other, ((vm.requeue o change).line.places other).q ≠ none →
      (vm.requeue o change).tasks other ≠ none := by
  intro other queued
  by_cases same : other = o
  · subst same
    cases held : vm.tasks other with
    | none =>
        rw [requeue_line_of_absent held] at queued
        exact absurd qDelete_q queued
    | some t =>
        rw [requeue_tasks_self held]
        exact Option.some_ne_none _
  · rw [requeue_tasks_of_ne same]
    apply placed.known
    rw [ne_eq, ← queued_eq_none_iff] at queued ⊢
    rwa [requeue_queued_of_ne placed.recorded same] at queued

/-- A task that is requeued arrives. -/
theorem PlacedBut.requeue
    (placed : vm.PlacedBut [o])
    (change : TaskData → TaskData) : (vm.requeue o change).Placed := by
  have left := placed.recorded.qDelete o
  have tidy : ∀ other, other ≠ o →
      (vm.line.qDelete o).Tidy (vm.tdMut o change).tasks other := by
    intro other differs
    have kept := placed.recorded.tidy_qDelete vm.tasks
      (fun differs => placed.tidy other (by simpa using differs))
    exact (tidy_tdMut_of_ne differs change).mpr kept
  cases held : vm.tasks o with
  | none =>
      have stays := requeue_line_of_absent held change
      refine ⟨by rw [stays]; exact left, placed.requeue_known change,
        fun other _ => ?_⟩
      rw [stays]
      by_cases same : other = o
      · rw [same]
        exact TaskQueues.tidy_of_not_queued qDelete_q
      · exact tidy other same
  | some t =>
      have inserted := left.qInsert (vm.tdMut o change).tasks vm.tick
        (t := change t) qDelete_q (by simp [Vm.tdMut, held]) tidy
      exact ⟨inserted.1, placed.requeue_known change,
        fun other _ => inserted.2 other⟩

/-- A task that is requeued without waiting arrives, whatever else is on its
way. -/
theorem PlacedBut.requeue_elsewhere
    (placed : vm.PlacedBut (o :: rest))
    (change : TaskData → TaskData)
    (elsewhere : ∀ t, qOf (change t).status ≠ .waiting) :
    (vm.requeue o change).PlacedBut rest := by
  have left := placed.recorded.qDelete o
  have tidy : ∀ other, other ∉ rest → other ≠ o →
      (vm.line.qDelete o).Tidy (vm.tdMut o change).tasks other := by
    intro other out differs
    have kept := placed.recorded.tidy_qDelete vm.tasks
      (fun differs => placed.tidy other (by
        simp only [List.mem_cons, not_or]
        exact ⟨differs, out⟩))
    exact (tidy_tdMut_of_ne differs change).mpr kept
  cases held : vm.tasks o with
  | none =>
      have stays := requeue_line_of_absent held change
      refine ⟨by rw [stays]; exact left, placed.requeue_known change,
        fun other out => ?_⟩
      rw [stays]
      by_cases same : other = o
      · rw [same]
        exact TaskQueues.tidy_of_not_queued qDelete_q
      · exact tidy other out same
  | some t =>
      have here : ((vm.qDelete o).tdMut o change).tasks o =
          some (change t) := by
        simp [Vm.tdMut, Vm.qDelete, held]
      have enters : (vm.requeue o change).line =
          (vm.line.qDelete o).enter o (change t) :=
        TaskQueues.qInsert_of_not_waiting here (elsewhere t)
      refine ⟨by rw [enters]; exact left.enter qDelete_q (change t),
        placed.requeue_known change, fun other out => ?_⟩
      rw [enters]
      by_cases same : other = o
      · rw [same]
        exact TaskQueues.tidy_enter here fun _ => elsewhere t
      · exact (TaskQueues.tidy_enqueue_of_ne same _).mpr (tidy other out same)

/-! ## What an operation keeps -/

/-- Every task is where its fields call for, the ids from `next` on are free,
and a task in no queue is over or the main one. -/
structure Orderly (vm : Vm) : Prop where
  placed : vm.Placed
  fresh : ∀ o : ObjId, vm.next ≤ o.index → vm.tasks o = none
  lost : ∀ o t, vm.tasks o = some t → (vm.line.places o).q = none →
    t.status = .dormant ∨ t.status = .running ∧ vm.main = some o

/-- What an operation keeps: order, the queued tasks in the queues, and no task
made but in the queues. -/
structure Keeps (vm vm' : Vm) : Prop where
  orderly : vm'.Orderly
  queued : ∀ o, (vm.line.places o).q ≠ none → (vm'.line.places o).q ≠ none
  made : ∀ o, vm'.tasks o ≠ none →
    (vm'.line.places o).q ≠ none ∨ vm.tasks o ≠ none
  main : vm'.main = vm.main

variable {vm' vm'' : Vm}

theorem Orderly.keeps (orderly : vm.Orderly) : vm.Keeps vm :=
  ⟨orderly, fun _ queued => queued, fun _ held => .inr held, rfl⟩

theorem Keeps.trans
    (first : vm.Keeps vm')
    (second : vm'.Keeps vm'') : vm.Keeps vm'' where
  orderly := second.orderly
  queued o queued := second.queued o (first.queued o queued)
  made o held := by
    rcases second.made o held with queued | held
    · exact .inl queued
    · rcases first.made o held with queued | held
      · exact .inl (second.queued o queued)
      · exact .inr held
  main := second.main.trans first.main

/-- An operation that keeps the queues and the tasks keeps their order. -/
theorem Orderly.keeps_of_same
    (orderly : vm.Orderly)
    (sameLine : vm'.line = vm.line)
    (sameTasks : vm'.tasks = vm.tasks)
    (sameNext : vm'.next = vm.next)
    (sameMain : vm'.main = vm.main) : vm.Keeps vm' where
  orderly :=
    ⟨orderly.placed.congr sameLine sameTasks, by
      rw [sameNext, sameTasks]
      exact orderly.fresh, by
      rw [sameLine, sameTasks, sameMain]
      exact orderly.lost⟩
  queued o queued := by rwa [sameLine]
  made o held := .inr (by rwa [sameTasks] at held)
  main := sameMain

theorem Keeps.withFields
    (keeps : vm.Keeps vm')
    (sameLine : vm''.line = vm'.line)
    (sameTasks : vm''.tasks = vm'.tasks)
    (sameNext : vm''.next = vm'.next)
    (sameMain : vm''.main = vm'.main) : vm.Keeps vm'' :=
  keeps.trans
    (keeps.orderly.keeps_of_same sameLine sameTasks sameNext sameMain)

theorem Orderly.tdMut_same
    (orderly : vm.Orderly)
    (o : ObjId)
    (change : TaskData → TaskData)
    (status : ∀ t, vm.tasks o = some t →
      (vm.line.places o).q ≠ none → qOf (change t).status = qOf t.status)
    (lost : ∀ t, vm.tasks o = some t → (vm.line.places o).q = none →
      (change t).status = .dormant ∨ (change t).status = t.status)
    (priority : ∀ t, (change t).priority = t.priority)
    (deadline : ∀ t, (change t).hasDeadline = t.hasDeadline)
    (target : ∀ t, (change t).target = t.target) :
    vm.Keeps (vm.tdMut o change) where
  orderly :=
    ⟨orderly.placed.tdMut_same o change
      (fun t held _ queued => status t held queued) priority deadline target,
      fun other free => tdMut_eq_none_iff change |>.mpr
        (orderly.fresh other free), by
      intro other t' held out
      by_cases same : other = o
      · subst same
        cases before : vm.tasks other with
        | none => simp [Vm.tdMut, before] at held
        | some t =>
            have changed : t' = change t := by
              simpa [Vm.tdMut, before, eq_comm] using held
            rw [changed]
            rcases lost t before out with isOver | kept
            · exact .inl isOver
            · rw [kept]
              exact orderly.lost other t before out
      · exact orderly.lost other t'
          (by simpa [Vm.tdMut, same] using held) out⟩
  queued _ queued := queued
  made _ held := .inr fun absent =>
    held ((tdMut_eq_none_iff change).mpr absent)
  main := rfl

theorem Orderly.requeue
    (orderly : vm.Orderly)
    (o : ObjId)
    (change : TaskData → TaskData) : vm.Keeps (vm.requeue o change) where
  orderly :=
    ⟨(orderly.placed.but [o]).requeue change, fun other free =>
      (tdMut_eq_none_iff change).mpr (orderly.fresh other free), by
      intro other t' held out
      by_cases same : other = o
      · subst same
        cases before : vm.tasks other with
        | none =>
            have absent := (tdMut_eq_none_iff (o := other) change).mpr before
            exact absurd (absent.symm.trans held) (by simp)
        | some t =>
            rw [← queued_eq_none_iff, requeue_queued_self
              orderly.placed.recorded before] at out
            cases out
      · rw [requeue_tasks_of_ne same] at held
        rw [← queued_eq_none_iff, requeue_queued_of_ne
          orderly.placed.recorded same, queued_eq_none_iff] at out
        exact orderly.lost other t' held out⟩
  queued other queued := by
    by_cases same : other = o
    · subst same
      obtain ⟨t, held⟩ := Option.ne_none_iff_exists'.mp
        (orderly.placed.known other queued)
      rw [ne_eq, ← queued_eq_none_iff,
        requeue_queued_self orderly.placed.recorded held]
      exact Option.some_ne_none _
    · rw [ne_eq, ← queued_eq_none_iff] at queued ⊢
      rwa [requeue_queued_of_ne orderly.placed.recorded same]
  made _ held := .inr fun absent =>
    held ((tdMut_eq_none_iff change).mpr absent)
  main := rfl

/-! ## Waking -/

/-- Waking tasks one by one. -/
theorem PlacedBut.wakes
    (due : List ObjId)
    (placed : vm.PlacedBut due) :
    (due.foldl wake vm).Placed ∧
      (∀ o, (vm.line.places o).q ≠ none →
        ((due.foldl wake vm).line.places o).q ≠ none) ∧
      (∀ o, (due.foldl wake vm).tasks o = none ↔ vm.tasks o = none) ∧
      (∀ o, ((due.foldl wake vm).line.places o).q = none →
        (due.foldl wake vm).tasks o = vm.tasks o) ∧
      (due.foldl wake vm).next = vm.next ∧
      (due.foldl wake vm).main = vm.main := by
  induction due generalizing vm with
  | nil =>
      exact ⟨placed, fun _ queued => queued, fun _ => .rfl, fun _ _ => rfl,
        rfl, rfl⟩
  | cons o rest ih =>
      rw [List.foldl_cons]
      have step : (vm.wake o).PlacedBut rest :=
        (placed.requeue_elsewhere woken fun t => by simp [woken, qOf]).congr
          rfl rfl
      obtain ⟨arrived, queued, tasks, kept, next, main⟩ :=
        ih step
      have stays : ∀ other, (vm.line.places other).q ≠ none →
          ((vm.wake o).line.places other).q ≠ none := by
        intro other inside
        change ((vm.requeue o woken).line.places other).q ≠ none
        by_cases same : other = o
        · subst same
          obtain ⟨t, held⟩ := Option.ne_none_iff_exists'.mp
            (placed.known other inside)
          rw [ne_eq, ← queued_eq_none_iff,
            requeue_queued_self placed.recorded held]
          exact Option.some_ne_none _
        · rw [ne_eq, ← queued_eq_none_iff] at inside ⊢
          rwa [requeue_queued_of_ne placed.recorded same]
      refine ⟨arrived, fun other inside => queued other (stays other inside),
        fun other => (tasks other).trans (tdMut_eq_none_iff woken),
        fun other out => (kept other out).trans ?_, next, main⟩
      by_cases same : other = o
      · subst same
        cases held : vm.tasks other with
        | none => exact (tdMut_eq_none_iff woken).mpr held
        | some t =>
            refine absurd out (queued other ?_)
            change ((vm.requeue other woken).line.places other).q ≠ none
            rw [ne_eq, ← queued_eq_none_iff,
              requeue_queued_self placed.recorded held]
            exact Option.some_ne_none _
      · exact requeue_tasks_of_ne same woken

/-- The tasks found due left the index of the sleepers only. -/
theorem Placed.findDue
    (placed : vm.Placed) :
    vm.findDue.2.PlacedBut vm.findDue.1.1 ∧
      (∀ o, (vm.findDue.2.line.places o).queued =
        (vm.line.places o).queued) ∧
      vm.findDue.2 = { vm with line := vm.findDue.2.line } := by
  unfold Vm.findDue
  split
  · have clocked : (vm.line.absTick vm.tick).Recorded :=
      placed.recorded.withClock vm.line.indexed vm.line.indexFrom _ _
    have taken := clocked.takeDue (vm.line.absTick vm.tick).tickAbs
      (vm.line.absTick vm.tick).sleepers.items.length le_rfl
    have queued : ∀ o, (((vm.line.absTick vm.tick).takeDue
        (vm.line.absTick vm.tick).tickAbs
        (vm.line.absTick vm.tick).sleepers.items.length).2.places o).queued =
          (vm.line.places o).queued := by
      intro o
      rw [taken.places]
      split <;> rfl
    refine ⟨⟨taken.recorded, ?_, fun o out => ?_⟩, queued, rfl⟩
    · intro o inside
      apply placed.known o
      rw [ne_eq, ← queued_eq_none_iff] at inside ⊢
      exact queued o ▸ inside
    · refine taken.tidy (fun member => out ?_) (placed.tidy o)
      obtain ⟨entry, inside, rfl⟩ := List.mem_map.mp member
      exact List.mem_map_of_mem ((List.mem_insertionSort _).mpr inside)
  · exact ⟨placed.but _, fun _ => rfl, rfl⟩

theorem Orderly.wakeSleepers
    (orderly : vm.Orderly) : vm.Keeps vm.wakeSleepers := by
  unfold Vm.wakeSleepers
  split
  · exact orderly.keeps
  · split
    · exact orderly.keeps
    · obtain ⟨moving, sameQueue, same⟩ := orderly.placed.findDue
      obtain ⟨arrived, queued, tasks, kept, next, main⟩ := moving.wakes
      have sameTasks : vm.findDue.2.tasks = vm.tasks := by rw [same]
      have sameNext : vm.findDue.2.next = vm.next := by rw [same]
      have sameMain : vm.findDue.2.main = vm.main := by rw [same]
      have stays : ∀ o, (vm.line.places o).q ≠ none →
          ((vm.findDue.1.1.foldl Vm.wake vm.findDue.2).line.places o).q ≠
            none := by
        intro o inside
        apply queued o
        rw [ne_eq, ← queued_eq_none_iff] at inside ⊢
        rwa [sameQueue o]
      refine ⟨⟨arrived.congr rfl rfl, fun o free => ?_, fun o t held out => ?_⟩,
        stays, fun o held => .inr fun absent => held ?_, main.trans sameMain⟩
      · apply (tasks o).mpr
        rw [sameTasks]
        exact orderly.fresh o (by rw [← sameNext, ← next]; exact free)
      · have before : vm.tasks o = some t := by
          rw [← sameTasks, ← kept o out]
          exact held
        have wasOut : (vm.line.places o).q = none := by
          by_contra inside
          exact stays o inside out
        rcases orderly.lost o t before wasOut with isOver | ⟨runs, isMain⟩
        · exact .inl isOver
        · exact .inr ⟨runs, (main.trans sameMain).trans isMain⟩
      · apply (tasks o).mpr
        rw [sameTasks]
        exact absent

theorem Keeps.fold
    (items : List Item)
    (act : Vm → Item → Vm)
    (keeps : ∀ vm : Vm, vm.Orderly → ∀ item, vm.Keeps (act vm item))
    (orderly : vm.Orderly) : vm.Keeps (items.foldl act vm) := by
  induction items generalizing vm with
  | nil => exact orderly.keeps
  | cons item rest ih =>
      have step := keeps vm orderly item
      exact step.trans (ih step.orderly)

section

variable (orderly : vm.Orderly)
include orderly

theorem Orderly.wake
    (o : ObjId) : vm.Keeps (vm.wake o) :=
  (orderly.requeue o woken).withFields rfl rfl rfl rfl

theorem Orderly.wakeJoinWaiters
    (done : ObjId) : vm.Keeps (vm.wakeJoinWaiters done) := by
  refine Keeps.fold _ _ (fun vm orderly o => ?_) orderly
  unfold Vm.wakeJoinWaiter
  split
  · split
    · exact orderly.requeue o _
    · exact orderly.keeps
  · exact orderly.keeps

theorem Orderly.wakeQueueWaiter
    (queue o : ObjId) : vm.Keeps (vm.wakeQueueWaiter queue o) := by
  unfold Vm.wakeQueueWaiter
  split
  · split
    · exact orderly.wake o
    · exact orderly.keeps
  · exact orderly.keeps

theorem Orderly.wakeQueueWaiters
    (queue : ObjId)
    (all : Bool) : vm.Keeps (vm.wakeQueueWaiters queue all) := by
  unfold Vm.wakeQueueWaiters
  split
  · exact Keeps.fold _ _ (fun vm orderly o => orderly.wakeQueueWaiter queue o)
      orderly
  · split
    · exact orderly.wakeQueueWaiter queue _
    · exact orderly.keeps

end

/-! ## The clock -/

theorem Orderly.advanceTicks
    (orderly : vm.Orderly)
    (n : UInt32) : vm.Keeps (vm.advanceTicks n) := by
  have moved : vm.Keeps { vm with tick := vm.tick + n } :=
    orderly.keeps_of_same rfl rfl rfl rfl
  exact moved.trans moved.orderly.wakeSleepers

theorem Orderly.idle
    (orderly : vm.Orderly) : vm.Keeps vm.idle.2 := by
  unfold Vm.idle
  split
  · exact orderly.keeps
  · split
    · have moved : vm.Keeps { vm with tick := vm.wakeupTick } :=
        orderly.keeps_of_same rfl rfl rfl rfl
      exact moved.trans moved.orderly.wakeSleepers
    · exact orderly.wakeSleepers

theorem Keeps.noteWakeup
    (keeps : vm.Keeps vm')
    (deadline : UInt32) : vm.Keeps (vm'.noteWakeup deadline) := by
  unfold Vm.noteWakeup
  split
  · exact keeps.withFields rfl rfl rfl rfl
  · exact keeps

/-- Keeping the indexes from another number of tasks on. -/
theorem Orderly.setIndexFrom
    (orderly : vm.Orderly)
    (n : Nat) :
    vm.Keeps { vm with line := vm.line.setIndexFrom vm.tasks vm.tick n } := by
  have kept : (vm.line.setIndexFrom vm.tasks vm.tick n).Recorded ∧
      ∀ o, (vm.line.setIndexFrom vm.tasks vm.tick n).Tidy vm.tasks o :=
    orderly.placed.recorded.setIndexFrom orderly.placed.tidy n
  have alike : (vm.line.setIndexFrom vm.tasks vm.tick n).Alike vm.line :=
    orderly.placed.recorded.alike_setIndexFrom n
  obtain ⟨recorded, tidy⟩ := kept
  have same : ∀ o, ((vm.line.setIndexFrom vm.tasks vm.tick n).places o).q ≠
      none ↔ (vm.line.places o).q ≠ none := by
    intro o
    rw [ne_eq, ← queued_eq_none_iff, alike.queued, queued_eq_none_iff]
  exact
    { orderly :=
        ⟨⟨recorded, fun o queued => orderly.placed.known o ((same o).mp queued),
          fun o _ => tidy o⟩, orderly.fresh, fun o t held out =>
            orderly.lost o t held (by
              by_contra inside
              exact (same o).mpr inside out)⟩
      queued := fun o queued => (same o).mpr queued
      made := fun _ held => .inr held
      main := rfl }

/-! ## The life of a task -/

theorem Orderly.createTask
    (orderly : vm.Orderly)
    (priority : Nat) : vm.Keeps (vm.createTask priority).2 := by
  have free := orderly.fresh ⟨vm.next⟩ le_rfl
  have out : (vm.line.places ⟨vm.next⟩).q = none := by
    by_contra queued
    exact orderly.placed.known ⟨vm.next⟩ queued free
  unfold Vm.createTask Vm.qInsert
  dsimp only
  generalize made : ({
      ctx := some vm.contexts
      priority := priority
      status := .ready
      reason := .none
      result := .nil
      wakeupTick := NO_WAKEUP
      join := none
      queue := none } : TaskData) = task
  generalize table : update vm.tasks (⟨vm.next⟩ : ObjId)
    (some task) = tasks
  have held : tasks ⟨vm.next⟩ = some task := by
    rw [← table, update_self]
  have others : ∀ o : ObjId, o ≠ ⟨vm.next⟩ → tasks o = vm.tasks o := by
    intro o differs
    rw [← table, update_of_ne differs]
  have inserted := orderly.placed.recorded.qInsert tasks vm.tick out held
    fun o differs => (TaskQueues.tidy_congr (others o differs)).mpr
      (orderly.placed.tidy o)
  have alike := orderly.placed.recorded.alike_qInsert tasks vm.tick out held
  have queuedSelf : ((vm.line.qInsert tasks vm.tick ⟨vm.next⟩).places
      ⟨vm.next⟩).q ≠ none := by
    rw [ne_eq, ← queued_eq_none_iff, alike.queued, TaskQueues.enter,
      TaskQueues.setPlace_self]
    exact Option.some_ne_none _
  have queuedOther : ∀ o : ObjId, o ≠ ⟨vm.next⟩ →
      (((vm.line.qInsert tasks vm.tick ⟨vm.next⟩).places o).q ≠ none ↔
        (vm.line.places o).q ≠ none) := by
    intro o differs
    rw [ne_eq, ← queued_eq_none_iff, alike.queued, TaskQueues.enter,
      TaskQueues.setPlace_of_ne _ differs, queued_eq_none_iff]
    rfl
  exact
    { orderly :=
        { placed := ⟨inserted.1, fun o queued => by
            change tasks o ≠ none
            by_cases same : o = ⟨vm.next⟩
            · rw [same, held]
              exact Option.some_ne_none _
            · rw [others o same]
              exact orderly.placed.known o ((queuedOther o same).mp queued),
            fun o _ => inserted.2 o⟩
          fresh := fun o beyond => by
            have differs : o ≠ ⟨vm.next⟩ := by
              rintro rfl
              exact absurd beyond (Nat.not_succ_le_self _)
            exact (others o differs).trans
              (orderly.fresh o (Nat.le_of_succ_le beyond))
          lost := fun o t held' lost => by
            by_cases same : o = ⟨vm.next⟩
            · rw [same] at lost
              exact absurd lost queuedSelf
            · refine orderly.lost o t ((others o same) ▸ held') ?_
              by_contra inside
              exact (queuedOther o same).mpr inside lost }
      queued := fun o queued => by
        by_cases same : o = ⟨vm.next⟩
        · rw [same]
          exact queuedSelf
        · exact (queuedOther o same).mpr queued
      made := fun o made => by
        by_cases same : o = ⟨vm.next⟩
        · rw [same]
          exact .inl queuedSelf
        · exact .inr ((others o same) ▸ made)
      main := rfl }

/-- The scheduler of a task that is over, before its joiners are woken. -/
def halted (vm : Vm) (o : ObjId) : Vm :=
  let vm :=
    if vm.line.isQueued o then vm.setStatus o .dormant
    else vm.tdMut o fun t => { t with status := .dormant }
  vm.endContext ((vm.tasks o).bind TaskData.ctx)

theorem stopTask_eq (o : ObjId) :
    vm.stopTask o = (vm.halted o).wakeJoinWaiters o := rfl

theorem Keeps.endContext
    (keeps : vm.Keeps vm')
    (ctx : Option Nat) : vm.Keeps (vm'.endContext ctx) := by
  unfold Vm.endContext
  split
  · split
    · exact keeps
    · exact keeps.withFields rfl rfl rfl rfl
  · exact keeps

theorem Orderly.halted
    (orderly : vm.Orderly)
    (o : ObjId) : vm.Keeps (vm.halted o) := by
  unfold Vm.halted
  refine Keeps.endContext ?_ _
  split
  · exact orderly.requeue o _
  · rename_i out
    refine orderly.tdMut_same o _ (fun t _ queued => ?_)
      (fun _ _ _ => .inl rfl) (fun _ => rfl) (fun _ => rfl) (fun _ => rfl)
    exact absurd ((TaskQueues.isQueued_iff o).mpr queued) out

theorem Orderly.stopTask
    (orderly : vm.Orderly)
    (o : ObjId) : vm.Keeps (vm.stopTask o) := by
  rw [stopTask_eq]
  have before := orderly.halted o
  exact before.trans (before.orderly.wakeJoinWaiters o)

/-- A task in the ready queue is ready or running. -/
theorem Placed.of_ready
    (placed : vm.Placed)
    (queued : (vm.line.places o).q = some .ready)
    (held : vm.tasks o = some t) : qOf t.status = .ready := by
  obtain ⟨t', held', here, _⟩ := placed.tidy o .ready queued
  rw [held] at held'
  cases held'
  exact here.symm

theorem Placed.head_ready
    (placed : vm.Placed)
    (first : (vm.line.queues .ready).items.head? = some (key, o)) :
    (vm.line.places o).q = some .ready := by
  have queued := placed.recorded.of_mem_queue (List.mem_of_head? first)
  exact (((vm.line.places o).queued_eq_some_iff _ _).mp queued).1

theorem Orderly.enterTask
    (orderly : vm.Orderly)
    (queued : (vm.line.places o).q = some .ready) :
    vm.Keeps (vm.enterTask o) := by
  unfold Vm.enterTask
  split
  · exact orderly.stopTask o
  · split
    · exact orderly.stopTask o
    · refine Keeps.withFields (orderly.tdMut_same o
        (fun t => { t with status := .running }) (fun t held _ => ?_)
        (fun _ _ out => by rw [queued] at out; cases out)
        (fun _ => rfl) (fun _ => rfl) (fun _ => rfl)) rfl rfl rfl rfl
      rw [orderly.placed.of_ready queued held]
      rfl

theorem Orderly.schedulerStep
    (orderly : vm.Orderly) : vm.Keeps vm.schedulerStep := by
  unfold Vm.schedulerStep
  split
  · exact orderly.keeps
  · rename_i key o first
    have queued := orderly.placed.head_ready first
    split
    · exact orderly.keeps
    · rename_i t held
      have ready := orderly.placed.of_ready queued held
      split
      · rename_i dormant
        rw [dormant] at ready
        cases ready
      · split
        · exact orderly.keeps
        · exact orderly.enterTask queued

/-- The result of a task is no concern of the queues. -/
theorem Orderly.setResult
    (orderly : vm.Orderly)
    (o : ObjId)
    (value : Value) :
    vm.Keeps (vm.tdMut o fun t => { t with result := value }) :=
  orderly.tdMut_same o _ (fun _ _ _ => rfl) (fun _ _ _ => .inr rfl)
    (fun _ => rfl) (fun _ => rfl) fun _ => rfl

theorem Keeps.stopTask
    (keeps : vm.Keeps vm')
    (o : ObjId) : vm.Keeps (vm'.stopTask o) :=
  keeps.trans (keeps.orderly.stopTask o)

theorem Orderly.settle
    (orderly : vm.Orderly)
    (o : ObjId)
    (ctx : Nat)
    (outcome : Outcome) : vm.Keeps (vm.settle o ctx outcome) := by
  have ended (vm' : Vm) (keeps : vm.Keeps vm') :
      vm.Keeps { vm' with
        terminated := update vm'.terminated ctx true } :=
    keeps.withFields rfl rfl rfl rfl
  unfold Vm.settle
  split
  · rename_i value
    have first := ended vm orderly.keeps
    exact (first.trans (first.orderly.setResult o value)).stopTask o
  · split
    · exact (orderly.setResult o .nil).stopTask o
    · split
      · exact orderly.requeue o _
      · exact orderly.keeps
  · rename_i exc
    exact (ended _ (orderly.setResult o exc)).stopTask o
  · exact (ended vm orderly.keeps).stopTask o

theorem Orderly.leaveTask
    (orderly : vm.Orderly)
    (outcome : Outcome) : vm.Keeps (vm.leaveTask outcome) := by
  unfold Vm.leaveTask
  split
  · exact orderly.keeps
  · rename_i o old slices _
    have back : vm.Keeps { vm with
        running := none
        switching := false
        slices := slices
        cur := old } := orderly.keeps_of_same rfl rfl rfl rfl
    dsimp only
    split
    · exact back.trans (back.orderly.settle o _ outcome)
    · exact back

theorem Keeps.park (keeps : vm.Keeps vm') : vm.Keeps vm'.park :=
  keeps.withFields rfl rfl rfl rfl

theorem Orderly.setQueue
    (orderly : vm.Orderly)
    (q : ObjId)
    (data : QueueData) : vm.Keeps (vm.setQueue q data) :=
  orderly.keeps_of_same rfl rfl rfl rfl

theorem Orderly.parkOnQueue
    (orderly : vm.Orderly)
    (me q : ObjId)
    (deadline : Option UInt32) : vm.Keeps (vm.parkOnQueue me q deadline) := by
  unfold Vm.parkOnQueue Vm.setStatus
  dsimp only
  rw [tdMut_requeue]
  have parked := orderly.requeue me fun t =>
    { t with
      reason := .queue
      queue := some q
      wakeupTick := deadline.getD NO_WAKEUP
      status := .waiting }
  cases deadline with
  | none => exact parked.park
  | some deadline => exact (parked.noteWakeup deadline).park

end Vm

end SabiRuby.Tasks
