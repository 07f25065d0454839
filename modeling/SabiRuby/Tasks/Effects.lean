import SabiRuby.Tasks.Lookup

/-!
# What the operations do to the tasks

The fields that waking and stopping tasks write, task by task, and everything
else of the scheduler that they leave alone.
-/

namespace SabiRuby.Tasks

open Library Function

/-- Whether a task waits to join another. -/
def TaskData.joins (t : TaskData) (done : ObjId) : Prop :=
  t.status = .waiting ∧ t.reason = .join ∧ t.join = some done

instance (t : TaskData) (done : ObjId) : Decidable (t.joins done) :=
  inferInstanceAs (Decidable (_ ∧ _))

/-- Whether a task waits on a queue. -/
def TaskData.pops (t : TaskData) (q : ObjId) : Prop :=
  t.status = .waiting ∧ t.reason = .queue ∧ t.queue = some q

instance (t : TaskData) (q : ObjId) : Decidable (t.pops q) :=
  inferInstanceAs (Decidable (_ ∧ _))

/-- The fields of a task that is over. -/
def TaskData.ended (t : TaskData) : TaskData :=
  { t with status := .dormant }

namespace Vm

variable {vm vm' vm'' : Vm} {o other : ObjId}

/-- Nothing changed but the tasks, where they stand, which contexts are over and
whether a switch is due. -/
def Frame (vm vm' : Vm) : Prop :=
  vm' =
    { vm with
      line := vm'.line
      tasks := vm'.tasks
      switching := vm'.switching
      terminated := vm'.terminated }

theorem Frame.refl (vm : Vm) : vm.Frame vm := rfl

theorem Frame.trans
    (first : vm.Frame vm')
    (second : vm'.Frame vm'') : vm.Frame vm'' := by
  unfold Frame at *
  rw [second, first]

theorem Frame.requeue
    (o : ObjId)
    (change : TaskData → TaskData) : vm.Frame (vm.requeue o change) := rfl

theorem Frame.fold
    (items : List Item)
    (act : Vm → Item → Vm)
    (frame : ∀ (vm : Vm) item, vm.Frame (act vm item)) :
    vm.Frame (items.foldl act vm) := by
  induction items generalizing vm with
  | nil => exact .refl vm
  | cons item rest ih =>
      exact (frame vm item).trans ih

/-- Acting on tasks one by one, each in a way that a second time adds nothing
to, acts on each of them once. -/
theorem foldl_tasks
    (act : Vm → ObjId → Vm)
    (effect : TaskData → TaskData)
    (acts : ∀ (vm : Vm) o,
      (act vm o).tasks =
        update vm.tasks o ((vm.tasks o).map effect))
    (once : ∀ t, effect (effect t) = effect t)
    (items : List ObjId)
    (o : ObjId) :
    (items.foldl act vm).tasks o =
      if o ∈ items then (vm.tasks o).map effect else vm.tasks o := by
  induction items generalizing vm with
  | nil => simp
  | cons item rest ih =>
      rw [List.foldl_cons, ih, acts]
      by_cases same : o = item
      · subst same
        rw [update_self]
        cases vm.tasks o with
        | none => simp
        | some t => simp [once]
      · rw [update_of_ne same]
        simp [same]

theorem update_map_self
    {tasks : ObjId → Option TaskData}
    (same : ∀ t, tasks o = some t → effect t = t) :
    update tasks o ((tasks o).map effect) = tasks := by
  funext other
  by_cases equal : other = o
  · subst equal
    rw [update_self]
    cases held : tasks other with
    | none => rfl
    | some t => rw [Option.map_some, same t held]
  · rw [update_of_ne equal]

/-! ## Waking -/

theorem frame_wake (o : ObjId) : vm.Frame (vm.wake o) := rfl

theorem wake_tasks (o : ObjId) :
    (vm.wake o).tasks =
      update vm.tasks o ((vm.tasks o).map woken) := rfl

theorem wakes_tasks (due : List ObjId) (o : ObjId) :
    (due.foldl wake vm).tasks o =
      if o ∈ due then (vm.tasks o).map woken else vm.tasks o :=
  foldl_tasks wake woken (fun _ _ => rfl) (fun _ => rfl) due o

/-- What a look at the clock does to the tasks. -/
theorem wakeSleepers_tasks (o : ObjId) :
    vm.wakeSleepers.tasks o =
      if vm.wakeupTick ≠ NO_WAKEUP ∧ ahead vm.wakeupTick vm.tick ≤ 0 ∧
        o ∈ vm.findDue.1.1 then (vm.tasks o).map woken
      else vm.tasks o := by
  unfold wakeSleepers
  split
  · rename_i none
    rw [if_neg (fun all => all.1 none)]
  · rename_i some
    split
    · rename_i later
      rw [if_neg (fun all => absurd all.2.1 (not_le.mpr later))]
    · rename_i passed
      have sameTasks : vm.findDue.2.tasks = vm.tasks := by
        unfold findDue
        split <;> rfl
      dsimp only
      rw [wakes_tasks, sameTasks]
      by_cases due : o ∈ vm.findDue.1.1
      · rw [if_pos due, if_pos ⟨some, not_lt.mp passed, due⟩]
      · rw [if_neg due, if_neg fun all => due all.2.2]

theorem wakeSleepers_frame :
    ({ vm with wakeupTick := vm.wakeSleepers.wakeupTick } : Vm).Frame
      vm.wakeSleepers := by
  unfold wakeSleepers
  split
  · rfl
  · split
    · rfl
    · have found : vm.Frame vm.findDue.2 := by
        unfold findDue
        split <;> rfl
      have woke := found.trans
        (Frame.fold vm.findDue.1.1 Vm.wake fun _ o => frame_wake o)
      unfold Frame at woke ⊢
      dsimp only
      generalize vm.findDue.1.1.foldl Vm.wake vm.findDue.2 = after at woke ⊢
      rw [woke]

/-! ## Ending -/

/-- What the end of a task does to the one that joins it. -/
theorem wakeJoinWaiters_tasks
    (orderly : vm.Orderly)
    (done o : ObjId) :
    (vm.wakeJoinWaiters done).tasks o =
      (vm.tasks o).map fun t => if t.joins done then t.joined else t := by
  let effect (t : TaskData) : TaskData :=
    if t.reason = .join ∧ t.join = some done then t.joined else t
  have acts : ∀ (vm : Vm) (o : ObjId),
      (vm.wakeJoinWaiter done o).tasks =
        update vm.tasks o ((vm.tasks o).map effect) := by
    intro vm o
    unfold wakeJoinWaiter
    split
    · rename_i t held
      split
      · rename_i joins
        rw [requeue_tasks, held]
        simp only [Option.map_some, effect, if_pos joins]
        rfl
      · rename_i other
        refine (update_map_self fun t' held' => ?_).symm
        rw [held] at held'
        cases held'
        exact if_neg other
    · rename_i absent
      refine (update_map_self fun t' held' => ?_).symm
      rw [absent] at held'
      cases held'
  have once : ∀ t, effect (effect t) = effect t := by
    intro t
    by_cases joins : t.reason = .join ∧ t.join = some done
    · have woke : effect t = t.joined := if_pos joins
      rw [woke]
      exact if_neg fun both => by cases both.1
    · have same : effect t = t := if_neg joins
      rw [same, same]
  unfold wakeJoinWaiters
  rw [foldl_tasks _ effect acts once]
  cases held : vm.tasks o with
  | none => simp
  | some t =>
      have found := orderly.mem_waitingFor_iff o done
      by_cases joins : t.joins done
      · have member : o ∈ vm.line.waitingFor vm.tasks done := by
          refine found.mpr ⟨t, held, joins.1, ?_⟩
          simp [TaskData.target, joins.2.1, joins.2.2]
        rw [if_pos member]
        simp only [Option.map_some, if_pos joins, effect, if_pos joins.2]
      · simp only [Option.map_some, if_neg joins, effect]
        split
        · rename_i member
          obtain ⟨t', held', waits, _⟩ := found.mp member
          rw [held] at held'
          cases held'
          rw [if_neg fun both => joins ⟨waits, both⟩]
        · rfl

theorem endContext_tasks (ctx : Option Nat) :
    (vm.endContext ctx).tasks = vm.tasks := by
  unfold endContext
  split
  · split <;> rfl
  · rfl

theorem halted_tasks (o : ObjId) :
    (vm.halted o).tasks =
      update vm.tasks o ((vm.tasks o).map TaskData.ended) := by
  unfold halted
  dsimp only
  rw [endContext_tasks]
  split <;> rfl

/-- The end of a task: it is dormant, and those that join it are ready. -/
theorem stopTask_tasks
    (orderly : vm.Orderly)
    (o other : ObjId) :
    (vm.stopTask o).tasks other =
      if other = o then (vm.tasks o).map TaskData.ended
      else (vm.tasks other).map fun t =>
        if t.joins o then t.joined else t := by
  rw [stopTask_eq, wakeJoinWaiters_tasks (orderly.halted o).orderly,
    halted_tasks]
  by_cases same : other = o
  · subst same
    rw [if_pos rfl, update_self, Option.map_map]
    congr 1
  · rw [if_neg same, update_of_ne same]

/-! ## Queues -/

/-- The first task that waits for an object. -/
theorem Orderly.firstWaitingFor_some
    (orderly : vm.Orderly)
    (found : vm.line.firstWaitingFor vm.tasks target = some o) :
    ∃ t, vm.tasks o = some t ∧ t.status = .waiting ∧
      t.target = some target := by
  rw [firstWaitingFor_eq] at found
  exact (orderly.mem_waitingFor_iff o target).mp (List.mem_of_head? found)

theorem Orderly.firstWaitingFor_none
    (orderly : vm.Orderly)
    (absent : vm.line.firstWaitingFor vm.tasks target = none)
    (held : vm.tasks o = some t)
    (waits : t.status = .waiting) : t.target ≠ some target := by
  intro waited
  rw [firstWaitingFor_eq, List.head?_eq_none_iff] at absent
  have member := (orderly.mem_waitingFor_iff o target).mpr
    ⟨t, held, waits, waited⟩
  rw [absent] at member
  cases member

theorem wakeQueueWaiter_tasks (q o : ObjId) :
    (vm.wakeQueueWaiter q o).tasks =
      update vm.tasks o ((vm.tasks o).map fun t =>
        if t.reason = .queue ∧ t.queue = some q then woken t else t) := by
  unfold wakeQueueWaiter
  split
  · rename_i t held
    split
    · rename_i waits
      rw [wake_tasks, held]
      simp only [Option.map_some, if_pos waits]
    · rename_i other
      refine (update_map_self fun t' held' => ?_).symm
      rw [held] at held'
      cases held'
      exact if_neg other
  · rename_i absent
    refine (update_map_self fun t' held' => ?_).symm
    rw [absent] at held'
    cases held'

/-- What closing a queue does to the one that waits on it. -/
theorem wakeQueueWaiters_tasks
    (orderly : vm.Orderly)
    (q o : ObjId) :
    (vm.wakeQueueWaiters q true).tasks o =
      (vm.tasks o).map fun t => if t.pops q then woken t else t := by
  let effect (t : TaskData) : TaskData :=
    if t.reason = .queue ∧ t.queue = some q then woken t else t
  have once : ∀ t, effect (effect t) = effect t := by
    intro t
    by_cases waits : t.reason = .queue ∧ t.queue = some q
    · have woke : effect t = woken t := if_pos waits
      rw [woke]
      exact if_neg fun both => by cases both.1
    · have same : effect t = t := if_neg waits
      rw [same, same]
  unfold wakeQueueWaiters
  rw [if_pos rfl, foldl_tasks (wakeQueueWaiter q) effect
    (fun _ o => wakeQueueWaiter_tasks q o) once]
  cases held : vm.tasks o with
  | none => simp
  | some t =>
      have found := orderly.mem_waitingFor_iff o q
      by_cases pops : t.pops q
      · have member : o ∈ vm.line.waitingFor vm.tasks q := by
          refine found.mpr ⟨t, held, pops.1, ?_⟩
          simp [TaskData.target, pops.2.1, pops.2.2]
        rw [if_pos member]
        simp only [Option.map_some, if_pos pops, effect, if_pos pops.2]
      · simp only [Option.map_some, if_neg pops, effect]
        split
        · rename_i member
          obtain ⟨t', held', waits, _⟩ := found.mp member
          rw [held] at held'
          cases held'
          rw [if_neg fun both => pops ⟨waits, both⟩]
        · rfl

end Vm

end SabiRuby.Tasks
