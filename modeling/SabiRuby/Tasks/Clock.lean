import SabiRuby.Tasks.Due
import SabiRuby.Tasks.Quiet

/-!
# The recorded wakeup

Between two events the recorded wakeup is not later than any deadline, and after
a move of the clock no deadline has passed.
-/

namespace SabiRuby.Tasks

open Library

namespace Vm

variable {vm : Vm} {o : ObjId} {t : TaskData}
variable {watched : Set ObjId} {wakeup : Int}

/-- No task waits for the clock longer than the recorded wakeup says. -/
def Noted (vm : Vm) : Prop :=
  ∀ o t, vm.tasks o = some t → t.timed →
    vm.wakeupTick ≠ NO_WAKEUP ∧
      ahead vm.wakeupTick vm.tick ≤ ahead t.wakeupTick vm.tick

/-- The scheduler after the clock moved and before it is looked at. -/
structure Moved (vm : Vm) : Prop where
  orderly : vm.Orderly
  dated : vm.line.Dated Set.univ vm.tasks vm.tick (ahead vm.wakeupTick vm.tick)
  noted : vm.Noted

/-- The scheduler between two events: no deadline has passed but one that was
moved back or is now. -/
structure Clocked (vm : Vm) : Prop where
  orderly : vm.Orderly
  dated : vm.line.Dated Set.univ vm.tasks vm.tick (ahead vm.wakeupTick vm.tick)
  noted : vm.Noted
  soon : ∀ o t, vm.tasks o = some t → t.timed →
    upcoming t.wakeupTick vm.tick
  low : vm.wakeupTick ≠ NO_WAKEUP → -1 ≤ ahead vm.wakeupTick vm.tick

/-- Without a recorded wakeup no deadline is in the index. -/
theorem Noted.bare
    (noted : vm.Noted)
    (orderly : vm.Orderly)
    (none : vm.wakeupTick = NO_WAKEUP)
    (o : ObjId) : (vm.line.places o).deadline = Option.none := by
  by_contra has
  obtain ⟨_, t, task, timed⟩ := orderly.of_deadline has
  exact (noted o t task timed).1 none

/-- The clock moves on by less than half a turn. -/
theorem Clocked.moved
    (clocked : vm.Clocked)
    (n : UInt32)
    (half : n.toNat < 2 ^ 31) : ({ vm with tick := vm.tick + n } : Vm).Moved := by
  have keeps : vm.Keeps { vm with tick := vm.tick + n } :=
    clocked.orderly.keeps_of_same rfl rfl rfl rfl
  have noted : ({ vm with tick := vm.tick + n } : Vm).Noted := by
    intro o t task timed
    obtain ⟨some, before⟩ := clocked.noted o t task timed
    have low := clocked.low some
    refine ⟨some, ?_⟩
    change ahead vm.wakeupTick (vm.tick + n) ≤ ahead t.wakeupTick (vm.tick + n)
    rw [ahead_add _ _ _ (by omega), ahead_add _ _ _ (by omega)]
    omega
  refine ⟨keeps.orderly, ?_, noted⟩
  change vm.line.Dated Set.univ vm.tasks (vm.tick + n)
    (ahead vm.wakeupTick (vm.tick + n))
  by_cases none : vm.wakeupTick = NO_WAKEUP
  · exact clocked.dated.of_bare fun o _ =>
      clocked.noted.bare clocked.orderly none o
  · have low := clocked.low none
    rw [ahead_add _ _ _ (by omega)]
    refine clocked.dated.advance n half low fun o _ t task has => ?_
    obtain ⟨_, t', task', timed⟩ := clocked.orderly.of_deadline has
    rw [task] at task'
    cases task'
    exact (clocked.soon o t task timed).low

/-! ## A look at the clock -/

/-- The recorded wakeup is reached. -/
def Reached (vm : Vm) : Prop :=
  vm.wakeupTick ≠ NO_WAKEUP ∧ ahead vm.wakeupTick vm.tick ≤ 0

theorem wakeSleepers_of_reached
    (reached : vm.Reached) :
    vm.wakeSleepers =
      { vm.findDue.1.1.foldl wake vm.findDue.2 with
        wakeupTick := (vm.findDue.1.1.foldl wake vm.findDue.2).nextWakeup
          vm.findDue.1.2 } := by
  unfold wakeSleepers
  rw [if_neg reached.1, if_neg (not_lt.mpr reached.2)]

theorem wakeSleepers_of_not_reached
    (early : ¬vm.Reached) : vm.wakeSleepers = vm := by
  unfold wakeSleepers
  split
  · rfl
  · rename_i some
    split
    · rfl
    · rename_i passed
      exact absurd ⟨some, not_lt.mp passed⟩ early

theorem Moved.mem_due_iff
    (moved : vm.Moved)
    (held : vm.tasks o = some t) :
    o ∈ vm.findDue.1.1 ↔ t.timed ∧ ahead t.wakeupTick vm.tick ≤ 0 := by
  rw [moved.orderly.due_eq moved.dated, List.mem_filter,
    moved.orderly.mem_waitingTasks_iff, held]
  constructor
  · rintro ⟨⟨t', same, waits⟩, due⟩
    cases same
    obtain ⟨has, passed⟩ := Bool.and_eq_true_iff.mp due
    exact ⟨⟨waits, has⟩, of_decide_eq_true passed⟩
  · rintro ⟨⟨waits, has⟩, passed⟩
    exact ⟨⟨t, rfl, waits⟩,
      Bool.and_eq_true_iff.mpr ⟨has, decide_eq_true passed⟩⟩

/-- A look at the clock wakes the tasks whose deadline has passed, and no
others. -/
theorem Moved.wakeSleepers_tasks
    (moved : vm.Moved)
    (o : ObjId) :
    vm.wakeSleepers.tasks o = (vm.tasks o).map fun t =>
      if t.timed ∧ ahead t.wakeupTick vm.tick ≤ 0 then woken t else t := by
  rw [Vm.wakeSleepers_tasks]
  cases held : vm.tasks o with
  | none => simp
  | some t =>
      rw [Option.map_some, Option.map_some]
      by_cases due : t.timed ∧ ahead t.wakeupTick vm.tick ≤ 0
      · obtain ⟨some, before⟩ := moved.noted o t held due.1
        rw [if_pos ⟨some, by omega, (moved.mem_due_iff held).mpr due⟩,
          if_pos due]
      · rw [if_neg fun all => due ((moved.mem_due_iff held).mp all.2.2),
          if_neg due]

/-- The tasks found due have left the index of a clock that is up to date. -/
theorem Orderly.findDue_dated
    (orderly : vm.Orderly)
    (dated : vm.line.Dated watched vm.tasks vm.tick wakeup)
    (short : later < 2 ^ 31) :
    vm.findDue.2.line.Dated watched vm.tasks vm.tick later := by
  unfold findDue
  split
  · have clocked : (vm.line.absTick vm.tick).Recorded :=
      orderly.placed.recorded.withClock vm.line.indexed vm.line.indexFrom
        _ _
    have taken := clocked.takeDue (vm.line.absTick vm.tick).tickAbs
      (vm.line.absTick vm.tick).sleepers.items.length le_rfl
    exact (dated.absTick short).takeDue taken
  · rename_i unindexed
    refine dated.of_bare fun o _ => ?_
    by_contra has
    exact unindexed (orderly.of_deadline has).1

theorem findDue_tick : vm.findDue.2.tick = vm.tick := by
  unfold findDue
  split <;> rfl

theorem findDue_tasks : vm.findDue.2.tasks = vm.tasks := by
  unfold findDue
  split <;> rfl

/-- What a look at the clock leaves of the deadlines in the index. -/
theorem Orderly.wakeSleepers_dated
    (orderly : vm.Orderly)
    (dated : vm.line.Dated watched vm.tasks vm.tick wakeup)
    (reached : vm.Reached)
    (short : later < 2 ^ 31) :
    vm.wakeSleepers.line.Dated watched vm.wakeSleepers.tasks vm.tick
      later := by
  have found := orderly.findDue_dated dated short
  rw [← findDue_tasks, ← findDue_tick] at found
  have woke := wakes_dated vm.findDue.1.1 found
  rw [findDue_tick] at woke
  rw [wakeSleepers_of_reached reached]
  exact woke

/-- A look at the clock records the earliest deadline. -/
theorem Moved.wakeSleepers_earliest
    (moved : vm.Moved)
    (reached : vm.Reached) :
    Earliest vm.wakeSleepers.tasks vm.tick vm.wakeSleepers.wakeupTick := by
  have after := moved.orderly.wakeSleepers.orderly
  have dated : vm.wakeSleepers.line.Dated Set.univ vm.wakeSleepers.tasks
      vm.tick 0 :=
    moved.orderly.wakeSleepers_dated moved.dated reached (by omega)
  have tick : vm.wakeSleepers.tick = vm.tick := wakeSleepers_tick
  have shape := wakeSleepers_of_reached reached
  have wakeup : vm.wakeSleepers.wakeupTick =
      vm.wakeSleepers.nextWakeup vm.findDue.1.2 := by
    rw [shape]
    rfl
  rw [wakeup]
  cases indexed : vm.wakeSleepers.line.indexed with
  | true =>
      rw [← tick] at dated ⊢
      exact after.first_sleeper dated indexed _
  | false =>
      have next : vm.wakeSleepers.nextWakeup vm.findDue.1.2 =
          vm.findDue.1.2 := by
        unfold nextWakeup
        rw [indexed]
        rfl
      rw [next]
      cases before : vm.line.indexed with
      | true =>
          have none : vm.findDue.1.2 = NO_WAKEUP := by
            unfold findDue
            rw [if_pos before]
          have indexing : vm.findDue.2.Indexing := by
            unfold findDue
            rw [if_pos before]
            left
            have clocked : (vm.line.absTick vm.tick).Recorded :=
              moved.orderly.placed.recorded.withClock vm.line.indexed
                vm.line.indexFrom _ _
            have taken := clocked.takeDue (vm.line.absTick vm.tick).tickAbs
              (vm.line.absTick vm.tick).sleepers.items.length le_rfl
            dsimp only
            rw [taken.same]
            exact before
          have still := wakes_indexing vm.findDue.1.1 indexing
          have empty : vm.wakeSleepers.line.waiting.items = [] := by
            rw [shape] at indexed ⊢
            rcases still with kept | empty
            · exact absurd (kept.symm.trans indexed) (by decide)
            · exact empty
          refine ⟨fun o t task timed => ?_, fun some => absurd none some⟩
          have member := (after.mem_waitingTasks_iff o).mpr ⟨t, task, timed.1⟩
          unfold TaskQueues.waitingTasks at member
          rw [empty] at member
          cases member
      | false =>
          have found : vm.findDue.1.2 = (vm.line.waiting.items.foldl
              (TaskQueues.walkEntry vm.tasks vm.tick) ([], NO_WAKEUP)).2 := by
            unfold findDue
            rw [before]
            rfl
          have walked : TaskQueues.Found vm.tasks vm.tick NO_WAKEUP
              vm.line.waiting.items vm.findDue.1.2 := by
            rw [found]
            exact TaskQueues.walk_next _ ([], NO_WAKEUP)
              fun some => absurd rfl some
          have entryOf : ∀ o t, vm.tasks o = some t → t.status = .waiting →
              ∃ entry ∈ vm.line.waiting.items, entry.2 = o := by
            intro o t task waits
            have member := (moved.orderly.mem_waitingTasks_iff o).mpr
              ⟨t, task, waits⟩
            exact List.mem_map.mp member
          constructor
          · intro o t' task' timed'
            rw [moved.wakeSleepers_tasks] at task'
            obtain ⟨t, task, same⟩ := Option.map_eq_some_iff.mp task'
            split at same
            · subst same
              cases timed'.1
            · rename_i ahead'
              subst same
              obtain ⟨entry, member, rfl⟩ := entryOf o t task timed'.1
              refine walked.noted entry member t task timed'.2 ?_
              by_contra passed
              exact ahead' ⟨timed', not_lt.mp passed⟩
          · intro some
            rcases walked.source some with same | ⟨entry, member, t, task, has,
              same⟩
            · exact absurd same some
            · have later := walked.later some
              obtain ⟨t', task', waits⟩ :=
                (moved.orderly.mem_waitingTasks_iff entry.2).mp
                  (List.mem_map_of_mem member)
              rw [task] at task'
              cases task'
              refine ⟨entry.2, t, ?_, ⟨waits, has⟩, same⟩
              rw [moved.wakeSleepers_tasks, task, Option.map_some,
                if_neg fun due => ?_]
              have passed := due.2
              rw [same] at passed
              omega

/-- After a look at the clock no deadline has passed. -/
theorem Moved.wakeSleepers_later
    (moved : vm.Moved)
    (task' : vm.wakeSleepers.tasks o = some t)
    (timed' : t.timed) : 0 < ahead t.wakeupTick vm.tick := by
  rw [moved.wakeSleepers_tasks] at task'
  obtain ⟨before, task, same⟩ := Option.map_eq_some_iff.mp task'
  split at same
  · subst same
    cases timed'.1
  · rename_i later
    subst same
    by_contra passed
    exact later ⟨timed', not_lt.mp passed⟩

theorem Moved.wakeSleepers
    (moved : vm.Moved) : vm.wakeSleepers.Clocked := by
  have orderly := moved.orderly.wakeSleepers.orderly
  have tick : vm.wakeSleepers.tick = vm.tick := wakeSleepers_tick
  have later := fun o t => moved.wakeSleepers_later (o := o) (t := t)
  by_cases reached : vm.Reached
  · have earliest := moved.wakeSleepers_earliest reached
    have dated : vm.wakeSleepers.line.Dated Set.univ vm.wakeSleepers.tasks
        vm.tick (ahead vm.wakeSleepers.wakeupTick vm.tick) :=
      moved.orderly.wakeSleepers_dated moved.dated reached (ahead_lt _ _)
    refine ⟨orderly, by rw [tick]; exact dated, ?_, ?_, ?_⟩
    · intro o t task timed
      rw [tick]
      exact earliest.noted o t task timed
    · intro o t task timed
      rw [tick]
      exact .inl (later o t task timed).le
    · intro some
      obtain ⟨o, t, task, timed, same⟩ := earliest.held some
      have soon := later o t task timed
      rw [tick, ← same]
      omega
  · have same := wakeSleepers_of_not_reached reached
    rw [same] at later ⊢
    refine ⟨moved.orderly, moved.dated, moved.noted,
      fun o t task timed => .inl (later o t task timed).le, fun some => ?_⟩
    by_contra low
    exact reached ⟨some, by omega⟩

end Vm

end SabiRuby.Tasks
