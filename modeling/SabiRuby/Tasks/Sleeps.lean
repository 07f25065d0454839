import Mathlib.Data.List.TakeWhile
import SabiRuby.Tasks.Wakeups

/-!
# How long a sleep lasts

The deadline of a task that sleeps is followed through every event until the
clock has moved on by as many ticks as the sleep asks for.
-/

namespace SabiRuby.Tasks

open Library

namespace Vm

variable {vm : Vm} {o me : ObjId} {t : TaskData} {event : Event}
variable {wakeup : Int} {deadline : UInt32}

/-- The ticks an event moves the clock by, none if it leaves it alone. -/
def ticked (vm : Vm) (event : Event) : Nat :=
  ((vm.clockMove event).map UInt32.toNat).getD 0

/-- The ticks that pass in a run. -/
def elapsed : Vm → List Event → Nat
  | _, [] => 0
  | vm, event :: rest => vm.ticked event + (vm.step event).elapsed rest

/-- A task sleeps until a deadline. -/
def SleepsUntil (o : ObjId) (deadline : UInt32) (vm : Vm) : Prop :=
  ∃ t, vm.tasks o = some t ∧ t.status = .waiting ∧ t.reason = .sleep ∧
    t.wakeupTick = deadline

/-- The scheduler while a task sleeps: its deadline lies ahead, and the index
counts it right if it holds it. -/
structure Sleeping (o : ObjId) (deadline : UInt32) (vm : Vm) : Prop where
  ticking : vm.Ticking {o} (ahead deadline vm.tick)
  asleep : SleepsUntil o deadline vm
  later : 0 < ahead deadline vm.tick

/-- A task whose deadline lies ahead is not found due. -/
theorem Orderly.not_due
    (orderly : vm.Orderly)
    (dated : vm.line.Dated {o} vm.tasks vm.tick wakeup)
    (held : vm.tasks o = some t)
    (later : 0 < ahead t.wakeupTick vm.tick) : o ∉ vm.findDue.1.1 := by
  intro member
  unfold Vm.findDue at member
  split at member
  · have clocked : (vm.line.absTick vm.tick).Recorded :=
      orderly.placed.recorded.withClock vm.line.indexed vm.line.indexFrom _ _
    have taken := clocked.takeDue (vm.line.absTick vm.tick).tickAbs
      (vm.line.absTick vm.tick).sleepers.items.length le_rfl
    dsimp only at member
    rw [taken.due_eq] at member
    obtain ⟨found, sorted, same⟩ := List.mem_map.mp member
    obtain ⟨entry, inside, rfl⟩ := List.mem_map.mp
      ((List.mem_insertionSort _).mp sorted)
    dsimp only at same
    have early := List.mem_takeWhile_imp inside
    have among : (entry.1, o) ∈ vm.line.sleepers.items := by
      rw [← same]
      exact (List.takeWhile_sublist _).mem inside
    obtain ⟨_, t', task, _, counted⟩ := orderly.sleeper dated rfl among
    rw [held] at task
    cases task
    have early : entry.1.major ≤ vm.line.now vm.tick := of_decide_eq_true early
    omega
  · rw [TaskQueues.walk_due, List.nil_append, List.mem_filter, held] at member
    have passed := of_decide_eq_true (Bool.and_eq_true_iff.mp member.2).2
    omega

/-- The clock moves on by less than the time that is left. -/
theorem Sleeping.advanceTicks
    (sleeping : Sleeping o deadline vm)
    (n : UInt32)
    (early : (n.toNat : Int) < ahead deadline vm.tick) :
    Sleeping o deadline (vm.advanceTicks n) ∧
      (vm.advanceTicks n).tasks o = vm.tasks o ∧
      ahead deadline (vm.advanceTicks n).tick =
        ahead deadline vm.tick - n.toNat := by
  obtain ⟨t, held, waits, reason, rfl⟩ := sleeping.asleep
  have high := ahead_lt t.wakeupTick vm.tick
  have left := ahead_add t.wakeupTick vm.tick n (by omega)
  have keeps : vm.Keeps { vm with tick := vm.tick + n } :=
    sleeping.ticking.orderly.keeps_of_same rfl rfl rfl rfl
  have dated : vm.line.Dated {o} vm.tasks (vm.tick + n)
      (ahead t.wakeupTick vm.tick - n.toNat) := by
    refine sleeping.ticking.dated.advance n (by omega) (by omega)
      fun other inside u task _ => ?_
    cases inside
    rw [held] at task
    cases task
    omega
  have due : o ∉ ({ vm with tick := vm.tick + n } : Vm).findDue.1.1 :=
    keeps.orderly.not_due dated held (by
      change 0 < ahead t.wakeupTick (vm.tick + n)
      omega)
  have same : (vm.advanceTicks n).tasks o = vm.tasks o := by
    unfold Vm.advanceTicks
    rw [wakeSleepers_tasks]
    simp [due]
  have tick : (vm.advanceTicks n).tick = vm.tick + n := wakeSleepers_tick
  have orderly : (vm.advanceTicks n).Orderly :=
    (sleeping.ticking.orderly.advanceTicks n).orderly
  have after : (vm.advanceTicks n).line.Dated {o} (vm.advanceTicks n).tasks
      (vm.tick + n) (ahead t.wakeupTick (vm.tick + n)) := by
    rw [left]
    by_cases reached : ({ vm with tick := vm.tick + n } : Vm).Reached
    · exact keeps.orderly.wakeSleepers_dated dated reached (by omega)
    · unfold Vm.advanceTicks
      rw [wakeSleepers_of_not_reached reached]
      exact dated
  refine ⟨⟨⟨orderly, ?_, ?_, ahead_lt _ _⟩, ⟨t, ?_, waits, reason, rfl⟩, ?_⟩,
    same, ?_⟩
  · rw [tick]
    exact after
  · intro other inside u task _
    cases inside
    rw [same, held] at task
    cases task
    rw [tick]
    exact .inl (by omega)
  · rw [same, held]
  · rw [tick]
    omega
  · rw [tick, left]

/-- An event during the sleep, after which the task still sleeps. -/
theorem Sleeping.step
    (sleeping : Sleeping o deadline vm)
    (event : Event)
    (still : SleepsUntil o deadline (vm.step event))
    (early : (vm.ticked event : Int) < ahead deadline vm.tick) :
    Sleeping o deadline (vm.step event) ∧
      ahead deadline (vm.step event).tick =
        ahead deadline vm.tick - vm.ticked event := by
  cases moves : vm.clockMove event with
  | some n =>
      have ticks : vm.ticked event = n.toNat := by
        unfold ticked
        rw [moves]
        rfl
      rw [ticks] at early ⊢
      rw [step_of_clockMove moves]
      obtain ⟨after, _, left⟩ := sleeping.advanceTicks n early
      exact ⟨after, left⟩
  | none =>
      have ticks : vm.ticked event = 0 := by
        unfold ticked
        rw [moves]
        rfl
      have tick : (vm.step event).tick = vm.tick := by
        unfold Vm.step
        split
        · rename_i next done
          exact (perform_still moves done).1
        · rfl
      refine ⟨⟨?_, still, ?_⟩, ?_⟩
      · rw [tick]
        exact sleeping.ticking.step moves
      · rw [tick]
        exact sleeping.later
      · rw [tick, ticks]
        omega

/-- What a run leaves of the time that a sleep has to last. -/
theorem Sleeping.run
    (events : List Event)
    (sleeping : Sleeping o deadline vm)
    (still : Throughout Vm.step (SleepsUntil o deadline) vm events)
    (early : (vm.elapsed events : Int) < ahead deadline vm.tick) :
    Sleeping o deadline (vm.run events) ∧
      ahead deadline (vm.run events).tick =
        ahead deadline vm.tick - vm.elapsed events := by
  induction events generalizing vm with
  | nil =>
      refine ⟨sleeping, ?_⟩
      change ahead deadline vm.tick = ahead deadline vm.tick - ((0 : Nat) : Int)
      omega
  | cons event rest ih =>
      change ((vm.ticked event + (vm.step event).elapsed rest : Nat) : Int) <
        ahead deadline vm.tick at early
      obtain ⟨after, left⟩ := sleeping.step event still.2.first (by omega)
      obtain ⟨last, less⟩ := ih after still.2 (by omega)
      refine ⟨last, ?_⟩
      change ahead deadline ((vm.step event).run rest).tick =
        ahead deadline vm.tick -
          ((vm.ticked event + (vm.step event).elapsed rest : Nat) : Int)
      omega

theorem elapsed_concat (events : List Event) (event : Event) :
    vm.elapsed (events ++ [event]) =
      vm.elapsed events + (vm.run events).ticked event := by
  induction events generalizing vm with
  | nil =>
      change vm.ticked event + 0 = 0 + vm.ticked event
      omega
  | cons first rest ih =>
      have later : (vm.step first).elapsed (rest ++ [event]) = _ :=
        ih
      change vm.ticked first + (vm.step first).elapsed (rest ++ [event]) = _
      rw [later, ← Nat.add_assoc]
      rfl

/-! ## The calls -/

/-- The ticks a call asks for, rounded up. -/
def SleepCall.asked : SleepCall → Nat
  | .sleep secs =>
      (secs.toInt.toNat * 1000 + (TICK_UNIT_MS - 1)) / TICK_UNIT_MS
  | .sleepMs ms => (ms.toInt.toNat + (TICK_UNIT_MS - 1)) / TICK_UNIT_MS
  | .usleep us =>
      (us.toInt.toNat + (1000 * TICK_UNIT_MS - 1)) / (1000 * TICK_UNIT_MS)

/-- The task that a call parks is not woken by the clock before so many ticks
have passed since: as long as it sleeps until the deadline the call set, a move
of the clock within these ticks leaves it as it is. -/
def SleepsAtLeast
    (vm : Vm)
    (call : SleepCall)
    (boundary : Option String)
    (ticks : Nat) : Prop :=
  ∀ (me : ObjId) (parked : Vm) (deadline : UInt32) (later : List Event)
    (event : Event) (n : UInt32),
    vm.currentTask = some me → vm.perform (.sleep call boundary) = .ok parked →
      Throughout step (SleepsUntil me deadline) parked later →
        (parked.run later).clockMove event = some n →
          parked.elapsed (later ++ [event]) < ticks →
            ((parked.run later).step event).tasks me =
              (parked.run later).tasks me

/-- The ticks of a call that its arithmetic has room for: `sleep` clamps to the
32-bit count of microseconds. -/
def SleepCall.granted : SleepCall → Nat
  | .sleep secs =>
      (min (secs.toInt.toNat * 1000000) (2 ^ 32 - 1) +
        (1000 * TICK_UNIT_MS - 1)) / (1000 * TICK_UNIT_MS)
  | call => call.asked

/-- A deadline that would be the largest count is one tick earlier. -/
def SleepCall.lasts (call : SleepCall) (tick : UInt32) : Nat :=
  if tick + UInt32.ofNat call.granted = NO_WAKEUP then call.granted - 1
  else call.granted

/-- The milliseconds of a call, rounded up, have room in 32 bits. -/
def SleepCall.fits : SleepCall → Prop
  | .sleep _ => True
  | .sleepMs ms => ms.toInt < 2 ^ 32
  | .usleep us => (us.toInt.toNat + 999) / 1000 < 2 ^ 32

theorem sleepTicks_eq
    (fits : (micros + 999) / 1000 < 2 ^ 32) :
    (sleepTicks micros).toNat =
      (micros + (1000 * TICK_UNIT_MS - 1)) / (1000 * TICK_UNIT_MS) := by
  unfold sleepTicks TICK_UNIT_MS
  rw [UInt32.toNat_ofNat', UInt32.toNat_ofNat', Nat.mod_eq_of_lt fits]
  omega

/-- A call that has room waits for the ticks it is granted. -/
theorem SleepCall.ticks_eq
    {call : SleepCall} {micros : Nat}
    (fits : call.fits)
    (asked : call.micros = .ok micros) :
    (sleepTicks micros).toNat = call.granted := by
  cases call with
  | sleep secs =>
      unfold SleepCall.micros at asked
      dsimp only at asked
      split at asked
      · cases asked
      · cases asked
        rw [sleepTicks_eq (by omega)]
        rfl
  | sleepMs ms =>
      unfold SleepCall.micros at asked
      unfold SleepCall.fits at fits
      dsimp only at asked fits
      split at asked
      · cases asked
      · cases asked
        rw [sleepTicks_eq (by omega)]
        unfold SleepCall.granted SleepCall.asked TICK_UNIT_MS
        dsimp only
        omega
  | usleep us =>
      unfold SleepCall.micros at asked
      unfold SleepCall.fits at fits
      dsimp only at asked fits
      split at asked
      · cases asked
      · cases asked
        rw [sleepTicks_eq fits]
        rfl

/-! ## Every run -/

/-- The clock of the index is kept in every run. -/
theorem Ticking.keeps_clock
    (ticking : vm.Ticking ∅ 0)
    (event : Event) : (vm.step event).Ticking ∅ 0 := by
  cases moves : vm.clockMove event with
  | none => exact ticking.step moves
  | some n =>
      rw [step_of_clockMove moves]
      have keeps : vm.Keeps { vm with tick := vm.tick + n } :=
        ticking.orderly.keeps_of_same rfl rfl rfl rfl
      have moved : vm.line.Dated ∅ vm.tasks (vm.tick + n) 0 :=
        ticking.dated.of_bare fun _ inside => inside.elim
      have tick : (vm.advanceTicks n).tick = vm.tick + n := wakeSleepers_tick
      refine ⟨(ticking.orderly.advanceTicks n).orderly, ?_,
        fun _ inside => inside.elim, by omega⟩
      rw [tick]
      by_cases reached : ({ vm with tick := vm.tick + n } : Vm).Reached
      · exact keeps.orderly.wakeSleepers_dated moved reached (by omega)
      · unfold Vm.advanceTicks
        rw [wakeSleepers_of_not_reached reached]
        exact moved

theorem run_ticking (indexFrom : Nat) (events : List Event) :
    ((initial indexFrom).run events).Ticking ∅ 0 := by
  induction events using List.reverseRecOn with
  | nil =>
      have synced := (clocked_initial indexFrom).dated.synced
      exact ⟨orderly_initial indexFrom,
        ⟨synced, fun _ inside => inside.elim, fun _ inside => inside.elim⟩,
        fun _ inside => inside.elim, by omega⟩
  | append_singleton events event ih =>
      rw [run_concat]
      exact ih.keeps_clock event

/-- A task that is parked until a deadline sleeps until it. -/
theorem Ticking.parks
    (ticking : vm.Ticking ∅ 0)
    (held : vm.tasks me = some t)
    (later : 0 < ahead deadline vm.tick) :
    Sleeping me deadline
      ((vm.requeue me (TaskData.asleep deadline)).noteWakeup deadline).park := by
  have ready : vm.Ticking ∅ (ahead deadline vm.tick) :=
    ⟨ticking.orderly, ticking.dated.of_bare fun _ inside => inside.elim,
      ticking.soon, ahead_lt _ _⟩
  have requeued : (vm.requeue me (TaskData.asleep deadline)).Ticking {me}
      (ahead deadline vm.tick) :=
    ready.requeue_watching me (fun other inside differs => absurd inside differs)
      fun _ _ _ _ => .inl later.le
  have tick : ((vm.requeue me (TaskData.asleep deadline)).noteWakeup
      deadline).park.tick = vm.tick := noteWakeup_tick _ deadline
  refine ⟨?_, ⟨t.asleep deadline, ?_, rfl, rfl, rfl⟩, ?_⟩
  · rw [tick]
    exact (requeued.noteWakeup deadline).park
  · change ((vm.requeue me (TaskData.asleep deadline)).noteWakeup
      deadline).tasks me = _
    rw [noteWakeup_tasks, requeue_tasks_self held]
  · rw [tick]
    exact later

/-- A task that runs. -/
def oneRunning : List Event := [.taskNew none, .schedule]

end Vm

end SabiRuby.Tasks
