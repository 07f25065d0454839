import Mathlib.Data.Rat.Floor
import SabiRuby.Checkpoint.Waits

/-!
# Remaining waits

A restored task is due after the ticks its record left, rounded up to this
clock's unit, exactly when they fit what the scheduler reads of a deadline; and
the recorded wakeup is in time when the image's was.
-/

namespace SabiRuby.Checkpoint

open Tasks

/-- The milliseconds of a writer's tick.  A writer that names none counts in
this clock's ticks. -/
def writerUnit (unit : UInt16) : Nat :=
  if unit = 0 then TICK_UNIT_MS else unit.toNat

/-- Converted ticks are rounded up. -/
theorem convTicks_eq (t : Int) (unit : UInt16) :
    convTicks t unit = ⌈((t * writerUnit unit : Int) / TICK_UNIT_MS : ℚ)⌉ := by
  have here : (TICK_UNIT_MS : Int) = 4 := rfl
  rw [Rat.ceil_intCast_div_natCast, convTicks, writerUnit]
  dsimp only
  by_cases zero : unit = 0
  · rw [if_pos (Or.inl zero), if_pos zero, here]
    omega
  · rw [if_neg zero]
    by_cases same : (unit.toNat : Int) = TICK_UNIT_MS
    · rw [if_pos (Or.inr same), same, here]
      omega
    · rw [if_neg fun either => either.elim zero same, here]
      generalize t * (unit.toNat : Int) = ms
      by_cases nonneg : 0 ≤ ms
      · rw [if_pos nonneg, Int.tdiv_eq_ediv_of_nonneg (by omega)]
        omega
      · have swap : ms.tdiv 4 = -((-ms).tdiv 4) := by
          rw [Int.neg_tdiv, Int.neg_neg]
        rw [if_neg nonneg, swap, Int.tdiv_eq_ediv_of_nonneg (by omega)]

/-- The ticks a record leaves of a sleep or of the wait for a queue. -/
def TaskRec.left (t : TaskRec) : Option Int32 :=
  match t.wait with
  | .sleep left => if t.reason = 1 then some left else none
  | .queue _ left => if t.reason = 8 then left else none
  | _ => none

theorem TaskRec.wakeup_of_left
    {t : TaskRec}
    {left : Int32}
    (is : t.left = some left)
    (s : SchedRec) :
    t.wakeup s = deadline s left ∧
      (reasonOf t.reason = .sleep ∨ reasonOf t.reason = .queue) := by
  rw [TaskRec.left] at is
  rw [TaskRec.wakeup]
  cases wait : t.wait with
  | none =>
      rw [wait] at is
      cases is
  | sleep l =>
      rw [wait] at is
      dsimp only at is
      split at is
      case isTrue reason =>
        cases is
        rw [reason]
        exact ⟨rfl, Or.inl rfl⟩
      case isFalse => cases is
  | join j =>
      rw [wait] at is
      cases is
  | queue q l =>
      rw [wait] at is
      dsimp only at is
      split at is
      case isTrue reason =>
        cases is
        rw [reason]
        exact ⟨rfl, Or.inr rfl⟩
      case isFalse => cases is

/-- A task is due when so many ticks are over and not before. -/
def DueAfter (tick : UInt32) (t : TaskData) (ticks : Int) : Prop :=
  (∀ j : Nat, (j : Int) < ticks →
    t.due (tick + UInt32.ofNat j) = false) ∧
      t.due (tick + UInt32.ofNat ticks.toNat) = true

/-- A wait that a deadline can say: less than half a turn, read as over where it
is, and not ending on the count that says there is none. -/
def Fits (tick : UInt32) (ticks : Int) : Prop :=
  ticks < 2 ^ 31 ∧ (ticks < 0 → ticks.bmod (2 ^ 32) ≤ 0) ∧
    ((tick.toNat : Int) + ticks) % 2 ^ 32 ≠ 2 ^ 32 - 1

theorem toNat_add_asU32 (tick : UInt32) (ticks : Int) :
    ((tick + asU32 ticks).toNat : Int) = ((tick.toNat : Int) + ticks) % 2 ^ 32 := by
  rw [UInt32.toNat_add, asU32, UInt32.toNat_ofNat']
  omega

theorem add_asU32_eq_noWakeup (tick : UInt32) (ticks : Int) :
    tick + asU32 ticks = NO_WAKEUP ↔
      ((tick.toNat : Int) + ticks) % 2 ^ 32 = 2 ^ 32 - 1 := by
  rw [← toNat_add_asU32, ← UInt32.toNat_inj]
  change _ = 4294967295 ↔ _
  omega

/-- How far ahead a deadline is some ticks later. -/
theorem ahead_later (tick : UInt32) (ticks : Int) (j : Nat) :
    ahead (tick + asU32 ticks) (tick + UInt32.ofNat j) =
      (ticks - j).bmod (2 ^ 32) := by
  rw [ahead_eq, toNat_add_asU32, UInt32.toNat_add, UInt32.toNat_ofNat',
    Int.bmod_def, Int.bmod_def]
  have same : (((tick.toNat : Int) + ticks) % 2 ^ 32 -
      ((tick.toNat + j % 2 ^ 32) % 2 ^ 32 : Nat)) % (2 ^ 32 : Nat) =
        (ticks - j) % (2 ^ 32 : Nat) := by
    omega
  rw [same]

/-- A wait is kept exactly when it fits. -/
theorem dueAfter_iff
    (timed : data.reason = .sleep ∨ data.reason = .queue)
    (wakeup : data.wakeupTick = tick + asU32 ticks) :
    DueAfter tick data ticks ↔ Fits tick ticks := by
  have clocked : (data.reason = .sleep || data.reason = .queue) = true := by
    rcases timed with sleep | queue
    · simp [sleep]
    · simp [queue]
  have due : ∀ j : Nat, data.due (tick + UInt32.ofNat j) = true ↔
      ((tick.toNat : Int) + ticks) % 2 ^ 32 ≠ 2 ^ 32 - 1 ∧
        (ticks - j).bmod (2 ^ 32) ≤ 0 := by
    intro j
    rw [TaskData.due, TaskData.hasDeadline, clocked, wakeup, ahead_later,
      Bool.true_and, Bool.and_eq_true, bne_iff_ne, ne_eq,
      add_asU32_eq_noWakeup, decide_eq_true_eq]
  rw [DueAfter, Fits, due]
  constructor
  · rintro ⟨early, held, over_⟩
    have never : ∀ j : Nat, (j : Int) < ticks →
        ¬ (ticks - j).bmod (2 ^ 32) ≤ 0 := by
      intro j before passed
      have not := early j before
      rw [← Bool.not_eq_true, due] at not
      exact not ⟨held, passed⟩
    refine ⟨?_, ?_, held⟩
    · by_contra long
      -- half a turn before its end the wait is read as over
      have half := never (ticks - 2 ^ 31).toNat (by omega)
      rw [Int.bmod_def] at half
      omega
    · intro past
      have zero : ticks.toNat = 0 := by omega
      rw [zero] at over_
      simpa using over_
  · rintro ⟨short, past, held⟩
    refine ⟨?_, held, ?_⟩
    · intro j before
      rw [← Bool.not_eq_true, due, Int.bmod_def]
      omega
    · by_cases negative : ticks < 0
      · have zero : ticks.toNat = 0 := by omega
        rw [zero]
        simpa using past negative
      · rw [Int.toNat_of_nonneg (by omega), Int.sub_self]
        decide

/-- The ticks this clock counts for those a writer left. -/
def ticksLeft (s : SchedRec) (left : Int32) : Int :=
  ⌈((left.toInt * writerUnit s.unit : Int) / TICK_UNIT_MS : ℚ)⌉

theorem deadline_eq (s : SchedRec) (left : Int32) :
    deadline s left = restoredTick s + asU32 (ticksLeft s left) := by
  rw [deadline, convTicks_eq, ticksLeft]

/-- The waits of an image are kept: each task that waits for the clock is due
after the ticks its record left, the queues have the image's order within a
priority, and the recorded wakeup is there and not later than any deadline. -/
structure KeepsWaits (b : Builder) (s : SchedRec) (vm : Vm) : Prop where
  due : ∀ o t left, recordOf b s.tasks o = some t → t.left = some left →
    ∃ data, vm.tasks o = some data ∧
      DueAfter vm.tick data (ticksLeft s left)
  ordered : ∀ q major, inQueue vm q major = queueOf b s.tasks q major
  woken : ∀ o t left data, recordOf b s.tasks o = some t →
    t.left = some left → vm.tasks o = some data →
      vm.wakeupTick ≠ NO_WAKEUP ∧
        ahead vm.wakeupTick vm.tick ≤ ahead data.wakeupTick vm.tick

/-- The waits of an image fit: each of them is one that a deadline can say, and
where there is one a wakeup is recorded that can be said and is read as not
later. -/
def FitWaits (b : Builder) (s : SchedRec) : Prop :=
  ∀ o t left, recordOf b s.tasks o = some t → t.left = some left →
    Fits (restoredTick s) (ticksLeft s left) ∧
      ∃ wakeup, s.wakeup = some wakeup ∧
        (((restoredTick s).toNat : Int) + ticksLeft s wakeup) % 2 ^ 32 ≠
          2 ^ 32 - 1 ∧
        (ticksLeft s wakeup).bmod (2 ^ 32) ≤
          (ticksLeft s left).bmod (2 ^ 32)

theorem ahead_now (tick : UInt32) (ticks : Int) :
    ahead (tick + asU32 ticks) tick = ticks.bmod (2 ^ 32) := by
  have later := ahead_later tick ticks 0
  have zero : tick + UInt32.ofNat 0 = tick := UInt32.add_zero tick
  rw [zero] at later
  simpa using later

/-- The recorded wakeup of an image that has been built. -/
theorem woken_iff
    (built : Built b s s.tasks vm)
    (ticks : Int) :
    (vm.wakeupTick ≠ NO_WAKEUP ∧
      ahead vm.wakeupTick vm.tick ≤ ticks.bmod (2 ^ 32)) ↔
      ∃ wakeup, s.wakeup = some wakeup ∧
        (((restoredTick s).toNat : Int) + ticksLeft s wakeup) % 2 ^ 32 ≠
          2 ^ 32 - 1 ∧
        (ticksLeft s wakeup).bmod (2 ^ 32) ≤ ticks.bmod (2 ^ 32) := by
  rw [built.wakeup, built.tick]
  cases recorded : s.wakeup with
  | none =>
      constructor
      · rintro ⟨none, -⟩
        exact absurd rfl none
      · rintro ⟨wakeup, is, -⟩
        cases is
  | some wakeup =>
      rw [Option.map_some, Option.getD_some, deadline_eq, ne_eq,
        add_asU32_eq_noWakeup, ahead_now]
      constructor
      · intro both
        exact ⟨wakeup, rfl, both⟩
      · rintro ⟨other, is, both⟩
        cases is
        exact both

/-- Building an image into an idle scheduler keeps its waits exactly when they
fit. -/
theorem keepsWaits_iff
    (b : Builder)
    (s : SchedRec)
    (vm vm' : Vm)
    (idle : ∀ q, (vm.line.queues q).items = [])
    (done : buildTasks b s vm = .ok vm') :
    KeepsWaits b s vm' ↔ FitWaits b s := by
  have built := buildTasks_built idle done
  have restored : ∀ o t left data, recordOf b s.tasks o = some t →
      t.left = some left → vm'.tasks o = some data →
        (DueAfter vm'.tick data (ticksLeft s left) ↔
          Fits (restoredTick s) (ticksLeft s left)) ∧
        ahead data.wakeupTick vm'.tick =
          (ticksLeft s left).bmod (2 ^ 32) := by
    intro o t left data stands is held
    obtain ⟨found, held', restores⟩ := built.data o t stands
    rw [held, Option.some.injEq] at held'
    subst held'
    have timed := TaskRec.wakeup_of_left is s
    have wakeup : data.wakeupTick =
        restoredTick s + asU32 (ticksLeft s left) := by
      rw [restores.wakeup, timed.1, deadline_eq]
    rw [built.tick]
    refine ⟨dueAfter_iff ?_ wakeup, ?_⟩
    · rw [restores.reason]
      exact timed.2
    · rw [wakeup, ahead_now]
  constructor
  · intro keeps o t left stands is
    obtain ⟨data, held, due⟩ := keeps.due o t left stands is
    have here := restored o t left data stands is held
    have woken := keeps.woken o t left data stands is held
    rw [here.2, woken_iff built] at woken
    exact ⟨here.1.mp due, woken⟩
  · intro fit
    refine ⟨?_, built.ordered, ?_⟩
    · intro o t left stands is
      obtain ⟨data, held, -⟩ := built.data o t stands
      exact ⟨data, held, (restored o t left data stands is held).1.mpr
        (fit o t left stands is).1⟩
    · intro o t left data stands is held
      rw [(restored o t left data stands is held).2, woken_iff built]
      exact (fit o t left stands is).2

/-- A builder of one object, a task with a context. -/
def oneObject : Builder :=
  { obj := fun i => if i = 1 then .ok ⟨5⟩ else .error "out of range"
    val := fun _ => .ok .nil
    isTask := fun _ => true
    ctxs := [ROOT, 1] }

/-- A task that sleeps. -/
def sleeper (left : Int32) : TaskRec :=
  { obj := 1, ctx := 2, status := 4, queue := 2, priority := 128, reason := 1
    timeslice := 0, name := .nil, result := .nil, wait := .sleep left }

/-- An image of one task that sleeps. -/
def oneSleeper (tick : UInt32) (left : Int32) : SchedRec :=
  { switchPending := false, loopRunning := false, unit := 4, tick := tick
    wakeup := some left, tasks := [sleeper left], running := 0, host := 0 }

theorem keepsWaits_iff_sleeper :
    ∃ vm, buildTasks oneObject (oneSleeper 100 10) (.initial 30) = .ok vm ∧
      (KeepsWaits oneObject (oneSleeper 100 10) vm ↔
        FitWaits oneObject (oneSleeper 100 10)) :=
  ⟨_, rfl, keepsWaits_iff _ _ (.initial 30) _ (fun _ => rfl) rfl⟩

/-- A sleep that ends on the largest count has no deadline any more. -/
theorem sleeper_lost :
    ∃ vm, buildTasks oneObject (oneSleeper 4294967280 15) (.initial 30) =
      .ok vm ∧ ¬ KeepsWaits oneObject (oneSleeper 4294967280 15) vm := by
  refine ⟨_, rfl, ?_⟩
  intro keeps
  obtain ⟨data, held, -, due⟩ := keeps.due ⟨5⟩ (sleeper 15) 15 rfl rfl
  cases held
  cases due

end SabiRuby.Checkpoint
