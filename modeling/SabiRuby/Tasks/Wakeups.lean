import SabiRuby.Library.StepRuns
import SabiRuby.Tasks.Ticking

/-!
# No wakeup by the clock is lost or early

As long as no pop notes a deadline that the recorded wakeup is misread against,
every move of the clock wakes exactly the tasks whose deadline has passed.
-/

namespace SabiRuby.Tasks

open Library

namespace Vm

variable {vm vm' : Vm} {o q me : ObjId} {t t' : TaskData} {event : Event}
variable {boundary : Option String} {nonBlock : Bool}

/-- Whether a pop parks the task that runs. -/
def parksOn
    (vm : Vm)
    (q : ObjId)
    (nonBlock : Bool)
    (deadline : UInt32)
    (boundary : Option String) : Prop :=
  (∃ data, vm.queueObjects q = some data ∧ data.items = [] ∧
    data.closed = false) ∧
    nonBlock = false ∧ 0 < ahead deadline vm.tick ∧ vm.currentTask ≠ none ∧
    boundary = none

instance
    (vm : Vm)
    (q : ObjId)
    (nonBlock : Bool)
    (deadline : UInt32)
    (boundary : Option String) :
    Decidable (vm.parksOn q nonBlock deadline boundary) :=
  have : Decidable (∃ data, vm.queueObjects q = some data ∧ data.items = [] ∧
      data.closed = false) :=
    match held : vm.queueObjects q with
    | none => isFalse fun ⟨_, same, _⟩ => by cases same
    | some data =>
        decidable_of_iff (data.items = [] ∧ data.closed = false)
          ⟨fun both => ⟨data, rfl, both⟩, fun ⟨_, same, both⟩ => by
            cases same
            exact both⟩
  inferInstanceAs (Decidable (_ ∧ _))

/-- The clock moves by less than half a turn, and a task that is parked on a
queue has a deadline that the recorded wakeup can be compared with: not the one
that says there is none, and not half a turn away. -/
def NotesRight (vm : Vm) : Event → Prop
  | .advanceTicks n => n.toNat < 2 ^ 31
  | .popTry q nonBlock (some deadline) boundary =>
      let deadline := deadline.toUInt64.toUInt32
      vm.parksOn q nonBlock deadline boundary → vm.wakeupTick ≠ NO_WAKEUP →
        (deadline = NO_WAKEUP → 0 ≤ ahead deadline vm.wakeupTick) ∧
          ¬(ahead deadline vm.tick = 2 ^ 31 - 1 ∧
            ahead vm.wakeupTick vm.tick = -1)
  | _ => True

instance (vm : Vm) (event : Event) : Decidable (vm.NotesRight event) := by
  rcases event with _ | _
  case advanceTicks n => exact Nat.decLt n.toNat (2 ^ 31)
  case popTry q nonBlock deadline boundary =>
    rcases deadline with _ | _ <;> dsimp only [NotesRight] <;> infer_instance
  all_goals exact instDecidableTrue

/-- Whether an event moves the clock, by less than half a turn. -/
def movesClock (vm : Vm) : Event → Prop
  | .advanceTicks n => n.toNat < 2 ^ 31
  | .idle => True
  | .sleep call _ =>
      vm.currentTask = none ∧ ∃ micros, call.micros = .ok micros
  | _ => False

/-- A move of the clock leaves no deadline that has passed, touches no task but
those whose deadline has, and the recorded wakeup is not later than any
deadline. -/
structure Wakes (vm vm' : Vm) : Prop where
  all : ∀ o t, vm'.tasks o = some t → t.timed →
    0 < ahead t.wakeupTick vm'.tick
  only : ∀ o t, vm.tasks o = some t →
    ¬(t.timed ∧ ahead t.wakeupTick vm'.tick ≤ 0) → vm'.tasks o = some t
  noted : vm'.Noted

/-- The claim of one step. -/
def WakesInTime (vm : Vm) (event : Event) : Prop :=
  vm.movesClock event → vm.Wakes (vm.step event)

/-! ## Events that leave the clock alone -/

/-- A task waits for a deadline it did not have only after a sleep or a pop. -/
theorem Changed.timed
    (changed : Changed vm event o t t')
    (timed : t'.timed) :
    t.timed ∧ t'.wakeupTick = t.wakeupTick ∨
      (∃ call boundary, event = .sleep call boundary) ∨
        ∃ q nonBlock deadline boundary,
          event = .popTry q nonBlock (some deadline) boundary := by
  cases changed with
  | kept value => exact .inl ⟨timed, rfl⟩
  | prioritized priority => exact .inl ⟨timed, rfl⟩
  | asleep call boundary micros called =>
      exact .inr (.inl ⟨call, boundary, called⟩)
  | parked q nonBlock deadline boundary called =>
      cases deadline with
      | none =>
          simp [TaskData.timed, TaskData.onQueue, TaskData.hasDeadline]
            at timed
      | some deadline =>
          exact .inr (.inr ⟨q, nonBlock, deadline, boundary, called⟩)
  | joining other =>
      simp [TaskData.timed, TaskData.joining, TaskData.hasDeadline] at timed
  | _ => cases timed.1

theorem Alters.timed
    (alters : vm.Alters vm' event)
    (bare : setsDeadline event = false)
    (task : vm'.tasks o = some t')
    (timed : t'.timed) :
    ∃ t, vm.tasks o = some t ∧ t.timed ∧ t'.wakeupTick = t.wakeupTick := by
  cases held : vm.tasks o with
  | none =>
      obtain ⟨_, _, _, awake⟩ := alters.made o t' held task
      rcases awake with status | status <;>
        exact absurd (status.symm.trans timed.1) (by decide)
  | some t =>
      obtain ⟨t'', task', changed⟩ := alters.changed o t held
      rw [task] at task'
      cases task'
      rcases changed.timed timed with same | ⟨_, _, called⟩ |
        ⟨_, _, _, _, called⟩
      · exact ⟨t, rfl, same⟩
      · rw [called] at bare
        cases bare
      · rw [called] at bare
        cases bare

/-- An event that neither moves the clock nor gives a task a deadline. -/
theorem Clocked.calm
    (clocked : vm.Clocked)
    (ticking : vm'.Ticking Set.univ (ahead vm.wakeupTick vm.tick))
    (tick : vm'.tick = vm.tick)
    (wakeup : vm'.wakeupTick = vm.wakeupTick)
    (alters : vm.Alters vm' event)
    (bare : setsDeadline event = false) : vm'.Clocked where
  orderly := ticking.orderly
  dated := by
    rw [tick, wakeup, ← tick]
    rw [← tick] at ticking
    exact ticking.dated
  noted o t' task timed := by
    obtain ⟨t, before, was, same⟩ := alters.timed bare task timed
    rw [tick, wakeup, same]
    exact clocked.noted o t before was
  soon o := ticking.soon o trivial
  low := by
    rw [tick, wakeup]
    exact clocked.low

/-! ## Waiting for the clock -/

/-- The deadlines in the index allow for a recorded wakeup that is not later. -/
theorem Clocked.ticking_lowered
    (clocked : vm.Clocked)
    (short : wakeup < 2 ^ 31)
    (lower : vm.wakeupTick ≠ NO_WAKEUP →
      wakeup ≤ ahead vm.wakeupTick vm.tick) : vm.Ticking Set.univ wakeup where
  orderly := clocked.orderly
  dated := by
    by_cases none : vm.wakeupTick = NO_WAKEUP
    · exact clocked.dated.of_bare fun o _ =>
        clocked.noted.bare clocked.orderly none o
    · refine ⟨clocked.dated.synced, clocked.dated.dated, fun o inside has => ?_⟩
      have near := clocked.dated.near o inside has
      have less := lower none
      omega
  soon o _ := clocked.soon o
  short := short

/-- A task is parked until a deadline that is noted. -/
theorem Clocked.parks
    {change : TaskData → TaskData} {deadline : UInt32}
    (clocked : vm.Clocked)
    (o : ObjId)
    (kept : ∀ t, (change t).timed → (change t).wakeupTick = deadline)
    (soon : upcoming deadline vm.tick)
    (right : vm.wakeupTick ≠ NO_WAKEUP →
      (deadline = NO_WAKEUP → 0 ≤ ahead deadline vm.wakeupTick) ∧
        ahead deadline vm.tick - ahead vm.wakeupTick vm.tick < 2 ^ 31) :
    ((vm.requeue o change).noteWakeup deadline).park.Clocked := by
  have still := vm.still_requeue o change
  have old : ∀ other t', (vm.requeue o change).tasks other = some t' →
      t'.timed → other = o ∧ t'.wakeupTick = deadline ∨
        vm.tasks other = some t' := by
    intro other t' task timed
    by_cases same : other = o
    · subst same
      rw [requeue_tasks, Function.update_self] at task
      obtain ⟨t, _, rfl⟩ := Option.map_eq_some_iff.mp task
      exact .inl ⟨rfl, kept t timed⟩
    · rw [requeue_tasks_of_ne same] at task
      exact .inr task
  have later : o ∈ Set.univ → ∀ t, vm.tasks o = some t → (change t).timed →
      upcoming (change t).wakeupTick vm.tick := by
    intro _ t _ timed
    rw [kept t timed]
    exact soon
  have low := soon.low
  have between (some : vm.wakeupTick ≠ NO_WAKEUP) :
      ahead deadline vm.wakeupTick =
        ahead deadline vm.tick - ahead vm.wakeupTick vm.tick := by
    have high := ahead_lt vm.wakeupTick vm.tick
    exact ahead_between vm.tick (by omega) (right some).2
  by_cases lowers : vm.wakeupTick = NO_WAKEUP ∨
      ahead deadline vm.wakeupTick < 0
  · have noted : (vm.requeue o change).noteWakeup deadline =
        { vm.requeue o change with wakeupTick := deadline } := by
      unfold noteWakeup
      rw [still.wakeupTick, if_pos lowers]
    have ticking := (clocked.ticking_lowered (ahead_lt deadline vm.tick)
      fun some => by
        have := between some
        have := lowers.resolve_left some
        omega).requeue o later
    rw [noted]
    refine ⟨Keeps.orderly (ticking.orderly.keeps_of_same rfl rfl rfl rfl),
      ticking.dated, fun other t' task timed => ?_,
      fun other => ticking.soon other trivial, fun _ => low⟩
    rcases old other t' task timed with ⟨_, same⟩ | before
    · change deadline ≠ NO_WAKEUP ∧ ahead deadline vm.tick ≤
        ahead t'.wakeupTick vm.tick
      rw [same]
      exact ⟨same ▸ t'.hasDeadline_ne timed.2, le_rfl⟩
    · obtain ⟨some, later⟩ := clocked.noted other t' before timed
      have less := lowers.resolve_left some
      have apart := between some
      change deadline ≠ NO_WAKEUP ∧ ahead deadline vm.tick ≤
        ahead t'.wakeupTick vm.tick
      refine ⟨fun none => ?_, by omega⟩
      have := (right some).1 none
      omega
  · have noted : (vm.requeue o change).noteWakeup deadline =
        vm.requeue o change := by
      unfold noteWakeup
      rw [still.wakeupTick, if_neg lowers]
    obtain ⟨some, notLess⟩ := not_or.mp lowers
    have apart := between some
    have ticking := clocked.ticking.requeue o later
    rw [noted]
    refine ⟨Keeps.orderly (ticking.orderly.keeps_of_same rfl rfl rfl rfl),
      ticking.dated, fun other t' task timed => ?_,
      fun other => ticking.soon other trivial, clocked.low⟩
    rcases old other t' task timed with ⟨_, same⟩ | before
    · change vm.wakeupTick ≠ NO_WAKEUP ∧ ahead vm.wakeupTick vm.tick ≤
        ahead t'.wakeupTick vm.tick
      rw [same]
      exact ⟨some, by omega⟩
    · exact clocked.noted other t' before timed

/-! ## Every step -/

theorem Clocked.advanceTicks
    (clocked : vm.Clocked)
    (n : UInt32)
    (half : n.toNat < 2 ^ 31) : (vm.advanceTicks n).Clocked :=
  (clocked.moved n half).wakeSleepers

theorem Clocked.idle (clocked : vm.Clocked) : vm.idle.2.Clocked := by
  by_cases none : vm.wakeupTick = NO_WAKEUP
  · unfold Vm.idle
    rw [if_pos none]
    exact clocked
  · rw [idle_eq none]
    exact clocked.advanceTicks _ vm.ticksToWakeup_lt

theorem Clocked.sleepFor
    (clocked : vm.Clocked)
    (done : vm.sleepFor call boundary = .ok vm') : vm'.Clocked := by
  obtain ⟨micros, _, ⟨_, rfl⟩ | ⟨me, _, rfl⟩⟩ := sleepFor_ok done
  · have short := sleepTicks_le micros
    exact clocked.advanceTicks _ (by omega)
  · have short := sleepTicks_le micros
    have soon := upcoming_normalize vm.tick (sleepTicks micros) (by omega)
    refine clocked.parks me (fun _ _ => rfl) soon fun some => ⟨fun none => ?_, ?_⟩
    · exact absurd none (normalize_ne _)
    · have distance := ahead_normalize vm.tick (sleepTicks micros) (by omega)
      have low := clocked.low some
      split at distance <;> omega

/-- A pop that is to be tried again parked the task that asked. -/
theorem parksOn_of_waits
    (done : vm.queuePopTry q nonBlock (some deadline) boundary =
      .ok (.waitRetry, vm')) :
    vm.parksOn q nonBlock deadline.toUInt64.toUInt32 boundary := by
  obtain ⟨data, held, ⟨_, _, _, same⟩ | ⟨empty, ⟨same, _⟩ |
    ⟨isOpen, waits⟩⟩⟩ := queuePopTry_ok done
  · cases same
  · cases same
  · rcases blockingPop_ok waits with same | ⟨me, current, later, same⟩
    · cases same
    · have positive := later _ rfl
      refine ⟨⟨data, held, empty, isOpen⟩, ?_, positive, ?_, ?_⟩
      · cases nonBlock with
        | false => rfl
        | true =>
            obtain ⟨items, closed⟩ := data
            subst empty isOpen
            unfold Vm.queuePopTry qItems at done
            rw [held] at done
            cases done
      · rw [current]
        exact Option.some_ne_none me
      · cases boundary with
        | none => rfl
        | some native =>
            unfold blockingPop at waits
            rw [current] at waits
            simp [not_le.mpr positive] at waits

theorem Clocked.queuePopTry
    {deadline : Option Int64} {popped : Popped × Vm}
    (clocked : vm.Clocked)
    (right : vm.NotesRight (.popTry q nonBlock deadline boundary))
    (done : vm.queuePopTry q nonBlock deadline boundary = .ok popped) :
    popped.2.Clocked := by
  have setQueue (data : QueueData) : (vm.setQueue q data).Clocked := by
    have alters : vm.Alters (vm.setQueue q data) (.tryPop q) := .of_eq rfl
    exact clocked.calm (clocked.ticking.setQueue q data) rfl rfl alters rfl
  obtain ⟨data, held, ⟨item, rest, _, rfl⟩ | ⟨empty, ⟨rfl, _⟩ |
    ⟨isOpen, waits⟩⟩⟩ := queuePopTry_ok done
  · exact setQueue _
  · exact clocked
  · rcases blockingPop_ok waits with rfl | ⟨me, current, later, rfl⟩
    · exact clocked
    · change (vm.parkOnQueue me q _).Clocked
      have alters : vm.Alters (vm.parkOnQueue me q
          (deadline.map fun d => d.toUInt64.toUInt32))
            (.popTry q nonBlock deadline boundary) :=
        clocked.orderly.alters_perform (by
          simp only [perform, done]
          rfl)
      cases deadline with
      | none =>
          have untimed : ∀ t, ¬(TaskData.onQueue q none t).timed := by
            intro t timed
            simp [TaskData.timed, TaskData.onQueue, TaskData.hasDeadline]
              at timed
          have ticking := (clocked.ticking.requeue_untimed me untimed).park
          rw [Option.map_none, parkOnQueue_eq] at alters ⊢
          exact clocked.calm ticking rfl rfl alters rfl
      | some deadline =>
          have asks := parksOn_of_waits done
          rw [Option.map_some, parkOnQueue_eq]
          have positive := later _ rfl
          refine clocked.parks me (fun _ _ => rfl) (.inl positive.le)
            fun some => ?_
          obtain ⟨kept, fits⟩ := right asks some
          refine ⟨kept, ?_⟩
          have high := ahead_lt deadline.toUInt64.toUInt32 vm.tick
          have low := clocked.low some
          by_contra far
          exact fits ⟨by omega, by omega⟩

theorem Clocked.perform
    (clocked : vm.Clocked)
    (right : vm.NotesRight event)
    (done : vm.perform event = .ok vm') : vm'.Clocked := by
  cases event with
  | sleep call boundary => exact clocked.sleepFor done
  | popTry q nonBlock deadline boundary =>
      obtain ⟨popped, found, rfl⟩ := answered done
      exact clocked.queuePopTry right found
  | advanceTicks n =>
      cases done
      exact clocked.advanceTicks n right
  | idle =>
      cases done
      exact clocked.idle
  | _ =>
      obtain ⟨tick, wakeup⟩ := perform_still rfl done
      exact clocked.calm (clocked.ticking.perform rfl done) tick (wakeup rfl)
        (clocked.orderly.alters_perform done) rfl

/-- An event keeps the recorded wakeup in step with the deadlines as long as it
notes them right. -/
theorem Clocked.step
    (clocked : vm.Clocked)
    (right : vm.NotesRight event) : (vm.step event).Clocked := by
  unfold Vm.step
  split
  · rename_i next done
    exact clocked.perform right done
  · exact clocked

theorem clocked_initial (indexFrom : Nat) :
    (initial indexFrom).Clocked where
  orderly := orderly_initial indexFrom
  dated :=
    { synced := rfl
      dated := fun _ _ _ held => by cases held
      near := fun _ _ some => absurd rfl some }
  noted _ _ held := by cases held
  soon _ _ held := by cases held
  low some := absurd rfl some

/-! ## Moves of the clock -/

theorem Clocked.wakes_advanceTicks
    (clocked : vm.Clocked)
    (n : UInt32)
    (half : n.toNat < 2 ^ 31) : vm.Wakes (vm.advanceTicks n) := by
  have moved := clocked.moved n half
  have tick : (vm.advanceTicks n).tick = vm.tick + n := wakeSleepers_tick
  refine ⟨fun o t task timed => ?_, fun o t task early => ?_,
    moved.wakeSleepers.noted⟩
  · rw [tick]
    exact moved.wakeSleepers_later task timed
  · rw [tick] at early
    have changed := moved.wakeSleepers_tasks o
    change _ = (vm.tasks o).map _ at changed
    rw [task, Option.map_some, if_neg early] at changed
    exact changed

theorem Clocked.wakes_idle (clocked : vm.Clocked) : vm.Wakes vm.idle.2 := by
  by_cases none : vm.wakeupTick = NO_WAKEUP
  · have same : vm.idle.2 = vm := by
      unfold Vm.idle
      rw [if_pos none]
    rw [same]
    exact ⟨fun o t task timed => absurd none (clocked.noted o t task timed).1,
      fun _ _ task _ => task, clocked.noted⟩
  · rw [idle_eq none]
    exact clocked.wakes_advanceTicks _ vm.ticksToWakeup_lt

theorem Clocked.wakesInTime
    (clocked : vm.Clocked)
    (event : Event) : vm.WakesInTime event := by
  intro moves
  cases event with
  | advanceTicks n => exact clocked.wakes_advanceTicks n moves
  | idle => exact clocked.wakes_idle
  | sleep call boundary =>
      obtain ⟨outside, micros, asked⟩ := moves
      have short := sleepTicks_le micros
      have done : vm.perform (.sleep call boundary) =
          .ok (vm.advanceTicks (sleepTicks micros)) := by
        simp only [Vm.perform, Vm.sleepFor, asked, sleepUs, outside, bind,
          Except.bind]
      unfold Vm.step
      rw [done]
      exact clocked.wakes_advanceTicks _ (by omega)
  | _ => exact moves.elim

/-- In a run whose steps note their deadlines right, no wakeup by the clock is
lost or early. -/
theorem wakes_in_time
    (indexFrom : Nat)
    (events : List Event)
    (right : StepsMeet step NotesRight (initial indexFrom) events) :
    StepsMeet step WakesInTime (initial indexFrom) events := by
  exact right.under (fun vm event clocked right => clocked.step right)
    (fun vm event clocked _ => clocked.wakesInTime event)
    (clocked_initial indexFrom)

/-- Two tasks that sleep while the clock turns past its largest count. -/
def sleptThroughTurn : List Event :=
  [.advanceTicks 2147483647, .advanceTicks 2147483647, .taskNew none,
    .taskNew none, .schedule, .sleep (.usleep 20000) none, .leave .switched,
    .schedule, .sleep (.sleepMs 8) none, .leave .switched, .idle,
    .advanceTicks 4]

theorem wakes_through_turn :
    StepsMeet step WakesInTime (initial TASK_INDEX_FROM) sleptThroughTurn :=
  wakes_in_time TASK_INDEX_FROM sleptThroughTurn (by decide +kernel)

/-- A task sleeps for no time at the largest count, and another one pops with the
longest deadline there is. -/
def noteMisread : List Event :=
  [.queueNew, .advanceTicks 2147483647, .advanceTicks 2147483647,
    .advanceTicks 1, .taskNew none, .taskNew none, .schedule,
    .sleep (.usleep 0) none, .leave .switched, .schedule,
    .popTry ⟨0⟩ false (some 2147483646) none, .leave .switched]

/-- The first of them sleeps on after its deadline. -/
theorem sleeper_not_woken :
    ¬∀ (indexFrom : Nat) (events : List Event),
      StepsMeet step WakesInTime (initial indexFrom) events := by
  intro always
  have meets := (always TASK_INDEX_FROM (noteMisread ++ [.advanceTicks 5])).later
  have half : (5 : UInt32).toNat < 2 ^ 31 := by decide
  have woke := meets.1 half
  have asleep :
      (((initial TASK_INDEX_FROM).run noteMisread).step
        (.advanceTicks 5)).tasks ⟨1⟩ =
          some
            { ctx := some 1
              priority := PRIORITY_DEFAULT
              status := .waiting
              reason := .sleep
              result := .nil
              wakeupTick := 4294967294
              join := none
              queue := none } := by decide +kernel
  have tick : (((initial TASK_INDEX_FROM).run noteMisread).step
      (.advanceTicks 5)).tick = 4 := by decide +kernel
  have later := woke.all ⟨1⟩ _ asleep ⟨rfl, rfl⟩
  change 0 < ahead 4294967294 (((initial TASK_INDEX_FROM).run noteMisread).step
    (.advanceTicks 5)).tick at later
  rw [tick] at later
  exact absurd later (by decide)

end Vm

end SabiRuby.Tasks
