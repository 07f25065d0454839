import SabiRuby.Tasks.Deadlines

/-!
# What a look at the clock finds

The tasks that are due and the earliest of the other deadlines are the same
whether the index of the sleepers is asked or the waiting queue is walked.
-/

namespace SabiRuby.Tasks

open Library

/-- A task that waits for the clock. -/
def TaskData.timed (t : TaskData) : Prop :=
  t.status = .waiting ∧ t.hasDeadline = true

instance (t : TaskData) : Decidable t.timed :=
  inferInstanceAs (Decidable (_ ∧ _))

/-- Whether the deadline of a task has passed. -/
def TaskData.due (tick : UInt32) (t : TaskData) : Bool :=
  t.hasDeadline && decide (ahead t.wakeupTick tick ≤ 0)

theorem TaskData.hasDeadline_ne
    {t : TaskData}
    (has : t.hasDeadline = true) : t.wakeupTick ≠ NO_WAKEUP := by
  simp only [hasDeadline, Bool.and_eq_true, bne_iff_ne] at has
  exact has.2

/-- A recorded wakeup is the earliest deadline, and there is none exactly when
no task waits for the clock. -/
structure Earliest
    (tasks : ObjId → Option TaskData)
    (tick wakeup : UInt32) : Prop where
  noted : ∀ o t, tasks o = some t → t.timed →
    wakeup ≠ NO_WAKEUP ∧ ahead wakeup tick ≤ ahead t.wakeupTick tick
  held : wakeup ≠ NO_WAKEUP →
    ∃ o t, tasks o = some t ∧ t.timed ∧ t.wakeupTick = wakeup

theorem Earliest.unique
    {tasks : ObjId → Option TaskData} {tick first second : UInt32}
    (left : Earliest tasks tick first)
    (right : Earliest tasks tick second) : first = second := by
  by_cases firstNone : first = NO_WAKEUP
  · by_contra differs
    obtain ⟨o, t, task, timed, _⟩ := right.held fun secondNone =>
      differs (firstNone.trans secondNone.symm)
    exact (left.noted o t task timed).1 firstNone
  · obtain ⟨o, t, task, timed, same⟩ := left.held firstNone
    have later := right.noted o t task timed
    obtain ⟨o', t', task', timed', same'⟩ := right.held later.1
    have earlier := left.noted o' t' task' timed'
    have equal : ahead first tick = ahead second tick := by
      rw [same] at later
      rw [same'] at earlier
      omega
    exact ahead_injective equal

namespace TaskQueues

variable {tasks : ObjId → Option TaskData} {tick : UInt32}

/-- What the walk of the waiting queue has found to be the next deadline. -/
structure Found
    (tasks : ObjId → Option TaskData)
    (tick next : UInt32)
    (entries : List (Key × ObjId))
    (found : UInt32) : Prop where
  none : found = NO_WAKEUP → next = NO_WAKEUP
  later : found ≠ NO_WAKEUP → 0 < ahead found tick
  source : found ≠ NO_WAKEUP → found = next ∨
    ∃ entry ∈ entries, ∃ t, tasks entry.2 = some t ∧ t.hasDeadline = true ∧
      t.wakeupTick = found
  first : next ≠ NO_WAKEUP → ahead found tick ≤ ahead next tick
  noted : ∀ entry ∈ entries, ∀ t, tasks entry.2 = some t →
    t.hasDeadline = true → 0 < ahead t.wakeupTick tick →
      found ≠ NO_WAKEUP ∧ ahead found tick ≤ ahead t.wakeupTick tick

theorem walk_next
    (entries : List (Key × ObjId))
    (found : List ObjId × UInt32)
    (later : found.2 ≠ NO_WAKEUP → 0 < ahead found.2 tick) :
    Found tasks tick found.2 entries
      (entries.foldl (walkEntry tasks tick) found).2 := by
  induction entries generalizing found with
  | nil =>
      exact ⟨id, later, fun _ => .inl rfl, fun _ => le_rfl,
        fun _ member => absurd member List.not_mem_nil⟩
  | cons entry rest ih =>
      rw [List.foldl_cons]
      have skip (same : (walkEntry tasks tick found entry).2 = found.2)
          (ahead : ∀ t, tasks entry.2 = some t → t.hasDeadline = true →
            0 < ahead t.wakeupTick tick → found.2 ≠ NO_WAKEUP ∧
              ahead found.2 tick ≤ ahead t.wakeupTick tick) :
          Found tasks tick found.2 (entry :: rest)
            (rest.foldl (walkEntry tasks tick)
              (walkEntry tasks tick found entry)).2 := by
        have walked := ih (walkEntry tasks tick found entry)
          (by rw [same]; exact later)
        rw [same] at walked
        refine ⟨walked.none, walked.later, fun some => ?_, walked.first,
          fun other member t task has ahead' => ?_⟩
        · exact (walked.source some).imp_right fun ⟨other, member, rest⟩ =>
            ⟨other, List.mem_cons_of_mem _ member, rest⟩
        · rcases List.mem_cons.mp member with rfl | member
          · obtain ⟨some, before⟩ := ahead t task has ahead'
            exact ⟨fun none => some (walked.none none),
              (walked.first some).trans before⟩
          · exact walked.noted other member t task has ahead'
      cases held : tasks entry.2 with
      | none =>
          refine skip (by simp only [walkEntry, held]) fun t task => ?_
          rw [held] at task
          cases task
      | some t =>
          by_cases has : t.hasDeadline = true
          · by_cases passed : ahead t.wakeupTick tick ≤ 0
            · refine skip (by simp [walkEntry, held, has, passed])
                fun u task _ ahead' => ?_
              rw [held] at task
              cases task
              omega
            · have soon : 0 < ahead t.wakeupTick tick := by omega
              by_cases lower : found.2 = NO_WAKEUP ∨
                  ahead t.wakeupTick found.2 < 0
              · have stepped : walkEntry tasks tick found entry =
                    (found.1, t.wakeupTick) := by
                  simp only [walkEntry, held, has, Bool.not_true,
                    Bool.false_eq_true, if_false, if_neg passed, if_pos lower]
                have walked := ih (found.1, t.wakeupTick)
                  fun _ => soon
                rw [stepped]
                have some := t.hasDeadline_ne has
                have less : found.2 ≠ NO_WAKEUP →
                    ahead t.wakeupTick tick ≤ ahead found.2 tick := by
                  intro was
                  rcases lower with none | less
                  · exact absurd none was
                  · have positive := later was
                    have high := ahead_lt found.2 tick
                    have top := ahead_lt t.wakeupTick tick
                    rw [ahead_between tick (by omega) (by omega)] at less
                    omega
                refine ⟨fun none => absurd (walked.none none) some,
                  walked.later, fun known => .inr ?_,
                  fun was => (walked.first some).trans (less was),
                  fun other member u task has' ahead' => ?_⟩
                · rcases walked.source known with same | ⟨other, member, rest⟩
                  · exact ⟨entry, List.mem_cons_self .., t, held, has,
                      same.symm⟩
                  · exact ⟨other, List.mem_cons_of_mem _ member, rest⟩
                · rcases List.mem_cons.mp member with rfl | member
                  · rw [held] at task
                    cases task
                    exact ⟨fun none => some (walked.none none),
                      walked.first some⟩
                  · exact walked.noted other member u task has' ahead'
              · have both := not_or.mp lower
                refine skip ?_ fun u task _ _ => ?_
                · simp only [walkEntry, held, has, Bool.not_true,
                    Bool.false_eq_true, if_false, if_neg passed, if_neg lower]
                · rw [held] at task
                  cases task
                  have positive := later both.1
                  have high := ahead_lt found.2 tick
                  have top := ahead_lt t.wakeupTick tick
                  have notLess := both.2
                  rw [ahead_between tick (by omega) (by omega)] at notLess
                  exact ⟨both.1, by omega⟩
          · refine skip (by simp [walkEntry, held, has]) fun u task has' => ?_
            rw [held] at task
            cases task
            exact absurd has' has

end TaskQueues

namespace Vm

variable {vm : Vm} {o : ObjId} {t : TaskData} {wakeup : Int}
variable {watched : Set ObjId}

/-- The deadlines in the index are those of the waiting tasks. -/
theorem Orderly.of_deadline
    (orderly : vm.Orderly)
    (has : (vm.line.places o).deadline ≠ none) :
    vm.line.indexed ∧ ∃ t, vm.tasks o = some t ∧ t.timed := by
  cases queued : (vm.line.places o).q with
  | none => exact absurd (orderly.placed.recorded.clear o queued).1 has
  | some q =>
      obtain ⟨t, held, here, _, deadline, _⟩ := orderly.placed.tidy o q queued
      obtain ⟨indexed, waiting, timed⟩ := deadline.mp
        (Option.isSome_iff_ne_none.mpr has)
      exact ⟨indexed, t, held, (qOf_eq_waiting_iff _).mp (here ▸ waiting),
        timed⟩

/-- The entry of a waiting task with a deadline among the sleepers. -/
theorem Orderly.sleeper
    (orderly : vm.Orderly)
    (dated : vm.line.Dated watched vm.tasks vm.tick wakeup)
    (inside : o ∈ watched)
    (member : (key, o) ∈ vm.line.sleepers.items) :
    key.seq = (vm.line.places o).seq ∧ ∃ t, vm.tasks o = some t ∧ t.timed ∧
      (key.major : Int) = vm.line.now vm.tick + ahead t.wakeupTick vm.tick := by
  have held := (orderly.placed.recorded.sleepers.mem_iff key o).mp member
  have deadline : (vm.line.places o).deadline = some key.major := by
    unfold TaskPlace.sleepKey at held
    cases deadline : (vm.line.places o).deadline with
    | none => simp [deadline] at held
    | some d =>
        rw [deadline] at held
        cases held
        rfl
  obtain ⟨t, task, counted⟩ := dated.dated o inside key.major deadline
  obtain ⟨_, t', task', timed⟩ := orderly.of_deadline
    (o := o) (deadline ▸ Option.some_ne_none _)
  rw [task] at task'
  cases task'
  exact ⟨TaskPlace.sleepKey_seq held, t, task, timed, counted⟩

/-- The tasks found due are those whose deadline has passed, in the order they
began to wait. -/
theorem Orderly.due_eq
    (orderly : vm.Orderly)
    (dated : vm.line.Dated Set.univ vm.tasks vm.tick wakeup) :
    vm.findDue.1.1 = vm.line.waitingTasks.filter fun o =>
      (vm.tasks o).any (TaskData.due vm.tick) := by
  unfold Vm.findDue
  split
  · rename_i indexed
    have clocked : (vm.line.absTick vm.tick).Recorded :=
      orderly.placed.recorded.withClock vm.line.indexed vm.line.indexFrom _ _
    have taken := clocked.takeDue (vm.line.absTick vm.tick).tickAbs
      (vm.line.absTick vm.tick).sleepers.items.length le_rfl
    dsimp only
    rw [taken.due_eq]
    change (List.insertionSort _ ((vm.line.sleepers.items.takeWhile
      fun entry => entry.1.major ≤ vm.line.now vm.tick).map
        fun entry => (entry.1.seq, entry.2))).map Prod.snd = _
    rw [orderly.placed.recorded.sleepers.sorted.takeWhile_eq
      (fun key => decide (key.major ≤ vm.line.now vm.tick))
      (fun first second less low => by
        have major := (Key.lt_iff first second).mp less
        have low := of_decide_eq_true low
        exact decide_eq_true (by omega))]
    generalize dueItems : vm.line.sleepers.items.filter
      (fun entry => decide (entry.1.major ≤ vm.line.now vm.tick)) = items
    have inside : ∀ entry ∈ items, entry ∈ vm.line.sleepers.items := by
      rw [← dueItems]
      exact fun entry member => (List.mem_filter.mp member).1
    have seqOf : ∀ entry ∈ items,
        entry.1.seq = (vm.line.places entry.2).seq :=
      fun entry member => (orderly.sleeper dated trivial (inside entry member)).1
    have distinct : items.Nodup := by
      rw [← dueItems]
      exact orderly.placed.recorded.sleepers.sorted.nodup.filter _
    refine eq_of_ascending (fun o => (vm.line.places o).seq) ?_
      (orderly.waitingTasks_ascend.filter _) fun o => ?_
    · have pairs : (items.map fun entry => (entry.1.seq, entry.2)).Nodup := by
        refine distinct.map_on fun first firstMember second secondMember
          same => ?_
        refine orderly.placed.recorded.sleepers.sorted.eq_of_mem
          (inside first firstMember) (inside second secondMember) ?_
        have firstKey := (orderly.placed.recorded.sleepers.mem_iff _ _).mp
          (inside first firstMember)
        have secondKey := (orderly.placed.recorded.sleepers.mem_iff _ _).mp
          (inside second secondMember)
        rw [(Prod.mk.inj same).2, secondKey] at firstKey
        exact (Option.some.inj firstKey).symm
      rw [List.pairwise_map]
      have ascends := List.pairwise_insertionSort
        (fun first second : Nat × ObjId => first.1 ≤ second.1)
        (items.map fun entry => (entry.1.seq, entry.2))
      have different := (List.perm_insertionSort
        (fun first second : Nat × ObjId => first.1 ≤ second.1)
        (items.map fun entry => (entry.1.seq, entry.2))).nodup_iff.mpr pairs
      refine List.Pairwise.imp_of_mem ?_ (ascends.and different)
      intro first second firstMember secondMember both
      obtain ⟨firstEntry, firstIn, rfl⟩ := List.mem_map.mp
        ((List.mem_insertionSort _).mp firstMember)
      obtain ⟨secondEntry, secondIn, rfl⟩ := List.mem_map.mp
        ((List.mem_insertionSort _).mp secondMember)
      dsimp only at both ⊢
      rw [← seqOf _ firstIn, ← seqOf _ secondIn]
      refine lt_of_le_of_ne both.1 fun same => both.2 ?_
      have queued : ∀ entry ∈ items, (vm.line.places entry.2).q ≠ none := by
        intro entry member none
        obtain ⟨_, t, task, timed, _⟩ := orderly.sleeper dated trivial
          (inside entry member)
        rw [orderly.waiting_queued task timed.1] at none
        cases none
      have one := orderly.placed.recorded.apart _ _ (queued _ firstIn)
        (queued _ secondIn) (by rw [← seqOf _ firstIn, ← seqOf _ secondIn, same])
      rw [same, one]
    · rw [List.mem_map, List.mem_filter, orderly.mem_waitingTasks_iff]
      constructor
      · rintro ⟨found, sorted, rfl⟩
        obtain ⟨entry, member, rfl⟩ := List.mem_map.mp
          ((List.mem_insertionSort _).mp sorted)
        obtain ⟨_, t, task, timed, counted⟩ := orderly.sleeper dated trivial
          (inside entry member)
        rw [← dueItems, List.mem_filter, decide_eq_true_eq] at member
        refine ⟨⟨t, task, timed.1⟩, ?_⟩
        rw [task]
        refine Bool.and_eq_true_iff.mpr ⟨timed.2, decide_eq_true ?_⟩
        omega
      · rintro ⟨⟨t, task, waits⟩, due⟩
        rw [task] at due
        obtain ⟨has, passed⟩ := Bool.and_eq_true_iff.mp due
        obtain ⟨key, member⟩ := (orderly.mem_sleepers_iff indexed o).mpr
          ⟨t, task, waits, has⟩
        obtain ⟨_, u, known, _, counted⟩ := orderly.sleeper dated trivial member
        rw [task] at known
        cases known
        have passed := of_decide_eq_true passed
        refine ⟨(key.seq, o), (List.mem_insertionSort _).mpr
          (List.mem_map.mpr ⟨(key, o), ?_, rfl⟩), rfl⟩
        rw [← dueItems, List.mem_filter, decide_eq_true_eq]
        refine ⟨member, ?_⟩
        dsimp only
        omega
  · rw [TaskQueues.walk_due, List.nil_append]
    rfl

/-! ## The next deadline -/

/-- A task that is requeued without waiting enters no index. -/
theorem requeue_line_elsewhere
    (held : vm.tasks o = some t)
    (elsewhere : qOf (change t).status ≠ .waiting) :
    (vm.requeue o change).line = (vm.line.qDelete o).enter o (change t) :=
  TaskQueues.qInsert_of_not_waiting (requeue_tasks_self held change) elsewhere

/-- A task that leaves the waiting queue keeps the deadlines in the index. -/
theorem dated_requeue
    (dated : vm.line.Dated watched vm.tasks vm.tick wakeup)
    (elsewhere : ∀ t, qOf (change t).status ≠ .waiting) :
    (vm.requeue o change).line.Dated watched (vm.requeue o change).tasks vm.tick
      wakeup := by
  have left : (vm.line.qDelete o).Dated watched (vm.requeue o change).tasks vm.tick
      wakeup := dated.qDelete fun other differs => requeue_tasks_of_ne differs _
  cases held : vm.tasks o with
  | none =>
      rw [requeue_line_of_absent held]
      exact left
  | some t =>
      rw [requeue_line_elsewhere held (elsewhere t)]
      have queued : ((vm.line.qDelete o).enqueue o (change t)).Dated watched
          (vm.requeue o change).tasks vm.tick wakeup :=
        left.congr rfl rfl fun _ _ held => ⟨held, rfl⟩
      exact queued.setPlace_none o rfl

/-- The indexes are kept as long as a task waits. -/
def Indexing (vm : Vm) : Prop :=
  vm.line.indexed = true ∨ vm.line.waiting.items = []

theorem Indexing.requeue
    (indexing : vm.Indexing)
    (elsewhere : ∀ t, qOf (change t).status ≠ .waiting) :
    (vm.requeue o change).Indexing := by
  have left : (vm.line.qDelete o).indexed = true ∨
      (vm.line.qDelete o).waiting.items = [] := by
    have withdrawn : (vm.line.withdraw o).indexed = true ∨
        (vm.line.withdraw o).waiting.items = [] := by
      refine indexing.imp_right fun empty => ?_
      unfold TaskQueues.waiting TaskQueues.withdraw
      cases (vm.line.places o).queued with
      | none => exact empty
      | some entry =>
          by_cases same : .waiting = entry.1
          · simp only [← same, Function.update_self]
            have sorted : vm.line.waiting.Sorted := by
              unfold SortedDeque.Sorted
              rw [empty]
              exact .nil
            change ((vm.line.waiting).remove entry.2).2.items = []
            rw [sorted.remove_items, empty]
            rfl
          · simp only [Function.update_of_ne same]
            exact empty
    unfold TaskQueues.qDelete TaskQueues.unindexIfEmpty
    split
    · split
      · rename_i none
        exact .inr none.2.2
      · exact withdrawn
    · exact withdrawn
  cases held : vm.tasks o with
  | none =>
      unfold Indexing
      rw [requeue_line_of_absent held]
      exact left
  | some t =>
      unfold Indexing
      rw [requeue_line_elsewhere held (elsewhere t)]
      refine left.imp_right fun empty => ?_
      change (Function.update (vm.line.qDelete o).queues
        (qOf (change t).status) _ .waiting).items = []
      rw [Function.update_of_ne (Ne.symm (elsewhere t))]
      exact empty

theorem woken_elsewhere (t : TaskData) : qOf (woken t).status ≠ .waiting := by
  simp [woken, qOf]

/-- Waking the tasks that are due. -/
theorem wakes_dated
    (due : List ObjId)
    (dated : vm.line.Dated watched vm.tasks vm.tick wakeup) :
    (due.foldl wake vm).line.Dated watched (due.foldl wake vm).tasks vm.tick
      wakeup := by
  induction due generalizing vm with
  | nil => exact dated
  | cons o rest ih =>
      exact ih (dated_requeue dated woken_elsewhere)

theorem wakes_indexing
    (due : List ObjId)
    (indexing : vm.Indexing) : (due.foldl wake vm).Indexing := by
  induction due generalizing vm with
  | nil => exact indexing
  | cons o rest ih =>
      exact ih (indexing.requeue woken_elsewhere)

/-- The first sleeper of the index holds the earliest deadline. -/
theorem Orderly.first_sleeper
    (orderly : vm.Orderly)
    (dated : vm.line.Dated Set.univ vm.tasks vm.tick wakeup)
    (indexed : vm.line.indexed = true)
    (next : UInt32) :
    Earliest vm.tasks vm.tick (vm.nextWakeup next) := by
  unfold Vm.nextWakeup
  rw [if_pos indexed]
  have entryOf : ∀ o t, vm.tasks o = some t → t.timed →
      ∃ key, (key, o) ∈ vm.line.sleepers.items :=
    fun o t task timed => (orderly.mem_sleepers_iff indexed o).mpr
      ⟨t, task, timed⟩
  cases items : vm.line.sleepers.items with
  | nil =>
      have first : vm.line.sleepers.firstKeyValue = none := by
        simp [SortedDeque.firstKeyValue, items]
      rw [first]
      refine ⟨fun o t task timed => ?_, fun some => absurd rfl some⟩
      obtain ⟨key, member⟩ := entryOf o t task timed
      rw [items] at member
      cases member
  | cons entry rest =>
      obtain ⟨key, o⟩ := entry
      have first : vm.line.sleepers.firstKeyValue = some (key, o) := by
        simp [SortedDeque.firstKeyValue, items]
      have member : (key, o) ∈ vm.line.sleepers.items := by simp [items]
      obtain ⟨_, t, task, timed, counted⟩ := orderly.sleeper dated trivial member
      rw [first]
      simp only [Option.bind_some, task, Option.map_some, Option.getD_some]
      refine ⟨fun other u known later => ⟨t.hasDeadline_ne timed.2, ?_⟩,
        fun _ => ⟨o, t, task, timed, rfl⟩⟩
      obtain ⟨otherKey, otherMember⟩ := entryOf other u known later
      obtain ⟨_, u', known', _, otherCounted⟩ :=
        orderly.sleeper dated trivial otherMember
      rw [known] at known'
      cases known'
      have least := orderly.placed.recorded.sleepers.sorted.firstKeyValue_le
        first otherMember
      dsimp only at least
      rcases (Key.le_iff _ _).mp least with less | ⟨same, _⟩ <;> omega

end Vm

end SabiRuby.Tasks
