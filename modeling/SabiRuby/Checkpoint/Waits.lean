import SabiRuby.Checkpoint.Scheduler

/-!
# The waits of restored tasks

A task that waits for the clock is due when the ticks its record left are over,
counted in this clock's unit, as long as they are less than half a turn and do
not end on the count that says there is no deadline.
-/

namespace SabiRuby
namespace Tasks
namespace TaskQueues

variable {tasks : ObjId → Option TaskData} {tick : UInt32}

theorem indexEntries_queues
    (line : TaskQueues)
    (entries : List (Key × ObjId)) :
    (entries.foldl (indexEntry tasks tick) line).queues = line.queues ∧
      (entries.foldl (indexEntry tasks tick) line).seq = line.seq := by
  induction entries generalizing line with
  | nil => exact ⟨rfl, rfl⟩
  | cons entry rest ih =>
      rw [List.foldl_cons, (ih _).1, (ih _).2, indexEntry]
      split
      · exact ⟨(indexOne_queues _ _ _ _).1, (indexOne_queues _ _ _ _).2.1⟩
      · exact ⟨rfl, rfl⟩

/-- Putting a task in changes its own queue only, whatever is indexed. -/
theorem qInsert_queues
    (line : TaskQueues)
    {o : ObjId}
    {t : TaskData}
    (held : tasks o = some t) :
    (line.qInsert tasks tick o).queues = (line.enqueue o t).queues ∧
      (line.qInsert tasks tick o).seq = line.seq + 1 := by
  rw [qInsert, held]
  dsimp only
  split
  · split
    · exact ⟨(indexOne_queues _ _ _ _).1, (indexOne_queues _ _ _ _).2.1⟩
    · split
      · exact indexEntries_queues _ _
      · exact ⟨rfl, rfl⟩
  · exact ⟨rfl, rfl⟩

end TaskQueues
end Tasks

namespace Checkpoint

open Library Tasks

/-! ## The records of an image -/

/-- The record that stands for a task: the last one with its object. -/
def recordOf (b : Builder) (tasks : List TaskRec) (o : ObjId) : Option TaskRec :=
  tasks.reverse.find? fun t => (b.obj t.obj).toOption = some o

/-- What a ready task is sorted by first; the others are not. -/
def majorOf (t : TaskRec) : Nat :=
  if qOf (statusOf t.status) = .ready then t.priority.toNat else 0

/-- The tasks of an image for a queue, one of the priorities of the ready ones,
in the image's order. -/
def queueOf
    (b : Builder)
    (tasks : List TaskRec)
    (q : QueueIndex)
    (major : Nat) : List ObjId :=
  tasks.filterMap fun t =>
    if t.queue ≠ 255 ∧ qOf (statusOf t.status) = q ∧ majorOf t = major then
      (b.obj t.obj).toOption
    else none

/-- The tasks of a queue with one key before their order of arrival. -/
def inQueue (vm : Vm) (q : QueueIndex) (major : Nat) : List ObjId :=
  ((vm.line.queues q).items.filter fun entry => entry.1.major = major).map
    Prod.snd

/-- An entry behind all the others of its priority comes last among them. -/
theorem insert_last
    {deque : SortedDeque Key ObjId}
    (sorted : deque.Sorted)
    (fresh : ∀ entry ∈ deque.items, entry.1.seq < seq)
    (priority major : Nat)
    (o : ObjId) :
    (((deque.insert ⟨priority, seq⟩ o).items.filter fun entry =>
      entry.1.major = major).map Prod.snd) =
      ((deque.items.filter fun entry => entry.1.major = major).map Prod.snd) ++
        if priority = major then [o] else [] := by
  have unused : ∀ entry ∈ deque.items, entry.1 ≠ ⟨priority, seq⟩ := by
    rintro ⟨key, other⟩ mem same
    have before := fresh _ mem
    rw [same] at before
    exact Nat.lt_irrefl _ before
  have placed : (deque.insert ⟨priority, seq⟩ o).items.filter _ = _ :=
    sorted.insert_filter unused (fun key => decide (key.major = major)) (by
      intro same entry mem here
      rw [decide_eq_true_eq] at same here
      exact (Key.lt_iff _ _).mpr (Or.inr ⟨here.trans same.symm, fresh _ mem⟩))
  rw [placed, List.map_append]
  by_cases same : priority = major
  · rw [if_pos (decide_eq_true same), if_pos same]
    rfl
  · rw [if_neg (by simpa using same), if_neg same]
    rfl

/-! ## The run of the loop -/

/-- What has been built of the records so far. -/
structure Built
    (b : Builder)
    (s : SchedRec)
    (done : List TaskRec)
    (vm : Vm) : Prop where
  tick : vm.tick = restoredTick s
  wakeup : vm.wakeupTick = (s.wakeup.map (deadline s)).getD NO_WAKEUP
  data : ∀ o t, recordOf b done o = some t →
    ∃ data, vm.tasks o = some data ∧ Restores s t data
  fresh : ∀ q, ∀ entry ∈ (vm.line.queues q).items, entry.1.seq < vm.line.seq
  sorted : ∀ q, (vm.line.queues q).Sorted
  ordered : ∀ q major, inQueue vm q major = queueOf b done q major

theorem recordOf_append
    (b : Builder)
    (done : List TaskRec)
    (t : TaskRec)
    (o : ObjId) :
    recordOf b (done ++ [t]) o =
      if (b.obj t.obj).toOption = some o then some t else recordOf b done o := by
  rw [recordOf, List.reverse_append, List.reverse_singleton,
    List.singleton_append, List.find?_cons]
  split
  case h_1 here => rw [if_pos (of_decide_eq_true here)]
  case h_2 there =>
    rw [if_neg (of_decide_eq_false there)]
    rfl

variable
  {b : Builder}
  {s : SchedRec}
  {vm vm' : Vm}

/-- One record more is built. -/
theorem Built.step
    (built : Built b s done vm)
    (next : buildTask b s vm i t = .ok vm') : Built b s (done ++ [t]) vm' := by
  obtain ⟨o, data, object, restores, rfl⟩ := buildTask_ok next
  have option : (b.obj t.obj).toOption = some o := by
    rw [object]
    rfl
  have held : (setTask vm o data).tasks o = some data :=
    Function.update_self ..
  have recorded : ∀ o' t', recordOf b (done ++ [t]) o' = some t' →
      ∃ data', (setTask vm o data).tasks o' = some data' ∧
        Restores s t' data' := by
    intro o' t' stands
    rw [recordOf_append, option] at stands
    by_cases same : o' = o
    · subst same
      rw [if_pos rfl, Option.some.injEq] at stands
      rw [← stands]
      exact ⟨data, held, restores⟩
    · rw [if_neg fun is => same (Option.some.inj is).symm] at stands
      have other : (setTask vm o data).tasks o' = vm.tasks o' :=
        Function.update_of_ne same ..
      rw [other]
      exact built.data o' t' stands
  by_cases main : t.queue = 255
  · rw [if_pos main]
    refine ⟨built.tick, built.wakeup, recorded, built.fresh, built.sorted, ?_⟩
    intro q major
    change inQueue vm q major = _
    rw [built.ordered, queueOf, queueOf, List.filterMap_append,
      List.filterMap_cons, if_neg fun both => both.1 main,
      List.filterMap_nil, List.append_nil]
  · rw [if_neg main]
    have effect := @TaskQueues.qInsert_queues _ vm.tick
      (setTask vm o data).line _ _ held
    have queues : ((setTask vm o data).qInsert o).line.queues =
        Function.update vm.line.queues (qOf data.status)
          ((vm.line.queues (qOf data.status)).insert
            (vm.line.keyOf data) o) := effect.1
    have seq : ((setTask vm o data).qInsert o).line.seq = vm.line.seq + 1 :=
      effect.2
    have key : vm.line.keyOf data = ⟨majorOf t, vm.line.seq⟩ := by
      rw [TaskQueues.keyOf, majorOf, restores.status, restores.priority]
    have unused : ∀ q, ∀ entry ∈ (vm.line.queues q).items,
        entry.1 ≠ vm.line.keyOf data := by
      intro q entry mem same
      have before := built.fresh q entry mem
      rw [same, key] at before
      exact Nat.lt_irrefl _ before
    refine ⟨built.tick, built.wakeup, recorded, ?_, ?_, ?_⟩
    · intro q entry mem
      rw [seq]
      rw [queues] at mem
      by_cases here : q = qOf data.status
      · subst here
        rw [Function.update_self,
          (built.sorted _).mem_insert (unused _)] at mem
        rcases mem with rfl | mem
        · rw [key]
          exact Nat.lt_succ_self _
        · exact Nat.lt_succ_of_lt (built.fresh _ entry mem)
      · rw [Function.update_of_ne here] at mem
        exact Nat.lt_succ_of_lt (built.fresh q entry mem)
    · intro q
      rw [queues]
      by_cases here : q = qOf data.status
      · subst here
        rw [Function.update_self]
        exact (built.sorted _).insert (unused _)
      · rw [Function.update_of_ne here]
        exact built.sorted q
    · intro q major
      rw [queueOf, List.filterMap_append, List.filterMap_cons,
        List.filterMap_nil, option, inQueue, queues]
      have before := built.ordered q major
      rw [inQueue, queueOf] at before
      by_cases here : q = qOf data.status
      · subst here
        rw [Function.update_self, key,
          insert_last (built.sorted _) (built.fresh _), before]
        by_cases same : majorOf t = major
        · rw [if_pos same, if_pos ⟨main, by rw [restores.status], same⟩]
        · rw [if_neg same, if_neg fun all => same all.2.2]
      · rw [Function.update_of_ne here, before, if_neg, List.append_nil]
        rintro ⟨-, is, -⟩
        rw [restores.status] at here
        exact here is.symm

/-- The whole loop builds all the records. -/
theorem Built.run
    (built : Built b s done vm)
    (ran : buildEach b s i rest vm = .ok vm') :
    Built b s (done ++ rest) vm' := by
  induction rest generalizing done vm i with
  | nil =>
      rw [buildEach, Except.ok.injEq] at ran
      rw [← ran, List.append_nil]
      exact built
  | cons t rest ih =>
      rw [buildEach] at ran
      cases next : buildTask b s vm i t with
      | error why =>
          rw [next] at ran
          cases ran
      | ok mid =>
          rw [next] at ran
          have more := ih (built.step next) ran
          rwa [List.append_assoc, List.singleton_append] at more

/-- Everything the image records of its tasks is in the scheduler. -/
theorem buildTasks_built
    (idle : ∀ q, (vm.line.queues q).items = [])
    (done : buildTasks b s vm = .ok vm') : Built b s s.tasks vm' := by
  have start : Built b s [] (setClock s vm) := by
    refine ⟨rfl, rfl, ?_, ?_, ?_, ?_⟩
    · intro o t stands
      cases stands
    · intro q entry mem
      change entry ∈ (vm.line.queues q).items at mem
      rw [idle] at mem
      cases mem
    · intro q
      change (vm.line.queues q).items.Pairwise _
      rw [idle]
      exact List.Pairwise.nil
    · intro q major
      change ((vm.line.queues q).items.filter _).map _ = _
      rw [idle]
      rfl
  exact start.run done

end Checkpoint
end SabiRuby
