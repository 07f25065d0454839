import Mathlib.Data.List.Perm.Basic
import SabiRuby.Tasks.Places

/-!
# What a wake-up finds

The tasks that wait for an object, in the order they began to wait, are the same
whether they are looked up in the index or found by walking the waiting queue.
-/

namespace SabiRuby.Tasks

open Library

/-- Two lists that ascend by a rank and have the same members are the same. -/
theorem eq_of_ascending
    (rank : Item → Nat)
    {first second : List Item}
    (firstAscends : first.Pairwise fun left right => rank left < rank right)
    (secondAscends : second.Pairwise fun left right => rank left < rank right)
    (same : ∀ item, item ∈ first ↔ item ∈ second) : first = second := by
  have firstDistinct : first.Nodup := firstAscends.imp fun less => by
    rintro rfl
    exact Nat.lt_irrefl _ less
  have secondDistinct : second.Nodup := secondAscends.imp fun less => by
    rintro rfl
    exact Nat.lt_irrefl _ less
  have perm := (List.perm_ext_iff_of_nodup firstDistinct secondDistinct).mpr
    same
  refine perm.eq_of_pairwise ?_ firstAscends secondAscends
  intro left right _ _ less more
  exact absurd less (Nat.lt_asymm more)

namespace TaskQueues

variable {line : TaskQueues}
variable {o target : ObjId}

/-- The tasks of the waiting queue in the order they began to wait. -/
def waitingTasks (line : TaskQueues) : List ObjId :=
  line.waiting.items.map Prod.snd

end TaskQueues

theorem TaskData.waitsFor_iff (t : TaskData) (target : ObjId) :
    t.waitsFor target = true ↔ t.target = some target := by
  unfold waitsFor TaskData.target
  cases t.reason <;> simp

namespace Vm

variable {vm : Vm} {o target : ObjId}

theorem Orderly.waiting_major
    (orderly : vm.Orderly)
    (member : entry ∈ vm.line.waiting.items) : entry.1.major = 0 := by
  have queued := orderly.placed.recorded.of_mem_queue member
  obtain ⟨inside, key⟩ :=
    ((vm.line.places entry.2).queued_eq_some_iff _ _).mp queued
  obtain ⟨t, _, _, priority, _⟩ := orderly.placed.tidy entry.2 _ inside
  rw [key]
  simpa using priority

theorem Orderly.mem_waitingTasks_iff
    (orderly : vm.Orderly)
    (o : ObjId) :
    o ∈ vm.line.waitingTasks ↔
      ∃ t, vm.tasks o = some t ∧ t.status = .waiting := by
  unfold TaskQueues.waitingTasks
  constructor
  · intro member
    obtain ⟨entry, inside, rfl⟩ := List.mem_map.mp member
    have known := orderly.placed.known entry.2 (by
      rw [ne_eq, ← queued_eq_none_iff,
        orderly.placed.recorded.of_mem_queue inside]
      exact Option.some_ne_none _)
    obtain ⟨t, held⟩ := Option.ne_none_iff_exists'.mp known
    have here := (orderly.of_mem_queue held inside).1
    exact ⟨t, held, (qOf_eq_waiting_iff _).mp here.symm⟩
  · rintro ⟨t, held, waits⟩
    have queued := orderly.waiting_queued held waits
    exact List.mem_map.mpr ⟨_, orderly.placed.recorded.mem_queue queued, rfl⟩

/-- The order of the waiting queue is the order in which the tasks came. -/
theorem Orderly.waitingTasks_ascend
    (orderly : vm.Orderly) :
    vm.line.waitingTasks.Pairwise fun first second =>
      (vm.line.places first).seq < (vm.line.places second).seq := by
  unfold TaskQueues.waitingTasks
  rw [List.pairwise_map]
  refine List.Pairwise.imp_of_mem ?_
    (orderly.placed.recorded.queues .waiting).sorted
  intro first second firstMember secondMember less
  have seq : ∀ entry ∈ vm.line.waiting.items,
      entry.1.seq = (vm.line.places entry.2).seq := by
    intro entry member
    have queued := orderly.placed.recorded.of_mem_queue member
    rw [((vm.line.places entry.2).queued_eq_some_iff _ _).mp queued |>.2]
  rw [← seq first firstMember, ← seq second secondMember]
  rcases (Key.lt_iff _ _).mp less with major | ⟨_, later⟩
  · rw [orderly.waiting_major firstMember,
      orderly.waiting_major secondMember] at major
    exact absurd major (Nat.lt_irrefl _)
  · exact later

/-- In a sorted index the entries of an object are those from its first key
on. -/
theorem takeWhile_iterFrom
    {deque : SortedDeque Key ObjId}
    (sorted : deque.Sorted)
    (major : Nat) :
    (deque.iterFrom ⟨major, 0⟩).takeWhile
        (fun entry => entry.1.major = major) =
      deque.items.filter fun entry => entry.1.major = major := by
  rw [sorted.iterFrom_eq]
  unfold SortedDeque.Sorted at sorted
  generalize deque.items = items at sorted ⊢
  induction sorted with
  | nil => rfl
  | cons above sorted ih =>
      rename_i entry rest
      have low : (⟨major, 0⟩ : Key) ≤ entry.1 ↔ major ≤ entry.1.major := by
        rw [Key.le_iff]
        dsimp only
        constructor
        · rintro (less | ⟨same, _⟩) <;> omega
        · intro atMost
          rcases Nat.lt_or_eq_of_le atMost with less | same
          · exact .inl less
          · exact .inr ⟨same, Nat.zero_le _⟩
      rcases Nat.lt_trichotomy entry.1.major major with less | same | more
      · rw [List.filter_cons_of_neg (by simpa [low] using less),
          List.filter_cons_of_neg (by simpa using Nat.ne_of_lt less)]
        exact ih
      · rw [List.filter_cons_of_pos (by simp [low, same]),
          List.takeWhile_cons_of_pos (by simpa using same),
          List.filter_cons_of_pos (by simpa using same), ih]
      · rw [List.filter_cons_of_pos
            (by simpa [low] using Nat.le_of_lt more),
          List.takeWhile_cons_of_neg (by simpa using Nat.ne_of_gt more)]
        refine (List.filter_eq_nil_iff.mpr ?_).symm
        intro later member
        rcases List.mem_cons.mp member with rfl | member
        · simpa using Nat.ne_of_gt more
        · have ascends := above later member
          rcases (Key.lt_iff _ _).mp ascends with less | ⟨equal, _⟩
          · simpa using Nat.ne_of_gt (Nat.lt_trans more less)
          · simpa [← equal] using Nat.ne_of_gt more

/-- What waits for an object, from the index or by a walk. -/
theorem Orderly.waitingFor_eq
    (orderly : vm.Orderly)
    (target : ObjId) :
    vm.line.waitingFor vm.tasks target =
      vm.line.waitingTasks.filter fun o =>
        (vm.tasks o).any fun t => t.waitsFor target := by
  unfold TaskQueues.waitingFor
  split
  · rename_i indexed
    rw [takeWhile_iterFrom orderly.placed.recorded.waiters.sorted]
    have held : ∀ entry ∈ vm.line.waiters.items,
        (vm.line.places entry.2).waitKey = some entry.1 :=
      fun entry member =>
        (orderly.placed.recorded.waiters.mem_iff entry.1 entry.2).mp member
    refine eq_of_ascending (fun o => (vm.line.places o).seq) ?_
      (orderly.waitingTasks_ascend.filter _) ?_
    · rw [List.pairwise_map]
      refine List.Pairwise.imp_of_mem ?_
        (orderly.placed.recorded.waiters.sorted.filter _)
      intro first second firstMember secondMember less
      have firstMajor := of_decide_eq_true (List.mem_filter.mp firstMember).2
      have secondMajor := of_decide_eq_true (List.mem_filter.mp secondMember).2
      rw [← TaskPlace.waitKey_seq (held _ (List.mem_filter.mp firstMember).1),
        ← TaskPlace.waitKey_seq (held _ (List.mem_filter.mp secondMember).1)]
      rcases (Key.lt_iff _ _).mp less with major | ⟨_, later⟩
      · omega
      · exact later
    · intro o
      rw [List.mem_filter, orderly.mem_waitingTasks_iff]
      have found := orderly.mem_waiters_iff indexed o target
      simp only [List.mem_map, List.mem_filter, decide_eq_true_eq]
      constructor
      · rintro ⟨entry, ⟨member, major⟩, rfl⟩
        obtain ⟨t, task, waits, waited⟩ :=
          found.mp ⟨entry.1, major, member⟩
        exact ⟨⟨t, task, waits⟩, by
          rw [task]
          exact (t.waitsFor_iff target).mpr waited⟩
      · rintro ⟨⟨t, task, waits⟩, waited⟩
        rw [task] at waited
        obtain ⟨key, major, member⟩ := found.mpr
          ⟨t, task, waits, (t.waitsFor_iff target).mp waited⟩
        exact ⟨(key, o), ⟨member, major⟩, rfl⟩
  · rfl

/-- The first task that waits for an object, from the index or by a walk. -/
theorem firstWaitingFor_eq (target : ObjId) :
    vm.line.firstWaitingFor vm.tasks target =
      (vm.line.waitingFor vm.tasks target).head? := by
  unfold TaskQueues.firstWaitingFor TaskQueues.waitingFor
  split
  · cases vm.line.waiters.iterFrom ⟨target.index, 0⟩ with
    | nil => rfl
    | cons entry rest =>
        by_cases same : entry.1.major = target.index
        · rw [List.takeWhile_cons_of_pos (by simpa using same)]
          simp [Option.filter, same]
        · rw [List.takeWhile_cons_of_neg (by simpa using same)]
          simp [Option.filter, same]
  · rw [← List.head?_filter]

/-- The tasks that wait for an object. -/
theorem Orderly.mem_waitingFor_iff
    (orderly : vm.Orderly)
    (o target : ObjId) :
    o ∈ vm.line.waitingFor vm.tasks target ↔
      ∃ t, vm.tasks o = some t ∧ t.status = .waiting ∧
        t.target = some target := by
  rw [orderly.waitingFor_eq, List.mem_filter, orderly.mem_waitingTasks_iff]
  constructor
  · rintro ⟨⟨t, held, waits⟩, waited⟩
    rw [held] at waited
    exact ⟨t, held, waits, (t.waitsFor_iff target).mp waited⟩
  · rintro ⟨t, held, waits, waited⟩
    refine ⟨⟨t, held, waits⟩, ?_⟩
    rw [held]
    exact (t.waitsFor_iff target).mpr waited

end Vm

end SabiRuby.Tasks
