import SabiRuby.Tasks.Placement

/-!
# What the indexes do not change

Two schedulers are alike when their queues hold the same tasks in the same
order.  Keeping the indexes, building them and dropping them leaves a scheduler
alike, and a task that leaves or enters a queue does so alike in both.
-/

namespace SabiRuby.Tasks

open Library

namespace TaskQueues

/-- The same queues, with the same keys in the places of the tasks. -/
structure Alike (first second : TaskQueues) : Prop where
  queues : first.queues = second.queues
  seq : first.seq = second.seq
  queued : ∀ o, (first.places o).queued = (second.places o).queued

namespace Alike

variable {first second third : TaskQueues}

theorem refl (line : TaskQueues) : line.Alike line :=
  ⟨rfl, rfl, fun _ => rfl⟩

theorem symm (alike : first.Alike second) : second.Alike first :=
  ⟨alike.queues.symm, alike.seq.symm, fun o => (alike.queued o).symm⟩

theorem trans
    (left : first.Alike second)
    (right : second.Alike third) : first.Alike third :=
  ⟨left.queues.trans right.queues, left.seq.trans right.seq,
    fun o => (left.queued o).trans (right.queued o)⟩

theorem isQueued
    (alike : first.Alike second)
    (o : ObjId) : first.isQueued o = second.isQueued o := by
  unfold TaskQueues.isQueued
  rw [alike.queued o]

theorem waiting (alike : first.Alike second) :
    first.waiting = second.waiting :=
  congrFun alike.queues _

end Alike

variable {line : TaskQueues}
variable {tasks : ObjId → Option TaskData} {tick : UInt32}

theorem isQueued_iff (o : ObjId) :
    line.isQueued o ↔ (line.places o).q ≠ none := by
  unfold isQueued TaskPlace.queued
  cases (line.places o).q <;> simp

theorem queued_set
    (entry : QueueIndex × Key)
    (deadline : Option Nat)
    (target : Option ObjId) :
    (TaskPlace.set entry.1 entry.2 deadline target).queued = some entry := rfl

theorem alike_indexOne
    (queued : (line.places o).queued = some entry)
    (seq : Nat)
    (t : TaskData) :
    (line.indexOne tick o seq t entry).Alike line := by
  refine ⟨(indexOne_queues o seq t entry).1,
    (indexOne_queues o seq t entry).2.1, fun other => ?_⟩
  rw [indexOne_places]
  by_cases equal : other = o
  · rw [equal, Function.update_self, queued_set, queued]
  · rw [Function.update_of_ne equal]

theorem alike_indexEntries
    (line : TaskQueues)
    (entries : List (Key × ObjId))
    (queued : ∀ entry ∈ entries,
      (line.places entry.2).queued ≠ none) :
    (entries.foldl (indexEntry tasks tick) line).Alike line := by
  induction entries generalizing line with
  | nil => exact .refl line
  | cons entry rest ih =>
      have step : (line.indexEntry tasks tick entry).Alike line := by
        unfold indexEntry
        cases tasks entry.2 with
        | none => exact .refl line
        | some t =>
            obtain ⟨held, here⟩ := Option.ne_none_iff_exists'.mp
              (queued entry (List.mem_cons_self ..))
            rw [here]
            exact alike_indexOne here _ t
      rw [List.foldl_cons]
      refine (ih _ fun later member => ?_).trans step
      rw [step.queued]
      exact queued later (List.mem_cons_of_mem _ member)

theorem Recorded.alike_buildIndex
    (recorded : line.Recorded) :
    (line.buildIndex tasks tick).Alike line := by
  unfold TaskQueues.buildIndex
  refine (alike_indexEntries { line with indexed := true } _
    fun entry member => ?_).trans ⟨rfl, rfl, fun _ => rfl⟩
  rw [show ({ line with indexed := true } : TaskQueues).places = line.places
    from rfl, recorded.of_mem_queue member]
  exact Option.some_ne_none _

theorem alike_unindexWaiting : line.unindexWaiting.Alike line := by
  unfold unindexWaiting
  split
  · rw [unindexEntries]
    refine ⟨rfl, rfl, fun o => ?_⟩
    dsimp only
    split <;> rfl
  · exact .refl line

theorem alike_unindexIfEmpty : line.unindexIfEmpty.Alike line := by
  unfold unindexIfEmpty
  split <;> exact ⟨rfl, rfl, fun _ => rfl⟩

theorem Recorded.alike_setIndexFrom
    (recorded : line.Recorded)
    (n : Nat) : (line.setIndexFrom tasks tick n).Alike line := by
  have changed : ({ line with indexFrom := n } : TaskQueues).Alike line :=
    ⟨rfl, rfl, fun _ => rfl⟩
  unfold TaskQueues.setIndexFrom TaskQueues.indexWaiting
  dsimp only
  split
  · split
    · exact changed
    · exact (recorded.withClock line.indexed n line.tickAbs
        line.tickSeen).alike_buildIndex.trans changed
  · exact alike_unindexWaiting.trans changed

theorem alike_qDelete (o : ObjId) :
    (line.qDelete o).Alike (line.withdraw o) := by
  unfold qDelete
  split
  · exact alike_unindexIfEmpty
  · exact .refl _

theorem Alike.withdraw
    {first second : TaskQueues}
    (alike : first.Alike second)
    (o : ObjId) : (first.withdraw o).Alike (second.withdraw o) := by
  refine ⟨?_, alike.seq, fun other => ?_⟩
  · simp only [TaskQueues.withdraw, alike.queued o, alike.queues]
  · simp only [TaskQueues.withdraw]
    by_cases same : other = o
    · rw [same, Function.update_self, Function.update_self]
    · rw [Function.update_of_ne same, Function.update_of_ne same]
      exact alike.queued other

theorem Alike.qDelete
    {first second : TaskQueues}
    (alike : first.Alike second)
    (o : ObjId) : (first.qDelete o).Alike (second.qDelete o) :=
  (alike_qDelete o).trans ((alike.withdraw o).trans (alike_qDelete o).symm)

/-- Puts a task at the end of its queue, in no index. -/
def enter (line : TaskQueues) (o : ObjId) (t : TaskData) : TaskQueues :=
  (line.enqueue o t).setPlace o
    (.set (qOf t.status) (line.keyOf t) none none)

theorem Recorded.alike_qInsert
    (recorded : line.Recorded)
    (tasks : ObjId → Option TaskData)
    (tick : UInt32)
    (out : (line.places o).q = none)
    (held : tasks o = some t) :
    (line.qInsert tasks tick o).Alike (line.enter o t) := by
  have entered := recorded.enter out t
  unfold TaskQueues.qInsert
  rw [held]
  dsimp only
  split
  · split
    · rw [← indexOne_setPlace (.set (qOf t.status) (line.keyOf t) none none)]
      exact alike_indexOne (by rw [setPlace_self]; rfl) _ t
    · split
      · exact entered.alike_buildIndex
      · exact .refl _
  · exact .refl _

theorem Alike.enter
    {first second : TaskQueues}
    (alike : first.Alike second)
    (o : ObjId)
    (t : TaskData) : (first.enter o t).Alike (second.enter o t) := by
  have key : first.keyOf t = second.keyOf t := by
    unfold keyOf
    rw [alike.seq]
  refine ⟨?_, ?_, fun other => ?_⟩
  · simp only [TaskQueues.enter, setPlace, enqueue, key, alike.queues]
  · exact congrArg (· + 1) alike.seq
  · by_cases same : other = o
    · rw [same]
      simp only [TaskQueues.enter, setPlace_self, key]
    · simp only [TaskQueues.enter, setPlace_of_ne _ same]
      exact alike.queued other

end TaskQueues

end SabiRuby.Tasks
