import Mathlib.Logic.Function.Basic
import SabiRuby.Tasks.Methods

/-!
# Where a task stands

The queues and the indexes hold what the places of the tasks record, and the
place of a task is the one its fields call for.  The first half is kept by every
operation on the queues; the second holds of every task that is not on its way
from one place to another.
-/

namespace SabiRuby.Tasks

open Library Function

/-- The key a place records in a queue. -/
def TaskPlace.keyIn (q : QueueIndex) (place : TaskPlace) : Option Key :=
  if place.q = some q then some ⟨place.qpri, place.seq⟩ else none

namespace TaskPlace

theorem queued_eq_some_iff (place : TaskPlace) (q : QueueIndex) (key : Key) :
    place.queued = some (q, key) ↔
      place.q = some q ∧ key = ⟨place.qpri, place.seq⟩ := by
  unfold queued
  cases place.q with
  | none => simp
  | some other => simp [eq_comm]

theorem keyIn_eq_some_iff (place : TaskPlace) (q : QueueIndex) (key : Key) :
    place.keyIn q = some key ↔ place.queued = some (q, key) := by
  rw [queued_eq_some_iff]
  unfold keyIn
  split
  · rename_i here
    simp [here, eq_comm]
  · rename_i elsewhere
    simp [elsewhere]

theorem keyIn_seq
    {place : TaskPlace} {q : QueueIndex} {key : Key}
    (held : place.keyIn q = some key) : key.seq = place.seq := by
  unfold keyIn at held
  split at held
  · cases held
    rfl
  · cases held

theorem sleepKey_seq
    {place : TaskPlace} {key : Key}
    (held : place.sleepKey = some key) : key.seq = place.seq := by
  unfold sleepKey at held
  cases deadline : place.deadline with
  | none => simp [deadline] at held
  | some d =>
      rw [deadline] at held
      cases held
      rfl

theorem waitKey_seq
    {place : TaskPlace} {key : Key}
    (held : place.waitKey = some key) : key.seq = place.seq := by
  unfold waitKey at held
  cases target : place.target with
  | none => simp [target] at held
  | some d =>
      rw [target] at held
      cases held
      rfl

/-- A place is in no index unless it is in a queue. -/
def Clear (place : TaskPlace) : Prop :=
  place.q = none → place.deadline = none ∧ place.target = none

end TaskPlace

namespace TaskQueues

/-- The queues and the indexes hold what the places record. -/
structure Recorded (line : TaskQueues) : Prop where
  queues : ∀ q, (line.queues q).Keyed fun o => (line.places o).keyIn q
  sleepers : line.sleepers.Keyed fun o => (line.places o).sleepKey
  waiters : line.waiters.Keyed fun o => (line.places o).waitKey
  before : ∀ o, (line.places o).q ≠ none → (line.places o).seq < line.seq
  apart : ∀ o other, (line.places o).q ≠ none →
    (line.places other).q ≠ none →
      (line.places o).seq = (line.places other).seq → o = other
  clear : ∀ o, (line.places o).Clear

/-- A task that is in a queue is where its fields call for: in the queue of its
status under its priority, and in the indexes, where they are kept, exactly if
it waits and has a deadline or waits for an object. -/
def Tidy
    (line : TaskQueues)
    (tasks : ObjId → Option TaskData)
    (o : ObjId) : Prop :=
  ∀ q, (line.places o).q = some q →
    ∃ t, tasks o = some t ∧
      q = qOf t.status ∧
      (line.places o).qpri = (if q = .ready then t.priority else 0) ∧
      ((line.places o).deadline.isSome ↔
        line.indexed ∧ q = .waiting ∧ t.hasDeadline) ∧
      (line.places o).target =
        (if line.indexed ∧ q = .waiting then t.target else none)

variable {line : TaskQueues}
variable {tasks : ObjId → Option TaskData} {tick : UInt32}

theorem recorded_initial (indexFrom : Nat) :
    (TaskQueues.initial indexFrom).Recorded where
  queues _ := SortedDeque.keyed_empty
  sleepers := SortedDeque.keyed_empty
  waiters := SortedDeque.keyed_empty
  before _ queued := absurd rfl queued
  apart _ _ queued := absurd rfl queued
  clear _ _ := ⟨rfl, rfl⟩

/-- Where a task belongs depends on its own fields only. -/
theorem tidy_congr
    (same : tasks' o = tasks o) : line.Tidy tasks' o ↔ line.Tidy tasks o := by
  unfold Tidy
  rw [same]

theorem tidy_of_not_queued
    (out : (line.places o).q = none) : line.Tidy tasks o := by
  intro q queued
  rw [out] at queued
  cases queued

@[simp] theorem setPlace_self (o : ObjId) (place : TaskPlace) :
    (line.setPlace o place).places o = place :=
  update_self ..

theorem setPlace_of_ne
    (place : TaskPlace)
    (differs : other ≠ o) :
    (line.setPlace o place).places other = line.places other :=
  update_of_ne differs ..

/-- A key of a table of places changes with the place. -/
theorem update_places
    (read : TaskPlace → Answer)
    (o : ObjId)
    (place : TaskPlace) :
    (fun other => read (update line.places o place other)) =
      update (fun other => read (line.places other)) o (read place) :=
  comp_update read line.places o place

/-- A place that answers the same for a key keeps what the key sorts. -/
theorem keyed_update_same
    (line : TaskQueues)
    (o : ObjId)
    (place : TaskPlace)
    {deque : SortedDeque Key ObjId}
    (read : TaskPlace → Option Key)
    (keyed : deque.Keyed fun o => read (line.places o))
    (same : read place = read (line.places o)) :
    deque.Keyed fun other =>
      read (update line.places o place other) := by
  rw [update_places, same]
  apply keyed.congr
  intro other
  by_cases equal : other = o
  · rw [equal, update_self]
  · rw [update_of_ne equal]

/-! ## Leaving the queues -/

section

variable (recorded : line.Recorded)
include recorded

theorem Recorded.withdraw
    (o : ObjId) : (line.withdraw o).Recorded where
  queues q := by
    rw [show (line.withdraw o).places = update line.places o .NONE
      from rfl]
    simp only [TaskQueues.withdraw]
    cases queued : (line.places o).queued with
    | none =>
        refine keyed_update_same line o .NONE (TaskPlace.keyIn q)
          (recorded.queues q) ?_
        cases answer : (line.places o).keyIn q with
        | none => rfl
        | some key =>
            rw [TaskPlace.keyIn_eq_some_iff, queued] at answer
            cases answer
    | some entry =>
        obtain ⟨held, key⟩ := entry
        dsimp only
        by_cases same : q = held
        · subst same
          rw [update_self, update_places (TaskPlace.keyIn q)]
          exact (recorded.queues q).remove
            (((line.places o).keyIn_eq_some_iff q key).mpr queued)
        · rw [update_of_ne same]
          refine keyed_update_same line o .NONE (TaskPlace.keyIn q)
            (recorded.queues q) ?_
          have inside := (((line.places o).queued_eq_some_iff _ _).mp queued).1
          simp [TaskPlace.keyIn, inside, Ne.symm same, TaskPlace.NONE]
  sleepers := by
    simp only [TaskQueues.withdraw]
    cases held : (line.places o).sleepKey with
    | none => exact keyed_update_same line o .NONE _ recorded.sleepers held.symm
    | some key =>
        rw [update_places TaskPlace.sleepKey]
        exact recorded.sleepers.remove held
  waiters := by
    simp only [TaskQueues.withdraw]
    cases held : (line.places o).waitKey with
    | none => exact keyed_update_same line o .NONE _ recorded.waiters held.symm
    | some key =>
        rw [update_places TaskPlace.waitKey]
        exact recorded.waiters.remove held
  before other queued := by
    simp only [TaskQueues.withdraw] at queued ⊢
    by_cases same : other = o
    · rw [same, update_self] at queued
      exact absurd rfl queued
    · rw [update_of_ne same] at queued ⊢
      exact recorded.before other queued
  apart first second firstQueued secondQueued same := by
    simp only [TaskQueues.withdraw] at firstQueued secondQueued same
    by_cases firstSame : first = o
    · rw [firstSame, update_self] at firstQueued
      exact absurd rfl firstQueued
    · by_cases secondSame : second = o
      · rw [secondSame, update_self] at secondQueued
        exact absurd rfl secondQueued
      · rw [update_of_ne firstSame] at firstQueued same
        rw [update_of_ne secondSame] at secondQueued same
        exact recorded.apart first second firstQueued secondQueued same
  clear other := by
    simp only [TaskQueues.withdraw]
    by_cases same : other = o
    · rw [same, update_self]
      exact fun _ => ⟨rfl, rfl⟩
    · rw [update_of_ne same]
      exact recorded.clear other

/-- The places decide what is recorded; whether the indexes are kept and the
clock are of no account. -/
theorem Recorded.withClock
    (indexed : Bool)
    (indexFrom tickAbs : Nat)
    (tickSeen : UInt32) :
    { line with
      indexed := indexed
      indexFrom := indexFrom
      tickAbs := tickAbs
      tickSeen := tickSeen }.Recorded :=
  ⟨recorded.queues, recorded.sleepers, recorded.waiters, recorded.before,
    recorded.apart, recorded.clear⟩

/-- A task in the waiting queue is an entry of it. -/
theorem Recorded.mem_queue
    (queued : (line.places o).q = some q) :
    (⟨(line.places o).qpri, (line.places o).seq⟩, o) ∈
      (line.queues q).items :=
  ((recorded.queues q).mem_iff _ _).mpr (if_pos queued)

theorem Recorded.of_mem_queue
    (member : entry ∈ (line.queues q).items) :
    (line.places entry.2).queued = some (q, entry.1) :=
  ((line.places entry.2).keyIn_eq_some_iff q entry.1).mp
    (((recorded.queues q).mem_iff entry.1 entry.2).mp member)

theorem Recorded.unindexIfEmpty : line.unindexIfEmpty.Recorded := by
  unfold TaskQueues.unindexIfEmpty
  split
  · exact recorded.withClock false line.indexFrom line.tickAbs line.tickSeen
  · exact recorded

theorem Recorded.tidy_unindexIfEmpty
    (tidy : line.Tidy tasks o) : line.unindexIfEmpty.Tidy tasks o := by
  unfold TaskQueues.unindexIfEmpty
  split
  · rename_i empty
    intro q queued
    obtain ⟨t, held, here, priority, deadline, target⟩ := tidy q queued
    have notWaiting : q ≠ .waiting := by
      rintro rfl
      have member := recorded.mem_queue queued
      rw [show line.queues .waiting = line.waiting from rfl,
        empty.2.2] at member
      cases member
    refine ⟨t, held, here, priority, ?_, ?_⟩
    · rw [deadline]
      simp [notWaiting]
    · rw [target]
      simp [notWaiting]
  · exact tidy

theorem Recorded.qDelete
    (o : ObjId) : (line.qDelete o).Recorded := by
  unfold TaskQueues.qDelete
  split
  · exact (recorded.withdraw o).unindexIfEmpty
  · exact recorded.withdraw o

end

@[simp] theorem unindexIfEmpty_places :
    line.unindexIfEmpty.places = line.places := by
  unfold unindexIfEmpty
  split <;> rfl

@[simp] theorem qDelete_places (o : ObjId) :
    (line.qDelete o).places = update line.places o .NONE := by
  unfold qDelete
  split
  · rw [unindexIfEmpty_places]
    rfl
  · rfl

/-- Taking a task out leaves the others where they belong. -/
theorem Recorded.tidy_qDelete
    (recorded : line.Recorded)
    (tasks : ObjId → Option TaskData)
    (tidy : other ≠ o → line.Tidy tasks other) :
    (line.qDelete o).Tidy tasks other := by
  by_cases same : other = o
  · apply tidy_of_not_queued
    rw [qDelete_places, same, update_self]
    rfl
  · have others : (line.withdraw o).Tidy tasks other := by
      intro q queued
      rw [show (line.withdraw o).places other = line.places other from
        update_of_ne same ..] at queued ⊢
      exact tidy same q queued
    unfold TaskQueues.qDelete
    split
    · exact (recorded.withdraw o).tidy_unindexIfEmpty others
    · exact others

/-! ## The indexes -/

/-- The indexes can change as long as the places follow them and stay in their
queues. -/
theorem Recorded.reindex
    (recorded : line.Recorded)
    (sleepers waiters : SortedDeque Key ObjId)
    (places : ObjId → TaskPlace)
    (same : ∀ other,
      (places other).q = (line.places other).q ∧
        (places other).qpri = (line.places other).qpri ∧
        (places other).seq = (line.places other).seq)
    (clear : ∀ other, (places other).Clear)
    (asleep : sleepers.Keyed fun o => (places o).sleepKey)
    (await : waiters.Keyed fun o => (places o).waitKey) :
    { line with
      sleepers := sleepers
      waiters := waiters
      places := places }.Recorded where
  queues q := by
    apply (recorded.queues q).congr
    intro other
    obtain ⟨sameQueue, samePriority, sameSeq⟩ := same other
    simp only [TaskPlace.keyIn, sameQueue, samePriority, sameSeq]
  sleepers := asleep
  waiters := await
  before other queued := by
    simp only [same] at queued ⊢
    exact recorded.before other queued
  apart first second firstQueued secondQueued equal := by
    simp only [same] at firstQueued secondQueued equal
    exact recorded.apart first second firstQueued secondQueued equal
  clear := clear

/-- A place keeps its queue and its key when only its entries in the indexes
change. -/
theorem update_keeps
    (o : ObjId)
    (deadline : Option Nat)
    (target : Option ObjId)
    (other : ObjId) :
    (update line.places o
        { line.places o with deadline := deadline, target := target }
        other).q = (line.places other).q ∧
      (update line.places o
        { line.places o with deadline := deadline, target := target }
        other).qpri = (line.places other).qpri ∧
      (update line.places o
        { line.places o with deadline := deadline, target := target }
        other).seq = (line.places other).seq := by
  by_cases same : other = o
  · subst same
    simp
  · simp [same]

theorem clear_update
    (clear : ∀ other, (line.places other).Clear)
    (cleared : place.Clear)
    (other : ObjId) : (update line.places o place other).Clear := by
  by_cases same : other = o
  · rw [same, update_self]
    exact cleared
  · rw [update_of_ne same]
    exact clear other

/-- A task that waits gets an entry among the sleepers. -/
theorem Recorded.insertSleeper
    (recorded : line.Recorded)
    (queued : (line.places o).q ≠ none)
    (bare : (line.places o).deadline = none)
    (deadline : Nat) :
    { line with
      sleepers := line.sleepers.insert ⟨deadline, (line.places o).seq⟩ o
      places := update line.places o
        { line.places o with deadline := some deadline } }.Recorded := by
  refine recorded.reindex _ _ _
    (update_keeps o (some deadline) (line.places o).target)
    (clear_update recorded.clear fun out => absurd out queued) ?_
    (keyed_update_same line o _ TaskPlace.waitKey recorded.waiters rfl)
  rw [update_places TaskPlace.sleepKey]
  refine recorded.sleepers.insert o (by simp [TaskPlace.sleepKey, bare]) ?_
  intro other held
  have placed : (line.places other).q ≠ none := by
    intro out
    simp [TaskPlace.sleepKey, (recorded.clear other out).1] at held
  have same := recorded.apart other o placed queued
    (TaskPlace.sleepKey_seq held).symm
  rw [same] at held
  simp [TaskPlace.sleepKey, bare] at held

/-- A task that waits gets an entry among those that wait for an object. -/
theorem Recorded.insertWaiter
    (recorded : line.Recorded)
    (queued : (line.places o).q ≠ none)
    (bare : (line.places o).target = none)
    (target : ObjId) :
    { line with
      waiters := line.waiters.insert ⟨target.index, (line.places o).seq⟩ o
      places := update line.places o
        { line.places o with target := some target } }.Recorded := by
  refine recorded.reindex _ _ _
    (update_keeps o (line.places o).deadline (some target))
    (clear_update recorded.clear fun out => absurd out queued)
    (keyed_update_same line o _ TaskPlace.sleepKey recorded.sleepers rfl) ?_
  rw [update_places TaskPlace.waitKey]
  refine recorded.waiters.insert o (by simp [TaskPlace.waitKey, bare]) ?_
  intro other held
  have placed : (line.places other).q ≠ none := by
    intro out
    simp [TaskPlace.waitKey, (recorded.clear other out).2] at held
  have same := recorded.apart other o placed queued
    (TaskPlace.waitKey_seq held).symm
  rw [same] at held
  simp [TaskPlace.waitKey, bare] at held

/-- The place of a task in no index, from the queue it is in. -/
theorem set_of_queued
    {place : TaskPlace}
    (queued : place.queued = some entry)
    (deadline : Option Nat)
    (target : Option ObjId) :
    TaskPlace.set entry.1 entry.2 deadline target =
      { place with deadline := deadline, target := target } := by
  obtain ⟨inside, key⟩ := (place.queued_eq_some_iff entry.1 entry.2).mp queued
  simp [TaskPlace.set, inside, key]

/-- What indexing a task does to its place. -/
theorem indexOne_places
    (o : ObjId)
    (seq : Nat)
    (t : TaskData)
    (entry : QueueIndex × Key) :
    (line.indexOne tick o seq t entry).places =
      update line.places o
        (.set entry.1 entry.2
          (line.indexDeadline tick o seq t).1
          ((line.indexDeadline tick o seq t).2.indexTarget o seq t).1) := by
  have first : (line.indexDeadline tick o seq t).2.places = line.places := by
    unfold indexDeadline
    split <;> rfl
  have second (line : TaskQueues) :
      (line.indexTarget o seq t).2.places = line.places := by
    unfold indexTarget
    split <;> rfl
  simp only [indexOne, setPlace, second, first]

theorem indexDeadline_isSome
    (o : ObjId)
    (seq : Nat)
    (t : TaskData) :
    (line.indexDeadline tick o seq t).1.isSome ↔ t.hasDeadline := by
  unfold indexDeadline
  split <;> simp [*]

@[simp] theorem indexTarget_fst
    (o : ObjId)
    (seq : Nat)
    (t : TaskData) : (line.indexTarget o seq t).1 = t.target := by
  unfold indexTarget
  split <;> simp [*]

theorem Recorded.indexOne
    (recorded : line.Recorded)
    {entry : QueueIndex × Key}
    (queued : (line.places o).queued = some entry)
    (bare : (line.places o).deadline = none)
    (free : (line.places o).target = none)
    (t : TaskData) :
    (line.indexOne tick o entry.2.seq t entry).Recorded := by
  obtain ⟨inside, key⟩ :=
    ((line.places o).queued_eq_some_iff entry.1 entry.2).mp queued
  have placed : (line.places o).q ≠ none := by
    rw [inside]
    exact Option.some_ne_none _
  have seqSame : entry.2.seq = (line.places o).seq := by rw [key]
  have clocked := recorded.withClock line.indexed line.indexFrom
    (line.absTick tick).tickAbs tick
  unfold TaskQueues.indexOne indexDeadline absDeadline indexTarget
  rw [seqSame]
  by_cases deadline : t.hasDeadline
  · have slept := clocked.insertSleeper placed bare
      (((line.absTick tick).tickAbs : Int) +
        ahead t.wakeupTick tick).toNat
    simp only [deadline, if_true]
    cases target : t.target with
    | none =>
        simp only [setPlace, set_of_queued queued]
        rw [← free]
        exact slept
    | some x =>
        have both := slept.insertWaiter (o := o) (by simpa using placed)
          (by simpa using free) x
        simp only [update_self, update_idem] at both
        simp only [setPlace, set_of_queued queued]
        exact both
  · simp only [deadline]
    cases target : t.target with
    | none =>
        simp only [setPlace, set_of_queued queued]
        have same : ({ line.places o with
            deadline := none, target := none } : TaskPlace) =
              line.places o := by
          rw [← bare, ← free]
        simp only [Bool.false_eq_true, if_false, same,
          update_eq_self]
        exact recorded
    | some x =>
        have waited := recorded.insertWaiter placed free x
        simp only [setPlace, set_of_queued queued]
        simp only [Bool.false_eq_true, if_false]
        rw [← bare]
        exact waited

@[simp] theorem indexOne_queues
    (o : ObjId)
    (seq : Nat)
    (t : TaskData)
    (entry : QueueIndex × Key) :
    (line.indexOne tick o seq t entry).queues = line.queues ∧
      (line.indexOne tick o seq t entry).seq = line.seq ∧
      (line.indexOne tick o seq t entry).indexed = line.indexed ∧
      (line.indexOne tick o seq t entry).indexFrom = line.indexFrom := by
  unfold indexOne indexDeadline indexTarget
  cases t.hasDeadline <;> cases t.target <;> exact ⟨rfl, rfl, rfl, rfl⟩

/-- Indexing a task leaves the others where they are. -/
theorem tidy_indexOne_of_ne
    (differs : other ≠ o)
    (seq : Nat)
    (t : TaskData)
    (entry : QueueIndex × Key) :
    (line.indexOne tick o seq t entry).Tidy tasks other ↔
      line.Tidy tasks other := by
  unfold Tidy
  rw [indexOne_places, update_of_ne differs,
    (indexOne_queues o seq t entry).2.2.1]

/-- A task is where its fields call for once it is indexed. -/
theorem tidy_indexOne
    (held : tasks o = some t)
    (waiting : qOf t.status = .waiting)
    (indexed : line.indexed)
    (seq : Nat)
    (major : key.major = 0) :
    (line.indexOne tick o seq t (.waiting, key)).Tidy tasks o := by
  intro q queued
  rw [indexOne_places, update_self] at queued ⊢
  rw [(indexOne_queues o seq t (.waiting, key)).2.2.1]
  cases queued
  refine ⟨t, held, waiting.symm, ?_, ?_, ?_⟩
  · simp [TaskPlace.set, major]
  · simp [TaskPlace.set, indexDeadline_isSome, indexed]
  · simp [TaskPlace.set, indexed]

/-- A task in the waiting queue that is in no index. -/
structure Bare
    (line : TaskQueues)
    (tasks : ObjId → Option TaskData)
    (entry : Key × ObjId) : Prop where
  queued : (line.places entry.2).queued = some (.waiting, entry.1)
  major : entry.1.major = 0
  deadline : (line.places entry.2).deadline = none
  target : (line.places entry.2).target = none
  waits : ∃ t, tasks entry.2 = some t ∧ qOf t.status = .waiting

theorem indexEntry_of_bare
    (tick : UInt32)
    (bare : line.Bare tasks entry) :
    ∃ t, tasks entry.2 = some t ∧ qOf t.status = .waiting ∧
      line.indexEntry tasks tick entry =
        line.indexOne tick entry.2 entry.1.seq t (.waiting, entry.1) := by
  obtain ⟨t, held, waiting⟩ := bare.waits
  refine ⟨t, held, waiting, ?_⟩
  unfold indexEntry
  rw [held, bare.queued]
  rfl

section

variable (recorded : line.Recorded)
include recorded

/-- Indexing the waiting tasks one by one. -/
theorem Recorded.indexEntries
    (indexed : line.indexed)
    (entries : List (Key × ObjId))
    (distinct : (entries.map Prod.snd).Nodup)
    (bare : ∀ entry ∈ entries, line.Bare tasks entry)
    (tidy : ∀ o, o ∉ entries.map Prod.snd → line.Tidy tasks o) :
    (entries.foldl (indexEntry tasks tick) line).Recorded ∧
      ∀ o, (entries.foldl (indexEntry tasks tick) line).Tidy tasks o := by
  induction entries generalizing line with
  | nil => exact ⟨recorded, fun o => tidy o (by simp)⟩
  | cons entry rest ih =>
      have here := bare entry (List.mem_cons_self ..)
      obtain ⟨t, held, waiting, step⟩ :=
        indexEntry_of_bare tick here
      have next : (line.indexOne tick entry.2 entry.1.seq t
          (.waiting, entry.1)).Recorded :=
        recorded.indexOne here.queued here.deadline here.target t
      rw [List.map_cons, List.nodup_cons] at distinct
      rw [List.foldl_cons, step]
      have others : ∀ o, o ≠ entry.2 →
          (line.indexOne tick entry.2 entry.1.seq t
            (.waiting, entry.1)).places o = line.places o := by
        intro o differs
        rw [indexOne_places, update_of_ne differs]
      refine ih next ?_ distinct.2 ?_ ?_
      · rw [(indexOne_queues entry.2 entry.1.seq t _).2.2.1]
        exact indexed
      · intro later member
        have differs : later.2 ≠ entry.2 := by
          intro same
          exact distinct.1 (same ▸ List.mem_map_of_mem member)
        have laterBare := bare later (List.mem_cons_of_mem _ member)
        exact
          { queued := by rw [others _ differs]; exact laterBare.queued
            major := laterBare.major
            deadline := by rw [others _ differs]; exact laterBare.deadline
            target := by rw [others _ differs]; exact laterBare.target
            waits := laterBare.waits }
      · intro o out
        by_cases same : o = entry.2
        · rw [same]
          exact tidy_indexOne held waiting indexed _ here.major
        · refine (tidy_indexOne_of_ne same _ _ _).mpr (tidy o ?_)
          simp only [List.map_cons, List.mem_cons, not_or]
          exact ⟨same, out⟩

/-- The entries of a queue are of different tasks. -/
theorem Recorded.entries_nodup
    (q : QueueIndex) : ((line.queues q).items.map Prod.snd).Nodup := by
  rw [List.nodup_map_iff_inj_on]
  · intro first firstMember second secondMember same
    exact (recorded.queues q).value_injective firstMember secondMember same
  · exact (recorded.queues q).sorted.imp fun less => by
      rintro rfl
      exact lt_irrefl _ less

/-- A task whose place is the waiting queue is there with its fields. -/
theorem Recorded.bare_of_tidy
    (tidy : ∀ o, line.Tidy tasks o)
    (walked : line.indexed = false)
    (member : entry ∈ line.waiting.items) :
    line.Bare tasks entry := by
  have queued := recorded.of_mem_queue member
  obtain ⟨inside, key⟩ := ((line.places entry.2).queued_eq_some_iff _ _).mp
    queued
  obtain ⟨t, held, here, priority, deadline, target⟩ :=
    tidy entry.2 .waiting inside
  refine ⟨queued, ?_, ?_, ?_, t, held, here.symm⟩
  · rw [key]
    simpa using priority
  · rw [walked] at deadline
    simpa using deadline
  · rw [walked] at target
    simpa using target

theorem Recorded.buildIndex
    (tidy : ∀ o, line.Tidy tasks o)
    (walked : line.indexed = false) :
    (line.buildIndex tasks tick).Recorded ∧
      ∀ o, (line.buildIndex tasks tick).Tidy tasks o := by
  unfold TaskQueues.buildIndex
  refine (recorded.withClock true line.indexFrom line.tickAbs
    line.tickSeen).indexEntries rfl _ (recorded.entries_nodup .waiting) ?_ ?_
  · intro entry member
    have bare := recorded.bare_of_tidy tidy walked member
    exact ⟨bare.queued, bare.major, bare.deadline, bare.target, bare.waits⟩
  · intro o out q queued
    obtain ⟨t, held, here, priority, deadline, target⟩ := tidy o q queued
    have notWaiting : q ≠ .waiting := by
      rintro rfl
      exact out (List.mem_map.mpr ⟨_, recorded.mem_queue queued, rfl⟩)
    refine ⟨t, held, here, priority, ?_, ?_⟩
    · rw [deadline]
      simp [notWaiting]
    · rw [target]
      simp [notWaiting]

theorem Recorded.indexWaiting
    (tidy : ∀ o, line.Tidy tasks o) :
    (line.indexWaiting tasks tick).Recorded ∧
      ∀ o, (line.indexWaiting tasks tick).Tidy tasks o := by
  unfold TaskQueues.indexWaiting
  cases indexed : line.indexed with
  | true => exact ⟨recorded, tidy⟩
  | false => exact recorded.buildIndex tidy indexed

end

/-- What dropping the indexes does to the places. -/
theorem unindexEntries
    (entries : List (Key × ObjId)) :
    entries.foldl unindexEntry line =
      { line with
        places := fun o =>
          if o ∈ entries.map Prod.snd then (line.places o).unindex
          else line.places o } := by
  induction entries generalizing line with
  | nil => simp
  | cons entry rest ih =>
      rw [List.foldl_cons, ih]
      simp only [unindexEntry, setPlace, TaskQueues.mk.injEq, true_and]
      funext o
      by_cases same : o = entry.2
      · subst same
        simp [TaskPlace.unindex]
      · simp only [update_of_ne same, List.map_cons, List.mem_cons,
          same, false_or]

section

variable (recorded : line.Recorded)
include recorded

/-- A task outside the waiting queue is in no index. -/
theorem Recorded.unindexed
    (tidy : line.Tidy tasks o)
    (elsewhere : (line.places o).q ≠ some .waiting) :
    (line.places o).deadline = none ∧ (line.places o).target = none := by
  cases queued : (line.places o).q with
  | none => exact recorded.clear o queued
  | some q =>
      obtain ⟨t, _, _, _, deadline, target⟩ := tidy q queued
      have notWaiting : q ≠ .waiting := by
        rintro rfl
        exact elsewhere queued
      simp only [notWaiting, and_false, false_and, iff_false,
        Option.not_isSome_iff_eq_none] at deadline
      simp only [notWaiting, and_false, if_false] at target
      exact ⟨deadline, target⟩

theorem Recorded.unindexWaiting
    (tidy : ∀ o, line.Tidy tasks o) :
    line.unindexWaiting.Recorded ∧
      ∀ o, line.unindexWaiting.Tidy tasks o := by
  unfold TaskQueues.unindexWaiting
  split
  · rw [unindexEntries]
    have away : ∀ o,
        (if o ∈ line.waiting.items.map Prod.snd then (line.places o).unindex
          else line.places o) = (line.places o).unindex := by
      intro o
      split
      · rfl
      · rename_i out
        have none := recorded.unindexed (tidy o) (by
          intro queued
          exact out (List.mem_map.mpr ⟨_, recorded.mem_queue queued, rfl⟩))
        cases place : line.places o with
        | mk seq deadline target q qpri =>
            rw [place] at none
            obtain ⟨rfl, rfl⟩ := none
            rfl
    simp only [away]
    constructor
    · exact (recorded.reindex ⟨[]⟩ ⟨[]⟩
        (fun o => (line.places o).unindex)
        (fun o => ⟨rfl, rfl, rfl⟩) (fun o _ => ⟨rfl, rfl⟩)
        SortedDeque.keyed_empty SortedDeque.keyed_empty).withClock false
          line.indexFrom line.tickAbs line.tickSeen
    · intro o q queued
      obtain ⟨t, held, here, priority, _, _⟩ := tidy o q queued
      exact ⟨t, held, here, priority, by simp [TaskPlace.unindex],
        by simp [TaskPlace.unindex]⟩
  · exact ⟨recorded, tidy⟩

theorem Recorded.setIndexFrom
    (tidy : ∀ o, line.Tidy tasks o)
    (n : Nat) :
    (line.setIndexFrom tasks tick n).Recorded ∧
      ∀ o, (line.setIndexFrom tasks tick n).Tidy tasks o := by
  have changed := recorded.withClock line.indexed n line.tickAbs line.tickSeen
  have same : ∀ o, ({ line with indexFrom := n } : TaskQueues).Tidy tasks o :=
    tidy
  unfold TaskQueues.setIndexFrom
  dsimp only
  split
  · exact changed.indexWaiting same
  · exact changed.unindexWaiting same

end

/-! ## Entering a queue -/

/-- A task in no queue can be put at the end of the one its status names. -/
theorem Recorded.enter
    (recorded : line.Recorded)
    (out : (line.places o).q = none)
    (t : TaskData) :
    ((line.enqueue o t).setPlace o
      (.set (qOf t.status) (line.keyOf t) none none)).Recorded where
  queues q := by
    rw [show ((line.enqueue o t).setPlace o
        (.set (qOf t.status) (line.keyOf t) none none)).places =
          update line.places o
            (.set (qOf t.status) (line.keyOf t) none none) from rfl,
      update_places (TaskPlace.keyIn q)]
    have before : ∀ other, (line.places other).keyIn q ≠
        some (line.keyOf t) := by
      intro other held
      have placed : (line.places other).q ≠ none := by
        intro none
        simp [TaskPlace.keyIn, none] at held
      have earlier := recorded.before other placed
      have seqSame := TaskPlace.keyIn_seq held
      simp only [keyOf] at seqSame
      omega
    by_cases here : q = qOf t.status
    · subst here
      have entered := (recorded.queues (qOf t.status)).insert o
        (by simp [TaskPlace.keyIn, out]) before
      simpa [setPlace, enqueue, TaskPlace.keyIn, TaskPlace.set] using entered
    · have kept := keyed_update_same line o
        (.set (qOf t.status) (line.keyOf t) none none)
        (TaskPlace.keyIn q) (recorded.queues q)
        (by simp [TaskPlace.keyIn, TaskPlace.set, out, Ne.symm here])
      rw [update_places (TaskPlace.keyIn q)] at kept
      simpa [setPlace, enqueue, update_of_ne here] using kept
  sleepers := by
    refine keyed_update_same line o _ TaskPlace.sleepKey
      recorded.sleepers ?_
    simp [TaskPlace.sleepKey, TaskPlace.set, (recorded.clear o out).1]
  waiters := by
    refine keyed_update_same line o _ TaskPlace.waitKey
      recorded.waiters ?_
    simp [TaskPlace.waitKey, TaskPlace.set, (recorded.clear o out).2]
  before other queued := by
    by_cases same : other = o
    · subst same
      rw [setPlace_self]
      exact Nat.lt_succ_self _
    · rw [setPlace_of_ne _ same] at queued ⊢
      exact Nat.lt_succ_of_lt (recorded.before other queued)
  apart first second firstQueued secondQueued equal := by
    by_cases firstSame : first = o
    · by_cases secondSame : second = o
      · rw [firstSame, secondSame]
      · rw [firstSame, setPlace_self, setPlace_of_ne _ secondSame] at equal
        rw [setPlace_of_ne _ secondSame] at secondQueued
        have := recorded.before second secondQueued
        simp only [TaskPlace.set, keyOf] at equal
        change line.seq = (line.places second).seq at equal
        omega
    · by_cases secondSame : second = o
      · rw [secondSame, setPlace_self, setPlace_of_ne _ firstSame] at equal
        rw [setPlace_of_ne _ firstSame] at firstQueued
        have := recorded.before first firstQueued
        simp only [TaskPlace.set, keyOf] at equal
        change (line.places first).seq = line.seq at equal
        omega
      · rw [setPlace_of_ne _ firstSame] at firstQueued equal
        rw [setPlace_of_ne _ secondSame] at secondQueued equal
        exact recorded.apart first second firstQueued secondQueued equal
  clear other := clear_update recorded.clear (fun none => by cases none) other

/-- The first write of a place is not seen by indexing. -/
theorem indexOne_setPlace
    (place : TaskPlace)
    (seq : Nat)
    (t : TaskData)
    (entry : QueueIndex × Key) :
    (line.setPlace o place).indexOne tick o seq t entry =
      line.indexOne tick o seq t entry := by
  unfold indexOne indexDeadline indexTarget
  cases t.hasDeadline <;> cases t.target <;>
    simp [setPlace, absDeadline, absTick]

theorem tidy_enqueue_of_ne
    (differs : other ≠ o)
    (place : TaskPlace) :
    ((line.enqueue o t).setPlace o place).Tidy tasks other ↔
      line.Tidy tasks other := by
  unfold Tidy
  rw [setPlace_of_ne _ differs]
  rfl

/-- A task that does not wait enters its queue without touching the indexes. -/
theorem qInsert_of_not_waiting
    (held : tasks o = some t)
    (elsewhere : qOf t.status ≠ .waiting) :
    line.qInsert tasks tick o =
      (line.enqueue o t).setPlace o
        (.set (qOf t.status) (line.keyOf t) none none) := by
  unfold qInsert
  rw [held]
  exact if_neg elsewhere

/-- A task that is not indexed enters its queue where its fields call for. -/
theorem tidy_enter
    (held : tasks o = some t)
    (apart : line.indexed → qOf t.status ≠ .waiting) :
    ((line.enqueue o t).setPlace o
      (.set (qOf t.status) (line.keyOf t) none none)).Tidy tasks o := by
  intro q queued
  rw [setPlace_self] at queued ⊢
  cases queued
  have unindexed : ¬(((line.enqueue o t).setPlace o
      (.set (qOf t.status) (line.keyOf t) none none)).indexed ∧
        qOf t.status = .waiting) :=
    fun both => apart both.1 both.2
  refine ⟨t, held, rfl, by simp [TaskPlace.set, keyOf], ?_, ?_⟩
  · simp only [TaskPlace.set, Option.isSome_none, Bool.false_eq_true,
      false_iff]
    exact fun all => unindexed ⟨all.1, all.2.1⟩
  · rw [if_neg unindexed]
    rfl

/-- A task in no queue ends up where its fields call for. -/
theorem Recorded.qInsert
    (recorded : line.Recorded)
    (tasks : ObjId → Option TaskData)
    (tick : UInt32)
    (out : (line.places o).q = none)
    (held : tasks o = some t)
    (tidy : ∀ other, other ≠ o → line.Tidy tasks other) :
    (line.qInsert tasks tick o).Recorded ∧
      ∀ other, (line.qInsert tasks tick o).Tidy tasks other := by
  have entered := recorded.enter out t
  have others : ∀ other, other ≠ o →
      ((line.enqueue o t).setPlace o
        (.set (qOf t.status) (line.keyOf t) none none)).Tidy tasks other :=
    fun other differs => (tidy_enqueue_of_ne differs _).mpr (tidy other differs)
  by_cases waiting : qOf t.status = .waiting
  · have major : (line.keyOf t).major = 0 := by simp [keyOf, waiting]
    unfold TaskQueues.qInsert
    rw [held]
    dsimp only
    rw [if_pos waiting]
    cases indexed : (line.enqueue o t).indexed with
    | true =>
        rw [if_pos rfl, ← indexOne_setPlace
          (.set (qOf t.status) (line.keyOf t) none none)]
        have queued : (((line.enqueue o t).setPlace o
            (.set (qOf t.status) (line.keyOf t) none none)).places o).queued =
              some (qOf t.status, line.keyOf t) := by
          rw [setPlace_self]
          rfl
        have reindexed := @Recorded.indexOne _ tick o entered _ queued
          (by rw [setPlace_self]; rfl) (by rw [setPlace_self]; rfl) t
        refine ⟨reindexed, ?_⟩
        · intro other
          by_cases same : other = o
          · subst same
            rw [waiting, indexOne_setPlace]
            exact tidy_indexOne held waiting indexed _ major
          · exact (tidy_indexOne_of_ne same _ _ _).mpr (others other same)
    | false =>
        have all : ∀ other,
            ((line.enqueue o t).setPlace o
              (.set (qOf t.status) (line.keyOf t) none none)).Tidy
                tasks other := by
          intro other
          by_cases same : other = o
          · rw [same]
            apply tidy_enter held
            intro kept
            rw [show line.indexed = false from indexed] at kept
            cases kept
          · exact others other same
        rw [if_neg Bool.false_ne_true]
        split
        · exact entered.buildIndex all indexed
        · exact ⟨entered, all⟩
  · rw [qInsert_of_not_waiting held waiting]
    refine ⟨entered, fun other => ?_⟩
    by_cases same : other = o
    · rw [same]
      exact tidy_enter held fun _ => waiting
    · exact others other same

/-! ## The sleepers that are due -/

/-- The first sleeper leaves the index. -/
theorem Recorded.unsleep
    (recorded : line.Recorded)
    (held : (line.places o).sleepKey = some key) :
    (line.unsleep key o).Recorded := by
  refine recorded.reindex (line.sleepers.remove key).2 line.waiters
    (update line.places o (line.places o).unsleep)
    (update_keeps o none (line.places o).target)
    (clear_update recorded.clear fun out =>
      ⟨rfl, (recorded.clear o out).2⟩) ?_
    (keyed_update_same line o _ TaskPlace.waitKey recorded.waiters rfl)
  rw [update_places TaskPlace.sleepKey]
  exact recorded.sleepers.remove held

/-- What taking the due sleepers out of the index does. -/
structure DueTaken
    (line : TaskQueues)
    (now : Nat)
    (due : List (Nat × ObjId))
    (after : TaskQueues) : Prop where
  due_eq : due =
    (line.sleepers.items.takeWhile fun entry => entry.1.major ≤ now).map
      fun entry => (entry.1.seq, entry.2)
  sleepers : after.sleepers.items =
    line.sleepers.items.dropWhile fun entry => entry.1.major ≤ now
  recorded : after.Recorded
  places : ∀ o, after.places o =
    if o ∈ due.map Prod.snd then (line.places o).unsleep else line.places o
  same : after =
    { line with sleepers := after.sleepers, places := after.places }

theorem DueTaken.tidy
    (taken : line.DueTaken now due after)
    (out : o ∉ due.map Prod.snd)
    (tidy : line.Tidy tasks o) : after.Tidy tasks o := by
  have indexed : after.indexed = line.indexed := by rw [taken.same]
  unfold Tidy
  rw [taken.places, if_neg out, indexed]
  exact tidy

theorem Recorded.takeDue
    (recorded : line.Recorded)
    (now fuel : Nat)
    (enough : line.sleepers.items.length ≤ fuel) :
    line.DueTaken now (line.takeDue now fuel).1 (line.takeDue now fuel).2 := by
  induction fuel generalizing line with
  | zero =>
      have empty : line.sleepers.items = [] :=
        List.length_eq_zero_iff.mp (Nat.le_zero.mp enough)
      exact ⟨by simp [TaskQueues.takeDue, empty],
        by simp [TaskQueues.takeDue, empty],
        recorded, by simp [TaskQueues.takeDue], rfl⟩
  | succ fuel ih =>
      cases items : line.sleepers.items with
      | nil =>
          have none : line.sleepers.firstKeyValue = none := by
            simp [SortedDeque.firstKeyValue, items]
          unfold TaskQueues.takeDue
          rw [none]
          exact ⟨by simp [items], by simp [items], recorded, by simp, rfl⟩
      | cons entry rest =>
          obtain ⟨key, o⟩ := entry
          have first : line.sleepers.firstKeyValue = some (key, o) := by
            simp [SortedDeque.firstKeyValue, items]
          unfold TaskQueues.takeDue
          rw [first]
          dsimp only
          by_cases later : now < key.major
          · rw [if_pos later]
            have notDue : ¬key.major ≤ now := by omega
            exact ⟨by simp [items, notDue], by simp [items, notDue], recorded,
              by simp, rfl⟩
          · rw [if_neg later]
            have isDue : key.major ≤ now := by omega
            have member : (key, o) ∈ line.sleepers.items := by simp [items]
            have held := (recorded.sleepers.mem_iff key o).mp member
            have shorter : (line.unsleep key o).sleepers.items = rest := by
              simp [TaskQueues.unsleep, setPlace, SortedDeque.remove, items]
            have taken := ih (recorded.unsleep held)
              (by rw [shorter]; simp [items] at enough; exact enough)
            refine ⟨?_, ?_, taken.recorded, ?_, ?_⟩
            · rw [taken.due_eq, shorter]
              simp [items, isDue]
            · rw [taken.sleepers, shorter]
              simp [items, isDue]
            · intro other
              rw [taken.places]
              by_cases same : other = o
              · have here : (line.unsleep key o).places o =
                    (line.places o).unsleep := setPlace_self ..
                simp only [same, here, List.map_cons, List.mem_cons,
                  true_or, if_true]
                split <;> rfl
              · simp only [TaskQueues.unsleep, setPlace_of_ne _ same,
                  List.map_cons, List.mem_cons, same, false_or]
            · rw [taken.same]
              rfl

end TaskQueues

end SabiRuby.Tasks
