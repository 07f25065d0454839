import SabiRuby.Tasks.Changes

/-!
# Deadlines on the clock that does not wrap

The index of the sleepers counts its deadlines on a clock that does not wrap.
They agree with the wrapping deadlines in the fields of the tasks as long as that
clock is brought up to date often enough: before a sleeper enters the index and
whenever the recorded wakeup is reached.
-/

namespace SabiRuby.Tasks

open Library

/-- A deadline that lies ahead, or one tick back where it was moved off the
largest count. -/
def upcoming (deadline tick : UInt32) : Prop :=
  0 ≤ ahead deadline tick ∨ ahead deadline tick = -1 ∧ tick = NO_WAKEUP

theorem upcoming.low
    (soon : upcoming deadline tick) : -1 ≤ ahead deadline tick := by
  rcases soon with later | ⟨back, _⟩ <;> omega

namespace TaskQueues

variable {line line' : TaskQueues} {tasks tasks' : ObjId → Option TaskData}
variable {tick : UInt32} {wakeup : Int} {o : ObjId} {t : TaskData}
variable {watched : Set ObjId}

/-- The tick on the clock that does not wrap. -/
def now (line : TaskQueues) (tick : UInt32) : Nat :=
  line.tickAbs + (tick - line.tickSeen).toNat

/-- The deadlines in the index of the watched tasks are those of the tasks, and
none of them is so old that the clock may have wrapped since it was last brought
up to date: `wakeup` says how far ahead the recorded wakeup lies. -/
structure Dated
    (line : TaskQueues)
    (watched : Set ObjId)
    (tasks : ObjId → Option TaskData)
    (tick : UInt32)
    (wakeup : Int) : Prop where
  synced : line.tickAbs % 2 ^ 32 = line.tickSeen.toNat
  dated : ∀ o ∈ watched, ∀ d, (line.places o).deadline = some d →
    ∃ t, tasks o = some t ∧
      (d : Int) = line.now tick + ahead t.wakeupTick tick
  near : ∀ o ∈ watched, (line.places o).deadline ≠ none →
    ((tick - line.tickSeen).toNat : Int) + wakeup < 2 ^ 31

section

variable (dated : line.Dated watched tasks tick wakeup)
include dated

theorem Dated.now_mod :
    line.now tick % 2 ^ 32 = tick.toNat := by
  have synced := dated.synced
  unfold now
  rw [UInt32.toNat_sub]
  have := tick.toNat_lt
  have := line.tickSeen.toNat_lt
  omega

/-- No deadline that is upcoming lies before the start of the clock. -/
theorem Dated.fits
    (soon : upcoming deadline tick) :
    0 ≤ (line.now tick : Int) + ahead deadline tick := by
  have turn := dated.now_mod
  rcases soon with later | ⟨back, rfl⟩
  · omega
  · have last : NO_WAKEUP.toNat = 4294967295 := by decide
    omega

/-- Fewer deadlines, of tasks that keep theirs. -/
theorem Dated.congr
    (sameAbs : line'.tickAbs = line.tickAbs)
    (sameSeen : line'.tickSeen = line.tickSeen)
    (kept : ∀ o d, (line'.places o).deadline = some d →
      (line.places o).deadline = some d ∧
        (tasks' o).map TaskData.wakeupTick =
          (tasks o).map TaskData.wakeupTick) :
    line'.Dated watched tasks' tick wakeup := by
  have now : line'.now tick = line.now tick := by
    unfold TaskQueues.now
    rw [sameAbs, sameSeen]
  refine ⟨by rw [sameAbs, sameSeen]; exact dated.synced, ?_, ?_⟩
  · intro o inside d held
    obtain ⟨before, same⟩ := kept o d held
    obtain ⟨t, task, counted⟩ := dated.dated o inside d before
    rw [task, Option.map_some, Option.map_eq_some_iff] at same
    obtain ⟨t', task', equal⟩ := same
    exact ⟨t', task', by rw [now, equal, counted]⟩
  · intro o inside some
    obtain ⟨d, held⟩ := Option.ne_none_iff_exists'.mp some
    rw [sameSeen]
    exact dated.near o inside ((kept o d held).1 ▸ Option.some_ne_none d)

end

theorem now_absTick (line : TaskQueues) (tick : UInt32) :
    (line.absTick tick).now tick = line.now tick := by
  unfold now absTick
  dsimp only
  rw [UInt32.sub_self]
  rfl

section

variable (dated : line.Dated watched tasks tick wakeup)
include dated

/-- Once the clock is up to date, any wakeup is near enough. -/
theorem Dated.absTick
    (short : later < 2 ^ 31) :
    (line.absTick tick).Dated watched tasks tick later where
  synced := dated.now_mod
  dated o inside d held := by
    rw [now_absTick]
    exact dated.dated o inside d held
  near o _ _ := by
    unfold TaskQueues.absTick
    dsimp only
    rw [UInt32.sub_self]
    simpa using short

/-- Without deadlines in the index any wakeup is near enough, and the clock may
have moved. -/
theorem Dated.of_bare
    {tick' : UInt32} {later : Int}
    (bare : ∀ o ∈ watched, (line.places o).deadline = none) :
    line.Dated watched tasks tick' later where
  synced := dated.synced
  dated o inside d held := by
    rw [bare o inside] at held
    cases held
  near o inside some := absurd (bare o inside) some

/-- The clock moves on by less than half a turn. -/
theorem Dated.advance
    (n : UInt32)
    (half : n.toNat < 2 ^ 31)
    (low : -1 ≤ wakeup)
    (soon : ∀ o ∈ watched, ∀ t, tasks o = some t →
      (line.places o).deadline ≠ none → -1 ≤ ahead t.wakeupTick tick) :
    line.Dated watched tasks (tick + n) (wakeup - n.toNat) := by
  have moved : ∀ o ∈ watched, (line.places o).deadline ≠ none →
      (tick + n - line.tickSeen).toNat =
        (tick - line.tickSeen).toNat + n.toNat := by
    intro o inside some
    have near := dated.near o inside some
    rw [UInt32.toNat_sub, UInt32.toNat_add, UInt32.toNat_sub] at *
    have := tick.toNat_lt
    have := line.tickSeen.toNat_lt
    omega
  refine ⟨dated.synced, fun o inside d held => ?_, fun o inside some => ?_⟩
  · have some : (line.places o).deadline ≠ none :=
      held ▸ Option.some_ne_none d
    obtain ⟨t, task, counted⟩ := dated.dated o inside d held
    refine ⟨t, task, ?_⟩
    have later := soon o inside t task some
    have back := ahead_add t.wakeupTick tick n (by omega)
    unfold now at counted ⊢
    rw [moved o inside some, back]
    omega
  · have near := dated.near o inside some
    rw [moved o inside some]
    omega

/-- A task whose deadline is counted from the clock that is up to date. -/
theorem Dated.setPlace
    (o : ObjId)
    (place : TaskPlace)
    (counted : o ∈ watched → ∀ d, place.deadline = some d →
      (∃ t, tasks o = some t ∧
        (d : Int) = line.now tick + ahead t.wakeupTick tick) ∧
      ((tick - line.tickSeen).toNat : Int) + wakeup < 2 ^ 31) :
    (line.setPlace o place).Dated watched tasks tick wakeup where
  synced := dated.synced
  dated other inside d held := by
    by_cases same : other = o
    · rw [same] at inside
      rw [same, setPlace_self] at held
      exact same ▸ (counted inside d held).1
    · rw [setPlace_of_ne _ same] at held
      exact dated.dated other inside d held
  near other inside some := by
    by_cases same : other = o
    · rw [same] at inside
      rw [same, setPlace_self] at some
      obtain ⟨d, held⟩ := Option.ne_none_iff_exists'.mp some
      exact (counted inside d held).2
    · rw [setPlace_of_ne _ same] at some
      exact dated.near other inside some

/-- A task without a deadline in the index. -/
theorem Dated.setPlace_none
    (o : ObjId)
    (none : place.deadline = none) :
    (line.setPlace o place).Dated watched tasks tick wakeup :=
  dated.setPlace o place fun _ d held => by
    rw [none] at held
    cases held

end

theorem indexDeadline_fst (seq : Nat) :
    (line.indexDeadline tick o seq t).1 =
      if t.hasDeadline then
        some ((line.absTick tick).tickAbs + ahead t.wakeupTick tick).toNat
      else none := by
  unfold indexDeadline absDeadline
  split <;> rfl

/-- A task with a deadline brings the clock up to date. -/
theorem indexOne_clock
    (line : TaskQueues)
    (tick : UInt32)
    (o : ObjId)
    (t : TaskData)
    (seq : Nat)
    (entry : QueueIndex × Key) :
    (line.indexOne tick o seq t entry).tickAbs =
        (if t.hasDeadline then line.absTick tick else line).tickAbs ∧
      (line.indexOne tick o seq t entry).tickSeen =
        (if t.hasDeadline then line.absTick tick else line).tickSeen := by
  unfold indexOne indexDeadline absDeadline indexTarget setPlace
  cases t.hasDeadline <;> cases t.target <;> exact ⟨rfl, rfl⟩

section

variable (dated : line.Dated watched tasks tick wakeup)
include dated

/-- A task enters the indexes. -/
theorem Dated.indexOne
    (short : wakeup < 2 ^ 31)
    (held : tasks o = some t)
    (soon : o ∈ watched → t.hasDeadline → upcoming t.wakeupTick tick)
    (seq : Nat)
    (entry : QueueIndex × Key) :
    (line.indexOne tick o seq t entry).Dated watched tasks tick wakeup := by
  obtain ⟨sameAbs, sameSeen⟩ := line.indexOne_clock tick o t seq entry
  have places : (line.indexOne tick o seq t entry).places = _ :=
    indexOne_places o seq t entry
  rw [indexDeadline_fst] at places
  by_cases deadline : t.hasDeadline = true
  · rw [if_pos deadline] at sameAbs sameSeen places
    have clocked := dated.absTick short
    refine (clocked.setPlace o _ fun inside d counted => ?_).congr sameAbs sameSeen
      fun other d held => ⟨by rwa [places] at held, rfl⟩
    cases counted
    refine ⟨⟨t, held, ?_⟩, ?_⟩
    · have fits := dated.fits (soon inside deadline)
      rw [now_absTick]
      change ((line.now tick + ahead t.wakeupTick tick).toNat : Int) = _
      omega
    · unfold TaskQueues.absTick
      dsimp only
      rw [UInt32.sub_self]
      simpa using short
  · rw [if_neg deadline] at sameAbs sameSeen places
    exact (dated.setPlace_none o rfl).congr sameAbs sameSeen
      fun other d held => ⟨by rwa [places] at held, rfl⟩

theorem Dated.indexEntries
    (short : wakeup < 2 ^ 31)
    (entries : List (Key × ObjId))
    (soon : ∀ entry ∈ entries, entry.2 ∈ watched → ∀ t,
      tasks entry.2 = some t → t.hasDeadline →
        upcoming t.wakeupTick tick) :
    (entries.foldl (indexEntry tasks tick) line).Dated watched tasks tick wakeup := by
  induction entries generalizing line with
  | nil => exact dated
  | cons entry rest ih =>
      rw [List.foldl_cons]
      refine ih ?_ fun other member =>
        soon other (List.mem_cons_of_mem _ member)
      unfold indexEntry
      split
      · rename_i t held
        exact dated.indexOne short held
          (fun inside => soon entry (List.mem_cons_self ..) inside t held) _ _
      · exact dated

/-- The tasks waiting are indexed. -/
theorem Dated.buildIndex
    (short : wakeup < 2 ^ 31)
    (soon : ∀ entry ∈ line.waiting.items, entry.2 ∈ watched → ∀ t,
      tasks entry.2 = some t → t.hasDeadline →
        upcoming t.wakeupTick tick) :
    (line.buildIndex tasks tick).Dated watched tasks tick wakeup := by
  have indexed : ({ line with indexed := true } : TaskQueues).Dated watched tasks tick
      wakeup := dated.congr rfl rfl fun _ _ held => ⟨held, rfl⟩
  exact indexed.indexEntries short _ soon

/-- The index is dropped. -/
theorem Dated.unindexWaiting :
    line.unindexWaiting.Dated watched tasks tick wakeup := by
  unfold TaskQueues.unindexWaiting
  split
  · refine dated.congr ?_ ?_ fun o d held => ⟨?_, rfl⟩
    · rw [unindexEntries]
    · rw [unindexEntries]
    · rw [unindexEntries] at held
      dsimp only at held
      split at held
      · cases held
      · exact held
  · exact dated

theorem Dated.setIndexFrom
    (short : wakeup < 2 ^ 31)
    (soon : ∀ entry ∈ line.waiting.items, entry.2 ∈ watched → ∀ t,
      tasks entry.2 = some t → t.hasDeadline → upcoming t.wakeupTick tick)
    (n : Nat) :
    (line.setIndexFrom tasks tick n).Dated watched tasks tick wakeup := by
  have changed : ({ line with indexFrom := n } : TaskQueues).Dated watched tasks tick
      wakeup := dated.congr rfl rfl fun _ _ held => ⟨held, rfl⟩
  unfold TaskQueues.setIndexFrom TaskQueues.indexWaiting
  dsimp only
  split
  · split
    · exact changed
    · exact changed.buildIndex short soon
  · exact changed.unindexWaiting

/-- A task leaves its queue and the indexes, and its fields may change. -/
theorem Dated.withdraw
    (same : ∀ other, other ≠ o → tasks' other = tasks other) :
    (line.withdraw o).Dated watched tasks' tick wakeup := by
  refine dated.congr rfl rfl fun other d held => ?_
  simp only [TaskQueues.withdraw] at held
  by_cases equal : other = o
  · rw [equal, Function.update_self] at held
    cases held
  · rw [Function.update_of_ne equal] at held
    exact ⟨held, by rw [same other equal]⟩

theorem Dated.qDelete
    (same : ∀ other, other ≠ o → tasks' other = tasks other) :
    (line.qDelete o).Dated watched tasks' tick wakeup := by
  have left := dated.withdraw same
  unfold TaskQueues.qDelete TaskQueues.unindexIfEmpty
  split
  · split
    · exact left.congr rfl rfl fun _ _ held => ⟨held, rfl⟩
    · exact left
  · exact left

end

/-- A task that left its queue may be watched from then on. -/
theorem Dated.watch
    (dated : (line.qDelete o).Dated watched tasks tick wakeup)
    (others : ∀ other ∈ watching, other ≠ o → other ∈ watched) :
    (line.qDelete o).Dated watching tasks tick wakeup := by
  have bare : ((line.qDelete o).places o).deadline = none := by
    rw [qDelete_places, Function.update_self]
    rfl
  refine ⟨dated.synced, fun other inside d held => ?_,
    fun other inside some => ?_⟩
  · by_cases same : other = o
    · rw [same, bare] at held
      cases held
    · exact dated.dated other (others other inside same) d held
  · by_cases same : other = o
    · exact absurd (same ▸ bare) some
    · exact dated.near other (others other inside same) some

/-- The tasks of the waiting queue wait. -/
theorem Recorded.waits_of_mem
    (recorded : line.Recorded)
    (tidy : ∀ o, line.Tidy tasks o)
    (member : entry ∈ line.waiting.items) :
    ∃ t, tasks entry.2 = some t ∧ qOf t.status = .waiting := by
  have queued := recorded.of_mem_queue member
  obtain ⟨inside, _⟩ := ((line.places entry.2).queued_eq_some_iff _ _).mp queued
  obtain ⟨t, held, here, _⟩ := tidy entry.2 .waiting inside
  exact ⟨t, held, here.symm⟩

/-- A task enters its queue. -/
theorem Dated.qInsert
    (dated : line.Dated watched tasks tick wakeup)
    (recorded : line.Recorded)
    (short : wakeup < 2 ^ 31)
    (out : (line.places o).q = none)
    (held : tasks o = some t)
    (tidy : ∀ other, other ≠ o → line.Tidy tasks other)
    (soon : ∀ o ∈ watched, ∀ t, tasks o = some t →
      qOf t.status = .waiting → t.hasDeadline →
        upcoming t.wakeupTick tick) :
    (line.qInsert tasks tick o).Dated watched tasks tick wakeup := by
  have entered : (line.enqueue o t).Dated watched tasks tick wakeup :=
    dated.congr rfl rfl fun _ _ held => ⟨held, rfl⟩
  have placed : ((line.enqueue o t).setPlace o
      (.set (qOf t.status) (line.keyOf t) none none)).Dated watched tasks tick wakeup :=
    entered.setPlace_none o rfl
  unfold TaskQueues.qInsert
  rw [held]
  dsimp only
  split
  · rename_i waiting
    split
    · rw [← indexOne_setPlace
        (.set (qOf t.status) (line.keyOf t) none none)]
      exact placed.indexOne short held
        (fun inside => soon o inside t held waiting) _ _
    · rename_i unindexed
      split
      · have all : ∀ other, ((line.enqueue o t).setPlace o
            (.set (qOf t.status) (line.keyOf t) none none)).Tidy tasks
              other := by
          intro other
          by_cases same : other = o
          · rw [same]
            exact tidy_enter held fun kept => absurd kept unindexed
          · exact (tidy_enqueue_of_ne same _).mpr (tidy other same)
        refine placed.buildIndex short fun entry member inside u known => ?_
        obtain ⟨u', known', waits⟩ :=
          (recorded.enter out t).waits_of_mem all member
        rw [known] at known'
        cases known'
        exact soon entry.2 inside u known waits
      · exact placed
  · exact placed

/-- The sleepers that are due leave the index. -/
theorem Dated.takeDue
    {limit : Nat} {due : List (Nat × ObjId)}
    (dated : line.Dated watched tasks tick wakeup)
    (taken : line.DueTaken limit due line') :
    line'.Dated watched tasks tick wakeup := by
  refine dated.congr (by rw [taken.same]) (by rw [taken.same])
    fun o d held => ⟨?_, rfl⟩
  rw [taken.places] at held
  split at held
  · cases held
  · exact held

end TaskQueues

end SabiRuby.Tasks
