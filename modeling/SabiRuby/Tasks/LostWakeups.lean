import SabiRuby.Tasks.Retries

/-!
# Which wake-ups are lost

A step that hands a wake-up on keeps as many tasks that are to retry a pop as the
queue has items, for every open queue on which a task waits.  A woken task that
is terminated before it asks again takes its wake-up with it.
-/

namespace SabiRuby.Tasks

open Library

namespace Popping

variable {s : Popping} {o q me : ObjId} {event : Event} {t t' : TaskData}
variable {items : List Value} {among : ObjId → Prop}

theorem covered_nil (s : Popping) (q : ObjId) (among : ObjId → Prop) :
    s.Covered q [] among :=
  ⟨[], .nil, fun _ member => absurd member List.not_mem_nil, le_rfl⟩

/-- Fewer items are covered by the same tasks, as long as these stay. -/
theorem Covered.mono
    {s' : Popping} {items' : List Value}
    (covered : s.Covered q items among)
    (stay : ∀ o, among o → s.Retrying q o → s'.Retrying q o)
    (fewer : items'.length ≤ items.length) :
    s'.Covered q items' fun _ => True := by
  obtain ⟨others, distinct, retrying, enough⟩ := covered
  exact ⟨others, distinct, fun o member => ⟨trivial,
    stay o (retrying o member).1 (retrying o member).2⟩,
    fewer.trans enough⟩

/-- A task that retried makes up for the item it took. -/
theorem Covered.erase
    {s' : Popping} {item : Value}
    (covered : s.Covered q (item :: items) among)
    (me : ObjId)
    (stay : ∀ o, o ≠ me → s.Retrying q o → s'.Retrying q o) :
    s'.Covered q items fun _ => True := by
  obtain ⟨others, distinct, retrying, enough⟩ := covered
  refine ⟨others.erase me, distinct.erase me, fun o member => ⟨trivial, ?_⟩, ?_⟩
  · have inside := List.mem_of_mem_erase member
    refine stay o ?_ (retrying o inside).2
    rintro rfl
    exact distinct.not_mem_erase member
  · have shorter := List.le_length_erase (l := others) (a := me)
    simp only [List.length_cons] at enough
    omega

/-- Another woken task makes up for one more item. -/
theorem Covered.cons
    {s' : Popping} {more : List Value}
    (covered : s.Covered q items among)
    (stay : ∀ o, s.Retrying q o → s'.Retrying q o)
    (asleep : ¬s.Retrying q o)
    (woken : s'.Retrying q o)
    (one : more.length ≤ items.length + 1) :
    s'.Covered q more fun _ => True := by
  obtain ⟨others, distinct, retrying, enough⟩ := covered
  refine ⟨o :: others, List.nodup_cons.mpr ⟨?_, distinct⟩, ?_, ?_⟩
  · intro member
    exact asleep (retrying o member).2
  · intro other member
    refine ⟨trivial, ?_⟩
    rcases List.mem_cons.mp member with rfl | member
    · exact woken
    · exact stay other (retrying other member).2
  · simp only [List.length_cons]
    omega

/-! ## Events that ask no queue -/

theorem step_retries_of_silent (silent : asks event = false) :
    (s.step event).retries = s.retries := by
  unfold step
  rw [silent]
  cases s.vm.currentTask <;> rfl

section

variable (handed : s.Handed)
include handed

theorem Handed.retrying_step
    (follows : s.Follows event)
    (silent : asks event = false)
    (kept : s.vm.taken event ≠ some o)
    (retrying : s.Retrying q o) : (s.step event).Retrying q o := by
  obtain ⟨retries, t, held, awake⟩ := retrying
  obtain ⟨t', held', changed⟩ := (handed.orderly.alters event).changed o t held
  refine ⟨by rw [step_retries_of_silent silent, retries], t', held', ?_⟩
  refine follows.awake retries changed (fun loud => ?_) kept awake
  rw [silent] at loud
  cases loud

theorem Handed.waited_before
    (silent : asks event = false)
    (waited : (s.step event).Waited q) : s.Waited q := by
  obtain ⟨o, t', held', pops⟩ := waited
  have alters := handed.orderly.alters event
  cases held : s.vm.tasks o with
  | none =>
      obtain ⟨_, _, unasked, _⟩ := alters.made o t' held held'
      rw [pops.2.1] at unasked
      cases unasked
  | some t =>
      obtain ⟨t'', same, changed⟩ := alters.changed o t held
      cases Option.some.inj (held'.symm.trans same)
      exact ⟨o, t, held, waits_before changed (.inl silent) pops⟩

/-- The queue is as well covered after the event as before it. -/
theorem Handed.covered_step
    (hands : s.Hands event)
    (silent : asks event = false)
    (held : s.vm.queueObjects q = some data)
    (isOpen : data.closed = false)
    (waited : (s.step event).Waited q)
    (fewer : items.length ≤ data.items.length) :
    (s.step event).Covered q items fun _ => True := by
  have before := handed.waited_before silent waited
  have covered := handed.enough q data held isOpen before
  cases taken : s.vm.taken event with
  | none =>
      refine covered.mono (fun o _ retrying => ?_) fewer
      exact handed.retrying_step hands.1 silent (taken ▸ Option.some_ne_none o
        |>.symm) retrying
  | some gone =>
      by_cases retried : s.Retrying q gone
      · rcases hands.2 gone q data taken retried held isOpen with
          alone | covered
        · exact absurd before alone
        · refine covered.mono (fun o differs retrying => ?_) fewer
          refine handed.retrying_step hands.1 silent (fun same => ?_) retrying
          rw [taken] at same
          exact differs (Option.some.inj same).symm
      · refine covered.mono (fun o _ retrying => ?_) fewer
        refine handed.retrying_step hands.1 silent (fun same => ?_) retrying
        rw [taken] at same
        cases same
        exact retried retrying

/-- A push wakes a task that waits, as long as there is one. -/
theorem Handed.covered_push
    {value : Value} {data : QueueData}
    (hands : s.Hands (.push q value))
    (held : s.vm.queueObjects q = some data)
    (isOpen : data.closed = false)
    (pushed : s.vm.step (.push q value) = (s.vm.setQueue q
      { data with items := data.items ++ [value] }).wakeQueueWaiters q false)
    (waited : (s.step (.push q value)).Waited q) :
    (s.step (.push q value)).Covered q (data.items ++ [value])
      fun _ => True := by
  have before := handed.waited_before rfl waited
  have covered := handed.enough q data held isOpen before
  have stay : ∀ o, s.Retrying q o → (s.step (.push q value)).Retrying q o :=
    fun o => handed.retrying_step hands.1 rfl (fun taken => by cases taken)
  have stored := handed.orderly.setQueue q
    { data with items := data.items ++ [value] }
  cases first : s.vm.line.firstWaitingFor s.vm.tasks q with
  | none =>
      obtain ⟨o, t, task, pops⟩ := before
      refine absurd ?_ (handed.orderly.firstWaitingFor_none first task pops.1)
      simp [TaskData.target, pops.2.1, pops.2.2]
  | some o =>
      obtain ⟨t, task, waits, target⟩ :=
        handed.orderly.firstWaitingFor_some first
      have pops : t.pops q := by
        refine ⟨waits, ?_⟩
        unfold TaskData.target at target
        split at target
        · rename_i reason
          exact ⟨reason, target⟩
        · rename_i reason
          have known := handed.joins o t q task ⟨waits, reason, target⟩
          exact absurd (handed.apart q (held ▸ Option.some_ne_none _)) known
        · cases target
      have retries := handed.waits o t q task pops
      refine covered.cons (o := o) stay ?_ ?_ (by simp)
      · rintro ⟨_, t'', task'', awake⟩
        rw [task] at task''
        cases task''
        rcases awake with same | same
        · rw [waits] at same
          cases same
        · rw [waits] at same
          cases same
      · refine ⟨by rw [step_retries_of_silent rfl, retries], Vm.woken t, ?_,
          .inl rfl⟩
        change (s.vm.step (.push q value)).tasks o = _
        rw [pushed]
        unfold Vm.wakeQueueWaiters
        rw [if_neg Bool.false_ne_true]
        split
        · rename_i found
          cases first.symm.trans found
          rw [Vm.wakeQueueWaiter_tasks, Function.update_self]
          change (s.vm.tasks o).map _ = _
          rw [task, Option.map_some, if_pos pops.2]
        · rename_i found
          cases first.symm.trans found

end

/-! ## Pops -/

/-- What a pop does: it parks its task, which is told to retry, or it takes an
item, or nothing happens, and then the queue is empty unless it is closed. -/
theorem popTry_cases
    (vm : Vm)
    (q : ObjId)
    (nonBlock : Bool)
    (deadline : Option Int64)
    (boundary : Option String) :
    (∃ me data, vm.currentTask = some me ∧ vm.queueObjects q = some data ∧
        data.items = [] ∧
        vm.step (.popTry q nonBlock deadline boundary) =
          vm.parkOnQueue me q (deadline.map fun d => d.toUInt64.toUInt32) ∧
        told vm (.popTry q nonBlock deadline boundary) = some q) ∨
      told vm (.popTry q nonBlock deadline boundary) = none ∧
        ((∃ data item rest, vm.queueObjects q = some data ∧
            data.items = item :: rest ∧
            vm.step (.popTry q nonBlock deadline boundary) =
              vm.setQueue q { data with items := rest }) ∨
          vm.step (.popTry q nonBlock deadline boundary) = vm ∧
            ∀ data, vm.queueObjects q = some data → data.closed = false →
              data.items = []) := by
  have performed : vm.perform (.popTry q nonBlock deadline boundary) =
      Prod.snd <$> vm.queuePopTry q nonBlock deadline boundary := rfl
  cases found : vm.queuePopTry q nonBlock deadline boundary with
  | error e =>
      refine .inr ⟨by simp only [told, found], .inr ⟨?_, ?_⟩⟩
      · unfold Vm.step
        rw [performed, found]
        rfl
      · intro data held _
        obtain ⟨items, closed⟩ := data
        cases items with
        | nil => rfl
        | cons item rest =>
            unfold Vm.queuePopTry Vm.qItems at found
            rw [held] at found
            cases found
  | ok popped =>
      have stepped : vm.step (.popTry q nonBlock deadline boundary) =
          popped.2 := by
        unfold Vm.step
        rw [performed, found]
        rfl
      rw [stepped]
      obtain ⟨data, held, ⟨item, rest, items, rfl⟩ |
        ⟨items, ⟨rfl, closed⟩ | ⟨_, waits⟩⟩⟩ := Vm.queuePopTry_ok found
      · exact .inr ⟨by simp only [told, found],
          .inl ⟨data, item, rest, held, items, rfl⟩⟩
      · refine .inr ⟨by simp only [told, found], .inr ⟨rfl, ?_⟩⟩
        intro data' held' _
        rw [held] at held'
        cases held'
        exact items
      · rcases Vm.blockingPop_ok waits with rfl | ⟨me, current, _, rfl⟩
        · refine .inr ⟨by simp only [told, found], .inr ⟨rfl, ?_⟩⟩
          intro data' held' _
          rw [held] at held'
          cases held'
          exact items
        · exact .inl ⟨me, data, current, held, items, rfl,
            by simp only [told, found]⟩

/-! ## Every event -/

section

variable (handed : s.Handed)
include handed

theorem Handed.fresh_step
    (event : Event)
    (free : (s.vm.step event).next ≤ q.index) :
    (s.vm.step event).queueObjects q = none := by
  have stores := s.vm.stores_step event
  by_contra held
  rcases stores.made q held with before | ⟨rfl, next, _⟩
  · exact before (handed.fresh q (stores.next.trans free))
  · rw [next] at free
    exact absurd free (Nat.not_succ_le_self _)

theorem Handed.apart_step
    (event : Event)
    (held : (s.vm.step event).queueObjects q ≠ none) :
    (s.vm.step event).tasks q = none := by
  have stores := s.vm.stores_step event
  have alters := handed.orderly.alters event
  cases made : (s.vm.step event).tasks q with
  | none => rfl
  | some t' =>
      rcases stores.made q held with before | ⟨rfl, _, same⟩
      · obtain ⟨rfl, _⟩ := alters.made q t' (handed.apart q before) made
        exact absurd (handed.fresh _ le_rfl) before
      · rw [same, handed.orderly.fresh _ le_rfl] at made
        cases made

theorem Handed.joins_step
    (event : Event)
    (held' : (s.vm.step event).tasks o = some t')
    (joins : t'.joins other) : (s.vm.step event).tasks other ≠ none := by
  have alters := handed.orderly.alters event
  have stays : s.vm.tasks other ≠ none →
      (s.vm.step event).tasks other ≠ none := by
    intro known
    obtain ⟨u, held⟩ := Option.ne_none_iff_exists'.mp known
    obtain ⟨u', after, _⟩ := alters.changed other u held
    rw [after]
    exact Option.some_ne_none _
  cases held : s.vm.tasks o with
  | none =>
      obtain ⟨_, _, unasked, _⟩ := alters.made o t' held held'
      rw [joins.2.1] at unasked
      cases unasked
  | some t =>
      obtain ⟨t'', same, changed⟩ := alters.changed o t held
      cases Option.some.inj (held'.symm.trans same)
      rcases changed.of_join joins.1 joins.2.1 with
        ⟨waits, reason, target⟩ | ⟨asked, u, _, _, target, known, _⟩
      · exact stays (handed.joins o t other held
          ⟨waits, reason, target.trans joins.2.2⟩)
      · rw [joins.2.2] at target
        cases target
        exact stays (known ▸ Option.some_ne_none _)

theorem Handed.step_silent
    (hands : s.Hands event)
    (silent : asks event = false) : (s.step event).Handed where
  orderly := (handed.orderly.step event).orderly
  apart q held := handed.apart_step event held
  fresh q free := handed.fresh_step event free
  joins o t other held joins := handed.joins_step event held joins
  waits o t' q held' pops := by
    rw [step_retries_of_silent silent]
    have alters := handed.orderly.alters event
    cases held : s.vm.tasks o with
    | none =>
        obtain ⟨_, _, unasked, _⟩ := alters.made o t' held held'
        rw [pops.2.1] at unasked
        cases unasked
    | some t =>
        obtain ⟨t'', same, changed⟩ := alters.changed o t held
        cases Option.some.inj (held'.symm.trans same)
        exact handed.waits o t q held
          (waits_before changed (.inl silent) pops)
  enough q data' held' isOpen waited := by
    rcases (s.vm.stores_step event).items q data' held' isOpen with
      empty | ⟨data, held, wasOpen, fewer | ⟨value, rfl, pushed, items⟩⟩
    · rw [empty]
      exact covered_nil _ q _
    · exact handed.covered_step hands silent held wasOpen waited fewer
    · rw [items]
      exact handed.covered_push hands held wasOpen pushed waited

end

section Asking

variable {nonBlock : Bool} {deadline : Option Int64} {boundary : Option String}
variable {asked : ObjId}

theorem step_retries_of_ne
    (other : s.vm.currentTask ≠ some o) :
    (s.step event).retries o = s.retries o := by
  unfold step
  cases current : s.vm.currentTask with
  | none => rfl
  | some me =>
      dsimp only
      split
      · refine Function.update_of_ne ?_ ..
        rintro rfl
        exact other current
      · rfl

/-- The task that asks a queue is to retry no pop of another, and does not
wait. -/
theorem Follows.asks
    (follows : s.Follows (.popTry asked nonBlock deadline boundary))
    (retries : s.retries o = some q)
    (current : s.vm.currentTask = some o) :
    asked = q ∧ (s.vm.tasks o).map TaskData.status = some .running := by
  simpa [mayDo] using follows o q current retries

/-- A task that waits on a queue goes on doing so while another asks. -/
theorem Handed.waits_other
    (handed : s.Handed)
    (follows : s.Follows (.popTry asked nonBlock deadline boundary))
    (held : s.vm.tasks o = some t)
    (pops : t.pops q) : s.vm.currentTask ≠ some o := by
  intro current
  obtain ⟨_, running⟩ := follows.asks (handed.waits o t q held pops) current
  rw [held, Option.map_some, pops.1] at running
  cases running

/-- Where the tasks stay as they are, a task that is not asking stays to
retry. -/
theorem retrying_of_same
    (same : (s.vm.step event).tasks = s.vm.tasks)
    (other : s.vm.currentTask ≠ some o)
    (retrying : s.Retrying q o) : (s.step event).Retrying q o := by
  obtain ⟨retries, t, held, awake⟩ := retrying
  refine ⟨by rw [step_retries_of_ne other, retries], t, ?_, awake⟩
  change (s.vm.step event).tasks o = some t
  rw [same, held]

/-- A pop that leaves the tasks alone keeps other queues covered. -/
theorem Handed.covered_other
    (handed : s.Handed)
    (follows : s.Follows (.popTry asked nonBlock deadline boundary))
    (differs : q ≠ asked)
    (held : s.vm.queueObjects q = some data)
    (isOpen : data.closed = false)
    (waited : s.Waited q)
    (stay : ∀ o, s.vm.currentTask ≠ some o → s.Retrying q o →
      (s.step (.popTry asked nonBlock deadline boundary)).Retrying q o) :
    (s.step (.popTry asked nonBlock deadline boundary)).Covered q data.items
      fun _ => True := by
  refine (handed.enough q data held isOpen waited).mono
    (fun o _ retrying => stay o (fun current => ?_) retrying) le_rfl
  exact differs (follows.asks retrying.1 current).1.symm

theorem Handed.step_asks
    (handed : s.Handed)
    (hands : s.Hands (.popTry asked nonBlock deadline boundary)) :
    (s.step (.popTry asked nonBlock deadline boundary)).Handed := by
  have orderly := (handed.orderly.step
    (.popTry asked nonBlock deadline boundary)).orderly
  have follows := hands.1
  refine ⟨orderly, fun q held => handed.apart_step _ held,
    fun q free => handed.fresh_step _ free,
    fun o t other held joins => handed.joins_step _ held joins, ?_, ?_⟩
  · intro o t' q held' pops
    change (s.vm.step _).tasks o = some t' at held'
    rcases popTry_cases s.vm asked nonBlock deadline boundary with
      ⟨me, data, current, _, _, parked, retry⟩ | ⟨_, still⟩
    · rw [parked, Vm.parkOnQueue_tasks] at held'
      by_cases same : o = me
      · subst same
        rw [Function.update_self] at held'
        cases task : s.vm.tasks o with
        | none => simp [task] at held'
        | some t =>
            rw [task] at held'
            cases held'
            have target := Option.some.inj pops.2.2
            unfold step
            rw [current, retry]
            exact (Function.update_self ..).trans (congrArg some target)
      · rw [Function.update_of_ne same] at held'
        rw [step_retries_of_ne
          (handed.waits_other follows held' pops)]
        exact handed.waits o t' q held' pops
    · have tasks : (s.vm.step (.popTry asked nonBlock deadline
          boundary)).tasks = s.vm.tasks := by
        rcases still with ⟨data, item, rest, _, _, taken⟩ | ⟨same, _⟩
        · rw [taken]
          rfl
        · rw [same]
      rw [tasks] at held'
      rw [step_retries_of_ne (handed.waits_other follows held' pops)]
      exact handed.waits o t' q held' pops
  · intro q data' held' isOpen waited
    change (s.vm.step _).queueObjects q = some data' at held'
    rcases popTry_cases s.vm asked nonBlock deadline boundary with
      ⟨me, data, current, held, items, parked, _⟩ | ⟨_, still⟩
    · rw [parked, Vm.parkOnQueue_queueObjects] at held'
      by_cases same : q = asked
      · subst same
        rw [held] at held'
        cases held'
        rw [items]
        exact covered_nil _ q _
      · have tasks : ∀ o, s.vm.currentTask ≠ some o →
            (s.vm.step (.popTry asked nonBlock deadline boundary)).tasks o =
              s.vm.tasks o := by
          intro o other
          rw [parked, Vm.parkOnQueue_tasks, Function.update_of_ne]
          rintro rfl
          exact other current
        refine handed.covered_other follows same held' isOpen ?_
          fun o other retrying => ?_
        · obtain ⟨o, t', task', pops⟩ := waited
          change (s.vm.step _).tasks o = some t' at task'
          by_cases mine : s.vm.currentTask = some o
          · rw [current] at mine
            cases mine
            rw [parked, Vm.parkOnQueue_tasks, Function.update_self] at task'
            cases task : s.vm.tasks me with
            | none => simp [task] at task'
            | some t =>
                rw [task] at task'
                cases task'
                exact absurd (Option.some.inj pops.2.2).symm same
          · rw [tasks o mine] at task'
            exact ⟨o, t', task', pops⟩
        · obtain ⟨retries, t, task, awake⟩ := retrying
          exact ⟨by rw [step_retries_of_ne other, retries], t,
            (tasks o other).trans task, awake⟩
    · rcases still with ⟨data, item, rest, held, items, taken⟩ | ⟨same, none⟩
      · have tasks : (s.vm.step (.popTry asked nonBlock deadline
            boundary)).tasks = s.vm.tasks := by
          rw [taken]
          rfl
        have before : s.Waited q := by
          obtain ⟨o, t', task', pops⟩ := waited
          change (s.vm.step _).tasks o = some t' at task'
          rw [tasks] at task'
          exact ⟨o, t', task', pops⟩
        rw [taken, Vm.setQueue_queueObjects] at held'
        by_cases same : q = asked
        · subst same
          rw [Function.update_self] at held'
          cases held'
          have covered := handed.enough q data held isOpen before
          rw [items] at covered
          cases current : s.vm.currentTask with
          | none =>
              refine covered.mono (fun o _ retrying => ?_) (Nat.le_succ _)
              exact retrying_of_same tasks (by rw [current]; simp) retrying
          | some me =>
              refine covered.erase me fun o differs retrying => ?_
              refine retrying_of_same tasks ?_ retrying
              rw [current]
              exact fun mine => differs (Option.some.inj mine).symm
        · rw [Function.update_of_ne same] at held'
          exact handed.covered_other follows same held' isOpen before
            fun o other => retrying_of_same tasks other
      · have tasks : (s.vm.step (.popTry asked nonBlock deadline
            boundary)).tasks = s.vm.tasks := by rw [same]
        rw [same] at held'
        by_cases equal : q = asked
        · subst equal
          rw [none data' held' isOpen]
          exact covered_nil _ q _
        · refine handed.covered_other follows equal held' isOpen ?_
            fun o other => retrying_of_same tasks other
          obtain ⟨o, t', task', pops⟩ := waited
          change (s.vm.step _).tasks o = some t' at task'
          rw [tasks] at task'
          exact ⟨o, t', task', pops⟩

end Asking

/-- What a step that meets the condition keeps. -/
theorem Handed.step
    (handed : s.Handed)
    (hands : s.Hands event) : (s.step event).Handed := by
  cases event with
  | popTry q nonBlock deadline boundary => exact handed.step_asks hands
  | _ => exact handed.step_silent hands rfl

/-- In a run whose steps all hand their wake-ups on, an item of an open queue
never lies there while a task waits and none that was woken is still to ask for
it. -/
theorem none_lost_of_hands
    (indexFrom : Nat)
    (events : List Event)
    (hands : StepsMeet step Hands (initial indexFrom) events) :
    Throughout step NoneLost (initial indexFrom) events :=
  (hands.throughout (fun _ _ handed hands => handed.step hands)
    (handed_initial indexFrom)).mono fun _ handed => handed.noneLost

/-- A step that keeps no task from retrying hands its wake-ups on. -/
theorem Follows.hands
    (follows : s.Follows event)
    (untold : ∀ o ∈ s.vm.taken event, s.retries o = none) :
    s.Hands event := by
  refine ⟨follows, fun o q data taken retrying => ?_⟩
  have told := retrying.1
  rw [untold o taken] at told
  cases told

/-- Two tasks wait on a queue, and the one that a push wakes takes its item. -/
def wokenThenServed : List Event :=
  [.queueNew, .taskNew none, .taskNew none, .schedule,
    .popTry ⟨0⟩ false none none, .leave .switched, .schedule,
    .popTry ⟨0⟩ false none none, .leave .switched, .push ⟨0⟩ .nil,
    .schedule, .popTry ⟨0⟩ false none none, .leave (.returned .nil)]

theorem none_lost_when_served :
    Throughout step NoneLost (initial TASK_INDEX_FROM) wokenThenServed := by
  have meets : StepsMeet step
      (fun s event => s.Follows event ∧
        ∀ o ∈ s.vm.taken event, s.retries o = none)
      (initial TASK_INDEX_FROM) wokenThenServed := by decide +kernel
  exact none_lost_of_hands TASK_INDEX_FROM wokenThenServed
    (meets.imp fun _ _ both => both.1.hands both.2)

/-- Two tasks wait on a queue, and the one that a push wakes is terminated before
it asks again. -/
def wokenThenTerminated : List Event :=
  [.queueNew, .taskNew none, .taskNew none, .schedule,
    .popTry ⟨0⟩ false none none, .leave .switched, .schedule,
    .popTry ⟨0⟩ false none none, .leave .switched, .push ⟨0⟩ .nil,
    .terminate ⟨1⟩]

theorem foldl_step_vm (events : List Event) :
    (events.foldl step s).vm = s.vm.run events := by
  induction events generalizing s with
  | nil => rfl
  | cons event rest ih => exact ih

/-- The item lies in the queue, and the other task waits for it. -/
theorem wakeup_lost :
    ¬∀ (indexFrom : Nat) (events : List Event),
      StepsMeet step Follows (initial indexFrom) events →
        NoneLost (events.foldl step (initial indexFrom)) := by
  intro always
  have lost := always TASK_INDEX_FROM wokenThenTerminated (by decide +kernel)
  have held : (wokenThenTerminated.foldl step
      (initial TASK_INDEX_FROM)).vm.queueObjects ⟨0⟩ =
        some { items := [.nil], closed := false } := by decide +kernel
  have waiting : ((wokenThenTerminated.foldl step
      (initial TASK_INDEX_FROM)).vm.tasks ⟨2⟩).map
        (fun t => (t.status, t.reason, t.queue)) =
          some (.waiting, .queue, some ⟨0⟩) := by decide +kernel
  have three : (wokenThenTerminated.foldl step
      (initial TASK_INDEX_FROM)).vm.next = 3 := by decide +kernel
  have none : ∀ i < 3, ¬((wokenThenTerminated.foldl step
      (initial TASK_INDEX_FROM)).retries ⟨i⟩ = some ⟨0⟩ ∧
        ((wokenThenTerminated.foldl step (initial TASK_INDEX_FROM)).vm.tasks
          ⟨i⟩).any fun t => t.status = .ready || t.status = .running) := by
    decide +kernel
  have orderly : (wokenThenTerminated.foldl step
      (initial TASK_INDEX_FROM)).vm.Orderly := by
    rw [foldl_step_vm]
    exact Vm.run_orderly TASK_INDEX_FROM wokenThenTerminated
  generalize wokenThenTerminated.foldl step (initial TASK_INDEX_FROM) = s
    at lost held waiting three none orderly
  obtain ⟨t, task, fields⟩ := Option.map_eq_some_iff.mp waiting
  simp only [Prod.mk.injEq] at fields
  obtain ⟨o, retries, u, known, awake⟩ :=
    lost ⟨0⟩ _ held rfl (List.cons_ne_nil _ _) ⟨⟨2⟩, t, task, fields⟩
  refine none o.index ?_ ⟨retries, ?_⟩
  · by_contra beyond
    rw [orderly.fresh o (by omega)] at known
    cases known
  · change (s.vm.tasks o).any _ = true
    rw [known]
    simpa [TaskData.awake] using awake

end Popping

end SabiRuby.Tasks
