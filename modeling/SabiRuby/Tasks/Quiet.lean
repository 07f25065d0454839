import SabiRuby.Tasks.Changes

/-!
# What leaves the clock and the queues' items alone

Waking, stopping and running tasks, and every event that is not about time or
about a queue, keep the clock, the recorded wakeup and the items of every
queue.
-/

namespace SabiRuby.Tasks

open Library Function

/-- Whether an event neither moves the clock, nor waits for it, nor touches a
queue. -/
def Event.quiet : Event → Bool
  | .sleep _ _ | .queueNew | .push _ _ | .popTry _ _ _ _ | .tryPop _ | .clear _
  | .closeQueue _ | .advanceTicks _ | .idle => false
  | _ => true

namespace Vm

variable {vm vm' vm'' : Vm} {o q me : ObjId} {event : Event}

/-- The clock, the recorded wakeup and the queues stay, and no id is taken
back. -/
structure Still (vm vm' : Vm) : Prop where
  tick : vm'.tick = vm.tick
  wakeupTick : vm'.wakeupTick = vm.wakeupTick
  queueObjects : vm'.queueObjects = vm.queueObjects
  next : vm.next ≤ vm'.next

theorem Still.refl (vm : Vm) : vm.Still vm := ⟨rfl, rfl, rfl, le_rfl⟩

theorem Still.trans
    (first : vm.Still vm')
    (second : vm'.Still vm'') : vm.Still vm'' where
  tick := second.tick.trans first.tick
  wakeupTick := second.wakeupTick.trans first.wakeupTick
  queueObjects := second.queueObjects.trans first.queueObjects
  next := first.next.trans second.next

theorem Frame.still (frame : vm.Frame vm') : vm.Still vm' := by
  unfold Frame at frame
  rw [frame]
  exact ⟨rfl, rfl, rfl, le_rfl⟩

theorem Still.fold
    (items : List Item)
    (act : Vm → Item → Vm)
    (still : ∀ (vm : Vm) item, vm.Still (act vm item)) :
    vm.Still (items.foldl act vm) := by
  induction items generalizing vm with
  | nil => exact .refl vm
  | cons item rest ih =>
      exact (still vm item).trans ih

theorem still_requeue
    (o : ObjId)
    (change : TaskData → TaskData) : vm.Still (vm.requeue o change) :=
  (Frame.requeue o change).still

theorem still_wakeQueueWaiter (q o : ObjId) :
    vm.Still (vm.wakeQueueWaiter q o) := by
  unfold wakeQueueWaiter
  split
  · split
    · exact (frame_wake o).still
    · exact .refl vm
  · exact .refl vm

theorem wakeQueueWaiters_still (vm : Vm) (q : ObjId) (all : Bool) :
    vm.Still (vm.wakeQueueWaiters q all) := by
  unfold wakeQueueWaiters
  split
  · exact .fold _ _ fun _ o => still_wakeQueueWaiter q o
  · split
    · exact still_wakeQueueWaiter q _
    · exact .refl vm

theorem still_wakeJoinWaiters (done : ObjId) :
    vm.Still (vm.wakeJoinWaiters done) := by
  refine .fold _ _ fun vm o => ?_
  unfold wakeJoinWaiter
  split
  · split
    · exact still_requeue o _
    · exact .refl vm
  · exact .refl vm

theorem still_endContext (ctx : Option Nat) : vm.Still (vm.endContext ctx) := by
  unfold endContext
  split
  · split <;> exact ⟨rfl, rfl, rfl, le_rfl⟩
  · exact .refl vm

theorem still_stopTask (o : ObjId) : vm.Still (vm.stopTask o) := by
  rw [stopTask_eq]
  refine Still.trans ?_ (still_wakeJoinWaiters o)
  unfold halted
  refine Still.trans ?_ (still_endContext _)
  split
  · exact still_requeue o _
  · exact ⟨rfl, rfl, rfl, le_rfl⟩

theorem still_schedulerStep : vm.Still vm.schedulerStep := by
  unfold schedulerStep
  split
  · exact .refl vm
  · split
    · exact .refl vm
    · split
      · exact ⟨rfl, rfl, rfl, le_rfl⟩
      · split
        · exact .refl vm
        · unfold enterTask
          split
          · exact still_stopTask _
          · split
            · exact still_stopTask _
            · exact ⟨rfl, rfl, rfl, le_rfl⟩

theorem still_settle (ctx : Nat) (outcome : Outcome) :
    vm.Still (vm.settle o ctx outcome) := by
  unfold settle
  split
  · refine Still.trans ?_ (still_stopTask o)
    exact ⟨rfl, rfl, rfl, le_rfl⟩
  · split
    · refine Still.trans ?_ (still_stopTask o)
      exact ⟨rfl, rfl, rfl, le_rfl⟩
    · split
      · exact still_requeue o _
      · exact .refl vm
  · refine Still.trans ?_ (still_stopTask o)
    exact ⟨rfl, rfl, rfl, le_rfl⟩
  · refine Still.trans ?_ (still_stopTask o)
    exact ⟨rfl, rfl, rfl, le_rfl⟩

theorem still_leaveTask (outcome : Outcome) :
    vm.Still (vm.leaveTask outcome) := by
  unfold leaveTask
  split
  · exact .refl vm
  · dsimp only
    split
    · refine Still.trans ?_ (still_settle _ outcome)
      exact ⟨rfl, rfl, rfl, le_rfl⟩
    · exact ⟨rfl, rfl, rfl, le_rfl⟩

theorem still_perform
    (quiet : event.quiet)
    (done : vm.perform event = .ok vm') : vm.Still vm' := by
  cases event with
  | taskNew priority =>
      obtain ⟨made, found, rfl⟩ := answered done
      obtain ⟨n, same⟩ := taskNew_ok found
      rw [same]
      exact ⟨rfl, rfl, rfl, Nat.le_succ _⟩
  | taskCurrent =>
      cases done
      unfold taskCurrent
      split
      · exact .refl vm
      · exact .refl vm
      · exact ⟨rfl, rfl, rfl, Nat.le_succ _⟩
  | pass boundary =>
      rcases taskPass_ok done with rfl | ⟨_, rfl⟩ | ⟨me, _, rfl⟩
      · exact .refl _
      · exact still_schedulerStep
      · exact ⟨rfl, rfl, rfl, le_rfl⟩
  | sleepForever boundary =>
      rcases sleepForever_ok done with rfl | ⟨me, _, rfl⟩
      · exact .refl _
      · exact ⟨rfl, rfl, rfl, le_rfl⟩
  | setPriority o priority =>
      obtain ⟨t, n, _, rfl⟩ := taskSetPriority_ok done
      exact still_requeue o _
  | suspend o =>
      obtain ⟨t, _, ⟨_, rfl⟩ | ⟨_, rfl | rfl⟩⟩ := taskSuspend_ok done
      · exact .refl _
      · exact still_requeue o _
      · exact ⟨rfl, rfl, rfl, le_rfl⟩
  | resume o =>
      obtain ⟨t, _, rfl | ⟨_, rfl⟩⟩ := taskResume_ok done
      · exact .refl _
      · exact still_requeue o _
  | terminate o =>
      obtain ⟨t, _, ⟨_, rfl⟩ | ⟨_, rfl | rfl⟩⟩ := taskTerminate_ok done
      · exact .refl _
      · exact still_stopTask o
      · exact (still_stopTask o).trans ⟨rfl, rfl, rfl, le_rfl⟩
  | close o =>
      obtain ⟨t, _, _, rfl⟩ := taskClose_ok done
      have left : vm.Still (vm.qDelete o) := ⟨rfl, rfl, rfl, le_rfl⟩
      exact (left.trans (still_endContext _)).trans ⟨rfl, rfl, rfl, le_rfl⟩
  | join other =>
      obtain ⟨joined, found, rfl⟩ := answered done
      obtain ⟨t, me, _, _, _, ⟨_, same⟩ | ⟨_, parked⟩⟩ := taskJoin_ok found
      · rw [same]
        exact .refl vm
      · rw [parked]
        exact ⟨rfl, rfl, rfl, le_rfl⟩
  | schedule =>
      cases done
      exact still_schedulerStep
  | leave outcome =>
      cases done
      exact still_leaveTask outcome
  | fiberSwitch ctx =>
      cases done
      exact ⟨rfl, rfl, rfl, le_rfl⟩
  | setIndexFrom n =>
      cases done
      exact ⟨rfl, rfl, rfl, le_rfl⟩
  | _ => cases quiet

/-! ## The clock -/

theorem wakeSleepers_tick : vm.wakeSleepers.tick = vm.tick := by
  rw [wakeSleepers_frame]

theorem wakeSleepers_queueObjects :
    vm.wakeSleepers.queueObjects = vm.queueObjects := by
  rw [wakeSleepers_frame]

theorem wakeSleepers_next : vm.wakeSleepers.next = vm.next := by
  rw [wakeSleepers_frame]

theorem noteWakeup_tick (vm : Vm) (deadline : UInt32) :
    (vm.noteWakeup deadline).tick = vm.tick := by
  unfold noteWakeup
  split <;> rfl

theorem noteWakeup_next (vm : Vm) (deadline : UInt32) :
    (vm.noteWakeup deadline).next = vm.next := by
  unfold noteWakeup
  split <;> rfl

theorem noteWakeup_queueObjects (deadline : UInt32) :
    (vm.noteWakeup deadline).queueObjects = vm.queueObjects := by
  unfold noteWakeup
  split <;> rfl

/-! ## The items of the queues -/

/-- What an event does to the queues: at most one is made, empty, and an open one
has no more items than before unless it is pushed to. -/
structure Stores (vm vm' : Vm) (event : Event) : Prop where
  next : vm.next ≤ vm'.next
  made : ∀ q, vm'.queueObjects q ≠ none → vm.queueObjects q ≠ none ∨
    q = ⟨vm.next⟩ ∧ vm'.next = vm.next + 1 ∧ vm'.tasks = vm.tasks
  items : ∀ q data', vm'.queueObjects q = some data' → data'.closed = false →
    data'.items = [] ∨
      ∃ data, vm.queueObjects q = some data ∧ data.closed = false ∧
        (data'.items.length ≤ data.items.length ∨
          ∃ value, event = .push q value ∧
            vm' = (vm.setQueue q
              { data with items := data.items ++ [value] }).wakeQueueWaiters q
                false ∧
            data'.items = data.items ++ [value])

theorem Stores.of_eq
    (next : vm.next ≤ vm'.next)
    (same : vm'.queueObjects = vm.queueObjects) : vm.Stores vm' event where
  next := next
  made q held := .inl (by rwa [same] at held)
  items q data' held isOpen :=
    .inr ⟨data', by rwa [same] at held, isOpen, .inl le_rfl⟩

theorem Still.stores (still : vm.Still vm') : vm.Stores vm' event :=
  .of_eq still.next still.queueObjects

/-- A queue that there is gets other items, or is closed. -/
theorem Stores.of_set
    (held : vm.queueObjects q = some data)
    (next : vm.next ≤ vm'.next)
    (written : vm'.queueObjects =
      update vm.queueObjects q (some changed))
    (fewer : changed.closed = false → data.closed = false ∧
      changed.items.length ≤ data.items.length) : vm.Stores vm' event where
  next := next
  made other inside := by
    rw [written] at inside
    by_cases same : other = q
    · exact .inl (same ▸ held ▸ Option.some_ne_none _)
    · exact .inl (by rwa [update_of_ne same] at inside)
  items other data' inside isOpen := by
    rw [written] at inside
    by_cases same : other = q
    · subst same
      rw [update_self] at inside
      cases inside
      obtain ⟨wasOpen, less⟩ := fewer isOpen
      exact .inr ⟨data, held, wasOpen, .inl less⟩
    · rw [update_of_ne same] at inside
      exact .inr ⟨data', inside, isOpen, .inl le_rfl⟩

theorem setQueue_queueObjects (q : ObjId) (data : QueueData) :
    (vm.setQueue q data).queueObjects =
      update vm.queueObjects q (some data) := rfl

theorem queueNew_queueObjects :
    vm.queueNew.2.queueObjects =
      update vm.queueObjects ⟨vm.next⟩
        (some { items := [], closed := false }) := rfl

theorem stores_push
    (done : vm.queuePush q value = .ok vm') :
    vm.Stores vm' (.push q value) := by
  obtain ⟨data, held, wasOpen, rfl⟩ := queuePush_ok done
  have woke := (vm.setQueue q
    { data with items := data.items ++ [value] }).wakeQueueWaiters_still q false
  refine ⟨woke.next, fun other inside => ?_,
    fun other data' inside isOpen => ?_⟩
  · rw [woke.queueObjects] at inside
    by_cases same : other = q
    · exact .inl (same ▸ held ▸ Option.some_ne_none _)
    · exact .inl (by rwa [setQueue_queueObjects, update_of_ne same] at inside)
  · rw [woke.queueObjects] at inside
    by_cases same : other = q
    · subst same
      rw [setQueue_queueObjects, update_self] at inside
      cases inside
      exact .inr ⟨data, held, wasOpen, .inr ⟨value, rfl, rfl, rfl⟩⟩
    · rw [setQueue_queueObjects, update_of_ne same] at inside
      exact .inr ⟨data', inside, isOpen, .inl le_rfl⟩

theorem parkOnQueue_queueObjects (deadline : Option UInt32) :
    (vm.parkOnQueue me q deadline).queueObjects = vm.queueObjects := by
  rw [parkOnQueue_eq]
  cases deadline with
  | none => rfl
  | some d => exact noteWakeup_queueObjects d

theorem parkOnQueue_next (deadline : Option UInt32) :
    (vm.parkOnQueue me q deadline).next = vm.next := by
  rw [parkOnQueue_eq]
  cases deadline with
  | none => rfl
  | some d => exact noteWakeup_next _ d

theorem stores_wakeSleepers
    {moved : Vm}
    (next : moved.next = vm.next)
    (same : moved.queueObjects = vm.queueObjects) :
    vm.Stores moved.wakeSleepers event :=
  .of_eq (by rw [wakeSleepers_next, next])
    (by rw [wakeSleepers_queueObjects, same])

theorem stores_idle : vm.Stores vm.idle.2 event := by
  unfold idle
  split
  · exact .of_eq le_rfl rfl
  · split
    · exact stores_wakeSleepers rfl rfl
    · exact stores_wakeSleepers rfl rfl

theorem stores_perform
    (done : vm.perform event = .ok vm') : vm.Stores vm' event := by
  cases event with
  | sleep call boundary =>
      obtain ⟨micros, _, ⟨_, rfl⟩ | ⟨me, _, rfl⟩⟩ := sleepFor_ok done
      · exact stores_wakeSleepers rfl rfl
      · refine .of_eq ?_ (noteWakeup_queueObjects _)
        exact ((vm.requeue me _).noteWakeup_next _).ge
  | queueNew =>
      cases done
      refine ⟨Nat.le_succ _, fun other inside => ?_,
        fun other data' inside isOpen => ?_⟩
      · by_cases same : other = ⟨vm.next⟩
        · exact .inr ⟨same, rfl, rfl⟩
        · exact .inl (by
            rwa [queueNew_queueObjects, update_of_ne same] at inside)
      · by_cases same : other = ⟨vm.next⟩
        · rw [same, queueNew_queueObjects, update_self] at inside
          cases inside
          exact .inl rfl
        · rw [queueNew_queueObjects, update_of_ne same] at inside
          exact .inr ⟨data', inside, isOpen, .inl le_rfl⟩
  | push q value => exact stores_push done
  | popTry q nonBlock deadline boundary =>
      obtain ⟨popped, found, rfl⟩ := answered done
      obtain ⟨data, held, ⟨item, rest, items, rfl⟩ |
        ⟨_, ⟨rfl, _⟩ | ⟨_, waits⟩⟩⟩ := queuePopTry_ok found
      · exact .of_set held le_rfl rfl fun isOpen =>
          ⟨isOpen, by rw [items]; exact Nat.le_succ _⟩
      · exact .of_eq le_rfl rfl
      · rcases blockingPop_ok waits with rfl | ⟨me, _, _, rfl⟩
        · exact .of_eq le_rfl rfl
        · exact .of_eq (parkOnQueue_next _).ge (parkOnQueue_queueObjects _)
  | tryPop q =>
      obtain ⟨popped, found, rfl⟩ := answered done
      obtain ⟨data, held, same | ⟨item, rest, items, taken⟩⟩ :=
        queueTryPop_ok found
      · rw [same]
        exact .of_eq le_rfl rfl
      · rw [taken]
        exact .of_set held le_rfl rfl fun isOpen =>
          ⟨isOpen, by rw [items]; exact Nat.le_succ _⟩
  | clear q =>
      obtain ⟨data, held, rfl⟩ := queueClear_ok done
      exact .of_set held le_rfl rfl fun isOpen => ⟨isOpen, Nat.zero_le _⟩
  | closeQueue q =>
      obtain ⟨data, held, rfl | ⟨_, rfl⟩⟩ := queueClose_ok done
      · exact .of_eq le_rfl rfl
      · have woke := (vm.setQueue q
          { data with closed := true }).wakeQueueWaiters_still q true
        exact .of_set held woke.next woke.queueObjects fun isOpen => by
          cases isOpen
  | advanceTicks n =>
      cases done
      exact stores_wakeSleepers rfl rfl
  | idle =>
      cases done
      exact stores_idle
  | _ => exact (still_perform rfl done).stores

theorem stores_step (vm : Vm) (event : Event) :
    vm.Stores (vm.step event) event := by
  unfold step
  split
  · rename_i next done
    exact stores_perform done
  · exact .of_eq le_rfl rfl

theorem idle_queueObjects : vm.idle.2.queueObjects = vm.queueObjects := by
  unfold idle
  split
  · rfl
  · split
    · exact wakeSleepers_queueObjects
    · exact wakeSleepers_queueObjects

/-! ## The values of the queues -/

/-- The values in a queue. -/
def values (vm : Vm) (q : ObjId) : List Value :=
  (vm.queueObjects q).elim [] QueueData.items

/-- What an event puts into a queue. -/
def puts (vm : Vm) (q : ObjId) (event : Event) : List Value :=
  match vm.perform event, event with
  | .ok _, .push other value => if other = q then [value] else []
  | _, _ => []

/-- What an event takes out of a queue: the value of a pop, or all of them. -/
def takes (vm : Vm) (q : ObjId) (event : Event) : List Value :=
  match vm.perform event, event with
  | .ok _, .popTry other nonBlock deadline boundary =>
      match vm.queuePopTry other nonBlock deadline boundary with
      | .ok (.item value, _) => if other = q then [value] else []
      | _ => []
  | .ok _, .tryPop other =>
      match vm.queueTryPop other with
      | .ok (some value, _) => if other = q then [value] else []
      | _ => []
  | .ok _, .clear other => if other = q then vm.values q else []
  | _, _ => []

/-- What a run puts into a queue. -/
def putsAll (vm : Vm) (q : ObjId) : List Event → List Value
  | [] => []
  | event :: later => vm.puts q event ++ (vm.step event).putsAll q later

/-- What a run takes out of a queue. -/
def takesAll (vm : Vm) (q : ObjId) : List Event → List Value
  | [] => []
  | event :: later => vm.takes q event ++ (vm.step event).takesAll q later

theorem values_of_eq (same : vm'.queueObjects = vm.queueObjects) :
    vm'.values q = vm.values q := by
  rw [values, same]
  rfl

theorem values_of_some (held : vm.queueObjects q = some data) :
    vm.values q = data.items := by
  rw [values, held]
  rfl

theorem values_of_update
    {changed : QueueData}
    {other : ObjId}
    (written : vm'.queueObjects =
      Function.update vm.queueObjects other (some changed)) :
    vm'.values q = if other = q then changed.items else vm.values q := by
  rw [values, written]
  by_cases same : other = q
  · subst same
    rw [if_pos rfl, Function.update_self]
    rfl
  · rw [if_neg same, Function.update_of_ne (Ne.symm same)]
    rfl

/-- An event leaves the values in the order they came in. -/
theorem values_perform
    (fresh : vm.queueObjects ⟨vm.next⟩ = none)
    (done : vm.perform event = .ok vm') :
    vm.values q ++ vm.puts q event = vm.takes q event ++ vm'.values q := by
  simp only [puts, takes, done]
  cases event with
  | sleep call boundary =>
      have same : vm'.queueObjects = vm.queueObjects := by
        obtain ⟨micros, _, ⟨_, rfl⟩ | ⟨me, _, rfl⟩⟩ := sleepFor_ok done
        · exact wakeSleepers_queueObjects
        · exact noteWakeup_queueObjects _
      rw [values_of_eq same]
      exact List.append_nil _
  | queueNew =>
      cases done
      rw [values_of_update queueNew_queueObjects]
      rcases eq_or_ne ⟨vm.next⟩ q with rfl | differ
      · simp [values, fresh]
      · simp [differ]
  | push other value =>
      obtain ⟨data, held, -, rfl⟩ := queuePush_ok done
      have woke := (vm.setQueue other
        { data with items := data.items ++ [value] }).wakeQueueWaiters_still
          other false
      rw [values_of_update (woke.queueObjects.trans
        (setQueue_queueObjects other _))]
      rcases eq_or_ne other q with rfl | differ
      · simp [values_of_some held]
      · simp [differ]
  | popTry other nonBlock deadline boundary =>
      obtain ⟨popped, found, rfl⟩ := answered done
      simp only [found, List.append_nil]
      obtain ⟨data, held, ⟨item, rest, items, rfl⟩ |
        ⟨_, ⟨rfl, _⟩ | ⟨_, waits⟩⟩⟩ := queuePopTry_ok found
      · rw [values_of_update (setQueue_queueObjects other _)]
        rcases eq_or_ne other q with rfl | differ
        · simp [values_of_some held, items]
        · simp [differ]
      · rfl
      · rcases blockingPop_ok waits with rfl | ⟨me, _, _, rfl⟩
        · rfl
        · exact (values_of_eq (parkOnQueue_queueObjects _)).symm
  | tryPop other =>
      obtain ⟨popped, found, rfl⟩ := answered done
      simp only [found, List.append_nil]
      unfold queueTryPop at found
      obtain ⟨data, held, found⟩ := bind_ok found
      split at found
      · cases found
        rfl
      · rename_i item rest items
        cases found
        rw [values_of_update (setQueue_queueObjects other _)]
        rcases eq_or_ne other q with rfl | differ
        · simp [values_of_some (qItems_ok held), items]
        · simp [differ]
  | clear other =>
      obtain ⟨data, held, rfl⟩ := queueClear_ok done
      rw [values_of_update (setQueue_queueObjects other _)]
      rcases eq_or_ne other q with same | differ <;> simp [*]
  | closeQueue other =>
      obtain ⟨data, held, rfl | ⟨_, rfl⟩⟩ := queueClose_ok done
      · exact List.append_nil _
      · have woke := (vm.setQueue other
          { data with closed := true }).wakeQueueWaiters_still other true
        rw [values_of_update (woke.queueObjects.trans
          (setQueue_queueObjects other _))]
        rcases eq_or_ne other q with rfl | differ
        · simp [values_of_some held]
        · simp [differ]
  | advanceTicks n =>
      cases done
      rw [values_of_eq (show (vm.advanceTicks n).queueObjects =
        vm.queueObjects from wakeSleepers_queueObjects)]
      exact List.append_nil _
  | idle =>
      cases done
      rw [values_of_eq idle_queueObjects]
      exact List.append_nil _
  | _ =>
      rw [values_of_eq (still_perform rfl done).queueObjects]
      exact List.append_nil _

theorem values_step (fresh : vm.queueObjects ⟨vm.next⟩ = none) :
    vm.values q ++ vm.puts q event =
      vm.takes q event ++ (vm.step event).values q := by
  unfold step
  cases outcome : vm.perform event with
  | ok vm' => exact values_perform fresh outcome
  | error e =>
      simp only [puts, takes, outcome]
      exact List.append_nil _

/-- Ids from the next one on are of no queue. -/
theorem fresh_step
    (fresh : ∀ q : ObjId, vm.next ≤ q.index → vm.queueObjects q = none)
    (late : (vm.step event).next ≤ q.index) :
    (vm.step event).queueObjects q = none := by
  have stores := stores_step vm event
  by_contra inside
  rcases stores.made q inside with before | ⟨rfl, next, _⟩
  · exact before (fresh q (stores.next.trans late))
  · rw [next] at late
    exact absurd late (Nat.not_succ_le_self _)

theorem values_run
    (fresh : ∀ q : ObjId, vm.next ≤ q.index → vm.queueObjects q = none)
    (events : List Event) :
    vm.values q ++ vm.putsAll q events =
      vm.takesAll q events ++ (vm.run events).values q := by
  induction events generalizing vm with
  | nil => exact List.append_nil _
  | cons event later ih =>
      rw [putsAll, takesAll, ← List.append_assoc,
        values_step (fresh ⟨vm.next⟩ le_rfl), List.append_assoc,
        List.append_assoc]
      exact congrArg _ (ih fun q => fresh_step fresh)

/-- In every run the values taken out of a queue and then those still in it are
the values that were pushed to it, in the order they were pushed. -/
theorem values_in_order
    (indexFrom : Nat) (events : List Event) (q : ObjId) :
    (initial indexFrom).putsAll q events =
      (initial indexFrom).takesAll q events ++
        ((initial indexFrom).run events).values q :=
  @values_run (initial indexFrom) q (fun _ _ => rfl) events

end Vm

end SabiRuby.Tasks
