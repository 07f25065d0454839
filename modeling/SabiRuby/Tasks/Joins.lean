import SabiRuby.Library.StepRuns
import SabiRuby.Tasks.Changes

/-!
# Who joins a task that is over

A task that ends makes those that join it ready, whichever way it ends, except
when it is closed.  So a task waits for one that is over exactly after a close of
a task that another one joins.
-/

namespace SabiRuby.Tasks

open Library

namespace Vm

variable {vm : Vm} {o : ObjId} {event : Event} {t t' : TaskData}

/-- Every task that waits to join another waits for one that is not over. -/
def Joined (vm : Vm) : Prop :=
  ∀ o t, vm.tasks o = some t → t.status = .waiting → t.reason = .join →
    ∃ other u, t.join = some other ∧ vm.tasks other = some u ∧
      u.status ≠ .dormant

/-- A close is refused, or no other task joins the one it closes. -/
def ClosesUnjoined (vm : Vm) : Event → Prop
  | .close done =>
      vm.tasks done = none ∨ vm.isCurrent done ∨
        ∀ o t, o ≠ done → vm.tasks o = some t → ¬t.joins done
  | _ => True

theorem not_stops_join (other : ObjId) : ¬vm.stops (.join other) o := by
  rintro (same | ⟨outcome, same, _⟩ | ⟨turn, _⟩)
  · cases same
  · cases same
  · exact turn

/-- A close that is not refused. -/
theorem step_close
    (held : vm.tasks o = some t)
    (other : vm.isCurrent o = false) :
    (vm.step (.close o)).tasks =
      Function.update vm.tasks o (some t.ended) := by
  have done : vm.perform (.close o) = .ok (((vm.qDelete o).endContext
      t.ctx).tdMut o fun t => { t with status := .dormant }) := by
    simp only [perform, taskClose, taskId, held, other]
    rfl
  unfold step
  rw [done]
  unfold tdMut
  dsimp only
  rw [endContext_tasks]
  change Function.update vm.tasks o ((vm.tasks o).map _) = _
  rw [held]
  rfl

/-- An event keeps every joined task alive unless it closes one. -/
theorem Joined.step
    (joined : vm.Joined)
    (orderly : vm.Orderly)
    (unjoined : vm.ClosesUnjoined event) : (vm.step event).Joined := by
  have alters := orderly.alters event
  intro o t' held' waits reason
  cases held : vm.tasks o with
  | none =>
      obtain ⟨_, _, unasked, _⟩ := alters.made o t' held held'
      rw [unasked] at reason
      cases reason
  | some t =>
      obtain ⟨t'', same, changed⟩ := alters.changed o t held
      rw [held'] at same
      cases same
      rcases changed.of_join waits reason with
        ⟨waited, joins, target⟩ | ⟨other, u, rfl, differs, target, known, alive⟩
      · obtain ⟨other, u, waitsFor, known, alive⟩ :=
          joined o t held waited joins
        obtain ⟨u', known', _⟩ := alters.changed other u known
        refine ⟨other, u', target ▸ waitsFor, known', fun dormant => ?_⟩
        have differs : o ≠ other := by
          rintro rfl
          rw [held'] at known'
          cases known'
          rw [waits] at dormant
          cases dormant
        have joinsOther : t.joins other := ⟨waited, joins, waitsFor⟩
        rcases alters.ended other u u' known known' dormant with
          before | rfl | ready
        · exact alive before
        · rcases unjoined with absent | current | alone
          · rw [known] at absent
            cases absent
          · have refused : vm.step (.close other) = vm := by
              have failed : vm.perform (.close other) =
                  .error (.runtime "cannot close the current task") := by
                simp only [perform, taskClose, taskId, known, current]
                rfl
              unfold Vm.step
              rw [failed]
            rw [refused, known] at known'
            cases known'
            exact alive dormant
          · exact alone o t differs held joinsOther
        · rw [ready o t held differs joinsOther] at held'
          cases held'
          cases waits
      · obtain ⟨u', known', changed⟩ := alters.changed other u known
        refine ⟨other, u', target, known', fun dormant => ?_⟩
        rcases changed.dormant dormant with before | same | stopped
        · exact alive before
        · cases same
        · exact not_stops_join other stopped

/-- A close that is not refused leaves those that join the task waiting for one
that is over. -/
theorem ClosesUnjoined.of_joined
    (joined : (vm.step event).Joined) : vm.ClosesUnjoined event := by
  cases event with
  | close done =>
      unfold ClosesUnjoined
      cases held : vm.tasks done with
      | none => exact .inl held
      | some u =>
          cases current : vm.isCurrent done with
          | true => exact .inr (.inl current)
          | false =>
              refine .inr (.inr fun o t differs known joins => ?_)
              have after := step_close held current
              obtain ⟨other, v, target, isOver, alive⟩ := joined o t
                (by rw [after, Function.update_of_ne differs, known])
                joins.1 joins.2.1
              rw [joins.2.2] at target
              cases target
              rw [after, Function.update_self] at isOver
              cases isOver
              exact alive rfl
  | _ => trivial

theorem joined_initial (indexFrom : Nat) : (initial indexFrom).Joined := by
  intro o t held
  cases held

/-- In a run no task ever waits for one that is over exactly if every close in it
is refused or closes a task that no other one joins. -/
theorem joined_iff_closes_unjoined (indexFrom : Nat) (events : List Event) :
    Throughout step Joined (initial indexFrom) events ↔
      StepsMeet step ClosesUnjoined (initial indexFrom) events := by
  exact throughout_iff_stepsMeet Orderly
    (fun vm event orderly => (orderly.step event).orderly)
    (fun vm event orderly joined =>
      ⟨.of_joined, fun unjoined => joined.step orderly unjoined⟩)
    (orderly_initial indexFrom) (joined_initial indexFrom)

/-- One task joins another, which the program then closes. -/
def closedWhileJoined : List Event :=
  [.taskNew none, .taskNew none, .schedule, .join ⟨1⟩, .leave .switched,
    .close ⟨1⟩]

/-- Its joiner waits for ever. -/
theorem joiner_of_closed_waits :
    ¬∀ (indexFrom : Nat) (events : List Event),
      ((initial indexFrom).run events).Joined := by
  intro always
  have waiting :
      ((initial TASK_INDEX_FROM).run closedWhileJoined).tasks ⟨0⟩ =
        some
          { ctx := some 1
            priority := PRIORITY_DEFAULT
            status := .waiting
            reason := .join
            result := .nil
            wakeupTick := NO_WAKEUP
            join := some ⟨1⟩
            queue := none } := by decide +kernel
  have isOver : (((initial TASK_INDEX_FROM).run closedWhileJoined).tasks ⟨1⟩).map
      TaskData.status = some .dormant := by decide +kernel
  obtain ⟨other, u, target, known, alive⟩ :=
    always TASK_INDEX_FROM closedWhileJoined ⟨0⟩ _ waiting rfl rfl
  cases target
  rw [known] at isOver
  exact alive (Option.some.inj isOver)

end Vm

end SabiRuby.Tasks
