import SabiRuby.Checkpoint.Image
import SabiRuby.Tasks.Due

/-!
# Building the tasks of an image

The scheduler of an image is built into an idle one: its clock is converted to
this clock's unit, and each task is given its fields and put in its queue.
-/

namespace SabiRuby.Checkpoint

open Library Tasks

/-- What the other parts of an image were built to: its objects, its values, the
objects that are tasks and the contexts. -/
structure Builder where
  obj : UInt32 → Except String ObjId
  val : Val → Except String Value
  isTask : ObjId → Bool
  ctxs : List Nat

/-- `obj_opt`. -/
def Builder.objOpt (b : Builder) (i : UInt32) : Except String (Option ObjId) :=
  if i = 0 then .ok none else (b.obj i).map some

/-- The ticks of the writer's clock in this one's. -/
def convTicks (t : Int) (unit : UInt16) : Int :=
  let here : Int := TICK_UNIT_MS
  if unit = 0 ∨ (unit.toNat : Int) = here then t
  else
    let ms := t * unit.toNat
    if 0 ≤ ms then (ms + here - 1).tdiv here else ms.tdiv here

/-- The cast to `u32`. -/
def asU32 (t : Int) : UInt32 := UInt32.ofNat (t % 2 ^ 32).toNat

/-- The clock an image is restored at. -/
def restoredTick (s : SchedRec) : UInt32 :=
  asU32 (convTicks s.tick.toNat s.unit)

/-- So many ticks of the writer's clock from now on. -/
def deadline (s : SchedRec) (left : Int32) : UInt32 :=
  restoredTick s + asU32 (convTicks left.toInt s.unit)

/-- A status as `q_of` reads it: any other is that of a dormant task. -/
def statusOf (status : UInt8) : Status :=
  if status = 2 then .ready
  else if status = 3 then .running
  else if status = 4 then .waiting
  else if status = 8 then .suspended
  else .dormant

def reasonOf (reason : UInt8) : Reason :=
  if reason = 1 then .sleep
  else if reason = 4 then .join
  else if reason = 8 then .queue
  else .none

/-- The object of a task of the image, by its number. -/
def taskObj (b : Builder) (s : SchedRec) (i : UInt32) : Except String ObjId :=
  match if i = 0 then none else s.tasks[i.toNat - 1]? with
  | some t => b.obj t.obj
  | none => .error ("Task #" ++ toString i ++ " out of range")

/-- The context of a task, whose object has to be one. -/
def taskContext
    (b : Builder)
    (o : ObjId)
    (i : Nat)
    (t : TaskRec) : Except String Nat :=
  if b.isTask o = false then
    .error ("Task #" ++ toString (i + 1) ++ " has no Task object")
  else if t.queue = 255 then .ok ROOT
  else
    match if t.ctx = 0 then none else b.ctxs[t.ctx.toNat - 1]? with
    | some ctx => .ok ctx
    | none => .error ("Task #" ++ toString (i + 1) ++ " has no context")

/-- The deadline, the joined task and the queue of what a task waits for. -/
def waitOf (b : Builder) (s : SchedRec) :
    WaitRec → Except String (UInt32 × Option ObjId × Option ObjId)
  | .none => .ok (NO_WAKEUP, none, none)
  | .sleep left => .ok (deadline s left, none, none)
  | .join j =>
      if j = 0 then .ok (NO_WAKEUP, none, none)
      else (taskObj b s j).map fun o => (NO_WAKEUP, some o, none)
  | .queue q left =>
      (b.objOpt q).map fun o =>
        ((left.map (deadline s)).getD NO_WAKEUP, none, o)

/-- The name of a task, which the main task may lack. -/
def taskName (b : Builder) (t : TaskRec) : Except String (Option Value) :=
  if t.queue = 255 ∧ t.name = .nil then .ok none else (b.val t.name).map some

/-- Gives a task its fields, out of every queue. -/
def setTask (vm : Vm) (o : ObjId) (t : TaskData) : Vm :=
  { vm with
    tasks := Function.update vm.tasks o (some t)
    line := vm.line.setPlace o .NONE }

/-- One task of the loop of `build_tasks`. -/
def buildTask
    (b : Builder)
    (s : SchedRec)
    (vm : Vm)
    (i : Nat)
    (t : TaskRec) : Except String Vm := do
  let o ← b.obj t.obj
  let ctx ← taskContext b o i t
  let (wakeup, join, queue) ← waitOf b s t.wait
  let _ ← taskName b t
  let result ← b.val t.result
  let vm := setTask vm o
    { ctx := some ctx
      priority := t.priority.toNat
      status := statusOf t.status
      reason := reasonOf t.reason
      result := result
      wakeupTick := wakeup
      join := join
      queue := queue }
  .ok (if t.queue = 255 then { vm with main := some o } else vm.qInsert o)

/-- The loop of `build_tasks`. -/
def buildEach (b : Builder) (s : SchedRec) :
    Nat → List TaskRec → Vm → Except String Vm
  | _, [], vm => .ok vm
  | i, t :: rest, vm => do
      let vm ← buildTask b s vm i t
      buildEach b s (i + 1) rest vm

/-- The scheduler with its clock set. -/
def setClock (s : SchedRec) (vm : Vm) : Vm :=
  { vm with
    tick := restoredTick s
    wakeupTick := (s.wakeup.map (deadline s)).getD NO_WAKEUP
    line := { vm.line with tickSeen := restoredTick s } }

/-- `build_tasks`. -/
def buildTasks (b : Builder) (s : SchedRec) (vm : Vm) : Except String Vm :=
  buildEach b s 0 s.tasks (setClock s vm)

/-! ## What a task is restored to -/

/-- The deadline a record gives. -/
def TaskRec.wakeup (s : SchedRec) (t : TaskRec) : UInt32 :=
  match t.wait with
  | .sleep left => deadline s left
  | .queue _ (some left) => deadline s left
  | _ => NO_WAKEUP

/-- The fields a task has from its record. -/
structure Restores (s : SchedRec) (t : TaskRec) (data : TaskData) : Prop where
  priority : data.priority = t.priority.toNat
  status : data.status = statusOf t.status
  reason : data.reason = reasonOf t.reason
  wakeup : data.wakeupTick = t.wakeup s

theorem waitOf_wakeup
    {t : TaskRec}
    (done : waitOf b s t.wait = .ok waits) : waits.1 = t.wakeup s := by
  rw [TaskRec.wakeup]
  cases wait : t.wait with
  | none =>
      rw [wait, waitOf, Except.ok.injEq] at done
      rw [← done]
  | sleep left =>
      rw [wait, waitOf, Except.ok.injEq] at done
      rw [← done]
  | join j =>
      rw [wait, waitOf] at done
      split at done
      case isTrue =>
        rw [Except.ok.injEq] at done
        rw [← done]
      case isFalse =>
        cases found : taskObj b s j with
        | error why =>
            rw [found] at done
            cases done
        | ok o =>
            rw [found] at done
            cases done
            rfl
  | queue q left =>
      rw [wait, waitOf] at done
      cases found : b.objOpt q with
      | error why =>
          rw [found] at done
          cases done
      | ok o =>
          rw [found] at done
          cases done
          cases left with
          | none => rfl
          | some left => rfl

/-- What building a task does: it gives its object the fields of the record and
puts it in the queue, unless it is the main one. -/
theorem buildTask_ok
    (done : buildTask b s vm i t = .ok vm') :
    ∃ o data, b.obj t.obj = .ok o ∧ Restores s t data ∧
      vm' = if t.queue = 255 then { setTask vm o data with main := some o }
        else (setTask vm o data).qInsert o := by
  rw [buildTask] at done
  cases object : b.obj t.obj with
  | error why =>
      rw [object] at done
      cases done
  | ok o =>
      rw [object] at done
      change ((taskContext b o i t).bind _) = _ at done
      cases context : taskContext b o i t with
      | error why =>
          rw [context] at done
          cases done
      | ok ctx =>
          rw [context] at done
          change ((waitOf b s t.wait).bind _) = _ at done
          cases waits : waitOf b s t.wait with
          | error why =>
              rw [waits] at done
              cases done
          | ok found =>
              rw [waits] at done
              change ((taskName b t).bind _) = _ at done
              cases name : taskName b t with
              | error why =>
                  rw [name] at done
                  cases done
              | ok _ =>
                  rw [name] at done
                  change ((b.val t.result).bind _) = _ at done
                  cases result : b.val t.result with
                  | error why =>
                      rw [result] at done
                      cases done
                  | ok value =>
                      rw [result] at done
                      cases done
                      exact ⟨o, _, rfl, ⟨rfl, rfl, rfl, waitOf_wakeup waits⟩,
                        rfl⟩

end SabiRuby.Checkpoint
