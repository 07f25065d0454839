import SabiRuby.Fibers.Contexts

/-!
# Nested loops and the scheduler

The Rust code that waits on the host stack is explicit: natives called by an
instruction, `Task.run`, and the interpreter loops that a call of a block, a
native resume, a task and the host have started.  What the registers are left
as by an instruction, when a task is to be switched out and which tasks are
ready is up to the event.
-/

namespace SabiRuby.Fibers

open Execution (FiberState Cci root)

/-- How a loop ends for the Rust code that started it: a value, an exception, or
a break on its way to an outer loop. -/
inductive LoopEnd
  | value (v : Value)
  | raised (exc : Value)
  | broke
deriving DecidableEq, Repr

/-- What waits on the host stack.  A native keeps the context and the register
it was called for and whether its opcode looks at `loop_exit`; a loop keeps what
its end needs. -/
inductive Activation
  | native (ctx retReg : Nat) (looks : Bool)
  | taskRun
  | call (lc stopDepth base : Nat)
  | resume (c old : Nat)
  | task (t ctx old : Nat)
  | host
deriving DecidableEq, Repr

/-- The context and the depth of a loop. -/
def Activation.loop? : Activation → Option (Nat × Nat)
  | .native _ _ _ => none
  | .taskRun => none
  | .call lc stopDepth _ => some (lc, stopDepth)
  | .resume c _ => some (c, 0)
  | .task _ ctx _ => some (ctx, 0)
  | .host => some (root, 0)

/-- The VM, the host stack, the innermost activation first, and what the loop
that ended last answered. -/
structure Machine where
  vm : Vm
  acts : List Activation
  answer : Option LoopEnd

/-- Updates a task in place. -/
def Vm.setTask (vm : Vm) (t : Nat) (change : Task → Task) : Vm :=
  { vm with
    task :=
      { vm.task with
        tasks := fun u =>
          if u = t then change (vm.task.tasks u) else vm.task.tasks u } }

/-- The task that owns the running context. -/
def Vm.currentTask (vm : Vm) : Option Nat :=
  if vm.cur = root then none
  else vm.task.running.filter fun t => (vm.task.tasks t).ctx == vm.cur

/-- `create_task`: a fresh context and a task that is ready to run it. -/
def Vm.createTask (vm : Vm) (block : Block) : Vm :=
  let ctx := vm.len
  let t := vm.task.count
  let vm := vm.pushContext (Context.new .created (some block))
  let vm := vm.setTask t fun _ =>
    { ctx := ctx, status := .ready, result := .nil }
  { vm with
    task :=
      { vm.task with count := t + 1, ready := vm.task.ready ++ [t] } }

/-- `Task.current` where no task runs: the task that stands for the program, made
on first use and in no queue. -/
def Vm.mainTask (vm : Vm) : Vm :=
  if vm.currentTask.isSome || vm.task.main.isSome then vm
  else
    let t := vm.task.count
    let vm := vm.setTask t fun _ =>
      { ctx := root, status := .running, result := .nil }
    { vm with task := { vm.task with count := t + 1, main := some t } }

/-- Puts a task at the end of the queue of the ready ones. -/
def Vm.setReady (vm : Vm) (t : Nat) : Vm :=
  let vm := vm.setTask t fun task => { task with status := .ready }
  { vm with
    task :=
      { vm.task with ready := vm.task.ready.filter (· != t) ++ [t] } }

/-- The task is over.  Those that joined it become ready by an event. -/
def Vm.stopTask (vm : Vm) (t : Nat) : Vm :=
  let vm := vm.setTask t fun task => { task with status := .dormant }
  let vm : Vm :=
    { vm with
      task :=
        { vm.task with ready := vm.task.ready.filter (· != t) } }
  let ctx := (vm.task.tasks t).ctx
  if ctx = vm.cur then vm
  else
    vm.setContext ctx fun context =>
      { context with status := .terminated, ci := [], stack := [] }

/-- Lays the task's block on its fresh context. -/
def Vm.startBlock (vm : Vm) : Vm :=
  match vm.running.block with
  | none => vm
  | some block => vm.enterBlock block []

/-- `execute_task` up to the nested loop. -/
def Vm.enterTask (vm : Vm) (t : Nat) : Vm :=
  let ctx := (vm.task.tasks t).ctx
  let old := vm.cur
  let vm := vm.setTask t fun task => { task with status := .running }
  let vm : Vm :=
    { vm with
      task := { vm.task with running := some t, switching := false } }
  let first := (vm.contexts ctx).status == .created
  let vm := vm.setContext old fun context => { context with status := .resumed }
  let vm := vm.setContext ctx fun context =>
    { context with prev := some old, vmexec := true }
  let vm := vm.switchContext ctx
  if first then vm.startBlock else vm

/-- What the task's loop ended with becomes its result. -/
def Vm.settleTask (vm : Vm) (t ctx : Nat) : LoopEnd → Vm
  | .value v =>
      if (vm.contexts ctx).status = .terminated then
        (vm.setTask t fun task => { task with result := v }).stopTask t
      else if (vm.task.tasks t).status = .running then vm.setReady t
      else vm
  | .raised exc =>
      let vm := vm.setTask t fun task => { task with result := exc }
      (vm.setContext ctx fun context =>
        { context with status := .terminated, ci := [], stack := [] }).stopTask t
  | .broke =>
      (vm.setContext ctx fun context =>
        { context with status := .terminated }).stopTask t

/-- `execute_task` from the end of the nested loop on. -/
def Vm.leaveTask (vm : Vm) (t ctx old : Nat) (r : LoopEnd) : Vm :=
  let vm : Vm :=
    { vm with
      loopExit := none
      task := { vm.task with running := none, switching := false } }
  let vm := vm.setContext old fun context => { context with status := .running }
  let vm := if vm.cur = old then vm else vm.switchContext old
  vm.settleTask t ctx r

/-- The innermost loop ends, and what its starter does then. -/
def Machine.endLoop (m : Machine) (r : LoopEnd) : Machine :=
  match m.acts with
  | .call _ _ base :: rest =>
      { vm := m.vm.setContext m.vm.cur fun c =>
          { c with stack := c.stack.take base }
        acts := rest
        answer := some r }
  | .resume _ _ :: rest => { m with acts := rest, answer := some r }
  | .task t ctx old :: rest =>
      { vm := m.vm.leaveTask t ctx old r, acts := rest, answer := some r }
  | .host :: rest => { m with acts := rest, answer := some r }
  | _ => m

/-- What follows a native that an instruction called and that answered a value
(`call_native_direct` and the arm of the opcode). -/
def Machine.sent
    (m : Machine)
    (ctx retReg : Nat)
    (looks : Bool)
    (v : Value) : Machine :=
  let m : Machine :=
    if m.vm.cur = ctx then
      { m with vm := m.vm.setContext ctx fun c =>
          { c with stack := c.stack.set retReg v } }
    else if m.vm.loopExit.isSome then m
    else { m with vm := m.vm.deliver v }
  match looks, m.vm.loopExit with
  | true, some v =>
      Machine.endLoop { m with vm := { m.vm with loopExit := none } } (.value v)
  | _, _ => m

/-- The operations of Fiber that change the context. -/
inductive FiberCall
  | resume (fib : Option Nat) (args : List Value)
  | yield (args : List Value)
  | transfer (fib : Option Nat) (args : List Value)
deriving DecidableEq, Repr

/-- The context of its Fiber object is one of the table. -/
def FiberCall.known (vm : Vm) : FiberCall → Bool
  | .resume (some c) _ => c < vm.len
  | .transfer (some c) _ => c < vm.len
  | _ => true

/-- Runs the operation. -/
def FiberCall.perform
    (vm : Vm) : FiberCall → Option (Vm × Except String Value)
  | .resume fib args => some (vm.fiberResume fib args)
  | .yield args => some (vm.fiberYield args)
  | .transfer fib args => vm.fiberTransfer fib args

/-- What an interpreter loop does at an instruction boundary. -/
inductive Turn
  | compute (stack : List Value)
  | push (base : Nat) (keepSelf : Bool) (stack : List Value)
  | send (retReg : Nat) (looks : Bool)
  | fiber (call : FiberCall) (retReg : Nat) (looks : Bool)
  | ret (v : Value) (isBreak : Bool)
  | unwind
  | raise (exc : Value)
  | preempt
  | pause
deriving DecidableEq, Repr

/-- What Rust code does: a native, the scheduler's loop, or the host. -/
inductive Code
  | answer (v : Value)
  | fail
  | call (regs : List Value)
  | resume (fib : Option Nat) (args : List Value)
  | fiberNew (block : Block)
  | taskNew (block : Block)
  | taskCurrent
  | taskRun
  | schedulerStep
  | endRun
  | start (regs : List Value)
  | step
deriving DecidableEq, Repr

/-- An event: a turn of the innermost loop, an act of the Rust code in control,
or what the tick and the methods of Task do to the tasks: their states, the
queue of the ready ones, and whether a switch is asked for. -/
inductive Event
  | turn (t : Turn)
  | code (c : Code)
  | schedule (status : Nat → TaskStatus) (ready : List Nat) (switching : Bool)

/-- Takes the top frame of the running context off. -/
def Vm.popFrame (vm : Vm) : Vm :=
  vm.setContext vm.cur fun c => { c with ci := c.ci.dropLast }

/-- Pushes a frame on the running context. -/
def Vm.pushFrame (vm : Vm) (frame : CallInfo) (stack : List Value) : Vm :=
  vm.setContext vm.cur fun c =>
    { c with ci := c.ci ++ [frame], stack := stack }

/-- The frame at a depth of a context ends the loop started for it. -/
def endsLoop (cur lc stopDepth depth : Nat) : Bool :=
  cur == lc && depth ≤ stopDepth

/-- The top frame returns, or a break ends there (`unwind_return` at the frame
it was looking for). -/
def Machine.leaveFrame
    (m : Machine)
    (lc stopDepth : Nat)
    (v : Value)
    (isBreak : Bool) : Option Machine :=
  match m.vm.running.ci.getLast? with
  | none => none
  | some popped =>
      let depth := m.vm.running.ci.length - 1
      let vm := m.vm.popFrame
      if depth = 0 && vm.cur != root then
        let (vm, vmexec) := vm.fiberTerminate
        if vmexec then some (Machine.endLoop { m with vm := vm } (.value v))
        else some { m with vm := vm.deliver v }
      else if popped.cci == .skip || endsLoop vm.cur lc stopDepth depth then
        some (Machine.endLoop { m with vm := vm } (.value v))
      else if popped.cci == .keepSelf && !isBreak then some { m with vm := vm }
      else
        some { m with vm := vm.setContext vm.cur fun c =>
          { c with stack := c.stack.set popped.base v } }

/-- A return or a break goes through the top frame on its way to a frame below
it. -/
def Machine.unwindFrame
    (m : Machine)
    (lc stopDepth : Nat) : Option Machine :=
  match m.vm.running.ci.getLast? with
  | none => none
  | some popped =>
      let depth := m.vm.running.ci.length - 1
      if depth = 0 then none
      else
        let vm := m.vm.popFrame
        if popped.cci == .skip || endsLoop vm.cur lc stopDepth depth then
          some (Machine.endLoop { m with vm := vm } .broke)
        else some { m with vm := vm }

/-- An exception goes through the top frame (one round of `handle_raise` with
no handler). -/
def Machine.raiseFrame
    (m : Machine)
    (lc stopDepth : Nat)
    (exc : Value) : Option Machine :=
  if m.vm.running.ci = [] then none
  else
    let depth := m.vm.running.ci.length - 1
    let vm := m.vm.popFrame
    if depth = 0 && vm.cur != root then
      let (vm, vmexec) := vm.fiberTerminate
      if vmexec then some (Machine.endLoop { m with vm := vm } (.raised exc))
      else some { m with vm := vm }
    else if endsLoop vm.cur lc stopDepth depth then
      some (Machine.endLoop { m with vm := vm } (.raised exc))
    else some { m with vm := vm }

/-- The switch that the scheduler has asked for is taken here. -/
def Vm.switchable (vm : Vm) : Bool :=
  vm.task.switching && vm.cur != root && !vm.fiberCheckNative vm.cur &&
    vm.running.vmexec

/-- The running context is left suspended where it stands. -/
def Vm.suspend (vm : Vm) : Vm :=
  let prev := vm.running.prev.getD root
  let vm : Vm := { vm with task := { vm.task with switching := false } }
  (vm.setContext vm.cur fun context =>
    { context with prev := none, status := .suspended, vmexec := false })
    |>.switchContext prev

/-- A turn of the innermost loop. -/
def Machine.turn
    (m : Machine)
    (lc stopDepth : Nat) : Turn → Option Machine
  | .compute stack =>
      some { m with vm := m.vm.setContext m.vm.cur fun c =>
        { c with stack := stack } }
  | .push base keepSelf stack =>
      if m.vm.running.ci = [] then none
      else
        let cci := if keepSelf then Cci.keepSelf else Cci.none
        some { m with vm := m.vm.pushFrame { base := base, cci := cci } stack }
  | .send retReg looks =>
      if m.vm.running.ci = [] then none
      else some { m with acts := .native m.vm.cur retReg looks :: m.acts }
  | .fiber call retReg looks =>
      if m.vm.running.ci = [] || !call.known m.vm then none
      else
        let ctx := m.vm.cur
        let vm := { m.vm with directSend := true, nativeRetReg := retReg }
        match call.perform vm with
        | none => none
        | some (vm, r) =>
            let m : Machine := { m with vm := { vm with directSend := false } }
            match r with
            | .error _ => some m
            | .ok v => some (m.sent ctx retReg looks v)
  | .ret v isBreak => m.leaveFrame lc stopDepth v isBreak
  | .unwind => m.unwindFrame lc stopDepth
  | .raise exc => m.raiseFrame lc stopDepth exc
  | .preempt =>
      if m.vm.switchable then
        some (Machine.endLoop { m with vm := m.vm.suspend } (.value .nil))
      else none
  | .pause =>
      match m.acts with
      | .host :: _ => some (m.endLoop (.value .nil))
      | _ => none

/-- `execute_task`, up to the nested loop. -/
def Machine.executeTask (m : Machine) (t : Nat) : Machine :=
  let ctx := (m.vm.task.tasks t).ctx
  if (m.vm.contexts ctx).status = .terminated then
    { m with vm := m.vm.stopTask t }
  else
    { m with
      vm := m.vm.enterTask t
      acts := .task t ctx m.vm.cur :: m.acts }

/-- One turn of the scheduler. -/
def Machine.schedulerStep (m : Machine) : Machine :=
  match m.vm.task.ready with
  | [] => m
  | t :: rest =>
      let task := m.vm.task.tasks t
      if task.status = .dormant then
        { m with vm :=
            { m.vm with
              task := { m.vm.task with ready := rest } } }
      else if task.ctx = m.vm.cur then m
      else m.executeTask t

/-- `Task.run`: nothing to do where the scheduler is already running. -/
def Machine.taskRun (m : Machine) : Machine :=
  if m.vm.task.loopRunning || m.vm.currentTask.isSome then m
  else
    { m with
      vm := { m.vm with task := { m.vm.task with loopRunning := true } }
      acts := .taskRun :: m.acts }

/-- Native code calls a block or a method written in Ruby: its frame is a native
boundary, and a nested loop runs it.  A native that an instruction called has
the frame of that instruction below it. -/
def Machine.call (m : Machine) (regs : List Value) : Option Machine :=
  let running := m.vm.running
  if running.ci = [] && (m.acts != [] || m.vm.cur != root) then none
  else
    let frame : CallInfo := { base := running.stack.length, cci := .skip }
    some
      { m with
        vm := m.vm.pushFrame frame (running.stack ++ regs)
        acts :=
          .call m.vm.cur running.ci.length running.stack.length :: m.acts }

/-- A native resume: the fiber runs in a nested loop. -/
def Machine.nativeResume
    (m : Machine)
    (fib : Option Nat)
    (args : List Value) : Machine :=
  match m.vm.fiberResume fib args, fib with
  | (vm, .ok _), some c => { m with vm := vm, acts := .resume c m.vm.cur :: m.acts }
  | (vm, _), _ => { m with vm := vm }

/-- An act of the Rust code in control. -/
def Machine.code (m : Machine) : Code → Option Machine
  | .answer v =>
      match m.acts with
      | .native ctx retReg looks :: rest =>
          some (Machine.sent { m with acts := rest } ctx retReg looks v)
      | _ => none
  | .fail =>
      match m.acts with
      | .native _ _ _ :: rest => some { m with acts := rest }
      | _ => none
  | .call regs => m.call regs
  | .resume fib args =>
      if (FiberCall.resume fib args).known m.vm then some (m.nativeResume fib args)
      else none
  | .fiberNew block => some { m with vm := m.vm.fiberInit block }
  | .taskNew block => some { m with vm := m.vm.createTask block }
  | .taskCurrent => some { m with vm := m.vm.mainTask }
  | .taskRun => some m.taskRun
  | .schedulerStep => some m.schedulerStep
  | .endRun =>
      match m.acts, m.vm.task.ready with
      | .taskRun :: rest, [] =>
          some
            { m with
              vm :=
                { m.vm with task := { m.vm.task with loopRunning := false } }
              acts := rest }
      | _, _ => none
  | .start regs =>
      if m.acts = [] && m.vm.cur = root && m.vm.running.ci = [] then
        let stack := m.vm.running.stack
        let frame : CallInfo := { base := stack.length, cci := .skip }
        some { m with vm := m.vm.pushFrame frame (stack ++ regs) }
      else none
  | .step =>
      if m.acts = [] && m.vm.running.ci != [] then
        some { m with acts := [.host] }
      else none

/-- A step begins: nothing has been switched. -/
def Machine.begun (m : Machine) : Machine :=
  { m with vm := { m.vm with switches := [] } }

/-- One step; `none` when the event cannot happen here. -/
def Machine.step (m : Machine) (event : Event) : Option Machine :=
  let m := m.begun
  match event with
  | .turn t =>
      match m.acts.head?.bind Activation.loop? with
      | some (lc, stopDepth) => m.turn lc stopDepth t
      | none => none
  | .code c =>
      match m.acts.head?.bind Activation.loop? with
      | some _ => none
      | none => m.code c
  | .schedule status ready switching =>
      if ready.all (· < m.vm.task.count) then
        some
          { m with
            vm :=
              { m.vm with
                task :=
                  { m.vm.task with
                    tasks := fun t =>
                      { m.vm.task.tasks t with status := status t }
                    ready := ready
                    switching := switching } } }
      else none

/-- A VM that was just made: the root context, no task, nothing on the host
stack. -/
def Machine.initial : Machine :=
  { vm :=
      { contexts := fun c =>
          Context.new (if c = root then .created else .terminated) none
        len := 1
        cur := root
        directSend := false
        nativeRetReg := 0
        loopExit := none
        arrays := []
        task :=
          { tasks := fun _ => { ctx := root, status := .dormant, result := .nil }
            count := 0
            ready := []
            running := none
            main := none
            loopRunning := false
            switching := false }
        switches := [] }
    acts := []
    answer := none }

end SabiRuby.Fibers
