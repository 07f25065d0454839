import SabiRuby.Execution.Decode

/-!
# The interpreter loop and its slices

A run of the VM as the loop `exec_frames` sees it.  The frames of the running
context, the contexts, the scheduler's flags and the step budget are explicit.
What an opcode's arm does, and what the Rust code that started a nested loop
does once the loop has ended, are parameters.
-/

namespace SabiRuby.Execution

/-- `mrb_fiber_state`. -/
inductive FiberState
  | created
  | running
  | resumed
  | suspended
  | transferred
  | terminated
deriving DecidableEq, Repr

/-- How a frame was pushed. -/
inductive Cci
  | none
  | skip
  | keepSelf
deriving DecidableEq, Repr

/-- A frame: which push it is, its code and where it stands in it. -/
structure CallInfo where
  frame : Nat
  irep : Nat
  pc : Nat
  cci : Cci
deriving DecidableEq, Repr

/-- A context.  Its frames are here while it is parked; the frames of the
running context are in the VM, and the two are swapped on every switch. -/
structure Context where
  ci : List CallInfo
  status : FiberState
  prev : Option Nat
  vmexec : Bool
deriving DecidableEq, Repr

/-- The root context. -/
def root : Nat := 0

/-- The scheduler's fields that the loop reads. -/
structure TaskState where
  running : Bool
  switching : Bool
  overrun : Bool
  tickEvery : Nat
  tickLeft : Nat
deriving DecidableEq, Repr

/-- The VM.  `ci` is the frame stack of the running context, bottom first;
`rest` is everything the loop itself never reads. -/
structure Vm (ω : Type) where
  ireps : List (List UInt8)
  ci : List CallInfo
  cur : Nat
  contexts : List Context
  exc : Bool
  task : TaskState
  gcPending : Bool
  rest : ω
deriving DecidableEq

/-- How an arm, or the Rust code around a nested loop, goes on.  `restart` is
an exception or a break that the loop caught: `exec_frames` begins again. -/
inductive Outcome (ω : Type)
  | next (vm : Vm ω)
  | restart (vm : Vm ω)
  | nest (vm : Vm ω) (lc stopDepth : Nat)
  | leave (vm : Vm ω) (failed : Bool)

/-- The code around the loop: the arms of the opcodes other than the three
prefixes, the Rust code that started a nested loop and gets its result, what a
raised exception leads to, the scheduler's tick and the collector. -/
structure Arms (ω : Type) where
  perform : Instruction → Vm ω → Outcome ω
  native : Vm ω → Bool → Outcome ω
  raised : Vm ω → Outcome ω
  tick : TaskState → ω → TaskState × ω
  gcMaybe : List Context → ω → List Context × ω

/-- A running `exec_frames`: the context and the depth that end it, and the
width that the last instruction left pending. -/
structure Loop where
  lc : Nat
  stopDepth : Nat
  ext : Nat
deriving DecidableEq, Repr

/-- Who has control: the innermost loop at an instruction boundary, the Rust
code below it (the host where there is no loop), or nobody. -/
inductive Mode
  | boundary
  | native (failed : Bool)
  | panicked
deriving DecidableEq, Repr

/-- What a run shows: the instruction each turn executed, with the frame, its
code and the position, and the frames in which a turn raised before it had an
instruction. -/
inductive Event
  | ran (frame : Nat) (iseq : List UInt8) (pc : Nat) (i : Instruction)
  | raised (frame : Option Nat)
deriving DecidableEq, Repr

/-- The VM with the loops on the host stack, the innermost first, and the
events of the run, the latest first. -/
structure Machine (ω : Type) where
  vm : Vm ω
  loops : List Loop
  mode : Mode
  stepLeft : Option Nat
  trace : List Event
deriving DecidableEq

variable {ω : Type}

/-- The number of the running frame. -/
def Vm.topFrame (vm : Vm ω) : Option Nat :=
  vm.ci.getLast?.map CallInfo.frame

/-- Whether a frame above the bottom one was started from native code. -/
def Vm.fiberCheckNative (vm : Vm ω) (ctx : Nat) : Bool :=
  let ci := if ctx = vm.cur then vm.ci else
    match vm.contexts[ctx]? with
    | some context => context.ci
    | none => []
  (ci.drop 1).any fun c => c.cci == .skip

/-- Whether the running context was resumed by native code. -/
def Vm.vmexec (vm : Vm ω) : Bool :=
  match vm.contexts[vm.cur]? with
  | some context => context.vmexec
  | none => false

/-- Updates a context in place. -/
def Vm.setContext
    (vm : Vm ω)
    (ctx : Nat)
    (change : Context → Context) : Vm ω :=
  { vm with contexts := vm.contexts.modify ctx change }

/-- Exchanges the running frames with those kept for a context. -/
def Vm.swapFrames (vm : Vm ω) (ctx : Nat) : Vm ω :=
  match vm.contexts[ctx]? with
  | some context =>
      { vm.setContext ctx (fun c => { c with ci := vm.ci }) with
        ci := context.ci }
  | none => vm

/-- Makes a context the running one. -/
def Vm.switchContext (vm : Vm ω) (ctx : Nat) : Vm ω :=
  if vm.cur = ctx then vm
  else
    let swapped := (vm.swapFrames vm.cur).swapFrames ctx
    { swapped.setContext ctx (fun c => { c with status := .running }) with
      cur := ctx }

/-- Whether the running task can be switched out here. -/
def Vm.switchable (vm : Vm ω) : Bool :=
  vm.cur != root && !vm.exc && !vm.fiberCheckNative vm.cur && vm.vmexec

/-- The tick that a running task is counted by, and whether it raised because
the task ran past its limit where it cannot be switched out. -/
def Vm.countTick (A : Arms ω) (vm : Vm ω) : Vm ω × Bool :=
  if vm.task.tickEvery != 0 && vm.task.running then
    let task := { vm.task with tickLeft := vm.task.tickLeft - 1 }
    if task.tickLeft = 0 then
      let (task, rest) := A.tick task vm.rest
      if task.overrun then
        let vm : Vm ω :=
          { vm with
            task := { task with overrun := false, switching := true }
            rest := rest }
        (vm, !vm.switchable)
      else ({ vm with task := task, rest := rest }, false)
    else ({ vm with task := task }, false)
  else (vm, false)

/-- Leaves the running task suspended where it stands. -/
def Vm.suspend (vm : Vm ω) : Vm ω :=
  let prev := (vm.contexts[vm.cur]?.bind Context.prev).getD root
  let vm := { vm with task := { vm.task with switching := false } }
  (vm.setContext vm.cur fun c =>
    { c with prev := none, status := .suspended, vmexec := false })
    |>.switchContext prev

/-- Back to the root context with everything unwound. -/
def Vm.resetToRoot (vm : Vm ω) : Vm ω :=
  if vm.cur = root then { vm with ci := [] }
  else
    let vm := ({ vm with ci := [] }.setContext vm.cur fun c =>
      { c with status := .terminated }).switchContext root
    { vm with ci := [] }

/-- The collector, at the boundary. -/
def Vm.collect (A : Arms ω) (vm : Vm ω) : Vm ω :=
  if vm.gcPending then
    let (contexts, rest) := A.gcMaybe vm.contexts vm.rest
    { vm with contexts := contexts, rest := rest }
  else vm

/-- `Vm::step` returns: an error unwinds everything. -/
def Machine.settle (m : Machine ω) : Machine ω :=
  match m.mode with
  | .native true => { m with vm := m.vm.resetToRoot, stepLeft := none }
  | _ => { m with stepLeft := none }

/-- The innermost loop ends, and with the last one the call of `Vm::step`. -/
def Machine.leave
    (m : Machine ω)
    (below : List Loop)
    (vm : Vm ω)
    (failed : Bool) : Machine ω :=
  let m : Machine ω :=
    { m with vm := vm, loops := below, mode := .native failed }
  if below.isEmpty && m.stepLeft.isSome then m.settle else m

/-- The innermost loop goes to its next boundary. -/
def Machine.goOn
    (m : Machine ω)
    (loop : Loop)
    (below : List Loop)
    (vm : Vm ω)
    (ext : Nat) : Machine ω :=
  { m with
    vm := vm
    loops := { loop with ext := ext } :: below
    mode := .boundary }

/-- What follows an outcome.  A loop that starts begins with no width pending,
and so does one that begins again. -/
def Machine.after
    (m : Machine ω)
    (loop : Loop)
    (below : List Loop) : Outcome ω → Machine ω
  | .next vm => m.goOn loop below vm 0
  | .restart vm => m.goOn loop below vm 0
  | .nest vm lc stopDepth =>
      m.goOn { lc, stopDepth, ext := 0 } ({ loop with ext := 0 } :: below) vm 0
  | .leave vm failed => m.leave below vm failed

/-- The instruction of one turn. -/
def Machine.execute
    (A : Arms ω)
    (m : Machine ω)
    (loop : Loop)
    (below : List Loop)
    (vm : Vm ω) : Machine ω :=
  match vm.ci.getLast? with
  | none => { m with mode := .panicked }
  | some top =>
      match vm.ireps[top.irep]? with
      | none => { m with mode := .panicked }
      | some iseq =>
          match decode iseq top.pc loop.ext with
          | .error .outOfRange => { m with mode := .panicked }
          | .error (.badOpcode _) =>
              { m with trace := .raised (some top.frame) :: m.trace }.leave
                below vm true
          | .ok i =>
              let vm : Vm ω :=
                { vm with ci := vm.ci.dropLast ++ [{ top with pc := i.next }] }
              let m : Machine ω :=
                { m with trace := .ran top.frame iseq top.pc i :: m.trace }
              if i.op.ext = 0 then m.after loop below (A.perform i vm)
              else m.goOn loop below vm i.op.ext

/-- Whether the running task is switched out at this boundary. -/
def Vm.preempts (vm : Vm ω) : Bool :=
  vm.task.switching && vm.switchable

/-- Whether the budget of a step has run out at this boundary. -/
def Machine.exhausted (m : Machine ω) (loop : Loop) : Bool :=
  m.stepLeft == some 0 && loop.stopDepth == 0 && loop.lc == root

/-- One turn of `exec_frames`. -/
def Machine.turn
    (A : Arms ω)
    (m : Machine ω)
    (loop : Loop)
    (below : List Loop) : Machine ω :=
  match m.vm.countTick A with
  | (vm, true) =>
      let m : Machine ω := { m with trace := .raised vm.topFrame :: m.trace }
      m.after loop below (A.raised vm)
  | (vm, false) =>
      if vm.preempts then m.leave below vm.suspend false
      else if m.exhausted loop then m.leave below vm false
      else
        let m : Machine ω := { m with stepLeft := m.stepLeft.map (· - 1) }
        m.execute A loop below (vm.collect A)

/-- One step of the machine: a turn of the innermost loop, or what the Rust
code below an ended loop does.  The host is not part of the machine. -/
def Machine.step (A : Arms ω) (m : Machine ω) : Machine ω :=
  match m.mode, m.loops with
  | .boundary, loop :: below => m.turn A loop below
  | .native failed, loop :: below =>
      m.after loop below (A.native m.vm failed)
  | _, _ => m

/-- `Vm::step` is called: nothing happens when the program has finished. -/
def Machine.stepCall (m : Machine ω) (budget : Nat) : Machine ω :=
  if m.vm.ci.isEmpty then m
  else
    { m with
      loops := [{ lc := root, stopDepth := 0, ext := 0 }]
      mode := .boundary
      stepLeft := some budget }

/-- The loop is run with no budget, as a program that is never paused. -/
def Machine.uninterrupted (m : Machine ω) : Machine ω :=
  { m with
    loops := [{ lc := root, stopDepth := 0, ext := 0 }]
    mode := .boundary
    stepLeft := none }

/-- The host calls Rust code of the VM other than `step`: it may start a loop
(the scheduler's turn, a call of a method) or end without one. -/
def Machine.hostCall (m : Machine ω) : Outcome ω → Machine ω
  | .next vm => { m with vm := vm }
  | .restart vm => { m with vm := vm }
  | .leave vm _ => { m with vm := vm }
  | .nest vm lc stopDepth =>
      { m with
        vm := vm
        loops := [{ lc, stopDepth, ext := 0 }]
        mode := .boundary }

end SabiRuby.Execution
