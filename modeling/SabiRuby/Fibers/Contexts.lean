import SabiRuby.Execution.Machine
import SabiRuby.Value

/-!
# Contexts and the operations of Fiber

The contexts are one table, the frames and the registers of the running one
included: the swap with the VM's own fields on every switch is left out.  An
operation answers the VM and its value, or the text of the error it raises.
-/

namespace SabiRuby.Fibers

open Execution (FiberState Cci root)

/-- A frame: its first register and how it was pushed. -/
structure CallInfo where
  base : Nat
  cci : Cci
deriving DecidableEq, Repr

/-- What the first entry of a context reads of its block: the registers of its
code and the `self` it was made with. -/
structure Block where
  nregs : Nat
  self : Value
deriving DecidableEq, Repr

/-- A context: its registers, its frames, the bottom one first, and how it is
linked to the one that waits for it. -/
structure Context where
  stack : List Value
  ci : List CallInfo
  status : FiberState
  prev : Option Nat
  block : Option Block
  vmexec : Bool
  pendingReg : Option Nat
deriving DecidableEq, Repr

/-- `Context::new` with the block it will run. -/
def Context.new (status : FiberState) (block : Option Block) : Context :=
  { stack := []
    ci := []
    status := status
    prev := none
    block := block
    vmexec := false
    pendingReg := none }

/-- The states of a task. -/
inductive TaskStatus
  | dormant
  | ready
  | running
  | waiting
  | suspended
deriving DecidableEq, Repr

/-- A task. -/
structure Task where
  ctx : Nat
  status : TaskStatus
  result : Value
deriving DecidableEq, Repr

/-- The scheduler: the tasks, how many there are, the queue of the ready ones,
the running one, the one that stands for the root, and its flags. -/
structure TaskState where
  tasks : Nat → Task
  count : Nat
  ready : List Nat
  running : Option Nat
  main : Option Nat
  loopRunning : Bool
  switching : Bool

/-- The VM.  `switches` records what `switch_context` was asked for since the
last step began, as pairs of the context left and the context entered. -/
structure Vm where
  contexts : Nat → Context
  len : Nat
  cur : Nat
  directSend : Bool
  nativeRetReg : Nat
  loopExit : Option Value
  arrays : List (List Value)
  task : TaskState
  switches : List (Nat × Nat)

/-- The running context. -/
def Vm.running (vm : Vm) : Context :=
  vm.contexts vm.cur

/-- Updates a context in place. -/
def Vm.setContext
    (vm : Vm)
    (ctx : Nat)
    (change : Context → Context) : Vm :=
  { vm with
    contexts := fun c =>
      if c = ctx then change (vm.contexts c) else vm.contexts c }

/-- Appends a context to the table. -/
def Vm.pushContext (vm : Vm) (context : Context) : Vm :=
  { vm with
    contexts := fun c => if c = vm.len then context else vm.contexts c
    len := vm.len + 1 }

/-- Puts a value in the register that the running context waits on. -/
def Vm.deliver (vm : Vm) (v : Value) : Vm :=
  match vm.running.pendingReg with
  | some reg =>
      vm.setContext vm.cur fun c =>
        { c with
          pendingReg := none
          stack := c.stack.set reg v }
  | none => vm

/-- Makes a context the running one. -/
def Vm.switchContext (vm : Vm) (target : Nat) : Vm :=
  let vm := { vm with switches := vm.switches ++ [(vm.cur, target)] }
  if vm.cur = target then vm
  else
    { vm.setContext target fun c => { c with status := .running } with
      cur := target }

/-- Terminates the running context and switches to the one it returns to.
Answers whether it was running under a native resume. -/
def Vm.fiberTerminate (vm : Vm) : Vm × Bool :=
  let c := vm.cur
  let vmexec := vm.running.vmexec
  let prev := vm.running.prev
  let vm := vm.setContext c fun context =>
    { context with vmexec := false, status := .terminated, prev := none }
  let vm := vm.switchContext (prev.getD root)
  let vm := vm.setContext c fun context => { context with stack := [], ci := [] }
  (vm, vmexec)

/-- `Fiber#initialize` of a fresh object: the context that will run a block. -/
def Vm.fiberInit (vm : Vm) (block : Block) : Vm :=
  vm.pushContext (Context.new .created (some block))

/-- A fresh array. -/
def Vm.aryNew (vm : Vm) (values : List Value) : Vm × Value :=
  ({ vm with arrays := vm.arrays ++ [values] }, .obj ⟨vm.arrays.length⟩)

/-- The one value that several arguments stand for. -/
def Vm.fiberResult (vm : Vm) (args : List Value) : Vm × Value :=
  match args with
  | [] => (vm, .nil)
  | [v] => (vm, v)
  | _ => vm.aryNew args

/-- Whether a context has a frame above the bottom one that native code waits
for. -/
def Vm.fiberCheckNative (vm : Vm) (ctx : Nat) : Bool :=
  ((vm.contexts ctx).ci.drop 1).any fun c => c.cci == .skip

/-- The context of a Fiber object; an object that never went through
`initialize` has none. -/
def fiberContext : Option Nat → Except String Nat
  | some c => .ok c
  | none => .error "uninitialized Fiber"

/-- Why a context cannot be entered, by its status. -/
def FiberState.refusal (resume : Bool) : FiberState → Option String
  | .transferred => if resume then some "resuming transferred fiber" else none
  | .running => some "double resume"
  | .resumed => some "double resume"
  | .terminated => some "resuming dead fiber"
  | .created => none
  | .suspended => none

/-- The registers of a block's first frame: `self`, then the arguments, fifteen
or more of them as one array. -/
def Vm.layBlock
    (vm : Vm)
    (block : Block)
    (args : List Value) : Vm × List Value :=
  let nregs := max (max block.nregs (args.length + 3)) 4
  if 15 ≤ args.length then
    let (vm, packed) := vm.aryNew args
    (vm, block.self :: packed :: List.replicate (nregs - 2) .nil)
  else
    (vm, block.self :: args ++ List.replicate (nregs - 1 - args.length) .nil)

/-- Lays the block of the running context on it, as its bottom frame. -/
def Vm.enterBlock
    (vm : Vm)
    (block : Block)
    (args : List Value) : Vm :=
  let (vm, stack) := vm.layBlock block args
  vm.setContext vm.cur fun c =>
    { c with stack := stack, ci := [{ base := 0, cci := .none }] }

/-- Links the context to be entered to the running one, and marks the running
one as waiting. -/
def Vm.linkContext
    (vm : Vm)
    (c : Nat)
    (resume vmexec : Bool) : Vm :=
  let old := vm.cur
  let vm :=
    if resume then
      (vm.setContext old fun context => { context with status := .resumed })
        |>.setContext c fun context => { context with prev := some old }
    else
      (vm.setContext old fun context => { context with status := .transferred })
        |>.setContext c fun context => { context with prev := none }
  if vmexec then
    vm.setContext c fun context => { context with vmexec := true }
  else
    vm.setContext old fun context =>
      { context with pendingReg := some vm.nativeRetReg }

/-- What the context entered begins with. -/
def Vm.beginContext
    (vm : Vm)
    (status : FiberState)
    (args : List Value)
    (vmexec : Bool) : Vm × Except String Value :=
  if status = .created then
    match vm.running.block with
    | none => (vm, .error "double resume (current)")
    | some block => (vm.enterBlock block args, .ok block.self)
  else
    let (vm, value) := vm.fiberResult args
    (if vmexec then vm.deliver value else vm, .ok value)

/-- `fiber_switch` up to the nested loop that a native resume then runs. -/
def Vm.fiberSwitch
    (vm : Vm)
    (c : Nat)
    (args : List Value)
    (resume vmexec : Bool) : Vm × Except String Value :=
  if resume && c == vm.cur then
    (vm, .error "attempt to resume the current fiber")
  else
    let status := (vm.contexts c).status
    match FiberState.refusal resume status with
    | some text => (vm, .error text)
    | none =>
        if vm.fiberCheckNative c then
          (vm, .error "can't cross C function boundary")
        else
          ((vm.linkContext c resume vmexec).switchContext c).beginContext
            status args vmexec

/-- `Fiber#resume`. -/
def Vm.fiberResume
    (vm : Vm)
    (fib : Option Nat)
    (args : List Value) : Vm × Except String Value :=
  match fiberContext fib with
  | .error text => (vm, .error text)
  | .ok c => vm.fiberSwitch c args true !vm.directSend

/-- `Fiber.yield`. -/
def Vm.fiberYield
    (vm : Vm)
    (args : List Value) : Vm × Except String Value :=
  let c := vm.cur
  match vm.running.prev with
  | none => (vm, .error "attempt to yield on a not resumed fiber")
  | some prev =>
      if c = root then (vm, .error "can't yield from root fiber")
      else if (vm.contexts prev).status = .transferred then
        (vm, .error "attempt to yield on a not resumed fiber")
      else if !vm.directSend || vm.fiberCheckNative c then
        (vm, .error "can't cross C function boundary")
      else
        let (vm, value) := vm.fiberResult args
        let vmexec := vm.running.vmexec
        let vm := vm.setContext c fun context =>
          { context with
            status := .suspended
            pendingReg := some vm.nativeRetReg
            prev := none
            vmexec := false }
        let vm := vm.switchContext prev
        (if vmexec then { vm with loopExit := some value } else vm, .ok value)

/-- Whether native code waits somewhere on the chain of resumers, from a context
down to the root or to a context nobody resumed.  The walk has as many steps as
its first argument; `none` when they were not enough. -/
def Vm.crossesNative (vm : Vm) : Nat → Nat → Option Bool
  | 0, _ => none
  | fuel + 1, i =>
      if vm.fiberCheckNative i || (vm.contexts i).vmexec then some true
      else if i = root then some false
      else
        match (vm.contexts i).prev with
        | none => some false
        | some prev => vm.crossesNative fuel prev

/-- `Fiber#transfer`; `none` when the walk over the resumers does not end. -/
def Vm.fiberTransfer
    (vm : Vm)
    (fib : Option Nat)
    (args : List Value) : Option (Vm × Except String Value) :=
  match fiberContext fib with
  | .error text => some (vm, .error text)
  | .ok c =>
      if !vm.directSend then
        some (vm, .error "can't cross C function boundary")
      else
        match vm.crossesNative vm.len vm.cur with
        | none => none
        | some true => some (vm, .error "can't cross C function boundary")
        | some false =>
            if (vm.contexts c).status = .resumed then
              some (vm, .error "attempt to transfer to a resuming fiber")
            else if c = root then
              let (vm, value) := vm.fiberResult args
              if vm.cur = root then some (vm, .ok value)
              else
                let vm := vm.setContext vm.cur fun context =>
                  { context with
                    status := .transferred
                    pendingReg := some vm.nativeRetReg }
                some (vm.switchContext root, .ok value)
            else if c = vm.cur then
              let (vm, value) := vm.fiberResult args
              some (vm, .ok value)
            else some (vm.fiberSwitch c args false false)

end SabiRuby.Fibers
