import SabiRuby.Execution.Machine

/-!
# Frames, environments and the blocks made in them

A block keeps the environment of the frame that made it and the proc that frame
ran.  A frame has at most one environment, made when it is first captured; where
the frame is gone no other takes its environment over.  What a frame's code does
to its registers is left to the events, but for the register of its block.
-/

namespace SabiRuby.Blocks

open Execution (Cci root)

/-- A proc: what was running when it was made, the environment it captured, and
its flags. -/
structure ProcData where
  upper : Option Nat
  env : Option Nat
  strict : Bool
  scope : Bool
  orphan : Bool
  deriving DecidableEq, Repr

/-- A frame.  `block` is the proc in its block register; `ensures` says that an
ensure body covers the instruction it stands at. -/
structure CallInfo where
  proc : Nat
  env : Option Nat
  block : Option Nat
  cci : Cci
  ensures : Bool
  deriving DecidableEq, Repr

/-- The procs by number, how many environments were made, and the frames of
every context, the outermost first. -/
structure Vm where
  procs : List ProcData
  envs : Nat
  contexts : Nat → List CallInfo
  cur : Nat

/-- The frames of the running context. -/
def Vm.ci (vm : Vm) : List CallInfo :=
  vm.contexts vm.cur

def Vm.setCi (vm : Vm) (ctx : Nat) (ci : List CallInfo) : Vm :=
  { vm with contexts := fun c => if c = ctx then ci else vm.contexts c }

/-- A program at its first instruction. -/
def Vm.initial : Vm where
  procs := [⟨none, none, false, true, false⟩]
  envs := 0
  contexts := fun c => if c = root then [⟨0, none, none, .skip, false⟩] else []
  cur := root

/-- A new proc has the next number. -/
def Vm.alloc (vm : Vm) (data : ProcData) : Vm :=
  { vm with procs := vm.procs ++ [data] }

/-- `MRB_PROC_ORPHAN` is set. -/
def Vm.markOrphan (vm : Vm) (p : Nat) : Vm :=
  { vm with
    procs := vm.procs.modify p fun pd => { pd with orphan := true } }

/-- The environment of the frame on top. -/
def Vm.callerEnv (vm : Vm) : Option Nat :=
  vm.ci.getLast?.bind CallInfo.env

/-- Whether a proc is a block of the frame on top. -/
def Vm.madeByCaller (vm : Vm) (pd : ProcData) : Bool :=
  !pd.strict && pd.env.isSome && pd.env == vm.callerEnv

/-- `orphan_block_of_native` -/
def Vm.orphanBlockOfNative (vm : Vm) (blk : Option Nat) : Vm :=
  match blk with
  | none => vm
  | some b =>
      match vm.procs[b]? with
      | none => vm
      | some pd => if vm.madeByCaller pd then vm.markOrphan b else vm

/-- `frame_env_at_ctx`: the environment of a frame, made now if it has none. -/
def Vm.frameEnvAt (vm : Vm) (ctx i : Nat) : Vm :=
  match (vm.contexts ctx)[i]? with
  | none => vm
  | some frame =>
      match frame.env with
      | some _ => vm
      | none =>
          { vm.setCi ctx
              ((vm.contexts ctx).set i { frame with env := some vm.envs }) with
            envs := vm.envs + 1 }

/-- `Op::Lambda`, `Op::Block`: a proc that captures the frame on top. -/
def Vm.makeBlock (vm : Vm) (strict : Bool) : Vm :=
  let vm := vm.frameEnvAt vm.cur (vm.ci.length - 1)
  match vm.ci.getLast? with
  | none => vm
  | some top => vm.alloc ⟨some top.proc, top.env, strict, false, false⟩

/-- `Op::Method` and the bodies of classes: a proc that captures nothing. -/
def Vm.makeMethod (vm : Vm) (strict : Bool) : Vm :=
  match vm.ci.getLast? with
  | none => vm
  | some top => vm.alloc ⟨some top.proc, none, strict, true, false⟩

/-- `Proc.new`: a copy of a block; one of the caller's own is an orphan. -/
def Vm.procNew (vm : Vm) (o : Nat) : Vm :=
  match vm.procs[o]? with
  | none => vm
  | some pd => vm.alloc { pd with orphan := vm.madeByCaller pd }

/-- `dup` and `clone` of a Proc. -/
def Vm.procDup (vm : Vm) (o : Nat) : Vm :=
  match vm.procs[o]? with
  | none => vm
  | some pd => vm.alloc { pd with orphan := true }

/-- The proc of a string that runs in a Binding, whose environment is no
frame's. -/
def Vm.evalInBinding (vm : Vm) (upper : Nat) : Vm :=
  if upper < vm.procs.length then
    { vm.alloc ⟨some upper, some vm.envs, false, false, false⟩ with
      envs := vm.envs + 1 }
  else vm

/-- A loaded program. -/
def Vm.load (vm : Vm) (scope : Bool) : Vm :=
  vm.alloc ⟨none, none, false, scope, false⟩

/-- A frame is pushed for a call. -/
def Vm.call (vm : Vm) (proc : Nat) (block : Option Nat) (cci : Cci) : Vm :=
  if proc < vm.procs.length then
    vm.setCi vm.cur (vm.ci ++ [⟨proc, none, block, cci, false⟩])
  else vm

/-- Changes the frame on top. -/
def Vm.modifyTop (vm : Vm) (change : CallInfo → CallInfo) : Vm :=
  vm.setCi vm.cur (vm.ci.modify (vm.ci.length - 1) change)

/-- `vm_call_proc`: the frame on top runs another proc. -/
def Vm.callProc (vm : Vm) (p : Nat) : Vm :=
  if p < vm.procs.length then
    vm.modifyTop fun top => { top with proc := p, env := none }
  else vm

/-- The frame on top goes on: what its block register holds and whether an
ensure body covers the next instruction. -/
def Vm.advance (vm : Vm) (block : Option Nat) (ensures : Bool) : Vm :=
  vm.modifyTop fun top => { top with block := block, ensures := ensures }

/-- The frame on top is taken off as it is. -/
def Vm.dropFrame (vm : Vm) : Vm :=
  vm.setCi vm.cur vm.ci.dropLast

/-- `pop_frame`: a block of the caller's that the frame was given loses its
home. -/
def Vm.popFrame (vm : Vm) : Vm :=
  match vm.ci.getLast? with
  | none => vm
  | some frame => vm.dropFrame.orphanBlockOfNative frame.block

/-- `switch_context` -/
def Vm.switchContext (vm : Vm) (ctx : Nat) : Vm :=
  { vm with cur := ctx }

/-- The frames of a context are given up. -/
def Vm.dropContext (vm : Vm) (ctx : Nat) : Vm :=
  vm.setCi ctx []

/-! ## Runs -/

/-- What happens to the frames and the procs. -/
inductive Event
  | makeBlock (strict : Bool)
  | makeMethod (strict : Bool)
  | procNew (o : Nat)
  | procDup (o : Nat)
  | evalInBinding (upper : Nat)
  | load (scope : Bool)
  | frameEnvAt (ctx i : Nat)
  | markOrphan (p : Nat)
  | orphanBlockOfNative (blk : Option Nat)
  | call (proc : Nat) (block : Option Nat) (cci : Cci)
  | callProc (p : Nat)
  | advance (block : Option Nat) (ensures : Bool)
  | popFrame
  | dropFrame
  | switchContext (ctx : Nat)
  | dropContext (ctx : Nat)
  deriving DecidableEq, Repr

def Vm.step (vm : Vm) : Event → Vm
  | .makeBlock strict => vm.makeBlock strict
  | .makeMethod strict => vm.makeMethod strict
  | .procNew o => vm.procNew o
  | .procDup o => vm.procDup o
  | .evalInBinding upper => vm.evalInBinding upper
  | .load scope => vm.load scope
  | .frameEnvAt ctx i => vm.frameEnvAt ctx i
  | .markOrphan p => vm.markOrphan p
  | .orphanBlockOfNative blk => vm.orphanBlockOfNative blk
  | .call proc block cci => vm.call proc block cci
  | .callProc p => vm.callProc p
  | .advance block ensures => vm.advance block ensures
  | .popFrame => vm.popFrame
  | .dropFrame => vm.dropFrame
  | .switchContext ctx => vm.switchContext ctx
  | .dropContext ctx => vm.dropContext ctx

/-- The state in which a run of the program ends. -/
def Vm.after (events : List Event) : Vm :=
  events.foldl Vm.step Vm.initial

end SabiRuby.Blocks
