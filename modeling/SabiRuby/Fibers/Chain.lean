import Mathlib.Data.List.Induction
import Mathlib.Data.List.Perm.Subperm
import SabiRuby.Fibers.Protocol

/-!
# The chain of resumers over a run

Every step of the machine is one of the moves of the protocol, as long as the
scheduler picks no context that waits and no instruction loses a `loop_exit`.
-/

namespace SabiRuby.Fibers

open Execution (FiberState Cci root)
open Function (update)
open Library (LinkChain)

/-- The depths of the frames above the bottom one that native code waits for,
the topmost first. -/
def skips (ci : List CallInfo) : List Nat :=
  ((List.range ci.length).filter fun i =>
    i != 0 && (ci[i]?.map CallInfo.cci) == some .skip).reverse

/-- What the protocol sees of the VM. -/
def Vm.view (vm : Vm) : View :=
  { cur := vm.cur
    prev := fun c => (vm.contexts c).prev
    status := fun c => (vm.contexts c).status
    vmexec := fun c => (vm.contexts c).vmexec
    natives := fun c => skips (vm.contexts c).ci }

section Skips

variable
  {ci : List CallInfo}
  {frame : CallInfo}

@[simp]
theorem skips_nil : skips [] = [] := rfl

/-- Only the new frame matters when one is pushed. -/
theorem skips_append
    (ci : List CallInfo)
    (frame : CallInfo) :
    skips (ci ++ [frame]) =
      if ci ≠ [] ∧ frame.cci = .skip then ci.length :: skips ci
      else skips ci := by
  have below :
      ((List.range ci.length).filter fun i =>
          i != 0 && ((ci ++ [frame])[i]?.map CallInfo.cci) == some .skip) =
        ((List.range ci.length).filter fun i =>
          i != 0 && (ci[i]?.map CallInfo.cci) == some .skip) := by
    apply List.filter_congr
    intro i member
    rw [List.getElem?_append_left (List.mem_range.mp member)]
  unfold skips
  rw [List.length_append, List.length_singleton, List.range_succ,
    List.filter_append, below]
  by_cases isSkip : frame.cci = .skip
  · by_cases empty : ci = []
    · simp [empty]
    · have positive : ci.length ≠ 0 := by simpa using empty
      simp [isSkip, empty, positive]
  · simp [isSkip]

theorem skips_singleton (frame : CallInfo) :
    skips [frame] = [] := by
  simpa using skips_append [] frame

/-- No native frame above the bottom one. -/
theorem any_drop_eq (ci : List CallInfo) :
    ((ci.drop 1).any fun c => c.cci == .skip) = !(skips ci).isEmpty := by
  induction ci using List.reverseRecOn with
  | nil => rfl
  | append_singleton ci frame hypothesis =>
      cases ci with
      | nil => simp [skips_singleton]
      | cons bottom ci =>
          rw [skips_append]
          have split :
              ((bottom :: ci ++ [frame]).drop 1).any (fun c => c.cci == .skip) =
                (((bottom :: ci).drop 1).any (fun c => c.cci == .skip) ||
                  frame.cci == .skip) := by
            simp
          rw [split, hypothesis]
          by_cases isSkip : frame.cci = .skip
          · simp [isSkip]
          · simp [isSkip]

/-- A depth at which native code waits is below the top. -/
theorem lt_of_mem_skips
    {depth : Nat}
    (member : depth ∈ skips ci) :
    depth < ci.length ∧ depth ≠ 0 ∧ ∃ frame, ci[depth]? = some frame ∧
      frame.cci = .skip := by
  simp only [skips, List.mem_reverse, List.mem_filter, List.mem_range,
    bne_iff_ne, ne_eq, Bool.and_eq_true, beq_iff_eq,
    Option.map_eq_some_iff] at member
  exact ⟨member.1, member.2.1, member.2.2⟩

end Skips

/-- What an operation leaves alone: the blocks of the contexts, the contexts of
the tasks, and no context is created. -/
structure Steady (vm vm' : Vm) : Prop where
  len : vm'.len = vm.len
  sending : vm'.directSend = vm.directSend
  count : vm'.task.count = vm.task.count
  tasks : ∀ t, (vm'.task.tasks t).ctx = (vm.task.tasks t).ctx
  ready :
    ∀ t ∈ vm'.task.ready, t ∈ vm.task.ready ∨ t < vm.task.count
  blocks : ∀ c, (vm'.contexts c).block = (vm.contexts c).block
  created :
    ∀ c, (vm'.contexts c).status = .created →
      (vm.contexts c).status = .created

theorem Steady.refl (vm : Vm) : Steady vm vm where
  len := rfl
  sending := rfl
  count := rfl
  tasks := fun _ => rfl
  ready := fun _ member => .inl member
  blocks := fun _ => rfl
  created := fun _ created => created

theorem Steady.trans
    {vm vm' vm'' : Vm}
    (first : Steady vm vm')
    (second : Steady vm' vm'') :
    Steady vm vm'' where
  len := second.len.trans first.len
  sending := second.sending.trans first.sending
  count := second.count.trans first.count
  tasks := fun t => (second.tasks t).trans (first.tasks t)
  ready := by
    intro t member
    rcases second.ready t member with member | bound
    · exact first.ready t member
    · exact .inr (first.count ▸ bound)
  blocks := fun c => (second.blocks c).trans (first.blocks c)
  created := fun c created => first.created c (second.created c created)

/-- What holds of a VM whatever its chain is. -/
structure Vm.Whole (vm : Vm) : Prop where
  rootBound : root < vm.len
  blocks :
    ∀ c, c ≠ root → (vm.contexts c).status = .created →
      (vm.contexts c).block ≠ none
  tasks : ∀ t, t < vm.task.count → (vm.task.tasks t).ctx < vm.len
  ready : ∀ t ∈ vm.task.ready, t < vm.task.count

theorem Vm.Whole.of_steady
    {vm vm' : Vm}
    (whole : vm.Whole)
    (steady : Steady vm vm') :
    vm'.Whole where
  rootBound := steady.len ▸ whole.rootBound
  blocks := by
    intro c notRoot created
    rw [steady.blocks c]
    exact whole.blocks c notRoot (steady.created c created)
  tasks := by
    intro t bound
    rw [steady.tasks t, steady.len]
    exact whole.tasks t (steady.count ▸ bound)
  ready := by
    intro t member
    rw [steady.count]
    rcases steady.ready t member with member | bound
    · exact whole.ready t member
    · exact bound

section Operations

variable
  (vm : Vm)
  (ctx : Nat)

section

variable (change : Context → Context)
include change

@[simp]
theorem setContext_contexts
    (c : Nat) :
    (vm.setContext ctx change).contexts c =
      if c = ctx then change (vm.contexts c) else vm.contexts c := rfl

/-- A change of a context that creates none. -/
theorem steady_setContext
    (block : ∀ c, (change c).block = c.block)
    (created : ∀ c, (change c).status = .created → c.status = .created) :
    Steady vm (vm.setContext ctx change) where
  len := rfl
  sending := rfl
  count := rfl
  tasks := fun _ => rfl
  ready := fun _ member => .inl member
  blocks := by
    intro c
    rw [setContext_contexts]
    split
    · exact block _
    · rfl
  created := by
    intro c
    rw [setContext_contexts]
    split
    · exact created _
    · exact id

/-- A change that the protocol does not see. -/
theorem view_setContext
    (prev : ∀ c, (change c).prev = c.prev)
    (status : ∀ c, (change c).status = c.status)
    (vmexec : ∀ c, (change c).vmexec = c.vmexec)
    (ci : skips (change (vm.contexts ctx)).ci = skips (vm.contexts ctx).ci) :
    (vm.setContext ctx change).view = vm.view := by
  have same :
      ∀ {β : Type} (f : Context → β),
        f (change (vm.contexts ctx)) = f (vm.contexts ctx) →
          (fun c => f ((vm.setContext ctx change).contexts c)) =
            fun c => f (vm.contexts c) := by
    intro β f agree
    funext c
    rw [setContext_contexts]
    by_cases here : c = ctx
    · rw [if_pos here, here, agree]
    · rw [if_neg here]
  unfold Vm.view
  rw [same Context.prev (prev _), same Context.status (status _),
    same Context.vmexec (vmexec _), same (fun c => skips c.ci) ci]
  rfl

end

theorem steady_switchContext : Steady vm (vm.switchContext ctx) := by
  unfold Vm.switchContext
  dsimp only
  have entered :=
    steady_setContext vm ctx (fun c => { c with status := .running })
      (fun _ => rfl) (by simp)
  split
  · exact ⟨rfl, rfl, rfl, fun _ => rfl, fun _ member => .inl member,
      fun _ => rfl, fun _ => id⟩
  · exact ⟨rfl, rfl, rfl, fun _ => rfl, fun _ member => .inl member,
      entered.blocks, entered.created⟩

theorem switchContext_switches :
    (vm.switchContext ctx).switches = vm.switches ++ [(vm.cur, ctx)] := by
  unfold Vm.switchContext
  dsimp only
  split <;> rfl

theorem switchContext_loopExit :
    (vm.switchContext ctx).loopExit = vm.loopExit := by
  unfold Vm.switchContext
  dsimp only
  split <;> rfl

/-- A switch to another context marks it as running and changes no link. -/
theorem switchContext_view
    (different : ctx ≠ vm.cur) :
    (vm.switchContext ctx).view =
      { vm.view with
        cur := ctx
        status := update vm.view.status ctx .running } := by
  unfold Vm.switchContext
  rw [if_neg (Ne.symm different)]
  simp only [Vm.view, View.mk.injEq, true_and]
  refine ⟨?_, ?_, ?_, ?_⟩
  · funext c
    by_cases here : c = ctx <;> simp [here]
  · funext c
    by_cases here : c = ctx <;> simp [here, Vm.setContext]
  · funext c
    by_cases here : c = ctx <;> simp [here]
  · funext c
    by_cases here : c = ctx <;> simp [here]

/-- An operation that the protocol does not see. -/
structure Quiet (vm vm' : Vm) : Prop where
  steady : Steady vm vm'
  view : vm'.view = vm.view
  loopExit : vm'.loopExit = vm.loopExit
  switches : vm'.switches = vm.switches

theorem Quiet.refl : Quiet vm vm :=
  ⟨Steady.refl vm, rfl, rfl, rfl⟩

theorem Quiet.trans
    {vm vm' vm'' : Vm}
    (first : Quiet vm vm')
    (second : Quiet vm' vm'') :
    Quiet vm vm'' :=
  ⟨first.steady.trans second.steady, second.view.trans first.view,
    second.loopExit.trans first.loopExit, second.switches.trans first.switches⟩

/-- A change of the registers of a context. -/
theorem quiet_setContext
    (change : Context → Context)
    (prev : ∀ c, (change c).prev = c.prev)
    (status : ∀ c, (change c).status = c.status)
    (vmexec : ∀ c, (change c).vmexec = c.vmexec)
    (block : ∀ c, (change c).block = c.block)
    (ci : skips (change (vm.contexts ctx)).ci = skips (vm.contexts ctx).ci) :
    Quiet vm (vm.setContext ctx change) where
  steady := by
    apply steady_setContext vm ctx change block
    intro c created
    rw [← status c, created]
  view := view_setContext vm ctx change prev status vmexec ci
  loopExit := rfl
  switches := rfl

theorem quiet_deliver (v : Value) : Quiet vm (vm.deliver v) := by
  unfold Vm.deliver
  split
  · apply quiet_setContext <;> intros <;> rfl
  · exact Quiet.refl vm

theorem quiet_aryNew (values : List Value) : Quiet vm (vm.aryNew values).1 :=
  ⟨⟨rfl, rfl, rfl, fun _ => rfl, fun _ member => .inl member, fun _ => rfl,
    fun _ => id⟩, rfl, rfl, rfl⟩

theorem quiet_fiberResult
    (args : List Value) :
    Quiet vm (vm.fiberResult args).1 := by
  match args with
  | [] => exact Quiet.refl vm
  | [_] => exact Quiet.refl vm
  | v :: w :: rest => exact quiet_aryNew vm (v :: w :: rest)

theorem quiet_layBlock
    (block : Block)
    (args : List Value) :
    Quiet vm (vm.layBlock block args).1 := by
  unfold Vm.layBlock
  dsimp only
  split
  · exact quiet_aryNew vm args
  · exact Quiet.refl vm

/-- A block is laid on a context where native code waits for no frame. -/
theorem quiet_enterBlock
    (block : Block)
    (args : List Value)
    (free : vm.view.natives vm.cur = []) :
    Quiet vm (vm.enterBlock block args) := by
  have laid := quiet_layBlock vm block args
  have sameCur : (vm.layBlock block args).1.cur = vm.cur :=
    congrArg View.cur laid.view
  apply laid.trans
  unfold Vm.enterBlock
  dsimp only
  apply quiet_setContext
  · intro c; rfl
  · intro c; rfl
  · intro c; rfl
  · intro c; rfl
  · rw [skips_singleton, sameCur]
    have still := congrArg (fun v => View.natives v vm.cur) laid.view
    simp only [Vm.view] at still free
    rw [still, free]

end Operations

/-- An operation that enters another context, once. -/
structure Moved (vm vm' : Vm) (v : View) : Prop where
  steady : Steady vm vm'
  view : vm'.view = v
  loopExit : vm'.loopExit = vm.loopExit
  switches : vm'.switches = vm.switches ++ [(vm.cur, v.cur)]

theorem Moved.quiet
    {v : View}
    (moved : Moved vm vm' v)
    (quiet : Quiet vm' vm'') :
    Moved vm vm'' v :=
  ⟨moved.steady.trans quiet.steady, quiet.view.trans moved.view,
    quiet.loopExit.trans moved.loopExit, quiet.switches.trans moved.switches⟩

theorem Quiet.moved
    {v : View}
    (quiet : Quiet vm vm')
    (moved : Moved vm' vm'' v) :
    Moved vm vm'' v where
  steady := quiet.steady.trans moved.steady
  view := moved.view
  loopExit := moved.loopExit.trans quiet.loopExit
  switches := by
    have sameCur : vm'.cur = vm.cur := congrArg View.cur quiet.view
    rw [moved.switches, quiet.switches, sameCur]

section Switches

variable
  {vm : Vm}
  {c target : Nat}

/-- The running context is left in a state of its own, for nobody to return
to. -/
theorem moved_leave
    (vm : Vm)
    {left : FiberState}
    (change : Context → Context)
    (prev : ∀ context, (change context).prev = none)
    (status : ∀ context, (change context).status = left)
    (vmexec : ∀ context, (change context).vmexec = false)
    (ci : ∀ context, (change context).ci = context.ci)
    (block : ∀ context, (change context).block = context.block)
    (notCreated : left ≠ .created)
    (other : target ≠ vm.cur) :
    Moved vm ((vm.setContext vm.cur change).switchContext target)
      (vm.view.back left target) where
  steady := by
    have parked : Steady vm (vm.setContext vm.cur change) := by
      apply steady_setContext vm vm.cur change block
      intro context created
      exact absurd ((status context).symm.trans created) notCreated
    exact parked.trans (steady_switchContext _ target)
  view := by
    rw [switchContext_view (vm.setContext vm.cur change) target other]
    simp only [View.back, Vm.view, View.mk.injEq, true_and]
    refine ⟨?_, ?_, ?_, ?_⟩
    · funext c
      by_cases here : c = vm.cur <;> simp [here, prev]
    · congr 1
      funext c
      by_cases here : c = vm.cur <;> simp [here, status]
    · funext c
      by_cases here : c = vm.cur <;> simp [here, vmexec]
    · funext c
      by_cases here : c = vm.cur <;> simp [here, ci]
  loopExit := switchContext_loopExit _ _
  switches := switchContext_switches _ _

section

variable (different : vm.view.prev vm.cur ≠ some vm.cur)
include different

/-- Where the running context returns to is another context. -/
theorem getD_root_ne
    (notRoot : vm.cur ≠ root) :
    vm.running.prev.getD root ≠ vm.cur := by
  have linked : vm.view.prev vm.cur = vm.running.prev := rfl
  rw [linked] at different
  cases returns : vm.running.prev with
  | none => exact Ne.symm notRoot
  | some p =>
      intro same
      have same : p = vm.cur := same
      exact different (by rw [returns, same])

/-- The running context ends. -/
theorem moved_fiberTerminate
    (notRoot : vm.cur ≠ root)
    (free : vm.view.natives vm.cur = []) :
    Moved vm vm.fiberTerminate.1
      (vm.view.back .terminated (vm.running.prev.getD root)) := by
  have other := getD_root_ne different notRoot
  have left : Moved vm
      ((vm.setContext vm.cur fun context =>
        { context with vmexec := false, status := .terminated, prev := none
          }).switchContext (vm.running.prev.getD root))
      (vm.view.back .terminated (vm.running.prev.getD root)) := by
    apply moved_leave
    · intro context; rfl
    · intro context; rfl
    · intro context; rfl
    · intro context; rfl
    · intro context; rfl
    · decide
    · exact other
  have still := congrArg (fun v => View.natives v vm.cur) left.view
  have dropped :=
    quiet_setContext _ vm.cur
      (fun context => { context with stack := [], ci := [] })
      (fun _ => rfl) (fun _ => rfl) (fun _ => rfl) (fun _ => rfl)
      (still.trans free).symm
  exact left.quiet dropped

/-- The switch that the scheduler asked for. -/
theorem moved_suspend
    (notRoot : vm.cur ≠ root) :
    Moved vm vm.suspend
      (vm.view.back .suspended (vm.running.prev.getD root)) := by
  have other := getD_root_ne different notRoot
  have flagged :
      Quiet vm
        { vm with task := { vm.task with switching := false } } :=
    ⟨⟨rfl, rfl, rfl, fun _ => rfl, fun _ member => .inl member, fun _ => rfl,
      fun _ => id⟩, rfl, rfl, rfl⟩
  apply flagged.moved
  apply moved_leave { vm with task := { vm.task with switching := false } }
  · intro context; rfl
  · intro context; rfl
  · intro context; rfl
  · intro context; rfl
  · intro context; rfl
  · decide
  · exact other

end

/-- What a resume or a transfer links. -/
def View.linked (v : View) (c : Nat) (resume vmexec : Bool) : View :=
  if resume then v.enter c vmexec else v.transfer c

theorem steady_linkContext
    (resume vmexec : Bool) :
    Steady vm (vm.linkContext c resume vmexec) := by
  have marked : ∀ (vm : Vm) (status : FiberState), status ≠ .created →
      Steady vm
        (vm.setContext vm.cur fun context =>
          { context with status := status }) := by
    intro vm status notCreated
    apply steady_setContext
    · intro context; rfl
    · intro context created
      exact absurd created notCreated
  have linked : ∀ (vm : Vm) (prev : Option Nat),
      Steady vm
        (vm.setContext c fun context => { context with prev := prev }) := by
    intro vm prev
    apply steady_setContext
    · intro context; rfl
    · intro context; exact id
  have nested : ∀ vm : Vm,
      Steady vm
        (vm.setContext c fun context => { context with vmexec := true }) := by
    intro vm
    apply steady_setContext
    · intro context; rfl
    · intro context; exact id
  have waits : ∀ (vm : Vm) (old reg : Nat),
      Steady vm
        (vm.setContext old fun context =>
          { context with pendingReg := some reg }) := by
    intro vm old reg
    apply steady_setContext
    · intro context; rfl
    · intro context; exact id
  unfold Vm.linkContext
  cases resume <;> cases vmexec <;> dsimp only
  · exact ((marked vm _ (by decide)).trans (linked _ _)).trans (waits _ _ _)
  · exact ((marked vm _ (by decide)).trans (linked _ _)).trans (nested _)
  · exact ((marked vm _ (by decide)).trans (linked _ _)).trans (waits _ _ _)
  · exact ((marked vm _ (by decide)).trans (linked _ _)).trans (nested _)

/-- A context is linked to the running one and entered. -/
theorem moved_link
    (resume vmexec : Bool)
    (other : c ≠ vm.cur)
    (direct : resume = false → vmexec = false) :
    Moved vm ((vm.linkContext c resume vmexec).switchContext c)
      (vm.view.linked c resume vmexec) where
  steady :=
    (steady_linkContext resume vmexec).trans (steady_switchContext _ c)
  view := by
    have sameCur : (vm.linkContext c resume vmexec).cur = vm.cur := by
      cases resume <;> cases vmexec <;> rfl
    have other' : c ≠ (vm.linkContext c resume vmexec).cur := by
      rwa [sameCur]
    rw [switchContext_view _ c other']
    cases resume with
    | false =>
        cases vmexec with
        | true => exact absurd (direct rfl) (by decide)
        | false =>
            simp only [View.linked, View.transfer, Vm.view, View.mk.injEq,
              true_and, Bool.false_eq_true, if_false]
            refine ⟨?_, ?_, ?_, ?_⟩ <;> funext d <;>
              by_cases here : d = c <;> by_cases old : d = vm.cur <;>
                simp [Vm.linkContext, Vm.setContext, update, here, old, other,
                  Ne.symm other]
    | true =>
        cases vmexec <;>
          simp only [View.linked, View.enter, Vm.view, View.mk.injEq,
            true_and, Bool.false_eq_true, if_false, if_true] <;>
          refine ⟨?_, ?_, ?_, ?_⟩ <;> funext d <;>
            by_cases here : d = c <;> by_cases old : d = vm.cur <;>
              simp [Vm.linkContext, Vm.setContext, update, here, old, other,
                Ne.symm other]
  loopExit := by
    rw [switchContext_loopExit]
    cases resume <;> cases vmexec <;> rfl
  switches := by
    rw [switchContext_switches]
    cases resume <;> cases vmexec <;> rfl

theorem fiberCheckNative_eq :
    vm.fiberCheckNative c = !(vm.view.natives c).isEmpty :=
  any_drop_eq (vm.contexts c).ci

/-- What a context entered begins with is not seen by the protocol. -/
theorem quiet_beginContext
    (status : FiberState)
    (args : List Value)
    (vmexec : Bool)
    (free : vm.view.natives vm.cur = [])
    (begun : status = .created → vm.running.block ≠ none) :
    ∃ vm' v,
      vm.beginContext status args vmexec = (vm', .ok v) ∧ Quiet vm vm' := by
  unfold Vm.beginContext
  by_cases created : status = .created
  · rw [if_pos created]
    obtain ⟨block, laid⟩ := Option.ne_none_iff_exists'.mp (begun created)
    rw [laid]
    exact ⟨_, _, rfl, quiet_enterBlock vm block args free⟩
  · rw [if_neg created]
    refine ⟨_, _, rfl, ?_⟩
    cases vmexec with
    | false => exact quiet_fiberResult vm args
    | true => exact (quiet_fiberResult vm args).trans (quiet_deliver _ _)

/-- A resume or a transfer that is not refused enters its context. -/
theorem moved_fiberSwitch
    (args : List Value)
    (resume vmexec : Bool)
    (other : c ≠ vm.cur)
    (direct : resume = false → vmexec = false)
    (allowed : FiberState.refusal resume (vm.contexts c).status = none)
    (free : vm.fiberCheckNative c = false)
    (begun : (vm.contexts c).status = .created → (vm.contexts c).block ≠ none) :
    ∃ vm' v,
      vm.fiberSwitch c args resume vmexec = (vm', .ok v) ∧
        Moved vm vm' (vm.view.linked c resume vmexec) := by
  have linked := moved_link resume vmexec other direct
  have nowCur :
      ((vm.linkContext c resume vmexec).switchContext c).cur = c := by
    have entered := congrArg View.cur linked.view
    cases resume <;> exact entered
  have noneThere :
      ((vm.linkContext c resume vmexec).switchContext c).view.natives
        ((vm.linkContext c resume vmexec).switchContext c).cur = [] := by
    rw [nowCur, linked.view]
    rw [fiberCheckNative_eq] at free
    cases resume <;> simpa [View.linked, View.enter, View.transfer] using free
  have sameBlock :
      ((vm.linkContext c resume vmexec).switchContext c).running.block =
        (vm.contexts c).block := by
    unfold Vm.running
    rw [nowCur]
    exact linked.steady.blocks c
  obtain ⟨vm', v, begins, quiet⟩ :=
    quiet_beginContext (vm.contexts c).status args vmexec noneThere
      (by rw [sameBlock]; exact begun)
  refine ⟨vm', v, ?_, linked.quiet quiet⟩
  unfold Vm.fiberSwitch
  have notSelf : (resume && c == vm.cur) = false := by
    simp [other]
  rw [notSelf]
  simp only [Bool.false_eq_true, if_false, allowed, free, begins]

/-- Otherwise it raises and nothing has changed. -/
theorem fiberSwitch_refused
    (args : List Value)
    (resume vmexec : Bool)
    (refused :
      resume = true ∧ c = vm.cur ∨
        FiberState.refusal resume (vm.contexts c).status ≠ none ∨
          vm.fiberCheckNative c = true) :
    ∃ text, vm.fiberSwitch c args resume vmexec = (vm, .error text) := by
  unfold Vm.fiberSwitch
  dsimp only
  split
  · exact ⟨_, rfl⟩
  · rename_i notSelf
    split
    · exact ⟨_, rfl⟩
    · rename_i allowed
      split
      · exact ⟨_, rfl⟩
      · rename_i free
        rcases refused with ⟨isResume, self⟩ | refused | crosses
        · simp [isResume, self] at notSelf
        · exact absurd allowed refused
        · exact absurd crosses free

/-- The running context is left waiting for a value. -/
theorem moved_yield
    (vm : Vm)
    {p : Nat}
    (other : p ≠ vm.cur) :
    Moved vm
      ((vm.setContext vm.cur fun context =>
        { context with
          status := .suspended
          pendingReg := some vm.nativeRetReg
          prev := none
          vmexec := false }).switchContext p)
      (vm.view.back .suspended p) := by
  apply moved_leave
  · intro context; rfl
  · intro context; rfl
  · intro context; rfl
  · intro context; rfl
  · intro context; rfl
  · decide
  · exact other

/-- `Fiber.yield` raises, or goes back to the context that resumed the running
one; a value for the Rust code that waits is left in `loop_exit`. -/
theorem fiberYield_spec
    (args : List Value)
    (different : vm.view.prev vm.cur ≠ some vm.cur) :
    (∃ text, vm.fiberYield args = (vm, .error text)) ∨
      ∃ p vm' v,
        vm.view.prev vm.cur = some p ∧ vm.view.natives vm.cur = [] ∧
          vm.fiberYield args =
            (if vm.view.vmexec vm.cur then { vm' with loopExit := some v }
              else vm', .ok v) ∧
          Moved vm vm' (vm.view.back .suspended p) := by
  unfold Vm.fiberYield
  dsimp only
  split
  · exact .inl ⟨_, rfl⟩
  · rename_i p linked
    have linked : vm.view.prev vm.cur = some p := linked
    split
    · exact .inl ⟨_, rfl⟩
    · split
      · exact .inl ⟨_, rfl⟩
      · split
        · exact .inl ⟨_, rfl⟩
        · rename_i boundary
          have free : vm.view.natives vm.cur = [] := by
            simp only [Bool.or_eq_true, not_or, Bool.not_eq_true] at boundary
            simpa [fiberCheckNative_eq] using boundary.2
          have result := quiet_fiberResult vm args
          have sameCur : (vm.fiberResult args).1.cur = vm.cur :=
            congrArg View.cur result.view
          have sameExec :
              (vm.fiberResult args).1.running.vmexec =
                vm.view.vmexec vm.cur := by
            rw [← result.view, ← sameCur]
            rfl
          have other : p ≠ (vm.fiberResult args).1.cur := by
            intro same
            rw [sameCur] at same
            exact different (by rw [linked, same])
          have moved := result.moved (moved_yield _ other)
          rw [sameCur, result.view] at moved
          exact .inr ⟨p, _, _, linked, free, by rw [sameExec], moved⟩

/-- The root is entered by a transfer. -/
theorem moved_toRoot
    (vm : Vm)
    (away : vm.cur ≠ root)
    (rootPrev : vm.view.prev root = none) :
    Moved vm
      ((vm.setContext vm.cur fun context =>
        { context with
          status := .transferred
          pendingReg := some vm.nativeRetReg }).switchContext root)
      (vm.view.transfer root) where
  steady := by
    have marked : Steady vm
        (vm.setContext vm.cur fun context =>
          { context with
            status := .transferred
            pendingReg := some vm.nativeRetReg }) := by
      apply steady_setContext
      · intro context; rfl
      · simp
    exact marked.trans (steady_switchContext _ root)
  view := by
    rw [switchContext_view (vm.setContext vm.cur _) root (Ne.symm away)]
    simp only [View.transfer, Vm.view, View.mk.injEq, true_and]
    refine ⟨?_, ?_, ?_, ?_⟩
    · funext d
      by_cases isRoot : d = root
      · have none : (vm.contexts root).prev = none := rootPrev
        simp [isRoot, Ne.symm away, none]
      · by_cases here : d = vm.cur <;> simp [isRoot, here, away]
    · funext d
      by_cases isRoot : d = root <;> by_cases here : d = vm.cur <;>
        simp [update, isRoot, here, away]
    · funext d
      by_cases here : d = vm.cur <;> simp [here]
    · funext d
      by_cases here : d = vm.cur <;> simp [here]
  loopExit := switchContext_loopExit _ _
  switches := switchContext_switches _ _

/-- The walk over the resumers ends with their chain, and finds whatever native
code waits on it. -/
theorem crossesNative_spec
    {i fuel : Nat}
    (links : LinkChain vm.view.prev i chain)
    (rootPrev : vm.view.prev root = none)
    (enough : chain.length ≤ fuel) :
    ∃ crosses,
      vm.crossesNative fuel i = some crosses ∧
        (crosses = false →
          ∀ d ∈ chain, vm.view.vmexec d = false ∧ vm.view.natives d = []) := by
  induction links generalizing fuel with
  | last i ends =>
      obtain ⟨fuel, rfl⟩ : ∃ rest, fuel = rest + 1 :=
        Nat.exists_eq_add_of_le' (by simpa using enough)
      have ends : (vm.contexts i).prev = none := ends
      cases waits : (vm.fiberCheckNative i || (vm.contexts i).vmexec) with
      | true => exact ⟨true, by simp [Vm.crossesNative, waits], by simp⟩
      | false =>
          refine ⟨false, by simp [Vm.crossesNative, waits, ends], ?_⟩
          intro _ d member
          rw [List.mem_singleton.mp member]
          simp only [Bool.or_eq_false_iff, fiberCheckNative_eq,
            Bool.not_eq_false', List.isEmpty_iff] at waits
          exact ⟨waits.2, waits.1⟩
  | link i p chain linked _ hypothesis =>
      obtain ⟨fuel, rfl⟩ : ∃ rest, fuel = rest + 1 :=
        Nat.exists_eq_add_of_le' (by simp only [List.length_cons] at enough; omega)
      have linked : (vm.contexts i).prev = some p := linked
      cases waits : (vm.fiberCheckNative i || (vm.contexts i).vmexec) with
      | true => exact ⟨true, by simp [Vm.crossesNative, waits], by simp⟩
      | false =>
          have notRoot : i ≠ root := by
            intro isRoot
            have none : (vm.contexts root).prev = none := rootPrev
            simp [← isRoot, linked] at none
          obtain ⟨crosses, walk, none⟩ :=
            hypothesis (by simpa using enough)
          refine ⟨crosses, ?_, ?_⟩
          · simp [Vm.crossesNative, waits, notRoot, linked, walk]
          · intro isFalse d member
            rcases List.mem_cons.mp member with rfl | member
            · simp only [Bool.or_eq_false_iff, fiberCheckNative_eq,
                Bool.not_eq_false', List.isEmpty_iff] at waits
              exact ⟨waits.2, waits.1⟩
            · exact none isFalse d member

/-- `Fiber#transfer` ends.  It raises, or answers in the same context, or hands
over to a context off the chain, when native code waits nowhere on it. -/
theorem fiberTransfer_spec
    {chain : List Nat}
    (fib : Option Nat)
    (args : List Value)
    (orderly : Orderly vm.view acts chain)
    (bounded : chain.length ≤ vm.len)
    (whole : vm.Whole) :
    ∃ vm' r,
      vm.fiberTransfer fib args = some (vm', r) ∧
        (vm' = vm ∧ (∃ text, r = .error text) ∨
          Quiet vm vm' ∧ (∃ v, r = .ok v) ∨
          ∃ target v,
            r = .ok v ∧ target ∉ chain ∧ Plain vm.view.vmexec chain ∧
              (∀ d ∈ chain, vm.view.natives d = []) ∧
                fib = some target ∧
                  Moved vm vm' (vm.view.transfer target)) := by
  cases fib with
  | none => exact ⟨vm, _, rfl, .inl ⟨rfl, _, rfl⟩⟩
  | some c =>
      obtain ⟨crosses, walk, none⟩ :=
        crossesNative_spec orderly.links orderly.rootPrev bounded
      have walk : vm.crossesNative vm.len vm.cur = some crosses := walk
      unfold Vm.fiberTransfer
      simp only [fiberContext, walk]
      split
      · exact ⟨vm, _, rfl, .inl ⟨rfl, _, rfl⟩⟩
      · cases crosses with
        | true => exact ⟨vm, _, rfl, .inl ⟨rfl, _, rfl⟩⟩
        | false =>
            have plain : Plain vm.view.vmexec chain :=
              fun d member => (none rfl d member).1
            have free : ∀ d ∈ chain, vm.view.natives d = [] :=
              fun d member => (none rfl d member).2
            dsimp only
            split
            · exact ⟨vm, _, rfl, .inl ⟨rfl, _, rfl⟩⟩
            · rename_i notWaiting
              have result := quiet_fiberResult vm args
              have sameCur : (vm.fiberResult args).1.cur = vm.cur :=
                congrArg View.cur result.view
              split
              · rename_i isRoot
                subst isRoot
                split
                · exact ⟨_, _, rfl, .inr (.inl ⟨result, _, rfl⟩)⟩
                · rename_i away
                  have away : vm.cur ≠ root := by rwa [sameCur] at away
                  have outside : root ∉ chain :=
                    orderly.not_mem (Ne.symm away) notWaiting
                  refine ⟨_, _, rfl, .inr (.inr
                    ⟨root, _, rfl, outside, plain, free, rfl, ?_⟩)⟩
                  apply result.moved
                  rw [← result.view]
                  apply moved_toRoot
                  · rwa [sameCur]
                  · rw [result.view]
                    exact orderly.rootPrev
              · rename_i notRoot
                split
                · exact ⟨_, _, rfl, .inr (.inl ⟨result, _, rfl⟩)⟩
                · rename_i other
                  by_cases accepted :
                      FiberState.refusal false (vm.contexts c).status = .none ∧
                        vm.fiberCheckNative c = false
                  · obtain ⟨vm', v, switched, moved⟩ :=
                      moved_fiberSwitch args false false other (fun _ => rfl)
                        accepted.1 accepted.2 (whole.blocks c notRoot)
                    have outside : c ∉ chain :=
                      orderly.not_mem other notWaiting
                    exact ⟨vm', .ok v, by rw [switched], .inr (.inr
                      ⟨c, v, rfl, outside, plain, free, rfl, moved⟩)⟩
                  · obtain ⟨text, refused⟩ :=
                      fiberSwitch_refused args false false
                        (by
                          by_cases allowed :
                              FiberState.refusal false (vm.contexts c).status =
                                .none
                          · right; right
                            simpa [allowed] using accepted
                          · exact .inr (.inl allowed))
                    exact ⟨vm, _, by rw [refused], .inl ⟨rfl, text, rfl⟩⟩

end Switches

/-- What holds at every step: the protocol, and that the chain, the tasks and
the loops of the scheduler are those of the tables. -/
structure Sound
    (vm : Vm)
    (acts : List Activation)
    (chain : List Nat) : Prop where
  orderly : Orderly vm.view acts chain
  bounded : ∀ c ∈ chain, c < vm.len
  whole : vm.Whole
  owners :
    ∀ t ctx old, .task t ctx old ∈ acts →
      t < vm.task.count ∧ (vm.task.tasks t).ctx = ctx ∧ ctx ≠ root
  loopExit : vm.loopExit = none
  sending : vm.directSend = false

/-- Every switch leaves the running context, for one off the chain or for the
one that waits for it. -/
def Legal (v : View) (chain : List Nat) (switches : List (Nat × Nat)) : Prop :=
  ∀ s ∈ switches, s.1 = v.cur ∧ (s.2 ∉ chain ∨ v.prev v.cur = some s.2)

section Sound

variable
  {vm vm' : Vm}
  {act : Activation}
  {acts acts' : List Activation}
  {chain chain' : List Nat}

section

variable (sound : Sound vm acts chain)
include sound

theorem Sound.chain_length_le :
    chain.length ≤ vm.len := by
  have inside : chain ⊆ List.range vm.len := by
    intro c member
    exact List.mem_range.mpr (sound.bounded c member)
  have least :=
    (List.subperm_of_subset sound.orderly.nodup inside).length_le
  rwa [List.length_range] at least

/-- The next state of the protocol is enough. -/
theorem Sound.next
    (steady : Steady vm vm')
    (loopExit : vm'.loopExit = none)
    (orderly : Orderly vm'.view acts' chain')
    (bounded : ∀ c ∈ chain', c < vm.len)
    (owners :
      ∀ t ctx old, .task t ctx old ∈ acts' →
        .task t ctx old ∈ acts ∨
          t < vm.task.count ∧ (vm.task.tasks t).ctx = ctx ∧ ctx ≠ root) :
    Sound vm' acts' chain' where
  orderly := orderly
  bounded := by
    intro c member
    rw [steady.len]
    exact bounded c member
  whole := sound.whole.of_steady steady
  owners := by
    intro t ctx old member
    rw [steady.count, steady.tasks]
    rcases owners t ctx old member with member | owner
    · exact sound.owners t ctx old member
    · exact owner
  loopExit := loopExit
  sending := steady.sending.trans sound.sending

theorem Sound.quiet
    (quiet : Quiet vm vm') :
    Sound vm' acts chain := by
  apply sound.next quiet.steady (quiet.loopExit.trans sound.loopExit)
  · rw [quiet.view]
    exact sound.orderly
  · exact sound.bounded
  · intro t ctx old member
    exact .inl member

end

/-- What the scheduler keeps about its tasks is not seen by the protocol. -/
theorem quiet_task
    (vm : Vm)
    (task : TaskState)
    (count : task.count = vm.task.count)
    (tasks : ∀ t, (task.tasks t).ctx = (vm.task.tasks t).ctx)
    (ready : ∀ t ∈ task.ready, t ∈ vm.task.ready ∨ t < vm.task.count) :
    Quiet vm { vm with task := task } :=
  ⟨⟨rfl, rfl, count, tasks, ready, fun _ => rfl, fun _ => id⟩, rfl, rfl, rfl⟩

theorem quiet_setTask
    (vm : Vm)
    (t : Nat)
    (change : Task → Task)
    (ctx : ∀ task, (change task).ctx = task.ctx) :
    Quiet vm (vm.setTask t change) := by
  apply quiet_task
  · rfl
  · intro u
    dsimp only
    split
    · exact ctx _
    · rfl
  · intro u member
    exact .inl member

theorem quiet_setReady
    (vm : Vm)
    (t : Nat)
    (known : t < vm.task.count) :
    Quiet vm (vm.setReady t) := by
  have marked :=
    quiet_setTask vm t (fun task => { task with status := .ready }) fun _ => rfl
  apply marked.trans
  apply quiet_task
  · rfl
  · intro u; rfl
  · intro u member
    simp only [List.mem_append, List.mem_filter, List.mem_singleton] at member
    rcases member with member | rfl
    · exact .inl member.1
    · exact .inr (marked.steady.count ▸ known)

section

variable (sound : Sound vm acts chain)
include sound

/-- Native code waits in no frame of a context off the chain. -/
theorem Sound.skips_eq_nil
    {c : Nat}
    (outside : c ∉ chain) :
    skips (vm.contexts c).ci = [] :=
  (sound.orderly.natives c).trans
    (sound.orderly.anchored.stops_eq_nil outside)

/-- A context off the chain is given up. -/
theorem Sound.stopContext
    {c : Nat}
    (outside : c ∉ chain)
    (notRoot : c ≠ root)
    (change : Context → Context)
    (status : ∀ context, (change context).status = .terminated)
    (prev : ∀ context, (change context).prev = context.prev)
    (vmexec : ∀ context, (change context).vmexec = context.vmexec)
    (block : ∀ context, (change context).block = context.block)
    (ci : skips (change (vm.contexts c)).ci = []) :
    Sound (vm.setContext c change) acts chain := by
  apply sound.next
  · apply steady_setContext vm c change block
    intro context created
    rw [status context] at created
    exact absurd created (by decide)
  · exact sound.loopExit
  · have stopped : (vm.setContext c change).view = vm.view.stopped c := by
      simp only [View.stopped, Vm.view, View.mk.injEq]
      refine ⟨rfl, ?_, ?_, ?_, ?_⟩ <;> funext d <;>
        by_cases here : d = c <;> simp [here, status, prev, vmexec, ci]
    rw [stopped]
    exact sound.orderly.stopped outside notRoot
  · exact sound.bounded
  · intro t ctx old member
    exact .inl member

/-- A task whose context is off the chain is stopped. -/
theorem Sound.stopTask
    {t : Nat}
    (outside : (vm.task.tasks t).ctx ∉ chain)
    (notRoot : (vm.task.tasks t).ctx ≠ root) :
    Sound (vm.stopTask t) acts chain ∧ (vm.stopTask t).switches = vm.switches := by
  have dropped : Quiet vm
      { vm.setTask t fun task => { task with status := .dormant } with
        task :=
          { (vm.setTask t fun task =>
              { task with status := .dormant }).task with
            ready :=
              (vm.setTask t fun task =>
                { task with status := .dormant }).task.ready.filter (· != t)
          } } := by
    have marked :=
      quiet_setTask vm t (fun task => { task with status := .dormant })
        fun _ => rfl
    apply marked.trans
    apply quiet_task
    · rfl
    · intro u; rfl
    · intro u member
      exact .inl (List.mem_filter.mp member).1
  have sameCtx :
      ((vm.setTask t fun task =>
        { task with status := .dormant }).task.tasks t).ctx =
          (vm.task.tasks t).ctx := by
    simp [Vm.setTask]
  unfold Vm.stopTask
  dsimp only
  rw [sameCtx]
  split
  · exact ⟨sound.quiet dropped, dropped.switches⟩
  · refine ⟨?_, dropped.switches⟩
    apply (sound.quiet dropped).stopContext outside notRoot
    · intro context; rfl
    · intro context; rfl
    · intro context; rfl
    · intro context; rfl
    · rfl

/-- `execute_task` ends when the context it was called in runs again and the
task's own is off the chain. -/
theorem Sound.leaveTask
    {t ctx old : Nat}
    (r : LoopEnd)
    (returned : vm.cur = old)
    (running : vm.view.status old = .running)
    (outside : ctx ∉ chain)
    (known : t < vm.task.count)
    (owned : (vm.task.tasks t).ctx = ctx)
    (notRoot : ctx ≠ root) :
    Sound (vm.leaveTask t ctx old r) acts chain ∧
      (vm.leaveTask t ctx old r).switches = vm.switches := by
  have settled : ∃ vm' : Vm,
      vm.leaveTask t ctx old r = vm'.settleTask t ctx r ∧ Quiet vm vm' := by
    have cleared :
        Quiet vm
          { vm with
            loopExit := none
            task := { vm.task with running := none, switching := false } } :=
      ⟨⟨rfl, rfl, rfl, fun _ => rfl, fun _ member => .inl member, fun _ => rfl,
        fun _ => id⟩, rfl, sound.loopExit.symm, rfl⟩
    unfold Vm.leaveTask
    dsimp only
    rw [if_pos (by exact returned)]
    refine ⟨_, rfl, cleared.trans ⟨?_, ?_, rfl, rfl⟩⟩
    · apply steady_setContext
      · intro context; rfl
      · simp
    · have same : ∀ c,
          ((if c = old then
              { vm.contexts c with status := .running }
            else vm.contexts c) : Context) = vm.contexts c := by
        intro c
        split
        · rename_i here
          rw [here]
          have running : (vm.contexts old).status = .running := running
          rw [← running]
        · rfl
      simp only [Vm.view, setContext_contexts, same]
      rfl
  obtain ⟨vm', same, quiet⟩ := settled
  have sound' := sound.quiet quiet
  have known' : t < vm'.task.count := by rwa [quiet.steady.count]
  have owned' : (vm'.task.tasks t).ctx = ctx :=
    (quiet.steady.tasks t).trans owned
  rw [same, ← quiet.switches]
  cases r with
  | value v =>
      unfold Vm.settleTask
      dsimp only
      split
      · have answered :=
          quiet_setTask vm' t (fun task => { task with result := v })
            fun _ => rfl
        rw [← answered.switches]
        apply (sound'.quiet answered).stopTask
        · rw [answered.steady.tasks, owned']
          exact outside
        · rw [answered.steady.tasks, owned']
          exact notRoot
      · split
        · have queued := quiet_setReady vm' t known'
          exact ⟨sound'.quiet queued, queued.switches⟩
        · exact ⟨sound', rfl⟩
  | raised exc =>
      have answered :=
        quiet_setTask vm' t (fun task => { task with result := exc })
          fun _ => rfl
      have owned'' := (answered.steady.tasks t).trans owned'
      have stopped :=
        (sound'.quiet answered).stopContext outside notRoot
          (fun context =>
            { context with status := .terminated, ci := [], stack := [] })
          (fun _ => rfl) (fun _ => rfl) (fun _ => rfl) (fun _ => rfl) rfl
      have parked :=
        stopped.stopTask (owned''.symm ▸ outside) (owned''.symm ▸ notRoot)
      exact ⟨parked.1, parked.2.trans answered.switches⟩
  | broke =>
      have stopped :=
        sound'.stopContext outside notRoot
          (fun context => { context with status := .terminated })
          (fun _ => rfl) (fun _ => rfl) (fun _ => rfl) (fun _ => rfl)
          (sound'.skips_eq_nil outside)
      exact stopped.stopTask (owned'.symm ▸ outside) (owned'.symm ▸ notRoot)

/-- The innermost loop ends, for a starter that runs again. -/
theorem Sound.endLoop
    (isLoop : act.loop?.isSome)
    (ended :
      ∀ t ctx old, act = .task t ctx old →
        vm.cur = old ∧ vm.view.status old = .running ∧ ctx ∉ chain ∧
          t < vm.task.count ∧ (vm.task.tasks t).ctx = ctx ∧ ctx ≠ root)
    (answer : Option LoopEnd)
    (r : LoopEnd) :
    Sound (Machine.endLoop ⟨vm, act :: acts, answer⟩ r).vm acts chain ∧
      (Machine.endLoop ⟨vm, act :: acts, answer⟩ r).acts = acts ∧
        (Machine.endLoop ⟨vm, act :: acts, answer⟩ r).vm.switches =
          vm.switches := by
  cases act with
  | native ctx retReg looks => simp [Activation.loop?] at isLoop
  | taskRun => simp [Activation.loop?] at isLoop
  | call lc stopDepth base =>
      have truncated :=
        quiet_setContext vm vm.cur
          (fun c => { c with stack := c.stack.take base })
          (fun _ => rfl) (fun _ => rfl) (fun _ => rfl) (fun _ => rfl) rfl
      exact ⟨sound.quiet truncated, rfl, truncated.switches⟩
  | resume c old => exact ⟨sound, rfl, rfl⟩
  | task t ctx old =>
      obtain ⟨returned, running, outside, known, owned, notRoot⟩ :=
        ended t ctx old rfl
      have left :=
        sound.leaveTask r returned running outside known owned notRoot
      exact ⟨left.1, rfl, left.2⟩
  | host => exact ⟨sound, rfl, rfl⟩

end

/-- What a step leads to. -/
def Good (vm : Vm) (chain : List Nat) (m : Machine) : Prop :=
  ∃ chain', Sound m.vm m.acts chain' ∧ Legal vm.view chain m.vm.switches

theorem Sound.good
    {m : Machine}
    (sound : Sound m.vm m.acts chain')
    (still : m.vm.switches = []) :
    Good vm chain m := by
  refine ⟨chain', sound, ?_⟩
  intro s member
  rw [still] at member
  exact absurd member (by simp)

/-- The running context goes back.  A nested loop that runs it ends, and its
starter runs again. -/
theorem Sound.back
    {left : FiberState}
    (sound : Sound vm (act :: acts) chain)
    (isLoop : act.loop?.isSome)
    (notRoot : vm.cur ≠ root)
    (free : vm.view.natives vm.cur = [])
    (notRunning : left ≠ .running)
    (moved :
      Moved vm vm' (vm.view.back left (vm.running.prev.getD root)))
    (still : vm.switches = []) :
    (vm.running.vmexec = false → ∀ answer,
      Good vm chain ⟨vm', act :: acts, answer⟩) ∧
      (vm.running.vmexec = true → ∀ answer r,
        Good vm chain (Machine.endLoop ⟨vm', act :: acts, answer⟩ r)) := by
  have loopExit : vm'.loopExit = none := moved.loopExit.trans sound.loopExit
  have owners : ∀ t ctx old, Activation.task t ctx old ∈ acts →
      .task t ctx old ∈ act :: acts ∨
        t < vm.task.count ∧ (vm.task.tasks t).ctx = ctx ∧ ctx ≠ root := by
    intro t ctx old member
    exact .inl (List.mem_cons_of_mem act member)
  have legal : Legal vm.view chain vm'.switches := by
    rw [moved.switches, still]
    intro s member
    rw [List.nil_append, List.mem_singleton] at member
    rw [member]
    refine ⟨rfl, ?_⟩
    cases returns : vm.running.prev with
    | some p => exact .inr returns
    | none =>
        obtain ⟨rest, rfl⟩ := sound.orderly.exists_eq_cons
        have alone : rest = [] := sound.orderly.links.tail_of_none returns
        have outside : root ∉ [vm.cur] := by simpa using Ne.symm notRoot
        exact .inl (alone ▸ outside)
  constructor
  · intro plain answer
    cases returns : vm.running.prev with
    | some p =>
        obtain ⟨chain', split, orderly⟩ :=
          sound.orderly.backPlain isLoop returns plain free notRunning
        refine ⟨chain', ?_, legal⟩
        apply sound.next moved.steady loopExit
        · rw [moved.view, returns]
          exact orderly
        · intro c member
          exact sound.bounded c (split ▸ List.mem_cons_of_mem _ member)
        · intro t ctx old member
          exact .inl member
    | none =>
        refine ⟨[root], ?_, legal⟩
        apply sound.next moved.steady loopExit
        · rw [moved.view, returns]
          exact
            (sound.orderly.backRoot isLoop returns notRoot free notRunning).2
        · intro c member
          rw [List.mem_singleton.mp member]
          exact sound.whole.rootBound
        · intro t ctx old member
          exact .inl member
  · intro nested answer r
    obtain ⟨p, returns, isResume, chain', rfl, orderly⟩ :=
      sound.orderly.backNested isLoop nested free notRunning
    have returns' : vm.running.prev = some p := returns
    have sound' : Sound vm' acts chain' := by
      apply sound.next moved.steady loopExit
      · rw [moved.view, returns']
        exact orderly
      · intro c member
        exact sound.bounded c (List.mem_cons_of_mem _ member)
      · exact owners
    have ended := sound'.endLoop isLoop ?_ answer r
    · refine ⟨chain', ?_, ?_⟩
      · rw [ended.2.1]
        exact ended.1
      · rw [ended.2.2]
        exact legal
    · intro t ctx old isTask
      have entered : ctx = vm.cur ∧ old = p := by
        rcases isResume with isResume | ⟨u, isTask'⟩
        · rw [isResume] at isTask
          simp at isTask
        · rw [isTask', Activation.task.injEq] at isTask
          exact ⟨isTask.2.1.symm, isTask.2.2.symm⟩
      have view : vm'.view = vm.view.back left p := by
        rw [moved.view, returns']
        rfl
      have owner := sound.owners t ctx old (by simp [isTask])
      refine ⟨?_, ?_, ?_, ?_, ?_, owner.2.2⟩
      · rw [entered.2]
        exact congrArg View.cur view
      · rw [view, entered.2]
        simp [View.back]
      · rw [entered.1]
        exact (List.nodup_cons.mp sound.orderly.nodup).1
      · rw [moved.steady.count]
        exact owner.1
      · rw [moved.steady.tasks]
        exact owner.2.1

end Sound

end SabiRuby.Fibers
