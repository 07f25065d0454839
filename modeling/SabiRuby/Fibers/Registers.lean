import SabiRuby.Fibers.Waiting

/-!
# What the operations write

The registers of every context, and the register that it is to be given a value
in, after each of the operations that change the context.
-/

namespace SabiRuby.Fibers

open Execution (FiberState Cci root)
open Function (update)

/-- The registers of a context. -/
def Vm.regs (vm : Vm) (c : Nat) : List Value :=
  (vm.contexts c).stack

/-- The register that a context is to be given a value in. -/
def Vm.pending (vm : Vm) (c : Nat) : Option Nat :=
  (vm.contexts c).pendingReg

/-- The registers once a value has come to the one that is named. -/
def receive (reg : Option Nat) (v : Value) (regs : List Value) : List Value :=
  match reg with
  | some reg => regs.set reg v
  | none => regs

@[simp]
theorem receive_none
    (v : Value)
    (regs : List Value) :
    receive none v regs = regs := rfl

/-- The registers and the pending ones are those of another VM. -/
structure SameSlots (vm vm' : Vm) : Prop where
  regs : vm'.regs = vm.regs
  pending : vm'.pending = vm.pending

section Slots

variable
  (vm : Vm)
  (c target : Nat)

theorem SameSlots.trans
    {vm vm' vm'' : Vm}
    (first : SameSlots vm vm')
    (second : SameSlots vm' vm'') :
    SameSlots vm vm'' :=
  ⟨second.regs.trans first.regs, second.pending.trans first.pending⟩

/-- What a change of one context does to the registers. -/
theorem setContext_regs
    (change : Context → Context) :
    (vm.setContext c change).regs =
      update vm.regs c (change (vm.contexts c)).stack := by
  funext d
  by_cases here : d = c
  · subst here
    simp [Vm.regs]
  · simp [Vm.regs, here]

theorem setContext_pending
    (change : Context → Context) :
    (vm.setContext c change).pending =
      update vm.pending c (change (vm.contexts c)).pendingReg := by
  funext d
  by_cases here : d = c
  · subst here
    simp [Vm.pending]
  · simp [Vm.pending, here]

/-- A change of one context that is not of its registers. -/
theorem setContext_sameSlots
    (change : Context → Context)
    (stack : ∀ context, (change context).stack = context.stack)
    (pendingReg :
      ∀ context, (change context).pendingReg = context.pendingReg) :
    SameSlots vm (vm.setContext c change) where
  regs := by
    rw [setContext_regs, stack]
    exact Function.update_eq_self c vm.regs
  pending := by
    rw [setContext_pending, pendingReg]
    exact Function.update_eq_self c vm.pending

theorem switchContext_sameSlots : SameSlots vm (vm.switchContext target) := by
  unfold Vm.switchContext
  dsimp only
  split
  · exact ⟨rfl, rfl⟩
  · have entered :=
      setContext_sameSlots vm target
        (fun context => { context with status := .running })
        (fun _ => rfl) fun _ => rfl
    exact ⟨entered.regs, entered.pending⟩

theorem switchContext_arrays :
    (vm.switchContext target).arrays = vm.arrays := by
  unfold Vm.switchContext
  dsimp only
  split <;> rfl

/-- Several arguments make an array, and nothing else changes. -/
theorem fiberResult_eq
    (args : List Value) :
    ∃ arrays, (vm.fiberResult args).1 = { vm with arrays := arrays } := by
  match args with
  | [] => exact ⟨vm.arrays, rfl⟩
  | [_] => exact ⟨vm.arrays, rfl⟩
  | v :: w :: rest => exact ⟨vm.arrays ++ [v :: w :: rest], rfl⟩

/-- The value of the arguments does not depend on the contexts. -/
theorem fiberResult_value
    {vm vm' : Vm}
    (arrays : vm'.arrays = vm.arrays)
    (args : List Value) :
    (vm'.fiberResult args).2 = (vm.fiberResult args).2 := by
  match args with
  | [] => rfl
  | [_] => rfl
  | _ :: _ :: _ => simp [Vm.fiberResult, Vm.aryNew, arrays]

theorem layBlock_eq
    (block : Block)
    (args : List Value) :
    ∃ arrays, (vm.layBlock block args).1 = { vm with arrays := arrays } := by
  unfold Vm.layBlock
  dsimp only
  split
  · exact ⟨vm.arrays ++ [args], rfl⟩
  · exact ⟨vm.arrays, rfl⟩

theorem layBlock_value
    {vm vm' : Vm}
    (arrays : vm'.arrays = vm.arrays)
    (block : Block)
    (args : List Value) :
    (vm'.layBlock block args).2 = (vm.layBlock block args).2 := by
  unfold Vm.layBlock
  dsimp only
  split
  · simp [Vm.aryNew, arrays]
  · rfl

/-- A block is laid on the running context. -/
theorem enterBlock_slots
    (block : Block)
    (args : List Value) :
    (vm.enterBlock block args).regs =
        update vm.regs vm.cur (vm.layBlock block args).2 ∧
      (vm.enterBlock block args).pending = vm.pending := by
  obtain ⟨arrays, laid⟩ := layBlock_eq vm block args
  unfold Vm.enterBlock
  dsimp only
  rw [laid]
  constructor
  · exact setContext_regs _ _ _
  · rw [setContext_pending]
    exact Function.update_eq_self vm.cur vm.pending

/-- A value comes to the running context. -/
theorem deliver_slots
    (v : Value) :
    (vm.deliver v).regs =
        update vm.regs vm.cur
          (receive (vm.pending vm.cur) v (vm.regs vm.cur)) ∧
      (vm.deliver v).pending = update vm.pending vm.cur none := by
  have waits : vm.running.pendingReg = vm.pending vm.cur := rfl
  unfold Vm.deliver
  rw [waits]
  cases known : vm.pending vm.cur with
  | none =>
      dsimp only [receive]
      constructor
      · exact (Function.update_eq_self vm.cur vm.regs).symm
      · rw [← known]
        exact (Function.update_eq_self vm.cur vm.pending).symm
  | some reg =>
      dsimp only
      exact ⟨setContext_regs vm vm.cur _, setContext_pending vm vm.cur _⟩

/-- The running context is to be given a value, unless a nested loop runs the
one it links. -/
theorem linkContext_slots
    (resume vmexec : Bool) :
    (vm.linkContext c resume vmexec).regs = vm.regs ∧
      (vm.linkContext c resume vmexec).pending =
        if vmexec then vm.pending
        else update vm.pending vm.cur (some vm.nativeRetReg) := by
  have marked :
      ∀ (status : FiberState) (prev : Option Nat),
        SameSlots vm
          ((vm.setContext vm.cur fun context =>
              { context with status := status }).setContext c
            fun context => { context with prev := prev }) := by
    intro status prev
    exact
      (setContext_sameSlots vm vm.cur
        (fun context => { context with status := status })
        (fun _ => rfl) fun _ => rfl).trans
      (setContext_sameSlots _ c (fun context => { context with prev := prev })
        (fun _ => rfl) fun _ => rfl)
  have nested :
      ∀ vm' : Vm, SameSlots vm vm' →
        SameSlots vm
          (vm'.setContext c fun context => { context with vmexec := true }) :=
    fun vm' same =>
      same.trans (setContext_sameSlots vm' c _ (fun _ => rfl) fun _ => rfl)
  have waits :
      ∀ vm' : Vm, SameSlots vm vm' → vm'.nativeRetReg = vm.nativeRetReg →
        (vm'.setContext vm.cur fun context =>
            { context with pendingReg := some vm'.nativeRetReg }).regs =
            vm.regs ∧
          (vm'.setContext vm.cur fun context =>
            { context with pendingReg := some vm'.nativeRetReg }).pending =
            update vm.pending vm.cur (some vm.nativeRetReg) := by
    intro vm' same sameReg
    constructor
    · rw [setContext_regs, ← same.regs]
      exact Function.update_eq_self _ _
    · rw [setContext_pending, same.pending, sameReg]
  unfold Vm.linkContext
  cases resume <;> cases vmexec <;> dsimp only [Bool.false_eq_true, if_true]
  · exact waits _ (marked .transferred none) rfl
  · have same := nested _ (marked .transferred none)
    exact ⟨same.regs, same.pending⟩
  · exact waits _ (marked .resumed (some vm.cur)) rfl
  · have same := nested _ (marked .resumed (some vm.cur))
    exact ⟨same.regs, same.pending⟩

theorem linkContext_arrays
    (resume vmexec : Bool) :
    (vm.linkContext c resume vmexec).arrays = vm.arrays := by
  cases resume <;> cases vmexec <;> rfl

/-- The running context ends: its registers go, and no other changes. -/
theorem fiberTerminate_slots :
    vm.fiberTerminate.1.regs = update vm.regs vm.cur [] ∧
      vm.fiberTerminate.1.pending = vm.pending := by
  have left :=
    (setContext_sameSlots vm vm.cur
      (fun context =>
        { context with vmexec := false, status := .terminated, prev := none })
      (fun _ => rfl) fun _ => rfl).trans
    (switchContext_sameSlots _ (vm.running.prev.getD root))
  unfold Vm.fiberTerminate
  dsimp only
  constructor
  · rw [setContext_regs, left.regs]
  · rw [setContext_pending, ← left.pending]
    exact Function.update_eq_self _ _

theorem suspend_sameSlots : SameSlots vm vm.suspend := by
  have left :=
    (setContext_sameSlots
      { vm with task := { vm.task with switching := false } } vm.cur
      (fun context =>
        { context with prev := none, status := .suspended, vmexec := false })
      (fun _ => rfl) fun _ => rfl).trans
    (switchContext_sameSlots _ (vm.running.prev.getD root))
  exact ⟨left.regs, left.pending⟩

end Slots

section Operations

variable
  {vm vm' : Vm}
  {c : Nat}
  {args : List Value}
  {resume vmexec : Bool}
  {v : Value}

/-- The pending registers once the running context has been left for another. -/
def Vm.linkedPending (vm : Vm) (vmexec : Bool) : Nat → Option Nat :=
  if vmexec then vm.pending
  else update vm.pending vm.cur (some vm.nativeRetReg)

/-- A context has been linked and entered, and begins with nothing yet. -/
theorem linked_slots
    (vm : Vm)
    (resume vmexec : Bool)
    (other : c ≠ vm.cur) :
    let linked := (vm.linkContext c resume vmexec).switchContext c
    linked.cur = c ∧ linked.regs = vm.regs ∧
      linked.pending = vm.linkedPending vmexec ∧ linked.arrays = vm.arrays := by
  have switched :=
    switchContext_sameSlots (vm.linkContext c resume vmexec) c
  have linked := linkContext_slots vm c resume vmexec
  have sameCur : (vm.linkContext c resume vmexec).cur = vm.cur := by
    cases resume <;> cases vmexec <;> rfl
  refine ⟨?_, ?_, ?_, ?_⟩
  · unfold Vm.switchContext
    dsimp only
    rw [sameCur, if_neg (Ne.symm other)]
  · rw [switched.regs, linked.1]
  · rw [switched.pending, linked.2]
    rfl
  · rw [switchContext_arrays, linkContext_arrays]

/-- The operation is not refused. -/
theorem fiberSwitch_allowed
    (switched : vm.fiberSwitch c args resume vmexec = (vm', .ok v)) :
    FiberState.refusal resume (vm.contexts c).status = none := by
  unfold Vm.fiberSwitch at switched
  dsimp only at switched
  split at switched
  · simp at switched
  · split at switched
    · simp at switched
    · assumption

/-- What a context begins with, once the operation is not refused. -/
theorem fiberSwitch_begins
    (switched : vm.fiberSwitch c args resume vmexec = (vm', .ok v)) :
    ((vm.linkContext c resume vmexec).switchContext c).beginContext
      (vm.contexts c).status args vmexec = (vm', .ok v) := by
  unfold Vm.fiberSwitch at switched
  dsimp only at switched
  split at switched
  · simp at switched
  · split at switched
    · simp at switched
    · split at switched
      · simp at switched
      · exact switched

theorem deliver_cur
    (vm : Vm)
    (v : Value) :
    (vm.deliver v).cur = vm.cur := by
  unfold Vm.deliver
  split <;> rfl

theorem enterBlock_cur
    (vm : Vm)
    (block : Block)
    (args : List Value) :
    (vm.enterBlock block args).cur = vm.cur := by
  obtain ⟨arrays, laid⟩ := layBlock_eq vm block args
  unfold Vm.enterBlock
  dsimp only
  rw [laid]
  rfl

theorem fiberSwitch_cur
    (other : c ≠ vm.cur)
    (switched : vm.fiberSwitch c args resume vmexec = (vm', .ok v)) :
    vm'.cur = c := by
  obtain ⟨sameCur, _⟩ := linked_slots vm resume vmexec other
  have begins := fiberSwitch_begins switched
  unfold Vm.beginContext at begins
  split at begins
  · split at begins
    · simp at begins
    · rw [← (Prod.mk.inj begins).1, enterBlock_cur, sameCur]
  · obtain ⟨arrays, result⟩ :=
      fiberResult_eq ((vm.linkContext c resume vmexec).switchContext c) args
    dsimp only at begins
    rw [← (Prod.mk.inj begins).1, result]
    split
    · rw [deliver_cur]
      exact sameCur
    · exact sameCur

/-- A context that was never run begins with its block. -/
theorem fiberSwitch_created
    (other : c ≠ vm.cur)
    (switched : vm.fiberSwitch c args resume vmexec = (vm', .ok v))
    (created : (vm.contexts c).status = .created) :
    ∃ block,
      (vm.contexts c).block = some block ∧
        vm'.regs = update vm.regs c (vm.layBlock block args).2 ∧
        vm'.pending = vm.linkedPending vmexec := by
  obtain ⟨sameCur, regs, pending, arrays⟩ :=
    linked_slots vm resume vmexec other
  have begins := fiberSwitch_begins switched
  have sameBlock :
      ((vm.linkContext c resume vmexec).switchContext c).running.block =
        (vm.contexts c).block := by
    unfold Vm.running
    rw [sameCur]
    exact
      ((steady_linkContext resume vmexec).trans
        (steady_switchContext _ c)).blocks c
  unfold Vm.beginContext at begins
  rw [if_pos created, sameBlock] at begins
  split at begins
  · simp at begins
  · rename_i block known
    obtain ⟨rfl, _⟩ := Prod.mk.inj begins
    obtain ⟨laid, waits⟩ :=
      enterBlock_slots ((vm.linkContext c resume vmexec).switchContext c)
        block args
    refine ⟨block, known, ?_, ?_⟩
    · rw [laid, regs, sameCur, layBlock_value arrays]
    · rw [waits, pending]

/-- Another one is given the value of the arguments: by native code at once, and
by an instruction when its native answers. -/
theorem fiberSwitch_waiting
    (other : c ≠ vm.cur)
    (switched : vm.fiberSwitch c args resume vmexec = (vm', .ok v))
    (waiting : (vm.contexts c).status ≠ .created) :
    v = (vm.fiberResult args).2 ∧
      if vmexec then
        vm'.regs = update vm.regs c (receive (vm.pending c) v (vm.regs c)) ∧
          vm'.pending = update vm.pending c none
      else
        vm'.regs = vm.regs ∧
          vm'.pending = update vm.pending vm.cur (some vm.nativeRetReg) := by
  obtain ⟨sameCur, regs, pending, arrays⟩ :=
    linked_slots vm resume vmexec other
  have begins := fiberSwitch_begins switched
  generalize (vm.linkContext c resume vmexec).switchContext c = entered
    at sameCur regs pending arrays begins
  obtain ⟨more, result⟩ := fiberResult_eq entered args
  unfold Vm.beginContext at begins
  rw [if_neg waiting] at begins
  dsimp only at begins
  obtain ⟨rfl, value⟩ := Prod.mk.inj begins
  have value : (entered.fiberResult args).2 = v := Except.ok.inj value
  refine ⟨value.symm.trans (fiberResult_value arrays args), ?_⟩
  rw [result, value]
  cases vmexec with
  | true =>
      obtain ⟨given, rest⟩ := deliver_slots { entered with arrays := more } v
      rw [if_pos rfl, if_pos rfl, given, rest]
      have pending : entered.pending = vm.pending := pending
      rw [← regs, ← pending, ← sameCur]
      exact ⟨rfl, rfl⟩
  | false => exact ⟨regs, pending⟩

/-- `Fiber.yield` leaves its context to be given a value. -/
theorem fiberYield_slots
    (yielded : vm.fiberYield args = (vm', .ok v)) :
    v = (vm.fiberResult args).2 ∧ vm'.regs = vm.regs ∧
      vm'.pending = update vm.pending vm.cur (some vm.nativeRetReg) ∧
      (vm.running.vmexec = true → vm'.loopExit = some v) := by
  obtain ⟨arrays, result⟩ := fiberResult_eq vm args
  unfold Vm.fiberYield at yielded
  dsimp only at yielded
  split at yielded
  · simp at yielded
  · rename_i p _
    split at yielded
    · simp at yielded
    · split at yielded
      · simp at yielded
      · split at yielded
        · simp at yielded
        · obtain ⟨rfl, value⟩ := Prod.mk.inj yielded
          have value : (vm.fiberResult args).2 = v := Except.ok.inj value
          have left :=
            switchContext_sameSlots
              ({ vm with arrays := arrays }.setContext vm.cur fun context =>
                { context with
                  status := .suspended
                  pendingReg := some vm.nativeRetReg
                  prev := none
                  vmexec := false }) p
          have regs := left.regs
          have pending := left.pending
          rw [setContext_regs] at regs
          rw [setContext_pending] at pending
          have regs := regs.trans (Function.update_eq_self vm.cur vm.regs)
          rw [result, value]
          refine ⟨rfl, ?_, ?_, ?_⟩
          · split
            · exact regs
            · exact regs
          · split
            · exact pending
            · exact pending
          · intro nested
            rw [if_pos (by exact nested)]

/-- A transfer that answers stays, moves to the root or enters a fiber. -/
theorem fiberTransfer_cases
    {fib : Option Nat}
    (transferred : vm.fiberTransfer fib args = some (vm', .ok v)) :
    ∃ c, fib = some c ∧ (vm.contexts c).status ≠ .resumed ∧
      ((c = vm.cur ∧ v = (vm.fiberResult args).2 ∧
          ∃ arrays, vm' = { vm with arrays := arrays }) ∨
        (c = root ∧ vm.cur ≠ root ∧ v = (vm.fiberResult args).2 ∧
          ∃ arrays, vm' =
            ({ vm with arrays := arrays }.setContext vm.cur fun context =>
              { context with
                status := .transferred
                pendingReg := some vm.nativeRetReg }).switchContext root) ∨
        (c ≠ root ∧ c ≠ vm.cur ∧
          vm.fiberSwitch c args false false = (vm', .ok v))) := by
  unfold Vm.fiberTransfer at transferred
  split at transferred
  · simp at transferred
  · rename_i c named
    have isFiber : fib = some c := by
      cases fib with
      | none => simp [fiberContext] at named
      | some d => rw [Except.ok.inj named]
    split at transferred
    · simp at transferred
    · split at transferred
      · simp at transferred
      · simp at transferred
      · split at transferred
        · simp at transferred
        · rename_i notWaiting
          refine ⟨c, isFiber, notWaiting, ?_⟩
          obtain ⟨arrays, result⟩ := fiberResult_eq vm args
          dsimp only at transferred
          rw [result] at transferred
          split at transferred
          · rename_i isRoot
            split at transferred
            · rename_i atRoot
              obtain ⟨rfl, value⟩ :=
                Prod.mk.inj (Option.some.inj transferred)
              exact .inl ⟨isRoot.trans (Eq.symm atRoot),
                (Except.ok.inj value).symm, arrays, rfl⟩
            · rename_i notRoot
              obtain ⟨rfl, value⟩ :=
                Prod.mk.inj (Option.some.inj transferred)
              exact .inr (.inl ⟨isRoot, notRoot, (Except.ok.inj value).symm,
                arrays, rfl⟩)
          · rename_i notRoot
            split at transferred
            · rename_i self
              obtain ⟨rfl, value⟩ :=
                Prod.mk.inj (Option.some.inj transferred)
              exact .inl ⟨self, (Except.ok.inj value).symm, arrays, rfl⟩
            · rename_i other
              exact .inr (.inr ⟨notRoot, other, Option.some.inj transferred⟩)

/-- `Fiber#transfer` to another context leaves its own to be given a value.
Nothing but the entered one's block is written before the native answers. -/
theorem fiberTransfer_slots
    {fib : Option Nat}
    (transferred : vm.fiberTransfer fib args = some (vm', .ok v))
    (away : vm'.cur ≠ vm.cur) :
    ∃ c, fib = some c ∧ vm'.cur = c ∧
      vm'.pending = update vm.pending vm.cur (some vm.nativeRetReg) ∧
      (c = root ∨ (vm.contexts c).status ≠ .created →
        v = (vm.fiberResult args).2 ∧ vm'.regs = vm.regs) ∧
      (c ≠ root → (vm.contexts c).status = .created →
        ∃ block,
          (vm.contexts c).block = some block ∧
            vm'.regs = update vm.regs c (vm.layBlock block args).2) := by
  obtain ⟨c, isFiber, -, stays | moved | entered⟩ :=
    fiberTransfer_cases transferred
  · obtain ⟨_, _, _, rfl⟩ := stays
    exact absurd rfl away
  · obtain ⟨isRoot, notRoot, value, arrays, rfl⟩ := moved
    have left :=
      switchContext_sameSlots
        ({ vm with arrays := arrays }.setContext vm.cur fun context =>
          { context with
            status := .transferred
            pendingReg := some vm.nativeRetReg }) root
    have regs := left.regs
    have pending := left.pending
    rw [setContext_regs] at regs
    rw [setContext_pending] at pending
    refine ⟨c, isFiber, ?_, pending, ?_, fun different =>
      absurd isRoot different⟩
    · unfold Vm.switchContext
      dsimp only
      rw [if_neg (by exact notRoot), isRoot]
    · intro _
      exact ⟨value, regs.trans (Function.update_eq_self vm.cur vm.regs)⟩
  · obtain ⟨notRoot, other, switched⟩ := entered
    refine ⟨c, isFiber, fiberSwitch_cur other switched, ?_, ?_, ?_⟩
    · by_cases created : (vm.contexts c).status = .created
      · obtain ⟨_, _, _, pending⟩ :=
          fiberSwitch_created other switched created
        exact pending
      · exact (fiberSwitch_waiting other switched created).2.2
    · rintro (isRoot | waiting)
      · exact absurd isRoot notRoot
      · obtain ⟨value, regs, _⟩ :=
          fiberSwitch_waiting other switched waiting
        exact ⟨value, regs⟩
    · intro _ created
      obtain ⟨block, known, regs, _⟩ :=
        fiberSwitch_created other switched created
      exact ⟨block, known, regs⟩

/-- A transfer that changes no context is one to its own. -/
theorem fiberTransfer_self
    {fib : Option Nat}
    (transferred : vm.fiberTransfer fib args = some (vm', .ok v))
    (here : vm'.cur = vm.cur) :
    fib = some vm.cur ∧ v = (vm.fiberResult args).2 ∧
      ∃ arrays, vm' = { vm with arrays := arrays } := by
  obtain ⟨c, isFiber, -, stays | moved | entered⟩ :=
    fiberTransfer_cases transferred
  · obtain ⟨self, value, same⟩ := stays
    exact ⟨self ▸ isFiber, value, same⟩
  · obtain ⟨isRoot, notRoot, _, arrays, rfl⟩ := moved
    unfold Vm.switchContext at here
    dsimp only at here
    rw [if_neg (by exact notRoot)] at here
    exact absurd here.symm notRoot
  · obtain ⟨_, other, switched⟩ := entered
    exact absurd ((fiberSwitch_cur other switched).symm.trans here) other

/-- A context that is transferred to does not wait for another. -/
theorem fiberTransfer_allowed
    (transferred : vm.fiberTransfer (some c) args = some (vm', .ok v))
    (other : c ≠ vm.cur) :
    (vm.contexts c).status ≠ .resumed ∧
      (c ≠ root → FiberState.refusal false (vm.contexts c).status = none) := by
  obtain ⟨_, ⟨⟩, notWaiting, stays | moved | entered⟩ :=
    fiberTransfer_cases transferred
  · exact absurd stays.1 other
  · exact ⟨notWaiting, absurd moved.1⟩
  · exact ⟨notWaiting, fun _ => fiberSwitch_allowed entered.2.2⟩

/-- A task's context that was never run begins with its block. -/
theorem enterTask_slots
    {t : Nat}
    (vm : Vm)
    (other : (vm.task.tasks t).ctx ≠ vm.cur)
    (begun :
      (vm.contexts (vm.task.tasks t).ctx).status = .created →
        (vm.contexts (vm.task.tasks t).ctx).block ≠ none) :
    (vm.enterTask t).pending = vm.pending ∧
      if (vm.contexts (vm.task.tasks t).ctx).status = .created then
        ∃ block,
          (vm.contexts (vm.task.tasks t).ctx).block = some block ∧
            (vm.enterTask t).regs =
              update vm.regs (vm.task.tasks t).ctx (vm.layBlock block []).2
      else (vm.enterTask t).regs = vm.regs := by
  obtain ⟨task, _, entered⟩ := enterTask_eq vm t
  generalize (vm.task.tasks t).ctx = ctx at other begun entered
  have steady :
      Steady { vm with task := task }
        ((({ vm with task := task } : Vm).linkContext ctx true
          true).switchContext ctx) :=
    (steady_linkContext true true).trans (steady_switchContext _ ctx)
  have linked :=
    linked_slots ({ vm with task := task } : Vm) true true (by exact other)
  generalize
    (({ vm with task := task } : Vm).linkContext ctx true true).switchContext
      ctx = vm' at steady linked entered
  obtain ⟨sameCur, regs, pending, arrays⟩ := linked
  have regs : vm'.regs = vm.regs := regs
  have pending : vm'.pending = vm.pending := pending
  rw [entered]
  dsimp only
  split
  · rename_i created
    obtain ⟨block, known⟩ := Option.ne_none_iff_exists'.mp (begun created)
    have sameBlock : vm'.running.block = some block := by
      unfold Vm.running
      rw [sameCur, steady.blocks]
      exact known
    obtain ⟨laid, waits⟩ := enterBlock_slots vm' block []
    have value : (vm'.layBlock block []).2 = (vm.layBlock block []).2 :=
      layBlock_value arrays block []
    rw [sameCur, regs, value] at laid
    unfold Vm.startBlock
    rw [sameBlock]
    exact ⟨waits.trans pending, block, known, laid⟩
  · exact ⟨pending, regs⟩

end Operations

end SabiRuby.Fibers
