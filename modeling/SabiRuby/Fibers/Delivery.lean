import SabiRuby.Fibers.Runs
import SabiRuby.Fibers.Waits

/-!
# Values on their way

What a step has to do with the values that travel between contexts, and that a
step of each kind does it as long as no instruction loses a value, no nested
loop is taken from a native resume, and no stale register is written.
-/

namespace SabiRuby.Fibers

open Execution (FiberState Cci root)
open Function (update)
open Library (LinkChain)

/-- How an event leaves the running context for another. -/
def Event.leaving (target : Nat) : Event → Wait
  | .turn (.fiber (.resume _ _) reg _) => .resume reg target
  | .turn (.fiber (.yield _) reg _) => .yield reg
  | .turn (.fiber (.transfer _ _) reg _) => .transfer reg
  | .turn .preempt => .parked
  | .code (.resume _ _) => .nested target
  | .code .schedulerStep => .nested target
  | _ => .nothing

/-- The record after a step. -/
def after
    (w : Nat → Wait)
    (m : Machine)
    (event : Event)
    (m' : Machine) : Nat → Wait :=
  if m'.vm.cur = m.vm.cur then w
  else leave w m.vm.cur (event.leaving m'.vm.cur) m'.vm.cur

/-- A context keeps its registers, unless it is over. -/
def Keeps (vm vm' : Vm) (c : Nat) : Prop :=
  vm'.regs c = vm.regs c ∨ (vm'.contexts c).status = .terminated

/-- A context is entered with arguments.  They are what its block begins with
the first time, and the value of the call it was left by afterwards. -/
def Entered
    (vm vm' : Vm)
    (w : Nat → Wait)
    (c : Nat)
    (args : List Value) : Prop :=
  vm'.cur = c ∧
    if (vm.contexts c).status = .created then
      ∃ block,
        (vm.contexts c).block = some block ∧
          vm'.regs c = (vm.layBlock block args).2
    else
      ((∃ reg, w c = .yield reg ∨ w c = .transfer reg) ∨ w c = .parked) ∧
        vm'.regs c = receive (w c).reg? (vm.fiberResult args).2 (vm.regs c)

/-- A context that was run before was not left by a transfer. -/
def NotTransferred (vm : Vm) (w : Nat → Wait) (c : Nat) : Prop :=
  (vm.contexts c).status ≠ .created → ∀ reg, w c ≠ .transfer reg

/-- A value is written, and an exception is not. -/
def LoopEnd.write (reg : Nat) (regs : List Value) : LoopEnd → List Value
  | .value v => regs.set reg v
  | .raised _ => regs
  | .broke => regs

/-- The running context goes back with a value or an exception, to the resume
that entered it: to the nested loop of native code, which ends, or to the
register of the instruction.  Where nobody resumed it, the root's instruction is
the one that gets it. -/
def WentBack
    (m : Machine)
    (w : Nat → Wait)
    (r : LoopEnd)
    (m' : Machine) : Prop :=
  match m.vm.running.prev with
  | some p =>
      m'.vm.cur = p ∧
        if m.vm.running.vmexec then
          w p = .nested m.vm.cur ∧ m'.vm.regs p = m.vm.regs p ∧
            m'.answer = some r ∧
            (m.acts = .resume m.vm.cur p :: m'.acts ∨
              ∃ t, m.acts = .task t m.vm.cur p :: m'.acts)
        else
          m'.acts = m.acts ∧
            ∃ reg,
              w p = .resume reg m.vm.cur ∧
                m'.vm.regs p = r.write reg (m.vm.regs p)
  | none =>
      m'.vm.cur = root ∧ m'.acts = m.acts ∧
        ∃ reg,
          (w root).reg? = some reg ∧
            m'.vm.regs root = r.write reg (m.vm.regs root)

/-- What a step that changes the running context passes on. -/
def Passed (m : Machine) (w : Nat → Wait) (m' : Machine) : Event → Prop
  | .turn (.fiber (.resume fib args) _ _) =>
      ∃ c,
        fib = some c ∧ Entered m.vm m'.vm w c args ∧
          NotTransferred m.vm w c ∧ m'.acts = m.acts
  | .turn (.fiber (.transfer fib args) _ _) =>
      ∃ c, fib = some c ∧ Entered m.vm m'.vm w c args ∧ m'.acts = m.acts
  | .turn (.fiber (.yield args) _ _) =>
      WentBack m w (.value (m.vm.fiberResult args).2) m'
  | .turn (.ret v _) => WentBack m w (.value v) m'
  | .turn (.raise exc) => WentBack m w (.raised exc) m'
  | .turn .preempt =>
      m'.vm.regs m'.vm.cur = m.vm.regs m'.vm.cur ∧
        ∃ t, m.acts = .task t m.vm.cur m'.vm.cur :: m'.acts
  | .code (.resume fib args) =>
      ∃ c,
        fib = some c ∧ Entered m.vm m'.vm w c args ∧
          NotTransferred m.vm w c ∧
            m'.acts = .resume c m.vm.cur :: m.acts
  | .code .schedulerStep =>
      (∃ t, m'.acts = .task t m'.vm.cur m.vm.cur :: m.acts) ∧
        if (m.vm.contexts m'.vm.cur).status = .created then
          ∃ block,
            (m.vm.contexts m'.vm.cur).block = some block ∧
              m'.vm.regs m'.vm.cur = (m.vm.layBlock block []).2
        else m'.vm.regs m'.vm.cur = m.vm.regs m'.vm.cur
  | _ => False

/-- The event yields, or may end a context. -/
def Event.finishes : Event → Bool
  | .turn (.fiber (.yield _) _ _) => true
  | .turn (.ret _ _) => true
  | .turn (.raise _) => true
  | _ => false

/-- What the step has to do.  Only the context that runs after it may have
other registers than before; a change of the running context passes on what it
should; an operation that changes nothing has written nothing but the value of a
transfer to its own context; and the loop of a native resume ends exactly when
its own context is left by a yield or by its end. -/
structure Delivered
    (m : Machine)
    (w : Nat → Wait)
    (event : Event)
    (m' : Machine) : Prop where
  kept :
    ∀ d, d < m.vm.len → d ≠ m'.vm.cur → Keeps m.vm m'.vm d
  passed : m'.vm.cur ≠ m.vm.cur → Passed m w m' event
  instruction :
    ∀ call reg looks, event = .turn (.fiber call reg looks) →
      m'.vm.cur = m.vm.cur →
        m'.acts = m.acts ∧
          (m'.vm.regs m.vm.cur = m.vm.regs m.vm.cur ∨
            ∃ args,
              call = .transfer (some m.vm.cur) args ∧
                m'.vm.regs m.vm.cur =
                  (m.vm.regs m.vm.cur).set reg (m.vm.fiberResult args).2)
  native :
    ∀ fib args, event = .code (.resume fib args) → m'.vm.cur = m.vm.cur →
      m'.acts = m.acts ∧ m'.vm.regs m.vm.cur = m.vm.regs m.vm.cur
  loop :
    ∀ c old rest, m.acts = .resume c old :: rest →
      (m'.acts = rest ↔
        m.vm.cur = c ∧ m'.vm.cur ≠ c ∧ event.finishes = true)

/-- What a run may do: besides what the protocol asks for, only a task is
switched out, and a context that was switched out is resumed or transferred to
only where no register is pending in it. -/
def Careful (m : Machine) (w : Nat → Wait) (event : Event) : Prop :=
  Admissible m event ∧
    match event with
    | .turn .preempt => ∀ c old, m.acts.head? ≠ some (.resume c old)
    | .turn (.fiber (.resume (some c) _) _ _) =>
        w c = .parked → m.vm.pending c = none
    | .turn (.fiber (.transfer (some c) _) _ _) =>
        w c = .parked → m.vm.pending c = none
    | .code (.resume (some c) _) => w c = .parked → m.vm.pending c = none
    | _ => True

/-- A step has delivered, and the record goes on agreeing with the VM. -/
structure Kept
    (m : Machine)
    (w : Nat → Wait)
    (event : Event)
    (m' : Machine) : Prop where
  awaited : ∃ chain, Awaited m'.vm (after w m event m') chain
  delivered : Delivered m w event m'

section Staying

variable
  {vm vm' vm'' : Vm}
  {m m' : Machine}
  {w : Nat → Wait}
  {event : Event}
  {act : Activation}
  {acts : List Activation}
  {chain : List Nat}
  {c : Nat}

theorem Stays.trans
    (first : Stays vm vm' chain)
    (second : Stays vm' vm'' chain)
    (len : vm'.len = vm.len) :
    Stays vm vm'' chain where
  cur := second.cur.trans first.cur
  prev := fun c member => (second.prev c member).trans (first.prev c member)
  vmexec := fun c member =>
    (second.vmexec c member).trans (first.vmexec c member)
  status := by
    intro c bound notCurrent
    rcases second.status c (by rwa [len]) (by rwa [first.cur]) with
      gone | same
    · exact .inl gone
    · rcases first.status c bound notCurrent with gone | same'
      · exact .inl (same.1.trans gone)
      · exact .inr ⟨same.1.trans same'.1, same.2.trans same'.2⟩
  fresh := by
    intro c old new
    exact second.fresh c (by rwa [len]) new

/-- The contexts are the same ones. -/
theorem stays_of_contexts
    (contexts : vm'.contexts = vm.contexts)
    (cur : vm'.cur = vm.cur)
    (len : vm'.len = vm.len) :
    Stays vm vm' chain where
  cur := cur
  prev := fun c _ => by simp [Vm.view, contexts]
  vmexec := fun c _ => by simp [Vm.view, contexts]
  status := fun c _ _ =>
    .inr ⟨by simp [Vm.view, contexts], by simp [Vm.pending, contexts]⟩
  fresh := by
    intro c old new
    rw [len] at new
    exact absurd old (Nat.not_le_of_lt new)

/-- The registers or the frames of one context change. -/
theorem setContext_stays
    (vm : Vm)
    (c : Nat)
    (change : Context → Context)
    (prev : ∀ context, (change context).prev = context.prev)
    (status : ∀ context, (change context).status = context.status)
    (vmexec : ∀ context, (change context).vmexec = context.vmexec)
    (pendingReg :
      ∀ context, (change context).pendingReg = context.pendingReg) :
    Stays vm (vm.setContext c change) chain where
  cur := rfl
  prev := by
    intro d _
    by_cases here : d = c <;> simp [Vm.view, here, prev]
  vmexec := by
    intro d _
    by_cases here : d = c <;> simp [Vm.view, here, vmexec]
  status := by
    intro d _ _
    by_cases here : d = c <;>
      simp [Vm.view, Vm.pending, here, status, pendingReg]
  fresh := by
    intro d old new
    exact absurd old (Nat.not_le_of_lt new)

theorem setContext_keeps
    (change : Context → Context)
    (other : d ≠ c) :
    Keeps vm (vm.setContext c change) d :=
  .inl (by simp [Vm.regs, other])

theorem Keeps.of_contexts
    (contexts : vm'.contexts = vm.contexts) :
    Keeps vm vm' d :=
  .inl (by simp [Vm.regs, contexts])

/-- A context is made. -/
theorem pushContext_stays
    (bounded : ∀ c ∈ chain, c < vm.len)
    (contexts :
      vm'.contexts =
        (vm.pushContext (Context.new .created (some block))).contexts)
    (cur : vm'.cur = vm.cur)
    (len : vm'.len = vm.len + 1) :
    Stays vm vm' chain where
  cur := cur
  prev := by
    intro c member
    have older : c ≠ vm.len := Nat.ne_of_lt (bounded c member)
    simp [Vm.view, contexts, Vm.pushContext, older]
  vmexec := by
    intro c member
    have older : c ≠ vm.len := Nat.ne_of_lt (bounded c member)
    simp [Vm.view, contexts, Vm.pushContext, older]
  status := by
    intro c bound _
    have older : c ≠ vm.len := Nat.ne_of_lt bound
    right
    simp [Vm.view, Vm.pending, contexts, Vm.pushContext, older]
  fresh := by
    intro c old new
    have made : c = vm.len := by omega
    simp [Vm.view, Vm.pending, contexts, Vm.pushContext, made, Context.new]

theorem pushContext_keeps
    (contexts :
      vm'.contexts =
        (vm.pushContext (Context.new .created (some block))).contexts)
    (bound : d < vm.len) :
    Keeps vm vm' d := by
  have older : d ≠ vm.len := Nat.ne_of_lt bound
  exact .inl (by simp [Vm.regs, contexts, Vm.pushContext, older])

section

variable (awaited : Awaited m.vm w chain)
include awaited

/-- The running context goes on. -/
theorem Kept.of_stays
    (stays : Stays m.vm m'.vm chain)
    (keeps :
      ∀ d, d < m.vm.len → d ≠ m.vm.cur → Keeps m.vm m'.vm d)
    (loop : ∀ c old rest, m.acts = .resume c old :: rest → m'.acts ≠ rest)
    (instruction : ∀ call reg looks, event ≠ .turn (.fiber call reg looks))
    (native : ∀ fib args, event ≠ .code (.resume fib args)) :
    Kept m w event m' where
  awaited := by
    refine ⟨chain, ?_⟩
    rw [after, if_pos stays.cur]
    exact awaited.stays stays
  delivered :=
    { kept := by
        intro d bound other
        rw [stays.cur] at other
        exact keeps d bound other
      passed := fun changed => absurd stays.cur changed
      instruction := fun call reg looks same =>
        absurd same (instruction call reg looks)
      native := fun fib args same => absurd same (native fib args)
      loop := by
        intro c old rest nested
        constructor
        · intro ended
          exact absurd ended (loop c old rest nested)
        · rintro ⟨rfl, left, _⟩
          exact absurd stays.cur left }

/-- The running context goes on inside the same loop. -/
theorem Kept.of_sameActs
    (stays : Stays m.vm m'.vm chain)
    (acts : m'.acts = m.acts)
    (keeps :
      ∀ d, d < m.vm.len → d ≠ m.vm.cur → Keeps m.vm m'.vm d)
    (instruction : ∀ call reg looks, event ≠ .turn (.fiber call reg looks))
    (native : ∀ fib args, event ≠ .code (.resume fib args)) :
    Kept m w event m' := by
  apply Kept.of_stays awaited stays keeps _ instruction native
  intro c old rest isResume
  rw [acts, isResume]
  exact List.cons_ne_self _ _

/-- Registers and frames of the running context change. -/
theorem Kept.of_write
    (change : Context → Context)
    (written : m'.vm = m.vm.setContext m.vm.cur change)
    (prev : ∀ context, (change context).prev = context.prev)
    (status : ∀ context, (change context).status = context.status)
    (vmexec : ∀ context, (change context).vmexec = context.vmexec)
    (pendingReg :
      ∀ context, (change context).pendingReg = context.pendingReg)
    (loop : ∀ c old rest, m.acts = .resume c old :: rest → m'.acts ≠ rest)
    (instruction : ∀ call reg looks, event ≠ .turn (.fiber call reg looks))
    (native : ∀ fib args, event ≠ .code (.resume fib args)) :
    Kept m w event m' := by
  apply Kept.of_stays awaited _ _ loop instruction native
  · rw [written]
    exact setContext_stays m.vm m.vm.cur change prev status vmexec pendingReg
  · intro d _ other
    rw [written]
    exact setContext_keeps change other

/-- The contexts are the same ones. -/
theorem Kept.of_contexts
    (contexts : m'.vm.contexts = m.vm.contexts)
    (cur : m'.vm.cur = m.vm.cur)
    (len : m'.vm.len = m.vm.len)
    (loop : ∀ c old rest, m.acts = .resume c old :: rest → m'.acts ≠ rest)
    (instruction : ∀ call reg looks, event ≠ .turn (.fiber call reg looks))
    (native : ∀ fib args, event ≠ .code (.resume fib args)) :
    Kept m w event m' := by
  apply Kept.of_stays awaited _ _ loop instruction native
  · exact stays_of_contexts contexts cur len
  · intro d _ _
    exact .of_contexts contexts

end

/-- The loop of a native resume is still there. -/
theorem acts_ne_rest
    (grown : m'.acts = m.acts ∨ ∃ act, m'.acts = act :: m.acts)
    (c old : Nat)
    (rest : List Activation)
    (isResume : m.acts = .resume c old :: rest) :
    m'.acts ≠ rest := by
  intro ended
  have short := congrArg List.length ended
  rcases grown with same | ⟨act, grown⟩
  · rw [same, isResume, List.length_cons] at short
    omega
  · rw [grown, isResume, List.length_cons, List.length_cons] at short
    omega

/-- An operation of Fiber is refused, or is a transfer to its own context. -/
theorem Kept.of_refused
    (awaited : Awaited m.vm w chain)
    (stays : Stays m.vm m'.vm chain)
    (acts : m'.acts = m.acts)
    (keeps :
      ∀ d, d < m.vm.len → d ≠ m.vm.cur → Keeps m.vm m'.vm d)
    (regs :
      m'.vm.regs m.vm.cur = m.vm.regs m.vm.cur ∨
        ∃ args reg looks,
          event = .turn (.fiber (.transfer (some m.vm.cur) args) reg looks) ∧
            m'.vm.regs m.vm.cur =
              (m.vm.regs m.vm.cur).set reg (m.vm.fiberResult args).2) :
    Kept m w event m' where
  awaited := by
    refine ⟨chain, ?_⟩
    rw [after, if_pos stays.cur]
    exact awaited.stays stays
  delivered :=
    { kept := by
        intro d bound other
        rw [stays.cur] at other
        exact keeps d bound other
      passed := fun changed => absurd stays.cur changed
      instruction := by
        intro call reg looks same _
        refine ⟨acts, ?_⟩
        rcases regs with regs | ⟨args, reg', looks', same', regs⟩
        · exact .inl regs
        · rw [same] at same'
          simp only [Event.turn.injEq, Turn.fiber.injEq] at same'
          obtain ⟨rfl, rfl, _⟩ := same'
          exact .inr ⟨args, rfl, regs⟩
      native := by
        intro fib args same _
        refine ⟨acts, ?_⟩
        rcases regs with regs | ⟨_, _, _, same', _⟩
        · exact regs
        · rw [same] at same'
          simp at same'
      loop := by
        intro c old rest nested
        constructor
        · intro ended
          rw [acts, nested] at ended
          exact absurd ended (List.cons_ne_self _ _)
        · rintro ⟨rfl, left, _⟩
          exact absurd stays.cur left }

end Staying

end SabiRuby.Fibers
