import SabiRuby.Fibers.Returns

/-!
# Entering a context with arguments

The operations of Fiber in an instruction, a native resume and a turn of the
scheduler: what they enter begins with what it should.
-/

namespace SabiRuby.Fibers

open Function

open Execution (FiberState Cci root)
open Function (update)
open Library (LinkChain)

/-- What a context that is entered with arguments begins with, as the VM has
it. -/
def Began (vm vm' : Vm) (c : Nat) (args : List Value) : Prop :=
  if (vm.contexts c).status = .created then
    ∃ block,
      (vm.contexts c).block = some block ∧
        vm'.regs = update vm.regs c (vm.layBlock block args).2
  else
    vm'.regs =
      update vm.regs c
        (receive (vm.pending c) (vm.fiberResult args).2 (vm.regs c))

section Entering

variable
  {vm vm' : Vm}
  {m m' : Machine}
  {w : Nat → Wait}
  {event : Event}
  {act : Activation}
  {acts : List Activation}
  {chain : List Nat}
  {c : Nat}
  {args : List Value}

/-- Only the context entered begins with something. -/
theorem Began.keeps
    (began : Began vm vm' c args)
    (other : d ≠ c) :
    Keeps vm vm' d := by
  unfold Began at began
  left
  split at began
  · obtain ⟨_, _, regs⟩ := began
    rw [regs, update_of_ne other]
  · rw [began, update_of_ne other]

/-- A context that an operation may enter waits where the VM says. -/
theorem Awaited.entry
    (awaited : Awaited vm w chain)
    (bound : c < vm.len)
    (other : c ≠ vm.cur)
    (allowed : FiberState.refusal resume (vm.contexts c).status = none)
    (notWaiting : (vm.contexts c).status ≠ .resumed)
    (careful : w c = .parked → vm.pending c = none) :
    if (vm.contexts c).status = .created then vm.pending c = none
    else
      ((∃ reg, w c = .yield reg ∨ w c = .transfer reg) ∨ w c = .parked) ∧
        vm.pending c = (w c).reg? ∧ (resume = true → ∀ reg, w c ≠ .transfer reg)
          := by
  have held := awaited.held c bound other
  have status : vm.view.status c = (vm.contexts c).status := rfl
  rw [status] at held
  cases state : (vm.contexts c).status with
  | created =>
      rw [state] at held
      exact held
  | suspended =>
      rw [state] at held
      rw [if_neg (by decide)]
      rcases held with ⟨reg, isYield, pending⟩ | isParked
      · exact ⟨.inl ⟨reg, .inl isYield⟩, by rw [pending, isYield, Wait.reg?],
          fun _ _ => by simp [isYield]⟩
      · exact ⟨.inr isParked, by rw [careful isParked, isParked, Wait.reg?],
          fun _ _ => by simp [isParked]⟩
  | transferred =>
      rw [state] at held
      rw [if_neg (by decide)]
      obtain ⟨reg, isTransfer, pending⟩ := held
      refine ⟨.inl ⟨reg, .inr isTransfer⟩,
        by rw [pending, isTransfer, Wait.reg?], ?_⟩
      intro resumes
      simp [resumes, state, FiberState.refusal] at allowed
  | resumed => exact absurd state notWaiting
  | running => simp [state, FiberState.refusal] at allowed
  | terminated => simp [state, FiberState.refusal] at allowed

/-- The arguments have arrived. -/
theorem Began.entered
    (began : Began vm vm' c args)
    (here : vm'.cur = c)
    (waits :
      (vm.contexts c).status ≠ .created →
        ((∃ reg, w c = .yield reg ∨ w c = .transfer reg) ∨ w c = .parked) ∧
          vm.pending c = (w c).reg?) :
    Entered vm vm' w c args := by
  refine ⟨here, ?_⟩
  unfold Began at began
  split at began
  · rename_i created
    obtain ⟨block, known, regs⟩ := began
    rw [if_pos created]
    exact ⟨block, known, by rw [regs, update_self]⟩
  · rename_i waiting
    obtain ⟨origin, pending⟩ := waits waiting
    rw [if_neg waiting]
    refine ⟨origin, ?_⟩
    rw [began, update_self, pending]

/-- A native resume has begun. -/
theorem began_of_native
    (other : c ≠ vm.cur)
    (switched : vm.fiberSwitch c args true true = (vm', .ok v)) :
    Began vm vm' c args := by
  unfold Began
  split
  · rename_i created
    obtain ⟨block, known, regs, _⟩ :=
      fiberSwitch_created other switched created
    exact ⟨block, known, regs⟩
  · rename_i waiting
    obtain ⟨rfl, regs, _⟩ := fiberSwitch_waiting other switched waiting
    exact regs

/-- An operation in an instruction has begun once its native has answered. -/
theorem began_of_sent
    (entered : vm'.cur = c)
    (fresh : (vm.contexts c).status = .created → vm.pending c = none)
    (pending : vm'.pending c = vm.pending c)
    (created :
      (vm.contexts c).status = .created →
        ∃ block,
          (vm.contexts c).block = some block ∧
            vm'.regs = update vm.regs c (vm.layBlock block args).2)
    (waiting :
      (vm.contexts c).status ≠ .created →
        v = (vm.fiberResult args).2 ∧ vm'.regs = vm.regs) :
    Began vm (vm'.deliver v) c args := by
  obtain ⟨regs, _⟩ := deliver_slots vm' v
  rw [entered, pending] at regs
  unfold Began
  split
  · rename_i isCreated
    obtain ⟨block, known, laid⟩ := created isCreated
    refine ⟨block, known, ?_⟩
    rw [regs, fresh isCreated, receive_none, update_eq_self, laid]
  · rename_i isWaiting
    obtain ⟨rfl, same⟩ := waiting isWaiting
    rw [regs, same]

/-- A context is entered by a resume. -/
theorem Kept.of_enter
    (sound : Sound m.vm m.acts chain)
    (awaited : Awaited m.vm w chain)
    (outside : c ∉ chain)
    (view : vm'.view = m.vm.view.enter c nested)
    (len : vm'.len = m.vm.len)
    (pending :
      ∀ d, d ≠ c → d ≠ m.vm.cur → vm'.pending d = m.vm.pending d)
    (left :
      if nested then event.leaving c = .nested c
      else
        ∃ reg,
          event.leaving c = .resume reg c ∧ vm'.pending m.vm.cur = some reg)
    (stays : ∀ chain, Stays vm' m'.vm chain)
    (keeps : ∀ d, d ≠ c → Keeps m.vm m'.vm d)
    (passed : Passed m w m' event)
    (acts : m'.acts = m.acts ∨ ∃ act, m'.acts = act :: m.acts)
    (goesOn : event.finishes = false) :
    Kept m w event m' := by
  have entered : m'.vm.cur = c :=
    (stays []).cur.trans (congrArg View.cur view)
  have other : c ≠ m.vm.cur := fun same =>
    outside (same ▸ awaited.links.mem_self)
  have changed : m'.vm.cur ≠ m.vm.cur := by rwa [entered]
  constructor
  · rw [after, if_neg changed, entered]
    exact ⟨c :: chain,
      (awaited.enter sound.orderly outside view len pending left).stays
        (stays _)⟩
  · constructor
    · intro d _ notEntered
      rw [entered] at notEntered
      exact keeps d notEntered
    · intro _
      exact passed
    · intro _ _ _ _ same
      exact absurd same changed
    · intro _ _ _ same
      exact absurd same changed
    · intro d old rest isResume
      constructor
      · intro ended
        exact absurd ended (acts_ne_rest acts d old rest isResume)
      · rintro ⟨_, _, finishes⟩
        rw [goesOn] at finishes
        exact absurd finishes (by decide)

/-- A context is entered by a transfer. -/
theorem Kept.of_transfer
    (awaited : Awaited m.vm w chain)
    (outside : c ∉ chain)
    (plain : Plain m.vm.view.vmexec chain)
    (view : vm'.view = m.vm.view.transfer c)
    (len : vm'.len = m.vm.len)
    (pending :
      ∀ d, d ≠ c → d ≠ m.vm.cur → vm'.pending d = m.vm.pending d)
    (waits : vm'.pending m.vm.cur = some reg)
    (left : event.leaving c = .transfer reg)
    (stays : ∀ chain, Stays vm' m'.vm chain)
    (keeps : ∀ d, d ≠ c → Keeps m.vm m'.vm d)
    (passed : Passed m w m' event)
    (acts : m'.acts = m.acts)
    (goesOn : event.finishes = false) :
    Kept m w event m' := by
  have entered : m'.vm.cur = c :=
    (stays []).cur.trans (congrArg View.cur view)
  have other : c ≠ m.vm.cur := fun same =>
    outside (same ▸ awaited.links.mem_self)
  have changed : m'.vm.cur ≠ m.vm.cur := by rwa [entered]
  constructor
  · rw [after, if_neg changed, entered, left]
    exact ⟨[c],
      (awaited.transfer outside plain view len pending waits).stays (stays _)⟩
  · constructor
    · intro d _ notEntered
      rw [entered] at notEntered
      exact keeps d notEntered
    · intro _
      exact passed
    · intro _ _ _ _ same
      exact absurd same changed
    · intro _ _ _ same
      exact absurd same changed
    · intro d old rest isResume
      constructor
      · intro ended
        rw [acts, isResume] at ended
        exact absurd ended (List.cons_ne_self _ _)
      · rintro ⟨_, _, finishes⟩
        rw [goesOn] at finishes
        exact absurd finishes (by decide)

end Entering

section Instructions

variable
  {m m' : Machine}
  {w : Nat → Wait}
  {act : Activation}
  {acts : List Activation}
  {chain : List Nat}
  {ctx retReg : Nat}
  {looks : Bool}
  {v : Value}

/-- A native answers in the context it was called in. -/
theorem sent_here
    (here : m.vm.cur = ctx)
    (noExit : m.vm.loopExit = none) :
    m.sent ctx retReg looks v =
      { m with
        vm := m.vm.setContext ctx fun c =>
          { c with stack := c.stack.set retReg v } } := by
  unfold Machine.sent
  dsimp only
  rw [if_pos here]
  split
  · rename_i exits
    have exits : m.vm.loopExit = some _ := exits
    rw [noExit] at exits
    simp at exits
  · rfl

/-- It answers in another, and no nested loop is to end. -/
theorem sent_away
    (away : m.vm.cur ≠ ctx)
    (noExit : m.vm.loopExit = none) :
    m.sent ctx retReg looks v = { m with vm := m.vm.deliver v } := by
  unfold Machine.sent
  dsimp only
  rw [if_neg away, if_neg (by simp [noExit])]
  split
  · rename_i exits
    rw [(quiet_deliver m.vm v).loopExit, noExit] at exits
    simp at exits
  · rfl

/-- The nested loop ends. -/
theorem sent_exit
    (away : m.vm.cur ≠ ctx)
    (exits : m.vm.loopExit = some result) :
    m.sent ctx retReg true v =
      Machine.endLoop { m with vm := { m.vm with loopExit := none } }
        (.value result) := by
  unfold Machine.sent
  dsimp only
  rw [if_neg away, if_pos (by simp [exits]), exits]

/-- An operation of Fiber that changes nothing raises. -/
theorem Kept.refused
    (awaited : Awaited m.vm w chain)
    (vm : Vm)
    (contexts : vm.contexts = m.vm.contexts)
    (cur : vm.cur = m.vm.cur)
    (len : vm.len = m.vm.len) :
    Kept m w (.turn (.fiber call retReg looks)) { m with vm := vm } := by
  apply Kept.of_refused awaited
  · exact stays_of_contexts contexts cur len
  · rfl
  · intro d _ _
    exact .of_contexts contexts
  · left
    simp [Vm.regs, contexts]

variable {lc stopDepth : Nat}

/-- An instruction calls an operation of Fiber, and its native answers. -/
theorem turn_fiber
    (step : m.turn lc stopDepth (.fiber call retReg looks) = some m') :
    call.known m.vm = true ∧
      ∃ vm' r,
        call.perform (m.vm.sending retReg) = some (vm', r) ∧
          (∀ text, r = .error text → m' = { m with vm := vm'.unsent }) ∧
          (∀ v, r = .ok v →
            m' =
              Machine.sent { m with vm := vm'.unsent } m.vm.cur retReg looks
                v) := by
  simp only [Machine.turn] at step
  split at step
  · simp at step
  · rename_i allowed
    refine ⟨by simp_all, ?_⟩
    split at step
    · simp at step
    · rename_i vm' r performed
      refine ⟨vm', r, performed, ?_, ?_⟩
      · rintro text rfl
        exact (Option.some.inj step).symm
      · rintro v rfl
        exact (Option.some.inj step).symm

theorem sending_fiberResult
    (vm : Vm)
    (args : List Value) :
    ((vm.sending retReg).fiberResult args).2 = (vm.fiberResult args).2 := by
  apply fiberResult_value
  rfl

theorem sending_layBlock
    (vm : Vm)
    (block : Block)
    (args : List Value) :
    ((vm.sending retReg).layBlock block args).2 =
      (vm.layBlock block args).2 := by
  apply layBlock_value
  rfl

variable {args : List Value}

section

variable (sound : Sound m.vm m.acts chain) (awaited : Awaited m.vm w chain)
include sound awaited

/-- An instruction resumes a fiber. -/
theorem Kept.resume
    (careful : Careful m w (.turn (.fiber (.resume fib args) retReg looks)))
    (step :
      m.turn lc stopDepth (.fiber (.resume fib args) retReg looks) =
        some m') :
    Kept m w (.turn (.fiber (.resume fib args) retReg looks)) m' := by
  have orderly : Orderly (m.vm.sending retReg).view m.acts chain :=
    sound.orderly
  have whole : (m.vm.sending retReg).Whole :=
    ⟨sound.whole.rootBound, sound.whole.blocks, sound.whole.tasks,
      sound.whole.ready⟩
  obtain ⟨known, _, r, performed, refused, answered⟩ := turn_fiber step
  cases fib with
  | none =>
      obtain ⟨rfl, rfl⟩ := Prod.mk.inj (Option.some.inj performed)
      rw [refused _ rfl]
      exact Kept.refused awaited _ rfl rfl rfl
  | some c =>
      have bound : c < m.vm.len := by
        simpa [FiberCall.known] using known
      have performed :
          (m.vm.sending retReg).fiberSwitch c args true false = (_, r) :=
        Option.some.inj performed
      rcases fiberSwitch_resume orderly whole c args false with
        ⟨text, error⟩ | ⟨vm', v, switched, outside, notRoot, moved⟩
      · rw [error] at performed
        obtain ⟨rfl, rfl⟩ := Prod.mk.inj performed
        rw [refused _ rfl]
        exact Kept.refused awaited _ rfl rfl rfl
      · rw [switched] at performed
        obtain ⟨rfl, rfl⟩ := Prod.mk.inj performed
        have other : c ≠ m.vm.cur := fun same =>
          outside (same ▸ awaited.links.mem_self)
        have other' : c ≠ (m.vm.sending retReg).cur := other
        have moved := moved_sending sound.sending moved
        have entered : vm'.unsent.cur = c := congrArg View.cur moved.view
        have away : vm'.unsent.cur ≠ m.vm.cur := by rwa [entered]
        have isDelivered := answered v rfl
        rw [sent_away away (moved.loopExit.trans sound.loopExit)]
          at isDelivered
        have allowed := fiberSwitch_allowed switched
        have allowed :
            FiberState.refusal true (m.vm.contexts c).status = none := allowed
        have notWaiting : (m.vm.contexts c).status ≠ .resumed := by
          intro resumed
          simp [resumed, FiberState.refusal] at allowed
        have entry :=
          awaited.entry bound other allowed notWaiting careful.2
        have pending :
            vm'.unsent.pending =
              update m.vm.pending m.vm.cur (some retReg) := by
          by_cases created : (m.vm.contexts c).status = .created
          · obtain ⟨_, _, _, pending⟩ :=
              fiberSwitch_created other' switched created
            exact pending
          · exact (fiberSwitch_waiting other' switched created).2.2
        have began : Began m.vm (vm'.unsent.deliver v) c args := by
          apply began_of_sent entered
          · intro created
            rwa [if_pos created] at entry
          · rw [pending]
            exact update_of_ne other _ _
          · intro created
            obtain ⟨block, laid, regs, _⟩ :=
              fiberSwitch_created other' switched created
            rw [sending_layBlock] at regs
            exact ⟨block, laid, regs⟩
          · intro waiting
            obtain ⟨value, regs, _⟩ :=
              fiberSwitch_waiting other' switched waiting
            exact ⟨value.trans (sending_fiberResult m.vm args), regs⟩
        have stays := deliver_stays vm'.unsent v
        rw [isDelivered]
        apply Kept.of_enter sound awaited outside moved.view moved.steady.len
        · intro d _ notOld
          rw [pending, update_of_ne notOld]
        · rw [pending, update_self]
          exact ⟨retReg, rfl, rfl⟩
        · exact stays
        · intro d
          exact began.keeps
        · refine ⟨c, rfl, ?_, ?_, rfl⟩
          · apply began.entered ((deliver_cur _ _).trans entered)
            intro waiting
            rw [if_neg waiting] at entry
            exact ⟨entry.1, entry.2.1⟩
          · intro waiting
            rw [if_neg waiting] at entry
            exact entry.2.2 rfl
        · exact .inl rfl
        · rfl

/-- An instruction yields. -/
theorem Kept.yield
    (active : m.acts = act :: acts)
    (isLoop : act.loop?.isSome)
    (careful : Careful m w (.turn (.fiber (.yield args) retReg looks)))
    (step :
      m.turn lc stopDepth (.fiber (.yield args) retReg looks) = some m') :
    Kept m w (.turn (.fiber (.yield args) retReg looks)) m' := by
  obtain ⟨_, _, r, performed, refused, answered⟩ := turn_fiber step
  have performed :
      (m.vm.sending retReg).fiberYield args = (_, r) :=
    Option.some.inj performed
  have different := sound.orderly.prev_ne_self
  have different' :
      (m.vm.sending retReg).view.prev (m.vm.sending retReg).cur ≠
        some (m.vm.sending retReg).cur := different
  rcases fiberYield_spec args different' with
    ⟨text, error⟩ | ⟨p, vm', v, linked, free, yielded, moved⟩
  · rw [error] at performed
    obtain ⟨rfl, rfl⟩ := Prod.mk.inj performed
    rw [refused _ rfl]
    exact Kept.refused awaited _ rfl rfl rfl
  · obtain ⟨value, regs, pending, _⟩ := fiberYield_slots yielded
    rw [yielded] at performed
    obtain ⟨rfl, rfl⟩ := Prod.mk.inj performed
    rw [sending_fiberResult] at value
    have exec : (m.vm.sending retReg).view.vmexec (m.vm.sending retReg).cur =
        m.vm.running.vmexec := rfl
    have linked : m.vm.running.prev = some p := linked
    have moved := moved_sending sound.sending moved
    have noExit : vm'.unsent.loopExit = none :=
      moved.loopExit.trans sound.loopExit
    have entered : vm'.unsent.cur = p := congrArg View.cur moved.view
    have away : vm'.unsent.cur ≠ m.vm.cur := by
      rw [entered]
      intro same
      exact different (linked.trans (congrArg some same))
    have notRoot : m.vm.cur ≠ root := by
      intro isRoot
      have none := sound.orderly.rootPrev
      rw [← isRoot] at none
      have linked : m.vm.view.prev m.vm.cur = some p := linked
      rw [linked] at none
      simp at none
    have isEnd := answered v rfl
    rw [exec] at regs pending isEnd
    have slots :
        vm'.unsent.regs = m.vm.regs ∧
          vm'.unsent.pending =
            update m.vm.pending m.vm.cur (some retReg) := by
      split at regs
      · rename_i nested
        rw [if_pos nested] at pending
        exact ⟨regs, pending⟩
      · rename_i plain
        rw [if_neg plain] at pending
        exact ⟨regs, pending⟩
    have notRunning : FiberState.suspended ≠ .running := by decide
    have passes :
        WentBack m w (.value v) m' →
          Passed m w m' (.turn (.fiber (.yield args) retReg looks)) := by
      intro went
      rw [value] at went
      exact went
    apply Kept.wentBack sound active isLoop awaited notRoot free notRunning
    · have view := moved.view
      rw [← show m.vm.running.prev.getD root = p by rw [linked]; rfl] at view
      exact view
    · exact moved.steady.len
    · intro d other
      rw [slots.2, update_of_ne other]
    · intro target
      rw [slots.2, update_self]
      exact .inl ⟨retReg, rfl, rfl⟩
    · intro d _
      rw [slots.1]
    · exact .inl (congrFun slots.1 m.vm.cur)
    · rfl
    · exact passes
    · intro plain
      rw [if_neg (by simp [plain]), sent_away away noExit] at isEnd
      rw [isEnd]
      exact ⟨rfl, rfl⟩
    · intro nested
      refine ⟨m.answer, ?_⟩
      have looking : looks = true := by
        rcases careful.1 with looking | plain
        · exact looking
        · rw [nested] at plain
          exact absurd plain (by decide)
      rw [if_pos nested, looking] at isEnd
      have ended := isEnd.trans (sent_exit away rfl)
      have same : ({ vm' with loopExit := none } : Vm).unsent = vm'.unsent := by
        have noExit : vm'.loopExit = none := noExit
        cases vm'
        simp_all
      have ended :
          m' =
            Machine.endLoop
              { m with vm := ({ vm' with loopExit := none } : Vm).unsent }
              (.value v) := ended
      rw [ended, same, ← active]

/-- An instruction transfers. -/
theorem Kept.transfer
    (careful : Careful m w (.turn (.fiber (.transfer fib args) retReg looks)))
    (step :
      m.turn lc stopDepth (.fiber (.transfer fib args) retReg looks) =
        some m') :
    Kept m w (.turn (.fiber (.transfer fib args) retReg looks)) m' := by
  have orderly : Orderly (m.vm.sending retReg).view m.acts chain :=
    sound.orderly
  have whole : (m.vm.sending retReg).Whole :=
    ⟨sound.whole.rootBound, sound.whole.blocks, sound.whole.tasks,
      sound.whole.ready⟩
  obtain ⟨known, vm₁, r, performed, refused, answered⟩ := turn_fiber step
  have performed :
      (m.vm.sending retReg).fiberTransfer fib args = some (vm₁, r) :=
    performed
  obtain ⟨vm', r', transferred, outcome⟩ :=
    fiberTransfer_spec fib args orderly sound.chain_length_le whole
  rw [transferred] at performed
  obtain ⟨rfl, rfl⟩ := Prod.mk.inj (Option.some.inj performed)
  rcases outcome with ⟨rfl, text, rfl⟩ | ⟨quiet, v, rfl⟩ |
    ⟨c, v, rfl, outside, plain, free, rfl, moved⟩
  · rw [refused _ rfl]
    exact Kept.refused awaited _ rfl rfl rfl
  · have here : vm'.cur = m.vm.cur := congrArg View.cur quiet.view
    obtain ⟨isSelf, value, arrays, rfl⟩ :=
      fiberTransfer_self transferred here
    rw [sending_fiberResult] at value
    have isEnd := (answered v rfl).trans (sent_here rfl sound.loopExit)
    rw [isEnd]
    have stays : Stays m.vm
        (m.vm.setContext m.vm.cur fun c =>
          { c with stack := c.stack.set retReg v }) chain := by
      apply setContext_stays <;> intros <;> rfl
    apply Kept.of_refused awaited
    · exact ⟨stays.cur, stays.prev, stays.vmexec, stays.status, stays.fresh⟩
    · rfl
    · intro d _ other
      have keeps : Keeps m.vm
          (m.vm.setContext m.vm.cur fun c =>
            { c with stack := c.stack.set retReg v }) d :=
        setContext_keeps _ other
      exact keeps
    · right
      have isSelf : fib = some m.vm.cur := isSelf
      refine ⟨args, retReg, looks, by rw [isSelf], ?_⟩
      rw [setContext_regs, update_self, value]
      rfl
  · have bound : c < m.vm.len := by
      simpa [FiberCall.known] using known
    have other : c ≠ m.vm.cur := fun same =>
      outside (same ▸ awaited.links.mem_self)
    have moved := moved_sending sound.sending moved
    have entered : vm'.unsent.cur = c := congrArg View.cur moved.view
    have away : vm'.unsent.cur ≠ m.vm.cur := by rwa [entered]
    have isEnd :=
      (answered v rfl).trans
        (sent_away away (moved.loopExit.trans sound.loopExit))
    obtain ⟨notWaiting, allowed⟩ := fiberTransfer_allowed transferred other
    have notWaiting : (m.vm.contexts c).status ≠ .resumed := notWaiting
    have allowed :
        FiberState.refusal false (m.vm.contexts c).status = none := by
      by_cases isRoot : c = root
      · rcases sound.orderly.rootStatus (isRoot ▸ Ne.symm other) with
          status | status
        · exact absurd (isRoot ▸ status) notWaiting
        · have status : (m.vm.contexts root).status = .transferred := status
          rw [isRoot, status]
          rfl
      · exact allowed isRoot
    have entry := awaited.entry bound other allowed notWaiting careful.2
    obtain ⟨_, isFiber, _, pending, waiting, created⟩ :=
      fiberTransfer_slots transferred (by exact away)
    obtain rfl := Option.some.inj isFiber
    have pending :
        vm'.unsent.pending =
          update m.vm.pending m.vm.cur (some retReg) := pending
    have began : Began m.vm (vm'.unsent.deliver v) c args := by
      apply began_of_sent entered
      · intro isCreated
        rwa [if_pos isCreated] at entry
      · rw [pending]
        exact update_of_ne other _ _
      · intro isCreated
        have notRoot : c ≠ root := by
          intro isRoot
          rw [isRoot] at isCreated other
          rcases sound.orderly.rootStatus (Ne.symm other) with status | status
          · have status : (m.vm.contexts root).status = .resumed := status
            rw [isCreated] at status
            simp at status
          · have status : (m.vm.contexts root).status = .transferred := status
            rw [isCreated] at status
            simp at status
        obtain ⟨block, laid, regs⟩ := created notRoot isCreated
        rw [sending_layBlock] at regs
        exact ⟨block, laid, regs⟩
      · intro isWaiting
        obtain ⟨value, regs⟩ := waiting (.inr isWaiting)
        exact ⟨value.trans (sending_fiberResult m.vm args), regs⟩
    have stays := deliver_stays vm'.unsent v
    rw [isEnd]
    apply Kept.of_transfer awaited outside plain moved.view moved.steady.len
    · intro d _ notOld
      rw [pending, update_of_ne notOld]
    · rw [pending, update_self]
    · rfl
    · exact stays
    · intro d
      exact began.keeps
    · refine ⟨c, rfl, ?_, rfl⟩
      apply began.entered ((deliver_cur _ _).trans entered)
      intro isWaiting
      rw [if_neg isWaiting] at entry
      exact ⟨entry.1, entry.2.1⟩
    · rfl
    · rfl

end

end Instructions

section Codes

variable
  {m m' : Machine}
  {w : Nat → Wait}
  {event : Event}
  {act : Activation}
  {acts : List Activation}
  {chain : List Nat}

section

variable (sound : Sound m.vm m.acts chain) (awaited : Awaited m.vm w chain)
include sound awaited

/-- Native code resumes a fiber. -/
theorem Kept.nativeResume
    (known : (FiberCall.resume fib args).known m.vm = true)
    (careful : Careful m w (.code (.resume fib args))) :
    Kept m w (.code (.resume fib args)) (m.nativeResume fib args) := by
  have stays : Kept m w (.code (.resume fib args)) m := by
    apply Kept.of_refused awaited
    · exact stays_of_contexts rfl rfl rfl
    · rfl
    · intro d _ _
      exact .of_contexts rfl
    · exact .inl rfl
  cases fib with
  | none => exact stays
  | some c =>
      have bound : c < m.vm.len := by
        simpa [FiberCall.known] using known
      have enters : m.vm.fiberResume (some c) args =
          m.vm.fiberSwitch c args true true := by
        simp [Vm.fiberResume, fiberContext, sound.sending]
      unfold Machine.nativeResume
      rw [enters]
      rcases fiberSwitch_resume sound.orderly sound.whole c args true with
        ⟨text, refused⟩ | ⟨vm', v, switched, outside, notRoot, moved⟩
      · rw [refused]
        exact stays
      · rw [switched]
        have other : c ≠ m.vm.cur := fun same =>
          outside (same ▸ awaited.links.mem_self)
        have allowed := fiberSwitch_allowed switched
        have notWaiting : (m.vm.contexts c).status ≠ .resumed := by
          intro resumed
          simp [resumed, FiberState.refusal] at allowed
        have entry :=
          awaited.entry bound other allowed notWaiting careful.2
        have began := began_of_native other switched
        have pending : ∀ d, d ≠ c → vm'.pending d = m.vm.pending d := by
          intro d different
          by_cases created : (m.vm.contexts c).status = .created
          · obtain ⟨_, _, _, pending⟩ :=
              fiberSwitch_created other switched created
            rw [pending]
            rfl
          · obtain ⟨_, _, pending⟩ :=
              fiberSwitch_waiting other switched created
            rw [pending, update_of_ne different]
        apply Kept.of_enter sound awaited outside moved.view moved.steady.len
        · intro d different _
          exact pending d different
        · rfl
        · intro chain
          exact stays_of_contexts rfl rfl rfl
        · intro d
          exact began.keeps
        · refine ⟨c, rfl, ?_, ?_, rfl⟩
          · apply began.entered (congrArg View.cur moved.view)
            intro waiting
            rw [if_neg waiting] at entry
            exact ⟨entry.1, entry.2.1⟩
          · intro waiting
            rw [if_neg waiting] at entry
            exact entry.2.2 rfl
        · exact .inr ⟨_, rfl⟩
        · rfl

/-- A task is switched out. -/
theorem Kept.preempt
    (active : m.acts = act :: acts)
    (isLoop : act.loop?.isSome)
    (careful : Careful m w (.turn .preempt))
    (switchable : m.vm.switchable = true) :
    Kept m w (.turn .preempt)
      (Machine.endLoop { m with vm := m.vm.suspend } r) := by
  simp only [Vm.switchable, Bool.and_eq_true, bne_iff_ne, ne_eq,
    Bool.not_eq_true', fiberCheckNative_eq, Bool.not_eq_false',
    List.isEmpty_iff] at switchable
  have notRoot : m.vm.cur ≠ root := switchable.1.1.2
  have nested : m.vm.running.vmexec = true := switchable.2
  have moved := moved_suspend sound.orderly.prev_ne_self notRoot
  have slots := suspend_sameSlots m.vm
  have sound' : Sound m.vm (act :: acts) chain := active ▸ sound
  obtain ⟨p, m'', isEnd, linked, isResume, acts', answer', gives, same⟩ :=
    sound'.endNested isLoop nested switchable.1.2 (by decide) moved.view
      m.answer r
  rw [← active] at isEnd
  have target : m.vm.running.prev.getD root = p := by
    rw [linked]
    rfl
  have entered : m''.vm.cur = p := by
    rw [gives.cur]
    exact (congrArg View.cur moved.view).trans target
  rw [isEnd]
  apply Kept.of_back sound awaited notRoot rfl moved.view moved.steady.len
  · intro d _ _
    rw [slots.pending]
  · exact .inr rfl
  · exact gives.stays
  · intro d _
    exact Keeps.trans (.inl (congrFun slots.regs d)) gives
  · refine ⟨?_, ?_⟩
    · rw [entered, same, slots.regs]
    · rw [entered, active, acts']
      rcases isResume with rfl | ⟨t, rfl⟩
      · exact absurd (congrArg List.head? active) (careful.2 _ _)
      · exact ⟨t, rfl⟩
  · intro c old rest isLoop'
    exact absurd (congrArg List.head? isLoop') (careful.2 c old)

/-- The scheduler takes a turn. -/
theorem Kept.schedulerStep
    (careful : Careful m w (.code .schedulerStep)) :
    Kept m w (.code .schedulerStep) m.schedulerStep := by
  have stays : ∀ vm' : Vm, GivesUp m.vm vm' →
      Kept m w (.code .schedulerStep) { m with vm := vm' } := by
    intro vm' gives
    apply Kept.of_sameActs awaited
    · exact gives.stays chain
    · rfl
    · intro d _ _
      exact gives.keeps d
    · simp
    · simp
  unfold Machine.schedulerStep
  dsimp only
  split
  · exact stays m.vm (.of_contexts rfl rfl rfl)
  · rename_i t rest queue
    have known : t < m.vm.task.count := sound.whole.ready t (by simp [queue])
    split
    · exact stays _ (.of_contexts rfl rfl rfl)
    · rename_i alive
      split
      · exact stays m.vm (.of_contexts rfl rfl rfl)
      · rename_i other
        obtain ⟨offChain, notRoot⟩ :
            ¬ m.vm.OnChain (m.vm.task.tasks t).ctx ∧
              (m.vm.task.tasks t).ctx ≠ root := by
          rcases careful.1 t (by simp [queue]) alive with here | allowed
          · exact absurd here other
          · exact allowed
        have outside : (m.vm.task.tasks t).ctx ∉ chain := fun member =>
          offChain ⟨chain, sound.orderly.links, member⟩
        unfold Machine.executeTask
        dsimp only
        split
        · exact stays _ (givesUp_stopTask m.vm t)
        · have free := sound.skips_eq_nil outside
          have moved := moved_enterTask other free
          have entered : (m.vm.enterTask t).cur = (m.vm.task.tasks t).ctx :=
            congrArg View.cur moved.view
          obtain ⟨pending, regs⟩ :=
            enterTask_slots m.vm other (sound.whole.blocks _ notRoot)
          have begun :
              ∀ d, d ≠ (m.vm.task.tasks t).ctx →
                Keeps m.vm (m.vm.enterTask t) d := by
            intro d different
            left
            split at regs
            · obtain ⟨_, _, regs⟩ := regs
              rw [regs, update_of_ne different]
            · rw [regs]
          apply Kept.of_enter sound awaited outside moved.view
            moved.steady.len
          · intro d _ _
            rw [pending]
          · rfl
          · intro chain
            exact stays_of_contexts rfl rfl rfl
          · exact begun
          · refine ⟨⟨t, by rw [entered]⟩, ?_⟩
            rw [entered]
            split at regs
            · rename_i created
              obtain ⟨block, laid, regs⟩ := regs
              rw [if_pos created]
              refine ⟨block, laid, ?_⟩
              rw [regs, update_self]
            · rename_i waiting
              rw [if_neg waiting, regs]
          · exact .inr ⟨_, rfl⟩
          · rfl

end

end Codes

end SabiRuby.Fibers
