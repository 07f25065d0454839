import SabiRuby.Fibers.Delivery

/-!
# Going back with a value

The steps that leave the running context for the one that waits for it: its end,
by a return or an exception, a yield, and the frames on the way.
-/

namespace SabiRuby.Fibers

open Function

open Execution (FiberState Cci root)
open Function (update)
open Library (LinkChain)

section Back

variable
  {vm vm' : Vm}
  {m m' : Machine}
  {w : Nat → Wait}
  {event : Event}
  {act : Activation}
  {acts : List Activation}
  {chain : List Nat}

/-- What the context that the running one returns to waits for. -/
theorem Awaited.waitsFor
    (awaited : Awaited vm w chain)
    (sound : Sound vm acts chain)
    (linked : vm.running.prev = some p) :
    (vm.running.vmexec = true → w p = .nested vm.cur) ∧
      (vm.running.vmexec = false →
        ∃ reg, w p = .resume reg vm.cur ∧ vm.pending p = some reg) := by
  obtain ⟨rest, rfl⟩ := sound.orderly.chain_eq linked
  have first := awaited.answers.1
  have exec : vm.view.vmexec vm.view.cur = vm.running.vmexec := rfl
  rw [exec] at first
  have different : p ≠ vm.cur := by
    intro same
    apply sound.orderly.prev_ne_self
    exact linked.trans (congrArg some same)
  constructor
  · intro nested
    rwa [if_pos nested] at first
  · intro plain
    rw [if_neg (by simp [plain])] at first
    obtain ⟨reg, waits⟩ := first
    refine ⟨reg, waits, ?_⟩
    have held :=
      awaited.held p (sound.bounded p (by simp)) different
    rw [sound.orderly.waiting p (by simp) different] at held
    rcases held with ⟨reg', callee, waits', pending⟩ | ⟨callee, waits'⟩
    · rw [waits, Wait.resume.injEq] at waits'
      rw [pending, waits'.1]
    · rw [waits] at waits'
      simp at waits'

/-- The root waits in an instruction for a context that nobody resumed. -/
theorem Awaited.rootWaitsFor
    (awaited : Awaited vm w chain)
    (sound : Sound vm acts chain)
    (ends : vm.running.prev = none)
    (notRoot : vm.cur ≠ root) :
    ∃ reg, (w root).reg? = some reg ∧ vm.pending root = some reg := by
  obtain ⟨rest, rfl⟩ := sound.orderly.exists_eq_cons
  have alone : rest = [] := sound.orderly.links.tail_of_none ends
  subst alone
  have outside : root ∉ [vm.cur] := by
    simpa using Ne.symm notRoot
  have held :=
    awaited.held root sound.whole.rootBound (Ne.symm notRoot)
  rcases sound.orderly.rootStatus notRoot with status | status
  · rw [status] at held
    rcases held with ⟨reg, callee, waits, pending⟩ | ⟨callee, waits⟩
    · exact ⟨reg, by rw [waits, Wait.reg?], pending⟩
    · exact absurd waits (awaited.rootWaits outside callee)
  · rw [status] at held
    obtain ⟨reg, waits, pending⟩ := held
    exact ⟨reg, by rw [waits, Wait.reg?], pending⟩

/-- A native resume's loop is the innermost one only where a nested loop runs
its context. -/
theorem Sound.nested_of_resume
    (sound : Sound vm (.resume c old :: acts) chain) :
    (vm.contexts c).vmexec = true := by
  obtain ⟨behind, ⟨front, _, _, nested⟩, _⟩ := sound.orderly.anchored
  exact nested

/-- The running context goes back. -/
theorem Kept.of_back
    (sound : Sound m.vm m.acts chain)
    (awaited : Awaited m.vm w chain)
    (notRoot : m.vm.cur ≠ root)
    (returns : m.vm.running.prev.getD root = target)
    (view : vm'.view = m.vm.view.back left target)
    (len : vm'.len = m.vm.len)
    (pending :
      ∀ d, d ≠ target → d ≠ m.vm.cur → vm'.pending d = m.vm.pending d)
    (held : Held (event.leaving target) (vm'.pending m.vm.cur) left)
    (stays : ∀ chain, Stays vm' m'.vm chain)
    (keeps : ∀ d, d ≠ target → Keeps m.vm m'.vm d)
    (passed : Passed m w m' event)
    (loop : ∀ c old rest, m.acts = .resume c old :: rest →
      (m'.acts = rest ↔ m.vm.cur = c ∧ event.finishes = true)) :
    Kept m w event m' := by
  have different := sound.orderly.prev_ne_self
  have other : target ≠ m.vm.cur := by
    rw [← returns]
    exact getD_root_ne different notRoot
  have entered : m'.vm.cur = target :=
    (stays []).cur.trans (congrArg View.cur view)
  have changed : m'.vm.cur ≠ m.vm.cur := by rwa [entered]
  constructor
  · rw [after, if_neg changed, entered]
    cases linked : m.vm.running.prev with
    | some p =>
        have isTarget : p = target := by rw [← returns, linked]; rfl
        subst isTarget
        obtain ⟨rest, rfl⟩ := sound.orderly.exists_eq_cons
        exact ⟨rest,
          (awaited.back sound.orderly.nodup notRoot linked view len pending
            held).stays (stays rest)⟩
    | none =>
        have isRoot : root = target := by rw [← returns, linked]; rfl
        subst isRoot
        exact ⟨[root],
          (awaited.backRoot notRoot sound.orderly.rootPrev view len pending
            held).stays (stays [root])⟩
  · constructor
    · intro d _ notTarget
      rw [entered] at notTarget
      exact keeps d notTarget
    · intro _
      exact passed
    · intro _ _ _ _ same
      exact absurd same changed
    · intro _ _ _ same
      exact absurd same changed
    · intro c old rest nested
      rw [loop c old rest nested]
      constructor
      · rintro ⟨rfl, finishes⟩
        exact ⟨rfl, changed, finishes⟩
      · rintro ⟨rfl, _, finishes⟩
        exact ⟨rfl, finishes⟩

end Back

section Tasks

variable
  {vm vm' vm'' : Vm}
  {chain : List Nat}

/-- Some contexts that do not run are given up, and nothing else changes in the
table. -/
structure GivesUp (vm vm' : Vm) : Prop where
  cur : vm'.cur = vm.cur
  len : vm'.len = vm.len
  running : vm'.contexts vm.cur = vm.contexts vm.cur
  contexts :
    ∀ c, vm'.contexts c = vm.contexts c ∨
      (vm'.contexts c).status = .terminated ∧
        (vm'.contexts c).prev = (vm.contexts c).prev ∧
          (vm'.contexts c).vmexec = (vm.contexts c).vmexec

theorem GivesUp.of_contexts
    (contexts : vm'.contexts = vm.contexts)
    (cur : vm'.cur = vm.cur)
    (len : vm'.len = vm.len) :
    GivesUp vm vm' :=
  ⟨cur, len, congrFun contexts vm.cur, fun c => .inl (congrFun contexts c)⟩

theorem GivesUp.trans
    (first : GivesUp vm vm')
    (second : GivesUp vm' vm'') :
    GivesUp vm vm'' where
  cur := second.cur.trans first.cur
  len := second.len.trans first.len
  running := by
    rw [← first.running, ← first.cur, second.running]
  contexts := by
    intro c
    rcases second.contexts c with same | ⟨gone, prev, vmexec⟩
    · rw [same]
      exact first.contexts c
    · rcases first.contexts c with same | ⟨_, prev', vmexec'⟩
      · rw [← same]
        exact .inr ⟨gone, prev, vmexec⟩
      · exact .inr ⟨gone, prev.trans prev', vmexec.trans vmexec'⟩

theorem GivesUp.stays
    (gives : GivesUp vm vm')
    (chain : List Nat) :
    Stays vm vm' chain where
  cur := gives.cur
  prev := by
    intro c _
    rcases gives.contexts c with same | ⟨_, prev, _⟩
    · exact congrArg Context.prev same
    · exact prev
  vmexec := by
    intro c _
    rcases gives.contexts c with same | ⟨_, _, vmexec⟩
    · exact congrArg Context.vmexec same
    · exact vmexec
  status := by
    intro c _ _
    rcases gives.contexts c with same | ⟨gone, _, _⟩
    · exact .inr ⟨congrArg Context.status same,
        congrArg Context.pendingReg same⟩
    · exact .inl gone
  fresh := by
    intro c old new
    rw [gives.len] at new
    exact absurd old (Nat.not_le_of_lt new)

theorem GivesUp.keeps
    (gives : GivesUp vm vm')
    (c : Nat) :
    Keeps vm vm' c := by
  rcases gives.contexts c with same | ⟨gone, _, _⟩
  · exact .inl (congrArg Context.stack same)
  · exact .inr gone

/-- The running context keeps its registers in any case. -/
theorem Keeps.trans
    (first : Keeps vm vm' c)
    (second : GivesUp vm' vm'') :
    Keeps vm vm'' c := by
  rcases second.contexts c with same | ⟨gone, _, _⟩
  · rcases first with regs | gone
    · exact .inl ((congrArg Context.stack same).trans regs)
    · exact .inr ((congrArg Context.status same).trans gone)
  · exact .inr gone

theorem givesUp_setContext
    (vm : Vm)
    (change : Context → Context)
    (other : c ≠ vm.cur)
    (status : ∀ context, (change context).status = .terminated)
    (prev : ∀ context, (change context).prev = context.prev)
    (vmexec : ∀ context, (change context).vmexec = context.vmexec) :
    GivesUp vm (vm.setContext c change) where
  cur := rfl
  len := rfl
  running := by simp [Ne.symm other]
  contexts := by
    intro d
    by_cases here : d = c
    · right
      simp [here, status, prev, vmexec]
    · exact .inl (by simp [here])

theorem givesUp_stopTask
    (vm : Vm)
    (t : Nat) :
    GivesUp vm (vm.stopTask t) := by
  unfold Vm.stopTask
  dsimp only
  split
  · exact .of_contexts rfl rfl rfl
  · rename_i other
    have stopped :=
      givesUp_setContext vm
        (fun context =>
          { context with status := .terminated, ci := [], stack := [] })
        other (fun _ => rfl) (fun _ => rfl) fun _ => rfl
    exact ⟨stopped.cur, stopped.len, stopped.running, stopped.contexts⟩

/-- Only the task's own context is touched by the end of its loop. -/
theorem givesUp_settleTask
    (vm : Vm)
    (t : Nat)
    (r : LoopEnd)
    (other : ctx ≠ vm.cur) :
    GivesUp vm (vm.settleTask t ctx r) := by
  have marked : ∀ change, GivesUp vm (vm.setTask t change) :=
    fun _ => .of_contexts rfl rfl rfl
  cases r with
  | value v =>
      unfold Vm.settleTask
      dsimp only
      split
      · exact (marked _).trans (givesUp_stopTask _ t)
      · split
        · exact .of_contexts rfl rfl rfl
        · exact .of_contexts rfl rfl rfl
  | raised exc =>
      refine ((marked fun task => { task with result := exc }).trans ?_).trans
        (givesUp_stopTask _ t)
      exact
        givesUp_setContext _
          (fun context =>
            { context with status := .terminated, ci := [], stack := [] })
          other (fun _ => rfl) (fun _ => rfl) fun _ => rfl
  | broke =>
      refine GivesUp.trans ?_ (givesUp_stopTask _ t)
      exact
        givesUp_setContext vm
          (fun context => { context with status := .terminated })
          other (fun _ => rfl) (fun _ => rfl) fun _ => rfl

theorem givesUp_leaveTask
    (t : Nat)
    (r : LoopEnd)
    (returned : vm.cur = old)
    (running : vm.view.status old = .running)
    (other : ctx ≠ old) :
    GivesUp vm (vm.leaveTask t ctx old r) := by
  have same : ∀ c,
      ((if c = old then { vm.contexts c with status := .running }
        else vm.contexts c) : Context) = vm.contexts c := by
    intro c
    split
    · rename_i here
      have running : (vm.contexts c).status = .running := here ▸ running
      rw [← running]
    · rfl
  unfold Vm.leaveTask
  dsimp only
  rw [if_pos (by exact returned)]
  refine GivesUp.trans ?_
    (givesUp_settleTask _ t r (by rw [← returned] at other; exact other))
  exact .of_contexts (funext same) rfl rfl

/-- A nested loop ends because its context has gone back. -/
theorem Sound.endNested
    (sound : Sound vm (act :: acts) chain)
    (isLoop : act.loop?.isSome)
    (nested : vm.running.vmexec = true)
    (free : vm.view.natives vm.cur = [])
    (notRunning : left ≠ .running)
    (view : vm'.view = vm.view.back left (vm.running.prev.getD root))
    (answer : Option LoopEnd)
    (r : LoopEnd) :
    ∃ p m',
      Machine.endLoop ⟨vm', act :: acts, answer⟩ r = m' ∧
        vm.running.prev = some p ∧
        (act = .resume vm.cur p ∨ ∃ t, act = .task t vm.cur p) ∧
        m'.acts = acts ∧ m'.answer = some r ∧ GivesUp vm' m'.vm ∧
        m'.vm.regs p = vm'.regs p := by
  obtain ⟨p, linked, isResume, _⟩ :=
    sound.orderly.backNested isLoop nested free notRunning
  have linked : vm.running.prev = some p := linked
  rw [linked] at view
  have view : vm'.view = vm.view.back left p := view
  have entered : vm'.cur = p := congrArg View.cur view
  refine ⟨p, _, rfl, linked, isResume, ?_⟩
  rcases isResume with rfl | ⟨t, rfl⟩
  · exact ⟨rfl, rfl, .of_contexts rfl rfl rfl, rfl⟩
  · have other : vm.cur ≠ p := by
      intro same
      exact sound.orderly.prev_ne_self (linked.trans (congrArg some same.symm))
    have gives :=
      givesUp_leaveTask t r entered
        (by rw [view]; exact update_self _ _ _) other
    refine ⟨rfl, rfl, gives, ?_⟩
    have running := gives.running
    rw [entered] at running
    exact congrArg Context.stack running

end Tasks

/-- A value is delivered to the running context, an exception is not. -/
def LoopEnd.deliver (vm : Vm) : LoopEnd → Vm
  | .value v => vm.deliver v
  | .raised _ => vm
  | .broke => vm

section Frames

variable
  {vm vm' : Vm}
  {m m' : Machine}
  {w : Nat → Wait}
  {event : Event}
  {act : Activation}
  {acts : List Activation}
  {chain : List Nat}
  {r : LoopEnd}

theorem deliver_stays
    (vm : Vm)
    (v : Value)
    (chain : List Nat) :
    Stays vm (vm.deliver v) chain := by
  apply (quiet_deliver vm v).stays
  intro d other
  rw [(deliver_slots vm v).2, update_of_ne other]

theorem LoopEnd.deliver_stays
    (vm : Vm)
    (r : LoopEnd)
    (chain : List Nat) :
    Stays vm (r.deliver vm) chain := by
  cases r with
  | value v => exact Fibers.deliver_stays vm v chain
  | raised exc => exact stays_of_contexts rfl rfl rfl
  | broke => exact stays_of_contexts rfl rfl rfl

theorem LoopEnd.deliver_view
    (vm : Vm)
    (r : LoopEnd) :
    (r.deliver vm).view = vm.view := by
  cases r with
  | value v => exact (quiet_deliver vm v).view
  | raised exc => rfl
  | broke => rfl

theorem LoopEnd.deliver_regs
    (vm : Vm)
    (r : LoopEnd)
    (waits : vm.pending vm.cur = some reg) :
    (r.deliver vm).regs =
      update vm.regs vm.cur (r.write reg (vm.regs vm.cur)) := by
  cases r with
  | value v => exact (deliver_slots vm v).1.trans (by rw [waits]; rfl)
  | raised exc => exact (update_eq_self vm.cur vm.regs).symm
  | broke => exact (update_eq_self vm.cur vm.regs).symm

/-- The running context goes back with a value or an exception. -/
theorem Kept.wentBack
    (sound : Sound m.vm m.acts chain)
    (active : m.acts = act :: acts)
    (isLoop : act.loop?.isSome)
    (awaited : Awaited m.vm w chain)
    (notRoot : m.vm.cur ≠ root)
    (free : m.vm.view.natives m.vm.cur = [])
    (notRunning : left ≠ .running)
    (view : vm'.view = m.vm.view.back left (m.vm.running.prev.getD root))
    (len : vm'.len = m.vm.len)
    (pending : ∀ d, d ≠ m.vm.cur → vm'.pending d = m.vm.pending d)
    (held : ∀ target, Held (event.leaving target) (vm'.pending m.vm.cur) left)
    (regs : ∀ d, d ≠ m.vm.cur → vm'.regs d = m.vm.regs d)
    (keeps : Keeps m.vm vm' m.vm.cur)
    (finishes : event.finishes = true)
    (passed : WentBack m w r m' → Passed m w m' event)
    (plain :
      m.vm.running.vmexec = false →
        m'.acts = m.acts ∧ m'.vm = r.deliver vm')
    (nested :
      m.vm.running.vmexec = true →
        ∃ answer, m' = Machine.endLoop ⟨vm', act :: acts, answer⟩ r) :
    Kept m w event m' := by
  have different := sound.orderly.prev_ne_self
  have other := getD_root_ne different notRoot
  have entered : vm'.cur = m.vm.running.prev.getD root :=
    congrArg View.cur view
  cases isNested : m.vm.running.vmexec with
  | false =>
      obtain ⟨sameActs, isDelivered⟩ := plain isNested
      have waits : ∃ reg,
          m.vm.pending (m.vm.running.prev.getD root) = some reg ∧
            ((∃ p, m.vm.running.prev = some p ∧
                w p = .resume reg m.vm.cur) ∨
              m.vm.running.prev = none ∧ (w root).reg? = some reg) := by
        cases linked : m.vm.running.prev with
        | some p =>
            obtain ⟨reg, waits, held⟩ :=
              (awaited.waitsFor sound linked).2 isNested
            exact ⟨reg, held, .inl ⟨p, rfl, waits⟩⟩
        | none =>
            obtain ⟨reg, waits, held⟩ :=
              awaited.rootWaitsFor sound linked notRoot
            exact ⟨reg, held, .inr ⟨rfl, waits⟩⟩
      obtain ⟨reg, waits, origin⟩ := waits
      have written :=
        LoopEnd.deliver_regs vm' r (by rw [entered, pending _ other, waits])
      rw [entered, regs _ other] at written
      apply Kept.of_back sound awaited notRoot rfl view len
      · intro d _ notOld
        exact pending d notOld
      · exact held _
      · rw [isDelivered]
        exact LoopEnd.deliver_stays vm' r
      · intro d notTarget
        rw [isDelivered]
        have same : (r.deliver vm').regs d = vm'.regs d := by
          rw [written, update_of_ne notTarget]
        by_cases old : d = m.vm.cur
        · subst old
          rcases keeps with keeps | gone
          · exact .inl (same.trans keeps)
          · right
            have status := congrFun
              (congrArg View.status (LoopEnd.deliver_view vm' r)) m.vm.cur
            exact status.trans gone
        · exact .inl (same.trans (regs d old))
      · apply passed
        unfold WentBack
        rcases origin with ⟨p, linked, isResume⟩ | ⟨linked, isRoot⟩
        · rw [linked] at written entered ⊢
          dsimp only
          rw [if_neg (by simp [isNested]), isDelivered]
          refine ⟨?_, sameActs, reg, isResume, ?_⟩
          · exact (congrArg View.cur (LoopEnd.deliver_view vm' r)).trans entered
          · rw [written]
            exact update_self _ _ _
        · rw [linked] at written entered ⊢
          dsimp only
          rw [isDelivered]
          refine ⟨?_, sameActs, reg, isRoot, ?_⟩
          · exact (congrArg View.cur (LoopEnd.deliver_view vm' r)).trans entered
          · rw [written]
            exact update_self _ _ _
      · intro c old rest isResume
        constructor
        · intro ended
          rw [sameActs, isResume] at ended
          exact absurd ended (List.cons_ne_self _ _)
        · rintro ⟨rfl, _⟩
          rw [isResume] at sound
          have nested := sound.nested_of_resume
          have plain : (m.vm.contexts m.vm.cur).vmexec = false := isNested
          rw [plain] at nested
          exact absurd nested (by decide)
  | true =>
      obtain ⟨answer, ended⟩ := nested isNested
      rw [active] at sound
      obtain ⟨p, m'', isEnd, linked, isResume, acts', answer', gives, same⟩ :=
        sound.endNested isLoop isNested free notRunning view answer r
      rw [isEnd] at ended
      subst ended
      have waits := (awaited.waitsFor sound linked).1 isNested
      have target : m.vm.running.prev.getD root = p := by
        rw [linked]
        rfl
      rw [target] at entered other
      rw [← active] at sound
      apply Kept.of_back sound awaited notRoot rfl view len
      · intro d _ notOld
        exact pending d notOld
      · exact held _
      · exact gives.stays
      · intro d _
        apply Keeps.trans _ gives
        by_cases old : d = m.vm.cur
        · exact old ▸ keeps
        · exact .inl (regs d old)
      · apply passed
        unfold WentBack
        rw [linked]
        dsimp only
        rw [if_pos isNested]
        refine ⟨gives.cur.trans entered, waits, ?_, answer', ?_⟩
        · rw [same, regs p other]
        · rw [active, acts']
          rcases isResume with rfl | ⟨t, rfl⟩
          · exact .inl rfl
          · exact .inr ⟨t, rfl⟩
      · intro c old rest isLoop'
        rw [active] at isLoop'
        obtain ⟨rfl, rfl⟩ := List.cons.inj isLoop'
        rcases isResume with isResume | ⟨t, isTask⟩
        · rw [Activation.resume.injEq] at isResume
          simp [acts', isResume.1, finishes]
        · simp at isTask

variable
  {below : List CallInfo}
  {popped : CallInfo}
  {lc stopDepth : Nat}

/-- A frame that a loop was started for is that of a call or the host's. -/
theorem Sound.endFrame_starter
    (sound : Sound vm (act :: acts) chain)
    (isLoop : act.loop? = some (lc, stopDepth))
    (frames : vm.running.ci = below ++ [popped])
    (above : below = [] → vm.cur = root)
    (ends :
      popped.cci = .skip ∨
        endsLoop vm.cur lc stopDepth below.length = true) :
    (∃ lc depth base, act = .call lc depth base) ∨ act = .host := by
  have isSome : act.loop?.isSome := by simp [isLoop]
  by_cases empty : below = []
  · have atRoot := above empty
    obtain ⟨rest, rfl⟩ := sound.orderly.exists_eq_cons
    have ends : vm.view.prev vm.view.cur = none :=
      (congrArg vm.view.prev atRoot).trans sound.orderly.rootPrev
    have alone : rest = [] := sound.orderly.links.tail_of_none ends
    subst alone
    cases act with
    | native ctx retReg looks => simp [Activation.loop?] at isSome
    | taskRun => simp [Activation.loop?] at isSome
    | call lc depth base => exact .inl ⟨lc, depth, base, rfl⟩
    | resume c old =>
        obtain ⟨_, ⟨front, split, _⟩, _⟩ := sound.orderly.anchored
        have long := congrArg List.length split
        simp only [List.length_append, List.length_cons,
          List.length_nil] at long
        omega
    | task t c old =>
        obtain ⟨_, ⟨front, split, _⟩, _⟩ := sound.orderly.anchored
        have long := congrArg List.length split
        simp only [List.length_append, List.length_cons,
          List.length_nil] at long
        omega
    | host => exact .inr rfl
  · have native : popped.cci = .skip := by
      by_contra notNative
      have stays := sound.not_endsLoop isLoop frames empty notNative
      rcases ends with isSkip | ends
      · exact notNative isSkip
      · rw [stays] at ends
        exact absurd ends (by decide)
    obtain ⟨isCall, _⟩ := sound.popNative isSome frames empty native
    have positive : below.length ≠ 0 := by simpa using empty
    cases act with
    | native ctx retReg looks => simp [Activation.loop?] at isSome
    | taskRun => simp [Activation.loop?] at isSome
    | call lc depth base => exact .inl ⟨lc, depth, base, rfl⟩
    | resume c old => simp [Activation.loop?, Ne.symm positive] at isCall
    | task t c old => simp [Activation.loop?, Ne.symm positive] at isCall
    | host => exact .inr rfl

theorem popFrame_stays
    (vm : Vm)
    (chain : List Nat) :
    Stays vm vm.popFrame chain := by
  apply setContext_stays <;> intros <;> rfl

theorem popFrame_regs
    (vm : Vm) :
    vm.popFrame.regs = vm.regs :=
  (setContext_regs vm vm.cur _).trans (update_eq_self vm.cur vm.regs)

/-- A frame goes, and registers of its context are written. -/
theorem popWrite_stays
    (vm : Vm)
    (write : List Value → List Value)
    (chain : List Nat) :
    Stays vm
      (vm.popFrame.setContext vm.cur fun c =>
        { c with stack := write c.stack }) chain := by
  apply (popFrame_stays vm chain).trans _ rfl
  apply setContext_stays <;> intros <;> rfl

theorem popWrite_keeps
    (vm : Vm)
    (write : List Value → List Value)
    (other : d ≠ vm.cur) :
    Keeps vm
      (vm.popFrame.setContext vm.cur fun c =>
        { c with stack := write c.stack }) d := by
  left
  rw [setContext_regs, update_of_ne other, popFrame_regs]

/-- A frame goes that is not the last one of a fiber, and the loop may end. -/
theorem Kept.endFrame
    (sound : Sound m.vm (act :: acts) chain)
    (awaited : Awaited m.vm w chain)
    (active : m.acts = act :: acts)
    (isLoop : act.loop? = some (lc, stopDepth))
    (frames : m.vm.running.ci = below ++ [popped])
    (above : below = [] → m.vm.cur = root)
    (ends :
      popped.cci = .skip ∨
        endsLoop m.vm.cur lc stopDepth below.length = true)
    (instruction : ∀ call reg looks, event ≠ .turn (.fiber call reg looks))
    (native : ∀ fib args, event ≠ .code (.resume fib args))
    (answer : Option LoopEnd)
    (r : LoopEnd) :
    Kept m w event
      (Machine.endLoop ⟨m.vm.popFrame, act :: acts, answer⟩ r) := by
  have notResume : ∀ c old rest, m.acts ≠ .resume c old :: rest := by
    intro c old rest isResume
    rw [active] at isResume
    rcases sound.endFrame_starter isLoop frames above ends with
      ⟨_, _, _, isCall⟩ | isHost
    · rw [isCall] at isResume
      simp at isResume
    · rw [isHost] at isResume
      simp at isResume
  rcases sound.endFrame_starter isLoop frames above ends with
    ⟨_, _, base, rfl⟩ | rfl
  · apply Kept.of_stays awaited
    · exact popWrite_stays m.vm (fun stack => stack.take base) chain
    · intro d _ other
      exact popWrite_keeps m.vm (fun stack => stack.take base) other
    · intro c old rest isResume
      exact absurd isResume (notResume c old rest)
    · exact instruction
    · exact native
  · apply Kept.of_stays awaited (popFrame_stays m.vm chain)
    · intro d _ _
      exact .inl (congrFun (popFrame_regs m.vm) d)
    · intro c old rest isResume
      exact absurd isResume (notResume c old rest)
    · exact instruction
    · exact native

section

variable (sound : Sound m.vm m.acts chain) (awaited : Awaited m.vm w chain)
include sound awaited

/-- The last frame of a fiber goes, by a return or an exception. -/
theorem Kept.lastFrame
    (active : m.acts = act :: acts)
    (isLoop : act.loop?.isSome)
    (frames : m.vm.running.ci = [popped])
    (notRoot : m.vm.cur ≠ root)
    (finishes : event.finishes = true)
    (passed : WentBack m w r m' → Passed m w m' event)
    (plain :
      m.vm.running.vmexec = false →
        m' = { m with vm := r.deliver m.vm.popFrame.fiberTerminate.1 })
    (nested :
      m.vm.running.vmexec = true →
        m' =
          Machine.endLoop { m with vm := m.vm.popFrame.fiberTerminate.1 } r) :
    Kept m w event m' := by
  obtain ⟨free, _, moved⟩ := sound.movedLast frames notRoot
  obtain ⟨regs, pending⟩ := fiberTerminate_slots m.vm.popFrame
  have samePending : m.vm.popFrame.pending = m.vm.pending :=
    (setContext_pending m.vm m.vm.cur _).trans
      (update_eq_self m.vm.cur m.vm.pending)
  rw [popFrame_regs] at regs
  rw [samePending] at pending
  apply Kept.wentBack sound active isLoop awaited notRoot free (by decide)
    moved.view moved.steady.len
  · intro d _
    rw [pending]
  · intro target
    trivial
  · intro d other
    rw [regs]
    exact update_of_ne other _ _
  · right
    have gone := congrFun (congrArg View.status moved.view) m.vm.cur
    refine gone.trans ?_
    have other :=
      getD_root_ne sound.orderly.prev_ne_self notRoot
    exact (update_of_ne (Ne.symm other) _ _).trans
      (update_self _ _ _)
  · exact finishes
  · exact passed
  · intro isPlain
    rw [plain isPlain]
    exact ⟨rfl, rfl⟩
  · intro isNested
    refine ⟨m.answer, ?_⟩
    rw [nested isNested, ← active]

/-- A frame returns. -/
theorem Kept.leaveFrame
    (active : m.acts = act :: acts)
    (isLoop : act.loop? = some (lc, stopDepth))
    (step : m.leaveFrame lc stopDepth v isBreak = some m') :
    Kept m w (.turn (.ret v isBreak)) m' := by
  have isSome : act.loop?.isSome := by simp [isLoop]
  have sound' : Sound m.vm (act :: acts) chain := active ▸ sound
  unfold Machine.leaveFrame at step
  split at step
  · simp at step
  · rename_i popped top
    obtain ⟨below, frames⟩ := eq_append_of_getLast? top
    have depth : m.vm.running.ci.length - 1 = below.length := by simp [frames]
    dsimp only at step
    rw [depth] at step
    split at step
    · rename_i last
      simp only [Bool.and_eq_true, decide_eq_true_eq, bne_iff_ne,
        ne_eq] at last
      have empty : below = [] := List.length_eq_zero_iff.mp last.1
      rw [empty, List.nil_append] at frames
      obtain ⟨_, nested, _⟩ := sound.movedLast frames last.2
      rw [nested] at step
      apply Kept.lastFrame sound awaited active isSome frames last.2 rfl id
      · intro plain
        rw [plain] at step
        exact (Option.some.inj step).symm
      · intro isNested
        rw [isNested] at step
        exact (Option.some.inj step).symm
    · rename_i notLast
      have above : below = [] → m.vm.cur = root := by
        intro empty
        by_contra notRoot
        apply notLast
        simp [empty, Vm.popFrame, Vm.setContext, notRoot]
      split at step
      · rename_i ends
        rw [← Option.some.inj step, active]
        exact
          Kept.endFrame sound' awaited active isLoop frames above
            (by simpa [Vm.popFrame, Vm.setContext] using ends) (by simp)
            (by simp) m.answer (.value v)
      · split at step
        · rw [← Option.some.inj step]
          apply Kept.of_sameActs awaited
          · exact popFrame_stays m.vm chain
          · rfl
          · intro d _ _
            exact .inl (congrFun (popFrame_regs m.vm) d)
          · simp
          · simp
        · rw [← Option.some.inj step]
          apply Kept.of_sameActs awaited
          · exact
              popWrite_stays m.vm (fun stack => stack.set popped.base v) chain
          · rfl
          · intro d _ other
            exact
              popWrite_keeps m.vm (fun stack => stack.set popped.base v) other
          · simp
          · simp

/-- A return or a break goes through a frame. -/
theorem Kept.unwindFrame
    (active : m.acts = act :: acts)
    (isLoop : act.loop? = some (lc, stopDepth))
    (step : m.unwindFrame lc stopDepth = some m') :
    Kept m w (.turn .unwind) m' := by
  have sound' : Sound m.vm (act :: acts) chain := active ▸ sound
  unfold Machine.unwindFrame at step
  split at step
  · simp at step
  · rename_i popped top
    obtain ⟨below, frames⟩ := eq_append_of_getLast? top
    have depth : m.vm.running.ci.length - 1 = below.length := by simp [frames]
    dsimp only at step
    rw [depth] at step
    split at step
    · simp at step
    · rename_i positive
      split at step
      · rename_i ends
        rw [← Option.some.inj step, active]
        apply Kept.endFrame sound' awaited active isLoop frames
        · intro empty
          simp [empty] at positive
        · simpa [Vm.popFrame, Vm.setContext] using ends
        · simp
        · simp
      · rw [← Option.some.inj step]
        apply Kept.of_sameActs awaited
        · exact popFrame_stays m.vm chain
        · rfl
        · intro d _ _
          exact .inl (congrFun (popFrame_regs m.vm) d)
        · simp
        · simp

/-- An exception goes through a frame. -/
theorem Kept.raiseFrame
    (active : m.acts = act :: acts)
    (isLoop : act.loop? = some (lc, stopDepth))
    (step : m.raiseFrame lc stopDepth exc = some m') :
    Kept m w (.turn (.raise exc)) m' := by
  have isSome : act.loop?.isSome := by simp [isLoop]
  have sound' : Sound m.vm (act :: acts) chain := active ▸ sound
  unfold Machine.raiseFrame at step
  split at step
  · simp at step
  · rename_i notEmpty
    obtain ⟨below, frames⟩ :=
      eq_append_of_getLast? (List.getLast?_eq_some_getLast notEmpty)
    have depth : m.vm.running.ci.length - 1 = below.length :=
      (congrArg (fun ci => ci.length - 1) frames).trans (by simp)
    dsimp only at step
    rw [depth] at step
    split at step
    · rename_i last
      simp only [Bool.and_eq_true, decide_eq_true_eq, bne_iff_ne,
        ne_eq] at last
      have empty : below = [] := List.length_eq_zero_iff.mp last.1
      rw [empty, List.nil_append] at frames
      obtain ⟨_, nested, _⟩ := sound.movedLast frames last.2
      rw [nested] at step
      apply Kept.lastFrame sound awaited active isSome frames last.2 rfl id
      · intro plain
        rw [plain] at step
        exact (Option.some.inj step).symm
      · intro isNested
        rw [isNested] at step
        exact (Option.some.inj step).symm
    · rename_i notLast
      have above : below = [] → m.vm.cur = root := by
        intro empty
        by_contra notRoot
        apply notLast
        simp [empty, Vm.popFrame, Vm.setContext, notRoot]
      split at step
      · rename_i ends
        rw [← Option.some.inj step, active]
        apply Kept.endFrame sound' awaited active isLoop frames above
        · right
          simpa [Vm.popFrame, Vm.setContext] using ends
        · simp
        · simp
      · rw [← Option.some.inj step]
        apply Kept.of_sameActs awaited
        · exact popFrame_stays m.vm chain
        · rfl
        · intro d _ _
          exact .inl (congrFun (popFrame_regs m.vm) d)
        · simp
        · simp

end

end Frames

end SabiRuby.Fibers
