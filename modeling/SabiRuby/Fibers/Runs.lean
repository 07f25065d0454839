import SabiRuby.Fibers.Waiting

/-!
# Runs of fibers and tasks

The steps of the machine put together, and what holds in every state of a run.
-/

namespace SabiRuby.Fibers

open Execution (FiberState Cci root)
open Library (LinkChain)

/-- The states that a run reaches by allowed steps, from a VM that was just
made. -/
inductive Reached (allowed : Machine → Event → Prop) : Machine → Prop
  | start : Reached allowed Machine.initial
  | step (m m' : Machine) (event : Event) :
      Reached allowed m → allowed m event → m.step event = some m' →
        Reached allowed m'

section Steps

variable
  {m m' : Machine}
  {act : Activation}
  {acts : List Activation}
  {chain : List Nat}

/-- Every turn of the innermost loop keeps the protocol. -/
theorem Sound.turn
    (sound : Sound m.vm m.acts chain)
    (active : m.acts = act :: acts)
    (isLoop : act.loop? = some (lc, stopDepth))
    (still : m.vm.switches = [])
    (admissible : Admissible m (.turn t))
    (step : m.turn lc stopDepth t = some m') :
    Good m.vm chain m' := by
  have sound' : Sound m.vm (act :: acts) chain := active ▸ sound
  have isSome : act.loop?.isSome := by simp [isLoop]
  cases t with
  | compute stack =>
      rw [← Option.some.inj step]
      apply sound.goodQuiet _ still
      apply quiet_setContext <;> intros <;> rfl
  | push base keepSelf stack =>
      simp only [Machine.turn] at step
      split at step
      · simp at step
      · rw [← Option.some.inj step]
        apply sound.goodQuiet _ still
        apply quiet_setContext
        · intro context; rfl
        · intro context; rfl
        · intro context; rfl
        · intro context; rfl
        · rw [skips_append]
          cases keepSelf <;> simp
  | send retReg looks =>
      simp only [Machine.turn] at step
      split at step
      · simp at step
      · rw [← Option.some.inj step]
        exact Sound.good (sound.native retReg looks) still
  | fiber call retReg looks =>
      obtain ⟨vm, acts', answer⟩ := m
      subst active
      simp only [Machine.turn] at step
      split at step
      · simp at step
      · rename_i allowed
        have known : call.known vm = true := by
          simp only [Bool.or_eq_true, decide_eq_true_eq, not_or] at allowed
          simpa using allowed.2
        have exits :
            (∃ args, call = .yield args) →
              looks = true ∨ vm.running.vmexec = false := by
          rintro ⟨args, rfl⟩
          exact admissible
        obtain ⟨vm', r, performed, refused, answered⟩ :=
          sound'.fiber isSome still known exits answer
        have performed :
            call.perform
              { vm with directSend := true, nativeRetReg := retReg } =
                some (vm', r) := performed
        rw [performed] at step
        cases r with
        | error text =>
            rw [← Option.some.inj step]
            exact refused text rfl
        | ok v =>
            rw [← Option.some.inj step]
            exact answered v rfl
  | ret v isBreak => exact sound'.leaveFrame active isLoop still step
  | unwind => exact sound'.unwindFrame active isLoop still step
  | raise exc => exact sound'.raiseFrame active isLoop still step
  | preempt =>
      obtain ⟨vm, acts', answer⟩ := m
      subst active
      simp only [Machine.turn] at step
      split at step
      · rename_i switchable
        rw [← Option.some.inj step]
        simp only [Vm.switchable, Bool.and_eq_true, bne_iff_ne, ne_eq,
          Bool.not_eq_true', fiberCheckNative_eq, Bool.not_eq_false',
          List.isEmpty_iff] at switchable
        have moved :=
          moved_suspend sound.orderly.prev_ne_self switchable.1.1.2
        exact
          (sound'.back isSome switchable.1.1.2 switchable.1.2 (by decide)
            moved still).2 switchable.2 answer (.value .nil)
      · simp at step
  | pause =>
      obtain ⟨vm, acts', answer⟩ := m
      subst active
      simp only [Machine.turn] at step
      split at step
      · rename_i rest isHost
        obtain ⟨rfl, rfl⟩ := List.cons.inj isHost
        rw [← Option.some.inj step]
        obtain ⟨plain, alone⟩ := sound.orderly.anchored
        subst alone
        have ended : Sound vm [] chain := by
          apply sound.withActs
          · exact sound.orderly.withActs plain fun _ => rfl
          · intro t ctx old member
            simp at member
        exact ended.goodQuiet (Quiet.refl vm) still (some (.value .nil))
      · simp at step

/-- Every act of the Rust code in control keeps the protocol. -/
theorem Sound.code
    (sound : Sound m.vm m.acts chain)
    (still : m.vm.switches = [])
    (admissible : Admissible m (.code c))
    (step : m.code c = some m') :
    Good m.vm chain m' := by
  cases c with
  | answer v =>
      simp only [Machine.code] at step
      split at step
      · rename_i ctx retReg looks rest native
        rw [native] at sound
        obtain ⟨here, sound'⟩ := sound.unnative
        rw [← Option.some.inj step]
        exact sound'.sentHere here still retReg looks m.answer v
      · simp at step
  | fail =>
      simp only [Machine.code] at step
      split at step
      · rename_i ctx retReg looks rest native
        rw [native] at sound
        rw [← Option.some.inj step]
        exact sound.unnative.2.goodQuiet (Quiet.refl m.vm) still m.answer
      · simp at step
  | call regs => exact sound.call still step
  | resume fib args =>
      simp only [Machine.code] at step
      split at step
      · rename_i known
        rw [← Option.some.inj step]
        exact sound.nativeResume still known
      · simp at step
  | fiberNew block =>
      rw [← Option.some.inj step]
      exact Sound.good (sound.pushContext block) still
  | taskNew block =>
      rw [← Option.some.inj step]
      exact Sound.good (sound.createTask block) still
  | taskCurrent =>
      rw [← Option.some.inj step]
      obtain ⟨sound', switches⟩ := sound.mainTask
      exact Sound.good sound' (switches.trans still)
  | taskRun =>
      rw [← Option.some.inj step]
      unfold Machine.taskRun
      split
      · exact Sound.good sound still
      · have sound' : Sound m.vm (.taskRun :: m.acts) chain := by
          apply sound.withActs
          · exact sound.orderly.withActs sound.orderly.anchored fun _ => rfl
          · intro t ctx old member
            simpa using member
        apply sound'.goodQuiet _ still
        apply quiet_task
        · rfl
        · intro t; rfl
        · intro t member
          exact .inl member
  | schedulerStep =>
      rw [← Option.some.inj step]
      exact sound.schedulerStep still admissible
  | endRun =>
      simp only [Machine.code] at step
      split at step
      · rename_i rest running _
        have sound' : Sound m.vm rest chain := by
          rw [running] at sound
          apply sound.withActs
          · exact sound.orderly.withActs sound.orderly.anchored fun _ => rfl
          · intro t ctx old member
            exact List.mem_cons_of_mem _ member
        rw [← Option.some.inj step]
        apply sound'.goodQuiet _ still
        apply quiet_task
        · rfl
        · intro t; rfl
        · intro t member
          exact .inl member
      · simp at step
  | start regs =>
      simp only [Machine.code] at step
      split at step
      · rename_i idle
        simp only [Bool.and_eq_true, decide_eq_true_eq] at idle
        rw [← Option.some.inj step]
        apply sound.goodQuiet _ still
        apply quiet_setContext
        · intro context; rfl
        · intro context; rfl
        · intro context; rfl
        · intro context; rfl
        · have empty : (m.vm.contexts m.vm.cur).ci = [] := idle.2
          rw [empty, List.nil_append, skips_singleton, skips_nil]
      · simp at step
  | step =>
      simp only [Machine.code] at step
      split at step
      · rename_i idle
        simp only [Bool.and_eq_true, decide_eq_true_eq] at idle
        rw [← Option.some.inj step]
        rw [idle.1] at sound
        have sound' : Sound m.vm [.host] chain := by
          apply sound.withActs
          · exact sound.orderly.withActs ⟨sound.orderly.anchored, rfl⟩
              fun _ => rfl
          · intro t ctx old member
            simp at member
        exact Sound.good sound' still
      · simp at step

/-- Every admissible step keeps the protocol. -/
theorem Sound.step
    (sound : Sound m.vm m.acts chain)
    (admissible : Admissible m event)
    (step : m.step event = some m') :
    Good m.vm chain m' := by
  have began : Sound m.begun.vm m.begun.acts chain :=
    ⟨sound.orderly, sound.bounded,
      ⟨sound.whole.rootBound, sound.whole.blocks, sound.whole.tasks,
        sound.whole.ready⟩, sound.owners, sound.loopExit, sound.sending⟩
  unfold Machine.step at step
  cases event with
  | turn t =>
      dsimp only at step
      split at step
      · rename_i lc stopDepth inLoop
        obtain ⟨act, isTop, isLoop⟩ := Option.bind_eq_some_iff.mp inLoop
        obtain ⟨rest, active⟩ := List.head?_eq_some_iff.mp isTop
        have good := Sound.turn began active isLoop rfl admissible step
        exact good
      · simp at step
  | code c =>
      dsimp only at step
      split at step
      · simp at step
      · have good := Sound.code began rfl admissible step
        exact good
  | schedule status ready switching =>
      dsimp only at step
      split at step
      · rename_i known
        rw [← Option.some.inj step]
        apply began.goodQuiet _ rfl
        apply quiet_task
        · rfl
        · intro t; rfl
        · intro t member
          exact .inr (by simpa using List.all_eq_true.mp known t member)
      · simp at step

theorem sound_initial :
    Sound Machine.initial.vm Machine.initial.acts [root] where
  orderly :=
    { links := LinkChain.last root rfl
      nodup := by simp
      waiting := by
        intro c member different
        exact absurd (List.mem_singleton.mp member) different
      running := .inr ⟨rfl, rfl⟩
      only := by
        intro c different
        have different : c ≠ root := different
        simp [Machine.initial, Vm.view, Context.new, different]
      rootPrev := rfl
      rootStatus := fun different => absurd rfl different
      nested := by
        intro c nested
        simp [Machine.initial, Vm.view, Context.new] at nested
      anchored := by
        intro c _
        rfl
      natives := fun _ => rfl }
  bounded := by
    intro c member
    rw [List.mem_singleton.mp member]
    decide
  whole :=
    { rootBound := by decide
      blocks := by
        intro c notRoot created
        simp [Machine.initial, Context.new, notRoot] at created
      tasks := by
        intro t known
        exact absurd known (Nat.not_lt_zero t)
      ready := by
        intro t member
        simp [Machine.initial] at member }
  owners := by
    intro t ctx old member
    simp [Machine.initial] at member
  loopExit := rfl
  sending := rfl

/-- A run of admissible steps keeps the protocol. -/
theorem Reached.sound
    (reached : Reached Admissible m) :
    ∃ chain, Sound m.vm m.acts chain := by
  induction reached with
  | start => exact ⟨[root], sound_initial⟩
  | step m m' event _ admissible step hypothesis =>
      obtain ⟨chain, sound⟩ := hypothesis
      obtain ⟨chain', sound', _⟩ := sound.step admissible step
      exact ⟨chain', sound'⟩

end Steps

/-- Over every admissible run the links from the running context form a finite
chain without repetition, all the others on it wait, the running context is the
only one in that state (the root, until it is left for the first time, is
created), and a switch enters a context off the chain or the one that waits for
the running one. -/
theorem waiting_contexts_never_run
    {m : Machine}
    (reached : Reached Admissible m) :
    ∃ chain,
      LinkChain (fun c => (m.vm.contexts c).prev) m.vm.cur chain ∧
      chain.Nodup ∧
      (∀ c ∈ chain, c ≠ m.vm.cur → (m.vm.contexts c).status = .resumed) ∧
      ((m.vm.contexts m.vm.cur).status = .running ∨
        m.vm.cur = root ∧ (m.vm.contexts root).status = .created) ∧
      (∀ c, c ≠ m.vm.cur → (m.vm.contexts c).status ≠ .running) ∧
      ∀ event m', Admissible m event → m.step event = some m' →
        ∀ s ∈ m'.vm.switches,
          s.1 = m.vm.cur ∧
            (s.2 ∉ chain ∨ (m.vm.contexts m.vm.cur).prev = some s.2) := by
  obtain ⟨chain, sound⟩ := reached.sound
  refine ⟨chain, sound.orderly.links, sound.orderly.nodup,
    sound.orderly.waiting, sound.orderly.running, sound.orderly.only, ?_⟩
  intro event m' admissible step
  obtain ⟨_, _, legal⟩ := sound.step admissible step
  exact legal

/-- A block that needs four registers. -/
def smallBlock : Block :=
  { nregs := 4, self := .nil }

/-- The root's program makes a fiber and resumes it. -/
def resumingRun : List Event :=
  [.code (.start [.nil, .nil]), .code .step, .turn (.send 1 true),
    .code (.fiberNew smallBlock), .code (.answer .nil),
    .turn (.fiber (.resume (some 1) []) 1 true)]

/-- The events one after the other; `none` when one of them cannot happen. -/
def Machine.run (m : Machine) : List Event → Option Machine
  | [] => some m
  | event :: events =>
      match m.step event with
      | some m' => m'.run events
      | none => none

theorem Reached.run
    (events : List Event)
    (reached : Reached allowed m)
    (always : ∀ m, ∀ event ∈ events, allowed m event)
    (ran : m.run events = some m') :
    Reached allowed m' := by
  induction events generalizing m with
  | nil => exact Option.some.inj ran ▸ reached
  | cons event events hypothesis =>
      rw [Machine.run] at ran
      split at ran
      · rename_i next step
        apply hypothesis
        · exact .step m next event reached (always m event (by simp)) step
        · intro m e member
          exact always m e (List.mem_cons_of_mem event member)
        · exact ran
      · simp at ran

theorem resumed_fiber_has_chain :
    ∃ m, Machine.initial.run resumingRun = some m ∧ m.vm.cur = 1 ∧
      ∃ chain,
        LinkChain (fun c => (m.vm.contexts c).prev) m.vm.cur chain ∧
        chain.Nodup ∧
        ∀ c ∈ chain, c ≠ m.vm.cur → (m.vm.contexts c).status = .resumed := by
  refine ⟨_, rfl, rfl, ?_⟩
  obtain ⟨chain, links, nodup, waiting, _⟩ :=
    waiting_contexts_never_run (Reached.run resumingRun .start
      (by
        intro m event member
        simp only [resumingRun, List.mem_cons, List.not_mem_nil, or_false]
          at member
        rcases member with rfl | rfl | rfl | rfl | rfl | rfl <;> trivial)
      rfl)
  exact ⟨chain, links, nodup, waiting⟩

/-- A task is run by a turn of the scheduler, makes a fiber and resumes it, and
the fiber calls `Task.run`. -/
def reenteringRun : List Event :=
  [.code (.start [.nil, .nil]), .code .step, .turn (.send 1 true),
    .code (.taskNew smallBlock), .code .schedulerStep,
    .turn (.send 1 true), .code (.fiberNew smallBlock), .code (.answer .nil),
    .turn (.fiber (.resume (some 2) []) 1 true),
    .turn (.send 1 true), .code .taskRun, .code .schedulerStep]

/-- A task yields in an instruction that does not look at `loop_exit`, so the
root goes on in the loop of the task, and the next instruction that looks ends
that loop in a fiber the root resumed there. -/
def lostExitRun : List Event :=
  [.code (.start [.nil, .nil]), .code .step, .turn (.send 1 true),
    .code (.taskNew smallBlock), .code (.fiberNew smallBlock),
    .code .schedulerStep, .turn (.fiber (.yield []) 1 false),
    .turn (.fiber (.resume (some 2) []) 1 false), .turn (.send 1 true),
    .code (.answer .nil)]

/-- The task that stands for the root is put in the queue, and a fiber that the
root has handed over to calls `Task.run`. -/
def scheduledRootRun : List Event :=
  [.code (.start [.nil, .nil]), .code .step, .turn (.send 1 true),
    .code (.fiberNew smallBlock), .code .taskCurrent, .code (.answer .nil),
    .turn (.fiber (.transfer (some 1) []) 1 true), .turn (.send 1 true),
    .schedule (fun _ => .ready) [0] false, .code .taskRun,
    .code .schedulerStep, .turn (.ret .nil false)]

/-- Before its first switch no context is running.  A fiber inside a task that
calls `Task.run` has its own task entered, which waits for it: the links from
the running context never end.  The two other runs end with two running
contexts. -/
theorem task_reentered_from_its_fiber :
    (∀ c, (Machine.initial.vm.contexts c).status ≠ .running) ∧
      (∃ m, Reached (fun _ _ => True) m ∧
        ∀ chain,
          ¬ LinkChain (fun c => (m.vm.contexts c).prev) m.vm.cur chain) ∧
      (∃ m, Reached (fun _ _ => True) m ∧ m.vm.cur = root ∧
        (m.vm.contexts root).status = .running ∧
        (m.vm.contexts 2).status = .running) ∧
      ∃ m, Reached (fun _ _ => True) m ∧ m.vm.cur = 1 ∧
        (m.vm.contexts 1).status = .running ∧
        (m.vm.contexts root).status = .running := by
  refine ⟨?_, ?_, ?_, ?_⟩
  · intro c
    by_cases isRoot : c = root <;>
      simp [Machine.initial, Context.new, isRoot]
  · obtain ⟨m, ran, forth, back⟩ :
        ∃ m, Machine.initial.run reenteringRun = some m ∧
          (m.vm.contexts m.vm.cur).prev = some 2 ∧
            (m.vm.contexts 2).prev = some m.vm.cur :=
      ⟨_, rfl, rfl, rfl⟩
    refine ⟨m, Reached.run reenteringRun .start (fun _ _ _ => trivial) ran, ?_⟩
    intro chain
    exact LinkChain.not_of_cycle forth back
  · exact ⟨_, Reached.run lostExitRun .start (fun _ _ _ => trivial) rfl,
      rfl, rfl, rfl⟩
  · exact ⟨_, Reached.run scheduledRootRun .start (fun _ _ _ => trivial) rfl,
      rfl, rfl, rfl⟩

end SabiRuby.Fibers
