import SabiRuby.Fibers.Entries

/-!
# Fiber values arrive exactly once

Every step of a careful run delivers what it has to.
-/

namespace SabiRuby.Fibers

open Execution (FiberState Cci root)
open Function (update)
open Library (LinkChain)

/-- The states that a run reaches by allowed steps, with the record of how the
contexts were left. -/
inductive Traced
    (allowed : Machine → (Nat → Wait) → Event → Prop) :
    Machine → (Nat → Wait) → Prop
  | start : Traced allowed Machine.initial fun _ => .nothing
  | step (m m' : Machine) (w : Nat → Wait) (event : Event) :
      Traced allowed m w → allowed m w event → m.step event = some m' →
        Traced allowed m' (after w m event m')

section Steps

variable
  {m m' : Machine}
  {w : Nat → Wait}
  {act : Activation}
  {acts : List Activation}
  {chain : List Nat}

/-- A frame is pushed on the running context. -/
theorem Kept.of_push
    (awaited : Awaited m.vm w chain)
    (frame : CallInfo)
    (stack : List Value)
    (pushed : m'.vm = m.vm.pushFrame frame stack)
    (loop : ∀ c old rest, m.acts = .resume c old :: rest → m'.acts ≠ rest)
    (instruction : ∀ call reg looks, event ≠ .turn (.fiber call reg looks))
    (native : ∀ fib args, event ≠ .code (.resume fib args)) :
    Kept m w event m' := by
  apply Kept.of_write awaited
    (fun c => { c with ci := c.ci ++ [frame], stack := stack })
  · exact pushed
  · intro context; rfl
  · intro context; rfl
  · intro context; rfl
  · intro context; rfl
  · exact loop
  · exact instruction
  · exact native

theorem begun_fiberResult
    (m : Machine)
    (args : List Value) :
    (m.begun.vm.fiberResult args).2 = (m.vm.fiberResult args).2 := by
  apply fiberResult_value
  rfl

theorem begun_layBlock
    (m : Machine)
    (block : Block)
    (args : List Value) :
    (m.begun.vm.layBlock block args).2 = (m.vm.layBlock block args).2 := by
  apply layBlock_value
  rfl

theorem Passed.of_begun
    (passed : Passed m.begun w m' event) :
    Passed m w m' event := by
  cases event with
  | turn t =>
      cases t with
      | fiber call retReg looks =>
          cases call <;>
            simp only [Passed, Entered, begun_fiberResult, begun_layBlock]
              at passed ⊢ <;>
            exact passed
      | _ => exact passed
  | code c =>
      cases c with
      | resume fib args =>
          simp only [Passed, Entered, begun_fiberResult, begun_layBlock]
            at passed ⊢
          exact passed
      | schedulerStep =>
          simp only [Passed, begun_layBlock] at passed ⊢
          exact passed
      | _ => exact passed
  | schedule status ready switching => exact passed

/-- A step begins with nothing switched, which its delivery does not see. -/
theorem Kept.of_begun
    (kept : Kept m.begun w event m') :
    Kept m w event m' where
  awaited := kept.awaited
  delivered :=
    { kept := kept.delivered.kept
      passed := fun changed => (kept.delivered.passed changed).of_begun
      instruction := by
        intro call reg looks isCall here
        have done := kept.delivered.instruction call reg looks isCall here
        simp only [begun_fiberResult] at done
        exact done
      native := kept.delivered.native
      loop := kept.delivered.loop }

/-- Every turn of the innermost loop delivers. -/
theorem Kept.turn
    (sound : Sound m.vm m.acts chain)
    (awaited : Awaited m.vm w chain)
    (active : m.acts = act :: acts)
    (isLoop : act.loop? = some (lc, stopDepth))
    (careful : Careful m w (.turn t))
    (step : m.turn lc stopDepth t = some m') :
    Kept m w (.turn t) m' := by
  have isSome : act.loop?.isSome := by simp [isLoop]
  cases t with
  | compute stack =>
      rw [← Option.some.inj step]
      apply Kept.of_write awaited (fun c => { c with stack := stack }) rfl
      · intro context; rfl
      · intro context; rfl
      · intro context; rfl
      · intro context; rfl
      · exact acts_ne_rest (.inl rfl)
      · simp
      · simp
  | push base keepSelf stack =>
      simp only [Machine.turn] at step
      split at step
      · simp at step
      · rw [← Option.some.inj step]
        apply Kept.of_push awaited
        · exact rfl
        · exact acts_ne_rest (.inl rfl)
        · simp
        · simp
  | send retReg looks =>
      simp only [Machine.turn] at step
      split at step
      · simp at step
      · rw [← Option.some.inj step]
        apply Kept.of_contexts awaited
        · rfl
        · rfl
        · rfl
        · exact acts_ne_rest (.inr ⟨_, rfl⟩)
        · simp
        · simp
  | fiber call retReg looks =>
      cases call with
      | resume fib args => exact Kept.resume sound awaited careful step
      | yield args =>
          exact Kept.yield sound awaited active isSome careful step
      | transfer fib args => exact Kept.transfer sound awaited careful step
  | ret v isBreak => exact Kept.leaveFrame sound awaited active isLoop step
  | unwind => exact Kept.unwindFrame sound awaited active isLoop step
  | raise exc => exact Kept.raiseFrame sound awaited active isLoop step
  | preempt =>
      simp only [Machine.turn] at step
      split at step
      · rename_i switchable
        rw [← Option.some.inj step]
        exact Kept.preempt sound awaited active isSome careful switchable
      · simp at step
  | pause =>
      obtain ⟨vm, acts', answer⟩ := m
      subst active
      simp only [Machine.turn] at step
      split at step
      · rename_i rest isHost
        obtain ⟨rfl, rfl⟩ := List.cons.inj isHost
        rw [← Option.some.inj step]
        apply Kept.of_contexts awaited
        · rfl
        · rfl
        · rfl
        · intro c old rest isResume
          simp at isResume
        · simp
        · simp
      · simp at step

/-- Every act of the Rust code in control delivers. -/
theorem Kept.code
    (sound : Sound m.vm m.acts chain)
    (awaited : Awaited m.vm w chain)
    (outOfLoop : ∀ c old rest, m.acts ≠ .resume c old :: rest)
    (careful : Careful m w (.code c))
    (step : m.code c = some m') :
    Kept m w (.code c) m' := by
  have loop : ∀ c old rest, m.acts = .resume c old :: rest → m'.acts ≠ rest :=
    fun c old rest isResume => absurd isResume (outOfLoop c old rest)
  cases c with
  | answer v =>
      obtain ⟨vm, acts', answer⟩ := m
      simp only [Machine.code] at step
      split at step
      · rename_i ctx retReg looks rest
        have isEnd :=
          (Option.some.inj step).symm.trans
            (sent_here sound.unnative.1 sound.loopExit)
        apply Kept.of_write awaited
          (fun c => { c with stack := c.stack.set retReg v })
        · rw [isEnd, ← sound.unnative.1]
        · intro context; rfl
        · intro context; rfl
        · intro context; rfl
        · intro context; rfl
        · exact loop
        · simp
        · simp
      · simp at step
  | fail | endRun =>
      simp only [Machine.code] at step
      split at step
      · rw [← Option.some.inj step] at loop ⊢
        exact Kept.of_contexts awaited rfl rfl rfl loop (by simp) (by simp)
      · simp at step
  | call regs =>
      simp only [Machine.code, Machine.call] at step
      split at step
      · simp at step
      · rw [← Option.some.inj step] at loop ⊢
        apply Kept.of_push awaited
        · exact rfl
        · exact loop
        · simp
        · simp
  | resume fib args =>
      simp only [Machine.code] at step
      split at step
      · rename_i known
        rw [← Option.some.inj step]
        exact Kept.nativeResume sound awaited known careful
      · simp at step
  | fiberNew block | taskNew block =>
      rw [← Option.some.inj step] at loop ⊢
      apply Kept.of_stays awaited _ _ loop (by simp) (by simp)
      · exact pushContext_stays sound.bounded rfl rfl rfl
      · intro d bound _
        exact pushContext_keeps rfl bound
  | taskCurrent =>
      rw [← Option.some.inj step] at loop ⊢
      have same :
          m.vm.mainTask.contexts = m.vm.contexts ∧
            m.vm.mainTask.cur = m.vm.cur ∧ m.vm.mainTask.len = m.vm.len := by
        unfold Vm.mainTask
        split
        · exact ⟨rfl, rfl, rfl⟩
        · exact ⟨rfl, rfl, rfl⟩
      exact
        Kept.of_contexts awaited same.1 same.2.1 same.2.2 loop (by simp)
          (by simp)
  | taskRun =>
      rw [← Option.some.inj step] at loop ⊢
      have same :
          m.taskRun.vm.contexts = m.vm.contexts ∧
            m.taskRun.vm.cur = m.vm.cur ∧ m.taskRun.vm.len = m.vm.len := by
        unfold Machine.taskRun
        split
        · exact ⟨rfl, rfl, rfl⟩
        · exact ⟨rfl, rfl, rfl⟩
      exact
        Kept.of_contexts awaited same.1 same.2.1 same.2.2 loop (by simp)
          (by simp)
  | schedulerStep =>
      rw [← Option.some.inj step]
      exact Kept.schedulerStep sound awaited careful
  | start regs =>
      simp only [Machine.code] at step
      split at step
      · rw [← Option.some.inj step] at loop ⊢
        apply Kept.of_push awaited
        · exact rfl
        · exact loop
        · simp
        · simp
      · simp at step
  | step =>
      simp only [Machine.code] at step
      split at step
      · rw [← Option.some.inj step] at loop ⊢
        exact Kept.of_contexts awaited rfl rfl rfl loop (by simp) (by simp)
      · simp at step

/-- Every careful step delivers. -/
theorem Kept.step
    (sound : Sound m.vm m.acts chain)
    (awaited : Awaited m.vm w chain)
    (careful : Careful m w event)
    (step : m.step event = some m') :
    Kept m w event m' := by
  have began : Sound m.begun.vm m.begun.acts chain :=
    ⟨sound.orderly, sound.bounded,
      ⟨sound.whole.rootBound, sound.whole.blocks, sound.whole.tasks,
        sound.whole.ready⟩, sound.owners, sound.loopExit, sound.sending⟩
  have awaited' : Awaited m.begun.vm w chain :=
    ⟨awaited.links, awaited.held, awaited.answers, awaited.rootWaits⟩
  unfold Machine.step at step
  cases event with
  | turn t =>
      dsimp only at step
      split at step
      · rename_i lc stopDepth inLoop
        obtain ⟨act, isTop, isLoop⟩ := Option.bind_eq_some_iff.mp inLoop
        obtain ⟨rest, active⟩ := List.head?_eq_some_iff.mp isTop
        have kept := Kept.turn began awaited' active isLoop careful step
        exact kept.of_begun
      · simp at step
  | code c =>
      dsimp only at step
      split at step
      · simp at step
      · rename_i notLoop
        have outOfLoop : ∀ c old rest, m.begun.acts ≠ .resume c old :: rest := by
          intro c old rest isResume
          simp [isResume, Activation.loop?] at notLoop
        have kept := Kept.code began awaited' outOfLoop careful step
        exact kept.of_begun
  | schedule status ready switching =>
      dsimp only at step
      split at step
      · rw [← Option.some.inj step]
        apply Kept.of_contexts awaited
        · rfl
        · rfl
        · rfl
        · exact acts_ne_rest (.inl rfl)
        · simp
        · simp
      · simp at step

theorem awaited_initial :
    Awaited Machine.initial.vm (fun _ => .nothing) [root] where
  links := LinkChain.last root rfl
  held := by
    intro c bound other
    have bound : c < 1 := bound
    have other : c ≠ root := other
    exact absurd (Nat.lt_one_iff.mp bound) other
  answers := trivial
  rootWaits := fun off => absurd (List.mem_singleton.mpr rfl) off

/-- A careful run keeps the protocol, and the record agrees with the VM. -/
theorem Traced.awaited
    (traced : Traced Careful m w) :
    ∃ chain, Sound m.vm m.acts chain ∧ Awaited m.vm w chain := by
  induction traced with
  | start => exact ⟨[root], sound_initial, awaited_initial⟩
  | step m m' w event _ careful step hypothesis =>
      obtain ⟨chain, sound, awaited⟩ := hypothesis
      obtain ⟨chain', sound', _⟩ := sound.step careful.1 step
      obtain ⟨chain'', awaited'⟩ :=
        (Kept.step sound awaited careful step).awaited
      have same : chain'' = chain' :=
        awaited'.links.unique sound'.orderly.links
      exact ⟨chain', sound', same ▸ awaited'⟩

end Steps

/-- Every step of a careful run delivers: the value of a yield and of an end
comes to the resume that started the stretch, the arguments of a resume to the
yield that waits or to the block, no other register changes, and the loop of a
native resume ends exactly when its own context yields or is over. -/
theorem fiber_values_arrive_once
    {m m' : Machine}
    {w : Nat → Wait}
    {event : Event}
    (traced : Traced Careful m w)
    (careful : Careful m w event)
    (step : m.step event = some m') :
    Delivered m w event m' := by
  obtain ⟨_, sound, awaited⟩ := traced.awaited
  exact (Kept.step sound awaited careful step).delivered

/-- The events one after the other, with the record. -/
def Machine.trace
    (m : Machine)
    (w : Nat → Wait) : List Event → Option (Machine × (Nat → Wait))
  | [] => some (m, w)
  | event :: events =>
      match m.step event with
      | some m' => m'.trace (after w m event m') events
      | none => none

theorem Traced.trace
    (events : List Event)
    (traced : Traced (fun _ _ _ => True) m w)
    (ran : m.trace w events = some (m', w')) :
    Traced (fun _ _ _ => True) m' w' := by
  induction events generalizing m w with
  | nil =>
      obtain ⟨rfl, rfl⟩ := Prod.mk.inj (Option.some.inj ran)
      exact traced
  | cons event events hypothesis =>
      rw [Machine.trace] at ran
      split at ran
      · rename_i next step
        exact hypothesis (.step m next w event traced trivial step) ran
      · simp at ran

/-- The root's program makes a fiber and resumes it, and the fiber yields. -/
theorem yielded_value_arrives :
    ∃ m w m',
      m.step (.turn (.fiber (.yield [.int 5]) 1 true)) = some m' ∧
        m.vm.cur = 1 ∧ m'.vm.cur = root ∧
        Delivered m w (.turn (.fiber (.yield [.int 5]) 1 true)) m' := by
  refine ⟨_, _, _, ?_, ?_, ?_,
    fiber_values_arrive_once
      (.step _ _ _ (.turn (.fiber (.resume (some 1) []) 1 true))
        (.step _ _ _ (.code (.answer .nil))
          (.step _ _ _ (.code (.fiberNew smallBlock))
            (.step _ _ _ (.turn (.send 1 true))
              (.step _ _ _ (.code .step)
                (.step _ _ _ (.code (.start [.nil, .nil])) .start
                  ⟨trivial, trivial⟩ rfl)
                ⟨trivial, trivial⟩ rfl)
              ⟨trivial, trivial⟩ rfl)
            ⟨trivial, trivial⟩ rfl)
          ⟨trivial, trivial⟩ rfl)
        ⟨trivial, fun _ => rfl⟩ rfl)
      ⟨.inl rfl, trivial⟩ rfl⟩
  · rfl
  · rfl
  · rfl

/-- Native code of the root resumes a fiber. -/
def nativelyResumedRun : List Event :=
  [.code (.start [.nil, .nil]), .code .step, .turn (.send 1 true),
    .code (.fiberNew smallBlock), .code (.resume (some 1) [])]

/-- A task makes a fiber and native code of it resumes the fiber, inside which
the scheduler asks for a switch. -/
def switchedFiberRun : List Event :=
  [.code (.start [.nil, .nil]), .code .step, .turn (.send 1 true),
    .code (.taskNew smallBlock), .code .schedulerStep, .turn (.send 1 true),
    .code (.fiberNew smallBlock), .code (.resume (some 2) []),
    .schedule (fun _ => .ready) [0] true]

/-- A task yields to the scheduler, is entered again and then switched out. -/
def staleRegisterRun : List Event :=
  [.code (.start [.nil, .nil]), .code .step, .turn (.send 1 true),
    .code (.taskNew smallBlock), .code .schedulerStep,
    .turn (.fiber (.yield []) 3 true), .code .schedulerStep,
    .schedule (fun _ => .ready) [0] true, .turn .preempt]

/-- A yield in an instruction that does not look at `loop_exit` leaves the loop
of the native resume running; a fiber that is switched out ends that loop
without a yield; and a task that was switched out and is then resumed has the
argument written over a register of its frame. -/
theorem fiber_value_lost :
    (∃ m w m', Traced (fun _ _ _ => True) m w ∧
        m.step (.turn (.fiber (.yield [.int 5]) 1 false)) = some m' ∧
        m'.acts = m.acts ∧ m'.answer = none ∧
        ¬ Delivered m w (.turn (.fiber (.yield [.int 5]) 1 false)) m') ∧
      (∃ m w m', Traced (fun _ _ _ => True) m w ∧
        m.step (.turn .preempt) = some m' ∧
        m.acts = .resume 2 1 :: m'.acts ∧ m'.answer = some (.value .nil) ∧
        ¬ Delivered m w (.turn .preempt) m') ∧
      ∃ m w m', Traced (fun _ _ _ => True) m w ∧
        m.step (.code (.resume (some 1) [.int 5])) = some m' ∧
        m.vm.regs 1 = [.nil, .nil, .nil, .nil] ∧
        m'.vm.regs 1 = [.nil, .nil, .nil, .int 5] ∧ w 1 = .parked ∧
        ¬ Delivered m w (.code (.resume (some 1) [.int 5])) m' := by
  refine ⟨?_, ?_, ?_⟩
  · refine ⟨_, _, _, Traced.trace nativelyResumedRun .start rfl, rfl, rfl, rfl,
      ?_⟩
    intro delivered
    have ended := (delivered.loop 1 root _ rfl).mpr ⟨rfl, by decide, rfl⟩
    exact absurd ended (List.cons_ne_self _ _)
  · refine ⟨_, _, _, Traced.trace switchedFiberRun .start rfl, rfl, rfl, rfl,
      ?_⟩
    intro delivered
    obtain ⟨_, _, finishes⟩ := (delivered.loop 2 1 _ rfl).mp rfl
    exact absurd finishes (by decide)
  · refine ⟨_, _, _, Traced.trace staleRegisterRun .start rfl, rfl, rfl, rfl,
      rfl, ?_⟩
    intro delivered
    obtain ⟨c, isFiber, ⟨_, entered⟩, _⟩ := delivered.passed (by decide)
    obtain rfl := Option.some.inj isFiber
    exact absurd entered.2 (by decide)

end SabiRuby.Fibers
