import Mathlib.Tactic.ByContra
import SabiRuby.Fibers.Chain

/-!
# A waiting context is never run

The steps of the machine keep the protocol, one lemma for each kind of step, and
so does every run whose steps are admissible.
-/

namespace SabiRuby.Fibers

open Activation

open Execution (FiberState Cci root)
open Function (update)
open Library (LinkChain)
open Machine (sent)

/-- A context is on the chain of the running one. -/
def Vm.OnChain (vm : Vm) (c : Nat) : Prop :=
  ∃ chain, LinkChain vm.view.prev vm.cur chain ∧ c ∈ chain

/-- What a run may do: the scheduler picks no task whose context waits, nor the
one that stands for the root, and a context that native code runs yields only
in an instruction that looks at `loop_exit`. -/
def Admissible (m : Machine) : Event → Prop
  | .code .schedulerStep =>
      ∀ t, m.vm.task.ready.head? = some t →
        (m.vm.task.tasks t).status ≠ .dormant →
          (m.vm.task.tasks t).ctx = m.vm.cur ∨
            ¬ m.vm.OnChain (m.vm.task.tasks t).ctx ∧
              (m.vm.task.tasks t).ctx ≠ root
  | .turn (.fiber (.yield _) _ looks) =>
      looks = true ∨ m.vm.running.vmexec = false
  | _ => True

section Frames

variable
  {vm : Vm}
  {act : Activation}
  {acts : List Activation}
  {chain : List Nat}
  {below : List CallInfo}
  {popped : CallInfo}

/-- The frames split at the top one. -/
theorem eq_append_of_getLast?
    (top : vm.running.ci.getLast? = some popped) :
    ∃ below, vm.running.ci = below ++ [popped] := by
  refine ⟨vm.running.ci.dropLast, ?_⟩
  have notEmpty : vm.running.ci ≠ [] := by
    intro empty
    simp [empty] at top
  rw [List.getLast?_eq_some_getLast notEmpty] at top
  rw [← Option.some.inj top, List.dropLast_concat_getLast]

/-- A frame that native code does not wait for goes. -/
theorem quiet_popFrame
    (frames : vm.running.ci = below ++ [popped])
    (silent : below = [] ∨ popped.cci ≠ .skip) :
    Quiet vm vm.popFrame := by
  apply quiet_setContext
  · intro context; rfl
  · intro context; rfl
  · intro context; rfl
  · intro context; rfl
  · have frames : (vm.contexts vm.cur).ci = below ++ [popped] := frames
    rw [frames, skips_append]
    rcases silent with empty | notSkip
    · simp [empty]
    · simp [notSkip]

/-- A native frame above the bottom one goes, and the innermost loop is the one
that waited for it. -/
theorem Sound.popNative
    (sound : Sound vm (act :: acts) chain)
    (isLoop : act.loop?.isSome)
    (frames : vm.running.ci = below ++ [popped])
    (above : below ≠ [])
    (native : popped.cci = .skip) :
    act.loop? = some (vm.cur, below.length) ∧ Sound vm.popFrame acts chain := by
  have frames : (vm.contexts vm.cur).ci = below ++ [popped] := frames
  have topmost : vm.view.natives vm.cur = below.length :: skips below := by
    have split := skips_append below popped
    rw [if_pos ⟨above, native⟩] at split
    exact (congrArg skips frames).trans split
  obtain ⟨isCall, orderly⟩ := sound.orderly.uncall isLoop topmost
  refine ⟨isCall, ?_⟩
  apply sound.next
  · apply steady_setContext
    · intro context; rfl
    · intro context; exact id
  · exact sound.loopExit
  · have view : vm.popFrame.view = vm.view.withNatives (skips below) := by
      simp only [View.withNatives, Vm.view, View.mk.injEq]
      refine ⟨rfl, ?_, ?_, ?_, ?_⟩ <;> funext d <;>
        by_cases here : d = vm.cur <;> simp [Vm.popFrame, here, frames]
    rw [view]
    exact orderly
  · exact sound.bounded
  · intro t ctx old member
    exact .inl (List.mem_cons_of_mem act member)

variable {lc stopDepth : Nat}

section

variable (sound : Sound vm (act :: acts) chain)
include sound

/-- A loop started for a frame above the bottom one ends with a native frame
only. -/
theorem Sound.not_endsLoop
    (isLoop : act.loop? = some (lc, stopDepth))
    (frames : vm.running.ci = below ++ [popped])
    (above : below ≠ [])
    (notNative : popped.cci ≠ .skip) :
    endsLoop vm.cur lc stopDepth below.length = false := by
  cases ends : endsLoop vm.cur lc stopDepth below.length with
  | false => rfl
  | true =>
      simp only [endsLoop, Bool.and_eq_true, beq_iff_eq,
        decide_eq_true_eq] at ends
      have positive : below.length ≠ 0 := by simpa using above
      cases act with
      | call c depth base =>
          obtain ⟨rfl, rfl⟩ : c = lc ∧ depth = stopDepth := by
            simpa [loop?] using isLoop
          have there : depth ∈ skips (vm.contexts vm.cur).ci := by
            have waits : depth ∈ vm.view.natives vm.cur := by
              rw [sound.orderly.natives]
              have positive : depth ≠ 0 := by omega
              simp [stops, ends.1, positive]
            exact waits
          obtain ⟨bound, _, frame, atDepth, isSkip⟩ := lt_of_mem_skips there
          have frames : (vm.contexts vm.cur).ci = below ++ [popped] := frames
          rw [frames, List.length_append, List.length_singleton] at bound
          have isTop : depth = below.length := by omega
          rw [frames, isTop, List.getElem?_concat_length] at atDepth
          rw [Option.some.inj atDepth] at notNative
          exact absurd isSkip notNative
      | native ctx retReg looks => simp [loop?] at isLoop
      | taskRun => simp [loop?] at isLoop
      | resume c old =>
          have bottom : 0 = stopDepth := by
            simpa [loop?] using congrArg (Option.map Prod.snd) isLoop
          omega
      | task t c old =>
          have bottom : 0 = stopDepth := by
            simpa [loop?] using congrArg (Option.map Prod.snd) isLoop
          omega
      | host =>
          have bottom : 0 = stopDepth := by
            simpa [loop?] using congrArg (Option.map Prod.snd) isLoop
          omega

/-- At the bottom of the root's frames the innermost loop is the host's. -/
theorem Sound.bottom
    (isLoop : act.loop?.isSome)
    (atRoot : vm.cur = root)
    (free : vm.view.natives vm.cur = []) :
    act.loop? = some (root, 0) ∧ acts = [] ∧ Sound vm [] chain := by
  obtain ⟨rest, rfl⟩ := sound.orderly.exists_eq_cons
  have ends : vm.view.prev vm.view.cur = none :=
    (congrArg vm.view.prev atRoot).trans sound.orderly.rootPrev
  have alone : rest = [] := sound.orderly.links.tail_of_none ends
  subst alone
  have unoccupied : stops vm.view.cur (act :: acts) = [] := by
    rw [← sound.orderly.natives]
    exact free
  have plain : Plain vm.view.vmexec [vm.view.cur] := by
    intro d member
    rw [List.mem_singleton.mp member]
    cases nested : vm.view.vmexec vm.view.cur with
    | false => rfl
    | true =>
        obtain ⟨_, _, split, _⟩ :=
          sound.orderly.anchored.leave_nested isLoop nested unoccupied
        simp at split
  obtain ⟨none, isHost, _⟩ :=
    sound.orderly.anchored.bottom isLoop plain (by
      intro d member
      rw [List.mem_singleton.mp member, unoccupied])
  refine ⟨isHost, none, ?_⟩
  subst none
  have idle : ∀ d, stops d [act] = [] := by
    intro d
    cases act with
    | call lc depth base =>
        have bottom : depth = 0 := by
          simpa [loop?] using
            congrArg (Option.map Prod.snd) isHost
        simp [stops, bottom]
    | native ctx retReg looks => rfl
    | taskRun => rfl
    | resume c old => rfl
    | task t c old => rfl
    | host => rfl
  apply sound.next (Steady.refl vm) sound.loopExit
  · exact sound.orderly.withActs plain fun d => (idle d).symm
  · exact sound.bounded
  · intro t ctx old member
    simp at member

/-- The frame that a loop was started for goes, and the loop ends. -/
theorem Sound.endFrame
    (isLoop : act.loop? = some (lc, stopDepth))
    (frames : vm.running.ci = below ++ [popped])
    (above : below = [] → vm.cur = root)
    (ends :
      popped.cci = .skip ∨
        endsLoop vm.cur lc stopDepth below.length = true)
    (still : vm.switches = [])
    (answer : Option LoopEnd)
    (r : LoopEnd) :
    Good vm chain
      (Machine.endLoop ⟨vm.popFrame, act :: acts, answer⟩ r) := by
  have isSome : act.loop?.isSome := by simp [isLoop]
  have notTask :
      Sound vm.popFrame acts chain → (∀ t ctx old, act ≠ .task t ctx old) →
        Good vm chain
          (Machine.endLoop ⟨vm.popFrame, act :: acts, answer⟩ r) := by
    intro sound' different
    have ended :=
      sound'.endLoop isSome
        (fun t ctx old isTask => absurd isTask (different t ctx old)) answer r
    apply Sound.good
    · rw [ended.2.1]
      exact ended.1
    · exact ended.2.2.trans still
  by_cases empty : below = []
  · have atRoot := above empty
    have popQuiet := quiet_popFrame frames (.inl empty)
    have free : vm.view.natives vm.cur = [] := by
      have frames : (vm.contexts vm.cur).ci = below ++ [popped] := frames
      have single : skips (vm.contexts vm.cur).ci = [] := by
        rw [frames, empty]
        exact skips_singleton popped
      exact single
    obtain ⟨isHost, none, sound'⟩ := sound.bottom isSome atRoot free
    apply notTask
    · rw [none]
      exact sound'.quiet popQuiet
    · intro t ctx old isTask
      have owner := sound.owners t ctx old (by simp [isTask])
      rw [isTask] at isHost
      have isRoot : ctx = root := by
        simpa [loop?] using
          congrArg (Option.map Prod.fst) isHost
      exact owner.2.2 isRoot
  · by_cases native : popped.cci = .skip
    · obtain ⟨isCall, sound'⟩ :=
        sound.popNative isSome frames empty native
      apply notTask sound'
      intro t ctx old isTask
      rw [isTask] at isCall
      have bottom : 0 = below.length := by
        simpa [loop?] using congrArg (Option.map Prod.snd) isCall
      exact empty (List.length_eq_zero_iff.mp bottom.symm)
    · have stays := sound.not_endsLoop isLoop frames empty native
      rcases ends with isSkip | ends
      · exact absurd isSkip native
      · rw [stays] at ends
        exact absurd ends (by decide)

/-- A frame goes that no loop waits for. -/
theorem Sound.stayFrame
    (isLoop : act.loop? = some (lc, stopDepth))
    (frames : vm.running.ci = below ++ [popped])
    (stays : endsLoop vm.cur lc stopDepth below.length = false) :
    Quiet vm vm.popFrame := by
  apply quiet_popFrame frames
  by_cases empty : below = []
  · exact .inl empty
  · right
    intro native
    obtain ⟨isCall, _⟩ :=
      sound.popNative (by simp [isLoop]) frames empty native
    rw [isLoop, Option.some.injEq, Prod.mk.injEq] at isCall
    simp [endsLoop, isCall.1, isCall.2] at stays

end

/-- The bottom frame of a fiber goes, and the fiber ends. -/
theorem Sound.movedLast
    (sound : Sound vm acts chain)
    (frames : vm.running.ci = [popped])
    (notRoot : vm.cur ≠ root) :
    vm.view.natives vm.cur = [] ∧
      vm.popFrame.fiberTerminate.2 = vm.running.vmexec ∧
        Moved vm vm.popFrame.fiberTerminate.1
          (vm.view.back .terminated (vm.running.prev.getD root)) := by
  have frames : vm.running.ci = [] ++ [popped] := frames
  have popQuiet := quiet_popFrame frames (.inl rfl)
  have sameCur : vm.popFrame.cur = vm.cur := rfl
  have free : vm.view.natives vm.cur = [] := by
    have frames : (vm.contexts vm.cur).ci = [popped] := frames
    exact (congrArg skips frames).trans (skips_singleton popped)
  have different := sound.orderly.prev_ne_self
  have sameRunning :
      vm.popFrame.running.prev = vm.running.prev ∧
        vm.popFrame.running.vmexec = vm.running.vmexec := by
    simp [Vm.running, Vm.popFrame, Vm.setContext]
  refine ⟨free, sameRunning.2, ?_⟩
  have ended :=
    moved_fiberTerminate
      (by rw [popQuiet.view, sameCur]; exact different)
      (by rw [sameCur]; exact notRoot)
      (by rw [popQuiet.view, sameCur]; exact free)
  rw [popQuiet.view, sameRunning.1] at ended
  exact popQuiet.moved ended

/-- The context that waited for it goes on, or the Rust code. -/
theorem Sound.lastFrame
    (sound : Sound vm (act :: acts) chain)
    (isLoop : act.loop?.isSome)
    (frames : vm.running.ci = [popped])
    (notRoot : vm.cur ≠ root)
    (still : vm.switches = []) :
    vm.popFrame.fiberTerminate.2 = vm.running.vmexec ∧
      (vm.running.vmexec = false → ∀ answer,
        Good vm chain
          ⟨vm.popFrame.fiberTerminate.1, act :: acts, answer⟩) ∧
        (vm.running.vmexec = true → ∀ answer r,
          Good vm chain
            (Machine.endLoop
              ⟨vm.popFrame.fiberTerminate.1, act :: acts, answer⟩ r)) := by
  obtain ⟨free, nested, moved⟩ := sound.movedLast frames notRoot
  exact ⟨nested, sound.back isLoop notRoot free (by decide) moved still⟩

theorem Good.quiet
    (good : Good vm chain m)
    (quiet : Quiet m.vm vm') :
    Good vm chain { m with vm := vm' } := by
  obtain ⟨chain', sound, legal⟩ := good
  refine ⟨chain', sound.quiet quiet, ?_⟩
  rwa [quiet.switches]

theorem Sound.goodQuiet
    (sound : Sound vm acts chain)
    (quiet : Quiet vm vm')
    (still : vm.switches = [])
    (answer : Option LoopEnd) :
    Good vm chain ⟨vm', acts, answer⟩ :=
  Sound.good (sound.quiet quiet) (quiet.switches.trans still)

end Frames

section Steps

variable
  {m m' : Machine}
  {act : Activation}
  {acts : List Activation}
  {chain : List Nat}
  {lc stopDepth : Nat}

section

variable (sound : Sound m.vm (act :: acts) chain)
include sound

/-- A frame returns. -/
theorem Sound.leaveFrame
    (active : m.acts = act :: acts)
    (isLoop : act.loop? = some (lc, stopDepth))
    (still : m.vm.switches = [])
    (step : m.leaveFrame lc stopDepth v isBreak = some m') :
    Good m.vm chain m' := by
  obtain ⟨vm, acts', answer⟩ := m
  subst active
  have isSome : act.loop?.isSome := by simp [isLoop]
  unfold Machine.leaveFrame at step
  split at step
  · simp at step
  · rename_i popped top
    obtain ⟨below, frames⟩ := eq_append_of_getLast? top
    have depth : vm.running.ci.length - 1 = below.length := by simp [frames]
    dsimp only at step
    rw [depth] at step
    split at step
    · rename_i last
      simp only [Bool.and_eq_true, decide_eq_true_eq, bne_iff_ne,
        ne_eq] at last
      have empty : below = [] := List.length_eq_zero_iff.mp last.1
      rw [empty, List.nil_append] at frames
      obtain ⟨nested, plain, ended⟩ :=
        sound.lastFrame isSome frames last.2 still
      rw [nested] at step
      split at step
      · rename_i vmexec
        rw [← Option.some.inj step]
        exact ended vmexec answer (.value v)
      · rename_i vmexec
        rw [← Option.some.inj step]
        exact (plain (by simpa using vmexec) answer).quiet (quiet_deliver _ v)
    · rename_i notLast
      have above : below = [] → vm.cur = root := by
        intro empty
        by_contra notRoot
        apply notLast
        simp [empty, Vm.popFrame, Vm.setContext, notRoot]
      split at step
      · rename_i ends
        rw [← Option.some.inj step]
        apply sound.endFrame isLoop frames above _ still
        simpa [Vm.popFrame, Vm.setContext] using ends
      · rename_i stays
        have stays : endsLoop vm.cur lc stopDepth below.length = false := by
          simp only [Bool.or_eq_true, not_or, Bool.not_eq_true] at stays
          exact stays.2
        have popQuiet := sound.stayFrame isLoop frames stays
        split at step
        · rw [← Option.some.inj step]
          exact sound.goodQuiet popQuiet still answer
        · rw [← Option.some.inj step]
          apply sound.goodQuiet (popQuiet.trans _) still answer
          apply quiet_setContext <;> intros <;> rfl

/-- A return or a break goes through a frame. -/
theorem Sound.unwindFrame
    (active : m.acts = act :: acts)
    (isLoop : act.loop? = some (lc, stopDepth))
    (still : m.vm.switches = [])
    (step : m.unwindFrame lc stopDepth = some m') :
    Good m.vm chain m' := by
  obtain ⟨vm, acts', answer⟩ := m
  subst active
  unfold Machine.unwindFrame at step
  split at step
  · simp at step
  · rename_i popped top
    obtain ⟨below, frames⟩ := eq_append_of_getLast? top
    have depth : vm.running.ci.length - 1 = below.length := by simp [frames]
    dsimp only at step
    rw [depth] at step
    split at step
    · simp at step
    · rename_i positive
      split at step
      · rename_i ends
        rw [← Option.some.inj step]
        apply sound.endFrame isLoop frames _ _ still
        · intro empty
          simp [empty] at positive
        · simpa [Vm.popFrame, Vm.setContext] using ends
      · rename_i stays
        have stays : endsLoop vm.cur lc stopDepth below.length = false := by
          simp only [Bool.or_eq_true, not_or, Bool.not_eq_true] at stays
          exact stays.2
        rw [← Option.some.inj step]
        exact sound.goodQuiet (sound.stayFrame isLoop frames stays) still answer

/-- An exception goes through a frame. -/
theorem Sound.raiseFrame
    (active : m.acts = act :: acts)
    (isLoop : act.loop? = some (lc, stopDepth))
    (still : m.vm.switches = [])
    (step : m.raiseFrame lc stopDepth exc = some m') :
    Good m.vm chain m' := by
  obtain ⟨vm, acts', answer⟩ := m
  subst active
  have isSome : act.loop?.isSome := by simp [isLoop]
  unfold Machine.raiseFrame at step
  split at step
  · simp at step
  · rename_i notEmpty
    have notEmpty : vm.running.ci ≠ [] := notEmpty
    obtain ⟨below, frames⟩ :=
      eq_append_of_getLast? (List.getLast?_eq_some_getLast notEmpty)
    have depth : vm.running.ci.length - 1 = below.length :=
      (congrArg (fun ci => ci.length - 1) frames).trans (by simp)
    dsimp only at step
    rw [depth] at step
    split at step
    · rename_i last
      simp only [Bool.and_eq_true, decide_eq_true_eq, bne_iff_ne,
        ne_eq] at last
      have empty : below = [] := List.length_eq_zero_iff.mp last.1
      rw [empty, List.nil_append] at frames
      obtain ⟨nested, plain, ended⟩ :=
        sound.lastFrame isSome frames last.2 still
      rw [nested] at step
      split at step
      · rename_i vmexec
        rw [← Option.some.inj step]
        exact ended vmexec answer (.raised exc)
      · rename_i vmexec
        rw [← Option.some.inj step]
        exact plain (by simpa using vmexec) answer
    · rename_i notLast
      have above : below = [] → vm.cur = root := by
        intro empty
        by_contra notRoot
        apply notLast
        simp [empty, Vm.popFrame, Vm.setContext, notRoot]
      split at step
      · rename_i ends
        rw [← Option.some.inj step]
        apply sound.endFrame isLoop frames above _ still
        right
        simpa [Vm.popFrame, Vm.setContext] using ends
      · rename_i stays
        have stays : endsLoop vm.cur lc stopDepth below.length = false :=
          Bool.eq_false_iff.mpr stays
        rw [← Option.some.inj step]
        exact sound.goodQuiet (sound.stayFrame isLoop frames stays) still answer

end

variable {vm : Vm}

/-- A resume raises, or enters a context off the chain. -/
theorem fiberSwitch_resume
    (orderly : Orderly vm.view acts chain)
    (whole : vm.Whole)
    (c : Nat)
    (args : List Value)
    (vmexec : Bool) :
    (∃ text, vm.fiberSwitch c args true vmexec = (vm, .error text)) ∨
      ∃ vm' v,
        vm.fiberSwitch c args true vmexec = (vm', .ok v) ∧ c ∉ chain ∧
          c ≠ root ∧ Moved vm vm' (vm.view.enter c vmexec) := by
  by_cases self : c = vm.cur
  · exact .inl (fiberSwitch_refused args true vmexec (.inl ⟨rfl, self⟩))
  · by_cases allowed :
        FiberState.refusal true (vm.contexts c).status = none
    · cases crosses : vm.fiberCheckNative c with
      | true =>
          exact .inl (fiberSwitch_refused args true vmexec (.inr (.inr crosses)))
      | false =>
          have notResumed : vm.view.status c ≠ .resumed := by
            intro resumed
            have resumed : (vm.contexts c).status = .resumed := resumed
            simp [resumed, FiberState.refusal] at allowed
          have notRoot : c ≠ root := by
            intro isRoot
            rw [isRoot] at self allowed
            rcases orderly.rootStatus (Ne.symm self) with state | state
            · have state : (vm.contexts root).status = .resumed := state
              simp [state, FiberState.refusal] at allowed
            · have state : (vm.contexts root).status = .transferred := state
              simp [state, FiberState.refusal] at allowed
          obtain ⟨vm', v, switched, moved⟩ :=
            moved_fiberSwitch args true vmexec self (by simp) allowed crosses
              (whole.blocks c notRoot)
          exact .inr ⟨vm', v, switched, orderly.not_mem self notResumed,
            notRoot, moved⟩
    · exact .inl (fiberSwitch_refused args true vmexec (.inr (.inl allowed)))

/-- The VM while a native that an instruction called runs. -/
def Vm.sending (vm : Vm) (retReg : Nat) : Vm :=
  { vm with directSend := true, nativeRetReg := retReg }

/-- The native has answered. -/
def Vm.unsent (vm : Vm) : Vm :=
  { vm with directSend := false }

variable
  {retReg : Nat}
  {vm vm' : Vm}

theorem quiet_sending
    (direct : vm.directSend = false)
    (quiet : Quiet (vm.sending retReg) vm') :
    Quiet vm vm'.unsent where
  steady :=
    { len := quiet.steady.len
      sending := direct.symm
      count := quiet.steady.count
      tasks := quiet.steady.tasks
      ready := quiet.steady.ready
      blocks := quiet.steady.blocks
      created := quiet.steady.created }
  view := quiet.view
  loopExit := quiet.loopExit
  switches := quiet.switches

theorem moved_sending
    (direct : vm.directSend = false)
    (moved : Moved (vm.sending retReg) vm' v) :
    Moved vm vm'.unsent v where
  steady :=
    { len := moved.steady.len
      sending := direct.symm
      count := moved.steady.count
      tasks := moved.steady.tasks
      ready := moved.steady.ready
      blocks := moved.steady.blocks
      created := moved.steady.created }
  view := moved.view
  loopExit := moved.loopExit
  switches := moved.switches

/-- A native answers in the context it was called in. -/
theorem Sound.sentHere
    (sound : Sound vm acts chain)
    (here : vm.cur = ctx)
    (still : vm.switches = [])
    (retReg : Nat)
    (looks : Bool)
    (answer : Option LoopEnd)
    (v : Value) :
    Good vm chain (sent ⟨vm, acts, answer⟩ ctx retReg looks v) := by
  have written :=
    quiet_setContext vm ctx
      (fun c => { c with stack := c.stack.set retReg v })
      (fun _ => rfl) (fun _ => rfl) (fun _ => rfl) (fun _ => rfl) rfl
  have noExit : (vm.setContext ctx fun c =>
      { c with stack := c.stack.set retReg v }).loopExit = none :=
    sound.loopExit
  unfold sent
  dsimp only
  rw [if_pos here]
  split
  · rename_i exits
    rw [noExit] at exits
    simp at exits
  · exact sound.goodQuiet written still answer

variable {ctx retReg : Nat}

/-- A native has switched and left no value for the Rust code that waits: the
value goes to the register that the context entered waits on. -/
theorem Good.sentAway
    (good : ∀ answer, Good vm chain ⟨vm', acts, answer⟩)
    (away : vm'.cur ≠ ctx)
    (noExit : vm'.loopExit = none)
    (looks : Bool)
    (answer : Option LoopEnd)
    (v : Value) :
    Good vm chain (sent ⟨vm', acts, answer⟩ ctx retReg looks v) := by
  have delivered := quiet_deliver vm' v
  unfold sent
  dsimp only
  rw [if_neg away, if_neg (by simp [noExit])]
  split
  · rename_i exits
    rw [delivered.loopExit, noExit] at exits
    simp at exits
  · exact (good answer).quiet delivered

/-- A native has switched and left a value for the Rust code that waits: the
loop ends. -/
theorem Good.sentExit
    (good : ∀ answer r,
      Good vm chain (Machine.endLoop ⟨vm', acts, answer⟩ r))
    (away : vm'.cur ≠ ctx)
    (noExit : vm'.loopExit = none)
    (answer : Option LoopEnd)
    (v : Value) :
    Good vm chain
      (sent ⟨{ vm' with loopExit := some w }, acts, answer⟩
        ctx retReg true v) := by
  have same : { vm' with loopExit := none } = vm' := by
    cases vm'
    simp_all
  unfold sent
  dsimp only
  rw [if_neg away, if_pos (by simp)]
  dsimp only
  rw [same]
  exact good answer (.value w)

/-- An instruction calls an operation of Fiber. -/
theorem Sound.fiber
    {call : FiberCall}
    (sound : Sound vm (act :: acts) chain)
    (isLoop : act.loop?.isSome)
    (still : vm.switches = [])
    (known : call.known vm = true)
    (exits :
      (∃ args, call = .yield args) → looks = true ∨ vm.running.vmexec = false)
    (answer : Option LoopEnd) :
    ∃ vm' r,
      call.perform (vm.sending retReg) = some (vm', r) ∧
        (∀ text, r = .error text →
          Good vm chain ⟨vm'.unsent, act :: acts, answer⟩) ∧
        (∀ v, r = .ok v →
          Good vm chain
            (sent ⟨vm'.unsent, act :: acts, answer⟩
              vm.cur retReg looks v)) := by
  have direct := sound.sending
  have orderly : Orderly (vm.sending retReg).view (act :: acts) chain :=
    sound.orderly
  have whole : (vm.sending retReg).Whole :=
    ⟨sound.whole.rootBound, sound.whole.blocks, sound.whole.tasks,
      sound.whole.ready⟩
  have here : ∀ {vm' : Vm} {r : Except String Value},
      Quiet (vm.sending retReg) vm' →
        (∀ text, r = .error text →
          Good vm chain ⟨vm'.unsent, act :: acts, answer⟩) ∧
        (∀ v, r = .ok v →
          Good vm chain
            (sent ⟨vm'.unsent, act :: acts, answer⟩
              vm.cur retReg looks v)) := by
    intro vm' r quiet
    have quiet := quiet_sending direct quiet
    refine ⟨fun _ _ => sound.goodQuiet quiet still answer, ?_⟩
    intro v _
    obtain ⟨chain', sound', legal⟩ :=
      (sound.quiet quiet).sentHere (congrArg View.cur quiet.view)
        (quiet.switches.trans still) retReg looks answer v
    refine ⟨chain', sound', ?_⟩
    rwa [quiet.view] at legal
  cases call with
  | resume fib args =>
      cases fib with
      | none =>
          exact ⟨_, _, rfl, here ⟨Steady.refl _, rfl, rfl, rfl⟩⟩
      | some c =>
          have bound : c < vm.len := by
            simpa [FiberCall.known] using known
          rcases fiberSwitch_resume orderly whole c args false with
            ⟨text, refused⟩ | ⟨vm', v, switched, outside, notRoot, moved⟩
          · exact ⟨_, _, congrArg some refused,
              here ⟨Steady.refl _, rfl, rfl, rfl⟩⟩
          · refine ⟨vm', .ok v, congrArg some switched, by simp, ?_⟩
            intro v _
            have moved := moved_sending direct moved
            apply Good.sentAway
            · intro answer
              refine ⟨c :: chain, ?_, ?_⟩
              · apply sound.next moved.steady
                  (moved.loopExit.trans sound.loopExit)
                · rw [moved.view]
                  exact sound.orderly.enter isLoop outside notRoot
                · intro d member
                  rcases List.mem_cons.mp member with rfl | member
                  · exact bound
                  · exact sound.bounded d member
                · intro t ctx old member
                  exact .inl member
              · intro s member
                rw [moved.switches, still, List.nil_append,
                  List.mem_singleton] at member
                rw [member]
                exact ⟨rfl, .inl outside⟩
            · have entered : vm'.unsent.cur = c :=
                congrArg View.cur moved.view
              rw [entered]
              intro same
              exact outside (same ▸ sound.orderly.links.mem_self)
            · exact moved.loopExit.trans sound.loopExit
  | yield args =>
      have different := orderly.prev_ne_self
      rcases fiberYield_spec args different with
        ⟨text, refused⟩ | ⟨p, vm', v, linked, free, yielded, moved⟩
      · exact ⟨_, _, congrArg some refused,
          here ⟨Steady.refl _, rfl, rfl, rfl⟩⟩
      · refine ⟨_, _, congrArg some yielded, by simp, ?_⟩
        intro w _
        have moved := moved_sending direct moved
        have returns : vm.running.prev.getD root = p := by
          have linked : vm.running.prev = some p := linked
          rw [linked]
          rfl
        have notRoot : vm.cur ≠ root := by
          intro isRoot
          have linked : vm.view.prev vm.cur = some p := linked
          rw [isRoot, sound.orderly.rootPrev] at linked
          simp at linked
        have went :=
          sound.back isLoop notRoot free (by decide)
            (returns.symm ▸ moved) still
        have away : vm'.unsent.cur ≠ vm.cur := by
          have entered : vm'.unsent.cur = p := congrArg View.cur moved.view
          rw [entered]
          intro same
          exact different (linked.trans (congrArg some same))
        have noExit : vm'.unsent.loopExit = none :=
          moved.loopExit.trans sound.loopExit
        have exec : (vm.sending retReg).view.vmexec (vm.sending retReg).cur =
            vm.running.vmexec := rfl
        rw [exec]
        cases nested : vm.running.vmexec with
        | false =>
            exact Good.sentAway (went.1 nested) away noExit looks answer w
        | true =>
            rcases exits ⟨args, rfl⟩ with looking | plain
            · rw [looking]
              exact Good.sentExit (went.2 nested) away noExit answer w
            · rw [nested] at plain
              exact absurd plain (by decide)
  | transfer fib args =>
      obtain ⟨vm', r, transferred, outcome⟩ :=
        fiberTransfer_spec fib args orderly sound.chain_length_le whole
      refine ⟨vm', r, transferred, ?_⟩
      rcases outcome with ⟨rfl, _⟩ | ⟨quiet, _⟩ |
        ⟨target, v, rfl, outside, plain, free, rfl, moved⟩
      · exact here ⟨Steady.refl _, rfl, rfl, rfl⟩
      · exact here quiet
      · refine ⟨by simp, ?_⟩
        intro w _
        have bound : target < vm.len := by
          simpa [FiberCall.known] using known
        have moved := moved_sending direct moved
        apply Good.sentAway
        · intro answer
          refine ⟨[target], ?_, ?_⟩
          · apply sound.next moved.steady
              (moved.loopExit.trans sound.loopExit)
            · rw [moved.view]
              exact sound.orderly.transfer isLoop outside plain free
            · intro d member
              rw [List.mem_singleton.mp member]
              exact bound
            · intro t ctx old member
              exact .inl member
          · intro s member
            rw [moved.switches, still, List.nil_append,
              List.mem_singleton] at member
            rw [member]
            exact ⟨rfl, .inl outside⟩
        · have entered : vm'.unsent.cur = target :=
            congrArg View.cur moved.view
          rw [entered]
          intro same
          exact outside (same ▸ sound.orderly.links.mem_self)
        · exact moved.loopExit.trans sound.loopExit

/-- The activations change, and nothing else. -/
theorem Sound.withActs
    (sound : Sound vm acts chain)
    (orderly : Orderly vm.view acts' chain)
    (owners :
      ∀ t ctx old, .task t ctx old ∈ acts' → .task t ctx old ∈ acts) :
    Sound vm acts' chain := by
  apply sound.next (Steady.refl vm) sound.loopExit orderly sound.bounded
  intro t ctx old member
  exact .inl (owners t ctx old member)

/-- A native is called. -/
theorem Sound.native
    (sound : Sound vm acts chain)
    (retReg : Nat)
    (looks : Bool) :
    Sound vm (.native vm.cur retReg looks :: acts) chain := by
  apply sound.withActs
  · refine sound.orderly.withActs ?_ fun _ => rfl
    obtain ⟨rest, rfl⟩ := sound.orderly.exists_eq_cons
    exact ⟨rfl, sound.orderly.anchored⟩
  · intro t ctx old member
    simpa using member

/-- A native ends in the context it was called in. -/
theorem Sound.unnative
    (sound : Sound vm (.native ctx retReg looks :: acts) chain) :
    vm.cur = ctx ∧ Sound vm acts chain := by
  obtain ⟨rest, rfl⟩ := sound.orderly.exists_eq_cons
  obtain ⟨head, anchored⟩ := sound.orderly.anchored
  refine ⟨Option.some.inj head, ?_⟩
  apply sound.withActs
  · exact sound.orderly.withActs anchored fun _ => rfl
  · intro t ctx old member
    exact List.mem_cons_of_mem _ member

/-- Native code calls Ruby. -/
theorem Sound.call
    (sound : Sound m.vm m.acts chain)
    (still : m.vm.switches = [])
    (step : m.call regs = some m') :
    Good m.vm chain m' := by
  obtain ⟨vm, acts, answer⟩ := m
  have sound : Sound vm acts chain := sound
  have still : vm.switches = [] := still
  unfold Machine.call at step
  dsimp only at step
  split at step
  · simp at step
  · rename_i allowed
    rw [← Option.some.inj step]
    apply Sound.good _ still
    · exact chain
    · have steady : Steady vm
          (vm.pushFrame { base := vm.running.stack.length, cci := .skip }
            (vm.running.stack ++ regs)) := by
        apply steady_setContext
        · intro context; rfl
        · intro context; exact id
      by_cases empty : vm.running.ci = []
      · have idle : acts = [] ∧ vm.cur = root := by
          simpa [empty] using allowed
        obtain ⟨rfl, atRoot⟩ := idle
        have quiet : Quiet vm
            (vm.pushFrame { base := vm.running.stack.length, cci := .skip }
              (vm.running.stack ++ regs)) := by
          apply quiet_setContext
          · intro context; rfl
          · intro context; rfl
          · intro context; rfl
          · intro context; rfl
          · have empty : (vm.contexts vm.cur).ci = [] := empty
            simp [empty, skips_singleton]
        have sound' := sound.quiet quiet
        apply sound'.withActs
        · apply sound'.orderly.withActs
          · simp only [Anchored, empty, List.length_nil, if_true]
            exact ⟨atRoot, sound'.orderly.anchored, trivial⟩
          · intro d
            simp [stops, empty]
        · intro t ctx old member
          simp at member
      · have view :
            (vm.pushFrame { base := vm.running.stack.length, cci := .skip }
              (vm.running.stack ++ regs)).view =
                vm.view.withNatives
                  (vm.running.ci.length :: vm.view.natives vm.cur) := by
          have above : (vm.contexts vm.cur).ci ≠ [] := empty
          simp only [View.withNatives, Vm.view, View.mk.injEq]
          refine ⟨rfl, ?_, ?_, ?_, ?_⟩ <;> funext d <;>
            by_cases here : d = vm.cur <;>
              simp [Vm.pushFrame, here, skips_append, Vm.running, above]
        apply sound.next steady sound.loopExit
        · rw [view]
          exact sound.orderly.call (by simpa using empty)
        · exact sound.bounded
        · intro t ctx old member
          exact .inl (by simpa using member)

/-- Native code resumes a fiber. -/
theorem Sound.nativeResume
    (sound : Sound m.vm m.acts chain)
    (still : m.vm.switches = [])
    (known : (FiberCall.resume fib args).known m.vm = true) :
    Good m.vm chain (m.nativeResume fib args) := by
  obtain ⟨vm, acts, answer⟩ := m
  have sound : Sound vm acts chain := sound
  have still : vm.switches = [] := still
  have stays : Good vm chain ⟨vm, acts, answer⟩ :=
    sound.goodQuiet (Quiet.refl vm) still answer
  cases fib with
  | none => exact stays
  | some c =>
      have bound : c < vm.len := by
        simpa [FiberCall.known] using known
      have enters : vm.fiberResume (some c) args =
          vm.fiberSwitch c args true true := by
        simp [Vm.fiberResume, fiberContext, sound.sending]
      unfold Machine.nativeResume
      dsimp only
      rw [enters]
      rcases fiberSwitch_resume sound.orderly sound.whole c args true with
        ⟨text, refused⟩ | ⟨vm', v, switched, outside, notRoot, moved⟩
      · rw [refused]
        exact stays
      · rw [switched]
        refine ⟨c :: chain, ?_, ?_⟩
        · apply sound.next moved.steady
            (moved.loopExit.trans sound.loopExit)
          · rw [moved.view]
            exact sound.orderly.enterNested outside notRoot (.inl rfl)
          · intro d member
            rcases List.mem_cons.mp member with rfl | member
            · exact bound
            · exact sound.bounded d member
          · intro t ctx old member
            exact .inl (by simpa using member)
        · intro s member
          rw [moved.switches, still, List.nil_append,
            List.mem_singleton] at member
          rw [member]
          exact ⟨rfl, .inl outside⟩

section

variable (sound : Sound vm acts chain)
include sound

/-- A fresh context. -/
theorem Sound.pushContext
    (block : Block) :
    Sound (vm.pushContext (Context.new .created (some block))) acts chain := by
  have outside : vm.len ∉ chain := fun member =>
    absurd (sound.bounded _ member) (Nat.lt_irrefl _)
  have notRoot : vm.len ≠ root := Nat.ne_of_gt sound.whole.rootBound
  have view :
      (vm.pushContext (Context.new .created (some block))).view =
        vm.view.fresh vm.len := by
    simp only [View.fresh, Vm.view, View.mk.injEq]
    refine ⟨rfl, ?_, ?_, ?_, ?_⟩ <;> funext d <;>
      by_cases here : d = vm.len <;>
        simp [Vm.pushContext, Context.new, here]
  exact
    { orderly := by
        rw [view]
        exact sound.orderly.fresh outside notRoot
      bounded := fun c member => Nat.lt_succ_of_lt (sound.bounded c member)
      whole :=
        { rootBound := Nat.lt_succ_of_lt sound.whole.rootBound
          blocks := by
            intro c notRoot created
            by_cases here : c = vm.len
            · simp [Vm.pushContext, Context.new, here]
            · simp only [Vm.pushContext, if_neg here] at created ⊢
              exact sound.whole.blocks c notRoot created
          tasks := fun t bound =>
            Nat.lt_succ_of_lt (sound.whole.tasks t bound)
          ready := sound.whole.ready }
      owners := sound.owners
      loopExit := sound.loopExit
      sending := sound.sending }

/-- Tasks are made, and the scheduler's queue and flags change. -/
theorem Sound.withTask
    (task : TaskState)
    (grown : vm.task.count ≤ task.count)
    (same :
      ∀ t, t < vm.task.count → (task.tasks t).ctx = (vm.task.tasks t).ctx)
    (tasks : ∀ t, t < task.count → (task.tasks t).ctx < vm.len)
    (ready : ∀ t ∈ task.ready, t < task.count) :
    Sound { vm with task := task } acts chain where
  orderly := sound.orderly
  bounded := sound.bounded
  whole :=
    { rootBound := sound.whole.rootBound
      blocks := sound.whole.blocks
      tasks := tasks
      ready := ready }
  owners := by
    intro t ctx old member
    obtain ⟨known, owned, notRoot⟩ := sound.owners t ctx old member
    exact ⟨Nat.lt_of_lt_of_le known grown, (same t known).trans owned, notRoot⟩
  loopExit := sound.loopExit
  sending := sound.sending

theorem Sound.createTask
    (block : Block) :
    Sound (vm.createTask block) acts chain := by
  apply (sound.pushContext block).withTask
  · exact Nat.le_succ _
  · intro t known
    have known : t < vm.task.count := known
    have older : t ≠ vm.task.count := Nat.ne_of_lt known
    simp [Vm.pushContext, Vm.setTask, older]
  · intro t known
    by_cases made : t = vm.task.count
    · simp [Vm.pushContext, Vm.setTask, made]
    · have older : t < vm.task.count :=
        Nat.lt_of_le_of_ne (Nat.lt_succ_iff.mp known) made
      have bound := sound.whole.tasks t older
      simpa [Vm.pushContext, Vm.setTask, made] using Nat.lt_succ_of_lt bound
  · intro t member
    rcases List.mem_append.mp member with member | made
    · exact Nat.lt_succ_of_lt (sound.whole.ready t member)
    · rw [List.mem_singleton.mp made]
      exact Nat.lt_succ_self _

theorem Sound.mainTask :
    Sound vm.mainTask acts chain ∧ vm.mainTask.switches = vm.switches := by
  unfold Vm.mainTask
  split
  · exact ⟨sound, rfl⟩
  · refine ⟨?_, rfl⟩
    apply sound.withTask
    · exact Nat.le_succ _
    · intro t known
      have older : t ≠ vm.task.count := Nat.ne_of_lt known
      simp [Vm.setTask, older]
    · intro t known
      by_cases made : t = vm.task.count
      · simpa [Vm.setTask, made] using sound.whole.rootBound
      · have older : t < vm.task.count :=
          Nat.lt_of_le_of_ne (Nat.lt_succ_iff.mp known) made
        simpa [Vm.setTask, made] using sound.whole.tasks t older
    · intro t member
      exact Nat.lt_succ_of_lt (sound.whole.ready t member)

end

theorem setContext_setContext
    (vm : Vm)
    (c : Nat)
    (first second : Context → Context) :
    (vm.setContext c first).setContext c second =
      vm.setContext c fun context => second (first context) := by
  unfold Vm.setContext
  congr 1
  funext d
  by_cases here : d = c <;> simp [here]

/-- A task is entered as a native resume of its context is, but that no value
is given to one that was run before. -/
theorem enterTask_eq
    (vm : Vm)
    (t : Nat) :
    ∃ task,
      Quiet vm { vm with task := task } ∧
        vm.enterTask t =
          let entered :=
            (({ vm with task := task } : Vm).linkContext
              (vm.task.tasks t).ctx true true).switchContext
                (vm.task.tasks t).ctx
          if (vm.contexts (vm.task.tasks t).ctx).status = .created then
            entered.startBlock
          else entered := by
  have set :=
    quiet_setTask vm t (fun task => { task with status := .running })
      fun _ => rfl
  have quiet := set.trans (quiet_task _
    { (vm.setTask t fun task => { task with status := .running }).task with
      running := some t
      switching := false } rfl (fun _ => rfl) fun _ member => .inl member)
  refine ⟨_, quiet, ?_⟩
  unfold Vm.enterTask Vm.linkContext
  dsimp only
  rw [if_pos rfl, if_pos rfl, setContext_setContext]
  simp only [beq_iff_eq]
  rfl

/-- A task whose context is off the chain is entered. -/
theorem moved_enterTask
    (other : (vm.task.tasks t).ctx ≠ vm.cur)
    (free : vm.view.natives (vm.task.tasks t).ctx = []) :
    Moved vm (vm.enterTask t)
      (vm.view.enter (vm.task.tasks t).ctx true) := by
  obtain ⟨task, quiet, entered⟩ := enterTask_eq vm t
  generalize ({ vm with task := task } : Vm) = marked at quiet entered
  have other' : (vm.task.tasks t).ctx ≠ marked.cur := fun same =>
    other (same.trans (congrArg View.cur quiet.view))
  have linked := quiet.moved (moved_link true true other' (by simp))
  rw [quiet.view] at linked
  have linked : Moved vm
      ((marked.linkContext (vm.task.tasks t).ctx true true).switchContext
        (vm.task.tasks t).ctx)
      (vm.view.enter (vm.task.tasks t).ctx true) := linked
  rw [entered]
  dsimp only
  split
  · rename_i created
    have nowCur :
        ((marked.linkContext (vm.task.tasks t).ctx true true).switchContext
          (vm.task.tasks t).ctx).cur = (vm.task.tasks t).ctx :=
      congrArg View.cur linked.view
    apply linked.quiet
    unfold Vm.startBlock
    split
    · exact Quiet.refl _
    · apply quiet_enterBlock
      rw [nowCur, linked.view]
      exact free
  · exact linked

/-- The scheduler takes a turn. -/
theorem Sound.schedulerStep
    (sound : Sound m.vm m.acts chain)
    (still : m.vm.switches = [])
    (admissible : Admissible m (.code .schedulerStep)) :
    Good m.vm chain m.schedulerStep := by
  obtain ⟨vm, acts, answer⟩ := m
  have sound : Sound vm acts chain := sound
  have still : vm.switches = [] := still
  have stays : Good vm chain ⟨vm, acts, answer⟩ :=
    sound.goodQuiet (Quiet.refl vm) still answer
  unfold Machine.schedulerStep
  dsimp only
  split
  · exact stays
  · rename_i t rest queue
    have known : t < vm.task.count := sound.whole.ready t (by simp [queue])
    split
    · apply sound.goodQuiet _ still answer
      apply quiet_task
      · rfl
      · intro u; rfl
      · intro u member
        exact .inl (by simp [queue, member])
    · rename_i alive
      split
      · exact stays
      · rename_i other
        obtain ⟨offChain, notRoot⟩ :
            ¬ vm.OnChain (vm.task.tasks t).ctx ∧
              (vm.task.tasks t).ctx ≠ root := by
          rcases admissible t (by simp [queue]) alive with here | allowed
          · exact absurd here other
          · exact allowed
        have outside : (vm.task.tasks t).ctx ∉ chain := fun member =>
          offChain ⟨chain, sound.orderly.links, member⟩
        unfold Machine.executeTask
        dsimp only
        split
        · obtain ⟨stopped, switches⟩ := sound.stopTask outside notRoot
          exact Sound.good stopped (switches.trans still)
        · have free := sound.skips_eq_nil outside
          have moved := moved_enterTask other free
          refine ⟨(vm.task.tasks t).ctx :: chain, ?_, ?_⟩
          · apply sound.next moved.steady
              (moved.loopExit.trans sound.loopExit)
            · rw [moved.view]
              exact sound.orderly.enterNested outside notRoot
                (.inr ⟨t, rfl⟩)
            · intro d member
              rcases List.mem_cons.mp member with rfl | member
              · exact sound.whole.tasks t known
              · exact sound.bounded d member
            · intro u ctx old member
              rcases List.mem_cons.mp member with isTask | member
              · rw [task.injEq] at isTask
                obtain ⟨rfl, rfl, _⟩ := isTask
                exact .inr ⟨known, rfl, notRoot⟩
              · exact .inl member
          · intro s member
            rw [moved.switches, still, List.nil_append,
              List.mem_singleton] at member
            rw [member]
            exact ⟨rfl, .inl outside⟩

end Steps

end SabiRuby.Fibers
