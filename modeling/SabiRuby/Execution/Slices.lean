import Mathlib.Tactic.ByContra
import SabiRuby.Execution.Machine

/-!
# Pausing between two instructions

A slice ends at an instruction boundary, when the budget of `Vm::step` has run
out or the scheduler switches the task out.  The position is kept in the frame;
the width that a prefix left pending is kept in the loop that ends.
-/

namespace SabiRuby.Execution

variable {ω : Type}

/-- The width that the last instruction of a frame left pending. -/
def pendingExt (frame : Nat) : List Event → Nat
  | [] => 0
  | .ran f _ _ i :: events =>
      if f = frame then i.op.ext else pendingExt frame events
  | .raised f :: events =>
      if f = some frame then 0 else pendingExt frame events

/-- Each instruction is the one that the frame's code holds at its position
under the width that the frame's last instruction left. -/
def Coherent : List Event → Prop
  | [] => True
  | .ran f iseq pc i :: events =>
      decode iseq pc (pendingExt f events) = .ok i ∧ Coherent events
  | .raised _ :: events => Coherent events

theorem pendingExt_nil (frame : Nat) : pendingExt frame [] = 0 := rfl

theorem pendingExt_ran
    (frame f pc : Nat)
    (iseq : List UInt8)
    (i : Instruction)
    (events : List Event) :
    pendingExt frame (.ran f iseq pc i :: events) =
      if f = frame then i.op.ext else pendingExt frame events :=
  rfl

theorem pendingExt_raised
    (frame : Nat)
    (f : Option Nat)
    (events : List Event) :
    pendingExt frame (.raised f :: events) =
      if f = some frame then 0 else pendingExt frame events :=
  rfl

theorem coherent_nil : Coherent [] := trivial

theorem coherent_raised (f : Option Nat) (events : List Event) :
    Coherent (.raised f :: events) = Coherent events :=
  rfl

/-- The frames of a context, running or parked. -/
def Vm.framesOf (vm : Vm ω) (ctx : Nat) : List CallInfo :=
  if ctx = vm.cur then vm.ci else
    match vm.contexts[ctx]? with
    | some context => context.ci
    | none => []

/-- The next turn ends the slice: the task is switched out or the budget of a
step has run out. -/
def Machine.endsSlice (A : Arms ω) (m : Machine ω) : Bool :=
  match m.mode, m.loops with
  | .boundary, loop :: _ =>
      match m.vm.countTick A with
      | (_, true) => false
      | (vm, false) => vm.preempts || m.exhausted loop
  | _, _ => false

/-- The width pending in the innermost loop. -/
def Machine.loopExt (m : Machine ω) : Nat :=
  match m.loops with
  | loop :: _ => loop.ext
  | [] => 0

/-- A slice does not end right after a prefix. -/
def Machine.EndsWhole (A : Arms ω) (m : Machine ω) : Prop :=
  m.endsSlice A = true → m.loopExt = 0

/-- The runs of the machine, where each step is taken from an allowed state and
the host makes calls of a given kind. -/
inductive Run
    (A : Arms ω)
    (allowed : Machine ω → Prop)
    (host : Machine ω → Machine ω → Prop)
    (start : Machine ω) : Machine ω → Prop
  | start : Run A allowed host start start
  | step (m : Machine ω) :
      Run A allowed host start m → allowed m →
        Run A allowed host start (m.step A)
  | host (m m' : Machine ω) :
      Run A allowed host start m → m.loops = [] → m.mode ≠ .panicked →
        host m m' → Run A allowed host start m'

/-- The host may call `Vm::step` with any budget. -/
def StepCalls (m m' : Machine ω) : Prop :=
  ∃ budget, m' = m.stepCall budget

/-- The host may also call any other code of the VM. -/
def AnyCalls (m m' : Machine ω) : Prop :=
  StepCalls m m' ∨ ∃ outcome, m' = m.hostCall outcome

/-- The host has control and nothing has run. -/
structure Machine.Fresh (m : Machine ω) : Prop where
  loops : m.loops = []
  mode : m.mode = .native false
  trace : m.trace = []

section Boundary

section

variable (A : Arms ω) (vm : Vm ω)
include A vm

/-- A tick leaves the frames where they are. -/
theorem countTick_frame :
    (vm.countTick A).1.ci = vm.ci ∧
      (vm.countTick A).1.contexts = vm.contexts ∧
      (vm.countTick A).1.cur = vm.cur := by
  unfold Vm.countTick
  dsimp only
  split
  · split
    · split <;> exact ⟨rfl, rfl, rfl⟩
    · exact ⟨rfl, rfl, rfl⟩
  · exact ⟨rfl, rfl, rfl⟩

@[simp]
theorem countTick_ci :
    (vm.countTick A).1.ci = vm.ci :=
  (countTick_frame A vm).1

@[simp]
theorem countTick_contexts :
    (vm.countTick A).1.contexts = vm.contexts :=
  (countTick_frame A vm).2.1

@[simp]
theorem countTick_cur :
    (vm.countTick A).1.cur = vm.cur :=
  (countTick_frame A vm).2.2

theorem countTick_of_idle
    (idle : vm.task.running = false) :
    vm.countTick A = (vm, false) := by
  simp [Vm.countTick, idle]

@[simp]
theorem collect_ci :
    (vm.collect A).ci = vm.ci := by
  unfold Vm.collect
  split <;> rfl

theorem countTick_topFrame :
    (vm.countTick A).1.topFrame = vm.topFrame := by
  simp [Vm.topFrame]

theorem countTick_framesOf
    (ctx : Nat) :
    (vm.countTick A).1.framesOf ctx = vm.framesOf ctx := by
  simp [Vm.framesOf]

end

end Boundary

section Frames

/-- Switching moves the frames of the two contexts and changes none. -/
theorem switchContext_framesOf
    (vm : Vm ω)
    (target ctx : Nat)
    (curBound : vm.cur < vm.contexts.length)
    (ctxBound : ctx < vm.contexts.length) :
    (vm.switchContext target).framesOf ctx = vm.framesOf ctx := by
  unfold Vm.switchContext
  split
  · rfl
  · rename_i different
    have curEntry : vm.contexts[vm.cur]? = some vm.contexts[vm.cur] :=
      List.getElem?_eq_getElem curBound
    have ctxEntry : vm.contexts[ctx]? = some vm.contexts[ctx] :=
      List.getElem?_eq_getElem ctxBound
    by_cases targetBound : target < vm.contexts.length
    · have targetEntry :
          vm.contexts[target]? = some vm.contexts[target] :=
        List.getElem?_eq_getElem targetBound
      by_cases isTarget : ctx = target
      · subst isTarget
        simp [Vm.framesOf, Vm.swapFrames, Vm.setContext, curEntry, different,
          Ne.symm different, targetEntry]
      · by_cases isCur : ctx = vm.cur
        · subst isCur
          simp [Vm.framesOf, Vm.swapFrames, Vm.setContext, curEntry,
            different, Ne.symm different, targetEntry]
        · simp [Vm.framesOf, Vm.swapFrames, Vm.setContext, curEntry,
            different, targetEntry, isTarget, isCur, Ne.symm isTarget,
            Ne.symm isCur]
    · have targetEntry : vm.contexts[target]? = none :=
        List.getElem?_eq_none (Nat.le_of_not_lt targetBound)
      have isTarget : ctx ≠ target := by
        rintro rfl
        exact targetBound ctxBound
      by_cases isCur : ctx = vm.cur
      · subst isCur
        simp [Vm.framesOf, Vm.swapFrames, Vm.setContext, curEntry,
          different, Ne.symm different, targetEntry]
      · simp [Vm.framesOf, Vm.swapFrames, Vm.setContext, curEntry,
          different, targetEntry, isTarget, isCur, Ne.symm isTarget,
          Ne.symm isCur]

/-- A task that is switched out keeps its frames where they stand. -/
theorem suspend_framesOf
    (vm : Vm ω)
    (ctx : Nat)
    (curBound : vm.cur < vm.contexts.length)
    (ctxBound : ctx < vm.contexts.length) :
    vm.suspend.framesOf ctx = vm.framesOf ctx := by
  unfold Vm.suspend
  dsimp only
  rw [switchContext_framesOf]
  · by_cases isCur : ctx = vm.cur
    · simp [Vm.framesOf, Vm.setContext, isCur]
    · simp [Vm.framesOf, Vm.setContext, isCur, Ne.symm isCur]
  · simpa [Vm.setContext] using curBound
  · simpa [Vm.setContext] using ctxBound

/-- A task is only switched out of a context that exists. -/
theorem cur_lt_of_preempts
    (vm : Vm ω)
    (preempts : vm.preempts = true) :
    vm.cur < vm.contexts.length := by
  by_contra beyond
  have entry : vm.contexts[vm.cur]? = none :=
    List.getElem?_eq_none (Nat.le_of_not_lt beyond)
  simp [Vm.preempts, Vm.switchable, Vm.vmexec, entry] at preempts

end Frames

section Coherence

/-- The width pending for a frame, as the machine keeps it: only the innermost
loop keeps one, for the frame that runs. -/
def Machine.openExt (m : Machine ω) (frame : Nat) : Nat :=
  match m.mode with
  | .boundary => if m.vm.topFrame = some frame then m.loopExt else 0
  | _ => 0

/-- What was executed is coherent, and the machine has every pending width. -/
structure Machine.WidthKept (m : Machine ω) : Prop where
  coherent : Coherent m.trace
  pending : m.mode ≠ .panicked →
    ∀ frame, pendingExt frame m.trace = m.openExt frame

/-- A turn that leaves no width pending keeps the invariant. -/
theorem Machine.WidthKept.of_closed
    (m : Machine ω)
    (coherent : Coherent m.trace)
    (closed : ∀ frame, pendingExt frame m.trace = 0)
    (noExt : m.mode = .boundary → m.loopExt = 0) :
    m.WidthKept := by
  constructor
  · exact coherent
  · intro _ frame
    rw [closed frame]
    unfold Machine.openExt
    split
    · rename_i boundary
      rw [noExt boundary]
      simp
    · rfl

@[simp]
theorem settle_trace (m : Machine ω) : m.settle.trace = m.trace := by
  unfold Machine.settle
  split <;> rfl

@[simp]
theorem settle_mode (m : Machine ω) : m.settle.mode = m.mode := by
  unfold Machine.settle
  split <;> rfl

section

variable (m : Machine ω)
include m

@[simp]
theorem leave_trace
    (below : List Loop)
    (vm : Vm ω)
    (failed : Bool) :
    (m.leave below vm failed).trace = m.trace := by
  unfold Machine.leave
  dsimp only
  split
  · exact settle_trace _
  · rfl

@[simp]
theorem leave_mode
    (below : List Loop)
    (vm : Vm ω)
    (failed : Bool) :
    (m.leave below vm failed).mode = .native failed := by
  unfold Machine.leave
  dsimp only
  split
  · exact settle_mode _
  · rfl

@[simp]
theorem after_trace
    (loop : Loop)
    (below : List Loop)
    (outcome : Outcome ω) :
    (m.after loop below outcome).trace = m.trace := by
  cases outcome <;> simp [Machine.after, Machine.goOn]

/-- What an arm leads to has no width pending. -/
theorem after_loopExt
    (loop : Loop)
    (below : List Loop)
    (outcome : Outcome ω)
    (boundary : (m.after loop below outcome).mode = .boundary) :
    (m.after loop below outcome).loopExt = 0 := by
  cases outcome with
  | leave vm failed => simp [Machine.after] at boundary
  | next vm => rfl
  | restart vm => rfl
  | nest vm lc stopDepth => rfl

end

theorem Machine.WidthKept.execute
    (A : Arms ω)
    (m : Machine ω)
    (loop : Loop)
    (below : List Loop)
    (vm : Vm ω)
    (kept : Coherent m.trace)
    (pending : ∀ frame, pendingExt frame m.trace =
      if vm.topFrame = some frame then loop.ext else 0) :
    (m.execute A loop below vm).WidthKept := by
  unfold Machine.execute
  cases entry : vm.ci.getLast? with
  | none =>
      dsimp only
      exact ⟨kept, fun running => absurd rfl running⟩
  | some top =>
      have topFrame : vm.topFrame = some top.frame := by
        simp [Vm.topFrame, entry]
      have others : ∀ frame, frame ≠ top.frame →
          pendingExt frame m.trace = 0 := by
        intro frame other
        rw [pending, topFrame, if_neg]
        intro same
        exact other (Option.some.inj same).symm
      cases code : vm.ireps[top.irep]? with
      | none =>
          simp only [code]
          exact ⟨kept, fun running => absurd rfl running⟩
      | some iseq =>
          cases decoded : decode iseq top.pc loop.ext with
          | error e =>
              cases e with
              | outOfRange =>
                  simp only [code, decoded]
                  exact ⟨kept, fun running => absurd rfl running⟩
              | badOpcode byte =>
                  simp only [code, decoded]
                  apply Machine.WidthKept.of_closed
                  · simpa [coherent_raised] using kept
                  · intro frame
                    simp only [leave_trace, pendingExt_raised]
                    split
                    · rfl
                    · rename_i other
                      apply others frame
                      rintro rfl
                      exact other rfl
                  · simp
          | ok i =>
              have width : pendingExt top.frame m.trace = loop.ext := by
                rw [pending, topFrame, if_pos rfl]
              have coherent :
                  Coherent (.ran top.frame iseq top.pc i :: m.trace) :=
                ⟨by rw [width]; exact decoded, kept⟩
              simp only [code, decoded]
              split
              · rename_i noExt
                apply Machine.WidthKept.of_closed
                · simpa using coherent
                · intro frame
                  simp only [after_trace, pendingExt_ran]
                  split
                  · exact noExt
                  · rename_i other
                    exact others frame (Ne.symm other)
                · exact after_loopExt _ _ _ _
              · constructor
                · exact coherent
                · intro _ frame
                  simp only [Machine.goOn, pendingExt_ran, Machine.openExt,
                    Machine.loopExt, Vm.topFrame, List.getLast?_append,
                    List.getLast?_singleton, Option.some_or, Option.map_some,
                    Option.some.injEq]
                  split
                  · rfl
                  · rename_i other
                    exact others frame (Ne.symm other)

/-- One turn keeps the invariant when it does not end a slice after a
prefix. -/
theorem Machine.WidthKept.turn
    (A : Arms ω)
    (m : Machine ω)
    (loop : Loop)
    (below : List Loop)
    (kept : m.WidthKept)
    (boundary : m.mode = .boundary)
    (loops : m.loops = loop :: below)
    (whole : m.EndsWhole A) :
    (m.turn A loop below).WidthKept := by
  have pending : ∀ frame, pendingExt frame m.trace =
      if m.vm.topFrame = some frame then loop.ext else 0 := by
    intro frame
    have known := kept.pending (by simp [boundary]) frame
    simpa [Machine.openExt, boundary, Machine.loopExt, loops] using known
  have top := countTick_topFrame A m.vm
  unfold Machine.EndsWhole at whole
  simp only [Machine.endsSlice, boundary, loops, Machine.loopExt] at whole
  unfold Machine.turn
  cases ticked : m.vm.countTick A with
  | mk vm raised =>
      rw [ticked] at top whole
      cases raised with
      | true =>
          apply Machine.WidthKept.of_closed
          · simpa [coherent_raised] using kept.coherent
          · intro frame
            simp only [after_trace, pendingExt_raised]
            split
            · rfl
            · rename_i other
              rw [pending, if_neg]
              rw [← top]
              exact other
          · exact after_loopExt _ _ _ _
      | false =>
          have closed : (vm.preempts || m.exhausted loop) = true →
              ∀ frame, pendingExt frame m.trace = 0 := by
            intro ends frame
            rw [pending, whole ends]
            simp
          dsimp only
          split
          · rename_i preempts
            apply Machine.WidthKept.of_closed
            · simpa using kept.coherent
            · simpa using closed (by simp [preempts])
            · simp
          · split
            · rename_i exhausted
              apply Machine.WidthKept.of_closed
              · simpa using kept.coherent
              · simpa using closed (by simp [exhausted])
              · simp
            · apply Machine.WidthKept.execute
              · exact kept.coherent
              · intro frame
                have same : (vm.collect A).topFrame = vm.topFrame := by
                  simp [Vm.topFrame]
                rw [same, top]
                exact pending frame

theorem Machine.WidthKept.step
    (A : Arms ω)
    (m : Machine ω)
    (kept : m.WidthKept)
    (whole : m.EndsWhole A) :
    (m.step A).WidthKept := by
  unfold Machine.step
  split
  · rename_i loop below boundary loops
    exact kept.turn A m loop below boundary loops whole
  · rename_i failed loop below native loops
    apply Machine.WidthKept.of_closed
    · simpa using kept.coherent
    · intro frame
      have known := kept.pending (by simp [native]) frame
      simpa [Machine.openExt, native] using known
    · exact after_loopExt _ _ _ _
  · exact kept

/-- A call of the host keeps the invariant: its loop begins with no width
pending, and nothing was pending before. -/
theorem Machine.WidthKept.host
    (m m' : Machine ω)
    (kept : m.WidthKept)
    (loops : m.loops = [])
    (alive : m.mode ≠ .panicked)
    (calls : AnyCalls m m') :
    m'.WidthKept := by
  have closed : ∀ frame, pendingExt frame m.trace = 0 := by
    intro frame
    rw [kept.pending alive frame]
    unfold Machine.openExt Machine.loopExt
    rw [loops]
    split <;> simp
  have noExt : m.loopExt = 0 := by
    simp [Machine.loopExt, loops]
  rcases calls with ⟨budget, rfl⟩ | ⟨outcome, rfl⟩
  · unfold Machine.stepCall
    split
    · exact kept
    · exact Machine.WidthKept.of_closed _ kept.coherent closed fun _ => rfl
  · cases outcome with
    | next vm =>
        exact Machine.WidthKept.of_closed _ kept.coherent closed
          fun _ => noExt
    | restart vm =>
        exact Machine.WidthKept.of_closed _ kept.coherent closed fun _ => noExt
    | leave vm failed =>
        exact Machine.WidthKept.of_closed _ kept.coherent closed fun _ => noExt
    | nest vm lc stopDepth =>
        exact Machine.WidthKept.of_closed _ kept.coherent closed fun _ => rfl

/-- A run in which no slice ends right after a prefix keeps the invariant. -/
theorem Run.widthKept
    {start m : Machine ω}
    (fresh : start.Fresh)
    (run : Run A (Machine.EndsWhole A) AnyCalls start m) :
    m.WidthKept := by
  induction run with
  | start =>
      apply Machine.WidthKept.of_closed
      · simp [fresh.trace, coherent_nil]
      · simp [fresh.trace, pendingExt_nil]
      · simp [fresh.mode]
  | step m _ whole kept => exact kept.step A m whole
  | host m m' _ loops alive calls kept => exact kept.host m m' loops alive calls

end Coherence

section Uninterrupted

/-- So many steps of the machine with no call of the host. -/
def Machine.steps (A : Arms ω) : Nat → Machine ω → Machine ω
  | 0, m => m
  | n + 1, m => (m.steps A n).step A

/-- The loop that a step starts is the only one that ends at the bottom frame
of the root context, and no task runs in it: `execute_task` runs a task in a
loop of its own. -/
def Machine.OutermostLoop (m : Machine ω) : Prop :=
  ∀ loop below, m.loops = loop :: below →
    loop.stopDepth = 0 → loop.lc = root →
      below = [] ∧ m.vm.task.running = false

/-- Where a run in slices stands beside the uninterrupted run. -/
inductive Follows : Machine ω → Machine ω → Prop
  /-- In the same loops at the same point. -/
  | inside (s : Machine ω) (left : Nat) :
      s.loops ≠ [] → s.stepLeft = some left →
        Follows s { s with stepLeft := none }
  /-- Between two calls of `Vm::step`. -/
  | paused (s u : Machine ω) :
      s.loops = [] → u = s.uninterrupted → Follows s u
  /-- The program has finished. -/
  | finished (s u : Machine ω) :
      s.loops = [] → u.loops = [] → s.vm.ci = [] → s.trace = u.trace →
        Follows s u
  /-- The loop ended although there are frames left. -/
  | leftOver (s u : Machine ω) :
      u.loops = [] → u.vm.ci ≠ [] → u.trace <:+ s.trace → Follows s u

theorem resetToRoot_ci (vm : Vm ω) : vm.resetToRoot.ci = [] := by
  unfold Vm.resetToRoot
  split <;> rfl

/-- The end of a loop is the same with and without a budget. -/
theorem Follows.leave
    (s : Machine ω)
    (below : List Loop)
    (vm : Vm ω)
    (failed : Bool)
    (left : Nat)
    (budget : s.stepLeft = some left) :
    Follows (s.leave below vm failed)
      ({ s with stepLeft := none }.leave below vm failed) := by
  unfold Machine.leave
  cases below with
  | cons loop rest => exact .inside _ left (by simp) budget
  | nil =>
      simp only [List.isEmpty_nil, budget, Option.isSome_some, Bool.and_self,
        if_true, Option.isSome_none, Bool.and_false, Bool.false_eq_true,
        if_false]
      cases failed with
      | true =>
          apply Follows.finished
          · rfl
          · rfl
          · exact resetToRoot_ci vm
          · rfl
      | false =>
          by_cases empty : vm.ci = []
          · exact .finished _ _ rfl rfl empty rfl
          · exact .leftOver _ _ rfl empty (List.suffix_refl _)

theorem Follows.goOn
    (s : Machine ω)
    (loop : Loop)
    (below : List Loop)
    (vm : Vm ω)
    (ext left : Nat)
    (budget : s.stepLeft = some left) :
    Follows (s.goOn loop below vm ext)
      ({ s with stepLeft := none }.goOn loop below vm ext) :=
  .inside _ left (by simp [Machine.goOn]) budget

theorem Follows.after
    (s : Machine ω)
    (loop : Loop)
    (below : List Loop)
    (outcome : Outcome ω)
    (left : Nat)
    (budget : s.stepLeft = some left) :
    Follows (s.after loop below outcome)
      ({ s with stepLeft := none }.after loop below outcome) := by
  cases outcome with
  | next vm => exact Follows.goOn s loop below vm 0 left budget
  | restart vm => exact Follows.goOn s loop below vm 0 left budget
  | nest vm lc stopDepth => exact Follows.goOn s _ _ vm 0 left budget
  | leave vm failed => exact Follows.leave s below vm failed left budget

section

variable (A : Arms ω)
include A

theorem Follows.execute
    (s : Machine ω)
    (loop : Loop)
    (below : List Loop)
    (vm : Vm ω)
    (left : Nat)
    (loops : s.loops = loop :: below)
    (budget : s.stepLeft = some left) :
    Follows (s.execute A loop below vm)
      ({ s with stepLeft := none }.execute A loop below vm) := by
  have nonempty : s.loops ≠ [] := by simp [loops]
  unfold Machine.execute
  cases vm.ci.getLast? with
  | none => exact .inside _ left nonempty budget
  | some top =>
      cases code : vm.ireps[top.irep]? with
      | none =>
          simp only [code]
          exact .inside _ left nonempty budget
      | some iseq =>
          cases decoded : decode iseq top.pc loop.ext with
          | error e =>
              cases e with
              | outOfRange =>
                  simp only [code, decoded]
                  exact .inside _ left nonempty budget
              | badOpcode byte =>
                  simp only [code, decoded]
                  exact Follows.leave _ below vm true left budget
          | ok i =>
              simp only [code, decoded]
              split
              · exact Follows.after _ loop below _ left budget
              · exact Follows.goOn _ loop below _ _ left budget

/-- A turn of a sliced run is a turn of the uninterrupted one, or the pause
before it. -/
theorem Follows.turn
    (s : Machine ω)
    (loop : Loop)
    (below : List Loop)
    (left : Nat)
    (boundary : s.mode = .boundary)
    (loops : s.loops = loop :: below)
    (budget : s.stepLeft = some left)
    (whole : s.EndsWhole A)
    (outermost : s.OutermostLoop) :
    ∃ n, Follows (s.turn A loop below)
      (({ s with stepLeft := none } : Machine ω).steps A n) := by
  by_cases exhausted : s.exhausted loop = true ∧
      (s.vm.countTick A).2 = false ∧ (s.vm.countTick A).1.preempts = false
  · refine ⟨0, ?_⟩
    obtain ⟨spent, ticked, stays⟩ := exhausted
    have shape : (s.stepLeft = some 0 ∧ loop.stopDepth = 0) ∧ loop.lc = root := by
      simpa [Machine.exhausted] using spent
    obtain ⟨rfl, idle⟩ := outermost loop below loops shape.1.2 shape.2
    have same := countTick_of_idle A s.vm idle
    rw [same] at stays
    have noExt : loop.ext = 0 := by
      have ends : s.endsSlice A = true := by
        simp [Machine.endsSlice, boundary, loops, same, spent]
      simpa [Machine.loopExt, loops] using whole ends
    have loopShape : loop = { lc := root, stopDepth := 0, ext := 0 } := by
      cases loop
      simp_all
    have turned : s.turn A loop [] = s.leave [] s.vm false := by
      simp [Machine.turn, same, stays, spent]
    rw [turned]
    apply Follows.paused
    · simp [Machine.leave, budget, Machine.settle]
    · simp [Machine.steps, Machine.leave, budget, Machine.settle,
        Machine.uninterrupted, loops, loopShape, boundary]
  · refine ⟨1, ?_⟩
    have next : ({ s with stepLeft := none } : Machine ω).steps A 1 =
        ({ s with stepLeft := none } : Machine ω).turn A loop below := by
      simp [Machine.steps, Machine.step, boundary, loops]
    rw [next]
    unfold Machine.turn
    cases ticked : s.vm.countTick A with
    | mk vm raised =>
        rw [ticked] at exhausted
        cases raised with
        | true =>
            dsimp only
            exact Follows.after _ loop below _ left budget
        | false =>
            dsimp only
            split
            · exact Follows.leave s below vm.suspend false left budget
            · rename_i stays
              have unspent : s.exhausted loop = false := by
                simpa [stays] using exhausted
              have never : ({ s with stepLeft := none } : Machine ω).exhausted
                  loop = false := by
                simp [Machine.exhausted]
              simp only [unspent, never, Bool.false_eq_true, if_false]
              have kept : ({ s with stepLeft := s.stepLeft.map (· - 1) } :
                  Machine ω).stepLeft = some (left - 1) := by
                simp [budget]
              exact Follows.execute A _ loop below _ (left - 1) loops kept

theorem steps_succ
    (n : Nat)
    (m : Machine ω) :
    m.steps A (n + 1) = (m.steps A n).step A :=
  rfl

theorem steps_add
    (k n : Nat)
    (m : Machine ω) :
    m.steps A (k + n) = (m.steps A k).steps A n := by
  induction n with
  | zero => rfl
  | succ n ih => rw [Nat.add_succ, steps_succ, steps_succ, ih]

/-- Events are only added. -/
theorem trace_suffix_step
    (m : Machine ω) :
    m.trace <:+ (m.step A).trace := by
  unfold Machine.step
  split
  · unfold Machine.turn
    split
    · rw [after_trace]
      exact List.suffix_cons _ _
    · split
      · simp
      · split
        · simp
        · unfold Machine.execute
          split
          · exact List.suffix_refl _
          · split
            · exact List.suffix_refl _
            · split
              · exact List.suffix_refl _
              · simp
              · dsimp only
                split
                · rw [after_trace]
                  exact List.suffix_cons _ _
                · exact List.suffix_cons _ _
  · simp
  · exact List.suffix_refl _

theorem step_of_no_loop
    (m : Machine ω)
    (loops : m.loops = []) :
    m.step A = m := by
  unfold Machine.step
  rw [loops]
  cases m.mode <;> rfl

theorem Follows.step
    (s u : Machine ω)
    (follows : Follows s u)
    (whole : s.EndsWhole A)
    (outermost : s.OutermostLoop) :
    ∃ n, Follows (s.step A) (u.steps A n) := by
  cases follows with
  | inside left nonempty budget =>
      obtain ⟨loop, below, loops⟩ := List.exists_cons_of_ne_nil nonempty
      have modes : s.mode = .boundary ∨ (∃ failed, s.mode = .native failed) ∨
          s.mode = .panicked := by
        cases s.mode <;> simp
      rcases modes with mode | ⟨failed, mode⟩ | mode
      · have turned : s.step A = s.turn A loop below := by
          simp [Machine.step, mode, loops]
        rw [turned]
        exact Follows.turn A s loop below left mode loops budget whole
          outermost
      · refine ⟨1, ?_⟩
        have next : ∀ budget, ({ s with stepLeft := budget } :
            Machine ω).step A =
            ({ s with stepLeft := budget } : Machine ω).after loop below
              (A.native s.vm failed) := by
          simp [Machine.step, mode, loops]
        have same : s.step A = s.after loop below (A.native s.vm failed) :=
          next s.stepLeft
        rw [same]
        simp only [Machine.steps, next none]
        exact Follows.after s loop below _ left budget
      · refine ⟨0, ?_⟩
        have still : s.step A = s := by
          simp [Machine.step, mode]
        rw [still]
        exact .inside s left nonempty budget
  | paused _ loops same =>
      rw [step_of_no_loop A s loops]
      exact ⟨0, .paused s u loops same⟩
  | finished _ loops ended empty same =>
      rw [step_of_no_loop A s loops]
      exact ⟨0, .finished s u loops ended empty same⟩
  | leftOver _ ended frames shorter =>
      exact ⟨0, .leftOver _ u ended frames
        (shorter.trans (trace_suffix_step A s))⟩

end

theorem Follows.stepCall
    (s u : Machine ω)
    (budget : Nat)
    (follows : Follows s u)
    (loops : s.loops = []) :
    Follows (s.stepCall budget) u := by
  unfold Machine.stepCall
  cases follows with
  | inside left nonempty _ => exact absurd loops nonempty
  | paused _ _ same =>
      split
      · exact .paused s u loops same
      · subst same
        exact .inside _ budget (by simp) rfl
  | finished _ _ ended empty same =>
      rw [if_pos (by simp [empty])]
      exact .finished s u loops ended empty same
  | leftOver _ ended frames shorter =>
      apply Follows.leftOver _ u ended frames
      split
      · exact shorter
      · exact shorter

/-- A run in slices follows the uninterrupted one. -/
theorem Run.follows
    {start s : Machine ω}
    (fresh : start.Fresh)
    (outermost : ∀ m, Run A (Machine.EndsWhole A) StepCalls start m →
      m.OutermostLoop)
    (run : Run A (Machine.EndsWhole A) StepCalls start s) :
    ∃ n, Follows s (start.uninterrupted.steps A n) := by
  induction run with
  | start => exact ⟨0, .paused start _ fresh.loops rfl⟩
  | step m earlier whole ih =>
      obtain ⟨k, follows⟩ := ih
      obtain ⟨n, next⟩ :=
        follows.step A m _ whole (outermost m earlier)
      rw [← steps_add] at next
      exact ⟨k + n, next⟩
  | host m m' _ loops _ calls ih =>
      obtain ⟨k, follows⟩ := ih
      obtain ⟨budget, rfl⟩ := calls
      exact ⟨k, follows.stepCall m _ budget loops⟩

/-- What has been executed in slices is what the uninterrupted run executes,
unless that run ended with frames left. -/
theorem Follows.trace
    (s u : Machine ω)
    (follows : Follows s u) :
    u.trace = s.trace ∨
      (u.loops = [] ∧ u.vm.ci ≠ [] ∧ u.trace <:+ s.trace) := by
  cases follows with
  | inside left _ _ => exact .inl rfl
  | paused _ _ same =>
      subst same
      exact .inl rfl
  | finished _ _ _ _ same => exact .inl same.symm
  | leftOver _ ended frames shorter => exact .inr ⟨ended, frames, shorter⟩

end Uninterrupted

/-- The end of a slice moves no frame: each context has the frames it had, at
the same positions. -/
theorem endsSlice_framesOf
    (A : Arms ω)
    (m : Machine ω)
    (ctx : Nat)
    (ends : m.endsSlice A = true)
    (bound : ctx < m.vm.contexts.length) :
    (m.step A).vm.framesOf ctx = m.vm.framesOf ctx := by
  unfold Machine.endsSlice at ends
  cases mode : m.mode with
  | native failed => simp [mode] at ends
  | panicked => simp [mode] at ends
  | boundary =>
      cases loops : m.loops with
      | nil => simp [mode, loops] at ends
      | cons loop below =>
          simp only [mode, loops] at ends
          have frames := countTick_framesOf A m.vm ctx
          have contexts := countTick_contexts A m.vm
          simp only [Machine.step, mode, loops, Machine.turn]
          cases ticked : m.vm.countTick A with
          | mk vm raised =>
              rw [ticked] at ends frames contexts
              cases raised with
              | true => simp at ends
              | false =>
                  have kept : ∀ after : Vm ω,
                      (m.leave below after false).vm = after := by
                    intro after
                    unfold Machine.leave Machine.settle
                    dsimp only
                    split <;> rfl
                  dsimp only at ends ⊢
                  split
                  · rename_i preempts
                    rw [kept, suspend_framesOf]
                    · exact frames
                    · exact cur_lt_of_preempts vm preempts
                    · rw [contexts]
                      exact bound
                  · rename_i stays
                    simp only [stays, Bool.false_or] at ends
                    rw [if_pos ends, kept]
                    exact frames

section Examples

/-- Arms that only walk through the code, up to `STOP`. -/
def walkArms : Arms Unit where
  perform i vm := if i.op = .stop then .leave { vm with ci := [] } false
    else .next vm
  native vm failed := .leave vm failed
  raised vm := .leave vm true
  tick task rest := (task, rest)
  gcMaybe contexts rest := (contexts, rest)

/-- A started program whose second instruction has a wide operand:
`EXT1; LOADI8 256, 7; STOP`. -/
def wideProgram : Machine Unit where
  vm :=
    { ireps := [[115, 3, 1, 0, 7, 118]]
      ci := [{ frame := 0, irep := 0, pc := 0, cci := .none }]
      cur := root
      contexts := [⟨[], .running, none, false⟩]
      exc := false
      task := ⟨false, false, false, 1024, 1024⟩
      gcPending := false
      rest := () }
  loops := []
  mode := .native false
  stepLeft := none
  trace := []

/-- The machine after a call of `step` that ran to its pause. -/
def sliceOf (budget : Nat) (m : Machine Unit) : Machine Unit :=
  (m.stepCall budget).steps walkArms (budget + 1)

example : (wideProgram.uninterrupted.steps walkArms 2).trace =
    [.ran 0 [115, 3, 1, 0, 7, 118] 1 ⟨.loadi8, 256, 7, 0, 5⟩,
     .ran 0 [115, 3, 1, 0, 7, 118] 0 ⟨.ext1, 0, 0, 0, 1⟩] := by
  decide

example : (sliceOf 1 (sliceOf 1 wideProgram)).trace =
    [.ran 0 [115, 3, 1, 0, 7, 118] 1 ⟨.loadi8, 1, 0, 0, 4⟩,
     .ran 0 [115, 3, 1, 0, 7, 118] 0 ⟨.ext1, 0, 0, 0, 1⟩] := by
  decide

instance (A : Arms ω) (m : Machine ω) : Decidable (m.EndsWhole A) :=
  inferInstanceAs (Decidable (_ → _))

/-- The steps of a run between two calls of the host. -/
theorem Run.steps
    {host : Machine ω → Machine ω → Prop}
    {start m : Machine ω}
    (run : Run A allowed host start m)
    (n : Nat)
    (each : ∀ k < n, allowed (m.steps A k)) :
    Run A allowed host start (m.steps A n) := by
  induction n with
  | zero => exact run
  | succ n ih =>
      apply Run.step
      · exact ih fun k below => each k (Nat.lt_succ_of_lt below)
      · exact each n (Nat.lt_succ_self n)

/-- A call of `step` and the steps it takes are part of a run. -/
theorem Run.slice
    {host : Machine Unit → Machine Unit → Prop}
    {start m : Machine Unit}
    (calls : ∀ m m', StepCalls m m' → host m m')
    (run : Run walkArms allowed host start m)
    (budget : Nat)
    (loops : m.loops = [])
    (alive : m.mode ≠ .panicked)
    (each : ∀ k < budget + 1,
      allowed ((m.stepCall budget).steps walkArms k)) :
    Run walkArms allowed host start (sliceOf budget m) :=
  (Run.host m _ run loops alive (calls m _ ⟨budget, rfl⟩)).steps _ each

/-- What keeps a walk in one loop with no task. -/
structure Machine.Walking (m : Machine Unit) : Prop where
  loops : m.loops = [] ∨ ∃ loop, m.loops = [loop]
  running : m.vm.task.running = false

theorem Machine.Walking.outermostLoop
    (m : Machine Unit)
    (walking : m.Walking) :
    m.OutermostLoop := by
  intro loop below loops _ _
  rcases walking.loops with none | ⟨only, one⟩
  · simp [none] at loops
  · rw [one] at loops
    exact ⟨(List.cons.inj loops).2.symm, walking.running⟩

@[simp]
theorem switchContext_task
    (vm : Vm ω)
    (target : Nat) :
    (vm.switchContext target).task = vm.task := by
  have swapped : ∀ (vm : Vm ω) (ctx : Nat),
      (vm.swapFrames ctx).task = vm.task := by
    intro vm ctx
    unfold Vm.swapFrames
    split <;> rfl
  unfold Vm.switchContext
  split
  · rfl
  · simp only [Vm.setContext, swapped]

theorem resetToRoot_task (vm : Vm ω) : vm.resetToRoot.task = vm.task := by
  unfold Vm.resetToRoot
  split
  · rfl
  · rw [switchContext_task]
    rfl

theorem suspend_running (vm : Vm ω) :
    vm.suspend.task.running = vm.task.running := by
  simp [Vm.suspend, Vm.setContext]

theorem Machine.Walking.leave
    (m : Machine Unit)
    (vm : Vm Unit)
    (failed : Bool)
    (idle : vm.task.running = false) :
    (m.leave [] vm failed).Walking := by
  unfold Machine.leave Machine.settle
  dsimp only
  split
  · split
    · exact ⟨.inl rfl, by simpa [resetToRoot_task] using idle⟩
    · exact ⟨.inl rfl, idle⟩
  · exact ⟨.inl rfl, idle⟩

theorem Machine.Walking.step
    (m : Machine Unit)
    (walking : m.Walking) :
    (m.step walkArms).Walking := by
  rcases walking.loops with none | ⟨loop, one⟩
  · rw [step_of_no_loop walkArms m none]
    exact walking
  · have idle := walking.running
    unfold Machine.step
    split
    · rename_i top below _ loops
      obtain ⟨rfl, rfl⟩ := List.cons.inj (one.symm.trans loops)
      simp only [Machine.turn, countTick_of_idle walkArms m.vm idle]
      split
      · apply Machine.Walking.leave
        rw [suspend_running]
        exact idle
      · split
        · exact Machine.Walking.leave _ _ _ idle
        · have collected : (m.vm.collect walkArms).task.running = false := by
            unfold Vm.collect
            split <;> exact idle
          unfold Machine.execute
          split
          · exact ⟨.inr ⟨loop, one⟩, idle⟩
          · split
            · exact ⟨.inr ⟨loop, one⟩, idle⟩
            · split
              · exact ⟨.inr ⟨loop, one⟩, idle⟩
              · exact Machine.Walking.leave _ _ _ collected
              · dsimp only
                split
                · simp only [walkArms]
                  split
                  · exact Machine.Walking.leave _ _ _ collected
                  · exact ⟨.inr ⟨_, rfl⟩, collected⟩
                · exact ⟨.inr ⟨_, rfl⟩, collected⟩
    · rename_i failed top below _ loops
      obtain ⟨rfl, rfl⟩ := List.cons.inj (one.symm.trans loops)
      exact Machine.Walking.leave m m.vm failed idle
    · exact walking

theorem Run.walking
    {start m : Machine Unit}
    (first : start.Walking)
    (run : Run walkArms allowed StepCalls start m) :
    m.Walking := by
  induction run with
  | start => exact first
  | step m _ _ ih => exact ih.step m
  | host m m' _ _ _ calls ih =>
      obtain ⟨budget, rfl⟩ := calls
      unfold Machine.stepCall
      split
      · exact ih
      · exact ⟨.inr ⟨_, rfl⟩, ih.running⟩

end Examples

/-- Pausing is invisible as long as no slice ends right after a prefix.  In
every run, whatever the host calls, each instruction is the one the code holds
at its position under the width left in its frame, and a slice moves no frame.
In a run that the host drives with `step` alone, what has been executed is what
the uninterrupted run executes. -/
theorem slicing_is_invisible
    (A : Arms ω)
    (start s : Machine ω)
    (fresh : start.Fresh) :
    (Run A (Machine.EndsWhole A) AnyCalls start s →
      Coherent s.trace ∧
        (s.endsSlice A = true → ∀ ctx < s.vm.contexts.length,
          (s.step A).vm.framesOf ctx = s.vm.framesOf ctx)) ∧
    ((∀ m, Run A (Machine.EndsWhole A) StepCalls start m →
        m.OutermostLoop) →
      Run A (Machine.EndsWhole A) StepCalls start s →
        ∃ n, (start.uninterrupted.steps A n).trace = s.trace ∨
          ((start.uninterrupted.steps A n).loops = [] ∧
            (start.uninterrupted.steps A n).vm.ci ≠ [] ∧
            (start.uninterrupted.steps A n).trace <:+ s.trace)) := by
  constructor
  · intro run
    constructor
    · exact (run.widthKept fresh).coherent
    · intro ends ctx bound
      exact endsSlice_framesOf A s ctx ends bound
  · intro outermost run
    obtain ⟨n, follows⟩ := run.follows fresh outermost
    exact ⟨n, follows.trace s _⟩

/-- A run in two slices, the first of which ends after the wide instruction. -/
theorem wideProgram_slices_invisible :
    Coherent (sliceOf 1 (sliceOf 2 wideProgram)).trace ∧
      ∃ n, (wideProgram.uninterrupted.steps walkArms n).trace =
          (sliceOf 1 (sliceOf 2 wideProgram)).trace ∨
        ((wideProgram.uninterrupted.steps walkArms n).loops = [] ∧
          (wideProgram.uninterrupted.steps walkArms n).vm.ci ≠ [] ∧
          (wideProgram.uninterrupted.steps walkArms n).trace <:+
            (sliceOf 1 (sliceOf 2 wideProgram)).trace) := by
  have fresh : wideProgram.Fresh := ⟨rfl, rfl, rfl⟩
  have walking : wideProgram.Walking := ⟨.inl rfl, rfl⟩
  have slices : ∀ host : Machine Unit → Machine Unit → Prop,
      (∀ m m', StepCalls m m' → host m m') →
        Run walkArms (Machine.EndsWhole walkArms) host wideProgram
          (sliceOf 1 (sliceOf 2 wideProgram)) := by
    intro host calls
    apply Run.slice calls
    · exact Run.slice calls .start 2 rfl (by decide) (by decide)
    · rfl
    · decide
    · decide
  have invisible := slicing_is_invisible walkArms wideProgram
    (sliceOf 1 (sliceOf 2 wideProgram)) fresh
  constructor
  · exact (invisible.1 (slices AnyCalls fun _ _ call => .inl call)).1
  · apply invisible.2
    · intro m run
      exact (run.walking walking).outermostLoop m
    · exact slices StepCalls fun _ _ call => call

/-- A slice that ends right after `EXT1` loses the width: the instruction after
it is read with one byte for each operand, as no uninterrupted run reads it. -/
theorem width_lost_between_steps :
    Run walkArms (fun _ => True) StepCalls wideProgram
        (sliceOf 1 (sliceOf 1 wideProgram)) ∧
      ¬ Coherent (sliceOf 1 (sliceOf 1 wideProgram)).trace ∧
      ∀ n, (wideProgram.uninterrupted.steps walkArms n).trace ≠
        (sliceOf 1 (sliceOf 1 wideProgram)).trace := by
  refine ⟨?_, ?_, ?_⟩
  · apply Run.slice fun _ _ call => call
    · exact Run.slice (fun _ _ call => call) .start 1 rfl (by decide)
        fun _ _ => trivial
    · rfl
    · decide
    · exact fun _ _ => trivial
  · intro coherent
    have read : (decode [115, 3, 1, 0, 7, 118] 1 1).toOption =
        some ⟨.loadi8, 1, 0, 0, 4⟩ :=
      congrArg Except.toOption coherent.1
    revert read
    decide
  · intro n
    match n with
    | 0 => decide
    | 1 => decide
    | 2 => decide
    | k + 3 =>
        have ended : ∀ k, (wideProgram.uninterrupted.steps walkArms 3).steps
            walkArms k = wideProgram.uninterrupted.steps walkArms 3 := by
          intro k
          induction k with
          | zero => rfl
          | succ k ih =>
              rw [steps_succ, ih]
              rfl
        rw [Nat.add_comm, steps_add, ended]
        decide

end SabiRuby.Execution
