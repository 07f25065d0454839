import Mathlib.Logic.Function.Basic
import SabiRuby.Fibers.Machine
import SabiRuby.Library.LinkChain

/-!
# Who waits for whom

What the contexts promise each other, over the links, the states and the native
frames alone.  The running context heads a chain of waiting ones, and every loop
on the host stack is anchored at a context of that chain.
-/

namespace SabiRuby.Fibers

open Activation

open Execution (FiberState root)
open Library (LinkChain)

/-- The running context, and of every context the one it returns to, its state,
whether a nested loop runs it, and the depths of its native frames. -/
structure View where
  cur : Nat
  prev : Nat → Option Nat
  status : Nat → FiberState
  vmexec : Nat → Bool
  natives : Nat → List Nat

/-- The depths of the loops that calls of native code started in a context, the
innermost first. -/
def stops (c : Nat) : List Activation → List Nat
  | [] => []
  | .call lc stopDepth _ :: acts =>
      if lc = c ∧ stopDepth ≠ 0 then stopDepth :: stops c acts
      else stops c acts
  | _ :: acts => stops c acts

/-- No context of the chain is run by a nested loop of its own. -/
def Plain (vmexec : Nat → Bool) (chain : List Nat) : Prop :=
  ∀ c ∈ chain, vmexec c = false

/-- A nested loop runs the context `c` for `old`, which follows it. -/
def RunsFor
    (vmexec : Nat → Bool)
    (chain : List Nat)
    (c old : Nat)
    (behind : List Nat) : Prop :=
  ∃ front,
    chain = front ++ c :: old :: behind ∧ Plain vmexec front ∧ vmexec c = true

/-- Every activation stands at a context of the chain: a native at the running
one, a loop at the context it runs, with no other nested loop before it. -/
def Anchored (vmexec : Nat → Bool) : List Nat → List Activation → Prop
  | chain, [] => Plain vmexec chain
  | chain, .native ctx _ _ :: acts =>
      chain.head? = some ctx ∧ Anchored vmexec chain acts
  | chain, .taskRun :: acts => Anchored vmexec chain acts
  | chain, .call lc stopDepth _ :: acts =>
      if stopDepth = 0 then lc = root ∧ Plain vmexec chain ∧ acts = []
      else
        ∃ front behind,
          chain = front ++ lc :: behind ∧ Plain vmexec front ∧
            Anchored vmexec (lc :: behind) acts
  | chain, .resume c old :: acts =>
      ∃ behind,
        RunsFor vmexec chain c old behind ∧ Anchored vmexec (old :: behind) acts
  | chain, .task _ c old :: acts =>
      ∃ behind,
        RunsFor vmexec chain c old behind ∧ Anchored vmexec (old :: behind) acts
  | chain, .host :: acts => Plain vmexec chain ∧ acts = []

/-- The promises, for the chain of the running context. -/
structure Orderly
    (v : View)
    (acts : List Activation)
    (chain : List Nat) : Prop where
  links : LinkChain v.prev v.cur chain
  nodup : chain.Nodup
  waiting : ∀ c ∈ chain, c ≠ v.cur → v.status c = .resumed
  running :
    v.status v.cur = .running ∨ v.cur = root ∧ v.status root = .created
  only : ∀ c, c ≠ v.cur → v.status c ≠ .running
  rootPrev : v.prev root = none
  rootStatus :
    v.cur ≠ root → v.status root = .resumed ∨ v.status root = .transferred
  nested : ∀ c, v.vmexec c = true → c ∈ chain
  anchored : Anchored v.vmexec chain acts
  natives : ∀ c, v.natives c = stops c acts

section Anchors

variable
  {vmexec vmexec' : Nat → Bool}
  {chain front behind : List Nat}
  {acts : List Activation}
  {c x old : Nat}

/-- What anchors the loop of a call. -/
theorem anchored_call (stopDepth base : Nat) :
    Anchored vmexec chain (.call c stopDepth base :: acts) =
      if stopDepth = 0 then c = root ∧ Plain vmexec chain ∧ acts = []
      else
        ∃ front behind,
          chain = front ++ c :: behind ∧ Plain vmexec front ∧
            Anchored vmexec (c :: behind) acts :=
  rfl

@[simp] theorem stops_nil : stops c [] = [] := rfl

@[simp] theorem stops_call (stopDepth base : Nat) :
    stops c (.call x stopDepth base :: acts) =
      if x = c ∧ stopDepth ≠ 0 then stopDepth :: stops c acts
      else stops c acts :=
  rfl

@[simp] theorem stops_resume :
    stops c (.resume x old :: acts) = stops c acts :=
  rfl

@[simp] theorem stops_task (t : Nat) :
    stops c (.task t x old :: acts) = stops c acts :=
  rfl

@[simp] theorem stops_host : stops c (.host :: acts) = stops c acts := rfl

theorem Plain.congr
    (plain : Plain vmexec chain)
    (agree : ∀ c ∈ chain, vmexec' c = vmexec c) :
    Plain vmexec' chain := by
  intro c member
  rw [agree c member, plain c member]

theorem RunsFor.congr
    (runs : RunsFor vmexec chain c old behind)
    (agree : ∀ c ∈ chain, vmexec' c = vmexec c) :
    RunsFor vmexec' chain c old behind := by
  obtain ⟨front, rfl, plain, nested⟩ := runs
  refine ⟨front, rfl, ?_, ?_⟩
  · apply plain.congr
    intro d member
    exact agree d (by simp [member])
  · rw [agree c (by simp), nested]

/-- Which contexts are run by nested loops matters on the chain only. -/
theorem Anchored.congr
    (anchored : Anchored vmexec chain acts)
    (agree : ∀ c ∈ chain, vmexec' c = vmexec c) :
    Anchored vmexec' chain acts := by
  induction acts generalizing chain with
  | nil => exact Plain.congr anchored agree
  | cons act acts hypothesis =>
      cases act with
      | native ctx retReg looks =>
          exact ⟨anchored.1, hypothesis anchored.2 agree⟩
      | taskRun => exact @hypothesis chain anchored agree
      | call lc stopDepth base =>
          by_cases idle : stopDepth = 0
          · simp only [anchored_call, if_pos idle] at anchored ⊢
            exact ⟨anchored.1, anchored.2.1.congr agree, anchored.2.2⟩
          · simp only [anchored_call, if_neg idle] at anchored ⊢
            obtain ⟨front, behind, rfl, plain, rest⟩ := anchored
            refine ⟨front, behind, rfl, ?_, ?_⟩
            · apply plain.congr
              intro d member
              exact agree d (by simp [member])
            · apply hypothesis rest
              intro d member
              exact agree d (List.mem_append_right front member)
      | resume c old =>
          obtain ⟨behind, runs, rest⟩ := anchored
          refine ⟨behind, runs.congr agree, hypothesis rest ?_⟩
          obtain ⟨front, rfl, _, _⟩ := runs
          intro d member
          exact agree d (by simp [List.mem_cons.mp member])
      | task t c old =>
          obtain ⟨behind, runs, rest⟩ := anchored
          refine ⟨behind, runs.congr agree, hypothesis rest ?_⟩
          obtain ⟨front, rfl, _, _⟩ := runs
          intro d member
          exact agree d (by simp [List.mem_cons.mp member])
      | host => exact ⟨anchored.1.congr agree, anchored.2⟩

/-- A call's loop stands at a context of the chain. -/
theorem Anchored.stops_eq_nil
    (anchored : Anchored vmexec chain acts)
    (outside : c ∉ chain) :
    stops c acts = [] := by
  induction acts generalizing chain with
  | nil => rfl
  | cons act acts hypothesis =>
      cases act with
      | native ctx retReg looks => exact hypothesis anchored.2 outside
      | taskRun => exact @hypothesis chain anchored outside
      | call lc stopDepth base =>
          by_cases idle : stopDepth = 0
          · simp only [anchored_call, if_pos idle] at anchored
            simp [idle, anchored.2.2]
          · simp only [anchored_call, if_neg idle] at anchored
            obtain ⟨front, behind, rfl, _, rest⟩ := anchored
            have different : lc ≠ c := by
              intro same
              exact outside (by simp [same])
            have outside' : c ∉ lc :: behind := fun member =>
              outside (List.mem_append_right front member)
            simp [different, hypothesis rest outside']
      | resume d old =>
          obtain ⟨behind, ⟨front, rfl, _, _⟩, rest⟩ := anchored
          apply hypothesis rest
          intro member
          exact outside (by simp [List.mem_cons.mp member])
      | task t d old =>
          obtain ⟨behind, ⟨front, rfl, _, _⟩, rest⟩ := anchored
          apply hypothesis rest
          intro member
          exact outside (by simp [List.mem_cons.mp member])
      | host =>
          simp [anchored.2]

variable {act : Activation}

/-- A context with no loop of its own may head the chain. -/
theorem Anchored.enter
    (anchored : Anchored vmexec chain (act :: acts))
    (isLoop : act.loop?.isSome)
    (plain : vmexec c = false) :
    Anchored vmexec (c :: chain) (act :: acts) := by
  have extend : ∀ {front}, Plain vmexec front → Plain vmexec (c :: front) := by
    intro front frontPlain d member
    rcases List.mem_cons.mp member with rfl | member
    · exact plain
    · exact frontPlain d member
  cases act with
  | native ctx retReg looks => simp [loop?] at isLoop
  | taskRun => simp [loop?] at isLoop
  | call lc stopDepth base =>
      by_cases idle : stopDepth = 0
      · simp only [anchored_call, if_pos idle] at anchored ⊢
        exact ⟨anchored.1, extend anchored.2.1, anchored.2.2⟩
      · simp only [anchored_call, if_neg idle] at anchored ⊢
        obtain ⟨front, behind, rfl, frontPlain, rest⟩ := anchored
        exact ⟨c :: front, behind, rfl, extend frontPlain, rest⟩
  | resume d old =>
      obtain ⟨behind, ⟨front, rfl, frontPlain, nested⟩, rest⟩ := anchored
      exact ⟨behind, ⟨c :: front, rfl, extend frontPlain, nested⟩, rest⟩
  | task t d old =>
      obtain ⟨behind, ⟨front, rfl, frontPlain, nested⟩, rest⟩ := anchored
      exact ⟨behind, ⟨c :: front, rfl, extend frontPlain, nested⟩, rest⟩
  | host => exact ⟨extend anchored.1, anchored.2⟩

/-- A context with no loop of its own may leave the chain. -/
theorem Anchored.leave_plain
    (anchored : Anchored vmexec (x :: chain) (act :: acts))
    (isLoop : act.loop?.isSome)
    (plain : vmexec x = false)
    (free : stops x (act :: acts) = []) :
    Anchored vmexec chain (act :: acts) := by
  cases act with
  | native ctx retReg looks => simp [loop?] at isLoop
  | taskRun => simp [loop?] at isLoop
  | call lc stopDepth base =>
      by_cases idle : stopDepth = 0
      · simp only [anchored_call, if_pos idle] at anchored ⊢
        refine ⟨anchored.1, ?_, anchored.2.2⟩
        intro d member
        exact anchored.2.1 d (List.mem_cons_of_mem x member)
      · simp only [anchored_call, if_neg idle] at anchored ⊢
        obtain ⟨front, behind, split, frontPlain, rest⟩ := anchored
        cases front with
        | nil =>
            have same : lc = x := (List.cons.inj split).1.symm
            simp [same, idle] at free
        | cons y front =>
            refine ⟨front, behind, (List.cons.inj split).2, ?_, rest⟩
            intro d member
            exact frontPlain d (List.mem_cons_of_mem y member)
  | resume d old =>
      obtain ⟨behind, ⟨front, split, frontPlain, nested⟩, rest⟩ := anchored
      cases front with
      | nil =>
          rw [← (List.cons.inj split).1, plain] at nested
          simp at nested
      | cons y front =>
          refine ⟨behind, ⟨front, (List.cons.inj split).2, ?_, nested⟩, rest⟩
          intro e member
          exact frontPlain e (List.mem_cons_of_mem y member)
  | task t d old =>
      obtain ⟨behind, ⟨front, split, frontPlain, nested⟩, rest⟩ := anchored
      cases front with
      | nil =>
          rw [← (List.cons.inj split).1, plain] at nested
          simp at nested
      | cons y front =>
          refine ⟨behind, ⟨front, (List.cons.inj split).2, ?_, nested⟩, rest⟩
          intro e member
          exact frontPlain e (List.mem_cons_of_mem y member)
  | host =>
      refine ⟨?_, anchored.2⟩
      intro d member
      exact anchored.1 d (List.mem_cons_of_mem x member)

/-- The innermost loop is the one that runs the head of the chain, when a
nested loop runs it. -/
theorem Anchored.leave_nested
    (anchored : Anchored vmexec (x :: chain) (act :: acts))
    (isLoop : act.loop?.isSome)
    (nested : vmexec x = true)
    (free : stops x (act :: acts) = []) :
    ∃ old behind,
      chain = old :: behind ∧ Anchored vmexec chain acts ∧
        (act = .resume x old ∨ ∃ t, act = .task t x old) := by
  have notPlain : ∀ {front}, x ∈ front → ¬ Plain vmexec front := by
    intro front member frontPlain
    simpa [nested] using frontPlain x member
  cases act with
  | native ctx retReg looks => simp [loop?] at isLoop
  | taskRun => simp [loop?] at isLoop
  | call lc stopDepth base =>
      by_cases idle : stopDepth = 0
      · simp only [anchored_call, if_pos idle] at anchored
        exact absurd anchored.2.1 (notPlain (by simp))
      · simp only [anchored_call, if_neg idle] at anchored
        obtain ⟨front, behind, split, frontPlain, rest⟩ := anchored
        cases front with
        | nil =>
            have same : lc = x := (List.cons.inj split).1.symm
            simp [same, idle] at free
        | cons y front =>
            have same : x = y := (List.cons.inj split).1
            exact absurd frontPlain (notPlain (by simp [same]))
  | resume d old =>
      obtain ⟨behind, ⟨front, split, frontPlain, _⟩, rest⟩ := anchored
      cases front with
      | nil =>
          obtain ⟨rfl, rfl⟩ := List.cons.inj split
          exact ⟨old, behind, rfl, rest, .inl rfl⟩
      | cons y front =>
          have same : x = y := (List.cons.inj split).1
          exact absurd frontPlain (notPlain (by simp [same]))
  | task t d old =>
      obtain ⟨behind, ⟨front, split, frontPlain, _⟩, rest⟩ := anchored
      cases front with
      | nil =>
          obtain ⟨rfl, rfl⟩ := List.cons.inj split
          exact ⟨old, behind, rfl, rest, .inr ⟨t, rfl⟩⟩
      | cons y front =>
          have same : x = y := (List.cons.inj split).1
          exact absurd frontPlain (notPlain (by simp [same]))
  | host => exact absurd anchored.1 (notPlain (by simp))

/-- With no nested loop and no native frame on the chain, the innermost loop is
the host's. -/
theorem Anchored.bottom
    (anchored : Anchored vmexec chain (act :: acts))
    (isLoop : act.loop?.isSome)
    (plain : Plain vmexec chain)
    (free : ∀ d ∈ chain, stops d (act :: acts) = []) :
    acts = [] ∧ act.loop? = some (root, 0) ∧
      ∀ chain', Plain vmexec chain' → Anchored vmexec chain' (act :: acts) := by
  cases act with
  | native ctx retReg looks => simp [loop?] at isLoop
  | taskRun => simp [loop?] at isLoop
  | call lc stopDepth base =>
      by_cases idle : stopDepth = 0
      · simp only [anchored_call, if_pos idle] at anchored ⊢
        refine ⟨anchored.2.2, ?_, ?_⟩
        · rw [loop?, anchored.1, idle]
        · intro chain' plain'
          exact ⟨anchored.1, plain', anchored.2.2⟩
      · simp only [anchored_call, if_neg idle] at anchored
        obtain ⟨front, behind, rfl, _, _⟩ := anchored
        simpa [stops, idle] using free lc (by simp)
  | resume d old =>
      obtain ⟨behind, ⟨front, rfl, _, nested⟩, _⟩ := anchored
      simp [plain d (by simp)] at nested
  | task t d old =>
      obtain ⟨behind, ⟨front, rfl, _, nested⟩, _⟩ := anchored
      simp [plain d (by simp)] at nested
  | host => exact ⟨anchored.2, rfl, fun _ plain' => ⟨plain', anchored.2⟩⟩

/-- The innermost loop is the one that the topmost native frame of the running
context waits for. -/
theorem Anchored.innermost
    (anchored : Anchored vmexec (x :: chain) (act :: acts))
    (isLoop : act.loop?.isSome)
    (nodup : (x :: chain).Nodup)
    (called : stops x (act :: acts) = depth :: depths) :
    act.loop? = some (x, depth) ∧ Anchored vmexec (x :: chain) acts ∧
      stops x acts = depths ∧
      (∀ d, d ≠ x → stops d (act :: acts) = stops d acts) := by
  have outside : x ∉ chain := (List.nodup_cons.mp nodup).1
  cases act with
  | native ctx retReg looks => simp [loop?] at isLoop
  | taskRun => simp [loop?] at isLoop
  | call lc stopDepth base =>
      by_cases idle : stopDepth = 0
      · simp only [anchored_call, if_pos idle] at anchored
        simp [idle, anchored.2.2] at called
      · simp only [anchored_call, if_neg idle] at anchored
        obtain ⟨front, behind, split, _, rest⟩ := anchored
        cases front with
        | nil =>
            obtain ⟨rfl, rfl⟩ := List.cons.inj split
            simp only [stops_call, ne_eq, idle, not_false_eq_true, and_self,
              if_true, List.cons.injEq] at called
            obtain ⟨rfl, rfl⟩ := called
            refine ⟨rfl, rest, rfl, ?_⟩
            intro d different
            simp [Ne.symm different]
        | cons y front =>
            obtain ⟨rfl, rfl⟩ := List.cons.inj split
            have different : lc ≠ x := by
              intro same
              exact outside (by simp [same])
            have none : stops x acts = [] := by
              apply rest.stops_eq_nil
              intro member
              exact outside (List.mem_append_right front member)
            simp [different, none] at called
  | resume d old =>
      obtain ⟨behind, ⟨front, split, _, _⟩, rest⟩ := anchored
      have none : stops x acts = [] := by
        apply rest.stops_eq_nil
        intro member
        apply outside
        cases front with
        | nil =>
            obtain ⟨rfl, rfl⟩ := List.cons.inj split
            exact member
        | cons y front =>
            rw [(List.cons.inj split).2]
            simp [List.mem_cons.mp member]
      rw [stops_resume, none] at called
      cases called
  | task t d old =>
      obtain ⟨behind, ⟨front, split, _, _⟩, rest⟩ := anchored
      have none : stops x acts = [] := by
        apply rest.stops_eq_nil
        intro member
        apply outside
        cases front with
        | nil =>
            obtain ⟨rfl, rfl⟩ := List.cons.inj split
            exact member
        | cons y front =>
            rw [(List.cons.inj split).2]
            simp [List.mem_cons.mp member]
      rw [stops_task, none] at called
      cases called
  | host => simp [anchored.2] at called

end Anchors

open Function (update)

/-- The running context resumes another. -/
def View.enter (v : View) (c : Nat) (nested : Bool) : View :=
  { cur := c
    prev := update v.prev c (some v.cur)
    status := update (update v.status v.cur .resumed) c .running
    vmexec := if nested then update v.vmexec c true else v.vmexec
    natives := v.natives }

/-- The running context goes back to another, in a state of its own. -/
def View.back (v : View) (left : FiberState) (target : Nat) : View :=
  { cur := target
    prev := update v.prev v.cur none
    status := update (update v.status v.cur left) target .running
    vmexec := update v.vmexec v.cur false
    natives := v.natives }

/-- The running context hands over to another for good. -/
def View.transfer (v : View) (c : Nat) : View :=
  { cur := c
    prev := update v.prev c none
    status := update (update v.status v.cur .transferred) c .running
    vmexec := v.vmexec
    natives := v.natives }

/-- The depths of the native frames of the running context change. -/
def View.withNatives (v : View) (depths : List Nat) : View :=
  { v with natives := update v.natives v.cur depths }

/-- A context is created. -/
def View.fresh (v : View) (c : Nat) : View :=
  { v with
    prev := update v.prev c none
    status := update v.status c .created
    vmexec := update v.vmexec c false
    natives := update v.natives c [] }

/-- A context is given up. -/
def View.stopped (v : View) (c : Nat) : View :=
  { v with
    status := update v.status c .terminated
    natives := update v.natives c [] }

section Moves

variable
  {v : View}
  {act : Activation}
  {acts : List Activation}
  {chain : List Nat}
  {c : Nat}

section

variable (orderly : Orderly v acts chain)
include orderly

/-- The chain is that of the running context. -/
theorem Orderly.exists_eq_cons :
    ∃ rest, chain = v.cur :: rest :=
  orderly.links.exists_eq_cons

/-- A context that is not running and does not wait is not on the chain. -/
theorem Orderly.not_mem
    (notCurrent : c ≠ v.cur)
    (notWaiting : v.status c ≠ .resumed) :
    c ∉ chain :=
  fun member => notWaiting (orderly.waiting c member notCurrent)

/-- Everything about a resume but the activations. -/
theorem Orderly.entered
    (nested : Bool)
    (outside : c ∉ chain)
    (notRoot : c ≠ root)
    (acts' : List Activation)
    (anchored : Anchored (v.enter c nested).vmexec (c :: chain) acts')
    (sameStops : ∀ d, stops d acts' = stops d acts) :
    Orderly (v.enter c nested) acts' (c :: chain) where
  links := by
    apply LinkChain.link c v.cur chain
    · simp [View.enter]
    · apply orderly.links.congr
      intro d member
      have different : d ≠ c := fun same => outside (same ▸ member)
      simp [View.enter, different]
  nodup := List.nodup_cons.mpr ⟨outside, orderly.nodup⟩
  waiting := by
    intro d member different
    have onChain : d ∈ chain := by
      rcases List.mem_cons.mp member with same | member
      · exact absurd same different
      · exact member
    have different : d ≠ c := different
    by_cases current : d = v.cur
    · simp [View.enter, current, current ▸ different]
    · simp [View.enter, different, current,
        orderly.waiting d onChain current]
  running := .inl (by simp [View.enter])
  only := by
    intro d different
    have different : d ≠ c := different
    by_cases current : d = v.cur
    · simp [View.enter, current, current ▸ different]
    · simpa [View.enter, different, current] using orderly.only d current
  rootPrev := by
    simpa [View.enter, Ne.symm notRoot] using orderly.rootPrev
  rootStatus := by
    intro _
    by_cases current : root = v.cur
    · simp [View.enter, current, current ▸ Ne.symm notRoot]
    · simpa [View.enter, Ne.symm notRoot, current] using
        orderly.rootStatus (Ne.symm current)
  nested := by
    intro d isNested
    by_cases same : d = c
    · simp [same]
    · apply List.mem_cons_of_mem
      apply orderly.nested d
      cases nested with
      | false => simpa [View.enter] using isNested
      | true => simpa [View.enter, same] using isNested
  anchored := anchored
  natives := by
    intro d
    rw [sameStops d, ← orderly.natives d]
    rfl

end

/-- A resume inside the loop. -/
theorem Orderly.enter
    (orderly : Orderly v (act :: acts) chain)
    (isLoop : act.loop?.isSome)
    (outside : c ∉ chain)
    (notRoot : c ≠ root) :
    Orderly (v.enter c false) (act :: acts) (c :: chain) := by
  apply orderly.entered false outside notRoot
  · apply orderly.anchored.enter isLoop
    cases isNested : v.vmexec c with
    | false => rfl
    | true => exact absurd (orderly.nested c isNested) outside
  · intro d
    rfl

/-- A resume that a nested loop runs. -/
theorem Orderly.enterNested
    (orderly : Orderly v acts chain)
    (outside : c ∉ chain)
    (notRoot : c ≠ root)
    (isResume : act = .resume c v.cur ∨ ∃ t, act = .task t c v.cur) :
    Orderly (v.enter c true) (act :: acts) (c :: chain) := by
  obtain ⟨rest, rfl⟩ := orderly.exists_eq_cons
  have runs :
      RunsFor (v.enter c true).vmexec (c :: v.cur :: rest) c v.cur rest :=
    ⟨[], rfl, by simp [Plain], by simp [View.enter]⟩
  have anchored :
      Anchored (v.enter c true).vmexec (v.cur :: rest) acts := by
    apply orderly.anchored.congr
    intro d member
    have different : d ≠ c := fun same => outside (same ▸ member)
    simp [View.enter, different]
  apply orderly.entered true outside notRoot
  · rcases isResume with rfl | ⟨t, rfl⟩
    · exact ⟨rest, runs, anchored⟩
    · exact ⟨rest, runs, anchored⟩
  · intro d
    rcases isResume with rfl | ⟨t, rfl⟩
    · rfl
    · rfl

/-- Everything about a context going back to the one that waits for it but the
activations. -/
theorem Orderly.wentBack
    (orderly : Orderly v acts (v.cur :: p :: rest))
    (left : FiberState)
    (notRunning : left ≠ .running)
    (acts' : List Activation)
    (anchored : Anchored v.vmexec (p :: rest) acts')
    (sameStops : ∀ d, stops d acts' = stops d acts) :
    Orderly (v.back left p) acts' (p :: rest) where
  links := by
    have linked : v.prev v.cur = some p := by
      cases orderly.links with
      | link _ y _ linked behind =>
          obtain ⟨tail, split⟩ := behind.exists_eq_cons
          rw [linked, (List.cons.inj split).1]
    apply (orderly.links.tail_of_some linked).congr
    intro d member
    have different : d ≠ v.cur := fun same =>
      (List.nodup_cons.mp orderly.nodup).1 (same ▸ member)
    simp [View.back, different]
  nodup := (List.nodup_cons.mp orderly.nodup).2
  waiting := by
    intro d member different
    have different : d ≠ p := different
    have notCurrent : d ≠ v.cur := fun same =>
      (List.nodup_cons.mp orderly.nodup).1 (same ▸ member)
    simpa [View.back, different, notCurrent] using
      orderly.waiting d (List.mem_cons_of_mem v.cur member) notCurrent
  running := .inl (by simp [View.back])
  only := by
    intro d different
    have different : d ≠ p := different
    by_cases current : d = v.cur
    · simp [View.back, current, current ▸ different, notRunning]
    · simpa [View.back, different, current] using orderly.only d current
  rootPrev := by
    by_cases current : root = v.cur
    · simp [View.back, current]
    · simpa [View.back, current] using orderly.rootPrev
  rootStatus := by
    intro notRoot
    have notRoot : p ≠ root := notRoot
    have notCurrent : v.cur ≠ root := by
      intro current
      cases orderly.links with
      | link _ y _ linked behind =>
          rw [current, orderly.rootPrev] at linked
          simp at linked
    simpa [View.back, Ne.symm notRoot, Ne.symm notCurrent] using
      orderly.rootStatus notCurrent
  nested := by
    intro d isNested
    have notCurrent : d ≠ v.cur := by
      intro same
      simp [View.back, same] at isNested
    have isNested : v.vmexec d = true := by
      simpa [View.back, notCurrent] using isNested
    rcases List.mem_cons.mp (orderly.nested d isNested) with same | member
    · exact absurd same notCurrent
    · exact member
  anchored := by
    apply anchored.congr
    intro d member
    have different : d ≠ v.cur := fun same =>
      (List.nodup_cons.mp orderly.nodup).1 (same ▸ member)
    simp [View.back, different]
  natives := by
    intro d
    rw [sameStops d, ← orderly.natives d]
    rfl

/-- The context that the running one returns to follows it. -/
theorem Orderly.chain_eq
    (orderly : Orderly v acts chain)
    (linked : v.prev v.cur = some p) :
    ∃ rest, chain = v.cur :: p :: rest := by
  obtain ⟨rest, rfl⟩ := orderly.exists_eq_cons
  obtain ⟨behind, rfl⟩ :=
    (orderly.links.tail_of_some linked).exists_eq_cons
  exact ⟨behind, rfl⟩

/-- No context returns to itself. -/
theorem Orderly.prev_ne_self
    (orderly : Orderly v acts chain) :
    v.prev v.cur ≠ some v.cur := by
  intro linked
  obtain ⟨rest, rfl⟩ := orderly.chain_eq linked
  exact absurd orderly.nodup (by simp)

variable {left : FiberState}

section

variable (orderly : Orderly v (act :: acts) chain)
include orderly

/-- A context that no nested loop runs goes back inside the loop. -/
theorem Orderly.backPlain
    (isLoop : act.loop?.isSome)
    (linked : v.prev v.cur = some p)
    (plain : v.vmexec v.cur = false)
    (free : v.natives v.cur = [])
    (notRunning : left ≠ .running) :
    ∃ chain',
      chain = v.cur :: chain' ∧
        Orderly (v.back left p) (act :: acts) chain' := by
  obtain ⟨rest, rfl⟩ := orderly.chain_eq linked
  refine ⟨p :: rest, rfl,
    orderly.wentBack left notRunning (act :: acts) ?_ ?_⟩
  · apply orderly.anchored.leave_plain isLoop plain
    rw [← orderly.natives, free]
  · intro d
    rfl

/-- A context that a nested loop runs goes back by ending that loop. -/
theorem Orderly.backNested
    (isLoop : act.loop?.isSome)
    (nested : v.vmexec v.cur = true)
    (free : v.natives v.cur = [])
    (notRunning : left ≠ .running) :
    ∃ p,
      v.prev v.cur = some p ∧
        (act = .resume v.cur p ∨ ∃ t, act = .task t v.cur p) ∧
          ∃ chain',
            chain = v.cur :: chain' ∧ Orderly (v.back left p) acts chain' := by
  obtain ⟨rest, rfl⟩ := orderly.exists_eq_cons
  have unoccupied : stops v.cur (act :: acts) = [] := by
    rw [← orderly.natives, free]
  obtain ⟨p, behind, rfl, anchored, isResume⟩ :=
    orderly.anchored.leave_nested isLoop nested unoccupied
  refine ⟨p, ?_, isResume, p :: behind, rfl, ?_⟩
  · cases orderly.links with
    | link _ y _ linked rest =>
        obtain ⟨tail, split⟩ := rest.exists_eq_cons
        rw [linked, (List.cons.inj split).1]
  · apply orderly.wentBack left notRunning acts anchored
    intro d
    rcases isResume with rfl | ⟨t, rfl⟩
    · rfl
    · rfl

/-- A context that nobody resumed ends: the root goes on. -/
theorem Orderly.backRoot
    (isLoop : act.loop?.isSome)
    (ends : v.prev v.cur = none)
    (notRoot : v.cur ≠ root)
    (free : v.natives v.cur = [])
    (notRunning : left ≠ .running) :
    v.vmexec v.cur = false ∧
      Orderly (v.back left root) (act :: acts) [root] := by
  obtain ⟨rest, rfl⟩ := orderly.exists_eq_cons
  have alone : rest = [] := orderly.links.tail_of_none ends
  subst alone
  have unoccupied : stops v.cur (act :: acts) = [] := by
    rw [← orderly.natives, free]
  have plain : v.vmexec v.cur = false := by
    cases nested : v.vmexec v.cur with
    | false => rfl
    | true =>
        obtain ⟨_, _, split, _⟩ :=
          orderly.anchored.leave_nested isLoop nested unoccupied
        simp at split
  have noneNested : ∀ d, v.vmexec d = false := by
    intro d
    cases nested : v.vmexec d with
    | false => rfl
    | true =>
        have same : d = v.cur := by simpa using orderly.nested d nested
        rw [← nested, same, plain]
  obtain ⟨_, _, anywhere⟩ :=
    orderly.anchored.bottom isLoop (fun d _ => noneNested d) (by
      intro d member
      rw [List.mem_singleton.mp member, unoccupied])
  refine ⟨plain, ?_⟩
  exact
    { links := by
        apply LinkChain.last
        simpa [View.back, Ne.symm notRoot] using orderly.rootPrev
      nodup := by simp
      waiting := by
        intro d member different
        exact absurd (List.mem_singleton.mp member) different
      running := .inl (by simp [View.back])
      only := by
        intro d different
        have different : d ≠ root := different
        by_cases current : d = v.cur
        · simp [View.back, current, notRoot, notRunning]
        · simpa [View.back, different, current] using orderly.only d current
      rootPrev := by
        simpa [View.back, Ne.symm notRoot] using orderly.rootPrev
      rootStatus := fun different => absurd rfl different
      nested := by
        intro d isNested
        by_cases current : d = v.cur
        · simp [View.back, current] at isNested
        · simp [View.back, current, noneNested] at isNested
      anchored := by
        apply (anywhere [root] (fun d _ => noneNested d)).congr
        intro d member
        rw [List.mem_singleton.mp member]
        simp [View.back, Ne.symm notRoot]
      natives := orderly.natives }

/-- A context that native code does not wait for, on a chain where it waits for
none, hands over to one outside the chain. -/
theorem Orderly.transfer
    (isLoop : act.loop?.isSome)
    (outside : c ∉ chain)
    (plain : Plain v.vmexec chain)
    (free : ∀ d ∈ chain, v.natives d = []) :
    Orderly (v.transfer c) (act :: acts) [c] := by
  have noneNested : ∀ d, v.vmexec d = false := by
    intro d
    cases nested : v.vmexec d with
    | false => rfl
    | true => rw [← nested, plain d (orderly.nested d nested)]
  have different : c ≠ v.cur := fun same =>
    outside (same ▸ orderly.links.mem_self)
  obtain ⟨_, _, anywhere⟩ :=
    orderly.anchored.bottom isLoop plain (by
      intro d member
      rw [← orderly.natives, free d member])
  exact
    { links := by
        apply LinkChain.last
        simp [View.transfer]
      nodup := by simp
      waiting := by
        intro d member notCurrent
        exact absurd (List.mem_singleton.mp member) notCurrent
      running := .inl (by simp [View.transfer])
      only := by
        intro d notEntered
        have notEntered : d ≠ c := notEntered
        by_cases current : d = v.cur
        · simp [View.transfer, current, Ne.symm different]
        · simpa [View.transfer, notEntered, current] using
            orderly.only d current
      rootPrev := by
        by_cases entered : root = c
        · simp [View.transfer, entered]
        · simpa [View.transfer, entered] using orderly.rootPrev
      rootStatus := by
        intro notRoot
        have notRoot : c ≠ root := notRoot
        by_cases current : root = v.cur
        · simp [View.transfer, current, Ne.symm different]
        · simpa [View.transfer, Ne.symm notRoot, current] using
            orderly.rootStatus (Ne.symm current)
      nested := by
        intro d isNested
        simp [View.transfer, noneNested] at isNested
      anchored := anywhere [c] (fun d _ => noneNested d)
      natives := orderly.natives }

end

/-- Native code starts a loop for a frame of the running context. -/
theorem Orderly.call
    (orderly : Orderly v acts chain)
    (above : depth ≠ 0) :
    Orderly (v.withNatives (depth :: v.natives v.cur))
      (.call v.cur depth base :: acts) chain := by
  obtain ⟨rest, rfl⟩ := orderly.exists_eq_cons
  exact
    { links := orderly.links
      nodup := orderly.nodup
      waiting := orderly.waiting
      running := orderly.running
      only := orderly.only
      rootPrev := orderly.rootPrev
      rootStatus := orderly.rootStatus
      nested := orderly.nested
      anchored := by
        simp only [anchored_call, if_neg above]
        exact ⟨[], rest, rfl, by simp [Plain], orderly.anchored⟩
      natives := by
        intro d
        by_cases current : d = v.cur
        · simp [View.withNatives, stops, current, above, orderly.natives]
        · simp [View.withNatives, stops, current, Ne.symm current,
            orderly.natives] }

/-- The topmost native frame of the running context goes, and the loop that
waited for it is the innermost one. -/
theorem Orderly.uncall
    (orderly : Orderly v (act :: acts) chain)
    (isLoop : act.loop?.isSome)
    (topmost : v.natives v.cur = depth :: depths) :
    act.loop? = some (v.cur, depth) ∧
      Orderly (v.withNatives depths) acts chain := by
  obtain ⟨rest, rfl⟩ := orderly.exists_eq_cons
  obtain ⟨isCall, anchored, above, others⟩ :=
    orderly.anchored.innermost isLoop orderly.nodup (by
      rw [← orderly.natives, topmost])
  refine ⟨isCall, ?_⟩
  exact
    { links := orderly.links
      nodup := orderly.nodup
      waiting := orderly.waiting
      running := orderly.running
      only := orderly.only
      rootPrev := orderly.rootPrev
      rootStatus := orderly.rootStatus
      nested := orderly.nested
      anchored := anchored
      natives := by
        intro d
        by_cases current : d = v.cur
        · simp [View.withNatives, current, above]
        · simp [View.withNatives, current, orderly.natives,
            others d current] }

section

variable (orderly : Orderly v acts chain)
include orderly

/-- The host stack changes, no frame with it. -/
theorem Orderly.withActs
    (anchored : Anchored v.vmexec chain acts')
    (sameStops : ∀ d, stops d acts' = stops d acts) :
    Orderly v acts' chain :=
  { orderly with
    anchored := anchored
    natives := fun d => (orderly.natives d).trans (sameStops d).symm }

/-- A context off the chain is created. -/
theorem Orderly.fresh
    (outside : c ∉ chain)
    (notRoot : c ≠ root) :
    Orderly (v.fresh c) acts chain := by
  have other : ∀ {d}, d ∈ chain → d ≠ c := by
    intro d member same
    exact outside (same ▸ member)
  have current : v.cur ≠ c := other orderly.links.mem_self
  exact
    { links := by
        apply orderly.links.congr
        intro d member
        simp [View.fresh, other member]
      nodup := orderly.nodup
      waiting := by
        intro d member different
        simpa [View.fresh, other member] using
          orderly.waiting d member different
      running := by
        simpa [View.fresh, current, Ne.symm notRoot] using orderly.running
      only := by
        intro d different
        by_cases here : d = c
        · simp [View.fresh, here]
        · simpa [View.fresh, here] using orderly.only d different
      rootPrev := by
        simpa [View.fresh, Ne.symm notRoot] using orderly.rootPrev
      rootStatus := by
        simpa [View.fresh, Ne.symm notRoot] using orderly.rootStatus
      nested := by
        intro d isNested
        by_cases here : d = c
        · simp [View.fresh, here] at isNested
        · exact orderly.nested d (by simpa [View.fresh, here] using isNested)
      anchored := by
        apply orderly.anchored.congr
        intro d member
        simp [View.fresh, other member]
      natives := by
        intro d
        by_cases here : d = c
        · simp [View.fresh, here, orderly.anchored.stops_eq_nil outside]
        · simpa [View.fresh, here] using orderly.natives d }

/-- A context off the chain is given up. -/
theorem Orderly.stopped
    (outside : c ∉ chain)
    (notRoot : c ≠ root) :
    Orderly (v.stopped c) acts chain := by
  have other : ∀ {d}, d ∈ chain → d ≠ c := by
    intro d member same
    exact outside (same ▸ member)
  have current : v.cur ≠ c := other orderly.links.mem_self
  exact
    { links := orderly.links
      nodup := orderly.nodup
      waiting := by
        intro d member different
        simpa [View.stopped, other member] using
          orderly.waiting d member different
      running := by
        simpa [View.stopped, current, Ne.symm notRoot] using orderly.running
      only := by
        intro d different
        by_cases here : d = c
        · simp [View.stopped, here]
        · simpa [View.stopped, here] using orderly.only d different
      rootPrev := orderly.rootPrev
      rootStatus := by
        simpa [View.stopped, Ne.symm notRoot] using orderly.rootStatus
      nested := orderly.nested
      anchored := orderly.anchored
      natives := by
        intro d
        by_cases here : d = c
        · simp [View.stopped, here, orderly.anchored.stops_eq_nil outside]
        · simpa [View.stopped, here] using orderly.natives d }

end

end Moves

end SabiRuby.Fibers
