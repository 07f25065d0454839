import SabiRuby.Fibers.Registers

/-!
# What the contexts wait for

A record, kept beside the VM, of how every context was left: by which operation
and for which register.  The pending registers agree with it for as long as the
contexts wait, and along the chain every context waits for the one before it.
-/

namespace SabiRuby.Fibers

open Execution (FiberState root)
open Function (update)
open Library (LinkChain)

/-- How a context was left: by a resume in an instruction, and of which context;
by a yield or a transfer in one; by native code, for which context; or between
two instructions. -/
inductive Wait
  | nothing
  | resume (reg callee : Nat)
  | yield (reg : Nat)
  | transfer (reg : Nat)
  | nested (callee : Nat)
  | parked
deriving DecidableEq, Repr

/-- The register of the instruction that waits. -/
def Wait.reg? : Wait → Option Nat
  | .resume reg _ => some reg
  | .yield reg => some reg
  | .transfer reg => some reg
  | .nothing => none
  | .nested _ => none
  | .parked => none

/-- The pending register of a context that is not running agrees with how it was
left, by its state. -/
def Held (wait : Wait) (pending : Option Nat) : FiberState → Prop
  | .created => pending = none
  | .suspended =>
      (∃ reg, wait = .yield reg ∧ pending = some reg) ∨ wait = .parked
  | .transferred => ∃ reg, wait = .transfer reg ∧ pending = some reg
  | .resumed =>
      (∃ reg callee, wait = .resume reg callee ∧ pending = some reg) ∨
        ∃ callee, wait = .nested callee
  | .running => True
  | .terminated => True

/-- Along a chain every context waits for the one before it: native code does
when a nested loop runs that one, and an instruction otherwise. -/
def Answers (vmexec : Nat → Bool) (w : Nat → Wait) : List Nat → Prop
  | d :: p :: chain =>
      (if vmexec d then w p = .nested d else ∃ reg, w p = .resume reg d) ∧
        Answers vmexec w (p :: chain)
  | _ => True

/-- The record agrees with the VM. -/
structure Awaited
    (vm : Vm)
    (w : Nat → Wait)
    (chain : List Nat) : Prop where
  links : LinkChain vm.view.prev vm.cur chain
  held :
    ∀ c, c < vm.len → c ≠ vm.cur → Held (w c) (vm.pending c) (vm.view.status c)
  answers : Answers vm.view.vmexec w chain
  rootWaits : root ∉ chain → ∀ callee, w root ≠ .nested callee

/-- The record once the running context is left for another. -/
def leave
    (w : Nat → Wait)
    (old : Nat)
    (wait : Wait)
    (target : Nat) : Nat → Wait :=
  update (update w old wait) target .nothing

section Answers

variable
  {vmexec vmexec' : Nat → Bool}
  {w w' : Nat → Wait}
  {chain : List Nat}
  {d p : Nat}

/-- What the head of a chain was left by does not matter. -/
theorem Answers.congr
    (answers : Answers vmexec w (d :: chain))
    (sameExec : ∀ c ∈ d :: chain, vmexec' c = vmexec c)
    (same : ∀ c ∈ chain, w' c = w c) :
    Answers vmexec' w' (d :: chain) := by
  induction chain generalizing d with
  | nil => trivial
  | cons p chain hypothesis =>
      obtain ⟨first, rest⟩ := answers
      constructor
      · rw [sameExec d (by simp), same p (by simp)]
        exact first
      · apply hypothesis rest
        · intro c member
          exact sameExec c (List.mem_cons_of_mem d member)
        · intro c member
          exact same c (List.mem_cons_of_mem p member)

/-- Where no nested loop runs, every context behind the head waits in an
instruction. -/
theorem Answers.resumes
    (answers : Answers vmexec w (d :: chain))
    (plain : Plain vmexec (d :: chain))
    (member : p ∈ chain) :
    ∃ reg callee, w p = .resume reg callee := by
  induction chain generalizing d with
  | nil => simp at member
  | cons q chain hypothesis =>
      obtain ⟨first, rest⟩ := answers
      rw [if_neg (by simp [plain d])] at first
      rcases List.mem_cons.mp member with rfl | member
      · obtain ⟨reg, waits⟩ := first
        exact ⟨reg, d, waits⟩
      · apply hypothesis rest _ member
        intro c inside
        exact plain c (List.mem_cons_of_mem d inside)

end Answers

section Moves

variable
  {vm vm' : Vm}
  {acts : List Activation}
  {w : Nat → Wait}
  {chain : List Nat}
  {c : Nat}
  {wait : Wait}

theorem leave_other
    (notTarget : d ≠ target)
    (notOld : d ≠ old) :
    leave w old wait target d = w d := by
  simp [leave, notTarget, notOld]

theorem leave_old
    (different : old ≠ target) :
    leave w old wait target old = wait := by
  simp [leave, different]

/-- The running context is left for one off the chain: what holds of the
contexts that do not run. -/
theorem Awaited.held_leave
    (awaited : Awaited vm w chain)
    (len : vm'.len = vm.len)
    (entered : vm'.cur = target)
    (other : target ≠ vm.cur)
    (status :
      vm'.view.status =
        update (update vm.view.status vm.cur left) target .running)
    (pending :
      ∀ d, d ≠ target → d ≠ vm.cur → vm'.pending d = vm.pending d)
    (held : Held wait (vm'.pending vm.cur) left)
    (d : Nat)
    (bound : d < vm'.len)
    (notCurrent : d ≠ vm'.cur) :
    Held (leave w vm.cur wait target d) (vm'.pending d)
      (vm'.view.status d) := by
  rw [entered] at notCurrent
  rw [status, Function.update_of_ne notCurrent]
  by_cases old : d = vm.cur
  · rw [old, leave_old (Ne.symm other), Function.update_self]
    exact held
  · rw [leave_other notCurrent old, Function.update_of_ne old,
      pending d notCurrent old]
    exact awaited.held d (len ▸ bound) old

/-- A context is resumed. -/
theorem Awaited.enter
    (awaited : Awaited vm w chain)
    (orderly : Orderly vm.view acts chain)
    (outside : c ∉ chain)
    (view : vm'.view = vm.view.enter c nested)
    (len : vm'.len = vm.len)
    (pending : ∀ d, d ≠ c → d ≠ vm.cur → vm'.pending d = vm.pending d)
    (left :
      if nested then wait = .nested c
      else ∃ reg, wait = .resume reg c ∧ vm'.pending vm.cur = some reg) :
    Awaited vm' (leave w vm.cur wait c) (c :: chain) := by
  have other : c ≠ vm.cur := fun same =>
    outside (same ▸ awaited.links.mem_self)
  have entered : vm'.cur = c := congrArg View.cur view
  obtain ⟨rest, rfl⟩ := awaited.links.exists_eq_cons
  have notMem : vm.cur ∉ rest := (List.nodup_cons.mp orderly.nodup).1
  refine ⟨?_, ?_, ⟨?_, ?_⟩, ?_⟩
  · rw [view, entered]
    apply LinkChain.link c vm.cur
    · simp [View.enter, Vm.view]
    · apply awaited.links.congr
      intro d member
      have different : d ≠ c := fun same => outside (same ▸ member)
      simp [View.enter, different]
  · apply awaited.held_leave len entered other (congrArg View.status view)
      pending
    cases nested with
    | true => exact .inr ⟨c, by simpa using left⟩
    | false =>
        obtain ⟨reg, isResume, waits⟩ := by simpa using left
        exact .inl ⟨reg, c, isResume, waits⟩
  · rw [view, leave_old (Ne.symm other)]
    cases nested with
    | true => simpa [View.enter] using left
    | false =>
        have plain : vm.view.vmexec c = false := by
          cases isNested : vm.view.vmexec c with
          | false => rfl
          | true => exact absurd (orderly.nested c isNested) outside
        obtain ⟨reg, isResume, _⟩ := by simpa using left
        simp [View.enter, plain, isResume]
  · apply awaited.answers.congr
    · intro d member
      have different : d ≠ c := fun same => outside (same ▸ member)
      rw [view]
      cases nested <;> simp [View.enter, different]
    · intro d member
      apply leave_other
      · intro same
        exact outside (same ▸ List.mem_cons_of_mem _ member)
      · intro same
        exact notMem (same ▸ member)
  · intro off callee
    rw [leave_other]
    · apply awaited.rootWaits
      intro member
      exact off (List.mem_cons_of_mem c member)
    · intro same
      exact off (by simp [same])
    · intro same
      exact off (by simp [same])

/-- The running context hands over to another. -/
theorem Awaited.transfer
    (awaited : Awaited vm w chain)
    (outside : c ∉ chain)
    (plain : Plain vm.view.vmexec chain)
    (view : vm'.view = vm.view.transfer c)
    (len : vm'.len = vm.len)
    (pending : ∀ d, d ≠ c → d ≠ vm.cur → vm'.pending d = vm.pending d)
    (waits : vm'.pending vm.cur = some reg) :
    Awaited vm' (leave w vm.cur (.transfer reg) c) [c] := by
  have other : c ≠ vm.cur := fun same =>
    outside (same ▸ awaited.links.mem_self)
  have entered : vm'.cur = c := congrArg View.cur view
  obtain ⟨rest, rfl⟩ := awaited.links.exists_eq_cons
  refine ⟨?_, ?_, trivial, ?_⟩
  · rw [view, entered]
    apply LinkChain.last
    simp [View.transfer]
  · exact
      awaited.held_leave len entered other (congrArg View.status view) pending
        ⟨reg, rfl, waits⟩
  · intro off callee
    have notEntered : root ≠ c := by simpa using off
    by_cases current : root = vm.cur
    · rw [current, leave_old (Ne.symm other)]
      simp
    · rw [leave_other notEntered current]
      by_cases member : root ∈ rest
      · obtain ⟨reg, d, isResume⟩ := awaited.answers.resumes plain member
        simp [isResume]
      · apply awaited.rootWaits
        simp [current, member]

/-- The running context goes back to the one that waits for it. -/
theorem Awaited.back
    (awaited : Awaited vm w (vm.cur :: rest))
    (nodup : (vm.cur :: rest).Nodup)
    (notRoot : vm.cur ≠ root)
    (linked : vm.view.prev vm.cur = some p)
    (view : vm'.view = vm.view.back left p)
    (len : vm'.len = vm.len)
    (pending : ∀ d, d ≠ p → d ≠ vm.cur → vm'.pending d = vm.pending d)
    (held : Held wait (vm'.pending vm.cur) left) :
    Awaited vm' (leave w vm.cur wait p) rest := by
  have notMem : vm.cur ∉ rest := (List.nodup_cons.mp nodup).1
  have behind := awaited.links.tail_of_some linked
  have other : p ≠ vm.cur := fun same =>
    notMem (same ▸ behind.mem_self)
  have entered : vm'.cur = p := congrArg View.cur view
  obtain ⟨below, rfl⟩ := behind.exists_eq_cons
  have notMemBelow : p ∉ below :=
    (List.nodup_cons.mp (List.nodup_cons.mp nodup).2).1
  refine ⟨?_, ?_, ?_, ?_⟩
  · rw [view, entered]
    apply behind.congr
    intro d member
    have different : d ≠ vm.cur := fun same => notMem (same ▸ member)
    exact Function.update_of_ne different _ _
  · exact
      awaited.held_leave len entered other (congrArg View.status view) pending
        held
  · apply awaited.answers.2.congr
    · intro d member
      have different : d ≠ vm.cur := fun same => notMem (same ▸ member)
      rw [view]
      exact Function.update_of_ne different _ _
    · intro d member
      apply leave_other
      · intro same
        exact notMemBelow (same ▸ member)
      · intro same
        exact notMem (same ▸ List.mem_cons_of_mem p member)
  · intro off callee
    rw [leave_other _ (Ne.symm notRoot)]
    · apply awaited.rootWaits
      intro member
      rcases List.mem_cons.mp member with same | member
      · exact notRoot same.symm
      · exact off member
    · intro same
      exact off (by simp [same])

/-- A context that nobody resumed ends. -/
theorem Awaited.backRoot
    (awaited : Awaited vm w chain)
    (notRoot : vm.cur ≠ root)
    (rootPrev : vm.view.prev root = none)
    (view : vm'.view = vm.view.back left root)
    (len : vm'.len = vm.len)
    (pending : ∀ d, d ≠ root → d ≠ vm.cur → vm'.pending d = vm.pending d)
    (held : Held wait (vm'.pending vm.cur) left) :
    Awaited vm' (leave w vm.cur wait root) [root] := by
  have entered : vm'.cur = root := congrArg View.cur view
  refine ⟨?_, ?_, trivial, ?_⟩
  · rw [view, entered]
    apply LinkChain.last
    exact (Function.update_of_ne (Ne.symm notRoot) _ _).trans rootPrev
  · exact
      awaited.held_leave len entered (Ne.symm notRoot)
        (congrArg View.status view) pending held
  · intro off
    exact absurd (List.mem_singleton.mpr rfl) off

/-- The running context goes on.  Others may be given up, and made. -/
structure Stays (vm vm' : Vm) (chain : List Nat) : Prop where
  cur : vm'.cur = vm.cur
  prev : ∀ c ∈ chain, vm'.view.prev c = vm.view.prev c
  vmexec : ∀ c ∈ chain, vm'.view.vmexec c = vm.view.vmexec c
  status :
    ∀ c, c < vm.len → c ≠ vm.cur →
      vm'.view.status c = .terminated ∨
        vm'.view.status c = vm.view.status c ∧ vm'.pending c = vm.pending c
  fresh :
    ∀ c, vm.len ≤ c → c < vm'.len →
      vm'.view.status c = .created ∧ vm'.pending c = none

theorem Awaited.stays
    (awaited : Awaited vm w chain)
    (stays : Stays vm vm' chain) :
    Awaited vm' w chain where
  links := by
    rw [stays.cur]
    exact awaited.links.congr stays.prev
  held := by
    intro c bound notCurrent
    rw [stays.cur] at notCurrent
    by_cases known : c < vm.len
    · rcases stays.status c known notCurrent with isOver | ⟨status, pending⟩
      · rw [isOver]
        trivial
      · rw [status, pending]
        exact awaited.held c known notCurrent
    · obtain ⟨status, pending⟩ :=
        stays.fresh c (Nat.le_of_not_lt known) bound
      rw [status, pending]
      exact rfl
  answers := by
    obtain ⟨rest, rfl⟩ := awaited.links.exists_eq_cons
    exact awaited.answers.congr stays.vmexec fun _ _ => rfl
  rootWaits := awaited.rootWaits

/-- An operation that the protocol does not see and that leaves the others'
pending registers alone. -/
theorem Quiet.stays
    (quiet : Quiet vm vm')
    (pending : ∀ d, d ≠ vm.cur → vm'.pending d = vm.pending d) :
    Stays vm vm' chain where
  cur := congrArg View.cur quiet.view
  prev := fun _ _ => by rw [quiet.view]
  vmexec := fun _ _ => by rw [quiet.view]
  status := fun c _ notCurrent => .inr ⟨by rw [quiet.view], pending c notCurrent⟩
  fresh := by
    intro c old new
    rw [quiet.steady.len] at new
    exact absurd old (Nat.not_le_of_lt new)

end Moves

end SabiRuby.Fibers
