import SabiRuby.Blocks.Homes

/-!
# Breaking out of a block

A `break` ends the call that its block was given to, which is the frame right
above the one that made the block.  The code looks for the topmost frame that
runs the proc in which the block is written; it is the right one as long as no
other activation of that proc is on the stack above.
-/

namespace SabiRuby.Blocks

open Execution (Cci root)

/-! ## Unwinding -/

/-- Where an unwinding comes to. -/
inductive Outcome
  /-- An ensure body runs first; the unwinding is pending. -/
  | ensure (vm : Vm) (target : Nat)
  /-- The loop ends; the loop of its native caller goes on unwinding. -/
  | crossed (vm : Vm) (target : Nat)
  /-- The call is over: the value goes to a native caller, or to a register. -/
  | returned (vm : Vm) (native : Bool)
  /-- The block of a fiber is over. -/
  | fiberEnded (vm : Vm)
  | localJumpError
  | panicked

/-- `unwind_return`, with the number of frames above the one that returns. -/
def Vm.unwindReturn (vm : Vm) (returnIdx stopDepth lc : Nat) : Nat → Outcome
  | 0 =>
      match vm.ci.getLast? with
      | none => .panicked
      | some top =>
          if top.ensures then .ensure vm returnIdx
          else
            let vm := vm.popFrame
            if vm.ci = [] ∧ vm.cur ≠ root then .fiberEnded vm
            else .returned vm
              (top.cci = .skip ∨ (vm.cur = lc ∧ returnIdx ≤ stopDepth))
  | above + 1 =>
      match vm.ci.getLast? with
      | none => .panicked
      | some top =>
          if top.ensures then .ensure vm returnIdx
          else
            let depth := vm.ci.length - 1
            let vm := vm.popFrame
            if top.cci = .skip ∨ (vm.cur = lc ∧ depth ≤ stopDepth) then
              .crossed vm returnIdx
            else vm.unwindReturn returnIdx stopDepth lc above

/-- Unwind to a frame and return from it. -/
def Vm.unwindTo (vm : Vm) (returnIdx stopDepth lc : Nat) : Outcome :=
  vm.unwindReturn returnIdx stopDepth lc (vm.ci.length - 1 - returnIdx)

/-- The frame above the topmost one that runs a proc, below some depth. -/
def breakIndex (ci : List CallInfo) (dst : Nat) : Nat → Option Nat
  | 0 => none
  | i + 1 =>
      if ci[i]?.map CallInfo.proc = some dst then some (i + 1)
      else breakIndex ci dst i

/-- The proc that the frame on top runs. -/
def Vm.running (vm : Vm) : Option ProcData :=
  vm.ci.getLast?.bind fun top => vm.procs[top.proc]?

/-- `op_break` -/
def Vm.opBreak (vm : Vm) (stopDepth lc : Nat) : Outcome :=
  match vm.running with
  | none => .panicked
  | some pd =>
      if pd.strict then vm.unwindTo (vm.ci.length - 1) stopDepth lc
      else
        match pd.orphan, pd.env, pd.upper with
        | false, some _, some dst =>
            match breakIndex vm.ci dst (vm.ci.length - 1) with
            | some i => vm.unwindTo i stopDepth lc
            | none => .localJumpError
        | _, _, _ => .localJumpError

/-! ## The call that is ended -/

/-- A frame owns an environment. -/
def Vm.IsHome (vm : Vm) (e j : Nat) : Prop :=
  ∃ frame, vm.ci[j]? = some frame ∧ frame.env = some e

/-- A break returns from the frame above the block's home, or is refused where
the home is gone. -/
def Vm.BreaksAtHome (vm : Vm) (e stopDepth lc : Nat) : Prop :=
  (∀ j, vm.IsHome e j →
    vm.opBreak stopDepth lc = vm.unwindTo (j + 1) stopDepth lc) ∧
  ((∀ j, ¬vm.IsHome e j) → vm.opBreak stopDepth lc = .localJumpError)

/-- Every activation of the proc a block is written in, below the block's own
frame, is the block's home or below it. -/
def Vm.HomeOnTop (vm : Vm) (pd : ProcData) (e : Nat) : Prop :=
  ∀ (k : Nat) (frame : CallInfo), vm.ci[k]? = some frame →
    k + 1 < vm.ci.length → pd.upper = some frame.proc →
      ∃ j, k ≤ j ∧ vm.IsHome e j

/-- An unwinding goes down to a frame and no further. -/
def Outcome.EndsAt (vm : Vm) (idx : Nat) : Outcome → Prop
  | .ensure after target =>
      target = idx ∧ ∃ k, idx < k ∧ after.ci = vm.ci.take k
  | .crossed after target =>
      target = idx ∧ ∃ k, idx < k ∧ after.ci = vm.ci.take k
  | .returned after _ => after.ci = vm.ci.take idx
  | .fiberEnded _ => False
  | .localJumpError => False
  | .panicked => False

/-! ## What unwinding does -/

theorem Vm.ci_orphanBlockOfNative (vm : Vm) (blk : Option Nat) :
    (vm.orphanBlockOfNative blk).ci = vm.ci := by
  unfold Vm.orphanBlockOfNative
  cases blk with
  | none => rfl
  | some b =>
      simp only
      cases vm.procs[b]? with
      | none => rfl
      | some pd =>
          simp only
          by_cases made : vm.madeByCaller pd = true
          · rw [if_pos made]
            rfl
          · rw [if_neg made]

theorem Vm.ci_dropFrame (vm : Vm) : vm.dropFrame.ci = vm.ci.dropLast :=
  if_pos rfl

theorem Vm.ci_popFrame (vm : Vm) : vm.popFrame.ci = vm.ci.dropLast := by
  unfold Vm.popFrame
  cases last : vm.ci.getLast? with
  | none =>
      rw [List.getLast?_eq_none_iff] at last
      rw [last]
      rfl
  | some frame =>
      simp only
      rw [vm.dropFrame.ci_orphanBlockOfNative, vm.ci_dropFrame]

theorem Vm.unwindReturn_endsAt
    (stopDepth lc : Nat)
    (vm : Vm)
    (idx above : Nat)
    (inner : 0 < idx)
    (depth : vm.ci.length = idx + above + 1) :
    (vm.unwindReturn idx stopDepth lc above).EndsAt vm idx := by
  induction above generalizing vm with
  | zero =>
      unfold Vm.unwindReturn
      cases last : vm.ci.getLast? with
      | none =>
          rw [List.getLast?_eq_none_iff] at last
          rw [last, List.length_nil] at depth
          omega
      | some top =>
          simp only
          have whole : vm.ci.take (idx + 1) = vm.ci :=
            List.take_of_length_le (by omega)
          by_cases ensures : top.ensures = true
          · rw [if_pos ensures]
            exact ⟨rfl, idx + 1, Nat.lt_succ_self idx, whole.symm⟩
          · rw [if_neg ensures]
            have popped : vm.popFrame.ci = vm.ci.take idx := by
              rw [vm.ci_popFrame, List.dropLast_eq_take, depth]
              rfl
            have notEmpty :
                ¬(vm.popFrame.ci = [] ∧ vm.popFrame.cur ≠ root) := by
              rintro ⟨empty, _⟩
              have count := congrArg List.length (popped.symm.trans empty)
              rw [List.length_take, List.length_nil] at count
              omega
            rw [if_neg notEmpty]
            exact popped
  | succ above ih =>
      unfold Vm.unwindReturn
      cases last : vm.ci.getLast? with
      | none =>
          rw [List.getLast?_eq_none_iff] at last
          rw [last, List.length_nil] at depth
          omega
      | some top =>
          simp only
          have popped : vm.popFrame.ci = vm.ci.take (vm.ci.length - 1) := by
            rw [vm.ci_popFrame, List.dropLast_eq_take]
          by_cases ensures : top.ensures = true
          · rw [if_pos ensures]
            exact ⟨rfl, vm.ci.length, by omega, (List.take_length).symm⟩
          · rw [if_neg ensures]
            by_cases native : top.cci = .skip ∨
                vm.popFrame.cur = lc ∧ vm.ci.length - 1 ≤ stopDepth
            · rw [if_pos native]
              exact ⟨rfl, vm.ci.length - 1, by omega, popped⟩
            · rw [if_neg native]
              have later := ih vm.popFrame (by
                rw [popped, List.length_take]
                omega)
              generalize vm.popFrame.unwindReturn idx stopDepth lc above = o
                at later ⊢
              cases o with
              | ensure after target | crossed after target =>
                  obtain ⟨same, k, below, frames⟩ := later
                  rw [popped, List.take_take] at frames
                  exact ⟨same, _, by omega, frames⟩
              | returned after native =>
                  have frames : after.ci = vm.popFrame.ci.take idx := later
                  rw [popped, List.take_take, Nat.min_eq_left (by omega)]
                    at frames
                  exact frames
              | fiberEnded after => exact later
              | localJumpError => exact later
              | panicked => exact later

/-- Unwinding to a frame with others below it ends there. -/
theorem Vm.unwindTo_endsAt
    (vm : Vm)
    (idx stopDepth lc : Nat)
    (inner : 0 < idx)
    (inside : idx < vm.ci.length) :
    (vm.unwindTo idx stopDepth lc).EndsAt vm idx :=
  vm.unwindReturn_endsAt stopDepth lc idx _ inner (by omega)

theorem Outcome.EndsAt.unique
    {o : Outcome}
    (first : o.EndsAt vm i)
    (second : o.EndsAt vm j)
    (insideFirst : i < vm.ci.length)
    (insideSecond : j < vm.ci.length) : i = j := by
  cases o with
  | ensure after target => exact first.1.symm.trans second.1
  | crossed after target => exact first.1.symm.trans second.1
  | returned after native =>
      have one : after.ci = vm.ci.take i := first
      have two : after.ci = vm.ci.take j := second
      have count := congrArg List.length (one.symm.trans two)
      rw [List.length_take, List.length_take] at count
      omega
  | fiberEnded after => exact first.elim
  | localJumpError => exact first.elim
  | panicked => exact first.elim

/-! ## Which frame is found -/

theorem breakIndex_none
    {dst n : Nat} :
    breakIndex ci dst n = none ↔
      ∀ k < n, ci[k]?.map CallInfo.proc ≠ some dst := by
  induction n with
  | zero => simp [breakIndex]
  | succ n ih =>
      rw [breakIndex]
      by_cases here : ci[n]?.map CallInfo.proc = some dst
      · rw [if_pos here]
        constructor
        · intro none
          cases none
        · intro nowhere
          exact absurd here (nowhere n (Nat.lt_succ_self n))
      · rw [if_neg here, ih]
        constructor
        · intro nowhere k below
          rcases Nat.lt_succ_iff_lt_or_eq.mp below with less | rfl
          · exact nowhere k less
          · exact here
        · intro nowhere k below
          exact nowhere k (Nat.lt_succ_of_lt below)

theorem breakIndex_some
    (found : breakIndex ci dst n = some i) :
    ∃ k, i = k + 1 ∧ k < n ∧ ci[k]?.map CallInfo.proc = some dst ∧
      ∀ m < n, ci[m]?.map CallInfo.proc = some dst → m ≤ k := by
  induction n with
  | zero => cases found
  | succ n ih =>
      rw [breakIndex] at found
      by_cases here : ci[n]?.map CallInfo.proc = some dst
      · rw [if_pos here] at found
        cases found
        exact ⟨n, rfl, Nat.lt_succ_self n, here,
          fun m below _ => Nat.lt_succ_iff.mp below⟩
      · rw [if_neg here] at found
        obtain ⟨k, same, below, runs, top⟩ := ih found
        refine ⟨k, same, Nat.lt_succ_of_lt below, runs, ?_⟩
        intro m less runsM
        rcases Nat.lt_succ_iff_lt_or_eq.mp less with lower | rfl
        · exact top m lower runsM
        · exact absurd runsM here

/-! ## Breaking at home -/

/-- The home of the running block is below the block's own frame and runs the
proc in which the block is written. -/
theorem Vm.Homed.home_below
    {vm : Vm}
    (homed : vm.Homed)
    (running : vm.running = some pd)
    (captured : pd.env = some e)
    (home : vm.IsHome e j) :
    j + 1 < vm.ci.length ∧
      vm.ci[j]?.map CallInfo.proc = pd.upper := by
  obtain ⟨frame, at_, env⟩ := home
  obtain ⟨top, isTop, found⟩ := Option.bind_eq_some_iff.mp running
  have upper := (homed.captures top.proc pd found).home e vm.cur j frame
    captured at_ env
  have inside := (List.getElem?_eq_some_iff.mp at_).1
  refine ⟨?_, ?_⟩
  · by_contra last
    have same : j = vm.ci.length - 1 := by omega
    rw [vm.getLast?_ci] at isTop
    change vm.frameAt vm.cur j = some frame at at_
    rw [same, isTop] at at_
    rw [← Option.some.inj at_] at upper
    exact Nat.lt_irrefl _ (homed.upperBelow top.proc pd top.proc found upper)
  · rw [at_, upper]
    rfl

theorem Vm.Homed.home_unique
    {vm : Vm}
    (homed : vm.Homed)
    (one : vm.IsHome e i)
    (two : vm.IsHome e j) : i = j := by
  obtain ⟨frame, atOne, envOne⟩ := one
  obtain ⟨other, atTwo, envTwo⟩ := two
  exact (homed.envOnce vm.cur vm.cur i j frame other e atOne atTwo envOne
    envTwo).2

theorem Vm.Homed.breaksAtHome_iff
    {vm : Vm}
    (homed : vm.Homed)
    {pd : ProcData}
    (running : vm.running = some pd)
    (block : pd.strict = false ∧ pd.orphan = false)
    (captured : pd.env = some e)
    (stopDepth lc : Nat) :
    vm.BreaksAtHome e stopDepth lc ↔ vm.HomeOnTop pd e := by
  obtain ⟨top, isTop, found⟩ := Option.bind_eq_some_iff.mp running
  obtain ⟨dst, upper⟩ := Option.ne_none_iff_exists'.mp
    ((homed.captures top.proc pd found).hasUpper e captured)
  have code : vm.opBreak stopDepth lc =
      match breakIndex vm.ci dst (vm.ci.length - 1) with
      | some i => vm.unwindTo i stopDepth lc
      | none => .localJumpError := by
    unfold Vm.opBreak
    rw [running]
    simp only [block.1, block.2, captured, upper, Bool.false_eq_true, if_false]
  have lower : ∀ j, vm.IsHome e j → j + 1 < vm.ci.length ∧
      vm.ci[j]?.map CallInfo.proc = some dst := by
    intro j home
    rw [← upper]
    exact homed.home_below running captured home
  constructor
  · rintro ⟨atHome, refused⟩ k frame at_ below runs
    have runsK : vm.ci[k]?.map CallInfo.proc = some dst := by
      rw [at_, ← upper, runs]
      rfl
    cases search : breakIndex vm.ci dst (vm.ci.length - 1) with
    | none => exact absurd runsK (breakIndex_none.mp search k (by omega))
    | some i =>
        obtain ⟨m, rfl, inside, _, topmost⟩ := breakIndex_some search
        have under := topmost k (by omega) runsK
        rw [search] at code
        have ends := vm.unwindTo_endsAt (m + 1) stopDepth lc (Nat.succ_pos m)
          (by omega)
        by_cases somewhere : ∃ j, vm.IsHome e j
        · obtain ⟨j, home⟩ := somewhere
          have right := atHome j home
          have endsHome := vm.unwindTo_endsAt (j + 1) stopDepth lc
            (Nat.succ_pos j) (lower j home).1
          rw [← right, code] at endsHome
          have same := ends.unique endsHome (by omega) (lower j home).1
          exact ⟨j, by omega, home⟩
        · have error := refused (not_exists.mp somewhere)
          rw [code] at error
          simp only at error
          rw [error] at ends
          exact ends.elim
  · intro onTop
    have above : ∀ k < vm.ci.length - 1,
        vm.ci[k]?.map CallInfo.proc = some dst →
          ∃ j, k ≤ j ∧ vm.IsHome e j := by
      intro k below runs
      obtain ⟨frame, at_, proc⟩ := Option.map_eq_some_iff.mp runs
      exact onTop k frame at_ (by omega) (by rw [upper, proc])
    constructor
    · intro j home
      obtain ⟨inside, runs⟩ := lower j home
      cases search : breakIndex vm.ci dst (vm.ci.length - 1) with
      | none => exact absurd runs (breakIndex_none.mp search j (by omega))
      | some i =>
          obtain ⟨m, rfl, below, runsM, topmost⟩ := breakIndex_some search
          obtain ⟨j', under, home'⟩ := above m below runsM
          have same := homed.home_unique home' home
          have over_ := topmost j (by omega) runs
          have index : m = j := by omega
          rw [code, search, index]
    · intro nowhere
      have none : breakIndex vm.ci dst (vm.ci.length - 1) = none := by
        rw [breakIndex_none]
        intro k below runs
        obtain ⟨j, _, home⟩ := above k below runs
        exact nowhere j home
      rw [code, none]

/-- How many frames are left. -/
def Outcome.framesLeft : Outcome → Option Nat
  | .returned vm _ => some vm.ci.length
  | _ => none

/-- A method makes a block, gives it to another call of the method, and that
call runs it. -/
def nestedCalls : List Event :=
  [.makeMethod true, .call 1 none .none, .makeBlock false,
    .call 1 (some 2) .none, .call 2 none .none]

/-- The same, where the other call comes only after the first is over, from a
method that kept the block and overwrote its parameter. -/
def laterCalls : List Event :=
  [.makeMethod true, .makeMethod true, .call 1 none .none, .makeBlock false,
    .call 2 (some 3) .none, .advance none false, .popFrame, .popFrame,
    .call 1 none .none, .call 3 none .none]

/-- A method runs the block it was given. -/
def plainCall : List Event :=
  [.makeMethod true, .makeBlock false, .call 1 (some 2) .none,
    .call 2 none .none]

end SabiRuby.Blocks
