import SabiRuby.Blocks.Frames
import Mathlib.Data.List.Basic

/-!
# Where a block is at home

In every state of a run an environment belongs to one frame at most, and that
frame runs the proc in which the blocks that captured the environment are
written.
-/

namespace SabiRuby.Blocks

open Execution (Cci root)

/-- A frame of a context. -/
def Vm.frameAt (vm : Vm) (ctx i : Nat) : Option CallInfo :=
  (vm.contexts ctx)[i]?

/-- A proc captured an environment where it belongs. -/
structure Vm.Captures (vm : Vm) (pd : ProcData) : Prop where
  upperKnown : ∀ u, pd.upper = some u → u < vm.procs.length
  hasUpper : ∀ e, pd.env = some e → pd.upper ≠ none
  envKnown : ∀ e, pd.env = some e → e < vm.envs
  home : ∀ e ctx i frame, pd.env = some e → vm.frameAt ctx i = some frame →
    frame.env = some e → pd.upper = some frame.proc

/-- Every environment has one frame at most, and every block is at home
there. -/
structure Vm.Homed (vm : Vm) : Prop where
  procKnown : ∀ ctx i frame, vm.frameAt ctx i = some frame →
    frame.proc < vm.procs.length
  envKnown : ∀ ctx i frame e, vm.frameAt ctx i = some frame →
    frame.env = some e → e < vm.envs
  envOnce : ∀ c d i j frame other e, vm.frameAt c i = some frame →
    vm.frameAt d j = some other → frame.env = some e → other.env = some e →
      c = d ∧ i = j
  captures : ∀ (p : Nat) (pd : ProcData), vm.procs[p]? = some pd →
    vm.Captures pd
  upperBelow : ∀ (p : Nat) (pd : ProcData) (u : Nat), vm.procs[p]? = some pd →
    pd.upper = some u → u < p

/-! ## Steps that make no environment -/

/-- The frames are frames that were there, or have no environment; the procs are
the same but for their flags. -/
structure Vm.Keeps (vm after : Vm) : Prop where
  envs : after.envs = vm.envs
  count : after.procs.length = vm.procs.length
  frames : ∀ ctx i frame, after.frameAt ctx i = some frame →
    frame.proc < vm.procs.length ∧
      (frame.env = none ∨ ∃ before, vm.frameAt ctx i = some before ∧
        before.env = frame.env ∧ before.proc = frame.proc)
  procs : ∀ (p : Nat) (pd : ProcData), after.procs[p]? = some pd →
    ∃ before, vm.procs[p]? = some before ∧ before.env = pd.env ∧
      before.upper = pd.upper

theorem Vm.Keeps.homed
    {vm after : Vm}
    (keeps : vm.Keeps after)
    (homed : vm.Homed) : after.Homed := by
  have old : ∀ ctx i frame e, after.frameAt ctx i = some frame →
      frame.env = some e → ∃ before, vm.frameAt ctx i = some before ∧
        before.env = some e ∧ before.proc = frame.proc := by
    intro ctx i frame e at_ env
    rcases (keeps.frames ctx i frame at_).2 with
      none | ⟨before, was, same, proc⟩
    · rw [none] at env
      cases env
    · exact ⟨before, was, same.trans env, proc⟩
  refine ⟨?_, ?_, ?_, ?_, ?_⟩
  · intro ctx i frame at_
    rw [keeps.count]
    exact (keeps.frames ctx i frame at_).1
  · intro ctx i frame e at_ env
    obtain ⟨before, was, same, _⟩ := old ctx i frame e at_ env
    rw [keeps.envs]
    exact homed.envKnown ctx i before e was same
  · intro c d i j frame other e atFrame atOther frameEnv otherEnv
    obtain ⟨before, was, same, _⟩ := old c i frame e atFrame frameEnv
    obtain ⟨before', was', same', _⟩ := old d j other e atOther otherEnv
    exact homed.envOnce c d i j before before' e was was' same same'
  · intro p pd found
    obtain ⟨before, was, env, upper⟩ := keeps.procs p pd found
    have captured := homed.captures p before was
    refine ⟨?_, ?_, ?_, ?_⟩
    · intro u isUpper
      rw [keeps.count]
      exact captured.upperKnown u (upper.trans isUpper)
    · intro e isEnv
      rw [← upper]
      exact captured.hasUpper e (env.trans isEnv)
    · intro e isEnv
      rw [keeps.envs]
      exact captured.envKnown e (env.trans isEnv)
    · intro e ctx i frame isEnv at_ frameEnv
      obtain ⟨first, wasFrame, same, proc⟩ := old ctx i frame e at_ frameEnv
      rw [← upper, ← proc]
      exact captured.home e ctx i first (env.trans isEnv) wasFrame same
  · intro p pd u found isUpper
    obtain ⟨before, was, _, upper⟩ := keeps.procs p pd found
    exact homed.upperBelow p before u was (upper.trans isUpper)

theorem Vm.Keeps.trans
    {vm middle after : Vm}
    (first : vm.Keeps middle)
    (second : middle.Keeps after) : vm.Keeps after := by
  refine ⟨second.envs.trans first.envs, second.count.trans first.count, ?_, ?_⟩
  · intro ctx i frame at_
    obtain ⟨known, same⟩ := second.frames ctx i frame at_
    rw [first.count] at known
    refine ⟨known, ?_⟩
    rcases same with none | ⟨before, was, env, proc⟩
    · exact Or.inl none
    · rcases (first.frames ctx i before was).2 with
        none | ⟨older, wasOld, env', proc'⟩
      · exact Or.inl (env.symm.trans none)
      · exact Or.inr ⟨older, wasOld, env'.trans env, proc'.trans proc⟩
  · intro p pd found
    obtain ⟨before, was, env, upper⟩ := second.procs p pd found
    obtain ⟨older, wasOld, env', upper'⟩ := first.procs p before was
    exact ⟨older, wasOld, env'.trans env, upper'.trans upper⟩

variable {vm : Vm}

theorem Vm.Homed.keeps_self
    (homed : vm.Homed) : vm.Keeps vm :=
  ⟨rfl, rfl,
    fun ctx i frame at_ => ⟨homed.procKnown ctx i frame at_,
      Or.inr ⟨frame, at_, rfl, rfl⟩⟩,
    fun _ pd found => ⟨pd, found, rfl, rfl⟩⟩

theorem Vm.frameAt_setCi
    (vm : Vm)
    (ctx : Nat)
    (ci : List CallInfo)
    (c i : Nat) :
    (vm.setCi ctx ci).frameAt c i =
      if c = ctx then ci[i]? else vm.frameAt c i := by
  unfold Vm.frameAt Vm.setCi
  by_cases same : c = ctx
  · simp only [if_pos same]
  · simp only [if_neg same]

section

variable (homed : vm.Homed)
include homed

/-- The frames of one context are changed. -/
theorem Vm.Homed.keeps_setCi
    (ctx : Nat)
    (ci : List CallInfo)
    (frames : ∀ i frame, ci[i]? = some frame → frame.proc < vm.procs.length ∧
      (frame.env = none ∨ ∃ before, vm.frameAt ctx i = some before ∧
        before.env = frame.env ∧ before.proc = frame.proc)) :
    vm.Keeps (vm.setCi ctx ci) := by
  refine ⟨rfl, rfl, ?_, fun _ pd found => ⟨pd, found, rfl, rfl⟩⟩
  intro c i frame at_
  rw [vm.frameAt_setCi] at at_
  by_cases same : c = ctx
  · rw [if_pos same] at at_
    rw [same]
    exact frames i frame at_
  · rw [if_neg same] at at_
    exact ⟨homed.procKnown c i frame at_, Or.inr ⟨frame, at_, rfl, rfl⟩⟩

theorem Vm.Homed.keeps_markOrphan
    (p : Nat) : vm.Keeps (vm.markOrphan p) := by
  refine ⟨rfl, List.length_modify .., homed.keeps_self.frames, ?_⟩
  intro q pd found
  change (vm.procs.modify p _)[q]? = some pd at found
  rw [List.getElem?_modify, Option.map_eq_map,
    Option.map_eq_some_iff] at found
  obtain ⟨before, was, rfl⟩ := found
  refine ⟨before, was, ?_, ?_⟩
  · by_cases same : p = q
    · rw [if_pos same]
    · rw [if_neg same]
  · by_cases same : p = q
    · rw [if_pos same]
    · rw [if_neg same]

theorem Vm.Homed.keeps_orphanBlockOfNative
    (blk : Option Nat) : vm.Keeps (vm.orphanBlockOfNative blk) := by
  unfold Vm.orphanBlockOfNative
  cases blk with
  | none => exact homed.keeps_self
  | some b =>
      simp only
      cases found : vm.procs[b]? with
      | none => exact homed.keeps_self
      | some pd =>
          simp only
          by_cases made : vm.madeByCaller pd = true
          · rw [if_pos made]
            exact homed.keeps_markOrphan b
          · rw [if_neg made]
            exact homed.keeps_self

theorem Vm.Homed.keeps_call
    (proc : Nat)
    (block : Option Nat)
    (cci : Cci) : vm.Keeps (vm.call proc block cci) := by
  unfold Vm.call
  by_cases known : proc < vm.procs.length
  · rw [if_pos known]
    apply homed.keeps_setCi
    intro i frame at_
    rw [List.getElem?_append] at at_
    by_cases inside : i < vm.ci.length
    · rw [if_pos inside] at at_
      exact homed.keeps_self.frames vm.cur i frame at_
    · rw [if_neg inside, List.getElem?_singleton] at at_
      rw [Option.ite_none_right_eq_some] at at_
      obtain ⟨_, same⟩ := at_
      cases same
      exact ⟨known, Or.inl rfl⟩
  · rw [if_neg known]
    exact homed.keeps_self

/-- The frame on top is changed. -/
theorem Vm.Homed.keeps_modifyTop
    (change : CallInfo → CallInfo)
    (changed : ∀ top, vm.ci[vm.ci.length - 1]? = some top →
      (change top).proc < vm.procs.length ∧ ((change top).env = none ∨
        top.env = (change top).env ∧ top.proc = (change top).proc)) :
    vm.Keeps (vm.modifyTop change) := by
  apply homed.keeps_setCi
  intro i frame at_
  rw [List.getElem?_modify, Option.map_eq_map,
    Option.map_eq_some_iff] at at_
  obtain ⟨before, was, same⟩ := at_
  by_cases top : vm.ci.length - 1 = i
  · rw [if_pos top] at same
    rw [← top] at was
    obtain ⟨known, none | ⟨env, proc⟩⟩ := changed before was <;>
      rw [← same]
    · exact ⟨known, Or.inl none⟩
    · rw [top] at was
      exact ⟨known, Or.inr ⟨before, was, env, proc⟩⟩
  · rw [if_neg top] at same
    rw [← same]
    exact homed.keeps_self.frames vm.cur i before was

theorem Vm.Homed.keeps_callProc
    (p : Nat) : vm.Keeps (vm.callProc p) := by
  unfold Vm.callProc
  by_cases known : p < vm.procs.length
  · rw [if_pos known]
    apply homed.keeps_modifyTop
    intro top _
    exact ⟨known, Or.inl rfl⟩
  · rw [if_neg known]
    exact homed.keeps_self

theorem Vm.Homed.keeps_advance
    (block : Option Nat)
    (ensures : Bool) : vm.Keeps (vm.advance block ensures) := by
  apply homed.keeps_modifyTop
  intro top at_
  exact ⟨homed.procKnown vm.cur _ top at_, Or.inr ⟨rfl, rfl⟩⟩

theorem Vm.Homed.keeps_dropFrame : vm.Keeps vm.dropFrame := by
  apply homed.keeps_setCi
  intro i frame at_
  rw [List.getElem?_dropLast, Option.ite_none_right_eq_some] at at_
  exact homed.keeps_self.frames vm.cur i frame at_.2

theorem Vm.Homed.keeps_popFrame : vm.Keeps vm.popFrame := by
  unfold Vm.popFrame
  cases vm.ci.getLast? with
  | none => exact homed.keeps_self
  | some frame =>
      have dropped := homed.keeps_dropFrame
      exact dropped.trans
        ((dropped.homed homed).keeps_orphanBlockOfNative frame.block)

theorem Vm.Homed.keeps_dropContext
    (ctx : Nat) : vm.Keeps (vm.dropContext ctx) := by
  apply homed.keeps_setCi
  intro i frame at_
  cases at_

theorem Vm.Homed.keeps_switchContext
    (ctx : Nat) : vm.Keeps (vm.switchContext ctx) :=
  ⟨rfl, rfl, homed.keeps_self.frames, homed.keeps_self.procs⟩

end

/-! ## Steps that make environments and procs -/

theorem Vm.Homed.frameEnvAt
    (homed : vm.Homed)
    (ctx i : Nat) : (vm.frameEnvAt ctx i).Homed := by
  unfold Vm.frameEnvAt
  cases here : (vm.contexts ctx)[i]? with
  | none => exact homed
  | some frame =>
      simp only
      cases old : frame.env with
      | some e => exact homed
      | none =>
          -- the frames are those before, but one has the new environment
          have cases_ : ∀ c j other, Vm.frameAt
              { vm.setCi ctx ((vm.contexts ctx).set i
                { frame with env := some vm.envs }) with
                envs := vm.envs + 1 } c j = some other →
              (c = ctx ∧ j = i ∧ other = { frame with env := some vm.envs }) ∨
                vm.frameAt c j = some other := by
            intro c j other at_
            change (vm.setCi ctx _).frameAt c j = some other at at_
            rw [vm.frameAt_setCi] at at_
            by_cases same : c = ctx
            · rw [if_pos same, List.getElem?_set] at at_
              by_cases index : i = j
              · rw [if_pos index] at at_
                split_ifs at at_
                cases at_
                exact Or.inl ⟨same, index.symm, rfl⟩
              · rw [if_neg index] at at_
                rw [same]
                exact Or.inr at_
            · rw [if_neg same] at at_
              exact Or.inr at_
          refine ⟨?_, ?_, ?_, ?_, homed.upperBelow⟩
          · intro c j other at_
            rcases cases_ c j other at_ with ⟨_, _, rfl⟩ | was
            · exact homed.procKnown ctx i frame here
            · exact homed.procKnown c j other was
          · intro c j other e at_ env
            rcases cases_ c j other at_ with ⟨_, _, rfl⟩ | was
            · cases env
              exact Nat.lt_succ_self vm.envs
            · exact Nat.lt_succ_of_lt (homed.envKnown c j other e was env)
          · intro c d j k one two e atOne atTwo envOne envTwo
            rcases cases_ c j one atOne with ⟨hc, hj, rfl⟩ | wasOne <;>
              rcases cases_ d k two atTwo with ⟨hd, hk, rfl⟩ | wasTwo
            · exact ⟨hc.trans hd.symm, hj.trans hk.symm⟩
            · cases envOne
              exact absurd (homed.envKnown d k two _ wasTwo envTwo)
                (Nat.lt_irrefl _)
            · cases envTwo
              exact absurd (homed.envKnown c j one _ wasOne envOne)
                (Nat.lt_irrefl _)
            · exact homed.envOnce c d j k one two e wasOne wasTwo envOne envTwo
          · intro p pd found
            have captured := homed.captures p pd found
            refine ⟨captured.upperKnown, captured.hasUpper, ?_, ?_⟩
            · intro e isEnv
              exact Nat.lt_succ_of_lt (captured.envKnown e isEnv)
            · intro e c j other isEnv at_ env
              rcases cases_ c j other at_ with ⟨_, _, rfl⟩ | was
              · cases env
                exact absurd (captured.envKnown _ isEnv) (Nat.lt_irrefl _)
              · exact captured.home e c j other isEnv was env

/-- A proc that captured an environment where it belongs is added. -/
theorem Vm.Homed.alloc
    (homed : vm.Homed)
    {data : ProcData}
    (captured : vm.Captures data) : (vm.alloc data).Homed := by
  have count : (vm.alloc data).procs.length = vm.procs.length + 1 :=
    List.length_append
  have all : ∀ (p : Nat) (pd : ProcData), (vm.alloc data).procs[p]? = some pd →
      vm.procs[p]? = some pd ∨ p = vm.procs.length ∧ pd = data := by
    intro p pd found
    change (vm.procs ++ [data])[p]? = some pd at found
    rw [List.getElem?_append] at found
    by_cases inside : p < vm.procs.length
    · rw [if_pos inside] at found
      exact Or.inl found
    · rw [if_neg inside, List.getElem?_singleton,
        Option.ite_none_right_eq_some] at found
      exact Or.inr ⟨by omega, (Option.some.inj found.2).symm⟩
  have grows : ∀ pd, vm.Captures pd → (vm.alloc data).Captures pd := by
    intro pd old
    refine ⟨?_, old.hasUpper, old.envKnown, old.home⟩
    intro u isUpper
    rw [count]
    exact Nat.lt_succ_of_lt (old.upperKnown u isUpper)
  refine ⟨?_, homed.envKnown, homed.envOnce, ?_, ?_⟩
  · intro ctx i frame at_
    rw [count]
    exact Nat.lt_succ_of_lt (homed.procKnown ctx i frame at_)
  · intro p pd found
    rcases all p pd found with was | ⟨_, rfl⟩
    · exact grows pd (homed.captures p pd was)
    · exact grows pd captured
  · intro p pd u found isUpper
    rcases all p pd found with was | ⟨rfl, rfl⟩
    · exact homed.upperBelow p pd u was isUpper
    · exact captured.upperKnown u isUpper

/-- The frame on top, by its index. -/
theorem Vm.getLast?_ci (vm : Vm) :
    vm.ci.getLast? = vm.frameAt vm.cur (vm.ci.length - 1) :=
  List.getLast?_eq_getElem?

/-- What the frame on top captures belongs there. -/
theorem Vm.Homed.captures_top
    (homed : vm.Homed)
    (isTop : vm.ci.getLast? = some top)
    (strict scope orphan : Bool) :
    vm.Captures ⟨some top.proc, top.env, strict, scope, orphan⟩ := by
  rw [vm.getLast?_ci] at isTop
  refine ⟨?_, ?_, ?_, ?_⟩
  · intro u isUpper
    cases isUpper
    exact homed.procKnown vm.cur _ top isTop
  · intro e _ none
    cases none
  · intro e isEnv
    exact homed.envKnown vm.cur _ top e isTop isEnv
  · intro e ctx i frame isEnv at_ env
    obtain ⟨rfl, rfl⟩ := homed.envOnce ctx vm.cur i _ frame top e at_ isTop env
      isEnv
    rw [isTop] at at_
    cases at_
    rfl

theorem Vm.captures_nothing
    (vm : Vm)
    (strict scope orphan : Bool)
    (known : ∀ u, upper = some u → u < vm.procs.length) :
    vm.Captures ⟨upper, none, strict, scope, orphan⟩ :=
  ⟨known, fun _ env => (nomatch env), fun _ env => (nomatch env),
    fun _ _ _ _ env => (nomatch env)⟩

theorem Vm.Captures.withOrphan
    (captured : vm.Captures pd)
    (orphan : Bool) : vm.Captures { pd with orphan := orphan } :=
  ⟨captured.upperKnown, captured.hasUpper, captured.envKnown, captured.home⟩

section

variable (homed : vm.Homed)
include homed

theorem Vm.Homed.makeBlock
    (strict : Bool) : (vm.makeBlock strict).Homed := by
  unfold Vm.makeBlock
  have made := homed.frameEnvAt vm.cur (vm.ci.length - 1)
  generalize vm.frameEnvAt vm.cur (vm.ci.length - 1) = vm at made
  simp only
  cases isTop : vm.ci.getLast? with
  | none => exact made
  | some top => exact made.alloc (made.captures_top isTop strict false false)

theorem Vm.Homed.makeMethod
    (strict : Bool) : (vm.makeMethod strict).Homed := by
  unfold Vm.makeMethod
  cases isTop : vm.ci.getLast? with
  | none => exact homed
  | some top =>
      have known := (homed.captures_top isTop strict true false).upperKnown
      exact homed.alloc (vm.captures_nothing strict true false known)

theorem Vm.Homed.procNew
    (o : Nat) : (vm.procNew o).Homed := by
  unfold Vm.procNew
  cases found : vm.procs[o]? with
  | none => exact homed
  | some pd => exact homed.alloc ((homed.captures o pd found).withOrphan _)

theorem Vm.Homed.procDup
    (o : Nat) : (vm.procDup o).Homed := by
  unfold Vm.procDup
  cases found : vm.procs[o]? with
  | none => exact homed
  | some pd => exact homed.alloc ((homed.captures o pd found).withOrphan _)

/-- An environment that is no frame's is made. -/
theorem Vm.Homed.withEnv : { vm with envs := vm.envs + 1 }.Homed := by
  refine ⟨homed.procKnown, ?_, homed.envOnce, ?_, homed.upperBelow⟩
  · intro ctx i frame e at_ env
    exact Nat.lt_succ_of_lt (homed.envKnown ctx i frame e at_ env)
  · intro p pd found
    have captured := homed.captures p pd found
    refine ⟨captured.upperKnown, captured.hasUpper, ?_, captured.home⟩
    intro e isEnv
    exact Nat.lt_succ_of_lt (captured.envKnown e isEnv)

theorem Vm.Homed.evalInBinding
    (upper : Nat) : (vm.evalInBinding upper).Homed := by
  unfold Vm.evalInBinding
  by_cases known : upper < vm.procs.length
  · rw [if_pos known]
    have wider := homed.withEnv
    refine @Vm.Homed.alloc _ wider
      ⟨some upper, some vm.envs, false, false, false⟩ ?_
    refine ⟨?_, ?_, ?_, ?_⟩
    · rintro u ⟨⟩
      exact known
    · intro e _ none
      cases none
    · rintro e ⟨⟩
      exact Nat.lt_succ_self _
    · rintro e ctx i frame ⟨⟩ at_ env
      exact absurd (homed.envKnown ctx i frame _ at_ env) (Nat.lt_irrefl _)
  · rw [if_neg known]
    exact homed

theorem Vm.Homed.load
    (scope : Bool) : (vm.load scope).Homed :=
  homed.alloc
    (vm.captures_nothing false scope false (fun _ none => nomatch none))

end

/-! ## Runs -/

theorem Vm.homed_initial : Vm.initial.Homed := by
  have only : ∀ ctx i frame, Vm.initial.frameAt ctx i = some frame →
      frame = ⟨0, none, none, .skip, false⟩ := by
    intro ctx i frame at_
    unfold Vm.frameAt Vm.initial at at_
    simp only at at_
    split_ifs at at_ with isRoot
    · rw [List.getElem?_singleton, Option.ite_none_right_eq_some] at at_
      exact (Option.some.inj at_.2).symm
    · cases at_
  have first : ∀ (p : Nat) (pd : ProcData), Vm.initial.procs[p]? = some pd →
      pd = ⟨none, none, false, true, false⟩ := by
    intro p pd found
    change [_][p]? = some pd at found
    rw [List.getElem?_singleton, Option.ite_none_right_eq_some] at found
    exact (Option.some.inj found.2).symm
  refine ⟨?_, ?_, ?_, ?_, ?_⟩
  · intro ctx i frame at_
    rw [only ctx i frame at_]
    exact Nat.zero_lt_one
  · intro ctx i frame e at_ env
    rw [only ctx i frame at_] at env
    cases env
  · intro c d i j frame other e at_ _ env
    rw [only c i frame at_] at env
    cases env
  · intro p pd found
    rw [first p pd found]
    exact Vm.initial.captures_nothing false true false
      (fun _ none => nomatch none)
  · intro p pd u found isUpper
    rw [first p pd found] at isUpper
    cases isUpper

/-- Every step keeps the blocks at home. -/
theorem Vm.Homed.step
    (homed : vm.Homed)
    (event : Event) : (vm.step event).Homed := by
  cases event with
  | makeBlock strict => exact homed.makeBlock strict
  | makeMethod strict => exact homed.makeMethod strict
  | procNew o => exact homed.procNew o
  | procDup o => exact homed.procDup o
  | evalInBinding upper => exact homed.evalInBinding upper
  | load scope => exact homed.load scope
  | frameEnvAt ctx i => exact homed.frameEnvAt ctx i
  | markOrphan p => exact (homed.keeps_markOrphan p).homed homed
  | orphanBlockOfNative blk =>
      exact (homed.keeps_orphanBlockOfNative blk).homed homed
  | call proc block cci => exact (homed.keeps_call proc block cci).homed homed
  | callProc p => exact (homed.keeps_callProc p).homed homed
  | advance block ensures =>
      exact (homed.keeps_advance block ensures).homed homed
  | popFrame => exact homed.keeps_popFrame.homed homed
  | dropFrame => exact homed.keeps_dropFrame.homed homed
  | switchContext ctx =>
      exact (homed.keeps_switchContext ctx).homed homed
  | dropContext ctx => exact (homed.keeps_dropContext ctx).homed homed

/-- In every state of a run the blocks are at home. -/
theorem Vm.homed_after (events : List Event) : (Vm.after events).Homed := by
  have run : ∀ vm : Vm, vm.Homed → (events.foldl Vm.step vm).Homed := by
    induction events with
    | nil => exact fun _ homed => homed
    | cons event rest ih =>
        intro vm homed
        exact ih _ (homed.step event)
  exact run _ Vm.homed_initial

end SabiRuby.Blocks
