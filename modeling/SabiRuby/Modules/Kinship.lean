import SabiRuby.Modules.Rooted

/-!
# Kinship of classes, modules and singleton classes

Links say more than that chains end.  A module stands on no chain but its own,
the include classes of prepended modules lead from their class to its origin,
and the chain of a module has only include classes and its origin.  Every way to
put a class into the graph keeps this.
-/

namespace SabiRuby.Modules.Graph

open Library

/-- A class that is no module, include class or origin. -/
def Real (g : Graph) (x : Nat) : Prop :=
  x < g.heap.classes.length ∧ (g.heap.cls x).iclassOf = none ∧
    (g.heap.cls x).originOf = none ∧ g.isModule x = false

/-- The numbers that a receiver may have. -/
def Held (g : Graph) : Receiver → Prop
  | .object k => k < g.objects
  | .class_ k => k < g.heap.classes.length

/-- What the links of a graph say about modules, origins and singleton classes.
`inside` tells which class an include class is prepended to, and `modular` holds
of what stands in the chain of a module. -/
structure Kin
    (g : Graph)
    (inside : Nat → Option Nat)
    (modular : Nat → Prop) : Prop where
  sound : g.Sound
  classes : ∀ v, g.Real (g.classOf v)
  moduleClass : g.Real g.moduleClass
  classClass : g.Real g.classClass
  iclassModule : ∀ x m, (g.heap.cls x).iclassOf = some m → g.isModule m = true
  moduleKnown : ∀ m, g.isModule m = true → m < g.heap.classes.length
  modulePlain : ∀ m, g.isModule m = true → (g.heap.cls m).iclassOf = none ∧
    (g.heap.cls m).originOf = none ∧ g.attached m = none ∧ modular m
  attachedPlain : ∀ x, g.attached x ≠ none → x < g.heap.classes.length ∧
    (g.heap.cls x).iclassOf = none ∧ (g.heap.cls x).originOf = none
  originOf : ∀ x c, (g.heap.cls x).originOf = some c →
    (g.heap.cls c).origin = some x
  linkClass : ∀ z s, g.heap.next z = some s → g.isModule s = false
  insideIclass : ∀ x c, inside x = some c →
    (g.heap.cls x).iclassOf ≠ none ∧ (g.heap.cls c).origin ≠ none
  enters : ∀ z s c, g.heap.next z = some s →
    inside s = some c ∨ (g.heap.cls s).originOf = some c →
    g.attached c = none → z = c ∨ inside z = some c
  stays : ∀ z c, (z = c ∧ (g.heap.cls c).origin ≠ none) ∨ inside z = some c →
    ∃ s, g.heap.next z = some s ∧
      (inside s = some c ∨ (g.heap.cls s).originOf = some c)
  modularStep : ∀ z s, modular z → g.heap.next z = some s → modular s ∧
    ((g.heap.cls s).iclassOf ≠ none ∨ (g.heap.cls s).originOf ≠ none) ∧
    ∀ c, (g.heap.cls s).originOf = some c → g.isModule c = true
  modularPlain : ∀ x, modular x → (g.heap.cls x).iclassOf = none →
    (g.heap.cls x).originOf = none → g.isModule x = true
  receivers : ∀ x v, g.attached x = some v → g.Held v

theorem Held.mono
    {g g' : Graph}
    (held : g.Held v)
    (objects : g.objects ≤ g'.objects)
    (count : g.heap.classes.length ≤ g'.heap.classes.length) : g'.Held v := by
  cases v with
  | object k => exact Nat.lt_of_lt_of_le held objects
  | class_ k => exact Nat.lt_of_lt_of_le held count

variable {g g' : Graph} {inside : Nat → Option Nat} {modular : Nat → Prop}

section

variable (kin : g.Kin inside modular)
include kin

theorem Kin.insertAbove
    (m : Nat)
    (module_ : g.isModule m = true)
    (here : at_ < g.heap.classes.length) :
    ∃ inside' modular',
      Kin { g with heap := g.heap.insertAbove at_ m } inside' modular' := by
  have isCls := fun x => g.heap.cls_insertAbove at_ m x here
  have grown := Heap.grown_insertAbove m here
  have sound := kin.sound.withHeap _ (kin.sound.rooted.insertAbove m here) grown
  have fresh := g.heap.cls_outside (Nat.le_refl _)
  have freshNext := g.heap.next_outside (Nat.le_refl _)
  have goes : ∀ x, (g.heap.insertAbove at_ m).next x =
      if x = g.heap.classes.length then g.heap.next at_
      else if x = at_ then some g.heap.classes.length else g.heap.next x := by
    intro x
    conv_lhs => unfold Heap.next
    rw [isCls]
    split_ifs <;> rfl
  have iclass : ∀ x, ((g.heap.insertAbove at_ m).cls x).iclassOf =
      if x = g.heap.classes.length then some m
      else (g.heap.cls x).iclassOf := by
    intro x
    rw [isCls]
    split_ifs <;> rfl
  have origin : ∀ x, ((g.heap.insertAbove at_ m).cls x).origin =
      if x = g.heap.classes.length then none else (g.heap.cls x).origin := by
    intro x
    rw [isCls]
    split_ifs <;> rfl
  have originOf : ∀ x, ((g.heap.insertAbove at_ m).cls x).originOf =
      if x = g.heap.classes.length then none
      else (g.heap.cls x).originOf := by
    intro x
    rw [isCls]
    split_ifs <;> rfl
  have known := kin.sound.rooted.known
  have plain := kin.sound.rooted.plain
  have originKnown := kin.sound.rooted.originKnown
  have longer := g.heap.length_insertAbove at_ m
  obtain ⟨_, realOf, realModule, realClass, iclassModule, moduleKnown,
    modulePlain, attachedPlain, isOrigin, linkClass, insideIclass, enters,
    stays, modularStep, modularPlain, receivers⟩ := kin
  refine ⟨fun x => if x = g.heap.classes.length then
      (if (g.heap.cls at_).origin.isSome then some at_ else inside at_)
      else inside x,
    fun x => if x = g.heap.classes.length then modular at_ else modular x, ?_⟩
  constructor
  case sound => exact sound
  case receivers =>
      intro x v single
      exact (receivers x v single).mono (Nat.le_refl _) grown.1
  all_goals
    clear receivers
    simp only [Real, goes, iclass, origin, originOf, longer] at *
  case enters =>
      clear realOf realModule realClass iclassModule moduleKnown modulePlain
        attachedPlain linkClass stays modularStep modularPlain sound grown
        isCls
      intro z s c goesZ target free
      by_cases new : z = g.heap.classes.length
      · rw [if_pos new] at goesZ ⊢
        have early : s ≠ g.heap.classes.length :=
          Nat.ne_of_lt (known at_ s goesZ)
        rw [if_neg early, if_neg early] at target
        right
        rcases enters at_ s c goesZ target free with rfl | within
        · have has : (g.heap.cls at_).origin ≠ none := by
            rcases target with insideS | originS
            · exact (insideIclass s at_ insideS).2
            · simp [isOrigin s at_ originS]
          rw [if_pos (Option.isSome_iff_ne_none.mpr has)]
        · rw [plain at_ (Or.inl (insideIclass at_ c within).1),
            if_neg (by simp)]
          exact within
      · by_cases same : z = at_
        · grind
        · have old := enters z s c
          grind
  case stays =>
      clear realOf realModule realClass iclassModule moduleKnown modulePlain
        attachedPlain linkClass enters modularStep modularPlain sound grown
        isCls
      intro z c within
      by_cases new : z = g.heap.classes.length
      · have old := stays at_ c
        grind
      · by_cases same : z = at_
        · subst same
          rw [if_neg new] at within
          refine ⟨g.heap.classes.length, by rw [if_neg new, if_pos rfl],
            Or.inl ?_⟩
          rw [if_pos rfl]
          rcases within with ⟨rfl, has⟩ | within
          · rw [if_neg new] at has
            rw [if_pos (Option.isSome_iff_ne_none.mpr has)]
          · rw [plain z (Or.inl (insideIclass z c within).1), if_neg (by simp)]
            exact within
        · have old := stays z c
          grind
  case modularStep =>
      clear realOf realModule realClass iclassModule moduleKnown modulePlain
        attachedPlain linkClass enters stays modularPlain sound grown isCls
      intro z s side goesZ
      by_cases new : z = g.heap.classes.length
      · have old := modularStep at_ s
        grind
      · by_cases same : z = at_
        · grind
        · have old := modularStep z s
          grind
  all_goals grind

theorem Kin.insertOrigin
    (h : Heap)
    (isHeap : h = g.heap.insertOrigin class_)
    (g' : Graph)
    (sound : g'.Sound)
    (heap : g'.heap = h)
    (attached : g'.attached = g.attached)
    (isModule : g'.isModule = g.isModule)
    (classOf : g'.classOf = g.classOf)
    (moduleClass : g'.moduleClass = g.moduleClass)
    (classClass : g'.classClass = g.classClass)
    (objects : g'.objects = g.objects)
    (visible : g.Visible class_)
    (none_ : (g.heap.cls class_).origin = none) :
    ∃ modular', g'.Kin inside modular' := by
  have here := visible.1
  have isCls := fun x => g.heap.cls_insertOrigin class_ x here
  have fresh := g.heap.cls_outside (Nat.le_refl _)
  have freshNext := g.heap.next_outside (Nat.le_refl _)
  have goes : ∀ x, (g.heap.insertOrigin class_).next x =
      if x = g.heap.classes.length then g.heap.next class_
      else if x = class_ then some g.heap.classes.length
      else g.heap.next x := by
    intro x
    conv_lhs => unfold Heap.next
    rw [isCls]
    split_ifs <;> rfl
  have iclass : ∀ x, ((g.heap.insertOrigin class_).cls x).iclassOf =
      if x = g.heap.classes.length then none
      else (g.heap.cls x).iclassOf := by
    intro x
    rw [isCls]
    split_ifs <;> rfl
  have origin : ∀ x, ((g.heap.insertOrigin class_).cls x).origin =
      if x = g.heap.classes.length then none
      else if x = class_ then some g.heap.classes.length
      else (g.heap.cls x).origin := by
    intro x
    rw [isCls]
    split_ifs <;> rfl
  have originOf : ∀ x, ((g.heap.insertOrigin class_).cls x).originOf =
      if x = g.heap.classes.length then some class_
      else (g.heap.cls x).originOf := by
    intro x
    rw [isCls]
    split_ifs <;> rfl
  have known := kin.sound.rooted.known
  have plain := kin.sound.rooted.plain
  have originKnown := kin.sound.rooted.originKnown
  have longer := g.heap.length_insertOrigin class_
  unfold Visible at visible
  obtain ⟨_, realOf, realModule, realClass, iclassModule, moduleKnown,
    modulePlain, attachedPlain, isOrigin, linkClass, insideIclass, enters,
    stays, modularStep, modularPlain, receivers⟩ := kin
  subst isHeap
  refine ⟨fun x => if x = g.heap.classes.length then modular class_
      else modular x, ?_⟩
  constructor
  case sound => exact sound
  case receivers =>
      intro x v single
      rw [attached] at single
      exact (receivers x v single).mono (Nat.le_of_eq objects.symm)
        (by rw [heap, longer]; exact Nat.le_succ _)
  all_goals
    clear receivers
    simp only [Real, heap, attached, isModule, classOf, moduleClass,
      classClass, goes, iclass, origin, originOf, longer] at *
  case enters =>
      intro z s c goesZ target free
      have outsideIn : ∀ d, inside g.heap.classes.length ≠ some d := by
        intro d within
        exact (insideIclass _ d within).1 (by rw [fresh])
      have classIn : ∀ d, inside class_ ≠ some d := by
        intro d within
        exact (insideIclass _ d within).1 visible.2.1
      by_cases new : z = g.heap.classes.length
      · rw [if_pos new] at goesZ
        have early : s ≠ g.heap.classes.length :=
          Nat.ne_of_lt (known class_ s goesZ)
        rw [if_neg early] at target
        rcases enters class_ s c goesZ target free with rfl | within
        · rcases target with insideS | originS
          · exact absurd none_ (insideIclass s class_ insideS).2
          · rw [isOrigin s class_ originS] at none_
            cases none_
        · exact absurd within (classIn c)
      · rw [if_neg new] at goesZ
        by_cases same : z = class_
        · rw [if_pos same] at goesZ
          rw [← Option.some.inj goesZ, if_pos rfl] at target
          rcases target with within | is
          · exact absurd within (outsideIn c)
          · exact Or.inl (same.trans (Option.some.inj is))
        · rw [if_neg same] at goesZ
          have early : s ≠ g.heap.classes.length :=
            Nat.ne_of_lt (known z s goesZ)
          rw [if_neg early] at target
          exact enters z s c goesZ target free
  case stays =>
      intro z c within
      have outsideIn : inside g.heap.classes.length ≠ some c := by
        intro within
        exact (insideIclass _ c within).1 (by rw [fresh])
      have classIn : inside class_ ≠ some c := by
        intro within
        exact (insideIclass _ c within).1 visible.2.1
      by_cases new : z = g.heap.classes.length
      · subst new
        rcases within with ⟨rfl, has⟩ | within
        · exact absurd (if_pos rfl) has
        · exact absurd within outsideIn
      · rw [if_neg new]
        by_cases same : z = class_
        · subst same
          rcases within with ⟨rfl, _⟩ | within
          · exact ⟨_, if_pos rfl, Or.inr (if_pos rfl)⟩
          · exact absurd within classIn
        · rw [if_neg same]
          have old : z = c ∧ (g.heap.cls c).origin ≠ none ∨
              inside z = some c := by
            rcases within with ⟨rfl, has⟩ | within
            · rw [if_neg new, if_neg same] at has
              exact Or.inl ⟨rfl, has⟩
            · exact Or.inr within
          obtain ⟨s, linked, target⟩ := stays z c old
          have early : s ≠ g.heap.classes.length :=
            Nat.ne_of_lt (known z s linked)
          exact ⟨s, linked, by rw [if_neg early]; exact target⟩
  all_goals grind

/-- A new class without origin or include class. -/
theorem Kin.alloc
    (superclass : Option Nat)
    (g' : Graph)
    (sound : g'.Sound)
    (heap : g'.heap = g.heap.alloc ⟨superclass, none, none, none⟩)
    (attached : ∀ x, x ≠ g.heap.classes.length →
      g'.attached x = g.attached x)
    (isModule : ∀ x, x ≠ g.heap.classes.length →
      g'.isModule x = g.isModule x)
    (single : g'.isModule g.heap.classes.length = true →
      g'.attached g.heap.classes.length = none)
    (classOf : ∀ v, g'.Real (g'.classOf v))
    (moduleClass : g'.moduleClass = g.moduleClass)
    (classClass : g'.classClass = g.classClass)
    (objects : g'.objects = g.objects)
    (held : ∀ v, g'.attached g.heap.classes.length = some v → g'.Held v)
    (above : ∀ s, superclass = some s → g.isModule s = false ∧
      s < g.heap.classes.length ∧ ∀ c, g.attached c = none →
        inside s ≠ some c ∧ (g.heap.cls s).originOf ≠ some c)
    (side : ∀ s, superclass = some s →
      g'.isModule g.heap.classes.length = true → modular s ∧
      ((g.heap.cls s).iclassOf ≠ none ∨ (g.heap.cls s).originOf ≠ none) ∧
      ∀ c, (g.heap.cls s).originOf = some c → g.isModule c = true) :
    ∃ modular', g'.Kin inside modular' := by
  have isCls := fun x => g.heap.cls_alloc ⟨superclass, none, none, none⟩ x
  have fresh := g.heap.cls_outside (Nat.le_refl _)
  have goes : ∀ x, g'.heap.next x =
      if x = g.heap.classes.length then superclass
      else g.heap.next x := by
    intro x
    rw [heap, Heap.next, isCls]
    split_ifs <;> rfl
  have iclass : ∀ x, (g'.heap.cls x).iclassOf =
      (g.heap.cls x).iclassOf := by
    intro x
    rw [heap, isCls]
    split_ifs with new
    · rw [new, fresh]
    · rfl
  have origin : ∀ x, (g'.heap.cls x).origin = (g.heap.cls x).origin := by
    intro x
    rw [heap, isCls]
    split_ifs with new
    · rw [new, fresh]
    · rfl
  have originOf : ∀ x, (g'.heap.cls x).originOf =
      (g.heap.cls x).originOf := by
    intro x
    rw [heap, isCls]
    split_ifs with new
    · rw [new, fresh]
    · rfl
  have known := kin.sound.rooted.known
  have plain := kin.sound.rooted.plain
  have originKnown := kin.sound.rooted.originKnown
  have longer : g'.heap.classes.length = g.heap.classes.length + 1 := by
    rw [heap, Heap.length_alloc]
  obtain ⟨_, realOf, realModule, realClass, iclassModule, moduleKnown,
    modulePlain, attachedPlain, isOrigin, linkClass, insideIclass, enters,
    stays, modularStep, modularPlain, receivers⟩ := kin
  refine ⟨fun x => if x = g.heap.classes.length then
      g'.isModule g.heap.classes.length = true else modular x, ?_⟩
  constructor
  case sound => exact sound
  case classes => exact classOf
  case receivers =>
      intro x v single
      by_cases new : x = g.heap.classes.length
      · exact held v (new ▸ single)
      · rw [attached x new] at single
        exact (receivers x v single).mono (Nat.le_of_eq objects.symm)
          (by rw [longer]; exact Nat.le_succ _)
  all_goals
    clear receivers held
    simp only [Real, moduleClass, classClass, goes, iclass, origin, originOf,
      longer] at *
    grind

end

/-! ## Loops -/

section

variable (kin : g.Kin inside modular)
include kin

theorem Kin.includeLoop
    (all : ∀ m ∈ mods, g.isModule m = true)
    (here : at_ < g.heap.classes.length)
    (returns : g.heap.includeLoop fuel class_ at_ mods = some h') :
    ∃ inside' modular', Kin { g with heap := h' } inside' modular' := by
  induction mods generalizing g at_ inside modular with
  | nil =>
      cases returns
      exact ⟨inside, modular, kin⟩
  | cons m mods ih =>
      rw [List.forall_mem_cons] at all
      rw [Heap.includeLoop] at returns
      cases there : g.heap.present m fuel (g.heap.next class_) with
      | none => simp [there] at returns
      | some there' =>
          cases there' with
          | true =>
              simp only [there] at returns
              exact ih kin all.2 here returns
          | false =>
              simp only [there] at returns
              obtain ⟨_, _, kin'⟩ := kin.insertAbove m all.1 here
              exact ih
                (g := { g with heap := g.heap.insertAbove at_ m }) kin' all.2
                (by
                  simp only [Heap.length_insertAbove]
                  exact Nat.lt_succ_self _) returns

theorem Kin.prependLoop
    (all : ∀ m ∈ mods, g.isModule m = true)
    (here : class_ < g.heap.classes.length)
    (returns : Graph.prependLoop fuel class_ g.heap mods = some h') :
    ∃ inside' modular', Kin { g with heap := h' } inside' modular' := by
  induction mods generalizing g inside modular with
  | nil =>
      cases returns
      exact ⟨inside, modular, kin⟩
  | cons m mods ih =>
      rw [List.forall_mem_cons] at all
      rw [Graph.prependLoop] at returns
      cases there : presentBelow g.heap m fuel (g.heap.next class_) with
      | none => simp [there] at returns
      | some there' =>
          cases there' with
          | true =>
              simp only [there] at returns
              exact ih kin all.2 here returns
          | false =>
              simp only [there] at returns
              obtain ⟨_, _, kin'⟩ := kin.insertAbove m all.1 here
              exact ih
                (g := { g with heap := g.heap.insertAbove class_ m }) kin' all.2
                (by
                  simp only [Heap.length_insertAbove]
                  exact Nat.lt_succ_of_lt here) returns

/-- The modules that a module brings along are modules. -/
theorem Kin.moduleChainFrom
    (returns : g.heap.moduleChainFrom fuel module_ c out = some mods)
    (module' : g.isModule module_ = true)
    (start : ∀ x, c = some x → modular x ∧
      ∀ d, (g.heap.cls x).originOf = some d → g.isModule d = true)
    (all : ∀ m ∈ out, g.isModule m = true) :
    ∀ m ∈ mods, g.isModule m = true := by
  induction fuel generalizing module_ c out mods with
  | zero =>
      cases c with
      | none =>
          cases returns
          exact all
      | some x => cases returns
  | succ fuel ih =>
      cases c with
      | none =>
          cases returns
          exact all
      | some x =>
          obtain ⟨side, origins⟩ := start x rfl
          have further : ∀ y, g.heap.next x = some y → modular y ∧
              ∀ d, (g.heap.cls y).originOf = some d →
                g.isModule d = true := by
            intro y linked
            obtain ⟨side', _, origins'⟩ := kin.modularStep x y side linked
            exact ⟨side', origins'⟩
          have pushed : ∀ ys out : List Nat,
              (∀ m ∈ ys, g.isModule m = true) →
              (∀ m ∈ out, g.isModule m = true) →
              ∀ m ∈ ys.foldl Heap.pushNew out, g.isModule m = true := by
            intro ys
            induction ys with
            | nil => exact fun out _ all => all
            | cons y ys hypothesis =>
                intro out allYs all
                rw [List.forall_mem_cons] at allYs
                refine hypothesis _ allYs.2 ?_
                intro m member
                unfold Heap.pushNew at member
                split_ifs at member with old
                · exact all m member
                · rcases List.mem_append.mp member with before | new
                  · exact all m before
                  · rw [List.mem_singleton.mp new]
                    exact allYs.1
          rw [Heap.moduleChainFrom] at returns
          cases isIclass : (g.heap.cls x).iclassOf with
          | some m' =>
              simp only [isIclass] at returns
              cases nested : g.heap.moduleChainFrom fuel m' (some m') [] with
              | none => simp [nested] at returns
              | some ys =>
                  simp only [nested] at returns
                  have isModule := kin.iclassModule x m' isIclass
                  have plain := kin.modulePlain m' isModule
                  have allYs := ih nested isModule
                    (by
                      rintro y ⟨⟩
                      exact ⟨plain.2.2.2, fun d is => by
                        rw [plain.2.1] at is
                        cases is⟩)
                    (by simp)
                  exact ih returns module' further
                    (pushed ys out allYs all)
          | none =>
              cases isOrigin : (g.heap.cls x).originOf with
              | some o =>
                  simp only [isIclass, isOrigin] at returns
                  exact ih returns module' further
                    (pushed [o] out (by simpa using origins o isOrigin) all)
              | none =>
                  simp only [isIclass, isOrigin] at returns
                  refine ih returns module' further ?_
                  intro m member
                  split_ifs at member with self
                  · rcases List.mem_append.mp member with before | new
                    · exact all m before
                    · rw [List.mem_singleton.mp new, self.1]
                      exact module'
                  · exact all m member

theorem Kin.moduleChain
    (returns : g.heap.moduleChain module_ fuel = some mods)
    (module' : g.isModule module_ = true) :
    ∀ m ∈ mods, g.isModule m = true := by
  have plain := kin.modulePlain module_ module'
  refine kin.moduleChainFrom returns module' ?_ (by simp)
  rintro y ⟨⟩
  exact ⟨plain.2.2.2, fun d is => by
    rw [plain.2.1] at is
    cases is⟩

theorem Kin.includeModule
    (here : class_ < g.heap.classes.length)
    (module' : g.isModule module_ = true)
    (returns : g.includeModule class_ module_ fuel = some g') :
    ∃ inside' modular', g'.Kin inside' modular' := by
  unfold Graph.includeModule Heap.includeModule at returns
  cases brings : g.heap.moduleChain module_ fuel with
  | none => simp [brings] at returns
  | some mods =>
      simp only [brings, Option.map_eq_some_iff] at returns
      obtain ⟨h', looped, rfl⟩ := returns
      exact kin.includeLoop (kin.moduleChain brings module')
        (kin.sound.rooted.defTarget_known here) looped

theorem Kin.withOrigin
    (visible : g.Visible class_) :
    ∃ modular', (g.withOrigin class_).Kin inside modular' := by
  have sound := kin.sound.withOrigin visible
  by_cases has : (g.heap.cls class_).origin.isSome = true
  · refine ⟨modular, ?_⟩
    unfold Graph.withOrigin
    rw [if_pos has]
    exact kin
  · refine kin.insertOrigin _ rfl (g.withOrigin class_) sound
      ?_ ?_ ?_ ?_ ?_ ?_ ?_ visible (by simpa using has)
    all_goals
      unfold Graph.withOrigin
      rw [if_neg has]

theorem Kin.prependModule
    (visible : g.Visible class_)
    (module' : g.isModule module_ = true)
    (returns : (g.prependModule class_ module_ fuel).map Prod.fst = some g') :
    ∃ inside' modular', g'.Kin inside' modular' := by
  obtain ⟨⟨after, _⟩, returned, rfl⟩ := Option.map_eq_some_iff.mp returns
  obtain ⟨modular₁, kin₁⟩ := kin.withOrigin visible
  have here := Nat.lt_of_lt_of_le visible.1 (g.length_withOrigin class_)
  have module₁ : (g.withOrigin class_).isModule module_ = true := by
    unfold Graph.withOrigin
    split_ifs <;> exact module'
  obtain rfl | ⟨mods, h, brings, looped, rfl⟩ := prependModule_cases returned
  · exact ⟨_, _, kin₁⟩
  · have all := kin₁.moduleChain brings module₁
    exact kin₁.prependLoop
      (fun m member => all m (List.mem_reverse.mp member)) here looped

end

/-! ## Frames -/

/-- The classes that were there are what they were, but for links and
origins. -/
structure Older (g g' : Graph) : Prop where
  count : g.heap.classes.length ≤ g'.heap.classes.length
  iclassOf : ∀ x < g.heap.classes.length,
    (g'.heap.cls x).iclassOf = (g.heap.cls x).iclassOf
  originOf : ∀ x < g.heap.classes.length,
    (g'.heap.cls x).originOf = (g.heap.cls x).originOf
  attached : ∀ x < g.heap.classes.length, g'.attached x = g.attached x
  isModule : ∀ x < g.heap.classes.length, g'.isModule x = g.isModule x

theorem Older.refl (g : Graph) : Older g g :=
  ⟨Nat.le_refl _, fun _ _ => rfl, fun _ _ => rfl, fun _ _ => rfl,
    fun _ _ => rfl⟩

theorem Older.trans
    (first : Older g g')
    (second : Older g' g'') : Older g g'' := by
  have known : ∀ x < g.heap.classes.length, x < g'.heap.classes.length :=
    fun x early => Nat.lt_of_lt_of_le early first.count
  refine ⟨Nat.le_trans first.count second.count, ?_, ?_, ?_, ?_⟩
  · intro x early
    rw [second.iclassOf x (known x early), first.iclassOf x early]
  · intro x early
    rw [second.originOf x (known x early), first.originOf x early]
  · intro x early
    rw [second.attached x (known x early), first.attached x early]
  · intro x early
    rw [second.isModule x (known x early), first.isModule x early]

theorem Older.visible
    (older : Older g g')
    (visible : g.Visible x) : g'.Visible x :=
  ⟨Nat.lt_of_lt_of_le visible.1 older.count,
    (older.iclassOf x visible.1).trans visible.2.1,
    (older.originOf x visible.1).trans visible.2.2⟩

theorem Older.real
    (older : Older g g')
    (real : g.Real x) : g'.Real x :=
  ⟨Nat.lt_of_lt_of_le real.1 older.count,
    (older.iclassOf x real.1).trans real.2.1,
    (older.originOf x real.1).trans real.2.2.1,
    (older.isModule x real.1).trans real.2.2.2⟩

theorem older_insertAbove
    (m : Nat)
    (here : at_ < g.heap.classes.length) :
    Older g { g with heap := g.heap.insertAbove at_ m } := by
  have grows := Heap.extends_insertAbove at_ m here
  exact ⟨grows.count, grows.iclassOf, grows.originOf, fun _ _ => rfl,
    fun _ _ => rfl⟩

theorem older_withOrigin
    (here : class_ < g.heap.classes.length) :
    Older g (g.withOrigin class_) := by
  unfold withOrigin
  split_ifs with has
  · exact Older.refl g
  · have isCls := fun x => g.heap.cls_insertOrigin class_ x here
    refine ⟨?_, ?_, ?_, fun _ _ => rfl, fun _ _ => rfl⟩
    · simp only [Heap.length_insertOrigin]
      exact Nat.le_succ _
    · intro x early
      simp only [isCls, if_neg (Nat.ne_of_lt early)]
      split_ifs <;> rfl
    · intro x early
      simp only [isCls, if_neg (Nat.ne_of_lt early)]
      split_ifs <;> rfl

theorem older_prependLoop
    (here : class_ < g.heap.classes.length)
    (returns : Graph.prependLoop fuel class_ g.heap mods = some h') :
    Older g { g with heap := h' } := by
  induction mods generalizing g with
  | nil =>
      cases returns
      exact Older.refl g
  | cons m mods ih =>
      rw [Graph.prependLoop] at returns
      cases there : presentBelow g.heap m fuel (g.heap.next class_) with
      | none => simp [there] at returns
      | some there' =>
          cases there' with
          | true =>
              simp only [there] at returns
              exact ih here returns
          | false =>
              simp only [there] at returns
              have once := older_insertAbove (g := g) m here
              exact once.trans (ih
                (g := { g with heap := g.heap.insertAbove class_ m })
                (Nat.lt_of_lt_of_le here once.count) returns)

/-- A singleton class that no link leads to yet. -/
def Loose (g : Graph) (sc : Nat) : Prop :=
  g.attached sc ≠ none ∧ (g.heap.cls sc).origin = none ∧
    ∀ z, g.heap.next z ≠ some sc

section

variable (kin : g.Kin inside modular)
include kin

theorem Kin.inside_real
    (plain : (g.heap.cls x).iclassOf = none)
    (c : Nat) : inside x ≠ some c :=
  fun within => (kin.insideIclass x c within).1 plain

/-- A new singleton class is above a class that is real. -/
theorem Kin.addSingleton
    (v : Receiver)
    (held : g.Held v)
    (real : g.Real sup) :
    (∃ modular', (g.addSingleton v sup).1.Kin inside modular') ∧
      (g.addSingleton v sup).1.Real (g.addSingleton v sup).2 ∧
      (g.addSingleton v sup).1.Loose (g.addSingleton v sup).2 ∧
      (∀ x < g.heap.classes.length,
        (g.addSingleton v sup).1.heap.cls x = g.heap.cls x) ∧
      Older g (g.addSingleton v sup).1 := by
  have sound := (kin.sound.addSingleton v real.1).1
  have isCls := fun x => g.heap.cls_alloc ⟨some sup, none, none, none⟩ x
  have length := g.heap.length_alloc ⟨some sup, none, none, none⟩
  have notModule : g.isModule g.heap.classes.length = false := by
    by_contra module_
    have known := kin.moduleKnown _ (by simpa using module_)
    exact Nat.lt_irrefl _ known
  have kept : ∀ x < g.heap.classes.length,
      (g.addSingleton v sup).1.heap.cls x = g.heap.cls x := by
    intro x early
    simp only [Graph.addSingleton, Graph.alloc, isCls,
      if_neg (Nat.ne_of_lt early)]
  have older : Older g (g.addSingleton v sup).1 := by
    refine ⟨?_, ?_, ?_, ?_, fun _ _ => rfl⟩
    · simp only [Graph.addSingleton, Graph.alloc, length]
      exact Nat.le_succ _
    · intro x early
      rw [kept x early]
    · intro x early
      rw [kept x early]
    · intro x early
      exact Function.update_of_ne (Nat.ne_of_lt early) _ _
  have realNew : (g.addSingleton v sup).1.Real (g.addSingleton v sup).2 := by
    refine ⟨?_, ?_, ?_, notModule⟩
    · simp only [Graph.addSingleton, Graph.alloc, length]
      exact Nat.lt_succ_self _
    · simp only [Graph.addSingleton, Graph.alloc, isCls, if_pos]
    · simp only [Graph.addSingleton, Graph.alloc, isCls, if_pos]
  refine ⟨?_, realNew, ⟨?_, ?_, ?_⟩, kept, older⟩
  · refine kin.alloc (some sup) _ sound rfl ?_ (fun _ _ => rfl) ?_ ?_ rfl rfl
      rfl ?_ ?_ ?_
    · intro x other
      exact Function.update_of_ne other _ _
    · intro module_
      rw [show (g.addSingleton v sup).1.isModule = g.isModule from rfl,
        notModule] at module_
      cases module_
    · intro w
      by_cases same : w = v
      · subst same
        have is : (g.addSingleton w sup).1.classOf w =
            (g.addSingleton w sup).2 := Function.update_self _ _ _
        rw [is]
        exact realNew
      · have is : (g.addSingleton v sup).1.classOf w = g.classOf w :=
          Function.update_of_ne same _ _
        rw [is]
        exact older.real (kin.classes w)
    · intro w single
      have is : (g.addSingleton v sup).1.attached g.heap.classes.length =
          some v := Function.update_self _ _ _
      rw [is] at single
      exact Option.some.inj single ▸ held.mono (Nat.le_refl _) older.count
    · rintro s ⟨⟩
      refine ⟨real.2.2.2, real.1, fun c _ => ⟨kin.inside_real real.2.1 c, ?_⟩⟩
      rw [real.2.2.1]
      simp
    · intro s _ module_
      rw [show (g.addSingleton v sup).1.isModule = g.isModule from rfl,
        notModule] at module_
      cases module_
  · simp [Graph.addSingleton]
  · simp only [Graph.addSingleton, Graph.alloc, isCls, if_pos]
  · intro z linked
    simp only [Graph.addSingleton, Graph.alloc, Heap.next, isCls] at linked
    by_cases new : z = g.heap.classes.length
    · rw [if_pos new] at linked
      exact Nat.ne_of_lt real.1 (Option.some.inj linked)
    · rw [if_neg new] at linked
      exact Nat.lt_irrefl _ (kin.sound.rooted.known z _ linked)

theorem Kin.attached_real
    (single : g.attached x ≠ none) : g.Real x := by
  obtain ⟨known, notIclass, notOrigin⟩ := kin.attachedPlain x single
  refine ⟨known, notIclass, notOrigin, ?_⟩
  by_contra module_
  exact single (kin.modulePlain x (by simpa using module_)).2.2.1

theorem Kin.singletonClass
    (held : g.Held v)
    (returns : Graph.singletonClass fuel g v = some (g', sc)) :
    (∃ modular', g'.Kin inside modular') ∧ g'.Real sc ∧
      g'.classOf v = sc ∧
      (g.attached (g.classOf v) ≠ some v → g'.Loose sc) ∧
      (∀ x < g.heap.classes.length, g'.heap.cls x = g.heap.cls x) ∧
      Older g g' ∧ g'.objects = g.objects := by
  induction fuel generalizing v g' sc with
  | zero => cases returns
  | succ fuel ih =>
      have added := fun sup (real : g.Real sup) => kin.addSingleton v held real
      rw [Graph.singletonClass.eq_def] at returns
      simp only at returns
      by_cases own : g.attached (g.classOf v) = some v
      · rw [if_pos own] at returns
        cases returns
        exact ⟨⟨modular, kin⟩, kin.classes v, rfl,
          fun other => absurd own other,
          fun _ _ => rfl, Older.refl g, rfl⟩
      · rw [if_neg own] at returns
        have done : ∀ sup, g.Real sup → g.addSingleton v sup = (g', sc) →
            (∃ modular', g'.Kin inside modular') ∧ g'.Real sc ∧
              g'.classOf v = sc ∧
              (g.attached (g.classOf v) ≠ some v → g'.Loose sc) ∧
              (∀ x < g.heap.classes.length,
                g'.heap.cls x = g.heap.cls x) ∧ Older g g' ∧
              g'.objects = g.objects := by
          intro sup real is
          obtain ⟨kin', real', loose, kept, older⟩ := added sup real
          have classOf : (g.addSingleton v sup).1.classOf v =
            (g.addSingleton v sup).2 := Function.update_self _ _ _
          have objects : (g.addSingleton v sup).1.objects = g.objects := rfl
          rw [is] at kin' real' loose kept older classOf objects
          exact ⟨kin', real', classOf, fun _ => loose, kept, older, objects⟩
        cases v with
        | object n => exact done _ (kin.classes _) (Option.some.inj returns)
        | class_ o =>
            simp only at returns
            by_cases module_ : g.isModule o = true
            · rw [if_pos module_] at returns
              exact done _ (kin.classes _) (Option.some.inj returns)
            · rw [if_neg module_] at returns
              cases linked : g.heap.next o with
              | none =>
                  simp only [linked] at returns
                  exact done _ (kin.classes _) (Option.some.inj returns)
              | some s =>
                  simp only [linked] at returns
                  by_cases single : (g.attached s).isSome = true
                  · rw [if_pos single] at returns
                    exact done _ (kin.attached_real
                      (Option.isSome_iff_ne_none.mp single))
                      (Option.some.inj returns)
                  · rw [if_neg single] at returns
                    cases above : Graph.singletonClass fuel g (.class_ s) with
                    | none => simp [above] at returns
                    | some made =>
                        obtain ⟨g₁, sup⟩ := made
                        simp only [above] at returns
                        have heldAbove : g.Held (.class_ s) :=
                          kin.sound.rooted.known o s linked
                        obtain ⟨⟨_, kin₁⟩, real₁, _, _, kept₁, older₁,
                          objects₁⟩ := ih heldAbove above
                        obtain ⟨kin', real', loose, kept, older⟩ :=
                          kin₁.addSingleton (.class_ o)
                            (held.mono (Nat.le_of_eq objects₁.symm)
                              older₁.count) real₁
                        have classOf :
                            (g₁.addSingleton (.class_ o) sup).1.classOf
                              (.class_ o) =
                            (g₁.addSingleton (.class_ o) sup).2 :=
                          Function.update_self _ _ _
                        have objects :
                            (g₁.addSingleton (.class_ o) sup).1.objects =
                              g.objects := objects₁
                        rw [Option.some.inj returns]
                          at kin' real' loose kept older classOf objects
                        refine ⟨kin', real', classOf, fun _ => loose, ?_,
                          older₁.trans older, objects⟩
                        intro x early
                        rw [kept x (Nat.lt_of_lt_of_le early older₁.count),
                          kept₁ x early]

end

end SabiRuby.Modules.Graph
