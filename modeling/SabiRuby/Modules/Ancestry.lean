import SabiRuby.Modules.Copies
import SabiRuby.Modules.Listings

/-!
# One ancestry

The queries about ancestors walk the same chain, each with a rule of its own for
the include classes, origins and singleton classes on it.  They agree on modules
always, and on the superclass where no module is prepended.
-/

namespace SabiRuby.Modules.Graph

open Library

variable {g : Graph} {inside : Nat → Option Nat} {modular : Nat → Prop}

/-! ## Queries -/

/-- The loop of `superclass`. -/
def superclassFrom (g : Graph) : Nat → Option Nat → Option (Option Nat)
  | _, none => some none
  | 0, some _ => none
  | fuel + 1, some x =>
      if (g.heap.cls x).iclassOf = none ∧ g.attached x = none then
        some (some x)
      else g.superclassFrom fuel (g.heap.next x)

/-- `Class#superclass` -/
def superclass (g : Graph) (class_ fuel : Nat) : Option (Option Nat) :=
  g.superclassFrom fuel (g.heap.next class_)

/-- The loop of `included_modules`. -/
def includedFrom (g : Graph) (origin : Nat) :
    Nat → Option Nat → Option (List Nat)
  | _, none => some []
  | 0, some _ => none
  | fuel + 1, some x =>
      (g.includedFrom origin fuel (g.heap.next x)).map
        ((if x ≠ origin ∧ (g.heap.cls x).originOf = none then
          (g.heap.cls x).iclassOf.filter g.isModule else none).toList ++ ·)

/-- `included_modules` -/
def includedModules (g : Graph) (me fuel : Nat) : Option (List Nat) :=
  g.includedFrom (g.heap.defTarget me) fuel (some me)

/-- `is_ancestor` -/
def isAncestor (g : Graph) (klass sup fuel : Nat) : Option Bool :=
  moduleChainContains g.heap sup fuel (some klass)

/-- `compare_hierarchy`, which is `Module#<=` -/
def compareHierarchy (g : Graph) (s o fuel : Nat) : Option (Option Bool) :=
  match g.isAncestor s o fuel with
  | none => none
  | some true => some (some true)
  | some false =>
      (g.isAncestor o s fuel).map fun below =>
        if below then some false else none

/-- `Module#include?` -/
def includes (g : Graph) (s m fuel : Nat) : Option Bool :=
  g.heap.present m fuel (g.heap.next s)

/-- `obj_is_kind_of`, which is `is_a?` and `Module#===` -/
def isKindOf (g : Graph) (v : Receiver) (class_ fuel : Nat) : Option Bool :=
  moduleChainContains g.heap class_ fuel (some (g.classOf v))

/-- What a program can name: no include class, origin or singleton class. -/
def Nameable (g : Graph) (c : Nat) : Prop :=
  g.Visible c ∧ g.attached c = none

/-- The classes that ancestors show. -/
def shownOf (g : Graph) (chain : List Nat) : List Nat :=
  chain.filterMap g.heap.shown

/-- The reflection of a class shows one ancestry. -/
structure OneAncestry (g : Graph) (class_ : Nat) : Prop where
  ancestors : ∃ shown, Returns (g.heap.ancestors class_) shown ∧
    ∀ c ∈ shown, g.Nameable c
  modules : ∃ mods, Returns (g.includedModules class_) mods ∧
    ∀ c ∈ mods, g.Nameable c ∧ g.isModule c = true
  superclass : g.isModule class_ = false → ∃ shown front mods above sup,
    Returns (g.heap.ancestors class_) shown ∧
    Returns (g.superclass class_) sup ∧
    shown = front ++ class_ :: mods ++ above ∧
    (∀ m ∈ front ++ mods, g.isModule m = true) ∧
    match sup with
    | none => above = []
    | some s => g.Nameable s ∧ g.isModule s = false ∧
        Returns (g.heap.ancestors s) above
  queries : ∀ m, g.isModule m = true → ∃ shown,
    Returns (g.heap.ancestors class_) shown ∧
    (∃ order, Returns (g.compareHierarchy class_ m) order ∧
      (order = some true ↔ m ∈ shown)) ∧
    (m ≠ class_ →
      Returns (g.includes class_ m) (decide (m ∈ shown))) ∧
    ∀ v, g.classOf v = class_ →
      Returns (g.isKindOf v m) (decide (m ∈ shown))

/-! ## Chains -/

theorem contains_eq
    (links : LinkChain h.next x chain)
    (enough : chain.length ≤ fuel)
    (c : Nat) :
    moduleChainContains h c fuel (some x) =
      some (decide (c ∈ chain ∨ c ∈ h.modulesOf chain)) := by
  induction links generalizing fuel with
  | last x ends =>
      obtain ⟨fuel, rfl, _⟩ := fuel_of_cons enough
      rw [moduleChainContains, ends]
      by_cases here : x = c ∨ (h.cls x).iclassOf = some c
      · rw [if_pos here]
        rcases here with rfl | is
        · simp
        · simp [Heap.modulesOf, is]
      · rw [if_neg here, moduleChainContains]
        rw [not_or] at here
        simp [Heap.modulesOf, Ne.symm here.1, here.2]
  | link x y chain linked _ ih =>
      obtain ⟨fuel, rfl, less⟩ := fuel_of_cons enough
      rw [moduleChainContains, linked]
      by_cases here : x = c ∨ (h.cls x).iclassOf = some c
      · rw [if_pos here]
        rcases here with rfl | is
        · simp
        · simp [Heap.modulesOf, is]
      · rw [if_neg here, ih less]
        rw [not_or] at here
        simp [Heap.modulesOf, Ne.symm here.1, here.2]

/-- What is behind the first point of a chain has a link to it. -/
theorem linked_of_mem
    (links : LinkChain next x chain)
    (member : y ∈ chain) : y = x ∨ ∃ z, next z = some y := by
  induction links with
  | last x _ => exact Or.inl (List.mem_singleton.mp member)
  | link x z chain linked _ ih =>
      rcases List.mem_cons.mp member with first | later
      · exact Or.inl first
      · rcases ih later with rfl | other
        · exact Or.inr ⟨x, linked⟩
        · exact Or.inr other

section

variable (kin : g.Kin inside modular)
include kin

/-- A module is only on its own chain. -/
theorem Kin.module_mem
    (links : LinkChain g.heap.next x chain)
    (module_ : g.isModule m = true)
    (member : m ∈ chain) : m = x := by
  rcases linked_of_mem links member with same | ⟨z, linked⟩
  · exact same
  · rw [kin.linkClass z m linked] at module_
    cases module_

/-- The origin of a class is behind it on every chain of a class. -/
theorem Kin.origin_behind
    (links : LinkChain g.heap.next x chain)
    (free : g.attached c = none)
    (member : y ∈ chain)
    (within : inside y = some c ∨ (g.heap.cls y).originOf = some c) :
    c ∈ chain ∨ inside x = some c ∨ (g.heap.cls x).originOf = some c := by
  induction links with
  | last x _ =>
      rw [List.mem_singleton.mp member] at within
      exact Or.inr within
  | link x z chain linked _ ih =>
      rcases List.mem_cons.mp member with rfl | later
      · exact Or.inr within
      · rcases ih later with there | enters
        · exact Or.inl (List.mem_cons_of_mem x there)
        · rcases kin.enters x z c linked enters free with rfl | goesOn
          · exact Or.inl List.mem_cons_self
          · exact Or.inr (Or.inl goesOn)

/-- From a class with prepended modules the chain leads through their include
classes to its origin. -/
theorem Kin.front
    (links : LinkChain g.heap.next z chain)
    (within : (z = c ∧ (g.heap.cls c).origin ≠ none) ∨ inside z = some c) :
    ∃ front o rest, chain = z :: front ++ o :: rest ∧
      (g.heap.cls o).originOf = some c ∧ ∀ y ∈ front, inside y = some c := by
  induction links with
  | last z ends =>
      obtain ⟨s, linked, _⟩ := kin.stays z c within
      rw [ends] at linked
      cases linked
  | link z y chain linked links ih =>
      obtain ⟨s, linked', goesOn⟩ := kin.stays z c within
      obtain rfl := Option.some.inj (linked.symm.trans linked')
      rcases goesOn with inside' | isOrigin
      · obtain ⟨front, o, rest, split, isOrigin, all⟩ :=
          ih (Or.inr inside')
        refine ⟨y :: front, o, rest, by rw [split]; rfl, isOrigin, ?_⟩
        rw [List.forall_mem_cons]
        exact ⟨inside', all⟩
      · obtain ⟨rest, rfl⟩ := links.exists_eq_cons
        exact ⟨[], y, rest, rfl, isOrigin, by simp⟩

theorem Kin.origin_visible
    (isOrigin : (g.heap.cls x).originOf = some c) : g.Visible c := by
  have has := kin.originOf x c isOrigin
  refine ⟨?_, ?_, ?_⟩
  · by_contra late
    rw [Heap.cls_outside (Nat.le_of_not_lt late)] at has
    cases has
  · by_contra iclass
    rw [kin.sound.rooted.plain c (Or.inl iclass)] at has
    cases has
  · by_contra origin
    rw [kin.sound.rooted.plain c (Or.inr origin)] at has
    cases has

theorem Kin.module_nameable
    (module_ : g.isModule m = true) : g.Nameable m := by
  have plain := kin.modulePlain m module_
  exact ⟨⟨kin.moduleKnown m module_, plain.1, plain.2.1⟩, plain.2.2.1⟩

end

/-- No class of the chain is a singleton class or an origin of one. -/
def FreeOfSingletons (g : Graph) (chain : List Nat) : Prop :=
  ∀ x ∈ chain, g.attached x = none ∧
    ∀ c, (g.heap.cls x).originOf = some c → g.attached c = none

theorem chain_known
    (sound : g.Sound)
    (links : LinkChain g.heap.next x chain)
    (known : x < g.heap.classes.length) :
    ∀ y ∈ chain, y < g.heap.classes.length := by
  intro y member
  rcases linked_of_mem links member with rfl | ⟨z, linked⟩
  · exact known
  · exact sound.rooted.known z y linked

/-- Ancestors are nameable exactly if no singleton class is on the chain. -/
theorem Kin.shown_nameable_iff
    (kin : g.Kin inside modular)
    (links : LinkChain g.heap.next x chain)
    (known : x < g.heap.classes.length) :
    (∀ c ∈ g.shownOf chain, g.Nameable c) ↔ g.FreeOfSingletons chain := by
  have early := chain_known kin.sound links known
  constructor
  · intro nameable y member
    have free : ∀ c, (g.heap.cls y).originOf = some c →
        g.attached c = none := by
      intro c isOrigin
      have plain := kin.sound.rooted.plain y (Or.inr (by simp [isOrigin]))
      have notIclass := (kin.sound.rooted.originOf c y
        (kin.originOf y c isOrigin)).2
      refine (nameable c (List.mem_filterMap.mpr ⟨y, member, ?_⟩)).2
      simp [Heap.shown, plain, notIclass, isOrigin]
    refine ⟨?_, free⟩
    by_contra single
    obtain ⟨_, notIclass, notOrigin⟩ := kin.attachedPlain y single
    by_cases has : (g.heap.cls y).origin = none
    · refine single (nameable y (List.mem_filterMap.mpr ⟨y, member, ?_⟩)).2
      simp [Heap.shown, has, notIclass, notOrigin]
    · obtain ⟨before, after, split⟩ := List.append_of_mem member
      rw [split] at links
      obtain ⟨front, o, rest, split', isOrigin, _⟩ :=
        kin.front links.behind (Or.inl ⟨rfl, has⟩)
      have plain := kin.sound.rooted.plain o (Or.inr (by simp [isOrigin]))
      have notIclass' := (kin.sound.rooted.originOf y o
        (kin.originOf o y isOrigin)).2
      have there : o ∈ chain := by
        rw [split, split']
        simp
      refine single (nameable y (List.mem_filterMap.mpr ⟨o, there, ?_⟩)).2
      simp [Heap.shown, plain, notIclass', isOrigin]
  · intro free c member
    obtain ⟨y, there, is⟩ := List.mem_filterMap.mp member
    unfold Heap.shown at is
    split_ifs at is with has
    cases isIclass : (g.heap.cls y).iclassOf with
    | some m =>
        rw [isIclass] at is
        have same : m = c := by simpa using is
        exact same ▸ kin.module_nameable (kin.iclassModule y m isIclass)
    | none =>
        cases isOrigin : (g.heap.cls y).originOf with
        | some d =>
            rw [isIclass, isOrigin] at is
            have same : d = c := by simpa using is
            subst same
            exact ⟨kin.origin_visible isOrigin, (free y there).2 d isOrigin⟩
        | none =>
            rw [isIclass, isOrigin] at is
            have same : y = c := by simpa using is
            subst same
            exact ⟨⟨early y there, isIclass, isOrigin⟩, (free y there).1⟩

/-! ## The queries on a chain -/

theorem mem_shown_iff
    (kin : g.Kin inside modular)
    (links : LinkChain g.heap.next class_ chain)
    (visible : g.Visible class_)
    (module_ : g.isModule m = true) :
    m ∈ g.shownOf chain ↔ m = class_ ∨ m ∈ g.heap.modulesOf chain := by
  have plainM := kin.modulePlain m module_
  constructor
  · intro member
    obtain ⟨y, there, is⟩ := List.mem_filterMap.mp member
    unfold Heap.shown at is
    split_ifs at is with has
    cases isIclass : (g.heap.cls y).iclassOf with
    | some m' =>
        rw [isIclass] at is
        have same : m' = m := by simpa using is
        exact Or.inr (List.mem_filterMap.mpr ⟨y, there, same ▸ isIclass⟩)
    | none =>
        cases isOrigin : (g.heap.cls y).originOf with
        | some d =>
            rw [isIclass, isOrigin] at is
            have same : d = m := by simpa using is
            rw [same] at isOrigin
            rcases kin.origin_behind links plainM.2.2.1 there
              (Or.inr isOrigin) with on | within | origin
            · exact Or.inl (kin.module_mem links module_ on)
            · exact absurd within (kin.inside_real visible.2.1 m)
            · rw [visible.2.2] at origin
              cases origin
        | none =>
            rw [isIclass, isOrigin] at is
            have same : y = m := by simpa using is
            exact Or.inl (kin.module_mem links module_ (same ▸ there))
  · rintro (rfl | member)
    · by_cases has : (g.heap.cls m).origin = none
      · refine List.mem_filterMap.mpr ⟨m, links.mem_self, ?_⟩
        simp [Heap.shown, has, plainM.1, plainM.2.1]
      · obtain ⟨front, o, rest, split, isOrigin, _⟩ :=
          kin.front links (Or.inl ⟨rfl, has⟩)
        have plain := kin.sound.rooted.plain o (Or.inr (by simp [isOrigin]))
        have notIclass := (kin.sound.rooted.originOf m o
          (kin.originOf o m isOrigin)).2
        refine List.mem_filterMap.mpr ⟨o, by simp [split], ?_⟩
        simp [Heap.shown, plain, notIclass, isOrigin]
    · obtain ⟨y, there, is⟩ := List.mem_filterMap.mp member
      have plain := kin.sound.rooted.plain y (Or.inl (by simp [is]))
      refine List.mem_filterMap.mpr ⟨y, there, ?_⟩
      simp [Heap.shown, plain, is]

theorem superclassFrom_eq
    (links : LinkChain g.heap.next x chain)
    (enough : chain.length ≤ fuel) :
    g.superclassFrom fuel (some x) = some (chain.find? fun y =>
      decide ((g.heap.cls y).iclassOf = none ∧ g.attached y = none)) := by
  induction links generalizing fuel with
  | last x ends =>
      obtain ⟨fuel, rfl, _⟩ := fuel_of_cons enough
      rw [superclassFrom, ends]
      by_cases here : (g.heap.cls x).iclassOf = none ∧ g.attached x = none
      · rw [if_pos here, List.find?_cons_of_pos (by simpa using here)]
      · rw [if_neg here, List.find?_cons_of_neg (by simpa using here)]
        cases fuel <;> rfl
  | link x y chain linked _ ih =>
      obtain ⟨fuel, rfl, less⟩ := fuel_of_cons enough
      rw [superclassFrom, linked]
      by_cases here : (g.heap.cls x).iclassOf = none ∧ g.attached x = none
      · rw [if_pos here, List.find?_cons_of_pos (by simpa using here)]
      · rw [if_neg here, ih less,
          List.find?_cons_of_neg (by simpa using here)]

theorem superclass_returns
    (links : LinkChain g.heap.next x (x :: rest)) :
    Returns (g.superclass x) (rest.find? fun y =>
      decide ((g.heap.cls y).iclassOf = none ∧ g.attached y = none)) := by
  refine ⟨rest.length, fun fuel enough => ?_⟩
  unfold superclass
  cases linked : g.heap.next x with
  | none =>
      rw [links.tail_of_none linked]
      cases fuel <;> rfl
  | some y => exact superclassFrom_eq (links.tail_of_some linked) enough

theorem includedFrom_eq
    (links : LinkChain g.heap.next x chain)
    (enough : chain.length ≤ fuel)
    (origin : Nat) :
    g.includedFrom origin fuel (some x) = some (chain.filterMap fun y =>
      if y ≠ origin ∧ (g.heap.cls y).originOf = none then
        (g.heap.cls y).iclassOf.filter g.isModule else none) := by
  induction links generalizing fuel with
  | last x ends =>
      obtain ⟨fuel, rfl, _⟩ := fuel_of_cons enough
      rw [includedFrom, ends]
      have ended : g.includedFrom origin fuel none = some [] := by
        cases fuel <;> rfl
      rw [ended, Option.map_some, List.filterMap_cons]
      generalize (if x ≠ origin ∧ (g.heap.cls x).originOf = none then
        (g.heap.cls x).iclassOf.filter g.isModule else none) = own
      cases own <;> rfl
  | link x y chain linked _ ih =>
      obtain ⟨fuel, rfl, less⟩ := fuel_of_cons enough
      rw [includedFrom, linked, ih less, Option.map_some,
        List.filterMap_cons]
      generalize (if x ≠ origin ∧ (g.heap.cls x).originOf = none then
        (g.heap.cls x).iclassOf.filter g.isModule else none) = own
      cases own <;> rfl

/-- What is between a class without origin and its superclass is include
classes. -/
theorem split_find (p : Nat → Bool) (rest : List Nat) :
    (rest.find? p = none ∧ ∀ y ∈ rest, p y = false) ∨
      ∃ before s after, rest = before ++ s :: after ∧
        rest.find? p = some s ∧ p s = true ∧ ∀ y ∈ before, p y = false := by
  induction rest with
  | nil => exact Or.inl ⟨rfl, by simp⟩
  | cons y rest ih =>
      by_cases here : p y = true
      · exact Or.inr ⟨[], y, rest, rfl, List.find?_cons_of_pos here, here,
          by simp⟩
      · have away : p y = false := by simpa using here
        rcases ih with
          ⟨nothing, all⟩ | ⟨before, s, after, split, finds, is, all⟩
        · refine Or.inl ⟨by rw [List.find?_cons_of_neg here, nothing], ?_⟩
          rw [List.forall_mem_cons]
          exact ⟨away, all⟩
        · refine Or.inr ⟨y :: before, s, after, by rw [split]; rfl,
            by rw [List.find?_cons_of_neg here, finds], is, ?_⟩
          rw [List.forall_mem_cons]
          exact ⟨away, all⟩

/-- The first class above one without an origin is no origin itself. -/
theorem Kin.above_plain
    (kin : g.Kin inside modular)
    (visible : g.Visible class_)
    (noOrigin : (g.heap.cls class_).origin = none)
    (links : LinkChain g.heap.next class_ (class_ :: before ++ s :: after))
    (free : ∀ c, (g.heap.cls s).originOf = some c → g.attached c = none)
    (iclasses : ∀ y ∈ before, (g.heap.cls y).iclassOf ≠ none) :
    (g.heap.cls s).originOf = none := by
  by_contra origin
  obtain ⟨c, isOrigin⟩ := Option.ne_none_iff_exists'.mp origin
  have has := kin.originOf s c isOrigin
  have plain := kin.origin_visible isOrigin
  have behind : LinkChain g.heap.next s (s :: after) := links.behind
  rcases kin.origin_behind links (free c isOrigin)
    (by simp) (Or.inr isOrigin) with there | within | isOrigin'
  · rcases List.mem_append.mp there with early | late
    · rcases List.mem_cons.mp early with rfl | inside'
      · rw [noOrigin] at has
        cases has
      · exact iclasses c inside' plain.2.1
    · rcases List.mem_cons.mp late with rfl | later
      · rw [plain.2.2] at isOrigin
        cases isOrigin
      · -- the class would stand above its own origin
        obtain ⟨front, rest, split⟩ := List.append_of_mem later
        rw [split] at behind
        have own : LinkChain g.heap.next c (c :: rest) := by
          have whole : LinkChain g.heap.next s
              ((s :: front) ++ c :: rest) := behind
          exact whole.behind
        obtain ⟨front', o, rest', split', isOrigin', _⟩ :=
          kin.front own (Or.inl ⟨rfl, by simp [has]⟩)
        have same : o = s := by
          have has' := kin.originOf o c isOrigin'
          rw [has] at has'
          exact (Option.some.inj has').symm
        have twice : s ∈ c :: rest := by
          rw [split', ← same]
          simp
        have distinct := behind.nodup
        rw [List.nodup_cons] at distinct
        exact distinct.1 (List.mem_append_right front twice)
  · exact kin.inside_real visible.2.1 c within
  · rw [visible.2.2] at isOrigin'
    cases isOrigin'

/-- A class shows one ancestry exactly if it is a module or has no module
prepended, and no singleton class is on its chain. -/
theorem Kin.oneAncestry_iff
    (kin : g.Kin inside modular)
    (visible : g.Visible class_)
    (links : LinkChain g.heap.next class_ chain) :
    g.OneAncestry class_ ↔
      (g.isModule class_ = true ∨ (g.heap.cls class_).origin = none) ∧
        g.FreeOfSingletons chain := by
  have shows := Heap.ancestors_returns links
  have nameable := kin.shown_nameable_iff links visible.1
  obtain ⟨rest, split⟩ := links.exists_eq_cons
  have linksCons : LinkChain g.heap.next class_ (class_ :: rest) :=
    split ▸ links
  have superclasses := superclass_returns linksCons
  constructor
  · rintro ⟨⟨shown, lists, all⟩, _, superclass, _⟩
    obtain rfl := shows.unique lists
    refine ⟨?_, nameable.mp all⟩
    by_contra neither
    rw [not_or] at neither
    obtain ⟨_, _, _, _, sup, _, finds, _, _, isSup⟩ :=
      superclass (by simpa using neither.1)
    obtain rfl := superclasses.unique finds
    obtain ⟨front, o, rest', split', isOrigin, within⟩ :=
      kin.front linksCons (Or.inl ⟨rfl, neither.2⟩)
    have isRest : rest = front ++ o :: rest' := (List.cons.inj split').2
    have notIclass := (kin.sound.rooted.originOf class_ o
      (kin.originOf o class_ isOrigin)).2
    have free : g.attached o = none := by
      by_contra single
      rw [(kin.attachedPlain o single).2.2] at isOrigin
      cases isOrigin
    have finds' : (rest.find? fun y => decide
        ((g.heap.cls y).iclassOf = none ∧ g.attached y = none)) =
        some o := by
      rw [isRest, List.find?_append, List.find?_eq_none.mpr,
        Option.none_or, List.find?_cons_of_pos (by simp [notIclass, free])]
      intro y member
      have iclass := (kin.insideIclass y class_ (within y member)).1
      simp [iclass]
    rw [finds'] at isSup
    have bad := isSup.1.1.2.2
    rw [isOrigin] at bad
    cases bad
  · rintro ⟨condition, free⟩
    have all := nameable.mpr free
    refine ⟨⟨_, shows, all⟩, ?_, ?_, ?_⟩
    · refine ⟨_, ⟨chain.length, fun fuel enough =>
        includedFrom_eq links enough _⟩, ?_⟩
      intro m member
      obtain ⟨y, _, is⟩ := List.mem_filterMap.mp member
      split_ifs at is
      have module_ := (Option.filter_eq_some_iff.mp is).2
      exact ⟨kin.module_nameable module_, module_⟩
    · intro notModule
      have noOrigin : (g.heap.cls class_).origin = none := by
        rcases condition with module_ | noOrigin
        · rw [module_] at notModule
          cases notModule
        · exact noOrigin
      have own : g.heap.shown class_ = some class_ := by
        simp [Heap.shown, noOrigin, visible.2.1, visible.2.2]
      have freeRest : ∀ y ∈ rest, g.attached y = none := fun y member =>
        (free y (by rw [split]; exact List.mem_cons_of_mem _ member)).1
      have iclassOf : ∀ y ∈ rest, decide ((g.heap.cls y).iclassOf = none ∧
          g.attached y = none) = false → (g.heap.cls y).iclassOf ≠ none := by
        intro y member away is
        simp [is, freeRest y member] at away
      have modules : ∀ ys : List Nat,
          (∀ y ∈ ys, (g.heap.cls y).iclassOf ≠ none) →
          ∀ m ∈ g.shownOf ys, g.isModule m = true := by
        intro ys iclasses m member
        obtain ⟨y, there, is⟩ := List.mem_filterMap.mp member
        obtain ⟨m', isIclass⟩ :=
          Option.ne_none_iff_exists'.mp (iclasses y there)
        have plain := kin.sound.rooted.plain y (Or.inl (by simp [isIclass]))
        have same : m' = m := by
          simpa [Heap.shown, plain, isIclass] using is
        exact same ▸ kin.iclassModule y m' isIclass
      rcases split_find (fun y => decide ((g.heap.cls y).iclassOf = none ∧
        g.attached y = none)) rest with
        ⟨nothing, away⟩ | ⟨before, s, after, splits, finds, is, away⟩
      · rw [nothing] at superclasses
        refine ⟨_, [], g.shownOf rest, [], none, shows, superclasses, ?_,
          ?_, rfl⟩
        · rw [split, List.filterMap_cons, own]
          simp [shownOf]
        · rw [List.nil_append]
          exact modules rest fun y member =>
            iclassOf y member (away y member)
      · rw [finds] at superclasses
        have iclasses : ∀ y ∈ before, (g.heap.cls y).iclassOf ≠ none :=
          fun y member => iclassOf y (by rw [splits]; simp [member])
            (away y member)
        have whole : LinkChain g.heap.next class_
            (class_ :: before ++ s :: after) := by
          rw [splits] at linksCons
          exact linksCons
        have member : s ∈ chain := by
          rw [split, splits]
          simp
        rw [decide_eq_true_eq] at is
        have plain := kin.above_plain visible noOrigin whole
          (free s member).2 iclasses
        have linked : ∃ z, g.heap.next z = some s := by
          rcases linked_of_mem links member with same | linked
          · have distinct := whole.nodup
            rw [same, List.cons_append, List.nodup_cons] at distinct
            exact absurd (by simp) distinct.1
          · exact linked
        obtain ⟨z, goes⟩ := linked
        refine ⟨_, [], g.shownOf before, g.shownOf (s :: after), some s,
          shows, superclasses, ?_, ?_, ?_⟩
        · rw [split, splits, List.filterMap_cons, own]
          simp [shownOf, List.filterMap_append]
        · rw [List.nil_append]
          exact modules before iclasses
        · exact ⟨⟨⟨kin.sound.rooted.known z s goes, is.1, plain⟩, is.2⟩,
            kin.linkClass z s goes, Heap.ancestors_returns whole.behind⟩
    · intro m module_
      have member := mem_shown_iff kin links visible module_
      have onChain : m ∈ chain ↔ m = class_ :=
        ⟨kin.module_mem links module_, fun same => same ▸ links.mem_self⟩
      have contains : ∀ fuel, chain.length ≤ fuel →
          moduleChainContains g.heap m fuel (some class_) =
            some (decide (m ∈ g.shownOf chain)) := by
        intro fuel enough
        rw [contains_eq links enough]
        simp only [onChain, member]
      refine ⟨_, shows, ?_, ?_, ?_⟩
      · obtain ⟨chain', links'⟩ := kin.sound.rooted.chains m
        by_cases there : m ∈ g.shownOf chain
        · refine ⟨some true, ⟨chain.length, fun fuel enough => ?_⟩,
            by simpa [shownOf] using there⟩
          rw [compareHierarchy, isAncestor, contains fuel enough,
            decide_eq_true there]
        · refine ⟨if class_ ∈ chain' ∨ class_ ∈ g.heap.modulesOf chain' then
              some false else none,
            ⟨chain.length + chain'.length, fun fuel enough => ?_⟩, ?_⟩
          · rw [compareHierarchy, isAncestor, contains fuel (by omega),
              decide_eq_false there, isAncestor,
              contains_eq links' (by omega)]
            simp
          · constructor
            · intro is
              split_ifs at is
              exact absurd (Option.some.inj is) Bool.false_ne_true
            · exact fun here => absurd here there
      · intro other
        refine ⟨rest.length, fun fuel enough => ?_⟩
        rw [includes, Heap.present_behind linksCons m enough]
        have behind : m ∈ g.heap.modulesOf rest ↔ m ∈ g.shownOf chain := by
          rw [member, split]
          simp [other, Heap.modulesOf, visible.2.1]
        simp only [behind]
        rfl
      · rintro v rfl
        exact ⟨chain.length, fun fuel enough => contains fuel enough⟩

/-- In every graph that a program can reach, the reflection of a class shows
one ancestry exactly if it is a module or has no module prepended, and no
singleton class is on its chain. -/
theorem reflection_agrees_iff
    (g : Graph)
    (reached : Reached g)
    (class_ : Nat)
    (visible : g.Visible class_) :
    ∃ chain, LinkChain g.heap.next class_ chain ∧
      (g.OneAncestry class_ ↔
        (g.isModule class_ = true ∨ (g.heap.cls class_).origin = none) ∧
          g.FreeOfSingletons chain) := by
  obtain ⟨_, _, kin⟩ := reached.kin
  obtain ⟨chain, links⟩ := kin.sound.rooted.chains class_
  exact ⟨chain, links, kin.oneAncestry_iff visible links⟩

/-- Class 4 under Object, module 8, and the module prepended to the class. -/
def classed : Graph :=
  ((boot ⟨0, 1, 2⟩).apply 10 (.newClass 1)).getD (boot ⟨0, 1, 2⟩)

def moduled : Graph := classed.newModule

def prepended : Graph := (moduled.apply 10 (.prepend_ 4 8)).getD moduled

theorem reached_prepended : Reached prepended := by
  have class_ : Reached classed :=
    Reached.change (.newClass 1) 10 (Reached.boot ⟨0, 1, 2⟩)
      ⟨by decide, rfl, rfl⟩ rfl
  have module_ : Reached moduled :=
    Reached.change .newModule 10 class_ trivial rfl
  exact Reached.change (.prepend_ 4 8) 10 module_ ⟨by decide, rfl⟩ rfl

theorem reflection_agrees_iff_prepended :
    ∃ chain, LinkChain prepended.heap.next 4 chain ∧
      (prepended.OneAncestry 4 ↔
        (prepended.isModule 4 = true ∨
          (prepended.heap.cls 4).origin = none) ∧
          prepended.FreeOfSingletons chain) :=
  reflection_agrees_iff prepended reached_prepended 4 (by decide)

theorem superclass_answers_origin :
    Reached prepended ∧ Returns (prepended.superclass 4) (some 9) ∧
      (prepended.heap.cls 9).originOf = some 4 ∧
      ¬prepended.OneAncestry 4 := by
  have finds : Returns (prepended.superclass 4) (some 9) := by
    refine ⟨8, fun fuel enough => ?_⟩
    obtain ⟨more, rfl⟩ := Nat.exists_eq_add_of_le' enough
    rfl
  refine ⟨reached_prepended, finds, rfl, fun one => ?_⟩
  obtain ⟨_, _, _, _, sup, _, finds', _, _, isSup⟩ := one.superclass rfl
  obtain rfl := finds.unique finds'
  have noOrigin := isSup.1.1.2.2
  cases noOrigin

end SabiRuby.Modules.Graph
