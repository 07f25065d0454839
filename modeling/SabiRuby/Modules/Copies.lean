import SabiRuby.Modules.Kinship

/-!
# Copies of objects and classes

A copy of a class has the tables of its original and what stands above them, and
the modules prepended to the original are prepended to it again.  A clone also
gets the methods of the singleton class, under the modules of the original.
-/

namespace SabiRuby.Modules.Graph

open Library Function

variable {g g' : Graph} {inside : Nat → Option Nat} {modular : Nat → Prop}

/-! ## Copies -/

/-- `real_class_of` -/
def realClassOf (g : Graph) : Nat → Nat → Option Nat
  | 0, _ => none
  | fuel + 1, c =>
      if (g.attached c).isSome || g.isIclass c then
        match g.heap.next c with
        | none => none
        | some s => g.realClassOf fuel s
      else some c

/-- The modules prepended to a class, nearest first. -/
def prependedModules (h : Heap) (origin : Nat) :
    Nat → Option Nat → Option (List Nat)
  | _, none => some []
  | 0, some _ => none
  | fuel + 1, some x =>
      if x = origin then some []
      else (prependedModules h origin fuel (h.next x)).map
        ((h.cls x).iclassOf.toList ++ ·)

/-- Prepends modules one after another, up to one that raises. -/
def prependAll (fuel class_ : Nat) : Graph → List Nat → Option (Graph × Bool)
  | g, [] => some (g, true)
  | g, m :: mods =>
      match g.prependModule class_ m fuel with
      | none => none
      | some (g', some _) => some (g', false)
      | some (g', none) => prependAll fuel class_ g' mods

/-- The copy of a class before its modules are prepended. -/
def copyOf (g : Graph) (o : Nat) : Graph :=
  let n := g.heap.classes.length
  let own := g.heap.defTarget o
  { g.alloc (g.heap.next own) with
    tables := Function.update g.tables n (g.tables own)
    isModule := Function.update g.isModule n (g.isModule o)
    classOf := Function.update g.classOf (.class_ n) (g.classOf (.class_ o)) }

/-- The singleton class of a copy gets the tables of the original's. -/
def copySingleton (g : Graph) (o n fuel : Nat) : Option Graph :=
  let cur := g.classOf (.class_ o)
  if (g.attached cur).isSome then
    match singletonClass fuel g (.class_ n) with
    | none => none
    | some (g', sc) => some (g'.changeTable sc fun _ => g.tables cur)
  else if g.isModule o then some g
  else (singletonClass fuel g (.class_ n)).map Prod.fst

/-- `dup` of a class: there is no copy where prepending raises. -/
def dupClass (g : Graph) (o fuel : Nat) : Option (Graph × Option Nat) :=
  let n := g.heap.classes.length
  let made :=
    if (g.heap.cls o).origin.isSome then
      match prependedModules g.heap (g.heap.defTarget o) fuel
          (g.heap.next o) with
      | none => none
      | some mods => prependAll fuel n (g.copyOf o) mods.reverse
    else some (g.copyOf o, true)
  match made with
  | none => none
  | some (g', false) => some (g', none)
  | some (g', true) => (g'.copySingleton o n fuel).map fun g'' => (g'', some n)

/-- The methods and the modules of the singleton class go to the copy's. -/
def moveSingleton
    (g : Graph)
    (sc : Nat)
    (methods : List (Nat × Method))
    (sup : Option Nat) : Graph :=
  { g.changeTable sc fun t => { t with methods := methods } with
    heap := g.heap.setSuperclass sc sup }

/-- `obj_clone` behind `dup` -/
def finishClone (g : Graph) (v d : Receiver) (fuel : Nat) : Option Graph :=
  let cur := g.classOf v
  if (g.attached cur).isSome then
    match singletonClass fuel g d with
    | none => none
    | some (g', sc) =>
        some (g'.moveSingleton sc (g.tables cur).methods (g.heap.next cur))
  else some g

/-- `obj_clone` -/
def objClone (g : Graph) (v : Receiver) (fuel : Nat) : Option Graph :=
  match v with
  | .object _ =>
      match g.realClassOf fuel (g.classOf v) with
      | none => none
      | some c => (g.newObject c).finishClone v (.object g.objects) fuel
  | .class_ o =>
      match g.dupClass o fuel with
      | none => none
      | some (g', none) => some g'
      | some (g', some n) => g'.finishClone v (.class_ n) fuel

/-- `dup` of an object -/
def dupObject (g : Graph) (v : Receiver) (fuel : Nat) : Option Graph :=
  (g.realClassOf fuel (g.classOf v)).map g.newObject

section

variable (kin : g.Kin inside modular)
include kin

theorem Kin.withTables
    (tables : Nat → Table)
    (sound : Sound { g with tables := tables }) :
    Kin { g with tables := tables } inside modular :=
  ⟨sound, kin.classes, kin.moduleClass, kin.classClass, kin.iclassModule,
    kin.moduleKnown, kin.modulePlain, kin.attachedPlain, kin.originOf,
    kin.linkClass, kin.insideIclass, kin.enters, kin.stays, kin.modularStep,
    kin.modularPlain, kin.receivers⟩

theorem Kin.changeTable
    (plain : (g.heap.cls x).origin = none)
    (change : Table → Table) : (g.changeTable x change).Kin inside modular :=
  kin.withTables _ (kin.sound.changeTable plain change)

theorem Kin.newObject
    (real : g.Real class_) : (g.newObject class_).Kin inside modular := by
  refine ⟨kin.sound.newObject real.1, ?_, kin.moduleClass, kin.classClass,
    kin.iclassModule, kin.moduleKnown, kin.modulePlain, kin.attachedPlain,
    kin.originOf, kin.linkClass, kin.insideIclass, kin.enters, kin.stays,
    kin.modularStep, kin.modularPlain, fun x v single =>
      (kin.receivers x v single).mono (Nat.le_succ _) (Nat.le_refl _)⟩
  intro v
  by_cases same : v = .object g.objects
  · have is : (g.newObject class_).classOf v = class_ := by
      rw [same]
      exact update_self _ _ _
    rw [is]
    exact real
  · have is : (g.newObject class_).classOf v = g.classOf v :=
      update_of_ne same _ _
    rw [is]
    exact kin.classes v

theorem Kin.realClassOf
    (start : c < g.heap.classes.length ∧ g.isModule c = false)
    (returns : g.realClassOf fuel c = some r) : g.Real r := by
  induction fuel generalizing c with
  | zero => cases returns
  | succ fuel ih =>
      rw [Graph.realClassOf] at returns
      by_cases special : ((g.attached c).isSome || g.isIclass c) = true
      · rw [if_pos special] at returns
        cases linked : g.heap.next c with
        | none => simp [linked] at returns
        | some s =>
            simp only [linked] at returns
            exact ih ⟨kin.sound.rooted.known c s linked,
              kin.linkClass c s linked⟩ returns
      · rw [if_neg special] at returns
        cases returns
        simp only [Graph.isIclass, Bool.or_eq_true, not_or,
          Option.not_isSome_iff_eq_none] at special
        exact ⟨start.1, special.2.1, special.2.2, start.2⟩

end

theorem cls_setSuperclass
    (h : Heap)
    (sup : Option Nat)
    (y : Nat)
    (inside : x < h.classes.length) :
    (h.setSuperclass x sup).cls y =
      if y = x then { h.cls x with superclass := sup } else h.cls y := by
  unfold Heap.setSuperclass Heap.cls
  simp only [List.getD_eq_getElem?_getD, List.getElem?_modify]
  by_cases same : y = x
  · subst same
    simp [List.getElem?_eq_getElem inside]
  · rw [if_neg same]
    cases h.classes[y]? <;> simp [Ne.symm same]

/-- A class that no link leads to may be put above any other one. -/
theorem rooted_redirect
    {h : Heap}
    (rooted : h.Rooted)
    (inside : x < h.classes.length)
    (away : ∀ z, h.next z ≠ some x)
    (known : ∀ s, sup = some s → s < h.classes.length ∧ s ≠ x) :
    (h.setSuperclass x sup).Rooted := by
  have isCls := fun y => cls_setSuperclass h sup y inside
  have length : (h.setSuperclass x sup).classes.length =
      h.classes.length := by
    simp [Heap.setSuperclass]
  have others : ∀ y, y ≠ x → (h.setSuperclass x sup).next y = h.next y := by
    intro y other
    rw [Heap.next, isCls, if_neg other, Heap.next]
  have here : (h.setSuperclass x sup).next x = sup := by
    rw [Heap.next, isCls, if_pos rfl]
  have chains : ∀ y, y ≠ x → ∃ chain,
      LinkChain (h.setSuperclass x sup).next y chain := by
    intro y other
    obtain ⟨chain, links⟩ := rooted.chains y
    refine ⟨chain, links.congr fun point member => others point ?_⟩
    rintro rfl
    have reached : ∀ z rest, LinkChain h.next z rest → point ∈ rest →
        point = z ∨ ∃ w, h.next w = some point := by
      intro z rest links
      induction links with
      | last z _ => exact fun there => Or.inl (List.mem_singleton.mp there)
      | link z w rest linked _ ih =>
          intro there
          rcases List.mem_cons.mp there with first | later
          · exact Or.inl first
          · rcases ih later with rfl | goes
            · exact Or.inr ⟨z, linked⟩
            · exact Or.inr goes
    rcases reached y chain links member with same | ⟨w, linked⟩
    · exact other same.symm
    · exact away w linked
  have kept : ∀ y, ((h.setSuperclass x sup).cls y).iclassOf =
        (h.cls y).iclassOf ∧
      ((h.setSuperclass x sup).cls y).origin = (h.cls y).origin ∧
      ((h.setSuperclass x sup).cls y).originOf = (h.cls y).originOf := by
    intro y
    rw [isCls]
    by_cases same : y = x
    · rw [if_pos same, same]
      exact ⟨rfl, rfl, rfl⟩
    · rw [if_neg same]
      exact ⟨rfl, rfl, rfl⟩
  refine ⟨?_, ?_, ?_, ?_, ?_⟩
  · intro y
    by_cases same : y = x
    · subst same
      cases sup with
      | none => exact ⟨_, LinkChain.last _ here⟩
      | some s =>
          obtain ⟨chain, links⟩ := chains s (known s rfl).2
          exact ⟨_, LinkChain.link _ s chain here links⟩
    · exact chains y same
  · intro y s linked
    rw [length]
    by_cases same : y = x
    · rw [same, here] at linked
      exact (known s linked).1
    · rw [others y same] at linked
      exact rooted.known y s linked
  · intro y o has
    rw [length]
    rw [(kept y).2.1] at has
    exact rooted.originKnown y o has
  · intro y o has
    rw [(kept y).2.1] at has
    rw [(kept o).1, (kept o).2.2]
    exact rooted.originOf y o has
  · intro y special
    rw [(kept y).1, (kept y).2.2] at special
    rw [(kept y).2.1]
    exact rooted.plain y special

section

variable (kin : g.Kin inside modular)
include kin

theorem Kin.moveSingleton
    (loose : g.Loose sc)
    (own : g.attached cur ≠ none)
    (methods : List (Nat × Method)) :
    (g.moveSingleton sc methods (g.heap.next cur)).Kin inside modular := by
  obtain ⟨single, noOrigin, away⟩ := loose
  obtain ⟨here, notIclass, notOrigin⟩ := kin.attachedPlain sc single
  have isCls := fun y => cls_setSuperclass g.heap (g.heap.next cur) y here
  have length : (g.heap.setSuperclass sc (g.heap.next cur)).classes.length =
      g.heap.classes.length := by
    simp [Heap.setSuperclass]
  have rooted := rooted_redirect kin.sound.rooted here away fun s linked =>
    ⟨kin.sound.rooted.known cur s linked, fun same =>
      away cur (same ▸ linked)⟩
  have kept : ∀ y,
      ((g.heap.setSuperclass sc (g.heap.next cur)).cls y).iclassOf =
        (g.heap.cls y).iclassOf ∧
      ((g.heap.setSuperclass sc (g.heap.next cur)).cls y).origin =
        (g.heap.cls y).origin ∧
      ((g.heap.setSuperclass sc (g.heap.next cur)).cls y).originOf =
        (g.heap.cls y).originOf := by
    intro y
    rw [isCls]
    by_cases same : y = sc
    · rw [if_pos same, same]
      exact ⟨rfl, rfl, rfl⟩
    · rw [if_neg same]
      exact ⟨rfl, rfl, rfl⟩
  have iclass := fun y => (kept y).1
  have origin := fun y => (kept y).2.1
  have originOf := fun y => (kept y).2.2
  have goes : ∀ y, (g.heap.setSuperclass sc (g.heap.next cur)).next y =
      if y = sc then g.heap.next cur else g.heap.next y := by
    intro y
    change ((g.heap.setSuperclass sc (g.heap.next cur)).cls y).superclass = _
    rw [isCls]
    split_ifs <;> rfl
  have changed := kin.changeTable noOrigin
    fun t => { t with methods := methods }
  have sound := changed.sound.withHeap _ rooted
    ⟨Nat.le_of_eq length.symm, fun y has => by rwa [origin] at has⟩
  have curIclass := (kin.attachedPlain cur own).2.1
  have curInside := kin.inside_real curIclass
  have scInside := kin.inside_real notIclass
  have scModule : g.isModule sc = false := (kin.attached_real single).2.2.2
  have scModular : ¬modular sc := by
    intro side
    rw [kin.modularPlain sc side notIclass notOrigin] at scModule
    cases scModule
  refine ⟨sound, ?_, ?_, ?_, ?_, ?_, ?_, ?_, ?_, ?_, ?_, ?_, ?_, ?_, ?_,
    fun x v single => (kin.receivers x v single).mono (Nat.le_refl _)
      (Nat.le_of_eq length.symm)⟩
  all_goals
    simp only [Graph.moveSingleton, Graph.changeTable, Real, iclass, origin,
      originOf, goes, length]
  · exact kin.classes
  · exact kin.moduleClass
  · exact kin.classClass
  · exact kin.iclassModule
  · exact kin.moduleKnown
  · exact kin.modulePlain
  · exact kin.attachedPlain
  · exact kin.originOf
  · intro z s linked
    split_ifs at linked with same
    · exact kin.linkClass cur s linked
    · exact kin.linkClass z s linked
  · exact kin.insideIclass
  · intro z s c linked target free
    split_ifs at linked with same
    · rcases kin.enters cur s c linked target free with rfl | within
      · exact absurd free own
      · exact absurd within (curInside c)
    · exact kin.enters z s c linked target free
  · intro z c within
    have other : z ≠ sc := by
      rintro rfl
      rcases within with ⟨rfl, has⟩ | within
      · exact has noOrigin
      · exact scInside c within
    rw [if_neg other]
    exact kin.stays z c within
  · intro z s side linked
    split_ifs at linked with same
    · exact absurd (same ▸ side) scModular
    · exact kin.modularStep z s side linked
  · exact kin.modularPlain

/-- What stands above the tables of a class is prepended to no class, or to a
singleton class. -/
theorem Kin.above_defTarget
    (visible : g.Visible o)
    (linked : g.heap.next (g.heap.defTarget o) = some s)
    (free : g.attached c = none) :
    inside s ≠ some c ∧ (g.heap.cls s).originOf ≠ some c := by
  have target := kin.sound.defTarget_plain visible
  have notIclass : (g.heap.cls (g.heap.defTarget o)).iclassOf = none := by
    unfold Heap.defTarget
    cases has : (g.heap.cls o).origin with
    | none => exact visible.2.1
    | some p => exact (kin.sound.rooted.originOf o p has).2
  have away : ¬(inside s = some c ∨ (g.heap.cls s).originOf = some c) := by
    intro within
    have has : (g.heap.cls c).origin ≠ none := by
      rcases within with insideS | originS
      · exact (kin.insideIclass s c insideS).2
      · simp [kin.originOf s c originS]
    rcases kin.enters _ s c linked within free with same | goesOn
    · exact has (same ▸ target.1)
    · exact kin.inside_real notIclass c goesOn
  rw [not_or] at away
  exact away

/-- The origin of a module stands in the chain of the module. -/
theorem Kin.modular_defTarget
    (module_ : g.isModule o = true) : modular (g.heap.defTarget o) := by
  have side := (kin.modulePlain o module_).2.2.2
  unfold Heap.defTarget
  cases has : (g.heap.cls o).origin with
  | none => exact side
  | some p =>
      obtain ⟨chain, links⟩ := kin.sound.rooted.chains o
      have walk : ∀ z chain, LinkChain g.heap.next z chain → modular z →
          (z = o ∧ (g.heap.cls o).origin ≠ none) ∨ inside z = some o →
          modular p := by
        intro z chain links
        induction links with
        | last z ends =>
            intro _ within
            obtain ⟨s, linked, _⟩ := kin.stays z o within
            rw [ends] at linked
            cases linked
        | link z y chain linked _ ih =>
            intro side within
            have side' := (kin.modularStep z y side linked).1
            obtain ⟨s, linked', goesOn⟩ := kin.stays z o within
            obtain rfl := Option.some.inj (linked.symm.trans linked')
            rcases goesOn with insideY | isOrigin
            · exact ih side' (Or.inr insideY)
            · have is := kin.originOf y o isOrigin
              rw [has] at is
              exact Option.some.inj is ▸ side'
      exact walk o chain links side (Or.inl ⟨rfl, by simp [has]⟩)

theorem Kin.copyOf
    (visible : g.Visible o) :
    (∃ modular', (g.copyOf o).Kin inside modular') ∧ Older g (g.copyOf o) ∧
      (g.copyOf o).Visible g.heap.classes.length := by
  have isCls := fun x =>
    g.heap.cls_alloc ⟨g.heap.next (g.heap.defTarget o), none, none, none⟩ x
  have length := g.heap.length_alloc
    ⟨g.heap.next (g.heap.defTarget o), none, none, none⟩
  have made := kin.sound.alloc (g.heap.next (g.heap.defTarget o))
    (update g.isModule g.heap.classes.length (g.isModule o))
    (fun s linked => kin.sound.rooted.known _ s linked)
    (kin.sound.classKnown (.class_ o))
  have sound : (g.copyOf o).Sound := by
    refine made.changeTable (x := g.heap.classes.length) ?_
      fun _ => g.tables (g.heap.defTarget o)
    simp only [Graph.alloc, isCls, if_pos]
  have older : Older g (g.copyOf o) := by
    refine ⟨?_, ?_, ?_, fun _ _ => rfl, ?_⟩
    · simp only [Graph.copyOf, Graph.alloc, length]
      exact Nat.le_succ _
    · intro x early
      simp only [Graph.copyOf, Graph.alloc, isCls,
        if_neg (Nat.ne_of_lt early)]
    · intro x early
      simp only [Graph.copyOf, Graph.alloc, isCls,
        if_neg (Nat.ne_of_lt early)]
    · intro x early
      exact update_of_ne (Nat.ne_of_lt early) _ _
  have isModule : (g.copyOf o).isModule g.heap.classes.length =
      g.isModule o := update_self _ _ _
  refine ⟨?_, older, ?_⟩
  · refine kin.alloc (g.heap.next (g.heap.defTarget o)) _ sound rfl
      (fun _ _ => rfl) ?_ ?_ ?_ rfl rfl rfl ?_ ?_ ?_
    · intro x other
      exact update_of_ne other _ _
    · intro _
      by_contra single
      exact Nat.lt_irrefl _ (kin.attachedPlain _ single).1
    · intro v
      by_cases same : v = .class_ g.heap.classes.length
      · have is : (g.copyOf o).classOf v = g.classOf (.class_ o) := by
          rw [same]
          exact update_self _ _ _
        rw [is]
        exact older.real (kin.classes (.class_ o))
      · have is : (g.copyOf o).classOf v = g.classOf v :=
          update_of_ne same _ _
        rw [is]
        exact older.real (kin.classes v)
    · intro v single
      have single' : g.attached g.heap.classes.length = some v := single
      exact absurd (kin.attachedPlain _ (by simp [single'])).1
        (Nat.lt_irrefl _)
    · intro s linked
      exact ⟨kin.linkClass _ s linked, kin.sound.rooted.known _ s linked,
        fun c free => kin.above_defTarget visible linked free⟩
    · intro s linked module_
      rw [isModule] at module_
      exact kin.modularStep _ s (kin.modular_defTarget module_) linked
  · refine ⟨?_, ?_, ?_⟩
    · simp only [Graph.copyOf, Graph.alloc, length]
      exact Nat.lt_succ_self _
    · simp only [Graph.copyOf, Graph.alloc, isCls, if_pos]
    · simp only [Graph.copyOf, Graph.alloc, isCls, if_pos]

end

theorem older_prependModule
    (here : class_ < g.heap.classes.length)
    (returns : g.prependModule class_ module_ fuel = some (g', raised)) :
    Older g g' ∧ g'.attached = g.attached := by
  have first := older_withOrigin (g := g) here
  have same : (g.withOrigin class_).attached = g.attached := by
    unfold withOrigin
    split_ifs <;> rfl
  have here' := Nat.lt_of_lt_of_le here first.count
  obtain rfl | ⟨mods, h, -, looped, rfl⟩ := prependModule_cases returns
  · exact ⟨first, same⟩
  · exact ⟨first.trans (older_prependLoop here' looped), same⟩

section

variable (kin : g.Kin inside modular)
include kin

theorem Kin.prependAll
    (visible : g.Visible n)
    (all : ∀ m ∈ mods, g.isModule m = true)
    (returns : Graph.prependAll fuel n g mods = some (g', done)) :
    (∃ inside' modular', g'.Kin inside' modular') ∧ Older g g' ∧
      g'.attached = g.attached := by
  induction mods generalizing g inside modular with
  | nil =>
      cases returns
      exact ⟨⟨_, _, kin⟩, Older.refl _, rfl⟩
  | cons m mods ih =>
      rw [List.forall_mem_cons] at all
      rw [Graph.prependAll] at returns
      cases prepends : g.prependModule n m fuel with
      | none => simp [prepends] at returns
      | some made =>
          obtain ⟨g₁, raised⟩ := made
          obtain ⟨_, _, kin₁⟩ := kin.prependModule visible all.1
            (by rw [prepends]; rfl)
          have ⟨older, same⟩ := older_prependModule visible.1 prepends
          cases raised with
          | some failure =>
              simp only [prepends] at returns
              cases returns
              exact ⟨⟨_, _, kin₁⟩, older, same⟩
          | none =>
              simp only [prepends] at returns
              have all₁ : ∀ m ∈ mods, g₁.isModule m = true := by
                intro m' member
                have module' := all.2 m' member
                rw [older.isModule m' (kin.moduleKnown m' module'), module']
              obtain ⟨kin', older', same'⟩ := ih kin₁
                (older.visible visible) all₁ returns
              exact ⟨kin', older.trans older', same'.trans same⟩

theorem Kin.prependedModules
    (returns : Graph.prependedModules g.heap origin fuel c = some mods) :
    ∀ m ∈ mods, g.isModule m = true := by
  induction fuel generalizing c mods with
  | zero =>
      cases c with
      | none =>
          cases returns
          simp
      | some x => cases returns
  | succ fuel ih =>
      cases c with
      | none =>
          cases returns
          simp
      | some x =>
          rw [Graph.prependedModules] at returns
          split_ifs at returns with same
          · cases returns
            simp
          · rw [Option.map_eq_some_iff] at returns
            obtain ⟨rest, walks, rfl⟩ := returns
            intro m member
            rcases List.mem_append.mp member with own | later
            · exact kin.iclassModule x m (Option.mem_toList.mp own)
            · exact ih walks m later

/-- The singleton class of a copied class is a new one. -/
theorem Kin.copySingleton
    (known : n < g.heap.classes.length)
    (fresh : ∀ x, g.attached x ≠ some (.class_ n))
    (returns : g.copySingleton o n fuel = some g') :
    (∃ modular', g'.Kin inside modular') ∧
      (g'.attached (g'.classOf (.class_ n)) = some (.class_ n) →
        g'.Loose (g'.classOf (.class_ n))) ∧ Older g g' := by
  unfold Graph.copySingleton at returns
  simp only at returns
  split_ifs at returns with single module_
  · cases opened : Graph.singletonClass fuel g (.class_ n) with
    | none => simp [opened] at returns
    | some made =>
        obtain ⟨g₁, sc⟩ := made
        simp only [opened, Option.some.injEq] at returns
        obtain ⟨⟨_, kin₁⟩, _, is, loose, _, older, _⟩ :=
          kin.singletonClass (v := .class_ n) known opened
        have loose' := loose (fresh _)
        subst returns
        refine ⟨⟨_, kin₁.changeTable loose'.2.1 _⟩, fun _ => ?_,
          older.count, older.iclassOf, older.originOf, older.attached,
          older.isModule⟩
        have same : (g₁.changeTable sc fun _ =>
            g.tables (g.classOf (.class_ o))).classOf (.class_ n) = sc := is
        rw [same]
        exact loose'
  · cases returns
    exact ⟨⟨_, kin⟩, fun own => absurd own (fresh _), Older.refl g⟩
  · rw [Option.map_eq_some_iff] at returns
    obtain ⟨⟨g₁, sc⟩, opened, rfl⟩ := returns
    obtain ⟨kin₁, _, is, loose, _, older, _⟩ :=
      kin.singletonClass (v := .class_ n) known opened
    exact ⟨kin₁, fun _ => is ▸ loose (fresh _), older⟩

theorem Kin.finishClone
    (held : g.Held d)
    (fresh : g.attached (g.classOf d) = some d → g.Loose (g.classOf d))
    (returns : g.finishClone v d fuel = some g') :
    ∃ inside' modular', g'.Kin inside' modular' := by
  unfold Graph.finishClone at returns
  simp only at returns
  split_ifs at returns with single
  · have own : g.attached (g.classOf v) ≠ none :=
      Option.isSome_iff_ne_none.mp single
    have known := (kin.classes v).1
    cases opened : Graph.singletonClass fuel g d with
    | none => simp [opened] at returns
    | some made =>
        obtain ⟨g₁, sc⟩ := made
        simp only [opened, Option.some.injEq] at returns
        obtain ⟨⟨_, kin₁⟩, _, _, loose, kept, older, _⟩ :=
          kin.singletonClass held opened
        have loose' : g₁.Loose sc := by
          by_cases already : g.attached (g.classOf d) = some d
          · cases fuel with
            | zero => cases opened
            | succ fuel =>
                rw [Graph.singletonClass.eq_def] at opened
                simp only at opened
                rw [if_pos already] at opened
                cases opened
                exact fresh already
          · exact loose already
        have linked : g.heap.next (g.classOf v) =
            g₁.heap.next (g.classOf v) := by
          rw [Heap.next, Heap.next, kept _ known]
        rw [linked] at returns
        rw [← returns]
        exact ⟨_, _, kin₁.moveSingleton loose'
          (by rwa [older.attached _ known]) _⟩
  · cases returns
    exact ⟨_, _, kin⟩

theorem Kin.dupClass
    (visible : g.Visible o)
    (returns : g.dupClass o fuel = some (g', copy)) :
    (∃ inside' modular', g'.Kin inside' modular') ∧ ∀ n ∈ copy,
      g'.Held (.class_ n) ∧
        (g'.attached (g'.classOf (.class_ n)) = some (.class_ n) →
          g'.Loose (g'.classOf (.class_ n))) := by
  obtain ⟨⟨_, kin₁⟩, older₁, visible₁⟩ := kin.copyOf visible
  have freshN : ∀ x, g.attached x ≠ some (.class_ g.heap.classes.length) :=
    fun x single => Nat.lt_irrefl _ (kin.receivers x _ single)
  unfold Graph.dupClass at returns
  simp only at returns
  have made : ∀ g₂ done,
      (if (g.heap.cls o).origin.isSome = true then
        match Graph.prependedModules g.heap (g.heap.defTarget o) fuel
            (g.heap.next o) with
        | none => none
        | some mods =>
            Graph.prependAll fuel g.heap.classes.length (g.copyOf o)
              mods.reverse
      else some (g.copyOf o, true)) = some (g₂, done) →
      (∃ inside' modular', g₂.Kin inside' modular') ∧
        Older (g.copyOf o) g₂ ∧ g₂.attached = (g.copyOf o).attached := by
    intro g₂ done is
    split_ifs at is with has
    · cases walks : Graph.prependedModules g.heap (g.heap.defTarget o) fuel
          (g.heap.next o) with
      | none => simp [walks] at is
      | some mods =>
          simp only [walks] at is
          refine kin₁.prependAll visible₁ ?_ is
          intro m member
          have module_ := kin.prependedModules walks m
            (List.mem_reverse.mp member)
          rw [older₁.isModule m (kin.moduleKnown m module_), module_]
    · cases is
      exact ⟨⟨_, _, kin₁⟩, Older.refl _, rfl⟩
  split at returns
  · cases returns
  · next g₂ is =>
      cases returns
      exact ⟨(made _ _ is).1, by simp⟩
  · next g₂ is =>
      obtain ⟨⟨_, _, kin₂⟩, older₂, same⟩ := made _ _ is
      rw [Option.map_eq_some_iff] at returns
      obtain ⟨g₃, copies, is'⟩ := returns
      cases is'
      have known := Nat.lt_of_lt_of_le visible₁.1 older₂.count
      obtain ⟨⟨_, kin₃⟩, loose, older₃⟩ := kin₂.copySingleton known
        (fun x single => freshN x (by rw [same] at single; exact single))
        copies
      refine ⟨⟨_, _, kin₃⟩, ?_⟩
      rintro n ⟨⟩
      exact ⟨Nat.lt_of_lt_of_le known older₃.count, loose⟩

theorem Kin.objClone
    (visible : ∀ o, v = .class_ o → g.Visible o)
    (returns : g.objClone v fuel = some g') :
    ∃ inside' modular', g'.Kin inside' modular' := by
  cases v with
  | object k =>
      simp only [Graph.objClone] at returns
      cases real : g.realClassOf fuel (g.classOf (.object k)) with
      | none => simp [real] at returns
      | some c =>
          simp only [real] at returns
          have start := kin.classes (.object k)
          have isReal := kin.realClassOf ⟨start.1, start.2.2.2⟩ real
          refine (kin.newObject isReal).finishClone
            (d := .object g.objects) (Nat.lt_succ_self g.objects)
            (fun own => ?_) returns
          exact absurd (kin.receivers _ _ own) (Nat.lt_irrefl _)
  | class_ o =>
      simp only [Graph.objClone] at returns
      cases copies : g.dupClass o fuel with
      | none => simp [copies] at returns
      | some made =>
          obtain ⟨g₁, copy⟩ := made
          obtain ⟨⟨_, _, kin₁⟩, fits⟩ := kin.dupClass (visible o rfl) copies
          cases copy with
          | none =>
              simp only [copies, Option.some.injEq] at returns
              exact ⟨_, _, returns ▸ kin₁⟩
          | some n =>
              simp only [copies] at returns
              obtain ⟨held, fresh⟩ := fits n rfl
              exact kin₁.finishClone held fresh returns

end

/-! ## Runs with copies -/

/-- The receivers and arguments that the calls accept. -/
def Fits (g : Graph) : Change → Prop
  | .newClass superclass => g.Visible superclass ∧
      g.isModule superclass = false ∧ g.attached superclass = none
  | .newModule => True
  | .newObject class_ => g.Visible class_ ∧ g.isModule class_ = false
  | .openSingleton v => g.Held v
  | .define_ class_ _ _ _ => g.Visible class_
  | .alias_ class_ _ _ => g.Visible class_
  | .undefMethod class_ _ => g.Visible class_
  | .removeMethod class_ _ => g.Visible class_
  | .setVisibility class_ _ _ => g.Visible class_
  | .include_ class_ module_ => g.Visible class_ ∧ g.isModule module_ = true
  | .prepend_ class_ module_ => g.Visible class_ ∧ g.isModule module_ = true
  | .extend_ v module_ => g.Held v ∧ g.isModule module_ = true

/-- The graphs that a program can reach that also copies. -/
inductive Reached : Graph → Prop
  | boot (privateNames : PrivateNames) : Reached (boot privateNames)
  | change {g g' : Graph} (change : Change) (fuel : Nat) :
      Reached g → g.Fits change → g.apply fuel change = some g' → Reached g'
  | dup_ {g g' : Graph} (n fuel : Nat) :
      Reached g → n < g.objects → g.dupObject (.object n) fuel = some g' →
      Reached g'
  | clone_ {g g' : Graph} (v : Receiver) (fuel : Nat) :
      Reached g → g.Held v → (∀ o, v = .class_ o → g.Visible o) →
      g.objClone v fuel = some g' → Reached g'

theorem Kin.newClass
    (kin : g.Kin inside modular)
    (real : g.Real superclass)
    (returns : g.newClass superclass fuel = some g') :
    ∃ modular', g'.Kin inside modular' := by
  simp only [Graph.newClass, Option.map_eq_some_iff] at returns
  obtain ⟨⟨g₁, sc⟩, opened, rfl⟩ := returns
  have sound := kin.sound.alloc (some superclass) g.isModule
    (fun s is => Option.some.inj is ▸ real.1) kin.sound.classClassKnown
  have length := g.heap.length_alloc ⟨some superclass, none, none, none⟩
  have isCls := fun x =>
    g.heap.cls_alloc ⟨some superclass, none, none, none⟩ x
  have notModule : g.isModule g.heap.classes.length = false := by
    by_contra module_
    exact Nat.lt_irrefl _ (kin.moduleKnown _ (by simpa using module_))
  have older : Older g { g.alloc (some superclass) with
      isModule := g.isModule
      classOf := update g.classOf (.class_ g.heap.classes.length)
        g.classClass } := by
    refine ⟨?_, ?_, ?_, fun _ _ => rfl, fun _ _ => rfl⟩
    · simp only [Graph.alloc, length]
      exact Nat.le_succ _
    · intro x early
      simp only [Graph.alloc, isCls, if_neg (Nat.ne_of_lt early)]
    · intro x early
      simp only [Graph.alloc, isCls, if_neg (Nat.ne_of_lt early)]
  obtain ⟨_, kin₁⟩ := kin.alloc (some superclass) _ sound rfl
    (fun _ _ => rfl) (fun _ _ => rfl)
    (fun module_ => by
      have bad : g.isModule g.heap.classes.length = true := module_
      rw [notModule] at bad
      cases bad)
    (fun v => by
      by_cases same : v = .class_ g.heap.classes.length
      · have is : update g.classOf
            (.class_ g.heap.classes.length) g.classClass v =
              g.classClass := by
          rw [same, update_self]
        change Real _ (update g.classOf _ _ v)
        rw [is]
        exact older.real kin.classClass
      · have is : update g.classOf
            (.class_ g.heap.classes.length) g.classClass v =
              g.classOf v := update_of_ne same _ _
        change Real _ (update g.classOf _ _ v)
        rw [is]
        exact older.real (kin.classes v))
    rfl rfl rfl
    (fun v single => absurd (kin.attachedPlain g.heap.classes.length
      (by
        have single' : g.attached g.heap.classes.length = some v := single
        simp [single'])).1 (Nat.lt_irrefl _))
    (by
      rintro s ⟨⟩
      refine ⟨real.2.2.2, real.1, fun c _ =>
        ⟨kin.inside_real real.2.1 c, ?_⟩⟩
      rw [real.2.2.1]
      simp)
    (fun s _ module_ => by
      have bad : g.isModule g.heap.classes.length = true := module_
      rw [notModule] at bad
      cases bad)
  refine (kin₁.singletonClass ?_ opened).1
  simp only [Held, Graph.alloc, length]
  exact Nat.lt_succ_self _

theorem Kin.newModule
    (kin : g.Kin inside modular) :
    ∃ modular', g.newModule.Kin inside modular' := by
  have sound := kin.sound.alloc none
    (update g.isModule g.heap.classes.length true)
    (fun _ is => by cases is) kin.sound.moduleKnown
  have length := g.heap.length_alloc ⟨none, none, none, none⟩
  have isCls := fun x => g.heap.cls_alloc ⟨none, none, none, none⟩ x
  have older : Older g g.newModule := by
    refine ⟨?_, ?_, ?_, fun _ _ => rfl, ?_⟩
    · simp only [Graph.newModule, Graph.alloc, length]
      exact Nat.le_succ _
    · intro x early
      simp only [Graph.newModule, Graph.alloc, isCls,
        if_neg (Nat.ne_of_lt early)]
    · intro x early
      simp only [Graph.newModule, Graph.alloc, isCls,
        if_neg (Nat.ne_of_lt early)]
    · intro x early
      exact update_of_ne (Nat.ne_of_lt early) _ _
  have unattached : g.attached g.heap.classes.length = none := by
    by_contra single
    exact Nat.lt_irrefl _ (kin.attachedPlain _ single).1
  refine kin.alloc none g.newModule sound rfl (fun _ _ => rfl) ?_
    (fun _ => unattached) ?_ rfl rfl rfl ?_ (fun _ is => by cases is)
    (fun _ is => by cases is)
  · intro x other
    exact update_of_ne other _ _
  · intro v
    by_cases same : v = .class_ g.heap.classes.length
    · have is : g.newModule.classOf v = g.moduleClass := by
        rw [same]
        exact update_self _ _ _
      rw [is]
      exact older.real kin.moduleClass
    · have is : g.newModule.classOf v = g.classOf v :=
        update_of_ne same _ _
      rw [is]
      exact older.real (kin.classes v)
  · intro v single
    have single' : g.attached g.heap.classes.length = some v := single
    rw [unattached] at single'
    cases single'

theorem Kin.boot (privateNames : PrivateNames) :
    (boot privateNames).Kin (fun _ => none) fun _ => False := by
  have isCls : ∀ x, (Graph.boot privateNames).heap.cls x =
      ⟨if 0 < x ∧ x < 4 then some (x - 1) else none, none, none, none⟩ := by
    intro x
    match x with
    | 0 | 1 | 2 | 3 => rfl
    | x + 4 =>
        rw [Heap.cls_outside (by simp [Graph.boot]), if_neg (by omega)]
  have real : ∀ x < 4, (Graph.boot privateNames).Real x := by
    intro x small
    exact ⟨small, by rw [isCls], by rw [isCls], rfl⟩
  refine ⟨sound_boot privateNames, fun _ => real 3 (by decide),
    real 2 (by decide), real 3 (by decide), ?_, ?_, ?_, ?_, ?_, ?_, ?_, ?_,
    ?_, ?_, ?_, ?_⟩
  · intro x m is
    rw [isCls] at is
    cases is
  · intro m is
    cases is
  · intro m is
    cases is
  · intro x single
    exact absurd rfl single
  · intro x c is
    rw [isCls] at is
    cases is
  · exact fun _ _ _ => rfl
  · intro x c is
    cases is
  · intro z s c _ target _
    rw [isCls] at target
    rcases target with is | is <;> cases is
  · intro z c within
    rw [isCls] at within
    rcases within with ⟨_, has⟩ | is
    · exact absurd rfl has
    · cases is
  · intro z s side
    exact absurd side (fun none_ => none_)
  · intro x side
    exact absurd side (fun none_ => none_)
  · intro x v single
    cases single

/-- A change that fits keeps what the links say. -/
theorem Kin.apply
    (kin : g.Kin inside modular)
    (change : Change)
    (fits : g.Fits change)
    (returns : g.apply fuel change = some g') :
    ∃ inside' modular', g'.Kin inside' modular' := by
  cases change with
  | newClass superclass =>
      obtain ⟨visible, notModule, _⟩ := fits
      exact ⟨_, kin.newClass
        ⟨visible.1, visible.2.1, visible.2.2, notModule⟩ returns⟩
  | newModule =>
      cases returns
      exact ⟨_, kin.newModule⟩
  | newObject class_ =>
      cases returns
      obtain ⟨visible, notModule⟩ := fits
      exact ⟨_, _, kin.newObject
        ⟨visible.1, visible.2.1, visible.2.2, notModule⟩⟩
  | openSingleton v =>
      simp only [Graph.apply, Option.map_eq_some_iff] at returns
      obtain ⟨⟨g₁, sc⟩, opened, rfl⟩ := returns
      exact ⟨_, (kin.singletonClass fits opened).1⟩
  | define_ class_ mid m vis =>
      cases returns
      exact ⟨_, _, kin.changeTable (kin.sound.defTarget_plain fits).1 _⟩
  | alias_ class_ new old =>
      have target := kin.sound.defTarget_plain fits
      simp only [Graph.apply, Graph.aliasMethod] at returns
      by_cases same : new = old
      · rw [if_pos same] at returns
        cases returns
        exact ⟨_, _, kin⟩
      · rw [if_neg same] at returns
        cases found : g.findMethod class_ old fuel with
        | none => simp [found] at returns
        | some found' =>
            cases found' with
            | none =>
                simp only [found] at returns
                cases returns
                exact ⟨_, _, kin⟩
            | some entry =>
                simp only [found, Option.map_map,
                  Option.map_eq_some_iff] at returns
                obtain ⟨vis, _, rfl⟩ := returns
                dsimp only [comp_apply, Graph.defMethod]
                exact ⟨_, _, kin.changeTable target.1 _⟩
  | undefMethod class_ mid =>
      have target := kin.sound.defTarget_plain fits
      simp only [Graph.apply, Graph.undefMethod, Option.map_map,
        Option.map_eq_some_iff] at returns
      obtain ⟨found, _, rfl⟩ := returns
      cases found with
      | none => exact ⟨_, _, kin⟩
      | some entry =>
          dsimp only [comp_apply]
          exact ⟨_, _, kin.changeTable target.1 _⟩
  | removeMethod class_ mid =>
      have target := kin.sound.defTarget_plain fits
      simp only [Graph.apply, Graph.removeMethod, target.2,
        Option.some.injEq] at returns
      split_ifs at returns with there
      · subst returns
        dsimp only
        exact ⟨_, _, kin.changeTable target.1 _⟩
      · subst returns
        exact ⟨_, _, kin⟩
  | setVisibility class_ mid vis =>
      have target := kin.sound.defTarget_plain fits
      simp only [Graph.apply, Graph.setVisibility] at returns
      split_ifs at returns with there
      · cases returns
        dsimp only
        exact ⟨_, _, kin.changeTable target.1 _⟩
      · simp only [Option.map_map, Option.map_eq_some_iff] at returns
        obtain ⟨found, _, rfl⟩ := returns
        cases found with
        | none => exact ⟨_, _, kin⟩
        | some entry =>
            dsimp only [comp_apply]
            exact ⟨_, _, kin.changeTable target.1 _⟩
  | include_ class_ module_ =>
      exact kin.includeModule fits.1.1 fits.2 returns
  | prepend_ class_ module_ =>
      exact kin.prependModule fits.1 fits.2 returns
  | extend_ v module_ =>
      simp only [Graph.apply, Graph.extend] at returns
      cases opened : Graph.singletonClass fuel g v with
      | none => simp [opened] at returns
      | some made =>
          obtain ⟨g₁, sc⟩ := made
          simp only [opened] at returns
          obtain ⟨⟨_, kin₁⟩, real, _, _, _, older, _⟩ :=
            kin.singletonClass fits.1 opened
          have module₁ : g₁.isModule module_ = true := by
            rw [older.isModule _ (kin.moduleKnown _ fits.2), fits.2]
          exact kin₁.includeModule real.1 module₁ returns

theorem Reached.kin
    (reached : Reached g) : ∃ inside modular, g.Kin inside modular := by
  induction reached with
  | boot privateNames => exact ⟨_, _, Kin.boot privateNames⟩
  | change change fuel _ fits returns ih =>
      obtain ⟨_, _, kin⟩ := ih
      exact kin.apply change fits returns
  | dup_ n fuel _ _ returns ih =>
      obtain ⟨_, _, kin⟩ := ih
      simp only [Graph.dupObject, Option.map_eq_some_iff] at returns
      obtain ⟨c, real, rfl⟩ := returns
      have start := kin.classes (.object n)
      exact ⟨_, _, kin.newObject
        (kin.realClassOf ⟨start.1, start.2.2.2⟩ real)⟩
  | clone_ v fuel _ _ visible returns ih =>
      obtain ⟨_, _, kin⟩ := ih
      exact kin.objClone visible returns

end SabiRuby.Modules.Graph
