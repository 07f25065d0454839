import SabiRuby.Library.Fuel
import SabiRuby.Library.LinkChain

/-!
# Classes, modules and include classes

The superclass links of the heap lead from a class through the include classes
of its modules to its superclass.  A class that has modules prepended keeps its
methods in an origin further down its chain.  The walks of the program along the
links take fuel.
-/

namespace SabiRuby.Modules

open Library

/-- A class, a module, an include class of a module or an origin of a class. -/
structure ClassData where
  superclass : Option Nat
  iclassOf : Option Nat
  origin : Option Nat
  originOf : Option Nat
  deriving DecidableEq, Repr

/-- The classes by number. -/
structure Heap where
  classes : List ClassData
  deriving DecidableEq, Repr

namespace Heap

def cls (h : Heap) (x : Nat) : ClassData :=
  h.classes.getD x ⟨none, none, none, none⟩

/-- The superclass link. -/
def next (h : Heap) (x : Nat) : Option Nat :=
  (h.cls x).superclass

def alloc (h : Heap) (data : ClassData) : Heap :=
  ⟨h.classes ++ [data]⟩

def setSuperclass (h : Heap) (x : Nat) (superclass : Option Nat) : Heap :=
  ⟨h.classes.modify x fun cd => { cd with superclass := superclass }⟩

/-- `def_target` -/
def defTarget (h : Heap) (class_ : Nat) : Nat :=
  (h.cls class_).origin.getD class_

/-- Adds a point that is not in the list. -/
def pushNew (out : List Nat) (y : Nat) : List Nat :=
  if y ∈ out then out else out ++ [y]

/-- The loop of `module_chain`. -/
def moduleChainFrom (h : Heap) :
    Nat → Nat → Option Nat → List Nat → Option (List Nat)
  | _, _, none, out => some out
  | 0, _, some _, _ => none
  | fuel + 1, module_, some x, out =>
      match (h.cls x).iclassOf with
      | some m =>
          match h.moduleChainFrom fuel m (some m) [] with
          | none => none
          | some ys =>
              h.moduleChainFrom fuel module_ (h.next x) (ys.foldl pushNew out)
      | none =>
          match (h.cls x).originOf with
          | some o =>
              h.moduleChainFrom fuel module_ (h.next x) (pushNew out o)
          | none =>
              h.moduleChainFrom fuel module_ (h.next x)
                (if x = module_ ∧ (h.cls x).origin = none then out ++ [x]
                  else out)

/-- `module_chain`: the modules a module brings along, nearest first. -/
def moduleChain (h : Heap) (module_ fuel : Nat) : Option (List Nat) :=
  h.moduleChainFrom fuel module_ (some module_) []

/-- Whether a module has an include class on a chain. -/
def present (h : Heap) (m : Nat) : Nat → Option Nat → Option Bool
  | _, none => some false
  | 0, some _ => none
  | fuel + 1, some x =>
      if (h.cls x).iclassOf = some m then some true
      else h.present m fuel (h.next x)

/-- An include class of a module right above a class. -/
def insertAbove (h : Heap) (at_ m : Nat) : Heap :=
  (h.alloc ⟨h.next at_, some m, none, none⟩).setSuperclass at_
    (some h.classes.length)

/-- The loop of `include_module`. -/
def includeLoop (h : Heap) (fuel class_ at_ : Nat) : List Nat → Option Heap
  | [] => some h
  | m :: mods =>
      match h.present m fuel (h.next class_) with
      | none => none
      | some true => h.includeLoop fuel class_ at_ mods
      | some false =>
          (h.insertAbove at_ m).includeLoop fuel class_ h.classes.length mods

/-- `include_module` -/
def includeModule (h : Heap) (class_ module_ fuel : Nat) : Option Heap :=
  match h.moduleChain module_ fuel with
  | none => none
  | some mods => h.includeLoop fuel class_ (h.defTarget class_) mods

/-- What `ancestors` shows for a class of the chain. -/
def shown (h : Heap) (x : Nat) : Option Nat :=
  if (h.cls x).origin.isSome then none
  else some (((h.cls x).iclassOf.orElse fun _ => (h.cls x).originOf).getD x)

/-- `Module#ancestors` -/
def ancestorsFrom (h : Heap) : Nat → Option Nat → Option (List Nat)
  | _, none => some []
  | 0, some _ => none
  | fuel + 1, some x =>
      (h.ancestorsFrom fuel (h.next x)).map ((h.shown x).toList ++ ·)

def ancestors (h : Heap) (class_ fuel : Nat) : Option (List Nat) :=
  h.ancestorsFrom fuel (some class_)

/-- Superclass links and include classes lead to no cycle, every link leads to
a class of the heap, an origin is on the chain of its class, and an include
class has none. -/
structure Hierarchy (h : Heap) : Prop where
  acyclic : ∃ rank : Nat → Nat, ∀ x,
    (∀ s, h.next x = some s → rank s < rank x) ∧
      (∀ m, (h.cls x).iclassOf = some m → rank m < rank x)
  known : ∀ x s, h.next x = some s → s < h.classes.length
  origin : ∀ x o, (h.cls x).origin = some o → ∃ front behind,
    LinkChain h.next x (x :: front ++ o :: behind)
  plain : ∀ x m, (h.cls x).iclassOf = some m → (h.cls x).origin = none

/-! ## Walks -/

variable {h : Heap}

theorem Hierarchy.exists_chain
    (hierarchy : h.Hierarchy)
    (x : Nat) : ∃ chain, LinkChain h.next x chain := by
  obtain ⟨rank, lower⟩ := hierarchy.acyclic
  induction size : rank x using Nat.strongRecOn generalizing x with
  | ind n ih =>
      cases linked : h.next x with
      | none => exact ⟨[x], LinkChain.last x linked⟩
      | some s =>
          obtain ⟨chain, links⟩ :=
            ih _ (size ▸ (lower x).1 s linked) s rfl
          exact ⟨x :: chain, LinkChain.link x s chain linked links⟩

/-- The walk of `ancestors` shows the classes of the chain. -/
theorem ancestors_eq
    (links : LinkChain h.next x chain)
    (enough : chain.length ≤ fuel) :
    h.ancestorsFrom fuel (some x) = some (chain.filterMap h.shown) := by
  induction links generalizing fuel with
  | last x ends =>
      cases fuel with
      | zero => simp at enough
      | succ fuel =>
          rw [ancestorsFrom, ends, ancestorsFrom]
          cases shown : h.shown x <;> simp [shown]
  | link x y chain linked _ ih =>
      cases fuel with
      | zero => simp at enough
      | succ fuel =>
          rw [List.length_cons, Nat.succ_le_succ_iff] at enough
          rw [ancestorsFrom, linked, ih enough]
          cases shown : h.shown x <;> simp [shown]

theorem ancestors_returns
    (links : LinkChain h.next x chain) :
    Returns (h.ancestors x) (chain.filterMap h.shown) :=
  ⟨chain.length, fun _ enough => ancestors_eq links enough⟩

/-- The modules with an include class among some classes. -/
def modulesOf (h : Heap) (chain : List Nat) : List Nat :=
  chain.filterMap fun x => (h.cls x).iclassOf

theorem present_eq
    (links : LinkChain h.next x chain)
    (m : Nat)
    (enough : chain.length ≤ fuel) :
    h.present m fuel (some x) = some (decide (m ∈ h.modulesOf chain)) := by
  induction links generalizing fuel with
  | last x ends =>
      cases fuel with
      | zero => simp at enough
      | succ fuel =>
          rw [present, ends]
          by_cases here : (h.cls x).iclassOf = some m
          · rw [if_pos here]
            simp [modulesOf, here]
          · rw [if_neg here, present]
            simp [modulesOf, here]
  | link x y chain linked _ ih =>
      cases fuel with
      | zero => simp at enough
      | succ fuel =>
          rw [List.length_cons, Nat.succ_le_succ_iff] at enough
          rw [present, linked]
          by_cases here : (h.cls x).iclassOf = some m
          · rw [if_pos here]
            simp [modulesOf, here]
          · rw [if_neg here, ih enough]
            simp [modulesOf, here]

/-- What is present behind the first class of a chain. -/
theorem present_behind
    (links : LinkChain h.next x (x :: rest))
    (m : Nat)
    (enough : rest.length ≤ fuel) :
    h.present m fuel (h.next x) =
      some (decide (m ∈ h.modulesOf rest)) := by
  cases linked : h.next x with
  | none =>
      rw [links.tail_of_none linked]
      cases fuel <;> simp [present, modulesOf]
  | some y => exact present_eq (links.tail_of_some linked) m enough

/-! ## The modules of a module -/

theorem nodup_pushNew
    (out : List Nat)
    (y : Nat)
    (distinct : out.Nodup) : (pushNew out y).Nodup := by
  unfold pushNew
  by_cases old : y ∈ out
  · rw [if_pos old]
    exact distinct
  · rw [if_neg old, List.nodup_append]
    refine ⟨distinct, List.nodup_singleton y, ?_⟩
    intro a member b other same
    rw [List.mem_singleton] at other
    exact old (other ▸ same ▸ member)

theorem nodup_foldl_pushNew
    (ys out : List Nat)
    (distinct : out.Nodup) : (ys.foldl pushNew out).Nodup := by
  induction ys generalizing out with
  | nil => exact distinct
  | cons y ys ih =>
      exact ih _ (nodup_pushNew out y distinct)

theorem Hierarchy.moduleChain_returns
    (hierarchy : h.Hierarchy)
    (module_ : Nat) : ∃ mods, Returns (h.moduleChain module_) mods := by
  obtain ⟨rank, lower⟩ := hierarchy.acyclic
  have walk : ∀ n x, rank x = n → ∀ m out, ∃ mods, ∀ fuel, n < fuel →
      h.moduleChainFrom fuel m (some x) out = some mods := by
    intro n
    induction n using Nat.strongRecOn with
    | ind n ih =>
        intro x size m out
        have later : ∀ out, ∃ mods, ∀ fuel, n ≤ fuel →
            h.moduleChainFrom fuel m (h.next x) out = some mods := by
          intro out
          cases linked : h.next x with
          | none => exact ⟨out, fun fuel _ => by cases fuel <;> rfl⟩
          | some s =>
              have less := size ▸ (lower x).1 s linked
              obtain ⟨mods, returns⟩ := ih _ less s rfl m out
              exact ⟨mods, fun fuel enough =>
                returns fuel (Nat.lt_of_lt_of_le less enough)⟩
        cases isIclass : (h.cls x).iclassOf with
        | some m' =>
            have less := size ▸ (lower x).2 m' isIclass
            obtain ⟨ys, nested⟩ := ih _ less m' rfl m' []
            obtain ⟨mods, rest⟩ := later (ys.foldl pushNew out)
            refine ⟨mods, ?_⟩
            intro fuel enough
            obtain ⟨fuel, rfl⟩ := Nat.exists_eq_succ_of_ne_zero
              (Nat.ne_of_gt (Nat.zero_lt_of_lt enough))
            rw [Nat.lt_succ_iff] at enough
            rw [moduleChainFrom]
            simp only [isIclass]
            rw [nested fuel (Nat.lt_of_lt_of_le less enough)]
            exact rest fuel enough
        | none =>
            cases isOrigin : (h.cls x).originOf with
            | some o =>
                obtain ⟨mods, rest⟩ := later (pushNew out o)
                refine ⟨mods, ?_⟩
                intro fuel enough
                obtain ⟨fuel, rfl⟩ := Nat.exists_eq_succ_of_ne_zero
                  (Nat.ne_of_gt (Nat.zero_lt_of_lt enough))
                rw [moduleChainFrom]
                simp only [isIclass, isOrigin]
                exact rest fuel (Nat.lt_succ_iff.mp enough)
            | none =>
                obtain ⟨mods, rest⟩ := later
                  (if x = m ∧ (h.cls x).origin = none then out ++ [x] else out)
                refine ⟨mods, ?_⟩
                intro fuel enough
                obtain ⟨fuel, rfl⟩ := Nat.exists_eq_succ_of_ne_zero
                  (Nat.ne_of_gt (Nat.zero_lt_of_lt enough))
                rw [moduleChainFrom]
                simp only [isIclass, isOrigin]
                exact rest fuel (Nat.lt_succ_iff.mp enough)
  obtain ⟨mods, returns⟩ := walk _ module_ rfl module_ []
  exact ⟨mods, rank module_ + 1, fun fuel enough => returns fuel enough⟩

/-- The walk adds no module twice.  The module itself is added where the walk
begins, and the walk does not come back to it. -/
theorem nodup_moduleChainFrom
    (hierarchy : h.Hierarchy)
    (fuel m : Nat)
    (c : Option Nat)
    (out mods : List Nat)
    (distinct : out.Nodup)
    (ahead : ∀ x chain, c = some x → LinkChain h.next x chain →
      m ∉ chain ∨ x = m ∧ out = [])
    (returns : h.moduleChainFrom fuel m c out = some mods) : mods.Nodup := by
  induction fuel generalizing c out with
  | zero =>
      cases c with
      | none =>
          cases returns
          exact distinct
      | some x => cases returns
  | succ fuel ih =>
      cases c with
      | none =>
          cases returns
          exact distinct
      | some x =>
          have further : ∀ (out : List Nat) y chain, h.next x = some y →
              LinkChain h.next y chain → m ∉ chain ∨ y = m ∧ out = [] := by
            intro out y chain linked links
            have whole := LinkChain.link x y chain linked links
            rcases ahead x _ rfl whole with away | ⟨rfl, _⟩
            · exact Or.inl fun member => away (List.mem_cons_of_mem x member)
            · exact Or.inl (List.nodup_cons.mp whole.nodup).1
          rw [moduleChainFrom] at returns
          cases isIclass : (h.cls x).iclassOf with
          | some m' =>
              simp only [isIclass] at returns
              cases nested : h.moduleChainFrom fuel m' (some m') [] with
              | none => simp [nested] at returns
              | some ys =>
                  simp only [nested] at returns
                  exact ih _ _
                    (nodup_foldl_pushNew ys out distinct) (further _) returns
          | none =>
              cases isOrigin : (h.cls x).originOf with
              | some o =>
                  simp only [isIclass, isOrigin] at returns
                  exact ih _ _ (nodup_pushNew out o distinct)
                    (further _) returns
              | none =>
                  simp only [isIclass, isOrigin] at returns
                  by_cases self : x = m ∧ (h.cls x).origin = none
                  · rw [if_pos self] at returns
                    obtain ⟨chain, links⟩ := hierarchy.exists_chain x
                    have empty : out = [] := by
                      rcases ahead x chain rfl links with away | ⟨_, empty⟩
                      · exact absurd (self.1 ▸ links.mem_self) away
                      · exact empty
                    refine ih _ _ ?_ (further _) returns
                    rw [empty]
                    exact List.nodup_singleton x
                  · rw [if_neg self] at returns
                    exact ih _ _ distinct (further _) returns

theorem Hierarchy.moduleChain_nodup
    (hierarchy : h.Hierarchy)
    (returns : Returns (h.moduleChain module_) mods) : mods.Nodup := by
  obtain ⟨least, value⟩ := returns
  refine nodup_moduleChainFrom hierarchy least module_ (some module_) [] mods
    List.nodup_nil ?_ (value least (Nat.le_refl least))
  rintro x chain ⟨⟩ _
  exact Or.inr ⟨rfl, rfl⟩

end Heap
end SabiRuby.Modules
