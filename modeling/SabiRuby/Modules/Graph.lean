import Mathlib.Data.List.Sort
import Mathlib.Logic.Function.Basic
import SabiRuby.Modules.Hierarchy

/-!
# The class graph with its method tables

Every class of the heap has a table of methods and a table of visibilities.  An
include class reads the tables of its module, and a class that has modules
prepended has its tables in its origin.  The operations of a program on classes
and modules change the tables, or put new classes into the chains.
-/

namespace SabiRuby.Modules

open Library

inductive Vis
  | public_
  | private_
  | protected_
  deriving DecidableEq, Repr

/-- The entry of a name in a method table.  Bodies have numbers. -/
inductive Method
  | undef
  | body (number : Nat)
  deriving DecidableEq, Repr

/-- The values that have a class of their own: objects and classes. -/
inductive Receiver
  | object (number : Nat)
  | class_ (number : Nat)
  deriving DecidableEq, Repr

/-- The methods of a class and the visibility of those that are not public. -/
structure Table where
  methods : List (Nat × Method)
  vis : List (Nat × Vis)
  deriving DecidableEq, Repr

namespace Table

def empty : Table := ⟨[], []⟩

def find (t : Table) (mid : Nat) : Option Method :=
  t.methods.lookup mid

def visOf (t : Table) (mid : Nat) : Vis :=
  (t.vis.lookup mid).getD .public_

def insert (t : Table) (mid : Nat) (m : Method) : Table :=
  { t with methods := (mid, m) :: t.methods.filter (·.1 ≠ mid) }

/-- A public method has no entry. -/
def setVis (t : Table) (mid : Nat) (vis : Vis) : Table :=
  match vis with
  | .public_ => { t with vis := t.vis.filter (·.1 ≠ mid) }
  | _ => { t with vis := (mid, vis) :: t.vis.filter (·.1 ≠ mid) }

def remove (t : Table) (mid : Nat) : Table :=
  ⟨t.methods.filter (·.1 ≠ mid), t.vis.filter (·.1 ≠ mid)⟩

/-- The names of a table by their numbers. -/
def names (t : Table) : List Nat :=
  (t.methods.map Prod.fst).insertionSort (· ≤ ·)

end Table

/-- The names that are private however they are defined. -/
structure PrivateNames where
  initialize_ : Nat
  initializeCopy : Nat
  respondToMissing : Nat
  deriving DecidableEq, Repr

/-- The classes with their links, their tables, the singleton classes with what
they are attached to, and the class of every object and class.  A number that is
not in use has what a new include class has. -/
structure Graph where
  heap : Heap
  tables : Nat → Table
  attached : Nat → Option Receiver
  isModule : Nat → Bool
  classOf : Receiver → Nat
  objects : Nat
  moduleClass : Nat
  classClass : Nat
  privateNames : PrivateNames

/-- Why a call raises. -/
inductive Failure
  | undefinedMethod (mid class_ : Nat)
  | notDefined (mid class_ : Nat)
  | cyclicPrepend
  deriving DecidableEq, Repr

/-- An origin of a class right above it. -/
def Heap.insertOrigin (h : Heap) (class_ : Nat) : Heap :=
  let origin := h.classes.length
  ⟨(h.alloc ⟨h.next class_, none, none, some class_⟩).classes.modify class_
    fun cd => { cd with superclass := some origin, origin := some origin }⟩

namespace Graph

/-! ## Dispatch -/

/-- `table_owner` -/
def tableOwner (g : Graph) (x : Nat) : Nat :=
  match (g.heap.cls x).iclassOf with
  | some m => (g.heap.cls m).origin.getD m
  | none => x

/-- The tables that a class of a chain reads. -/
def tableAt (g : Graph) (x : Nat) : Table :=
  g.tables (g.tableOwner x)

/-- `find_method_entry` -/
def findMethodEntry (g : Graph) (mid : Nat) :
    Nat → Option Nat → Option (Option (Method × Nat))
  | _, none => some none
  | 0, some _ => none
  | fuel + 1, some x =>
      if (g.heap.cls x).origin.isSome then
        g.findMethodEntry mid fuel (g.heap.next x)
      else
        match (g.tableAt x).find mid with
        | some m => some (some (m, x))
        | none => g.findMethodEntry mid fuel (g.heap.next x)

/-- `find_method` -/
def findMethod (g : Graph) (class_ mid fuel : Nat) :
    Option (Option (Nat × Nat)) :=
  (g.findMethodEntry mid fuel (some class_)).map fun found =>
    match found with
    | some (.body number, owner) => some (number, owner)
    | _ => none

/-- `method_vis` -/
def methodVis (g : Graph) (mid : Nat) : Nat → Option Nat → Option Vis
  | _, none => some .public_
  | 0, some _ => none
  | fuel + 1, some x =>
      if (g.heap.cls x).origin.isNone ∧
          ((g.tableAt x).find mid).isSome then
        some ((g.tableAt x).visOf mid)
      else g.methodVis mid fuel (g.heap.next x)

/-- The visibility with which a lookup finds a method that is not undefined. -/
def foundVis (g : Graph) (class_ mid fuel : Nat) : Option (Option Vis) :=
  match g.findMethod class_ mid fuel with
  | none => none
  | some none => some none
  | some (some (_, owner)) => (g.methodVis mid fuel (some owner)).map some

/-! ## Listings -/

/-- Which methods a listing asks for. -/
inductive Filt
  | noPriv
  | public_
  | private_
  | protected_
  deriving DecidableEq, Repr

/-- `vis_ok` -/
def visOk (v : Vis) : Filt → Bool
  | .noPriv => v != .private_
  | .public_ => v == .public_
  | .private_ => v == .private_
  | .protected_ => v == .protected_

/-- A turn of the loop of `entry_loop`.  A name is seen as defined or not. -/
def entryTurn (t : Table) (f : Filt) (seen : List (Nat × Bool)) (k : Nat) :
    List (Nat × Bool) :=
  if !visOk (t.visOf k) f then seen
  else if seen.any (·.1 = k) then seen
  else seen ++ [(k, decide (t.find k ≠ some .undef))]

/-- `entry_loop` -/
def entryLoop (g : Graph) (c : Nat) (seen : List (Nat × Bool)) (f : Filt) :
    List (Nat × Bool) :=
  (g.tableAt c).names.foldl (entryTurn (g.tableAt c) f) seen

/-- The loop of `instance_method_list`. -/
def listFrom (g : Graph) (f : Filt) :
    Nat → Option Nat → List (Nat × Bool) → Option (List (Nat × Bool))
  | _, none, seen => some seen
  | 0, some _, _ => none
  | fuel + 1, some x, seen =>
      g.listFrom f fuel (g.heap.next x) (g.entryLoop x seen f)

/-- `instance_method_list` -/
def instanceMethodList
    (g : Graph)
    (recur : Bool)
    (class_ : Nat)
    (f : Filt)
    (fuel : Nat) : Option (List Nat) :=
  (if recur then g.listFrom f fuel (some class_) []
    else some (g.entryLoop (g.heap.defTarget class_) [] f)).map fun seen =>
      (seen.filter (·.2)).map Prod.fst

/-- `methods` -/
def methods (g : Graph) (s : Receiver) (recur : Bool) (fuel : Nat) :
    Option (List Nat) :=
  g.instanceMethodList recur (g.classOf s) .noPriv fuel

/-- `is_iclass` -/
def isIclass (g : Graph) (c : Nat) : Bool :=
  (g.heap.cls c).iclassOf.isSome || (g.heap.cls c).originOf.isSome

/-- The loop of `singleton_methods`. -/
def singletonFrom (g : Graph) :
    Nat → Option Nat → List (Nat × Bool) → Option (List (Nat × Bool))
  | _, none, seen => some seen
  | 0, some _, _ => none
  | fuel + 1, some c, seen =>
      if !((g.attached c).isSome || g.isIclass c) then some seen
      else g.singletonFrom fuel (g.heap.next c) (g.entryLoop c seen .public_)

/-- `singleton_methods` -/
def singletonMethods (g : Graph) (s : Receiver) (recur : Bool) (fuel : Nat) :
    Option (List Nat) :=
  let c := g.classOf s
  let own := if (g.attached c).isSome
    then (g.heap.next c, g.entryLoop c [] .public_) else (some c, [])
  (if recur then g.singletonFrom fuel own.1 own.2 else some own.2).map
    (·.map Prod.fst)

/-! ## Changes of the tables -/

def changeTable (g : Graph) (x : Nat) (change : Table → Table) : Graph :=
  { g with tables := Function.update g.tables x (change (g.tables x)) }

/-- `always_private` -/
def alwaysPrivate (g : Graph) (mid : Nat) : Bool :=
  mid = g.privateNames.initialize_ || mid = g.privateNames.initializeCopy ||
    mid = g.privateNames.respondToMissing

/-- `def_method_nohook` -/
def defMethod (g : Graph) (class_ mid : Nat) (m : Method) (vis : Vis) : Graph :=
  g.changeTable (g.heap.defTarget class_) fun t =>
    (t.insert mid m).setVis mid
      (if g.alwaysPrivate mid then .private_ else vis)

/-- `alias_method` -/
def aliasMethod (g : Graph) (class_ new old fuel : Nat) :
    Option (Graph × Option Failure) :=
  if new = old then some (g, none)
  else
    match g.findMethod class_ old fuel with
    | none => none
    | some none => some (g, some (.undefinedMethod old class_))
    | some (some (number, owner)) =>
        (g.methodVis old fuel (some owner)).map fun vis =>
          (g.defMethod class_ new (.body number) vis, none)

/-- `undef_method`: the visibility stays. -/
def undefMethod (g : Graph) (class_ mid fuel : Nat) :
    Option (Graph × Option Failure) :=
  (g.findMethod class_ mid fuel).map fun found =>
    match found with
    | none => (g, some (.undefinedMethod mid class_))
    | some _ =>
        (g.changeTable (g.heap.defTarget class_) (·.insert mid .undef), none)

/-- `remove_method` -/
def removeMethod (g : Graph) (class_ mid : Nat) : Graph × Option Failure :=
  let owner := g.tableOwner (g.heap.defTarget class_)
  if ((g.tables owner).find mid).isSome then
    (g.changeTable owner (·.remove mid), none)
  else (g, some (.notDefined mid class_))

/-- `set_visibility`: an inherited method is copied. -/
def setVisibility (g : Graph) (class_ mid : Nat) (vis : Vis) (fuel : Nat) :
    Option (Graph × Option Failure) :=
  let t := g.heap.defTarget class_
  if ((g.tables t).find mid).isSome then
    some (g.changeTable t (·.setVis mid vis), none)
  else
    (g.findMethod class_ mid fuel).map fun found =>
      match found with
      | none => (g, some (.undefinedMethod mid class_))
      | some (number, _) =>
          (g.changeTable t fun table =>
            (table.insert mid (.body number)).setVis mid vis, none)

/-! ## Changes of the chains -/

/-- A new class above which there is another, or none. -/
def alloc (g : Graph) (superclass : Option Nat) : Graph :=
  { g with heap := g.heap.alloc ⟨superclass, none, none, none⟩ }

/-- A singleton class. -/
def addSingleton (g : Graph) (v : Receiver) (sup : Nat) : Graph × Nat :=
  let n := g.heap.classes.length
  ({ g.alloc (some sup) with
      attached := Function.update g.attached n (some v)
      classOf := Function.update g.classOf v n }, n)

/-- `singleton_class` -/
def singletonClass : Nat → Graph → Receiver → Option (Graph × Nat)
  | 0, _, _ => none
  | fuel + 1, g, v =>
      if g.attached (g.classOf v) = some v then some (g, g.classOf v)
      else
        match v with
        | .object _ => some (g.addSingleton v (g.classOf v))
        | .class_ o =>
            if g.isModule o then some (g.addSingleton v (g.classOf v))
            else
              match g.heap.next o with
              | none => some (g.addSingleton v (g.classOf v))
              | some s =>
                  if (g.attached s).isSome then some (g.addSingleton v s)
                  else
                    match singletonClass fuel g (.class_ s) with
                    | none => none
                    | some (g', sup) => some (g'.addSingleton v sup)

/-- `class_new` -/
def newClass (g : Graph) (superclass fuel : Nat) : Option Graph :=
  let n := g.heap.classes.length
  let made := { g.alloc (some superclass) with
    classOf := Function.update g.classOf (.class_ n) g.classClass }
  (singletonClass fuel made (.class_ n)).map Prod.fst

/-- `define_module` -/
def newModule (g : Graph) : Graph :=
  let n := g.heap.classes.length
  { g.alloc none with
    isModule := Function.update g.isModule n true
    classOf := Function.update g.classOf (.class_ n) g.moduleClass }

def newObject (g : Graph) (class_ : Nat) : Graph :=
  { g with
    classOf := Function.update g.classOf (.object g.objects) class_
    objects := g.objects + 1 }

/-- `include_module` -/
def includeModule (g : Graph) (class_ module_ fuel : Nat) : Option Graph :=
  (g.heap.includeModule class_ module_ fuel).map fun heap =>
    { g with heap := heap }

/-- `extend` with one module. -/
def extend (g : Graph) (v : Receiver) (module_ fuel : Nat) : Option Graph :=
  match singletonClass fuel g v with
  | none => none
  | some (g', sc) => g'.includeModule sc module_ fuel

/-- The tables of a class move into its origin when it has none yet. -/
def withOrigin (g : Graph) (class_ : Nat) : Graph :=
  if (g.heap.cls class_).origin.isSome then g
  else
    let origin := g.heap.classes.length
    { g with
      heap := g.heap.insertOrigin class_
      tables := Function.update
        (Function.update g.tables origin (g.tables class_)) class_ Table.empty }

/-- Whether a module is between a class and its origin. -/
def alreadyPrepended (h : Heap) (origin module_ : Nat) :
    Nat → Option Nat → Option Bool
  | _, none => some false
  | 0, some _ => none
  | fuel + 1, some x =>
      if x = origin then some false
      else if (h.cls x).iclassOf = some module_ then some true
      else alreadyPrepended h origin module_ fuel (h.next x)

/-- `module_chain_contains` -/
def moduleChainContains (h : Heap) (class_ : Nat) :
    Nat → Option Nat → Option Bool
  | _, none => some false
  | 0, some _ => none
  | fuel + 1, some x =>
      if x = class_ ∨ (h.cls x).iclassOf = some class_ then some true
      else moduleChainContains h class_ fuel (h.next x)

/-- Whether a module has an include class below the first real class. -/
def presentBelow (h : Heap) (m : Nat) : Nat → Option Nat → Option Bool
  | _, none => some false
  | 0, some _ => none
  | fuel + 1, some x =>
      if (h.cls x).iclassOf = some m then some true
      else if (h.cls x).iclassOf = none ∧ (h.cls x).originOf = none then
        some false
      else presentBelow h m fuel (h.next x)

/-- The loop of `prepend_module`. -/
def prependLoop (fuel class_ : Nat) : Heap → List Nat → Option Heap
  | h, [] => some h
  | h, m :: mods =>
      match presentBelow h m fuel (h.next class_) with
      | none => none
      | some true => prependLoop fuel class_ h mods
      | some false => prependLoop fuel class_ (h.insertAbove class_ m) mods

/-- `prepend_module`: the class keeps the origin also where the call raises. -/
def prependModule (g : Graph) (class_ module_ fuel : Nat) :
    Option (Graph × Option Failure) :=
  let g := g.withOrigin class_
  match alreadyPrepended g.heap (g.heap.defTarget class_) module_ fuel
      (g.heap.next class_) with
  | none => none
  | some true => some (g, none)
  | some false =>
      match moduleChainContains g.heap class_ fuel (some module_) with
      | none => none
      | some contains =>
          if module_ = class_ ∨ contains then some (g, some .cyclicPrepend)
          else
            match g.heap.moduleChain module_ fuel with
            | none => none
            | some mods =>
                (prependLoop fuel class_ g.heap mods.reverse).map fun heap =>
                  ({ g with heap := heap }, none)

/-! ## Runs -/

/-- What a program can do to its classes and modules. -/
inductive Change
  | newClass (superclass : Nat)
  | newModule
  | newObject (class_ : Nat)
  | openSingleton (v : Receiver)
  | define_ (class_ mid : Nat) (m : Nat) (vis : Vis)
  | alias_ (class_ new old : Nat)
  | undefMethod (class_ mid : Nat)
  | removeMethod (class_ mid : Nat)
  | setVisibility (class_ mid : Nat) (vis : Vis)
  | include_ (class_ module_ : Nat)
  | prepend_ (class_ module_ : Nat)
  | extend_ (v : Receiver) (module_ : Nat)
  deriving DecidableEq, Repr

/-- A class or module that a program can hold: no include class and no
origin. -/
def Visible (g : Graph) (c : Nat) : Prop :=
  c < g.heap.classes.length ∧ (g.heap.cls c).iclassOf = none ∧
    (g.heap.cls c).originOf = none

instance (g : Graph) (c : Nat) : Decidable (g.Visible c) :=
  inferInstanceAs (Decidable (_ ∧ _ ∧ _))

/-- The classes that a change names. -/
def Change.classes : Change → List Nat
  | .newClass superclass => [superclass]
  | .newModule => []
  | .newObject class_ => [class_]
  | .openSingleton _ => []
  | .define_ class_ _ _ _ => [class_]
  | .alias_ class_ _ _ => [class_]
  | .undefMethod class_ _ => [class_]
  | .removeMethod class_ _ => [class_]
  | .setVisibility class_ _ _ => [class_]
  | .include_ class_ module_ => [class_, module_]
  | .prepend_ class_ module_ => [class_, module_]
  | .extend_ _ module_ => [module_]

/-- The graph after a change, also where the change raises. -/
def apply (g : Graph) (fuel : Nat) : Change → Option Graph
  | .newClass superclass => g.newClass superclass fuel
  | .newModule => some g.newModule
  | .newObject class_ => some (g.newObject class_)
  | .openSingleton v => (singletonClass fuel g v).map Prod.fst
  | .define_ class_ mid m vis => some (g.defMethod class_ mid (.body m) vis)
  | .alias_ class_ new old => (g.aliasMethod class_ new old fuel).map Prod.fst
  | .undefMethod class_ mid => (g.undefMethod class_ mid fuel).map Prod.fst
  | .removeMethod class_ mid => some (g.removeMethod class_ mid).1
  | .setVisibility class_ mid vis =>
      (g.setVisibility class_ mid vis fuel).map Prod.fst
  | .include_ class_ module_ => g.includeModule class_ module_ fuel
  | .prepend_ class_ module_ =>
      (g.prependModule class_ module_ fuel).map Prod.fst
  | .extend_ v module_ => g.extend v module_ fuel

/-- BasicObject, Object, Module and Class. -/
def boot (privateNames : PrivateNames) : Graph where
  heap := ⟨[⟨none, none, none, none⟩, ⟨some 0, none, none, none⟩,
    ⟨some 1, none, none, none⟩, ⟨some 2, none, none, none⟩]⟩
  tables := fun _ => Table.empty
  attached := fun _ => none
  isModule := fun _ => false
  classOf := fun _ => 3
  objects := 0
  moduleClass := 2
  classClass := 3
  privateNames := privateNames

/-- The graphs that a program can reach. -/
inductive Reachable : Graph → Prop
  | boot (privateNames : PrivateNames) : Reachable (boot privateNames)
  | change {g g' : Graph} (change : Change) (fuel : Nat) :
      Reachable g → (∀ c ∈ change.classes, g.Visible c) →
      g.apply fuel change = some g' → Reachable g'

/-- The graph after some changes that a program can make. -/
def run (g : Graph) (fuel : Nat) : List Change → Option Graph
  | [] => some g
  | change :: changes =>
      if ∀ c ∈ change.classes, g.Visible c then
        (g.apply fuel change).bind (·.run fuel changes)
      else none

theorem Reachable.run
    (reachable : Reachable g)
    (runs : g.run fuel changes = some g') : Reachable g' := by
  induction changes generalizing g with
  | nil =>
      cases runs
      exact reachable
  | cons change changes ih =>
      rw [Graph.run] at runs
      by_cases visible : ∀ c ∈ change.classes, g.Visible c
      · rw [if_pos visible, Option.bind_eq_some_iff] at runs
        obtain ⟨next, steps, rest⟩ := runs
        exact ih
          (Reachable.change change fuel reachable visible steps) rest
      · rw [if_neg visible] at runs
        cases runs

end Graph
end SabiRuby.Modules
