import SabiRuby.Modules.Rooted

/-!
# Method listings and dispatch

The entries of a name along a chain decide both what a lookup finds and what a
listing names.  A lookup stops at the nearest entry; a listing passes over the
entries whose visibility it does not ask for, and takes the nearest of the
others.
-/

namespace SabiRuby.Modules.Graph

open Library

variable {g : Graph}

/-! ## The entries of a name -/

/-- The entry of a name in a class of a chain, with its visibility. -/
def entryAt (g : Graph) (mid x : Nat) : Option (Method × Vis) :=
  ((g.tableAt x).find mid).map fun m => (m, (g.tableAt x).visOf mid)

/-- The entries of a name in some classes, nearest first. -/
def entries (g : Graph) (mid : Nat) (chain : List Nat) : List (Method × Vis) :=
  chain.filterMap (g.entryAt mid)

/-- The visibility of an entry that is not undefined. -/
def definedVis : Method × Vis → Option Vis
  | (.undef, _) => none
  | (.body _, vis) => some vis

/-- A class that keeps its methods in its origin has no entries. -/
theorem Sound.entryAt_moved
    (sound : g.Sound)
    (has : (g.heap.cls x).origin.isSome) : g.entryAt mid x = none := by
  have some_ : (g.heap.cls x).origin ≠ none := by
    intro none_
    rw [none_] at has
    cases has
  have notIclass : (g.heap.cls x).iclassOf = none := by
    by_contra iclass
    exact some_ (sound.rooted.plain x (Or.inl iclass))
  have own : g.tableAt x = g.tables x := by
    rw [tableAt, tableOwner, notIclass]
  rw [entryAt, own, Table.find, sound.moved x some_]
  rfl

/-! ## Dispatch -/

/-- Fuel for a chain is one turn more than fuel for what lies behind. -/
theorem fuel_of_cons
    (enough : (x :: chain).length ≤ fuel) :
    ∃ more, fuel = more + 1 ∧ chain.length ≤ more := by
  cases fuel with
  | zero => cases enough
  | succ more => exact ⟨more, rfl, Nat.le_of_succ_le_succ enough⟩

/-- A lookup finds the nearest entry, in a class without an origin. -/
theorem Sound.findMethodEntry_eq
    (sound : g.Sound)
    (links : LinkChain g.heap.next x chain)
    (enough : chain.length ≤ fuel)
    (mid : Nat) :
    (g.entries mid chain = [] ∧
        g.findMethodEntry mid fuel (some x) = some none) ∨
      ∃ m owner rest,
        g.entries mid chain = (m, (g.tableAt owner).visOf mid) :: rest ∧
        g.findMethodEntry mid fuel (some x) = some (some (m, owner)) ∧
        (g.heap.cls owner).origin = none ∧
        (g.tableAt owner).find mid = some m := by
  induction links generalizing fuel with
  | last x ends =>
      obtain ⟨fuel, rfl, _⟩ := fuel_of_cons enough
      rw [findMethodEntry, ends, findMethodEntry]
      by_cases has : (g.heap.cls x).origin.isSome
      · rw [if_pos has]
        exact Or.inl ⟨by simp [entries, sound.entryAt_moved has], rfl⟩
      · rw [if_neg has]
        cases there : (g.tableAt x).find mid with
        | none => exact Or.inl ⟨by simp [entries, entryAt, there], rfl⟩
        | some m =>
            exact Or.inr ⟨m, x, [], by simp [entries, entryAt, there], rfl,
              by simpa using has, there⟩
  | link x y chain linked _ ih =>
      obtain ⟨fuel, rfl, less⟩ := fuel_of_cons enough
      have later := ih less
      rw [findMethodEntry, linked]
      by_cases has : (g.heap.cls x).origin.isSome
      · rw [if_pos has]
        simpa [entries, sound.entryAt_moved has] using later
      · rw [if_neg has]
        cases there : (g.tableAt x).find mid with
        | none => simpa [entries, entryAt, there] using later
        | some m =>
            exact Or.inr ⟨m, x, g.entries mid chain,
              by simp [entries, entryAt, there], rfl, by simpa using has,
              there⟩

/-- A lookup and the visibility of what it found tell the nearest entry. -/
theorem Sound.foundVis_returns
    (sound : g.Sound)
    (links : LinkChain g.heap.next x chain)
    (mid : Nat) :
    Returns (g.foundVis x mid)
      ((g.entries mid chain).head?.bind definedVis) := by
  refine ⟨chain.length, ?_⟩
  intro fuel enough
  obtain ⟨rest, rfl⟩ := links.exists_eq_cons
  obtain ⟨turns, rfl, _⟩ := fuel_of_cons enough
  unfold foundVis findMethod
  obtain ⟨nothing, finds⟩ | ⟨m, owner, rest, nearest, finds, plain, there⟩ :=
    sound.findMethodEntry_eq links enough mid
  · rw [nothing, finds]
    rfl
  · rw [nearest, finds]
    cases m with
    | undef => rfl
    | body number =>
        simp only [Option.map_some, List.head?_cons, Option.bind_some,
          definedVis]
        rw [methodVis, if_pos ⟨by rw [plain]; rfl, by rw [there]; rfl⟩]
        rfl

/-! ## What a listing sees -/

/-- Whether a listing sees an entry as defined, if it asks for it. -/
def shows (f : Filt) (entry : Method × Vis) : Option Bool :=
  if visOk entry.2 f then some (decide (entry.1 ≠ .undef)) else none

/-- The keys of what was seen are distinct. -/
def DistinctKeys (seen : List (Nat × Bool)) : Prop :=
  (seen.map Prod.fst).Nodup

theorem mem_iff_lookup
    (distinct : DistinctKeys seen)
    (k : Nat)
    (b : Bool) : (k, b) ∈ seen ↔ seen.lookup k = some b := by
  induction seen with
  | nil => simp
  | cons entry seen ih =>
      obtain ⟨j, c⟩ := entry
      rw [DistinctKeys, List.map_cons, List.nodup_cons] at distinct
      rw [List.lookup_cons, List.mem_cons, Prod.mk.injEq]
      by_cases same : k = j
      · subst same
        have away : (k, b) ∉ seen := fun member =>
          distinct.1 (List.mem_map.mpr ⟨_, member, rfl⟩)
        simp [away, eq_comm]
      · have differs : (k == j) = false := by simpa using same
        simp only [differs, same, false_and, false_or]
        exact ih distinct.2

theorem any_iff_lookup (seen : List (Nat × Bool)) (k : Nat) :
    seen.any (·.1 = k) = (seen.lookup k).isSome := by
  rw [Bool.eq_iff_iff, List.lookup_isSome_iff, List.any_eq_true]
  simp only [decide_eq_true_eq, beq_iff_eq, eq_comm (a := k)]

theorem lookup_concat (seen : List (Nat × Bool)) (k j : Nat) (b : Bool) :
    (seen ++ [(k, b)]).lookup j =
      (seen.lookup j).or (if j = k then some b else none) := by
  rw [List.lookup_append]
  by_cases same : j = k
  · simp [same]
  · have differs : (j == k) = false := by simpa using same
    simp [same, differs, List.lookup_cons]

/-- A turn of the loop records a name that is new and asked for. -/
theorem entryTurn_spec
    (t : Table)
    (f : Filt)
    (k j : Nat)
    (distinct : DistinctKeys seen) :
    DistinctKeys (entryTurn t f seen k) ∧
      (entryTurn t f seen k).lookup j = (seen.lookup j).or
        (if j = k ∧ visOk (t.visOf k) f = true then
          some (decide (t.find k ≠ some .undef)) else none) := by
  unfold entryTurn
  by_cases asked : visOk (t.visOf k) f = true
  · rw [if_neg (by simp [asked]), any_iff_lookup]
    cases old : seen.lookup k with
    | some b =>
        rw [if_pos (Option.isSome_some)]
        refine ⟨distinct, ?_⟩
        by_cases same : j = k
        · simp [same, old]
        · simp [same]
    | none =>
        rw [if_neg (by simp)]
        refine ⟨?_, ?_⟩
        · rw [DistinctKeys, List.map_append, List.nodup_append]
          refine ⟨distinct, by simp, ?_⟩
          intro a member b other same
          simp only [List.map_cons, List.map_nil, List.mem_singleton] at other
          obtain ⟨entry, there, is⟩ := List.mem_map.mp member
          have any := any_iff_lookup seen k
          rw [old, Option.isSome_none, List.any_eq_false] at any
          exact any entry there (by simp [is, same, other])
        · rw [lookup_concat]
          simp [asked]
  · rw [if_pos (by simp [asked])]
    exact ⟨distinct, by simp [asked]⟩

theorem foldl_entryTurn
    (t : Table)
    (f : Filt)
    (names : List Nat)
    (j : Nat)
    (distinct : DistinctKeys seen) :
    DistinctKeys (names.foldl (entryTurn t f) seen) ∧
      (names.foldl (entryTurn t f) seen).lookup j = (seen.lookup j).or
        (if j ∈ names ∧ visOk (t.visOf j) f = true then
          some (decide (t.find j ≠ some .undef)) else none) := by
  induction names generalizing seen with
  | nil => exact ⟨distinct, by simp⟩
  | cons k names ih =>
      obtain ⟨once, sees⟩ := entryTurn_spec t f k j distinct
      obtain ⟨rest, all⟩ := ih once
      refine ⟨rest, ?_⟩
      rw [List.foldl_cons, all, sees, Option.or_assoc]
      congr 1
      by_cases same : j = k
      · subst same
        by_cases asked : visOk (t.visOf j) f = true
        · simp [asked]
        · simp [asked]
      · simp [same]

theorem mem_names (t : Table) (k : Nat) :
    k ∈ t.names ↔ (t.find k).isSome = true := by
  rw [Table.names, List.mem_insertionSort, Table.find,
    List.lookup_isSome_iff, List.mem_map]
  simp only [beq_iff_eq, eq_comm (a := k)]

/-- A class adds the names it has entries for. -/
theorem entryLoop_spec
    (g : Graph)
    (c : Nat)
    (f : Filt)
    (j : Nat)
    (distinct : DistinctKeys seen) :
    DistinctKeys (g.entryLoop c seen f) ∧
      (g.entryLoop c seen f).lookup j =
        (seen.lookup j).or ((g.entryAt j c).bind (shows f)) := by
  obtain ⟨once, sees⟩ :=
    foldl_entryTurn (g.tableAt c) f (g.tableAt c).names j distinct
  refine ⟨once, sees.trans ?_⟩
  congr 1
  simp only [mem_names, entryAt]
  cases there : (g.tableAt c).find j with
  | none => simp
  | some m => simp [shows]

/-- What a listing of some classes sees of a name. -/
theorem foldl_entryLoop
    (g : Graph)
    (f : Filt)
    (classes : List Nat)
    (j : Nat)
    (distinct : DistinctKeys seen) :
    DistinctKeys (classes.foldl (fun seen c => g.entryLoop c seen f) seen) ∧
      (classes.foldl (fun seen c => g.entryLoop c seen f) seen).lookup j =
        (seen.lookup j).or ((g.entries j classes).findSome? (shows f)) := by
  induction classes generalizing seen with
  | nil => exact ⟨distinct, by simp [entries]⟩
  | cons c classes ih =>
      obtain ⟨once, sees⟩ := entryLoop_spec g c f j distinct
      obtain ⟨rest, all⟩ := ih once
      refine ⟨rest, ?_⟩
      rw [List.foldl_cons, all, sees, Option.or_assoc]
      congr 1
      rw [entries, entries, List.filterMap_cons]
      cases there : g.entryAt j c with
      | none => rfl
      | some entry =>
          rw [Option.bind_some, List.findSome?_cons]
          cases shows f entry <;> rfl

/-- The loop of a listing goes through the chain. -/
theorem listFrom_eq
    (f : Filt)
    (links : LinkChain g.heap.next x chain)
    (enough : chain.length ≤ fuel)
    (seen : List (Nat × Bool)) :
    g.listFrom f fuel (some x) seen =
      some (chain.foldl (fun seen c => g.entryLoop c seen f) seen) := by
  induction links generalizing fuel seen with
  | last x ends =>
      obtain ⟨fuel, rfl, _⟩ := fuel_of_cons enough
      rw [listFrom, ends, listFrom]
      rfl
  | link x y chain linked _ ih =>
      obtain ⟨fuel, rfl, less⟩ := fuel_of_cons enough
      rw [listFrom, linked, ih less, List.foldl_cons]

/-- A listing names what it sees first as defined, each name once. -/
theorem instanceMethodList_spec
    (f : Filt)
    (links : LinkChain g.heap.next class_ chain) :
    ∃ names, Returns (g.instanceMethodList true class_ f) names ∧
      names.Nodup ∧ ∀ mid, mid ∈ names ↔
        (g.entries mid chain).findSome? (shows f) = some true := by
  have empty : DistinctKeys [] := List.nodup_nil
  have walks : Returns (g.instanceMethodList true class_ f)
      (((chain.foldl (fun seen c => g.entryLoop c seen f) []).filter
        (·.2)).map Prod.fst) := by
    refine ⟨chain.length, fun fuel enough => ?_⟩
    rw [instanceMethodList, if_pos rfl, listFrom_eq f links enough]
    rfl
  refine ⟨_, walks, ?_, ?_⟩
  · have distinct := (foldl_entryLoop g f chain 0 empty).1
    exact distinct.sublist (List.filter_sublist.map _)
  · intro mid
    obtain ⟨distinct, sees⟩ := foldl_entryLoop g f chain mid empty
    rw [List.lookup_nil, Option.none_or] at sees
    rw [← sees, ← mem_iff_lookup distinct]
    simp only [List.mem_map, List.mem_filter]
    constructor
    · rintro ⟨⟨_, b⟩, ⟨member, isTrue⟩, rfl⟩
      simp only at isTrue
      exact isTrue ▸ member
    · exact fun member => ⟨(mid, true), ⟨member, rfl⟩, rfl⟩

/-! ## Singleton methods -/

/-- The singleton classes and include classes at the head of a chain. -/
def singletonPart (g : Graph) (recur : Bool) (chain : List Nat) : List Nat :=
  if recur then
    chain.takeWhile fun c => (g.attached c).isSome || g.isIclass c
  else (chain.take 1).filter fun c => (g.attached c).isSome

theorem singletonFrom_eq
    (links : LinkChain g.heap.next x chain)
    (enough : chain.length ≤ fuel)
    (seen : List (Nat × Bool)) :
    g.singletonFrom fuel (some x) seen =
      some ((g.singletonPart true chain).foldl
        (fun seen c => g.entryLoop c seen .public_) seen) := by
  induction links generalizing fuel seen with
  | last x ends =>
      obtain ⟨fuel, rfl, _⟩ := fuel_of_cons enough
      rw [singletonFrom, ends]
      cases goesOn : (g.attached x).isSome || g.isIclass x with
      | false => simp [singletonPart, goesOn]
      | true => simp [singletonPart, goesOn, singletonFrom]
  | link x y chain linked _ ih =>
      obtain ⟨fuel, rfl, less⟩ := fuel_of_cons enough
      rw [singletonFrom, linked, ih less]
      cases goesOn : (g.attached x).isSome || g.isIclass x with
      | false => simp [singletonPart, goesOn]
      | true => simp [singletonPart, goesOn]

/-- Singleton methods are the names with a public entry there. -/
theorem singletonMethods_spec
    (v : Receiver)
    (recur : Bool)
    (links : LinkChain g.heap.next (g.classOf v) chain) :
    ∃ names, Returns (g.singletonMethods v recur) names ∧
      ∀ mid, mid ∈ names ↔
        ∃ entry ∈ g.entries mid (g.singletonPart recur chain),
          entry.2 = .public_ := by
  have walks : Returns (g.singletonMethods v recur)
      (((g.singletonPart recur chain).foldl
        (fun seen c => g.entryLoop c seen .public_) []).map Prod.fst) := by
    refine ⟨chain.length, fun fuel enough => ?_⟩
    unfold singletonMethods
    obtain ⟨rest, split⟩ := links.exists_eq_cons
    by_cases single : (g.attached (g.classOf v)).isSome = true
    · cases recur with
      | false => simp [singletonPart, single, split]
      | true =>
          have whole := singletonFrom_eq links (Nat.le_succ_of_le enough) []
          rw [singletonFrom, if_neg (by simp [single])] at whole
          simp only [single, if_true, whole, Option.map_some]
    · cases recur with
      | false => simp [singletonPart, single, split]
      | true =>
          have whole := singletonFrom_eq links enough []
          simp only [single, if_true, Bool.false_eq_true, if_false, whole,
            Option.map_some]
  refine ⟨_, walks, ?_⟩
  intro mid
  have empty : DistinctKeys [] := List.nodup_nil
  have sees := (foldl_entryLoop g .public_
    (g.singletonPart recur chain) mid empty).2
  rw [List.lookup_nil, Option.none_or] at sees
  have listed := congrArg Option.isSome sees
  rw [Bool.eq_iff_iff, List.lookup_isSome_iff, List.findSome?_isSome_iff]
    at listed
  rw [List.mem_map]
  constructor
  · rintro ⟨entry, member, rfl⟩
    obtain ⟨shown, there, is⟩ := listed.mp ⟨entry, member, by simp⟩
    refine ⟨shown, there, ?_⟩
    unfold shows visOk at is
    by_contra other
    simp [other] at is
  · rintro ⟨entry, there, is⟩
    obtain ⟨seen, member, same⟩ :=
      listed.mpr ⟨entry, there, by simp [shows, visOk, is]⟩
    exact ⟨seen, member, (beq_iff_eq.mp same).symm⟩

/-! ## Agreement -/

/-- A listing sees what a lookup finds unless it looks past the nearest
entry. -/
theorem sees_iff (f : Filt) (found : List (Method × Vis)) :
    (found.findSome? (shows f) = some true ↔
      ∃ vis, visOk vis f = true ∧ found.head?.bind definedVis = some vis) ↔
    ∀ m vis rest, found = (m, vis) :: rest → visOk vis f = false →
      ∀ later, rest.find? (fun entry => visOk entry.2 f) = some later →
        later.1 = .undef := by
  cases found with
  | nil => simp
  | cons entry rest =>
      obtain ⟨m, vis⟩ := entry
      have later : rest.findSome? (shows f) =
          (rest.find? fun entry => visOk entry.2 f).map
            fun entry => decide (entry.1 ≠ .undef) := by
        induction rest with
        | nil => rfl
        | cons entry rest ih =>
            rw [List.findSome?_cons, List.find?_cons, ih,
              shows]
            cases visOk entry.2 f <;> rfl
      by_cases asked : visOk vis f = true
      · constructor
        · intro _ m' vis' rest' same notAsked
          cases same
          rw [asked] at notAsked
          cases notAsked
        · intro _
          rw [List.findSome?_cons, shows, if_pos asked]
          cases m with
          | undef => simp [definedVis]
          | body number => simp [definedVis, asked]
      · have notAsked : visOk vis f = false := by simpa using asked
        have notFound : ¬∃ vis', visOk vis' f = true ∧
            ((m, vis) :: rest).head?.bind definedVis = some vis' := by
          rintro ⟨vis', ok, is⟩
          cases m with
          | undef => simp [definedVis] at is
          | body number =>
              simp only [List.head?_cons, Option.bind_some, definedVis,
                Option.some.injEq] at is
              rw [is] at asked
              exact asked ok
        rw [iff_false_right notFound, List.findSome?_cons, shows,
          if_neg asked]
        simp only [later]
        constructor
        · intro away m' vis' rest' same _ entry there
          cases same
          rw [there, Option.map_some, Option.some.injEq,
            decide_eq_true_eq] at away
          exact Classical.not_not.mp away
        · intro hides seen
          rw [Option.map_eq_some_iff] at seen
          obtain ⟨entry, there, defined⟩ := seen
          exact (decide_eq_true_eq.mp defined)
            (hides m vis rest rfl notAsked entry there)

/-- A listing names, once each, the methods that a lookup finds with a
visibility the listing asks for. -/
def Exact
    (g : Graph)
    (class_ : Nat)
    (f : Filt)
    (listing : Nat → Option (List Nat)) : Prop :=
  ∃ names, Returns listing names ∧ names.Nodup ∧ ∀ mid, mid ∈ names ↔
    ∃ vis, visOk vis f = true ∧ Returns (g.foundVis class_ mid) (some vis)

/-- The listings of every class and object agree with dispatch. -/
structure ListingsAgree (g : Graph) : Prop where
  classes : ∀ class_ f, g.Exact class_ f (g.instanceMethodList true class_ f)
  union : ∀ class_, ∃ all publics protecteds,
    Returns (g.instanceMethodList true class_ .noPriv) all ∧
    Returns (g.instanceMethodList true class_ .public_) publics ∧
    Returns (g.instanceMethodList true class_ .protected_) protecteds ∧
    ∀ mid, mid ∈ all ↔ mid ∈ publics ∨ mid ∈ protecteds
  objects : ∀ v, g.Exact (g.classOf v) .noPriv (g.methods v true)
  singletons : ∀ v recur, ∃ names,
    Returns (g.singletonMethods v recur) names ∧ ∀ mid ∈ names,
      ∃ vis, Returns (g.foundVis (g.classOf v) mid) (some vis)

/-- Where the nearest entry of a name has a visibility that a listing does not
ask for, the nearest one behind it that it asks for is undefined, if there is
one; and where the nearest entry is undefined, there is no public one among the
singleton classes. -/
structure NothingHidden (g : Graph) : Prop where
  asked : ∀ class_ chain, LinkChain g.heap.next class_ chain → ∀ mid f m vis
    rest, g.entries mid chain = (m, vis) :: rest → visOk vis f = false →
      ∀ later, rest.find? (fun entry => visOk entry.2 f) = some later →
        later.1 = .undef
  undefined : ∀ v recur chain, LinkChain g.heap.next (g.classOf v) chain →
    ∀ mid vis rest, g.entries mid chain = (.undef, vis) :: rest →
      ∀ entry ∈ g.entries mid (g.singletonPart recur chain),
        entry.2 ≠ .public_

theorem Sound.found_iff
    (sound : g.Sound)
    (links : LinkChain g.heap.next class_ chain)
    (mid : Nat)
    (vis : Vis) :
    Returns (g.foundVis class_ mid) (some vis) ↔
      (g.entries mid chain).head?.bind definedVis = some vis := by
  have returns := sound.foundVis_returns links mid
  constructor
  · exact fun finds => returns.unique finds
  · exact fun is => is ▸ returns

theorem Sound.exact_iff
    (sound : g.Sound)
    (links : LinkChain g.heap.next class_ chain)
    (f : Filt) :
    g.Exact class_ f (g.instanceMethodList true class_ f) ↔
      ∀ mid m vis rest, g.entries mid chain = (m, vis) :: rest →
        visOk vis f = false →
        ∀ later, rest.find? (fun entry => visOk entry.2 f) = some later →
          later.1 = .undef := by
  obtain ⟨names, lists, once, members⟩ := instanceMethodList_spec f links
  have each := fun mid => sees_iff f (g.entries mid chain)
  have found := fun mid vis => sound.found_iff links mid vis
  constructor
  · rintro ⟨names', lists', _, agrees⟩ mid
    obtain rfl := lists.unique lists'
    rw [← each mid, ← members mid, agrees mid]
    simp only [found]
  · intro hidden
    refine ⟨names, lists, once, fun mid => ?_⟩
    rw [members mid, (each mid).mpr (hidden mid)]
    simp only [found]

theorem exact_union
    (exact : ∀ f, g.Exact class_ f (g.instanceMethodList true class_ f)) :
    ∃ all publics protecteds,
      Returns (g.instanceMethodList true class_ .noPriv) all ∧
      Returns (g.instanceMethodList true class_ .public_) publics ∧
      Returns (g.instanceMethodList true class_ .protected_) protecteds ∧
      ∀ mid, mid ∈ all ↔ mid ∈ publics ∨ mid ∈ protecteds := by
  obtain ⟨all, listsAll, _, isAll⟩ := exact .noPriv
  obtain ⟨publics, listsPublics, _, isPublic⟩ := exact .public_
  obtain ⟨protecteds, listsProtecteds, _, isProtected⟩ := exact .protected_
  refine ⟨all, publics, protecteds, listsAll, listsPublics, listsProtecteds,
    fun mid => ?_⟩
  rw [isAll, isPublic, isProtected]
  constructor
  · rintro ⟨vis, asked, finds⟩
    cases vis with
    | public_ => exact Or.inl ⟨.public_, rfl, finds⟩
    | private_ => cases asked
    | protected_ => exact Or.inr ⟨.protected_, rfl, finds⟩
  · rintro (⟨vis, asked, finds⟩ | ⟨vis, asked, finds⟩)
    · have is : vis = .public_ := by simpa [visOk] using asked
      exact ⟨vis, by rw [is]; rfl, finds⟩
    · have is : vis = .protected_ := by simpa [visOk] using asked
      exact ⟨vis, by rw [is]; rfl, finds⟩

theorem singletonPart_sublist (g : Graph) (recur : Bool) (chain : List Nat) :
    (g.singletonPart recur chain).Sublist chain := by
  cases recur with
  | false => exact List.filter_sublist.trans (List.take_sublist 1 chain)
  | true => exact List.takeWhile_sublist _

/-- The singleton methods are defined where no undefined nearest entry has a
public one behind it in the singleton part. -/
theorem Sound.singletons_iff
    (sound : g.Sound)
    (v : Receiver)
    (recur : Bool)
    (links : LinkChain g.heap.next (g.classOf v) chain) :
    (∃ names, Returns (g.singletonMethods v recur) names ∧ ∀ mid ∈ names,
      ∃ vis, Returns (g.foundVis (g.classOf v) mid) (some vis)) ↔
    ∀ mid vis rest, g.entries mid chain = (.undef, vis) :: rest →
      ∀ entry ∈ g.entries mid (g.singletonPart recur chain),
        entry.2 ≠ .public_ := by
  obtain ⟨names, lists, members⟩ := singletonMethods_spec v recur links
  constructor
  · rintro ⟨names', lists', finds⟩ mid vis rest nearest entry there is
    obtain rfl := lists.unique lists'
    obtain ⟨vis', found⟩ := finds mid ((members mid).mpr ⟨entry, there, is⟩)
    rw [sound.found_iff links, nearest] at found
    cases found
  · intro defined
    refine ⟨names, lists, fun mid member => ?_⟩
    obtain ⟨entry, there, is⟩ := (members mid).mp member
    have onChain : entry ∈ g.entries mid chain :=
      ((g.singletonPart_sublist recur chain).filterMap _).subset there
    cases nearest : g.entries mid chain with
    | nil => simp [nearest] at onChain
    | cons first rest =>
        obtain ⟨m, vis⟩ := first
        cases m with
        | undef =>
            exact absurd is (defined mid vis rest nearest entry there)
        | body number =>
            exact ⟨vis, by rw [sound.found_iff links, nearest]; rfl⟩

/-- In every graph that a program can reach, the listings agree with dispatch
exactly if no nearest entry hides another that a listing looks past. -/
theorem listings_agree_iff
    (g : Graph)
    (reachable : Reachable g) : g.ListingsAgree ↔ g.NothingHidden := by
  have sound := reachable.sound
  constructor
  · intro agree
    refine ⟨?_, ?_⟩
    · intro class_ chain links mid f
      exact (sound.exact_iff links f).mp (agree.classes class_ f) mid
    · intro v recur chain links
      exact (sound.singletons_iff v recur links).mp (agree.singletons v recur)
  · intro hidden
    have exact : ∀ class_ f,
        g.Exact class_ f (g.instanceMethodList true class_ f) := by
      intro class_ f
      obtain ⟨chain, links⟩ := sound.rooted.chains class_
      exact (sound.exact_iff links f).mpr fun mid =>
        hidden.asked class_ chain links mid f
    refine ⟨exact, fun class_ => exact_union (exact class_),
      fun v => exact (g.classOf v) .noPriv, ?_⟩
    intro v recur
    obtain ⟨chain, links⟩ := sound.rooted.chains (g.classOf v)
    exact (sound.singletons_iff v recur links).mpr
      (hidden.undefined v recur chain links)

/-- Class 4 defines method 7, and its subclass 8 defines it as private. -/
def overriding : List Change :=
  [.newClass 1, .newClass 4, .define_ 4 7 1 .public_,
    .define_ 8 7 2 .private_]

def overridden : Graph :=
  ((boot ⟨0, 1, 2⟩).run 10 overriding).getD (boot ⟨0, 1, 2⟩)

theorem reachable_overridden : Reachable overridden := by
  have runs : (boot ⟨0, 1, 2⟩).run 10 overriding = some overridden := rfl
  exact (Reachable.boot ⟨0, 1, 2⟩).run runs

theorem listings_agree_iff_overridden :
    overridden.ListingsAgree ↔ overridden.NothingHidden :=
  listings_agree_iff overridden reachable_overridden

theorem override_is_listed :
    Reachable overridden ∧
      Returns (overridden.instanceMethodList true 8 .public_) [7] ∧
      Returns (overridden.foundVis 8 7) (some .private_) ∧
      ¬overridden.ListingsAgree := by
  have lists : Returns (overridden.instanceMethodList true 8 .public_) [7] := by
    refine ⟨8, fun fuel enough => ?_⟩
    obtain ⟨more, rfl⟩ := Nat.exists_eq_add_of_le' enough
    rfl
  have finds : Returns (overridden.foundVis 8 7) (some .private_) := by
    refine ⟨8, fun fuel enough => ?_⟩
    obtain ⟨more, rfl⟩ := Nat.exists_eq_add_of_le' enough
    rfl
  refine ⟨reachable_overridden, lists, finds, fun agree => ?_⟩
  obtain ⟨names, lists', _, members⟩ := agree.classes 8 .public_
  obtain rfl := lists.unique lists'
  obtain ⟨vis, asked, found⟩ := (members 7).mp (List.mem_singleton_self 7)
  have same := finds.unique found
  cases same
  cases asked

end SabiRuby.Modules.Graph
