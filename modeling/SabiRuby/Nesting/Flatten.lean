import SabiRuby.Nesting.Endings
import Mathlib.Data.Finset.Lattice.Fold
import Mathlib.Order.Lattice.Nat

/-!
# Flattening

`flatten` with a level removes the nesting down to it.  Without a level it comes
to the list that all deeper levels agree on, where there is one.
-/

namespace SabiRuby.Nesting

open Library

variable {α ε : Type} {g : Graph α} {leaves : Leaves α ε}

/-- The elements, with so many levels of nesting removed. -/
def Graph.removeNesting (g : Graph α) :
    Nat → List (Elem α) → List (Elem α)
  | 0, elems => elems
  | level + 1, elems =>
      elems.flatMap fun e =>
        match e with
        | .leaf v => [.leaf v]
        | .arr a => g.removeNesting level (g.items a)

/-- The loop comes past the Array on top of the stack, and has added some
elements. -/
def Graph.Passes (g : Graph α) (level : Int) (elems added : List (Elem α))
    (depth : Int) (opens : Bool) : Prop :=
  ∃ turns, ∀ fuel stack result modified,
    g.flattenLoop level (fuel + turns) ((elems, depth) :: stack) result
      modified =
        g.flattenLoop level fuel stack (result ++ added) (modified || opens)

theorem passes_nil (level depth : Int) :
    g.Passes level [] [] depth false := by
  refine ⟨1, ?_⟩
  intro fuel stack result modified
  rw [List.append_nil, Bool.or_false]
  rfl

theorem Graph.Passes.leaf
    (passes : g.Passes level elems added depth opens)
    (v : α) : g.Passes level (.leaf v :: elems) (.leaf v :: added) depth opens
    := by
  obtain ⟨turns, later⟩ := passes
  refine ⟨turns + 1, ?_⟩
  intro fuel stack result modified
  have here := later fuel stack (result ++ [.leaf v]) modified
  rw [List.append_assoc] at here
  exact here

theorem Graph.Passes.keep
    (passes : g.Passes level elems added depth opens)
    (deep : ¬(level < 0 ∨ depth ≤ level))
    (a : Nat) : g.Passes level (.arr a :: elems) (.arr a :: added) depth opens
    := by
  obtain ⟨turns, later⟩ := passes
  refine ⟨turns + 1, ?_⟩
  intro fuel stack result modified
  have here := later fuel stack (result ++ [.arr a]) modified
  rw [List.append_assoc] at here
  exact (if_neg deep).trans here

theorem Graph.Passes.opened
    (passes : g.Passes level elems added depth opens)
    (inner : g.Passes level (g.items a) flat (depth + 1) opensInner)
    (shallow : level < 0 ∨ depth ≤ level) :
    g.Passes level (.arr a :: elems) (flat ++ added) depth true := by
  obtain ⟨turns, later⟩ := passes
  obtain ⟨innerTurns, inside⟩ := inner
  refine ⟨turns + innerTurns + 1, ?_⟩
  intro fuel stack result modified
  have first := inside (fuel + turns) ((elems, depth) :: stack) result true
  have second := later fuel stack (result ++ flat) (true || opensInner)
  rw [Bool.true_or, Nat.add_assoc] at first
  rw [List.append_assoc, Bool.true_or] at second
  rw [Bool.or_true]
  exact (if_pos shallow).trans (first.trans second)

/-- With a level, what is left of it is removed. -/
theorem passes_level
    (level : Int)
    (left : Nat)
    (elems : List (Elem α))
    (depth : Int)
    (nonneg : 0 ≤ level)
    (sum : depth + left = level + 1) :
    g.Passes level elems (g.removeNesting left elems) depth
      (decide (0 < left) && elems.any Elem.isArr) := by
  induction left generalizing elems depth with
  | zero =>
      have deep : ¬(level < 0 ∨ depth ≤ level) := by omega
      induction elems with
      | nil => exact passes_nil level depth
      | cons e elems ih =>
          cases e with
          | leaf v => exact ih.leaf v
          | arr a => exact ih.keep deep a
  | succ left ih =>
      have shallow : level < 0 ∨ depth ≤ level := by omega
      induction elems with
      | nil => exact passes_nil level depth
      | cons e elems rest =>
          cases e with
          | leaf v => exact rest.leaf v
          | arr a =>
              exact rest.opened
                (ih (g.items a) (depth + 1) (by omega)) shallow

/-- All deeper levels remove the nesting to the same list. -/
def Graph.FlattensTo (g : Graph α) (elems flat : List (Elem α)) : Prop :=
  (∀ e ∈ flat, e.isArr = false) ∧
    ∃ height, ∀ level, height ≤ level → g.removeNesting level elems = flat

theorem Graph.FlattensTo.leaf
    (flattens : g.FlattensTo elems flat)
    (v : α) : g.FlattensTo (.leaf v :: elems) (.leaf v :: flat) := by
  obtain ⟨plain, height, same⟩ := flattens
  refine ⟨List.forall_mem_cons.mpr ⟨rfl, plain⟩, height + 1, ?_⟩
  intro level enough
  obtain ⟨level, rfl⟩ := Nat.exists_eq_add_of_le' (Nat.one_le_of_lt enough)
  rw [← same (level + 1) (by omega)]
  rfl

theorem Graph.FlattensTo.opened
    (flattens : g.FlattensTo elems flat)
    (inner : g.FlattensTo (g.items a) inside) :
    g.FlattensTo (.arr a :: elems) (inside ++ flat) := by
  obtain ⟨plain, height, same⟩ := flattens
  obtain ⟨plainInner, heightInner, sameInner⟩ := inner
  refine ⟨List.forall_mem_append.mpr ⟨plainInner, plain⟩,
    max height heightInner + 1, ?_⟩
  intro level enough
  obtain ⟨level, rfl⟩ := Nat.exists_eq_add_of_le' (Nat.one_le_of_lt enough)
  rw [← same (level + 1) (by omega), ← sameInner level (by omega)]
  rfl

/-- Without a level everything is removed, where there is an end. -/
theorem passes_all
    (negative : level < 0)
    (elems : List (Elem α))
    (inner : ∀ a, .arr a ∈ elems → ∃ flat, g.FlattensTo (g.items a) flat ∧
      ∀ depth, ∃ opens, g.Passes level (g.items a) flat depth opens) :
    ∃ flat, g.FlattensTo elems flat ∧
      ∀ depth, ∃ opens, g.Passes level elems flat depth opens := by
  induction elems with
  | nil =>
      refine ⟨[], ⟨fun _ none => (nomatch none), 0, ?_⟩,
        fun depth => ⟨false, passes_nil level depth⟩⟩
      intro n _
      cases n <;> rfl
  | cons e elems ih =>
      obtain ⟨flat, flattens, passes⟩ := ih
        (fun a member => inner a (List.mem_cons_of_mem e member))
      cases e with
      | leaf v =>
          refine ⟨_, flattens.leaf v, ?_⟩
          intro depth
          obtain ⟨opens, rest⟩ := passes depth
          exact ⟨opens, rest.leaf v⟩
      | arr a =>
          obtain ⟨inside, flattensInner, passesInner⟩ :=
            inner a List.mem_cons_self
          refine ⟨_, flattens.opened flattensInner, ?_⟩
          intro depth
          obtain ⟨_, rest⟩ := passes depth
          obtain ⟨_, first⟩ := passesInner (depth + 1)
          exact ⟨true, rest.opened first (Or.inl negative)⟩

theorem passes_ends
    (negative : level < 0)
    (ends : g.Ends a) :
    ∃ flat, g.FlattensTo (g.items a) flat ∧
      ∀ depth, ∃ opens, g.Passes level (g.items a) flat depth opens := by
  induction ends with
  | intro a _ ih =>
      exact passes_all negative (g.items a) ih

/-- The whole loop. -/
theorem Graph.Passes.returns
    (passes : g.Passes level (g.items s) flat 1 opens) :
    Returns (g.flattenInternal s level) (flat, opens) := by
  obtain ⟨turns, whole⟩ := passes
  refine ⟨turns, ?_⟩
  intro fuel enough
  obtain ⟨more, rfl⟩ := Nat.exists_eq_add_of_le' enough
  refine (whole more [] [] false).trans ?_
  cases more <;> rfl

/-- A loop without a level that ends has come to the end of all Arrays. -/
theorem ends_of_flattenLoop
    (negative : level < 0)
    (fuel : Nat)
    (stack : List (List (Elem α) × Int))
    (result : List (Elem α))
    (modified : Bool)
    (returns : g.flattenLoop level fuel stack result modified = some r) :
    ∀ frame ∈ stack, ∀ a, .arr a ∈ frame.1 → g.Ends a := by
  induction fuel generalizing stack result modified with
  | zero =>
      cases stack with
      | nil => exact fun _ none => nomatch none
      | cons frame stack => cases returns
  | succ fuel ih =>
      match stack, returns with
      | [], _ => exact fun _ none => nomatch none
      | ([], depth) :: stack, returns =>
          rw [List.forall_mem_cons]
          exact ⟨fun _ none => (nomatch none),
            ih stack _ _ returns⟩
      | (.leaf v :: rest, depth) :: stack, returns =>
          have later := ih _ _ _ returns
          rw [List.forall_mem_cons] at later ⊢
          refine ⟨?_, later.2⟩
          intro a member
          rcases List.mem_cons.mp member with same | member
          · cases same
          · exact later.1 a member
      | (.arr b :: rest, depth) :: stack, returns =>
          have opened := (if_pos (Or.inl negative)).symm.trans returns
          have later := ih _ _ _ opened
          rw [List.forall_mem_cons, List.forall_mem_cons] at later
          rw [List.forall_mem_cons]
          refine ⟨?_, later.2.2⟩
          intro a member
          rcases List.mem_cons.mp member with same | member
          · cases same
            exact Acc.intro b later.1
          · exact later.2.1 a member

/-! ## Every walk -/

/-- A sequence that is constant in the end is bounded. -/
theorem bounded_of_constant
    (f : Nat → Nat)
    (constant : ∀ k, height ≤ k → f k = value) : ∃ bound, ∀ k, f k ≤ bound := by
  refine ⟨max value ((Finset.range height).sup f), ?_⟩
  intro k
  by_cases late : height ≤ k
  · rw [constant k late]
    exact Nat.le_max_left _ _
  · exact (Finset.le_sup (Finset.mem_range.mpr (Nat.lt_of_not_le late))).trans
      (Nat.le_max_right _ _)

/-- `flatten` comes to an end at every level, with no more elements than some
number that does not depend on the level. -/
def Graph.FlattenEnds (g : Graph α) (s : Nat) : Prop :=
  ∃ bound, ∀ level, ∃ r, Returns (g.flattenInternal s level) r ∧
    r.1.length ≤ bound

/-- The walks that are guarded come to an end. -/
def Graph.GuardedEnd (g : Graph α) (leaves : Leaves α ε) (s : Nat) : Prop :=
  (∀ nativeDepth sep, ∃ r, Returns (g.aryJoin leaves nativeDepth sep s) r) ∧
    (∀ nativeDepth guard_ other, ∃ r,
      Returns (fun fuel => g.aryEq leaves fuel nativeDepth guard_ s other) r) ∧
    (∀ nativeDepth guard_ other, ∃ r,
      Returns (fun fuel => g.aryEql leaves fuel nativeDepth guard_ s other) r) ∧
    ∀ nativeDepth guard_, ∃ r,
      Returns (fun fuel => g.aryInspect leaves fuel nativeDepth guard_ s) r

/-- All walks from an Array come to an end, whatever the other elements
answer. -/
def Graph.WalksEnd (g : Graph α) (leaves : Leaves α ε) (s : Nat) : Prop :=
  g.FlattenEnds s ∧ g.GuardedEnd leaves s ∧
    ∀ nativeDepth, ∃ r, Returns
      (fun fuel => g.putsValue leaves nativeDepth fuel 0 (.arr s)) r

theorem guarded_end
    (g : Graph α)
    (leaves : Leaves α ε)
    (s : Nat) : g.GuardedEnd leaves s := by
  refine ⟨?_, ?_, ?_, ?_⟩
  · exact fun nativeDepth sep => aryJoin_returns nativeDepth sep s
  · exact fun nativeDepth guard_ other => (aryEq_settles NATIVE_DEPTH_MAX
      nativeDepth (Nat.le_add_left _ _) guard_ s other).returns
  · exact fun nativeDepth guard_ other => (aryEql_settles NATIVE_DEPTH_MAX
      nativeDepth (Nat.le_add_left _ _) guard_ s other).returns
  · exact fun nativeDepth guard_ => (aryInspect_settles NATIVE_DEPTH_MAX
      nativeDepth (Nat.le_add_left _ _) guard_ s).returns

theorem flatten_level
    (g : Graph α)
    (s : Nat)
    (level : Int)
    (nonneg : 0 ≤ level) :
    ∃ modified, Returns (g.flattenInternal s level)
      (g.removeNesting level.toNat (g.items s), modified) :=
  ⟨_, (passes_level level level.toNat (g.items s) 1 nonneg (by omega)).returns⟩

theorem flatten_ends
    (ends : g.Ends s)
    (level : Int)
    (negative : level < 0) :
    ∃ flat modified, g.FlattensTo (g.items s) flat ∧
      Returns (g.flattenInternal s level) (flat, modified) := by
  obtain ⟨flat, flattens, passes⟩ := passes_ends negative ends
  obtain ⟨opens, whole⟩ := passes 1
  exact ⟨flat, opens, flattens, whole.returns⟩

theorem flattenEnds_iff (g : Graph α) (s : Nat) :
    g.FlattenEnds s ↔ g.Ends s := by
  constructor
  · rintro ⟨_, every⟩
    obtain ⟨r, ⟨least, returns⟩, _⟩ := every (-1)
    have whole := ends_of_flattenLoop (by decide) least _ _ _
      (returns least (Nat.le_refl least))
    exact Acc.intro s (whole _ List.mem_cons_self)
  · intro ends
    obtain ⟨flat, _, ⟨_, height, same⟩, _⟩ := flatten_ends ends (-1) (by decide)
    obtain ⟨bound, below⟩ := bounded_of_constant
      (fun k => (g.removeNesting k (g.items s)).length)
      (fun k enough => congrArg List.length (same k enough))
    refine ⟨bound, ?_⟩
    intro level
    by_cases negative : level < 0
    · obtain ⟨flat', modified, ⟨_, height', same'⟩, returns⟩ :=
        flatten_ends ends level negative
      refine ⟨_, returns, ?_⟩
      rw [← same' height' (Nat.le_refl height')]
      exact below height'
    · obtain ⟨modified, returns⟩ := flatten_level g s level (by omega)
      exact ⟨_, returns, below level.toNat⟩

/-- All walks from an Array end exactly if no Array it contains contains itself.
`join`, `==`, `eql?` and `inspect` end on every Array; `flatten` with a level
does, with the nesting removed down to the level; without a level it answers the
list that all deeper levels answer, where no Array contains itself. -/
theorem walks_end_iff
    (g : Graph α)
    (leaves : Leaves α ε)
    (s : Nat) :
    (g.WalksEnd leaves s ↔ NoCycle g.Contains s) ∧
    g.GuardedEnd leaves s ∧
    (∀ level, 0 ≤ level → ∃ modified, Returns (g.flattenInternal s level)
      (g.removeNesting level.toNat (g.items s), modified)) ∧
    (NoCycle g.Contains s → ∀ level, level < 0 → ∃ flat modified,
      g.FlattensTo (g.items s) flat ∧
        Returns (g.flattenInternal s level) (flat, modified)) := by
  rw [← g.ends_iff]
  refine ⟨?_, guarded_end g leaves s, flatten_level g s, flatten_ends⟩
  constructor
  · exact fun walks => (flattenEnds_iff g s).mp walks.1
  · intro ends
    refine ⟨(flattenEnds_iff g s).mpr ends, guarded_end g leaves s, ?_⟩
    intro nativeDepth
    obtain ⟨_, settles⟩ := putsValue_settles nativeDepth ends 0
    exact settles.returns

/-- An Array with one that is empty. -/
def oneInside : Graph Unit :=
  ⟨[[.arr 1], []]⟩

/-- Other elements that write nothing and equal nothing. -/
def silent : Leaves Unit Unit where
  text _ _ := .ok []
  inspect _ _ := .ok []
  eq _ _ _ := .ok false
  eql _ _ _ := .ok false

theorem walks_end_iff_at : oneInside.WalksEnd silent 0 := by
  apply (walks_end_iff oneInside silent 0).1.mpr
  rw [← oneInside.ends_iff]
  constructor
  intro b inside
  have one : b = 1 := by
    simpa [Graph.Contains, Graph.items, oneInside] using inside
  constructor
  intro c further
  rw [one] at further
  cases further

/-- An Array that contains itself. -/
def selfContaining : Graph Unit :=
  ⟨[[.arr 0]]⟩

theorem flatten_never_ends :
    (¬∃ r, Returns (selfContaining.flattenInternal 0 (-1)) r) ∧
      ∀ (leaves : Leaves Unit Unit) nativeDepth fuel out,
        selfContaining.putsValue leaves nativeDepth fuel 0 (.arr 0) ≠
          some (.ok out) := by
  have endless : ¬selfContaining.Ends 0 := by
    rw [selfContaining.ends_iff]
    intro noCycle
    exact noCycle 0 Relation.ReflTransGen.refl
      (Relation.TransGen.single List.mem_cons_self)
  constructor
  · rintro ⟨r, least, returns⟩
    have whole := ends_of_flattenLoop (by decide) least _ _ _
      (returns least (Nat.le_refl least))
    exact endless (Acc.intro 0 (whole _ List.mem_cons_self))
  · intro leaves nativeDepth fuel out writes
    exact endless (ends_of_putsValue nativeDepth fuel 0 0 writes)

end SabiRuby.Nesting
