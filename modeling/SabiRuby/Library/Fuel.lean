import Mathlib.Tactic.TypeStar

/-!
# Computations with fuel

A loop of the program that may not end is a function of the turns it is allowed.
It returns a value when from some number of turns on it has that value.
-/

namespace SabiRuby.Library

variable {α β : Type*}

/-- With enough fuel the computation has this value. -/
def Returns (compute : Nat → Option α) (value : α) : Prop :=
  ∃ least, ∀ fuel, least ≤ fuel → compute fuel = some value

variable {compute : Nat → Option α}

theorem Returns.unique
    (first : Returns compute one)
    (second : Returns compute two) : one = two := by
  obtain ⟨m, returnsOne⟩ := first
  obtain ⟨n, returnsTwo⟩ := second
  have same := (returnsOne (max m n) (Nat.le_max_left m n)).symm.trans
    (returnsTwo (max m n) (Nat.le_max_right m n))
  exact Option.some.inj same

theorem returns_const (value : α) : Returns (fun _ => some value) value :=
  ⟨0, fun _ _ => rfl⟩

variable {value : α}

theorem Returns.answers
    (returns : Returns compute value) : ∃ fuel, compute fuel = some value := by
  obtain ⟨least, computes⟩ := returns
  exact ⟨least, computes least (Nat.le_refl least)⟩

/-- A computation and what goes on from its value return with the larger of
their fuels. -/
theorem Returns.bind
    {next : Nat → α → Option β}
    (first : Returns compute value)
    (rest : Returns (fun fuel => next fuel value) result) :
    Returns (fun fuel => (compute fuel).bind (next fuel)) result := by
  obtain ⟨m, computes⟩ := first
  obtain ⟨n, goesOn⟩ := rest
  refine ⟨max m n, fun fuel le => ?_⟩
  change (compute fuel).bind (next fuel) = some result
  rw [computes fuel (Nat.le_trans (Nat.le_max_left m n) le)]
  exact goesOn fuel (Nat.le_trans (Nat.le_max_right m n) le)

theorem Returns.map
    (change : α → β)
    (returns : Returns compute value) :
    Returns (fun fuel => (compute fuel).map change) (change value) := by
  obtain ⟨m, computes⟩ := returns
  refine ⟨m, fun fuel le => ?_⟩
  change (compute fuel).map change = some (change value)
  rw [computes fuel le]
  rfl

/-- A computation that takes one turn before it goes on as another. -/
theorem Returns.turn
    (returns : Returns compute value)
    (turn : ∀ fuel, slower (fuel + 1) = compute fuel) :
    Returns slower value := by
  obtain ⟨m, computes⟩ := returns
  refine ⟨m + 1, fun fuel le => ?_⟩
  cases fuel with
  | zero => exact absurd le (Nat.not_succ_le_zero m)
  | succ fuel =>
      rw [turn]
      exact computes fuel (Nat.le_of_succ_le_succ le)

end SabiRuby.Library
