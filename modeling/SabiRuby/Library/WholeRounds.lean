import Mathlib.Data.Nat.Periodic
import Mathlib.Data.Int.CardIntervalMod

/-!
# Whole rounds of residues

Of the numbers below a bound, those from the remainder of the bound on fall into
whole rounds of the residues of a modulus.
-/

namespace SabiRuby.Library

open Finset

/-- A round of consecutive numbers has each residue once. -/
theorem round_card {modulus residue : Nat} (lt : residue < modulus) (n : Nat) :
    ((Finset.Ico n (n + modulus)).filter
      fun number => number % modulus = residue).card = 1 := by
  have periodic : Function.Periodic
      (fun number => number % modulus = residue) modulus := by
    intro number
    simp only [Nat.add_mod_right]
  rw [Nat.filter_Ico_card_eq_of_periodic n modulus _ periodic]
  rw [Nat.count_eq_card_filter_range]
  rw [card_eq_one]
  refine ⟨residue, ?_⟩
  ext number
  simp only [mem_filter, mem_range, mem_singleton]
  constructor
  · rintro ⟨below, is⟩
    rw [← is, Nat.mod_eq_of_lt below]
  · rintro rfl
    exact ⟨lt, Nat.mod_eq_of_lt lt⟩

/-- Whole rounds have each residue as often as there are rounds. -/
theorem rounds_card
    (lt : residue < modulus)
    (n rounds : Nat) :
    ((Finset.Ico n (n + modulus * rounds)).filter
      fun number => number % modulus = residue).card = rounds := by
  induction rounds with
  | zero => simp
  | succ rounds ih =>
      have split : Finset.Ico n (n + modulus * (rounds + 1)) =
          Finset.Ico n (n + modulus * rounds) ∪
            Finset.Ico (n + modulus * rounds)
              (n + modulus * rounds + modulus) := by
        rw [Finset.Ico_union_Ico_eq_Ico (Nat.le_add_right _ _)
          (Nat.le_add_right _ _), Nat.mul_succ, Nat.add_assoc]
      have apart : Disjoint
          ((Finset.Ico n (n + modulus * rounds)).filter
            fun number => number % modulus = residue)
          ((Finset.Ico (n + modulus * rounds)
            (n + modulus * rounds + modulus)).filter
            fun number => number % modulus = residue) := by
        apply disjoint_filter_filter
        apply Finset.Ico_disjoint_Ico_consecutive
      rw [split, filter_union, card_union_of_disjoint apart, ih,
        round_card lt]

/-- Of the numbers below a bound that are not below its remainder, as many have
one residue as another. -/
theorem fair_card
    (lt : residue < modulus)
    (bound : Nat) :
    ((range bound).filter fun number =>
      bound % modulus ≤ number ∧ number % modulus = residue).card =
      bound / modulus := by
  have divide : bound % modulus + modulus * (bound / modulus) = bound :=
    Nat.mod_add_div bound modulus
  rw [← rounds_card lt (bound % modulus) (bound / modulus), divide]
  congr 1
  ext number
  simp only [mem_filter, mem_range, mem_Ico]
  constructor
  · rintro ⟨below, above, is⟩
    exact ⟨⟨above, below⟩, is⟩
  · rintro ⟨⟨above, below⟩, is⟩
    exact ⟨below, above, is⟩

/-- The same for a condition that accepts those of one residue. -/
theorem accepted_card
    [DecidablePred accepts]
    (lt : residue < modulus)
    (iff : ∀ number < bound,
      (accepts number ↔
        bound % modulus ≤ number ∧ number % modulus = residue)) :
    ((range bound).filter accepts).card = bound / modulus := by
  rw [← fair_card lt bound]
  apply congrArg card
  apply filter_congr
  intro number mem
  exact iff number (mem_range.mp mem)

end SabiRuby.Library
