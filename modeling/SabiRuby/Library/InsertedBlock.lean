import Mathlib.Data.List.Nodup

/-!
# A block inserted into a list

Points are wanted in one order.  Those that a list lacks are inserted in one
place, in that order.  The wanted order is met exactly if no point from behind
the place comes before an inserted one, nor an inserted one before a point from
in front of it.
-/

namespace SabiRuby.Library

variable {α : Type*} [DecidableEq α]

/-- The points come in this order where they first occur. -/
def InOrder (points inside : List α) : Prop :=
  points.Pairwise fun a b => inside.idxOf a < inside.idxOf b

instance (points inside : List α) : Decidable (InOrder points inside) :=
  inferInstanceAs (Decidable (List.Pairwise _ _))

/-- The points that a list lacks. -/
def lacking (points inside : List α) : List α :=
  points.filter fun a => a ∉ inside

/-- A list without repetitions is in its own order. -/
theorem inOrder_self
    {points : List α}
    (distinct : points.Nodup) : InOrder points points := by
  induction points with
  | nil => exact List.Pairwise.nil
  | cons a points ih =>
      rw [List.nodup_cons] at distinct
      refine List.Pairwise.cons ?_ ?_
      · intro b member
        have other : b ≠ a := fun same => distinct.1 (same ▸ member)
        rw [List.idxOf_cons_self, List.idxOf_cons_ne points other.symm]
        exact Nat.succ_pos _
      · refine (List.Pairwise.and_mem.mp
          (ih distinct.2)).imp ?_
        rintro b c ⟨first, second, less⟩
        have firstOther : b ≠ a := fun same => distinct.1 (same ▸ first)
        have secondOther : c ≠ a := fun same => distinct.1 (same ▸ second)
        rw [List.idxOf_cons_ne points firstOther.symm,
          List.idxOf_cons_ne points secondOther.symm]
        exact Nat.succ_lt_succ less

/-- No point from behind the place comes before an inserted one, and no inserted
one before a point from in front of it. -/
def BlockFits (points front behind : List α) : Prop :=
  points.Pairwise fun a b =>
    (b ∉ front ++ behind → a ∈ behind → a ∈ front) ∧
      (a ∉ front ++ behind → b ∉ front)

instance (points front behind : List α) :
    Decidable (BlockFits points front behind) :=
  inferInstanceAs (Decidable (List.Pairwise _ _))

/-- The place of a point after a block was inserted. -/
theorem idxOf_inserted
    (front block behind : List α)
    (a : α) :
    (front ++ block ++ behind).idxOf a =
      if a ∈ front then front.idxOf a
      else if a ∈ block then front.length + block.idxOf a
      else front.length + block.length + behind.idxOf a := by
  by_cases early : a ∈ front
  · rw [if_pos early, List.append_assoc, List.idxOf_append_of_mem early]
  · rw [if_neg early, List.append_assoc, List.idxOf_append_of_notMem early]
    by_cases inserted : a ∈ block
    · rw [if_pos inserted, List.idxOf_append_of_mem inserted]
    · rw [if_neg inserted, List.idxOf_append_of_notMem inserted, Nat.add_assoc]

theorem mem_lacking
    {a : α} : a ∈ lacking points inside ↔ a ∈ points ∧ a ∉ inside := by
  simp [lacking]

/-- Two points after a block of lacking ones was inserted. -/
theorem idxOf_inserted_lt_iff
    {points front behind : List α}
    (first : a ∈ points)
    (second : b ∈ points)
    (old : a ∈ front ++ behind → b ∈ front ++ behind →
      (front ++ behind).idxOf a < (front ++ behind).idxOf b)
    (new : a ∉ front ++ behind → b ∉ front ++ behind →
      (lacking points (front ++ behind)).idxOf a <
        (lacking points (front ++ behind)).idxOf b) :
    (front ++ lacking points (front ++ behind) ++ behind).idxOf a <
        (front ++ lacking points (front ++ behind) ++ behind).idxOf b ↔
      (b ∉ front ++ behind → a ∈ behind → a ∈ front) ∧
        (a ∉ front ++ behind → b ∉ front) := by
  generalize block : lacking points (front ++ behind) = inserted at new ⊢
  have isNew : ∀ c, c ∈ points → (c ∈ inserted ↔ c ∉ front ++ behind) := by
    intro c member
    rw [← block, mem_lacking, and_iff_right member]
  have inFront : ∀ c, c ∈ front → front.idxOf c < front.length :=
    fun c member => List.idxOf_lt_length_of_mem member
  have inBlock : ∀ c, c ∈ inserted → inserted.idxOf c < inserted.length :=
    fun c member => List.idxOf_lt_length_of_mem member
  have before : ∀ c, (front ++ behind).idxOf c =
      if c ∈ front then front.idxOf c else front.length + behind.idxOf c := by
    intro c
    by_cases early : c ∈ front
    · rw [if_pos early, List.idxOf_append_of_mem early]
    · rw [if_neg early, List.idxOf_append_of_notMem early]
  rw [idxOf_inserted, idxOf_inserted]
  rw [before, before] at old
  have newA := isNew a first
  have newB := isNew b second
  rw [List.mem_append] at newA newB old new ⊢
  rw [List.mem_append] at old new ⊢
  have frontA := inFront a
  have frontB := inFront b
  have blockA := inBlock a
  have blockB := inBlock b
  by_cases aFront : a ∈ front <;> by_cases bFront : b ∈ front <;>
    by_cases aBehind : a ∈ behind <;> by_cases bBehind : b ∈ behind <;>
    simp only [aFront, bFront, aBehind, bBehind, newA, newB, true_or, or_true,
      or_self, not_true, not_false_iff, if_true, if_false, true_imp_iff,
      false_imp_iff, and_self, and_true, true_and, imp_true_iff, imp_false,
      iff_true, iff_false, Nat.not_lt]
      at old new frontA frontB blockA blockB ⊢ <;>
    omega

/-- Where the points that were there are in order, and the block is that of the
lacking ones, all points are in order exactly if the block fits. -/
theorem inOrder_inserted_iff
    {points front behind : List α}
    (distinct : points.Nodup)
    (before : InOrder (points.filter (· ∈ front ++ behind)) (front ++ behind)) :
    InOrder points (front ++ lacking points (front ++ behind) ++ behind) ↔
      BlockFits points front behind := by
  have old := List.pairwise_filter.mp before
  have new := List.pairwise_filter.mp
    (inOrder_self (distinct.filter fun a => a ∉ front ++ behind))
  have both := List.Pairwise.and_mem.mp (old.and new)
  constructor
  · intro ordered
    refine (both.and ordered).imp ?_
    rintro a b ⟨⟨first, second, wasOld, wasNew⟩, less⟩
    simp only [decide_eq_true_eq] at wasOld wasNew
    exact (idxOf_inserted_lt_iff first second wasOld wasNew).mp less
  · intro fits
    refine (both.and fits).imp ?_
    rintro a b ⟨⟨first, second, wasOld, wasNew⟩, fit⟩
    simp only [decide_eq_true_eq] at wasOld wasNew
    exact (idxOf_inserted_lt_iff first second wasOld wasNew).mpr fit

end SabiRuby.Library
