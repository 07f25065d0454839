import Mathlib.Data.List.Basic
import Mathlib.Data.Nat.Basic
import Mathlib.Order.Compare
import Mathlib.Order.Lattice

/-!
# Binary search

The search of a sorted list by halving, as the standard slice operations do it:
the range shrinks to one element, which is then compared once more.  The range
facts hold for every list; the answers are pinned down for sorted ones.
-/

namespace SabiRuby.Library

section Search

variable {α : Type} {order : α → Ordering} {elements : List α}

/-- Shrink the range of `size` elements from `base` on until one is left.
`order` says where an element stands relative to the one searched for. -/
def narrow (order : α → Ordering) (elements : List α) : Nat → Nat → Nat → Nat
  | 0, base, _ => base
  | fuel + 1, base, size =>
      if size ≤ 1 then base
      else
        let middle := base + size / 2
        let next :=
          if elements[middle]?.map order = some .gt then base else middle
        narrow order elements fuel next (size - size / 2)

/-- The position of an element that compares equal, or the position where one
would be inserted. -/
def binarySearchBy (order : α → Ordering) (elements : List α) :
    Except Nat Nat :=
  let base := narrow order elements elements.length 0 elements.length
  match elements[base]?.map order with
  | none => .error 0
  | some .eq => .ok base
  | some .lt => .error (base + 1)
  | some .gt => .error base

/-- The position of a number in an ascending list. -/
def binarySearch (elements : List Nat) (target : Nat) : Except Nat Nat :=
  binarySearchBy (fun element => compare element target) elements

/-- The length of the prefix on which a predicate holds. -/
def partitionPoint (holds : α → Bool) (elements : List α) : Nat :=
  match binarySearchBy
      (fun element => if holds element then .lt else .gt) elements with
  | .ok position => position
  | .error position => position

/-- An element found compares equal. -/
theorem binarySearchBy_ok
    (found : binarySearchBy order elements = .ok position) :
    elements[position]?.map order = some .eq := by
  unfold binarySearchBy at found
  simp only at found
  split at found <;> simp_all

theorem getElem?_of_binarySearch_ok
    {elements : List Nat}
    (found : binarySearch elements target = .ok position) :
    elements[position]? = some target := by
  have equal := binarySearchBy_ok found
  obtain ⟨element, held, same⟩ := Option.map_eq_some_iff.mp equal
  rw [held, Nat.compare_eq_eq.mp same]

/-- What the shrinking keeps: the elements past the range compare greater, and
the first of the range does not unless it is the first of the list. -/
theorem narrow_spec
    (order : α → Ordering) (elements : List α) (fuel base size : Nat)
    (sorted : ∀ first second : Nat, first < second →
      elements[first]?.map order = some .gt →
        second < elements.length → elements[second]?.map order = some .gt)
    (enough : size ≤ fuel + 1)
    (inside : base + size ≤ elements.length)
    (sizePositive : 0 < size)
    (start : base = 0 ∨ elements[base]?.map order ≠ some .gt)
    (past : ∀ position, base + size ≤ position →
      position < elements.length → elements[position]?.map order = some .gt) :
    narrow order elements fuel base size < elements.length ∧
      (narrow order elements fuel base size = 0 ∨
        elements[narrow order elements fuel base size]?.map order ≠
          some .gt) ∧
      ∀ position, narrow order elements fuel base size < position →
        position < elements.length →
          elements[position]?.map order = some .gt := by
  induction fuel generalizing base size with
  | zero =>
      have single : size = 1 := by omega
      subst single
      exact ⟨by simp [narrow]; omega, by simpa [narrow] using start,
        fun position after => past position (by simp [narrow] at after; omega)⟩
  | succ fuel ih =>
      unfold narrow
      split
      · exact ⟨by omega, start, fun position after =>
          past position (by omega)⟩
      · rename_i large
        simp only
        split <;> rename_i middleGreater
        · refine ih _ _ (by omega) (by omega) (by omega) start ?_
          intro position after bound
          rcases Nat.lt_or_eq_of_le
              (show base + size / 2 ≤ position by omega) with later | same
          · exact sorted _ position later middleGreater bound
          · exact same ▸ middleGreater
        · refine ih _ _ (by omega) (by omega) (by omega)
            (Or.inr middleGreater) ?_
          intro position after bound
          exact past position (by omega) bound

/-- In a list strictly ascending in a key the search for a key finds every
element where it is. -/
theorem binarySearchBy_eq_ok
    {Key : Type} [LinearOrder Key]
    {key : α → Key} {target : Key} {found : α}
    (ascending : elements.Pairwise (fun first second =>
      key first < key second))
    (held : elements[position]? = some found)
    (same : key found = target) :
    binarySearchBy (fun element => compare (key element) target) elements =
      .ok position := by
  have inside := (List.getElem?_eq_some_iff.mp held).1
  have increasing : ∀ first second : Nat, first < second →
      second < elements.length →
        ∀ low high, elements[first]? = some low →
          elements[second]? = some high → key low < key high := by
    intro first second before bound low high lowHeld highHeld
    obtain ⟨lowBound, rfl⟩ := List.getElem?_eq_some_iff.mp lowHeld
    obtain ⟨highBound, rfl⟩ := List.getElem?_eq_some_iff.mp highHeld
    exact List.pairwise_iff_getElem.mp ascending _ _ _ _ before
  have spec := narrow_spec (fun element => compare (key element) target)
    elements elements.length 0 elements.length
    (by
      intro first second before greater bound
      obtain ⟨low, lowHeld, lowGreater⟩ := Option.map_eq_some_iff.mp greater
      have highHeld := List.getElem?_eq_getElem bound
      have less := increasing first second before bound low _ lowHeld highHeld
      rw [highHeld, Option.map_some]
      exact congrArg some (compare_gt_iff_gt.mpr
        (lt_trans (compare_gt_iff_gt.mp lowGreater) less)))
    (by omega) (by omega) (by omega) (Or.inl rfl) (by omega)
  obtain ⟨baseBound, atBase, afterBase⟩ := spec
  unfold binarySearchBy
  simp only
  generalize narrow _ elements elements.length 0 elements.length = base
    at baseBound atBase afterBase
  have reached : base = position := by
    rcases Nat.lt_trichotomy base position with before | same | after
    · have := afterBase position before inside
      simp [held, same] at this
    · exact same
    · rcases atBase with zero | notGreater
      · omega
      · have baseHeld := List.getElem?_eq_getElem baseBound
        have larger := increasing position base after baseBound found _
          held baseHeld
        refine absurd ?_ notGreater
        rw [baseHeld, Option.map_some]
        exact congrArg some (compare_gt_iff_gt.mpr (same ▸ larger))
  subst reached
  simp [held, same]

theorem binarySearch_eq_ok
    {elements : List Nat}
    (ascending : elements.Pairwise (· < ·))
    (held : elements[position]? = some target) :
    binarySearch elements target = .ok position :=
  @binarySearchBy_eq_ok Nat elements position Nat _ id target target
    ascending held rfl

/-- The partition point of a list on whose elements the predicate holds first
and then fails: it holds exactly before it. -/
theorem partitionPoint_spec
    {holds : α → Bool}
    (sorted : ∀ first second : Nat, first < second →
      elements[first]?.map holds = some false →
        second < elements.length → elements[second]?.map holds = some false) :
    partitionPoint holds elements ≤ elements.length ∧
      ∀ position < elements.length,
        elements[position]?.map holds =
          some (decide (position < partitionPoint holds elements)) := by
  rcases Nat.eq_zero_or_pos elements.length with empty | positive
  · have nil : elements = [] := List.length_eq_zero_iff.mp empty
    subst nil
    simp [partitionPoint, binarySearchBy, narrow]
  have greater : ∀ place : Nat,
      elements[place]?.map
          (fun element => if holds element then Ordering.lt else .gt) =
        some .gt ↔ elements[place]?.map holds = some false := by
    intro place
    cases elements[place]? with
    | none => simp
    | some element => cases answer : holds element <;> simp [answer]
  have spec := narrow_spec
    (fun element => if holds element then Ordering.lt else .gt)
    elements elements.length 0 elements.length
    (by
      intro first second before fails bound
      exact (greater second).mpr
        (sorted first second before ((greater first).mp fails) bound))
    (by omega) (by omega) positive (Or.inl rfl) (by omega)
  obtain ⟨baseBound, atBase, afterBase⟩ := spec
  unfold partitionPoint binarySearchBy
  simp only
  generalize narrow _ elements elements.length 0 elements.length = base
    at baseBound atBase afterBase
  have baseHeld := List.getElem?_eq_getElem baseBound
  have beforeHolds : ∀ place : Nat, place < base → holds elements[base] →
      elements[place]?.map holds = some true := by
    intro place before baseHolds
    have held := List.getElem?_eq_getElem (Nat.lt_trans before baseBound)
    cases answer : holds elements[place] with
    | true => simp [held, answer]
    | false =>
        have := sorted place base before (by simp [held, answer]) baseBound
        simp [baseHeld, baseHolds] at this
  cases baseHolds : holds elements[base] with
  | true =>
      simp only [baseHeld, Option.map_some, baseHolds, if_true]
      refine ⟨baseBound, fun position bound => ?_⟩
      rcases Nat.lt_trichotomy position base with before | rfl | after
      · rw [beforeHolds position before baseHolds]
        simp
        omega
      · rw [baseHeld]
        simp [baseHolds]
      · rw [(greater position).mp (afterBase position after bound)]
        simp
        omega
  | false =>
      have zero : base = 0 := by
        rcases atBase with zero | notGreater
        · exact zero
        · exact absurd ((greater base).mpr (by simp [baseHeld, baseHolds]))
            notGreater
      subst zero
      simp only [baseHeld, Option.map_some, baseHolds]
      refine ⟨Nat.zero_le _, fun position bound => ?_⟩
      rcases Nat.eq_zero_or_pos position with rfl | after
      · rw [baseHeld]
        simp [baseHolds]
      · rw [(greater position).mp (afterBase position after bound)]
        simp

/-- The elements before the partition point are those that satisfy the
predicate. -/
theorem take_partitionPoint
    (sorted : ∀ first second : Nat, first < second →
      elements[first]?.map holds = some false →
        second < elements.length → elements[second]?.map holds = some false) :
    elements.take (partitionPoint holds elements) = elements.filter holds ∧
      elements.drop (partitionPoint holds elements) =
        elements.filter (fun element => !holds element) := by
  obtain ⟨inside, splits⟩ := partitionPoint_spec sorted
  generalize partitionPoint holds elements = point at inside splits
  have before : ∀ element ∈ elements.take point, holds element = true := by
    intro element member
    obtain ⟨position, bound, rfl⟩ := List.mem_iff_getElem.mp member
    rw [List.length_take] at bound
    have answer := splits position (by omega)
    rw [List.getElem?_eq_getElem (by omega), Option.map_some,
      Option.some.injEq] at answer
    rw [List.getElem_take, answer]
    exact decide_eq_true (by omega)
  have after : ∀ element ∈ elements.drop point, holds element = false := by
    intro element member
    obtain ⟨position, bound, rfl⟩ := List.mem_iff_getElem.mp member
    rw [List.length_drop] at bound
    have answer := splits (point + position) (by omega)
    rw [List.getElem?_eq_getElem (by omega), Option.map_some,
      Option.some.injEq] at answer
    rw [List.getElem_drop, answer]
    exact decide_eq_false (by omega)
  have whole := List.take_append_drop point elements
  constructor
  · conv_rhs => rw [← whole]
    rw [List.filter_append, List.filter_eq_self.mpr before,
      List.filter_eq_nil_iff.mpr (by simpa using after), List.append_nil]
  · conv_rhs => rw [← whole]
    have nothing : (elements.take point).filter
        (fun element => !holds element) = [] :=
      List.filter_eq_nil_iff.mpr (by simpa using before)
    have all : (elements.drop point).filter
        (fun element => !holds element) = elements.drop point :=
      List.filter_eq_self.mpr (by simpa using after)
    rw [List.filter_append, nothing, all, List.nil_append]

end Search

end SabiRuby.Library
