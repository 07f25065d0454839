import Mathlib.Data.List.Basic

/-!
# Windows of a list

A window is a place and a length.  Replacing one first fills the list up to its
place.
-/

namespace SabiRuby.Library

variable {α : Type} (nil : α)

/-- The list filled up to a length. -/
def padTo (list : List α) (n : Nat) : List α :=
  list ++ List.replicate (n - list.length) nil

/-- The list with a window of it replaced. -/
def spliced (list : List α) (i n : Nat) (rep : List α) : List α :=
  (padTo nil list i).take i ++ rep ++ list.drop (i + n)

@[simp] theorem length_padTo (list : List α) (n : Nat) :
    (padTo nil list n).length = max list.length n := by
  rw [padTo, List.length_append, List.length_replicate]
  omega

theorem padTo_of_le {list : List α} {n : Nat} (le : n ≤ list.length) :
    padTo nil list n = list := by
  rw [padTo, show n - list.length = 0 by omega, List.replicate_zero,
    List.append_nil]

/-- Past the place a window is filled up to, the list is as it was. -/
theorem drop_padTo (list : List α) (i n : Nat) :
    (padTo nil list i).drop (i + n) = list.drop (i + n) := by
  have past : (List.replicate (i - list.length) nil).drop
      (i + n - list.length) = [] :=
    List.drop_eq_nil_of_le (by rw [List.length_replicate]; omega)
  rw [padTo, List.drop_append, past, List.append_nil]

/-- A window longer than what is there is as one that ends with it. -/
theorem spliced_min (list : List α) (i n : Nat) (rep : List α) :
    spliced nil list i (min n (list.length - i)) rep =
      spliced nil list i n rep := by
  have behind : list.drop (i + min n (list.length - i)) =
      list.drop (i + n) := by
    rcases Nat.le_total (i + n) list.length with inside | past
    · rw [Nat.min_eq_left (by omega)]
    · rw [List.drop_eq_nil_of_le (by omega), List.drop_eq_nil_of_le past]
  rw [spliced, behind, spliced]

/-- An empty window replaced by nothing fills the list up to it. -/
theorem spliced_nil (list : List α) (i : Nat) :
    spliced nil list i 0 [] = padTo nil list i := by
  rw [spliced, List.append_nil, ← drop_padTo, Nat.add_zero,
    List.take_append_drop]

/-- A window inside the list that it was filled up to. -/
theorem spliced_padTo (list : List α) (i n : Nat) (rep : List α) :
    (padTo nil list (i + n)).take i ++ rep ++
        (padTo nil list (i + n)).drop (i + n) =
      spliced nil list i n rep := by
  have front : (padTo nil list (i + n)).take i = (padTo nil list i).take i := by
    unfold padTo
    rw [List.take_append, List.take_append, List.take_replicate,
      List.take_replicate, show min (i - list.length) (i + n - list.length) =
        min (i - list.length) (i - list.length) by omega]
  have behind := drop_padTo nil list (i + n) 0
  rw [Nat.add_zero] at behind
  rw [front, spliced, behind]

/-- One element replaced is a window of one. -/
theorem set_padTo (list : List α) (i : Nat) (v : α) :
    (padTo nil list (i + 1)).set i v = spliced nil list i 1 [v] := by
  have lt : i < (padTo nil list (i + 1)).length := by
    rw [length_padTo]
    omega
  rw [List.set_eq_take_append_cons_drop, if_pos lt, ← spliced_padTo,
    List.append_assoc]
  rfl

end SabiRuby.Library
