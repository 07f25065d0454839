import Mathlib.Data.List.Basic
import Mathlib.Data.List.Sort
import Mathlib.Tactic.ByContra

/-!
# Merge sort from the bottom up

Runs of one width after another are merged two by two, each pass doubling the
width.  The comparison is a command over a state, so that it may ask a program;
nothing about its answers is assumed until the order they decide matters.
-/

namespace SabiRuby.Library

section Definitions

variable {V A : Type} (cmp : V → V → A → Ordering × A)

/-- Merge two runs; the right one gives the next element only if it is below. -/
def mergeRuns : List V → List V → A → List V × A
  | [], ys, state => (ys, state)
  | x :: xs, [], state => (x :: xs, state)
  | x :: xs, y :: ys, state =>
      if (cmp y x state).1 = .lt then
        let later := mergeRuns (x :: xs) ys (cmp y x state).2
        (y :: later.1, later.2)
      else
        let later := mergeRuns xs (y :: ys) (cmp y x state).2
        (x :: later.1, later.2)
termination_by xs ys => xs.length + ys.length

/-- Merge the runs of a width two by two. -/
def mergePass (width : Nat) (positive : 0 < width) (list : List V) (state : A) :
    List V × A :=
  if list.isEmpty then ([], state)
  else
    let merged :=
      mergeRuns cmp (list.take width) ((list.drop width).take width) state
    let later := mergePass width positive (list.drop (2 * width)) merged.2
    (merged.1 ++ later.1, later.2)
termination_by list.length
decreasing_by
  rename_i nonempty
  have := List.length_pos_of_ne_nil (mt List.isEmpty_iff.mpr nonempty)
  rw [List.length_drop]
  omega

/-- Passes from a width on until one run is left. -/
def mergePasses
    (n width : Nat)
    (positive : 0 < width)
    (list : List V)
    (state : A) : List V × A :=
  if width < n then
    let merged := mergePass cmp width positive list state
    mergePasses n (width * 2) (by omega) merged.1 merged.2
  else (list, state)
termination_by n - width

end Definitions

/-! ## What holds for every comparison -/

section Any

variable {V A : Type} {cmp : V → V → A → Ordering × A}

@[simp]
theorem mergeRuns_nil (xs : List V) (state : A) :
    mergeRuns cmp xs [] state = (xs, state) := by
  cases xs <;> rw [mergeRuns]

@[simp]
theorem mergePass_nil (width : Nat) (positive : 0 < width) (state : A) :
    mergePass cmp width positive [] state = ([], state) := by
  rw [mergePass]
  rfl

/-- Merging keeps the elements. -/
theorem mergeRuns_perm
    (xs ys : List V)
    (state : A) : (mergeRuns cmp xs ys state).1.Perm (xs ++ ys) := by
  fun_induction mergeRuns cmp xs ys state with
  | case1 ys state => exact .rfl
  | case2 x xs state => simp
  | case3 x xs y ys state below later ih =>
      exact (ih.cons y).trans List.perm_middle.symm
  | case4 x xs y ys state notBelow later ih =>
      exact ih.cons x

theorem mergeRuns_length
    (xs ys : List V)
    (state : A) :
    (mergeRuns cmp xs ys state).1.length = xs.length + ys.length := by
  rw [(mergeRuns_perm xs ys state).length_eq, List.length_append]

/-- The first two runs of a list and the rest. -/
theorem take_take_drop (width : Nat) (list : List V) :
    list.take width ++ (list.drop width).take width ++ list.drop (2 * width) =
      list := by
  rw [Nat.two_mul, ← List.drop_drop, List.append_assoc, List.take_append_drop,
    List.take_append_drop]

theorem mergePass_perm
    (width : Nat)
    (positive : 0 < width)
    (list : List V)
    (state : A) : (mergePass cmp width positive list state).1.Perm list := by
  fun_induction mergePass cmp width positive list state with
  | case1 list state empty => simp_all
  | case2 list state nonempty merged later ih =>
      have first : merged.1.Perm _ := mergeRuns_perm (list.take width)
        ((list.drop width).take width) state
      have whole := first.append ih
      rwa [take_take_drop] at whole

theorem mergePasses_perm
    (n width : Nat)
    (positive : 0 < width)
    (list : List V)
    (state : A) :
    (mergePasses cmp n width positive list state).1.Perm list := by
  fun_induction mergePasses cmp n width positive list state with
  | case1 width positive list state shorter merged ih =>
      exact ih.trans (mergePass_perm width positive list state)
  | case2 => exact .rfl

end Any

/-! ## What the comparisons do to the state -/

section Steps

variable {V A : Type} {cmp : V → V → A → Ordering × A} {D : V → Prop}
  {R : A → A → Prop}
  (refl : ∀ a, R a a)
  (trans : ∀ a b c, R a b → R b c → R a c)
  (step : ∀ x y a, D x → D y → R a (cmp x y a).2)

include refl trans step

/-- Merging changes the state by comparisons of the elements only. -/
theorem mergeRuns_steps
    (xs ys : List V)
    (state : A)
    (left : ∀ v ∈ xs, D v)
    (right : ∀ v ∈ ys, D v) : R state (mergeRuns cmp xs ys state).2 := by
  fun_induction mergeRuns cmp xs ys state with
  | case1 ys state => exact refl state
  | case2 x xs state => exact refl state
  | case3 x xs y ys state below later ih =>
      rw [List.forall_mem_cons] at right
      refine trans _ _ _ (step y x state right.1 (left x List.mem_cons_self)) ?_
      exact ih left right.2
  | case4 x xs y ys state notBelow later ih =>
      rw [List.forall_mem_cons] at left
      refine trans _ _ _ (step y x state (right y List.mem_cons_self) left.1) ?_
      exact ih left.2 right

theorem mergePass_steps
    (width : Nat)
    (positive : 0 < width)
    (list : List V)
    (state : A)
    (inside : ∀ v ∈ list, D v) :
    R state (mergePass cmp width positive list state).2 := by
  fun_induction mergePass cmp width positive list state with
  | case1 list state empty => exact refl state
  | case2 list state nonempty merged later ih =>
      refine trans _ merged.2 _ ?_ (ih ?_)
      · apply mergeRuns_steps refl trans step
        · exact fun v held => inside v (List.mem_of_mem_take held)
        · exact fun v held =>
            inside v (List.mem_of_mem_drop (List.mem_of_mem_take held))
      · exact fun v held => inside v (List.mem_of_mem_drop held)

theorem mergePasses_steps
    (n width : Nat)
    (positive : 0 < width)
    (list : List V)
    (state : A)
    (inside : ∀ v ∈ list, D v) :
    R state (mergePasses cmp n width positive list state).2 := by
  fun_induction mergePasses cmp n width positive list state with
  | case1 width positive list state shorter merged ih =>
      refine trans _ merged.2 _ ?_ (ih ?_)
      · exact mergePass_steps refl trans step width positive list state inside
      · have same : merged.1.Perm list :=
          mergePass_perm width positive list state
        exact fun v held => inside v (same.mem_iff.mp held)
  | case2 width positive list state => exact refl state

end Steps

/-! ## What an order makes of the elements -/

/-- A total preorder on some elements. -/
structure TotalPreorderOn (le : V → V → Prop) (D : V → Prop) : Prop where
  total : ∀ x y, D x → D y → le x y ∨ le y x
  trans : ∀ x y z, D x → D y → D z → le x y → le y z → le x z

/-- From some states on, the comparison answers by an order. -/
structure Decides
    (cmp : V → V → A → Ordering × A)
    (le : V → V → Prop)
    (D : V → Prop)
    (P : A → Prop) : Prop where
  keeps : ∀ x y a, D x → D y → P a → P (cmp x y a).2
  below : ∀ x y a, D x → D y → P a → ((cmp x y a).1 = .lt ↔ ¬le y x)

/-- A list put in order, elements that tie in the order they had. -/
structure StablySorted
    (le : V → V → Prop)
    (before after : List V) : Prop where
  perm : after.Perm before
  ascending : after.Pairwise le
  stable : ∀ v ∈ before, ∀ [DecidablePred fun w => le v w ∧ le w v],
    after.filter (fun w => le v w ∧ le w v) =
      before.filter (fun w => le v w ∧ le w v)

/-- Every run of a width is in order. -/
def AscendingRuns (le : V → V → Prop) (width : Nat) (list : List V) : Prop :=
  ∀ i, ((list.drop (i * width)).take width).Pairwise le

section Order

variable {V A : Type} {cmp : V → V → A → Ordering × A} {le : V → V → Prop}
  {D : V → Prop} {P : A → Prop}
  (order : TotalPreorderOn le D)
  (decides : Decides cmp le D P)

include decides

theorem Decides.mergeRuns_keeps
    (xs ys : List V)
    (state : A)
    (holds : P state)
    (left : ∀ v ∈ xs, D v)
    (right : ∀ v ∈ ys, D v) : P (mergeRuns cmp xs ys state).2 :=
  mergeRuns_steps (R := fun a b => P a → P b) (fun _ => id)
    (fun _ _ _ first second => second ∘ first) decides.keeps
    xs ys state left right holds

theorem Decides.mergePass_keeps
    (width : Nat)
    (positive : 0 < width)
    (list : List V)
    (state : A)
    (holds : P state)
    (inside : ∀ v ∈ list, D v) :
    P (mergePass cmp width positive list state).2 :=
  mergePass_steps (R := fun a b => P a → P b) (fun _ => id)
    (fun _ _ _ first second => second ∘ first) decides.keeps
    width positive list state inside holds

include order

/-- Merging two runs in order gives one run in order. -/
theorem mergeRuns_ascending
    (xs ys : List V)
    (state : A)
    (holds : P state)
    (left : ∀ v ∈ xs, D v)
    (right : ∀ v ∈ ys, D v)
    (leftRun : xs.Pairwise le)
    (rightRun : ys.Pairwise le) :
    (mergeRuns cmp xs ys state).1.Pairwise le := by
  fun_induction mergeRuns cmp xs ys state with
  | case1 ys state => exact rightRun
  | case2 x xs state => exact leftRun
  | case3 x xs y ys state below later ih =>
      have inX := left x List.mem_cons_self
      rw [List.forall_mem_cons] at right
      rw [List.pairwise_cons] at rightRun
      have notLe := (decides.below y x state right.1 inX holds).mp below
      have crossed := (order.total x y inX right.1).resolve_left notLe
      refine List.pairwise_cons.mpr ⟨?_, ?_⟩
      · intro v held
        have same : later.1.Perm (x :: xs ++ ys) := mergeRuns_perm _ _ _
        rcases List.mem_append.mp (same.mem_iff.mp held) with inLeft | inRight
        · rcases List.mem_cons.mp inLeft with rfl | later
          · exact crossed
          · exact order.trans y x v right.1 inX (left v inLeft) crossed
              ((List.pairwise_cons.mp leftRun).1 v later)
        · exact rightRun.1 v inRight
      · exact ih (decides.keeps y x state right.1 inX holds)
          left right.2 leftRun rightRun.2
  | case4 x xs y ys state notBelow later ih =>
      have inY := right y List.mem_cons_self
      rw [List.forall_mem_cons] at left
      rw [List.pairwise_cons] at leftRun
      have straight : le x y := by
        by_contra notLe
        exact notBelow ((decides.below y x state inY left.1 holds).mpr notLe)
      refine List.pairwise_cons.mpr ⟨?_, ?_⟩
      · intro v held
        have same : later.1.Perm (xs ++ y :: ys) := mergeRuns_perm _ _ _
        rcases List.mem_append.mp (same.mem_iff.mp held) with inLeft | inRight
        · exact leftRun.1 v inLeft
        · rcases List.mem_cons.mp inRight with rfl | later
          · exact straight
          · exact order.trans x y v left.1 inY (right v inRight) straight
              ((List.pairwise_cons.mp rightRun).1 v later)
      · exact ih (decides.keeps y x state inY left.1 holds)
          left.2 right leftRun.2 rightRun

/-- Merging keeps the order of elements that tie, the left run's first. -/
theorem mergeRuns_stable
    (xs ys : List V)
    (state : A)
    (holds : P state)
    (left : ∀ v ∈ xs, D v)
    (right : ∀ v ∈ ys, D v)
    (leftRun : xs.Pairwise le)
    (v : V)
    (inside : D v)
    [DecidablePred fun w => le v w ∧ le w v] :
    (mergeRuns cmp xs ys state).1.filter (fun w => le v w ∧ le w v) =
      (xs ++ ys).filter (fun w => le v w ∧ le w v) := by
  fun_induction mergeRuns cmp xs ys state with
  | case1 ys state => rfl
  | case2 x xs state => simp
  | case3 x xs y ys state below later ih =>
      have inX := left x List.mem_cons_self
      rw [List.forall_mem_cons] at right
      have rest := ih
        (decides.keeps y x state right.1 inX holds) left right.2 leftRun
      have notLe := (decides.below y x state right.1 inX holds).mp below
      rw [List.filter_cons, rest, List.filter_append, List.filter_append,
        List.filter_cons (x := y)]
      by_cases ties : le v y ∧ le y v
      · -- nothing that is left of the right element ties with it
        have none : (x :: xs).filter (fun w => le v w ∧ le w v) = [] := by
          rw [List.filter_eq_nil_iff]
          intro w held tied
          simp only [decide_eq_true_eq] at tied
          have inW := left w held
          have above : le x w := by
            rcases List.mem_cons.mp held with rfl | later
            · exact (order.total w w inW inW).elim id id
            · exact (List.pairwise_cons.mp leftRun).1 w later
          have leV := order.trans x w v inX inW inside above tied.2
          exact notLe (order.trans x v y inX inside right.1 leV ties.1)
        simp [none, ties]
      · simp [ties]
  | case4 x xs y ys state notBelow later ih =>
      have inY := right y List.mem_cons_self
      rw [List.forall_mem_cons] at left
      have rest := ih
        (decides.keeps y x state inY left.1 holds) left.2 right
        (List.pairwise_cons.mp leftRun).2
      rw [List.filter_cons, rest, List.cons_append, List.filter_cons (x := x)]

/-- A pass makes runs of twice the width. -/
theorem mergePass_ascending
    (width : Nat)
    (positive : 0 < width)
    (list : List V)
    (state : A)
    (holds : P state)
    (inside : ∀ v ∈ list, D v)
    (runs : AscendingRuns le width list) :
    AscendingRuns le (width * 2)
      (mergePass cmp width positive list state).1 := by
  fun_induction mergePass cmp width positive list state with
  | case1 list state empty =>
      intro i
      simp
  | case2 list state nonempty merged later ih =>
      have inLeft : ∀ v ∈ list.take width, D v := fun v held =>
        inside v (List.mem_of_mem_take held)
      have inRight : ∀ v ∈ (list.drop width).take width, D v := fun v held =>
        inside v (List.mem_of_mem_drop (List.mem_of_mem_take held))
      have first : merged.1.Pairwise le := by
        apply mergeRuns_ascending order decides _ _ state holds inLeft inRight
        · simpa using runs 0
        · simpa using runs 1
      have rest := ih
        (decides.mergeRuns_keeps _ _ state holds inLeft inRight)
        (fun v held => inside v (List.mem_of_mem_drop held))
        (by
          intro i
          rw [List.drop_drop, ← Nat.add_mul, Nat.add_comm]
          exact runs (i + 2))
      have length : merged.1.length = min (width * 2) list.length := by
        have whole : merged.1.length = _ := mergeRuns_length _ _ state
        rw [whole, List.length_take, List.length_take, List.length_drop]
        omega
      have lengthLater : later.1.length = list.length - 2 * width := by
        have same : later.1.Perm _ := mergePass_perm width positive _ merged.2
        rw [same.length_eq, List.length_drop]
      -- a merged run is short only at the end
      have cut : ∀ i, (merged.1 ++ later.1).drop ((i + 1) * (width * 2)) =
          later.1.drop (i * (width * 2)) := by
        intro i
        rw [Nat.succ_mul, Nat.add_comm, ← List.drop_drop]
        congr 1
        by_cases full : width * 2 ≤ list.length
        · exact List.drop_left' (by omega)
        · have none : later.1 = [] := List.eq_nil_of_length_eq_zero (by omega)
          rw [none, List.append_nil]
          exact List.drop_eq_nil_of_le (by omega)
      intro i
      cases i with
      | zero =>
          rw [Nat.zero_mul, List.drop_zero]
          change ((merged.1 ++ later.1).take (width * 2)).Pairwise le
          by_cases full : width * 2 ≤ list.length
          · rwa [List.take_left' (by omega)]
          · have none : later.1 = [] :=
              List.eq_nil_of_length_eq_zero (by omega)
            rw [none, List.append_nil]
            rwa [List.take_of_length_le (by omega)]
      | succ i =>
          rw [cut i]
          exact rest i

/-- A pass keeps the order of elements that tie. -/
theorem mergePass_stable
    (width : Nat)
    (positive : 0 < width)
    (list : List V)
    (state : A)
    (holds : P state)
    (inside : ∀ v ∈ list, D v)
    (runs : AscendingRuns le width list)
    (v : V)
    (among : D v)
    [DecidablePred fun w => le v w ∧ le w v] :
    (mergePass cmp width positive list state).1.filter
        (fun w => le v w ∧ le w v) =
      list.filter (fun w => le v w ∧ le w v) := by
  fun_induction mergePass cmp width positive list state with
  | case1 list state empty => rw [List.isEmpty_iff.mp empty]
  | case2 list state nonempty merged later ih =>
      have inLeft : ∀ v ∈ list.take width, D v := fun v held =>
        inside v (List.mem_of_mem_take held)
      have inRight : ∀ v ∈ (list.drop width).take width, D v := fun v held =>
        inside v (List.mem_of_mem_drop (List.mem_of_mem_take held))
      have first : merged.1.filter (fun w => le v w ∧ le w v) = _ :=
        mergeRuns_stable order decides _ _ state holds inLeft inRight
          (by simpa using runs 0) v among
      have rest : later.1.filter (fun w => le v w ∧ le w v) = _ :=
        ih
          (decides.mergeRuns_keeps _ _ state holds inLeft inRight)
          (fun v held => inside v (List.mem_of_mem_drop held))
          (by
            intro i
            rw [List.drop_drop, ← Nat.add_mul, Nat.add_comm]
            exact runs (i + 2))
      rw [List.filter_append, first, rest, ← List.filter_append,
        take_take_drop]

/-- A whole sort from the bottom up. -/
theorem mergePasses_stablySorted
    (n width : Nat)
    (positive : 0 < width)
    (list : List V)
    (state : A)
    (holds : P state)
    (inside : ∀ v ∈ list, D v)
    (runs : AscendingRuns le width list)
    (length : list.length = n) :
    StablySorted le list (mergePasses cmp n width positive list state).1 ∧
      P (mergePasses cmp n width positive list state).2 := by
  fun_induction mergePasses cmp n width positive list state with
  | case1 width positive list state shorter merged ih =>
      have same : merged.1.Perm list := mergePass_perm width positive list state
      obtain ⟨sorted, held⟩ := ih
        (decides.mergePass_keeps width positive list state holds inside)
        (fun v held => inside v (same.mem_iff.mp held))
        (mergePass_ascending order decides width positive list state holds
          inside runs)
        (same.length_eq.trans length)
      refine ⟨⟨sorted.perm.trans same, sorted.ascending, ?_⟩, held⟩
      intro v among _
      rw [sorted.stable v (same.mem_iff.mpr among)]
      exact mergePass_stable order decides width positive list state holds
        inside runs v (inside v among)
  | case2 width positive list state whole =>
      refine ⟨⟨.rfl, ?_, fun v among _ => rfl⟩, holds⟩
      have only := runs 0
      rwa [Nat.zero_mul, List.drop_zero,
        List.take_of_length_le (by omega)] at only

end Order

/-- Runs of one element are in order. -/
theorem ascendingRuns_one (le : V → V → Prop) (list : List V) :
    AscendingRuns le 1 list := by
  intro i
  rw [List.take_one]
  cases (list.drop (i * 1)).head? <;> simp

end SabiRuby.Library
