import SabiRuby.Arrays.Sort
import SabiRuby.Library.BottomUpSort
import Mathlib.Order.Lattice

/-!
# Sorting is a stable merge sort

The loops over the two buffers do what the merge sort on lists does, whatever
the comparator answers.
-/

namespace SabiRuby.Arrays

open Library

variable {E W : Type} (m : Sends E W)

/-! ## Writing a buffer -/

/-- A buffer with elements written over it from a position on. -/
def overwrite (buf : List Value) (k : Nat) (written : List Value) :
    List Value :=
  buf.take k ++ written ++ buf.drop (k + written.length)

@[simp]
theorem overwrite_nil (buf : List Value) (k : Nat) :
    overwrite buf k [] = buf := by
  simp [overwrite]

theorem overwrite_length
    (inside : k + written.length ≤ buf.length) :
    (overwrite buf k written).length = buf.length := by
  simp only [overwrite, List.length_append, List.length_take, List.length_drop]
  omega

/-- A buffer in two parts, written over from the second part on. -/
theorem overwrite_append
    (front back written : List Value)
    (length : front.length = k) :
    overwrite (front ++ back) k written =
      front ++ written ++ back.drop written.length := by
  subst length
  simp [overwrite, List.drop_append]

/-- Writing one element and then more. -/
theorem put_overwrite
    (v : Value)
    (written : List Value)
    (inside : k < buf.length) :
    ∃ after, put buf k v = some after ∧ after.length = buf.length ∧
      overwrite after (k + 1) written = overwrite buf k (v :: written) := by
  refine ⟨buf.set k v, if_pos inside, List.length_set, ?_⟩
  have front : (buf.take k).length = k := List.length_take_of_le inside.le
  have whole : buf.set k v = (buf.take k ++ [v]) ++ buf.drop (k + 1) := by
    rw [List.set_eq_take_append_cons_drop, if_pos inside, List.append_assoc,
      List.singleton_append]
  rw [whole, overwrite_append _ _ _ (by simpa using front)]
  simp [overwrite, Nat.add_comm, Nat.add_left_comm]

/-- Writing twice in a row. -/
theorem overwrite_overwrite
    (first second : List Value)
    (inside : k ≤ buf.length) :
    overwrite (overwrite buf k first) (k + first.length) second =
      overwrite buf k (first ++ second) := by
  have front : (buf.take k ++ first).length = k + first.length := by
    rw [List.length_append, List.length_take_of_le inside]
  rw [overwrite.eq_def buf k first, overwrite_append _ _ _ front]
  simp [overwrite, Nat.add_assoc]

/-! ## Slices of a list -/

/-- The elements from a position to another. -/
def slice (list : List Value) (l stop : Nat) : List Value :=
  (list.drop l).take (stop - l)

theorem slice_self (list : List Value) (l : Nat) : slice list l l = [] := by
  simp [slice]

theorem slice_cons
    (shorter : l < stop)
    (inside : stop ≤ list.length) :
    ∃ v, list[l]? = some v ∧
      slice list l stop = v :: slice list (l + 1) stop := by
  refine ⟨list[l], List.getElem?_eq_getElem (by omega), ?_⟩
  unfold slice
  rw [List.drop_eq_getElem_cons (by omega)]
  have count : stop - l = (stop - (l + 1)) + 1 := by omega
  rw [count, List.take_succ_cons]

/-- A run of a width, cut at the end of the list. -/
theorem slice_min (list : List Value) (l width : Nat) :
    slice list l (min (l + width) list.length) = (list.drop l).take width := by
  rw [slice, List.take_eq_take_iff, List.length_drop]
  omega

theorem slice_min_next (list : List Value) (i width : Nat) :
    slice list (min (i + width) list.length)
        (min (i + 2 * width) list.length) =
      ((list.drop i).drop width).take width := by
  rw [List.drop_drop]
  rcases Nat.le_total (i + width) list.length with within | past
  · have twice : i + 2 * width = i + width + width := by omega
    rw [Nat.min_eq_left within, twice, slice_min]
  · rw [Nat.min_eq_right past, Nat.min_eq_right (by omega), slice_self,
      List.drop_eq_nil_of_le past, List.take_nil]

/-! ## The loops -/

theorem copyLoop_spec
    (list : List Value)
    (stop l k : Nat)
    (buf : List Value)
    (order : l ≤ stop)
    (inside : stop ≤ list.length)
    (room : k + (stop - l) ≤ buf.length) :
    copyLoop list stop l k buf =
      some (k + (stop - l), overwrite buf k (slice list l stop)) := by
  induction gap : stop - l generalizing l k buf with
  | zero =>
      have done : l = stop := by omega
      subst done
      rw [copyLoop, if_neg (lt_irrefl l), slice_self, overwrite_nil]
      rfl
  | succ gap ih =>
      have shorter : l < stop := by omega
      obtain ⟨v, found, cons⟩ := slice_cons shorter inside
      obtain ⟨after, wrote, length, equal⟩ :=
        @put_overwrite k buf v (slice list (l + 1) stop) (by omega)
      have rest := ih (l + 1) (k + 1) after (by omega)
        (by omega) (by omega)
      rw [copyLoop, if_pos shorter, found]
      simp only [Option.bind_eq_bind, Option.bind_some, wrote, rest, equal,
        cons]
      congr 2
      omega

/-- One pair of runs: the three loops write what merging the runs gives. -/
theorem merge_spec
    (blk : Value)
    (list : List Value)
    (mid hi l r k : Nat)
    (buf : List Value)
    (asked : Asked E W)
    (inLeft : l ≤ mid)
    (inRight : r ≤ hi)
    (apart : mid ≤ r)
    (inside : hi ≤ list.length)
    (sized : buf.length = list.length)
    (place : k + mid = l + r) :
    ∃ l' r' k' between, mergeLoop m blk list mid hi l r k buf asked =
        some (l', r', k', between, (mergeRuns (compare m blk)
          (slice list l mid) (slice list r hi) asked).2) ∧
      ∃ k'' half, copyLoop list mid l' k' between = some (k'', half) ∧
        ∃ last, copyLoop list hi r' k'' half = some (last,
          overwrite buf k (mergeRuns (compare m blk)
            (slice list l mid) (slice list r hi) asked).1) := by
  by_cases both : l < mid ∧ r < hi
  · obtain ⟨left, atLeft, consLeft⟩ := @slice_cons _ _ list both.1 (by omega)
    obtain ⟨right, atRight, consRight⟩ := slice_cons both.2 inside
    rw [mergeLoop, if_pos both, atRight, atLeft, consLeft, consRight, mergeRuns]
    simp only [Option.bind_eq_bind, Option.bind_some]
    have room : k < buf.length := by omega
    by_cases below : (compare m blk right left asked).1 = .lt
    · obtain ⟨after, wrote, length, equal⟩ := put_overwrite right
        (mergeRuns (compare m blk) (slice list l mid) (slice list (r + 1) hi)
          (compare m blk right left asked).2).1 room
      have rest := merge_spec blk list mid hi l (r + 1) (k + 1) after
        (compare m blk right left asked).2 inLeft (by omega) (by omega) inside
        (by omega) (by omega)
      rw [if_pos below, if_pos below, wrote, Option.bind_some]
      rw [equal, consLeft] at rest
      exact rest
    · obtain ⟨after, wrote, length, equal⟩ := put_overwrite left
        (mergeRuns (compare m blk) (slice list (l + 1) mid) (slice list r hi)
          (compare m blk right left asked).2).1 room
      have rest := merge_spec blk list mid hi (l + 1) r (k + 1) after
        (compare m blk right left asked).2 (by omega) inRight (by omega) inside
        (by omega) (by omega)
      rw [if_neg below, if_neg below, wrote, Option.bind_some]
      rw [equal, consRight] at rest
      exact rest
  · -- one of the runs is used up, and the other one is copied
    rw [mergeLoop, if_neg both]
    by_cases done : l = mid
    · subst done
      rw [slice_self, mergeRuns]
      refine ⟨l, r, k, buf, rfl, k, buf, ?_, _,
        copyLoop_spec list hi r k buf inRight inside (by omega)⟩
      rw [copyLoop, if_neg (lt_irrefl l)]
    · have used : r = hi := by omega
      subst used
      rw [slice_self, mergeRuns_nil]
      refine ⟨l, r, k, buf, rfl, _, _,
        copyLoop_spec list mid l k buf inLeft (by omega) (by omega),
        k + (mid - l), ?_⟩
      rw [copyLoop, if_neg (lt_irrefl r)]
termination_by (mid - l) + (hi - r)

/-- One pass over the runs. -/
theorem passLoop_spec
    (blk : Value)
    (width : Nat)
    (positive : 0 < width)
    (list : List Value)
    (i : Nat)
    (buf : List Value)
    (asked : Asked E W)
    (sized : buf.length = list.length) :
    passLoop m blk width positive list list.length i buf asked =
      some (overwrite buf i
          (mergePass (compare m blk) width positive (list.drop i) asked).1,
        (mergePass (compare m blk) width positive (list.drop i) asked).2) := by
  by_cases more : i < list.length
  · have first := merge_spec m blk list (min (i + width) list.length)
      (min (i + 2 * width) list.length) i (min (i + width) list.length) i buf
      asked (by omega) (by omega) le_rfl (by omega) sized (by omega)
    rw [slice_min, slice_min_next] at first
    obtain ⟨l, r, k, between, merged, k', half, copied, last, wrote⟩ := first
    have nonempty : ¬(list.drop i).isEmpty = true := by
      rw [List.isEmpty_iff, List.drop_eq_nil_iff]
      omega
    have dropped : (list.drop i).drop (2 * width) = list.drop (i + 2 * width) :=
      List.drop_drop
    rw [passLoop, if_pos more, mergePass, if_neg nonempty]
    simp only [merged, copied, wrote, dropped, Option.bind_eq_bind,
      Option.bind_some]
    generalize run : mergeRuns (compare m blk) ((list.drop i).take width)
      (((list.drop i).drop width).take width) asked = pair
    have length : pair.1.length = min (2 * width) (list.length - i) := by
      rw [← run, mergeRuns_length]
      simp only [List.length_take, List.length_drop]
      omega
    rw [passLoop_spec blk width positive list (i + 2 * width) _ _
      ((overwrite_length (by omega)).trans sized)]
    congr 2
    by_cases whole : i + 2 * width ≤ list.length
    · have full : pair.1.length = 2 * width := by omega
      rw [← full]
      exact overwrite_overwrite _ _ (by omega)
    · rw [List.drop_eq_nil_of_le (by omega), mergePass_nil, overwrite_nil,
        List.append_nil]
  · rw [passLoop, if_neg more, List.drop_eq_nil_of_le (by omega),
      mergePass_nil, overwrite_nil]
termination_by list.length - i

/-- All passes. -/
theorem widthLoop_spec
    (blk : Value)
    (n width : Nat)
    (positive : 0 < width)
    (list buf : List Value)
    (asked : Asked E W)
    (length : list.length = n)
    (sized : buf.length = n) :
    widthLoop m blk n width positive list buf asked =
      some (mergePasses (compare m blk) n width positive list asked) := by
  by_cases more : width < n
  · have filled := passLoop_spec m blk width positive list 0 buf asked
      (by omega)
    have same := @mergePass_perm _ _ (compare m blk) width positive list asked
    rw [List.drop_zero] at filled
    rw [widthLoop, if_pos more, mergePasses, if_pos more]
    generalize mergePass (compare m blk) width positive list asked = pair
      at filled same
    have whole : overwrite buf 0 pair.1 = pair.1 := by
      rw [overwrite, List.take_zero, List.nil_append,
        List.drop_eq_nil_of_le (by rw [same.length_eq]; omega), List.append_nil]
    rw [whole, length] at filled
    simp only [filled, Option.bind_eq_bind, Option.bind_some]
    exact widthLoop_spec blk n (width * 2) (by omega) pair.1 list pair.2
      (same.length_eq.trans length) length
  · rw [widthLoop, if_neg more, mergePasses, if_neg more]
termination_by n - width

/-! ## What the comparator is asked -/

/-- Comparisons one after another.  The last one may raise. -/
inductive Asks (blk : Value) :
    Vm W → List (Value × Value) → Option E → Vm W → Prop
  | done (vm : Vm W) : Asks blk vm [] none vm
  | raised (now : ask m blk a b vm = (.error e, after)) :
      Asks blk vm [(a, b)] (some e) after
  | answered (now : ask m blk a b vm = (.ok o, between))
      (rest : Asks blk between asked err after) :
      Asks blk vm ((a, b) :: asked) err after

variable {m}

theorem Asks.append
    (first : Asks m blk vm asked quiet between)
    (noError : quiet = none)
    (second : Asks m blk between later err after) :
    Asks m blk vm (asked ++ later) err after := by
  induction first with
  | done vm => exact second
  | raised now => contradiction
  | answered now rest ih =>
      exact .answered now (ih noError second)

/-- What no comparison changes is not changed. -/
theorem Asks.unchanged
    (asks : Asks m blk vm asked err after)
    (f : Vm W → α)
    (same : ∀ a b vm, f (ask m blk a b vm).2 = f vm) : f after = f vm := by
  induction asks with
  | done vm => rfl
  | raised now =>
      have left := congrArg (fun pair => f pair.2) now
      exact left.symm.trans (same _ _ _)
  | answered now rest ih =>
      have left := congrArg (fun pair => f pair.2) now
      exact ih.trans (left.symm.trans (same _ _ _))

/-- From a machine in the middle of a sort to a later one.  Nothing is asked
after an error. -/
def Follows (m : Sends E W) (blk : Value) (before after : Asked E W) : Prop :=
  match before.err with
  | some _ => after = before
  | none => ∃ asked, Asks m blk before.vm asked after.err after.vm

theorem follows_refl (before : Asked E W) : Follows m blk before before := by
  unfold Follows
  cases quiet : before.err with
  | none => exact ⟨[], .done before.vm⟩
  | some e => rfl

theorem Follows.trans
    (first : Follows m blk before between)
    (second : Follows m blk between after) : Follows m blk before after := by
  unfold Follows at first ⊢
  cases quiet : before.err with
  | some e =>
      simp only [quiet] at first
      subst first
      simpa [Follows, quiet] using second
  | none =>
      simp only [quiet] at first
      obtain ⟨asked, first⟩ := first
      unfold Follows at second
      cases still : between.err with
      | none =>
          simp only [still] at second
          obtain ⟨later, second⟩ := second
          exact ⟨asked ++ later, first.append still second⟩
      | some e =>
          simp only [still] at second
          subst second
          exact ⟨asked, first⟩

/-- One comparison. -/
theorem follows_compare (a b : Value) (before : Asked E W) :
    Follows m blk before (compare m blk a b before).2 := by
  unfold Follows compare
  cases quiet : before.err with
  | some e => rfl
  | none =>
      simp only
      rcases now : ask m blk a b before.vm with ⟨_ | o, after⟩
      · exact ⟨[(a, b)], .raised now⟩
      · exact ⟨[(a, b)], .answered now (.done after)⟩

/-! ## Sorting -/

/-- The merge sort with the error it carries out. -/
theorem mergeValues_spec
    (m : Sends E W)
    (list : List Value)
    (blk : Value)
    (vm : Vm W) :
    mergeValues m list blk vm =
      match mergePasses (compare m blk) list.length 1 Nat.one_pos list
          ⟨none, vm⟩ with
      | (sorted, ⟨none, vm⟩) => some (.ok sorted, vm)
      | (_, ⟨some e, vm⟩) => some (.error e, vm) := by
  unfold mergeValues
  rw [widthLoop_spec m blk list.length 1 Nat.one_pos list list ⟨none, vm⟩ rfl
    rfl]
  rcases mergePasses (compare m blk) list.length 1 Nat.one_pos list ⟨none, vm⟩
    with ⟨sorted, err, vm⟩
  cases err <;> rfl

/-- From some states on, the comparator answers by an order. -/
structure Answers
    (m : Sends E W)
    (blk : Value)
    (le : Value → Value → Prop)
    (list : List Value)
    (P : Vm W → Prop) : Prop where
  order : TotalPreorderOn le (· ∈ list)
  below : ∀ a ∈ list, ∀ b ∈ list, ∀ vm, P vm → ∃ o after,
    ask m blk a b vm = (.ok o, after) ∧ P after ∧ (o = .lt ↔ ¬le b a)

theorem Answers.decides
    (answers : Answers m blk le list P) :
    Decides (compare m blk) le (· ∈ list)
      (fun asked => asked.err = none ∧ P asked.vm) := by
  refine ⟨?_, ?_⟩ <;>
  · rintro a b ⟨err, vm⟩ inA inB ⟨rfl, holds⟩
    obtain ⟨o, after, now, held, below⟩ := answers.below a inA b inB vm holds
    simp [compare, now, held, below]

/-- With a comparator that answers by an order the merge sort gives the stably
sorted list. -/
theorem Answers.mergeValues
    (answers : Answers m blk le list P)
    (holds : P vm) :
    ∃ sorted after, mergeValues m list blk vm = some (.ok sorted, after) ∧
      StablySorted le list sorted ∧ P after := by
  have whole := mergePasses_stablySorted answers.order answers.decides
    list.length 1 Nat.one_pos list ⟨none, vm⟩ ⟨rfl, holds⟩ (fun _ held => held)
    (ascendingRuns_one le list) rfl
  rw [mergeValues_spec]
  generalize mergePasses (compare m blk) list.length 1 Nat.one_pos list
    ⟨none, vm⟩ = pair at whole
  rcases pair with ⟨sorted, err, after⟩
  obtain ⟨isSorted, rfl, held⟩ := whole
  exact ⟨sorted, after, rfl, isSorted, held⟩

/-- The order of the Integers. -/
theorem answers_ints
    (isNil : blk.isNil = true)
    (ints : list.all isInt = true) :
    Answers m blk (fun a b => intKey a ≤ intKey b) list (· = vm) where
  order := {
    total := fun x y _ _ => Int64.le_total _ _
    trans := fun x y z _ _ _ => Int64.le_trans }
  below := by
    rintro a inA b inB _ rfl
    have isA := List.all_eq_true.mp ints a inA
    have isB := List.all_eq_true.mp ints b inB
    cases a <;> cases b <;> simp only [isInt, reduceCtorEq] at isA isB
    case int.int p q =>
      refine ⟨Ord.compare p q, _, by simp [ask, isNil], rfl, ?_⟩
      exact compareOfLessAndEq_eq_lt.trans Int64.not_le.symm

/-- Integers without a block: the merge sort gives what any sort gives. -/
theorem mergeValues_ints
    (isNil : blk.isNil = true)
    (ints : list.all isInt = true) :
    mergeValues m list blk vm = sortValues m list blk vm := by
  have answers : Answers m blk (fun a b => intKey a ≤ intKey b) list (· = vm) :=
    answers_ints isNil ints
  obtain ⟨sorted, _, same, isSorted, rfl⟩ := answers.mergeValues rfl
  rw [same, sortValues, if_pos ⟨isNil, ints⟩]
  have ascending : (list.mergeSort fun a b => intKey a ≤ intKey b).Pairwise
      (fun a b => intKey a ≤ intKey b) := by
    have pairs := @List.pairwise_mergeSort _
      (fun a b => decide (intKey a ≤ intKey b))
      (fun a b c => by simpa using Int64.le_trans)
      (fun a b => by simpa using Int64.le_total _ _) list
    simpa using pairs
  congr 3
  refine List.Perm.eq_of_pairwise ?_ isSorted.ascending ascending
    (isSorted.perm.trans (List.mergeSort_perm list _).symm)
  intro a b inA inB ab ba
  have isA := List.all_eq_true.mp ints a (isSorted.perm.mem_iff.mp inA)
  have isB := List.all_eq_true.mp ints b (List.mem_mergeSort.mp inB)
  cases a <;> cases b <;> simp only [isInt, reduceCtorEq] at isA isB
  case int.int p q => exact congrArg Value.int (Int64.le_antisymm ab ba)

/-- With any comparator the merge sort ends, asks nothing after an error, and
reports the error or an arrangement of the list. -/
theorem mergeValues_asks
    (m : Sends E W)
    (list : List Value)
    (blk : Value)
    (vm : Vm W) :
    ∃ asked err after, Asks m blk vm asked err after ∧
      (err = none → ∃ sorted, sorted.Perm list ∧
        mergeValues m list blk vm = some (.ok sorted, after)) ∧
      ∀ e, err = some e →
        mergeValues m list blk vm = some (.error e, after) := by
  have follows : Follows m blk ⟨none, vm⟩ _ :=
    mergePasses_steps follows_refl (fun _ _ _ => Follows.trans)
      (fun a b before (_ : True) (_ : True) => follows_compare a b before)
      list.length 1 Nat.one_pos list ⟨none, vm⟩ (fun _ _ => trivial)
  have perm := @mergePasses_perm _ _ (compare m blk) list.length 1 Nat.one_pos
    list ⟨none, vm⟩
  rw [mergeValues_spec]
  generalize mergePasses (compare m blk) list.length 1 Nat.one_pos list
    ⟨none, vm⟩ = pair at follows perm
  rcases pair with ⟨sorted, err, after⟩
  obtain ⟨asked, asks⟩ := follows
  refine ⟨asked, err, after, asks, ?_, ?_⟩
  · rintro rfl
    exact ⟨sorted, perm, rfl⟩
  · rintro e rfl
    rfl

/-- Sorting is a stable merge sort.  A comparator that answers by an order gives
the stably sorted list.  Any comparator is asked until it raises, and then no
more; `sort!` writes only what was sorted.  Integers alone are sorted the same
way on both paths. -/
theorem sort_exact
    (m : Sends E W)
    (blk : Value)
    (list : List Value)
    (vm : Vm W) :
    (∀ le P, Answers m blk le list P → P vm →
      ∃ sorted after, sortValues m list blk vm = some (.ok sorted, after) ∧
        StablySorted le list sorted ∧ P after) ∧
    (∃ asked err after, Asks m blk vm asked err after ∧
      (err = none → ∃ sorted, sorted.Perm list ∧
        sortValues m list blk vm = some (.ok sorted, after)) ∧
      ∀ e, err = some e →
        sortValues m list blk vm = some (.error e, after)) ∧
    (∀ s, items vm s = list → ∀ e after,
      sortValues m list blk vm = some (.error e, after) →
        sortBang m s blk vm = some (.error e, after) ∧
          ((∀ a b vm, items (ask m blk a b vm).2 s = items vm s) →
            items after s = list)) ∧
    (blk.isNil = true → list.all isInt = true →
      mergeValues m list blk vm = sortValues m list blk vm) := by
  have path : mergeValues m list blk vm = sortValues m list blk vm := by
    by_cases fast : blk.isNil = true ∧ list.all isInt = true
    · exact mergeValues_ints fast.1 fast.2
    · rw [sortValues, if_neg fast]
  rw [← path]
  refine ⟨fun le P answers => answers.mergeValues,
    mergeValues_asks m list blk vm, ?_, fun _ _ => rfl⟩
  intro s same e after raised
  refine ⟨?_, fun kept => ?_⟩
  · rw [sortBang, same, ← path, raised]
    rfl
  · obtain ⟨asked, err, last, asks, quiet, loud⟩ :=
      mergeValues_asks m list blk vm
    have isLast : after = last := by
      cases err with
      | none =>
          obtain ⟨sorted, _, finished⟩ := quiet rfl
          rw [finished] at raised
          simp at raised
      | some f =>
          rw [loud f rfl] at raised
          simp only [Option.some.injEq, Prod.mk.injEq] at raised
          exact raised.2.symm
    rw [isLast, ← same]
    exact asks.unchanged (fun vm => items vm s) kept

end SabiRuby.Arrays
