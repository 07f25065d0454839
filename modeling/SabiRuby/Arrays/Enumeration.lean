import SabiRuby.Arrays.Combinations
import SabiRuby.Library.Odometer
import Mathlib.Data.List.Perm.Subperm
import Mathlib.Tactic.ByContra

/-!
# The combination iterators enumerate

Each mode counts up through its lists of indexes, so that an iterator goes
through every one of them once, in lexicographic order.
-/

namespace SabiRuby.Arrays

open Library

/-! ## Adjusting an index of a permutation -/

/-- The adjusted index is the least one from `v` on that is not taken. -/
theorem adjustLoop_least
    (read : List Nat)
    (v j : Nat)
    (free : ∀ i, j ≤ i → read[i]? ≠ some v) :
    v ≤ adjustLoop read v j ∧ adjustLoop read v j ∉ read ∧
      ∀ u, v ≤ u → u ∉ read → adjustLoop read v j ≤ u := by
  fun_induction adjustLoop read v j with
  | case1 v =>
      refine ⟨le_rfl, ?_, fun u above _ => above⟩
      intro held
      obtain ⟨i, taken⟩ := List.mem_iff_getElem?.mp held
      exact free i (Nat.zero_le i) taken
  | case2 v j taken ih =>
      obtain ⟨above, notTaken, least⟩ := ih (by
        intro i past
        rw [List.getElem?_eq_none past]
        simp)
      refine ⟨by omega, notTaken, fun u upper notU => least u ?_ notU⟩
      rcases Nat.lt_or_eq_of_le upper with more | rfl
      · exact more
      · exact absurd (List.mem_of_getElem? taken) notU
  | case3 v j notHere ih =>
      apply ih
      intro i from_j
      rcases Nat.lt_or_eq_of_le from_j with later | rfl
      · exact free i later
      · exact notHere

theorem adjusted_least (read : List Nat) (v : Nat) :
    v ≤ adjustLoop read v read.length ∧
      adjustLoop read v read.length ∉ read ∧
      ∀ u, v ≤ u → u ∉ read → adjustLoop read v read.length ≤ u := by
  apply adjustLoop_least
  intro i past
  rw [List.getElem?_eq_none past]
  simp

/-- Fewer indexes than there are leave one free. -/
theorem exists_free
    (read : List Nat)
    (fewer : read.length < n) : ∃ u, u < n ∧ u ∉ read := by
  by_contra none
  simp only [not_exists, not_and, not_not] at none
  have inside : List.range n ⊆ read := fun u held =>
    none u (List.mem_range.mp held)
  have length := (List.nodup_range.subperm inside).length_le
  rw [List.length_range] at length
  omega

/-! ## What the modes count through -/

namespace CombMode

/-- How an index of a list stands to one after it. -/
def Precedes : CombMode → Nat → Nat → Prop
  | repeatedPermutation, _, _ => True
  | repeatedCombination, a, b => a ≤ b
  | permutation, a, b => a ≠ b
  | combination, a, b => a < b
  | finished, _, _ => False

/-- The index lists of a mode. -/
structure Selects (mode : CombMode) (n k : Nat) (ind : List Nat) : Prop where
  length : ind.length = k
  inside : ∀ i ∈ ind, i < n
  related : ind.Pairwise mode.Precedes

/-- What an index at a position is below. -/
def limit (mode : CombMode) (n k : Nat) (position : Nat) : Nat :=
  match mode with
  | combination => n - k + position + 1
  | _ => n

/-- An index may follow those before it. -/
def Allowed (mode : CombMode) (n k : Nat) (read : List Nat) (d : Nat) : Prop :=
  d < mode.limit n k read.length ∧ ∀ x ∈ read, mode.Precedes x d

/-- The least index that may follow. -/
def least : CombMode → List Nat → Nat
  | repeatedPermutation, _ => 0
  | repeatedCombination, read => read.getLast?.getD 0
  | permutation, read => adjustLoop read 0 read.length
  | combination, read => (read.getLast?.map (· + 1)).getD 0
  | finished, _ => 0

/-- What an index is raised to. -/
def raised : CombMode → List Nat → Nat → Nat
  | permutation, read, d => adjustLoop read (d + 1) read.length
  | _, _, d => d + 1

/-- The counting of a mode. -/
def counting (mode : CombMode) (n k : Nat) : Counting where
  first := mode.least
  higher := fun read d =>
    if mode.raised read d < mode.limit n k read.length then
      some (mode.raised read d)
    else none

/-- The lists that fit are those whose indexes are in relation. -/
theorem fits_iff
    (mode : CombMode)
    (n k : Nat)
    (read ds : List Nat) :
    Fits (mode.Allowed n k) read ds ↔
      (∀ i d, ds[i]? = some d → d < mode.limit n k (read.length + i)) ∧
      ds.Pairwise mode.Precedes ∧ ∀ x ∈ read, ∀ d ∈ ds, mode.Precedes x d := by
  induction ds generalizing read with
  | nil => simp [Fits]
  | cons d ds ih =>
      rw [Fits, ih, List.pairwise_cons, List.length_append,
        List.length_singleton, Allowed]
      constructor
      · rintro ⟨⟨below, before⟩, limits, pairs, across⟩
        refine ⟨?_, ⟨?_, pairs⟩, ?_⟩
        · intro i e found
          cases i with
          | zero =>
              cases found
              exact below
          | succ i =>
              have later := limits i e (by simpa using found)
              rwa [Nat.add_assoc, Nat.add_comm 1] at later
        · exact fun e held => across d (by simp) e held
        · intro x held e within
          rcases List.mem_cons.mp within with rfl | later
          · exact before x held
          · exact across x (by simp [held]) e later
      · rintro ⟨limits, ⟨first, pairs⟩, across⟩
        refine ⟨⟨limits 0 d rfl, fun x held => across x held d (by simp)⟩,
          ?_, pairs, ?_⟩
        · intro i e found
          have later := limits (i + 1) e (by simpa using found)
          rwa [Nat.add_assoc, Nat.add_comm 1]
        · intro x held e within
          rcases List.mem_append.mp held with earlier | last
          · exact across x earlier e (by simp [within])
          · rw [List.mem_singleton.mp last]
            exact first e within

section Counts

variable {mode : CombMode} {n k : Nat}

/-- The last index of a list that fits is in relation to all before it. -/
theorem fits_last
    {read : List Nat}
    (fits : Fits (mode.Allowed n k) [] (read ++ [l])) :
    l < mode.limit n k read.length ∧ ∀ x ∈ read, mode.Precedes x l :=
  ((fits_concat read l).mp fits).2

theorem least_allowed
    (real : mode ≠ finished)
    (nonempty : 0 < n)
    (room : mode = permutation → k ≤ n)
    (read : List Nat)
    (fits : Fits (mode.Allowed n k) [] read)
    (short : read.length < k) :
    mode.Allowed n k read (mode.least read) ∧
      ∀ d, mode.Allowed n k read d → mode.least read ≤ d := by
  cases mode with
  | finished => contradiction
  | repeatedPermutation =>
      exact ⟨⟨nonempty, fun _ _ => trivial⟩, fun d _ => Nat.zero_le d⟩
  | permutation =>
      obtain ⟨_, free, least⟩ := adjusted_least read 0
      obtain ⟨u, inside, notTaken⟩ :=
        exists_free read (short.trans_le (room rfl))
      refine ⟨⟨(least u (Nat.zero_le u) notTaken).trans_lt inside, ?_⟩, ?_⟩
      · rintro x held rfl
        exact free held
      · intro d allowed
        exact least d (Nat.zero_le d) fun held => allowed.2 d held rfl
  | repeatedCombination =>
      rcases List.eq_nil_or_concat' read with rfl | ⟨before, l, rfl⟩
      · exact ⟨⟨nonempty, by simp⟩, fun d _ => Nat.zero_le d⟩
      · obtain ⟨inside, before⟩ := fits_last fits
        simp only [least, List.getLast?_concat, Option.getD_some]
        refine ⟨⟨inside, ?_⟩, fun d allowed => allowed.2 l (by simp)⟩
        intro x held
        rcases List.mem_append.mp held with earlier | last
        · exact before x earlier
        · rw [List.mem_singleton.mp last]
          exact le_refl l
  | combination =>
      rcases List.eq_nil_or_concat' read with rfl | ⟨before, l, rfl⟩
      · exact ⟨⟨Nat.succ_pos _, by simp⟩, fun d _ => Nat.zero_le d⟩
      · obtain ⟨inside, before⟩ := fits_last fits
        simp only [limit] at inside
        simp only [least, List.getLast?_concat, Option.map_some,
          Option.getD_some]
        refine ⟨⟨?_, ?_⟩, fun d allowed => allowed.2 l (by simp)⟩
        · simp only [limit, List.length_append, List.length_singleton]
          omega
        · intro x held
          rcases List.mem_append.mp held with earlier | last
          · exact (before x earlier).trans (Nat.lt_succ_self l)
          · rw [List.mem_singleton.mp last]
            exact Nat.lt_succ_self l

theorem raised_least
    (real : mode ≠ finished)
    (read : List Nat)
    (d : Nat)
    (allowed : mode.Allowed n k read d) :
    (∀ x ∈ read, mode.Precedes x (mode.raised read d)) ∧
      d < mode.raised read d ∧
      ∀ f, mode.Allowed n k read f → d < f → mode.raised read d ≤ f := by
  have before := allowed.2
  cases mode with
  | finished => contradiction
  | repeatedPermutation =>
      exact ⟨fun _ _ => trivial, Nat.lt_succ_self d, fun f _ above => above⟩
  | repeatedCombination =>
      exact ⟨fun x held => (before x held).trans (Nat.le_succ d),
        Nat.lt_succ_self d, fun f _ above => above⟩
  | combination =>
      exact ⟨fun x held => (before x held).trans (Nat.lt_succ_self d),
        Nat.lt_succ_self d, fun f _ above => above⟩
  | permutation =>
      obtain ⟨above, free, least⟩ := adjusted_least read (d + 1)
      refine ⟨?_, above, fun f may upper => least f upper ?_⟩
      · rintro x held rfl
        exact free held
      · exact fun held => may.2 f held rfl

/-- Each mode counts through its lists. -/
theorem counts
    (real : mode ≠ finished)
    (nonempty : 0 < n)
    (room : mode = permutation → k ≤ n) :
    (mode.counting n k).Counts (mode.Allowed n k) k where
  first := least_allowed real nonempty room
  raised := by
    intro read d _ _ allowed e found
    obtain ⟨below, same⟩ := Option.ite_none_right_eq_some.mp found
    cases same
    obtain ⟨before, above, least⟩ := raised_least real read d allowed
    exact ⟨⟨below, before⟩, above, least⟩
  highest := by
    intro read d _ _ allowed none f may
    by_contra above
    have atLeast := (raised_least real read d allowed).2.2 f may (by omega)
    have below : mode.raised read d < mode.limit n k read.length :=
      atLeast.trans_lt may.1
    simp [counting, below] at none

end Counts

/-! ## The loops count up -/

/-- Resetting the indexes after a position one by one fills them in. -/
theorem foldl_fill
    (c : Counting)
    (reset : List Nat → Nat → List Nat)
    (m j : Nat)
    (ind : List Nat)
    (length : ind.length = j + m)
    (sets : ∀ ind i, j ≤ i → i < j + m → ind.length = j + m →
      reset ind i = ind.set i (c.first (ind.take i))) :
    (List.range' j m).foldl reset ind =
      ind.take j ++ c.fill (ind.take j) m := by
  induction m generalizing j ind with
  | zero =>
      have whole : ind.take j = ind := List.take_of_length_le (by omega)
      simp [Counting.fill, whole]
  | succ m ih =>
      have now := sets ind j le_rfl (by omega) length
      rw [List.range'_succ, List.foldl_cons, now, ih (j + 1) _
        (by rw [List.length_set]; omega)
        (fun ind i after before sized =>
          sets ind i (by omega) (by omega) (by omega))]
      have front : (ind.set j (c.first (ind.take j))).take (j + 1) =
          ind.take j ++ [c.first (ind.take j)] := by
        rw [List.set_eq_take_append_cons_drop, if_pos (by omega),
          List.append_cons]
        refine List.take_left' ?_
        rw [List.length_append, List.length_take_of_le (by omega),
          List.length_singleton]
      rw [front, List.append_assoc]
      rfl

/-- Counting up after the digits read raises the whole list. -/
theorem next_append
    (c : Counting)
    (read p s : List Nat)
    (found : c.next (read ++ p) s = some es) :
    c.next read (p ++ s) = some (p ++ es) := by
  induction p generalizing read with
  | nil => simpa using found
  | cons d p ih =>
      rw [List.cons_append, Counting.next,
        ih (read ++ [d]) (by simpa using found)]
      rfl

section Advance

variable {mode : CombMode} {n k : Nat} {raise : List Nat → Nat → List Nat}
  {reset : Nat → List Nat → Nat → List Nat}

/-- The loop over the positions counts up. -/
theorem advance_spec
    (raises : ∀ ind i, raise ind i =
      ind.modify i (mode.raised (ind.take i)))
    (fills : ∀ ind i, i < k → ind.length = k →
      resetAfter i k (reset i) ind =
        ind.take (i + 1) ++
          (mode.counting n k).fill (ind.take (i + 1)) (k - (i + 1)))
    (list ind : List Nat)
    (i : Nat)
    (inside : i ≤ k)
    (length : list.length = k)
    (sized : ind.length = k)
    (same : ind.take i = list.take i)
    (ended : (mode.counting n k).next (list.take i) (list.drop i) = none) :
    advance k raise (mode.limit n k) reset i ind =
      (mode.counting n k).next [] list := by
  induction i generalizing ind with
  | zero => exact ended.symm
  | succ i ih =>
      have front : (list.take i).length = i := List.length_take_of_le (by omega)
      have split : list.drop i = list[i] :: list.drop (i + 1) :=
        List.drop_eq_getElem_cons (by omega)
      have read : list.take (i + 1) = list.take i ++ [list[i]] := by
        rw [List.take_add_one, List.getElem?_eq_getElem (by omega)]
        rfl
      rw [read] at same ended
      generalize list[i] = d at split same ended
      have parts : ind = list.take i ++ d :: ind.drop (i + 1) := by
        conv_lhs => rw [← List.take_append_drop (i + 1) ind, same]
        simp
      have before : ind.take i = list.take i := by
        rw [parts]
        exact List.take_left' front
      have raisedInd : raise ind i = list.take i ++
          mode.raised (list.take i) d :: ind.drop (i + 1) := by
        have digit : ind[i]? = some d := by
          rw [parts, List.getElem?_append_right (by omega), front]
          simp
        obtain ⟨inside, digit⟩ := List.getElem?_eq_some_iff.mp digit
        rw [raises, before, List.modify_eq_take_cons_drop inside, before, digit]
      have digit : (raise ind i).getD i 0 = mode.raised (list.take i) d := by
        rw [raisedInd, List.getD_eq_getElem?_getD,
          List.getElem?_append_right (by omega), front]
        simp
      have sizedLater : (raise ind i).length = k := by
        rw [raises, List.length_modify, sized]
      rw [advance]
      simp only [digit]
      by_cases below : mode.raised (list.take i) d < mode.limit n k i
      · have higher : (mode.counting n k).higher (list.take i) d =
            some (mode.raised (list.take i) d) := by
          simp [counting, front, below]
        have counted : (mode.counting n k).next (list.take i) (list.drop i) =
            some (mode.raised (list.take i) d ::
              (mode.counting n k).fill
                (list.take i ++ [mode.raised (list.take i) d])
                (list.drop (i + 1)).length) := by
          simp only [split, Counting.next, ended, higher]
        have whole := next_append (mode.counting n k) [] (list.take i)
          (list.drop i) counted
        rw [List.take_append_drop] at whole
        rw [if_pos below, whole, fills _ i (by omega) sizedLater]
        have raisedFront : (raise ind i).take (i + 1) =
            list.take i ++ [mode.raised (list.take i) d] := by
          rw [raisedInd, List.append_cons]
          exact List.take_left' (by simp [front])
        rw [raisedFront, List.length_drop, length]
        simp
      · have top : (mode.counting n k).higher (list.take i) d = none := by
          simp [counting, front, below]
        have counted :
            (mode.counting n k).next (list.take i) (list.drop i) = none := by
          simp only [split, Counting.next, ended, top]
        rw [if_neg below]
        refine ih (raise ind i) (by omega) sizedLater ?_
          counted
        rw [raisedInd]
        exact List.take_left' front

end Advance

section Modes

variable {n k : Nat}

/-- A constant fills in itself where it is the least index after itself. -/
theorem fill_constant
    (c : Counting)
    (v m : Nat)
    (read : List Nat)
    (now : c.first read = v)
    (again : ∀ read, c.first (read ++ [v]) = v) :
    c.fill read m = List.replicate m v := by
  induction m generalizing read with
  | zero => rfl
  | succ m ih =>
      rw [Counting.fill, now, List.replicate_succ,
        ih _ (again read)]

/-- Writing the index of an earlier position after it. -/
theorem foldl_earlier
    (i m j : Nat)
    (ind : List Nat)
    (after : i < j)
    (value : ind.getD i 0 = v) :
    (List.range' j m).foldl (fun ind j => ind.set j (ind.getD i 0)) ind =
      (List.range' j m).foldl (fun ind j => ind.set j v) ind := by
  induction m generalizing j ind with
  | zero => rfl
  | succ m ih =>
      have later : (ind.set j v).getD i 0 = v := by
        rw [List.getD_eq_getElem?_getD, List.getElem?_set_ne after.ne',
          ← List.getD_eq_getElem?_getD, value]
      rw [List.range'_succ, List.foldl_cons, List.foldl_cons, value]
      exact ih (j + 1) (ind.set j v) (by omega) later

/-- The last index before a position. -/
theorem last_before
    (ind : List Nat)
    (positive : 0 < j)
    (inside : j ≤ ind.length) :
    (ind.take j).getLast? = some (ind.getD (j - 1) 0) := by
  rw [List.getLast?_take, if_neg (by omega), List.getD_eq_getElem?_getD,
    List.getElem?_eq_getElem (by omega)]
  rfl

/-- Adjusting an index looks at those before it. -/
theorem adjust_modify
    (ind : List Nat)
    (i : Nat)
    (f : Nat → Nat) :
    adjustNextPermutationIndex (ind.modify i f) i =
      ind.modify i (fun v => adjustLoop (ind.take i) (f v) i) := by
  unfold adjustNextPermutationIndex
  have front : (ind.modify i f).take i = ind.take i := by
    rw [List.take_modify, List.modify_eq_self (by simp)]
  rw [front, List.modify_modify_eq]
  rfl

theorem advanced_spec
    (mode : CombMode)
    (real : mode ≠ finished)
    (ind : List Nat)
    (length : ind.length = k) :
    advanced mode n k ind = (mode.counting n k).next [] ind := by
  have ended : (mode.counting n k).next (ind.take k) (ind.drop k) = none := by
    rw [List.drop_eq_nil_of_le (by omega)]
    rfl
  cases mode with
  | finished => contradiction
  | repeatedPermutation =>
      apply advance_spec (fun ind i => rfl) ?_ ind ind k le_rfl length length
        rfl ended
      intro ind i inside sized
      exact foldl_fill _ _ (k - (i + 1)) (i + 1) ind (by omega)
        (fun _ _ _ _ _ => rfl)
  | repeatedCombination =>
      apply advance_spec (fun ind i => rfl) ?_ ind ind k le_rfl length length
        rfl ended
      intro ind i inside sized
      have last : (ind.take (i + 1)).getLast? = some (ind.getD i 0) :=
        last_before ind (Nat.succ_pos i) (by omega)
      rw [resetAfter, foldl_earlier i _ (i + 1) ind (Nat.lt_succ_self i) rfl,
        foldl_fill ⟨fun _ => ind.getD i 0, fun _ _ => none⟩ _ (k - (i + 1))
          (i + 1) ind (by omega) (fun _ _ _ _ _ => rfl),
        fill_constant _ (ind.getD i 0) _ _ rfl (fun _ => rfl),
        fill_constant (counting .repeatedCombination n k) (ind.getD i 0)]
      · simp [counting, least, last]
      · intro read
        simp [counting, least]
  | permutation =>
      refine advance_spec (fun ind i => ?_) ?_ ind ind k le_rfl length length
        rfl ended
      · rw [bump, adjust_modify]
        by_cases inside : i ≤ ind.length
        · congr 1
          funext v
          simp only [raised, List.length_take_of_le inside]
        · rw [List.modify_eq_self (by omega), List.modify_eq_self (by omega)]
      · intro ind i inside sized
        apply foldl_fill _ _ (k - (i + 1)) (i + 1) ind (by omega)
        intro ind j after before sizedNow
        have zero : ind.set j 0 = ind.modify j (fun _ => 0) := by
          rw [List.modify_eq_set]
        have front : (ind.take j).length = j :=
          List.length_take_of_le (by omega)
        rw [zero, adjust_modify, List.modify_eq_set]
        simp only [counting, least, front]
  | combination =>
      apply advance_spec (fun ind i => rfl) ?_ ind ind k le_rfl length length
        rfl ended
      intro ind i inside sized
      apply foldl_fill _ _ (k - (i + 1)) (i + 1) ind (by omega)
      intro ind j after before sizedNow
      simp [counting, least, last_before ind (by omega : 0 < j) (by omega)]

/-! ## Where the iterators start -/

theorem fill_zeros
    (mode : CombMode)
    (repeated : mode = repeatedPermutation ∨ mode = repeatedCombination)
    (n k : Nat) : (mode.counting n k).fill [] k = List.replicate k 0 := by
  apply fill_constant
  · rcases repeated with rfl | rfl <;> rfl
  · intro read
    rcases repeated with rfl | rfl <;> simp [counting, least]

theorem least_range
    (mode : CombMode)
    (distinct : mode = permutation ∨ mode = combination)
    (m : Nat) : mode.least (List.range m) = m := by
  rcases distinct with rfl | rfl
  · have ⟨_, free, least⟩ := adjusted_least (List.range m) 0
    rw [List.mem_range] at free
    have atMost := least m (Nat.zero_le m) (by simp)
    change adjustLoop (List.range m) 0 (List.range m).length = m
    omega
  · cases m with
    | zero => rfl
    | succ m => simp [least, List.range_succ]

theorem fill_range
    (mode : CombMode)
    (distinct : mode = permutation ∨ mode = combination)
    (n k m i : Nat) :
    (mode.counting n k).fill (List.range i) m = List.range' i m := by
  induction m generalizing i with
  | zero => rfl
  | succ m ih =>
      have now : (mode.counting n k).first (List.range i) = i :=
        least_range mode distinct i
      rw [Counting.fill, now, List.range'_succ, ← List.range_succ,
        ih (i + 1)]

/-- The first state of an iterator, when there is an index list. -/
theorem init_some
    (mode : CombMode)
    (real : mode ≠ finished)
    (n k : Nat)
    (positive : 1 ≤ k)
    (nonempty : 0 < n)
    (room : mode = permutation ∨ mode = combination → k ≤ n) :
    combinationInit mode n k =
      some ⟨mode, n, k, (mode.counting n k).fill [] k⟩ := by
  unfold combinationInit
  rw [if_neg (by omega)]
  cases mode with
  | finished => contradiction
  | repeatedPermutation => rw [fill_zeros _ (Or.inl rfl)]
  | repeatedCombination => rw [fill_zeros _ (Or.inr rfl)]
  | permutation =>
      have fits : ¬k > n := Nat.not_lt.mpr (room (Or.inl rfl))
      have range := fill_range permutation (Or.inl rfl) n k k 0
      rw [List.range_zero] at range
      simp only [if_neg fits, range, List.range_eq_range']
  | combination =>
      have fits : ¬k > n := Nat.not_lt.mpr (room (Or.inr rfl))
      have range := fill_range combination (Or.inr rfl) n k k 0
      rw [List.range_zero] at range
      simp only [if_neg fits, range, List.range_eq_range']

end Modes

/-! ## The index lists of a mode -/

/-- In an ascending list there is room for the indexes that follow. -/
theorem combination_bound
    (ind : List Nat)
    (i : Nat)
    (inside : ∀ d ∈ ind, d < n)
    (ascending : ind.Pairwise (· < ·))
    (found : ind[i]? = some d) : d + (ind.length - i) ≤ n := by
  induction ind generalizing i d with
  | nil => simp at found
  | cons e es ih =>
      rw [List.forall_mem_cons] at inside
      rw [List.pairwise_cons] at ascending
      cases i with
      | succ i =>
          have rest := ih i inside.2 ascending.2
            (by simpa using found)
          simpa using rest
      | zero =>
          cases found
          cases es with
          | nil => exact inside.1
          | cons f fs =>
              have rest := ih 0 inside.2 ascending.2 rfl
              have above := ascending.1 f List.mem_cons_self
              simp only [List.length_cons] at rest ⊢
              omega

/-- The lists counted through are the index lists of the mode. -/
theorem selects_iff
    (mode : CombMode)
    (room : mode = combination → k ≤ n)
    (ind : List Nat) :
    mode.Selects n k ind ↔
      Fits (mode.Allowed n k) [] ind ∧ ind.length = k := by
  rw [fits_iff]
  constructor
  · rintro ⟨length, inside, related⟩
    refine ⟨⟨?_, related, by simp⟩, length⟩
    intro i d found
    have below := inside d (List.mem_of_getElem? found)
    have position := (List.getElem?_eq_some_iff.mp found).1
    cases mode with
    | combination =>
        have bound := combination_bound ind i inside related found
        simp only [limit, List.length_nil]
        omega
    | _ => exact below
  · rintro ⟨⟨limits, related, _⟩, length⟩
    refine ⟨length, ?_, related⟩
    intro d held
    obtain ⟨i, found⟩ := List.mem_iff_getElem?.mp held
    have below := limits i d found
    have position := (List.getElem?_eq_some_iff.mp found).1
    cases mode with
    | combination =>
        have fits := room rfl
        simp only [limit, List.length_nil] at below
        omega
    | _ => exact below

end CombMode

/-! ## Whole runs of an iterator -/

/-- The index lists that an iterator reads an Array at, from a state until it
answers nil.  Every step leaves indexes below `n` or a finished state. -/
inductive Yields (array : List V) : CombState → List (List Nat) → Prop
  | done (ended : combinationNext array st = some (.nil, after)) :
      Yields array st []
  | more (answered : combinationNext array st = some (.list cur, after))
      (values : st.ind.mapM (array[·]?) = some cur)
      (inside : after.mode = .finished ∨ ∀ i ∈ after.ind, i < after.n)
      (rest : Yields array after lists) : Yields array st (st.ind :: lists)

/-- Reading an Array at indexes below its length. -/
theorem read_some
    (array : List V)
    (ind : List Nat)
    (inside : ∀ i ∈ ind, i < array.length) :
    ∃ cur, ind.mapM (array[·]?) = some cur := by
  induction ind with
  | nil => exact ⟨[], rfl⟩
  | cons i ind ih =>
      rw [List.forall_mem_cons] at inside
      obtain ⟨cur, rest⟩ := ih inside.2
      refine ⟨array[i] :: cur, ?_⟩
      rw [List.mapM_cons, List.getElem?_eq_getElem inside.1, rest]
      rfl

/-- A call answers the values of the positions and moves on. -/
theorem combinationNext_selects
    (array : List V)
    (real : mode ≠ .finished)
    (selects : mode.Selects array.length k ind) :
    ∃ cur, ind.mapM (array[·]?) = some cur ∧
      combinationNext array ⟨mode, array.length, k, ind⟩ =
        match (mode.counting array.length k).next [] ind with
        | some later => some (.list cur, ⟨mode, array.length, k, later⟩)
        | none => some (.list cur, ⟨.finished, array.length, k, []⟩) := by
  obtain ⟨cur, values⟩ := read_some array ind selects.inside
  refine ⟨cur, values, ?_⟩
  have inside : ¬ind.any (array.length ≤ ·) = true := by
    simpa using selects.inside
  unfold combinationNext
  rw [if_neg real, if_neg (by simp), if_neg inside]
  have counted : advanced mode array.length k ind = _ :=
    CombMode.advanced_spec mode real ind selects.length
  cases found : (mode.counting array.length k).next [] ind <;>
    simp only [values, counted, found, Option.bind_eq_bind, Option.bind_some]

open CombMode in
/-- A walk of the counting is a run of the iterator. -/
theorem yields_of_walk
    (array : List V)
    (mode : CombMode)
    (real : mode ≠ .finished)
    (room : mode = .permutation ∨ mode = .combination → k ≤ array.length)
    (nonempty : 0 < array.length)
    (walks : (mode.counting array.length k).Walk ind walk)
    (selects : mode.Selects array.length k ind) :
    Yields array ⟨mode, array.length, k, ind⟩ walk := by
  have counts := counts (k := k) real nonempty (fun same => room (Or.inl same))
  have iff := selects_iff (k := k) mode (fun same => room (Or.inr same))
  have answers := fun ind (selects : mode.Selects array.length k ind) =>
    combinationNext_selects array real selects
  induction walks with
  | @last ind ended =>
      obtain ⟨cur, values, answered⟩ := answers ind selects
      rw [ended] at answered
      exact .more answered values (Or.inl rfl) (.done rfl)
  | @more ind later rest found walk ih =>
      obtain ⟨cur, values, answered⟩ := answers ind selects
      rw [found] at answered
      obtain ⟨fits, length⟩ := (iff ind).mp selects
      obtain ⟨laterFits, laterLength, _⟩ :=
        counts.next_some ind [] later trivial (by simpa using length) fits found
      have laterSelects := (iff later).mpr
        ⟨laterFits, laterLength.trans length⟩
      exact .more answered values (Or.inr laterSelects.inside)
        (ih laterSelects)

/-- Different indexes are no more than there are. -/
theorem CombMode.Selects.length_le
    (selects : CombMode.Selects mode n k ind)
    (distinct : mode = .permutation ∨ mode = .combination) : k ≤ n := by
  have nodup : ind.Nodup := by
    rcases distinct with rfl | rfl
    · exact selects.related
    · exact selects.related.imp Nat.ne_of_lt
  have inside : ind ⊆ List.range n := fun i held =>
    List.mem_range.mpr (selects.inside i held)
  have length := (nodup.subperm inside).length_le
  rwa [selects.length, List.length_range] at length

theorem CombMode.Selects.nonempty
    (selects : CombMode.Selects mode n k ind)
    (positive : 1 ≤ k) : 0 < n := by
  cases ind with
  | nil =>
      have length := selects.length
      simp only [List.length_nil] at length
      omega
  | cons i ind => exact Nat.zero_lt_of_lt (selects.inside i List.mem_cons_self)

/-- There is a first state only where there is an index list. -/
theorem init_room
    (started : combinationInit mode n k = some st) :
    0 < n ∧ (mode = .permutation ∨ mode = .combination → k ≤ n) := by
  unfold combinationInit at started
  by_cases empty : k < 1 ∨ n < 1
  · rw [if_pos empty] at started
    contradiction
  · rw [if_neg empty] at started
    refine ⟨by omega, ?_⟩
    by_cases above : k > n
    · rintro (rfl | rfl) <;> simp [above] at started
    · intro _
      omega

/-- The combination iterators go through every index list of their mode once, in
lexicographic order; there is no state where there is no index list. -/
theorem iterators_enumerate
    (array : List V)
    (mode : CombMode)
    (k : Nat)
    (positive : 1 ≤ k)
    (real : mode ≠ .finished) :
    match combinationInit mode array.length k with
    | none => ∀ ind, ¬mode.Selects array.length k ind
    | some st => (∀ i ∈ st.ind, i < st.n) ∧
        ∃ lists, Yields array st lists ∧ lists.Pairwise (· < ·) ∧
          ∀ ind, ind ∈ lists ↔ mode.Selects array.length k ind := by
  by_cases room : 0 < array.length ∧
      (mode = .permutation ∨ mode = .combination → k ≤ array.length)
  · obtain ⟨nonempty, room⟩ := room
    rw [CombMode.init_some mode real _ k positive nonempty room]
    have counts := CombMode.counts (k := k) real nonempty
      (fun same => room (Or.inl same))
    have iff := CombMode.selects_iff (k := k) mode
      (fun same => room (Or.inr same))
    have bounded : ∀ read d, read.length < k →
        mode.Allowed array.length k read d → d < array.length := by
      intro read d short allowed
      have below := allowed.1
      cases mode with
      | combination =>
          have fits := room (Or.inr rfl)
          simp only [CombMode.limit] at below
          omega
      | _ => exact below
    obtain ⟨lists, walks, ascending, complete⟩ := counts.walk_all bounded
    obtain ⟨fits, length, _⟩ := counts.fill_least k [] trivial (by simp)
    have selects := (iff _).mpr ⟨fits, length⟩
    exact ⟨selects.inside, lists,
      yields_of_walk array mode real room nonempty walks selects, ascending,
      fun ind => (complete ind).trans (iff ind).symm⟩
  · have none : ∀ ind, ¬mode.Selects array.length k ind := fun ind selects =>
      room ⟨selects.nonempty positive, selects.length_le⟩
    cases start : combinationInit mode array.length k with
    | none => exact none
    | some st => exact absurd (init_room start) room

theorem iterators_enumerate_at :
    match combinationInit .permutation ["a", "b", "c"].length 2 with
    | none => ∀ ind, ¬CombMode.permutation.Selects ["a", "b", "c"].length 2 ind
    | some st => (∀ i ∈ st.ind, i < st.n) ∧
        ∃ lists, Yields ["a", "b", "c"] st lists ∧ lists.Pairwise (· < ·) ∧
          ∀ ind, ind ∈ lists ↔
            CombMode.permutation.Selects ["a", "b", "c"].length 2 ind :=
  iterators_enumerate ["a", "b", "c"] .permutation 2 (by decide) (by decide)

end SabiRuby.Arrays
