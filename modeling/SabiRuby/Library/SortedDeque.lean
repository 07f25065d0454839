import SabiRuby.Library.BinarySearch

/-!
# Sorted sequences

A sequence of entries in the strict order of their keys, with the shortcuts at
its two ends: an entry whose key is the last goes at the back, the first and the
last entry are found without a search.  On a sorted sequence each operation is
what it is on the set of its entries.
-/

namespace SabiRuby.Library

/-- A sequence kept in the order of its keys. -/
structure SortedDeque (Key Value : Type) where
  items : List (Key × Value) := []

namespace SortedDeque

section Operations

variable {Key Value : Type} [LinearOrder Key]

/-- Put a value at a key that is not there yet. -/
def insert
    (deque : SortedDeque Key Value)
    (key : Key)
    (value : Value) : SortedDeque Key Value :=
  match deque.items.getLast? with
  | some (last, _) =>
      if key < last then
        ⟨deque.items.insertIdx
          (partitionPoint (fun item => decide (item.1 < key)) deque.items)
          (key, value)⟩
      else ⟨deque.items ++ [(key, value)]⟩
  | none => ⟨deque.items ++ [(key, value)]⟩

/-- Take a key out, answering what it held. -/
def remove
    (deque : SortedDeque Key Value)
    (key : Key) : Option Value × SortedDeque Key Value :=
  if deque.items.head?.map Prod.fst = some key then
    (deque.items.head?.map Prod.snd, ⟨deque.items.tail⟩)
  else if deque.items.getLast?.map Prod.fst = some key then
    (deque.items.getLast?.map Prod.snd, ⟨deque.items.dropLast⟩)
  else
    match binarySearchBy (fun item => compare item.1 key) deque.items with
    | .ok position =>
        (deque.items[position]?.map Prod.snd,
          ⟨deque.items.eraseIdx position⟩)
    | .error _ => (none, deque)

/-- The smallest key and its value. -/
def firstKeyValue (deque : SortedDeque Key Value) : Option (Key × Value) :=
  deque.items.head?

/-- The entries from the first key not below a bound on. -/
def iterFrom
    (deque : SortedDeque Key Value)
    (low : Key) : List (Key × Value) :=
  deque.items.drop
    (partitionPoint (fun item => decide (item.1 < low)) deque.items)

/-- The keys ascend strictly. -/
def Sorted (deque : SortedDeque Key Value) : Prop :=
  deque.items.Pairwise (fun first second => first.1 < second.1)

theorem insertIdx_eq
    (elements : List α)
    (position : Nat)
    (element : α)
    (inside : position ≤ elements.length) :
    elements.insertIdx position element =
      elements.take position ++ element :: elements.drop position := by
  induction elements generalizing position with
  | nil =>
      have zero : position = 0 := by simpa using inside
      subst zero
      rfl
  | cons head rest ih =>
      cases position with
      | zero => rfl
      | succ position =>
          simp only [List.insertIdx_succ_cons, List.take_succ_cons,
            List.drop_succ_cons, List.cons_append]
          rw [ih position (by simpa using inside)]

theorem sorted_empty : (⟨[]⟩ : SortedDeque Key Value).Sorted :=
  List.Pairwise.nil

variable {deque : SortedDeque Key Value} {key low : Key} {value : Value}

section

variable (sorted : deque.Sorted)
include sorted

/-- An entry below a bound has only entries below it before it. -/
theorem Sorted.below
    (low : Key)
    (first second : Nat)
    (before : first < second)
    (fails : deque.items[first]?.map (fun item => decide (item.1 < low)) =
      some false)
    (inside : second < deque.items.length) :
    deque.items[second]?.map (fun item => decide (item.1 < low)) =
      some false := by
  obtain ⟨item, held, notBelow⟩ := Option.map_eq_some_iff.mp fails
  obtain ⟨bound, rfl⟩ := List.getElem?_eq_some_iff.mp held
  have ascends :=
    List.pairwise_iff_getElem.mp sorted first second bound inside before
  rw [List.getElem?_eq_getElem inside, Option.map_some]
  have atLeast := not_lt.mp (of_decide_eq_false notBelow)
  exact congrArg some
    (decide_eq_false (not_lt.mpr (le_of_lt (lt_of_le_of_lt atLeast ascends))))

/-- The entries from a bound on are those not below it. -/
theorem Sorted.iterFrom_eq :
    deque.iterFrom low =
      deque.items.filter (fun item => decide (low ≤ item.1)) := by
  unfold iterFrom
  rw [(take_partitionPoint (sorted.below low)).2]
  apply List.filter_congr
  intro item _
  rcases lt_or_ge item.1 low with less | atLeast
  · simp [less, not_le.mpr less]
  · simp [atLeast, not_lt.mpr atLeast]

/-- An entry goes between those with smaller and those with larger keys. -/
theorem Sorted.insert_items
    (fresh : ∀ item ∈ deque.items, item.1 ≠ key) :
    (deque.insert key value).items =
      deque.items.filter (fun item => decide (item.1 < key)) ++
        (key, value) ::
          deque.items.filter (fun item => decide (key < item.1)) := by
  have above : deque.items.filter (fun item => !decide (item.1 < key)) =
      deque.items.filter (fun item => decide (key < item.1)) := by
    apply List.filter_congr
    intro item member
    have differs := fresh item member
    rcases lt_trichotomy item.1 key with less | same | more
    · simp [less, not_lt.mpr (le_of_lt less)]
    · exact absurd same differs
    · simp [more, not_lt.mpr (le_of_lt more)]
  have atBack : (∀ item ∈ deque.items, item.1 < key) →
      deque.items ++ [(key, value)] =
        deque.items.filter (fun item => decide (item.1 < key)) ++
          (key, value) ::
            deque.items.filter (fun item => decide (key < item.1)) := by
    intro below
    rw [List.filter_eq_self.mpr (by simpa using below),
      List.filter_eq_nil_iff.mpr
        (by simpa using fun key value member => le_of_lt (below _ member))]
  unfold insert
  split
  · rename_i last _ final
    split
    · simp only
      obtain ⟨taken, dropped⟩ := take_partitionPoint (sorted.below key)
      rw [insertIdx_eq _ _ _ (partitionPoint_spec (sorted.below key)).1,
        taken, dropped, above]
    · rename_i notBelow
      simp only
      apply atBack
      intro item member
      have member' := List.mem_of_getLast? final
      have atMost : item.1 ≤ last := by
        obtain ⟨front, shape⟩ := List.getLast?_eq_some_iff.mp final
        rw [shape] at member
        rcases List.mem_append.mp member with before | at_end
        · refine le_of_lt ?_
          have pairs := sorted
          unfold Sorted at pairs
          rw [shape, List.pairwise_append] at pairs
          exact pairs.2.2 item before _ (List.mem_singleton.mpr rfl)
        · rw [List.mem_singleton.mp at_end]
      exact lt_of_le_of_ne (le_trans atMost (not_lt.mp notBelow))
        (fresh item member)
  · rename_i empty
    simp only
    apply atBack
    intro item member
    rw [List.getLast?_eq_none_iff.mp empty] at member
    cases member

theorem Sorted.insert
    (fresh : ∀ item ∈ deque.items, item.1 ≠ key) :
    (deque.insert key value).Sorted := by
  unfold Sorted
  rw [sorted.insert_items fresh, List.pairwise_append]
  refine ⟨List.Pairwise.filter _ sorted, ?_, ?_⟩
  · rw [List.pairwise_cons]
    refine ⟨?_, List.Pairwise.filter _ sorted⟩
    intro item member
    exact of_decide_eq_true (List.mem_filter.mp member).2
  · intro first firstMember second secondMember
    have below := of_decide_eq_true (List.mem_filter.mp firstMember).2
    rcases List.mem_cons.mp secondMember with rfl | later
    · exact below
    · exact lt_trans below
        (of_decide_eq_true (List.mem_filter.mp later).2)

/-- What is in the sequence after an insertion. -/
theorem Sorted.mem_insert
    (fresh : ∀ item ∈ deque.items, item.1 ≠ key)
    (item : Key × Value) :
    item ∈ (deque.insert key value).items ↔
      item = (key, value) ∨ item ∈ deque.items := by
  rw [sorted.insert_items fresh]
  simp only [List.mem_append, List.mem_filter, List.mem_cons,
    decide_eq_true_eq]
  constructor
  · rintro (⟨member, _⟩ | rfl | ⟨member, _⟩)
    · exact Or.inr member
    · exact Or.inl rfl
    · exact Or.inr member
  · rintro (rfl | member)
    · exact Or.inr (Or.inl rfl)
    · rcases lt_or_gt_of_ne (fresh item member) with less | more
      · exact Or.inl ⟨member, less⟩
      · exact Or.inr (Or.inr ⟨member, more⟩)

/-- A key that is not there splits a sorted sequence. -/
theorem Sorted.split
    (fresh : ∀ item ∈ deque.items, item.1 ≠ key) :
    deque.items.filter (fun item => decide (item.1 < key)) ++
      deque.items.filter (fun item => decide (key < item.1)) =
        deque.items := by
  have above : deque.items.filter (fun item => decide (key < item.1)) =
      deque.items.filter (fun item => !decide (item.1 < key)) := by
    apply List.filter_congr
    intro item member
    have differs := fresh item member
    rcases lt_trichotomy item.1 key with less | same | more
    · simp [less, not_lt.mpr (le_of_lt less)]
    · exact absurd same differs
    · simp [more, not_lt.mpr (le_of_lt more)]
  obtain ⟨taken, dropped⟩ := take_partitionPoint (sorted.below key)
  rw [above, ← taken, ← dropped, List.take_append_drop]

/-- An entry behind all the others of a kind comes last among them. -/
theorem Sorted.insert_filter
    (fresh : ∀ item ∈ deque.items, item.1 ≠ key)
    (kind : Key → Bool)
    (last : kind key = true → ∀ item ∈ deque.items, kind item.1 = true →
      item.1 < key) :
    (deque.insert key value).items.filter (fun item => kind item.1) =
      deque.items.filter (fun item => kind item.1) ++
        if kind key then [(key, value)] else [] := by
  have whole := congrArg (List.filter fun item => kind item.1)
    (sorted.split fresh)
  rw [List.filter_append] at whole
  rw [sorted.insert_items fresh, List.filter_append, ← whole]
  cases isKind : kind key with
  | false =>
      rw [List.filter_cons_of_neg (by simp [isKind]), if_neg (by simp),
        List.append_nil]
  | true =>
      have none : (deque.items.filter fun item => decide (key < item.1)).filter
          (fun item => kind item.1) = [] := by
        apply List.filter_eq_nil_iff.mpr
        intro item member here
        obtain ⟨held, above⟩ := List.mem_filter.mp member
        exact lt_asymm (last isKind item held here) (of_decide_eq_true above)
      rw [List.filter_cons_of_pos (by simp [isKind]), none, List.append_nil,
        if_pos rfl]

end

/-- No entry stands in a sorted sequence twice. -/
theorem Sorted.nodup (sorted : deque.Sorted) : deque.items.Nodup := by
  refine List.Pairwise.imp (fun less => ?_) sorted
  rintro rfl
  exact lt_irrefl _ less

section

variable (sorted : deque.Sorted)
include sorted

/-- The entries whose keys are low enough stand at the front. -/
theorem Sorted.takeWhile_eq
    (low : Key → Bool)
    (down : ∀ first second, first < second → low second = true →
      low first = true) :
    deque.items.takeWhile (fun item => low item.1) =
      deque.items.filter fun item => low item.1 := by
  unfold Sorted at sorted
  generalize deque.items = items at sorted ⊢
  induction sorted with
  | nil => rfl
  | cons above sorted ih =>
      rename_i item rest
      by_cases isLow : low item.1 = true
      · rw [List.takeWhile_cons_of_pos (by simpa using isLow),
          List.filter_cons_of_pos (by simpa using isLow),
          ih]
      · rw [List.takeWhile_cons_of_neg (by simpa using isLow),
          List.filter_cons_of_neg (by simpa using isLow)]
        refine (List.filter_eq_nil_iff.mpr fun later member more => ?_).symm
        exact isLow (down _ _ (above later member) more)

/-- In a sorted list an entry is the only one with its key. -/
theorem Sorted.eq_of_mem
    (firstMember : first ∈ deque.items)
    (secondMember : second ∈ deque.items)
    (same : first.1 = second.1) : first = second := by
  obtain ⟨i, iBound, rfl⟩ := List.mem_iff_getElem.mp firstMember
  obtain ⟨j, jBound, rfl⟩ := List.mem_iff_getElem.mp secondMember
  rcases Nat.lt_trichotomy i j with before | equal | after
  · have := List.pairwise_iff_getElem.mp sorted i j iBound jBound before
    exact absurd same (ne_of_lt this)
  · subst equal
    rfl
  · have := List.pairwise_iff_getElem.mp sorted j i jBound iBound after
    exact absurd same.symm (ne_of_lt this)

/-- Erasing the entry at a position leaves those with other keys. -/
theorem Sorted.eraseIdx_eq
    (inside : position < deque.items.length)
    (same : deque.items[position].1 = key) :
    deque.items.eraseIdx position =
      deque.items.filter (fun item => decide (item.1 ≠ key)) := by
  have shape := List.take_append_drop position deque.items
  have later := List.drop_eq_getElem_cons inside
  rw [List.eraseIdx_eq_take_drop_succ]
  have pairs := sorted
  unfold Sorted at pairs
  rw [← shape, later, List.pairwise_append, List.pairwise_cons] at pairs
  obtain ⟨_, ⟨above, _⟩, across⟩ := pairs
  conv_rhs => rw [← shape, later]
  rw [List.filter_append, List.filter_cons_of_neg (by simpa using same)]
  congr 1
  · refine (List.filter_eq_self.mpr ?_).symm
    intro item member
    have less := across item member _ (List.mem_cons_self ..)
    exact decide_eq_true (ne_of_lt (same ▸ less))
  · refine (List.filter_eq_self.mpr ?_).symm
    intro item member
    have more := above item member
    exact decide_eq_true (ne_of_gt (same ▸ more))

/-- Taking a key out leaves the other entries. -/
theorem Sorted.remove_items :
    (deque.remove key).2.items =
      deque.items.filter (fun item => decide (item.1 ≠ key)) := by
  unfold remove
  split
  · rename_i first
    obtain ⟨item, head, same⟩ := Option.map_eq_some_iff.mp first
    obtain ⟨rest, shape⟩ := List.head?_eq_some_iff.mp head
    have inside : 0 < deque.items.length := by rw [shape]; simp
    have erased := sorted.eraseIdx_eq inside
      (show deque.items[0].1 = key by simp [shape, same])
    simpa [List.eraseIdx_zero] using erased
  · split
    · rename_i last
      obtain ⟨item, final, same⟩ := Option.map_eq_some_iff.mp last
      obtain ⟨front, shape⟩ := List.getLast?_eq_some_iff.mp final
      have inside : deque.items.length - 1 < deque.items.length := by
        rw [shape]; simp
      have erased := sorted.eraseIdx_eq inside
        (show deque.items[deque.items.length - 1].1 = key by
          simp [shape, same])
      simpa [List.eraseIdx_length_sub_one] using erased
    · split
      · rename_i position found
        obtain ⟨item, held, equal⟩ :=
          Option.map_eq_some_iff.mp (binarySearchBy_ok found)
        obtain ⟨inside, rfl⟩ := List.getElem?_eq_some_iff.mp held
        exact sorted.eraseIdx_eq inside (compare_eq_iff_eq.mp equal)
      · rename_i missing
        refine (List.filter_eq_self.mpr ?_).symm
        intro item member
        apply decide_eq_true
        intro same
        obtain ⟨position, inside, rfl⟩ := List.mem_iff_getElem.mp member
        have found := binarySearchBy_eq_ok sorted
          (List.getElem?_eq_getElem inside) same
        rw [found] at missing
        cases missing

theorem Sorted.remove :
    (deque.remove key).2.Sorted := by
  unfold Sorted
  rw [sorted.remove_items]
  exact List.Pairwise.filter _ sorted

/-- What is in the sequence after a removal. -/
theorem Sorted.mem_remove
    (item : Key × Value) :
    item ∈ (deque.remove key).2.items ↔
      item ∈ deque.items ∧ item.1 ≠ key := by
  rw [sorted.remove_items]
  simp

/-- The first entry has the smallest key. -/
theorem Sorted.firstKeyValue_le
    (found : deque.firstKeyValue = some first)
    (member : item ∈ deque.items) : first.1 ≤ item.1 := by
  obtain ⟨rest, shape⟩ := List.head?_eq_some_iff.mp found
  have pairs := sorted
  unfold Sorted at pairs
  rw [shape, List.pairwise_cons] at pairs
  rw [shape] at member
  rcases List.mem_cons.mp member with rfl | later
  · exact le_refl _
  · exact le_of_lt (pairs.1 item later)

end

/-- The sequence holds every value at the key that a table gives it, and no
other value. -/
structure Keyed
    (deque : SortedDeque Key Value)
    (keyOf : Value → Option Key) : Prop where
  sorted : deque.Sorted
  mem_iff : ∀ key value,
    (key, value) ∈ deque.items ↔ keyOf value = some key

variable {keyOf : Value → Option Key}

theorem keyed_empty : (⟨[]⟩ : SortedDeque Key Value).Keyed (fun _ => none) :=
  ⟨sorted_empty, by simp⟩

section

variable (keyed : deque.Keyed keyOf)
include keyed

theorem Keyed.congr
    (same : ∀ value, other value = keyOf value) : deque.Keyed other := by
  rw [funext same]
  exact keyed

theorem Keyed.remove
    [DecidableEq Value]
    (held : keyOf value = some key) :
    (deque.remove key).2.Keyed (Function.update keyOf value none) := by
  refine ⟨keyed.sorted.remove, ?_⟩
  intro otherKey other
  rw [keyed.sorted.mem_remove, keyed.mem_iff]
  by_cases same : other = value
  · subst same
    simp only [Function.update_self, held, reduceCtorEq, iff_false]
    rintro ⟨equal, differs⟩
    exact differs (Option.some.inj equal).symm
  · rw [Function.update_of_ne same]
    refine ⟨fun both => both.1, fun otherHeld => ⟨otherHeld, ?_⟩⟩
    rintro rfl
    have entries := keyed.sorted.eq_of_mem
      ((keyed.mem_iff otherKey other).mpr otherHeld)
      ((keyed.mem_iff otherKey value).mpr held) rfl
    exact same (Prod.ext_iff.mp entries).2

theorem Keyed.insert
    [DecidableEq Value]
    (value : Value)
    (out : keyOf value = none)
    (fresh : ∀ other, keyOf other ≠ some key) :
    (deque.insert key value).Keyed
      (Function.update keyOf value (some key)) := by
  have unused : ∀ item ∈ deque.items, item.1 ≠ key := by
    rintro ⟨otherKey, other⟩ member rfl
    exact fresh other ((keyed.mem_iff _ _).mp member)
  refine ⟨keyed.sorted.insert unused, ?_⟩
  intro otherKey other
  rw [keyed.sorted.mem_insert unused, keyed.mem_iff]
  by_cases same : other = value
  · subst same
    simp [out, eq_comm]
  · simp [same]

/-- Each value is in the sequence once. -/
theorem Keyed.value_injective
    (firstMember : first ∈ deque.items)
    (secondMember : second ∈ deque.items)
    (same : first.2 = second.2) : first = second := by
  have firstKey := (keyed.mem_iff first.1 first.2).mp firstMember
  have secondKey := (keyed.mem_iff second.1 second.2).mp secondMember
  rw [same, secondKey] at firstKey
  exact Prod.ext (Option.some.inj firstKey).symm same

end

end Operations

end SortedDeque

end SabiRuby.Library
