import Mathlib.Data.List.DropRight
import Mathlib.Algebra.Ring.Nat
import SabiRuby.Strings.Searching

/-!
# `String#split`

Three loops cut a string: at runs of spaces, between characters and at a
separator.  Each counts its pieces against the limit and decides about the rest
on its own.  Joining undoes the last two.
-/

namespace SabiRuby.Strings

/-- C's `isspace`. -/
def isSpace (c : UInt8) : Bool :=
  c == 32 || c == 9 || c == 10 || c == 11 || c == 12 || c == 13

/-- The loop of the blank separator: the fields that it cuts and the beginning
of the rest. -/
def fieldsFrom
    (b : List UInt8)
    (limit : Int)
    (limP : Bool) :
    Int → Nat → Nat → Nat → Bool → List (List UInt8) × Nat
  | i, beg, end_, idx, skip =>
      if idx < b.length then
        let c := b.getD idx 0
        if skip then
          if isSpace c then
            fieldsFrom b limit limP i (idx + 1) end_ (idx + 1) true
          else if limP = true ∧ limit ≤ i then ([], beg)
          else fieldsFrom b limit limP i beg (idx + 1) (idx + 1) false
        else if isSpace c then
          let rest := fieldsFrom b limit limP (if limP then i + 1 else i)
            (idx + 1) end_ (idx + 1) true
          ((b.drop beg).take (end_ - beg) :: rest.1, rest.2)
        else fieldsFrom b limit limP i beg (idx + 1) (idx + 1) false
      else ([], beg)
termination_by _ _ _ idx => b.length - idx

/-- The loop of the empty separator, and whether the limit cut it short.  It has
pushed as many pieces as it has passed characters. -/
def charactersFrom
    (b : List UInt8)
    (all : List (List UInt8))
    (limit : Int) :
    Nat → List (List UInt8) → List (List UInt8) × Bool
  | _, [] => ([], false)
  | i, c :: cs =>
      if limit > 0 ∧ (i : Int) = limit - 1 then
        ([b.drop ((all.take i).map List.length).sum], true)
      else
        let rest := charactersFrom b all limit (i + 1) cs
        (c :: rest.1, rest.2)

theorem find_bounds
    (some_ : sep ≠ [])
    (found : find b sep start = some p) :
    start ≤ p ∧ p + sep.length ≤ b.length ∧ sep <+: b.drop p := by
  have least := ((find_iff some_ start p).mp found).1
  have positive := List.length_pos_iff.mpr some_
  have length := least.2.length_le
  rw [List.length_drop] at length
  exact ⟨least.1, by omega, least.2⟩

/-- The loop of a separator: the pieces that it cuts and the beginning of the
rest. -/
def separatedFrom
    (b sep : List UInt8)
    (some_ : sep ≠ [])
    (limit : Int)
    (start n : Nat) : List (List UInt8) × Nat :=
  match _ : find b sep start with
  | none => ([], start)
  | some p =>
      if limit > 0 ∧ (n : Int) = limit - 1 then ([], start)
      else
        let rest := separatedFrom b sep some_ limit (p + sep.length) (n + 1)
        ((b.drop start).take (p - start) :: rest.1, rest.2)
termination_by b.length - start
decreasing_by
  have bounds := find_bounds some_ ‹find b sep start = some p›
  have positive := List.length_pos_iff.mpr some_
  omega

/-- The pieces without the empty ones at the end. -/
def popEmpty (parts : List (List UInt8)) : List (List UInt8) :=
  parts.rdropWhile List.isEmpty

/-- The pieces of the blank separator. -/
def splitBlank (b : List UInt8) (given : Option Int) : List (List UInt8) :=
  let limit := given.getD 0
  let limP := decide (limit > 0) && given.isSome
  let cut := fieldsFrom b limit limP (if given.isSome then 1 else 0) 0 0 0 true
  let parts :=
    if b ≠ [] ∧ (limP = true ∨ b.length > cut.2 ∨ limit < 0) then
      cut.1 ++ [b.drop (min cut.2 b.length)]
    else cut.1
  if limP = false ∧ limit = 0 then popEmpty parts else parts

/-- The pieces of the empty separator. -/
def splitCharacters (b : List UInt8) (chars : Bool) (limit : Int) :
    List (List UInt8) :=
  let cut := charactersFrom b (charsOf b chars) limit 0 (charsOf b chars)
  if cut.2 = false ∧ limit ≠ 0 ∧ b ≠ [] then cut.1 ++ [[]] else cut.1

/-- The pieces of another separator. -/
def splitSeparated
    (b sep : List UInt8)
    (some_ : sep ≠ [])
    (limit : Int) : List (List UInt8) :=
  let cut := separatedFrom b sep some_ limit 0 0
  let parts := if b ≠ [] then cut.1 ++ [b.drop cut.2] else cut.1
  if limit = 0 then popEmpty parts else parts

/-- `str_split`, on the bytes of the receiver and of the separator: no separator
is `nil`, no limit is one argument. -/
def strSplit
    (b : List UInt8)
    (chars : Bool)
    (sep : Option (List UInt8))
    (given : Option Int) : List (List UInt8) :=
  let limit := given.getD 0
  if given.isSome ∧ limit = 1 then if b = [] then [] else [b]
  else
    match sep with
    | none => splitBlank b given
    | some sep =>
        if sep = [32] then splitBlank b given
        else if some_ : sep = [] then splitCharacters b chars limit
        else splitSeparated b sep some_ limit

/-! ## Empty pieces at the end -/

theorem popEmpty_append_nil (parts : List (List UInt8)) :
    popEmpty (parts ++ [[]]) = popEmpty parts :=
  List.rdropWhile_concat_pos _ _ _ rfl

theorem popEmpty_of_ne_nil
    (nonempty : ∀ piece ∈ parts, piece ≠ []) :
    popEmpty parts = parts := by
  apply List.rdropWhile_eq_self_iff.mpr
  intro some_ empty
  exact nonempty _ (List.getLast_mem some_) (List.isEmpty_iff.mp empty)

/-! ## Between characters -/

section Characters

variable {b : List UInt8} {chars : Bool} {limit : Int}

theorem charsOfFrom_flatten (b : List UInt8) (chars : Bool) (i : Nat) :
    (charsOfFrom b chars i).flatten = b.drop i := by
  fun_induction charsOfFrom b chars i with
  | case1 i inside ih =>
      rw [List.flatten_cons, ih, ← List.drop_drop, List.take_append_drop]
  | case2 i outside =>
      rw [List.flatten_nil, List.drop_eq_nil_of_le (Nat.le_of_not_lt outside)]

theorem charsOfFrom_ne_nil (b : List UInt8) (chars : Bool) (i : Nat) :
    ∀ c ∈ charsOfFrom b chars i, c ≠ [] := by
  fun_induction charsOfFrom b chars i with
  | case1 i inside ih =>
      rw [List.forall_mem_cons]
      refine ⟨?_, ih⟩
      have positive := utf8len_pos b i chars
      apply List.ne_nil_of_length_pos
      rw [List.length_take, List.length_drop]
      omega
  | case2 i outside => simp

theorem charactersFrom_flatten
    {front cs : List (List UInt8)}
    (whole : (front ++ cs).flatten = b) :
    (charactersFrom b (front ++ cs) limit front.length cs).1.flatten =
      cs.flatten := by
  induction cs generalizing front with
  | nil => rfl
  | cons c cs ih =>
      rw [charactersFrom]
      split
      · rw [List.take_left, ← List.length_flatten, ← whole, List.flatten_append,
          List.drop_left, List.flatten_singleton]
      · have next := @ih (front ++ [c]) (by simpa using whole)
        rw [List.length_append, List.length_singleton, List.append_assoc,
          List.singleton_append] at next
        rw [List.flatten_cons, next, List.flatten_cons]

theorem charactersFrom_length
    (all : List (List UInt8))
    {i : Nat}
    (cs : List (List UInt8))
    (positive : 0 < limit)
    (room : (i : Int) ≤ limit - 1) :
    let cut := charactersFrom b all limit i cs
    (i : Int) + cut.1.length + (if cut.2 then 0 else 1) ≤ limit := by
  induction cs generalizing i with
  | nil =>
      simp only [charactersFrom, List.length_nil, Bool.false_eq_true, if_false]
      omega
  | cons c cs ih =>
      rw [charactersFrom]
      split
      · simp only [List.length_singleton, if_true]
        omega
      · rename_i more
        have next := @ih (i + 1) (by omega)
        simp only [List.length_cons] at next ⊢
        omega

/-- All pieces but a rest are characters. -/
theorem charactersFrom_mem
    (all : List (List UInt8))
    (i : Nat)
    (cs : List (List UInt8)) :
    let cut := charactersFrom b all limit i cs
    (cut.2 = false → cut.1 = cs) ∧ ∀ piece ∈ cut.1.dropLast, piece ∈ cs := by
  induction cs generalizing i with
  | nil => exact ⟨fun _ => rfl, List.forall_mem_nil _⟩
  | cons c cs ih =>
      rw [charactersFrom]
      split
      · refine ⟨fun none_ => ?_, List.forall_mem_nil _⟩
        cases none_
      · obtain ⟨whole, members⟩ := ih (i + 1)
        refine ⟨fun uncut => congrArg (c :: ·) (whole uncut), ?_⟩
        intro piece mem
        change piece ∈ (c :: (charactersFrom b all limit (i + 1) cs).1).dropLast
          at mem
        by_cases last : (charactersFrom b all limit (i + 1) cs).1 = []
        · rw [last] at mem
          cases mem
        · rw [List.dropLast_cons_of_ne_nil last, List.mem_cons] at mem
          rcases mem with here | later
          · exact here ▸ List.mem_cons_self
          · exact List.mem_cons_of_mem c (members piece later)

theorem charactersFrom_unlimited
    (all : List (List UInt8))
    (i : Nat)
    (cs : List (List UInt8))
    (unlimited : limit ≤ 0) :
    charactersFrom b all limit i cs = (cs, false) := by
  induction cs generalizing i with
  | nil => rfl
  | cons c cs ih =>
      rw [charactersFrom, if_neg (by omega), ih]

theorem splitCharacters_flatten :
    (splitCharacters b chars limit).flatten = b := by
  have whole : (charsOf b chars).flatten = b := charsOfFrom_flatten b chars 0
  have cut := @charactersFrom_flatten b limit [] (charsOf b chars) whole
  rw [List.nil_append, List.length_nil, whole] at cut
  simp only [splitCharacters]
  split
  · rw [List.flatten_append, cut]
    exact List.append_nil b
  · exact cut

theorem splitCharacters_length (positive : 1 < limit) :
    ((splitCharacters b chars limit).length : Int) ≤ limit := by
  have bound := @charactersFrom_length b limit (charsOf b chars) 0
    (charsOf b chars) (by omega) (by omega)
  simp only [Int.natCast_zero, Int.zero_add] at bound
  simp only [splitCharacters]
  split
  · rename_i more
    rw [more.1, if_neg Bool.false_ne_true] at bound
    rw [List.length_append, List.length_singleton]
    omega
  · split at bound <;> omega

/-- Every piece but the last one is a character. -/
theorem splitCharacters_mem :
    ∀ piece ∈ (splitCharacters b chars limit).dropLast,
      piece ∈ charsOf b chars := by
  obtain ⟨whole, members⟩ := @charactersFrom_mem b limit (charsOf b chars) 0
    (charsOf b chars)
  simp only [splitCharacters]
  split
  · rename_i more
    rw [List.dropLast_concat, whole more.1]
    exact fun _ mem => mem
  · exact members

theorem splitCharacters_popEmpty :
    splitCharacters b chars 0 = popEmpty (splitCharacters b chars (-1)) := by
  have nonempty : ∀ c ∈ charsOf b chars, c ≠ [] := charsOfFrom_ne_nil b chars 0
  have never : (-1 : Int) ≤ 0 := by decide
  simp only [splitCharacters, charactersFrom_unlimited _ _ _ (Int.le_refl 0),
    charactersFrom_unlimited _ _ _ never]
  rw [if_neg (by simp)]
  split
  · rw [popEmpty_append_nil, popEmpty_of_ne_nil nonempty]
  · rw [popEmpty_of_ne_nil nonempty]

end Characters

/-! ## At a separator -/

section Separated

variable {b sep : List UInt8} {some_ : sep ≠ []} {limit : Int} {start n : Nat}

/-- The scan of a piece and the separator behind it finds that separator. -/
def Scanned (sep piece : List UInt8) : Prop :=
  ∀ k < piece.length, ¬ sep <+: (piece ++ sep).drop k

theorem Scanned.not_infix
    (nonempty : sep ≠ [])
    (scanned : Scanned sep piece) :
    ¬ sep <:+: piece := by
  rintro ⟨front, back, rfl⟩
  have positive := List.length_pos_iff.mpr nonempty
  apply scanned front.length
  · simp only [List.length_append]
    omega
  · rw [List.append_assoc, List.append_assoc, List.drop_left]
    exact List.prefix_append _ _

theorem separatedFrom_none (missing : find b sep start = none) :
    separatedFrom b sep some_ limit start n = ([], start) := by
  rw [separatedFrom]
  split
  · rfl
  · rename_i found
    rw [missing] at found
    cases found

theorem separatedFrom_some {p : Nat} (found : find b sep start = some p) :
    separatedFrom b sep some_ limit start n =
      if limit > 0 ∧ (n : Int) = limit - 1 then ([], start)
      else
        let rest := separatedFrom b sep some_ limit (p + sep.length) (n + 1)
        ((b.drop start).take (p - start) :: rest.1, rest.2) := by
  rw [separatedFrom]
  split
  · rename_i missing
    rw [found] at missing
    cases missing
  · rename_i p' found'
    rw [found] at found'
    cases found'
    rfl

/-- The place of a piece, of the separator behind it and of the rest. -/
theorem piece_append
    (nonempty : sep ≠ [])
    (found : find b sep start = some p) :
    (b.drop start).take (p - start) ++ sep ++ b.drop (p + sep.length) =
      b.drop start := by
  obtain ⟨after, _, stands⟩ := find_bounds nonempty found
  have behind : sep ++ b.drop (p + sep.length) = b.drop p := by
    have taken := List.prefix_iff_eq_take.mp stands
    rw [← List.drop_drop]
    conv_lhs => rw [taken]
    rw [List.length_take_of_le stands.length_le, List.take_append_drop]
  rw [List.append_assoc, behind]
  conv_lhs =>
    rw [show p = start + (p - start) by omega, ← List.drop_drop,
      Nat.add_sub_cancel_left]
  exact List.take_append_drop _ _

theorem piece_scanned
    (nonempty : sep ≠ [])
    (found : find b sep start = some p) :
    Scanned sep ((b.drop start).take (p - start)) := by
  intro k below stands
  obtain ⟨after, _, _⟩ := find_bounds nonempty found
  have least := ((find_iff nonempty start p).mp found).2
  rw [List.length_take] at below
  have whole := piece_append nonempty found
  have early : sep <+: b.drop (start + k) := by
    rw [← List.drop_drop, ← whole, List.drop_append_of_le_length]
    · exact stands.trans (List.prefix_append _ _)
    · rw [List.length_append, List.length_take]
      omega
  have later := least ⟨Nat.le_add_right start k, early⟩
  omega

/-- One step of the loop. -/
theorem separatedFrom_cases :
    separatedFrom b sep some_ limit start n = ([], start) ∧
        (find b sep start = none ∨ limit > 0 ∧ (n : Int) = limit - 1) ∨
      ∃ p, find b sep start = some p ∧
        ¬ (limit > 0 ∧ (n : Int) = limit - 1) ∧
        separatedFrom b sep some_ limit start n =
          ((b.drop start).take (p - start) ::
            (separatedFrom b sep some_ limit (p + sep.length) (n + 1)).1,
          (separatedFrom b sep some_ limit (p + sep.length) (n + 1)).2) := by
  cases found : find b sep start with
  | none => exact Or.inl ⟨separatedFrom_none found, Or.inl rfl⟩
  | some p =>
      rw [separatedFrom_some found]
      split
      · rename_i full
        exact Or.inl ⟨rfl, Or.inr full⟩
      · rename_i more
        exact Or.inr ⟨p, rfl, more, rfl⟩

/-- What the loop answers. -/
theorem separatedFrom_spec (some_ : sep ≠ []) (limit : Int) (start n : Nat) :
    let cut := separatedFrom b sep some_ limit start n
    sep.intercalate (cut.1 ++ [b.drop cut.2]) = b.drop start ∧
      (0 < limit → (n : Int) ≤ limit - 1 →
        (n : Int) + cut.1.length ≤ limit - 1) ∧
      (∀ piece ∈ cut.1, Scanned sep piece) ∧
      (limit ≤ 0 → cut = separatedFrom b sep some_ 0 start n) := by
  rcases @separatedFrom_cases b sep some_ limit start n with
    ⟨stop, why⟩ | ⟨p, found, more, next⟩
  · rw [stop]
    refine ⟨List.intercalate_singleton, fun _ room => ?_, ?_,
      fun unlimited => ?_⟩
    · simpa using room
    · exact fun _ none_ => nomatch none_
    · rcases why with missing | full
      · exact (separatedFrom_none missing).symm
      · omega
  · obtain ⟨joined, bound, scanned, same⟩ :=
      separatedFrom_spec some_ limit (p + sep.length) (n + 1)
    rw [next]
    refine ⟨?_, fun positive room => ?_, ?_, fun unlimited => ?_⟩
    · rw [List.cons_append, List.intercalate_cons_of_ne_nil (by simp), joined]
      exact piece_append some_ found
    · have inner := bound positive (by omega)
      rw [List.length_cons]
      omega
    · rw [List.forall_mem_cons]
      exact ⟨piece_scanned some_ found, scanned⟩
    · rw [separatedFrom_some found, if_neg (by omega), same unlimited]
termination_by b.length - start
decreasing_by
  have bounds := find_bounds some_ ‹find b sep start = some p›
  have positive := List.length_pos_iff.mpr some_
  omega

theorem splitSeparated_join (limited : limit ≠ 0) :
    sep.intercalate (splitSeparated b sep some_ limit) = b := by
  have cut := (@separatedFrom_spec b sep some_ limit 0 0).1
  rw [List.drop_zero] at cut
  simp only [splitSeparated, if_neg limited]
  split
  · exact cut
  · rename_i empty
    rw [not_not] at empty
    subst empty
    have missing : find [] sep 0 = none := by
      rw [find, if_neg some_]
      exact if_pos (Nat.le_refl 0)
    rw [separatedFrom_none missing]
    rfl

theorem splitSeparated_length (positive : 0 < limit) :
    ((splitSeparated b sep some_ limit).length : Int) ≤ limit := by
  have bound := (@separatedFrom_spec b sep some_ limit 0 0).2.1 positive
    (by omega)
  simp only [splitSeparated, if_neg (Int.ne_of_gt positive)]
  split
  · rw [List.length_append, List.length_singleton]
    omega
  · omega

theorem mem_dropLast_popEmpty
    (mem : piece ∈ (popEmpty parts).dropLast) :
    piece ∈ parts.dropLast := by
  obtain ⟨rest, whole⟩ := List.rdropWhile_prefix List.isEmpty parts
  rw [popEmpty] at mem
  rw [← whole]
  cases rest with
  | nil => rwa [List.append_nil]
  | cons x rest =>
      rw [List.dropLast_append_of_ne_nil (List.cons_ne_nil x rest)]
      exact List.mem_append_left _ (List.dropLast_subset _ mem)

theorem splitSeparated_scanned :
    ∀ piece ∈ (splitSeparated b sep some_ limit).dropLast,
      Scanned sep piece := by
  have scanned := (@separatedFrom_spec b sep some_ limit 0 0).2.2.1
  have parts : ∀ piece ∈ (if b ≠ [] then
      (separatedFrom b sep some_ limit 0 0).1 ++
        [b.drop (separatedFrom b sep some_ limit 0 0).2]
      else (separatedFrom b sep some_ limit 0 0).1).dropLast,
      Scanned sep piece := by
    split
    · rw [List.dropLast_concat]
      exact scanned
    · exact fun piece mem => scanned piece (List.dropLast_subset _ mem)
  simp only [splitSeparated]
  split
  · exact fun piece mem => parts piece (mem_dropLast_popEmpty mem)
  · exact parts

theorem splitSeparated_popEmpty :
    splitSeparated b sep some_ 0 =
      popEmpty (splitSeparated b sep some_ (-1)) := by
  have same := (@separatedFrom_spec b sep some_ (-1) 0 0).2.2.2 (by decide)
  have limited : (-1 : Int) ≠ 0 := by decide
  simp only [splitSeparated, same, if_true, if_neg limited]

end Separated

end SabiRuby.Strings
