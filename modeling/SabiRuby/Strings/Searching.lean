import Mathlib.Order.Bounds.Basic
import SabiRuby.Strings.Positions

/-!
# Searching a string

`index` searches the bytes forward and `rindex` the characters backward.  For a
needle of characters both answer the position of a character from which the
pieces of the needle occur.
-/

namespace SabiRuby.Strings

/-- The head of a byte is at most there. -/
theorem charHead_le (b : List UInt8) (i : Nat) : charHead b i true ≤ i := by
  by_cases inside : i < b.length
  · obtain ⟨k, -, position, low, -⟩ := charHead_spec inside
    omega
  · rw [charHead, if_pos (Or.inr (by omega))]
    exact Nat.min_le_left _ _

/-- `find`, by the windows of the needle's length. -/
def find (hay needle : List UInt8) (from_ : Nat) : Option Nat :=
  if needle = [] then if from_ ≤ hay.length then some from_ else none
  else if from_ ≥ hay.length then none
  else
    ((List.range (hay.length - from_ + 1 - needle.length)).find? fun p =>
      ((hay.drop from_).drop p).take needle.length = needle).map (· + from_)

/-- `rfind`. -/
def rfind (hay needle : List UInt8) (pos : Nat) : Option Nat :=
  if hay.length < needle.length then none
  else
    let pos := min pos (hay.length - needle.length)
    if needle = [] then some pos
    else (List.range (pos + 1)).reverse.find? fun i =>
      (hay.drop i).take needle.length = needle

/-- The loop of `char_rfind` from a head on. -/
def charRfindFrom (hay needle : List UInt8) (pos : Nat) : Option Nat :=
  if hay.length - pos ≥ needle.length ∧
      (hay.drop pos).take needle.length = needle then some pos
  else if pos = 0 then none
  else charRfindFrom hay needle (charHead hay (pos - 1) true)
termination_by pos
decreasing_by
  have := charHead_le hay (pos - 1)
  omega

/-- `char_rfind`. -/
def charRfind (hay needle : List UInt8) (pos : Nat) (chars : Bool) :
    Option Nat :=
  if chars = false then rfind hay needle pos
  else if hay.length < needle.length then none
  else
    let pos := min pos (hay.length - needle.length)
    if needle = [] then some pos
    else charRfindFrom hay needle (charHead hay pos true)

/-- A position that may count back from the end. -/
def resolved (clen : Nat) (position : Int) : Option Nat :=
  if position < 0 then
    if position + clen < 0 then none else some (position + clen).toNat
  else some position.toNat

/-- `String#index`, of a needle that is read as the flag says. -/
def index
    (b n : List UInt8)
    (chars needleChars : Bool)
    (offset : Option Int) : Option Nat := do
  let clen := charLen b chars
  let from_ ← (offset.map (resolved clen)).getD (some 0)
  if from_ > clen then none
  else if validChars n needleChars = false then none
  else
    (find b n (charToByte b from_ chars)).map fun i => byteToChar b i chars

/-- `String#rindex`. -/
def rindex
    (b n : List UInt8)
    (chars needleChars : Bool)
    (pos : Option Int) : Option Nat := do
  let pos ← match pos with
    | some p =>
        (resolved (charLen b chars) p).map fun ci => charToByte b ci chars
    | none => some b.length
  if validChars n needleChars = false then none
  else (charRfind b n pos chars).map fun i => byteToChar b i chars

/-! ## Needles of characters -/

/-- A character: a byte of ASCII or a sequence. -/
def Character (p : List UInt8) : Prop :=
  (∃ c : UInt8, c.toNat < 128 ∧ p = [c]) ∨ Sequence p

theorem validCharsFrom_iff (b : List UInt8) (i : Nat) :
    validCharsFrom b true i = true ↔ ∀ p ∈ pieces (b.drop i), Character p := by
  fun_induction validCharsFrom b true i with
  | case1 i inside alone =>
      rw [pieces_drop inside, alone.1]
      constructor
      · intro is
        cases is
      · intro all
        have first := all _ List.mem_cons_self
        rw [List.drop_eq_getElem_cons inside, List.take_succ_cons,
          List.take_zero] at first
        have large := alone.2
        rw [List.getElem?_eq_getElem inside, Option.getD_some,
          UInt8.le_iff_toNat_le] at large
        change 128 ≤ b[i].toNat at large
        rcases first with ⟨c, small, is⟩ | seq
        · cases is
          omega
        · cases seq
  | case2 i inside fine ih =>
      have first : Character ((b.drop i).take (utf8len b i true)) := by
        have mem : (b.drop i).take (utf8len b i true) ∈ pieces (b.drop i) := by
          rw [pieces_drop inside]
          exact List.mem_cons_self
        rcases pieces_cases mem with one | seq
        · left
          rw [length_take_utf8len inside] at one
          refine ⟨b[i], ?_, ?_⟩
          · rw [one, List.getElem?_eq_getElem inside, Option.getD_some,
              UInt8.le_iff_toNat_le] at fine
            change ¬ (1 = 1 ∧ 128 ≤ b[i].toNat) at fine
            omega
          · rw [one, List.drop_eq_getElem_cons inside, List.take_succ_cons,
              List.take_zero]
        · exact Or.inr seq
      rw [ih, pieces_drop inside, List.forall_mem_cons]
      exact (and_iff_right first).symm
  | case3 i outside =>
      rw [pieces_drop_of_le (by omega)]
      simp

/-- A character at the beginning is the first piece. -/
theorem headLen_character
    (character : Character p)
    (rest : List UInt8) : headLen (p ++ rest) = p.length := by
  rcases character with ⟨c, small, rfl⟩ | seq
  · have claimed : claimedLength c = some 1 := by
      rw [claimedLength_eq, if_pos small]
    exact headLen_single rest (Or.inl claimed)
  · exact headLen_sequence seq rest

/-- Characters at the beginning are cut as they are alone. -/
theorem pieces_append
    (characters : ∀ p ∈ pieces n, Character p)
    (rest : List UInt8) : pieces (n ++ rest) = pieces n ++ pieces rest := by
  fun_induction pieces n with
  | case1 => rfl
  | case2 n some_ ih =>
      have first := characters _ List.mem_cons_self
      have tail := ih fun p mem => characters p (List.mem_cons_of_mem _ mem)
      have le := headLen_le some_
      have split : n ++ rest = n.take (headLen n) ++
          (n.drop (headLen n) ++ rest) := by
        rw [← List.append_assoc, List.take_append_drop]
      have head := headLen_character first (n.drop (headLen n) ++ rest)
      rw [← split] at head
      have nonempty : n ++ rest ≠ [] := by
        intro empty
        exact some_ (List.append_eq_nil_iff.mp empty).1
      rw [pieces_of_ne nonempty, head, split, List.take_left, List.drop_left,
        tail, List.cons_append]

/-- Characters are at the beginning of a string where they are of its pieces. -/
theorem prefix_iff
    (characters : ∀ p ∈ pieces n, Character p) :
    n <+: s ↔ pieces n <+: pieces s := by
  constructor
  · rintro ⟨rest, rfl⟩
    rw [pieces_append characters]
    exact List.prefix_append _ _
  · rintro ⟨rest, split⟩
    refine ⟨rest.flatten, ?_⟩
    rw [← flatten_pieces s, ← split, List.flatten_append, flatten_pieces]

/-- `valid_chars` accepts the strings of characters. -/
theorem validChars_iff (b : List UInt8) :
    validChars b true = true ↔ ∀ p ∈ pieces b, Character p := by
  rw [validChars, if_neg (by simp)]
  exact validCharsFrom_iff b 0

/-! ## Boundaries -/

/-- A character does not begin with a byte that goes on another. -/
theorem Character.first
    (character : Character p) : ∃ c rest, p = c :: rest ∧ ¬ Tail c := by
  rcases character with ⟨c, small, rfl⟩ | seq
  · refine ⟨c, [], rfl, ?_⟩
    rw [tail_iff]
    omega
  · cases seq with
    | @two a b low =>
        rw [UInt8.le_iff_toNat_le] at low
        change 194 ≤ a.toNat at low
        refine ⟨a, [b], rfl, ?_⟩
        rw [tail_iff]
        omega
    | @three a b c low =>
        rw [UInt8.le_iff_toNat_le] at low
        change 224 ≤ a.toNat at low
        refine ⟨a, [b, c], rfl, ?_⟩
        rw [tail_iff]
        omega
    | @four a b c d low =>
        rw [UInt8.le_iff_toNat_le] at low
        change 240 ≤ a.toNat at low
        refine ⟨a, [b, c, d], rfl, ?_⟩
        rw [tail_iff]
        omega

/-- The bytes of a sequence behind its first go it on. -/
theorem Sequence.tail
    (seq : Sequence q)
    (behind : 1 ≤ j)
    (inside : j < q.length) : Tail q[j] := by
  cases seq with
  | @two a b low high tailB =>
      change j < 2 at inside
      have place : j = 1 := by omega
      subst place
      exact tailB
  | @three a b c low high first last tailB tailC =>
      change j < 3 at inside
      have places : j = 1 ∨ j = 2 := by omega
      rcases places with rfl | rfl
      · exact tailB
      · exact tailC
  | @four a b c d low high first last tailB tailC tailD =>
      change j < 4 at inside
      have places : j = 1 ∨ j = 2 ∨ j = 3 := by omega
      rcases places with rfl | rfl | rfl
      · exact tailB
      · exact tailC
      · exact tailD

theorem offset_succ
    (ps : List (List UInt8))
    (lt : k < ps.length) : offset ps (k + 1) = offset ps k + ps[k].length := by
  rw [offset, offset, List.take_succ_eq_append_getElem lt,
    List.flatten_append, List.length_append, List.flatten_singleton]

/-- From a boundary on stand the piece there and what follows it. -/
theorem drop_offset
    (b : List UInt8)
    (lt : k < (pieces b).length) :
    b.drop (offset (pieces b) k) =
      (pieces b)[k] ++ ((pieces b).drop (k + 1)).flatten := by
  rw [← flatten_pieces (b.drop _), pieces_drop_offset,
    List.drop_eq_getElem_cons lt, List.flatten_cons]

/-- Characters stand at boundaries only. -/
theorem boundary_of_occurs
    (characters : ∀ p ∈ pieces n, Character p)
    (some_ : n ≠ [])
    (here : n <+: b.drop i) :
    ∃ k, k < (pieces b).length ∧ i = offset (pieces b) k := by
  have inside : i < b.length := by
    have length := here.length_le
    have positive := List.length_pos_iff.mpr some_
    rw [List.length_drop] at length
    omega
  obtain ⟨k, lt, -, low, high⟩ := charHead_spec inside
  refine ⟨k, lt, ?_⟩
  by_contra apart
  -- the byte is behind the first one of its piece, so it goes a sequence on
  obtain ⟨j, rfl⟩ := Nat.exists_eq_add_of_le low
  rw [offset_succ _ lt] at high
  have behind : j < (pieces b)[k].length := by omega
  have tail : Tail b[offset (pieces b) k + j] := by
    rcases pieces_cases (List.getElem_mem lt) with one | seq
    · omega
    · have byte : b[offset (pieces b) k + j]? = some (pieces b)[k][j] := by
        rw [← List.getElem?_drop, drop_offset b lt,
          List.getElem?_append_left behind, List.getElem?_eq_getElem behind]
      rw [List.getElem?_eq_getElem inside, Option.some.injEq] at byte
      rw [byte]
      exact seq.tail (by omega) behind
  -- the needle begins with a character, which does not
  have character : Character (n.take (headLen n)) := by
    apply characters
    rw [pieces_of_ne some_]
    exact List.mem_cons_self
  obtain ⟨c, rest, is, notTail⟩ := character.first
  obtain ⟨suffix, whole⟩ := here
  have first : b[offset (pieces b) k + j] = c := by
    have byte : (b.drop (offset (pieces b) k + j))[0]? = some c := by
      rw [← whole, ← List.take_append_drop (headLen n) n, is]
      rfl
    rw [List.getElem?_drop, Nat.add_zero, List.getElem?_eq_getElem inside,
      Option.some.injEq] at byte
    exact byte
  rw [first] at tail
  exact notTail tail

/-! ## Occurrences -/

/-- The pieces of a needle occur from a character on. -/
def Occurs (b n : List UInt8) (k : Nat) : Prop :=
  k ≤ (charsOf b true).length ∧ charsOf n true <+: (charsOf b true).drop k

/-- Pieces occur where the bytes stand from the boundary on. -/
theorem occurs_iff
    (characters : ∀ p ∈ pieces n, Character p)
    (k : Nat) :
    Occurs b n k ↔
      k ≤ (pieces b).length ∧ n <+: b.drop (offset (pieces b) k) := by
  rw [Occurs, charsOf_eq, charsOf_eq, prefix_iff characters,
    pieces_drop_offset]

/-- `find` answers the least byte from which the needle stands. -/
theorem find_iff
    (some_ : needle ≠ [])
    (from_ i : Nat) :
    find hay needle from_ = some i ↔
      IsLeast {i | from_ ≤ i ∧ needle <+: hay.drop i} i := by
  have positive := List.length_pos_iff.mpr some_
  have window : ∀ p, ((hay.drop from_).drop p).take needle.length = needle ↔
      needle <+: hay.drop (from_ + p) := by
    intro p
    rw [List.drop_drop, List.prefix_iff_eq_take]
    exact eq_comm
  rw [find, if_neg some_]
  split
  case isTrue beyond =>
    constructor
    · intro is
      cases is
    · rintro ⟨⟨after, here⟩, -⟩
      have length := here.length_le
      rw [List.length_drop] at length
      omega
  case isFalse =>
    rw [Option.map_eq_some_iff]
    constructor
    · rintro ⟨p, found, rfl⟩
      rw [List.find?_range_eq_some, decide_eq_true_eq, window] at found
      obtain ⟨here, inside, none⟩ := found
      rw [Nat.add_comm]
      refine ⟨⟨Nat.le_add_right _ _, here⟩, ?_⟩
      rintro j ⟨after, there⟩
      by_contra below
      have never := none (j - from_) (by omega)
      rw [Bool.not_eq_true', decide_eq_false_iff_not, window,
        (by omega : from_ + (j - from_) = j)] at never
      exact never there
    · rintro ⟨⟨after, here⟩, least⟩
      refine ⟨i - from_, ?_, by omega⟩
      rw [List.find?_range_eq_some, decide_eq_true_eq, window,
        (by omega : from_ + (i - from_) = i)]
      refine ⟨here, ?_, ?_⟩
      · have length := here.length_le
        rw [List.length_drop] at length
        rw [List.mem_range]
        omega
      · intro j below
        rw [Bool.not_eq_true', decide_eq_false_iff_not, window]
        intro there
        have atLeast := least ⟨Nat.le_add_right from_ j, there⟩
        omega

/-- Of the characters up to one more, the greatest is that one or is among the
others. -/
theorem isGreatest_succ (P : Nat → Prop) (m k : Nat) :
    IsGreatest {k | k ≤ m + 1 ∧ P k} k ↔
      (P (m + 1) ∧ k = m + 1) ∨
        (¬ P (m + 1) ∧ IsGreatest {k | k ≤ m ∧ P k} k) := by
  constructor
  · rintro ⟨⟨le, here⟩, greatest⟩
    by_cases last : P (m + 1)
    · have atLeast := greatest ⟨Nat.le_refl _, last⟩
      exact Or.inl ⟨last, by omega⟩
    · right
      refine ⟨last, ⟨?_, here⟩, ?_⟩
      · by_contra above
        have is : k = m + 1 := by omega
        rw [is] at here
        exact last here
      · rintro j ⟨below, there⟩
        exact greatest ⟨by omega, there⟩
  · rintro (⟨last, rfl⟩ | ⟨notLast, ⟨le, here⟩, greatest⟩)
    · exact ⟨⟨Nat.le_refl _, last⟩, fun j mem => mem.1⟩
    · refine ⟨⟨by omega, here⟩, ?_⟩
      rintro j ⟨below, there⟩
      apply greatest
      refine ⟨?_, there⟩
      by_contra above
      have is : j = m + 1 := by omega
      rw [is] at there
      exact notLast there

theorem isGreatest_zero (P : Nat → Prop) (k : Nat) :
    IsGreatest {k | k ≤ 0 ∧ P k} k ↔ P 0 ∧ k = 0 := by
  constructor
  · rintro ⟨⟨le, here⟩, -⟩
    have is : k = 0 := by omega
    rw [is] at here
    exact ⟨here, is⟩
  · rintro ⟨here, rfl⟩
    exact ⟨⟨Nat.le_refl 0, here⟩, fun j mem => mem.1⟩

/-- The head of the byte before a boundary is the boundary before. -/
theorem charHead_pred
    (b : List UInt8)
    (lt : m < (pieces b).length) :
    charHead b (offset (pieces b) (m + 1) - 1) true = offset (pieces b) m := by
  have nonempty : ∀ p ∈ pieces b, p ≠ [] := fun p mem => pieces_ne_nil mem
  have more := offset_lt_succ nonempty lt
  have atMost := offset_le b (m + 1)
  obtain ⟨k, inside, position, low, high⟩ :=
    charHead_spec (by omega : offset (pieces b) (m + 1) - 1 < b.length)
  rw [position]
  apply congrArg
  by_contra apart
  rcases Nat.lt_or_gt_of_ne apart with below | above
  · have mono := offset_mono (pieces b) (by omega : k + 1 ≤ m)
    omega
  · have mono := offset_mono (pieces b) (by omega : m + 1 ≤ k)
    omega

/-- The window of `char_rfind` is where the needle stands. -/
theorem window_iff (hay needle : List UInt8) (pos : Nat) :
    (hay.length - pos ≥ needle.length ∧
      (hay.drop pos).take needle.length = needle) ↔
        needle <+: hay.drop pos := by
  rw [List.prefix_iff_eq_take]
  constructor
  · rintro ⟨-, is⟩
    exact is.symm
  · intro is
    refine ⟨?_, is.symm⟩
    have length := congrArg List.length is
    rw [List.length_take, List.length_drop] at length
    omega

/-- From a boundary on the loop of `char_rfind` answers the greatest character
at which the needle stands. -/
theorem charRfindFrom_iff
    (hay needle : List UInt8)
    (inside : m ≤ (pieces hay).length)
    (k : Nat) :
    (charRfindFrom hay needle (offset (pieces hay) m)).map
        (fun i => byteToChar hay i true) = some k ↔
      IsGreatest {k | k ≤ m ∧ needle <+: hay.drop (offset (pieces hay) k)}
        k := by
  induction m with
  | zero =>
      rw [charRfindFrom, offset_zero, isGreatest_zero, offset_zero]
      split
      case isTrue window =>
        have here := (window_iff hay needle 0).mp window
        have start := byteToChar_offset hay (Nat.zero_le _)
        rw [offset_zero] at start
        rw [Option.map_some, start, Option.some.injEq]
        constructor
        · rintro rfl
          exact ⟨here, rfl⟩
        · rintro ⟨-, rfl⟩
          rfl
      case isFalse window =>
        have none := mt (window_iff hay needle 0).mpr window
        rw [if_pos rfl]
        constructor
        · intro is
          cases is
        · rintro ⟨here, -⟩
          exact absurd here none
  | succ m ih =>
      have nonempty : ∀ p ∈ pieces hay, p ≠ [] := fun p mem => pieces_ne_nil mem
      have positive := offset_lt_succ nonempty inside
      rw [charRfindFrom, isGreatest_succ]
      split
      case isTrue window =>
        have here := (window_iff hay needle _).mp window
        rw [Option.map_some, byteToChar_offset hay inside, Option.some.injEq]
        constructor
        · rintro rfl
          exact Or.inl ⟨here, rfl⟩
        · rintro (⟨-, rfl⟩ | ⟨none, -⟩)
          · rfl
          · exact absurd here none
      case isFalse window =>
        have none := mt (window_iff hay needle _).mpr window
        rw [if_neg (by omega), charHead_pred hay inside, ih (by omega)]
        constructor
        · intro greatest
          exact Or.inr ⟨none, greatest⟩
        · rintro (⟨here, -⟩ | ⟨-, greatest⟩)
          · exact absurd here none
          · exact greatest

end SabiRuby.Strings
