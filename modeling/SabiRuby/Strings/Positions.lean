import Mathlib.Data.List.GetD
import SabiRuby.Strings.Characters

/-!
# Positions of characters

The functions that count characters and find where they begin each walk the
string anew, some with a shortcut for ASCII.  They agree with the pieces into
which the string is cut.
-/

namespace SabiRuby.Strings

/-- A position moves on by at least one byte. -/
theorem utf8len_pos (b : List UInt8) (i : Nat) (chars : Bool) :
    1 ≤ utf8len b i chars := by
  cases chars with
  | false => exact Nat.le_refl 1
  | true =>
      rw [utf8len_eq]
      exact headLen_pos _

/-- The loop of `char_len` from a position on. -/
def charLenFrom (b : List UInt8) (chars : Bool) (i n : Nat) : Nat :=
  if i < b.length then charLenFrom b chars (i + utf8len b i chars) (n + 1)
  else n
termination_by b.length - i
decreasing_by
  have := utf8len_pos b i chars
  omega

/-- `char_len`. -/
def charLen (b : List UInt8) (chars : Bool) : Nat :=
  if chars = false then b.length
  else if isAscii b then b.length
  else charLenFrom b chars 0 0

/-- The loop of `char_to_byte` from a position on. -/
def charToByteFrom (b : List UInt8) (ci : Nat) (chars : Bool) (i n : Nat) :
    Nat :=
  if i < b.length ∧ n < ci then
    charToByteFrom b ci chars (i + utf8len b i chars) (n + 1)
  else i
termination_by b.length - i
decreasing_by
  have := utf8len_pos b i chars
  omega

/-- `char_to_byte`. -/
def charToByte (b : List UInt8) (ci : Nat) (chars : Bool) : Nat :=
  if chars = false then min ci b.length
  else
    let head := min ci b.length
    if isAscii (b.take head) then head else charToByteFrom b ci chars 0 0

/-- The loop of `byte_to_char` from a position on. -/
def byteToCharFrom (b : List UInt8) (bi : Nat) (chars : Bool) (i n : Nat) :
    Nat :=
  if i < b.length ∧ i < bi then
    byteToCharFrom b bi chars (i + utf8len b i chars) (n + 1)
  else n
termination_by b.length - i
decreasing_by
  have := utf8len_pos b i chars
  omega

/-- `byte_to_char`. -/
def byteToChar (b : List UInt8) (bi : Nat) (chars : Bool) : Nat :=
  if chars = false then bi else byteToCharFrom b bi chars 0 0

/-- The loop of `chars_of` from a position on. -/
def charsOfFrom (b : List UInt8) (chars : Bool) (i : Nat) : List (List UInt8) :=
  if i < b.length then
    (b.drop i).take (utf8len b i chars) ::
      charsOfFrom b chars (i + utf8len b i chars)
  else []
termination_by b.length - i
decreasing_by
  have := utf8len_pos b i chars
  omega

/-- `chars_of`. -/
def charsOf (b : List UInt8) (chars : Bool) : List (List UInt8) :=
  charsOfFrom b chars 0

/-- The loop of `char_head` from a position on. -/
def charHeadFrom (b : List UInt8) (i : Nat) (chars : Bool) (p : Nat) : Nat :=
  if p < b.length then
    if p + utf8len b p chars > i then p
    else charHeadFrom b i chars (p + utf8len b p chars)
  else p
termination_by b.length - p
decreasing_by
  have := utf8len_pos b p chars
  omega

/-- `char_head`. -/
def charHead (b : List UInt8) (i : Nat) (chars : Bool) : Nat :=
  if chars = false ∨ i ≥ b.length then min i b.length
  else charHeadFrom b i chars 0

/-- The loop of `valid_chars` from a position on. -/
def validCharsFrom (b : List UInt8) (chars : Bool) (i : Nat) : Bool :=
  if i < b.length then
    if utf8len b i chars = 1 ∧ 0x80 ≤ b[i]?.getD 0 then false
    else validCharsFrom b chars (i + utf8len b i chars)
  else true
termination_by b.length - i
decreasing_by
  have := utf8len_pos b i chars
  omega

/-- `valid_chars`. -/
def validChars (b : List UInt8) (chars : Bool) : Bool :=
  if chars = false then true else validCharsFrom b chars 0

/-! ## The pieces of what is left -/

/-- The pieces of a string, from its beginning on. -/
def pieces (s : List UInt8) : List (List UInt8) :=
  if s = [] then []
  else s.take (headLen s) :: pieces (s.drop (headLen s))
termination_by s.length
decreasing_by
  have := headLen_pos s
  have some_ := List.length_pos_iff.mpr ‹s ≠ []›
  rw [List.length_drop]
  omega

theorem pieces_nil : pieces [] = [] := by
  rw [pieces]
  rfl

theorem pieces_of_ne {s : List UInt8} (some_ : s ≠ []) :
    pieces s = s.take (headLen s) :: pieces (s.drop (headLen s)) := by
  rw [pieces, if_neg some_]

theorem drop_ne_nil {b : List UInt8} {i : Nat} (inside : i < b.length) :
    b.drop i ≠ [] := by
  intro empty
  have length := congrArg List.length empty
  rw [List.length_drop, List.length_nil] at length
  omega

/-- From a position on the string has its first character and the pieces from
behind it on. -/
theorem drop_eq_cons {b : List UInt8} {i : Nat} (inside : i < b.length) :
    b.drop i = b.getD i 0 :: b.drop (i + 1) := by
  rw [List.getD_eq_getElem _ _ inside]
  exact List.drop_eq_getElem_cons inside

theorem pieces_drop {b : List UInt8} {i : Nat} (inside : i < b.length) :
    pieces (b.drop i) =
      (b.drop i).take (utf8len b i true) ::
        pieces (b.drop (i + utf8len b i true)) := by
  rw [pieces_of_ne (drop_ne_nil inside), ← utf8len_eq, List.drop_drop]

theorem pieces_drop_of_le {b : List UInt8} {i : Nat} (outside : b.length ≤ i) :
    pieces (b.drop i) = [] := by
  rw [List.drop_eq_nil_of_le outside, pieces_nil]

theorem charsOf_eq (b : List UInt8) : charsOf b true = pieces b := by
  suffices from_ : ∀ i, charsOfFrom b true i = pieces (b.drop i) from from_ 0
  intro i
  fun_induction charsOfFrom b true i with
  | case1 i inside ih => rw [pieces_drop inside, ih]
  | case2 i outside => rw [pieces_drop_of_le (by omega)]

theorem charLenFrom_eq (b : List UInt8) (i n : Nat) :
    charLenFrom b true i n = n + (pieces (b.drop i)).length := by
  fun_induction charLenFrom b true i n with
  | case1 i n inside ih =>
      rw [pieces_drop inside, ih, List.length_cons]
      omega
  | case2 i n outside =>
      rw [pieces_drop_of_le (by omega), List.length_nil, Nat.add_zero]

/-- The bytes of the first pieces. -/
def offset (ps : List (List UInt8)) (k : Nat) : Nat := (ps.take k).flatten.length

theorem offset_cons (p : List UInt8) (ps : List (List UInt8)) (k : Nat) :
    offset (p :: ps) (k + 1) = p.length + offset ps k := by
  rw [offset, List.take_succ_cons, List.flatten_cons, List.length_append,
    offset]

theorem length_take_utf8len {b : List UInt8} {i : Nat} (inside : i < b.length) :
    ((b.drop i).take (utf8len b i true)).length = utf8len b i true := by
  have le := headLen_le (drop_ne_nil inside)
  rw [← utf8len_eq] at le
  rw [List.length_take]
  omega

theorem charToByteFrom_eq (b : List UInt8) (ci i n : Nat)
    (inside : i ≤ b.length) :
    charToByteFrom b ci true i n = i + offset (pieces (b.drop i)) (ci - n) := by
  fun_induction charToByteFrom b ci true i n with
  | case1 i n more ih =>
      have le := headLen_le (drop_ne_nil more.1)
      rw [← utf8len_eq, List.length_drop] at le
      obtain ⟨k, left⟩ : ∃ k, ci - n = k + 1 := ⟨ci - n - 1, by omega⟩
      have rest : ci - (n + 1) = k := by omega
      rw [ih (by omega), pieces_drop more.1, left, offset_cons,
        length_take_utf8len more.1, rest]
      omega
  | case2 i n done =>
      by_cases outside : i < b.length
      · have none : ci - n = 0 := by omega
        rw [none]
        rfl
      · rw [pieces_drop_of_le (by omega), offset, List.take_nil]
        rfl

/-! ## The pieces and the string -/

theorem flatten_pieces (s : List UInt8) : (pieces s).flatten = s := by
  fun_induction pieces s with
  | case1 => rfl
  | case2 s some_ ih => rw [List.flatten_cons, ih, List.take_append_drop]

/-- A piece is a single byte or a sequence. -/
theorem pieces_cases {s p : List UInt8} (mem : p ∈ pieces s) :
    p.length = 1 ∨ Sequence p := by
  fun_induction pieces s with
  | case1 => cases mem
  | case2 s some_ ih =>
      rcases List.mem_cons.mp mem with rfl | mem
      · cases s with
        | nil => exact absurd rfl some_
        | cons c rest =>
            rcases headLen_cases c rest with one | ⟨q, suffix, seq, split, length⟩
            · left
              rw [one]
              rfl
            · right
              rw [length, split, List.take_left]
              exact seq
      · exact ih mem

theorem pieces_ne_nil {s p : List UInt8} (mem : p ∈ pieces s) : p ≠ [] := by
  rintro rfl
  rcases pieces_cases mem with one | seq
  · cases one
  · cases seq

theorem offset_zero (ps : List (List UInt8)) : offset ps 0 = 0 := rfl

theorem offset_length (s : List UInt8) :
    offset (pieces s) (pieces s).length = s.length := by
  rw [offset, List.take_length, flatten_pieces]

/-- Behind a piece the bytes are more. -/
theorem offset_lt_succ
    (nonempty : ∀ p ∈ ps, p ≠ [])
    (lt : k < ps.length) : offset ps k < offset ps (k + 1) := by
  rw [offset, offset, List.take_succ_eq_append_getElem lt,
    List.flatten_append, List.length_append, List.flatten_singleton]
  have some_ := List.length_pos_iff.mpr (nonempty _ (List.getElem_mem lt))
  omega

theorem offset_mono (ps : List (List UInt8)) {k l : Nat} (le : k ≤ l) :
    offset ps k ≤ offset ps l := by
  have split := List.take_append_drop k (ps.take l)
  rw [List.take_take, Nat.min_eq_left le] at split
  rw [offset, offset, ← split, List.flatten_append, List.length_append]
  omega

theorem offset_strictMono
    (nonempty : ∀ p ∈ ps, p ≠ [])
    (lt : k < l)
    (le : l ≤ ps.length) : offset ps k < offset ps l :=
  Nat.lt_of_lt_of_le (offset_lt_succ nonempty (by omega)) (offset_mono ps lt)

theorem offset_le (s : List UInt8) (k : Nat) :
    offset (pieces s) k ≤ s.length := by
  have whole := congrArg List.length
    (congrArg List.flatten (List.take_append_drop k (pieces s)))
  rw [List.flatten_append, List.length_append, flatten_pieces] at whole
  rw [offset]
  omega

/-- What stands from a boundary on has the pieces from there on. -/
theorem pieces_drop_offset (s : List UInt8) (k : Nat) :
    pieces (s.drop (offset (pieces s) k)) = (pieces s).drop k := by
  induction k generalizing s with
  | zero => rfl
  | succ k ih =>
      by_cases empty : s = []
      · subst empty
        rw [List.drop_nil, pieces_nil, List.drop_nil]
      · have le := headLen_le empty
        rw [pieces_of_ne empty, offset_cons, List.length_take,
          Nat.min_eq_left le, ← List.drop_drop, ih, List.drop_succ_cons]

theorem byteToCharFrom_offset
    (b : List UInt8)
    (bi i n k : Nat)
    (position : bi = i + offset (pieces (b.drop i)) k)
    (inside : k ≤ (pieces (b.drop i)).length) :
    byteToCharFrom b bi true i n = n + k := by
  fun_induction byteToCharFrom b bi true i n generalizing k with
  | case1 i n more ih =>
      obtain ⟨left, less⟩ := more
      cases k with
      | zero =>
          rw [offset_zero] at position
          omega
      | succ k =>
          rw [pieces_drop left, offset_cons, length_take_utf8len left]
            at position
          rw [pieces_drop left, List.length_cons] at inside
          rw [ih k (by omega) (by omega)]
          omega
  | case2 i n done =>
      cases k with
      | zero => rfl
      | succ k =>
          have more := offset_strictMono
            (fun p mem => pieces_ne_nil (s := b.drop i) mem)
            (by omega : 0 < k + 1) inside
          rw [offset_zero] at more
          have le := offset_le (b.drop i) (k + 1)
          rw [List.length_drop] at le
          omega

/-- The position of a boundary is the number of pieces before it. -/
theorem byteToChar_offset
    (b : List UInt8)
    (inside : k ≤ (pieces b).length) :
    byteToChar b (offset (pieces b) k) true = k := by
  rw [byteToChar, if_neg (by simp),
    byteToCharFrom_offset b _ 0 0 k (by rw [List.drop_zero, Nat.zero_add])
      inside, Nat.zero_add]

theorem charHeadFrom_spec
    (b : List UInt8)
    (i p : Nat)
    (below : p ≤ i)
    (inside : i < b.length) :
    ∃ k, k < (pieces (b.drop p)).length ∧
      charHeadFrom b i true p = p + offset (pieces (b.drop p)) k ∧
      p + offset (pieces (b.drop p)) k ≤ i ∧
      i < p + offset (pieces (b.drop p)) (k + 1) := by
  fun_induction charHeadFrom b i true p with
  | case1 p left beyond =>
      refine ⟨0, ?_, ?_, ?_, ?_⟩
      · rw [pieces_drop left, List.length_cons]
        omega
      · rw [offset_zero, Nat.add_zero]
      · rw [offset_zero]
        omega
      · rw [pieces_drop left, offset_cons, offset_zero,
          length_take_utf8len left]
        omega
  | case2 p left before ih =>
      obtain ⟨k, lt, position, low, high⟩ := ih (by omega)
      refine ⟨k + 1, ?_, ?_, ?_, ?_⟩
      · rw [pieces_drop left, List.length_cons]
        omega
      · rw [position, pieces_drop left, offset_cons, length_take_utf8len left]
        omega
      · rw [pieces_drop left, offset_cons, length_take_utf8len left]
        omega
      · rw [pieces_drop left, offset_cons, length_take_utf8len left]
        omega
  | case3 p outside => omega

/-- The head of a byte is where the piece around it begins. -/
theorem charHead_spec
    (inside : i < b.length) :
    ∃ k, k < (pieces b).length ∧ charHead b i true = offset (pieces b) k ∧
      offset (pieces b) k ≤ i ∧ i < offset (pieces b) (k + 1) := by
  obtain ⟨k, lt, position, low, high⟩ :=
    charHeadFrom_spec b i 0 (Nat.zero_le i) inside
  rw [List.drop_zero, Nat.zero_add] at position low
  rw [List.drop_zero, Nat.zero_add] at high
  refine ⟨k, lt, ?_, low, high⟩
  rw [charHead, if_neg]
  · exact position
  · rintro (is | outside)
    · cases is
    · omega

/-! ## ASCII -/

/-- Single bytes of ASCII are pieces of their own. -/
theorem pieces_ascii_append
    (ascii : isAscii front = true)
    (rest : List UInt8) :
    pieces (front ++ rest) = front.map (fun c => [c]) ++ pieces rest := by
  induction front with
  | nil => rfl
  | cons c front ih =>
      rw [isAscii, List.all_cons, Bool.and_eq_true, decide_eq_true_eq,
        UInt8.lt_iff_toNat_lt] at ascii
      have small : c.toNat < 128 := ascii.1
      have claimed : claimedLength c = some 1 := by
        rw [claimedLength_eq, if_pos small]
      have one := headLen_single (front ++ rest) (Or.inl claimed)
      rw [List.cons_append, pieces_of_ne (List.cons_ne_nil _ _), one,
        List.map_cons, List.cons_append]
      exact congrArg _ (ih ascii.2)

theorem offset_singles (front : List UInt8) (rest : List (List UInt8)) :
    offset (front.map (fun c => [c]) ++ rest) front.length = front.length := by
  induction front with
  | nil => rfl
  | cons c front ih =>
      rw [List.map_cons, List.cons_append, List.length_cons, offset_cons, ih,
        List.length_singleton]
      omega

/-- `char_len` is the number of the pieces. -/
theorem charLen_eq (b : List UInt8) : charLen b true = (pieces b).length := by
  rw [charLen, if_neg (by simp)]
  split
  case isTrue ascii =>
    have singles := pieces_ascii_append ascii []
    rw [List.append_nil, pieces_nil, List.append_nil] at singles
    rw [singles, List.length_map]
  case isFalse => rw [charLenFrom_eq, List.drop_zero, Nat.zero_add]

/-- `char_to_byte` is where a piece begins. -/
theorem charToByte_eq (b : List UInt8) (ci : Nat) :
    charToByte b ci true = offset (pieces b) ci := by
  rw [charToByte, if_neg (by simp)]
  dsimp only
  split
  case isTrue ascii =>
    have split_ := pieces_ascii_append ascii (b.drop (min ci b.length))
    rw [List.take_append_drop] at split_
    have front : (b.take (min ci b.length)).length = min ci b.length := by
      rw [List.length_take]
      omega
    have here := offset_singles (b.take (min ci b.length))
      (pieces (b.drop (min ci b.length)))
    rw [← split_, front] at here
    by_cases le : ci ≤ b.length
    · rw [Nat.min_eq_left le] at here ⊢
      exact here.symm
    · rw [Nat.min_eq_right (by omega)] at here ⊢
      have atMost := offset_le b ci
      have atLeast := offset_mono (pieces b) (by omega : b.length ≤ ci)
      omega
  case isFalse =>
    rw [charToByteFrom_eq b ci 0 0 (Nat.zero_le _), List.drop_zero,
      Nat.zero_add, Nat.sub_zero]

end SabiRuby.Strings
