import SabiRuby.Packing.Base64

/-!
# Uuencoded text

A line is the digit of its length, four digits for each three bytes and the end
of the line; a line without bytes ends the text.
-/

namespace SabiRuby.Packing

/-- `UU`: a grave accent for 0, then the characters from `!` to `_`. -/
def UU : List UInt8 := 96 :: (List.range 63).map fun i => UInt8.ofNat (33 + i)

/-- The digit of a group that is shifted down so far. -/
def uuDigit (l shift : Nat) : UInt8 := UU.getD (l >>> shift &&& 0x3f) 0

/-- The digits of a line.  A last group that is not whole is shifted up. -/
def packUuGroups : List UInt8 → List UInt8
  | a :: b :: c :: rest =>
      [18, 12, 6, 0].map (uuDigit (group a b c)) ++ packUuGroups rest
  | [a, b] => [18, 12, 6, 0].map (uuDigit (group a b 0))
  | [a] => [18, 12, 6, 0].map (uuDigit (group a 0 0))
  | [] => []

/-- The bytes of a line. -/
def uuWidth (count : Int) : Nat :=
  let count := (if count ≤ 2 then 45 else if 63 < count then 63 else count).toNat
  count - count % 3

/-- The lines of `pack_uu`.  A line takes a byte at least, so the length is fuel
enough. -/
def packUuLines (width : Nat) : Nat → List UInt8 → List UInt8
  | 0, _ => []
  | fuel + 1, s =>
      if s = [] then []
      else
        let line := min s.length width
        UU.getD (line &&& 0x3f) 0 :: packUuGroups (s.take line) ++
          10 :: packUuLines width fuel (s.drop line)

/-- `pack_uu`. -/
def packUu (src : List UInt8) (count : Int) : List UInt8 :=
  packUuLines (uuWidth count) src.length src ++
    if src = [] then [] else [UU.getD 0 0, 10]

/-- A digit as the reader takes it. -/
def uuVal (c : UInt8) : Option Nat :=
  if 32 ≤ c ∧ c < 128 then
    if c = 96 then some 0
    else if c < 96 then some (c.toNat - 32)
    else none
  else none

/-- So many digits, or none and what stands from the first other byte on. -/
def readUuDigits : Nat → List UInt8 → Option (List Nat) × List UInt8
  | 0, src => (some [], src)
  | _ + 1, [] => (none, [])
  | n + 1, c :: rest =>
      match uuVal c with
      | none => (none, c :: rest)
      | some v =>
          let (vs, rest) := readUuDigits n rest
          (vs.map (v :: ·), rest)

/-- Four digits as one number. -/
def uuGroup (c : List Nat) : Nat :=
  c.getD 0 0 <<< 18 ||| c.getD 1 0 <<< 12 ||| c.getD 2 0 <<< 6 ||| c.getD 3 0

/-- The bytes of a line and the text from behind its digits on.  A turn takes a
byte of those left, so their number is fuel enough. -/
def readUuLine : Nat → Nat → List UInt8 → List UInt8 × List UInt8
  | 0, _, src => ([], src)
  | fuel + 1, left, src =>
      if 0 < left ∧ 3 < src.length then
        match readUuDigits 4 src with
        | (none, rest) => ([], rest)
        | (some c, rest) =>
            let bytes := [16, 8, 0].map fun sh => UInt8.ofNat (uuGroup c >>> sh)
            let (more, rest) := readUuLine fuel (left - min left 3) rest
            (bytes.take (min left 3) ++ more, rest)
      else ([], src)

/-- White space before a line. -/
def uuSpace (c : UInt8) : Bool := c = 10 || c = 13 || c = 32 || c = 9

/-- The lines of `unpack_uu`.  A line takes a byte at least, so the length is
fuel enough. -/
def unpackUuFrom : Nat → List UInt8 → List UInt8
  | 0, _ => []
  | fuel + 1, src =>
      match src.dropWhile uuSpace with
      | [] => []
      | c :: rest =>
          match uuVal c with
          | none => []
          | some 0 => []
          | some (n + 1) =>
              let (bytes, rest) := readUuLine (n + 1) (n + 1) rest
              bytes ++ unpackUuFrom fuel
                (rest.dropWhile fun c => decide (c ≠ 10 ∧ c ≠ 13))

/-- `unpack_uu`. -/
def unpackUu (src : List UInt8) : List UInt8 := unpackUuFrom src.length src

/-! ## Digits -/

theorem uuVal_getD (n : Nat) (small : n < 64) :
    uuVal (UU.getD n 0) = some n ∧ uuSpace (UU.getD n 0) = false := by
  have all : ∀ n : Fin 64, uuVal (UU.getD n.val 0) = some n.val ∧
      uuSpace (UU.getD n.val 0) = false := by
    decide +kernel
  exact all ⟨n, small⟩

theorem uuVal_uuDigit (l shift : Nat) :
    uuVal (uuDigit l shift) = some (l / 2 ^ shift % 64) := by
  have small : l >>> shift &&& 0x3f = l / 2 ^ shift % 64 := by
    rw [Nat.shiftRight_eq_div_pow]
    exact Nat.and_two_pow_sub_one_eq_mod _ 6
  rw [uuDigit, small]
  exact (uuVal_getD _ (Nat.mod_lt _ (by decide))).1

/-- The digits of a number are read back as it is. -/
theorem readUuDigits_group (l : Nat) (rest : List UInt8) :
    readUuDigits 4 ([18, 12, 6, 0].map (uuDigit l) ++ rest) =
      (some [l / 2 ^ 18 % 64, l / 2 ^ 12 % 64, l / 2 ^ 6 % 64, l / 2 ^ 0 % 64],
        rest) := by
  simp only [List.map_cons, List.map_nil, List.cons_append, List.nil_append,
    readUuDigits, uuVal_uuDigit, Option.map_some]

theorem uuGroup_digits (l : Nat) (bound : l < 2 ^ 24) :
    uuGroup [l / 2 ^ 18 % 64, l / 2 ^ 12 % 64, l / 2 ^ 6 % 64,
      l / 2 ^ 0 % 64] = l := by
  have two : (l / 2 ^ 18 % 64) <<< 18 ||| (l / 2 ^ 12 % 64) <<< 12 =
      ((l / 2 ^ 18 % 64) <<< 6 ||| l / 2 ^ 12 % 64) <<< 12 := by
    rw [Nat.shiftLeft_or_distrib, ← Nat.shiftLeft_add]
  have three : ((l / 2 ^ 18 % 64) <<< 6 ||| l / 2 ^ 12 % 64) <<< 12 |||
      (l / 2 ^ 6 % 64) <<< 6 =
        (((l / 2 ^ 18 % 64) <<< 6 ||| l / 2 ^ 12 % 64) <<< 6 |||
          l / 2 ^ 6 % 64) <<< 6 := by
    generalize (l / 2 ^ 18 % 64) <<< 6 ||| l / 2 ^ 12 % 64 = high
    rw [Nat.shiftLeft_or_distrib, ← Nat.shiftLeft_add]
  have small : ∀ n, l / 2 ^ n % 64 < 2 ^ 6 := fun n =>
    Nat.mod_lt _ (by decide)
  rw [uuGroup]
  simp only [List.getD_cons_zero, List.getD_cons_succ]
  rw [two, three, ← Nat.shiftLeft_add_eq_or_of_lt (small 0),
    ← Nat.shiftLeft_add_eq_or_of_lt (small 6),
    ← Nat.shiftLeft_add_eq_or_of_lt (small 12)]
  simp only [Nat.shiftLeft_eq]
  omega

theorem group_lt (a b c : UInt8) : group a b c < 2 ^ 24 := by
  have := a.toNat_lt
  have := b.toNat_lt
  have := c.toNat_lt
  rw [group_eq]
  omega

/-- The bytes of a group. -/
theorem bytes_group (a b c : UInt8) :
    [16, 8, 0].map (fun sh => UInt8.ofNat (group a b c >>> sh)) = [a, b, c] := by
  have := groupBytes_whole a b c
  rwa [groupBytes, if_neg (by decide), if_neg (by decide)] at this

/-- A turn over a group that is there. -/
theorem readUuLine_turn
    (a b c : UInt8)
    (fuel left : Nat)
    (some_ : 0 < left)
    (rest : List UInt8) :
    readUuLine (fuel + 1) left
        ([18, 12, 6, 0].map (uuDigit (group a b c)) ++ rest) =
      ([a, b, c].take (min left 3) ++
        (readUuLine fuel (left - min left 3) rest).1,
        (readUuLine fuel (left - min left 3) rest).2) := by
  rw [readUuLine, if_pos, readUuDigits_group]
  · dsimp only
    rw [uuGroup_digits _ (group_lt a b c), bytes_group]
  · refine ⟨some_, ?_⟩
    simp

theorem readUuLine_done (fuel : Nat) (rest : List UInt8) :
    readUuLine fuel 0 rest = ([], rest) := by
  cases fuel with
  | zero => rfl
  | succ fuel => rw [readUuLine, if_neg fun both => Nat.lt_irrefl 0 both.1]

/-- The bytes of a line are read back from its digits. -/
theorem readUuLine_groups
    (line rest : List UInt8)
    (enough : line.length ≤ fuel) :
    readUuLine fuel line.length (packUuGroups line ++ rest) = (line, rest) := by
  fun_induction packUuGroups line generalizing fuel with
  | case1 a b c tail ih =>
      rw [List.length_cons, List.length_cons, List.length_cons] at enough
      obtain ⟨more, rfl⟩ := Nat.exists_eq_add_of_lt
        (by omega : 0 < fuel)
      have three : min (a :: b :: c :: tail).length 3 = 3 := by
        simp
      have left : (a :: b :: c :: tail).length - 3 = tail.length := by
        simp
      rw [List.append_assoc, Nat.zero_add,
        readUuLine_turn a b c more _ (by simp), three, left,
        ih (by omega)]
      rfl
  | case2 a b =>
      cases fuel with
      | zero => cases enough
      | succ fuel =>
          rw [readUuLine_turn a b 0 fuel _ (by simp)]
          change ([a, b] ++ (readUuLine fuel 0 rest).1,
            (readUuLine fuel 0 rest).2) = _
          rw [readUuLine_done]
          rfl
  | case3 a =>
      cases fuel with
      | zero => cases enough
      | succ fuel =>
          rw [readUuLine_turn a 0 0 fuel _ (by simp)]
          change ([a] ++ (readUuLine fuel 0 rest).1,
            (readUuLine fuel 0 rest).2) = _
          rw [readUuLine_done]
          rfl
  | case4 => exact readUuLine_done fuel rest

/-! ## Lines -/

theorem uuWidth_bounds (count : Int) : 1 ≤ uuWidth count ∧ uuWidth count ≤ 63 := by
  rw [uuWidth]
  split
  case isTrue => decide
  case isFalse =>
    split
    case isTrue => decide
    case isFalse => omega

/-- The lines written are read back, behind the end of a line as well. -/
theorem unpackUuFrom_lines
    (low : 1 ≤ width)
    (high : width ≤ 63)
    (s : List UInt8)
    (lines : Nat)
    (all : s.length ≤ lines)
    (breaks : Breaks gap)
    (enough : (gap ++ (packUuLines width lines s ++ [96, 10])).length ≤ fuel) :
    unpackUuFrom fuel (gap ++ (packUuLines width lines s ++ [96, 10])) = s := by
  have skip : ∀ text, (gap ++ text).dropWhile uuSpace =
      text.dropWhile uuSpace := by
    intro text
    rcases breaks with rfl | rfl
    · rfl
    · rfl
  cases fuel with
  | zero =>
      rw [List.length_append, List.length_append] at enough
      cases Nat.le_zero.mp (Nat.le_trans (Nat.le_add_left _ _)
        (Nat.le_trans (Nat.le_add_left _ _) enough))
  | succ fuel =>
      rw [unpackUuFrom, skip]
      by_cases empty : s = []
      · have none : packUuLines width lines s = [] := by
          cases lines with
          | zero => rfl
          | succ lines => rw [packUuLines, if_pos empty]
        rw [none, empty]
        rfl
      · have positive := List.length_pos_iff.mpr empty
        cases lines with
        | zero => omega
        | succ lines =>
            rw [packUuLines, if_neg empty] at enough ⊢
            dsimp only at enough ⊢
            obtain ⟨n, line⟩ : ∃ n, min s.length width = n + 1 :=
              ⟨min s.length width - 1, by omega⟩
            have small : n + 1 < 64 := by omega
            have digit_ := uuVal_getD (n + 1) small
            have masked : (n + 1) &&& 0x3f = n + 1 := by
              have mask := Nat.and_two_pow_sub_one_eq_mod (n + 1) 6
              rw [Nat.mod_eq_of_lt (by omega)] at mask
              exact mask
            have taken : (s.take (n + 1)).length = n + 1 := by
              rw [List.length_take]
              omega
            rw [line, masked] at enough ⊢
            rw [List.cons_append, List.cons_append,
              List.dropWhile_cons_of_neg (by rw [digit_.2]; simp)]
            dsimp only
            rw [digit_.1]
            dsimp only
            have read := readUuLine_groups (s.take (n + 1))
              (10 :: packUuLines width lines (s.drop (n + 1)) ++ [96, 10])
              (Nat.le_of_eq taken)
            rw [taken] at read
            rw [List.append_assoc, read]
            dsimp only
            rw [List.cons_append, List.dropWhile_cons_of_neg (by simp)]
            have left : (s.drop (n + 1)).length ≤ lines := by
              rw [List.length_drop]
              omega
            have shorter : ([10] ++ (packUuLines width lines
                (s.drop (n + 1)) ++ [96, 10])).length ≤ fuel := by
              simp only [List.length_append, List.length_cons,
                List.length_nil] at enough ⊢
              omega
            have rest := unpackUuFrom_lines low high (s.drop (n + 1)) lines
              left (Or.inr rfl) shorter
            rw [List.singleton_append] at rest
            rw [rest, List.take_append_drop]
termination_by lines

/-- Uuencoded text is undone by reading it, whatever its lines. -/
theorem unpackUu_pack (src : List UInt8) (count : Int) :
    unpackUu (packUu src count) = src := by
  by_cases empty : src = []
  · subst empty
    rfl
  · have width := uuWidth_bounds count
    rw [unpackUu, packUu, if_neg empty]
    exact unpackUuFrom_lines width.1 width.2 src src.length (Nat.le_refl _)
      (Or.inl rfl) (Nat.le_refl _)

end SabiRuby.Packing
