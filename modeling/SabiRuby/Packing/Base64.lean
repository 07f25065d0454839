import Mathlib.Data.Nat.Bitwise
import Mathlib.Data.UInt

/-!
# Base64 text

Three bytes are written as four digits of 64, a last group of one or two bytes
with padding, and a line is broken at a column.  The reader skips what is no
digit.
-/

namespace SabiRuby.Packing

/-- `BASE64`: the upper and the lower case letters, the digits, `+` and `/`. -/
def BASE64 : List UInt8 :=
  (List.range 26).map (fun i => UInt8.ofNat (65 + i)) ++
    (List.range 26).map (fun i => UInt8.ofNat (97 + i)) ++
    (List.range 10).map (fun i => UInt8.ofNat (48 + i)) ++ [43, 47]

/-- `base64_val`. -/
def base64Val (c : UInt8) : Option Nat :=
  if 65 ≤ c ∧ c ≤ 90 then some (c.toNat - 65)
  else if 97 ≤ c ∧ c ≤ 122 then some (c.toNat - 97 + 26)
  else if 48 ≤ c ∧ c ≤ 57 then some (c.toNat - 48 + 52)
  else if c = 43 then some 62
  else if c = 47 then some 63
  else none

/-- Three bytes as one number. -/
def group (a b c : UInt8) : Nat :=
  a.toNat <<< 16 ||| b.toNat <<< 8 ||| c.toNat

/-- The digit of a group that is shifted down so far. -/
def digit (l shift : Nat) : UInt8 := BASE64.getD (l >>> shift &&& 0x3f) 0

/-- The column at which lines are broken, none being 0. -/
def base64Column (count : Int) : Int :=
  if count ≠ 0 ∧ count < 3 then 45
  else if 3 ≤ count then count - count % 3
  else 0

/-- The column after a group, which is counted only where lines are broken. -/
def nextColumn (count column : Int) : Int :=
  if 0 < count then (if column = count then 0 else column) + 3 else column

/-- The loop of `pack_base64` with what follows it. -/
def packBase64From (count : Int) : Int → List UInt8 → List UInt8
  | column, a :: b :: c :: rest =>
      [18, 12, 6, 0].map (digit (group a b c)) ++
        ((if 0 < count ∧ column = count then [10] else []) ++
          packBase64From count (nextColumn count column) rest)
  | column, [a, b] =>
      [18, 12, 6].map (digit (group a b 0)) ++ [61] ++
        if 0 < count ∧ 0 < column + 3 then [10] else []
  | column, [a] =>
      [18, 12].map (digit (group a 0 0)) ++ [61, 61] ++
        if 0 < count ∧ 0 < column + 3 then [10] else []
  | column, [] => if 0 < count ∧ 0 < column then [10] else []

/-- `pack_base64`. -/
def packBase64 (src : List UInt8) (count : Int) : List UInt8 :=
  if src = [] then [] else packBase64From (base64Column count) 3 src

/-- The next digit or padding, the bytes before it skipped. -/
def readDigit : List UInt8 → Option (Nat × Nat × List UInt8)
  | [] => none
  | b :: rest =>
      if b = 61 then some (0, 1, rest)
      else
        match base64Val b with
        | some v => some (v, 0, rest)
        | none => readDigit rest

/-- The bytes of four digits, fewer where some of them are padding.  Padding
ends the loop, so it is counted from none for each group. -/
def groupBytes (l padding : Nat) : List UInt8 :=
  if 2 ≤ padding then [UInt8.ofNat (l >>> 16)]
  else if padding = 1 then [UInt8.ofNat (l >>> 16), UInt8.ofNat (l >>> 8)]
  else [UInt8.ofNat (l >>> 16), UInt8.ofNat (l >>> 8), UInt8.ofNat l]

/-- The four digits of a turn, how many of them are padding, and the rest. -/
def readGroup (src : List UInt8) : Option (Nat × Nat × List UInt8) := do
  let (c0, p0, src) ← readDigit src
  let (c1, p1, src) ← readDigit src
  let (c2, p2, src) ← readDigit src
  let (c3, p3, src) ← readDigit src
  some (c0 <<< 18 + c1 <<< 12 + c2 <<< 6 + c3, p0 + p1 + p2 + p3, src)

/-- The loop of `unpack_base64`.  A turn takes four bytes, so the length is fuel
enough. -/
def unpackBase64From : Nat → List UInt8 → List UInt8
  | 0, _ => []
  | fuel + 1, src =>
      if src.length < 4 then []
      else
        match readGroup src with
        | none => []
        | some (l, padding, rest) =>
            groupBytes l padding ++
              if 0 < padding then [] else unpackBase64From fuel rest

/-- `unpack_base64`. -/
def unpackBase64 (src : List UInt8) : List UInt8 :=
  unpackBase64From src.length src

/-! ## Digits -/

/-- A digit is read back, and it is neither padding nor the end of a line. -/
theorem readDigit_digit (l shift : Nat) (rest : List UInt8) :
    readDigit (digit l shift :: rest) = some (l / 2 ^ shift % 64, 0, rest) := by
  have all : ∀ n : Fin 64, BASE64.getD n.val 0 ≠ 61 ∧
      base64Val (BASE64.getD n.val 0) = some n.val := by
    decide +kernel
  have small : l >>> shift &&& 0x3f = l / 2 ^ shift % 64 := by
    rw [Nat.shiftRight_eq_div_pow]
    exact Nat.and_two_pow_sub_one_eq_mod _ 6
  obtain ⟨notPad, val⟩ := all ⟨l / 2 ^ shift % 64, Nat.mod_lt _ (by decide)⟩
  rw [digit, small, readDigit, if_neg notPad, val]

theorem readDigit_newline (rest : List UInt8) :
    readDigit (10 :: rest) = readDigit rest := rfl

theorem readDigit_pad (rest : List UInt8) :
    readDigit (61 :: rest) = some (0, 1, rest) := rfl

theorem group_eq (a b c : UInt8) :
    group a b c = a.toNat * 65536 + b.toNat * 256 + c.toNat := by
  have high : a.toNat <<< 16 ||| b.toNat <<< 8 =
      (a.toNat <<< 8 ||| b.toNat) <<< 8 := by
    rw [Nat.shiftLeft_or_distrib, ← Nat.shiftLeft_add]
  rw [group, high, ← Nat.shiftLeft_add_eq_or_of_lt c.toNat_lt,
    ← Nat.shiftLeft_add_eq_or_of_lt b.toNat_lt, Nat.shiftLeft_eq,
    Nat.shiftLeft_eq]
  omega

/-- The bytes of a number of three are read from its digits. -/
theorem digits_group (l : Nat) (bound : l < 2 ^ 24) :
    (l / 2 ^ 18 % 64) <<< 18 + (l / 2 ^ 12 % 64) <<< 12 +
      (l / 2 ^ 6 % 64) <<< 6 + l / 2 ^ 0 % 64 = l := by
  simp only [Nat.shiftLeft_eq]
  omega

theorem ofNat_eq_of_mod {n : Nat} {a : UInt8} (same : n % 256 = a.toNat) :
    UInt8.ofNat n = a := by
  apply UInt8.toNat_inj.mp
  rw [UInt8.toNat_ofNat']
  exact same

/-! ## Reading what was written -/

/-- What may stand between two groups. -/
def Breaks (gap : List UInt8) : Prop := gap = [] ∨ gap = [10]

theorem readDigit_gap
    (breaks : Breaks gap)
    (rest : List UInt8) : readDigit (gap ++ rest) = readDigit rest := by
  rcases breaks with rfl | rfl
  · rfl
  · exact readDigit_newline rest

theorem readGroup_whole
    (breaks : Breaks gap)
    (a b c : UInt8)
    (rest : List UInt8) :
    readGroup (gap ++ ([18, 12, 6, 0].map (digit (group a b c)) ++ rest)) =
      some (group a b c, 0, rest) := by
  have bound : group a b c < 2 ^ 24 := by
    have := a.toNat_lt
    have := b.toNat_lt
    have := c.toNat_lt
    rw [group_eq]
    omega
  have whole := digits_group _ bound
  simp only [readGroup, List.map_cons, List.map_nil, List.cons_append,
    List.nil_append, readDigit_gap breaks, readDigit_digit,
    Option.bind_eq_bind, Option.bind_some]
  exact congrArg some (congrArg (·, 0, rest) whole)

theorem readGroup_two
    (breaks : Breaks gap)
    (a b : UInt8)
    (rest : List UInt8) :
    readGroup
        (gap ++ ([18, 12, 6].map (digit (group a b 0)) ++ [61] ++ rest)) =
      some (group a b 0, 1, rest) := by
  have bound : group a b 0 < 2 ^ 24 ∧ group a b 0 % 64 = 0 := by
    have := a.toNat_lt
    have := b.toNat_lt
    rw [group_eq]
    change a.toNat * 65536 + b.toNat * 256 + 0 < 2 ^ 24 ∧
      (a.toNat * 65536 + b.toNat * 256 + 0) % 64 = 0
    omega
  have whole := digits_group _ bound.1
  rw [Nat.pow_zero, Nat.div_one, bound.2] at whole
  simp only [readGroup, List.map_cons, List.map_nil, List.cons_append,
    List.nil_append, readDigit_gap breaks, readDigit_digit, readDigit_pad,
    Option.bind_eq_bind, Option.bind_some]
  exact congrArg some (congrArg (·, 1, rest) whole)

theorem readGroup_one
    (breaks : Breaks gap)
    (a : UInt8)
    (rest : List UInt8) :
    readGroup
        (gap ++ ([18, 12].map (digit (group a 0 0)) ++ [61, 61] ++ rest)) =
      some (group a 0 0, 2, rest) := by
  have bound : group a 0 0 < 2 ^ 24 ∧ group a 0 0 % 4096 = 0 := by
    have := a.toNat_lt
    rw [group_eq]
    change a.toNat * 65536 + 0 * 256 + 0 < 2 ^ 24 ∧
      (a.toNat * 65536 + 0 * 256 + 0) % 4096 = 0
    omega
  have whole := digits_group _ bound.1
  have third : group a 0 0 / 2 ^ 6 % 64 = 0 := by omega
  have fourth : group a 0 0 / 2 ^ 0 % 64 = 0 := by omega
  rw [third, fourth] at whole
  simp only [readGroup, List.map_cons, List.map_nil, List.cons_append,
    List.nil_append, readDigit_gap breaks, readDigit_digit, readDigit_pad,
    Option.bind_eq_bind, Option.bind_some]
  exact congrArg some (congrArg (·, 2, rest) whole)

theorem groupBytes_whole (a b c : UInt8) :
    groupBytes (group a b c) 0 = [a, b, c] := by
  have := a.toNat_lt
  have := b.toNat_lt
  have := c.toNat_lt
  have eq := group_eq a b c
  have first : UInt8.ofNat (group a b c / 2 ^ 16) = a :=
    ofNat_eq_of_mod (by omega)
  have second : UInt8.ofNat (group a b c / 2 ^ 8) = b :=
    ofNat_eq_of_mod (by omega)
  have third : UInt8.ofNat (group a b c) = c := ofNat_eq_of_mod (by omega)
  rw [groupBytes, if_neg (by decide), if_neg (by decide),
    Nat.shiftRight_eq_div_pow, Nat.shiftRight_eq_div_pow, first, second, third]

theorem groupBytes_two (a b : UInt8) :
    groupBytes (group a b 0) 1 = [a, b] := by
  have := a.toNat_lt
  have := b.toNat_lt
  have eq : group a b 0 = a.toNat * 65536 + b.toNat * 256 + 0 := group_eq a b 0
  have first : UInt8.ofNat (group a b 0 / 2 ^ 16) = a :=
    ofNat_eq_of_mod (by omega)
  have second : UInt8.ofNat (group a b 0 / 2 ^ 8) = b :=
    ofNat_eq_of_mod (by omega)
  rw [groupBytes, if_neg (by decide), if_pos rfl,
    Nat.shiftRight_eq_div_pow, Nat.shiftRight_eq_div_pow, first, second]

theorem groupBytes_one (a : UInt8) : groupBytes (group a 0 0) 2 = [a] := by
  have := a.toNat_lt
  have eq : group a 0 0 = a.toNat * 65536 + 0 * 256 + 0 := group_eq a 0 0
  have first : UInt8.ofNat (group a 0 0 / 2 ^ 16) = a :=
    ofNat_eq_of_mod (by omega)
  rw [groupBytes, if_pos (by decide), Nat.shiftRight_eq_div_pow, first]

theorem breaks_ite (p : Prop) [Decidable p] :
    Breaks (if p then [10] else []) := by
  split
  · exact Or.inr rfl
  · exact Or.inl rfl

theorem Breaks.length {gap : List UInt8} (breaks : Breaks gap) :
    gap.length ≤ 1 := by
  rcases breaks with rfl | rfl
  · exact Nat.zero_le 1
  · exact Nat.le_refl 1

/-- A turn of the reader over a group that is there whole. -/
theorem unpackBase64From_turn
    (enough : text.length ≤ fuel)
    (four : 4 ≤ text.length)
    (read : readGroup text = some (l, padding, rest)) :
    unpackBase64From fuel text =
      groupBytes l padding ++
        if 0 < padding then [] else unpackBase64From (fuel - 1) rest := by
  cases fuel with
  | zero => omega
  | succ fuel =>
      rw [unpackBase64From, if_neg (by omega), read]
      rfl

/-- Less than a group is not read. -/
theorem unpackBase64From_short
    (short : text.length < 4)
    (fuel : Nat) : unpackBase64From fuel text = [] := by
  cases fuel with
  | zero => rfl
  | succ fuel => rw [unpackBase64From, if_pos short]

/-- What was written from a group on is read back, behind the end of a line as
well. -/
theorem unpackBase64From_pack
    (count column : Int)
    (src : List UInt8)
    (breaks : Breaks gap)
    (enough : (gap ++ packBase64From count column src).length ≤ fuel) :
    unpackBase64From fuel (gap ++ packBase64From count column src) = src := by
  fun_induction packBase64From count column src generalizing gap fuel with
  | case1 column a b c rest ih =>
      rw [unpackBase64From_turn enough (by simp; omega)
        (readGroup_whole breaks a b c _), groupBytes_whole,
        if_neg (Nat.lt_irrefl 0), ih (breaks_ite _)]
      · rfl
      · simp only [List.length_append, List.length_map, List.length_cons,
          List.length_nil] at enough ⊢
        omega
  | case2 column a b =>
      rw [unpackBase64From_turn enough (by simp; omega)
        (readGroup_two breaks a b _), groupBytes_two, if_pos Nat.one_pos]
      rfl
  | case3 column a =>
      rw [unpackBase64From_turn enough (by simp; omega)
        (readGroup_one breaks a _), groupBytes_one, if_pos (Nat.succ_pos 1)]
      rfl
  | case4 column broken =>
      have gapLength := breaks.length
      apply unpackBase64From_short
      rw [List.length_append, List.length_singleton]
      omega
  | case5 column whole =>
      have gapLength := breaks.length
      apply unpackBase64From_short
      rw [List.length_append, List.length_nil]
      omega

/-- Base64 text is undone by reading it, whatever its column. -/
theorem unpackBase64_pack (src : List UInt8) (count : Int) :
    unpackBase64 (packBase64 src count) = src := by
  rw [packBase64, unpackBase64]
  by_cases empty : src = []
  · rw [if_pos empty, empty]
    rfl
  · rw [if_neg empty]
    exact unpackBase64From_pack _ 3 src (Or.inl rfl) (Nat.le_refl _)

end SabiRuby.Packing
