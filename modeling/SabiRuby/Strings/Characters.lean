import Mathlib.Data.List.Basic
import Mathlib.Tactic.SplitIfs

/-!
# The characters of a byte string

A string is read as characters wherever its bytes are a UTF-8 sequence, and a
byte that starts none is a character of its own.  In a string that is read as
bytes every byte is a character.
-/

namespace SabiRuby.Strings

/-- The byte length a lead byte claims, from its upper five bits. -/
def claimedLength (c : UInt8) : Option Nat :=
  let five := (c >>> 3).toNat
  if five ≤ 15 then some 1
  else if 24 ≤ five ∧ five ≤ 27 then some 2
  else if five = 28 ∨ five = 29 then some 3
  else if five = 30 then some 4
  else none

def isContinuation (c : UInt8) : Bool := c &&& 0xC0 = 0x80

/-- An overlong sequence, a surrogate or a number above U+10FFFF, by the lead
byte and the one after it. -/
def isRefused (c second : UInt8) : Bool :=
  c = 0xC0 || c = 0xC1 || (c = 0xE0 && second < 0xA0) ||
    (c = 0xED && second > 0x9F) || (c = 0xF0 && second < 0x90) ||
    (c = 0xF4 && second > 0x8F) || (0xF5 ≤ c && c ≤ 0xF7)

/-- `utf8len`. -/
def utf8len (b : List UInt8) (i : Nat) (chars : Bool) : Nat :=
  if chars = false then 1
  else
    match b[i]? with
    | none => 1
    | some c =>
        match claimedLength c with
        | none => 1
        | some len =>
            if len = 1 then 1
            else if i + len > b.length then 1
            else if ¬ ∀ j < len, 1 ≤ j →
              isContinuation (b[i + j]?.getD 0) = true then 1
            else if isRefused c (b[i + 1]?.getD 0) then 1
            else len

/-- `is_ascii`. -/
def isAscii (b : List UInt8) : Bool := b.all fun c => c < 0x80

/-! ## Well-formed sequences -/

/-- A byte that goes on a sequence. -/
def Tail (c : UInt8) : Prop := 0x80 ≤ c ∧ c ≤ 0xBF

instance (c : UInt8) : Decidable (Tail c) :=
  inferInstanceAs (Decidable (_ ∧ _))

/-- The UTF-8 sequences of more than one byte, without the overlong ones, the
surrogates and those above U+10FFFF. -/
inductive Sequence : List UInt8 → Prop
  | two {a b : UInt8} :
      0xC2 ≤ a → a ≤ 0xDF → Tail b → Sequence [a, b]
  | three {a b c : UInt8} :
      0xE0 ≤ a → a ≤ 0xEF → (a = 0xE0 → 0xA0 ≤ b) → (a = 0xED → b ≤ 0x9F) →
        Tail b → Tail c → Sequence [a, b, c]
  | four {a b c d : UInt8} :
      0xF0 ≤ a → a ≤ 0xF4 → (a = 0xF0 → 0x90 ≤ b) → (a = 0xF4 → b ≤ 0x8F) →
        Tail b → Tail c → Tail d → Sequence [a, b, c, d]

theorem isContinuation_iff (c : UInt8) : isContinuation c = true ↔ Tail c := by
  have all : ∀ n : Fin 256, isContinuation (UInt8.ofNat n) = true ↔
      0x80 ≤ UInt8.ofNat n ∧ UInt8.ofNat n ≤ 0xBF := by
    decide +kernel
  have this := all ⟨c.toNat, c.toNat_lt⟩
  rw [UInt8.ofNat_toNat] at this
  exact this

theorem claimedLength_eq (c : UInt8) :
    claimedLength c =
      if c.toNat < 128 then some 1
      else if 192 ≤ c.toNat ∧ c.toNat < 224 then some 2
      else if 224 ≤ c.toNat ∧ c.toNat < 240 then some 3
      else if 240 ≤ c.toNat ∧ c.toNat < 248 then some 4
      else none := by
  have all : ∀ n : Fin 256, claimedLength (UInt8.ofNat n) =
      if n.val < 128 then some 1
      else if 192 ≤ n.val ∧ n.val < 224 then some 2
      else if 224 ≤ n.val ∧ n.val < 240 then some 3
      else if 240 ≤ n.val ∧ n.val < 248 then some 4
      else none := by
    decide +kernel
  have this := all ⟨c.toNat, c.toNat_lt⟩
  rw [UInt8.ofNat_toNat] at this
  exact this

/-- The bytes of the character at the beginning. -/
def headLen (s : List UInt8) : Nat := utf8len s 0 true

/-- The length of a character depends on what stands from it on. -/
theorem utf8len_eq (b : List UInt8) (i : Nat) :
    utf8len b i true = headLen (b.drop i) := by
  simp only [headLen, utf8len, List.getElem?_drop, List.length_drop,
    Nat.zero_add, Nat.add_zero]
  by_cases inside : i < b.length
  · rw [List.getElem?_eq_getElem inside]
    dsimp only
    cases claimedLength b[i] with
    | none => rfl
    | some len =>
        dsimp only
        have bound : i + len > b.length ↔ len > b.length - i := by omega
        simp only [bound]
  · rw [List.getElem?_eq_none (by omega)]

theorem isRefused_iff (c second : UInt8) :
    isRefused c second = true ↔
      c.toNat = 0xC0 ∨ c.toNat = 0xC1 ∨
        (c.toNat = 0xE0 ∧ second.toNat < 0xA0) ∨
        (c.toNat = 0xED ∧ 0x9F < second.toNat) ∨
        (c.toNat = 0xF0 ∧ second.toNat < 0x90) ∨
        (c.toNat = 0xF4 ∧ 0x8F < second.toNat) ∨
        (0xF5 ≤ c.toNat ∧ c.toNat ≤ 0xF7) := by
  simp only [isRefused, Bool.or_eq_true, Bool.and_eq_true, decide_eq_true_eq,
    ← UInt8.toNat_inj, UInt8.lt_iff_toNat_lt, UInt8.le_iff_toNat_le, or_assoc]
  rfl

/-- What a claimed length comes to. -/
theorem headLen_claimed
    (claimed : claimedLength c = some len)
    (many : 2 ≤ len) :
    headLen (c :: rest) =
      if len ≤ rest.length + 1 ∧
          (∀ j < len, 1 ≤ j → Tail ((c :: rest)[j]?.getD 0)) ∧
          isRefused c (rest[0]?.getD 0) = false
      then len else 1 := by
  simp only [headLen, utf8len, List.getElem?_cons_zero, claimed,
    Bool.true_eq_false, if_false, Nat.zero_add, List.length_cons,
    isContinuation_iff, List.getElem?_cons_succ]
  rw [if_neg (by omega)]
  by_cases short : len > rest.length + 1
  · rw [if_pos short, if_neg (by omega)]
  · rw [if_neg short]
    by_cases tails : ∀ j < len, 1 ≤ j → Tail ((c :: rest)[j]?.getD 0)
    · rw [if_neg (not_not_intro tails)]
      cases refused : isRefused c (rest[0]?.getD 0) with
      | true => simp
      | false =>
          rw [if_neg (by simp), if_pos ⟨by omega, tails, rfl⟩]
    · rw [if_pos tails, if_neg fun all => tails all.2.1]

theorem tail_iff (c : UInt8) : Tail c ↔ 0x80 ≤ c.toNat ∧ c.toNat ≤ 0xBF := by
  rw [Tail, UInt8.le_iff_toNat_le, UInt8.le_iff_toNat_le]
  rfl

theorem eq_iff_toNat (c d : UInt8) : c = d ↔ c.toNat = d.toNat :=
  UInt8.toNat_inj.symm

/-- A sequence at the beginning is the first character. -/
theorem headLen_sequence
    (seq : Sequence q)
    (rest : List UInt8) : headLen (q ++ rest) = q.length := by
  cases seq with
  | @two a b low high tail =>
      rw [UInt8.le_iff_toNat_le] at low high
      change 194 ≤ a.toNat at low
      change a.toNat ≤ 223 at high
      have claimed : claimedLength a = some 2 := by
        rw [claimedLength_eq, if_neg (by omega), if_pos (by omega)]
      rw [List.cons_append, headLen_claimed claimed (by decide), if_pos]
      · rfl
      · refine ⟨by simp, ?_, ?_⟩
        · intro j below above
          have one : j = 1 := by omega
          subst one
          exact tail
        · rw [← Bool.not_eq_true, isRefused_iff]
          omega
  | @three a b c low high first last tailB tailC =>
      rw [UInt8.le_iff_toNat_le] at low high
      rw [eq_iff_toNat, UInt8.le_iff_toNat_le] at first last
      change 224 ≤ a.toNat at low
      change a.toNat ≤ 239 at high
      change a.toNat = 224 → 160 ≤ b.toNat at first
      change a.toNat = 237 → b.toNat ≤ 159 at last
      have claimed : claimedLength a = some 3 := by
        rw [claimedLength_eq, if_neg (by omega), if_neg (by omega),
          if_pos (by omega)]
      rw [List.cons_append, headLen_claimed claimed (by decide), if_pos]
      · rfl
      · refine ⟨by simp, ?_, ?_⟩
        · intro j below above
          have places : j = 1 ∨ j = 2 := by omega
          rcases places with rfl | rfl
          · exact tailB
          · exact tailC
        · rw [← Bool.not_eq_true, isRefused_iff]
          simp only [List.cons_append, List.getElem?_cons_zero,
            Option.getD_some]
          omega
  | @four a b c d low high first last tailB tailC tailD =>
      rw [UInt8.le_iff_toNat_le] at low high
      rw [eq_iff_toNat, UInt8.le_iff_toNat_le] at first last
      change 240 ≤ a.toNat at low
      change a.toNat ≤ 244 at high
      change a.toNat = 240 → 144 ≤ b.toNat at first
      change a.toNat = 244 → b.toNat ≤ 143 at last
      have claimed : claimedLength a = some 4 := by
        rw [claimedLength_eq, if_neg (by omega), if_neg (by omega),
          if_neg (by omega), if_pos (by omega)]
      rw [List.cons_append, headLen_claimed claimed (by decide), if_pos]
      · rfl
      · refine ⟨by simp, ?_, ?_⟩
        · intro j below above
          have places : j = 1 ∨ j = 2 ∨ j = 3 := by omega
          rcases places with rfl | rfl | rfl
          · exact tailB
          · exact tailC
          · exact tailD
        · rw [← Bool.not_eq_true, isRefused_iff]
          simp only [List.cons_append, List.getElem?_cons_zero,
            Option.getD_some]
          omega

/-- A byte that claims no more than itself is a character of its own. -/
theorem headLen_single
    (rest : List UInt8)
    (claimed : claimedLength c = some 1 ∨ claimedLength c = none) :
    headLen (c :: rest) = 1 := by
  simp only [headLen, utf8len, List.getElem?_cons_zero, Bool.true_eq_false,
    if_false]
  rcases claimed with claimed | claimed
  · rw [claimed]
    rfl
  · rw [claimed]

/-- What is not refused of a lead byte and the byte after it. -/
theorem not_refused
    (accepted : isRefused c second = false) :
    c.toNat ≠ 192 ∧ c.toNat ≠ 193 ∧ (c.toNat = 224 → 160 ≤ second.toNat) ∧
      (c.toNat = 237 → second.toNat ≤ 159) ∧
      (c.toNat = 240 → 144 ≤ second.toNat) ∧
      (c.toNat = 244 → second.toNat ≤ 143) ∧
      ¬ (245 ≤ c.toNat ∧ c.toNat ≤ 247) := by
  rw [← Bool.not_eq_true, isRefused_iff] at accepted
  omega

/-- A lead byte with the bytes it claims is a sequence where it is not
refused. -/
theorem sequence_of_accepted
    (claimed : claimedLength c = some len)
    (many : 2 ≤ len)
    (inside : len ≤ rest.length + 1)
    (tails : ∀ j < len, 1 ≤ j → Tail ((c :: rest)[j]?.getD 0))
    (accepted : isRefused c (rest[0]?.getD 0) = false) :
    ∃ q suffix, Sequence q ∧ c :: rest = q ++ suffix ∧ q.length = len := by
  have allowed := not_refused accepted
  rw [claimedLength_eq] at claimed
  cases rest with
  | nil =>
      rw [List.length_nil] at inside
      omega
  | cons b rest =>
      rw [List.getElem?_cons_zero, Option.getD_some] at allowed
      split at claimed
      case isTrue =>
        cases claimed
        omega
      case isFalse =>
        split at claimed
        case isTrue range =>
          cases claimed
          refine ⟨[c, b], rest, .two ?_ ?_ (tails 1 (by decide) (by decide)),
            rfl, rfl⟩
          · rw [UInt8.le_iff_toNat_le]
            change 194 ≤ c.toNat
            omega
          · rw [UInt8.le_iff_toNat_le]
            change c.toNat ≤ 223
            omega
        case isFalse =>
          split at claimed
          case isTrue range =>
            cases claimed
            cases rest with
            | nil =>
                rw [List.length_singleton] at inside
                omega
            | cons d rest =>
                refine ⟨[c, b, d], rest, .three ?_ ?_ ?_ ?_
                  (tails 1 (by decide) (by decide))
                  (tails 2 (by decide) (by decide)), rfl, rfl⟩
                · rw [UInt8.le_iff_toNat_le]
                  exact range.1
                · rw [UInt8.le_iff_toNat_le]
                  change c.toNat ≤ 239
                  omega
                · rw [eq_iff_toNat, UInt8.le_iff_toNat_le]
                  exact allowed.2.2.1
                · rw [eq_iff_toNat, UInt8.le_iff_toNat_le]
                  exact allowed.2.2.2.1
          case isFalse =>
            split at claimed
            case isTrue range =>
              cases claimed
              match rest, inside with
              | d :: e :: rest, _ =>
                  refine ⟨[c, b, d, e], rest, .four ?_ ?_ ?_ ?_
                    (tails 1 (by decide) (by decide))
                    (tails 2 (by decide) (by decide))
                    (tails 3 (by decide) (by decide)), rfl, rfl⟩
                  · rw [UInt8.le_iff_toNat_le]
                    exact range.1
                  · rw [UInt8.le_iff_toNat_le]
                    change c.toNat ≤ 244
                    omega
                  · rw [eq_iff_toNat, UInt8.le_iff_toNat_le]
                    exact allowed.2.2.2.2.1
                  · rw [eq_iff_toNat, UInt8.le_iff_toNat_le]
                    exact allowed.2.2.2.2.2.1
              | [_], inside | [], inside =>
                  simp only [List.length_cons, List.length_nil] at inside
                  omega
            case isFalse => cases claimed

/-- The first character is a byte or a sequence. -/
theorem headLen_cases (c : UInt8) (rest : List UInt8) :
    headLen (c :: rest) = 1 ∨
      ∃ q suffix, Sequence q ∧ c :: rest = q ++ suffix ∧
        headLen (c :: rest) = q.length := by
  cases claimed : claimedLength c with
  | none => exact Or.inl (headLen_single rest (Or.inr claimed))
  | some len =>
      by_cases many : 2 ≤ len
      · rw [headLen_claimed claimed many]
        split
        case isTrue accepted =>
          right
          obtain ⟨inside, tails, accepted⟩ := accepted
          obtain ⟨q, suffix, seq, split_, length⟩ :=
            sequence_of_accepted claimed many inside tails accepted
          exact ⟨q, suffix, seq, split_, length.symm⟩
        case isFalse => exact Or.inl rfl
      · left
        apply headLen_single rest
        left
        rw [claimed]
        have least : len ≠ 0 := by
          rintro rfl
          rw [claimedLength_eq] at claimed
          split_ifs at claimed <;> cases claimed
        have one : len = 1 := by omega
        rw [one]

theorem sequence_length_pos {q : List UInt8} (seq : Sequence q) :
    2 ≤ q.length := by
  cases seq <;> simp

theorem headLen_pos (s : List UInt8) : 1 ≤ headLen s := by
  cases s with
  | nil => exact Nat.le_refl 1
  | cons c rest =>
      rcases headLen_cases c rest with one | ⟨q, suffix, seq, -, length⟩
      · exact Nat.le_of_eq one.symm
      · have many := sequence_length_pos seq
        omega

theorem headLen_le {s : List UInt8} (some_ : s ≠ []) :
    headLen s ≤ s.length := by
  cases s with
  | nil => exact absurd rfl some_
  | cons c rest =>
      rcases headLen_cases c rest with one | ⟨q, suffix, -, split, length⟩
      · rw [one, List.length_cons]
        omega
      · rw [length, split, List.length_append]
        omega

end SabiRuby.Strings
