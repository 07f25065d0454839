import Mathlib.Data.List.Basic
import Mathlib.Data.UInt

/-!
# Templates

A template is a sequence of directives.  A directive is a letter with its table
entry, and a suffix of counts and modifiers, of which the last one wins.
-/

namespace SabiRuby.Packing

/-- What a directive does. -/
inductive Dir
  | char | short | long | quad | ber | utf8 | double | float | str | hex | bstr
  | base64 | uu | qenc | nul | back | abs | none
deriving DecidableEq, Repr

/-- What a directive takes. -/
inductive Kind
  | integer | float | string | none
deriving DecidableEq, Repr

/-- `PACK_FLAG_*`. -/
structure Flags where
  a : Bool := false
  z : Bool := false
  signed : Bool := false
  gt : Bool := false
  lt : Bool := false
  width : Bool := false
  lsb : Bool := false
  count2 : Bool := false
  le : Bool := false
deriving DecidableEq, Repr

/-- A directive with its modifiers and count. -/
structure Spec where
  dir : Dir
  ty : Kind
  size : Nat
  count : Int
  flags : Flags
deriving DecidableEq, Repr

def isSpace (c : UInt8) : Bool :=
  c = 32 || c = 9 || c = 10 || c = 11 || c = 12 || c = 13

/-- `pack_format_info`: the directive table. -/
def formatInfo (c : UInt8) : Dir × Kind × Nat × Flags :=
  match Char.ofNat c.toNat with
  | 'A' => (.str, .string, 0, { width := true, count2 := true })
  | 'a' => (.str, .string, 0, { width := true, count2 := true, a := true })
  | 'B' => (.bstr, .string, 0, { count2 := true })
  | 'b' => (.bstr, .string, 0, { count2 := true, lsb := true })
  | 'C' => (.char, .integer, 1, {})
  | 'c' => (.char, .integer, 1, { signed := true })
  | 'D' | 'd' => (.double, .float, 8, { signed := true })
  | 'E' => (.double, .float, 8, { signed := true, lt := true })
  | 'e' => (.float, .float, 4, { signed := true, lt := true })
  | 'F' | 'f' => (.float, .float, 4, { signed := true })
  | 'G' => (.double, .float, 8, { signed := true, gt := true })
  | 'g' => (.float, .float, 4, { signed := true, gt := true })
  | 'H' => (.hex, .string, 0, { count2 := true })
  | 'h' => (.hex, .string, 0, { count2 := true, lsb := true })
  | 'L' => (.long, .integer, 4, {})
  | 'l' => (.long, .integer, 4, { signed := true })
  | 'M' => (.qenc, .string, 0, { width := true, count2 := true })
  | 'm' => (.base64, .string, 0, { width := true, count2 := true })
  | 'N' => (.long, .integer, 4, { gt := true })
  | 'n' => (.short, .integer, 2, { gt := true })
  | 'Q' => (.quad, .integer, 8, {})
  | 'q' => (.quad, .integer, 8, { signed := true })
  | 'S' => (.short, .integer, 2, {})
  | 's' => (.short, .integer, 2, { signed := true })
  | 'u' => (.uu, .string, 0, { width := true, count2 := true })
  | 'U' => (.utf8, .integer, 0, {})
  | 'V' => (.long, .integer, 4, { lt := true })
  | 'v' => (.short, .integer, 2, { lt := true })
  | 'w' => (.ber, .integer, 0, { signed := true })
  | 'x' => (.nul, .none, 0, {})
  | 'X' => (.back, .none, 0, {})
  | '@' => (.abs, .none, 0, {})
  | 'Z' => (.str, .string, 0, { width := true, count2 := true, z := true })
  | _ => (.none, .none, 0, {})

/-- The errors of a template, with their messages. -/
inductive Refused
  | argument (message : String)
  | runtime (message : String)
  | unknown (directive : UInt8)
  | type (message : String)
  | range (message : String)
deriving DecidableEq, Repr

/-- A digit of a count. -/
def isDigit (c : UInt8) : Bool := 48 ≤ c && c ≤ 57

/-- The letters that take a modifier: `sSiIlLqQ`. -/
def takesModifier (c : UInt8) : Bool :=
  c ∈ ([115, 83, 105, 73, 108, 76, 113, 81] : List UInt8)

/-- The suffix of a directive: its count, its flags and what follows.  A run of
digits is read on from its number so far. -/
def readSuffix (c : UInt8) (ty : Kind) :
    Option Nat → Int → Flags → List UInt8 →
      Except Refused (Int × Flags × List UInt8)
  | _, count, flags, [] => .ok (count, flags, [])
  | number, count, flags, ch :: rest =>
      if isDigit ch then
        let n := number.getD 0 * 10 + (ch.toNat - 48)
        if n ≤ 2147483647 then readSuffix c ty (some n) n flags rest
        else .error (.runtime "too big template length")
      else if ch = 42 then
        readSuffix c ty none (if ty = .none then 0 else -1) flags rest
      else if ch = 95 ∨ ch = 33 ∨ ch = 60 ∨ ch = 62 then
        if takesModifier c = false then
          .error (.argument ("'" ++ String.singleton (Char.ofNat ch.toNat) ++
            "' allowed only after types sSiIlLqQ"))
        else
          readSuffix c ty none count
            { flags with lt := flags.lt || ch = 60, gt := flags.gt || ch = 62 }
            rest
      else .ok (count, flags, ch :: rest)

/-- `i` and `I` follow C's `int`, `j` and `J` its `intptr_t`. -/
def alias_ (c : UInt8) : UInt8 :=
  if c = 73 then 76 else if c = 105 then 108
  else if c = 74 then 81 else if c = 106 then 113
  else c

/-- `read_tmpl`: one directive with its modifiers and count, and the rest.
`little` says whether the host is little endian; in a comment everything up to
the end of the line is passed over. -/
def readTmpl (little : Bool) :
    Bool → List UInt8 → Except Refused (Spec × List UInt8)
  | _, [] => .ok (⟨.none, .none, 0, 1, {}⟩, [])
  | comment, c :: rest =>
      if comment then readTmpl little (c ≠ 10) rest
      else if isSpace c then readTmpl little false rest
      else if c = 35 then readTmpl little true rest
      else if c = 112 ∨ c = 80 ∨ c = 37 then
        .error (.argument
          (String.singleton (Char.ofNat c.toNat) ++ " is not supported"))
      else
        let info := formatInfo (alias_ c)
        if info.1 = .none then .error (.unknown (alias_ c))
        else
          match readSuffix (alias_ c) info.2.1 none 1 info.2.2.2 rest with
          | .error why => .error why
          | .ok (count, flags, rest) =>
              let le := flags.lt || (!flags.gt && little)
              .ok (⟨info.1, info.2.1, info.2.2.1, count,
                { flags with le := flags.le || le }⟩, rest)

/-- A suffix leaves the flags that are no byte order. -/
theorem readSuffix_flags
    (read : readSuffix c ty number count flags t = .ok (n, flags', rest)) :
    flags'.width = flags.width ∧ flags'.lsb = flags.lsb ∧
      flags'.count2 = flags.count2 := by
  induction t generalizing number count flags with
  | nil =>
      rw [readSuffix] at read
      cases read
      exact ⟨rfl, rfl, rfl⟩
  | cons ch t ih =>
      rw [readSuffix] at read
      dsimp only at read
      split at read
      case isTrue =>
        split at read
        case isTrue => exact ih read
        case isFalse => cases read
      case isFalse =>
        split at read
        case isTrue => exact ih read
        case isFalse =>
          split at read
          case isTrue =>
            split at read
            case isTrue => cases read
            case isFalse =>
              have kept := ih read
              exact kept
          case isFalse =>
            cases read
            exact ⟨rfl, rfl, rfl⟩

/-- What a directive that begins a template is read as. -/
theorem readTmpl_directive
    (plain : isSpace c = false ∧ c ≠ 35 ∧ ¬ (c = 112 ∨ c = 80 ∨ c = 37))
    (known : (formatInfo (alias_ c)).1 ≠ .none)
    (read : readTmpl little false (c :: t) = .ok (sp, rest)) :
    sp.dir = (formatInfo (alias_ c)).1 ∧
      sp.ty = (formatInfo (alias_ c)).2.1 ∧
      sp.flags.width = (formatInfo (alias_ c)).2.2.2.width ∧
      sp.flags.lsb = (formatInfo (alias_ c)).2.2.2.lsb ∧
      sp.flags.count2 = (formatInfo (alias_ c)).2.2.2.count2 := by
  rw [readTmpl, if_neg (by simp), plain.1, if_neg (by simp), if_neg plain.2.1,
    if_neg plain.2.2] at read
  dsimp only at read
  rw [if_neg known] at read
  split at read
  · cases read
  · rename_i suffix
    cases read
    have kept := readSuffix_flags suffix
    exact ⟨rfl, rfl, kept.1, kept.2.1, kept.2.2⟩

/-! ## Counts -/

/-- The value of a run of digits. -/
def countValue (digits : List UInt8) : Nat :=
  digits.foldl (fun n ch => n * 10 + (ch.toNat - 48)) 0

theorem countValue_le_foldl (digits : List UInt8) (n : Nat) :
    n ≤ digits.foldl (fun n ch => n * 10 + (ch.toNat - 48)) n := by
  induction digits generalizing n with
  | nil => exact Nat.le_refl n
  | cons ch digits ih =>
      rw [List.foldl_cons]
      have := ih (n * 10 + (ch.toNat - 48))
      omega

/-- A run of digits is read as its value. -/
theorem readSuffix_digits
    (c : UInt8)
    (ty : Kind)
    (flags : Flags)
    (digits : List UInt8)
    (are : ∀ ch ∈ digits, isDigit ch = true)
    (n : Nat)
    (small : digits.foldl (fun n ch => n * 10 + (ch.toNat - 48)) n ≤
      2147483647) :
    readSuffix c ty (some n) n flags digits =
      .ok ((digits.foldl (fun n ch => n * 10 + (ch.toNat - 48)) n : Nat), flags,
        []) := by
  induction digits generalizing n with
  | nil => rfl
  | cons ch digits ih =>
      rw [List.foldl_cons] at small ⊢
      have bound := countValue_le_foldl digits (n * 10 + (ch.toNat - 48))
      rw [readSuffix, if_pos (are ch List.mem_cons_self)]
      dsimp only
      rw [Option.getD_some, if_pos (by omega)]
      exact ih (fun ch mem => are ch (List.mem_cons_of_mem _ mem)) _ small

/-- The counts a template accepts: none, all, and digits up to the limit. -/
theorem readSuffix_counts (c : UInt8) (ty : Kind) (flags : Flags) :
    readSuffix c ty none 1 flags [] = .ok (1, flags, []) ∧
    readSuffix c ty none 1 flags [42] =
      .ok (if ty = .none then 0 else -1, flags, []) ∧
    ∀ digits, digits ≠ [] → (∀ ch ∈ digits, isDigit ch = true) →
      countValue digits ≤ 2147483647 →
        readSuffix c ty none 1 flags digits =
          .ok ((countValue digits : Nat), flags, []) := by
  refine ⟨rfl, rfl, ?_⟩
  intro digits some_ are small
  cases digits with
  | nil => exact absurd rfl some_
  | cons ch digits =>
      rw [countValue, List.foldl_cons] at small ⊢
      have bound := countValue_le_foldl digits (0 * 10 + (ch.toNat - 48))
      rw [readSuffix, if_pos (are ch List.mem_cons_self)]
      dsimp only
      rw [Option.getD_none, if_pos (by omega)]
      exact readSuffix_digits c ty flags digits
        (fun ch mem => are ch (List.mem_cons_of_mem _ mem)) _ small

end SabiRuby.Packing
