import SabiRuby.Lossy
import SabiRuby.Strings.Characters
import Mathlib.Algebra.Group.Nat.Defs

/-!
# The escapes of a pattern

An escape is read from behind its backslash: it answers its text for the
automaton, whether that text names raw bytes, and what is left of the pattern.
What it leaves lies behind the bytes that an escape names for certain.
-/

namespace SabiRuby.Regexps

open Strings

/-- An ASCII character of the pattern. -/
abbrev byte (c : Char) : UInt8 := UInt8.ofNat c.toNat

/-- `c as char`. -/
def asChar (c : UInt8) : Char := Char.ofNat c.toNat

def isDigit (c : UInt8) : Bool := byte '0' ≤ c && c ≤ byte '9'

def isOctal (c : UInt8) : Bool := byte '0' ≤ c && c ≤ byte '7'

def isHex (c : UInt8) : Bool :=
  isDigit c || (byte 'a' ≤ c && c ≤ byte 'f') ||
    (byte 'A' ≤ c && c ≤ byte 'F')

def isAlpha (c : UInt8) : Bool :=
  (byte 'a' ≤ c && c ≤ byte 'z') || (byte 'A' ≤ c && c ≤ byte 'Z')

/-- `is_ascii_whitespace`. -/
def isSpace (c : UInt8) : Bool :=
  c == 0x20 || c == 0x09 || c == 0x0A || c == 0x0C || c == 0x0D

/-! ## Texts -/

def upperHex (v : Nat) : String :=
  String.ofList ((Nat.toDigits 16 v).map Char.toUpper)

/-- A codepoint, as the automaton spells it. -/
def codeText (v : Nat) : String := "\\x\x7b" ++ upperHex v ++ "\x7d"

/-- A byte, in two digits. -/
def byteText (b : UInt8) : String :=
  "\\x" ++ (if b < 0x10 then "0" else "") ++ upperHex b.toNat

/-- `to_digit(16)`. -/
def hexDigit (c : UInt8) : Nat :=
  if isDigit c then (c - byte '0').toNat
  else if byte 'a' ≤ c && c ≤ byte 'f' then (c - byte 'a').toNat + 10
  else if byte 'A' ≤ c && c ≤ byte 'F' then (c - byte 'A').toNat + 10
  else 0

def hexValue (b : List UInt8) : Nat :=
  b.foldl (fun v c => v * 16 + hexDigit c) 0

def unsupported {α : Type} (what : String) : Except String α :=
  .error (what ++ " is not supported by this engine")

/-- How a pattern is read. -/
structure Tr where
  unicode : Bool
  extended : Bool
  ngroups : UInt32
  named : Bool
deriving DecidableEq, Repr

/-- A text, whether it names raw bytes, and what is left of the pattern. -/
abbrev Read := String × Bool × List UInt8

/-- A byte above ASCII and what follows it. -/
def pushHigh (unicode : Bool) (c : UInt8) (rest : List UInt8) : Read :=
  let n := utf8len (c :: rest) 0 true
  if unicode ∧ 1 < n then
    match String.fromUTF8? ⟨((c :: rest).take n).toArray⟩ with
    | some s => (s, false, (c :: rest).drop n)
    | none => (byteText c, true, rest)
  else (byteText c, true, rest)

theorem pushHigh_length (unicode : Bool) (c : UInt8) (rest : List UInt8) :
    (pushHigh unicode c rest).2.2.length ≤ rest.length := by
  unfold pushHigh
  dsimp only
  split
  · rename_i many
    split
    · rw [List.length_drop, List.length_cons]
      omega
    · exact Nat.le_refl _
  · exact Nat.le_refl _

def pushCodepoint (v : Nat) (inClass : Bool) (tr : Tr) : String × Bool :=
  if tr.unicode = false ∧ v.isValidChar then
    let bytes := String.utf8EncodeChar (Char.ofNat v)
    let spelled := (bytes.map byteText).foldl (· ++ ·) ""
    if 1 < bytes.length ∧ inClass = false then ("(?:" ++ spelled ++ ")", true)
    else (spelled, true)
  else (codeText v, false)

/-! ## Digits -/

/-- The loop over the digits of a number. -/
def decimalValue : Nat → List UInt8 → Nat
  | v, [] => v
  | v, c :: rest =>
      if isDigit c ∧ v < 1000000 then
        decimalValue (v * 10 + (c - byte '0').toNat) rest
      else v

def digitEscapeIsBackref (src : List UInt8) (tr : Tr) : Bool :=
  if src.head? = some (byte '0') then false
  else
    let v := decimalValue 0 src
    v ≤ 9 || v ≤ tr.ngroups.toNat

def readOctal (src : List UInt8) : Except String (Nat × List UInt8) :=
  let digits := (src.take 3).takeWhile isOctal
  let v := digits.foldl (fun v c => v * 8 + (c - byte '0').toNat) 0
  if 0xFF < v then .error "invalid escape code"
  else .ok (v, src.drop digits.length)

theorem readOctal_length
    (read : readOctal src = .ok (v, rest)) : rest.length ≤ src.length := by
  simp only [readOctal] at read
  split at read
  · cases read
  · cases read
    rw [List.length_drop]
    omega

/-- The bytes of a run of escapes. -/
def escapeRun
    (octal : Bool)
    (tr : Tr)
    (started : Bool) : List UInt8 → Except String (List UInt8 × List UInt8)
  | slash :: n :: rest =>
      if slash ≠ byte '\\' then .ok ([], slash :: n :: rest)
      else if octal then
        if isOctal n = false then .ok ([], slash :: n :: rest)
        else if started && digitEscapeIsBackref (n :: rest) tr then
          .ok ([], slash :: n :: rest)
        else
          match _ : readOctal (n :: rest) with
          | .error e => .error e
          | .ok (v, next) =>
              (escapeRun octal tr true next).map fun run =>
                (UInt8.ofNat v :: run.1, run.2)
      else if n ≠ byte 'x' ∨ rest.head?.any isHex = false then
        .ok ([], slash :: n :: rest)
      else
        let digits := (rest.take 2).takeWhile isHex
        (escapeRun octal tr true (rest.drop digits.length)).map fun run =>
          (UInt8.ofNat (hexValue digits) :: run.1, run.2)
  | src => .ok ([], src)
termination_by src => src.length
decreasing_by
  · have bound := readOctal_length ‹_›
    simp only [List.length_cons] at bound ⊢
    omega
  · simp only [List.length_drop, List.length_cons]
    omega

/-- The text of a run of bytes. -/
def bytesText (unicode : Bool) : List UInt8 → String × Bool
  | [] => ("", false)
  | b :: rest =>
      if b < 0x80 then
        let more := bytesText unicode rest
        (byteText b ++ more.1, more.2)
      else
        let high := pushHigh unicode b rest
        let more := bytesText unicode high.2.2
        (high.1 ++ more.1, high.2.1 || more.2)
termination_by src => src.length
decreasing_by
  · simp
  · have bound := pushHigh_length unicode b rest
    simp only [List.length_cons]
    omega

/-- `push_escape_bytes`, from the backslash. -/
def pushEscapeBytes
    (octal : Bool)
    (tr : Tr)
    (src : List UInt8) : Except String Read :=
  match escapeRun octal tr false src with
  | .error e => .error e
  | .ok (raws, rest) =>
      if raws = [] then
        .error (if octal then "invalid escape code" else "invalid hex escape")
      else
        let text := bytesText tr.unicode raws
        .ok (text.1, text.2, rest)

/-- The list of `\u{…}`, from behind the brace. -/
def unicodeList
    (inClass : Bool)
    (tr : Tr)
    (any : Bool)
    (src : List UInt8) : Except String Read :=
  let body := src.dropWhile (· == 0x20)
  if body.head? = some (byte '}') then
    if any then .ok ("", false, body.tail) else .error "invalid Unicode list"
  else
    let digits := body.takeWhile isHex
    if _ : digits.length = 0 ∨ 6 < digits.length then
      .error "invalid Unicode list"
    else
      let v := hexValue digits
      if 0x10FFFF < v ∨ (0xD800 ≤ v ∧ v < 0xE000) then
        .error "invalid Unicode range"
      else
        let text := pushCodepoint v inClass tr
        (unicodeList inClass tr true (body.drop digits.length)).map fun more =>
          (text.1 ++ more.1, text.2 || more.2.1, more.2.2)
termination_by src.length
decreasing_by
  have shorter : body.length ≤ src.length :=
    (List.dropWhile_suffix _).length_le
  have inside : digits.length ≤ body.length :=
    (List.takeWhile_prefix _).length_le
  have counted : ¬ (digits.length = 0 ∨ 6 < digits.length) := ‹_›
  change (body.drop digits.length).length < src.length
  rw [List.length_drop]
  omega

/-- The name of a group or of a reference, up to what closes it. -/
def readGroupName
    (close : UInt8)
    (src : List UInt8) : Except String (List UInt8 × List UInt8) :=
  let name := src.takeWhile (· != close)
  if name = [] then .error "group name is empty"
  else
    match src.dropWhile (· != close) with
    | [] => .error ("invalid group name <" ++ fromUtf8Lossy src ++ ">")
    | _ :: rest => .ok (name, rest)

def shorthand (c : UInt8) : Option String :=
  if c = byte 'd' then some "[0-9]"
  else if c = byte 'D' then some "[^0-9]"
  else if c = byte 'w' then some "[0-9A-Za-z_]"
  else if c = byte 'W' then some "[^0-9A-Za-z_]"
  else if c = byte 's' then some "[ \\t\\r\\n\\x\x7b0C\x7d\\x\x7b0B\x7d]"
  else if c = byte 'S' then some "[^ \\t\\r\\n\\x\x7b0C\x7d\\x\x7b0B\x7d]"
  else if c = byte 'h' then some "[0-9a-fA-F]"
  else if c = byte 'H' then some "[^0-9a-fA-F]"
  else none

/-- `\cX` and `\C-X`, from behind the `c` or the `-`. -/
def controlEscape : List UInt8 → Except String Read
  | [] => .error "too short control escape"
  | x :: rest =>
      let v := if x = byte '?' then 0x7F else (x &&& 0x1F).toNat
      .ok (codeText v, false, rest)

/-- `\u`, from behind the letter. -/
def unicodeEscape
    (inClass : Bool)
    (tr : Tr)
    (src : List UInt8) : Except String Read :=
  if src = [] then .error "too short escape sequence"
  else if src.head? = some (byte '\x7b') then
    unicodeList inClass tr false src.tail
  else if src.length < 4 ∨ (src.take 4).all isHex = false then
    .error "invalid Unicode escape"
  else
    let v := hexValue (src.take 4)
    if 0xD800 ≤ v ∧ v < 0xE000 then .error "invalid Unicode range"
    else
      let text := pushCodepoint v inClass tr
      .ok (text.1, text.2, src.drop 4)

/-- An escape that stands for its character. -/
def plainEscape (c : UInt8) : String :=
  if isAlpha c ∧
      c ∉ [byte 'a', byte 'f', byte 'n', byte 'r', byte 't', byte 'v'] then
    String.singleton (asChar c)
  else if isSpace c ∨ c = byte '#' then byteText c
  else "\\" ++ String.singleton (asChar c)

/-- `translate_escape`, from behind the backslash. -/
def translateEscape
    (inClass : Bool)
    (tr : Tr) : List UInt8 → Except String Read
  | [] => .error "too short escape sequence"
  | c :: rest =>
      match shorthand c with
      | some text =>
          .ok (if inClass then text else "(?-i:" ++ text ++ ")", false, rest)
      | none =>
          if byte '1' ≤ c ∧ c ≤ byte '9' ∧ inClass = false then
            let v := decimalValue 0 (c :: rest)
            if v ≤ 9 ∨ v ≤ tr.ngroups.toNat then
              if tr.named then
                .error "numbered backref/call is not allowed. (use name)"
              else unsupported "backreference"
            else if c = byte '8' ∨ c = byte '9' then
              .ok (String.singleton (asChar c), false, rest)
            else pushEscapeBytes true tr (byte '\\' :: c :: rest)
          else if (c = byte 'k' ∨ c = byte 'g') ∧ inClass = false ∧
              (rest.head? = some (byte '<') ∨
                rest.head? = some (byte '\'')) then
            let close :=
              if rest.head? = some (byte '<') then byte '>' else byte '\''
            match readGroupName close rest.tail with
            | .error e => .error e
            | .ok _ =>
                if c = byte 'k' then unsupported "named backreference"
                else unsupported "subexpression call"
          else if isOctal c then
            pushEscapeBytes true tr (byte '\\' :: c :: rest)
          else if (c = byte '8' ∨ c = byte '9') ∧ inClass then
            .ok (String.singleton (asChar c), false, rest)
          else if c = byte 'A' ∨ c = byte 'z' ∨ c = byte 'B' then
            .ok ("\\" ++ String.singleton (asChar c), false, rest)
          else if c = byte 'b' then
            .ok (if inClass then "\\x\x7b08\x7d" else "\\b", false, rest)
          else if c = byte 'Z' then .ok ("\\z", false, rest)
          else if
              (c = byte 'G' ∨ c = byte 'K' ∨ c = byte 'R' ∨ c = byte 'X') ∧
                inClass = false then
            unsupported ("\\" ++ String.singleton (asChar c))
          else if c = byte 'M' ∧ inClass = false then
            unsupported "meta escape"
          else if c = byte 'c' then controlEscape rest
          else if c = byte 'C' then
            if rest.head? = some (byte '-') then controlEscape rest.tail
            else .error "too short control escape"
          else if c = byte 'u' then unicodeEscape inClass tr rest
          else if c = byte 'e' then .ok ("\\x\x7b1B\x7d", false, rest)
          else if 0x80 ≤ c then .ok (pushHigh tr.unicode c rest)
          else if c = byte 'x' ∧ rest.head? = some (byte '\x7b') then
            match rest.tail.dropWhile (· != byte '\x7d') with
            | [] => .error "invalid hex escape"
            | _ :: next =>
                let named := rest.tail.takeWhile (· != byte '\x7d')
                .ok ("\\x\x7b" ++ fromUtf8Lossy named ++ "\x7d", false, next)
          else if c = byte 'x' then
            pushEscapeBytes false tr (byte '\\' :: c :: rest)
          else if (c = byte 'p' ∨ c = byte 'P') ∧
              rest.head? = some (byte '\x7b') then
            unsupported "character property"
          else .ok (plainEscape c, false, rest)

/-! ## What an escape leaves -/

/-- The bytes at which something other than a character may begin or end. -/
def marks : List UInt8 := [byte '\\', byte '#', byte '[', byte '(', byte ']']

/-- Behind the first of a byte. -/
def afterByte (c : UInt8) (src : List UInt8) : List UInt8 :=
  (src.dropWhile (· != c)).tail

theorem afterByte_suffix (c : UInt8) (src : List UInt8) :
    afterByte c src <:+ src :=
  (List.tail_suffix _).trans (List.dropWhile_suffix _)

theorem afterByte_length (c : UInt8) (src : List UInt8) :
    (afterByte c src).length ≤ src.length := (afterByte_suffix c src).length_le

/-- Behind the bytes that an escape names for certain: one more for a control
character, all up to the brace for a braced hex escape. -/
def afterEscape : List UInt8 → List UInt8
  | [] => []
  | c :: rest =>
      if c = byte 'c' then rest.tail
      else if c = byte 'C' then rest.tail.tail
      else if c = byte 'x' ∧ rest.head? = some (byte '\x7b') then
        afterByte (byte '\x7d') rest.tail
      else rest

/-- What is left lies behind characters and escapes. -/
inductive Skips : List UInt8 → List UInt8 → Prop
  | refl (src : List UInt8) : Skips src src
  | char {c : UInt8} {src rest : List UInt8} :
      c ∉ marks → Skips src rest → Skips (c :: src) rest
  | escape {src rest : List UInt8} :
      Skips (afterEscape src) rest → Skips (byte '\\' :: src) rest

section Skipping

variable {c : UInt8} {src rest : List UInt8} {tr : Tr} {inClass : Bool}
variable {p : UInt8 → Bool}

/-- A kind of bytes without the marks. -/
theorem not_mem_marks
    (none : marks.all (fun x => !p x) = true)
    (holds : p c = true) : c ∉ marks := by
  intro mem
  have refused := List.all_eq_true.mp none c mem
  simp [holds] at refused

theorem high_not_mem_marks (high : 0x80 ≤ c) : c ∉ marks :=
  not_mem_marks (p := fun c => decide (0x80 ≤ c)) (by decide)
    (by simpa using high)

/-- A stretch of characters. -/
theorem Skips.append
    (plain : ∀ c ∈ chars, c ∉ marks)
    (skips : Skips src rest) : Skips (chars ++ src) rest := by
  induction chars with
  | nil => exact skips
  | cons c chars ih =>
      exact .char (plain c (List.mem_cons_self ..))
        (ih fun x mem => plain x (List.mem_cons_of_mem _ mem))

/-- The bytes at the front that are all of a kind. -/
theorem Skips.dropFront
    (front : chars <+: src)
    (none : marks.all (fun x => !p x) = true)
    (kind : chars.all p = true)
    (skips : Skips (src.drop chars.length) rest) : Skips src rest := by
  obtain ⟨more, rfl⟩ := front
  rw [List.drop_left] at skips
  exact skips.append fun c mem =>
    not_mem_marks none (List.all_eq_true.mp kind c mem)

theorem Skips.dropDigits
    (none : marks.all (fun x => !p x) = true)
    (n : Nat)
    (skips : Skips (src.drop ((src.take n).takeWhile p).length) rest) :
    Skips src rest :=
  skips.dropFront ((List.takeWhile_prefix p).trans (List.take_prefix n src))
    none List.all_takeWhile

theorem Skips.dropWhile
    (none : marks.all (fun x => !p x) = true)
    (skips : Skips (src.dropWhile p) rest) : Skips src rest := by
  rw [← List.takeWhile_append_dropWhile (p := p) (l := src)]
  exact skips.append fun c mem =>
    not_mem_marks none (List.all_eq_true.mp List.all_takeWhile c mem)

theorem afterEscape_of_ne
    (control : c ≠ byte 'c')
    (dashed : c ≠ byte 'C')
    (hex : c = byte 'x' → src.head? ≠ some (byte '\x7b')) :
    afterEscape (c :: src) = src := by
  rw [afterEscape, if_neg control, if_neg dashed, if_neg]
  rintro ⟨same, brace⟩
  exact hex same brace

/-- A kind of bytes without the letters of the longer escapes. -/
theorem afterEscape_of
    (none : [byte 'c', byte 'C', byte 'x'].all (fun x => !p x) = true)
    (holds : p c = true) : afterEscape (c :: src) = src := by
  have ne : ∀ x ∈ [byte 'c', byte 'C', byte 'x'], c ≠ x := by
    rintro x mem rfl
    have refused := List.all_eq_true.mp none c mem
    simp [holds] at refused
  exact afterEscape_of_ne (ne _ (by simp)) (ne _ (by simp))
    fun same => absurd same (ne _ (by simp))

theorem Skips.trans
    (first : Skips src rest)
    (second : Skips rest more) : Skips src more := by
  induction first with
  | refl => exact second
  | char plain _ ih => exact .char plain (ih second)
  | escape _ ih => exact .escape (ih second)

theorem sequence_high
    (sequence : Sequence q) : ∀ c ∈ q, (0x80 : UInt8) ≤ c := by
  cases sequence <;> simp only [Tail] at * <;> grind

theorem pushHigh_skips (unicode : Bool) (c : UInt8) (rest : List UInt8) :
    Skips rest (pushHigh unicode c rest).2.2 := by
  unfold pushHigh
  dsimp only
  split
  · rename_i many
    split
    · rcases headLen_cases c rest with
        one | ⟨q, suffix, sequence, split, length⟩
      · exact absurd many.2 (by rw [← headLen, one]; decide)
      · obtain ⟨first, chars, rfl⟩ : ∃ first chars, q = first :: chars := by
          cases sequence <;> exact ⟨_, _, rfl⟩
        rw [← headLen, length, split, List.drop_left]
        rw [List.cons_append] at split
        cases split
        exact (Skips.refl _).append fun x mem => high_not_mem_marks
          (sequence_high sequence x (List.mem_cons_of_mem _ mem))
    · exact .refl _
  · exact .refl _

theorem map_eq_ok
    {result : Except ε α}
    {b : β}
    (mapped : result.map f = .ok b) : ∃ a, result = .ok a ∧ f a = b := by
  cases result with
  | error e => cases mapped
  | ok a => exact ⟨a, rfl, Except.ok.inj mapped⟩

theorem readOctal_skips
    (octal : isOctal n = true)
    (read : readOctal (n :: src) = .ok (v, rest)) : Skips src rest := by
  simp only [readOctal, List.take_succ_cons, List.takeWhile_cons, octal,
    if_true] at read
  split at read
  · cases read
  · cases read
    exact Skips.dropDigits (p := isOctal) (by decide) 2 (.refl _)

theorem Skips.ofRun
    (left : (raws = [] ∧ rest = src) ∨
      ∃ next, src = byte '\\' :: next ∧ Skips (afterEscape next) rest) :
    Skips src rest := by
  rcases left with ⟨-, rfl⟩ | ⟨next, rfl, skips⟩
  · exact .refl _
  · exact .escape skips

/-- A run leaves everything, or what lies behind its escapes. -/
theorem escapeRun_skips
    {raws : List UInt8}
    (read : escapeRun octal tr started src = .ok (raws, rest)) :
    (raws = [] ∧ rest = src) ∨
      ∃ next, src = byte '\\' :: next ∧ Skips (afterEscape next) rest := by
  fun_induction escapeRun octal tr started src generalizing raws rest
  case case5 slash n more slashed _ digit _ v next digits ih =>
    obtain ⟨⟨raws, rest⟩, ran, same⟩ := map_eq_ok read
    cases same
    have digit : isOctal n = true := by simpa using digit
    refine Or.inr ⟨n :: more, by rw [not_not.mp slashed], ?_⟩
    rw [afterEscape_of (p := isOctal) (by decide) digit]
    exact (readOctal_skips digit digits).trans (.ofRun (ih ran))
  case case7 slash n more slashed _ hex digits ih =>
    obtain ⟨⟨raws, rest⟩, ran, same⟩ := map_eq_ok read
    cases same
    obtain ⟨rfl, hex⟩ : n = byte 'x' ∧ more.head?.any isHex = true := by
      simpa using hex
    refine Or.inr ⟨byte 'x' :: more, by rw [not_not.mp slashed], ?_⟩
    rw [afterEscape_of_ne (by decide) (by decide)]
    · exact Skips.dropDigits (p := isHex) (by decide) 2 (.ofRun (ih ran))
    · intro _ brace
      rw [brace] at hex
      exact absurd hex (by decide)
  case case4 => cases read
  all_goals
    cases read
    exact Or.inl ⟨rfl, rfl⟩

variable {read : Read}

theorem pushEscapeBytes_skips
    (pushed : pushEscapeBytes octal tr (byte '\\' :: src) = .ok read) :
    Skips (afterEscape src) read.2.2 := by
  unfold pushEscapeBytes at pushed
  split at pushed
  · cases pushed
  · rename_i raws rest ran
    split at pushed
    · cases pushed
    · rename_i some_
      cases pushed
      rcases escapeRun_skips ran with ⟨none, -⟩ | ⟨next, same, skips⟩
      · exact absurd none some_
      · cases same
        exact skips

theorem unicodeList_skips
    {any : Bool}
    (listed : unicodeList inClass tr any src = .ok read) :
    Skips src read.2.2 := by
  fun_induction unicodeList inClass tr any src generalizing read
  case case1 src body brace =>
    obtain ⟨tail, same⟩ : ∃ tail, body = byte '\x7d' :: tail :=
      List.head?_eq_some_iff.mp brace
    cases listed
    refine Skips.dropWhile (p := (· == 0x20)) (by decide) ?_
    change Skips body body.tail
    rw [same]
    exact .char (by decide) (.refl _)
  case case5 any src body _ digits _ v _ text ih =>
    obtain ⟨more, later, rfl⟩ := map_eq_ok listed
    refine Skips.dropWhile (p := (· == 0x20)) (by decide) ?_
    exact (ih later).dropFront (p := isHex) (List.takeWhile_prefix _)
      (by decide) List.all_takeWhile
  all_goals cases listed

theorem unicodeEscape_skips
    (escaped : unicodeEscape inClass tr src = .ok read) :
    Skips src read.2.2 := by
  unfold unicodeEscape at escaped
  split at escaped
  · cases escaped
  · split at escaped
    · rename_i brace
      obtain ⟨tail, rfl⟩ := List.head?_eq_some_iff.mp brace
      exact .char (by decide) (unicodeList_skips escaped)
    · split at escaped
      · cases escaped
      · rename_i digits
        dsimp only at escaped
        split at escaped
        · cases escaped
        · cases escaped
          have four : (src.take 4).length = 4 := by
            rw [List.length_take]
            omega
          refine Skips.dropFront (p := isHex) (List.take_prefix 4 src)
            (by decide) (by simpa using (not_or.mp digits).2) ?_
          rw [four]
          exact .refl _

theorem controlEscape_eq
    (escaped : controlEscape src = .ok read) : read.2.2 = src.tail := by
  cases src with
  | nil => cases escaped
  | cons x src =>
      cases escaped
      rfl

theorem translateEscape_control :
    translateEscape inClass tr (byte 'c' :: src) = controlEscape src := rfl

theorem translateEscape_dashed :
    translateEscape inClass tr (byte 'C' :: src) =
      if src.head? = some (byte '-') then controlEscape src.tail
      else .error "too short control escape" := rfl

theorem translateEscape_hex :
    translateEscape inClass tr (byte 'x' :: src) =
      if src.head? = some (byte '\x7b') then
        match src.tail.dropWhile (· != byte '\x7d') with
        | [] => .error "invalid hex escape"
        | _ :: next =>
            let named := src.tail.takeWhile (· != byte '\x7d')
            .ok ("\\x\x7b" ++ fromUtf8Lossy named ++ "\x7d", false, next)
      else pushEscapeBytes false tr (byte '\\' :: byte 'x' :: src) := by
  simp only [translateEscape, true_and]
  rfl

/-- Whatever is read leaves what lies behind characters and escapes. -/
def Leaves (src : List UInt8) (result : Except String Read) : Prop :=
  ∀ read, result = .ok read → Skips src read.2.2

theorem leaves_ok {text : String} {raw : Bool} :
    Leaves src (.ok (text, raw, src)) := by
  rintro read ⟨⟩
  exact .refl _

theorem leaves_error {message : String} : Leaves src (.error message) :=
  fun _ read => nomatch read

theorem leaves_unsupported {what : String} : Leaves src (unsupported what) :=
  leaves_error

theorem leaves_ite
    {condition : Prop}
    [Decidable condition]
    (left : condition → Leaves src yes)
    (right : ¬ condition → Leaves src no) :
    Leaves src (if condition then yes else no) := by
  split
  · exact left ‹_›
  · exact right ‹_›

/-- An escape is answered with what lies behind the bytes that it names for
certain, and perhaps behind some more characters and escapes. -/
theorem translateEscape_skips
    (escaped : translateEscape inClass tr src = .ok read) :
    Skips (afterEscape src) read.2.2 := by
  cases src with
  | nil => cases escaped
  | cons c src =>
    by_cases control : c = byte 'c'
    · subst control
      rw [translateEscape_control] at escaped
      rw [controlEscape_eq escaped]
      exact .refl _
    by_cases dashed : c = byte 'C'
    · subst dashed
      rw [translateEscape_dashed] at escaped
      split at escaped
      · rw [controlEscape_eq escaped]
        exact .refl _
      · cases escaped
    by_cases hex : c = byte 'x'
    · subst hex
      rw [translateEscape_hex] at escaped
      split at escaped
      · rename_i brace
        split at escaped
        · cases escaped
        · rename_i next found
          cases escaped
          rw [afterEscape, if_neg (by decide), if_neg (by decide),
            if_pos ⟨rfl, brace⟩, afterByte, found]
          exact Skips.refl next
      · exact pushEscapeBytes_skips escaped
    have plain : afterEscape (c :: src) = src :=
      afterEscape_of_ne control dashed fun same => absurd same hex
    rw [plain]
    revert escaped
    rw [translateEscape]
    generalize shorthand c = short
    revert read
    change Leaves src _
    cases short with
    | some text => exact leaves_ok
    | none =>
      dsimp only
      have run : ∀ octal,
          Leaves src (pushEscapeBytes octal tr (byte '\\' :: c :: src)) := by
        intro octal read pushed
        exact plain ▸ pushEscapeBytes_skips pushed
      -- one line for each arm of the escape
      refine leaves_ite (fun _ => ?digit) fun _ => ?_
      case digit =>
        refine leaves_ite (fun _ => ?_) fun _ =>
          leaves_ite (fun _ => leaves_ok) fun _ => run true
        exact leaves_ite (fun _ => leaves_error) fun _ => leaves_unsupported
      refine leaves_ite (fun _ => ?reference) fun _ => ?_
      case reference =>
        generalize readGroupName _ _ = name
        cases name with
        | error e => exact leaves_error
        | ok _ =>
            exact leaves_ite (fun _ => leaves_unsupported)
              fun _ => leaves_unsupported
      refine leaves_ite (fun _ => run true) fun _ => ?_
      refine leaves_ite (fun _ => leaves_ok) fun _ => ?_
      refine leaves_ite (fun _ => leaves_ok) fun _ => ?_
      refine leaves_ite (fun _ => leaves_ok) fun _ => ?_
      refine leaves_ite (fun _ => leaves_ok) fun _ => ?_
      refine leaves_ite (fun _ => leaves_unsupported) fun _ => ?_
      refine leaves_ite (fun _ => leaves_unsupported) fun _ => ?_
      refine leaves_ite (fun same => absurd same control) fun _ => ?_
      refine leaves_ite (fun same => absurd same dashed) fun _ => ?_
      refine leaves_ite (fun _ _ => unicodeEscape_skips) fun _ => ?_
      refine leaves_ite (fun _ => leaves_ok) fun _ => ?_
      refine leaves_ite (fun _ => ?high) fun _ => ?_
      case high =>
        rintro read ⟨⟩
        exact pushHigh_skips tr.unicode c src
      refine leaves_ite (fun same => absurd same.1 hex) fun _ => ?_
      refine leaves_ite (fun _ => run false) fun _ => ?_
      refine leaves_ite (fun _ => leaves_unsupported) fun _ => leaves_ok

theorem afterEscape_suffix (src : List UInt8) :
    afterEscape src <:+ src.tail := by
  cases src with
  | nil => exact List.suffix_refl _
  | cons c rest =>
      rw [afterEscape, List.tail_cons]
      split
      · exact List.tail_suffix _
      · split
        · exact (List.tail_suffix _).trans (List.tail_suffix _)
        · split
          · exact (afterByte_suffix _ _).trans (List.tail_suffix _)
          · exact List.suffix_refl _

theorem afterEscape_length : (afterEscape src).length ≤ src.length :=
  ((afterEscape_suffix src).trans (List.tail_suffix src)).length_le

theorem Skips.length_le (skips : Skips src rest) :
    rest.length ≤ src.length := by
  induction skips with
  | refl => exact Nat.le_refl _
  | char _ _ ih => exact Nat.le_succ_of_le ih
  | escape _ ih => exact Nat.le_succ_of_le (Nat.le_trans ih afterEscape_length)

theorem translateEscape_length
    (escaped : translateEscape inClass tr src = .ok read) :
    read.2.2.length ≤ src.length :=
  Nat.le_trans (translateEscape_skips escaped).length_le afterEscape_length

end Skipping

end SabiRuby.Regexps
