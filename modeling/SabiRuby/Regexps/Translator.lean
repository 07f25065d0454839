import SabiRuby.Regexps.Escapes

/-!
# The translation of a pattern

Two scans of the pattern say whether it names a group and how many groups it
opens.  The translation reads it once more and writes it for the automaton.
-/

namespace SabiRuby.Regexps

open Strings

/-! ## Classes -/

/-- `if src.get(j) == Some(&c) { j += 1; }`. -/
def skipByte (c : UInt8) : List UInt8 → List UInt8
  | [] => []
  | x :: rest => if x = c then rest else x :: rest

theorem skipByte_suffix (c : UInt8) (src : List UInt8) :
    skipByte c src <:+ src := by
  cases src with
  | nil => exact List.suffix_refl _
  | cons x rest =>
      rw [skipByte]
      split
      · exact List.suffix_cons x rest
      · exact List.suffix_refl _

theorem skipByte_cases (c : UInt8) (src : List UInt8) :
    src = skipByte c src ∨ src = c :: skipByte c src := by
  cases src with
  | nil => exact Or.inl rfl
  | cons x rest =>
      by_cases same : x = c
      · exact Or.inr (by rw [skipByte, if_pos same, same])
      · exact Or.inl (by rw [skipByte, if_neg same])

/-- Behind the `^` and the `]` that may stand first in a class. -/
def firstMembers (src : List UInt8) : List UInt8 :=
  skipByte (byte ']') (skipByte (byte '^') src)

theorem firstMembers_suffix (src : List UInt8) : firstMembers src <:+ src :=
  (skipByte_suffix _ _).trans (skipByte_suffix _ _)

theorem firstMembers_length (src : List UInt8) :
    (firstMembers src).length ≤ src.length :=
  (firstMembers_suffix src).length_le

/-- How a scan steps over an escape, from behind the backslash. -/
structure Stride where
  past : List UInt8 → List UInt8
  suffix : ∀ src, past src <:+ src

theorem Stride.shorter (stride : Stride) (src : List UInt8) :
    (stride.past src).length ≤ src.length := (stride.suffix src).length_le

/-- Two bytes, the backslash and one more. -/
def Stride.two : Stride where
  past := List.tail
  suffix := List.tail_suffix

/-- All the bytes that an escape names for certain. -/
def Stride.whole : Stride where
  past := afterEscape
  suffix src := (afterEscape_suffix src).trans (List.tail_suffix src)

/-- The members of a class.  The depth counts the calls for the classes around
this one. -/
def skipMembers (stride : Stride) : Nat → List UInt8 → List UInt8
  | _, [] => []
  | depth, c :: rest =>
      if c = byte ']' then
        match depth with
        | 0 => rest
        | depth + 1 => skipMembers stride depth rest
      else if c = byte '\\' then skipMembers stride depth (stride.past rest)
      else if c = byte '[' then
        if rest.head? = some (byte ':') then
          skipMembers stride depth (afterByte (byte ']') rest.tail)
        else skipMembers stride (depth + 1) (firstMembers rest)
      else skipMembers stride depth rest
termination_by _ src => src.length
decreasing_by
  · exact Nat.lt_succ_self _
  · exact Nat.lt_succ_of_le (stride.shorter rest)
  · have shorter := afterByte_length (byte ']') rest.tail
    rw [List.length_tail] at shorter
    rw [List.length_cons]
    omega
  · exact Nat.lt_succ_of_le (firstMembers_length rest)
  · exact Nat.lt_succ_self _

theorem skipMembers_suffix (stride : Stride) (depth : Nat) (src : List UInt8) :
    skipMembers stride depth src <:+ src := by
  fun_induction skipMembers stride depth src
  case case1 => exact List.suffix_refl _
  case case2 rest => exact List.suffix_cons _ rest
  case case4 depth rest _ ih =>
    exact (ih.trans (stride.suffix rest)).trans (List.suffix_cons _ rest)
  case case5 depth rest _ _ _ ih =>
    exact (ih.trans (afterByte_suffix _ _)).trans
      ((List.tail_suffix rest).trans (List.suffix_cons _ rest))
  case case6 depth rest _ _ _ ih =>
    exact (ih.trans (firstMembers_suffix rest)).trans (List.suffix_cons _ rest)
  all_goals exact List.IsSuffix.trans ‹_› (List.suffix_cons _ _)

/-- A class, from behind its bracket. -/
def classEnd (stride : Stride) (src : List UInt8) : List UInt8 :=
  skipMembers stride 0 (firstMembers src)

/-- `skip_class`. -/
def skipClass (src : List UInt8) : List UInt8 := classEnd .two src

theorem classEnd_suffix (stride : Stride) (src : List UInt8) :
    classEnd stride src <:+ src :=
  (skipMembers_suffix ..).trans (firstMembers_suffix src)

theorem classEnd_length (stride : Stride) (src : List UInt8) :
    (classEnd stride src).length ≤ src.length :=
  (classEnd_suffix stride src).length_le

/-! ## Scans -/

/-- Behind the `)` that closes a comment group. -/
def afterComment : List UInt8 → List UInt8
  | [] => []
  | [_] => []
  | c :: d :: rest =>
      if c = byte ')' then d :: rest
      else if c = byte '\\' then afterComment rest
      else afterComment (d :: rest)

theorem afterComment_suffix (src : List UInt8) : afterComment src <:+ src := by
  fun_induction afterComment src
  case case1 => exact List.suffix_refl _
  case case2 => exact List.nil_suffix
  case case3 d rest => exact List.suffix_cons _ _
  case case4 d rest _ ih =>
    exact ih.trans ((List.suffix_cons d rest).trans (List.suffix_cons _ _))
  case case5 ih => exact ih.trans (List.suffix_cons _ _)

theorem afterComment_length (src : List UInt8) :
    (afterComment src).length ≤ src.length :=
  (afterComment_suffix src).length_le

/-- Behind a comment of free spacing. -/
def afterLine (src : List UInt8) : List UInt8 := src.dropWhile (· != byte '\n')

theorem afterLine_suffix (src : List UInt8) : afterLine src <:+ src :=
  List.dropWhile_suffix _

theorem afterLine_length (src : List UInt8) :
    (afterLine src).length ≤ src.length := (afterLine_suffix src).length_le

/-- `(?<` opens no group that is named when it looks behind. -/
def looksBehind (src : List UInt8) : Bool :=
  src.head? = some (byte '=') || src.head? = some (byte '!')

/-- The scan of `has_named_group`. -/
def scanNamed (stride : Stride) (extended : Bool) : List UInt8 → Bool
  | [] => false
  | c :: rest =>
      if c = byte '\\' then scanNamed stride extended (stride.past rest)
      else if c = byte '#' ∧ extended then
        scanNamed stride extended (afterLine rest)
      else if c = byte '[' then
        scanNamed stride extended (classEnd stride rest)
      else if c = byte '(' ∧ rest.head? = some (byte '?') then
        if rest.tail.head? = some (byte '#') then
          scanNamed stride extended (afterComment rest.tail.tail)
        else if rest.tail.head? = some (byte '\'') then true
        else if rest.tail.head? = some (byte '<') ∧
            looksBehind rest.tail.tail = false then true
        else scanNamed stride extended rest
      else scanNamed stride extended rest
termination_by src => src.length
decreasing_by
  · exact Nat.lt_succ_of_le (stride.shorter rest)
  · exact Nat.lt_succ_of_le (afterLine_length rest)
  · exact Nat.lt_succ_of_le (classEnd_length stride rest)
  · have shorter := afterComment_length rest.tail.tail
    simp only [List.length_tail] at shorter
    rw [List.length_cons]
    omega
  · exact Nat.lt_succ_self _
  · exact Nat.lt_succ_self _

/-- The scan of `count_groups`. -/
def scanGroups (stride : Stride) (extended : Bool) : List UInt8 → Nat
  | [] => 0
  | c :: rest =>
      if c = byte '\\' then scanGroups stride extended (stride.past rest)
      else if c = byte '#' ∧ extended then
        scanGroups stride extended (afterLine rest)
      else if c = byte '[' then
        scanGroups stride extended (classEnd stride rest)
      else if c = byte '(' ∧ rest.head? ≠ some (byte '?') then
        scanGroups stride extended rest + 1
      else if c = byte '(' then
        if rest.tail.head? = some (byte '#') then
          scanGroups stride extended (afterComment rest.tail.tail)
        else if rest.tail.head? = some (byte '\'') then
          scanGroups stride extended rest.tail.tail + 1
        else if rest.tail.head? = some (byte '<') ∧
            looksBehind rest.tail.tail = false then
          scanGroups stride extended rest.tail.tail + 1
        else scanGroups stride extended rest
      else scanGroups stride extended rest
termination_by src => src.length
decreasing_by
  · exact Nat.lt_succ_of_le (stride.shorter rest)
  · exact Nat.lt_succ_of_le (afterLine_length rest)
  · exact Nat.lt_succ_of_le (classEnd_length stride rest)
  · exact Nat.lt_succ_self _
  · have shorter := afterComment_length rest.tail.tail
    simp only [List.length_tail] at shorter
    rw [List.length_cons]
    omega
  · simp only [List.length_tail, List.length_cons]
    omega
  · simp only [List.length_tail, List.length_cons]
    omega
  · exact Nat.lt_succ_self _
  · exact Nat.lt_succ_self _

def hasNamedGroup (extended : Bool) (src : List UInt8) : Bool :=
  scanNamed .two extended src

/-- The counter of `count_groups` is a `u32`. -/
def countGroups (extended : Bool) (src : List UInt8) : UInt32 :=
  UInt32.ofNat (scanGroups .two extended src)

/-! ## Texts of a class -/

/-- More text in front of what was read. -/
def prepend (text : String) (raw : Bool) (read : Read) : Read :=
  (text ++ read.1, raw || read.2.1, read.2.2)

def pushWrapped (text : String) (wrap : Bool) : String :=
  if wrap then "(?-u:" ++ text ++ ")" else text

def bytes (s : String) : List UInt8 := s.toList.map byte

/-- `POSIX_NAMES`, with the properties that stand for them among Unicode. -/
def posixSets : List (String × Option String) :=
  [("alpha", some "\\p\x7bAlphabetic\x7d"),
   ("digit", some "\\p\x7bNd\x7d"),
   ("alnum", some "\\p\x7bAlphabetic\x7d\\p\x7bNd\x7d"),
   ("upper", some "\\p\x7bUppercase\x7d"),
   ("lower", some "\\p\x7bLowercase\x7d"),
   ("space", some "\\p\x7bWhite_Space\x7d"),
   ("blank", some "\\p\x7bZs\x7d\\t"),
   ("word", some ("\\p\x7bAlphabetic\x7d\\p\x7bM\x7d\\p\x7bNd\x7d" ++
     "\\p\x7bPc\x7d\\p\x7bJoin_Control\x7d")),
   ("cntrl", some "\\p\x7bCc\x7d"),
   ("punct", some "\\p\x7bP\x7d$+<=>^\x60|~"),
   ("graph", some "[^\\p\x7bCc\x7d\\p\x7bCn\x7d\\p\x7bZ\x7d]"),
   ("print", some "[^\\p\x7bCc\x7d\\p\x7bCn\x7d\\p\x7bZl\x7d\\p\x7bZp\x7d]"),
   ("xdigit", none),
   ("ascii", none)]

def posixClass
    (name : List UInt8)
    (unicode : Bool) : Except String (Option String) :=
  match posixSets.find? fun entry => bytes entry.1 = name with
  | none => .error "invalid POSIX bracket type"
  | some (_, set_) => .ok (if unicode then set_ else none)

/-- A POSIX bracket, from behind its `[:`. -/
def posixBracket
    (unicode : Bool)
    (src : List UInt8) : Except String (String × List UInt8) :=
  let negated : Bool := src.head? = some (byte '^')
  let named := skipByte (byte '^') src
  let inName (c : UInt8) : Bool := c != byte ':' && c != byte ']'
  let name := named.takeWhile inName
  match named.dropWhile inName with
  | colon :: bracket :: next =>
      if colon = byte ':' ∧ bracket = byte ']' then
        match posixClass name unicode with
        | .error e => .error e
        | .ok (some set_) =>
            .ok (if negated then "[^" ++ set_ ++ "]" else set_, next)
        | .ok none =>
            let shown := if negated then byte '^' :: name else name
            .ok (fromUtf8Lossy (bytes "[:" ++ shown ++ bytes ":]"), next)
      else .error "premature end of char-class"
  | _ => .error "premature end of char-class"

theorem posixBracket_eq
    (read : posixBracket unicode src = .ok (text, next)) :
    next = afterByte (byte ']') src := by
  simp only [posixBracket] at read
  split at read
  · rename_i colon bracket next' found
    split at read
    · rename_i closed
      obtain ⟨rfl, rfl⟩ := closed
      have same : next' = next := by
        split at read <;> cases read <;> rfl
      subst same
      have kept : ∀ chars : List UInt8,
          (∀ c ∈ chars, (c != byte ']') = true) →
          afterByte (byte ']') (chars ++ byte ':' :: byte ']' :: next') =
            next' := by
        intro chars other
        rw [afterByte, List.dropWhile_append_of_pos other]
        rfl
      have other : ∀ c ∈ List.takeWhile
          (fun c : UInt8 => c != byte ':' && c != byte ']')
          (skipByte (byte '^') src), (c != byte ']') = true := by
        intro c mem
        have both := List.all_eq_true.mp List.all_takeWhile c mem
        exact (Bool.and_eq_true_iff.mp both).2
      have named := List.takeWhile_append_dropWhile
        (p := fun c : UInt8 => c != byte ':' && c != byte ']')
        (l := skipByte (byte '^') src)
      rw [found] at named
      rcases skipByte_cases (byte '^') src with same | same
      · rw [same, ← named, kept _ other]
      · rw [same, ← named, ← List.cons_append, kept]
        intro c mem
        rcases List.mem_cons.mp mem with rfl | mem
        · decide
        · exact other c mem
    · cases read
  · cases read

/-- The bracket of a class with the `^` and the `]` behind it. -/
def openText (src : List UInt8) : String :=
  "[" ++ (if src.head? = some (byte '^') then "^" else "") ++
    (if (skipByte (byte '^') src).head? = some (byte ']') then "\\]" else "")

/-- The loop of `class_body`. -/
def classMembers (tr : Tr) : Nat → List UInt8 → Except String Read
  | _, [] => .error "premature end of char-class"
  | depth, c :: rest =>
      if c = byte ']' then
        match depth with
        | 0 => .ok ("]", false, rest)
        | depth + 1 => (classMembers tr depth rest).map (prepend "]" false)
      else if c = byte '\\' then
        match _ : translateEscape true tr rest with
        | .error e => .error e
        | .ok (text, raw, next) =>
            (classMembers tr depth next).map (prepend text raw)
      else if c = byte '[' then
        if rest.head? = some (byte ':') then
          match _ : posixBracket tr.unicode rest.tail with
          | .error e => .error e
          | .ok (text, next) =>
              (classMembers tr depth next).map (prepend text false)
        else
          (classMembers tr (depth + 1) (firstMembers rest)).map
            (prepend (openText rest) false)
      else if 0x80 ≤ c then
        let high := pushHigh tr.unicode c rest
        (classMembers tr depth high.2.2).map (prepend high.1 high.2.1)
      else
        (classMembers tr depth rest).map
          (prepend (String.singleton (asChar c)) false)
termination_by _ src => src.length
decreasing_by
  · exact Nat.lt_succ_self _
  · exact Nat.lt_succ_of_le (translateEscape_length ‹_›)
  · have shorter := afterByte_length (byte ']') rest.tail
    rw [← posixBracket_eq ‹posixBracket _ _ = .ok _›,
      List.length_tail] at shorter
    rw [List.length_cons]
    omega
  · exact Nat.lt_succ_of_le (firstMembers_length rest)
  · exact Nat.lt_succ_of_le (pushHigh_length tr.unicode c rest)
  · exact Nat.lt_succ_self _

/-- `translate_class`, from behind the bracket. -/
def translateClass
    (tr : Tr)
    (src : List UInt8) : Except String (String × List UInt8) :=
  (classMembers tr 0 (firstMembers src)).map fun read =>
    (pushWrapped (openText src ++ read.1) (read.2.1 && tr.unicode), read.2.2)

section Classes

variable {stride : Stride} {depth : Nat} {c : UInt8} {src rest : List UInt8}

theorem skipMembers_close :
    skipMembers stride 0 (byte ']' :: src) = src := by
  rw [skipMembers.eq_def]
  rfl

theorem skipMembers_closeNested :
    skipMembers stride (depth + 1) (byte ']' :: src) =
      skipMembers stride depth src := by
  rw [skipMembers.eq_def]
  rfl

theorem skipMembers_escape :
    skipMembers stride depth (byte '\\' :: src) =
      skipMembers stride depth (stride.past src) := by
  rw [skipMembers.eq_def]
  rfl

theorem skipMembers_bracket :
    skipMembers stride depth (byte '[' :: src) =
      if src.head? = some (byte ':') then
        skipMembers stride depth (afterByte (byte ']') src.tail)
      else skipMembers stride (depth + 1) (firstMembers src) := by
  rw [skipMembers.eq_def]
  rfl

theorem skipMembers_other
    (close : c ≠ byte ']')
    (escape : c ≠ byte '\\')
    (bracket : c ≠ byte '[') :
    skipMembers stride depth (c :: src) = skipMembers stride depth src := by
  rw [skipMembers.eq_def]
  simp only [if_neg close, if_neg escape, if_neg bracket]

theorem skipMembers_char (plain : c ∉ marks) :
    skipMembers stride depth (c :: src) = skipMembers stride depth src := by
  simp only [marks, List.mem_cons, List.not_mem_nil, or_false, not_or] at plain
  exact skipMembers_other plain.2.2.2.2 plain.1 plain.2.2.1

/-- Characters and escapes end no class. -/
theorem skipMembers_skips (skips : Skips src rest) :
    skipMembers .whole depth src = skipMembers .whole depth rest := by
  induction skips with
  | refl => rfl
  | char plain _ ih => rw [skipMembers_char plain, ih]
  | escape _ ih => rw [skipMembers_escape, ← ih]; rfl

/-- A class is translated up to where its members end. -/
theorem classMembers_eq
    {read : Read}
    (members : classMembers tr depth src = .ok read) :
    read.2.2 = skipMembers .whole depth src := by
  fun_induction classMembers tr depth src generalizing read
  case case2 =>
    cases members
    rw [skipMembers_close]
  case case3 ih =>
    obtain ⟨inner, found, rfl⟩ := map_eq_ok members
    exact (ih found).trans skipMembers_closeNested.symm
  case case5 depth rest text raw next escaped _ ih =>
    obtain ⟨inner, found, rfl⟩ := map_eq_ok members
    rw [skipMembers_escape]
    exact (ih found).trans
      (skipMembers_skips (translateEscape_skips escaped)).symm
  case case7 depth rest colon text next posix _ _ ih =>
    obtain ⟨inner, found, rfl⟩ := map_eq_ok members
    have ended := ih found
    rw [skipMembers_bracket, if_pos colon, ← posixBracket_eq posix]
    exact ended
  case case8 depth rest colon _ _ ih =>
    obtain ⟨inner, found, rfl⟩ := map_eq_ok members
    have ended := ih found
    rw [skipMembers_bracket, if_neg colon]
    exact ended
  case case9 depth c rest close escape bracket _ high ih =>
    obtain ⟨inner, found, rfl⟩ := map_eq_ok members
    rw [skipMembers_other close escape bracket]
    exact (ih found).trans
      (skipMembers_skips (pushHigh_skips tr.unicode c rest)).symm
  case case10 depth c rest close escape bracket _ ih =>
    obtain ⟨inner, found, rfl⟩ := map_eq_ok members
    have ended := ih found
    rw [skipMembers_other close escape bracket]
    exact ended
  all_goals cases members

theorem translateClass_eq
    (translated : translateClass tr src = .ok (text, rest)) :
    rest = classEnd .whole src := by
  obtain ⟨read, members, same⟩ := map_eq_ok translated
  cases same
  exact classMembers_eq members

end Classes

/-! ## Repeats and groups -/

/-- `MAX_REPEAT`. -/
def maxRepeat : Nat := 32768

/-- A number of a repeat. -/
def repeatCount (digits : List UInt8) : Except String Nat :=
  digits.foldlM (fun v c =>
    let v := v * 10 + (c - byte '0').toNat
    if maxRepeat < v then .error "too big number for repeat range"
    else .ok v) 0

/-- `read_interval`, from behind the brace. -/
def readInterval
    (src : List UInt8) : Except String (Option (String × List UInt8)) :=
  let lo := src.takeWhile isDigit
  let behind := src.dropWhile isDigit
  let ranged : Bool := behind.head? = some (byte ',')
  let hi := behind.tail.takeWhile isDigit
  let close := if ranged then behind.tail.dropWhile isDigit else behind
  if close.head? ≠ some (byte '\x7d') then .ok none
  else if lo = [] ∧ (ranged = false ∨ hi = []) then .ok none
  else do
    let low ← repeatCount lo
    if ranged = false then
      .ok (some ("\x7b" ++ toString low ++ "\x7d", close.tail))
    else if hi = [] then
      .ok (some ("\x7b" ++ toString low ++ ",\x7d", close.tail))
    else do
      let high ← repeatCount hi
      .ok (some ("\x7b" ++ toString low ++ "," ++ toString high ++ "\x7d",
        close.tail))

/-- `ensure_closed`. -/
def ensureClosed : Nat → List UInt8 → Except String Unit
  | _, [] => .error "end pattern with unmatched parenthesis"
  | depth, c :: rest =>
      if c = byte '\\' then ensureClosed depth rest.tail
      else if c = byte '[' then ensureClosed depth (skipClass rest)
      else if c = byte '(' then ensureClosed (depth + 1) rest
      else if c = byte ')' then
        if depth = 1 then .ok () else ensureClosed (depth - 1) rest
      else ensureClosed depth rest
termination_by _ src => src.length
decreasing_by
  · exact Nat.lt_succ_of_le (Stride.two.shorter rest)
  · exact Nat.lt_succ_of_le (classEnd_length .two rest)
  · exact Nat.lt_succ_self _
  · exact Nat.lt_succ_self _
  · exact Nat.lt_succ_self _

/-- A named capture of a pattern. -/
structure NamedCapture where
  name : List UInt8
  group : UInt16
deriving DecidableEq, Repr

/-- What is written: a text, or the parenthesis of a group that captures, which
is written without its name. -/
inductive Piece
  | text (s : String)
  | capture (name : Option (List UInt8))
deriving DecidableEq, Repr

/-- The text that the automaton is given. -/
def written (pieces : List Piece) : String :=
  pieces.foldl (fun text piece =>
    match piece with
    | .text s => text ++ s
    | .capture _ => text ++ "(") ""

/-- What a token of the pattern comes to. -/
structure Token where
  pieces : List Piece
  names : List NamedCapture
  group : UInt16
  quantifier : Bool
  rest : List UInt8

/-- A token that is only text. -/
def Token.ofText (group : UInt16) (s : String) (rest : List UInt8) : Token :=
  ⟨[.text s], [], group, false, rest⟩

/-- Behind the `)` of a comment group that is closed. -/
def commentEnd : List UInt8 → Option (List UInt8)
  | [] => none
  | [c] => if c = byte ')' then some [] else none
  | c :: d :: rest =>
      if c = byte ')' then some (d :: rest)
      else if c = byte '\\' then commentEnd rest
      else commentEnd (d :: rest)

/-- The inline options, from behind the `?`. -/
def inlineOptions (group : UInt16) (src : List UInt8) : Except String Token :=
  let isOption (c : UInt8) : Bool :=
    c == byte 'i' || c == byte 'm' || c == byte 'x'
  let letters (cs : List UInt8) : String :=
    String.ofList (cs.map fun c => if c = byte 'm' then 's' else asChar c)
  let on := src.takeWhile isOption
  let behind := src.dropWhile isOption
  let dashed : Bool := behind.head? = some (byte '-')
  let off := if dashed then behind.tail.takeWhile isOption else []
  match if dashed then behind.tail.dropWhile isOption else behind with
  | [] => .error "end pattern in group"
  | c :: next =>
      if c = byte ')' ∨ c = byte ':' then
        let text := "(?" ++ letters on ++
          (if off = [] then "" else "-" ++ letters off) ++
          String.singleton (asChar c)
        let toggles := c = byte ':' ∨ on ≠ [] ∨ off ≠ []
        .ok ⟨if toggles then [.text text] else [], [], group, false, next⟩
      else .error "undefined group option"

/-- A construct that is refused, from its parenthesis. -/
def refusedGroup (src : List UInt8) (what : String) : Except String Token :=
  match ensureClosed 0 src with
  | .error e => .error e
  | .ok () => unsupported what

/-- The byte that closes the name of a group. -/
def nameClose (n : UInt8) : UInt8 :=
  if n = byte '\'' then byte '\'' else byte '>'

/-- `translate_group`, from behind the parenthesis. -/
def translateGroup
    (named : Bool)
    (group : UInt16)
    (src : List UInt8) : Except String Token :=
  if src.head? ≠ some (byte '?') then
    if named then .ok (Token.ofText group "(?:" src)
    else .ok ⟨[.capture none], [], group + 1, false, src⟩
  else
    match src.tail with
    | [] => .error "end pattern in group"
    | n :: rest =>
        if n = byte ':' then .ok (Token.ofText group "(?:" rest)
        else if n = byte '#' then
          match commentEnd rest with
          | none => .error "end pattern in group"
          | some next => .ok ⟨[], [], group, false, next⟩
        else if n = byte '=' ∨ n = byte '!' then
          if n = byte '!' ∧ rest.head? = some (byte ')') then
            .ok (Token.ofText group "\\b\\B" rest.tail)
          else refusedGroup (byte '(' :: src) "lookahead"
        else if n = byte '<' ∧ looksBehind rest then
          refusedGroup (byte '(' :: src) "lookbehind"
        else if n = byte '>' then refusedGroup (byte '(' :: src) "atomic group"
        else if n = byte '~' then
          refusedGroup (byte '(' :: src) "absent operator"
        else if n = byte '(' then .error "invalid conditional pattern"
        else if n = byte '\'' ∨ n = byte '<' then
          if n = byte '<' ∧ rest = [] then
            .error "end pattern with unmatched parenthesis"
          else
            match readGroupName (nameClose n) rest with
            | .error e => .error e
            | .ok (name, next) =>
                .ok ⟨[.capture (some name)], [⟨name, group + 1⟩], group + 1,
                  false, next⟩
        else if n = byte 'i' ∨ n = byte 'm' ∨ n = byte 'x' ∨ n = byte '-' then
          inlineOptions group (n :: rest)
        else .error "undefined group option"

/-! ## The translation -/

/-- The `?` that makes a quantifier reluctant. -/
def reluctant (src : List UInt8) : String :=
  if src.head? = some (byte '?') then "?" else ""

/-- One token of the loop of `translate`. -/
def translateToken
    (tr : Tr)
    (group : UInt16)
    (afterQuantifier : Bool)
    (c : UInt8)
    (rest : List UInt8) : Except String Token :=
  if c = byte '\\' then
    match translateEscape false tr rest with
    | .error e => .error e
    | .ok (text, raw, next) =>
        .ok (Token.ofText group (pushWrapped text (raw && tr.unicode)) next)
  else if c = byte '[' then
    match translateClass tr rest with
    | .error e => .error e
    | .ok (text, next) => .ok (Token.ofText group text next)
  else if c = byte '(' then translateGroup tr.named group rest
  else if c = byte '*' ∨ c = byte '+' ∨ c = byte '?' then
    if afterQuantifier ∧ c = byte '+' then unsupported "possessive quantifier"
    else
      .ok ⟨[.text (String.singleton (asChar c) ++ reluctant rest)], [], group,
        true, skipByte (byte '?') rest⟩
  else if c = byte '\x7b' then
    match readInterval rest with
    | .error e => .error e
    | .ok (some (text, next)) =>
        if afterQuantifier then unsupported "possessive quantifier"
        else
          .ok ⟨[.text (text ++ reluctant next)], [], group, true,
            skipByte (byte '?') next⟩
    | .ok none => .ok (Token.ofText group "\\\x7b" rest)
  else if 0x80 ≤ c then
    let high := pushHigh tr.unicode c rest
    let text := pushWrapped high.1 (high.2.1 && tr.unicode)
    .ok (Token.ofText group text high.2.2)
  else .ok (Token.ofText group (String.singleton (asChar c)) rest)

/-! ## What a token leaves -/

/-- The groups that are written to capture, with their names. -/
def captures (pieces : List Piece) : List (Option (List UInt8)) :=
  pieces.filterMap fun
    | .text _ => none
    | .capture name => some name

/-- A token that opens no group that captures. -/
structure Token.Silent (token : Token) (group : UInt16) : Prop where
  captures : Regexps.captures token.pieces = []
  names : token.names = []
  group : token.group = group

/-- A token that opens a group that captures. -/
structure Token.Opens
    (token : Token)
    (group : UInt16)
    (name : Option (List UInt8)) : Prop where
  captures : Regexps.captures token.pieces = [name]
  names : token.names =
    (name.map fun name => NamedCapture.mk name (group + 1)).toList
  group : token.group = group + 1

/-- What a token may be, from behind its first byte. -/
inductive Reads (named : Bool) (group : UInt16) :
    UInt8 → List UInt8 → Token → Prop
  | escape {rest : List UInt8} {token : Token} :
      token.Silent group → Skips (afterEscape rest) token.rest →
        Reads named group (byte '\\') rest token
  | members {rest : List UInt8} {token : Token} :
      token.Silent group → token.rest = classEnd .whole rest →
        Reads named group (byte '[') rest token
  | plain {rest : List UInt8} {token : Token} :
      rest.head? ≠ some (byte '?') → token.rest = rest →
        (if named then token.Silent group else token.Opens group none) →
          Reads named group (byte '(') rest token
  | comment {rest : List UInt8} {token : Token} :
      token.Silent group → commentEnd rest = some token.rest →
        Reads named group (byte '(') (byte '?' :: byte '#' :: rest) token
  | named {n : UInt8} {rest name : List UInt8} {token : Token} :
      n = byte '\'' ∨ (n = byte '<' ∧ looksBehind rest = false) →
        readGroupName (nameClose n) rest = .ok (name, token.rest) →
          token.Opens group (some name) →
            Reads named group (byte '(') (byte '?' :: n :: rest) token
  | others {n : UInt8} {rest : List UInt8} {token : Token} :
      n ∉ [byte '#', byte '\'', byte '<'] → Skips (n :: rest) token.rest →
        token.Silent group →
          Reads named group (byte '(') (byte '?' :: n :: rest) token
  | char {c : UInt8} {rest : List UInt8} {token : Token} :
      c ∉ [byte '\\', byte '[', byte '('] → Skips rest token.rest →
        token.Silent group → Reads named group c rest token

section Tokens

variable {tr : Tr} {named : Bool} {group : UInt16} {afterQuantifier : Bool}
variable {c : UInt8} {src rest : List UInt8} {token : Token}

theorem silent_ofText (s : String) : (Token.ofText group s rest).Silent group :=
  ⟨rfl, rfl, rfl⟩

theorem skipByte_skips (plain : c ∉ marks) : Skips src (skipByte c src) := by
  rcases skipByte_cases c src with same | same
  · rw [← same]
    exact .refl _
  · conv_lhs => rw [same]
    exact .char plain (.refl _)

theorem captures_ite
    (text : String)
    {condition : Prop}
    [Decidable condition] :
    captures (if condition then [.text text] else []) = [] := by
  split <;> rfl

theorem inlineOptions_reads
    (read : inlineOptions group src = .ok token) :
    Skips src token.rest ∧ token.Silent group := by
  let isOption (c : UInt8) : Bool :=
    c == byte 'i' || c == byte 'm' || c == byte 'x'
  have letters : ∀ {src rest : List UInt8},
      Skips (src.dropWhile isOption) rest → Skips src rest :=
    Skips.dropWhile (by decide)
  have closed : Skips src
      (if (src.dropWhile isOption).head? = some (byte '-') then
        (src.dropWhile isOption).tail.dropWhile isOption
      else src.dropWhile isOption) := by
    refine letters ?_
    split
    · rename_i dash
      obtain ⟨more, same⟩ := List.head?_eq_some_iff.mp dash
      rw [same]
      exact .char (by decide) (letters (.refl _))
    · exact .refl _
  simp only [inlineOptions, decide_eq_true_eq] at read
  change Skips src (if (src.dropWhile isOption).head? = some (byte '-') then
    _ else _) at closed
  split at read
  · cases read
  · rename_i c next found
    split at read
    · rename_i close
      have plain : c ∉ marks := by
        rcases close with rfl | rfl <;> decide
      have skips : Skips src next :=
        closed.trans (found ▸ .char plain (.refl _))
      cases read
      refine ⟨skips, ?_, rfl, rfl⟩
      dsimp only
      exact captures_ite _
    · cases read

theorem refusedGroup_ne {what : String} :
    refusedGroup src what ≠ .ok token := by
  unfold refusedGroup
  cases ensureClosed 0 src with
  | error e => exact nofun
  | ok _ => exact nofun

theorem translateGroup_reads
    (read : translateGroup named group src = .ok token) :
    Reads named group (byte '(') src token := by
  unfold translateGroup at read
  by_cases plain : src.head? ≠ some (byte '?')
  · rw [if_pos plain] at read
    cases named with
    | true =>
        cases read
        exact .plain plain rfl (silent_ofText _)
    | false =>
        cases read
        exact .plain plain rfl ⟨rfl, rfl, rfl⟩
  · rw [if_neg plain] at read
    obtain ⟨more, rfl⟩ := List.head?_eq_some_iff.mp (not_not.mp plain)
    cases more with
    | nil => cases read
    | cons n rest =>
      simp only [List.tail_cons] at read
      by_cases colon : n = byte ':'
      · subst colon
        cases read
        exact .others (by decide) (.char (by decide) (.refl _))
          (silent_ofText _)
      rw [if_neg colon] at read
      by_cases hash : n = byte '#'
      · subst hash
        rw [if_pos rfl] at read
        split at read
        · cases read
        · rename_i next closed
          cases read
          exact .comment ⟨rfl, rfl, rfl⟩ closed
      rw [if_neg hash] at read
      by_cases ahead : n = byte '=' ∨ n = byte '!'
      · rw [if_pos ahead] at read
        split at read
        · rename_i never
          obtain ⟨rfl, close⟩ := never
          obtain ⟨rest, rfl⟩ := List.head?_eq_some_iff.mp close
          cases read
          exact .others (by decide)
            (.char (by decide) (.char (by decide) (.refl _))) (silent_ofText _)
        · exact absurd read refusedGroup_ne
      rw [if_neg ahead] at read
      by_cases behind : n = byte '<' ∧ looksBehind rest
      · rw [if_pos behind] at read
        exact absurd read refusedGroup_ne
      rw [if_neg behind] at read
      split at read
      · exact absurd read refusedGroup_ne
      split at read
      · exact absurd read refusedGroup_ne
      split at read
      · cases read
      by_cases name : n = byte '\'' ∨ n = byte '<'
      · rw [if_pos name] at read
        split at read
        · cases read
        split at read
        · cases read
        · rename_i named_ next found
          cases read
          refine .named ?_ found ⟨rfl, rfl, rfl⟩
          refine name.imp_right fun angle => ⟨angle, ?_⟩
          simpa [angle] using behind
      rw [if_neg name] at read
      split at read
      · obtain ⟨skips, silent⟩ := inlineOptions_reads read
        refine .others ?_ skips silent
        simp only [List.mem_cons, List.not_mem_nil, or_false]
        tauto
      · cases read

theorem readInterval_skips
    (read : readInterval src = .ok (some (text, rest))) : Skips src rest := by
  have digits : ∀ {src rest : List UInt8},
      Skips (src.dropWhile isDigit) rest → Skips src rest :=
    Skips.dropWhile (by decide)
  have closed : Skips src
      (if (src.dropWhile isDigit).head? = some (byte ',') then
        (src.dropWhile isDigit).tail.dropWhile isDigit
      else src.dropWhile isDigit) := by
    refine digits ?_
    split
    · rename_i comma
      obtain ⟨more, same⟩ := List.head?_eq_some_iff.mp comma
      rw [same]
      exact .char (by decide) (digits (.refl _))
    · exact .refl _
  simp only [readInterval, decide_eq_true_eq] at read
  generalize (if (src.dropWhile isDigit).head? = some (byte ',') then
    (src.dropWhile isDigit).tail.dropWhile isDigit
    else src.dropWhile isDigit) = close at read closed
  split at read
  · cases read
  · rename_i brace
    obtain ⟨next, rfl⟩ := List.head?_eq_some_iff.mp (not_not.mp brace)
    have behind : Skips src next := closed.trans (.char (by decide) (.refl _))
    split at read
    · cases read
    · cases low : repeatCount (src.takeWhile isDigit) with
      | error e =>
          rw [low] at read
          cases read
      | ok low' =>
          rw [low] at read
          dsimp only [bind, Except.bind] at read
          split at read
          · cases read
            exact behind
          · split at read
            · cases read
              exact behind
            · split at read
              · cases read
              · cases read
                exact behind

theorem translateToken_reads
    (read : translateToken tr group afterQuantifier c rest = .ok token) :
    Reads tr.named group c rest token := by
  unfold translateToken at read
  by_cases escape : c = byte '\\'
  · subst escape
    rw [if_pos rfl] at read
    split at read
    · cases read
    · rename_i text raw next escaped
      cases read
      exact .escape (silent_ofText _) (translateEscape_skips escaped)
  rw [if_neg escape] at read
  by_cases bracket : c = byte '['
  · subst bracket
    rw [if_pos rfl] at read
    split at read
    · cases read
    · rename_i text next translated
      cases read
      exact .members (silent_ofText _) (translateClass_eq translated)
  rw [if_neg bracket] at read
  by_cases paren : c = byte '('
  · subst paren
    exact translateGroup_reads read
  rw [if_neg paren] at read
  have other : c ∉ [byte '\\', byte '[', byte '('] := by
    simp only [List.mem_cons, List.not_mem_nil, or_false]
    tauto
  split at read
  · split at read
    · exact absurd read nofun
    · cases read
      exact .char other (skipByte_skips (by decide)) ⟨rfl, rfl, rfl⟩
  split at read
  · split at read
    · cases read
    · rename_i text next interval
      split at read
      · exact absurd read nofun
      · cases read
        exact .char other ((readInterval_skips interval).trans
          (skipByte_skips (by decide))) ⟨rfl, rfl, rfl⟩
    · cases read
      exact .char other (.refl _) (silent_ofText _)
  split at read
  · cases read
    exact .char other (pushHigh_skips tr.unicode c rest) (silent_ofText _)
  · cases read
    exact .char other (.refl _) (silent_ofText _)

theorem commentEnd_eq (closed : commentEnd src = some rest) :
    afterComment src = rest := by
  fun_induction commentEnd src <;> grind [afterComment]

theorem readGroupName_eq
    (read : readGroupName close src = .ok (name, rest)) :
    rest = afterByte close src := by
  simp only [readGroupName] at read
  split at read
  · cases read
  · split at read
    · cases read
    · rename_i found
      cases read
      rw [afterByte, found]
      rfl

theorem translateToken_length
    (read : translateToken tr group afterQuantifier c rest = .ok token) :
    token.rest.length ≤ rest.length := by
  cases translateToken_reads read with
  | escape _ skips => exact Nat.le_trans skips.length_le afterEscape_length
  | members _ same => exact same ▸ classEnd_length .whole rest
  | plain _ same _ => exact Nat.le_of_eq (congrArg _ same)
  | @comment src _ _ closed =>
      have shorter := afterComment_length src
      rw [commentEnd_eq closed] at shorter
      exact Nat.le_trans shorter (Nat.le_add_right _ 2)
  | @named n src _ _ _ found _ =>
      have shorter := afterByte_length (nameClose n) src
      rw [← readGroupName_eq found] at shorter
      exact Nat.le_trans shorter (Nat.le_add_right _ 2)
  | others _ skips _ => exact Nat.le_succ_of_le skips.length_le
  | char _ skips _ => exact skips.length_le

end Tokens

/-- The loop of `translate`. -/
def translateFrom
    (tr : Tr)
    (group : UInt16)
    (afterQuantifier : Bool) :
    List UInt8 → Except String (List Piece × List NamedCapture)
  | [] => .ok ([], [])
  | c :: rest =>
      if tr.extended ∧ isSpace c then
        translateFrom tr group afterQuantifier rest
      else if tr.extended ∧ c = byte '#' then
        translateFrom tr group afterQuantifier (afterLine rest)
      else
        match _ : translateToken tr group afterQuantifier c rest with
        | .error e => .error e
        | .ok token =>
            (translateFrom tr token.group token.quantifier token.rest).map
              fun more => (token.pieces ++ more.1, token.names ++ more.2)
termination_by src => src.length
decreasing_by
  · exact Nat.lt_succ_self _
  · exact Nat.lt_succ_of_le (afterLine_length rest)
  · exact Nat.lt_succ_of_le (translateToken_length ‹_›)

def translate
    (src : List UInt8)
    (unicode extended : Bool) :
    Except String (List Piece × List NamedCapture) :=
  translateFrom
    ⟨unicode, extended, countGroups extended src, hasNamedGroup extended src⟩
    0 false src

end SabiRuby.Regexps
