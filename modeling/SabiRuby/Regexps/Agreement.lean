import SabiRuby.Regexps.Translator

/-!
# The scans and the translation

A pattern opens the groups that are found when every escape, class, comment and
name of it is read whole.  The translation writes these groups.  The scans find
them unless an escape of more than two bytes hides a byte that they stop at.
-/

namespace SabiRuby.Regexps

/-- The groups that a pattern opens: whether each of them is named. -/
def openings (extended : Bool) : List UInt8 → List Bool
  | [] => []
  | c :: rest =>
      if c = byte '\\' then openings extended (afterEscape rest)
      else if c = byte '#' ∧ extended then openings extended (afterLine rest)
      else if c = byte '[' then openings extended (classEnd .whole rest)
      else if c = byte '(' ∧ rest.head? ≠ some (byte '?') then
        false :: openings extended rest
      else if c = byte '(' then
        if rest.tail.head? = some (byte '#') then
          openings extended (afterComment rest.tail.tail)
        else if rest.tail.head? = some (byte '\'') then
          true :: openings extended (afterByte (byte '\'') rest.tail.tail)
        else if rest.tail.head? = some (byte '<') ∧
            looksBehind rest.tail.tail = false then
          true :: openings extended (afterByte (byte '>') rest.tail.tail)
        else openings extended rest
      else openings extended rest
termination_by src => src.length
decreasing_by
  · exact Nat.lt_succ_of_le afterEscape_length
  · exact Nat.lt_succ_of_le (afterLine_length rest)
  · exact Nat.lt_succ_of_le (classEnd_length .whole rest)
  · exact Nat.lt_succ_self _
  · have shorter := afterComment_length rest.tail.tail
    simp only [List.length_tail] at shorter
    rw [List.length_cons]
    omega
  · have shorter := afterByte_length (byte '\'') rest.tail.tail
    simp only [List.length_tail] at shorter
    rw [List.length_cons]
    omega
  · have shorter := afterByte_length (byte '>') rest.tail.tail
    simp only [List.length_tail] at shorter
    rw [List.length_cons]
    omega
  · exact Nat.lt_succ_self _
  · exact Nat.lt_succ_self _

section Openings

variable {extended : Bool} {c n : UInt8} {src rest : List UInt8}

theorem openings_escape :
    openings extended (byte '\\' :: src) =
      openings extended (afterEscape src) := by
  rw [openings, if_pos rfl]

theorem openings_members :
    openings extended (byte '[' :: src) =
      openings extended (classEnd .whole src) := by
  rw [openings, if_neg (by decide), if_neg (by simp), if_pos rfl]

theorem openings_line :
    openings true (byte '#' :: src) = openings true (afterLine src) := by
  rw [openings, if_neg (by decide), if_pos ⟨rfl, rfl⟩]

theorem openings_other
    (plain : c ∉ [byte '\\', byte '[', byte '('])
    (spaced : ¬ (c = byte '#' ∧ extended = true)) :
    openings extended (c :: src) = openings extended src := by
  simp only [List.mem_cons, List.not_mem_nil, or_false, not_or] at plain
  rw [openings, if_neg plain.1, if_neg spaced, if_neg plain.2.1,
    if_neg fun open_ => plain.2.2 open_.1, if_neg plain.2.2]

theorem openings_char (plain : c ∉ marks) :
    openings extended (c :: src) = openings extended src := by
  simp only [marks, List.mem_cons, List.not_mem_nil, or_false, not_or] at plain
  refine openings_other ?_ fun hash => plain.2.1 hash.1
  simp only [List.mem_cons, List.not_mem_nil, or_false, not_or]
  exact ⟨plain.1, plain.2.2.1, plain.2.2.2.1⟩

/-- Characters and escapes open no group. -/
theorem openings_skips (skips : Skips src rest) :
    openings extended src = openings extended rest := by
  induction skips with
  | refl => rfl
  | char plain _ ih => rw [openings_char plain, ih]
  | escape _ ih => rw [openings_escape, ih]

theorem openings_plain (plain : src.head? ≠ some (byte '?')) :
    openings extended (byte '(' :: src) = false :: openings extended src := by
  rw [openings, if_neg (by decide), if_neg (by simp), if_neg (by decide),
    if_pos ⟨rfl, plain⟩]

theorem openings_prefixed :
    openings extended (byte '(' :: byte '?' :: n :: src) =
      if n = byte '#' then openings extended (afterComment src)
      else if n = byte '\'' then
        true :: openings extended (afterByte (byte '\'') src)
      else if n = byte '<' ∧ looksBehind src = false then
        true :: openings extended (afterByte (byte '>') src)
      else openings extended (n :: src) := by
  rw [openings, if_neg (by decide), if_neg (by simp), if_neg (by decide),
    if_neg (by simp), if_pos rfl]
  simp only [List.tail_cons, List.head?_cons, Option.some.injEq]
  rw [openings_char (by decide)]

end Openings

/-! ## What is written -/

/-- The records of the groups that were written, from a number on. -/
def numbered : UInt16 → List (Option (List UInt8)) → List NamedCapture
  | _, [] => []
  | group, none :: rest => numbered (group + 1) rest
  | group, some name :: rest => ⟨name, group + 1⟩ :: numbered (group + 1) rest

theorem numbered_append
    (group : UInt16)
    (first second : List (Option (List UInt8))) :
    numbered group (first ++ second) =
      numbered group first ++
        numbered (group + UInt16.ofNat first.length) second := by
  induction first generalizing group with
  | nil => simp [numbered]
  | cons capture first ih =>
      have next : group + 1 + UInt16.ofNat first.length =
          group + UInt16.ofNat (capture :: first).length := by
        rw [List.length_cons, UInt16.ofNat_add, UInt16.add_assoc,
          UInt16.add_comm 1]
        rfl
      cases capture <;> simp [numbered, ih, next]

/-- The groups that capture: the named ones where a group is named, else all. -/
def capturing (named : Bool) (opened : List Bool) : List Bool :=
  if named then opened.filter id else opened

theorem capturing_append (named : Bool) (first second : List Bool) :
    capturing named (first ++ second) =
      capturing named first ++ capturing named second := by
  cases named <;> simp [capturing]

/-- A token writes these groups. -/
structure Token.Writes
    (token : Token)
    (named : Bool)
    (group : UInt16)
    (opened : List Bool) : Prop where
  captures : (captures token.pieces).map Option.isSome = capturing named opened
  names : token.names = numbered group (Regexps.captures token.pieces)
  group : token.group =
    group + UInt16.ofNat (Regexps.captures token.pieces).length

section Tokens

variable {extended named : Bool} {group : UInt16} {c : UInt8}
variable {rest : List UInt8} {token : Token}

theorem Token.Silent.writesNone
    (silent : token.Silent group)
    (none : capturing named opened = []) :
    token.Writes named group opened where
  captures := by rw [silent.captures, none]; rfl
  names := by rw [silent.captures, silent.names]; rfl
  group := by simp [silent.captures, silent.group]

theorem Token.Silent.writes (silent : token.Silent group) :
    token.Writes named group [] :=
  silent.writesNone (by cases named <;> rfl)

theorem Token.Opens.writes
    (opens : token.Opens group name)
    (kept : name = none → named = false) :
    token.Writes named group [name.isSome] where
  captures := by
    rw [opens.captures]
    cases name with
    | none => rw [kept rfl]; rfl
    | some name => cases named <;> rfl
  names := by
    rw [opens.captures, opens.names]
    cases name <;> rfl
  group := by rw [opens.captures, opens.group]; rfl

/-- A token writes the groups that it opens. -/
theorem reads_openings
    (reads : Reads named group c rest token)
    (spaced : ¬ (c = byte '#' ∧ extended = true)) :
    ∃ opened, token.Writes named group opened ∧
      openings extended (c :: rest) =
        opened ++ openings extended token.rest := by
  cases reads with
  | escape silent skips =>
      exact ⟨[], silent.writes, openings_escape.trans (openings_skips skips)⟩
  | members silent ended =>
      exact ⟨[], silent.writes, by rw [openings_members, ended]; rfl⟩
  | plain plain same writes =>
      refine ⟨[false], ?_, by rw [openings_plain plain, same]; rfl⟩
      cases named with
      | true => exact Token.Silent.writesNone writes rfl
      | false => exact Token.Opens.writes writes fun _ => rfl
  | comment silent closed =>
      refine ⟨[], silent.writes, ?_⟩
      rw [openings_prefixed, if_pos rfl, commentEnd_eq closed]
      rfl
  | @named n src name _ kind found opens =>
      refine ⟨[true], opens.writes nofun, ?_⟩
      rw [openings_prefixed, readGroupName_eq found]
      rcases kind with rfl | ⟨rfl, ahead⟩
      · rw [if_neg (by decide), if_pos rfl]
        rfl
      · rw [if_neg (by decide), if_neg (by decide), if_pos ⟨rfl, ahead⟩]
        rfl
  | @others n src _ plain skips silent =>
      simp only [List.mem_cons, List.not_mem_nil, or_false, not_or] at plain
      refine ⟨[], silent.writes, ?_⟩
      rw [openings_prefixed, if_neg plain.1, if_neg plain.2.1,
        if_neg fun angle => plain.2.2 angle.1, openings_skips skips]
      rfl
  | char plain skips silent =>
      exact ⟨[], silent.writes,
        (openings_other plain spaced).trans (openings_skips skips)⟩

end Tokens

theorem isSpace_not_mem_marks {c : UInt8} (space : isSpace c = true) :
    c ∉ marks :=
  not_mem_marks (by decide) space

theorem captures_append (first second : List Piece) :
    captures (first ++ second) = captures first ++ captures second :=
  List.filterMap_append

/-- The translation writes the groups that the pattern opens, and records the
named ones with their numbers. -/
theorem translateFrom_writes
    (translated :
      translateFrom tr group afterQuantifier src = .ok (out, names)) :
    (captures out).map Option.isSome =
        capturing tr.named (openings tr.extended src) ∧
      names = numbered group (captures out) := by
  fun_induction translateFrom tr group afterQuantifier src
    generalizing out names
  case case1 group afterQuantifier =>
    cases translated
    rw [openings]
    cases tr.named <;> exact ⟨rfl, rfl⟩
  case case2 group afterQuantifier c rest space ih =>
    rw [openings_char (isSpace_not_mem_marks space.2)]
    exact ih translated
  case case3 group afterQuantifier c rest _ comment ih =>
    obtain ⟨extended, rfl⟩ := comment
    have inside := ih translated
    rw [extended] at inside ⊢
    rw [openings_line]
    exact inside
  case case4 => cases translated
  case case5 group afterQuantifier c rest _ comment token read ih =>
    obtain ⟨⟨more, moreNames⟩, later, same⟩ := map_eq_ok translated
    cases same
    obtain ⟨written, recorded⟩ := ih later
    obtain ⟨opened, writes, reads⟩ :=
      reads_openings (translateToken_reads read) fun hash => comment hash.symm
    constructor
    · rw [captures_append, List.map_append, written, writes.captures, reads,
        capturing_append]
    · rw [captures_append, numbered_append, writes.names, recorded,
        writes.group]

/-! ## The scans -/

section Scans

variable {extended : Bool} {src : List UInt8}

/-- A scan that steps over escapes whole finds the first named group. -/
theorem scanNamed_whole :
    scanNamed .whole extended src = (openings extended src).any id := by
  fun_induction openings extended src
  all_goals rw [scanNamed.eq_def]
  all_goals simp_all [Stride.whole]

/-- A scan that steps over escapes whole counts the groups where none is
named. -/
theorem scanGroups_whole (plain : (openings extended src).any id = false) :
    scanGroups .whole extended src = (openings extended src).length := by
  fun_induction openings extended src
  all_goals rw [scanGroups.eq_def]
  all_goals simp_all [Stride.whole]

end Scans

/-! ## Numbers of groups -/

/-- The named groups with their places among the groups that capture. -/
def places : Nat → List (Option (List UInt8)) → List (List UInt8 × Nat)
  | _, [] => []
  | before, none :: rest => places (before + 1) rest
  | before, some name :: rest => (name, before + 1) :: places (before + 1) rest

/-- A record, with its number as it is read. -/
def NamedCapture.entry (capture : NamedCapture) : List UInt8 × Nat :=
  (capture.name, capture.group.toNat)

theorem numbered_length (group : UInt16) (caps : List (Option (List UInt8))) :
    (numbered group caps).length = (caps.filter Option.isSome).length := by
  induction caps generalizing group with
  | nil => rfl
  | cons capture caps ih => cases capture <;> simp [numbered, ih]

/-- A number counts on as long as it fits its word. -/
theorem succ_toNat {k : Nat} (fits : k + 1 < 2 ^ 16) :
    (UInt16.ofNat k + 1).toNat = k + 1 := by
  rw [UInt16.toNat_add, UInt16.toNat_ofNat']
  change (k % 2 ^ 16 + 1) % 2 ^ 16 = k + 1
  omega

theorem ofNat_succ (k : Nat) : UInt16.ofNat k + 1 = UInt16.ofNat (k + 1) := by
  rw [UInt16.ofNat_add]
  rfl

/-- The numbers are the places where they all fit. -/
theorem entries_numbered
    (fits : k + caps.length < 2 ^ 16) :
    (numbered (UInt16.ofNat k) caps).map NamedCapture.entry =
      places k caps := by
  induction caps generalizing k with
  | nil => rfl
  | cons capture caps ih =>
      rw [List.length_cons] at fits
      have later := @ih (k + 1) (by omega)
      cases capture with
      | none => rw [numbered, places, ofNat_succ, later]
      | some name =>
          rw [numbered, places, List.map_cons, NamedCapture.entry, ofNat_succ,
            later, ← ofNat_succ, succ_toNat (by omega)]

/-- Where every group is named they are the places only where they fit. -/
theorem fits_of_entries
    (named : ∀ capture ∈ caps, capture.isSome = true)
    (some_ : caps ≠ [])
    (same : (numbered (UInt16.ofNat k) caps).map NamedCapture.entry =
      places k caps) : k + caps.length < 2 ^ 16 := by
  induction caps generalizing k with
  | nil => exact absurd rfl some_
  | cons capture caps ih =>
      cases capture with
      | none => exact absurd (named none (List.mem_cons_self ..)) (by simp)
      | some name =>
          rw [numbered, places, List.map_cons, ofNat_succ] at same
          obtain ⟨first, later⟩ := List.cons.inj same
          have here : (UInt16.ofNat (k + 1)).toNat = k + 1 :=
            congrArg Prod.snd first
          cases caps with
          | nil =>
              have bound := (UInt16.ofNat (k + 1)).toNat_lt
              rw [here] at bound
              simpa using bound
          | cons next caps =>
              have bound := ih
                (fun x mem => named x (List.mem_cons_of_mem _ mem)) (by simp)
                later
              rw [List.length_cons]
              omega

theorem places_length (k : Nat) (caps : List (Option (List UInt8))) :
    (places k caps).length = (caps.filter Option.isSome).length := by
  induction caps generalizing k with
  | nil => rfl
  | cons capture caps ih => cases capture <;> simp [places, ih]

/-! ## Agreement -/

/-- Names are recorded where the first scan finds one, the groups that capture
are the named ones or as many as the second scan counts, and every number is
the place of its group. -/
structure Agrees
    (extended : Bool)
    (src : List UInt8)
    (out : List Piece)
    (names : List NamedCapture) : Prop where
  named : names ≠ [] ↔ hasNamedGroup extended src = true
  count : (captures out).length =
    if names = [] then (countGroups extended src).toNat else names.length
  groups : names.map NamedCapture.entry = places 0 (captures out)

/-- Stepping over every escape whole changes neither what the first scan answers
nor, where it finds no name, what the second one counts, and the numbers of the
named groups fit their word. -/
structure Steady (extended : Bool) (src : List UInt8) : Prop where
  named : hasNamedGroup extended src = scanNamed .whole extended src
  count : hasNamedGroup extended src = false →
    (countGroups extended src).toNat = scanGroups .whole extended src
  few : (openings extended src).countP id < 2 ^ 16

section Agreement

variable {src : List UInt8} {unicode extended : Bool}
variable {out : List Piece} {names : List NamedCapture}

/-- As many names are recorded as the pattern opens named groups. -/
theorem names_length
    {caps : List (Option (List UInt8))}
    (written : caps.map Option.isSome = capturing named opened) :
    (caps.filter Option.isSome).length = opened.countP id := by
  have kept : (caps.filter Option.isSome).length =
      ((caps.map Option.isSome).filter id).length := by
    rw [List.filter_map, List.length_map]
    rfl
  rw [kept, written, List.countP_eq_length_filter]
  cases named with
  | true =>
      exact congrArg List.length (List.filter_eq_self.mpr fun _ mem =>
        (List.mem_filter.mp mem).2)
  | false => rfl

/-- A token is translated in front of what follows it. -/
theorem translateFrom_token
    (tight : tr.extended = false)
    (read : translateToken tr group afterQuantifier c src =
      .ok ⟨pieces, names, next, quantifier, rest⟩) :
    translateFrom tr group afterQuantifier (c :: src) =
      (translateFrom tr next quantifier rest).map
        fun more => (pieces ++ more.1, names ++ more.2) := by
  rw [translateFrom, if_neg (by simp [tight]), if_neg (by simp [tight])]
  split
  · rename_i failed
    rw [read] at failed
    cases failed
  · rename_i found
    rw [read] at found
    cases found
    rfl

end Agreement

end SabiRuby.Regexps
