import SabiRuby.Strings.Searching

/-!
# The loops of `sub` and `gsub`

A replacement text, a block or a Hash, and a literal pattern each have a loop of
their own.  A compiled pattern is given by what its engine answers.
-/

namespace SabiRuby.Substitutions

open Strings

/-- The bytes of a match. -/
structure Match where
  beg : Nat
  end_ : Nat
deriving DecidableEq, Repr

/-- `regexp::exec` with a compiled pattern: a match at or after a position. -/
structure Engine where
  exec : List UInt8 → Nat → Option Match
  bounds : ∀ {s pos m}, exec s pos = some m →
    pos ≤ m.beg ∧ m.beg ≤ m.end_ ∧ m.end_ ≤ s.length

/-- What a substitution raises: a subject that spells no characters, a receiver
of another length, the error of a block, a slice past the bytes. -/
inductive Raised (ε : Type)
  | invalid
  | modified
  | raised (e : ε)
  | outOfRange
deriving DecidableEq, Repr

/-- The new bytes and the last match. -/
structure Answer where
  bytes : List UInt8
  last : Option Match
deriving DecidableEq, Repr

/-- `charlen`. -/
def charlen (b : List UInt8) (i : Nat) (binary : Bool) : Nat := utf8len b i (!binary)

/-- `subject_binary` lets a subject pass. -/
def readable (unread : Bool) (b : List UInt8) (binary : Bool) : Bool :=
  unread || validChars b (!binary)

/-- The step past an empty match: the character that it carries and the next
position. -/
def carry (s : List UInt8) (binary : Bool) (at_ : Nat) : List UInt8 × Nat :=
  if at_ < s.length then
    ((s.drop at_).take (charlen s at_ binary), at_ + charlen s at_ binary)
  else ([], at_ + 1)

theorem lt_carry (s : List UInt8) (binary : Bool) (at_ : Nat) :
    at_ < (carry s binary at_).2 := by
  have positive := utf8len_pos s at_ (!binary)
  unfold carry charlen
  split
  · exact Nat.lt_add_of_pos_right positive
  · exact Nat.lt_succ_self at_

/-- The step past a match. -/
def past (s : List UInt8) (binary : Bool) (m : Match) : List UInt8 × Nat :=
  if m.end_ = m.beg then carry s binary m.end_ else ([], m.end_)

theorem lt_past
    {s : List UInt8}
    {binary : Bool}
    {m : Match}
    {pos : Nat}
    (after : pos ≤ m.beg)
    (ordered : m.beg ≤ m.end_) :
    pos < (past s binary m).2 := by
  unfold past
  split
  · have later := lt_carry s binary m.end_
    omega
  · change pos < m.end_
    omega

/-- What stands for a match; `expand` is `apply_replacement`. -/
def replacement (rep : List UInt8) (expand : Match → List UInt8) (m : Match) :
    List UInt8 :=
  if 92 ∈ rep then expand m else rep

/-! ## A replacement text -/

/-- The loop of `gsub_str`: what it writes, where it ends and the last match. -/
def strFrom
    (E : Engine)
    (s rep : List UInt8)
    (expand : Match → List UInt8)
    (binary : Bool)
    (pos : Nat)
    (last : Option Match) : List UInt8 × Nat × Option Match :=
  if pos ≤ s.length then
    match _ : E.exec s pos with
    | none => ([], pos, last)
    | some m =>
        let next := past s binary m
        let rest := strFrom E s rep expand binary next.2 (some m)
        ((s.drop pos).take (m.beg - pos) ++ replacement rep expand m ++ next.1 ++
          rest.1, rest.2)
  else ([], pos, last)
termination_by s.length + 1 - pos
decreasing_by
  have bounds := E.bounds ‹E.exec s pos = some m›
  have later := @lt_past s binary m pos bounds.1 bounds.2.1
  omega

/-- `gsub_str`. -/
def gsubStr
    {ε : Type}
    (E : Engine)
    (s rep : List UInt8)
    (expand : Match → List UInt8)
    (binary : Bool) : Except (Raised ε) Answer :=
  if readable false s binary then
    let r := strFrom E s rep expand binary 0 none
    .ok ⟨r.1 ++ if r.2.1 ≤ s.length then s.drop r.2.1 else [], r.2.2⟩
  else .error .invalid

/-- `sub_str`. -/
def subStr
    {ε : Type}
    (E : Engine)
    (s rep : List UInt8)
    (expand : Match → List UInt8)
    (binary : Bool) : Except (Raised ε) Answer :=
  if readable false s binary then
    match E.exec s 0 with
    | none => .ok ⟨s, none⟩
    | some m =>
        .ok ⟨s.take m.beg ++ replacement rep expand m ++ s.drop m.end_, some m⟩
  else .error .invalid

/-! ## A literal pattern -/

/-- `lit_search`. -/
def litSearch (s p : List UInt8) (pos : Nat) : Option Nat :=
  if p = [] then if pos ≤ s.length then some pos else none
  else if s.length < p.length then none
  else
    ((List.range (s.length - p.length + 1 - pos)).find? fun k =>
      (s.drop (pos + k)).take p.length = p).map (pos + ·)

theorem litSearch_eq_find {s p : List UInt8} (some_ : p ≠ []) (pos : Nat) :
    litSearch s p pos = find s p pos := by
  have positive := List.length_pos_iff.mpr some_
  rw [litSearch, if_neg some_, find, if_neg some_]
  by_cases outside : pos ≥ s.length
  · rw [if_pos outside]
    split
    · rfl
    · rw [show s.length - p.length + 1 - pos = 0 by omega]
      rfl
  · rw [if_neg outside]
    split
    · rw [show s.length - pos + 1 - p.length = 0 by omega]
      rfl
    · rw [show s.length - p.length + 1 - pos = s.length - pos + 1 - p.length by
        omega]
      simp only [List.drop_drop, Nat.add_comm pos]

theorem litSearch_bounds
    (found : litSearch s p pos = some b) :
    pos ≤ b ∧ b + p.length ≤ s.length := by
  by_cases empty : p = []
  · rw [litSearch, if_pos empty] at found
    split at found
    · cases found
      subst empty
      exact ⟨Nat.le_refl _, ‹_›⟩
    · cases found
  · rw [litSearch_eq_find empty] at found
    have least := ((find_iff empty pos b).mp found).1
    have length := least.2.length_le
    have positive := List.length_pos_iff.mpr empty
    rw [List.length_drop] at length
    exact ⟨least.1, by omega⟩

/-- The step past a match of a literal. -/
def pastLit (s p : List UInt8) (binary : Bool) (beg : Nat) : List UInt8 × Nat :=
  if p = [] then carry s binary beg else ([], beg + p.length)

theorem lt_pastLit (s p : List UInt8) (binary : Bool) (beg : Nat) :
    beg < (pastLit s p binary beg).2 := by
  unfold pastLit
  split
  · exact lt_carry s binary beg
  · exact Nat.lt_add_of_pos_right (List.length_pos_iff.mpr ‹_›)

/-- The loop of `gsub_lit` from a match on. -/
def litFrom
    (s p rep : List UInt8)
    (expand : Match → List UInt8)
    (binary : Bool)
    (beg pos : Nat) : List UInt8 × Nat × Match :=
  let caps : Match := ⟨beg, beg + p.length⟩
  let next := pastLit s p binary beg
  let out := (s.drop pos).take (beg - pos) ++ replacement rep expand caps ++ next.1
  match _ : litSearch s p next.2 with
  | some b =>
      let rest := litFrom s p rep expand binary b next.2
      (out ++ rest.1, rest.2)
  | none => (out, next.2, caps)
termination_by s.length + 1 - beg
decreasing_by
  have bounds := litSearch_bounds ‹litSearch s p next.2 = some b›
  have later := lt_pastLit s p binary beg
  change beg < next.2 at later
  omega

/-- `gsub_lit`. -/
def gsubLit
    (s p rep : List UInt8)
    (expand : Match → List UInt8)
    (binary : Bool) : Answer :=
  match litSearch s p 0 with
  | none => ⟨s, none⟩
  | some beg =>
      let r := litFrom s p rep expand binary beg 0
      ⟨r.1 ++ if r.2.1 < s.length then s.drop r.2.1 else [], some r.2.2⟩

/-- `sub_lit`. -/
def subLit
    (s p rep : List UInt8)
    (expand : Match → List UInt8) : Answer :=
  match litSearch s p 0 with
  | none => ⟨s, none⟩
  | some beg =>
      let caps : Match := ⟨beg, beg + p.length⟩
      ⟨s.take beg ++ replacement rep expand caps ++ s.drop (beg + p.length),
        some caps⟩

/-! ## A block or a Hash -/

/-- What a block or a Hash does, `sub_piece`: it is handed the matched bytes, it
may change everything, the receiver with its reading too, and it answers a text
or raises. -/
structure Block (σ ε : Type) where
  subject : σ → List UInt8 × Bool
  call : Option (List UInt8) → σ → Except ε (List UInt8) × σ

/-- `MatchData` with its snapshot of the subject. -/
structure MatchData where
  caps : Match
  source : List UInt8 × Bool
deriving DecidableEq, Repr

/-- `&s[a..b]`. -/
def slice (s : List UInt8) (a b : Nat) : Option (List UInt8) :=
  if a ≤ b ∧ b ≤ s.length then some ((s.drop a).take (b - a)) else none

/-- The bytes before a match, if there are any. -/
def before (s : List UInt8) (pos beg : Nat) : Option (List UInt8) :=
  if beg > pos then slice s pos beg else some []

/-- The step past a match, each slice checked. -/
def walkPast (s : List UInt8) (binary : Bool) (slen : Nat) (m : Match) :
    Option (List UInt8 × Nat) :=
  if m.beg = m.end_ then
    if m.end_ < slen then
      (slice s m.end_ (m.end_ + charlen s m.end_ binary)).map fun piece =>
        (piece, m.end_ + charlen s m.end_ binary)
    else some ([], m.end_ + 1)
  else some ([], m.end_)

theorem lt_walkPast
    (done : walkPast s binary slen m = some next)
    (after : pos ≤ m.beg)
    (ordered : m.beg ≤ m.end_) :
    pos < next.2 := by
  have positive := utf8len_pos s m.end_ (!binary)
  unfold walkPast at done
  split at done
  · split at done
    · obtain ⟨piece, _, rfl⟩ := Option.map_eq_some_iff.mp done
      change pos < m.end_ + utf8len s m.end_ (!binary)
      omega
    · cases done
      change pos < m.end_ + 1
      omega
  · cases done
    change pos < m.end_
    omega

/-- Where the loop of `gsub_walk` ends. -/
structure Walked where
  out : List UInt8
  pos : Nat
  last : Nat
  lastMd : Option MatchData
  s : List UInt8
deriving DecidableEq, Repr

section Walk

variable {σ ε : Type}

/-- The loop of `gsub_walk`. -/
def walkFrom
    (E : Engine)
    (B : Block σ ε)
    (literal : Bool)
    (slen pos last : Nat)
    (lastMd : Option MatchData)
    (s : List UInt8)
    (st : σ) : Except (Raised ε) Walked × σ :=
  if pos ≤ slen then
    match _ : E.exec s pos with
    | none => (.ok ⟨[], pos, last, lastMd, s⟩, st)
    | some m =>
        let md : MatchData := ⟨m, B.subject st⟩
        match B.call (slice (B.subject st).1 m.beg m.end_) st with
        | (.error e, st) => (.error (.raised e), st)
        | (.ok piece, st) =>
            let now := B.subject st
            if now.1.length ≠ slen then (.error .modified, st)
            else if readable literal now.1 now.2 = false then (.error .invalid, st)
            else
              match before now.1 pos m.beg with
              | none => (.error .outOfRange, st)
              | some front =>
                  match _ : walkPast now.1 now.2 slen m with
                  | none => (.error .outOfRange, st)
                  | some next =>
                      match walkFrom E B literal slen next.2 pos (some md) now.1 st
                        with
                      | (.error why, st) => (.error why, st)
                      | (.ok w, st) =>
                          (.ok { w with out := front ++ piece ++ next.1 ++ w.out },
                            st)
  else (.ok ⟨[], pos, last, lastMd, s⟩, st)
termination_by slen + 1 - pos
decreasing_by
  have bounds := E.bounds ‹E.exec s pos = some m›
  have later := lt_walkPast ‹walkPast _ _ slen m = some next› bounds.1 bounds.2.1
  omega

/-- The bytes behind the last match. -/
def walkTail (s : List UInt8) (pos slen : Nat) : Option (List UInt8) :=
  if pos < slen then slice s pos s.length else some []

/-- `gsub_walk`. -/
def gsubWalk
    (E : Engine)
    (B : Block σ ε)
    (literal : Bool)
    (st : σ) : Except (Raised ε) Answer × σ :=
  let s := (B.subject st).1
  if readable literal s (B.subject st).2 = false then (.error .invalid, st)
  else
    match walkFrom E B literal s.length 0 0 none s st with
    | (.error why, st) => (.error why, st)
    | (.ok w, st) =>
        match walkTail w.s w.pos s.length with
        | none => (.error .outOfRange, st)
        | some rest =>
            let now := B.subject st
            match w.lastMd with
            | none => (.ok ⟨w.out ++ rest, none⟩, st)
            | some md =>
                -- the receiver may have changed: then it is searched once more
                if now = md.source then (.ok ⟨w.out ++ rest, some md.caps⟩, st)
                else if readable literal now.1 now.2 = false then
                  (.error .invalid, st)
                else (.ok ⟨w.out ++ rest, E.exec now.1 w.last⟩, st)

/-- `str_sub` with a block or a Hash, into the snapshot or, for `sub!`, into the
receiver. -/
def subBlock
    (E : Engine)
    (B : Block σ ε)
    (literal bang : Bool)
    (st : σ) : Except (Raised ε) Answer × σ :=
  let src := B.subject st
  if readable literal src.1 src.2 = false then (.error .invalid, st)
  else
    match E.exec src.1 0 with
    | none => (.ok ⟨src.1, none⟩, st)
    | some m =>
        match B.call (slice src.1 m.beg m.end_) st with
        | (.error e, st) => (.error (.raised e), st)
        | (.ok piece, st) =>
            let now := (B.subject st).1
            if bang = true ∧ now.length ≠ src.1.length then (.error .modified, st)
            else
              let from_ := if bang then now else src.1
              match slice from_ 0 m.beg, slice from_ m.end_ from_.length with
              | some front, some rest =>
                  (.ok ⟨front ++ piece ++ rest, some m⟩, st)
              | _, _ => (.error .outOfRange, st)

end Walk

end SabiRuby.Substitutions
