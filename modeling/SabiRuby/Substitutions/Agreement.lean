import SabiRuby.Substitutions.Loops

/-!
# The substitution loops agree

Each loop splices the replacement into the subject at the successive matches.
The literal search finds what an engine finds for the quoted pattern.
-/

namespace SabiRuby.Substitutions

open Strings

/-! ## Splicing -/

/-- The subject from a position on with a text in place of each match. -/
def splice (s : List UInt8) (text : Match → List UInt8) :
    Nat → List Match → List UInt8
  | pos, [] => s.drop pos
  | pos, m :: ms =>
      (s.drop pos).take (m.beg - pos) ++ text m ++ splice s text m.end_ ms

/-- The successive matches from a position on: the next search begins where a
match ends, behind the next character when it is empty. -/
def successive (E : Engine) (s : List UInt8) (binary : Bool) (pos : Nat) :
    List Match :=
  if pos ≤ s.length then
    match _ : E.exec s pos with
    | none => []
    | some m => m :: successive E s binary (past s binary m).2
  else []
termination_by s.length + 1 - pos
decreasing_by
  have bounds := E.bounds ‹E.exec s pos = some m›
  have later := @lt_past s binary m pos bounds.1 bounds.2.1
  omega

section Splicing

variable {E : Engine} {s : List UInt8} {text : Match → List UInt8}
  {binary : Bool} {pos : Nat}

theorem exec_none (outside : s.length < pos) : E.exec s pos = none := by
  cases found : E.exec s pos with
  | none => rfl
  | some m =>
      have bounds := E.bounds found
      omega

theorem successive_none (missing : E.exec s pos = none) :
    successive E s binary pos = [] := by
  rw [successive]
  split
  · split
    · rfl
    · rename_i found
      rw [missing] at found
      cases found
  · rfl

theorem successive_some {m : Match} (found : E.exec s pos = some m) :
    successive E s binary pos =
      m :: successive E s binary (past s binary m).2 := by
  have bounds := E.bounds found
  rw [successive, if_pos (by omega)]
  split
  · rename_i missing
    rw [found] at missing
    cases missing
  · rename_i m' found'
    rw [found] at found'
    cases found'
    rfl

theorem successive_after :
    ∀ m ∈ (successive E s binary pos).head?, pos ≤ m.beg := by
  intro m first
  cases found : E.exec s pos with
  | none =>
      rw [successive_none found] at first
      cases first
  | some m' =>
      rw [successive_some found] at first
      cases first
      exact (E.bounds found).1

/-- The matches come one after another: none begins inside an earlier one, and
two empty ones never stand at one place. -/
theorem successive_apart :
    (successive E s binary pos).Pairwise fun m m' =>
      m.end_ ≤ m'.beg ∧ m.beg < m'.beg := by
  have later : ∀ n, ∀ pos, s.length + 1 - pos ≤ n →
      (∀ m ∈ successive E s binary pos, pos ≤ m.beg) ∧
      (successive E s binary pos).Pairwise fun m m' =>
        m.end_ ≤ m'.beg ∧ m.beg < m'.beg := by
    intro n
    induction n with
    | zero =>
        intro pos few
        rw [successive_none (exec_none (by omega))]
        exact ⟨List.forall_mem_nil _, List.Pairwise.nil⟩
    | succ n ih =>
        intro pos few
        cases found : E.exec s pos with
        | none =>
            rw [successive_none found]
            exact ⟨List.forall_mem_nil _, List.Pairwise.nil⟩
        | some m =>
            have bounds := E.bounds found
            have further := @lt_past s binary m m.beg (Nat.le_refl _) bounds.2.1
            have behind : m.end_ ≤ (past s binary m).2 := by
              unfold past
              split
              · exact Nat.le_of_lt (lt_carry s binary m.end_)
              · exact Nat.le_refl _
            obtain ⟨after, apart⟩ := ih (past s binary m).2 (by omega)
            rw [successive_some found]
            constructor
            · intro m' mem
              rcases List.mem_cons.mp mem with rfl | mem
              · exact bounds.1
              · have begins := after m' mem
                omega
            · refine List.Pairwise.cons (fun m' mem => ?_) apart
              have begins := after m' mem
              omega
  exact (later _ pos (Nat.le_refl _)).2

/-- The bytes up to the next search stand as they are. -/
theorem splice_skip
    (le : pos ≤ pos')
    (after : ∀ m ∈ ms.head?, pos' ≤ m.beg) :
    splice s text pos ms =
      (s.drop pos).take (pos' - pos) ++ splice s text pos' ms := by
  have whole : s.drop pos' = (s.drop pos).drop (pos' - pos) := by
    rw [List.drop_drop, Nat.add_sub_cancel' le]
  cases ms with
  | nil =>
      rw [splice, splice, whole, List.take_append_drop]
  | cons m ms =>
      have first := after m rfl
      rw [splice, splice, whole, ← List.append_assoc, ← List.append_assoc]
      rw [show m.beg - pos = (pos' - pos) + (m.beg - pos') by omega,
        List.take_add]

theorem carry_bytes (le : pos ≤ s.length) :
    (carry s binary pos).1 =
      (s.drop pos).take ((carry s binary pos).2 - pos) := by
  unfold carry
  split
  · rw [Nat.add_sub_cancel_left]
  · rw [List.drop_eq_nil_of_le (by omega), List.take_nil]

/-- A match and the step past it. -/
theorem splice_past {m : Match} (inside : m.end_ ≤ s.length) :
    splice s text m.end_ (successive E s binary (past s binary m).2) =
      (past s binary m).1 ++
        splice s text (past s binary m).2
          (successive E s binary (past s binary m).2) := by
  by_cases empty : m.end_ = m.beg
  · have same : past s binary m = carry s binary m.end_ := if_pos empty
    rw [same, carry_bytes inside]
    exact splice_skip (Nat.le_of_lt (lt_carry s binary m.end_)) successive_after
  · have same : past s binary m = ([], m.end_) := if_neg empty
    rw [same]
    rfl

/-- With its own bytes for each match the subject is as it was: no byte outside
the matches is dropped or doubled. -/
theorem splice_own :
    splice s (fun m => (s.drop m.beg).take (m.end_ - m.beg)) pos
      (successive E s binary pos) = s.drop pos := by
  have piece : ∀ {a b : Nat}, a ≤ b →
      (s.drop a).take (b - a) ++ s.drop b = s.drop a := by
    intro a b le
    conv_lhs =>
      rw [show b = a + (b - a) by omega, ← List.drop_drop,
        Nat.add_sub_cancel_left]
    exact List.take_append_drop _ _
  fun_induction successive E s binary pos with
  | case1 => rfl
  | case2 pos within m found ih =>
      have bounds := E.bounds found
      have step : (past s binary m).1 ++ s.drop (past s binary m).2 =
          s.drop m.end_ := by
        unfold past
        split
        · rw [carry_bytes bounds.2.2]
          exact piece (Nat.le_of_lt (lt_carry s binary m.end_))
        · rfl
      rw [splice, splice_past bounds.2.2, ih, step, List.append_assoc,
        piece bounds.2.1, piece bounds.1]
  | case3 => rfl

end Splicing

/-! ## The loop with a text -/

section Texts

variable {E : Engine} {s rep : List UInt8} {binary : Bool}
  {expand : Match → List UInt8}

theorem replacement_plain (plain : 92 ∉ rep) (m : Match) :
    replacement rep expand m = rep :=
  if_neg plain

theorem strFrom_eq (plain : 92 ∉ rep) (pos : Nat) (last : Option Match) :
    let r := strFrom E s rep expand binary pos last
    r.1 ++ s.drop r.2.1 = splice s (fun _ => rep) pos (successive E s binary pos) ∧
      r.2.2 = (successive E s binary pos).getLast?.or last := by
  fun_induction strFrom E s rep expand binary pos last with
  | case1 pos last within missing =>
      rw [successive_none missing]
      exact ⟨rfl, rfl⟩
  | case2 pos last within m found next rest ih =>
      have bounds := E.bounds found
      rw [successive_some found]
      constructor
      · rw [splice, splice_past bounds.2.2, ← ih.1]
        simp only [replacement_plain plain, List.append_assoc]
        rfl
      · rw [ih.2, List.getLast?_cons]
        cases (successive E s binary next.2).getLast? with
        | none => rfl
        | some m' => rfl
  | case3 pos last outside =>
      rw [successive_none (exec_none (Nat.lt_of_not_le outside))]
      exact ⟨rfl, rfl⟩

theorem drop_tail (s : List UInt8) (pos : Nat) :
    (if pos ≤ s.length then s.drop pos else []) = s.drop pos := by
  split
  · rfl
  · rw [List.drop_eq_nil_of_le (by omega)]

theorem drop_tail_lt (s : List UInt8) (pos : Nat) :
    (if pos < s.length then s.drop pos else []) = s.drop pos := by
  split
  · rfl
  · rw [List.drop_eq_nil_of_le (by omega)]

/-- What `gsub` makes of a subject. -/
def replacedAll (E : Engine) (s rep : List UInt8) (binary : Bool) : Answer :=
  ⟨splice s (fun _ => rep) 0 (successive E s binary 0), (successive E s binary 0).getLast?⟩

/-- What `sub` makes of it: the first match alone. -/
def replacedFirst (E : Engine) (s rep : List UInt8) (binary : Bool) : Answer :=
  ⟨splice s (fun _ => rep) 0 ((successive E s binary 0).take 1),
    (successive E s binary 0).head?⟩

theorem gsubStr_eq
    (plain : 92 ∉ rep)
    (reads : readable false s binary = true) :
    gsubStr E s rep expand binary =
      (.ok (replacedAll E s rep binary) : Except (Raised ε) Answer) := by
  have loop := @strFrom_eq E s rep binary expand plain 0 none
  rw [Option.or_none] at loop
  rw [gsubStr, if_pos reads]
  simp only [drop_tail]
  rw [loop.1, loop.2, replacedAll]

theorem replacedFirst_none (missing : E.exec s 0 = none) :
    replacedFirst E s rep binary = ⟨s, none⟩ := by
  rw [replacedFirst, successive_none missing]
  rfl

theorem replacedFirst_some {m : Match} (found : E.exec s 0 = some m) :
    replacedFirst E s rep binary =
      ⟨s.take m.beg ++ rep ++ s.drop m.end_, some m⟩ := by
  rw [replacedFirst, successive_some found]
  rfl

theorem subStr_eq
    (plain : 92 ∉ rep)
    (reads : readable false s binary = true) :
    subStr E s rep expand binary =
      (.ok (replacedFirst E s rep binary) : Except (Raised ε) Answer) := by
  rw [subStr, if_pos reads]
  cases found : E.exec s 0 with
  | none => rw [replacedFirst_none found]
  | some m =>
      rw [replacedFirst_some found]
      simp only [replacement_plain plain]

end Texts

/-! ## The loop with a block -/

section Blocks

variable {σ ε : Type} {E : Engine} {B : Block σ ε} {literal : Bool}

theorem charlen_le {s : List UInt8} {i : Nat} (inside : i < s.length)
    (binary : Bool) :
    i + charlen s i binary ≤ s.length := by
  unfold charlen
  cases binary with
  | true =>
      change i + 1 ≤ s.length
      exact inside
  | false =>
      have le := headLen_le (drop_ne_nil inside)
      rw [List.length_drop] at le
      rw [Bool.not_false, utf8len_eq]
      omega

theorem slice_some
    (le : a ≤ b)
    (below : b ≤ s.length) :
    slice s a b = some ((s.drop a).take (b - a)) :=
  if_pos ⟨le, below⟩

/-- The slice before a match is in range. -/
theorem before_some
    (le : pos ≤ beg)
    (within : beg ≤ s.length) :
    before s pos beg = some ((s.drop pos).take (beg - pos)) := by
  unfold before
  split
  · exact slice_some le within
  · rw [show beg - pos = 0 by omega, List.take_zero]

/-- The slice of a carried character is in range. -/
theorem walkPast_some
    (binary : Bool)
    {m : Match} :
    walkPast s binary s.length m = some (past s binary m) := by
  unfold walkPast past
  by_cases empty : m.end_ = m.beg
  · rw [if_pos empty.symm, if_pos empty]
    unfold carry
    split
    · rename_i inside
      rw [slice_some (Nat.le_add_right _ _) (charlen_le inside binary),
        Nat.add_sub_cancel_left]
      rfl
    · rfl
  · rw [if_neg (Ne.symm empty), if_neg empty]

theorem walkTail_some {s : List UInt8} (pos : Nat) :
    walkTail s pos s.length = some (s.drop pos) := by
  unfold walkTail
  split
  · rename_i inside
    rw [slice_some (Nat.le_of_lt inside) (Nat.le_refl _)]
    rw [List.take_of_length_le (by rw [List.length_drop])]
  · rw [List.drop_eq_nil_of_le (by omega)]

/-- No slice of the walk is out of range, whatever the block does. -/
theorem walkFrom_safe
    {slen pos last : Nat}
    {lastMd : Option MatchData}
    {s : List UInt8}
    {st : σ}
    (length : s.length = slen) :
    let r := (walkFrom E B literal slen pos last lastMd s st).1
    r ≠ .error .outOfRange ∧ ∀ w, r = .ok w → w.s.length = slen := by
  fun_induction walkFrom E B literal slen pos last lastMd s st with
  | case1 pos last lastMd s st within missing =>
      refine ⟨by simp, ?_⟩
      rintro _ ⟨⟩
      exact length
  | case2 => exact ⟨by simp, by simp⟩
  | case3 => exact ⟨by simp, by simp⟩
  | case4 => exact ⟨by simp, by simp⟩
  | case5 pos last lastMd s st within m found piece st' called now kept reads
      outside =>
      have bounds := E.bounds found
      rw [ne_eq, not_not] at kept
      rw [before_some bounds.1 (by omega)] at outside
      cases outside
  | case6 pos last lastMd s st within m found piece st' called now kept reads
      front taken outside =>
      have bounds := E.bounds found
      rw [ne_eq, not_not] at kept
      rw [← kept, walkPast_some now.2] at outside
      cases outside
  | case7 pos last lastMd s st within m found md piece st' called now kept reads
      front taken next stepped why st'' failed ih =>
      rw [ne_eq, not_not] at kept
      have later := ih kept
      rw [failed] at later
      exact ⟨later.1, by simp⟩
  | case8 pos last lastMd s st within m found md piece st' called now kept reads
      front taken next stepped w st'' done ih =>
      rw [ne_eq, not_not] at kept
      have later := ih kept
      rw [done] at later
      refine ⟨by simp, ?_⟩
      rintro _ ⟨⟩
      exact later.2 w rfl
  | case9 pos last lastMd s st outside =>
      refine ⟨by simp, ?_⟩
      rintro _ ⟨⟩
      exact length

/-- The block answers a text and leaves the receiver as it is. -/
def Block.Answers (B : Block σ ε) (rep : List UInt8) (subject : List UInt8 × Bool) :
    Prop :=
  ∀ st, B.subject st = subject → ∀ matched, ∃ st',
    B.call matched st = (.ok rep, st') ∧ B.subject st' = subject

variable {rep s : List UInt8}

theorem walkFrom_eq
    {binary : Bool}
    (answers : B.Answers rep (s, binary))
    (reads : readable literal s binary = true)
    {slen pos last : Nat}
    {lastMd : Option MatchData}
    {s' : List UInt8}
    {st : σ}
    (subject : B.subject st = (s, binary))
    (slen_ : s.length = slen)
    (s_ : s' = s) :
    ∃ w st', walkFrom E B literal slen pos last lastMd s' st = (.ok w, st') ∧
      B.subject st' = (s, binary) ∧ w.s = s ∧
      w.out ++ s.drop w.pos = splice s (fun _ => rep) pos (successive E s binary pos) ∧
      w.lastMd = ((successive E s binary pos).getLast?.map
        (⟨·, (s, binary)⟩)).or lastMd := by
  have answered : ∀ {matched st result st'},
      B.subject st = (s, binary) → B.call matched st = (result, st') →
        result = .ok rep ∧ B.subject st' = (s, binary) := by
    intro matched st result st' subject called
    obtain ⟨st'', run, same⟩ := answers st subject matched
    rw [called, Prod.mk.injEq] at run
    exact ⟨run.1, run.2 ▸ same⟩
  fun_induction walkFrom E B literal slen pos last lastMd s' st with
  | case1 pos last lastMd s' st within missing =>
      subst s_
      refine ⟨_, st, rfl, subject, rfl, ?_, ?_⟩
      · rw [successive_none missing]
        rfl
      · rw [successive_none missing]
        rfl
  | case2 pos last lastMd s' st within m found e st' called =>
      cases (answered subject called).1
  | case3 pos last lastMd s' st within m found piece st' called now changed =>
      have same : now = (s, binary) := (answered subject called).2
      rw [same] at changed
      exact absurd slen_ changed
  | case4 pos last lastMd s' st within m found piece st' called now kept unread =>
      have same : now = (s, binary) := (answered subject called).2
      rw [same, reads] at unread
      cases unread
  | case5 pos last lastMd s' st within m found piece st' called now kept _
      outside =>
      have bounds := E.bounds found
      subst s_
      rw [ne_eq, not_not] at kept
      rw [before_some bounds.1 (by omega)] at outside
      cases outside
  | case6 pos last lastMd s' st within m found piece st' called now kept _ front
      taken outside =>
      have bounds := E.bounds found
      subst s_
      rw [ne_eq, not_not] at kept
      rw [← kept, walkPast_some now.2] at outside
      cases outside
  | case7 pos last lastMd s' st within m found md piece st' called now kept _
      front taken next stepped why st'' failed ih =>
      have same : now = (s, binary) := (answered subject called).2
      obtain ⟨w, st3, run, -⟩ :=
        ih (answered subject called).2 (congrArg Prod.fst same)
      rw [failed] at run
      cases run
  | case8 pos last lastMd s' st within m found md piece st' called now kept _
      front taken next stepped w st'' done ih =>
      have same : now = (s, binary) := (answered subject called).2
      have bounds := E.bounds found
      obtain ⟨⟨⟩, _⟩ := answered subject called
      obtain ⟨w', st3, run, after, source, bytes, md_⟩ :=
        ih (answered subject called).2 (congrArg Prod.fst same)
      rw [done] at run
      cases run
      subst s_
      rw [same] at taken stepped
      have begins : m.beg ≤ s'.length := Nat.le_trans bounds.2.1 bounds.2.2
      rw [before_some bounds.1 begins, Option.some.injEq] at taken
      rw [← slen_, walkPast_some binary, Option.some.injEq] at stepped
      subst taken stepped
      refine ⟨_, st'', rfl, after, source, ?_, ?_⟩
      · rw [successive_some found, splice, splice_past bounds.2.2, ← bytes]
        simp only [List.append_assoc]
      · rw [md_, successive_some found, List.getLast?_cons]
        cases (successive E s' binary (past s' binary m).2).getLast? with
        | none =>
            simp only [md, subject]
            rfl
        | some m' => rfl
  | case9 pos last lastMd s' st outside =>
      subst s_
      have missing := @exec_none E s' pos (by omega)
      refine ⟨_, st, rfl, subject, rfl, ?_, ?_⟩
      · rw [successive_none missing]
        rfl
      · rw [successive_none missing]
        rfl

theorem gsubWalk_eq
    (answers : B.Answers rep (s, binary))
    (reads : readable literal s binary = true)
    (subject : B.subject st = (s, binary)) :
    (gsubWalk E B literal st).1 = .ok (replacedAll E s rep binary) := by
  obtain ⟨w, st', run, after, source, bytes, md⟩ :=
    @walkFrom_eq σ ε E B literal rep s binary answers reads s.length 0 0 none s st
      subject rfl rfl
  rw [Option.or_none] at md
  simp only [gsubWalk, subject, reads, Bool.true_eq_false, if_false, run, source,
    walkTail_some, after, md, bytes, replacedAll]
  cases (successive E s binary 0).getLast? with
  | none => rfl
  | some m => simp only [Option.map_some, if_true]

theorem gsubWalk_safe (st : σ) :
    (gsubWalk E B literal st).1 ≠ .error .outOfRange := by
  simp only [gsubWalk]
  split
  · simp
  · have safe := @walkFrom_safe σ ε E B literal (B.subject st).1.length 0 0 none
      (B.subject st).1 st rfl
    split
    · rename_i why st' failed
      rw [failed] at safe
      intro outside
      cases outside
      exact safe.1 rfl
    · rename_i w st' done
      rw [done] at safe
      rw [← safe.2 w rfl, walkTail_some]
      split
      · rename_i none_
        cases none_
      · split
        · simp
        · split
          · simp
          · split
            · simp
            · simp

theorem subBlock_eq
    (answers : B.Answers rep (s, binary))
    (reads : readable literal s binary = true)
    (subject : B.subject st = (s, binary)) :
    (subBlock E B literal bang st).1 = .ok (replacedFirst E s rep binary) := by
  cases found : E.exec s 0 with
  | none =>
      rw [replacedFirst_none found]
      simp only [subBlock, subject, reads, Bool.true_eq_false, if_false, found]
  | some m =>
      have bounds := E.bounds found
      obtain ⟨st', called, after⟩ := answers st subject (slice s m.beg m.end_)
      have front : slice s 0 m.beg = some (s.take m.beg) :=
        slice_some (Nat.zero_le _) (Nat.le_trans bounds.2.1 bounds.2.2)
      have rest : slice s m.end_ s.length = some (s.drop m.end_) := by
        rw [slice_some bounds.2.2 (Nat.le_refl _),
          List.take_of_length_le (by rw [List.length_drop])]
      rw [replacedFirst_some found]
      simp only [subBlock, subject, reads, Bool.true_eq_false, if_false, found,
        called, after, ne_eq, not_true_eq_false, and_false, ite_self, front, rest]

theorem subBlock_safe (bang : Bool) (st : σ) :
    (subBlock E B literal bang st).1 ≠ .error .outOfRange := by
  simp only [subBlock]
  split
  · simp
  · split
    · simp
    · rename_i m found
      have bounds := E.bounds found
      split
      · simp
      · rename_i piece st' called
        split
        · simp
        · rename_i kept
          have length : (if bang = true then (B.subject st').1
              else (B.subject st).1).length = (B.subject st).1.length := by
            split
            · rename_i yes
              by_contra other
              exact kept ⟨yes, other⟩
            · rfl
          rw [slice_some (Nat.zero_le _) (by omega),
            slice_some (by omega) (Nat.le_refl _)]
          simp

end Blocks

/-! ## A literal pattern -/

/-- The bounds of the characters of a subject, or of its bytes. -/
def Boundary (binary : Bool) (s : List UInt8) (k : Nat) : Prop :=
  if binary then k ≤ s.length
  else ∃ j ≤ (pieces s).length, k = offset (pieces s) j

/-- The engine of a quoted pattern answers the leftmost occurrence at or after a
position that stands on a bound. -/
def Engine.FindsLiteral
    (E : Engine)
    (p : List UInt8)
    (binary : Bool)
    (s : List UInt8) : Prop :=
  ∀ pos m, E.exec s pos = some m ↔
    m.end_ = m.beg + p.length ∧
      IsLeast {k | pos ≤ k ∧ Boundary binary s k ∧ p <+: s.drop k} m.beg

section Literals

variable {E : Engine} {s p rep : List UInt8} {binary : Bool}
  {expand : Match → List UInt8}

theorem Boundary.le {k : Nat} (boundary : Boundary binary s k) : k ≤ s.length := by
  unfold Boundary at boundary
  split at boundary
  · exact boundary
  · obtain ⟨j, _, rfl⟩ := boundary
    exact offset_le s j

theorem boundary_zero : Boundary binary s 0 := by
  unfold Boundary
  split
  · exact Nat.zero_le _
  · exact ⟨0, Nat.zero_le _, rfl⟩

/-- The step past an empty match stands on a bound. -/
theorem boundary_carry
    (boundary : Boundary binary s k)
    (inside : k < s.length) :
    Boundary binary s (carry s binary k).2 := by
  rw [carry, if_pos inside]
  unfold Boundary charlen at *
  cases binary with
  | true => exact inside
  | false =>
      simp only [Bool.false_eq_true, if_false] at boundary ⊢
      obtain ⟨j, le, rfl⟩ := boundary
      have lt : j < (pieces s).length := by
        apply Nat.lt_of_le_of_ne le
        rintro rfl
        rw [offset_length] at inside
        exact Nat.lt_irrefl _ inside
      refine ⟨j + 1, lt, ?_⟩
      have first := pieces_drop_offset s j
      rw [pieces_of_ne (drop_ne_nil inside), List.drop_eq_getElem_cons lt,
        List.cons.injEq] at first
      have le' := headLen_le (drop_ne_nil inside)
      rw [offset_succ _ lt, ← first.1, Bool.not_false, utf8len_eq,
        List.length_take_of_le le']

/-- A pattern of characters stands on bounds only. -/
theorem boundary_of_prefix
    (valid : validChars p (!binary) = true)
    (some_ : p ≠ [])
    (here : p <+: s.drop k) :
    Boundary binary s k := by
  have positive := List.length_pos_iff.mpr some_
  have length := here.length_le
  rw [List.length_drop] at length
  unfold Boundary
  cases binary with
  | true =>
      change k ≤ s.length
      omega
  | false =>
      have characters := (validChars_iff p).mp valid
      obtain ⟨j, lt, same⟩ := boundary_of_occurs characters some_ here
      exact ⟨j, Nat.le_of_lt lt, same⟩

theorem places_eq
    (valid : validChars p (!binary) = true)
    (some_ : p ≠ [])
    {pos : Nat} :
    {k | pos ≤ k ∧ Boundary binary s k ∧ p <+: s.drop k} =
      {k | pos ≤ k ∧ p <+: s.drop k} := by
  ext k
  constructor
  · exact fun mem => ⟨mem.1, mem.2.2⟩
  · exact fun mem => ⟨mem.1, boundary_of_prefix valid some_ mem.2, mem.2⟩

/-- A position that a search of a literal begins at: for an empty one a bound or
past the end. -/
def Searched (p : List UInt8) (binary : Bool) (s : List UInt8) (pos : Nat) :
    Prop :=
  p = [] → Boundary binary s pos ∨ s.length < pos

/-- The literal search and the engine of the quoted pattern agree from a bound
on, and past the end. -/
theorem exec_eq_litSearch
    (literal : E.FindsLiteral p binary s)
    (valid : validChars p (!binary) = true)
    (searched : Searched p binary s pos) :
    E.exec s pos = (litSearch s p pos).map fun b => ⟨b, b + p.length⟩ := by
  apply Option.ext
  rintro ⟨b, e⟩
  rw [literal pos ⟨b, e⟩, Option.map_eq_some_iff]
  by_cases empty : p = []
  · subst empty
    rw [litSearch, if_pos rfl]
    constructor
    · rintro ⟨end_, least⟩
      have inside := least.1.2.1.le
      have after := least.1.1
      have here : Boundary binary s pos := by
        rcases searched rfl with here | outside
        · exact here
        · omega
      have first := least.2 ⟨Nat.le_refl pos, here, List.nil_prefix⟩
      have same : pos = b := Nat.le_antisymm after first
      refine ⟨pos, if_pos (by omega), ?_⟩
      change e = b + _ at end_
      rw [end_, same]
    · rintro ⟨b', found, same⟩
      split at found
      · rename_i within
        cases found
        cases same
        have here : Boundary binary s pos := by
          rcases searched rfl with here | outside
          · exact here
          · omega
        exact ⟨rfl, ⟨Nat.le_refl pos, here, List.nil_prefix⟩,
          fun k mem => mem.1⟩
      · cases found
  · rw [places_eq valid empty, litSearch_eq_find empty]
    constructor
    · rintro ⟨end_, least⟩
      refine ⟨b, (find_iff empty pos b).mpr least, ?_⟩
      change e = b + _ at end_
      rw [end_]
    · rintro ⟨b', found, same⟩
      cases same
      exact ⟨rfl, (find_iff empty pos b).mp found⟩

theorem pastLit_eq (s p : List UInt8) (binary : Bool) (beg : Nat) :
    pastLit s p binary beg = past s binary ⟨beg, beg + p.length⟩ := by
  unfold pastLit past
  by_cases empty : p = []
  · subst empty
    rw [if_pos rfl]
    exact (if_pos rfl).symm
  · have positive := List.length_pos_iff.mpr empty
    rw [if_neg empty, if_neg (by change beg + p.length ≠ beg; omega)]

/-- The step past a match of the literal is searched from. -/
theorem Searched.past
    (searched : Searched p binary s pos)
    (found : litSearch s p pos = some beg) :
    Searched p binary s (pastLit s p binary beg).2 := by
  intro empty
  rw [litSearch, if_pos empty] at found
  split at found
  · rename_i within
    cases found
    rw [pastLit, if_pos empty]
    by_cases inside : pos < s.length
    · left
      rcases searched empty with boundary | outside
      · exact boundary_carry boundary inside
      · omega
    · right
      rw [carry, if_neg inside]
      change s.length < pos + 1
      omega
  · cases found

theorem litFrom_eq
    (plain : 92 ∉ rep)
    (literal : E.FindsLiteral p binary s)
    (valid : validChars p (!binary) = true)
    {beg pos : Nat}
    (found : litSearch s p pos = some beg)
    (searched : Searched p binary s pos) :
    let r := litFrom s p rep expand binary beg pos
    r.1 ++ s.drop r.2.1 = splice s (fun _ => rep) pos (successive E s binary pos) ∧
      some r.2.2 = (successive E s binary pos).getLast? := by
  fun_induction litFrom s p rep expand binary beg pos with
  | case1 beg pos caps next out b again rest ih =>
      have exec := exec_eq_litSearch literal valid searched
      rw [found, Option.map_some] at exec
      have bounds := E.bounds exec
      have step : next = past s binary caps := pastLit_eq s p binary beg
      have later := ih again (searched.past found)
      rw [successive_some exec]
      change (_ ++ _) ++ _ = splice s (fun _ => rep) pos (caps :: successive E s binary
        (past s binary caps).2) ∧ _ = (caps :: successive E s binary
        (past s binary caps).2).getLast?
      constructor
      · rw [splice, @splice_past E s (fun _ => rep) binary caps bounds.2.2, ← step,
          ← later.1]
        simp only [out, replacement_plain plain, List.append_assoc]
        rfl
      · rw [List.getLast?_cons, ← step, ← later.2]
        rfl
  | case2 beg pos caps next out missing =>
      have exec := exec_eq_litSearch literal valid searched
      rw [found, Option.map_some] at exec
      have bounds := E.bounds exec
      have step : next = past s binary caps := pastLit_eq s p binary beg
      have none_ := exec_eq_litSearch literal valid (searched.past found)
      change E.exec s next.2 = _ at none_
      rw [missing, Option.map_none, step] at none_
      rw [successive_some exec]
      change _ ++ _ = splice s (fun _ => rep) pos (caps :: successive E s binary
        (past s binary caps).2) ∧ _ = (caps :: successive E s binary
        (past s binary caps).2).getLast?
      constructor
      · rw [splice, splice_past bounds.2.2, successive_none none_]
        simp only [out, replacement_plain plain, step, List.append_assoc]
        rfl
      · rw [successive_none none_]
        rfl

theorem gsubLit_eq
    (plain : 92 ∉ rep)
    (literal : E.FindsLiteral p binary s)
    (valid : validChars p (!binary) = true) :
    gsubLit s p rep expand binary = replacedAll E s rep binary := by
  have searched : Searched p binary s 0 := fun _ => Or.inl boundary_zero
  have exec := exec_eq_litSearch literal valid searched
  cases found : litSearch s p 0 with
  | none =>
      rw [found, Option.map_none] at exec
      simp only [gsubLit, found]
      rw [replacedAll, successive_none exec]
      rfl
  | some beg =>
      have loop := @litFrom_eq E s p rep binary expand plain literal valid beg 0
        found searched
      simp only [gsubLit, found, drop_tail_lt]
      rw [loop.1, loop.2, replacedAll]

theorem subLit_eq
    (plain : 92 ∉ rep)
    (literal : E.FindsLiteral p binary s)
    (valid : validChars p (!binary) = true) :
    subLit s p rep expand = replacedFirst E s rep binary := by
  have searched : Searched p binary s 0 := fun _ => Or.inl boundary_zero
  have exec := exec_eq_litSearch literal valid searched
  cases found : litSearch s p 0 with
  | none =>
      rw [found, Option.map_none] at exec
      rw [replacedFirst_none exec]
      simp only [subLit, found]
  | some beg =>
      rw [found, Option.map_some] at exec
      rw [replacedFirst_some exec]
      simp only [subLit, found, replacement_plain plain]

/-- The literal search as an engine. -/
def literalEngine (p : List UInt8) : Engine where
  exec s pos := (litSearch s p pos).map fun b => ⟨b, b + p.length⟩
  bounds := by
    intro s pos m found
    obtain ⟨b, search, rfl⟩ := Option.map_eq_some_iff.mp found
    have bounds := litSearch_bounds search
    exact ⟨bounds.1, Nat.le_add_right _ _, bounds.2⟩

theorem literalEngine_finds
    (some_ : p ≠ [])
    (valid : validChars p (!binary) = true) :
    (literalEngine p).FindsLiteral p binary s := by
  intro pos m
  rw [places_eq valid some_, ← find_iff some_, ← litSearch_eq_find some_]
  change (litSearch s p pos).map (fun b => (⟨b, b + p.length⟩ : Match)) =
    some m ↔ _
  rw [Option.map_eq_some_iff]
  constructor
  · rintro ⟨b, found, rfl⟩
    exact ⟨rfl, found⟩
  · rintro ⟨end_, found⟩
    refine ⟨m.beg, found, ?_⟩
    rw [← end_]

end Literals

/-- The loops of `gsub` splice the text in at every match and those of `sub` at
the first, each keeps the rest of the subject, and no block makes them slice out
of range. -/
theorem substitutions_agree
    {σ ε : Type}
    (E : Engine)
    {s rep : List UInt8}
    {binary : Bool}
    (plain : 92 ∉ rep)
    (valid : validChars s (!binary) = true) :
    (∀ expand,
      gsubStr E s rep expand binary =
          (.ok (replacedAll E s rep binary) : Except (Raised ε) Answer) ∧
        subStr E s rep expand binary =
          (.ok (replacedFirst E s rep binary) : Except (Raised ε) Answer)) ∧
      (∀ (B : Block σ ε) literal st,
        B.Answers rep (s, binary) → B.subject st = (s, binary) →
          (gsubWalk E B literal st).1 = .ok (replacedAll E s rep binary) ∧
            ∀ bang, (subBlock E B literal bang st).1 =
              .ok (replacedFirst E s rep binary)) ∧
      (∀ p expand, validChars p (!binary) = true → E.FindsLiteral p binary s →
        gsubLit s p rep expand binary = replacedAll E s rep binary ∧
          subLit s p rep expand = replacedFirst E s rep binary) ∧
      (successive E s binary 0).Pairwise (fun m m' =>
        m.end_ ≤ m'.beg ∧ m.beg < m'.beg) ∧
      splice s (fun m => (s.drop m.beg).take (m.end_ - m.beg)) 0
        (successive E s binary 0) = s ∧
      ∀ (B : Block σ ε) literal bang st,
        (gsubWalk E B literal st).1 ≠ .error .outOfRange ∧
          (subBlock E B literal bang st).1 ≠ .error .outOfRange := by
  have reads : ∀ literal, readable literal s binary = true := by
    intro literal
    rw [readable, valid, Bool.or_true]
  refine ⟨?_, ?_, ?_, successive_apart, splice_own, ?_⟩
  · exact fun expand =>
      ⟨gsubStr_eq plain (reads false), subStr_eq plain (reads false)⟩
  · intro B literal st answers subject
    exact ⟨gsubWalk_eq answers (reads literal) subject,
      fun bang => subBlock_eq answers (reads literal) subject⟩
  · intro p expand validP finds
    exact ⟨gsubLit_eq plain finds validP, subLit_eq plain finds validP⟩
  · exact fun B literal bang st => ⟨gsubWalk_safe st, subBlock_safe bang st⟩

theorem substitutions_agree_letter :
    gsubStr (literalEngine [98]) [97, 98, 99, 98] [120] (fun _ => []) true =
        (.ok ⟨[97, 120, 99, 120], some ⟨3, 4⟩⟩ :
          Except (Raised Unit) Answer) ∧
      gsubLit [97, 98, 99, 98] [98] [120] (fun _ => []) true =
        ⟨[97, 120, 99, 120], some ⟨3, 4⟩⟩ ∧
      (gsubWalk (literalEngine [98])
        ⟨fun _ => ([97, 98, 99, 98], true), fun _ st => (.ok [120], st)⟩ true
        ()).1 = (.ok ⟨[97, 120, 99, 120], some ⟨3, 4⟩⟩ :
          Except (Raised Unit) Answer) := by
  obtain ⟨texts, blocks, literals, _⟩ :=
    @substitutions_agree Unit Unit (literalEngine [98]) [97, 98, 99, 98] [120]
      true (by decide) rfl
  have first : (literalEngine [98]).exec [97, 98, 99, 98] 0 = some ⟨1, 2⟩ := by
    decide
  have second : (literalEngine [98]).exec [97, 98, 99, 98] 2 = some ⟨3, 4⟩ := by
    decide
  have third : (literalEngine [98]).exec [97, 98, 99, 98] 4 = none := by
    decide
  have all : replacedAll (literalEngine [98]) [97, 98, 99, 98] [120] true =
      ⟨[97, 120, 99, 120], some ⟨3, 4⟩⟩ := by
    rw [replacedAll, successive_some first]
    change (⟨splice _ _ 0 (_ :: successive _ _ _ 2),
      (_ :: successive _ _ _ 2).getLast?⟩ : Answer) = _
    rw [successive_some second]
    change (⟨splice _ _ 0 (_ :: _ :: successive _ _ _ 4),
      (_ :: _ :: successive _ _ _ 4).getLast?⟩ : Answer) = _
    rw [successive_none third]
    rfl
  rw [← all]
  refine ⟨(texts _).1, ?_, ?_⟩
  · have valid : validChars [98] (!true) = true := rfl
    exact (literals [98] _ valid (literalEngine_finds (by decide) valid)).1
  · exact (blocks _ true () (fun st _ _ => ⟨st, rfl, rfl⟩) rfl).1

end SabiRuby.Substitutions
