import SabiRuby.Strings.Splitting

/-!
# Fields between spaces

The blank separator lists the maximal runs of bytes that are not spaces.  With a
limit the rest from the last field's start is one piece, and behind a last space
there is an empty piece that only a limit of 0 drops.
-/

namespace SabiRuby.Strings

/-! ## Fields -/

/-- The string from its first field on. -/
def fromField (s : List UInt8) : List UInt8 := s.dropWhile isSpace

/-- The first bytes that are not spaces. -/
def firstField (s : List UInt8) : List UInt8 := s.takeWhile (!isSpace ·)

/-- What is behind them. -/
def behindField (s : List UInt8) : List UInt8 := s.dropWhile (!isSpace ·)

theorem length_fromField_le (s : List UInt8) :
    (fromField s).length ≤ s.length :=
  (List.dropWhile_suffix _).length_le

theorem fromField_head {s : List UInt8} {c : UInt8} {rest : List UInt8}
    (begins : fromField s = c :: rest) : isSpace c = false := by
  have some_ : s.dropWhile isSpace ≠ [] := by
    rw [fromField] at begins
    rw [begins]
    exact List.cons_ne_nil c rest
  have head := List.head_dropWhile_not isSpace some_
  simp only [fromField] at begins
  simpa only [begins, List.head_cons] using head

theorem length_behindField_lt {s : List UInt8} (some_ : fromField s ≠ []) :
    (behindField (fromField s)).length < s.length := by
  obtain ⟨c, rest, begins⟩ := List.exists_cons_of_ne_nil some_
  have shorter := length_fromField_le s
  have plain := fromField_head begins
  rw [begins] at shorter ⊢
  rw [behindField, List.dropWhile_cons_of_pos (by simp [plain])]
  have suffix := (@List.dropWhile_suffix _ rest (!isSpace ·)).length_le
  rw [List.length_cons] at shorter
  omega

/-- The maximal runs of bytes that are not spaces. -/
def fields (s : List UInt8) : List (List UInt8) :=
  if fromField s = [] then []
  else firstField (fromField s) :: fields (behindField (fromField s))
termination_by s.length
decreasing_by exact length_behindField_lt ‹_›

/-- The string from a field's start on, past as many fields. -/
def skipFields : Nat → List UInt8 → List UInt8
  | 0, s => fromField s
  | k + 1, s => skipFields k (behindField (fromField s))

/-- The empty piece behind a last space. -/
def trailing (s : List UInt8) : List (List UInt8) :=
  if s.getLast?.any isSpace then [[]] else []

/-! ## The pieces that the loop cuts -/

/-- The fields with the rest as the last piece: the rest once the room is used
up, or the last field, or nothing behind the last space. -/
def cutFields (room : Option Nat) (s : List UInt8) : List (List UInt8) :=
  if fromField s = [] then [[]]
  else if room = some 0 then [fromField s]
  else if behindField (fromField s) = [] then [fromField s]
  else
    firstField (fromField s) ::
      cutFields (room.map Nat.pred) (behindField (fromField s))
termination_by s.length
decreasing_by exact length_behindField_lt ‹_›

section Fields

variable {s : List UInt8}

theorem fields_nil (none_ : fromField s = []) : fields s = [] := by
  rw [fields, if_pos none_]

theorem fields_cons (some_ : fromField s ≠ []) :
    fields s =
      firstField (fromField s) :: fields (behindField (fromField s)) := by
  rw [fields, if_neg some_]

theorem firstField_append (s : List UInt8) :
    firstField s ++ behindField s = s :=
  List.takeWhile_append_dropWhile

theorem firstField_ne_nil (some_ : fromField s ≠ []) :
    firstField (fromField s) ≠ [] := by
  obtain ⟨c, rest, begins⟩ := List.exists_cons_of_ne_nil some_
  have plain := fromField_head begins
  rw [begins, firstField, List.takeWhile_cons_of_pos (by simp [plain])]
  exact List.cons_ne_nil _ _

theorem fields_ne_nil : ∀ piece ∈ fields s, piece ≠ [] := by
  fun_induction fields s with
  | case1 s none_ => exact fun _ none_ => nomatch none_
  | case2 s some_ ih =>
      rw [List.forall_mem_cons]
      exact ⟨firstField_ne_nil some_, ih⟩

/-- A field goes on to a space or to the end. -/
theorem firstField_whole (ends : behindField s = []) : firstField s = s := by
  have whole := firstField_append s
  rwa [ends, List.append_nil] at whole

theorem getLast?_fromField (some_ : fromField s ≠ []) :
    s.getLast? = (fromField s).getLast? := by
  conv_lhs => rw [← @List.takeWhile_append_dropWhile _ isSpace s]
  exact List.getLast?_append_of_ne_nil _ some_

theorem getLast?_behindField (some_ : behindField s ≠ []) :
    s.getLast? = (behindField s).getLast? := by
  conv_lhs => rw [← firstField_append s]
  exact List.getLast?_append_of_ne_nil _ some_

/-- The last byte of a string without a field is a space. -/
theorem trailing_of_spaces (some_ : s ≠ []) (none_ : fromField s = []) :
    trailing s = [[]] := by
  have spaces := List.dropWhile_eq_nil_iff.mp none_
  rw [trailing, List.getLast?_eq_some_getLast some_, Option.any_some,
    spaces _ (List.getLast_mem some_), if_pos rfl]

theorem trailing_of_field
    (some_ : fromField s ≠ [])
    (ends : behindField (fromField s) = []) :
    trailing s = [] := by
  have plain := List.dropWhile_eq_nil_iff.mp ends
  have last := plain _ (List.getLast_mem some_)
  rw [Bool.not_eq_true'] at last
  rw [trailing, getLast?_fromField some_, List.getLast?_eq_some_getLast some_,
    Option.any_some, last, if_neg Bool.false_ne_true]

theorem trailing_behind
    (some_ : fromField s ≠ [])
    (more : behindField (fromField s) ≠ []) :
    trailing s = trailing (behindField (fromField s)) := by
  rw [trailing, getLast?_fromField some_, getLast?_behindField more, trailing]

/-- With room for all fields they are the pieces. -/
theorem cutFields_enough
    (some_ : s ≠ [])
    (enough : ∀ k, room = some k → (fields s).length ≤ k) :
    cutFields room s = fields s ++ trailing s := by
  fun_induction cutFields room s with
  | case1 room s none_ =>
      rw [fields_nil none_, trailing_of_spaces some_ none_, List.nil_append]
  | case2 s begins =>
      have none_ := enough 0 rfl
      rw [fields_cons begins] at none_
      cases none_
  | case3 room s begins _ ends =>
      rw [fields_cons begins, trailing_of_field begins ends,
        firstField_whole ends, ends, fields_nil rfl, List.append_nil]
  | case4 room s begins more goesOn ih =>
      rw [fields_cons begins, trailing_behind begins goesOn, List.cons_append,
        ih goesOn]
      intro k left
      cases room with
      | none => cases left
      | some n =>
          have all := enough n rfl
          rw [fields_cons begins, List.length_cons] at all
          cases left
          exact Nat.le_pred_of_lt all

/-- With less room the rest from the next field's start is one piece. -/
theorem cutFields_short
    (less : k < (fields s).length) :
    cutFields (some k) s = (fields s).take k ++ [skipFields k s] := by
  have begins : fromField s ≠ [] := by
    intro none_
    rw [fields_nil none_] at less
    cases less
  induction k generalizing s with
  | zero =>
      rw [cutFields, if_neg begins, if_pos rfl]
      rfl
  | succ k ih =>
      rw [fields_cons begins, List.length_cons] at less
      have later := Nat.lt_of_succ_lt_succ less
      have next : fromField (behindField (fromField s)) ≠ [] := by
        intro none_
        rw [fields_nil none_] at later
        cases later
      have goesOn : behindField (fromField s) ≠ [] := by
        intro ends
        rw [ends] at next
        exact next rfl
      rw [cutFields, if_neg begins, if_neg (by simp), if_neg goesOn,
        fields_cons begins, List.take_succ_cons, List.cons_append]
      exact congrArg _ (ih later next)

theorem cutFields_space
    (space : isSpace c = true)
    (room : Option Nat)
    (s : List UInt8) :
    cutFields room (c :: s) = cutFields room s := by
  have same : fromField (c :: s) = fromField s :=
    List.dropWhile_cons_of_pos space
  rw [cutFields, same]
  conv_rhs => rw [cutFields]

/-- The pieces from inside a field on. -/
def goOn (room : Option Nat) (word : List UInt8) : List (List UInt8) :=
  if behindField word = [] then [word]
  else firstField word :: cutFields (room.map Nat.pred) (behindField word)

theorem cutFields_word
    (plain : isSpace c = false)
    (more : room ≠ some 0) :
    cutFields room (c :: s) = goOn room (c :: s) := by
  have same : fromField (c :: s) = c :: s :=
    List.dropWhile_cons_of_neg (by simp [plain])
  rw [cutFields, same, if_neg (List.cons_ne_nil c s), if_neg more, goOn]

theorem goOn_whole
    (room : Option Nat)
    (plain : ∀ c ∈ word, isSpace c = false) :
    goOn room word = [word] := by
  have ends : behindField word = [] :=
    List.dropWhile_eq_nil_iff.mpr fun c mem => by simp [plain c mem]
  rw [goOn, if_pos ends]

theorem goOn_space
    (room : Option Nat)
    (plain : ∀ c ∈ front, isSpace c = false)
    (space : isSpace c = true) :
    goOn room (front ++ c :: s) =
      front :: cutFields (room.map Nat.pred) s := by
  have plain' : ∀ c ∈ front, (!isSpace c) = true := fun c mem => by
    simp [plain c mem]
  have behind : behindField (front ++ c :: s) = c :: s := by
    rw [behindField, List.dropWhile_append_of_pos plain',
      List.dropWhile_cons_of_neg (by simp [space])]
  have first : firstField (front ++ c :: s) = front := by
    rw [firstField, List.takeWhile_append_of_pos plain',
      List.takeWhile_cons_of_neg (by simp [space]), List.append_nil]
  rw [goOn, behind, if_neg (List.cons_ne_nil c s), first,
    cutFields_space space]

end Fields

/-! ## The loop -/

section Loop

variable {b : List UInt8} {limit : Int} {limP : Bool}

/-- How many fields there is room for before the rest. -/
def room (limit : Int) (limP : Bool) (i : Int) : Option Nat :=
  if limP then some (limit - i).toNat else none

theorem room_full (i : Int) :
    room limit limP i = some 0 ↔ limP = true ∧ limit ≤ i := by
  unfold room
  cases limP with
  | false => simp
  | true =>
      simp only [if_true, Option.some.injEq, Int.toNat_eq_zero, true_and]
      omega

theorem room_next (i : Int) :
    room limit limP (if limP then i + 1 else i) =
      (room limit limP i).map Nat.pred := by
  cases limP with
  | false => rfl
  | true =>
      simp only [room, if_true, Option.map_some, Nat.pred_eq_sub_one]
      apply congrArg some
      omega

/-- The bytes of the field from its start to a place. -/
def Inside (b : List UInt8) (beg idx : Nat) : Prop :=
  beg ≤ idx ∧ ∀ c ∈ (b.drop beg).take (idx - beg), isSpace c = false

theorem drop_eq_append {beg idx : Nat} (le : beg ≤ idx) :
    b.drop beg = (b.drop beg).take (idx - beg) ++ b.drop idx := by
  conv_rhs =>
    rw [show idx = beg + (idx - beg) by omega, ← List.drop_drop,
      Nat.add_sub_cancel_left]
  exact (List.take_append_drop _ _).symm

theorem Inside.next
    (field : Inside b beg idx)
    (inside : idx < b.length)
    (plain : isSpace (b.getD idx 0) = false) :
    Inside b beg (idx + 1) := by
  refine ⟨Nat.le_succ_of_le field.1, ?_⟩
  have longer : (b.drop beg).take (idx + 1 - beg) =
      (b.drop beg).take (idx - beg) ++ [b.getD idx 0] := by
    have le := field.1
    rw [show idx + 1 - beg = idx - beg + 1 by omega,
      List.take_succ_eq_append_getElem (by rw [List.length_drop]; omega),
      List.getElem_drop, List.getD_eq_getElem _ _ inside]
    simp only [Nat.add_sub_cancel' le]
  rw [longer]
  intro c mem
  rcases List.mem_append.mp mem with before | last
  · exact field.2 c before
  · exact List.mem_singleton.mp last ▸ plain

/-- The loop cuts the fields off, between fields and inside one. -/
theorem fieldsFrom_spec
    (b : List UInt8)
    (limit : Int)
    (limP : Bool)
    (i : Int)
    (beg end_ idx : Nat)
    (skip : Bool)
    (within : idx ≤ b.length) :
    let cut := fieldsFrom b limit limP i beg end_ idx skip
    (skip = true → beg = idx →
      cut.1 ++ [b.drop cut.2] = cutFields (room limit limP i) (b.drop idx)) ∧
    (skip = false → end_ = idx → Inside b beg idx →
      cut.1 ++ [b.drop cut.2] = goOn (room limit limP i) (b.drop beg)) := by
  fun_induction fieldsFrom b limit limP i beg end_ idx skip with
  | case1 i beg end_ idx inside c space ih =>
      refine ⟨fun _ _ => ?_, fun no => nomatch no⟩
      rw [drop_eq_cons inside, cutFields_space space]
      exact (ih inside).1 rfl rfl
  | case2 i beg end_ idx inside c plain full =>
      refine ⟨?_, fun no => nomatch no⟩
      rintro _ rfl
      have same : fromField (b.drop beg) = b.drop beg := by
        rw [drop_eq_cons inside]
        exact List.dropWhile_cons_of_neg plain
      rw [(room_full i).mpr full, cutFields, same,
        if_neg (drop_ne_nil inside), if_pos rfl]
      rfl
  | case3 i beg end_ idx inside c plain more ih =>
      refine ⟨?_, fun no => nomatch no⟩
      rintro _ rfl
      rw [Bool.not_eq_true] at plain
      have field : Inside b beg beg :=
        ⟨Nat.le_refl beg, by
          rw [Nat.sub_self, List.take_zero]
          exact fun _ none_ => nomatch none_⟩
      rw [(ih inside).2 rfl rfl (field.next inside plain),
        drop_eq_cons inside, cutFields_word plain]
      exact fun none_ => more ((room_full i).mp none_)
  | case4 i beg end_ idx skip inside c between space rest ih =>
      refine ⟨fun yes => absurd yes between, ?_⟩
      rintro _ rfl field
      have next := (ih inside).1 rfl rfl
      simp only [dite_eq_ite] at next
      conv_rhs =>
        rw [drop_eq_append field.1, drop_eq_cons inside,
          goOn_space _ field.2 space, ← room_next, ← next]
      simp only [rest, dite_eq_ite, List.cons_append]
  | case5 i beg end_ idx skip inside c between plain ih =>
      refine ⟨fun yes => absurd yes between, ?_⟩
      intro _ _ field
      rw [Bool.not_eq_true] at plain
      exact (ih inside).2 rfl rfl (field.next inside plain)
  | case6 i beg end_ idx skip outside =>
      have empty := List.drop_eq_nil_of_le (Nat.le_of_not_lt outside)
      constructor
      · rintro _ rfl
        rw [empty, cutFields]
        exact (if_pos rfl).symm
      · intro _ _ field
        have whole := @drop_eq_append b beg idx field.1
        rw [empty, List.append_nil] at whole
        rw [goOn_whole _ (whole ▸ field.2)]
        rfl

theorem popEmpty_fields (s : List UInt8) :
    popEmpty (fields s ++ trailing s) = fields s := by
  rw [trailing]
  split
  · rw [popEmpty_append_nil, popEmpty_of_ne_nil fields_ne_nil]
  · rw [List.append_nil, popEmpty_of_ne_nil fields_ne_nil]

theorem fieldsFrom_le (b : List UInt8) (limit : Int) (limP : Bool)
    (i : Int) (beg end_ idx : Nat) (skip : Bool)
    (within : idx ≤ b.length)
    (le : beg ≤ b.length) :
    (fieldsFrom b limit limP i beg end_ idx skip).2 ≤ b.length := by
  fun_induction fieldsFrom b limit limP i beg end_ idx skip with
  | case1 i beg end_ idx inside c space ih => exact ih inside inside
  | case2 i beg end_ idx inside c plain full => exact le
  | case3 i beg end_ idx inside c plain more ih => exact ih inside le
  | case4 i beg end_ idx skip inside c between space rest ih =>
      exact ih inside inside
  | case5 i beg end_ idx skip inside c between plain ih => exact ih inside le
  | case6 i beg end_ idx skip outside => exact le

/-- The whole loop. -/
theorem fieldsFrom_whole (b : List UInt8) (limit : Int) (limP : Bool) (i : Int) :
    let cut := fieldsFrom b limit limP i 0 0 0 true
    cut.1 ++ [b.drop cut.2] = cutFields (room limit limP i) b ∧
      cut.2 ≤ b.length :=
  ⟨(fieldsFrom_spec b limit limP i 0 0 0 true (Nat.zero_le _)).1 rfl rfl,
    fieldsFrom_le b limit limP i 0 0 0 true (Nat.zero_le _) (Nat.zero_le _)⟩

/-- Without a limit, or with 0, the pieces are the fields. -/
theorem splitBlank_unlimited
    (unlimited : given.getD 0 = 0) :
    splitBlank b given = fields b := by
  obtain ⟨i, start⟩ : ∃ i, (if given.isSome then (1 : Int) else 0) = i :=
    ⟨_, rfl⟩
  obtain ⟨whole, le⟩ := fieldsFrom_whole b 0 false i
  have limP : (decide ((0 : Int) > 0) && given.isSome) = false := by simp
  simp only [splitBlank, unlimited, limP, start, Nat.min_eq_left le, true_and]
  rw [if_pos trivial]
  by_cases some_ : b = []
  · subst some_
    rw [if_neg (by simp), fields_nil rfl, fieldsFrom]
    rfl
  · have pieces : cutFields none b = fields b ++ trailing b :=
      cutFields_enough some_ (by simp)
    have unbounded : room 0 false i = none := rfl
    rw [unbounded] at whole
    rw [← whole] at pieces
    rw [← popEmpty_fields b, ← pieces]
    split
    · rfl
    · rename_i none_
      have empty : b.drop (fieldsFrom b 0 false i 0 0 0 true).2 = [] := by
        apply List.drop_eq_nil_of_le
        by_contra more
        exact none_ ⟨some_, Or.inr (Or.inl (Nat.lt_of_not_le more))⟩
      rw [empty, popEmpty_append_nil]

/-- With another limit they are what the loop cuts. -/
theorem splitBlank_limited (limited : limit ≠ 0) :
    splitBlank b (some limit) =
      if b = [] then []
      else cutFields (room limit (decide (limit > 0)) 1) b := by
  obtain ⟨whole, le⟩ := fieldsFrom_whole b limit (decide (limit > 0)) 1
  simp only [splitBlank, Option.getD_some, Option.isSome_some, Bool.and_true,
    if_true, Nat.min_eq_left le]
  rw [if_neg (fun none_ => limited none_.2)]
  split
  · rename_i pushes
    rw [if_neg pushes.1, whole]
  · rename_i none_
    by_cases some_ : b = []
    · subst some_
      rw [if_pos rfl, fieldsFrom]
      rfl
    · exfalso
      apply none_
      refine ⟨some_, ?_⟩
      rcases Int.lt_or_gt_of_ne limited with below | above
      · exact Or.inr (Or.inr below)
      · exact Or.inl (decide_eq_true above)

end Loop

/-! ## `split` -/

theorem intercalate_empty (parts : List (List UInt8)) :
    ([] : List UInt8).intercalate parts = parts.flatten := by
  induction parts with
  | nil => rfl
  | cons x parts ih =>
      cases parts with
      | nil => simp
      | cons y parts =>
          rw [List.intercalate_cons_cons, ih, List.append_nil]
          rfl

section Split

variable {b : List UInt8} {chars : Bool}

/-- A limit of 1 keeps the receiver; any other one goes to one of the loops. -/
theorem strSplit_cases {t : List UInt8} (other : t ≠ [32]) (given : Option Int) :
    (given = some 1 ∧
        strSplit b chars (some t) given = if b = [] then [] else [b]) ∨
      given ≠ some 1 ∧
        (t = [] ∧ strSplit b chars (some t) given =
            splitCharacters b chars (given.getD 0) ∨
          ∃ some_ : t ≠ [], strSplit b chars (some t) given =
            splitSeparated b t some_ (given.getD 0)) := by
  by_cases one : given = some 1
  · subst one
    exact Or.inl ⟨rfl, rfl⟩
  · have not_one : ¬ (given.isSome = true ∧ given.getD 0 = 1) := by
      rintro ⟨isSome, value⟩
      obtain ⟨n, rfl⟩ := Option.isSome_iff_exists.mp isSome
      exact one (congrArg some value)
    refine Or.inr ⟨one, ?_⟩
    simp only [strSplit, if_neg not_one, if_neg other]
    by_cases empty : t = []
    · exact Or.inl ⟨empty, dif_pos empty⟩
    · exact Or.inr ⟨empty, dif_neg empty⟩

theorem strSplit_blank
    (blank : sep = none ∨ sep = some [32])
    (not_one : given ≠ some 1) :
    strSplit b chars sep given = splitBlank b given := by
  have other : ¬ (given.isSome = true ∧ given.getD 0 = 1) := by
    rintro ⟨isSome, value⟩
    obtain ⟨n, rfl⟩ := Option.isSome_iff_exists.mp isSome
    exact not_one (congrArg some value)
  rcases blank with rfl | rfl
  · simp only [strSplit, if_neg other]
  · simp only [strSplit, if_neg other, if_true]

theorem strSplit_join
    (other : t ≠ [32])
    (limited : n ≠ 0) :
    t.intercalate (strSplit b chars (some t) (some n)) = b := by
  rcases @strSplit_cases b chars t other (some n) with
    ⟨_, whole⟩ | ⟨_, ⟨rfl, cut⟩ | ⟨some_, cut⟩⟩
  · rw [whole]
    split
    · rename_i empty
      rw [empty, List.intercalate_nil]
    · exact List.intercalate_singleton
  · rw [cut, intercalate_empty]
    exact splitCharacters_flatten
  · rw [cut]
    exact splitSeparated_join limited

theorem strSplit_length
    (other : t ≠ [32])
    (positive : 0 < n) :
    ((strSplit b chars (some t) (some n)).length : Int) ≤ n := by
  rcases @strSplit_cases b chars t other (some n) with
    ⟨_, whole⟩ | ⟨not_one, ⟨_, cut⟩ | ⟨some_, cut⟩⟩
  · rw [whole]
    split
    · exact Int.le_of_lt positive
    · exact positive
  · rw [cut]
    have more : n ≠ 1 := fun one => not_one (congrArg some one)
    exact splitCharacters_length (lt_of_le_of_ne positive more.symm)
  · rw [cut]
    exact splitSeparated_length positive

/-- No piece but the last one holds a separator. -/
theorem strSplit_scanned
    (other : t ≠ [32])
    (given : Option Int)
    (mem : piece ∈ (strSplit b chars (some t) given).dropLast) :
    if t = [] then piece ∈ charsOf b chars
    else ¬ t <:+: piece ∧ Scanned t piece := by
  rcases @strSplit_cases b chars t other given with
    ⟨_, whole⟩ | ⟨_, ⟨empty, cut⟩ | ⟨some_, cut⟩⟩
  · rw [whole] at mem
    split at mem
    · cases mem
    · cases mem
  · rw [cut] at mem
    rw [if_pos empty]
    exact splitCharacters_mem piece mem
  · rw [cut] at mem
    have scanned := splitSeparated_scanned piece mem
    rw [if_neg some_]
    exact ⟨scanned.not_infix some_, scanned⟩

theorem strSplit_unlimited {t : List UInt8} (other : t ≠ [32]) :
    strSplit b chars (some t) none =
      popEmpty (strSplit b chars (some t) (some (-1))) := by
  rcases @strSplit_cases b chars t other none with
    ⟨none_, _⟩ | ⟨_, ⟨empty, cut⟩ | ⟨some_, cut⟩⟩
  · cases none_
  · subst empty
    rw [cut]
    exact splitCharacters_popEmpty
  · rw [cut]
    have same : strSplit b chars (some t) (some (-1)) =
        splitSeparated b t some_ (-1) := by
      rcases @strSplit_cases b chars t other (some (-1)) with
        ⟨one, _⟩ | ⟨_, ⟨empty, _⟩ | ⟨_, cut'⟩⟩
      · exact absurd one (by decide)
      · exact absurd empty some_
      · exact cut'
    rw [same]
    exact splitSeparated_popEmpty

theorem splitBlank_negative {n : Int} (negative : n < 0) :
    splitBlank b (some n) = fields b ++ trailing b := by
  rw [splitBlank_limited (Int.ne_of_lt negative)]
  split
  · rename_i empty
    rw [empty, fields_nil rfl]
    rfl
  · rename_i some_
    have never : decide (n > 0) = false := decide_eq_false (by omega)
    rw [never]
    exact cutFields_enough some_ fun _ none_ => by cases none_

theorem room_natCast {n : Nat} (more : 1 < n) :
    room n (decide ((n : Int) > 0)) 1 = some (n - 1) := by
  have positive : decide ((n : Int) > 0) = true := decide_eq_true (by omega)
  rw [positive, room, if_pos rfl]
  apply congrArg some
  omega

theorem splitBlank_short
    (more : 1 < n)
    (long : n ≤ (fields b).length) :
    splitBlank b (some n) =
      (fields b).take (n - 1) ++ [skipFields (n - 1) b] := by
  have some_ : b ≠ [] := by
    intro empty
    rw [empty, fields_nil rfl, List.length_nil] at long
    omega
  rw [splitBlank_limited (by omega), if_neg some_, room_natCast more]
  exact cutFields_short (by omega)

theorem splitBlank_enough
    (more : 1 < n)
    (enough : (fields b).length < n) :
    splitBlank b (some n) = fields b ++ trailing b := by
  rw [splitBlank_limited (by omega), room_natCast more]
  split
  · rename_i empty
    rw [empty, fields_nil rfl]
    rfl
  · rename_i some_
    apply cutFields_enough some_
    rintro _ ⟨⟩
    omega

end Split

/-- `" a"` cut into one piece keeps its space. -/
theorem split_one_keeps_spaces :
    ¬ ∀ (b : List UInt8) (chars : Bool) (n : Nat),
      0 < n → n ≤ (fields b).length →
        (strSplit b chars none (some n)).getLast? =
          some (skipFields (n - 1) b) := by
  intro agrees
  have nonempty : fromField [32, 97] ≠ [] := by decide
  have said := agrees [32, 97] true 1 Nat.one_pos (by
    rw [fields_cons nonempty, List.length_cons]
    exact Nat.le_add_left 1 _)
  exact absurd said (by decide)

/-- Joining the pieces gives the string back, and the blank separator lists the
fields. -/
theorem strSplit_agrees (b : List UInt8) (chars : Bool) :
    (∀ t, t ≠ [32] →
      (∀ n, n ≠ 0 → t.intercalate (strSplit b chars (some t) (some n)) = b) ∧
      (∀ n, 0 < n →
        ((strSplit b chars (some t) (some n)).length : Int) ≤ n) ∧
      (∀ given, ∀ piece ∈ (strSplit b chars (some t) given).dropLast,
        if t = [] then piece ∈ charsOf b chars
        else ¬ t <:+: piece ∧ Scanned t piece) ∧
      strSplit b chars (some t) none =
        popEmpty (strSplit b chars (some t) (some (-1)))) ∧
    (∀ sep, sep = none ∨ sep = some [32] →
      strSplit b chars sep none = fields b ∧
      strSplit b chars sep (some 0) = fields b ∧
      (∀ n < 0, strSplit b chars sep (some n) = fields b ++ trailing b) ∧
      (strSplit b chars sep (some 1) = if b = [] then [] else [b]) ∧
      (∀ n : Nat, 1 < n → n ≤ (fields b).length →
        strSplit b chars sep (some n) =
          (fields b).take (n - 1) ++ [skipFields (n - 1) b]) ∧
      ∀ n : Nat, 1 < n → (fields b).length < n →
        strSplit b chars sep (some n) = fields b ++ trailing b) := by
  constructor
  · intro t other
    refine ⟨?_, ?_, ?_, strSplit_unlimited other⟩
    · exact fun n limited => strSplit_join other limited
    · exact fun n positive => strSplit_length other positive
    · exact fun given piece mem => strSplit_scanned other given mem
  · intro sep blank
    have not_one : ∀ n : Int, n ≠ 1 → some n ≠ some 1 := by
      intro n other same
      exact other (Option.some.inj same)
    refine ⟨?_, ?_, ?_, rfl, ?_, ?_⟩
    · rw [strSplit_blank blank (by simp)]
      exact splitBlank_unlimited rfl
    · rw [strSplit_blank blank (not_one 0 (by decide))]
      exact splitBlank_unlimited rfl
    · intro n negative
      rw [strSplit_blank blank (not_one n (by omega))]
      exact splitBlank_negative negative
    · intro n more long
      rw [strSplit_blank blank (not_one n (by omega))]
      exact splitBlank_short more long
    · intro n more enough
      rw [strSplit_blank blank (not_one n (by omega))]
      exact splitBlank_enough more enough

theorem strSplit_agrees_comma :
    [44].intercalate (strSplit [97, 44, 98, 44] true (some [44]) (some 2)) =
        [97, 44, 98, 44] ∧
      strSplit [32, 97] true none (some (-1)) =
        fields [32, 97] ++ trailing [32, 97] := by
  obtain ⟨separated, _⟩ := strSplit_agrees [97, 44, 98, 44] true
  obtain ⟨_, spaces⟩ := strSplit_agrees [32, 97] true
  constructor
  · exact (separated [44] (by decide)).1 2 (by decide)
  · exact (spaces none (Or.inl rfl)).2.2.1 (-1) (by decide)

end SabiRuby.Strings
