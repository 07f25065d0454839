import SabiRuby.Strings.CharacterSets

/-!
# One set for `tr`, `count`, `delete` and `squeeze`

A plain pattern is one set of characters: `tr` finds the place of a character in
it, the others ask whether a character is in it.
-/

namespace SabiRuby.Strings

/-! ## Plain patterns -/

section Patterns

variable {p q : List UInt8} {pats : List Pat} {c : UInt8}

/-- What a pattern is compiled into. -/
structure Compiled
    (p : List UInt8)
    (read : List Item)
    (pats : List Pat) : Prop where
  text : pats.flatMap (Pat.text p) = expansion read
  textBelow : pats.flatMap (Pat.textBelow p) = read.flatMap Item.charsBelow
  proper : ∀ pat ∈ pats, pat.Proper p

theorem parsePattern_plain (plain : Plain p (parts p)) :
    ∃ pats, parsePattern p true = .ok ⟨pats, negated p⟩ ∧
      Compiled p (parts p) pats := by
  have start : parts p = items (p.drop (if negated p then 1 else 0)) := by
    unfold parts
    split
    · rfl
    · rfl
  have within : (if negated p then 1 else 0) ≤ p.length := by
    split
    · rename_i leading
      simp only [negated, Bool.and_eq_true, decide_eq_true_eq] at leading
      exact Nat.le_of_succ_le leading.1
    · exact Nat.zero_le _
  obtain ⟨pats, parsed, text, textBelow, proper⟩ :=
    parseFrom_plain plain.ascii within
      (by rw [← start]; exact plain.ascending)
      (by rw [← start]; exact plain.short)
  rw [← start] at text textBelow
  refine ⟨pats, ?_, text, textBelow, proper⟩
  unfold negated at parsed ⊢
  unfold parsePattern
  simp only [Bool.true_and]
  rw [parsed]

theorem parsePattern_replacement (plain : Plain q (items q)) :
    ∃ pats, parsePattern q false = .ok ⟨pats, false⟩ ∧
      Compiled q (items q) pats := by
  obtain ⟨pats, parsed, text, textBelow, proper⟩ :=
    @parseFrom_plain q 0 plain.ascii (Nat.zero_le _) plain.ascending plain.short
  refine ⟨pats, ?_, text, textBelow, proper⟩
  simp only [parsePattern, Bool.false_and]
  rw [if_neg Bool.false_ne_true, parsed]

theorem Pat.Proper.ascii
    {pat : Pat}
    (proper : pat.Proper p)
    (ascii : ∀ c ∈ p, c < 128) :
    ∀ c ∈ pat.text p, c < 128 := by
  intro c mem
  cases pat with
  | inOrder start n =>
      exact ascii c (List.mem_of_mem_drop (List.mem_of_mem_take mem))
  | range c0 c1 n =>
      obtain ⟨low, up, high, _⟩ := proper
      obtain ⟨a, rfl⟩ := Int.eq_ofNat_of_zero_le low
      obtain ⟨k, below, rfl⟩ := List.mem_map.mp mem
      rw [List.mem_range] at below
      have small : a + k < 128 := by omega
      rw [← Int.natCast_add, asU8_natCast, UInt8.lt_iff_toNat_lt,
        UInt8.toNat_ofNat', Nat.mod_eq_of_lt (by omega)]
      exact small

theorem Compiled.ascii
    {read : List Item}
    (compiled : Compiled p read pats)
    (ascii : ∀ c ∈ p, c < 128) :
    ∀ c ∈ expansion read, c < 128 := by
  intro c mem
  rw [← compiled.text, List.mem_flatMap] at mem
  obtain ⟨pat, inside, char⟩ := mem
  exact (compiled.proper pat inside).ascii ascii c char

/-- The set of bytes lacks the end of a range. -/
theorem Compiled.map_eq (compiled : Compiled p (parts p) pats) :
    compilePattern ⟨pats, negated p⟩ p = denotesBelow p := by
  funext c
  have map : pats.any (sets p c) =
      decide (c ∈ (parts p).flatMap Item.charsBelow) := by
    rw [← compiled.textBelow, Bool.eq_iff_iff, decide_eq_true_iff,
      List.any_eq_true, List.mem_flatMap]
    apply exists_congr
    intro pat
    apply and_congr_right
    intro mem
    rw [sets_eq (compiled.proper pat mem), decide_eq_true_iff]
  simp only [compilePattern, denotesBelow, map]
  cases negated p with
  | false => simp
  | true => simp

theorem Compiled.findFrom (compiled : Compiled p (parts p) pats)
    (ascii : c < 128) :
    findFrom p (asI8 c) pats 0 (-1) = lastPlace c 0 (-1) (expansion (parts p)) := by
  rw [findFrom_eq compiled.proper ascii, compiled.text]

/-- `find_char` finds the characters of the set. -/
theorem Compiled.findChar_nonneg
    (compiled : Compiled p (parts p) pats)
    (ascii : c < 128) :
    0 ≤ findChar ⟨pats, negated p⟩ p (asI8 c) ↔ denotes p c = true := by
  have absent := @lastPlace_neg_iff c 0 (-1) (expansion (parts p)) (Int.le_refl 0)
  rw [and_iff_left (by decide)] at absent
  simp only [findChar, compiled.findFrom ascii, denotes]
  by_cases mem : c ∈ expansion (parts p)
  · have found : ¬ lastPlace c 0 (-1) (expansion (parts p)) < 0 := by
      rw [absent, not_not]
      exact mem
    cases negated p with
    | false => simpa [mem] using Int.not_lt.mp found
    | true => simp [mem, found]
  · have missing := absent.mpr mem
    cases negated p with
    | false => simpa [mem] using missing
    | true => simp [mem, missing]

/-- The replacement of no character is -1. -/
def written : Option UInt8 → Int
  | some r => asI8 r
  | none => -1

theorem Compiled.getChar
    (compiled : Compiled q (items q) pats)
    (nonneg : 0 ≤ nth) :
    getChar ⟨pats, false⟩ q nth =
      written ((expansion (items q))[nth.toNat]?.or
        (expansion (items q)).getLast?) := by
  by_cases none_ : pats = []
  · have empty := compiled.text
    rw [none_, List.flatMap_nil] at empty
    rw [none_, ← empty]
    rfl
  · obtain ⟨r, got, char⟩ := getFrom_eq compiled.proper none_ nonneg
    rw [compiled.text, Int.sub_zero] at char
    rw [char]
    exact got

/-- A character of the set becomes the one at the same place. -/
theorem getChar_findChar
    (compiled : Compiled p (parts p) pats)
    (compiledRep : Compiled q (items q) reps)
    (plainRep : Plain q (items q))
    (distinct : negated p = false → (expansion (parts p)).Nodup)
    (ascii : c < 128)
    (inside : denotes p c = true) :
    getChar ⟨reps, false⟩ q (findChar ⟨pats, negated p⟩ p (asI8 c)) =
      written (translation p q c) := by
  have found := (compiled.findChar_nonneg ascii).mpr inside
  rw [compiledRep.getChar found]
  simp only [findChar, compiled.findFrom ascii, translation]
  cases leading : negated p with
  | false =>
      have mem : c ∈ expansion (parts p) := by
        simpa [denotes, leading] using inside
      simp only [Bool.false_eq_true, if_false,
        lastPlace_of_nodup (distinct leading) mem, Int.zero_add,
        Int.toNat_natCast]
  | true =>
      have mem : c ∉ expansion (parts p) := by
        simpa [denotes, leading] using inside
      have missing : lastPlace c 0 (-1) (expansion (parts p)) < 0 := by
        rw [lastPlace_of_not_mem mem]
        decide
      have numbered := plainRep.numbered
      simp only [if_true, if_pos missing]
      rw [List.getElem?_eq_none (by omega), Option.none_or]

theorem translation_mem {r : UInt8} (some_ : translation p q c = some r) :
    r ∈ expansion (items q) := by
  simp only [translation] at some_
  split at some_
  · exact List.mem_of_getLast? some_
  · rcases Option.or_eq_some_iff.mp some_ with found | ⟨_, last⟩
    · exact List.mem_of_getElem? found
    · exact List.mem_of_getLast? last

/-- Only an empty replacement leaves a character without one. -/
theorem translation_none (none_ : translation p q c = none) (d : UInt8) :
    translation p q d = none := by
  have empty : expansion (items q) = [] := by
    simp only [translation] at none_
    split at none_
    · exact List.getLast?_eq_none_iff.mp none_
    · exact List.getLast?_eq_none_iff.mp (Option.or_eq_none_iff.mp none_).2
  simp [translation, empty]

end Patterns

/-! ## The loop of `tr` -/

/-- The loop of `tr` on the set and its replacements. -/
def translated (p q : List UInt8) (squeeze : Bool) :
    Option UInt8 → List UInt8 → List UInt8
  | _, [] => []
  | last, c :: s =>
      if denotes p c then
        match translation p q c with
        | none => translated p q squeeze last s
        | some r =>
            if squeeze = true ∧ last = some r then translated p q squeeze last s
            else r :: translated p q squeeze (some r) s
      else c :: translated p q squeeze last s

section Loop

variable {p q s : List UInt8}

variable {last : Option UInt8}

theorem written_inj
    (ascii : r < 128) :
    written (some r) = written last ↔ last = some r := by
  cases last with
  | none =>
      have value := asI8_of_ascii ascii
      simp only [written, reduceCtorEq, iff_false]
      omega
  | some x =>
      rw [written, written, asI8_inj, Option.some.injEq, eq_comm]

theorem trFrom_eq
    (compiled : Compiled p (parts p) pats)
    (compiledRep : Compiled q (items q) reps)
    (plainRep : Plain q (items q))
    (distinct : negated p = false → (expansion (parts p)).Nodup)
    (squeeze : Bool)
    (ascii : ∀ c ∈ s, c < 128)
    (last : Option UInt8) :
    trFrom ⟨pats, negated p⟩ ⟨reps, false⟩ p q squeeze (written last) s =
      .ok (translated p q squeeze last s) := by
  induction s generalizing last with
  | nil => rfl
  | cons c s ih =>
      rw [List.forall_mem_cons] at ascii
      have next := ih ascii.2
      rw [trFrom, translated]
      have found := compiled.findChar_nonneg ascii.1
      by_cases inside : denotes p c = true
      · simp only [ge_iff_le, found, inside, if_true]
        rw [getChar_findChar compiled compiledRep plainRep distinct ascii.1
          inside]
        cases becomes : translation p q c with
        | none =>
            rw [if_pos (Or.inl (by decide))]
            exact next last
        | some r =>
            have small := compiledRep.ascii plainRep.ascii r
              (translation_mem becomes)
            have value := asI8_of_ascii small
            have below : r.toNat < 128 := small
            have nonneg : ¬ written (some r) < 0 := by
              rw [written]
              omega
            have fits : ¬ written (some r) > 128 := by
              rw [written]
              omega
            simp only [written_inj small, nonneg, false_or, fits, if_false]
            split
            · exact next last
            · rw [next (some r), written, asU8_asI8 small]
      · simp only [ge_iff_le, found, inside]
        rw [next last]
        rfl

/-- Without squeezing every character has its own piece. -/
theorem translated_eq_flatMap (last : Option UInt8) :
    translated p q false last s = s.flatMap (piece p q) := by
  induction s generalizing last with
  | nil => rfl
  | cons c s ih =>
      rw [translated, List.flatMap_cons, piece]
      split
      · cases translation p q c with
        | none => exact ih last
        | some r =>
            simp only [Bool.false_eq_true, false_and, if_false, ih]
            rfl
      · rw [ih]
        rfl

/-! ## Squeezing -/

/-- Two characters of the set become one. -/
def joins (p q : List UInt8) (x y : UInt8) : Bool :=
  denotes p x && denotes p y && decide (translation p q x = translation p q y)

/-- Characters of the set with others only between them become different
ones. -/
def Separated (p q s : List UInt8) : Prop :=
  ∀ front x middle y back,
    s = front ++ x :: (middle ++ y :: back) → middle ≠ [] →
      denotes p x = true → denotes p y = true →
      (∀ z ∈ middle, denotes p z = false) →
      ∀ r, translation p q x = some r → translation p q y ≠ some r

/-- The first character of the set becomes another than the last one written. -/
def Fresh (p q : List UInt8) (last : Option UInt8) (s : List UInt8) : Prop :=
  ∀ front y back,
    s = front ++ y :: back → denotes p y = true →
      (∀ z ∈ front, denotes p z = false) →
      ∀ r, last = some r → translation p q y ≠ some r

theorem Separated.tail {c : UInt8} (separated : Separated p q (c :: s)) :
    Separated p q s := by
  intro front x middle y back split
  exact separated (c :: front) x middle y back (congrArg (c :: ·) split)

variable {c r : UInt8}

theorem Fresh.head
    (fresh : Fresh p q last (c :: s))
    (inside : denotes p c = true)
    (becomes : translation p q c = some r) :
    last ≠ some r := by
  intro same
  exact fresh [] c s rfl inside (fun _ none_ => nomatch none_) r same becomes

variable {c : UInt8}

theorem Fresh.outside
    (fresh : Fresh p q last (c :: s))
    (outside : denotes p c = false) :
    Fresh p q last s := by
  intro front y back split inside others
  apply fresh (c :: front) y back (congrArg (c :: ·) split) inside
  rw [List.forall_mem_cons]
  exact ⟨outside, others⟩

/-- Nothing is written when the replacement is empty. -/
theorem Fresh.of_none
    (none_ : translation p q c = none)
    (last : Option UInt8) :
    Fresh p q last s := by
  intro front y back _ _ _ r _ becomes
  rw [translation_none none_ y] at becomes
  cases becomes

/-- Behind a character of the set the run may not go on. -/
theorem Separated.fresh
    (separated : Separated p q (c :: s))
    (inside : denotes p c = true)
    (becomes : translation p q c = some r)
    (ends : ∀ y back, s = y :: back → joins p q c y = false) :
    Fresh p q (some r) s := by
  intro front y back split member others r' same
  cases same
  cases front with
  | nil =>
      intro same
      have apart := ends y back split
      simp [joins, inside, member, becomes, same] at apart
  | cons z front =>
      exact separated [] c (z :: front) y back (congrArg (c :: ·) split)
        (List.cons_ne_nil _ _) inside member others r becomes

theorem translated_outside
    (outside : denotes p c = false) :
    translated p q true last (c :: s) = c :: translated p q true last s := by
  rw [translated, outside]
  rfl

theorem translated_none
    (inside : denotes p c = true)
    (none_ : translation p q c = none) :
    translated p q true last (c :: s) = translated p q true last s := by
  rw [translated, if_pos inside, none_]

theorem translated_same
    (inside : denotes p c = true)
    (becomes : translation p q c = some r) :
    translated p q true (some r) (c :: s) = translated p q true (some r) s := by
  rw [translated, if_pos inside, becomes]
  exact if_pos ⟨rfl, rfl⟩

theorem translated_fresh
    (inside : denotes p c = true)
    (becomes : translation p q c = some r)
    (fresh : last ≠ some r) :
    translated p q true last (c :: s) =
      r :: translated p q true (some r) s := by
  rw [translated, if_pos inside, becomes]
  exact if_neg fun squeezed => fresh squeezed.2

/-- The first of two characters that join leaves nothing. -/
theorem translated_joins
    (fresh : Fresh p q last (x :: y :: s))
    (joined : joins p q x y = true) :
    translated p q true last (x :: y :: s) =
        translated p q true last (y :: s) ∧
      Fresh p q last (y :: s) := by
  simp only [joins, Bool.and_eq_true, decide_eq_true_eq] at joined
  obtain ⟨⟨insideX, insideY⟩, same⟩ := joined
  cases becomes : translation p q x with
  | none => exact ⟨translated_none insideX becomes, Fresh.of_none becomes last⟩
  | some r =>
      have other := fresh.head insideX becomes
      rw [becomes] at same
      refine ⟨?_, ?_⟩
      · rw [translated_fresh insideX becomes other,
          translated_same insideY same.symm,
          translated_fresh insideY same.symm other]
      · intro front z back split member others r' last_ becomes'
        cases front with
        | nil =>
            rw [List.nil_append, List.cons.injEq] at split
            rw [← split.1, ← same] at becomes'
            exact other (last_.trans becomes'.symm)
        | cons w front =>
            rw [List.cons_append, List.cons.injEq] at split
            have outside := others w List.mem_cons_self
            rw [← split.1, insideY] at outside
            cases outside

/-- The first of two characters that do not join leaves its piece. -/
theorem translated_apart
    (separated : Separated p q (x :: s))
    (fresh : Fresh p q last (x :: s))
    (ends : ∀ y back, s = y :: back → joins p q x y = false) :
    ∃ after, translated p q true last (x :: s) =
        piece p q x ++ translated p q true after s ∧
      Fresh p q after s := by
  cases inside : denotes p x with
  | false =>
      refine ⟨last, ?_, fresh.outside inside⟩
      rw [translated_outside inside, piece, inside]
      rfl
  | true =>
      cases becomes : translation p q x with
      | none =>
          refine ⟨last, ?_, Fresh.of_none becomes last⟩
          rw [translated_none inside becomes, piece, if_pos inside, becomes]
          rfl
      | some r =>
          refine ⟨some r, ?_, separated.fresh inside becomes ends⟩
          rw [translated_fresh inside becomes (fresh.head inside becomes),
            piece, if_pos inside, becomes]
          rfl

/-- Squeezing writes one character for each run of the set. -/
theorem translated_eq_collapse
    (last : Option UInt8)
    (separated : Separated p q s)
    (fresh : Fresh p q last s) :
    translated p q true last s =
      (collapse (joins p q) s).flatMap (piece p q) := by
  fun_induction collapse (joins p q) s generalizing last with
  | case1 x y rest joined ih =>
      obtain ⟨same, next⟩ := translated_joins fresh joined
      rw [same]
      exact ih last separated.tail next
  | case2 x y rest apart ih =>
      obtain ⟨after, written, next⟩ := translated_apart separated fresh
        (by rintro _ _ ⟨⟩; exact Bool.eq_false_iff.mpr apart)
      rw [written, List.flatMap_cons, ih after separated.tail next]
  | case3 x =>
      obtain ⟨after, written, -⟩ := translated_apart separated fresh
        (fun _ _ none_ => nomatch none_)
      rw [written, List.flatMap_singleton]
      exact List.append_nil _
  | case4 => rfl

/-- `squeeze` keeps one character of each run of equal ones. -/
theorem squeezeFrom_eq_collapse (map : UInt8 → Bool) (x : UInt8) :
    x :: squeezeFrom map (asI8 x) s =
      collapse (fun x y => decide (x = y) && map x) (x :: s) := by
  induction s generalizing x with
  | nil => rfl
  | cons y s ih =>
      rw [squeezeFrom, collapse, ← ih y]
      simp only [asI8_inj]
      by_cases same : x = y
      · subst same
        simp only [decide_true, Bool.true_and, and_true]
        split
        · rfl
        · rfl
      · rw [if_neg (fun both => same both.2.symm), if_neg (by simp [same])]

theorem ascii_of_all (checked : (s.all fun c => decide (c < 128)) = true) :
    ∀ c ∈ s, c < 128 := by
  simpa using checked

end Loop

/-- `"a-c"` does not count `c`. -/
theorem count_misses_range_end :
    ¬ ∀ p s : List UInt8,
      Plain p (parts p) →
      (∀ c ∈ s, c < 128) →
      count s p = .ok (s.filter (denotes p)).length := by
  intro agrees
  have plain : Plain [97, 45, 99] (parts [97, 45, 99]) :=
    ⟨ascii_of_all (by decide), by decide, by decide, by decide, by decide⟩
  have said := agrees [97, 45, 99] [99] plain (ascii_of_all (by decide))
  obtain ⟨pats, parsed, compiled⟩ := parsePattern_plain plain
  simp only [count, parsed, compiled.map_eq] at said
  exact absurd said (by decide)

/-- The operations and what they make of one set. -/
theorem patterns_agree
    {p s : List UInt8}
    (plain : Plain p (parts p))
    (ascii : ∀ c ∈ s, c < 128) :
    count s p = .ok (s.filter (denotesBelow p)).length ∧
      delete s p = .ok (s.filter fun c => !denotesBelow p c) ∧
      squeeze s p =
        .ok (collapse (fun x y => decide (x = y) && denotesBelow p x) s) ∧
      ∀ q, Plain q (items q) →
        (negated p = false → (expansion (parts p)).Nodup) →
          tr s p q false = .ok (s.flatMap (piece p q)) ∧
          (Separated p q s →
            tr s p q true =
              .ok ((collapse (joins p q) s).flatMap (piece p q))) := by
  obtain ⟨pats, parsed, compiled⟩ := parsePattern_plain plain
  simp only [count, delete, squeeze, tr, parsed, compiled.map_eq]
  refine ⟨trivial, trivial, ?_, ?_⟩
  · cases s with
    | nil => rfl
    | cons c s =>
        have value := asI8_of_ascii (ascii c List.mem_cons_self)
        rw [squeezeFrom, if_neg (by omega), squeezeFrom_eq_collapse]
  · intro q plainRep distinct
    obtain ⟨reps, parsedRep, compiledRep⟩ := parsePattern_replacement plainRep
    have loop := fun squeeze => trFrom_eq compiled compiledRep plainRep distinct
      squeeze ascii none
    simp only [parsedRep]
    constructor
    · exact (loop false).trans (congrArg _ (translated_eq_flatMap none))
    · intro separated
      refine (loop true).trans (congrArg _ ?_)
      exact translated_eq_collapse none separated fun _ _ _ _ _ _ _ none_ =>
        nomatch none_

theorem patterns_agree_range :
    count [97, 97, 98] [97, 45, 99] = .ok 3 ∧
      tr [97, 97, 98] [97, 45, 99] [120, 45, 122] false =
        .ok [120, 120, 121] ∧
      tr [97, 97, 98] [97, 45, 99] [120, 45, 122] true = .ok [120, 121] := by
  obtain ⟨counts, _, _, translates⟩ :=
    @patterns_agree [97, 45, 99] [97, 97, 98]
      ⟨ascii_of_all (by decide), by decide, by decide, by decide, by decide⟩
      (ascii_of_all (by decide))
  obtain ⟨plainly, squeezing⟩ := translates [120, 45, 122]
    ⟨ascii_of_all (by decide), by decide, by decide, by decide, by decide⟩
    (by decide)
  have every : ([97, 97, 98] : List UInt8).all (denotes [97, 45, 99]) = true := by
    decide
  have members := List.all_eq_true.mp every
  refine ⟨counts, plainly, squeezing ?_⟩
  intro front x middle y back split some_ _ _ others
  obtain ⟨z, more, rfl⟩ := List.exists_cons_of_ne_nil some_
  have inside := members z (by
    rw [split]
    simp)
  rw [others z List.mem_cons_self] at inside
  cases inside

end SabiRuby.Strings
