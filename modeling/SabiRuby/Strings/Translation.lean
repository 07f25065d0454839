import SabiRuby.Strings.Patterns
import SabiRuby.Strings.Positions

/-!
# What a pattern says

A pattern of ASCII characters and ascending ranges is read from the left: three
characters with `-` in the middle are a range, any other character is itself.
`tr` agrees with that reading, and `count`, `delete` and `squeeze` do so but for
the end of a range.
-/

namespace SabiRuby.Strings

/-! ## The reading -/

/-- A part of a pattern as it is read. -/
inductive Item
  | one (x : UInt8)
  | range (a b : UInt8)
deriving DecidableEq, Repr

/-- The parts of a pattern without its leading `^`. -/
def items : List UInt8 → List Item
  | x :: y :: z :: rest =>
      if x ≠ 92 ∧ y = 45 then .range x z :: items rest
      else .one x :: items (y :: z :: rest)
  | [x, y] => [.one x, .one y]
  | [x] => [.one x]
  | [] => []

namespace Item

/-- The characters that a part denotes, in order. -/
def chars : Item → List UInt8
  | one x => [x]
  | range a b => (List.range (b.toNat + 1 - a.toNat)).map fun i =>
      UInt8.ofNat (a.toNat + i)

/-- The same without the end of a range. -/
def charsBelow : Item → List UInt8
  | one x => [x]
  | range a b => (List.range (b.toNat - a.toNat)).map fun i =>
      UInt8.ofNat (a.toNat + i)

def Ascending : Item → Prop
  | one _ => True
  | range a b => a ≤ b

instance : DecidablePred Ascending
  | one _ => isTrue trivial
  | range a b => inferInstanceAs (Decidable (a ≤ b))

end Item

/-- No stretch of characters is longer than a pattern may be. -/
def ShortFrom : Nat → List Item → Prop
  | n, [] => n ≤ 65535
  | n, .one _ :: rest => ShortFrom (n + 1) rest
  | n, .range _ _ :: rest => n ≤ 65535 ∧ ShortFrom 0 rest

instance ShortFrom.decide : ∀ n read, Decidable (ShortFrom n read)
  | n, [] => inferInstanceAs (Decidable (n ≤ 65535))
  | n, .one _ :: rest => ShortFrom.decide (n + 1) rest
  | n, .range _ _ :: rest =>
      have := ShortFrom.decide 0 rest
      inferInstanceAs (Decidable (n ≤ 65535 ∧ ShortFrom 0 rest))

/-- The characters of a list of parts, in order. -/
def expansion (parts : List Item) : List UInt8 := parts.flatMap Item.chars

/-- A leading `^` before another character. -/
def negated (p : List UInt8) : Bool := 2 ≤ p.length && p.getD 0 0 == 94

/-- The parts of a pattern. -/
def parts (p : List UInt8) : List Item :=
  items (if negated p then p.drop 1 else p)

/-- The set that a pattern denotes. -/
def denotes (p : List UInt8) (c : UInt8) : Bool :=
  decide (c ∈ expansion (parts p)) != negated p

/-- The set that a pattern denotes if the end of a range is not in it. -/
def denotesBelow (p : List UInt8) (c : UInt8) : Bool :=
  decide (c ∈ (parts p).flatMap Item.charsBelow) != negated p

/-- ASCII characters and ascending ranges without a backslash, no more of them
than a place may number. -/
structure Plain (p : List UInt8) (read : List Item) : Prop where
  ascii : ∀ c ∈ p, c < 128
  noBackslash : 92 ∉ p
  ascending : ∀ item ∈ read, item.Ascending
  short : ShortFrom 0 read
  numbered : (expansion read).length < 2 ^ 63

/-- What a character of the set becomes: the character at its place, or the last
one; nothing when there is none. -/
def translation (p q : List UInt8) (c : UInt8) : Option UInt8 :=
  let to_ := expansion (items q)
  if negated p then to_.getLast?
  else to_[(expansion (parts p)).idxOf c]?.or to_.getLast?

/-- What a character becomes. -/
def piece (p q : List UInt8) (c : UInt8) : List UInt8 :=
  if denotes p c then (translation p q c).toList else [c]

/-- One element of each maximal run of adjacent elements that join. -/
def collapse {α : Type} (joins : α → α → Bool) : List α → List α
  | x :: y :: rest =>
      if joins x y then collapse joins (y :: rest)
      else x :: collapse joins (y :: rest)
  | [x] => [x]
  | [] => []

/-! ## Signed characters -/

theorem asI8_of_ascii {c : UInt8} (ascii : c < 128) : asI8 c = c.toNat := by
  have below : c.toNat < 128 := ascii
  rw [asI8, if_pos below]

theorem asI8_inj {c d : UInt8} : asI8 c = asI8 d ↔ c = d := by
  constructor
  · intro same
    apply UInt8.toNat_inj.mp
    have first := c.toNat_lt
    have second := d.toNat_lt
    unfold asI8 at same
    split at same <;> split at same <;> omega
  · exact congrArg asI8

theorem asU8_natCast (n : Nat) : asU8 n = UInt8.ofNat n := by
  apply UInt8.toNat_inj.mp
  simp only [asU8, UInt8.ofInt, UInt8.toNat_ofNat']
  omega

theorem asU8_asI8 {c : UInt8} (ascii : c < 128) : asU8 (asI8 c) = c := by
  rw [asI8_of_ascii ascii, asU8_natCast, UInt8.ofNat_toNat]

/-! ## Parts in the text of a pattern -/

/-- The text of a compiled part. -/
def Pat.text (p : List UInt8) : Pat → List UInt8
  | .inOrder start n => (p.drop start).take n
  | .range c0 c1 _ =>
      (List.range (c1 + 1 - c0).toNat).map fun k : Nat => asU8 (c0 + k)

/-- The text of a compiled part without the end of a range. -/
def Pat.textBelow (p : List UInt8) : Pat → List UInt8
  | .inOrder start n => (p.drop start).take n
  | .range c0 c1 _ =>
      (List.range (c1 - c0).toNat).map fun k : Nat => asU8 (c0 + k)

/-- A compiled part of an ASCII pattern. -/
def Pat.Proper (p : List UInt8) : Pat → Prop
  | .inOrder start n => 0 < n ∧ start + n ≤ p.length
  | .range c0 c1 n => 0 ≤ c0 ∧ c0 ≤ c1 ∧ c1 < 128 ∧ n = c1 - c0 + 1

section Parsing

variable {p : List UInt8} {i : Nat}

theorem items_range (begins : rangeAt p i = true) :
    items (p.drop i) =
      .range (p.getD i 0) (p.getD (i + 2) 0) :: items (p.drop (i + 3)) := by
  unfold rangeAt at begins
  simp only [Bool.and_eq_true, decide_eq_true_eq, bne_iff_ne, ne_eq,
    beq_iff_eq] at begins
  obtain ⟨⟨inside, plain⟩, dash⟩ := begins
  rw [drop_eq_cons (by omega), @drop_eq_cons p (i + 1) (by omega),
    @drop_eq_cons p (i + 1 + 1) (by omega), items, if_pos ⟨plain, dash⟩]

theorem items_one (inside : i < p.length) (other : rangeAt p i = false) :
    items (p.drop i) = .one (p.getD i 0) :: items (p.drop (i + 1)) := by
  rw [drop_eq_cons inside]
  by_cases second : i + 1 < p.length
  · rw [drop_eq_cons second]
    by_cases third : i + 1 + 1 < p.length
    · rw [drop_eq_cons third, items, if_neg]
      rintro ⟨plain, dash⟩
      unfold rangeAt at other
      have inner : i + 2 < p.length := third
      rw [dash] at other
      simp [inner] at other
      exact plain other
    · rw [List.drop_eq_nil_of_le (Nat.le_of_not_lt third)]
      rfl
  · rw [List.drop_eq_nil_of_le (Nat.le_of_not_lt second)]
    rfl

/-- The parts of a stretch are its characters. -/
theorem items_stretch (within : i ≤ p.length) :
    items (p.drop i) =
        ((p.drop i).take (stretchEnd p i - i)).map Item.one ++
          items (p.drop (stretchEnd p i)) ∧
      stretchEnd p i ≤ p.length := by
  fun_induction stretchEnd p i with
  | case1 i inside begins =>
      rw [Nat.sub_self, List.take_zero]
      exact ⟨rfl, within⟩
  | case2 i inside other ih =>
      have next := ih inside
      have later := le_stretchEnd p (i + 1)
      refine ⟨?_, next.2⟩
      rw [items_one inside (Bool.eq_false_iff.mpr other), next.1,
        drop_eq_cons inside,
        show stretchEnd p (i + 1) - i = stretchEnd p (i + 1) - (i + 1) + 1 by
          omega,
        List.take_succ_cons, List.map_cons, List.cons_append]
  | case3 i outside =>
      rw [Nat.sub_self, List.take_zero]
      exact ⟨rfl, within⟩

theorem ShortFrom.le {n : Nat} {read : List Item} (short : ShortFrom n read) :
    n ≤ 65535 := by
  induction read generalizing n with
  | nil => exact short
  | cons item read ih =>
      cases item with
      | one x => exact Nat.le_of_succ_le (ih short)
      | range a b => exact short.1

theorem ShortFrom.mono
    {read : List Item}
    (short : ShortFrom n read)
    (le : m ≤ n) :
    ShortFrom m read := by
  induction read generalizing m n with
  | nil => exact Nat.le_trans le short
  | cons item read ih =>
      cases item with
      | one x => exact ih short (Nat.succ_le_succ le)
      | range a b => exact ⟨Nat.le_trans le short.1, short.2⟩

theorem ShortFrom.behind
    {n : Nat}
    {xs : List UInt8}
    {read : List Item}
    (short : ShortFrom n (xs.map Item.one ++ read)) :
    ShortFrom (n + xs.length) read := by
  induction xs generalizing n with
  | nil => exact short
  | cons x xs ih =>
      have next := ih short
      rw [List.length_cons]
      rwa [Nat.add_assoc, Nat.add_comm 1] at next

/-- An ascending range of ASCII characters denotes what it is compiled into. -/
theorem range_texts
    (asciiA : a < 128)
    (asciiB : b < 128)
    (n : Int) :
    (Pat.range (asI8 a) (asI8 b) n).text p = (Item.range a b).chars ∧
      (Pat.range (asI8 a) (asI8 b) n).textBelow p =
        (Item.range a b).charsBelow := by
  have numbers : ∀ k : Nat, asU8 ((a.toNat : Int) + k) =
      UInt8.ofNat (a.toNat + k) := by
    intro k
    rw [← asU8_natCast, Int.natCast_add]
  rw [asI8_of_ascii asciiA, asI8_of_ascii asciiB]
  simp only [Pat.text, Pat.textBelow, Item.chars, Item.charsBelow, numbers]
  rw [show ((b.toNat : Int) + 1 - a.toNat).toNat = b.toNat + 1 - a.toNat by
      omega,
    show ((b.toNat : Int) - a.toNat).toNat = b.toNat - a.toNat by omega]
  exact ⟨rfl, rfl⟩

theorem expansion_ones (xs : List UInt8) :
    (xs.map Item.one).flatMap Item.chars = xs := by
  induction xs with
  | nil => rfl
  | cons x xs ih =>
      rw [List.map_cons, List.flatMap_cons, ih]
      rfl

theorem expansionBelow_ones (xs : List UInt8) :
    (xs.map Item.one).flatMap Item.charsBelow = xs := by
  induction xs with
  | nil => rfl
  | cons x xs ih =>
      rw [List.map_cons, List.flatMap_cons, ih]
      rfl

/-- The stretch that begins at a place of a plain pattern. -/
theorem stretch_plain
    (inside : i < p.length)
    (other : ¬ rangeAt p i = true)
    (short : ShortFrom 0 (items (p.drop i))) :
    stretchEnd p (i + 1) - i ≤ 65535 ∧ stretchEnd p (i + 1) ≤ p.length ∧
      items (p.drop i) =
        ((p.drop i).take (stretchEnd p (i + 1) - i)).map Item.one ++
          items (p.drop (stretchEnd p (i + 1))) ∧
      ShortFrom 0 (items (p.drop (stretchEnd p (i + 1)))) := by
  have same : stretchEnd p i = stretchEnd p (i + 1) := by
    rw [stretchEnd, if_pos inside, if_neg other]
  obtain ⟨split, within⟩ := items_stretch (Nat.le_of_lt inside)
  rw [same] at split within
  rw [split] at short
  have behind := short.behind
  refine ⟨?_, within, split, behind.mono (Nat.zero_le _)⟩
  have long := behind.le
  rw [Nat.zero_add, List.length_take, List.length_drop] at long
  omega

theorem rangeAt_lt (begins : rangeAt p i = true) : i + 3 ≤ p.length := by
  unfold rangeAt at begins
  simp only [Bool.and_eq_true, decide_eq_true_eq] at begins
  exact begins.1.1

theorem getD_mem (inside : i < p.length) : p.getD i 0 ∈ p := by
  rw [List.getD_eq_getElem _ _ inside]
  exact List.getElem_mem inside

/-- A plain pattern is compiled into parts of the same text. -/
theorem parseFrom_plain
    (ascii : ∀ c ∈ p, c < 128)
    (within : i ≤ p.length)
    (ascending : ∀ item ∈ items (p.drop i), item.Ascending)
    (short : ShortFrom 0 (items (p.drop i))) :
    ∃ pats, parseFrom p i = .ok pats ∧
      pats.flatMap (Pat.text p) = expansion (items (p.drop i)) ∧
      pats.flatMap (Pat.textBelow p) =
        (items (p.drop i)).flatMap Item.charsBelow ∧
      ∀ pat ∈ pats, pat.Proper p := by
  fun_induction parseFrom p i with
  | case1 i inside begins why failed ih =>
      have room := rangeAt_lt begins
      rw [items_range begins] at ascending short
      obtain ⟨pats, done, -⟩ :=
        ih room (fun item mem => ascending item (List.mem_cons_of_mem _ mem))
          short.2
      rw [failed] at done
      cases done
  | case2 i inside begins c0 c1 pats done ih =>
      have room := rangeAt_lt begins
      rw [items_range begins] at ascending short ⊢
      obtain ⟨pats', done', text, textBelow, proper⟩ :=
        ih room (fun item mem => ascending item (List.mem_cons_of_mem _ mem))
          short.2
      rw [done] at done'
      cases done'
      have asciiA : p.getD i 0 < 128 := ascii _ (getD_mem inside)
      have asciiB : p.getD (i + 2) 0 < 128 :=
        ascii _ (getD_mem (Nat.lt_of_succ_le room))
      have up : (p.getD i 0).toNat ≤ (p.getD (i + 2) 0).toNat :=
        ascending _ List.mem_cons_self
      have small : (p.getD (i + 2) 0).toNat < 128 := asciiB
      refine ⟨_, rfl, ?_, ?_, ?_⟩
      · rw [List.flatMap_cons, text, (range_texts asciiA asciiB _).1]
        rfl
      · rw [List.flatMap_cons, textBelow, (range_texts asciiA asciiB _).2]
        rfl
      · rintro pat (_ | ⟨_, mem⟩)
        · simp only [Pat.Proper, c0, c1, asU16]
          rw [asI8_of_ascii asciiA, asI8_of_ascii asciiB]
          omega
        · exact proper pat mem
  | case3 i inside other n long =>
      have stretch := stretch_plain inside other short
      omega
  | case4 i inside other n fits why failed ih =>
      have stretch := stretch_plain inside other short
      rw [stretch.2.2.1] at ascending
      obtain ⟨pats, done, -⟩ :=
        ih stretch.2.1
          (fun item mem => ascending item (List.mem_append_right _ mem))
          stretch.2.2.2
      rw [failed] at done
      cases done
  | case5 i inside other n fits pats done ih =>
      have stretch := stretch_plain inside other short
      rw [stretch.2.2.1] at ascending ⊢
      obtain ⟨pats', done', text, textBelow, proper⟩ :=
        ih stretch.2.1
          (fun item mem => ascending item (List.mem_append_right _ mem))
          stretch.2.2.2
      rw [done] at done'
      cases done'
      have later := le_stretchEnd p (i + 1)
      refine ⟨_, rfl, ?_, ?_, ?_⟩
      · rw [List.flatMap_cons, text, expansion, expansion, List.flatMap_append,
          expansion_ones]
        rfl
      · rw [List.flatMap_cons, textBelow, List.flatMap_append,
          expansionBelow_ones]
        rfl
      · rintro pat (_ | ⟨_, mem⟩)
        · change 0 < stretchEnd p (i + 1) - i ∧
            i + (stretchEnd p (i + 1) - i) ≤ p.length
          have end_ := stretch.2.1
          omega
        · exact proper pat mem
  | case6 i outside =>
      rw [List.drop_eq_nil_of_le (Nat.le_of_not_lt outside)]
      exact ⟨[], rfl, rfl, rfl, fun _ none => nomatch none⟩

end Parsing

end SabiRuby.Strings
