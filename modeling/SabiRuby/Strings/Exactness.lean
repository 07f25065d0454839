import SabiRuby.Strings.Searching

/-!
# Character positions

In a string of characters the positions the methods take and answer are those of
the pieces: the walks and their shortcuts agree, and a search answers the
position of an occurrence.
-/

namespace SabiRuby.Strings

/-- A position names a character, counted back from the end when it is
negative. -/
def Names (count : Nat) (position : Int) (k : Nat) : Prop :=
  (0 ≤ position ∧ (k : Int) = position) ∨
    (position < 0 ∧ (k : Int) = position + count)

theorem resolved_iff (count : Nat) (position : Int) (k : Nat) :
    resolved count position = some k ↔ Names count position k := by
  rw [resolved, Names]
  split
  case isTrue negative =>
    split
    case isTrue before =>
      constructor
      · intro is
        cases is
      · omega
    case isFalse inside =>
      rw [Option.some.injEq]
      omega
  case isFalse =>
    rw [Option.some.injEq]
    omega

/-- The character a search starts from: the one that is named, or the one it
takes where none is. -/
def Starts (count default : Nat) (position : Option Int) (k : Nat) : Prop :=
  (position = none ∧ k = default) ∨ ∃ p, position = some p ∧ Names count p k

/-! ## The least occurrence -/

/-- Behind a boundary the bytes at which a needle stands are the boundaries of
its occurrences. -/
theorem find_isLeast
    (characters : ∀ p ∈ pieces n, Character p)
    (inside : f ≤ (pieces b).length)
    (k : Nat) :
    (find b n (offset (pieces b) f)).map (fun i => byteToChar b i true) =
        some k ↔
      IsLeast {k | f ≤ k ∧ Occurs b n k} k := by
  have nonempty : ∀ p ∈ pieces b, p ≠ [] := fun p mem => pieces_ne_nil mem
  by_cases some_ : n = []
  · subst some_
    rw [find, if_pos rfl, if_pos (offset_le b f), Option.map_some,
      byteToChar_offset b inside, Option.some.injEq]
    have here : Occurs b [] f := by
      rw [occurs_iff characters]
      exact ⟨inside, List.nil_prefix⟩
    constructor
    · rintro rfl
      exact ⟨⟨Nat.le_refl _, here⟩, fun j mem => mem.1⟩
    · rintro ⟨⟨le, -⟩, least⟩
      exact Nat.le_antisymm le (least ⟨Nat.le_refl _, here⟩)
  · rw [Option.map_eq_some_iff]
    constructor
    · rintro ⟨i, found, rfl⟩
      rw [find_iff some_] at found
      obtain ⟨⟨after, here⟩, least⟩ := found
      obtain ⟨k, lt, rfl⟩ := boundary_of_occurs characters some_ here
      rw [byteToChar_offset b (by omega)]
      refine ⟨⟨?_, ?_⟩, ?_⟩
      · by_contra before
        have less := offset_strictMono nonempty (by omega : k < f) inside
        omega
      · rw [occurs_iff characters]
        exact ⟨by omega, here⟩
      · rintro j ⟨behind, occurs⟩
        rw [occurs_iff characters] at occurs
        have atLeast := least
          ⟨offset_mono (pieces b) behind, occurs.2⟩
        by_contra before
        have less := offset_strictMono nonempty (by omega : j < k) (by omega)
        omega
    · rintro ⟨⟨behind, occurs⟩, least⟩
      rw [occurs_iff characters] at occurs
      refine ⟨offset (pieces b) k, ?_, byteToChar_offset b occurs.1⟩
      rw [find_iff some_]
      refine ⟨⟨offset_mono (pieces b) behind, occurs.2⟩, ?_⟩
      rintro i ⟨after, there⟩
      obtain ⟨j, lt, rfl⟩ := boundary_of_occurs characters some_ there
      apply offset_mono
      apply least
      refine ⟨?_, ?_⟩
      · by_contra before
        have less := offset_strictMono nonempty (by omega : j < f) inside
        omega
      · rw [occurs_iff characters]
        exact ⟨by omega, there⟩

/-- The pieces of characters are accepted whatever the needle is read as. -/
theorem validChars_of
    (characters : ∀ p ∈ pieces n, Character p)
    (needleChars : Bool) : validChars n needleChars = true := by
  cases needleChars with
  | false => rfl
  | true => exact (validChars_iff n).mpr characters

/-- `index` answers the least occurrence from the position on. -/
theorem index_iff
    (characters : ∀ p ∈ pieces n, Character p)
    (needleChars : Bool)
    (position : Option Int)
    (k : Nat) :
    index b n true needleChars position = some k ↔
      ∃ f, Starts (charLen b true) 0 position f ∧
        IsLeast {k | f ≤ k ∧ Occurs b n k} k := by
  have answer : ∀ f, (if f > charLen b true then none
      else if validChars n needleChars = false then none
      else (find b n (charToByte b f true)).map fun i => byteToChar b i true) =
        some k ↔ IsLeast {k | f ≤ k ∧ Occurs b n k} k := by
    intro f
    rw [charLen_eq, validChars_of characters, charToByte_eq]
    split
    case isTrue beyond =>
      constructor
      · intro is
        cases is
      · rintro ⟨⟨behind, occurs⟩, -⟩
        rw [occurs_iff characters] at occurs
        omega
    case isFalse inside =>
      rw [if_neg (by simp)]
      exact find_isLeast characters (by omega) k
  cases position with
  | none =>
      change (if 0 > charLen b true then none
        else if validChars n needleChars = false then none
        else (find b n (charToByte b 0 true)).map fun i =>
          byteToChar b i true) = some k ↔ _
      rw [answer 0]
      constructor
      · intro least
        exact ⟨0, Or.inl ⟨rfl, rfl⟩, least⟩
      · rintro ⟨f, ⟨-, rfl⟩ | ⟨p, is, -⟩, least⟩
        · exact least
        · cases is
  | some p =>
      change ((resolved (charLen b true) p).bind fun f =>
        if f > charLen b true then none
        else if validChars n needleChars = false then none
        else (find b n (charToByte b f true)).map fun i =>
          byteToChar b i true) = some k ↔ _
      rw [Option.bind_eq_some_iff]
      constructor
      · rintro ⟨f, named, found⟩
        exact ⟨f, Or.inr ⟨p, rfl, (resolved_iff _ _ _).mp named⟩,
          (answer f).mp found⟩
      · rintro ⟨f, ⟨is, -⟩ | ⟨q, is, named⟩, least⟩
        · cases is
        · cases is
          exact ⟨f, (resolved_iff _ _ _).mpr named, (answer f).mpr least⟩

/-! ## The greatest occurrence -/

/-- Behind the last piece there is no further boundary. -/
theorem offset_min (b : List UInt8) (p : Nat) :
    offset (pieces b) (min p (pieces b).length) = offset (pieces b) p := by
  by_cases le : p ≤ (pieces b).length
  · rw [Nat.min_eq_left le]
  · rw [Nat.min_eq_right (by omega)]
    have atMost := offset_le b p
    have atLeast := offset_mono (pieces b)
      (by omega : (pieces b).length ≤ p)
    rw [offset_length] at atLeast ⊢
    omega

/-- Up to a character `char_rfind` answers the greatest occurrence. -/
theorem charRfind_isGreatest
    (characters : ∀ p ∈ pieces n, Character p)
    (p k : Nat) :
    (charRfind b n (offset (pieces b) p) true).map
        (fun i => byteToChar b i true) = some k ↔
      IsGreatest {k | k ≤ p ∧ Occurs b n k} k := by
  have nonempty : ∀ p ∈ pieces b, p ≠ [] := fun p mem => pieces_ne_nil mem
  rw [charRfind, if_neg (by simp)]
  split
  case isTrue long =>
    constructor
    · intro is
      cases is
    · rintro ⟨⟨-, occurs⟩, -⟩
      rw [occurs_iff characters] at occurs
      have length := occurs.2.length_le
      rw [List.length_drop] at length
      omega
  case isFalse fits =>
    have atMost := offset_le b p
    dsimp only
    by_cases some_ : n = []
    · subst some_
      have last : Occurs b [] (min p (pieces b).length) := by
        rw [occurs_iff characters]
        exact ⟨Nat.min_le_right _ _, List.nil_prefix⟩
      rw [if_pos rfl, List.length_nil, Nat.sub_zero, Nat.min_eq_left atMost,
        ← offset_min, Option.map_some,
        byteToChar_offset b (Nat.min_le_right _ _), Option.some.injEq]
      constructor
      · rintro rfl
        refine ⟨⟨Nat.min_le_left _ _, last⟩, ?_⟩
        rintro j ⟨le, occurs⟩
        rw [occurs_iff characters] at occurs
        exact Nat.le_min.mpr ⟨le, occurs.1⟩
      · rintro ⟨⟨le, occurs⟩, greatest⟩
        rw [occurs_iff characters] at occurs
        have atLeast := greatest ⟨Nat.min_le_left _ _, last⟩
        exact Nat.le_antisymm atLeast (Nat.le_min.mpr ⟨le, occurs.1⟩)
    · have positive := List.length_pos_iff.mpr some_
      rw [if_neg some_]
      obtain ⟨m, lt, position, low, high⟩ := charHead_spec
        (by omega :
          min (offset (pieces b) p) (b.length - n.length) < b.length)
      rw [position, charRfindFrom_iff b n (by omega)]
      have same : {k | k ≤ m ∧ n <+: b.drop (offset (pieces b) k)} =
          {k | k ≤ p ∧ Occurs b n k} := by
        ext j
        rw [Set.mem_ofPred_eq, Set.mem_ofPred_eq, occurs_iff characters]
        constructor
        · rintro ⟨le, here⟩
          refine ⟨?_, by omega, here⟩
          by_contra above
          have less := offset_strictMono nonempty (by omega : p < m)
            (by omega)
          omega
        · rintro ⟨le, inside, here⟩
          refine ⟨?_, here⟩
          by_contra above
          have length := here.length_le
          rw [List.length_drop] at length
          have below := offset_mono (pieces b) le
          have behind := offset_mono (pieces b) (by omega : m + 1 ≤ j)
          omega
      rw [same]

/-- `rindex` answers the greatest occurrence from the position back. -/
theorem rindex_iff
    (characters : ∀ p ∈ pieces n, Character p)
    (needleChars : Bool)
    (position : Option Int)
    (k : Nat) :
    rindex b n true needleChars position = some k ↔
      ∃ p, Starts (charLen b true) (charLen b true) position p ∧
        IsGreatest {k | k ≤ p ∧ Occurs b n k} k := by
  have answer : ∀ p, (if validChars n needleChars = false then none
      else (charRfind b n (offset (pieces b) p) true).map fun i =>
        byteToChar b i true) = some k ↔
      IsGreatest {k | k ≤ p ∧ Occurs b n k} k := by
    intro p
    rw [validChars_of characters, if_neg (by simp)]
    exact charRfind_isGreatest characters p k
  cases position with
  | none =>
      change (if validChars n needleChars = false then none
        else (charRfind b n b.length true).map fun i =>
          byteToChar b i true) = some k ↔ _
      rw [← offset_length b, answer, ← charLen_eq]
      constructor
      · intro greatest
        exact ⟨_, Or.inl ⟨rfl, rfl⟩, greatest⟩
      · rintro ⟨p, ⟨-, rfl⟩ | ⟨q, is, -⟩, greatest⟩
        · exact greatest
        · cases is
  | some q =>
      change (((resolved (charLen b true) q).map fun ci =>
        charToByte b ci true).bind fun pos =>
          if validChars n needleChars = false then none
          else (charRfind b n pos true).map fun i =>
            byteToChar b i true) = some k ↔ _
      rw [Option.bind_map, Option.bind_eq_some_iff]
      simp only [Function.comp_apply, charToByte_eq, answer, resolved_iff]
      constructor
      · rintro ⟨p, named, greatest⟩
        exact ⟨p, Or.inr ⟨q, rfl, named⟩, greatest⟩
      · rintro ⟨p, ⟨is, -⟩ | ⟨r, is, named⟩, greatest⟩
        · cases is
        · cases is
          exact ⟨p, named, greatest⟩

/-! ## Positions and pieces -/

/-- `is_char_boundary`. -/
def isCharBoundary (b : List UInt8) (i : Nat) (chars : Bool) : Bool :=
  if chars = false then true
  else if i ≥ b.length then i = b.length
  else charToByte b (byteToChar b i chars) chars = i

/-- `char_span`. -/
def charSpan (b : List UInt8) (ci n : Nat) (chars : Bool) : Nat × Nat :=
  let start := charToByte b ci chars
  let stop := charToByte b (ci + n) chars
  (start, stop - start)

/-- The boundaries are the beginnings of the pieces and the end. -/
theorem isCharBoundary_iff (b : List UInt8) (i : Nat) :
    isCharBoundary b i true = true ↔
      ∃ k, k ≤ (pieces b).length ∧ i = offset (pieces b) k := by
  rw [isCharBoundary, if_neg (by simp)]
  split
  case isTrue outside =>
    rw [decide_eq_true_eq]
    constructor
    · intro is
      exact ⟨_, Nat.le_refl _, is.trans (offset_length b).symm⟩
    · rintro ⟨k, -, is⟩
      have le := offset_le b k
      omega
  case isFalse inside =>
    rw [decide_eq_true_eq, charToByte_eq]
    constructor
    · intro is
      refine ⟨min (byteToChar b i true) (pieces b).length,
        Nat.min_le_right _ _, ?_⟩
      rw [offset_min]
      exact is.symm
    · rintro ⟨k, le, rfl⟩
      rw [byteToChar_offset b le]

/-- The bytes of a span are the pieces it names. -/
theorem charSpan_spec (b : List UInt8) (ci n : Nat) :
    (b.drop (charSpan b ci n true).1).take (charSpan b ci n true).2 =
      (((pieces b).drop ci).take n).flatten := by
  have whole : (pieces b).take (ci + n) =
      (pieces b).take ci ++ ((pieces b).drop ci).take n := List.take_add
  have size : offset (pieces b) (ci + n) - offset (pieces b) ci =
      (((pieces b).drop ci).take n).flatten.length := by
    rw [offset, whole, List.flatten_append, List.length_append, offset]
    omega
  have rest : b.drop (offset (pieces b) ci) =
      (((pieces b).drop ci).take n).flatten ++
        (((pieces b).drop ci).drop n).flatten := by
    rw [← flatten_pieces (b.drop _), pieces_drop_offset, ← List.flatten_append,
      List.take_append_drop]
  rw [charSpan, charToByte_eq, charToByte_eq]
  dsimp only
  rw [size, rest, List.take_left]

/-- A boundary is the head of the piece that begins there. -/
theorem charHead_offset
    (b : List UInt8)
    (inside : k ≤ (pieces b).length) :
    charHead b (offset (pieces b) k) true = offset (pieces b) k := by
  by_cases last : k = (pieces b).length
  · rw [last, offset_length, charHead, if_pos (Or.inr (Nat.le_refl _)),
      Nat.min_self]
  · have nonempty : ∀ p ∈ pieces b, p ≠ [] := fun p mem => pieces_ne_nil mem
    have less := offset_strictMono nonempty
      (by omega : k < (pieces b).length) (Nat.le_refl _)
    rw [offset_length] at less
    obtain ⟨j, lt, position, low, high⟩ := charHead_spec less
    rw [position]
    apply congrArg
    by_contra apart
    rcases Nat.lt_or_gt_of_ne apart with below | above
    · have mono := offset_mono (pieces b) (by omega : j + 1 ≤ k)
      omega
    · have more := offset_strictMono nonempty above (by omega)
      omega

/-- A sequence that stands at a boundary is the piece there. -/
theorem piece_of_sequence
    (seq : Sequence q)
    (here : q <+: b.drop (offset (pieces b) k)) :
    (pieces b)[k]? = some q := by
  obtain ⟨rest, whole⟩ := here
  have many := sequence_length_pos seq
  have some_ : q ++ rest ≠ [] := by
    intro empty
    have length := congrArg List.length empty
    rw [List.length_append, List.length_nil] at length
    omega
  have from_ := pieces_drop_offset b k
  rw [← whole, pieces_of_ne some_, headLen_sequence seq, List.take_left]
    at from_
  have first := congrArg (fun ps => ps[0]?) from_
  rw [List.getElem?_drop, Nat.add_zero] at first
  exact first.symm

/-- In a string of characters every position is that of a piece, and a search
for characters answers the nearest occurrence of their pieces. -/
theorem character_positions (b : List UInt8) :
    (charsOf b true).flatten = b ∧
    (∀ p ∈ charsOf b true, p.length = 1 ∨ Sequence p) ∧
    (∀ k q, Sequence q → q <+: b.drop (charToByte b k true) →
      (charsOf b true)[k]? = some q) ∧
    charLen b true = (charsOf b true).length ∧
    charLen b true = charLenFrom b true 0 0 ∧
    (∀ k, charToByte b k true = ((charsOf b true).take k).flatten.length ∧
      charToByte b k true = charToByteFrom b k true 0 0) ∧
    (∀ k ≤ charLen b true, byteToChar b (charToByte b k true) true = k ∧
      charHead b (charToByte b k true) true = charToByte b k true) ∧
    (∀ i < b.length, ∃ k < charLen b true,
      charHead b i true = charToByte b k true ∧
        charToByte b k true ≤ i ∧ i < charToByte b (k + 1) true) ∧
    (∀ i, isCharBoundary b i true = true ↔
      ∃ k ≤ charLen b true, i = charToByte b k true) ∧
    (∀ k n, (b.drop (charSpan b k n true).1).take (charSpan b k n true).2 =
      (((charsOf b true).drop k).take n).flatten) ∧
    ∀ n : List UInt8, (∀ p ∈ charsOf n true, Character p) →
      ∀ (needleChars : Bool) (position : Option Int) (k : Nat),
        (index b n true needleChars position = some k ↔
          ∃ f, Starts (charLen b true) 0 position f ∧
            IsLeast {k | f ≤ k ∧ Occurs b n k} k) ∧
        (rindex b n true needleChars position = some k ↔
          ∃ p, Starts (charLen b true) (charLen b true) position p ∧
            IsGreatest {k | k ≤ p ∧ Occurs b n k} k) := by
  simp only [charsOf_eq, charToByte_eq]
  refine ⟨flatten_pieces b, fun p mem => pieces_cases mem,
    fun k q seq here => piece_of_sequence seq here, charLen_eq b, ?_, ?_, ?_,
    ?_, ?_, charSpan_spec b, ?_⟩
  · rw [charLen_eq, charLenFrom_eq, List.drop_zero, Nat.zero_add]
  · intro k
    rw [charToByteFrom_eq b k 0 0 (Nat.zero_le _), List.drop_zero,
      Nat.zero_add, Nat.sub_zero]
    exact ⟨rfl, rfl⟩
  · intro k le
    rw [charLen_eq] at le
    exact ⟨byteToChar_offset b le, charHead_offset b le⟩
  · intro i inside
    rw [charLen_eq]
    exact charHead_spec inside
  · intro i
    rw [charLen_eq]
    exact isCharBoundary_iff b i
  · intro n characters needleChars position k
    exact ⟨index_iff characters needleChars position k,
      rindex_iff characters needleChars position k⟩

end SabiRuby.Strings
