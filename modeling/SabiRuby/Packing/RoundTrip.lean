import SabiRuby.Packing.Packing

/-!
# Text encodings round trip

What `pack` writes of a string as base64, uuencoded or quoted-printable text is
what `unpack1` reads it back from, whatever the count; and the hexadecimal or
binary digits that `unpack1` reads of a string are packed into it.
-/

namespace SabiRuby.Packing

variable {Item V : Type}

/-- The letters of the encodings of text: `m`, `u` and `M`. -/
def encodings : List UInt8 := [109, 117, 77]

/-- The letters of the strings of digits: `H`, `h`, `B` and `b`. -/
def digitStrings : List UInt8 := [72, 104, 66, 98]

theorem plain_letters :
    ∀ d ∈ encodings ++ digitStrings,
      isSpace d = false ∧ d ≠ 35 ∧ ¬ (d = 112 ∨ d = 80 ∨ d = 37) := by
  simp only [encodings, digitStrings, List.cons_append, List.nil_append,
    List.forall_mem_cons, List.not_mem_nil, false_implies, implies_true,
    and_true]
  decide

theorem known_letters :
    ∀ d ∈ encodings ++ digitStrings,
      (formatInfo (alias_ d)).1 ≠ .none ∧
        (formatInfo (alias_ d)).1.texts = true ∧
        (formatInfo (alias_ d)).2.1 = .string ∧
        (formatInfo (alias_ d)).2.2.2.count2 = true := by
  simp only [encodings, digitStrings, List.cons_append, List.nil_append,
    List.forall_mem_cons, List.not_mem_nil, false_implies, implies_true,
    and_true]
  decide

theorem encodings_width :
    ∀ d ∈ encodings, (formatInfo (alias_ d)).2.2.2.width = true := by
  simp only [encodings, List.forall_mem_cons, List.not_mem_nil, false_implies,
    implies_true, and_true]
  decide

/-- What an encoding writes of a string is read as the string. -/
theorem encoding_undone
    (bytes : items.bytes o = .ok s)
    (string : sp.ty = .string)
    (dir : sp.dir = .base64 ∨ sp.dir = .uu ∨ sp.dir = .qenc) :
    ∃ out, packItem items sp sp.count o = .ok out ∧
      unpackText sp out = some s := by
  rcases dir with dir | dir | dir
  · refine ⟨packBase64 s sp.count, ?_, ?_⟩
    · rw [packItem, string, bytes, dir]
      rfl
    · rw [unpackText, dir]
      exact congrArg some (unpackBase64_pack s sp.count)
  · refine ⟨packUu s sp.count, ?_, ?_⟩
    · rw [packItem, string, bytes, dir]
      rfl
    · rw [unpackText, dir]
      exact congrArg some (unpackUu_pack s sp.count)
  · refine ⟨packQenc s sp.count, ?_, ?_⟩
    · rw [packItem, string, bytes, dir]
      rfl
    · rw [unpackText, dir]
      exact congrArg some (unpackQenc_pack s sp.count)

theorem encoding_dir :
    ∀ d ∈ encodings, (formatInfo (alias_ d)).1 = .base64 ∨
      (formatInfo (alias_ d)).1 = .uu ∨ (formatInfo (alias_ d)).1 = .qenc := by
  simp only [encodings, List.forall_mem_cons, List.not_mem_nil, false_implies,
    implies_true, and_true]
  decide

/-- An accepted directive of an encoding packs a string into what it unpacks as
the string. -/
theorem encoding_round_trip
    (items : Items Item)
    (values : Values V)
    (little : Bool)
    (letter : d ∈ encodings)
    (read : readTmpl little false (d :: t) = .ok (sp, []))
    (bytes : items.bytes o = .ok s) :
    ∃ out, pack items little [o] (d :: t) = .ok out ∧
      unpack1 values little out (d :: t) = .ok (some (values.str s)) := by
  have either : d ∈ encodings ++ digitStrings := List.mem_append_left _ letter
  obtain ⟨known, texts, string, counts⟩ := known_letters d either
  obtain ⟨dir, ty, width, -, count2⟩ :=
    readTmpl_directive (plain_letters d either) known read
  have is := encoding_dir d letter
  rw [← dir] at is
  obtain ⟨out, packed, undone⟩ :=
    encoding_undone bytes (ty.trans string) is
  refine ⟨out, ?_, unpack1_text read undone⟩
  apply pack_text read
  · rw [dir, texts]
  · rw [count2, counts]
  · rintro ⟨-, narrow⟩
    rw [width, encodings_width d letter] at narrow
    cases narrow
  · exact packed

/-- All the digits of a string, of either kind, are packed into it. -/
theorem digits_round_trip
    (items : Items Item)
    (values : Values V)
    (little : Bool)
    (letter : d ∈ digitStrings)
    (s : List UInt8) :
    ∃ text, unpack1 values little s [d, 42] = .ok (some (values.str text)) ∧
      ∀ o, items.bytes o = .ok text →
        pack items little [o] [d, 42] = .ok s := by
  have read : ∃ sp, readTmpl little false [d, 42] = .ok (sp, []) ∧
      sp.ty = .string ∧ sp.count = -1 ∧ sp.flags.count2 = true ∧
      (sp.dir = .hex ∨ sp.dir = .bstr) := by
    rcases List.mem_cons.mp letter with rfl | letter
    · exact ⟨_, rfl, rfl, rfl, rfl, Or.inl rfl⟩
    rcases List.mem_cons.mp letter with rfl | letter
    · exact ⟨_, rfl, rfl, rfl, rfl, Or.inl rfl⟩
    rcases List.mem_cons.mp letter with rfl | letter
    · exact ⟨_, rfl, rfl, rfl, rfl, Or.inr rfl⟩
    · rw [List.mem_singleton.mp letter]
      exact ⟨_, rfl, rfl, rfl, rfl, Or.inr rfl⟩
  obtain ⟨sp, read, string, all, counts, dir⟩ := read
  have texts : sp.dir.texts = true := by
    rcases dir with dir | dir
    · rw [dir]
      rfl
    · rw [dir]
      rfl
  have taken : ¬ (sp.count = 0 ∧ sp.flags.width = false) := by
    rintro ⟨zero, -⟩
    rw [all] at zero
    cases zero
  rcases dir with dir | dir
  · refine ⟨unpackHex s (-1) sp.flags.lsb, unpack1_text read ?_, ?_⟩
    · rw [unpackText, dir, all]
    · intro o bytes
      apply pack_text read texts counts taken
      rw [packItem, string, bytes, dir, all]
      exact congrArg Except.ok (packHex_unpack s sp.flags.lsb)
  · refine ⟨unpackBstr s (-1) sp.flags.lsb, unpack1_text read ?_, ?_⟩
    · rw [unpackText, dir, all]
    · intro o bytes
      apply pack_text read texts counts taken
      rw [packItem, string, bytes, dir, all]
      exact congrArg Except.ok (packBstr_unpack s sp.flags.lsb)

/-- A count: none, all, or digits up to the limit of a template. -/
def IsCount (t : List UInt8) : Prop :=
  t = [] ∨ t = [42] ∨
    (t ≠ [] ∧ (∀ ch ∈ t, isDigit ch = true) ∧ countValue t ≤ 2147483647)

theorem readTmpl_count
    (little : Bool)
    (letter : d ∈ encodings)
    (isCount : IsCount t) :
    ∃ sp, readTmpl little false (d :: t) = .ok (sp, []) := by
  have either : d ∈ encodings ++ digitStrings := List.mem_append_left _ letter
  have plain := plain_letters d either
  have known := (known_letters d either).1
  have suffix : ∃ count flags, readSuffix (alias_ d) (formatInfo (alias_ d)).2.1
      none 1 (formatInfo (alias_ d)).2.2.2 t = .ok (count, flags, []) := by
    obtain ⟨one, all, number⟩ := readSuffix_counts (alias_ d)
      (formatInfo (alias_ d)).2.1 (formatInfo (alias_ d)).2.2.2
    rcases isCount with rfl | rfl | ⟨some_, digits, small⟩
    · exact ⟨_, _, one⟩
    · exact ⟨_, _, all⟩
    · exact ⟨_, _, number t some_ digits small⟩
  obtain ⟨count, flags, suffix⟩ := suffix
  rw [readTmpl, if_neg (by simp), plain.1, if_neg (by simp), if_neg plain.2.1,
    if_neg plain.2.2]
  dsimp only
  rw [if_neg known, suffix]
  exact ⟨_, rfl⟩

end SabiRuby.Packing
