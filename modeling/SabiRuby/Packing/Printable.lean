import SabiRuby.Packing.Digits

/-!
# Quoted-printable text

A byte that is not printable is written as `=` and two digits, and `=` at the
end of a line says that the line goes on.
-/

namespace SabiRuby.Packing

/-- How a byte is written. -/
inductive QprintType
  | copied
  | encoded
  | newline
deriving DecidableEq, Repr

/-- `qprint_encode_type`. -/
def qprintType (b : UInt8) : QprintType :=
  if b = 9 then .copied
  else if b = 10 then .newline
  else if b ≤ 0x1f ∨ b = 61 ∨ 0x7f ≤ b then .encoded
  else .copied

/-- A byte as `=` and its two digits. -/
def quoted (byte : UInt8) : List UInt8 :=
  [61, HEX_UPPER.getD (byte >>> 4).toNat 0,
    HEX_UPPER.getD (byte &&& 0xf).toNat 0]

/-- What is written of a byte, the column behind it and the byte that ends it,
if it ends with one of the source. -/
def qencByte (n : Int) (prev : Option UInt8) (byte : UInt8)
    (next : Option UInt8) : List UInt8 × Int × Option UInt8 :=
  match qprintType byte with
  | .copied =>
      if (byte = 32 ∨ byte = 9) ∧ next = some 10 then (quoted byte, n + 3, none)
      else ([byte], n + 1, some byte)
  | .newline =>
      ((if prev = some 32 ∨ prev = some 9 then [61, byte] else []) ++ [byte], 0,
        some byte)
  | .encoded => (quoted byte, n + 3, none)

/-- The loop of `pack_qenc` with what follows it. -/
def packQencFrom (count : Int) : Int → Option UInt8 → List UInt8 → List UInt8
  | n, _, [] => if 0 < n then [61, 10] else []
  | n, prev, byte :: rest =>
      let written := qencByte n prev byte rest.head?
      written.1 ++
        if count < written.2.1 then
          61 :: 10 :: packQencFrom count 0 (some 10) rest
        else packQencFrom count written.2.1 written.2.2 rest

/-- `pack_qenc`. -/
def packQenc (src : List UInt8) (count : Int) : List UInt8 :=
  packQencFrom (if count ≤ 1 then 72 else count) 0 none src

/-- The loop of `unpack_qenc`. -/
def unpackQenc : List UInt8 → List UInt8
  | [] => []
  | byte :: rest =>
      if byte ≠ 61 then byte :: unpackQenc rest
      else
        match rest with
        | [] => []
        | x :: rest =>
            if x = 13 ∧ rest.head? = some 10 then unpackQenc rest.tail
            else if x = 10 then unpackQenc rest
            else
              match hex2int x with
              | none => []
              | some c1 =>
                  match rest with
                  | [] => []
                  | y :: rest =>
                      match hex2int y with
                      | none => []
                      | some c2 => (c1 <<< 4 ||| c2) :: unpackQenc rest
termination_by src => src.length
decreasing_by
  all_goals simp only [List.length_cons, List.length_tail]
  all_goals omega

/-! ## Reading what was written -/

/-- A text that is read as a byte wherever it stands. -/
def ReadsAs (text : List UInt8) (byte : UInt8) : Prop :=
  ∀ rest, unpackQenc (text ++ rest) = byte :: unpackQenc rest

theorem unpackQenc_literal
    (plain : byte ≠ 61)
    (rest : List UInt8) :
    unpackQenc (byte :: rest) = byte :: unpackQenc rest := by
  rw [unpackQenc.eq_def]
  dsimp only
  rw [if_pos plain]

theorem unpackQenc_soft (rest : List UInt8) :
    unpackQenc (61 :: 10 :: rest) = unpackQenc rest := by
  rw [unpackQenc.eq_def]
  dsimp only
  rw [if_neg (by decide), if_neg (by simp), if_pos rfl]

theorem hex2int_upper : ∀ n : Fin 16,
    HEX_UPPER.getD n 0 ≠ 13 ∧ HEX_UPPER.getD n 0 ≠ 10 ∧
      hex2int (HEX_UPPER.getD n 0) = some (UInt8.ofNat n) := by
  decide +kernel

theorem high_lt (byte : UInt8) : (byte >>> 4).toNat < 16 := by
  have below := byte.toNat_lt
  rw [UInt8.toNat_shiftRight]
  change byte.toNat >>> 4 < 16
  rw [Nat.shiftRight_eq_div_pow]
  omega

theorem low_lt (byte : UInt8) : (byte &&& 0xf).toNat < 16 := by
  rw [UInt8.toNat_and]
  exact Nat.and_lt_two_pow _ (n := 4) (by decide)

/-- The digits of a quoted byte are none of the ends of a line, and are read
back. -/
theorem quoted_digits (byte : UInt8) :
    ∃ x y c1 c2, quoted byte = [61, x, y] ∧ x ≠ 13 ∧ x ≠ 10 ∧
      hex2int x = some c1 ∧ hex2int y = some c2 ∧ c1 <<< 4 ||| c2 = byte := by
  have high := hex2int_upper ⟨_, high_lt byte⟩
  have low := hex2int_upper ⟨_, low_lt byte⟩
  rw [UInt8.ofNat_toNat] at high low
  have whole : (byte >>> 4) <<< 4 ||| (byte &&& 0xf) = byte := by
    apply UInt8.toBitVec_inj.mp
    ext i
    have places : i = 0 ∨ i = 1 ∨ i = 2 ∨ i = 3 ∨
        i = 4 ∨ i = 5 ∨ i = 6 ∨ i = 7 := by
      omega
    rcases places with h | h | h | h | h | h | h | h <;>
      subst h <;>
      simp
  exact ⟨_, _, _, _, rfl, high.1, high.2.1, high.2.2, low.2.2, whole⟩

theorem readsAs_quoted (byte : UInt8) : ReadsAs (quoted byte) byte := by
  intro rest
  obtain ⟨x, y, c1, c2, text, notReturn, notNewline, first, second, whole⟩ :=
    quoted_digits byte
  rw [text, List.cons_append, List.cons_append, List.cons_append,
    List.nil_append, unpackQenc.eq_def]
  dsimp only
  rw [if_neg (by decide), if_neg fun both => notReturn both.1,
    if_neg notNewline, first]
  dsimp only
  rw [second]
  dsimp only
  rw [whole]

theorem qprintType_encoded (byte : UInt8) (plain : qprintType byte ≠ .encoded) :
    byte ≠ 61 := by
  rintro rfl
  exact plain rfl

/-- What is written of a byte is read as it. -/
theorem readsAs_qencByte
    (n : Int)
    (prev : Option UInt8)
    (byte : UInt8)
    (next : Option UInt8) : ReadsAs (qencByte n prev byte next).1 byte := by
  rw [qencByte]
  cases kind : qprintType byte with
  | copied =>
      dsimp only
      split
      case isTrue => exact readsAs_quoted byte
      case isFalse =>
        intro rest
        apply unpackQenc_literal
        apply qprintType_encoded
        rw [kind]
        decide
  | newline =>
      have is : byte = 10 := by
        by_contra other
        rw [qprintType] at kind
        split at kind
        · cases kind
        · split at kind
          · cases kind
          · cases kind
      subst is
      intro rest
      dsimp only
      split
      case isTrue =>
        change unpackQenc (61 :: 10 :: 10 :: rest) = _
        rw [unpackQenc_soft, unpackQenc_literal (by decide)]
      case isFalse => exact unpackQenc_literal (by decide) rest
  | encoded => exact readsAs_quoted byte

theorem unpackQenc_packFrom
    (count n : Int)
    (prev : Option UInt8)
    (src : List UInt8) : unpackQenc (packQencFrom count n prev src) = src := by
  induction src generalizing n prev with
  | nil =>
      rw [packQencFrom]
      split
      case isTrue =>
        rw [unpackQenc_soft, unpackQenc]
      case isFalse => rw [unpackQenc]
  | cons byte rest ih =>
      rw [packQencFrom, readsAs_qencByte n prev byte rest.head?]
      apply congrArg
      split
      case isTrue => rw [unpackQenc_soft, ih]
      case isFalse => exact ih _ _

/-- Quoted-printable text is undone by reading it, whatever its column. -/
theorem unpackQenc_pack (src : List UInt8) (count : Int) :
    unpackQenc (packQenc src count) = src :=
  unpackQenc_packFrom _ 0 none src

end SabiRuby.Packing
