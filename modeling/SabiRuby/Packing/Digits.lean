import Mathlib.Data.List.GetD
import Mathlib.Data.UInt

/-!
# Strings of digits

A string of bits or of hexadecimal digits is packed into bytes, from the high
end of a byte or from the low one.
-/

namespace SabiRuby.Packing

/-- The lower case digits. -/
def HEX_LOWER : List UInt8 :=
  (List.range 10).map (fun i => UInt8.ofNat (48 + i)) ++
    (List.range 6).map fun i => UInt8.ofNat (97 + i)

/-- The upper case digits. -/
def HEX_UPPER : List UInt8 :=
  (List.range 10).map (fun i => UInt8.ofNat (48 + i)) ++
    (List.range 6).map fun i => UInt8.ofNat (65 + i)

/-- `hex2int`. -/
def hex2int (c : UInt8) : Option UInt8 :=
  if 48 ≤ c ∧ c ≤ 57 then some (c - 48)
  else if 97 ≤ c ∧ c ≤ 102 then some (c - 97 + 10)
  else if 65 ≤ c ∧ c ≤ 70 then some (c - 65 + 10)
  else none

/-! ## Hexadecimal digits -/

/-- The shifts of the first and of the second digit of a byte. -/
def hexShifts (lsb : Bool) : UInt8 × UInt8 := if lsb then (0, 4) else (4, 0)

/-- The loop of `pack_hex` and the digit behind it. -/
def packHexFrom (lsb : Bool) : List UInt8 → List UInt8
  | x :: y :: rest =>
      match hex2int x with
      | none => []
      | some a =>
          match hex2int y with
          | none => [a <<< (hexShifts lsb).1]
          | some b =>
              ((a <<< (hexShifts lsb).1) + (b <<< (hexShifts lsb).2)) ::
                packHexFrom lsb rest
  | [x] =>
      match hex2int x with
      | none => []
      | some a => [a <<< (hexShifts lsb).1]
  | [] => []

/-- `pack_hex`. -/
def packHex (src : List UInt8) (count : Int) (lsb : Bool) : List UInt8 :=
  if count = -1 then packHexFrom lsb src
  else packHexFrom lsb (src.take count.toNat)

/-- The digit of a byte that is shifted down so far. -/
def hexDigit (byte shift : UInt8) : UInt8 :=
  HEX_LOWER.getD (byte >>> shift &&& 0x0f).toNat 0

/-- The loop of `unpack_hex` and the digit behind it. -/
def unpackHexFrom (lsb : Bool) : Int → List UInt8 → List UInt8
  | count, byte :: rest =>
      if 2 ≤ count then
        hexDigit byte (hexShifts lsb).1 :: hexDigit byte (hexShifts lsb).2 ::
          unpackHexFrom lsb (count - 2) rest
      else if 0 < count then [hexDigit byte (hexShifts lsb).1]
      else []
  | _, [] => []

/-- `unpack_hex`. -/
def unpackHex (src : List UInt8) (count : Int) (lsb : Bool) : List UInt8 :=
  if src = [] then []
  else unpackHexFrom lsb (if count = -1 then src.length * 2 else count) src

theorem hex2int_lower : ∀ n : Fin 16,
    hex2int (HEX_LOWER.getD n 0) = some (UInt8.ofNat n) := by
  decide +kernel

/-- The half of a byte behind a shift is below sixteen. -/
theorem nibble_lt (byte shift : UInt8) :
    (byte >>> shift &&& 0x0f).toNat < 16 := by
  rw [UInt8.toNat_and]
  exact Nat.and_lt_two_pow _ (n := 4) (by decide)

theorem hex2int_hexDigit (byte shift : UInt8) :
    hex2int (hexDigit byte shift) = some (byte >>> shift &&& 0x0f) := by
  have read := hex2int_lower ⟨_, nibble_lt byte shift⟩
  rw [UInt8.ofNat_toNat] at read
  exact read

/-- The two halves of a byte are the byte. -/
theorem nibbles_sum (byte : UInt8) :
    (byte >>> 4 &&& 0x0f) <<< 4 + ((byte >>> 0 &&& 0x0f) <<< 0) = byte := by
  have below := byte.toNat_lt
  have high : (byte >>> 4 &&& 0x0f).toNat = byte.toNat / 16 := by
    rw [UInt8.toNat_and, UInt8.toNat_shiftRight]
    change byte.toNat >>> 4 &&& 2 ^ 4 - 1 = _
    rw [Nat.and_two_pow_sub_one_eq_mod, Nat.shiftRight_eq_div_pow]
    omega
  have low : (byte >>> 0 &&& 0x0f).toNat = byte.toNat % 16 := by
    rw [UInt8.toNat_and, UInt8.toNat_shiftRight]
    change byte.toNat >>> 0 &&& 2 ^ 4 - 1 = _
    rw [Nat.and_two_pow_sub_one_eq_mod, Nat.shiftRight_eq_div_pow]
    omega
  apply UInt8.toNat_inj.mp
  rw [UInt8.toNat_add, UInt8.toNat_shiftLeft, UInt8.toNat_shiftLeft, high, low]
  change (((byte.toNat / 16) <<< 4 % 2 ^ 8) +
    ((byte.toNat % 16) <<< 0 % 2 ^ 8)) % 2 ^ 8 = _
  rw [Nat.shiftLeft_eq, Nat.shiftLeft_eq]
  omega

/-- The two digits of a byte are read back. -/
theorem hex_byte (byte : UInt8) (lsb : Bool) :
    ∃ a b, hex2int (hexDigit byte (hexShifts lsb).1) = some a ∧
      hex2int (hexDigit byte (hexShifts lsb).2) = some b ∧
      (a <<< (hexShifts lsb).1) + (b <<< (hexShifts lsb).2) = byte := by
  refine ⟨_, _, hex2int_hexDigit byte _, hex2int_hexDigit byte _, ?_⟩
  cases lsb with
  | false => exact nibbles_sum byte
  | true =>
      rw [UInt8.add_comm]
      exact nibbles_sum byte

theorem packHexFrom_unpack (lsb : Bool) (src : List UInt8) :
    packHexFrom lsb (unpackHexFrom lsb (src.length * 2 : Nat) src) = src := by
  induction src with
  | nil => rfl
  | cons byte rest ih =>
      obtain ⟨a, b, first, second, sum⟩ := hex_byte byte lsb
      have count : (((byte :: rest).length * 2 : Nat) : Int) - 2 =
          (rest.length * 2 : Nat) := by
        rw [List.length_cons]
        omega
      rw [unpackHexFrom, if_pos (by rw [List.length_cons]; omega), count,
        packHexFrom, first, second]
      dsimp only
      rw [ih, sum]

/-- The digits of all the bytes of a string are packed into it. -/
theorem packHex_unpack (src : List UInt8) (lsb : Bool) :
    packHex (unpackHex src (-1) lsb) (-1) lsb = src := by
  rw [packHex, if_pos rfl, unpackHex]
  by_cases empty : src = []
  · rw [if_pos empty, empty]
    rfl
  · rw [if_neg empty, if_pos rfl]
    exact packHexFrom_unpack lsb src

/-! ## Bits -/

/-- The place of a bit in its byte. -/
def bitPlace (lsb : Bool) (j : Nat) : UInt8 :=
  if lsb then UInt8.ofNat j else UInt8.ofNat (7 - j)

/-- A byte of eight bits. -/
def bitsByte (lsb : Bool) (bit : Nat → UInt8) : UInt8 :=
  (List.range 8).foldl (fun byte j => byte ||| (bit j <<< bitPlace lsb j)) 0

/-- `pack_bstr`. -/
def packBstr (src : List UInt8) (count : Int) (lsb : Bool) : List UInt8 :=
  let slen :=
    if count ≠ -1 ∧ count < src.length then count.toNat else src.length
  (List.range ((slen + 7) / 8)).map fun i =>
    bitsByte lsb fun j =>
      if i * 8 + j < slen ∧ src[i * 8 + j]? = some 49 then 1 else 0

/-- `unpack_bstr`. -/
def unpackBstr (src : List UInt8) (count : Int) (lsb : Bool) : List UInt8 :=
  let count :=
    if count = -1 ∨ (src.length * 8 : Nat) < count then src.length * 8
    else count.toNat
  (List.range count).map fun i =>
    48 + (src.getD (i / 8) 0 >>> bitPlace lsb (i % 8) &&& 1)

/-- The digit of a bit is read as that bit. -/
theorem bit_read (byte place : UInt8) :
    (if 48 + (byte >>> place &&& 1) = 49 then (1 : UInt8) else 0) =
      byte >>> place &&& 1 := by
  have bit : (byte >>> place &&& 1).toNat = (byte >>> place).toNat % 2 := by
    rw [UInt8.toNat_and]
    exact Nat.and_one_is_mod _
  rcases Nat.mod_two_eq_zero_or_one (byte >>> place).toNat with even | odd
  · have clear : byte >>> place &&& 1 = 0 :=
      UInt8.toNat_inj.mp (bit.trans even)
    rw [clear]
    rfl
  · have raised : byte >>> place &&& 1 = 1 :=
      UInt8.toNat_inj.mp (bit.trans odd)
    rw [raised]
    rfl

/-- The bits of a byte are the byte. -/
theorem bitsByte_self (byte : UInt8) (lsb : Bool) :
    (bitsByte lsb fun j => byte >>> bitPlace lsb j &&& 1) = byte := by
  apply UInt8.toBitVec_inj.mp
  ext i
  have places : i = 0 ∨ i = 1 ∨ i = 2 ∨ i = 3 ∨
      i = 4 ∨ i = 5 ∨ i = 6 ∨ i = 7 := by
    omega
  cases lsb <;>
    simp only [bitsByte, bitPlace, List.range_succ_eq_map, List.range_zero,
      List.map_nil, List.map_cons, List.foldl_cons, List.foldl_nil] <;>
    rcases places with h | h | h | h | h | h | h | h <;>
    subst h <;>
    simp

/-- A byte has the bits that are read of it. -/
theorem bits_byte (byte : UInt8) (lsb : Bool) :
    (bitsByte lsb fun j =>
      if 48 + (byte >>> bitPlace lsb j &&& 1) = 49 then 1 else 0) = byte := by
  simp only [bit_read]
  exact bitsByte_self byte lsb

theorem bitsByte_congr
    (same : ∀ j < 8, first j = second j) :
    bitsByte lsb first = bitsByte lsb second := by
  apply List.foldl_ext
  intro byte j mem
  rw [same j (List.mem_range.mp mem)]

/-- The bits of all the bytes of a string are packed into it. -/
theorem packBstr_unpack (src : List UInt8) (lsb : Bool) :
    packBstr (unpackBstr src (-1) lsb) (-1) lsb = src := by
  have length : (unpackBstr src (-1) lsb).length = src.length * 8 := by
    rw [unpackBstr, List.length_map, List.length_range, if_pos (Or.inl rfl)]
  rw [packBstr, if_neg fun both => both.1 rfl, length]
  have bytes : (src.length * 8 + 7) / 8 = src.length := by omega
  rw [bytes]
  apply List.ext_getElem
  · rw [List.length_map, List.length_range]
  · intro i inside inside'
    rw [List.getElem_map, List.getElem_range]
    refine Eq.trans (bitsByte_congr ?_) (bits_byte src[i] lsb)
    intro j below
    have within : i * 8 + j < src.length * 8 := by omega
    have place : (i * 8 + j) / 8 = i ∧ (i * 8 + j) % 8 = j := by omega
    have read : (unpackBstr src (-1) lsb)[i * 8 + j]? =
        some (48 + (src[i] >>> bitPlace lsb j &&& 1)) := by
      rw [unpackBstr, if_pos (Or.inl rfl), List.getElem?_map,
        List.getElem?_range within, Option.map_some, place.1, place.2,
        List.getD_eq_getElem _ _ inside']
    simp only [read, Option.some.injEq, within, true_and]

end SabiRuby.Packing
