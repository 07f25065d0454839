/-!
# Text that need not be UTF-8

Bytes are shown as text with a replacement for those that spell no character.
A sequence that stops short of a character is replaced as one.
-/

namespace SabiRuby

/-- A character whose first bytes were read. -/
structure Pending where
  acc : Nat
  left : Nat
  lo : UInt8
  hi : UInt8

def replacement : Char := Char.ofNat 0xFFFD

/-- The first byte of a character. -/
def firstByte (a : UInt8) : List Char × Option Pending :=
  let bits (mask : UInt8) : Nat := (a &&& mask).toNat
  if a < 0x80 then ([Char.ofNat a.toNat], none)
  else if 0xC2 ≤ a ∧ a ≤ 0xDF then ([], some ⟨bits 0x1F, 1, 0x80, 0xBF⟩)
  else if a = 0xE0 then ([], some ⟨0, 2, 0xA0, 0xBF⟩)
  else if a = 0xED then ([], some ⟨bits 0x0F, 2, 0x80, 0x9F⟩)
  else if 0xE1 ≤ a ∧ a ≤ 0xEF then ([], some ⟨bits 0x0F, 2, 0x80, 0xBF⟩)
  else if a = 0xF0 then ([], some ⟨0, 3, 0x90, 0xBF⟩)
  else if 0xF1 ≤ a ∧ a ≤ 0xF3 then ([], some ⟨bits 0x07, 3, 0x80, 0xBF⟩)
  else if a = 0xF4 then ([], some ⟨bits 0x07, 3, 0x80, 0x8F⟩)
  else ([replacement], none)

/-- One more byte; bytes that stopped short of a character are replaced. -/
def nextByte (pending : Option Pending) (a : UInt8) :
    List Char × Option Pending :=
  match pending with
  | none => firstByte a
  | some p =>
      if p.lo ≤ a ∧ a ≤ p.hi then
        let acc := p.acc * 64 + (a &&& 0x3F).toNat
        if p.left = 1 then ([Char.ofNat acc], none)
        else ([], some ⟨acc, p.left - 1, 0x80, 0xBF⟩)
      else
        let (chars, pending) := firstByte a
        (replacement :: chars, pending)

def lossyChars : Option Pending → List UInt8 → List Char
  | none, [] => []
  | some _, [] => [replacement]
  | pending, a :: s =>
      let (chars, pending) := nextByte pending a
      chars ++ lossyChars pending s

/-- `String::from_utf8_lossy`. -/
def fromUtf8Lossy (bytes : List UInt8) : String :=
  String.ofList (lossyChars none bytes)

end SabiRuby
