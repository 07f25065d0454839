import Mathlib.Data.List.Basic
import Mathlib.Data.UInt

/-!
# The patterns of `tr`

A pattern is compiled into stretches of characters and ranges, once into places
for `tr` and once into a set of bytes for `count`, `delete` and `squeeze`.  A
character is a signed byte here.
-/

namespace SabiRuby.Strings

/-- `c as i8`. -/
def asI8 (c : UInt8) : Int :=
  if c.toNat < 128 then c.toNat else (c.toNat : Int) - 256

/-- `c as u16`. -/
def asU16 (n : Int) : Int := n % 65536

/-- `c as u8`. -/
def asU8 (n : Int) : UInt8 := UInt8.ofInt n

/-- `Pat`. -/
inductive Pat
  | inOrder (start n : Nat)
  | range (c0 c1 n : Int)
deriving DecidableEq, Repr

/-- `Pattern`. -/
structure Pattern where
  pats : List Pat
  reverse : Bool
deriving DecidableEq, Repr

/-- The messages of what a pattern raises. -/
inductive PatternError
  | tooLong
  | outOfRange (r : Int)
deriving DecidableEq, Repr

/-- A range begins at a place. -/
def rangeAt (p : List UInt8) (i : Nat) : Bool :=
  i + 2 < p.length && p.getD i 0 != 92 && p.getD (i + 1) 0 == 45

/-- The end of the stretch of characters that goes on at a place. -/
def stretchEnd (p : List UInt8) (i : Nat) : Nat :=
  if i < p.length then
    if rangeAt p i then i else stretchEnd p (i + 1)
  else i
termination_by p.length - i

theorem le_stretchEnd (p : List UInt8) (i : Nat) : i ≤ stretchEnd p i := by
  fun_induction stretchEnd p i with
  | case1 => exact Nat.le_refl _
  | case2 i _ _ ih => exact Nat.le_trans (Nat.le_succ i) ih
  | case3 => exact Nat.le_refl _

/-- The loop of `parse_pattern`. -/
def parseFrom (p : List UInt8) (i : Nat) : Except PatternError (List Pat) :=
  if i < p.length then
    if rangeAt p i then
      let c0 := asI8 (p.getD i 0)
      let c1 := asI8 (p.getD (i + 2) 0)
      match parseFrom p (i + 3) with
      | .error why => .error why
      | .ok pats => .ok (.range c0 c1 (asU16 (c1 - c0 + 1)) :: pats)
    else
      let n := stretchEnd p (i + 1) - i
      if n > 65535 then .error .tooLong
      else
        match parseFrom p (stretchEnd p (i + 1)) with
        | .error why => .error why
        | .ok pats => .ok (.inOrder i n :: pats)
  else .ok []
termination_by p.length - i
decreasing_by
  · omega
  · have := le_stretchEnd p (i + 1)
    omega

/-- `parse_pattern`. -/
def parsePattern
    (p : List UInt8)
    (reverseEnable : Bool) : Except PatternError Pattern :=
  let reverse := reverseEnable && 2 ≤ p.length && p.getD 0 0 == 94
  match parseFrom p (if reverse then 1 else 0) with
  | .error why => .error why
  | .ok pats => .ok { pats, reverse }

/-- `pat_n`. -/
def patN : Pat → Int
  | .inOrder _ n => n
  | .range _ _ n => n

/-- What a part of a pattern makes of the place found so far. -/
def findIn (pstr : List UInt8) (ch nSum ret : Int) : Pat → Int
  | .inOrder start n =>
      (List.range n).foldl
        (fun ret i =>
          if asI8 (pstr.getD (start + i) 0) = ch then nSum + i else ret)
        ret
  | .range c0 c1 _ => if c0 ≤ ch ∧ ch ≤ c1 then nSum + (ch - c0) else ret

/-- The loop of `find_char`. -/
def findFrom (pstr : List UInt8) (ch : Int) : List Pat → Int → Int → Int
  | [], _, ret => ret
  | p :: pats, nSum, ret =>
      findFrom pstr ch pats (nSum + patN p) (findIn pstr ch nSum ret p)

/-- `find_char`. -/
def findChar (pat : Pattern) (pstr : List UInt8) (ch : Int) : Int :=
  let ret := findFrom pstr ch pat.pats 0 (-1)
  if pat.reverse then if ret < 0 then 9223372036854775807 else -1 else ret

/-- The character of a part of a pattern at a place of the part. -/
def charAt (pstr : List UInt8) (i : Int) : Pat → Int
  | .inOrder start _ => asI8 (pstr.getD (start + i.toNat) 0)
  | .range c0 _ _ => c0 + i

/-- The last character of a part of a pattern. -/
def lastOf (pstr : List UInt8) : Pat → Int
  | .inOrder start n => asI8 (pstr.getD (start + (n - 1)) 0)
  | .range _ c1 _ => c1

/-- The loop of `get_char`. -/
def getFrom (pstr : List UInt8) (nth : Int) : List Pat → Int → Int
  | [], _ => -1
  | p :: pats, nSum =>
      if nth < nSum + patN p then charAt pstr (nth - nSum) p
      else if pats = [] then lastOf pstr p
      else getFrom pstr nth pats (nSum + patN p)

/-- `get_char`. -/
def getChar (pat : Pattern) (pstr : List UInt8) (nth : Int) : Int :=
  getFrom pstr nth pat.pats 0

/-- A part of a pattern puts a byte into the map. -/
def sets (pstr : List UInt8) (c : UInt8) : Pat → Bool
  | .inOrder start n => (List.range n).any fun i => pstr.getD (start + i) 0 == c
  | .range c0 c1 _ =>
      (List.range (c1 - c0).toNat).any fun i => asU8 (c0 + i) == c

/-- `compile_pattern`: the end of a range is not in the map. -/
def compilePattern (pat : Pattern) (pstr : List UInt8) (c : UInt8) : Bool :=
  let map := pat.pats.any (sets pstr c)
  if pat.reverse then !map else map

/-- The loop of `tr`. -/
def trFrom (pat rep : Pattern) (p1 p2 : List UInt8) (squeeze : Bool) :
    Int → List UInt8 → Except PatternError (List UInt8)
  | _, [] => .ok []
  | lastch, c :: src =>
      let n := findChar pat p1 (asI8 c)
      if n ≥ 0 then
        let r := getChar rep p2 n
        if r < 0 ∨ squeeze = true ∧ r = lastch then
          trFrom pat rep p1 p2 squeeze lastch src
        else if r > 128 then .error (.outOfRange r)
        else
          match trFrom pat rep p1 p2 squeeze r src with
          | .error why => .error why
          | .ok out => .ok (asU8 r :: out)
      else
        match trFrom pat rep p1 p2 squeeze lastch src with
        | .error why => .error why
        | .ok out => .ok (c :: out)

/-- `tr`, as `String#tr` and, squeezing, `String#tr_s` call it. -/
def tr
    (src p1 p2 : List UInt8)
    (squeeze : Bool) : Except PatternError (List UInt8) :=
  match parsePattern p1 true with
  | .error why => .error why
  | .ok pat =>
      match parsePattern p2 false with
      | .error why => .error why
      | .ok rep => trFrom pat rep p1 p2 squeeze (-1) src

/-- The loop of `squeeze` with a pattern. -/
def squeezeFrom (map : UInt8 → Bool) : Int → List UInt8 → List UInt8
  | _, [] => []
  | lastch, c :: src =>
      if map c = true ∧ asI8 c = lastch then squeezeFrom map (asI8 c) src
      else c :: squeezeFrom map (asI8 c) src

/-- `String#squeeze` with a pattern. -/
def squeeze (src p : List UInt8) : Except PatternError (List UInt8) :=
  match parsePattern p true with
  | .error why => .error why
  | .ok pat => .ok (squeezeFrom (compilePattern pat p) (-1) src)

/-- `String#delete`. -/
def delete (src p : List UInt8) : Except PatternError (List UInt8) :=
  match parsePattern p true with
  | .error why => .error why
  | .ok pat => .ok (src.filter fun c => !compilePattern pat p c)

/-- `String#count`. -/
def count (src p : List UInt8) : Except PatternError Nat :=
  match parsePattern p true with
  | .error why => .error why
  | .ok pat => .ok (src.filter (compilePattern pat p)).length

end SabiRuby.Strings
