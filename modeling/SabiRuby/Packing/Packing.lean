import SabiRuby.Packing.Printable
import SabiRuby.Packing.Template
import SabiRuby.Packing.Uuencode

/-!
# Packing and unpacking

A template is worked off directive by directive: `pack` writes its items one
behind the other, `unpack1` reads up to its first value.  The directives for
numbers are given with the items they take.
-/

namespace SabiRuby.Packing

/-- What packing takes of the items of an array: the bytes of a String, and what
a directive for numbers writes. -/
structure Items (Item : Type) where
  bytes : Item → Except Refused (List UInt8)
  number : Spec → Item → Except Refused (List UInt8)

/-- `ensure`. -/
def ensure (out : List UInt8) (len : Nat) : List UInt8 :=
  out ++ List.replicate (len - out.length) 0

/-- Bytes written at a position. -/
def putAt (out : List UInt8) (at_ : Nat) (bytes : List UInt8) : List UInt8 :=
  let out := ensure out (at_ + bytes.length)
  out.take at_ ++ bytes ++ out.drop (at_ + bytes.length)

/-- `pack_str`. -/
def packStr (src : List UInt8) (count : Int) (flags : Flags) : List UInt8 :=
  let pad : UInt8 := if flags.a || flags.z then 0 else 32
  if count = 0 then []
  else if count = -1 then src ++ if flags.z then [pad] else []
  else if count < src.length then src.take count.toNat
  else src ++ List.replicate (count.toNat - src.length) pad

/-- What a directive writes of an item. -/
def packItem {Item : Type} (items : Items Item) (sp : Spec) (count : Int)
    (o : Item) : Except Refused (List UInt8) :=
  match sp.ty with
  | .string =>
      (items.bytes o).map fun src =>
        match sp.dir with
        | .str => packStr src count sp.flags
        | .hex => packHex src count sp.flags.lsb
        | .bstr => packBstr src count sp.flags.lsb
        | .base64 => packBase64 src count
        | .uu => packUu src count
        | .qenc => packQenc src count
        | _ => []
  | _ => items.number sp o

/-- The items of one directive: what is written, the position behind it and the
items left. -/
def packItems {Item : Type} (items : Items Item) (sp : Spec) :
    Int → List UInt8 → Nat → List Item →
      Except Refused (List UInt8 × Nat × List Item)
  | _, out, ridx, [] => .ok (out, ridx, [])
  | count, out, ridx, o :: rest =>
      if count = 0 ∧ sp.flags.width = false then .ok (out, ridx, o :: rest)
      else
        match packItem items sp count o with
        | .error why => .error why
        | .ok bytes =>
            let out := putAt out ridx bytes
            let ridx := ridx + bytes.length
            if sp.flags.count2 then .ok (out, ridx, rest)
            else
              packItems items sp (if 0 < count then count - 1 else count)
                out ridx rest

/-- The loop of `pack`.  A directive takes a byte of the template, so its length
is fuel enough; a position is never negative. -/
def packFrom {Item : Type} (items : Items Item) (little : Bool) :
    Nat → List UInt8 → List UInt8 → Nat → List Item →
      Except Refused (List UInt8)
  | 0, _, out, ridx, _ => .ok (out.take ridx)
  | fuel + 1, t, out, ridx, left =>
      if t = [] then .ok (out.take ridx)
      else
        match readTmpl little false t with
        | .error why => .error why
        | .ok (sp, t) =>
            match sp.dir with
            | .none => .ok (out.take ridx)
            | .nul =>
                let ridx := ridx + sp.count.toNat
                packFrom items little fuel t (ensure out ridx) ridx left
            | .back =>
                if ridx < sp.count.toNat then
                  .error (.argument "X outside of string")
                else
                  packFrom items little fuel t out (ridx - sp.count.toNat) left
            | .abs =>
                packFrom items little fuel t (ensure out sp.count.toNat)
                  sp.count.toNat left
            | _ =>
                if sp.flags.width ∧ left = [] then
                  .error (.argument "too few arguments")
                else
                  match packItems items sp sp.count out ridx left with
                  | .error why => .error why
                  | .ok (out, ridx, left) =>
                      packFrom items little fuel t out ridx left

/-- `pack`. -/
def pack {Item : Type} (items : Items Item) (little : Bool)
    (list : List Item) (t : List UInt8) : Except Refused (List UInt8) :=
  packFrom items little t.length t [] 0 list

/-- What unpacking makes values with, and what a directive for numbers reads:
the values and the position behind them. -/
structure Values (V : Type) where
  str : List UInt8 → V
  numbers : Spec → List UInt8 → Int → Except Refused (List V × Int)

/-- White space and zeros, which `A` cuts off. -/
def isBlank (c : UInt8) : Bool := c = 0 || isSpace c

/-- `unpack_str`: the string and the bytes it takes. -/
def unpackStr (src : List UInt8) (count : Int) (flags : Flags) :
    List UInt8 × Nat :=
  let slen :=
    if count ≠ -1 ∧ count < src.length then count.toNat else src.length
  if flags.z then
    let copied := (src.take slen).takeWhile (· ≠ 0)
    if copied.length < slen ∧ count = -1 then (copied, copied.length + 1)
    else (copied, slen)
  else if flags.a then (src.take slen, slen)
  else (((src.take slen).reverse.dropWhile isBlank).reverse, slen)

/-- The string a directive for strings reads. -/
def unpackText (sp : Spec) (src : List UInt8) : Option (List UInt8) :=
  match sp.dir with
  | .hex => some (unpackHex src sp.count sp.flags.lsb)
  | .bstr => some (unpackBstr src sp.count sp.flags.lsb)
  | .str => some (if src = [] then [] else (unpackStr src sp.count sp.flags).1)
  | .base64 => some (unpackBase64 src)
  | .uu => some (unpackUu src)
  | .qenc => some (unpackQenc src)
  | _ => none

/-- The loop of `unpack` for a single value: a string ends it, the values of
directives for numbers are kept.  A directive takes a byte of the template, so
its length is fuel enough. -/
def unpack1From {V : Type} (values : Values V) (little : Bool)
    (src : List UInt8) :
    Nat → List UInt8 → Int → List V → Except Refused (Option V)
  | 0, _, _, out => .ok out.head?
  | fuel + 1, t, srcidx, out =>
      if t = [] then .ok out.head?
      else
        match readTmpl little false t with
        | .error why => .error why
        | .ok (sp, t) =>
            match sp.dir with
            | .none => .ok out.head?
            | .nul =>
                if src.length - srcidx < sp.count then
                  .error (.argument "x outside of string")
                else
                  unpack1From values little src fuel t (srcidx + sp.count) out
            | .back =>
                if srcidx < sp.count then
                  .error (.argument "X outside of string")
                else
                  unpack1From values little src fuel t (srcidx - sp.count) out
            | .abs =>
                if src.length < sp.count then
                  .error (.argument "@ outside of string")
                else unpack1From values little src fuel t sp.count out
            | _ =>
                match unpackText sp
                    (src.drop (max 0 (min srcidx src.length)).toNat) with
                | some text => .ok (out ++ [values.str text]).head?
                | none =>
                    match values.numbers sp src srcidx with
                    | .error why => .error why
                    | .ok (found, srcidx) =>
                        unpack1From values little src fuel t srcidx
                          (out ++ found)

/-- `unpack1`. -/
def unpack1 {V : Type} (values : Values V) (little : Bool)
    (src t : List UInt8) : Except Refused (Option V) :=
  unpack1From values little src t.length t 0 []

/-! ## One directive for a string -/

theorem putAt_start (bytes : List UInt8) : putAt [] 0 bytes = bytes := by
  rw [putAt]
  simp [ensure]

/-- The directives for strings. -/
def Dir.texts : Dir → Bool
  | .str | .hex | .bstr | .base64 | .uu | .qenc => true
  | _ => false

/-- A template of one directive for strings packs the one string. -/
theorem pack_text
    (read : readTmpl little false t = .ok (sp, []))
    (texts : sp.dir.texts = true)
    (counts : sp.flags.count2 = true)
    (taken : ¬ (sp.count = 0 ∧ sp.flags.width = false))
    (string : packItem items sp sp.count o = .ok src) :
    pack items little [o] t = .ok src := by
  cases t with
  | nil =>
      cases read
      cases texts
  | cons c t =>
      have written : packItems items sp sp.count [] 0 [o] =
          .ok (src, src.length, []) := by
        rw [packItems, if_neg taken, string]
        dsimp only
        rw [if_pos counts, putAt_start, Nat.zero_add]
      have finish : packFrom items little t.length [] src src.length [] =
          .ok src := by
        cases t with
        | nil => rw [List.length_nil, packFrom, List.take_length]
        | cons d t =>
            rw [List.length_cons, packFrom, if_pos rfl, List.take_length]
      rw [pack, List.length_cons, packFrom, if_neg (List.cons_ne_nil _ _), read]
      dsimp only
      split
      case h_5 =>
        rw [if_neg fun both => List.cons_ne_nil _ _ both.2, written]
        exact finish
      all_goals
        rename_i dir
        rw [dir] at texts
        cases texts

/-- A template of one directive for strings reads the string at the beginning. -/
theorem unpack1_text
    (read : readTmpl little false t = .ok (sp, rest))
    (found : unpackText sp src = some text) :
    unpack1 values little src t = .ok (some (values.str text)) := by
  cases t with
  | nil =>
      cases read
      cases found
  | cons c t =>
      rw [unpack1, List.length_cons, unpack1From,
        if_neg (List.cons_ne_nil _ _), read]
      have start : src.drop (max 0 (min 0 (src.length : Int))).toNat = src := by
        have zero : (max 0 (min 0 (src.length : Int))).toNat = 0 := by omega
        rw [zero, List.drop_zero]
      dsimp only
      split
      case h_5 =>
        rw [start, found]
        rfl
      all_goals
        rename_i dir
        rw [unpackText, dir] at found
        cases found

end SabiRuby.Packing
