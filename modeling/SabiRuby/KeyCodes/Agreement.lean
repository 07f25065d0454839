import SabiRuby.KeyCodes.Builtins
import SabiRuby.HashTable.Keys
import SabiRuby.Integer.Exactness
import Mathlib.Data.List.Perm.Subperm

/-!
# Where equal keys have one hash code

Two keys that are `eql?` have the same code unless the hash reads something that
the comparison passes over.  There are three such places: `Time#hash` reads the
zone flag; a Struct or Data instance is compared member by member but hashed by
its identity; and a Set is hashed by the identity of its nested elements and by
the sign of a zero.
-/

namespace SabiRuby.KeyCodes

open HashTable SetTable Integer

/-- What `Object#hash` reads of a value. -/
inductive Content
  | text (bytes : List UInt8)
  | wide (number : BigInt)
  | named (tag : UInt32) (handle : UInt64)
  /-- A value that is hashed by its own word. -/
  | itself (word : Value)
  deriving DecidableEq

/-- The content of a value. -/
def content (heap : Heap) : Value → Content
  | .obj object =>
      match heap object with
      | .string bytes => .text bytes
      | .bigInt number => .wide number.value
      | .data tag handle => .named tag handle
      | _ => .itself (.obj object)
  | word => .itself word

/-- The hash of a content. -/
def Content.hash : Content → Int64
  | .text bytes => fnv bytes
  | .wide number => fnv (hashBytes number)
  | .named tag handle => fnv (limbBytes tag ++ leBytes handle)
  | .itself (.obj object) => identityHash object
  | .itself word => valueHash (fun _ => .string []) word

theorem valueHash_eq (heap : Heap) (v : Value) :
    valueHash heap v = (content heap v).hash := by
  cases v with
  | obj object =>
      simp only [valueHash, content]
      cases heap object <;> rfl
  | _ => rfl

/-- What the comparison of two keys finds alike at least. -/
def KindPaired : ObjKind → ObjKind → Prop
  | .string bytes, .string bytes' => bytes = bytes'
  | .bigInt number, .bigInt number' => number.value = number'.value
  | .data tag handle, .data tag' handle' => tag = tag' ∧ handle = handle'
  | .time sec nsec _, .time sec' nsec' _ => sec = sec' ∧ nsec = nsec'
  | .set _, .set _ => True
  | .struct _ _, .struct _ _ => True
  | .record _ _, .record _ _ => True
  | _, _ => False

/-- Two values that a comparison can find to be the same key. -/
def Paired (heap : Heap) : Value → Value → Prop
  | .float p, .float q => keyBits p = keyBits q
  | .obj x, .obj y => KindPaired (heap x) (heap y)
  | a, b => a = b

theorem KindPaired.refl (kind : ObjKind) : KindPaired kind kind := by
  cases kind <;> simp [KindPaired]

@[simp] theorem paired_self (heap : Heap) (a : Value) : Paired heap a a := by
  cases a with
  | float p => exact rfl
  | obj x => exact KindPaired.refl _
  | _ => exact rfl

theorem paired_obj_iff (heap : Heap) (x y : ObjId) :
    Paired heap (.obj x) (.obj y) ↔ KindPaired (heap x) (heap y) := Iff.rfl

/-- The hash of what two keys have in common does not tell them apart: Times have
one zone flag, Struct and Data instances one identity as far as a code keeps it,
and Sets hold the same contents. -/
def Alike (heap : Heap) : Value → Value → Prop
  | .obj x, .obj y =>
      match heap x, heap y with
      | .time _ _ utc, .time _ _ utc' => utc = utc'
      | .set table, .set other =>
          List.Perm ((elements table).map (content heap))
            ((elements other).map (content heap))
      | .struct _ _, .struct _ _ => x.index % 2 ^ 29 = y.index % 2 ^ 29
      | .record _ _, .record _ _ => x.index % 2 ^ 29 = y.index % 2 ^ 29
      | _, _ => True
  | _, _ => True

/-- The value is a Set. -/
def IsSet (heap : Heap) : Value → Prop
  | .obj x =>
      match heap x with
      | .set _ => True
      | _ => False
  | _ => False

/-! ## What the comparisons find -/

theorem KindPaired.symm
    (paired : KindPaired kind other) : KindPaired other kind := by
  cases kind <;> cases other <;> simp_all [KindPaired]

variable {heap : Heap}

theorem Paired.symm
    (paired : Paired heap a b) : Paired heap b a := by
  cases a with
  | float p =>
      cases b with
      | float q => exact Eq.symm paired
      | _ => cases paired
  | obj x =>
      cases b with
      | obj y => exact KindPaired.symm paired
      | _ => cases paired
  | _ => cases b <;> exact Eq.symm paired

theorem paired_of_eq
    (same : a.eq b = true) : Paired heap a b := by
  cases a with
  | float p =>
      cases b with
      | float q =>
          apply (floatEql_iff p q).mp
          unfold floatEql
          rw [show p.eq q = true from same, Bool.true_or]
      | _ => simp [Value.eq] at same
  | obj x =>
      cases b with
      | obj y =>
          have equal : x = y := by simpa [Value.eq] using same
          rw [equal]
          exact paired_self heap _
      | _ => simp [Value.eq] at same
  | _ =>
      cases b <;> simp_all [Value.eq, Paired]

theorem paired_of_sameValue
    (same : sameValue heap a b = true) : Paired heap a b := by
  unfold sameValue at same
  rw [Bool.or_eq_true] at same
  rcases same with same | named
  · exact paired_of_eq same
  · cases a with
    | obj x =>
        cases b with
        | obj y =>
            unfold dataOf at named
            unfold Paired
            cases xKind : heap x <;> cases yKind : heap y <;>
              simp_all [KindPaired]
        | _ => simp [dataOf] at named
    | _ => simp [dataOf] at named

variable {x : ObjId}

theorem paired_of_strBytes
    (isString : heap x = .string bytes)
    (same : (strBytes heap b == some bytes) = true) :
    Paired heap (.obj x) b := by
  have held : strBytes heap b = some bytes := by simpa using same
  cases b with
  | obj y =>
      unfold strBytes at held
      unfold Paired
      cases yKind : heap y <;> simp_all [KindPaired]
  | _ => simp [strBytes] at held

/-- A comparison that finds two numbers equal finds them the same. -/
theorem eq_of_cmp
    {a b : BigInt}
    (aFormed : a.WellFormed)
    (bFormed : b.WellFormed)
    (same : a.cmp b = .eq) : a = b := by
  rw [BigInt.cmp_eq_compare aFormed bFormed, Int.compare_eq_eq] at same
  exact aFormed.eq_of_toInt bFormed same

/-- A wide Integer is equal to wide Integers only. -/
theorem paired_of_bigIntEql
    (isWide : heap x = .bigInt number)
    (same : bigIntEql heap number.value b = true) :
    Paired heap (.obj x) b := by
  cases b with
  | int q =>
      have equal := eq_of_cmp number.formed (BigInt.wellFormed_fromI64 q)
        (by simpa [bigIntEql] using same)
      have fits := (BigInt.wellFormed_fromI64 q).toI64_eq
      rw [BigInt.toInt_fromI64, if_pos (BigInt.fitsI64_toInt q), ← equal,
        number.wide] at fits
      cases fits
  | obj y =>
      simp only [bigIntEql] at same
      cases yKind : heap y with
      | bigInt other =>
          rw [paired_obj_iff, isWide, yKind]
          apply eq_of_cmp number.formed other.formed
          simpa [yKind] using same
      | _ => simp [yKind] at same
  | _ => simp [bigIntEql] at same

theorem paired_of_setEqual
    (isSet : heap x = .set table)
    (same : setEqual heap send x table b = some true) :
    Paired heap (.obj x) b := by
  cases b with
  | obj y =>
      simp only [setEqual] at same
      by_cases identical : x = y
      · rw [identical]
        exact paired_self heap _
      · rw [if_neg identical] at same
        cases yKind : heap y with
        | set other =>
            rw [paired_obj_iff, isSet, yKind]
            trivial
        | _ => simp [yKind] at same
  | _ => simp [setEqual] at same

/-- An equality that is sent pairs its arguments. -/
theorem eqlMethod_paired
    {guard : List (ObjId × ObjId)}
    (same : eqlMethod heap depth guard a b = some true) : Paired heap a b := by
  cases depth with
  | zero => cases same
  | succ depth =>
      unfold eqlMethod at same
      cases a with
      | int p =>
          cases b with
          | int q =>
              have equal : p = q := by simpa using same
              rw [equal]
              exact paired_self heap _
          | _ => cases same
      | float p =>
          cases b with
          | float q =>
              apply paired_of_eq
              exact Option.some.inj same
          | _ => cases same
      | obj x =>
          simp only at same
          cases xKind : heap x with
          | string bytes =>
              rw [xKind] at same
              exact paired_of_strBytes xKind (Option.some.inj same)
          | bigInt number =>
              rw [xKind] at same
              exact paired_of_bigIntEql xKind (Option.some.inj same)
          | data tag handle =>
              rw [xKind] at same
              apply Paired.symm
              exact paired_of_sameValue (Option.some.inj same)
          | time sec nsec utc =>
              rw [xKind] at same
              cases b with
              | obj y =>
                  rw [paired_obj_iff, xKind]
                  cases yKind : heap y <;> simp_all [KindPaired]
              | _ => cases same
          | set table =>
              rw [xKind] at same
              exact paired_of_setEqual xKind same
          | struct realClass values | record realClass values =>
              rw [xKind] at same
              cases b with
              | obj y =>
                  rw [paired_obj_iff, xKind]
                  by_cases identical : x = y
                  · rw [← identical, xKind]
                    trivial
                  · cases yKind : heap y <;> simp_all [KindPaired]
              | _ => cases same
      | _ =>
          apply Paired.symm
          exact paired_of_sameValue (Option.some.inj same)

theorem mrbEql_paired
    (sound : send a b = some true → Paired heap a b)
    (same : mrbEql heap send a b = some true) : Paired heap a b := by
  unfold mrbEql at same
  by_cases identical : sameWord a b = true
  · rw [(sameWord_iff a b).mp identical]
    exact paired_self heap b
  · rw [if_neg identical] at same
    have general
        (asked : (if eqlBasic heap a then some (sameValue heap a b)
          else send a b) = some true) : Paired heap a b := by
      by_cases basic : eqlBasic heap a = true
      · rw [if_pos basic] at asked
        exact paired_of_sameValue (Option.some.inj asked)
      · rw [if_neg basic] at asked
        exact sound asked
    cases a with
    | int p => exact paired_of_eq (Option.some.inj same)
    | float p => exact paired_of_eq (Option.some.inj same)
    | obj x =>
        simp only at same
        cases held : strBytes heap (.obj x) with
        | none =>
            rw [held] at same
            exact general same
        | some bytes =>
            rw [held] at same
            have isString : heap x = .string bytes := by
              unfold strBytes at held
              cases xKind : heap x <;> simp_all
            exact paired_of_strBytes isString (Option.some.inj same)
    | _ => exact general same

theorem ksetEqual_paired
    (sound : send a b = some true → Paired heap a b)
    (same : ksetEqual heap send a b = some true) : Paired heap a b := by
  unfold ksetEqual at same
  cases a with
  | int p => exact paired_of_eq (Option.some.inj same)
  | sym s => exact paired_of_eq (Option.some.inj same)
  | float p =>
      cases b with
      | float q => exact paired_of_eq (Option.some.inj same)
      | _ => cases same
  | obj x =>
      simp only at same
      cases held : strBytes heap (.obj x) with
      | none =>
          rw [held] at same
          exact mrbEql_paired sound same
      | some bytes =>
          rw [held] at same
          have isString : heap x = .string bytes := by
            unfold strBytes at held
            cases xKind : heap x <;> simp_all
          exact paired_of_strBytes isString (Option.some.inj same)
  | _ => exact mrbEql_paired sound same

theorem hObjEql_paired
    (sound : send a b = some true → Paired heap a b)
    (same : hObjEql heap send a b = some true) : Paired heap a b := by
  cases a with
  | float p =>
      cases b with
      | float q => exact (floatEql_iff p q).mp (Option.some.inj same)
      | _ => cases same
  | _ => exact ksetEqual_paired sound same

/-! ## What the codes tell apart -/

/-- The shift that a mix folds in can be taken out again. -/
theorem xor_shiftRight_cancel (h : UInt32) :
    (h ^^^ (h >>> 16)) ^^^ ((h ^^^ (h >>> 16)) >>> 16) = h := by
  apply UInt32.toBitVec_inj.mp
  apply BitVec.eq_of_getLsbD_eq
  intro i inside
  have outside := BitVec.getLsbD_of_ge h.toBitVec (16 + (16 + i)) (by omega)
  simp [outside]

theorem xor_shiftRight_injective
    {a b : UInt32}
    (same : a ^^^ (a >>> 16) = b ^^^ (b >>> 16)) : a = b := by
  rw [← xor_shiftRight_cancel a, same, xor_shiftRight_cancel]

/-- A factor that has an inverse can be taken out. -/
theorem eq_of_mul_eq
    {a b factor inverse : UInt32}
    (unit : factor * inverse = 1)
    (same : a * factor = b * factor) : a = b := by
  calc
    a = a * factor * inverse := by
      rw [UInt32.mul_assoc, unit, UInt32.mul_one]
    _ = b * factor * inverse := by rw [same]
    _ = b := by rw [UInt32.mul_assoc, unit, UInt32.mul_one]

/-- The mix loses nothing. -/
theorem mix_injective
    {a b : UInt32}
    (same : mix a = mix b) : a = b := by
  unfold mix at same
  apply xor_shiftRight_injective
  apply eq_of_mul_eq (show (0x45d9f3b : UInt32) * 295559667 = 1 by decide)
  exact xor_shiftRight_injective same

theorem xor_left_injective
    {a b mask : UInt32}
    (same : mask ^^^ a = mask ^^^ b) : a = b := by
  calc
    a = mask ^^^ (mask ^^^ a) := by
      rw [← UInt32.xor_assoc, UInt32.xor_self, UInt32.zero_xor]
    _ = mask ^^^ (mask ^^^ b) := by rw [same]
    _ = b := by rw [← UInt32.xor_assoc, UInt32.xor_self, UInt32.zero_xor]

@[simp] theorem intCode_toInt64 (word : UInt64) :
    intCode word.toInt64 = word.toUInt32 := by
  simp [intCode]

/-- The code of an object that is sent `hash`. -/
theorem keyCode_obj
    (notString : ∀ bytes, heap x ≠ .string bytes) :
    keyCode heap (.obj x) =
      mix (vtype (heap x) ^^^ intCode (hashMethod heap x)) := by
  simp only [keyCode]

theorem keyCode_eq_iff
    {x y : ObjId}
    (notString : ∀ bytes, heap x ≠ .string bytes)
    (sameType : vtype (heap x) = vtype (heap y))
    (notString' : ∀ bytes, heap y ≠ .string bytes) :
    keyCode heap (.obj x) = keyCode heap (.obj y) ↔
      intCode (hashMethod heap x) = intCode (hashMethod heap y) := by
  rw [keyCode_obj notString, keyCode_obj notString', sameType]
  constructor
  · intro same
    exact xor_left_injective (mix_injective same)
  · intro same
    rw [same]

/-- A code keeps the low 29 bits of an identity. -/
theorem identityHash_eq_iff (x y : ObjId) :
    intCode (identityHash x) = intCode (identityHash y) ↔
      x.index % 2 ^ 29 = y.index % 2 ^ 29 := by
  unfold identityHash
  rw [intCode_toInt64, intCode_toInt64, ← UInt32.toNat_inj]
  have one : UInt64.toNat 1 = 1 := rfl
  have eight : UInt64.toNat 8 = 8 := rfl
  simp only [UInt64.toNat_toUInt32, UInt64.toNat_mul, UInt64.toNat_add,
    UInt64.toNat_ofNat', one, eight]
  omega

/-- The low half of a hash after its last byte. -/
theorem fnvWord_concat (bytes : List UInt8) (b : UInt8) :
    (fnvWord (bytes ++ [b])).toUInt32 =
      ((fnvWord bytes).toUInt32 ^^^ b.toUInt32) * 0x1b3 := by
  unfold fnvWord
  rw [List.foldl_append, List.foldl_cons, List.foldl_nil, UInt64.toUInt32_mul,
    UInt64.toUInt32_xor]
  rw [UInt8.toUInt32_toUInt64]
  rfl

/-- The zone flag is the last byte that is hashed, and reaches the code. -/
theorem timeHash_eq_iff (sec nsec : Int64) (utc utc' : Bool) :
    intCode (timeHash sec nsec utc) = intCode (timeHash sec nsec utc') ↔
      utc = utc' := by
  constructor
  · intro same
    unfold timeHash at same
    rw [intCode_toInt64, intCode_toInt64, UInt32.toUInt32_toUInt64,
      UInt32.toUInt32_toUInt64, fnvWord_concat, fnvWord_concat] at same
    have bytes := xor_left_injective
      (eq_of_mul_eq (show (0x1b3 : UInt32) * 2952172923 = 1 by decide) same)
    cases utc <;> cases utc' <;> first | rfl | (revert bytes; decide)
  · intro same
    rw [same]

/-- The hash of a Set depends on the contents of its elements, in any order. -/
theorem setHash_eq
    (same : List.Perm ((elements table).map (content heap))
      ((elements other).map (content heap))) :
    setHash heap table = setHash heap other := by
  have parts (held : HashData) (h : UInt64) :
      (elements held).foldl
          (fun h e => h ^^^ elementHash (valueHash heap e)) h =
        ((elements held).map (content heap)).foldl
          (fun h c => h ^^^ elementHash c.hash) h := by
    rw [List.foldl_map]
    simp only [valueHash_eq]
  have lengths : table.len = other.len := by
    have equal := same.length_eq
    simpa [elements, HashData.len] using equal
  have folds (h : UInt64) :
      ((elements table).map (content heap)).foldl
          (fun h c => h ^^^ elementHash c.hash) h =
        ((elements other).map (content heap)).foldl
          (fun h c => h ^^^ elementHash c.hash) h := by
    apply same.foldl_eq'
    intro x _ y _ h
    rw [UInt64.xor_assoc, UInt64.xor_comm (elementHash x.hash),
      ← UInt64.xor_assoc]
  unfold setHash
  simp only [parts, lengths, folds]

/-- Two keys that a comparison pairs have one code if they are alike, and apart
from Sets only then. -/
theorem Paired.same_code_iff
    (paired : Paired heap a b)
    (notSet : ¬IsSet heap a) :
    keyCode heap a = keyCode heap b ↔ Alike heap a b := by
  cases a with
  | float p =>
      cases b with
      | float q =>
          have bits : keyBits p = keyBits q := paired
          simp only [keyCode, Alike, iff_true]
          rw [floatCode_eq, floatCode_eq, bits]
      | _ => cases paired
  | obj x =>
      cases b with
      | obj y =>
          rw [paired_obj_iff] at paired
          cases xKind : heap x <;> cases yKind : heap y <;>
            rw [xKind, yKind] at paired <;> try cases paired
          case string.string.refl bytes =>
            simp [keyCode, Alike, xKind, yKind]
          case bigInt.bigInt number other =>
            rw [keyCode_eq_iff (by simp [xKind]) (by simp [xKind, yKind, vtype])
              (by simp [yKind])]
            have same : number.value = other.value := paired
            simp [hashMethod, valueHash, Alike, xKind, yKind, same]
          case data.data.intro tag handle other otherHandle sameTag sameHandle =>
            rw [keyCode_eq_iff (by simp [xKind]) (by simp [xKind, yKind, vtype])
              (by simp [yKind])]
            simp [hashMethod, valueHash, Alike, xKind, yKind, sameTag,
              sameHandle]
          case time.time.intro sec nsec utc sec' nsec' utc' sameSec sameNsec =>
            rw [keyCode_eq_iff (by simp [xKind]) (by simp [xKind, yKind, vtype])
              (by simp [yKind])]
            simp only [hashMethod, Alike, xKind, yKind, ← sameSec, ← sameNsec]
            exact timeHash_eq_iff sec nsec utc utc'
          case set.set.intro => simp [IsSet, xKind] at notSet
          case struct.struct.intro =>
            rw [keyCode_eq_iff (by simp [xKind]) (by simp [xKind, yKind, vtype])
              (by simp [yKind])]
            simp only [hashMethod, valueHash, Alike, xKind, yKind]
            exact identityHash_eq_iff x y
          case record.record.intro =>
            rw [keyCode_eq_iff (by simp [xKind]) (by simp [xKind, yKind, vtype])
              (by simp [yKind])]
            simp only [hashMethod, valueHash, Alike, xKind, yKind]
            exact identityHash_eq_iff x y
      | _ => cases paired
  | _ =>
      have equal : _ = b := paired
      rw [← equal]
      simp [Alike]

/-- Two Sets that hold the same contents have one code. -/
theorem Paired.same_code_of_alike
    (paired : Paired heap a b)
    (alike : Alike heap a b) : keyCode heap a = keyCode heap b := by
  by_cases isSet : IsSet heap a
  · cases a with
    | obj x =>
        cases b with
        | obj y =>
            rw [paired_obj_iff] at paired
            cases xKind : heap x with
            | set table =>
                cases yKind : heap y with
                | set other =>
                    rw [keyCode_eq_iff (by simp [xKind])
                      (by simp [xKind, yKind, vtype]) (by simp [yKind])]
                    simp only [Alike, xKind, yKind] at alike
                    simp only [hashMethod, xKind, yKind, setHash_eq alike]
                | _ => simp [KindPaired, xKind, yKind] at paired
            | _ => simp [IsSet, xKind] at isSet
        | _ => cases paired
    | _ => cases isSet
  · exact (paired.same_code_iff isSet).mpr alike

/-! ## Sets of plain values -/

section Membership

variable {heap : Heap} {send : Value → Value → Option Bool}
variable (sound : ∀ a b, send a b = some true → Paired heap a b)

include sound

end Membership

/-! ## Equal keys and their codes -/

/-- A lookup, a Set or a call of `eql?` finds the two values to be one key. -/
def Eql (heap : Heap) (a b : Value) : Prop :=
  ∃ depth,
    hObjEql heap (eqlMethod heap depth []) a b = some true ∨
      ksetEqual heap (eqlMethod heap depth []) a b = some true ∨
      eqlMethod heap depth [] a b = some true

theorem Eql.paired
    (same : Eql heap a b) : Paired heap a b := by
  obtain ⟨depth, asked | stored | sent⟩ := same
  · exact hObjEql_paired eqlMethod_paired asked
  · exact ksetEqual_paired eqlMethod_paired stored
  · exact eqlMethod_paired sent

/-- A heap of two instances of one Struct class, both with the member 1. -/
def twoPoints : Heap
  | ⟨1⟩ => .struct ⟨0⟩ [.int 1]
  | ⟨2⟩ => .struct ⟨0⟩ [.int 1]
  | _ => .string []

theorem twoPoints_eql : Eql twoPoints (.obj ⟨1⟩) (.obj ⟨2⟩) :=
  ⟨2, Or.inr (Or.inr (by decide +kernel))⟩

end SabiRuby.KeyCodes
