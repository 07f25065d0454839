import SabiRuby.HashTable.Keys
import SabiRuby.SetTable.Algorithm

/-!
# Native elements

An element that is an Integer, Symbol, Float or String is hashed and compared
without Ruby.  Two elements are the same when their contents are, except that a
NaN is the same as nothing, itself included.
-/

namespace SabiRuby.SetTable

open Library HashTable

/-- A stored native element is the same as another value. -/
def ksetSame (heap : Heap) (stored key : Value) : Bool :=
  match stored with
  | .sym _ => stored.eq key
  | .int _ => stored.eq key
  | .float x =>
      match key with
      | .float y => x.eq y
      | _ => false
  | .obj x =>
      match heap.string x, key with
      | some bytes, .obj y => heap.string y == some bytes
      | _, _ => false
  | _ => false

/-- The content of a native element. -/
abbrev elementContent (heap : Heap) (key : Value) : KeyContent :=
  content id heap key

/-- The hash code of a native element. -/
def elementCode (heap : Heap) (key : Value) : Nat :=
  (elementContent heap key).code fun _ => 0

/-- The value is a Float that is not a number. -/
def isNanValue : Value → Bool
  | .float number => number.isNan
  | _ => false

theorem eq_iff_of_not_isNan
    (number : left.isNan = false)
    (right : F64) :
    left.eq right = true ↔ keyBits left = keyBits right := by
  rw [← floatEql_iff]
  have reflexive : left.eq left = true := by
    simp [F64.eq, number]
  simp [floatEql, reflexive]

/-- A native element is the same as the values of its content, unless it is a
NaN. -/
theorem ksetSame_iff
    (native : isNative heap stored = true)
    (key : Value) :
    ksetSame heap stored key = true ↔
      elementContent heap stored = elementContent heap key ∧
        isNanValue stored = false := by
  cases stored with
  | nil => simp [isNative, nativeBytes] at native
  | falseValue => simp [isNative, nativeBytes] at native
  | trueValue => simp [isNative, nativeBytes] at native
  | int number =>
      rw [show ksetSame heap (.int number) key = (Value.int number).eq key
        from rfl, Value.int_eq_iff]
      cases key with
      | obj other =>
          cases held : heap.string other <;>
            simp [content, held, isNanValue]
      | int other => simp [content, isNanValue, eq_comm]
      | _ => simp [content]
  | sym symbol =>
      rw [show ksetSame heap (.sym symbol) key = (Value.sym symbol).eq key
        from rfl, Value.sym_eq_iff]
      cases key with
      | obj other =>
          cases held : heap.string other <;>
            simp [content, held, isNanValue]
      | sym other => simp [content, isNanValue, eq_comm]
      | _ => simp [content]
  | float number =>
      cases nan : number.isNan with
      | true =>
          cases key <;> simp [ksetSame, isNanValue, nan, F64.eq]
      | false =>
          cases key with
          | float other =>
              simp [ksetSame, isNanValue, nan, content,
                eq_iff_of_not_isNan nan]
          | obj other =>
              cases held : heap.string other <;>
                simp [ksetSame, content, held]
          | _ => simp [ksetSame, content]
  | obj object =>
      rw [isNative_obj, Option.isSome_iff_exists] at native
      obtain ⟨bytes, text⟩ := native
      cases key with
      | obj other =>
          cases held : heap.string other with
          | none => simp [ksetSame, content, text, held]
          | some others =>
              simp only [ksetSame, content, text, held, isNanValue, and_true,
                KeyContent.string.injEq, beq_iff_eq, Option.some.injEq]
              exact eq_comm
      | _ => simp [ksetSame, content, text]

section Calls

variable {ω : Type} {vm : Vm ω}

/-- Comparing a native element calls nothing. -/
theorem ksetEqual_native
    (callbacks : Callbacks ω)
    (native : isNative vm.heap stored = true)
    (key : Value) :
    ksetEqual callbacks stored key vm =
      .ok (ksetSame vm.heap stored key) vm := by
  cases stored with
  | nil => simp [isNative, nativeBytes] at native
  | falseValue => simp [isNative, nativeBytes] at native
  | trueValue => simp [isNative, nativeBytes] at native
  | int number => rfl
  | sym symbol => rfl
  | float number => cases key <;> rfl
  | obj object =>
      rw [isNative_obj, Option.isSome_iff_exists] at native
      obtain ⟨bytes, text⟩ := native
      cases key <;>
        simp [ksetEqual, ksetSame, text, bind, EStateM.bind, Exec.get_apply,
          pure, EStateM.pure]

/-- Hashing a native element calls nothing. -/
theorem ksetHash_native
    (callbacks : Callbacks ω)
    (native : isNative vm.heap key = true) :
    ksetHash callbacks key vm = .ok (elementCode vm.heap key) vm := by
  cases key with
  | nil => simp [isNative, nativeBytes] at native
  | falseValue => simp [isNative, nativeBytes] at native
  | trueValue => simp [isNative, nativeBytes] at native
  | int number => rfl
  | sym symbol => rfl
  | float number =>
      have coded : elementCode vm.heap (.float number) =
          (mix (floatCode number)).toNat := by
        rw [floatCode_eq]
        rfl
      rw [coded]
      rfl
  | obj object =>
      rw [isNative_obj, Option.isSome_iff_exists] at native
      obtain ⟨bytes, text⟩ := native
      simp [ksetHash, hCodeUnchecked, elementCode, content, KeyContent.code,
        text, bind, EStateM.bind, Exec.get_apply, pure, EStateM.pure]

end Calls

/-- The same element has the same code. -/
theorem elementCode_eq
    (native : isNative heap stored = true)
    (same : ksetSame heap stored key = true) :
    elementCode heap stored = elementCode heap key := by
  unfold elementCode
  rw [((ksetSame_iff native key).mp same).1]

end SabiRuby.SetTable
