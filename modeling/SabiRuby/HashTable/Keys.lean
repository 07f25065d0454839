import SabiRuby.HashTable.Algorithm
import SabiRuby.Library.AssociationList

/-!
# What keys are compared and hashed by

A key that no Ruby answers for is compared and hashed by its content: a number,
a symbol, the bits of a Float with one zero, or the bytes of a String.  Every
other key has the content of a representative of the keys it is `eql?` to.  Two
keys are the same key exactly when their contents are equal.
-/

namespace SabiRuby.HashTable

open Library

/-- What a key is compared by. -/
inductive KeyContent
  | int (number : Int64)
  | sym (symbol : Sym)
  | float (bits : UInt64)
  | string (bytes : List UInt8)
  /-- A key whose `hash` and `eql?` are asked for. -/
  | custom (representative : Value)
  deriving DecidableEq, Repr

/-- The bits a Float key is compared by: the two zeros have the same. -/
def keyBits (number : F64) : UInt64 :=
  if number.isZero then 0 else number.bits

/-- The content of a key, given the representative of each key that is asked. -/
def content (representative : Value → Value) (heap : Heap) :
    Value → KeyContent
  | .int number => .int number
  | .sym symbol => .sym symbol
  | .float number => .float (keyBits number)
  | .obj object =>
      match heap.string object with
      | some bytes => .string bytes
      | none => .custom (representative (.obj object))
  | key => .custom (representative key)

/-- The code of a content, given the codes of the representatives. -/
def KeyContent.code (customCode : Value → Nat) : KeyContent → Nat
  | .int number => (mix (intCode number)).toNat
  | .sym symbol => (mix symbol.number).toNat
  | .float bits => (mix (byteHash (leBytes bits))).toNat
  | .string bytes => (mix (byteHash bytes)).toNat
  | .custom representative => customCode representative

/-- No Ruby takes part in comparing and hashing the key. -/
def isNative (heap : Heap) (key : Value) : Bool :=
  (nativeBytes heap key).isSome

/-- The key is sent `hash`. -/
def asksHash (heap : Heap) : Value → Bool
  | .obj object => (heap.string object).isNone
  | _ => false

/-- How many calls it takes to hash a key. -/
def hashCalls (heap : Heap) (key : Value) : Nat :=
  if asksHash heap key then 1 else 0

/-- How many calls it takes to hash the keys of a list of entries. -/
def rebuildCalls (heap : Heap) : List Entry → Nat
  | [] => 0
  | entry :: entries => hashCalls heap entry.1 + rebuildCalls heap entries

/-! ## Floats -/

theorem isZero_iff (number : F64) :
    number.isZero = true ↔ number.magnitude = 0 := by
  simp [F64.isZero]

theorem not_isNan_of_isZero
    (zero : F64.isZero number = true) : number.isNan = false := by
  rw [isZero_iff] at zero
  simp [F64.isNan, zero]

theorem zero_isZero : F64.zero.isZero = true := by decide

theorem isZero_of_bits_eq_zero
    (zero : F64.bits number = 0) : number.isZero = true := by
  simp [isZero_iff, F64.magnitude, zero]

theorem keyBits_eq_iff (left right : F64) :
    keyBits left = keyBits right ↔
      left.bits = right.bits ∨
        (left.isZero = true ∧ right.isZero = true) := by
  unfold keyBits
  by_cases leftZero : left.isZero = true
  · by_cases rightZero : right.isZero = true
    · simp [leftZero, rightZero]
    · simp only [leftZero, rightZero, if_true, if_false, and_false, or_false,
        Bool.false_eq_true]
      constructor
      · intro same
        exact absurd (isZero_of_bits_eq_zero same.symm) rightZero
      · intro same
        refine absurd ?_ rightZero
        rw [isZero_iff] at leftZero ⊢
        unfold F64.magnitude at leftZero ⊢
        rw [← same, leftZero]
  · by_cases rightZero : right.isZero = true
    · simp only [leftZero, rightZero, if_true, if_false, false_and, or_false,
        Bool.false_eq_true]
      constructor
      · intro same
        exact absurd (isZero_of_bits_eq_zero same) leftZero
      · intro same
        refine absurd ?_ leftZero
        rw [isZero_iff] at rightZero ⊢
        unfold F64.magnitude at rightZero ⊢
        rw [same, rightZero]
    · simp [leftZero, rightZero]

/-- Two Floats are the same key exactly when they are compared by the same
bits. -/
theorem floatEql_iff (left right : F64) :
    floatEql left right = true ↔ keyBits left = keyBits right := by
  rw [keyBits_eq_iff]
  unfold floatEql F64.eq
  by_cases leftNan : left.isNan = true
  · have leftZero : left.isZero = false := by
      by_contra zero
      rw [Bool.not_eq_false] at zero
      simp [not_isNan_of_isZero zero] at leftNan
    simp [leftNan, leftZero]
  · by_cases rightNan : right.isNan = true
    · have rightZero : right.isZero = false := by
        by_contra zero
        rw [Bool.not_eq_false] at zero
        simp [not_isNan_of_isZero zero] at rightNan
      have different : left.bits ≠ right.bits := by
        intro same
        apply leftNan
        unfold F64.isNan F64.magnitude at rightNan ⊢
        rw [same]
        exact rightNan
      simp [leftNan, rightNan, rightZero, different]
    · simp [leftNan, rightNan]

theorem floatCode_eq (number : F64) :
    floatCode number = byteHash (leBytes (keyBits number)) := by
  have zeroNan : F64.zero.isNan = false := not_isNan_of_isZero zero_isZero
  unfold floatCode keyBits
  congr 2
  by_cases zero : number.isZero = true
  · have same : number.eq F64.zero = true := by
      simp [F64.eq, zero, not_isNan_of_isZero zero, zeroNan, zero_isZero]
    rw [if_pos same, if_pos zero]
    rfl
  · have different : number.bits ≠ F64.zero.bits := by
      intro same
      exact zero (isZero_of_bits_eq_zero same)
    simp [F64.eq, zero, different]

/-! ## Native keys -/

variable {representative : Value → Value} {heap : Heap}

theorem isNative_obj (heap : Heap) (object : ObjId) :
    isNative heap (.obj object) = (heap.string object).isSome := by
  simp [isNative, nativeBytes]

theorem hashCalls_of_isNative
    (native : isNative heap key = true) : hashCalls heap key = 0 := by
  cases key with
  | obj object =>
      rw [isNative_obj, Option.isSome_iff_exists] at native
      obtain ⟨bytes, held⟩ := native
      simp [hashCalls, asksHash, held]
  | _ => rfl

/-- The code of a native key is the code of its content. -/
theorem nativeCode_eq
    (native : isNative heap key = true)
    (representative : Value → Value)
    (customCode : Value → Nat) :
    nativeCode heap key =
      some ((content representative heap key).code customCode) := by
  cases key with
  | int number => rfl
  | sym symbol => rfl
  | float number =>
      simp [nativeCode, content, KeyContent.code, floatCode_eq]
  | obj object =>
      rw [isNative_obj, Option.isSome_iff_exists] at native
      obtain ⟨bytes, held⟩ := native
      simp [nativeCode, content, KeyContent.code, held]
  | nil => simp [isNative, nativeBytes] at native
  | falseValue => simp [isNative, nativeBytes] at native
  | trueValue => simp [isNative, nativeBytes] at native

theorem nativeCode_eq_none
    (custom : isNative heap key = false) : nativeCode heap key = none := by
  cases key with
  | int number => simp [isNative, nativeBytes] at custom
  | sym symbol => simp [isNative, nativeBytes] at custom
  | float number => simp [isNative, nativeBytes] at custom
  | obj object =>
      rw [isNative_obj, Option.isSome_eq_false_iff,
        Option.isNone_iff_eq_none] at custom
      simp [nativeCode, custom]
  | nil => rfl
  | falseValue => rfl
  | trueValue => rfl

/-- A native key is compared with a stored one by content. -/
theorem nativeEql_eq
    (native : nativeBytes heap key = some bytes)
    (stored : Value) :
    nativeEql heap key bytes stored =
      decide (content representative heap stored =
        content representative heap key) := by
  rw [Bool.eq_iff_iff, decide_eq_true_eq]
  cases key with
  | int number =>
      rw [show nativeEql heap (.int number) bytes stored =
        (Value.int number).eq stored from rfl, Value.int_eq_iff]
      cases stored with
      | obj other => cases held : heap.string other <;> simp [content, held]
      | _ => simp [content]
  | sym symbol =>
      rw [show nativeEql heap (.sym symbol) bytes stored =
        (Value.sym symbol).eq stored from rfl, Value.sym_eq_iff]
      cases stored with
      | obj other => cases held : heap.string other <;> simp [content, held]
      | _ => simp [content]
  | float number =>
      cases stored with
      | float other =>
          simp only [nativeEql, content, KeyContent.float.injEq,
            floatEql_iff]
          exact eq_comm
      | obj other =>
          cases held : heap.string other <;>
            simp [nativeEql, content, held]
      | _ => simp [nativeEql, content]
  | obj object =>
      cases text : heap.string object with
      | none => simp [nativeBytes, text] at native
      | some own =>
          have sameBytes : bytes = some own := by
            simpa [nativeBytes, text, eq_comm] using native
          subst sameBytes
          cases stored with
          | obj other =>
              cases held : heap.string other <;>
                simp [nativeEql, content, text, held]
          | _ => simp [nativeEql, content, text]
  | nil => simp [nativeBytes] at native
  | falseValue => simp [nativeBytes] at native
  | trueValue => simp [nativeBytes] at native

/-! ## Growing heaps -/

/-- The key is an immediate or the handle of an object of the heap. -/
def ValidKey (heap : Heap) : Value → Prop
  | .obj object => object.index < heap.length
  | _ => True

/-- A native key is a value of the heap. -/
theorem validKey_of_isNative
    (native : isNative heap key = true) : ValidKey heap key := by
  cases key with
  | obj object =>
      rw [isNative_obj, Option.isSome_iff_exists] at native
      obtain ⟨bytes, held⟩ := native
      show object.index < heap.length
      by_contra past
      simp [Heap.string, List.getElem?_eq_none (Nat.not_lt.mp past)] at held
  | _ => trivial

theorem getElem?_of_extends
    (grown : earlier <+: later)
    (bound : index < earlier.length) :
    later[index]? = earlier[index]? := by
  obtain ⟨more, rfl⟩ := grown
  exact List.getElem?_append_left bound

variable {earlier later : Heap}

section

variable (grown : earlier <+: later)
include grown

theorem string_of_extends
    (valid : ValidKey earlier (.obj object)) :
    later.string object = earlier.string object := by
  unfold Heap.string
  rw [getElem?_of_extends grown valid]

/-- New heap objects leave the contents of the old keys. -/
theorem content_of_extends
    (valid : ValidKey earlier key) :
    content representative later key =
      content representative earlier key := by
  cases key with
  | obj object => simp only [content, string_of_extends grown valid]
  | _ => rfl

theorem isNative_of_extends
    (valid : ValidKey earlier key) :
    isNative later key = isNative earlier key := by
  cases key with
  | obj object => simp only [isNative_obj, string_of_extends grown valid]
  | _ => rfl

theorem ValidKey.of_extends
    (valid : ValidKey earlier key) : ValidKey later key := by
  cases key with
  | obj object => exact Nat.lt_of_lt_of_le valid grown.length_le
  | _ => trivial

theorem asksHash_of_extends
    (valid : ValidKey earlier key) :
    asksHash later key = asksHash earlier key := by
  cases key with
  | obj object => simp only [asksHash, string_of_extends grown valid]
  | _ => rfl

/-- New heap objects need no more calls to hash the old keys. -/
theorem rebuildCalls_of_extends
    (valid : ∀ entry ∈ entries, ValidKey earlier entry.1) :
    rebuildCalls later entries = rebuildCalls earlier entries := by
  induction entries with
  | nil => rfl
  | cons entry entries ih =>
      have own := valid entry List.mem_cons_self
      unfold rebuildCalls hashCalls
      rw [asksHash_of_extends grown own, ih]
      intro later member
      exact valid later (List.mem_cons_of_mem _ member)

end

/-- The key a new entry is stored under and the heap that holds it: an unfrozen
String is copied. -/
def storedKey (heap : Heap) (key : Value) : Value × Heap :=
  match key with
  | .obj object =>
      match heap.string object with
      | some bytes =>
          if heap.isFrozen object then (key, heap)
          else (.obj ⟨heap.length⟩,
            heap ++ [{ kind := .string bytes, frozen := true }])
      | none => (key, heap)
  | _ => (key, heap)

theorem hKeyFor_eq (key : Value) (vm : Vm ω) :
    hKeyFor key vm = .ok (storedKey vm.heap key).1
      { vm with heap := (storedKey vm.heap key).2 } := by
  cases key with
  | obj object =>
      simp only [hKeyFor, storedKey, bind, EStateM.bind, Exec.get_apply]
      cases vm.heap.string object with
      | none => rfl
      | some bytes =>
          cases frozen : vm.heap.isFrozen object with
          | true => simp [pure, EStateM.pure]
          | false => rfl
  | _ => rfl

theorem storedKey_extends (heap : Heap) (key : Value) :
    heap <+: (storedKey heap key).2 := by
  unfold storedKey
  split
  · split
    · split
      · exact List.prefix_refl _
      · exact List.prefix_append _ _
    · exact List.prefix_refl _
  · exact List.prefix_refl _

/-- The last object of a heap is the String it was extended by. -/
theorem string_append (heap : Heap) (bytes : List UInt8) (frozen : Bool) :
    Heap.string (heap ++ [{ kind := .string bytes, frozen := frozen }])
      ⟨heap.length⟩ = some bytes := by
  simp [Heap.string]

/-- The stored key has the content of the key. -/
theorem content_storedKey (heap : Heap) (key : Value) :
    content representative (storedKey heap key).2 (storedKey heap key).1 =
      content representative heap key := by
  unfold storedKey
  split
  · rename_i object
    split
    · rename_i bytes held
      split
      · rfl
      · simp only [content, string_append, held]
    · rfl
  · rfl

/-- The stored key is the key itself or a String. -/
theorem storedKey_cases (heap : Heap) (key : Value) :
    storedKey heap key = (key, heap) ∨
      isNative (storedKey heap key).2 (storedKey heap key).1 = true := by
  cases key with
  | obj object =>
      cases held : heap.string object with
      | none => simp [storedKey, held]
      | some bytes =>
          cases frozen : heap.isFrozen object with
          | true => simp [storedKey, held, frozen]
          | false =>
              right
              simp [storedKey, held, frozen, isNative_obj, string_append]
  | _ => exact Or.inl rfl

theorem validKey_storedKey
    (valid : ValidKey heap key) :
    ValidKey (storedKey heap key).2 (storedKey heap key).1 := by
  unfold storedKey
  split
  · split
    · split
      · exact valid
      · simp [ValidKey]
    · exact valid
  · exact valid

/-- The only new object of the heap is a String. -/
theorem validKey_of_storedKey
    (valid : ValidKey (storedKey heap key).2 other) :
    ValidKey heap other ∨ isNative (storedKey heap key).2 other = true := by
  cases other with
  | obj object =>
      rcases Nat.lt_or_ge object.index heap.length with old | new
      · exact Or.inl old
      · right
        unfold storedKey at valid ⊢
        split at valid
        · split at valid
          · rename_i bytes held
            split at valid
            · exact absurd valid (Nat.not_lt.mpr new)
            · rename_i unfrozen
              have bound : object.index < heap.length + 1 := by
                simpa [ValidKey] using valid
              have last : object = ⟨heap.length⟩ := by
                cases object
                simp only [ObjId.mk.injEq]
                simp only at new bound
                omega
              simp only [unfrozen, Bool.false_eq_true, if_false]
              rw [isNative_obj, last, string_append]
              rfl
          · exact absurd valid (Nat.not_lt.mpr new)
        · exact absurd valid (Nat.not_lt.mpr new)
  | _ => exact Or.inl trivial

/-- A heap has grown by Strings only. -/
structure GrownBy (earlier later : Heap) : Prop where
  kept : earlier <+: later
  news : ∀ key, ValidKey later key →
    ValidKey earlier key ∨ isNative later key = true

theorem GrownBy.refl (heap : Heap) : GrownBy heap heap :=
  ⟨List.prefix_refl _, fun _ valid => Or.inl valid⟩

theorem GrownBy.trans
    (first : GrownBy earlier middle)
    (second : GrownBy middle later) : GrownBy earlier later := by
  refine ⟨first.kept.trans second.kept, ?_⟩
  intro key valid
  rcases second.news key valid with old | native
  · rcases first.news key old with older | native
    · exact Or.inl older
    · right
      rw [isNative_of_extends second.kept old]
      exact native
  · exact Or.inr native

theorem grownBy_storedKey (heap : Heap) (key : Value) :
    GrownBy heap (storedKey heap key).2 :=
  ⟨storedKey_extends heap key, fun _ => validKey_of_storedKey⟩

/-- A stored key is stored again as it is. -/
theorem storedKey_storedKey (heap : Heap) (key : Value) :
    storedKey (storedKey heap key).2 (storedKey heap key).1 =
      storedKey heap key := by
  cases key with
  | obj object =>
      cases held : heap.string object with
      | none => simp [storedKey, held]
      | some bytes =>
          cases frozen : heap.isFrozen object with
          | true => simp [storedKey, held, frozen]
          | false =>
              have new : Heap.isFrozen (heap ++
                  [{ kind := .string bytes, frozen := true }])
                  ⟨heap.length⟩ = true := by
                simp [Heap.isFrozen]
              simp [storedKey, held, frozen, string_append, new]
  | _ => rfl

/-! ## Keys that are stored -/

/-- A native key that is stored as it is is no unfrozen object. -/
theorem isFrozen_of_storedKey
    (native : isNative heap (.obj object) = true)
    (frozen : storedKey heap (.obj object) = (.obj object, heap)) :
    heap.isFrozen object = true := by
  rw [isNative_obj, Option.isSome_iff_exists] at native
  obtain ⟨bytes, held⟩ := native
  by_contra unfrozen
  simp only [storedKey, held, unfrozen, if_false, Prod.mk.injEq] at frozen
  have longer := congrArg List.length frozen.2
  simp at longer

/-- A native key in the form it is stored in. -/
structure HeldKey (heap : Heap) (key : Value) : Prop where
  native : isNative heap key = true
  /-- The key is no unfrozen String. -/
  frozen : storedKey heap key = (key, heap)

/-- A stored key stays as it is when its object stays. -/
theorem HeldKey.of_agree
    (held : HeldKey heap key)
    (agree : ∀ object, key = .obj object →
      later[object.index]? = heap[object.index]?)
    (representative : Value → Value) :
    HeldKey later key ∧
      content representative later key = content representative heap key := by
  have native := held.native
  have frozen := held.frozen
  cases key with
  | obj object =>
      have there := agree object rfl
      have text : later.string object = heap.string object := by
        simp only [Heap.string, there]
      have hard : later.isFrozen object = true := by
        have before := isFrozen_of_storedKey native frozen
        simpa only [Heap.isFrozen, there] using before
      rw [isNative_obj, Option.isSome_iff_exists] at native
      obtain ⟨bytes, own⟩ := native
      refine ⟨⟨?_, ?_⟩, ?_⟩
      · rw [isNative_obj, text, own]
        rfl
      · simp [storedKey, text, own, hard]
      · simp only [content, text]
  | nil => simp [isNative, nativeBytes] at native
  | falseValue => simp [isNative, nativeBytes] at native
  | trueValue => simp [isNative, nativeBytes] at native
  | int number => exact ⟨⟨rfl, rfl⟩, rfl⟩
  | float number => exact ⟨⟨rfl, rfl⟩, rfl⟩
  | sym symbol => exact ⟨⟨rfl, rfl⟩, rfl⟩

/-- The key a new entry is stored under is in its stored form. -/
theorem heldKey_storedKey
    (native : isNative heap key = true) :
    HeldKey (storedKey heap key).2 (storedKey heap key).1 := by
  refine ⟨?_, storedKey_storedKey heap key⟩
  rcases storedKey_cases heap key with same | copied
  · rw [same]
    exact native
  · exact copied

end SabiRuby.HashTable
