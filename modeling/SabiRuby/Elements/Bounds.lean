import SabiRuby.Library.CheckedWord

/-!
# The bounds of a Range against an Array

`range_beg_len`, `fill_range_out` and `index_args` with every operation on `i64`
checked, and what they say on the integers.
-/

namespace SabiRuby.Elements

open Library

/-- An Integer argument. -/
abbrev I64 := { number : Int // IsI64 number }

/-- A Range of Integers, without a beginning or an end where there is none. -/
structure Bounds where
  beg : Option I64
  last : Option I64
  excl : Bool

/-- `if i < 0 { i + len } else { i }`. -/
def countFromBack (i len : Int) : Option Int :=
  if i < 0 then i64 (i + len) else some i

/-- `n as usize`. -/
def asUsize (n : Int) : Nat := (n % 18446744073709551616).toNat

/-- `n.wrapping_add(1)`. -/
def wrappingSucc (n : Int) : Int :=
  if n = 9223372036854775807 then -9223372036854775808 else n + 1

/-- `n.saturating_add(1)`. -/
def saturatingSucc (n : Int) : Int :=
  if n = 9223372036854775807 then n else n + 1

/-- `if end > beg { end - beg } else { 0 }`. -/
def lengthUpTo (beg stop : Int) : Option Int :=
  if stop > beg then i64 (stop - beg) else some 0

namespace Bounds

variable (r : Bounds)

/-- The beginning as it is given. -/
def given : Int :=
  match r.beg with
  | none => 0
  | some b => b.1

/-- The end as it is given, and whether it is excluded. -/
def givenEnd (whole : Int × Bool) : Int × Bool :=
  match r.last with
  | none => whole
  | some e => (e.1, r.excl)

end Bounds

/-- The end of `range_beg_len`: clipped, counted from the back and made
exclusive. -/
def rangeEnd (stop : Int) (excl : Bool) (len : Int) (trunc : Bool) :
    Option Int := do
  let stop := if trunc = true ∧ stop > len then len else stop
  let stop ← countFromBack stop len
  some (if excl = false ∧ (trunc = false ∨ stop < len) then wrappingSucc stop
    else stop)

/-- `range_beg_len`. -/
def rangeBegLen (r : Bounds) (len : Int) (trunc : Bool) :
    Option (Option (Int × Int)) := do
  let beg ← countFromBack r.given len
  if beg < 0 then some none
  else if trunc = true ∧ beg > len then some none
  else
    let (stop, excl) := r.givenEnd (len, true)
    let stop ← rangeEnd stop excl len trunc
    let l ← lengthUpTo beg stop
    some (some (beg, l))

/-- `fill_range_out`, without a value where it raises RangeError. -/
def fillRangeOut (r : Bounds) (len : Int) : Option (Option (Int × Int)) := do
  let beg ← countFromBack r.given len
  if beg < 0 then some none
  else
    let (stop, excl) := r.givenEnd (-1, false)
    let stop ← countFromBack stop len
    let stop := if excl = false then saturatingSucc stop else stop
    let l ← lengthUpTo beg stop
    some (some (beg, l))

/-- `norm` of `index_args`. -/
def norm (len : Nat) (i : Int) : Option (Option Nat) := do
  let i ← countFromBack i len
  if i < 0 ∨ asUsize i > len then some none else some (some (asUsize i))

/-- `index_args` of an index and a length. -/
def indexArgs (len : Nat) (i n : Int) : Option (Option (Nat × Nat)) :=
  if n < 0 then some none
  else do
    let place ← norm len i
    some (place.map fun i => (i, min (asUsize n) (len - i)))

/-! ## On the integers -/

/-- An index, a negative one counted from the end. -/
def place (len i : Int) : Int := if i < 0 then i + len else i

namespace Bounds

variable (r : Bounds)

/-- Where a Range begins in an Array. -/
def first (len : Int) : Int := place len r.given

/-- Where a Range ends in an Array, itself not in it. -/
def stop (len : Int) : Int :=
  match r.last with
  | none => len
  | some e => place len e.1 + if r.excl then 0 else 1

/-- An inclusive Range up to the greatest `i64`. -/
def Endmost : Prop :=
  r.excl = false ∧ r.last.map Subtype.val = some 9223372036854775807

instance : Decidable r.Endmost :=
  inferInstanceAs (Decidable (_ ∧ _))

end Bounds

/-- The lengths an Array can have. -/
def IsLength (len : Int) : Prop := 0 ≤ len ∧ len ≤ 1152921504606846975

section Spec

variable {len : Int}

theorem countFromBack_eq (i : I64) (isLength : IsLength len) :
    countFromBack i.1 len = some (place len i.1) := by
  have held := i.2
  unfold IsI64 at held
  unfold IsLength at isLength
  unfold countFromBack place
  split_ifs with negative
  · exact i64_eq_some_iff.mpr ⟨by unfold IsI64; omega, rfl⟩
  · rfl

theorem asUsize_of_nonneg {n : Int} (nonneg : 0 ≤ n) (held : IsI64 n) :
    asUsize n = n.toNat := by
  unfold IsI64 at held
  rw [asUsize, Int.emod_eq_of_lt nonneg (by omega)]

theorem given_held (r : Bounds) : IsI64 r.given := by
  unfold Bounds.given
  split
  · decide
  · exact Subtype.property _

theorem countFromBack_given (r : Bounds) (isLength : IsLength len) :
    countFromBack r.given len = some (r.first len) :=
  countFromBack_eq ⟨r.given, given_held r⟩ isLength

theorem lengthUpTo_eq
    (nonneg : 0 ≤ beg)
    (le : stop ≤ 9223372036854775807) :
    lengthUpTo beg stop = some (max 0 (stop - beg)) := by
  unfold lengthUpTo
  split_ifs with more
  · exact i64_eq_some_iff.mpr ⟨by unfold IsI64; omega, by omega⟩
  · rw [max_eq_left (by omega)]

theorem rangeEnd_clipped
    (e : I64)
    (excl : Bool)
    (isLength : IsLength len) :
    rangeEnd e.1 excl len true =
      some (min (place len e.1 + if excl then 0 else 1) len) := by
  have held := e.2
  have length := isLength
  unfold IsI64 at held
  unfold IsLength at length
  obtain ⟨clipped, isClipped⟩ :
      ∃ clipped : I64, clipped.1 = if e.1 > len then len else e.1 := by
    split_ifs
    · exact ⟨⟨len, by unfold IsI64; omega⟩, rfl⟩
    · exact ⟨e, rfl⟩
  unfold rangeEnd
  simp only [true_and, ← isClipped, countFromBack_eq clipped isLength,
    Option.bind_eq_bind, Option.bind_some, Bool.true_eq_false, false_or]
  congr 1
  unfold place wrappingSucc
  cases excl with
  | true =>
      split_ifs at isClipped ⊢ <;> simp at * <;> omega
  | false =>
      split_ifs at isClipped ⊢ <;> simp at * <;> omega

/-- Where the end is not clipped, one past the greatest `i64` wraps. -/
theorem rangeEnd_whole
    (e : I64)
    (excl : Bool)
    (isLength : IsLength len) :
    rangeEnd e.1 excl len false =
      some (if excl = false ∧ e.1 = 9223372036854775807 then
        -9223372036854775808
      else place len e.1 + if excl then 0 else 1) := by
  have held := e.2
  have length := isLength
  unfold IsI64 at held
  unfold IsLength at length
  unfold rangeEnd
  simp only [Bool.false_eq_true, false_and, if_false,
    countFromBack_eq e isLength, Option.bind_eq_bind, Option.bind_some,
    true_or, and_true]
  congr 1
  unfold place wrappingSucc
  cases excl with
  | true => simp
  | false => split_ifs <;> simp at * <;> omega

/-- A clipped Range is the part of it inside the Array. -/
theorem rangeBegLen_clipped (r : Bounds) (isLength : IsLength len) :
    rangeBegLen r len true =
      some (if 0 ≤ r.first len ∧ r.first len ≤ len then
        some (r.first len, max 0 (min (r.stop len) len - r.first len))
      else none) := by
  have length := isLength
  unfold IsLength at length
  unfold rangeBegLen
  rw [countFromBack_given r isLength]
  generalize r.first len = beg
  by_cases before : beg < 0
  · rw [if_neg (by omega)]
    exact if_pos before
  by_cases after : beg > len
  · rw [if_neg (by omega)]
    exact (if_neg before).trans (if_pos ⟨rfl, after⟩)
  rw [if_pos (by omega)]
  refine (if_neg before).trans ((if_neg (by omega)).trans ?_)
  obtain ⟨e, excl, isEnd, isStop⟩ :
      ∃ (e : I64) (excl : Bool), r.givenEnd (len, true) = (e.1, excl) ∧
        min (place len e.1 + if excl then 0 else 1) len =
          min (r.stop len) len := by
    unfold Bounds.givenEnd Bounds.stop
    cases r.last with
    | none =>
        refine ⟨⟨len, by unfold IsI64; omega⟩, true, rfl, ?_⟩
        rw [place, if_neg (by dsimp only; omega)]
        simp
    | some e => exact ⟨e, r.excl, rfl, rfl⟩
  simp only [isEnd, rangeEnd_clipped e excl isLength, isStop,
    Option.bind_eq_bind, Option.bind_some]
  rw [lengthUpTo_eq (by omega) (by omega)]
  rfl

/-- A Range that is not clipped is the whole of it, but for an inclusive one up
to the greatest `i64`, which is empty. -/
theorem rangeBegLen_whole (r : Bounds) (isLength : IsLength len) :
    rangeBegLen r len false =
      some (if 0 ≤ r.first len then
        some (r.first len,
          if r.Endmost then 0 else max 0 (r.stop len - r.first len))
      else none) := by
  have length := isLength
  unfold IsLength at length
  unfold rangeBegLen
  rw [countFromBack_given r isLength]
  generalize r.first len = beg
  by_cases before : beg < 0
  · rw [if_neg (by omega)]
    exact if_pos before
  rw [if_pos (by omega)]
  refine (if_neg before).trans ((if_neg (by simp)).trans ?_)
  cases last : r.last with
  | none =>
      have isEnd : r.givenEnd (len, true) = (len, true) := by
        rw [Bounds.givenEnd, last]
      have isStop : rangeEnd len true len false = some len := by
        rw [rangeEnd_whole ⟨len, by unfold IsI64; omega⟩ true isLength,
          if_neg (by simp), place, if_neg (by dsimp only; omega)]
        simp
      simp only [isEnd, isStop, Option.bind_eq_bind, Option.bind_some]
      rw [lengthUpTo_eq (by omega) (by omega), if_neg (by simp [Bounds.Endmost,
        last]), Bounds.stop, last]
      rfl
  | some e =>
      have held := e.2
      unfold IsI64 at held
      have isEnd : r.givenEnd (len, true) = (e.1, r.excl) := by
        rw [Bounds.givenEnd, last]
      have isStop : r.stop len = place len e.1 + if r.excl then 0 else 1 := by
        rw [Bounds.stop, last]
      have isEndmost :
          r.Endmost ↔ r.excl = false ∧ e.1 = 9223372036854775807 := by
        simp [Bounds.Endmost, last]
      simp only [isEnd, rangeEnd_whole e r.excl isLength, isStop, isEndmost,
        Option.bind_eq_bind, Option.bind_some]
      by_cases endmost : r.excl = false ∧ e.1 = 9223372036854775807
      · rw [if_pos endmost, if_pos endmost,
          lengthUpTo_eq (by omega) (by omega), max_eq_left (by omega)]
        rfl
      · have le : place len e.1 + (if r.excl then 0 else 1) ≤
            9223372036854775807 := by
          unfold place
          cases excl : r.excl with
          | true =>
              rw [if_pos rfl]
              split_ifs <;> omega
          | false =>
              rw [excl, and_iff_right rfl] at endmost
              simp only [Bool.false_eq_true, if_false]
              split_ifs <;> omega
        rw [if_neg endmost, if_neg endmost, lengthUpTo_eq (by omega) le]
        rfl

/-- A Range that begins past the end is the whole of it; an inclusive one up to
the greatest `i64` is one short. -/
theorem fillRangeOut_eq (r : Bounds) (isLength : IsLength len) :
    fillRangeOut r len =
      some (if 0 ≤ r.first len then
        some (r.first len,
          max 0 ((if r.Endmost then 9223372036854775807 else r.stop len) -
            r.first len))
      else none) := by
  have length := isLength
  unfold IsLength at length
  unfold fillRangeOut
  rw [countFromBack_given r isLength]
  generalize r.first len = beg
  by_cases before : beg < 0
  · rw [if_neg (by omega)]
    exact if_pos before
  rw [if_pos (by omega)]
  refine (if_neg before).trans ?_
  cases last : r.last with
  | none =>
      have isStop : saturatingSucc (place len (-1)) = len := by
        unfold saturatingSucc place
        split_ifs <;> omega
      simp only [countFromBack_eq ⟨-1, by decide⟩ isLength, if_true,
        isStop, Option.bind_eq_bind, Option.bind_some]
      rw [lengthUpTo_eq (by omega) (by omega), if_neg (by simp [Bounds.Endmost,
        last]), Bounds.stop, last]
      rfl
  | some e =>
      have held := e.2
      unfold IsI64 at held
      have isStop :
          (if r.excl = false then saturatingSucc (place len e.1)
          else place len e.1) =
            if r.Endmost then 9223372036854775807 else r.stop len := by
        rw [Bounds.stop, last]
        simp only [Bounds.Endmost, last, Option.map_some, Option.some_inj]
        unfold saturatingSucc place
        cases r.excl with
        | true => simp
        | false =>
            simp only [true_and, if_true, Bool.false_eq_true, if_false]
            split_ifs <;> omega
      have le : (if r.Endmost then 9223372036854775807 else r.stop len) ≤
          9223372036854775807 := by
        rw [← isStop]
        unfold saturatingSucc place
        split_ifs <;> omega
      simp only [countFromBack_eq e isLength, isStop,
        Option.bind_eq_bind, Option.bind_some]
      rw [lengthUpTo_eq (by omega) le]
      rfl

/-- `index_args` clips the length of what begins in the Array. -/
theorem indexArgs_eq
    {length : Nat}
    (i n : I64)
    (isLength : IsLength length)
    (nonneg : 0 ≤ n.1) :
    indexArgs length i.1 n.1 =
      some (if 0 ≤ place length i.1 ∧ place length i.1 ≤ length then
        some ((place length i.1).toNat,
          min n.1.toNat (length - (place length i.1).toNat))
      else none) := by
  have held := i.2
  have isLen := isLength
  unfold IsI64 at held
  unfold IsLength at isLen
  have placeHeld : IsI64 (place length i.1) := by
    unfold IsI64 place
    split_ifs <;> omega
  unfold indexArgs norm
  rw [if_neg (by omega), countFromBack_eq i isLength]
  simp only [Option.bind_eq_bind, Option.bind_some]
  generalize place length i.1 = p at placeHeld ⊢
  by_cases inside : 0 ≤ p ∧ p ≤ length
  · rw [asUsize_of_nonneg inside.1 placeHeld, asUsize_of_nonneg nonneg n.2,
      if_neg (by omega), if_pos inside]
    rfl
  · have outside : p < 0 ∨ asUsize p > length := by
      by_cases negative : p < 0
      · exact .inl negative
      · rw [asUsize_of_nonneg (by omega) placeHeld]
        omega
    rw [if_pos outside, if_neg inside]
    rfl

/-- A Range that does not end with the greatest `i64` ends at one. -/
theorem stop_le (r : Bounds) (isLength : IsLength len) (least : ¬ r.Endmost) :
    r.stop len ≤ 9223372036854775807 := by
  unfold IsLength at isLength
  unfold Bounds.Endmost at least
  unfold Bounds.stop place
  cases last : r.last with
  | none =>
      dsimp only
      omega
  | some e =>
      have held := e.2
      unfold IsI64 at held
      rw [last, Option.map_some, Option.some_inj] at least
      cases excl : r.excl with
      | true =>
          simp only [if_true]
          split_ifs <;> omega
      | false =>
          rw [excl, and_iff_right rfl] at least
          simp only [Bool.false_eq_true, if_false]
          split_ifs <;> omega

end Spec

end SabiRuby.Elements
