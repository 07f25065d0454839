import Mathlib.Data.List.Basic

/-!
# The elements of an Array

`ArrayData` keeps the elements of an Array behind some room that `shift` left in
front, so that a queue does not move its elements at every step.  The room is
filled with nil, and it is given back once it is greater than what follows it.
-/

namespace SabiRuby.Arrays

variable {α : Type}

/-- `ArrayData`. -/
structure ArrayData (α : Type) where
  buf : List α
  start : Nat

/-- `ARY_SHIFT_SLACK`. -/
def ARY_SHIFT_SLACK : Nat := 16

namespace ArrayData

/-- `ArrayData::from`; `ArrayData::new` is that of no elements. -/
def fromVec (buf : List α) : ArrayData α := ⟨buf, 0⟩

def len (d : ArrayData α) : Nat := d.buf.length - d.start

def isEmpty (d : ArrayData α) : Bool := d.buf.length == d.start

def asSlice (d : ArrayData α) : List α := d.buf.drop d.start

def compact (d : ArrayData α) : ArrayData α :=
  if d.start > d.len ∧ d.start > ARY_SHIFT_SLACK then ⟨d.buf.drop d.start, 0⟩
  else d

def push (d : ArrayData α) (v : α) : ArrayData α :=
  { d with buf := d.buf ++ [v] }

def pop (d : ArrayData α) : Option α × ArrayData α :=
  if d.isEmpty then (none, d)
  else (d.buf.getLast?, { d with buf := d.buf.dropLast })

def clear (_ : ArrayData α) : ArrayData α := ⟨[], 0⟩

def truncate (d : ArrayData α) (len : Nat) : ArrayData α :=
  { d with buf := d.buf.take (d.start + len) }

/-- `Vec::resize`. -/
def resizeVec (buf : List α) (len : Nat) (v : α) : List α :=
  buf.take len ++ List.replicate (len - buf.length) v

def resize (d : ArrayData α) (len : Nat) (v : α) : ArrayData α :=
  { d with buf := resizeVec d.buf (d.start + len) v }

def extendFromSlice (d : ArrayData α) (other : List α) : ArrayData α :=
  { d with buf := d.buf ++ other }

/-- `split_off`, which panics past the end. -/
def splitOff
    (d : ArrayData α)
    (i : Nat) : Option (List α × ArrayData α) :=
  if d.start + i ≤ d.buf.length then
    some (d.buf.drop (d.start + i),
      { d with buf := d.buf.take (d.start + i) })
  else none

def shift (nil : α) (d : ArrayData α) : Option α × ArrayData α :=
  if d.isEmpty then (none, d)
  else
    (d.buf[d.start]?, compact ⟨d.buf.set d.start nil, d.start + 1⟩)

def shiftN (nil : α) (d : ArrayData α) (n : Nat) : List α × ArrayData α :=
  let n := min n d.len
  ((d.buf.drop d.start).take n,
    compact
      ⟨d.buf.take d.start ++ List.replicate n nil ++ d.buf.drop (d.start + n),
        d.start + n⟩)

def unshift (d : ArrayData α) (items : List α) : ArrayData α :=
  if items.length ≤ d.start then
    let start := d.start - items.length
    ⟨d.buf.take start ++ items ++ d.buf.drop (start + items.length), start⟩
  else { d with buf := d.buf.take d.start ++ items ++ d.buf.drop d.start }

/-- `insert`, which panics past the end. -/
def insert (d : ArrayData α) (i : Nat) (v : α) : Option (ArrayData α) :=
  if i = 0 ∧ d.start > 0 then
    some ⟨d.buf.set (d.start - 1) v, d.start - 1⟩
  else if d.start + i ≤ d.buf.length then
    some { d with buf := d.buf.insertIdx (d.start + i) v }
  else none

/-- `remove`, which panics where there is no element. -/
def remove (nil : α) (d : ArrayData α) (i : Nat) :
    Option (α × ArrayData α) :=
  if i = 0 then
    match d.shift nil with
    | (some v, d) => some (v, d)
    | (none, _) => none
  else
    match d.buf[d.start + i]? with
    | some v => some (v, { d with buf := d.buf.eraseIdx (d.start + i) })
    | none => none

/-- `drain_range`, where a `Vec::drain` out of range panics. -/
def drainRange (nil : α) (d : ArrayData α) (i j : Nat) :
    Option (List α × ArrayData α) :=
  if i = 0 then some (d.shiftN nil j)
  else if i ≤ j ∧ d.start + j ≤ d.buf.length then
    some ((d.buf.drop (d.start + i)).take (j - i),
      { d with buf := d.buf.take (d.start + i) ++ d.buf.drop (d.start + j) })
  else none

/-- `splice_range`, where a `Vec::splice` out of range panics. -/
def spliceRange (d : ArrayData α) (i j : Nat) (items : List α) :
    Option (ArrayData α) :=
  if i = 0 ∧ j = 0 then some (d.unshift items)
  else if i ≤ j ∧ d.start + j ≤ d.buf.length then
    some { d with
      buf := d.buf.take (d.start + i) ++ items ++ d.buf.drop (d.start + j) }
  else none

end ArrayData

/-- The calls that change an `ArrayData`. -/
inductive Call (α : Type)
  | push (v : α)
  | pop
  | shift
  | shiftN (n : Nat)
  | unshift (items : List α)
  | insert (i : Nat) (v : α)
  | remove (i : Nat)
  | truncate (len : Nat)
  | resize (len : Nat) (v : α)
  | clear
  | splitOff (i : Nat)
  | drainRange (i j : Nat)
  | spliceRange (i j : Nat) (items : List α)
  | extendFromSlice (other : List α)

/-- What a call returns. -/
inductive Reply (α : Type)
  | unit
  | element (v : Option α)
  | vector (items : List α)
deriving DecidableEq

/-- A call on an `ArrayData`; nothing where it panics. -/
def ArrayData.call (nil : α) (d : ArrayData α) :
    Call α → Option (Reply α × ArrayData α)
  | .push v => some (.unit, d.push v)
  | .pop => some (.element d.pop.1, d.pop.2)
  | .shift => some (.element (d.shift nil).1, (d.shift nil).2)
  | .shiftN n => some (.vector (d.shiftN nil n).1, (d.shiftN nil n).2)
  | .unshift items => some (.unit, d.unshift items)
  | .insert i v => (d.insert i v).map fun d => (.unit, d)
  | .remove i => (d.remove nil i).map fun (v, d) => (.element (some v), d)
  | .truncate len => some (.unit, d.truncate len)
  | .resize len v => some (.unit, d.resize len v)
  | .clear => some (.unit, d.clear)
  | .splitOff i => (d.splitOff i).map fun (items, d) => (.vector items, d)
  | .drainRange i j =>
      (d.drainRange nil i j).map fun (items, d) => (.vector items, d)
  | .spliceRange i j items => (d.spliceRange i j items).map fun d => (.unit, d)
  | .extendFromSlice other => some (.unit, d.extendFromSlice other)

/-- Calls one after the other. -/
def ArrayData.run (nil : α) :
    ArrayData α → List (Call α) → Option (List (Reply α) × ArrayData α)
  | d, [] => some ([], d)
  | d, c :: calls =>
      match d.call nil c with
      | none => none
      | some (reply, d) =>
          match run nil d calls with
          | none => none
          | some (replies, d) => some (reply :: replies, d)

/-! ## Plain lists -/

/-- The same call on a plain list. -/
def Call.onList (list : List α) : Call α → Reply α × List α
  | .push v => (.unit, list ++ [v])
  | .pop => (.element list.getLast?, list.dropLast)
  | .shift => (.element list.head?, list.tail)
  | .shiftN n => (.vector (list.take n), list.drop n)
  | .unshift items => (.unit, items ++ list)
  | .insert i v => (.unit, list.insertIdx i v)
  | .remove i => (.element list[i]?, list.eraseIdx i)
  | .truncate len => (.unit, list.take len)
  | .resize len v =>
      (.unit, list.take len ++ List.replicate (len - list.length) v)
  | .clear => (.unit, [])
  | .splitOff i => (.vector (list.drop i), list.take i)
  | .drainRange i j =>
      (.vector ((list.drop i).take (j - i)), list.take i ++ list.drop j)
  | .spliceRange i j items => (.unit, list.take i ++ items ++ list.drop j)
  | .extendFromSlice other => (.unit, list ++ other)

/-- The bounds that the callers of a call check. -/
def Call.Within (len : Nat) : Call α → Prop
  | .insert i _ => i ≤ len
  | .remove i => i < len
  | .splitOff i => i ≤ len
  | .drainRange i j => i ≤ j ∧ j ≤ len
  | .spliceRange i j _ => i ≤ j ∧ j ≤ len
  | _ => True

/-- The same calls on a plain list. -/
def listRun : List α → List (Call α) → List (Reply α) × List α
  | list, [] => ([], list)
  | list, c :: calls =>
      ((c.onList list).1 :: (listRun (c.onList list).2 calls).1,
        (listRun (c.onList list).2 calls).2)

/-- Every call of a run is within its bounds. -/
def AllWithin : List α → List (Call α) → Prop
  | _, [] => True
  | list, c :: calls =>
      c.Within list.length ∧ AllWithin (c.onList list).2 calls

/-! ## Refinement -/

theorem insertIdx_append (front list : List α) (i : Nat) (v : α) :
    (front ++ list).insertIdx (front.length + i) v =
      front ++ list.insertIdx i v := by
  induction front with
  | nil => rw [List.length_nil, Nat.zero_add, List.nil_append, List.nil_append]
  | cons head front ih =>
      rw [List.length_cons, Nat.add_right_comm, List.cons_append,
        List.insertIdx_succ_cons, ih, List.cons_append]

/-- The buffer is the list behind its room, which holds nil alone. -/
def ArrayData.Holds (nil : α) (d : ArrayData α) (list : List α) : Prop :=
  d.buf = List.replicate d.start nil ++ list

namespace ArrayData

variable {nil : α} {d : ArrayData α} {list : List α}

theorem holds_fromVec (vec : List α) : (fromVec vec).Holds nil vec := rfl

theorem Holds.length (holds : d.Holds nil list) :
    d.buf.length = d.start + list.length := by
  rw [holds, List.length_append, List.length_replicate]

@[simp] theorem Holds.len (holds : d.Holds nil list) :
    d.len = list.length := by
  rw [ArrayData.len, holds.length, Nat.add_sub_cancel_left]

theorem Holds.asSlice (holds : d.Holds nil list) : d.asSlice = list := by
  rw [ArrayData.asSlice, holds]
  exact List.drop_left' List.length_replicate

theorem Holds.room (holds : d.Holds nil list) :
    d.buf.take d.start = List.replicate d.start nil := by
  rw [holds]
  exact List.take_left' List.length_replicate

theorem Holds.drop (holds : d.Holds nil list) (i : Nat) :
    d.buf.drop (d.start + i) = list.drop i := by
  rw [← List.drop_drop]
  exact congrArg (List.drop i) holds.asSlice

theorem Holds.take (holds : d.Holds nil list) (i : Nat) :
    d.buf.take (d.start + i) = List.replicate d.start nil ++ list.take i := by
  rw [List.take_add, holds.room]
  exact congrArg (fun l => _ ++ List.take i l) holds.asSlice

theorem Holds.get? (holds : d.Holds nil list) (i : Nat) :
    d.buf[d.start + i]? = list[i]? := by
  rw [← List.getElem?_drop]
  exact congrArg (fun l => l[i]?) holds.asSlice

theorem Holds.isEmpty_iff (holds : d.Holds nil list) :
    d.isEmpty = true ↔ list = [] := by
  rw [isEmpty, beq_iff_eq, holds.length, ← List.length_eq_zero_iff]
  omega

/-- Giving the room back leaves the elements. -/
theorem Holds.compact (holds : d.Holds nil list) :
    d.compact.Holds nil list := by
  unfold ArrayData.compact
  split
  · exact holds.asSlice
  · exact holds

theorem Holds.shiftN (holds : d.Holds nil list) (n : Nat) :
    (d.shiftN nil n).1 = list.take n ∧
      (d.shiftN nil n).2.Holds nil (list.drop n) := by
  unfold ArrayData.shiftN
  rw [holds.len]
  dsimp only
  constructor
  · exact (congrArg (List.take _) holds.asSlice).trans
      (List.take_eq_take_min ..).symm
  · apply Holds.compact
    unfold Holds
    dsimp only
    rw [holds.room, holds.drop, List.replicate_append_replicate]
    apply congrArg
    rcases Nat.le_total n list.length with le | le
    · rw [Nat.min_eq_left le]
    · rw [Nat.min_eq_right le, List.drop_length, List.drop_eq_nil_of_le le]

theorem Holds.shift (holds : d.Holds nil list) :
    (d.shift nil).1 = list.head? ∧ (d.shift nil).2.Holds nil list.tail := by
  unfold ArrayData.shift
  by_cases empty : list = []
  · rw [if_pos (holds.isEmpty_iff.mpr empty)]
    subst empty
    exact ⟨rfl, holds⟩
  · rw [if_neg fun full => empty (holds.isEmpty_iff.mp full)]
    constructor
    · rw [List.head?_eq_getElem?]
      exact holds.get? 0
    · apply Holds.compact
      obtain ⟨first, rest, rfl⟩ := List.exists_cons_of_ne_nil empty
      unfold Holds
      dsimp only
      rw [holds, List.set_append_right _ _ (by simp), List.length_replicate,
        Nat.sub_self, List.set_cons_zero, List.replicate_succ', List.tail_cons,
        List.append_assoc]
      rfl

theorem Holds.unshift (holds : d.Holds nil list) (items : List α) :
    (d.unshift items).Holds nil (items ++ list) := by
  unfold ArrayData.unshift
  split
  case isTrue room =>
    unfold Holds
    dsimp only
    have front : d.buf.take (d.start - items.length) =
        List.replicate (d.start - items.length) nil := by
      rw [holds, List.take_append_of_le_length (by simp), List.take_replicate,
        Nat.min_eq_left (Nat.sub_le ..)]
    have behind :
        d.buf.drop (d.start - items.length + items.length) = list := by
      rw [Nat.sub_add_cancel room]
      exact holds.asSlice
    rw [front, behind, List.append_assoc]
  case isFalse =>
    unfold Holds
    dsimp only
    rw [holds.room, show d.buf.drop d.start = list from holds.asSlice,
      List.append_assoc]

theorem Holds.pop (holds : d.Holds nil list) :
    d.pop.1 = list.getLast? ∧ d.pop.2.Holds nil list.dropLast := by
  unfold ArrayData.pop
  by_cases empty : list = []
  · rw [if_pos (holds.isEmpty_iff.mpr empty)]
    subst empty
    exact ⟨rfl, holds⟩
  · rw [if_neg fun full => empty (holds.isEmpty_iff.mp full)]
    constructor
    · rw [holds, List.getLast?_append_of_ne_nil _ empty]
    · unfold Holds
      dsimp only
      rw [holds, List.dropLast_append_of_ne_nil empty]

section

variable (holds : d.Holds nil list)
include holds

theorem Holds.insert
    (within : i ≤ list.length)
    (v : α) :
    ∃ d', d.insert i v = some d' ∧ d'.Holds nil (list.insertIdx i v) := by
  unfold ArrayData.insert
  split
  case isTrue front =>
    refine ⟨_, rfl, ?_⟩
    obtain ⟨rfl, room⟩ := front
    unfold Holds
    dsimp only
    obtain ⟨start, isStart⟩ : ∃ start, d.start = start + 1 :=
      ⟨d.start - 1, by omega⟩
    rw [holds, isStart, Nat.add_sub_cancel, List.replicate_succ',
      List.append_assoc, List.set_append_right _ _ (by simp),
      List.length_replicate, Nat.sub_self]
    rfl
  case isFalse =>
    rw [if_pos (by rw [holds.length]; omega)]
    refine ⟨_, rfl, ?_⟩
    unfold Holds
    dsimp only
    have placed :=
      insertIdx_append (List.replicate d.start nil) list i v
    rw [List.length_replicate] at placed
    rw [holds, placed]

theorem Holds.remove
    (within : i < list.length) :
    ∃ v d', d.remove nil i = some (v, d') ∧ list[i]? = some v ∧
      d'.Holds nil (list.eraseIdx i) := by
  unfold ArrayData.remove
  by_cases first : i = 0
  · rw [if_pos first]
    subst first
    obtain ⟨taken, left⟩ := holds.shift
    obtain ⟨v, rest, rfl⟩ := List.exists_cons_of_length_pos within
    refine ⟨v, (d.shift nil).2, ?_, rfl, left⟩
    rw [show d.shift nil = (some v, (d.shift nil).2) from Prod.ext taken rfl]
  · rw [if_neg first, holds.get?, List.getElem?_eq_getElem within]
    refine ⟨_, _, rfl, rfl, ?_⟩
    unfold Holds
    dsimp only
    rw [holds, List.eraseIdx_append_of_length_le (by simp),
      List.length_replicate, Nat.add_sub_cancel_left]

theorem Holds.drainRange
    (within : i ≤ j ∧ j ≤ list.length) :
    ∃ d', d.drainRange nil i j = some ((list.drop i).take (j - i), d') ∧
      d'.Holds nil (list.take i ++ list.drop j) := by
  unfold ArrayData.drainRange
  by_cases first : i = 0
  · rw [if_pos first]
    subst first
    obtain ⟨taken, left⟩ := holds.shiftN j
    exact ⟨_, congrArg some (Prod.ext taken rfl), left⟩
  · rw [if_neg first, if_pos ⟨within.1, by rw [holds.length]; omega⟩,
      holds.drop, holds.drop, holds.take]
    exact ⟨_, rfl, List.append_assoc ..⟩

theorem Holds.spliceRange
    (within : i ≤ j ∧ j ≤ list.length)
    (items : List α) :
    ∃ d', d.spliceRange i j items = some d' ∧
      d'.Holds nil (list.take i ++ items ++ list.drop j) := by
  unfold ArrayData.spliceRange
  split
  case isTrue front =>
    obtain ⟨rfl, rfl⟩ := front
    exact ⟨_, rfl, holds.unshift items⟩
  case isFalse =>
    rw [if_pos ⟨within.1, by rw [holds.length]; omega⟩, holds.take, holds.drop]
    refine ⟨_, rfl, ?_⟩
    unfold Holds
    dsimp only
    rw [List.append_assoc, List.append_assoc, List.append_assoc]

end

theorem Holds.append (holds : d.Holds nil list) (items : List α) :
    (⟨d.buf ++ items, d.start⟩ : ArrayData α).Holds nil (list ++ items) := by
  unfold Holds
  dsimp only
  rw [holds, List.append_assoc]

theorem Holds.resize (holds : d.Holds nil list) (len : Nat) (v : α) :
    (d.resize len v).Holds nil
      (list.take len ++ List.replicate (len - list.length) v) := by
  unfold Holds ArrayData.resize resizeVec
  dsimp only
  rw [holds.take, holds.length, Nat.add_sub_add_left, List.append_assoc]

/-- A call within its bounds does to the elements what it does to a list. -/
theorem Holds.call
    (holds : d.Holds nil list)
    (c : Call α)
    (within : c.Within list.length) :
    ∃ d', d.call nil c = some ((c.onList list).1, d') ∧
      d'.Holds nil (c.onList list).2 := by
  cases c with
  | push v => exact ⟨_, rfl, holds.append [v]⟩
  | pop =>
      obtain ⟨taken, left⟩ := holds.pop
      exact ⟨_, by rw [ArrayData.call, taken]; rfl, left⟩
  | shift =>
      obtain ⟨taken, left⟩ := holds.shift
      exact ⟨_, by rw [ArrayData.call, taken]; rfl, left⟩
  | shiftN n =>
      obtain ⟨taken, left⟩ := holds.shiftN n
      exact ⟨_, by rw [ArrayData.call, taken]; rfl, left⟩
  | unshift items => exact ⟨_, rfl, holds.unshift items⟩
  | insert i v =>
      obtain ⟨d', done, left⟩ := holds.insert within v
      exact ⟨d', by rw [ArrayData.call, done]; rfl, left⟩
  | remove i =>
      obtain ⟨v, d', done, taken, left⟩ := holds.remove within
      exact ⟨d', by rw [ArrayData.call, done, Call.onList, taken]; rfl, left⟩
  | truncate len => exact ⟨_, rfl, holds.take len⟩
  | resize len v => exact ⟨_, rfl, holds.resize len v⟩
  | clear => exact ⟨_, rfl, rfl⟩
  | splitOff i =>
      refine ⟨{ d with buf := d.buf.take (d.start + i) }, ?_, holds.take i⟩
      rw [ArrayData.call, ArrayData.splitOff,
        if_pos (by rw [holds.length]; exact Nat.add_le_add_left within _),
        holds.drop]
      rfl
  | drainRange i j =>
      obtain ⟨d', done, left⟩ := holds.drainRange within
      exact ⟨d', by rw [ArrayData.call, done]; rfl, left⟩
  | spliceRange i j items =>
      obtain ⟨d', done, left⟩ := holds.spliceRange within items
      exact ⟨d', by rw [ArrayData.call, done]; rfl, left⟩
  | extendFromSlice other => exact ⟨_, rfl, holds.append other⟩

/-- A run within its bounds answers what it answers on a list. -/
theorem Holds.run
    (calls : List (Call α))
    (holds : d.Holds nil list)
    (within : AllWithin list calls) :
    ∃ d', d.run nil calls = some ((listRun list calls).1, d') ∧
      d'.Holds nil (listRun list calls).2 := by
  induction calls generalizing d list with
  | nil => exact ⟨d, rfl, holds⟩
  | cons c calls ih =>
      obtain ⟨d', done, next⟩ := holds.call c within.1
      obtain ⟨d'', rest, last⟩ := ih next within.2
      refine ⟨d'', ?_, last⟩
      rw [ArrayData.run, done]
      dsimp only
      rw [rest]
      rfl

end ArrayData

/-- From any vector, calls within their bounds give the elements and the replies
that they give on a plain list, and the room in front holds nil alone. -/
theorem arrayData_refines
    (nil : α)
    (vec : List α)
    (calls : List (Call α))
    (within : AllWithin vec calls) :
    ∃ d, (ArrayData.fromVec vec).run nil calls =
        some ((listRun vec calls).1, d) ∧
      d.asSlice = (listRun vec calls).2 ∧
      d.len = (listRun vec calls).2.length ∧
      d.start ≤ d.buf.length ∧
      d.buf.take d.start = List.replicate d.start nil := by
  obtain ⟨d, done, holds⟩ :=
    ArrayData.Holds.run calls (ArrayData.holds_fromVec vec) within
  refine ⟨d, done, holds.asSlice, holds.len, ?_, holds.room⟩
  rw [holds.length]
  exact Nat.le_add_right ..

/-- Two elements shifted out leave room for the one that is put before the
last. -/
theorem arrayData_refines_queue :
    ∃ d, (ArrayData.fromVec [1, 2, 3]).run 0
        [.shift, .shift, .insert 0 7, .remove 1] =
          some ([.element (some 1), .element (some 2), .unit,
            .element (some 3)], d) ∧
      d.asSlice = [7] ∧ d.len = 1 ∧ d.start ≤ d.buf.length ∧
      d.buf.take d.start = List.replicate d.start 0 :=
  arrayData_refines 0 [1, 2, 3] [.shift, .shift, .insert 0 7, .remove 1]
    ⟨trivial, trivial, Nat.zero_le 1, Nat.lt_succ_self 1, trivial⟩

end SabiRuby.Arrays
