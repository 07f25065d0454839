import SabiRuby.Value
import Mathlib.Logic.Function.Basic

/-!
# Sorting an Array

`sort_values` and `sort!`.  The comparator is whatever the machine does when it
sends `<=>` or calls the block; an error it raises is kept while the merge goes
on.  A buffer accessed out of range stops the machine.
-/

namespace SabiRuby.Arrays

/-- What a heap object is to the methods of Array. -/
structure Slot where
  frozen : Bool
  /-- The elements, if it is an Array. -/
  items : Option (List Value)

/-- The machine: its heap and everything else. -/
structure Vm (W : Type) where
  heap : ObjId → Slot
  world : W

/-- What the methods of Array ask the machine to do. -/
structure Sends (E W : Type) where
  /-- Send `<=>` to a value. -/
  cmp : Value → Value → Vm W → Except E Value × Vm W
  /-- Call a block with two values. -/
  callBlock : Value → Value → Value → Vm W → Except E Value × Vm W
  /-- Send `>` with 0 to a value. -/
  gt : Value → Vm W → Except E Value × Vm W
  /-- Send `<` with 0 to a value. -/
  lt : Value → Vm W → Except E Value × Vm W
  /-- The ArgumentError of `sort_failed`. -/
  sortFailed : Vm W → E × Vm W
  /-- The ArgumentError about two values a block cannot compare. -/
  comparisonFailed : Value → Value → Vm W → E × Vm W
  /-- The FrozenError of an Array. -/
  frozenArray : Vm W → E × Vm W
  /-- The TypeError of what is no Array. -/
  notArray : Vm W → E × Vm W

section

variable {E W : Type} (m : Sends E W)

/-- What an answer that is neither an Integer nor nil says about the order. -/
def signOf (v : Value) (vm : Vm W) : Except E Ordering × Vm W :=
  match m.gt v vm with
  | (.error e, vm) => (.error e, vm)
  | (.ok t, vm) =>
      if t.truthy then (.ok .gt, vm)
      else
        match m.lt v vm with
        | (.error e, vm) => (.error e, vm)
        | (.ok t, vm) => (.ok (if t.truthy then .lt else .eq), vm)

/-- What the answer of the comparator says about the order of two values. -/
def answer (blk a b : Value) (r : Except E Value) (vm : Vm W) :
    Except E Ordering × Vm W :=
  match r with
  | .ok (.int i) => (.ok (compare i 0), vm)
  | .ok v =>
      if blk.isNil then
        let (e, vm) := m.sortFailed vm
        (.error e, vm)
      else if v.isNil then
        let (e, vm) := m.comparisonFailed a b vm
        (.error e, vm)
      else signOf m v vm
  | .error e => (.error e, vm)

/-- Ask the comparator about two values. -/
def ask (blk a b : Value) (vm : Vm W) : Except E Ordering × Vm W :=
  if blk.isNil then
    match a, b with
    | .int p, .int q => (.ok (compare p q), vm)
    | _, _ =>
        let (r, vm) := m.cmp a b vm
        answer m blk a b r vm
  else
    let (r, vm) := m.callBlock blk a b vm
    answer m blk a b r vm

/-- The machine in the middle of a sort, and the error that was raised. -/
structure Asked (E W : Type) where
  err : Option E
  vm : Vm W

/-- `compare` in `sort_values`: after an error nothing is asked any more. -/
def compare (blk a b : Value) (asked : Asked E W) : Ordering × Asked E W :=
  match asked.err with
  | some _ => (.eq, asked)
  | none =>
      match ask m blk a b asked.vm with
      | (.ok o, vm) => (o, ⟨none, vm⟩)
      | (.error e, vm) => (.eq, ⟨some e, vm⟩)

/-- Write an element of a buffer. -/
def put (buf : List Value) (k : Nat) (v : Value) : Option (List Value) :=
  if k < buf.length then some (buf.set k v) else none

/-- The loop that takes from both runs. -/
def mergeLoop (blk : Value) (list : List Value) (mid hi l r k : Nat)
    (buf : List Value) (asked : Asked E W) :
    Option (Nat × Nat × Nat × List Value × Asked E W) :=
  if l < mid ∧ r < hi then do
    let right ← list[r]?
    let left ← list[l]?
    let (o, asked) := compare m blk right left asked
    if o = .lt then
      let buf ← put buf k right
      mergeLoop blk list mid hi l (r + 1) (k + 1) buf asked
    else
      let buf ← put buf k left
      mergeLoop blk list mid hi (l + 1) r (k + 1) buf asked
  else some (l, r, k, buf, asked)
termination_by (mid - l) + (hi - r)

/-- The loop that copies what is left of one run. -/
def copyLoop (list : List Value) (stop l k : Nat) (buf : List Value) :
    Option (Nat × List Value) :=
  if l < stop then do
    let v ← list[l]?
    let buf ← put buf k v
    copyLoop list stop (l + 1) (k + 1) buf
  else some (k, buf)
termination_by stop - l

/-- The loop over the pairs of runs. -/
def passLoop (blk : Value) (width : Nat) (positive : 0 < width)
    (list : List Value) (n i : Nat) (buf : List Value) (asked : Asked E W) :
    Option (List Value × Asked E W) :=
  if i < n then do
    let mid := min (i + width) n
    let hi := min (i + 2 * width) n
    let (l, r, k, buf, asked) ← mergeLoop m blk list mid hi i mid i buf asked
    let (k, buf) ← copyLoop list mid l k buf
    let (_, buf) ← copyLoop list hi r k buf
    passLoop blk width positive list n (i + 2 * width) buf asked
  else some (buf, asked)
termination_by n - i

/-- The loop over the widths; the two buffers change places. -/
def widthLoop (blk : Value) (n width : Nat) (positive : 0 < width)
    (list buf : List Value) (asked : Asked E W) :
    Option (List Value × Asked E W) :=
  if width < n then do
    let (filled, asked) ← passLoop m blk width positive list n 0 buf asked
    widthLoop blk n (width * 2) (by omega) filled list asked
  else some (list, asked)
termination_by n - width

/-- The merge sort of `sort_values`. -/
def mergeValues (list : List Value) (blk : Value) (vm : Vm W) :
    Option (Except E (List Value) × Vm W) := do
  let (list, asked) ←
    widthLoop m blk list.length 1 (by omega) list list ⟨none, vm⟩
  match asked.err with
  | some e => some (.error e, asked.vm)
  | none => some (.ok list, asked.vm)

/-- The value is an Integer of 64 bits. -/
def isInt : Value → Bool
  | .int _ => true
  | _ => false

/-- The key the Integers are sorted by. -/
def intKey : Value → Int64
  | .int i => i
  | _ => 0

/-- `sort_values` -/
def sortValues (list : List Value) (blk : Value) (vm : Vm W) :
    Option (Except E (List Value) × Vm W) :=
  if blk.isNil ∧ list.all isInt then
    some (.ok (list.mergeSort fun a b => intKey a ≤ intKey b), vm)
  else mergeValues m list blk vm

/-- The elements of an Array; of anything else, none. -/
def items (vm : Vm W) : Value → List Value
  | .obj o => (vm.heap o).items.getD []
  | _ => []

/-- `with_mut` -/
def withMut (v : Value) (f : List Value → List Value) (vm : Vm W) :
    Except E Unit × Vm W :=
  match v with
  | .obj o =>
      if (vm.heap o).frozen then
        let (e, vm) := m.frozenArray vm
        (.error e, vm)
      else
        match (vm.heap o).items with
        | some list =>
            (.ok (), { vm with
              heap := Function.update vm.heap o
                { (vm.heap o) with items := some (f list) } })
        | none =>
            let (e, vm) := m.notArray vm
            (.error e, vm)
  | _ =>
      let (e, vm) := m.notArray vm
      (.error e, vm)

/-- `sort!` -/
def sortBang (s b : Value) (vm : Vm W) : Option (Except E Value × Vm W) := do
  match ← sortValues m (items vm s) b vm with
  | (.error e, vm) => some (.error e, vm)
  | (.ok v, vm) =>
      match withMut m s (fun _ => v) vm with
      | (.error e, vm) => some (.error e, vm)
      | (.ok _, vm) => some (.ok s, vm)

end

end SabiRuby.Arrays
