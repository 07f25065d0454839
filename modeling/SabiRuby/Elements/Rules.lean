import SabiRuby.Elements.Methods
import SabiRuby.Library.Windows

/-!
# What the methods are to answer

The rules of the methods on the integers: an index counts from the end where it
is negative, a window is cut to the elements where it is read and filled up to
with nil where it is replaced.
-/

namespace SabiRuby.Elements

open Library

/-- A call of one of the methods, a value together with its elements where it
is an Array; no vector of arguments is longer than the machine can address. -/
inductive Call (α : Type)
  | aref (i : I64)
  | arefPair (i n : I64)
  | arefRange (r : Bounds)
  | aset (i : I64) (val : α)
  | asetPair (i n : I64) (val : α) (spread : Option (List α))
  | asetRange (r : Bounds) (val : α) (spread : Option (List α))
  | sliceAt (i : I64)
  | slicePair (i n : I64)
  | sliceRange (r : Bounds)
  | insert
      (i : I64)
      (vals : List α)
      (few : vals.length ≤ 1152921504606846975)
  | fill (at_ : FillPlace) (obj : α)
  | valuesAt (selectors : List Selector)

section

variable {α : Type} (nil : α)

/-- What a method does to an Array. -/
def Call.outcome {host : Host} (ary : Ary α host) :
    Call α → Option (Result α)
  | aref i => Elements.aref nil ary i
  | arefPair i n => Elements.arefPair nil ary i n
  | arefRange r => Elements.arefRange nil ary r
  | aset i val => Elements.aset nil ary i val
  | asetPair i n val spread => Elements.asetPair nil ary i n val spread
  | asetRange r val spread => Elements.asetRange nil ary r val spread
  | sliceAt i => Elements.sliceAt nil ary i
  | slicePair i n => Elements.slicePair nil ary i n
  | sliceRange r => Elements.sliceRange nil ary r
  | insert i vals _ => Elements.insert nil ary i vals
  | fill at_ obj => Elements.fill nil ary at_ obj
  | valuesAt selectors => Elements.valuesAt nil ary selectors

/-- The window of a Range that begins in an Array: how many elements it is
long. -/
def Bounds.count (r : Bounds) (len : Int) : Nat :=
  (r.stop len - r.first len).toNat

/-- The same, but nothing for an inclusive Range up to the greatest `i64`. -/
def Bounds.countWrapped (r : Bounds) (len : Int) : Nat :=
  if r.Endmost then 0 else r.count len

/-- An element, nil where there is none. -/
def elementAt (list : List α) (i : Int) : α :=
  if 0 ≤ i then list.getD i.toNat nil else nil

/-- A window read. -/
def window (list : List α) (i : Int) (n : Nat) : List α :=
  (list.drop i.toNat).take n

/-- A window taken out, nil where it does not begin in the list. -/
def takeOut (list : List α) (i n : Int) : Answer α × List α :=
  if 0 ≤ i ∧ i ≤ list.length ∧ 0 ≤ n then
    (.list (window list i n.toNat),
      list.take i.toNat ++ list.drop (i.toNat + n.toNat))
  else (.item nil, list)

/-- The window `fill` fills, which a Range that begins in the Array does not
make longer; RangeError for one that begins before it. -/
def FillPlace.window (len : Int) : FillPlace → Option (Int × Int)
  | whole => some (0, len)
  | start i none =>
      some (max 0 (place len i.1), len - max 0 (place len i.1))
  | start i (some n) => some (max 0 (place len i.1), max 0 n.1)
  | range r =>
      if 0 ≤ r.first len then
        some (r.first len,
          if r.first len ≤ len then
            max 0 (min (r.stop len) len - r.first len)
          else max 0 (r.stop len - r.first len))
      else none

/-- The elements a selector stands for, TypeError for a Range that begins
before the Array. -/
def Selector.items (count : Bounds → Int → Nat) (list : List α) :
    Selector → Option (List α)
  | index i => some [elementAt nil list (place list.length i.1)]
  | range r =>
      if 0 ≤ r.first list.length then
        some ((List.range (count r list.length)).map fun k =>
          list.getD ((r.first list.length).toNat + k) nil)
      else none

/-- What a method answers and leaves, by its rule; nothing where it raises. -/
def Call.rule (count : Bounds → Int → Nat) (list : List α) :
    Call α → Option (Answer α × List α)
  | aref i => some (.item (elementAt nil list (place list.length i.1)), list)
  | arefPair i n =>
      let i := place list.length i.1
      some (if 0 ≤ i ∧ i ≤ list.length ∧ 0 ≤ n.1 then
        (.list (window list i n.1.toNat), list)
      else (.item nil, list))
  | arefRange r =>
      let i := r.first list.length
      some (if 0 ≤ i ∧ i ≤ list.length then
        (.list (window list i (r.count list.length)), list)
      else (.item nil, list))
  | aset i val =>
      let i := place list.length i.1
      if 0 ≤ i then
        some (.item val, spliced nil list i.toNat 1 [val])
      else none
  | asetPair i n val spread =>
      let i := place list.length i.1
      if 0 ≤ n.1 ∧ 0 ≤ i then
        some (.item val,
          spliced nil list i.toNat n.1.toNat (spread.getD [val]))
      else none
  | asetRange r val spread =>
      let i := r.first list.length
      if 0 ≤ i then
        some (.item val,
          spliced nil list i.toNat (r.count list.length) (spread.getD [val]))
      else none
  | sliceAt i =>
      let i := place list.length i.1
      some (if 0 ≤ i ∧ i < list.length then
        (.item (elementAt nil list i), list.eraseIdx i.toNat)
      else (.item nil, list))
  | slicePair i n =>
      some (takeOut nil list (place list.length i.1) n.1)
  | sliceRange r =>
      some (takeOut nil list (r.first list.length) (r.count list.length))
  | insert i vals _ =>
      let i := if i.1 < 0 then i.1 + list.length + 1 else i.1
      if vals = [] then some (.receiver, list)
      else if 0 ≤ i then some (.receiver, spliced nil list i.toNat 0 vals)
      else none
  | fill at_ obj =>
      match at_.window list.length with
      | none => none
      | some (i, n) =>
          if 0 ≤ n then
            some (.receiver, spliced nil list i.toNat n.toNat
              (List.replicate n.toNat obj))
          else some (.receiver, list)
  | valuesAt selectors =>
      (selectors.mapM (Selector.items nil count list)).map fun items =>
        (.list items.flatten, list)

/-- A method that has an outcome: it raises and leaves the elements as they
were, or answers and leaves what the rule says. -/
def Follows
    (list : List α)
    (rule : Option (Answer α × List α)) :
    Option (Result α) → Prop
  | none => False
  | some (.error _, after) => after = list
  | some (.ok answer, after) => rule = some (answer, after)

/-- The call follows its rule. -/
def Call.Exact
    (count : Bounds → Int → Nat)
    {host : Host}
    (ary : Ary α host)
    (call : Call α) :
    Prop :=
  Follows ary.list (call.rule nil count ary.list) (call.outcome nil ary)

/-! ## Where the machine has room -/

/-- The host grants the vector with a window of it replaced. -/
def Grants (host : Host) (len i n rep : Nat) : Prop :=
  i ≤ host.limit ∧ i + rep + (len - (i + n)) ≤ host.limit

/-- How many elements `values_at` gathers before it answers or raises. -/
def gathered (len : Int) : List Selector → Nat
  | [] => 0
  | .index _ :: rest => 1 + gathered len rest
  | .range r :: rest =>
      if 0 ≤ r.first len then r.countWrapped len + gathered len rest else 0

/-- The vector a call asks for is granted, and the end of the Range that `[]=`
is given and its distance from the beginning are `i64`. -/
def Call.Fits {host : Host} (ary : Ary α host) : Call α → Prop
  | aset i _ =>
      let i := place ary.list.length i.1
      0 ≤ i → Grants host ary.list.length i.toNat 1 1
  | asetPair i n val spread =>
      let i := place ary.list.length i.1
      0 ≤ n.1 → 0 ≤ i →
        Grants host ary.list.length i.toNat n.1.toNat
          (spread.getD [val]).length
  | asetRange r val spread =>
      let i := r.first ary.list.length
      0 ≤ i →
        IsI64 (r.stop ary.list.length) ∧
          IsI64 (r.stop ary.list.length - i) ∧
            Grants host ary.list.length i.toNat (r.count ary.list.length)
              (spread.getD [val]).length
  | valuesAt selectors => gathered ary.list.length selectors ≤ host.limit
  | _ => True

end

end SabiRuby.Elements
