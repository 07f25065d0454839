import SabiRuby.Elements.Bounds

/-!
# Elements of an Array by index

`Array#[]`, `[]=`, `slice!`, `insert`, `fill` with a value and `values_at`.
A method answers or raises and leaves the elements as they are then; it has no
outcome where an operation on `i64` or `usize` overflows, an index or a slice
is out of range, or a vector is asked for that the host does not grant.
-/

namespace SabiRuby.Elements

open Library

/-- `ARY_MAX_SIZE`. -/
def ARY_MAX_SIZE : Nat := 268435456

/-- The host: the longest vector it grants. -/
structure Host where
  limit : Nat
  ary_max_le : 268435456 ≤ limit
  limit_le : limit ≤ 1152921504606846975

/-- An Array on a host. -/
structure Ary (α : Type) (host : Host) where
  list : List α
  frozen : Bool
  length_le : list.length ≤ host.limit

/-- What the methods raise. -/
inductive Refusal
  /-- FrozenError. -/
  | frozen
  /-- IndexError `index {} out of array`. -/
  | outOfArray (index : Int)
  /-- IndexError `index {} is out of array`. -/
  | isOutOfArray (index : Int)
  /-- IndexError `index {} outside of array bounds`. -/
  | outsideBounds (index : Int)
  /-- IndexError `negative length ({})`. -/
  | negativeCount (n : Int)
  /-- RangeError `{} out of range`. -/
  | outOfRange
  /-- ArgumentError `array size too big`. -/
  | sizeTooBig
  /-- ArgumentError `negative start index`. -/
  | negativeStart
  /-- ArgumentError `negative length`. -/
  | negativeLength
  /-- TypeError `invalid values selector: {}`. -/
  | invalidSelector
  deriving DecidableEq, Repr

/-- What the methods answer. -/
inductive Answer (α : Type)
  | item (v : α)
  | list (items : List α)
  | receiver
  deriving DecidableEq, Repr

/-- An answer or what is raised, and the elements left. -/
abbrev Result (α : Type) := Except Refusal (Answer α) × List α

/-- Where `fill` is to fill. -/
inductive FillPlace
  | whole
  | start (start : I64) (length : Option I64)
  | range (r : Bounds)

/-- What `values_at` is to answer. -/
inductive Selector
  | index (i : I64)
  | range (r : Bounds)

section

variable {α : Type}

def raise (refusal : Refusal) (list : List α) : Option (Result α) :=
  some (.error refusal, list)

def done (answer : Answer α) (list : List α) : Option (Result α) :=
  some (.ok answer, list)

/-! ## Vectors -/

/-- A sum of `usize`. -/
def usize (n : Nat) : Option Nat :=
  if n < 18446744073709551616 then some n else none

/-- `list[from..to]`. -/
def slice (list : List α) (i j : Nat) : Option (List α) :=
  if i ≤ j ∧ j ≤ list.length then some ((list.take j).drop i) else none

/-- `Vec::resize`, filling with nil. -/
def resize (host : Host) (nil : α) (list : List α) (n : Nat) :
    Option (List α) :=
  if n ≤ host.limit then
    some (list.take n ++ List.replicate (n - list.length) nil)
  else none

/-- The vector, resized where it is shorter. -/
def padded (host : Host) (nil : α) (list : List α) (n : Nat) :
    Option (List α) :=
  if list.length < n then resize host nil list n else some list

/-- `splice_range`. -/
def spliceRange (host : Host) (list : List α) (i j : Nat) (rep : List α) :
    Option (List α) :=
  if i ≤ j ∧ j ≤ list.length ∧
      i + rep.length + (list.length - j) ≤ host.limit then
    some (list.take i ++ rep ++ list.drop j)
  else none

/-- `Vec::drain`: what is taken out and what is left. -/
def drain (list : List α) (i j : Nat) : Option (List α × List α) :=
  if i ≤ j ∧ j ≤ list.length then
    some ((list.take j).drop i, list.take i ++ list.drop j)
  else none

/-- `Vec::remove`. -/
def remove (list : List α) (i : Nat) : Option (α × List α) :=
  list[i]?.map fun v => (v, list.eraseIdx i)

/-- `list[i] = v`. -/
def setAt (list : List α) (i : Nat) (v : α) : Option (List α) :=
  if i < list.length then some (list.set i v) else none

/-- `Vec::insert`. -/
def insertAt (host : Host) (list : List α) (i : Nat) (v : α) :
    Option (List α) :=
  if i ≤ list.length ∧ list.length < host.limit then
    some (list.take i ++ v :: list.drop i)
  else none

/-- `Vec::push`. -/
def push (host : Host) (out : List α) (v : α) : Option (List α) :=
  if out.length < host.limit then some (out ++ [v]) else none

variable {host : Host} (nil : α)

/-! ## `Array#[]` -/

/-- `ary_aref` of an index. -/
def aref (ary : Ary α host) (i : I64) : Option (Result α) := do
  let i ← countFromBack i.1 ary.list.length
  done (.item (if i < 0 then nil else ary.list.getD (asUsize i) nil)) ary.list

/-- `ary_aref` of a Range. -/
def arefRange (ary : Ary α host) (r : Bounds) : Option (Result α) := do
  match ← rangeBegLen r ary.list.length true with
  | none => done (.item nil) ary.list
  | some (i, n) => do
      let i := min (asUsize i) ary.list.length
      let stop ← usize (i + asUsize n)
      let items ← slice ary.list i (min stop ary.list.length)
      done (.list items) ary.list

/-- `ary_aref` of an index and a length. -/
def arefPair (ary : Ary α host) (i n : I64) : Option (Result α) := do
  let i ← countFromBack i.1 ary.list.length
  if i < 0 ∨ ary.list.length < i ∨ n.1 < 0 then
    done (.item nil) ary.list
  else do
    let room ← i64 (ary.list.length - i)
    let stop ← i64 (i + min n.1 room)
    let items ← slice ary.list (asUsize i) (asUsize stop)
    done (.list items) ary.list

/-! ## `Array#[]=` -/

/-- Replace a window of the elements, padded with nil up to it. -/
def replace
    (ary : Ary α host)
    (i n : Nat)
    (val : α)
    (rep : List α) :
    Option (Result α) :=
  if ary.frozen then raise .frozen ary.list
  else do
    let list ← padded host nil ary.list i
    let stop ← usize (i + n)
    let list ← spliceRange host list i (min stop list.length) rep
    done (.item val) list

/-- `ary_aset` of an index. -/
def aset (ary : Ary α host) (h : I64) (val : α) : Option (Result α) := do
  let i ← countFromBack h.1 ary.list.length
  if ary.frozen then raise .frozen ary.list
  else if i < 0 then do
    let index ← i64 (i - ary.list.length)
    raise (.outOfArray index) ary.list
  else do
    let next ← usize (asUsize i + 1)
    let list ← padded host nil ary.list next
    let list ← setAt list (asUsize i) val
    done (.item val) list

/-- `ary_aset` of an index and a length, for a value whose elements are put in
where it is an Array. -/
def asetPair
    (ary : Ary α host)
    (h n : I64)
    (val : α)
    (spread : Option (List α)) :
    Option (Result α) :=
  if ary.frozen then raise .frozen ary.list
  else if n.1 < 0 then raise (.negativeCount n.1) ary.list
  else do
    let i ← countFromBack h.1 ary.list.length
    if h.1 < 0 ∧ i < 0 then raise (.isOutOfArray i) ary.list
    else do
      let found ← indexArgs ary.list.length h.1 n.1
      let (i, n) := found.getD (asUsize h.1, 0)
      replace nil ary i n val (spread.getD [val])

/-- `ary_aset` of a Range. -/
def asetRange
    (ary : Ary α host)
    (r : Bounds)
    (val : α)
    (spread : Option (List α)) :
    Option (Result α) := do
  let b ← countFromBack r.given ary.list.length
  if b < 0 then raise .outOfRange ary.list
  else do
    let (e, excl) := r.givenEnd (-1, false)
    let e ← countFromBack e ary.list.length
    let e ← i64 (e + if excl then 0 else 1)
    let n ← i64 (e - b)
    replace nil ary (asUsize b) (asUsize (max n 0)) val (spread.getD [val])

/-! ## `slice!` -/

/-- The end of `slice!`, once the start and the length are known. -/
def sliceWindow (list : List α) (i n : Int) : Option (Result α) := do
  let i ← countFromBack i list.length
  if i < 0 ∨ list.length < i then done (.item nil) list
  else if n < 0 then done (.item nil) list
  else if list.length = i then done (.list []) list
  else do
    let room ← i64 (list.length - i)
    let stop ← i64 (i + if n > room then room else n)
    let (cut, rest) ← drain list (asUsize i) (asUsize stop)
    done (.list cut) rest

/-- `slice!` of an index. -/
def sliceAt (ary : Ary α host) (i : I64) : Option (Result α) :=
  if ary.frozen then raise .frozen ary.list
  else do
    let i ← countFromBack i.1 ary.list.length
    if i < 0 ∨ i ≥ ary.list.length then done (.item nil) ary.list
    else do
      let (v, rest) ← remove ary.list (asUsize i)
      done (.item v) rest

/-- `slice!` of an index and a length. -/
def slicePair (ary : Ary α host) (i n : I64) : Option (Result α) :=
  if ary.frozen then raise .frozen ary.list
  else sliceWindow nil ary.list i.1 n.1

/-- `slice!` of a Range. -/
def sliceRange (ary : Ary α host) (r : Bounds) : Option (Result α) :=
  if ary.frozen then raise .frozen ary.list
  else do
    match ← rangeBegLen r ary.list.length true with
    | none => done (.item nil) ary.list
    | some (b, l) => sliceWindow nil ary.list b l

/-! ## `insert` -/

/-- Insert values one after another. -/
def insertAll (host : Host) : List α → Nat → List α → Option (List α)
  | list, _, [] => some list
  | list, i, v :: vals => do
      let list ← insertAt host list i v
      insertAll host list (i + 1) vals

/-- The place `insert` counts from the back. -/
def insertPlace (idx len : Int) : Option Int :=
  if idx < 0 then do
    let counted ← i64 (idx + len)
    i64 (counted + 1)
  else some idx

/-- `insert`. -/
def insert (ary : Ary α host) (idx : I64) (vals : List α) : Option (Result α) :=
  if vals.isEmpty then
    if ary.frozen then raise .frozen ary.list else done .receiver ary.list
  else do
    let j ← insertPlace idx.1 ary.list.length
    if j < 0 then do
      let total ← i64 (ary.list.length + 1)
      let index ← i64 (j - total)
      raise (.outsideBounds index) ary.list
    else if ary.frozen then raise .frozen ary.list
    else do
      let total ← usize (asUsize (max j ary.list.length) + vals.length)
      if total > ARY_MAX_SIZE then raise .sizeTooBig ary.list
      else do
        let list ← padded host nil ary.list (asUsize j)
        let list ← insertAll host list (asUsize j) vals
        done .receiver list

/-! ## `fill` -/

/-- `__fill_parse_arg`, without a value where it raises RangeError. -/
def fillParseArg (len : Int) : FillPlace → Option (Option (Int × Int))
  | .whole => some (some (0, len))
  | .start start length => do
      let counted ← countFromBack start.1 len
      let start := if counted < 0 then 0 else counted
      match length with
      | none => do
          let rest ← i64 (len - start)
          some (some (start, rest))
      | some length => some (some (start, if length.1 < 0 then 0 else length.1))
  | .range r => do
      match ← rangeBegLen r len true with
      | some found => some (some found)
      | none => fillRangeOut r len

/-- Store a value from a place on. -/
def fillLoop (obj : α) : List α → Nat → Nat → Option (List α)
  | list, _, 0 => some list
  | list, i, n + 1 => do
      let list ← setAt list i obj
      fillLoop obj list (i + 1) n

/-- `__fill_exec`.  Each of its three ends checks that the Array is not
frozen. -/
def fillExec (ary : Ary α host) (start length : Int) (obj : α) :
    Option (Result α) :=
  if start < 0 then raise .negativeStart ary.list
  else if length < 0 then raise .negativeLength ary.list
  else
    match i64 (start + length) with
    | none => raise .sizeTooBig ary.list
    | some stop =>
        if asUsize stop > ARY_MAX_SIZE then raise .sizeTooBig ary.list
        else if ary.frozen then raise .frozen ary.list
        else do
          let list ← padded host nil ary.list (asUsize stop)
          if asUsize start ≥ list.length ∨ length ≤ 0 then
            done .receiver list
          else do
            let list ← fillLoop obj list (asUsize start)
              (asUsize stop - asUsize start)
            done .receiver list

/-- `fill` of a value. -/
def fill (ary : Ary α host) (at_ : FillPlace) (obj : α) :
    Option (Result α) := do
  match ← fillParseArg ary.list.length at_ with
  | none => raise .outOfRange ary.list
  | some (start, length) => fillExec nil ary start length obj

/-! ## `values_at` -/

/-- The elements from a place on, nil past the end. -/
def selectLoop (host : Host) (list : List α) :
    Nat → Nat → List α → Option (List α)
  | _, 0, out => some out
  | j, n + 1, out => do
      let out ← push host out (list.getD j nil)
      selectLoop host list (j + 1) n out

/-- The loop of `values_at`. -/
def valuesLoop (host : Host) (list : List α) :
    List Selector → List α → Option (Except Refusal (List α))
  | [], out => some (.ok out)
  | .index i :: rest, out => do
      let i ← countFromBack i.1 list.length
      let out ← push host out (if i < 0 then nil else list.getD (asUsize i) nil)
      valuesLoop host list rest out
  | .range r :: rest, out => do
      match ← rangeBegLen r list.length false with
      | none => some (.error .invalidSelector)
      | some (beg, len) => do
          let stop ← i64 (beg + len)
          let out ← selectLoop nil host list (asUsize beg)
            (asUsize stop - asUsize beg) out
          valuesLoop host list rest out

/-- `values_at`. -/
def valuesAt (ary : Ary α host) (selectors : List Selector) :
    Option (Result α) := do
  match ← valuesLoop nil host ary.list selectors [] with
  | .error refusal => raise refusal ary.list
  | .ok out => done (.list out) ary.list

end

end SabiRuby.Elements
