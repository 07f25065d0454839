import SabiRuby.Library.Fuel
import Mathlib.Data.List.Basic

/-!
# Walks over nested Arrays

Arrays may contain one another and themselves.  What `flatten`, `join`, `==`,
`eql?`, `inspect` and `puts` make of their other elements is up to these.  Every
call of a walk takes a unit of fuel.
-/

namespace SabiRuby.Nesting

/-- An element of an Array: another value, or an Array. -/
inductive Elem (α : Type)
  | leaf (v : α)
  | arr (a : Nat)
  deriving DecidableEq, Repr

/-- Whether an element is an Array. -/
def Elem.isArr : Elem α → Bool
  | .leaf _ => false
  | .arr _ => true

/-- Whether an element is this Array. -/
def Elem.isThis (a : Nat) : Elem α → Bool
  | .leaf _ => false
  | .arr b => a == b

/-- What is raised: `systemStackError` is "stack level too deep", and
`recursiveJoin` "recursive array join". -/
inductive Raise (ε : Type)
  | systemStackError
  | recursiveJoin
  | other (e : ε)
  deriving DecidableEq, Repr

/-- What the other elements answer to `to_s`, `inspect`, `==` and `eql?`, called
at some native depth. -/
structure Leaves (α ε : Type) where
  text : Nat → α → Except ε (List UInt8)
  inspect : Nat → α → Except ε (List UInt8)
  eq : Nat → α → Elem α → Except ε Bool
  eql : Nat → α → Elem α → Except ε Bool

/-- The Arrays by number; no other number has elements. -/
structure Graph (α : Type) where
  arrays : List (List (Elem α))
  deriving DecidableEq, Repr

/-- `NATIVE_DEPTH_MAX` -/
def NATIVE_DEPTH_MAX : Nat := 96

variable {α ε : Type}

def Graph.items (g : Graph α) (a : Nat) : List (Elem α) :=
  g.arrays.getD a []

/-! ## `flatten` -/

/-- The loop of `flatten_internal`.  The stack holds what is left of each Array
and its depth. -/
def Graph.flattenLoop (g : Graph α) (level : Int) :
    Nat → List (List (Elem α) × Int) → List (Elem α) → Bool →
      Option (List (Elem α) × Bool)
  | _, [], result, modified => some (result, modified)
  | 0, _ :: _, _, _ => none
  | fuel + 1, ([], _) :: stack, result, modified =>
      g.flattenLoop level fuel stack result modified
  | fuel + 1, (.leaf v :: rest, depth) :: stack, result, modified =>
      g.flattenLoop level fuel ((rest, depth) :: stack) (result ++ [.leaf v])
        modified
  | fuel + 1, (.arr a :: rest, depth) :: stack, result, modified =>
      if level < 0 ∨ depth ≤ level then
        g.flattenLoop level fuel
          ((g.items a, depth + 1) :: (rest, depth) :: stack) result true
      else
        g.flattenLoop level fuel ((rest, depth) :: stack) (result ++ [.arr a])
          modified

/-- `flatten_internal`: the elements, and whether there was anything to
flatten. -/
def Graph.flattenInternal (g : Graph α) (s : Nat) (level : Int) (fuel : Nat) :
    Option (List (Elem α) × Bool) :=
  g.flattenLoop level fuel [(g.items s, 1)] [] false

/-! ## Loops over the elements -/

/-- A computation that may run out of fuel and may raise. -/
abbrev Walk (ε β : Type) := Option (Except (Raise ε) β)

/-- What an element answered. -/
def answered {β : Type} (r : Except ε β) : Walk ε β :=
  some (r.mapError .other)

/-- Appends what the elements give, until one raises. -/
def collect (part : Nat → Elem α → Walk ε (List UInt8)) :
    Nat → List (Elem α) → List UInt8 → Walk ε (List UInt8)
  | _, [], out => some (.ok out)
  | idx, e :: rest, out =>
      match part idx e with
      | none => none
      | some (.error raised) => some (.error raised)
      | some (.ok bytes) => collect part (idx + 1) rest (out ++ bytes)

/-- Whether all pairs of elements are equal, until one is not or raises. -/
def allEqual (equal : Elem α → Elem α → Walk ε Bool) :
    List (Elem α) → List (Elem α) → Walk ε Bool
  | p :: xs, q :: ys =>
      match equal p q with
      | none => none
      | some (.error raised) => some (.error raised)
      | some (.ok false) => some (.ok false)
      | some (.ok true) => allEqual equal xs ys
  | _, _ => some (.ok true)

/-! ## `join` -/

/-- `rec` of `ary_join`. -/
def Graph.joinFrom (g : Graph α) (leaves : Leaves α ε) (nativeDepth : Nat)
    (sep : List UInt8) : Nat → Nat → List Nat → Walk ε (List UInt8)
  | 0, _, _ => none
  | fuel + 1, v, path =>
      collect (fun idx it =>
        let before := if 0 < idx then sep else []
        match it with
        | .arr a =>
            if a = v ∨ a ∈ path then some (.error .recursiveJoin)
            else
              (g.joinFrom leaves nativeDepth sep fuel a (path ++ [v])).map
                (·.map (before ++ ·))
        | .leaf w => answered ((leaves.text nativeDepth w).map (before ++ ·)))
        0 (g.items v) []

/-- `ary_join` -/
def Graph.aryJoin (g : Graph α) (leaves : Leaves α ε) (nativeDepth : Nat)
    (sep : List UInt8) (s fuel : Nat) : Walk ε (List UInt8) :=
  g.joinFrom leaves nativeDepth sep fuel s []

/-! ## `==` and `eql?` -/

/-- `ary_eq`, with the pairs that are being compared. -/
def Graph.aryEq (g : Graph α) (leaves : Leaves α ε) :
    Nat → Nat → List (Nat × Nat) → Nat → Elem α → Walk ε Bool
  | 0, _, _, _, _ => none
  | fuel + 1, nativeDepth, guard_, s, other =>
      match other with
      | .leaf _ => some (.ok false)
      | .arr o =>
          if s = o then some (.ok true)
          else if (s, o) ∈ guard_ then some (.ok true)
          else if (g.items s).length ≠ (g.items o).length then some (.ok false)
          else
            -- `Vm::equal`: identity, and else `==` is sent
            allEqual (fun p q =>
              match p with
              | .leaf v => answered (leaves.eq nativeDepth v q)
              | .arr a =>
                  if q.isThis a then some (.ok true)
                  else if NATIVE_DEPTH_MAX ≤ nativeDepth then
                    some (.error .systemStackError)
                  else
                    g.aryEq leaves fuel (nativeDepth + 1)
                      (guard_ ++ [(s, o)]) a q)
              (g.items s) (g.items o)

/-- `Array#eql?` -/
def Graph.aryEql (g : Graph α) (leaves : Leaves α ε) :
    Nat → Nat → List (Nat × Nat) → Nat → Elem α → Walk ε Bool
  | 0, _, _, _, _ => none
  | fuel + 1, nativeDepth, guard_, s, other =>
      match other with
      | .leaf _ => some (.ok false)
      | .arr o =>
          if s = o then some (.ok true)
          else if (g.items s).length ≠ (g.items o).length then some (.ok false)
          else if (s, o) ∈ guard_ then some (.ok true)
          else
            allEqual (fun p q =>
              match p with
              | .leaf v => answered (leaves.eql nativeDepth v q)
              | .arr a =>
                  if NATIVE_DEPTH_MAX ≤ nativeDepth then
                    some (.error .systemStackError)
                  else
                    g.aryEql leaves fuel (nativeDepth + 1)
                      (guard_ ++ [(s, o)]) a q)
              (g.items s) (g.items o)

/-! ## `inspect` -/

/-- `ary_inspect`, with the objects that `Vm::inspect` has asked; `[...]` stands
for one that is asked already. -/
def Graph.aryInspect (g : Graph α) (leaves : Leaves α ε) :
    Nat → Nat → List Nat → Nat → Walk ε (List UInt8)
  | 0, _, _, _ => none
  | fuel + 1, nativeDepth, guard_, v =>
      (collect (fun i it =>
        let before := if 0 < i then [44, 32] else []
        match it with
        | .leaf w => answered ((leaves.inspect nativeDepth w).map (before ++ ·))
        | .arr a =>
            if a = v ∨ a ∈ guard_ then
              some (.ok (before ++ [91, 46, 46, 46, 93]))
            else if NATIVE_DEPTH_MAX ≤ nativeDepth then
              some (.error .systemStackError)
            else
              (g.aryInspect leaves fuel (nativeDepth + 1) (guard_ ++ [a]) a).map
                (·.map (before ++ ·)))
        0 (g.items v) [91]).map (·.map (· ++ [93]))

/-! ## `puts` -/

/-- A line for `puts`: it ends with a newline. -/
def line (bytes : List UInt8) : List UInt8 :=
  if bytes.getLast? = some 10 then bytes else bytes ++ [10]

/-- `puts_value`, with what was written. -/
def Graph.putsValue (g : Graph α) (leaves : Leaves α ε) (nativeDepth : Nat) :
    Nat → Nat → Elem α → Walk ε (List UInt8)
  | 0, _, _ => none
  | fuel + 1, depth, v =>
      match v with
      | .leaf w => answered ((leaves.text nativeDepth w).map line)
      | .arr a =>
          if (g.items a).isEmpty ∧ depth = 0 then some (.ok [10])
          else
            collect
              (fun _ it => g.putsValue leaves nativeDepth fuel (depth + 1) it)
              0 (g.items a) []

end SabiRuby.Nesting
