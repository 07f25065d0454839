import SabiRuby.Library.Congruential
import SabiRuby.Library.Fuel

/-!
# Random draws

`Random` draws 32-bit words and rejects those that would favour some values.
The words come from any generator, with the one the program has, a linear
congruential one whose state is permuted and rotated, as an instance.  A loop
that rejects words is given the turns it may take.
-/

namespace SabiRuby.Randoms

open Library

def PCG_MULTIPLIER : UInt64 := 6364136223846793005

def PCG_INCREMENT : UInt64 := 1442695040888963407

/-- What `uint32` answers in a state. -/
def pcgOutput (old : UInt64) : UInt32 :=
  let xorshifted := (((old >>> 18) ^^^ old) >>> 27).toUInt32
  let rot := (old >>> 59).toUInt32
  (xorshifted >>> rot) ||| (xorshifted <<< ((32 - rot) &&& 31))

/-- `uint32`. -/
def pcg (old : UInt64) : UInt32 × UInt64 :=
  (pcgOutput old, old * PCG_MULTIPLIER + PCG_INCREMENT)

section

variable {S : Type} (uint32 : S → UInt32 × S)

/-- `uint`. -/
def uint (s : S) : UInt64 × S :=
  let (high, s) := uint32 s
  let (low, s) := uint32 s
  ((high.toUInt64 <<< 32) ||| low.toUInt64, s)

/-- Draw words until one is accepted. -/
def drawUntil {W : Type} (next : S → W × S) (accepted : W → Bool) :
    Nat → S → Option (W × S)
  | 0, _ => none
  | turns + 1, s =>
      let (r, s) := next s
      if accepted r then some (r, s) else drawUntil next accepted turns s

/-- The words that are not among the whole rounds of the span, 64 bits. -/
def threshold64 (span : UInt64) : UInt64 := (0 - span) % span

/-- The same, 32 bits. -/
def threshold32 (m : UInt32) : UInt32 := (0 - m) % m

/-- `int`. -/
def int (turns : Nat) (max : Int64) (s : S) : Option (Int64 × S) :=
  if max ≤ 0 then some (0, s)
  else if max > 4294967295 then
    let umax := max.toUInt64
    (drawUntil (uint uint32) (fun r => threshold64 umax ≤ r) turns s).map
      fun (r, s) => ((r % umax).toInt64, s)
  else
    let m := max.toUInt64.toUInt32
    (drawUntil uint32 (fun r => threshold32 m ≤ r) turns s).map
      fun (r, s) => ((r % m).toUInt64.toInt64, s)

/-- `u`, a span of zero for the whole domain. -/
def u (turns : Nat) (span : UInt64) (s : S) : Option (UInt64 × S) :=
  if span = 0 then some (uint uint32 s)
  else
    (drawUntil (uint uint32) (fun r => threshold64 span ≤ r) turns s).map
      fun (r, s) => (r % span, s)

/-- `rand_range_int`, without a value for nil. -/
def randRangeInt (turns : Nat) (begin_ end_ : Int64) (excl : Bool) (s : S) :
    Option (Option Int64 × S) :=
  if begin_ > end_ ∨ (excl = true ∧ begin_ = end_) then some (none, s)
  else
    let span := end_.toUInt64 - begin_.toUInt64 + if excl then 0 else 1
    (u uint32 turns span s).map
      fun (r, s) => (some (begin_.toUInt64 + r).toInt64, s)

end

section

variable {S α : Type} (int : Int64 → S → Option (Int64 × S))

/-- `v.swap(i, j)`. -/
def swap (v : List α) (i j : Nat) : Option (List α) := do
  let x ← v[i]?
  let y ← v[j]?
  some ((v.set i y).set j x)

/-- The loop of `shuffle!` from a place down, with what draws a number. -/
def shuffleLoop : Nat → List α → S → Option (List α × S)
  | 0, v, s => some (v, s)
  | i + 1, v, s => do
      let (j, s) ← int (Int64.ofNat (i + 1) + 1) s
      let v ← swap v (i + 1) j.toUInt64.toNat
      shuffleLoop i v s

/-- `shuffle!` of an Array that is not frozen. -/
def shuffle (v : List α) (s : S) : Option (List α × S) :=
  if v.length > 1 then shuffleLoop int (v.length - 1) v s
  else some (v, s)

/-- A position that is not among those drawn. -/
def pick (len : Nat) (idx : List Nat) : Nat → S → Option (Nat × S)
  | 0, _ => none
  | turns + 1, s => do
      let (v, s) ← int (Int64.ofNat len) s
      if v.toUInt64.toNat ∈ idx then pick len idx turns s
      else some (v.toUInt64.toNat, s)

/-- The positions `sample` draws. -/
def picks (len turns : Nat) : Nat → List Nat → S → Option (List Nat × S)
  | 0, idx, s => some (idx, s)
  | n + 1, idx, s => do
      let (v, s) ← pick int len idx turns s
      picks len turns n (idx ++ [v]) s

/-- `sample` of a count, without a value where the count is negative. -/
def sample (turns : Nat) (vals : List α) (n : Int64) (s : S) :
    Option (Option (List α) × S) :=
  if n < 0 then some (none, s)
  else do
    let (idx, s) ← picks int vals.length turns
      (min n.toUInt64.toNat vals.length) [] s
    let out ← idx.mapM fun i => vals[i]?
    some (some out, s)

end

end SabiRuby.Randoms
