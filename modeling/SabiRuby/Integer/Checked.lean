import SabiRuby.Integer.Magnitude

/-!
# Arithmetic that is checked

The loops of the division once more, in the arithmetic of a build that stops
when a result does not fit its type.  A left shift is one of the checked
operations here, and so are the assertions of the source.
-/

namespace SabiRuby.Integer

def addChecked (x y : UInt64) : Option UInt64 :=
  if x.toNat + y.toNat < 2 ^ 64 then some (x + y) else none

def subChecked (x y : UInt64) : Option UInt64 :=
  if y.toNat ≤ x.toNat then some (x - y) else none

def mulChecked (x y : UInt64) : Option UInt64 :=
  if x.toNat * y.toNat < 2 ^ 64 then some (x * y) else none

/-- No bit is shifted out. -/
def shlChecked (x bits : UInt64) : Option UInt64 :=
  if x.toNat < 2 ^ (64 - bits.toNat) then some (x <<< bits) else none

def addSigned (a b : Int64) : Option Int64 :=
  if -2 ^ 63 ≤ a.toInt + b.toInt ∧ a.toInt + b.toInt < 2 ^ 63 then
    some (a + b)
  else none

def subSigned (a b : Int64) : Option Int64 :=
  if -2 ^ 63 ≤ a.toInt - b.toInt ∧ a.toInt - b.toInt < 2 ^ 63 then
    some (a - b)
  else none

theorem addChecked_eq
    (fits : x.toNat + y.toNat < 2 ^ 64) : addChecked x y = some (x + y) :=
  if_pos fits

theorem subChecked_eq
    (fits : y.toNat ≤ x.toNat) : subChecked x y = some (x - y) :=
  if_pos fits

theorem mulChecked_eq
    (fits : x.toNat * y.toNat < 2 ^ 64) : mulChecked x y = some (x * y) :=
  if_pos fits

/-- A limb into the high half of a double word. -/
theorem shlChecked_limb
    {x : UInt64}
    (fits : x.toNat < 2 ^ 32) : shlChecked x 32 = some (x <<< 32) := by
  have width : (32 : UInt64).toNat = 32 := rfl
  unfold shlChecked
  rw [if_pos (by rw [width]; exact fits)]

theorem addSigned_eq
    {a b : Int64}
    (low : -2 ^ 63 ≤ a.toInt + b.toInt)
    (high : a.toInt + b.toInt < 2 ^ 63) :
    addSigned a b = some (a + b) :=
  if_pos ⟨low, high⟩

theorem subSigned_eq
    (low : -2 ^ 63 ≤ a.toInt - b.toInt)
    (high : a.toInt - b.toInt < 2 ^ 63) :
    subSigned a b = some (a - b) :=
  if_pos ⟨low, high⟩

def addLimbs (x y : UInt32) : Option UInt32 :=
  if x.toNat + y.toNat < 2 ^ 32 then some (x + y) else none

def mulLimbs (x y : UInt32) : Option UInt32 :=
  if x.toNat * y.toNat < 2 ^ 32 then some (x * y) else none

theorem addLimbs_eq
    (fits : x.toNat + y.toNat < 2 ^ 32) : addLimbs x y = some (x + y) :=
  if_pos fits

theorem mulLimbs_eq
    (fits : x.toNat * y.toNat < 2 ^ 32) : mulLimbs x y = some (x * y) :=
  if_pos fits

/-! ## Division by a limb -/

/-- `udivSmallLoop`. -/
def udivSmallLoopChecked (d : UInt32) :
    List UInt32 → Option (List UInt32 × UInt64)
  | [] => some ([], 0)
  | x :: a => do
      let (q, r) ← udivSmallLoopChecked d a
      let high ← shlChecked r 32
      let cur := high ||| x.toUInt64
      some ((cur / d.toUInt64).toUInt32 :: q, cur % d.toUInt64)

/-- `udivSmall`. -/
def udivSmallChecked (a : List UInt32) (d : UInt32) :
    Option (List UInt32 × UInt32) :=
  if d = 0 then none
  else do
    let (q, r) ← udivSmallLoopChecked d a
    some (trim q, r.toUInt32)

/-! ## Long division -/

/-- The test of `estimateLoop`. -/
def tooLargeChecked (b2 u2 : UInt32) (qhat rhat : UInt64) : Option Bool :=
  if BASE ≤ qhat then some true
  else do
    let product ← mulChecked qhat b2.toUInt64
    let high ← shlChecked rhat 32
    some (product > high ||| u2.toUInt64)

/-- `estimateLoop`. -/
def estimateLoopChecked (b1 b2 u2 : UInt32) :
    Nat → UInt64 → UInt64 → Option UInt64
  | 0, _, _ => none
  | turns + 1, qhat, rhat => do
      if ← tooLargeChecked b2 u2 qhat rhat then
        let qhat ← subChecked qhat 1
        let rhat ← addChecked rhat b1.toUInt64
        if rhat < BASE then estimateLoopChecked b1 b2 u2 turns qhat rhat
        else some qhat
      else some qhat

/-- `mulSubLoop`. -/
def mulSubLoopChecked (qhat : UInt64) :
    List UInt32 → List UInt32 → UInt64 → Int64 → Option (List UInt32 × Bool)
  | b :: bn, a :: an, carry, borrow => do
      let product ← mulChecked qhat b.toUInt64
      let p ← addChecked product carry
      let taken ← subSigned (asI64 a) (p &&& 0xFFFFFFFF).toInt64
      let t ← subSigned taken borrow
      let (out, negative) ←
        mulSubLoopChecked qhat bn an (p >>> 32) (if t < 0 then 1 else 0)
      some (asU32 t :: out, negative)
  | [], a :: an, carry, borrow => do
      let taken ← subSigned (asI64 a) carry.toInt64
      let t ← subSigned taken borrow
      some (asU32 t :: an, t < 0)
  | _, [], _, _ => none

/-- `addBackLoop`; its last addition wraps in every build. -/
def addBackLoopChecked :
    List UInt32 → List UInt32 → UInt64 → Option (List UInt32)
  | b :: bn, a :: an, carry => do
      let sum ← addChecked a.toUInt64 b.toUInt64
      let s2 ← addChecked sum carry
      (addBackLoopChecked bn an (s2 >>> 32)).map (s2.toUInt32 :: ·)
  | [], a :: an, carry => some ((a.toUInt64 + carry).toUInt32 :: an)
  | _, [], _ => none

/-- `divStep`. -/
def divStepChecked (bn an : List UInt32) : Option (UInt32 × List UInt32) := do
  let n := bn.length
  let b1 ← bn[n - 1]?
  let b2 ← bn[n - 2]?
  let u0 ← an[n]?
  let u1 ← an[n - 1]?
  let u2 ← an[n - 2]?
  if b1 = 0 then none
  else
    let high ← shlChecked u0.toUInt64 32
    let top := high ||| u1.toUInt64
    let qhat ← estimateLoopChecked b1 b2 u2 2
      (top / b1.toUInt64) (top % b1.toUInt64)
    let (an, negative) ← mulSubLoopChecked qhat bn an 0 0
    if negative then
      let qhat ← subChecked qhat 1
      let an ← addBackLoopChecked bn an 0
      some (qhat.toUInt32, an)
    else some (qhat.toUInt32, an)

/-- `divLoop`. -/
def divLoopChecked (bn : List UInt32) :
    Nat → List UInt32 → List UInt32 → Option (List UInt32 × List UInt32)
  | 0, an, q => some (q, an)
  | j + 1, an, q => do
      let (digit, high) ← divStepChecked bn (an.drop j)
      divLoopChecked bn j (an.take j ++ high) (digit :: q)

/-- `udivmod`. -/
def udivmodChecked (a b : List UInt32) :
    Option (List UInt32 × List UInt32) :=
  if b.isEmpty then none
  else if ucmp a b = .lt then some ([], a)
  else
    match b.getLast? with
    | none => none
    | some last =>
        if b.length = 1 then do
          let (q, r) ← udivSmallChecked a last
          some (q, trim [r])
        else
          let s := UInt32.ofNat (leadingZeros last)
          let n := b.length
          let bn := if s = 0 then b else (shlLoop s b 0).1
          let an :=
            if s = 0 then a ++ [0]
            else (shlLoop s a 0).1 ++ [(shlLoop s a 0).2]
          if a.length < n ∨ (s ≠ 0 ∧ (shlLoop s b 0).2 ≠ 0) then none
          else do
            let (q, an) ← divLoopChecked bn (a.length - n + 1) an []
            let r := an.take n
            let r := if s > 0 then ushr r 0 s else r
            some (trim q, trim r)

end SabiRuby.Integer
