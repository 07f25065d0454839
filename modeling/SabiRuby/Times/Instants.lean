import SabiRuby.Times.Calendar

/-!
# The instants Time stores

`Time.at`, `Time.gm` and its siblings, `+` and `-` of Integer components.  A
Time holds seconds and nanoseconds; a method answers one, raises, or has no
value where an operation on `i64` overflows.  Float components are left out.
-/

namespace SabiRuby.Times

open Library

/-- What the methods raise of Integer components. -/
inductive Refusal
  /-- ArgumentError `argument out of range`. -/
  | argument
  /-- RangeError `integer out of range`. -/
  | wide
  /-- RangeError `Time out of range in addition`. -/
  | addition
  /-- RangeError `Time out of range in subtraction`. -/
  | subtraction
  deriving DecidableEq, Repr

/-- The hidden variables of a Time. -/
structure Tm where
  sec : Int
  nsec : Int
  utc : Bool
  deriving DecidableEq, Repr

/-- An answer or what is raised, or nothing where an operation overflows. -/
abbrev Outcome := Option (Except Refusal Tm)

def NSECS_PER_SEC : Int := 1000000000

def USECS_PER_SEC : Int := 1000000

/-! ## Normalising -/

/-- `normalize`. -/
def normalize (sec nsec : Int) : Option (Int × Int) :=
  if nsec < 0 then do
    let above ← i64 (nsec + 1)
    let negated ← i64 (-above)
    let quotient ← i64 (-(negated.tdiv NSECS_PER_SEC))
    let adj ← i64 (quotient - 1)
    let moved ← i64 (adj * NSECS_PER_SEC)
    let nsec ← i64 (nsec - moved)
    let sec ← i64 (sec + adj)
    some (sec, nsec)
  else if nsec ≥ NSECS_PER_SEC then do
    let adj := nsec.tdiv NSECS_PER_SEC
    let moved ← i64 (adj * NSECS_PER_SEC)
    let nsec ← i64 (nsec - moved)
    let sec ← i64 (sec + adj)
    some (sec, nsec)
  else some (sec, nsec)

/-- The nanoseconds a whole number of seconds can be taken off. -/
def Normalizes (sec nsec : Int) : Prop :=
  -9223372036000000000 ≤ nsec ∧ IsI64 (sec + nsec / 1000000000)

theorem normalize_eq
    (secHeld : IsI64 sec)
    (nsecHeld : IsI64 nsec)
    (fits : Normalizes sec nsec) :
    normalize sec nsec =
      some (sec + nsec / 1000000000, nsec % 1000000000) := by
  obtain ⟨lower, held⟩ := fits
  unfold IsI64 at secHeld nsecHeld held
  unfold normalize NSECS_PER_SEC
  by_cases negative : nsec < 0
  · rw [if_pos negative]
    refine i64_bind ?_
    refine i64_bind ?_
    rw [Int.tdiv_eq_ediv_of_nonneg (by omega)]
    refine i64_bind ?_
    refine i64_bind_of_eq (by omega : _ = nsec / 1000000000)
      (by unfold IsI64; omega) ?_
    refine i64_bind ?_
    refine i64_bind_of_eq (by omega : _ = nsec % 1000000000)
      (by unfold IsI64; omega) ?_
    exact i64_bind_of_eq rfl held rfl
  · rw [if_neg negative]
    by_cases large : nsec ≥ 1000000000
    · rw [if_pos large]
      simp only [Int.tdiv_eq_ediv_of_nonneg (Int.not_lt.mp negative)]
      refine i64_bind ?_
      refine i64_bind_of_eq (by omega : _ = nsec % 1000000000)
        (by unfold IsI64; omega) ?_
      exact i64_bind_of_eq rfl held rfl
    · rw [if_neg large, show nsec / 1000000000 = 0 by omega,
        show nsec % 1000000000 = nsec by omega, Int.add_zero]

/-- Normalising that answers had room for every operation. -/
theorem normalizes_of_eq_some
    (secHeld : IsI64 sec)
    (answers : normalize sec nsec = some normal) :
    Normalizes sec nsec := by
  unfold IsI64 at secHeld
  unfold normalize NSECS_PER_SEC at answers
  unfold Normalizes
  by_cases negative : nsec < 0
  · rw [if_pos negative] at answers
    simp only [i64_bind_eq_some_iff,
      Int.tdiv_eq_ediv_of_nonneg (show 0 ≤ -(nsec + 1) by omega)] at answers
    obtain ⟨-, -, -, -, moved, -, held, -⟩ := answers
    rw [show -(-(nsec + 1) / 1000000000) - 1 = nsec / 1000000000 by omega]
      at moved held
    refine ⟨?_, held⟩
    unfold IsI64 at moved
    omega
  · rw [if_neg negative] at answers
    by_cases large : nsec ≥ 1000000000
    · rw [if_pos large] at answers
      simp only [i64_bind_eq_some_iff,
        Int.tdiv_eq_ediv_of_nonneg (Int.not_lt.mp negative)] at answers
      exact ⟨by omega, answers.2.2.1⟩
    · rw [show nsec / 1000000000 = 0 by omega, Int.add_zero]
      exact ⟨by omega, secHeld⟩

/-- `wrap`. -/
def wrap (sec nsec : Int) (utc : Bool) : Outcome := do
  let (sec, nsec) ← normalize sec nsec
  some (.ok { sec, nsec, utc })

/-! ## The methods -/

/-- `to_time_t` and `expect_int` of an Integer. -/
def toTimeT (v : Int) : Except Refusal Int :=
  if IsI64 v then .ok v else .error .wide

/-- Go on with an answer, or raise what was raised. -/
def orRefuse
    (answer : Except Refusal Int)
    (next : Int → Outcome) :
    Outcome :=
  match answer with
  | .error refusal => some (.error refusal)
  | .ok value => next value

/-- Whole seconds are carried from the microseconds, towards zero. -/
def carry (tsec tusec : Int) : Option (Int × Int) :=
  if tusec ≥ USECS_PER_SEC ∨ tusec ≤ -USECS_PER_SEC then do
    let adj := tusec.tdiv USECS_PER_SEC
    let moved ← i64 (adj * USECS_PER_SEC)
    let tusec ← i64 (tusec - moved)
    let tsec ← i64 (tsec + adj)
    some (tsec, tusec)
  else some (tsec, tusec)

/-- `make` of two Integers. -/
def make (sec usec : Int) (utc : Bool) : Outcome :=
  orRefuse (toTimeT sec) fun tsec =>
    orRefuse (toTimeT usec) fun usec => do
      let tusec ← i64 (0 + usec)
      let (tsec, tusec) ← carry tsec tusec
      let nsec ← i64 (tusec * 1000)
      wrap tsec nsec utc

/-- `Time.at`. -/
def timeAt (sec : Int) (usec : Option Int) : Outcome :=
  make sec (usec.getD 0) false

/-- The arguments of `mktime`: a year and at most six more. -/
structure Components where
  year : Int
  rest : List Int
  rest_le : rest.length ≤ 6
  deriving DecidableEq, Repr

namespace Components

variable (a : Components)

/-- The arguments. -/
def all : List Int := a.year :: a.rest

def mon : Int := a.rest.getD 0 1

def day : Int := a.rest.getD 1 1

def hour : Int := a.rest.getD 2 0

def min : Int := a.rest.getD 3 0

def sec : Int := a.rest.getD 4 0

def usec : Int := a.rest.getD 5 0

/-- A component is outside the range of its field. -/
def Misplaced : Prop :=
  ¬ (1 ≤ a.mon ∧ a.mon ≤ 12) ∨ ¬ (1 ≤ a.day ∧ a.day ≤ 31) ∨
    ¬ (0 ≤ a.hour ∧ a.hour ≤ 24) ∨
      (a.hour = 24 ∧ (a.min > 0 ∨ a.sec > 0)) ∨
        ¬ (0 ≤ a.min ∧ a.min ≤ 59) ∨ ¬ (0 ≤ a.sec ∧ a.sec ≤ 60)

instance : Decidable a.Misplaced :=
  inferInstanceAs (Decidable (_ ∨ _))

end Components

/-- `mktime`. -/
def mktime (a : Components) (utc : Bool) : Outcome :=
  if ¬ ∀ v ∈ a.all, IsI64 v then some (.error .wide)
  else if a.year < -9223372036854775808 + 1900 then some (.error .argument)
  else if a.Misplaced then some (.error .argument)
  else do
    let days ← daysFromCivil a.year (asU32 a.mon) a.day
    let midnight ← i64 (days * 86400)
    let hours ← i64 (a.hour * 3600)
    let atHour ← i64 (midnight + hours)
    let minutes ← i64 (a.min * 60)
    let atMinute ← i64 (atHour + minutes)
    let secs ← i64 (atMinute + a.sec)
    let nsec ← i64 (a.usec * 1000)
    wrap secs nsec utc

/-- A Time, its nanoseconds less than a second. -/
structure Time extends Tm where
  sec_held : IsI64 sec
  nsec_mem : 0 ≤ nsec ∧ nsec < 1000000000
  deriving DecidableEq, Repr

/-- `time_plus` of an Integer, which has no microseconds. -/
def timePlus (t : Time) (v : Int) : Outcome :=
  orRefuse (toTimeT v) fun sec =>
    match i64 (t.sec + sec) with
    | none => some (.error .addition)
    | some sum => do
        let moved ← i64 (0 * 1000)
        let nsec ← i64 (t.nsec + moved)
        wrap sum nsec t.utc

/-- `time_minus` of an Integer. -/
def timeMinus (t : Time) (v : Int) : Outcome :=
  orRefuse (toTimeT v) fun sec =>
    match i64 (t.sec - sec) with
    | none => some (.error .subtraction)
    | some diff => do
        let moved ← i64 (0 * 1000)
        let nsec ← i64 (t.nsec - moved)
        wrap diff nsec t.utc

/-! ## What they are to store -/

/-- A call of a method that builds a Time from Integers. -/
inductive Call
  | mktime (a : Components) (utc : Bool)
  | timeAt (sec : Int) (usec : Option Int)
  | timePlus (t : Time) (v : Int)
  | timeMinus (t : Time) (v : Int)

namespace Call

def outcome : Call → Outcome
  | mktime a utc => Times.mktime a utc
  | timeAt sec usec => Times.timeAt sec usec
  | timePlus t v => Times.timePlus t v
  | timeMinus t v => Times.timeMinus t v

/-- The Integers a call is given. -/
def components : Call → List Int
  | mktime a _ => a.all
  | timeAt sec usec => sec :: usec.toList
  | timePlus _ v => [v]
  | timeMinus _ v => [v]

end Call

/-- The second of the components, counted from the epoch. -/
def Components.seconds (a : Components) : Int :=
  dayCount a.year a.mon a.day * 86400 + a.hour * 3600 + a.min * 60 + a.sec

/-- The instant a call is about, in nanoseconds from the epoch. -/
def Call.instant : Call → Int
  | mktime a _ => a.seconds * 1000000000 + a.usec * 1000
  | timeAt sec usec => sec * 1000000000 + usec.getD 0 * 1000
  | timePlus t v => (t.sec + v) * 1000000000 + t.nsec
  | timeMinus t v => (t.sec - v) * 1000000000 + t.nsec

/-- The Time is normal and the exact instant. -/
def Tm.Holds (t : Tm) (instant : Int) : Prop :=
  IsI64 t.sec ∧ (0 ≤ t.nsec ∧ t.nsec < 1000000000) ∧
    t.sec * 1000000000 + t.nsec = instant

/-- No operation overflows, and the method raises or was given machine integers
and stores the instant. -/
def Stores
    (outcome : Outcome)
    (components : List Int)
    (instant : Int) :
    Prop :=
  match outcome with
  | none => False
  | some (.error _) => True
  | some (.ok t) => (∀ v ∈ components, IsI64 v) ∧ t.Holds instant

/-- A call stores its instant or raises. -/
def Call.Exact (call : Call) : Prop :=
  Stores call.outcome call.components call.instant

section Outcomes

variable {components : List Int} {instant : Int}

/-- A component that is no machine integer is refused. -/
theorem stores_orRefuse
    {next : Int → Outcome} :
    Stores (orRefuse (toTimeT v) next) components instant ↔
      (IsI64 v → Stores (next v) components instant) := by
  unfold toTimeT
  by_cases held : IsI64 v
  · rw [if_pos held]
    exact ⟨fun stores _ => stores, fun stores => stores held⟩
  · rw [if_neg held]
    exact ⟨fun _ given => absurd given held, fun _ => trivial⟩

/-- An operation has room for its exact result, with which the rest goes on. -/
theorem stores_i64
    {next : Int → Outcome} :
    Stores (i64 number >>= next) components instant ↔
      IsI64 number ∧ Stores (next number) components instant := by
  by_cases held : IsI64 number
  · rw [i64_bind_of_eq rfl held rfl]
    exact ⟨fun stores => ⟨held, stores⟩, And.right⟩
  · rw [i64, if_neg held]
    exact ⟨False.elim, fun given => held given.1⟩

/-- A wrapped instant is stored where normalising it fits. -/
theorem stores_wrap
    (secHeld : IsI64 sec)
    (nsecHeld : IsI64 nsec)
    (given : ∀ v ∈ components, IsI64 v)
    (exact_ : sec * 1000000000 + nsec = instant) :
    Stores (wrap sec nsec utc) components instant ↔ Normalizes sec nsec := by
  constructor
  · intro stores
    cases normal : normalize sec nsec with
    | none =>
        rw [wrap, normal] at stores
        exact stores.elim
    | some answer => exact normalizes_of_eq_some secHeld normal
  · intro fits
    rw [wrap, normalize_eq secHeld nsecHeld fits]
    exact ⟨given, fits.2, by dsimp only; omega, by dsimp only; omega⟩

end Outcomes

end SabiRuby.Times
