import Mathlib.Data.List.Basic
import Mathlib.Data.UInt

/-!
# Reading a RITE binary

A reader moves a cursor over bytes that it does not trust.  It may push records
and reserve room for elements; both are kept when it fails.
-/

namespace SabiRuby.Binaries

/-- `Pool`; a float is its eight bytes. -/
inductive Pool
  | str (bytes : List UInt8)
  | int (value : Int)
  | bigInt (base : Int) (digits : List UInt8)
  | float (raw : List UInt8)
deriving DecidableEq, Repr

/-- `CatchType`. -/
inductive CatchType
  | rescue
  | ensure
deriving DecidableEq, Repr

/-- `CatchHandler`. -/
structure CatchHandler where
  kind : CatchType
  begin_ : Nat
  end_ : Nat
  target : Nat
deriving DecidableEq, Repr

/-- `Irep`. -/
structure Irep where
  nlocals : Nat
  nregs : Nat
  iseq : List UInt8
  catch_ : List CatchHandler
  pool : List Pool
  syms : List (Option (List UInt8))
  reps : List Nat
  lv : List (Option (List UInt8))
  lines : List (Nat × Nat)
  filename : Option (List UInt8)
deriving DecidableEq, Repr

/-- The messages of `VmError::Rite`, each with what it names. -/
inductive RiteError
  | unexpectedEnd (p n : Nat)
  | badIdentifier
  | unsupportedVersion (ver : List UInt8)
  | sizeExceedsBuffer (total len : Nat)
  | sectionTooSmall
  | sectionExceedsBuffer
  | unknownSection (ident : List UInt8)
  | noIrep
  | moreLocals (nlocals nregs : Nat)
  | badCatchType (t : UInt8)
  | badPoolType (tt : UInt8)
  | unknownLineType (other : UInt8)
deriving DecidableEq, Repr

/-- How a reader ends without an answer: an error, an index out of bounds, or
not at all. -/
inductive Fault
  | rite (why : RiteError)
  | panics
  | endless
deriving DecidableEq, Repr

/-- The calls of `Vec::with_capacity`. -/
inductive Site
  | handlers
  | pool
  | symbols
  | children
  | fileNames
  | localNames
deriving DecidableEq, Repr

structure Reservation where
  site : Site
  count : Nat
deriving DecidableEq, Repr

/-- The position of `Cur`, the records so far and every reservation. -/
structure Reading where
  p : Nat
  ireps : List Irep
  reserved : List Reservation
deriving DecidableEq, Repr

/-- A reader of the bytes up to the end of its `Cur`. -/
def Reader (α : Type) := List UInt8 → Reading → Except Fault α × Reading

namespace Reader

protected def pure {α : Type} (a : α) : Reader α := fun _ s => (.ok a, s)

protected def bind
    {α β : Type}
    (read : Reader α)
    (next : α → Reader β) : Reader β := fun b s =>
  match read b s with
  | (.ok a, s) => next a b s
  | (.error why, s) => (.error why, s)

instance : Monad Reader where
  pure := Reader.pure
  bind := Reader.bind

variable {α β : Type}

theorem bind_ok
    {read : Reader α}
    {a : α}
    (done : read b s = (.ok a, s'))
    (next : α → Reader β) :
    (read >>= next) b s = next a b s' := by
  change Reader.bind read next b s = _
  rw [Reader.bind, done]

theorem bind_error
    {read : Reader α}
    {why : Fault}
    (failed : read b s = (.error why, s'))
    (next : α → Reader β) :
    (read >>= next) b s = (.error why, s') := by
  change Reader.bind read next b s = _
  rw [Reader.bind, failed]

end Reader

section Readers

variable {α : Type}

def fails (why : RiteError) : Reader α := fun _ s => (.error (.rite why), s)

def endless : Reader α := fun _ s => (.error .endless, s)

/-- `Vec::with_capacity`. -/
def reserve (site : Site) (count : Nat) : Reader Unit := fun _ s =>
  (.ok (), { s with reserved := s.reserved ++ [⟨site, count⟩] })

/-- `Cur::need`. -/
def need (n : Nat) : Reader Unit := fun b s =>
  if s.p + n > b.length then (.error (.rite (.unexpectedEnd s.p n)), s)
  else (.ok (), s)

/-- `&self.b[self.p..self.p + n]`, moving on. -/
def slice (n : Nat) : Reader (List UInt8) := fun b s =>
  if s.p + n > b.length then (.error .panics, s)
  else (.ok ((b.drop s.p).take n), { s with p := s.p + n })

/-- `Cur::bytes`. -/
def bytes (n : Nat) : Reader (List UInt8) := do
  need n
  slice n

/-- The big-endian number of some bytes. -/
def bigEndian (bs : List UInt8) : Nat :=
  bs.foldl (fun n byte => n * 256 + byte.toNat) 0

/-- `Cur::u8`. -/
def u8 : Reader UInt8 := do
  let bs ← bytes 1
  pure (bs.getD 0 0)

/-- `Cur::u16`. -/
def u16 : Reader Nat := do
  let bs ← bytes 2
  pure (bigEndian bs)

/-- `Cur::u32`. -/
def u32 : Reader Nat := do
  let bs ← bytes 4
  pure (bigEndian bs)

/-- A loop that pushes as many elements as were announced. -/
def times : Nat → Reader α → Reader (List α)
  | 0, _ => pure []
  | n + 1, read => do
      let x ← read
      let xs ← times n read
      pure (x :: xs)

end Readers

/-! ## Readers that only read -/

/-- An end without a panic, with an answer as promised. -/
def Fine {α : Type} (r : Except Fault α) (post : α → Prop) : Prop :=
  match r with
  | .ok a => post a
  | .error (.rite _) => True
  | .error _ => False

theorem Fine.mono
    {P Q : α → Prop}
    (fine : Fine r P)
    (weaker : ∀ a, P a → Q a) :
    Fine r Q := by
  cases r with
  | ok a => exact weaker a fine
  | error why =>
      cases why with
      | rite why => trivial
      | panics => exact fine
      | endless => exact fine

/-- A failed step fails as well with what follows. -/
theorem Fine.error
    {Q : β → Prop}
    (fine : Fine (.error why) P) :
    Fine (.error why) Q := by
  cases why with
  | rite why => trivial
  | panics => exact fine
  | endless => exact fine

/-- A reservation whose count has 16 bits, the names of local variables
apart. -/
def Allowed (r : Reservation) : Prop := r.site ≠ .localNames → r.count ≤ 65535

/-- A reader that never panics, goes forward by at least `k` bytes, and neither
reads nor changes the records. -/
def Quiet {α : Type} (k : Nat) (m : Reader α) (post : α → Prop) : Prop :=
  ∀ b p, ∃ r p' more,
    (∀ ireps reserved,
      m b ⟨p, ireps, reserved⟩ = (r, ⟨p', ireps, reserved ++ more⟩)) ∧
    p ≤ p' ∧ p' ≤ max p b.length ∧ (∀ x ∈ more, Allowed x) ∧
    Fine r fun a => post a ∧ p + k ≤ p'

namespace Quiet

variable {α β : Type} {k : Nat}

theorem mono
    {P Q : α → Prop}
    (quiet : Quiet k m P)
    (weaker : ∀ a, P a → Q a) :
    Quiet k m Q := by
  intro b p
  obtain ⟨r, p', more, run, low, high, allowed, fine⟩ := quiet b p
  exact ⟨r, p', more, run, low, high, allowed,
    fine.mono fun a both => ⟨weaker a both.1, both.2⟩⟩

theorem pure {P : α → Prop} {a : α} (holds : P a) :
    Quiet 0 (pure a : Reader α) P := by
  intro b p
  refine ⟨.ok a, p, [], fun ireps reserved => ?_, Nat.le_refl p,
    Nat.le_max_left _ _, List.forall_mem_nil _, holds, Nat.le_refl p⟩
  rw [List.append_nil]
  rfl

theorem fails {P : α → Prop} (why : RiteError) :
    Quiet 0 (fails why : Reader α) P := by
  intro b p
  refine ⟨.error (.rite why), p, [], fun ireps reserved => ?_, Nat.le_refl p,
    Nat.le_max_left _ _, List.forall_mem_nil _, trivial⟩
  rw [List.append_nil]
  rfl

theorem reserve {site : Site} {count : Nat} (allowed : Allowed ⟨site, count⟩) :
    Quiet 0 (reserve site count) fun _ => True := by
  intro b p
  refine ⟨.ok (), p, [⟨site, count⟩], fun ireps reserved => rfl,
    Nat.le_refl p, Nat.le_max_left _ _, ?_, trivial, Nat.le_refl p⟩
  intro x mem
  rw [List.mem_singleton.mp mem]
  exact allowed

/-- One reader after another goes as far as the first at least. -/
theorem bind
    {m : Reader α}
    {Q : β → Prop}
    (first : Quiet k m P)
    (second : ∀ a, P a → Quiet 0 (next a) Q) :
    Quiet k (m >>= next) Q := by
  intro b p
  obtain ⟨r, p', more, run, low, high, allowed, fine⟩ := first b p
  cases r with
  | error why =>
      refine ⟨.error why, p', more, fun ireps reserved => ?_, low, high,
        allowed, fine.error⟩
      exact Reader.bind_error (run ireps reserved) next
  | ok a =>
      obtain ⟨r', p'', more', run', low', high', allowed', fine'⟩ :=
        second a fine.1 b p'
      have far := fine.2
      refine ⟨r', p'', more ++ more', fun ireps reserved => ?_,
        Nat.le_trans low low', by omega, ?_, ?_⟩
      · rw [Reader.bind_ok (run ireps reserved), run', List.append_assoc]
      · intro x mem
        rcases List.mem_append.mp mem with before | after
        · exact allowed x before
        · exact allowed' x after
      · exact fine'.mono fun c both => ⟨both.1, by omega⟩

theorem weaken {m : Reader α} {P : α → Prop} (quiet : Quiet k m P) :
    Quiet 0 m P := by
  intro b p
  obtain ⟨r, p', more, run, low, high, allowed, fine⟩ := quiet b p
  exact ⟨r, p', more, run, low, high, allowed,
    fine.mono fun a both => ⟨both.1, low⟩⟩

theorem bytes (n : Nat) : Quiet n (bytes n) fun bs => bs.length = n := by
  intro b p
  by_cases short : p + n > b.length
  · refine ⟨.error (.rite (.unexpectedEnd p n)), p, [],
      fun ireps reserved => ?_, Nat.le_refl p, Nat.le_max_left _ _,
      List.forall_mem_nil _, trivial⟩
    have failed : need n b ⟨p, ireps, reserved⟩ =
        (.error (.rite (.unexpectedEnd p n)), ⟨p, ireps, reserved⟩) :=
      if_pos short
    rw [List.append_nil]
    exact Reader.bind_error failed _
  · refine ⟨.ok ((b.drop p).take n), p + n, [], fun ireps reserved => ?_,
      Nat.le_add_right p n, by omega, List.forall_mem_nil _, ?_,
      Nat.le_refl _⟩
    · have enough : need n b ⟨p, ireps, reserved⟩ =
          (.ok (), ⟨p, ireps, reserved⟩) := if_neg short
      rw [List.append_nil]
      exact (Reader.bind_ok enough _).trans (if_neg short)
    · change ((b.drop p).take n).length = n
      rw [List.length_take, List.length_drop]
      omega

theorem u8 : Quiet 1 u8 fun _ => True :=
  (bytes 1).bind fun _ _ => pure trivial

theorem bigEndian_lt (bs : List UInt8) : bigEndian bs < 256 ^ bs.length := by
  have loop : ∀ (bs : List UInt8) (n k : Nat), n < 256 ^ k →
      bs.foldl (fun n byte => n * 256 + byte.toNat) n <
        256 ^ (k + bs.length) := by
    intro bs
    induction bs with
    | nil => exact fun n k below => below
    | cons byte bs ih =>
        intro n k below
        have small := byte.toNat_lt
        rw [List.foldl_cons, List.length_cons, Nat.add_comm bs.length,
          ← Nat.add_assoc]
        apply ih
        rw [Nat.pow_succ]
        omega
  have bound := loop bs 0 0 Nat.one_pos
  rwa [Nat.zero_add] at bound

theorem u16 : Quiet 2 u16 fun n => n ≤ 65535 := by
  apply (bytes 2).bind
  intro bs length
  apply pure
  have bound := bigEndian_lt bs
  rw [length] at bound
  exact Nat.le_of_lt_succ bound

theorem u32 : Quiet 4 u32 fun _ => True :=
  (bytes 4).bind fun _ _ => pure trivial

theorem times
    (n : Nat)
    (quiet : Quiet 0 m fun _ => True) :
    Quiet 0 (times n m) fun _ => True := by
  induction n with
  | zero => exact pure trivial
  | succ n ih =>
      apply quiet.bind
      intro x _
      apply ih.bind
      intro xs _
      exact pure trivial

theorem ite
    {c : Prop}
    [Decidable c]
    {P : α → Prop}
    (first : Quiet 0 m P)
    (second : Quiet 0 m' P) :
    Quiet 0 (if c then m else m') P := by
  split
  · exact first
  · exact second

end Quiet

end SabiRuby.Binaries
