import Mathlib.Data.List.Basic
import Mathlib.Tactic.Basic

/-!
# Readers over a buffer

A reader moves a cursor over a buffer and returns a value or refuses.  It is
local when what it returns depends on the items it passes and on no others, so
that a buffer with the same items up to where it stopped is read alike.
-/

namespace SabiRuby.Library

/-- A buffer and a position in it. -/
structure Cursor (β : Type) where
  b : List β
  p : Nat

/-- Readers that return a value or refuse. -/
abbrev Reader (β ε : Type) := StateT (Cursor β) (Except ε)

namespace Reader

variable {β ε α γ : Type}

/-- As many values as are asked for. -/
def many (r : Reader β ε α) : Nat → Reader β ε (List α)
  | 0 => pure []
  | n + 1 => do
      let a ← r
      let rest ← many r n
      pure (a :: rest)

/-- The reader stays in its buffer, does not go back, and returns the same from
every buffer with the same items up to where it stopped. -/
structure Local (r : Reader β ε α) : Prop where
  reads : ∀ {b p a after}, p ≤ b.length → r ⟨b, p⟩ = .ok (a, after) →
    after.b = b ∧ p ≤ after.p ∧ after.p ≤ b.length
  same : ∀ {b p a after}, p ≤ b.length → r ⟨b, p⟩ = .ok (a, after) →
    ∀ other, other.take after.p = b.take after.p →
      r ⟨other, p⟩ = .ok (a, ⟨other, after.p⟩)

/-- The reader passes an item at least. -/
def Advances (r : Reader β ε α) : Prop :=
  ∀ {b p a after}, p ≤ b.length → r ⟨b, p⟩ = .ok (a, after) → p < after.p

variable
  {f : α → Reader β ε γ}
  {r : Reader β ε α}

theorem bind_eq_ok_iff
    {result : γ × Cursor β} :
    (r >>= f) c = .ok result ↔
      ∃ a after, r c = .ok (a, after) ∧ f a after = .ok result := by
  change Except.bind (r c) (fun x => f x.1 x.2) = .ok result ↔ _
  cases r c with
  | error e => simp [Except.bind]
  | ok x =>
      obtain ⟨a, after⟩ := x
      simp [Except.bind]

theorem bind_of_ok
    (first : r c = .ok (a, after)) : (r >>= f) c = f a after := by
  change Except.bind (r c) (fun x => f x.1 x.2) = _
  rw [first]
  rfl

theorem take_eq_of_le
    {other b : List β}
    (same : other.take q = b.take q)
    (le : p ≤ q) : other.take p = b.take p := by
  have shorter := congrArg (List.take p) same
  rwa [List.take_take, List.take_take, Nat.min_eq_left le] at shorter

theorem le_length_of_take
    {other b : List β}
    (same : other.take q = b.take q)
    (inside : q ≤ b.length) : q ≤ other.length := by
  have lengths := congrArg List.length same
  rw [List.length_take, List.length_take] at lengths
  omega

theorem Local.pure (a : α) : Local (pure a : Reader β ε α) where
  reads := by
    intro b p a after inside ran
    cases ran
    exact ⟨rfl, Nat.le_refl _, inside⟩
  same := by
    intro b p a after _ ran other _
    cases ran
    rfl

theorem Local.throw (e : ε) : Local (throw e : Reader β ε α) where
  reads := by
    intro b p a after _ ran
    cases ran
  same := by
    intro b p a after _ ran
    cases ran

theorem Local.bind
    (first : Local r)
    (rest : ∀ a, Local (f a)) : Local (r >>= f) where
  reads := by
    intro b p c after inside ran
    obtain ⟨a, ⟨b', q⟩, one, two⟩ := bind_eq_ok_iff.mp ran
    obtain ⟨rfl, up, here⟩ := first.reads inside one
    obtain ⟨buffer, further, there⟩ := (rest a).reads here two
    exact ⟨buffer, Nat.le_trans up further, there⟩
  same := by
    intro b p c after inside ran other same
    obtain ⟨a, ⟨b', q⟩, one, two⟩ := bind_eq_ok_iff.mp ran
    obtain ⟨rfl, _, here⟩ := first.reads inside one
    obtain ⟨_, further, _⟩ := (rest a).reads here two
    apply bind_eq_ok_iff.mpr
    exact ⟨a, _, first.same inside one other (take_eq_of_le same further),
      (rest a).same here two other same⟩

theorem Local.ite
    {c : Prop}
    [Decidable c]
    (yes : Local r)
    (no : Local s) : Local (if c then r else s) := by
  by_cases holds : c
  · rw [if_pos holds]
    exact yes
  · rw [if_neg holds]
    exact no

theorem Local.map
    (reader : Local r)
    (f : α → γ) : Local (f <$> r) := by
  rw [map_eq_pure_bind]
  exact reader.bind fun a => Local.pure (f a)

theorem Local.many
    (reader : Local r)
    (n : Nat) : Local (r.many n) := by
  induction n with
  | zero => exact Local.pure []
  | succ n ih =>
      exact reader.bind fun a => ih.bind fun rest =>
        Local.pure (a :: rest)

theorem Advances.bind
    (reader : Local r)
    (first : Advances r)
    (rest : ∀ a, Local (f a)) : Advances (r >>= f) := by
  intro b p c after inside ran
  obtain ⟨a, ⟨b', q⟩, one, two⟩ := bind_eq_ok_iff.mp ran
  obtain ⟨rfl, _, here⟩ := reader.reads inside one
  obtain ⟨_, further, _⟩ := (rest a).reads here two
  exact Nat.lt_of_lt_of_le (first inside one) further

theorem Advances.many
    (reader : Local r)
    (one : Advances r)
    (n : Nat)
    (inside : p ≤ b.length)
    (ran : r.many n ⟨b, p⟩ = .ok (as, after)) : p + n ≤ after.p := by
  induction n generalizing p as with
  | zero =>
      cases ran
      exact Nat.le_refl _
  | succ n ih =>
      obtain ⟨a, ⟨b', q⟩, first, others⟩ := bind_eq_ok_iff.mp ran
      obtain ⟨rest, ⟨b'', q'⟩, more, last⟩ := bind_eq_ok_iff.mp others
      cases last
      obtain ⟨rfl, _, here⟩ := reader.reads inside first
      have step := one inside first
      have steps := ih here more
      change p + (n + 1) ≤ q'
      change q + n ≤ q' at steps
      change p < q at step
      omega

/-- As many values as a count says, refused where the buffer is shorter than
the count. -/
def counted (r : Reader β ε α) (e : ε) (n : Nat) : Reader β ε (List α) :=
  fun c => if n > c.b.length then .error e else r.many n c

/-- The whole buffer's length does not matter to values that take up room. -/
theorem Local.counted
    (reader : Local r)
    (one : Advances r)
    (e : ε)
    (n : Nat) : Local (r.counted e n) where
  reads := by
    intro b p as after inside ran
    unfold Reader.counted at ran
    split at ran
    · cases ran
    · exact (reader.many n).reads inside ran
  same := by
    intro b p as after inside ran other same
    unfold Reader.counted at ran ⊢
    split at ran
    · cases ran
    · have room := one.many reader n inside ran
      obtain ⟨_, _, there⟩ := (reader.many n).reads inside ran
      have long := le_length_of_take same there
      have enough : ¬n > other.length := by omega
      rw [if_neg enough]
      exact (reader.many n).same inside ran other same

/-- Read from the start, all of one buffer and all of a part of it: the part is
the whole. -/
theorem Local.part_eq
    (reader : Local r)
    (isPart : part <+: whole)
    (wholeRead : r ⟨whole, 0⟩ = .ok (a, ⟨whole, whole.length⟩))
    (partRead : r ⟨part, 0⟩ = .ok (b, ⟨part, part.length⟩)) :
    part = whole := by
  obtain ⟨rest, rfl⟩ := isPart
  have again := reader.same (Nat.zero_le _) partRead (part ++ rest) (by
    rw [List.take_left' rfl, List.take_length])
  rw [wholeRead] at again
  have ends : (part ++ rest).length = part.length :=
    congrArg (fun x : α × Cursor β => x.2.p) (Except.ok.inj again)
  rw [List.length_append] at ends
  have none : rest = [] := List.eq_nil_of_length_eq_zero (by omega)
  rw [none, List.append_nil]

end Reader

end SabiRuby.Library
