import Mathlib

/-!
# Stateful computations that can raise or go wrong

A computation runs from a state and returns a value, raises an exception of the
program, or goes wrong: it reads an array out of range, or runs out of the fuel
its recursion was given.  The state it stopped in is kept in every case.
`Satisfies` is the weakest precondition of a computation for a condition on
what it returns and a condition on what it raises; a computation that satisfies
anything never goes wrong.
-/

namespace SabiRuby.Library

/-- Why a computation stopped short. -/
inductive Stop (ε : Type)
  /-- An exception of the program. -/
  | raised (error : ε)
  /-- An index out of range. -/
  | panicked
  /-- The fuel of a recursion ran out. -/
  | unfinished
  deriving DecidableEq, Repr

/-- Computations over a state that may stop short. -/
abbrev Exec (ε σ : Type) := EStateM (Stop ε) σ

namespace Exec

variable {ε σ α β : Type}

/-- Raise an exception of the program. -/
def raise (error : ε) : Exec ε σ α := throw (.raised error)

/-- The value of an access that is in range, or the panic of one that is not. -/
def orPanic : Option α → Exec ε σ α
  | some value => pure value
  | none => throw .panicked

/-- From this state the computation does not go wrong, what it returns
satisfies `returns` and what it raises satisfies `raises`. -/
def Satisfies
    (command : Exec ε σ α)
    (state : σ)
    (returns : α → σ → Prop)
    (raises : ε → σ → Prop) : Prop :=
  match command state with
  | .ok value after => returns value after
  | .error (.raised error) after => raises error after
  | .error .panicked _ => False
  | .error .unfinished _ => False

variable {state : σ} {returns : α → σ → Prop} {raises : ε → σ → Prop}

theorem get_apply : (get : Exec ε σ σ) state = .ok state state := rfl

@[simp] theorem satisfies_pure (value : α) :
    Satisfies (pure value : Exec ε σ α) state returns raises ↔
      returns value state :=
  Iff.rfl

@[simp] theorem satisfies_bind
    (command : Exec ε σ β)
    (next : β → Exec ε σ α) :
    Satisfies (command >>= next) state returns raises ↔
      Satisfies command state
        (fun value after => Satisfies (next value) after returns raises)
        raises := by
  simp only [Satisfies, bind, EStateM.bind]
  cases command state with
  | ok value after => rfl
  | error stop after => cases stop <;> rfl

@[simp] theorem satisfies_map
    (change : β → α)
    (command : Exec ε σ β) :
    Satisfies (change <$> command) state returns raises ↔
      Satisfies command state
        (fun value after => returns (change value) after) raises := by
  simp only [Satisfies, Functor.map, EStateM.map]
  cases command state with
  | ok value after => rfl
  | error stop after => cases stop <;> rfl

@[simp] theorem satisfies_get
    {returns : σ → σ → Prop} :
    Satisfies (get : Exec ε σ σ) state returns raises ↔
      returns state state :=
  Iff.rfl

theorem satisfies_get_bind (next : σ → Exec ε σ α) :
    Satisfies (get >>= next) state returns raises ↔
      Satisfies (next state) state returns raises :=
  Iff.rfl

@[simp] theorem satisfies_set
    {returns : PUnit → σ → Prop}
    (after : σ) :
    Satisfies (set after : Exec ε σ PUnit) state returns raises ↔
      returns ⟨⟩ after :=
  Iff.rfl

@[simp] theorem satisfies_modify
    {returns : PUnit → σ → Prop}
    (change : σ → σ) :
    Satisfies (modify change : Exec ε σ PUnit) state returns raises ↔
      returns ⟨⟩ (change state) :=
  Iff.rfl

@[simp] theorem satisfies_raise (error : ε) :
    Satisfies (raise error : Exec ε σ α) state returns raises ↔
      raises error state :=
  Iff.rfl

@[simp] theorem satisfies_orPanic (access : Option α) :
    Satisfies (orPanic access : Exec ε σ α) state returns raises ↔
      ∃ value, access = some value ∧ returns value state := by
  cases access with
  | none => simp [Satisfies, orPanic, throw, throwThe, MonadExceptOf.throw,
      EStateM.throw]
  | some value => simp [orPanic]

/-- What follows a computation whose outcome is known. -/
theorem satisfies_bind_of_ok
    (ran : command state = .ok value after)
    (next : β → Exec ε σ α) :
    Satisfies (command >>= next) state returns raises ↔
      Satisfies (next value) after returns raises := by
  rw [satisfies_bind]
  unfold Satisfies
  rw [ran]

variable {command : Exec ε σ α}

section

variable (satisfied : Satisfies command state returns raises)
include satisfied

/-- Weaker conditions are satisfied as well. -/
theorem Satisfies.mono
    (returning : ∀ value after, returns value after → weaker value after)
    (raising : ∀ error after, raises error after → weakerRaises error after) :
    Satisfies command state weaker weakerRaises := by
  unfold Satisfies at satisfied ⊢
  split at satisfied
  · rename_i value after ran
    exact returning _ _ satisfied
  · rename_i error after ran
    exact raising _ _ satisfied
  · exact satisfied.elim
  · exact satisfied.elim

/-- A computation that raises nothing returns. -/
theorem Satisfies.exists_ok
    (never : ∀ error after, ¬raises error after) :
    ∃ value after, command state = .ok value after ∧
      returns value after := by
  unfold Satisfies at satisfied
  split at satisfied
  · rename_i value after ran
    exact ⟨value, after, ran, satisfied⟩
  · exact absurd satisfied (never _ _)
  · exact satisfied.elim
  · exact satisfied.elim

/-- What a computation returns is what it ran to. -/
theorem Satisfies.ran :
    Satisfies command state
      (fun value after => returns value after ∧
        command state = .ok value after) raises := by
  unfold Satisfies at satisfied ⊢
  split at satisfied
  · rename_i value after ran
    exact ⟨satisfied, ran⟩
  · exact satisfied
  · exact satisfied.elim
  · exact satisfied.elim

end

end Exec

/-! ## Loops that step until they are done

A loop steps from one of its states to the next until it has a result.  If every
step makes a measure smaller, fuel above the measure is enough; the loop then
returns or raises exactly when every state it reaches is one whose step does.
-/

section Loops

variable {ε σ α Scan : Type}

/-- Step until there is a result. -/
def iterate (step : Scan → Exec ε σ (Scan ⊕ α)) : Nat → Scan → Exec ε σ α
  | 0, _ => throw .unfinished
  | fuel + 1, s => do
      let r ← step s
      match r with
      | .inl next => iterate step fuel next
      | .inr result => pure result

/-- The states of the loop that are stepped from. -/
inductive Visits (step : Scan → Exec ε σ (Scan ⊕ α)) (s : Scan) (state : σ) :
    Scan → σ → Prop
  | here : Visits step s state s state
  | step
      (reached : Visits step s state t before)
      (ran : step t before = .ok (.inl next) after) :
      Visits step s state next after

variable {step : Scan → Exec ε σ (Scan ⊕ α)}

/-- The states reached after a first step. -/
theorem Visits.head
    (ran : step s state = .ok (.inl next) after)
    (reached : Visits step next after t later) :
    Visits step s state t later := by
  induction reached with
  | here => exact .step .here ran
  | step _ further ih => exact .step ih further

/-- The state the loop is in, and the states reached after its first step. -/
theorem Visits.first
    (reached : Visits step s state t later) :
    (t = s ∧ later = state) ∨
      ∃ next after, step s state = .ok (.inl next) after ∧
        Visits step next after t later := by
  induction reached with
  | here => exact .inl ⟨rfl, rfl⟩
  | step _ further ih =>
      rcases ih with ⟨rfl, rfl⟩ | ⟨next, after, ran, rest⟩
      · exact .inr ⟨_, _, further, .here⟩
      · exact .inr ⟨next, after, ran, .step rest further⟩

/-- The computation returns or raises. -/
def Completes (command : Exec ε σ α) (state : σ) : Prop :=
  Exec.Satisfies command state (fun _ _ => True) fun _ _ => True

/-- The loop is done, or goes on from a state that is kept and has less to
come. -/
def GoesOn (invariant : Scan → Prop) (measure : Scan → Nat) (s : Scan) :
    Scan ⊕ α → Prop
  | .inl next => invariant next ∧ measure next < measure s
  | .inr _ => True

/-- What the step of a loop keeps and how it goes on, where it is safe, and that
it goes wrong elsewhere. -/
structure Stepping
    (step : Scan → Exec ε σ (Scan ⊕ α))
    (invariant : Scan → Prop)
    (safe : Scan → σ → Prop)
    (measure : Scan → Nat) : Prop where
  goes : ∀ s state, invariant s → safe s state →
    Exec.Satisfies (step s) state (fun r _ => GoesOn invariant measure s r)
      fun _ _ => True
  stuck : ∀ s state, invariant s → ¬safe s state →
    ∃ after, step s state = .error .panicked after

variable {invariant : Scan → Prop} {safe : Scan → σ → Prop}
variable {measure : Scan → Nat}

/-- The loop completes exactly when it is safe in every state it reaches. -/
theorem Stepping.completes_iff
    (stepping : Stepping step invariant safe measure)
    (fuel : Nat)
    (holds : invariant s)
    (enough : measure s < fuel) :
    Completes (iterate step fuel s) state ↔
      ∀ t later, Visits step s state t later → safe t later := by
  induction fuel generalizing s state with
  | zero => omega
  | succ fuel ih =>
      have loop : iterate step (fuel + 1) s = step s >>= fun r =>
          match r with
          | .inl next => iterate step fuel next
          | .inr result => pure result := rfl
      unfold Completes
      rw [loop, Exec.satisfies_bind]
      by_cases safeHere : safe s state
      · have goes := stepping.goes s state holds safeHere
        unfold Exec.Satisfies at goes ⊢
        -- only a step that goes on has states to reach after this one
        have alone : (∀ next after, step s state ≠ .ok (.inl next) after) →
            ∀ t later, Visits step s state t later → safe t later := by
          intro ends t later reached
          rcases reached.first with ⟨rfl, rfl⟩ | ⟨next, after, ran, -⟩
          · exact safeHere
          · exact absurd ran (ends next after)
        cases ran : step s state with
        | error stop after =>
            rw [ran] at goes alone
            have all := alone fun _ _ => by simp
            cases stop with
            | raised error => exact ⟨fun _ => all, fun _ => trivial⟩
            | panicked => exact goes.elim
            | unfinished => exact goes.elim
        | ok r after =>
            rw [ran] at goes alone
            cases r with
            | inr result =>
                exact ⟨fun _ => alone fun _ _ => by simp, fun _ => trivial⟩
            | inl next =>
                obtain ⟨kept, fewer⟩ := goes
                have rest := @ih next after kept (by omega)
                refine Iff.trans rest ⟨?_, ?_⟩
                · intro all t later reached
                  rcases reached.first with
                    ⟨rfl, rfl⟩ | ⟨next', after', first, there⟩
                  · exact safeHere
                  · rw [ran] at first
                    cases first
                    exact all t later there
                · intro all t later reached
                  exact all t later (reached.head ran)
      · obtain ⟨after, ran⟩ := stepping.stuck s state holds safeHere
        unfold Exec.Satisfies
        rw [ran]
        constructor
        · intro completes
          exact completes.elim
        · intro all
          exact absurd (all s state .here) safeHere

end Loops

end SabiRuby.Library
