import Mathlib.Tactic.TypeStar

/-!
# Runs of a step function

A condition that every step of a run meets, a property that holds in every state
of it, and the rules that bring the second back to what one step keeps.
-/

namespace SabiRuby.Library

variable {State Event : Type*} {step : State → Event → State}
variable {condition : State → Event → Prop} {property : State → Prop}

/-- Every step of a run meets a condition on the state it starts from. -/
def StepsMeet
    (step : State → Event → State)
    (condition : State → Event → Prop) : State → List Event → Prop
  | _, [] => True
  | state, event :: rest =>
      condition state event ∧ StepsMeet step condition (step state event) rest

/-- A property holds in every state of a run, the first and the last
included. -/
def Throughout
    (step : State → Event → State)
    (property : State → Prop) : State → List Event → Prop
  | state, [] => property state
  | state, event :: rest =>
      property state ∧ Throughout step property (step state event) rest

theorem Throughout.first
    {state : State} {events : List Event}
    (always : Throughout step property state events) : property state := by
  cases events with
  | nil => exact always
  | cons event rest => exact always.1

/-- What holds throughout implies what it implies in every state. -/
theorem Throughout.mono
    {state : State} {events : List Event}
    (always : Throughout step invariant state events)
    (implies : ∀ state, invariant state → property state) :
    Throughout step property state events := by
  induction events generalizing state with
  | nil => exact implies state always
  | cons event rest ih =>
      exact ⟨implies state always.1, ih always.2⟩

/-- An invariant that every step meeting the condition keeps holds throughout a
run of such steps. -/
theorem StepsMeet.throughout
    {state : State} {events : List Event}
    (meets : StepsMeet step condition state events)
    (keeps : ∀ state event, invariant state → condition state event →
      invariant (step state event))
    (holds : invariant state) : Throughout step invariant state events := by
  induction events generalizing state with
  | nil => exact holds
  | cons event rest ih =>
      exact ⟨holds, ih meets.2 (keeps state event holds meets.1)⟩

/-- Where a step keeps the property exactly when it meets the condition, the
property holds throughout a run exactly when all its steps do. -/
theorem throughout_iff_stepsMeet
    (invariant : State → Prop)
    (keeps : ∀ state event, invariant state → invariant (step state event))
    (exact : ∀ state event, invariant state → property state →
      (property (step state event) ↔ condition state event))
    {state : State} {events : List Event}
    (invariantHolds : invariant state)
    (holds : property state) :
    Throughout step property state events ↔
      StepsMeet step condition state events := by
  induction events generalizing state with
  | nil => exact ⟨fun _ => trivial, fun _ => holds⟩
  | cons event rest ih =>
      have next := exact state event invariantHolds holds
      have later := keeps state event invariantHolds
      constructor
      · intro always
        have held := always.2.first
        exact ⟨next.mp held, (ih later held).mp always.2⟩
      · intro meets
        have held := next.mpr meets.1
        exact ⟨holds, (ih later held).mpr meets.2⟩

/-- Steps that meet a condition meet what it implies. -/
theorem StepsMeet.imp
    {state : State} {events : List Event}
    (meets : StepsMeet step condition state events)
    (implies : ∀ state event, condition state event → weaker state event) :
    StepsMeet step weaker state events := by
  induction events generalizing state with
  | nil => trivial
  | cons event rest ih =>
      exact ⟨implies state event meets.1, ih meets.2⟩

/-- Steps that meet a condition under which an invariant is kept meet what the
two imply. -/
theorem StepsMeet.under
    {invariant : State → Prop} {other : State → Event → Prop}
    {state : State} {events : List Event}
    (meets : StepsMeet step condition state events)
    (keeps : ∀ state event, invariant state → condition state event →
      invariant (step state event))
    (implies : ∀ state event, invariant state → condition state event →
      other state event)
    (holds : invariant state) : StepsMeet step other state events := by
  induction events generalizing state with
  | nil => trivial
  | cons event rest ih =>
      exact ⟨implies state event holds meets.1,
        ih meets.2 (keeps state event holds meets.1)⟩

/-- The later steps of a run start where the earlier ones end. -/
theorem StepsMeet.later
    {state : State} {events more : List Event}
    (meets : StepsMeet step condition state (events ++ more)) :
    StepsMeet step condition (events.foldl step state) more := by
  induction events generalizing state with
  | nil => exact meets
  | cons event rest ih => exact ih meets.2

instance StepsMeet.decidable
    [∀ state event, Decidable (condition state event)]
    (state : State) :
    (events : List Event) → Decidable (StepsMeet step condition state events)
  | [] => isTrue trivial
  | event :: rest =>
      have := StepsMeet.decidable (step state event) rest
      inferInstanceAs (Decidable (_ ∧ _))

end SabiRuby.Library
