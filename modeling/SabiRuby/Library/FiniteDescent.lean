import Mathlib.Data.Fintype.EquivFin
import Mathlib.Data.Fintype.Card
import Mathlib.Logic.Relation

/-!
# Descent in a finite graph

Where only finitely many points lead anywhere, every walk from a point ends
exactly if no point reached from it leads back to itself.
-/

namespace SabiRuby.Library

open Relation

variable {α : Type*} {leads : α → α → Prop}

/-- No point reached from here leads back to itself. -/
def NoCycle (leads : α → α → Prop) (x : α) : Prop :=
  ∀ y, ReflTransGen leads x y → ¬TransGen leads y y

theorem not_leads_back
    (ends : Acc (fun y x => leads x y) x) : ¬TransGen leads x x := by
  induction ends with
  | intro x _ ih =>
      intro cycle
      obtain ⟨y, first, back⟩ := TransGen.head'_iff.mp cycle
      exact ih y first
        (TransGen.tail' back first)

theorem acc_of_reached
    (ends : Acc (fun y x => leads x y) x)
    (reached : ReflTransGen leads x y) : Acc (fun y x => leads x y) y := by
  induction reached with
  | refl => exact ends
  | tail _ step ih => exact ih.inv step

theorem acc_iff_noCycle
    (points : Finset α)
    (within : ∀ x y, leads x y → x ∈ points)
    (x : α) : Acc (fun y x => leads x y) x ↔ NoCycle leads x := by
  constructor
  · intro ends y reached
    exact not_leads_back (acc_of_reached ends reached)
  · intro noCycle
    let Reached := { y : α // y ∈ points ∧ ReflTransGen leads x y }
    have finite : Finite Reached :=
      Finite.of_injective (fun y : Reached => (⟨y.1, y.2.1⟩ : points))
        fun y z same =>
          Subtype.ext (congrArg (fun point : points => point.1) same)
    let below : Reached → Reached → Prop := fun y z => TransGen leads z.1 y.1
    have trans : IsTrans Reached below :=
      ⟨fun _ _ _ first second => second.trans first⟩
    have irrefl : Std.Irrefl below :=
      ⟨fun y cycle => noCycle y.1 y.2.2 cycle⟩
    have wellFounded : WellFounded below :=
      Finite.wellFounded_of_trans_of_irrefl below
    have all : ∀ y : Reached, Acc (fun y x => leads x y) y.1 := by
      intro y
      induction y using wellFounded.induction with
      | _ y ih =>
          constructor
          intro z step
          by_cases inside : z ∈ points
          · exact ih
              ⟨z, inside, y.2.2.tail step⟩ (TransGen.single step)
          · constructor
            intro w further
            exact absurd (within z w further) inside
    by_cases inside : x ∈ points
    · exact all ⟨x, inside, ReflTransGen.refl⟩
    · constructor
      intro y step
      exact absurd (within x y step) inside

end SabiRuby.Library
