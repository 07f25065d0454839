import Mathlib.Data.List.Nodup

/-!
# Tracing a graph with a worklist

A tracer marks nodes and keeps those whose references it has not looked at on a
worklist.  A node is taken off the list once; then every node it refers to is
marked, and put on the list unless it was marked before.  Once the list is empty
the marked nodes are the ones that can be reached.
-/

namespace SabiRuby.Library

variable {Node : Type} (refs : Node → List Node)

/-- What can be reached from roots along references. -/
inductive Reachable (roots : Node → Prop) : Node → Prop
  | root (isRoot : roots n) : Reachable roots n
  | step (reached : Reachable roots n) (refers : m ∈ refs n) :
      Reachable roots m

theorem Reachable.mono
    (fewer : ∀ n, roots n → others n)
    (reached : Reachable refs roots n) : Reachable refs others n := by
  induction reached with
  | root isRoot => exact .root (fewer _ isRoot)
  | step _ refers ih =>
      exact .step ih refers

/-- The state of a tracer in the middle of its work.  The black nodes are those
that were taken off the worklist, and `pending` is still to be marked. -/
structure Tracing
    (roots marked : Node → Prop)
    (work black pending : List Node) : Prop where
  sound : ∀ n, marked n → Reachable refs roots n
  pendingSound : ∀ n ∈ pending, Reachable refs roots n
  rooted : ∀ n, roots n → marked n ∨ n ∈ pending
  colored : ∀ n, marked n ↔ n ∈ work ∨ n ∈ black
  once : (work ++ black).Nodup
  closed : ∀ n ∈ black, ∀ m ∈ refs n, marked m ∨ m ∈ pending

variable {refs} {roots marked : Node → Prop} {work black pending : List Node}

/-- Before the first root there is nothing to trace. -/
theorem tracing_start
    (noRoot : ∀ n, ¬roots n)
    (unmarked : ∀ n, ¬marked n) : Tracing refs roots marked [] [] [] where
  sound := fun n isMarked => absurd isMarked (unmarked n)
  pendingSound := by simp
  rooted := fun n isRoot => absurd isRoot (noRoot n)
  colored := by simpa using unmarked
  once := List.nodup_nil
  closed := by simp

namespace Tracing

/-- A new root is to be marked. -/
theorem addRoot
    (tracing : Tracing refs roots marked work black [])
    (n : Node) :
    Tracing refs (fun m => roots m ∨ m = n) marked work black [n] where
  sound := fun m isMarked =>
    (tracing.sound m isMarked).mono refs fun _ => Or.inl
  pendingSound := by
    intro m isPending
    exact .root (Or.inr (List.mem_singleton.mp isPending))
  rooted := by
    rintro m (isRoot | same)
    · exact (tracing.rooted m isRoot).imp_right (absurd · List.not_mem_nil)
    · exact Or.inr (List.mem_singleton.mpr same)
  colored := tracing.colored
  once := tracing.once
  closed := fun m isBlack r refers =>
    (tracing.closed m isBlack r refers).imp_right
      (absurd · List.not_mem_nil)

/-- A node is taken off the worklist; what it refers to is to be marked. -/
theorem take
    (tracing : Tracing refs roots marked (n :: work) black []) :
    Tracing refs roots marked work (n :: black) (refs n) where
  sound := tracing.sound
  pendingSound := by
    intro m refers
    have isMarked := (tracing.colored n).mpr (Or.inl List.mem_cons_self)
    exact .step (tracing.sound n isMarked) refers
  rooted := fun m isRoot =>
    (tracing.rooted m isRoot).imp_right (absurd · List.not_mem_nil)
  colored := by
    intro m
    rw [tracing.colored m, List.mem_cons, List.mem_cons]
    tauto
  once := by
    have once := tracing.once
    rw [List.cons_append] at once
    exact (List.perm_middle.nodup_iff).mpr once
  closed := by
    intro m isBlack r refers
    rcases List.mem_cons.mp isBlack with rfl | earlier
    · exact Or.inr refers
    · exact (tracing.closed m earlier r refers).imp_right
        (absurd · List.not_mem_nil)

/-- A pending node that is marked already is done. -/
theorem skip
    (tracing : Tracing refs roots marked work black (n :: pending))
    (isMarked : marked n) : Tracing refs roots marked work black pending where
  sound := tracing.sound
  pendingSound := fun m later =>
    tracing.pendingSound m (List.mem_cons_of_mem n later)
  rooted := by
    intro m isRoot
    rcases tracing.rooted m isRoot with held | isPending
    · exact Or.inl held
    · rcases List.mem_cons.mp isPending with rfl | later
      · exact Or.inl isMarked
      · exact Or.inr later
  colored := tracing.colored
  once := tracing.once
  closed := by
    intro m isBlack r refers
    rcases tracing.closed m isBlack r refers with held | isPending
    · exact Or.inl held
    · rcases List.mem_cons.mp isPending with rfl | later
      · exact Or.inl isMarked
      · exact Or.inr later

/-- A pending node that is not marked is marked and put on the worklist. -/
theorem mark
    (tracing : Tracing refs roots marked work black (n :: pending))
    (unmarked : ¬marked n)
    (now : ∀ m, later m ↔ marked m ∨ m = n) :
    Tracing refs roots later (n :: work) black pending := by
  have reached := tracing.pendingSound n List.mem_cons_self
  have fresh : n ∉ work ++ black := by
    intro held
    exact unmarked ((tracing.colored n).mpr (List.mem_append.mp held))
  have kept :
      ∀ m, marked m ∨ m ∈ n :: pending → later m ∨ m ∈ pending := by
    intro m found
    rw [now m]
    rcases found with held | isPending
    · exact Or.inl (Or.inl held)
    · rcases List.mem_cons.mp isPending with same | rest
      · exact Or.inl (Or.inr same)
      · exact Or.inr rest
  exact {
    sound := by
      intro m isMarked
      rcases (now m).mp isMarked with held | same
      · exact tracing.sound m held
      · rw [same]
        exact reached
    pendingSound := fun m rest =>
      tracing.pendingSound m (List.mem_cons_of_mem n rest)
    rooted := fun m isRoot => kept m (tracing.rooted m isRoot)
    colored := by
      intro m
      rw [now m, tracing.colored m, List.mem_cons]
      tauto
    once := List.nodup_cons.mpr ⟨fresh, tracing.once⟩
    closed := fun m isBlack r refers =>
      kept r (tracing.closed m isBlack r refers) }

/-- When nothing is left to do the marked nodes are the reachable ones, and each
of them was taken off the worklist once. -/
theorem done
    (tracing : Tracing refs roots marked [] black []) :
    (∀ n, marked n ↔ Reachable refs roots n) ∧
      (∀ n, n ∈ black ↔ Reachable refs roots n) ∧ black.Nodup := by
  have isBlack : ∀ n, n ∈ black ↔ marked n := by
    intro n
    rw [tracing.colored n]
    simp
  have complete : ∀ n, Reachable refs roots n → marked n := by
    intro n reached
    induction reached with
    | root isRoot =>
        exact (tracing.rooted _ isRoot).resolve_right List.not_mem_nil
    | step _ refers ih =>
        exact (tracing.closed _ ((isBlack _).mpr ih) _
          refers).resolve_right List.not_mem_nil
  refine ⟨fun n => ⟨tracing.sound n, complete n⟩, fun n => ?_, ?_⟩
  · rw [isBlack n]
    exact ⟨tracing.sound n, complete n⟩
  · simpa using tracing.once

end Tracing

end SabiRuby.Library
