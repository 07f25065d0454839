import Mathlib.Data.List.Nodup

/-!
# Chains of links

A partial function sends every point to at most one next point.  The points met
from a given one on form its chain, when the walk ends.
-/

namespace SabiRuby.Library

variable {α : Type*}

/-- The walk from a point meets exactly these points and ends. -/
inductive LinkChain (next : α → Option α) : α → List α → Prop
  | last (x : α) : next x = none → LinkChain next x [x]
  | link (x y : α) (chain : List α) :
      next x = some y → LinkChain next y chain → LinkChain next x (x :: chain)

namespace LinkChain

variable
  {next : α → Option α}
  {x y : α}
  {chain : List α}

/-- A chain begins with its point. -/
theorem exists_eq_cons
    (links : LinkChain next x chain) :
    ∃ rest, chain = x :: rest := by
  cases links with
  | last _ _ => exact ⟨[], rfl⟩
  | link _ _ rest _ _ => exact ⟨rest, rfl⟩

theorem mem_self
    (links : LinkChain next x chain) :
    x ∈ chain := by
  obtain ⟨rest, rfl⟩ := links.exists_eq_cons
  simp

/-- The walk from a point meets one sequence of points only. -/
theorem unique
    (links : LinkChain next x chain)
    (others : LinkChain next x other) :
    chain = other := by
  induction links generalizing other with
  | last x ends =>
      cases others with
      | last _ _ => rfl
      | link _ y _ linked _ => simp [ends] at linked
  | link x y chain linked _ hypothesis =>
      cases others with
      | last _ ends => simp [ends] at linked
      | link _ z _ linked' rest =>
          have same : y = z := by simpa [linked] using linked'
          subst same
          rw [hypothesis rest]

/-- What lies behind the first point of a chain. -/
theorem tail_of_some
    (links : LinkChain next x (x :: rest))
    (linked : next x = some y) :
    LinkChain next y rest := by
  cases links with
  | last _ ends => simp [ends] at linked
  | link _ z _ linked' behind =>
      have same : z = y := by simpa [linked'] using linked
      exact same ▸ behind

theorem tail_of_none
    (links : LinkChain next x (x :: rest))
    (ends : next x = none) :
    rest = [] := by
  cases links with
  | last _ _ => rfl
  | link _ z _ linked _ => simp [ends] at linked

/-- Only the links of its own points matter to a chain. -/
theorem congr
    (links : LinkChain next x chain)
    (agree : ∀ point ∈ chain, next' point = next point) :
    LinkChain next' x chain := by
  induction links with
  | last x ends =>
      apply LinkChain.last
      rw [agree x (by simp), ends]
  | link x y chain linked _ hypothesis =>
      apply LinkChain.link x y chain
      · rw [agree x (by simp), linked]
      · exact hypothesis fun point member =>
          agree point (List.mem_cons_of_mem x member)

/-- Two points that follow one another have no chain. -/
theorem not_of_cycle
    (forth : next x = some y)
    (back : next y = some x) :
    ¬ LinkChain next x chain := by
  intro links
  induction length : chain.length using Nat.strongRecOn
    generalizing x y chain with
  | ind n hypothesis =>
      obtain ⟨rest, rfl⟩ := links.exists_eq_cons
      exact hypothesis rest.length (by simp [← length]) back forth
        (links.tail_of_some forth) rfl

/-- The walk from a later point meets what lies behind it. -/
theorem behind
    {front rest : List α}
    (links : LinkChain next x (front ++ y :: rest)) :
    LinkChain next y (y :: rest) := by
  induction front generalizing x with
  | nil =>
      obtain ⟨_, same⟩ := links.exists_eq_cons
      rw [List.nil_append] at links same
      rw [(List.cons.inj same).1] at links ⊢
      exact links
  | cons z front hypothesis =>
      rw [List.cons_append] at links
      generalize chain : front ++ y :: rest = later at links
      cases links with
      | last _ _ => simp at chain
      | link _ w _ _ linked =>
          rw [← chain] at linked
          exact hypothesis linked

/-- What lies behind a point may be changed for another chain. -/
theorem splice
    (links : LinkChain next x (front ++ y :: rest))
    (agree : ∀ point ∈ front, next' point = next point)
    (others : LinkChain next' y other) :
    LinkChain next' x (front ++ other) := by
  induction front generalizing x with
  | nil =>
      obtain ⟨_, same⟩ := links.exists_eq_cons
      rw [(List.cons.inj same).1] at others
      exact others
  | cons z front hypothesis =>
      rw [List.forall_mem_cons] at agree
      rw [List.cons_append] at links ⊢
      generalize chain : front ++ y :: rest = later at links
      cases links with
      | last _ _ => simp at chain
      | link _ w _ linked behind =>
          rw [← chain] at behind
          exact LinkChain.link z w _ (agree.1.trans linked)
            (hypothesis behind agree.2)

/-- No point is met twice. -/
theorem nodup
    (links : LinkChain next x chain) : chain.Nodup := by
  induction links with
  | last x _ => exact List.nodup_singleton x
  | link x y chain linked behind hypothesis =>
      rw [List.nodup_cons]
      refine ⟨?_, hypothesis⟩
      intro again
      obtain ⟨front, rest, split⟩ := List.append_of_mem again
      rw [split] at behind
      have shorter := behind.behind
      have whole := LinkChain.link x y _ linked behind
      have count := congrArg List.length (shorter.unique whole)
      simp at count
      omega

end LinkChain
end SabiRuby.Library
