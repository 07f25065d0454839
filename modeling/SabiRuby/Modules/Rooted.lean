import SabiRuby.Modules.Graph
import SabiRuby.Modules.Including

/-!
# What every class graph keeps

Every chain of superclass links ends, and a class that has an origin keeps its
own table empty.  A class put right above another one leaves the other chains as
they were, and the tables of a program change in a class without an origin.
-/

namespace SabiRuby.Modules

open Library LinkChain Function

namespace Heap

/-- Every chain ends, links lead to classes of the heap, and an origin belongs
to its class and has no origin itself, like an include class. -/
structure Rooted (h : Heap) : Prop where
  chains : ∀ x, ∃ chain, LinkChain h.next x chain
  known : ∀ x s, h.next x = some s → s < h.classes.length
  originKnown : ∀ x o, (h.cls x).origin = some o → o < h.classes.length
  originOf : ∀ x o, (h.cls x).origin = some o →
    (h.cls o).originOf = some x ∧ (h.cls o).iclassOf = none
  plain : ∀ x, (h.cls x).iclassOf ≠ none ∨ (h.cls x).originOf ≠ none →
    (h.cls x).origin = none

variable {h h' : Heap}

theorem cls_outside
    (late : h.classes.length ≤ x) : h.cls x = ⟨none, none, none, none⟩ := by
  rw [cls, List.getD_eq_getElem?_getD, List.getElem?_eq_none late]
  rfl

theorem next_outside
    (late : h.classes.length ≤ x) : h.next x = none := by
  rw [next, cls_outside late]

/-- A new class right above another one lengthens the chains through it. -/
theorem chains_inserted
    (chains : ∀ x, ∃ chain, LinkChain h.next x chain)
    (known : ∀ x s, h.next x = some s → s < h.classes.length)
    (inside : at_ < h.classes.length)
    (new : h'.next h.classes.length = h.next at_)
    (linked : h'.next at_ = some h.classes.length)
    (others : ∀ x, x ≠ h.classes.length → x ≠ at_ → h'.next x = h.next x) :
    ∀ x, ∃ chain, LinkChain h'.next x chain := by
  have old : ∀ x chain, LinkChain h.next x chain → x ≠ h.classes.length →
      ∃ chain, LinkChain h'.next x chain := by
    intro x chain links
    induction links with
    | last x ends =>
        intro other
        by_cases here : x = at_
        · subst here
          exact ⟨_, link x _ _ linked
            (last _ (new.trans ends))⟩
        · exact ⟨_, last x ((others x other here).trans ends)⟩
    | link x y chain goes _ ih =>
        intro other
        obtain ⟨rest, behind⟩ :=
          ih (Nat.ne_of_lt (known x y goes))
        by_cases here : x = at_
        · subst here
          exact ⟨_, link x _ _ linked
            (link _ y rest (new.trans goes) behind)⟩
        · exact ⟨_, link x y rest
            ((others x other here).trans goes) behind⟩
  intro x
  by_cases fresh : x = h.classes.length
  · subst fresh
    cases goes : h.next at_ with
    | none => exact ⟨_, last _ (new.trans goes)⟩
    | some y =>
        obtain ⟨chain, links⟩ := chains y
        obtain ⟨rest, behind⟩ := old y chain links
          (Nat.ne_of_lt (known at_ y goes))
        exact ⟨_, link _ y rest (new.trans goes) behind⟩
  · obtain ⟨chain, links⟩ := chains x
    exact old x chain links fresh

theorem length_alloc (h : Heap) (data : ClassData) :
    (h.alloc data).classes.length = h.classes.length + 1 := by
  simp [alloc]

theorem cls_alloc (h : Heap) (data : ClassData) (x : Nat) :
    (h.alloc data).cls x =
      if x = h.classes.length then data else h.cls x := by
  unfold alloc cls
  simp only [List.getD_eq_getElem?_getD]
  by_cases new : x = h.classes.length
  · rw [if_pos new, new, List.getElem?_concat_length, Option.getD_some]
  · rw [if_neg new]
    by_cases early : x < h.classes.length
    · rw [List.getElem?_append_left early]
    · rw [List.getElem?_eq_none (by simp; omega),
        List.getElem?_eq_none (by omega)]

/-- A new class whose superclass is a class of the heap. -/
theorem Rooted.alloc
    (rooted : h.Rooted)
    (superclass : Option Nat)
    (inside : ∀ s, superclass = some s → s < h.classes.length) :
    (h.alloc ⟨superclass, none, none, none⟩).Rooted := by
  have nextOld : ∀ x, x ≠ h.classes.length →
      (h.alloc ⟨superclass, none, none, none⟩).next x = h.next x := by
    intro x old
    rw [next, next, cls_alloc, if_neg old]
  have nextNew : (h.alloc ⟨superclass, none, none, none⟩).next
      h.classes.length = superclass := by
    rw [next, cls_alloc, if_pos rfl]
  have chainsOld : ∀ x, x ≠ h.classes.length → ∃ chain,
      LinkChain (h.alloc ⟨superclass, none, none, none⟩).next x chain := by
    intro x old
    obtain ⟨chain, links⟩ := rooted.chains x
    refine ⟨chain, links.congr ?_⟩
    intro point member
    refine nextOld point ?_
    rintro rfl
    have ends : ∀ y rest, LinkChain h.next y rest → y ≠ h.classes.length →
        h.classes.length ∉ rest := by
      intro y rest links
      induction links with
      | last y _ =>
          intro other member
          exact other (List.mem_singleton.mp member).symm
      | link y z rest goes _ ih =>
          intro other member
          rcases List.mem_cons.mp member with same | later
          · exact other same.symm
          · exact ih
              (Nat.ne_of_lt (rooted.known y z goes)) later
    exact ends x chain links old member
  refine ⟨?_, ?_, ?_, ?_, ?_⟩
  · intro x
    by_cases new : x = h.classes.length
    · subst new
      cases superclass with
      | none => exact ⟨_, last _ nextNew⟩
      | some s =>
          obtain ⟨chain, links⟩ := chainsOld s (Nat.ne_of_lt (inside s rfl))
          exact ⟨_, link _ s chain nextNew links⟩
    · exact chainsOld x new
  · intro x s goes
    rw [length_alloc]
    by_cases new : x = h.classes.length
    · rw [new, nextNew] at goes
      exact Nat.lt_succ_of_lt (inside s goes)
    · rw [nextOld x new] at goes
      exact Nat.lt_succ_of_lt (rooted.known x s goes)
  · intro x o has
    rw [length_alloc]
    rw [cls_alloc] at has
    by_cases new : x = h.classes.length
    · rw [if_pos new] at has
      cases has
    · rw [if_neg new] at has
      exact Nat.lt_succ_of_lt (rooted.originKnown x o has)
  · intro x o has
    rw [cls_alloc] at has
    by_cases new : x = h.classes.length
    · rw [if_pos new] at has
      cases has
    · rw [if_neg new] at has
      rw [cls_alloc, if_neg (Nat.ne_of_lt (rooted.originKnown x o has))]
      exact rooted.originOf x o has
  · intro x special
    rw [cls_alloc] at special ⊢
    by_cases new : x = h.classes.length
    · rw [if_pos new]
    · rw [if_neg new] at special ⊢
      exact rooted.plain x special

/-- A new class right above a class of the heap, which may become its origin. -/
theorem Rooted.inserted
    (rooted : h.Rooted)
    (inside : at_ < h.classes.length)
    (above : data.superclass = h.next at_)
    (bare : data.origin = none)
    (linked : ∀ cd, (change cd).superclass = some h.classes.length)
    (same : ∀ cd, (change cd).iclassOf = cd.iclassOf ∧
      (change cd).originOf = cd.originOf)
    (own : ∀ o, (change (h.cls at_)).origin = some o →
      (h.cls at_).origin = some o ∨ o = h.classes.length ∧
        data.originOf = some at_ ∧ data.iclassOf = none)
    (special : ((h.cls at_).iclassOf ≠ none ∨ (h.cls at_).originOf ≠ none) →
      (change (h.cls at_)).origin = none) :
    Rooted ⟨(h.alloc data).classes.modify at_ change⟩ := by
  have isCls := fun x => h.cls_modify_alloc data change x inside
  generalize isHeap : Heap.mk ((h.alloc data).classes.modify at_ change) = h'
    at isCls ⊢
  have count : h'.classes.length = h.classes.length + 1 := by
    simp [← isHeap, Heap.alloc]
  have new : h'.next h.classes.length = h.next at_ := by
    conv_lhs => unfold next
    rw [isCls, if_pos rfl, above]
  have link : h'.next at_ = some h.classes.length := by
    rw [next, isCls, if_neg (by omega), if_pos rfl, linked]
  have others : ∀ x, x ≠ h.classes.length → x ≠ at_ →
      h'.next x = h.next x := by
    intro x old other
    rw [next, isCls, if_neg old, if_neg other, next]
  have kept : ∀ x, x ≠ h.classes.length →
      (h'.cls x).iclassOf = (h.cls x).iclassOf ∧
        (h'.cls x).originOf = (h.cls x).originOf := by
    intro x old
    rw [isCls, if_neg old]
    by_cases here : x = at_
    · rw [if_pos here]
      exact same _
    · rw [if_neg here]
      exact ⟨rfl, rfl⟩
  have origins : ∀ x o, (h'.cls x).origin = some o →
      (h.cls x).origin = some o ∨ x = at_ ∧ o = h.classes.length ∧
        data.originOf = some at_ ∧ data.iclassOf = none := by
    intro x o has
    rw [isCls] at has
    by_cases fresh : x = h.classes.length
    · rw [if_pos fresh, bare] at has
      cases has
    · rw [if_neg fresh] at has
      by_cases here : x = at_
      · rw [if_pos here, here] at has
        rw [here]
        exact (own o has).imp_right fun now => ⟨rfl, now⟩
      · rw [if_neg here] at has
        exact .inl has
  refine ⟨chains_inserted rooted.chains rooted.known inside new link others,
    ?_, ?_, ?_, ?_⟩
  · intro x s goes
    rw [count]
    by_cases fresh : x = h.classes.length
    · rw [fresh, new] at goes
      exact Nat.lt_succ_of_lt (rooted.known at_ s goes)
    · by_cases here : x = at_
      · rw [here, link] at goes
        rw [← Option.some.inj goes]
        exact Nat.lt_succ_self _
      · rw [others x fresh here] at goes
        exact Nat.lt_succ_of_lt (rooted.known x s goes)
  · intro x o has
    rw [count]
    rcases origins x o has with old | ⟨-, rfl, -⟩
    · exact Nat.lt_succ_of_lt (rooted.originKnown x o old)
    · exact Nat.lt_succ_self _
  · intro x o has
    rcases origins x o has with old | ⟨rfl, rfl, back⟩
    · have kept := kept o (Nat.ne_of_lt (rooted.originKnown x o old))
      rw [kept.1, kept.2]
      exact rooted.originOf x o old
    · rw [isCls, if_pos rfl]
      exact back
  · intro x isSpecial
    by_cases fresh : x = h.classes.length
    · rw [isCls, if_pos fresh, bare]
    · rw [(kept x fresh).1, (kept x fresh).2] at isSpecial
      rw [isCls, if_neg fresh]
      by_cases here : x = at_
      · rw [if_pos here, here]
        exact special (here ▸ isSpecial)
      · rw [if_neg here]
        exact rooted.plain x isSpecial

/-- An include class right above a class of the heap. -/
theorem Rooted.insertAbove
    (rooted : h.Rooted)
    (m : Nat)
    (inside : at_ < h.classes.length) : (h.insertAbove at_ m).Rooted :=
  rooted.inserted inside rfl rfl (fun _ => rfl) (fun _ => ⟨rfl, rfl⟩)
    (fun _ => .inl) (rooted.plain at_)

/-- More classes, and no class that had no origin has one. -/
def Grown (h h' : Heap) : Prop :=
  h.classes.length ≤ h'.classes.length ∧
    ∀ x, (h'.cls x).origin ≠ none → (h.cls x).origin ≠ none

theorem Grown.trans
    (first : h.Grown h')
    (second : h'.Grown h'') : h.Grown h'' :=
  ⟨Nat.le_trans first.1 second.1, fun x has => first.2 x (second.2 x has)⟩

theorem grown_insertAbove
    (m : Nat)
    (inside : at_ < h.classes.length) : h.Grown (h.insertAbove at_ m) := by
  refine ⟨by rw [length_insertAbove]; exact Nat.le_succ _, ?_⟩
  intro x has
  rw [cls_insertAbove _ _ _ _ inside] at has
  by_cases fresh : x = h.classes.length
  · rw [if_pos fresh] at has
    exact absurd rfl has
  · rw [if_neg fresh] at has
    by_cases here : x = at_
    · rw [if_pos here] at has
      exact has
    · rw [if_neg here] at has
      exact has

section

variable (rooted : h.Rooted)
include rooted

theorem Rooted.defTarget_known
    (inside : class_ < h.classes.length) :
    h.defTarget class_ < h.classes.length := by
  unfold defTarget
  cases has : (h.cls class_).origin with
  | none => exact inside
  | some o => exact rooted.originKnown class_ o has

theorem Rooted.includeLoop
    (inside : at_ < h.classes.length)
    (returns : h.includeLoop fuel class_ at_ mods = some h') :
    h'.Rooted ∧ h.Grown h' := by
  induction mods generalizing h at_ with
  | nil =>
      cases returns
      exact ⟨rooted, Nat.le_refl _, fun _ has => has⟩
  | cons m mods ih =>
      rw [Heap.includeLoop] at returns
      cases there : h.present m fuel (h.next class_) with
      | none => simp [there] at returns
      | some there' =>
          cases there' with
          | true =>
              simp only [there] at returns
              exact ih rooted inside returns
          | false =>
              simp only [there] at returns
              have grown := grown_insertAbove m inside
              obtain ⟨after, further⟩ := ih
                (rooted.insertAbove m inside)
                (by rw [length_insertAbove]; exact Nat.lt_succ_self _) returns
              exact ⟨after, grown.trans further⟩

theorem Rooted.includeModule
    (inside : class_ < h.classes.length)
    (returns : h.includeModule class_ module_ fuel = some h') :
    h'.Rooted ∧ h.Grown h' := by
  unfold Heap.includeModule at returns
  cases brings : h.moduleChain module_ fuel with
  | none => simp [brings] at returns
  | some mods =>
      simp only [brings] at returns
      exact rooted.includeLoop (rooted.defTarget_known inside) returns

theorem Rooted.prependLoop
    (inside : class_ < h.classes.length)
    (returns : Graph.prependLoop fuel class_ h mods = some h') :
    h'.Rooted ∧ h.Grown h' := by
  induction mods generalizing h with
  | nil =>
      cases returns
      exact ⟨rooted, Nat.le_refl _, fun _ has => has⟩
  | cons m mods ih =>
      rw [Graph.prependLoop] at returns
      cases there : Graph.presentBelow h m fuel (h.next class_) with
      | none => simp [there] at returns
      | some there' =>
          cases there' with
          | true =>
              simp only [there] at returns
              exact ih rooted inside returns
          | false =>
              simp only [there] at returns
              have grown := grown_insertAbove m inside
              obtain ⟨after, further⟩ := ih
                (rooted.insertAbove m inside)
                (Nat.lt_of_lt_of_le inside grown.1) returns
              exact ⟨after, grown.trans further⟩

end

theorem length_insertOrigin (h : Heap) (class_ : Nat) :
    (h.insertOrigin class_).classes.length = h.classes.length + 1 := by
  simp [insertOrigin, alloc]

theorem cls_insertOrigin
    (h : Heap)
    (class_ x : Nat)
    (inside : class_ < h.classes.length) :
    (h.insertOrigin class_).cls x =
      if x = h.classes.length then ⟨h.next class_, none, none, some class_⟩
      else if x = class_ then
        { h.cls x with
          superclass := some h.classes.length
          origin := some h.classes.length }
      else h.cls x :=
  h.cls_modify_alloc _ _ x inside

/-- An origin right above a class that has none. -/
theorem Rooted.insertOrigin
    (rooted : h.Rooted)
    (inside : class_ < h.classes.length)
    (notIclass : (h.cls class_).iclassOf = none)
    (notOrigin : (h.cls class_).originOf = none) :
    (h.insertOrigin class_).Rooted :=
  rooted.inserted inside rfl rfl (fun _ => rfl) (fun _ => ⟨rfl, rfl⟩)
    (fun _ has => .inr ⟨(Option.some.inj has).symm, rfl, rfl⟩)
    (fun special => special.elim (absurd notIclass) (absurd notOrigin))

end Heap

namespace Graph

/-- The heap is rooted, every value has a class of the heap, and a class that
has an origin keeps no methods itself. -/
structure Sound (g : Graph) : Prop where
  rooted : g.heap.Rooted
  classKnown : ∀ v, g.classOf v < g.heap.classes.length
  moduleKnown : g.moduleClass < g.heap.classes.length
  classClassKnown : g.classClass < g.heap.classes.length
  moved : ∀ x, (g.heap.cls x).origin ≠ none → (g.tables x).methods = []

variable {g g' : Graph}

section

variable (sound : g.Sound)
include sound

/-- Another heap with more classes, in which no other class has an origin. -/
theorem Sound.withHeap
    (h : Heap)
    (rooted : h.Rooted)
    (grown : g.heap.Grown h) : Sound { g with heap := h } :=
  ⟨rooted, fun v => Nat.lt_of_lt_of_le (sound.classKnown v) grown.1,
    Nat.lt_of_lt_of_le sound.moduleKnown grown.1,
    Nat.lt_of_lt_of_le sound.classClassKnown grown.1,
    fun x has => sound.moved x (grown.2 x has)⟩

/-- Where the tables of a class that a program can hold are. -/
theorem Sound.defTarget_plain
    (visible : g.Visible class_) :
    (g.heap.cls (g.heap.defTarget class_)).origin = none ∧
      g.tableOwner (g.heap.defTarget class_) = g.heap.defTarget class_ := by
  unfold tableOwner Heap.defTarget
  cases has : (g.heap.cls class_).origin with
  | none =>
      rw [Option.getD_none, has, visible.2.1]
      exact ⟨rfl, rfl⟩
  | some o =>
      obtain ⟨isOrigin, notIclass⟩ := sound.rooted.originOf class_ o has
      rw [Option.getD_some, notIclass]
      exact ⟨sound.rooted.plain o (Or.inr (by simp [isOrigin])), rfl⟩

theorem Sound.changeTable
    (plain : (g.heap.cls x).origin = none)
    (change : Table → Table) : (g.changeTable x change).Sound := by
  refine ⟨sound.rooted, sound.classKnown, sound.moduleKnown,
    sound.classClassKnown, ?_⟩
  intro y has
  have other : y ≠ x := by
    rintro rfl
    exact has plain
  simp only [Graph.changeTable, update_of_ne other]
  exact sound.moved y has

theorem Sound.addSingleton
    (v : Receiver)
    (inside : sup < g.heap.classes.length) :
    (g.addSingleton v sup).1.Sound ∧
      (g.addSingleton v sup).2 <
        (g.addSingleton v sup).1.heap.classes.length := by
  have length := g.heap.length_alloc ⟨some sup, none, none, none⟩
  refine ⟨⟨?_, ?_, ?_, ?_, ?_⟩, ?_⟩
  · exact sound.rooted.alloc (some sup) fun s is => Option.some.inj is ▸ inside
  · intro w
    simp only [Graph.addSingleton, Graph.alloc, length]
    by_cases same : w = v
    · rw [same, update_self]
      exact Nat.lt_succ_self _
    · rw [update_of_ne same]
      exact Nat.lt_succ_of_lt (sound.classKnown w)
  · simp only [Graph.addSingleton, Graph.alloc, length]
    exact Nat.lt_succ_of_lt sound.moduleKnown
  · simp only [Graph.addSingleton, Graph.alloc, length]
    exact Nat.lt_succ_of_lt sound.classClassKnown
  · intro x has
    simp only [Graph.addSingleton, Graph.alloc, Heap.cls_alloc] at has ⊢
    by_cases new : x = g.heap.classes.length
    · rw [if_pos new] at has
      exact absurd rfl has
    · rw [if_neg new] at has
      exact sound.moved x has
  · simp only [Graph.addSingleton, Graph.alloc, length]
    exact Nat.lt_succ_self _

theorem Sound.singletonClass
    (returns : Graph.singletonClass fuel g v = some (g', sc)) :
    g'.Sound ∧ sc < g'.heap.classes.length := by
  induction fuel generalizing v g' sc with
  | zero => cases returns
  | succ fuel ih =>
      have added := sound.addSingleton v (sound.classKnown v)
      rw [Graph.singletonClass.eq_def] at returns
      simp only at returns
      by_cases own : g.attached (g.classOf v) = some v
      · rw [if_pos own] at returns
        cases returns
        exact ⟨sound, sound.classKnown v⟩
      · rw [if_neg own] at returns
        cases v with
        | object n =>
            cases returns
            exact added
        | class_ o =>
            simp only at returns
            by_cases module_ : g.isModule o = true
            · rw [if_pos module_] at returns
              cases returns
              exact added
            · rw [if_neg module_] at returns
              cases linked : g.heap.next o with
              | none =>
                  simp only [linked] at returns
                  cases returns
                  exact added
              | some s =>
                  simp only [linked] at returns
                  by_cases single : (g.attached s).isSome = true
                  · rw [if_pos single] at returns
                    cases returns
                    exact sound.addSingleton _ (sound.rooted.known o s linked)
                  · rw [if_neg single] at returns
                    cases above : Graph.singletonClass fuel g (.class_ s) with
                    | none => simp [above] at returns
                    | some made =>
                        obtain ⟨g'', sup⟩ := made
                        simp only [above] at returns
                        cases returns
                        obtain ⟨sound', known⟩ := ih above
                        exact sound'.addSingleton _ known

/-- A new class or module of a given class. -/
theorem Sound.alloc
    (superclass : Option Nat)
    (isModule : Nat → Bool)
    (inside : ∀ s, superclass = some s → s < g.heap.classes.length)
    (known : meta_ < g.heap.classes.length) :
    Sound { g.alloc superclass with
      isModule := isModule
      classOf := update g.classOf (.class_ g.heap.classes.length)
        meta_ } := by
  have length := g.heap.length_alloc ⟨superclass, none, none, none⟩
  refine ⟨sound.rooted.alloc superclass inside, ?_, ?_, ?_, ?_⟩
  · intro w
    simp only [Graph.alloc, length]
    by_cases same : w = .class_ g.heap.classes.length
    · rw [same, update_self]
      exact Nat.lt_succ_of_lt known
    · rw [update_of_ne same]
      exact Nat.lt_succ_of_lt (sound.classKnown w)
  · simp only [Graph.alloc, length]
    exact Nat.lt_succ_of_lt sound.moduleKnown
  · simp only [Graph.alloc, length]
    exact Nat.lt_succ_of_lt sound.classClassKnown
  · intro x has
    simp only [Graph.alloc, Heap.cls_alloc] at has ⊢
    by_cases new : x = g.heap.classes.length
    · rw [if_pos new] at has
      exact absurd rfl has
    · rw [if_neg new] at has
      exact sound.moved x has

theorem Sound.newObject
    (known : class_ < g.heap.classes.length) : (g.newObject class_).Sound := by
  refine ⟨sound.rooted, ?_, sound.moduleKnown, sound.classClassKnown,
    sound.moved⟩
  intro w
  simp only [Graph.newObject]
  by_cases same : w = .object g.objects
  · rw [same, update_self]
    exact known
  · rw [update_of_ne same]
    exact sound.classKnown w

theorem Sound.includeModule
    (inside : class_ < g.heap.classes.length)
    (returns : g.includeModule class_ module_ fuel = some g') : g'.Sound := by
  unfold Graph.includeModule at returns
  cases made : g.heap.includeModule class_ module_ fuel with
  | none => simp [made] at returns
  | some h =>
      rw [made, Option.map_some] at returns
      cases returns
      obtain ⟨rooted, grown⟩ := sound.rooted.includeModule inside made
      exact sound.withHeap h rooted grown

theorem Sound.withOrigin
    (visible : g.Visible class_) : (g.withOrigin class_).Sound := by
  unfold Graph.withOrigin
  by_cases has : (g.heap.cls class_).origin.isSome
  · rw [if_pos has]
    exact sound
  · rw [if_neg has]
    have inside := visible.1
    have length := g.heap.length_insertOrigin class_
    refine ⟨sound.rooted.insertOrigin inside visible.2.1 visible.2.2,
      ?_, ?_, ?_, ?_⟩
    · intro v
      simp only [length]
      exact Nat.lt_succ_of_lt (sound.classKnown v)
    · simp only [length]
      exact Nat.lt_succ_of_lt sound.moduleKnown
    · simp only [length]
      exact Nat.lt_succ_of_lt sound.classClassKnown
    · intro x origin
      simp only [Heap.cls_insertOrigin _ _ _ inside] at origin ⊢
      by_cases here : x = class_
      · rw [here, update_self]
        rfl
      · rw [update_of_ne here]
        by_cases new : x = g.heap.classes.length
        · rw [if_pos new] at origin
          exact absurd rfl origin
        · rw [if_neg new, if_neg here] at origin
          rw [update_of_ne new]
          exact sound.moved x origin

end

theorem length_withOrigin (g : Graph) (class_ : Nat) :
    g.heap.classes.length ≤ (g.withOrigin class_).heap.classes.length := by
  unfold withOrigin
  by_cases has : (g.heap.cls class_).origin.isSome
  · rw [if_pos has]
  · rw [if_neg has]
    simp only [Heap.length_insertOrigin]
    exact Nat.le_succ _

/-- Prepending gives the class an origin and writes what its chain lacks. -/
theorem prependModule_cases
    (returns : g.prependModule class_ module_ fuel = some (g', raised)) :
    g' = g.withOrigin class_ ∨ ∃ mods h,
      (g.withOrigin class_).heap.moduleChain module_ fuel = some mods ∧
        Graph.prependLoop fuel class_ (g.withOrigin class_).heap mods.reverse =
          some h ∧
        g' = { g.withOrigin class_ with heap := h } := by
  unfold Graph.prependModule at returns
  simp only at returns
  generalize g.withOrigin class_ = g at *
  cases already : alreadyPrepended g.heap (g.heap.defTarget class_) module_
      fuel (g.heap.next class_) with
  | none => simp [already] at returns
  | some already' =>
      cases already' with
      | true =>
          simp only [already, Option.some.injEq, Prod.mk.injEq] at returns
          exact .inl returns.1.symm
      | false =>
          simp only [already] at returns
          cases cyclic : moduleChainContains g.heap class_ fuel
              (some module_) with
          | none => simp [cyclic] at returns
          | some contains =>
              simp only [cyclic] at returns
              split_ifs at returns with raises
              · simp only [Option.some.injEq, Prod.mk.injEq] at returns
                exact .inl returns.1.symm
              · cases brings : g.heap.moduleChain module_ fuel with
                | none => simp [brings] at returns
                | some mods =>
                    simp only [brings, Option.map_eq_some_iff,
                      Prod.mk.injEq] at returns
                    obtain ⟨h, looped, rfl, _⟩ := returns
                    exact .inr ⟨mods, h, rfl, looped, rfl⟩

theorem Sound.prependModule
    (sound : g.Sound)
    (visible : g.Visible class_)
    (returns : (g.prependModule class_ module_ fuel).map Prod.fst = some g') :
    g'.Sound := by
  obtain ⟨⟨after, _⟩, returned, rfl⟩ := Option.map_eq_some_iff.mp returns
  have moved := sound.withOrigin visible
  have inside := Nat.lt_of_lt_of_le visible.1 (g.length_withOrigin class_)
  obtain rfl | ⟨mods, h, -, looped, rfl⟩ := prependModule_cases returned
  · exact moved
  · obtain ⟨rooted, grown⟩ := moved.rooted.prependLoop inside looped
    exact moved.withHeap h rooted grown

/-! ## Runs -/

/-- A change of a program keeps what every graph keeps. -/
theorem Sound.apply
    (sound : g.Sound)
    (change : Change)
    (visible : ∀ c ∈ change.classes, g.Visible c)
    (returns : g.apply fuel change = some g') : g'.Sound := by
  cases change with
  | newClass superclass =>
      have inside := (visible superclass (by simp [Change.classes])).1
      simp only [Graph.apply, Graph.newClass, Option.map_eq_some_iff]
        at returns
      obtain ⟨⟨made, sc⟩, opened, rfl⟩ := returns
      have allocated := sound.alloc (some superclass) g.isModule
        (fun s is => Option.some.inj is ▸ inside) sound.classClassKnown
      exact (allocated.singletonClass opened).1
  | newModule =>
      cases returns
      exact sound.alloc none _ (fun _ is => by cases is) sound.moduleKnown
  | newObject class_ =>
      cases returns
      exact sound.newObject (visible class_ (by simp [Change.classes])).1
  | openSingleton v =>
      simp only [Graph.apply, Option.map_eq_some_iff] at returns
      obtain ⟨⟨made, sc⟩, opened, rfl⟩ := returns
      exact (sound.singletonClass opened).1
  | define_ class_ mid m vis =>
      cases returns
      have target :=
        sound.defTarget_plain (visible class_ (by simp [Change.classes]))
      exact sound.changeTable target.1 _
  | alias_ class_ new old =>
      have target :=
        sound.defTarget_plain (visible class_ (by simp [Change.classes]))
      simp only [Graph.apply, Graph.aliasMethod] at returns
      by_cases same : new = old
      · rw [if_pos same] at returns
        cases returns
        exact sound
      · rw [if_neg same] at returns
        cases found : g.findMethod class_ old fuel with
        | none => simp [found] at returns
        | some found' =>
            cases found' with
            | none =>
                simp only [found] at returns
                cases returns
                exact sound
            | some entry =>
                simp only [found, Option.map_map,
                  Option.map_eq_some_iff] at returns
                obtain ⟨vis, _, rfl⟩ := returns
                dsimp only [comp_apply, Graph.defMethod]
                exact sound.changeTable target.1 _
  | undefMethod class_ mid =>
      have target :=
        sound.defTarget_plain (visible class_ (by simp [Change.classes]))
      simp only [Graph.apply, Graph.undefMethod, Option.map_map,
        Option.map_eq_some_iff] at returns
      obtain ⟨found, _, rfl⟩ := returns
      cases found with
      | none => exact sound
      | some entry =>
          dsimp only [comp_apply]
          exact sound.changeTable target.1 _
  | removeMethod class_ mid =>
      have target :=
        sound.defTarget_plain (visible class_ (by simp [Change.classes]))
      simp only [Graph.apply, Graph.removeMethod, target.2,
        Option.some.injEq] at returns
      by_cases there :
          ((g.tables (g.heap.defTarget class_)).find mid).isSome = true
      · rw [if_pos there] at returns
        subst returns
        dsimp only
        exact sound.changeTable target.1 _
      · rw [if_neg there] at returns
        exact returns ▸ sound
  | setVisibility class_ mid vis =>
      have target :=
        sound.defTarget_plain (visible class_ (by simp [Change.classes]))
      simp only [Graph.apply, Graph.setVisibility] at returns
      by_cases there :
          ((g.tables (g.heap.defTarget class_)).find mid).isSome = true
      · rw [if_pos there] at returns
        cases returns
        dsimp only
        exact sound.changeTable target.1 _
      · rw [if_neg there] at returns
        simp only [Option.map_map, Option.map_eq_some_iff] at returns
        obtain ⟨found, _, rfl⟩ := returns
        cases found with
        | none => exact sound
        | some entry =>
            dsimp only [comp_apply]
            exact sound.changeTable target.1 _
  | include_ class_ module_ =>
      exact sound.includeModule
        (visible class_ (by simp [Change.classes])).1 returns
  | prepend_ class_ module_ =>
      exact sound.prependModule
        (visible class_ (by simp [Change.classes])) returns
  | extend_ v module_ =>
      simp only [Graph.apply, Graph.extend] at returns
      cases opened : Graph.singletonClass fuel g v with
      | none => simp [opened] at returns
      | some made =>
          obtain ⟨made, sc⟩ := made
          simp only [opened] at returns
          obtain ⟨sound', known⟩ := sound.singletonClass opened
          exact sound'.includeModule known returns

theorem sound_boot (privateNames : PrivateNames) :
    (boot privateNames).Sound := by
  have isCls : ∀ x, (boot privateNames).heap.cls x =
      ⟨if 0 < x ∧ x < 4 then some (x - 1) else none, none, none, none⟩ := by
    intro x
    match x with
    | 0 | 1 | 2 | 3 => rfl
    | x + 4 =>
        rw [Heap.cls_outside (by simp [boot]), if_neg (by omega)]
  have goes : ∀ x, (boot privateNames).heap.next x =
      if 0 < x ∧ x < 4 then some (x - 1) else none := by
    intro x
    rw [Heap.next, isCls]
  have chain : ∀ x, x < 4 → ∃ chain,
      LinkChain (boot privateNames).heap.next x chain := by
    intro x
    induction x with
    | zero => exact fun _ => ⟨_, last 0 (goes 0)⟩
    | succ x ih =>
        intro small
        obtain ⟨rest, links⟩ := ih (by omega)
        refine ⟨_, link (x + 1) x rest ?_ links⟩
        rw [goes, if_pos ⟨by omega, small⟩]
        rfl
  refine ⟨⟨?_, ?_, ?_, ?_, ?_⟩, ?_, ?_, ?_, ?_⟩
  · intro x
    by_cases small : x < 4
    · exact chain x small
    · exact ⟨_, last x (by rw [goes, if_neg (by omega)])⟩
  · intro x s linked
    rw [goes] at linked
    by_cases inside : 0 < x ∧ x < 4
    · rw [if_pos inside] at linked
      have is := Option.some.inj linked
      change s < 4
      omega
    · rw [if_neg inside] at linked
      cases linked
  · intro x o has
    rw [isCls] at has
    cases has
  · intro x o has
    rw [isCls] at has
    cases has
  · intro x _
    rw [isCls]
  · exact fun _ => by simp [boot]
  · simp [boot]
  · simp [boot]
  · exact fun _ _ => rfl

/-- Every graph that a program can reach is sound. -/
theorem Reachable.sound
    (reachable : Reachable g) : g.Sound := by
  induction reachable with
  | boot privateNames => exact sound_boot privateNames
  | change change fuel _ visible returns ih =>
      exact ih.apply change visible returns

end Graph
end SabiRuby.Modules
