import SabiRuby.Library.InsertedBlock
import SabiRuby.Modules.Hierarchy

/-!
# Including a module

`include_module` inserts the modules that are not yet in the chain as one block
right above the class.  They are in the order of the module's own chain, but the
place is not moved past a module that is already there.
-/

namespace SabiRuby.Modules

open Library

namespace Heap

variable {h : Heap}

/-! ## One insertion -/

/-- The classes that were there are the same but for their superclass links. -/
structure Extends (h h' : Heap) : Prop where
  count : h.classes.length ≤ h'.classes.length
  iclassOf : ∀ x < h.classes.length, (h'.cls x).iclassOf = (h.cls x).iclassOf
  origin : ∀ x < h.classes.length, (h'.cls x).origin = (h.cls x).origin
  originOf : ∀ x < h.classes.length, (h'.cls x).originOf = (h.cls x).originOf

theorem Extends.refl (h : Heap) : h.Extends h :=
  ⟨Nat.le_refl _, fun _ _ => rfl, fun _ _ => rfl, fun _ _ => rfl⟩

theorem Extends.trans
    (first : h.Extends middle)
    (second : middle.Extends after) : h.Extends after := by
  have known : ∀ x < h.classes.length, x < middle.classes.length :=
    fun x inside => Nat.lt_of_lt_of_le inside first.count
  refine ⟨Nat.le_trans first.count second.count, ?_, ?_, ?_⟩
  · intro x inside
    rw [second.iclassOf x (known x inside), first.iclassOf x inside]
  · intro x inside
    rw [second.origin x (known x inside), first.origin x inside]
  · intro x inside
    rw [second.originOf x (known x inside), first.originOf x inside]

theorem Extends.shown
    (grows : h.Extends after)
    (inside : x < h.classes.length) : after.shown x = h.shown x := by
  unfold Heap.shown
  rw [grows.iclassOf x inside, grows.origin x inside, grows.originOf x inside]

theorem Extends.modulesOf
    (grows : h.Extends after)
    (inside : ∀ x ∈ chain, x < h.classes.length) :
    after.modulesOf chain = h.modulesOf chain :=
  List.filterMap_congr fun x member => grows.iclassOf x (inside x member)

theorem length_insertAbove (h : Heap) (at_ m : Nat) :
    (h.insertAbove at_ m).classes.length = h.classes.length + 1 := by
  simp [insertAbove, alloc, setSuperclass]

/-- A new class, and a change of one that was there. -/
theorem cls_modify_alloc
    (h : Heap)
    (data : ClassData)
    (change : ClassData → ClassData)
    (x : Nat)
    (inside : at_ < h.classes.length) :
    cls ⟨(h.alloc data).classes.modify at_ change⟩ x =
      if x = h.classes.length then data
      else if x = at_ then change (h.cls x)
      else h.cls x := by
  unfold alloc cls
  simp only [List.getD_eq_getElem?_getD, List.getElem?_modify]
  by_cases new : x = h.classes.length
  · rw [if_pos new, new, List.getElem?_concat_length, Option.map_eq_map,
      Option.map_some, Option.getD_some, if_neg (by omega)]
  · rw [if_neg new]
    by_cases early : x < h.classes.length
    · rw [List.getElem?_append_left early, List.getElem?_eq_getElem early,
        Option.map_eq_map, Option.map_some, Option.getD_some, Option.getD_some]
      by_cases here : at_ = x
      · rw [if_pos here, if_pos here.symm]
      · rw [if_neg here, if_neg (Ne.symm here)]
    · have late : (h.classes ++ [data])[x]? = none :=
        List.getElem?_eq_none (by
          rw [List.length_append, List.length_singleton]
          omega)
      rw [late, if_neg (by omega), List.getElem?_eq_none (by omega)]
      rfl

theorem cls_insertAbove
    (h : Heap)
    (at_ m x : Nat)
    (inside : at_ < h.classes.length) :
    (h.insertAbove at_ m).cls x =
      if x = h.classes.length then ⟨h.next at_, some m, none, none⟩
      else if x = at_ then { h.cls x with superclass := some h.classes.length }
      else h.cls x :=
  h.cls_modify_alloc _ _ x inside

theorem extends_insertAbove
    (at_ m : Nat)
    (inside : at_ < h.classes.length) : h.Extends (h.insertAbove at_ m) := by
  have same : ∀ x < h.classes.length, (h.insertAbove at_ m).cls x =
      if x = at_ then { h.cls x with superclass := some h.classes.length }
      else h.cls x := by
    intro x early
    rw [h.cls_insertAbove at_ m x inside, if_neg (by omega)]
  refine ⟨?_, ?_, ?_, ?_⟩
  · rw [length_insertAbove]
    exact Nat.le_succ _
  all_goals
    intro x early
    rw [same x early]
    by_cases here : x = at_
    · rw [if_pos here]
    · rw [if_neg here]

/-- The new include class stands behind the class it was inserted above. -/
theorem links_insertAbove
    (m : Nat)
    (links : LinkChain h.next class_ (front ++ at_ :: behind))
    (inside : ∀ x ∈ front ++ at_ :: behind, x < h.classes.length) :
    LinkChain (h.insertAbove at_ m).next class_
      (front ++ at_ :: h.classes.length :: behind) := by
  have here := inside at_ (by simp)
  have distinct := List.nodup_append.mp links.nodup
  have unchanged : ∀ x < h.classes.length, x ≠ at_ →
      (h.insertAbove at_ m).next x = h.next x := by
    intro x early other
    unfold next
    rw [h.cls_insertAbove at_ m x here, if_neg (by omega), if_neg other]
  have new : (h.insertAbove at_ m).next h.classes.length = h.next at_ := by
    conv_lhs => unfold next
    rw [h.cls_insertAbove at_ m _ here, if_pos rfl]
  have linked : (h.insertAbove at_ m).next at_ = some h.classes.length := by
    unfold next
    rw [h.cls_insertAbove at_ m at_ here, if_neg (by omega), if_pos rfl]
  apply links.splice
  · intro x member
    refine unchanged x (inside x (by simp [member])) ?_
    exact distinct.2.2 x member at_ (by simp)
  · apply LinkChain.link at_ h.classes.length _ linked
    have later := links.behind
    cases ends : h.next at_ with
    | none =>
        rw [later.tail_of_none ends]
        exact LinkChain.last _ (new.trans ends)
    | some y =>
        refine LinkChain.link _ y behind (new.trans ends) ?_
        refine (later.tail_of_some ends).congr ?_
        intro x member
        refine unchanged x (inside x (by simp [member])) ?_
        rintro rfl
        exact (List.nodup_cons.mp distinct.2.1).1 member

/-! ## The loop -/

/-- What the loop leaves: one block of new include classes, of the modules that
the chain lacked. -/
structure Inserted (h h' : Heap) (news missing : List Nat) : Prop where
  grows : h.Extends h'
  fresh : ∀ x ∈ news, x < h'.classes.length
  modules : h'.modulesOf news = missing
  shown : news.filterMap h'.shown = missing

theorem mem_tail_insert
    {at_ new x : Nat} :
    x ∈ (front ++ at_ :: new :: behind).tail ↔
      x = new ∨ x ∈ (front ++ at_ :: behind).tail := by
  cases front with
  | nil => simp
  | cons y front => simp [or_left_comm]

theorem includeLoop_spec
    (mods : List Nat)
    (distinct : mods.Nodup)
    (links : LinkChain h.next class_ (front ++ at_ :: behind))
    (inside : ∀ x ∈ front ++ at_ :: behind, x < h.classes.length) :
    ∃ h' news,
      (∀ fuel, (front ++ at_ :: behind).length + mods.length ≤ fuel →
        h.includeLoop fuel class_ at_ mods = some h') ∧
      LinkChain h'.next class_ (front ++ at_ :: (news ++ behind)) ∧
      h.Inserted h' news
        (lacking mods (h.modulesOf (front ++ at_ :: behind).tail)) := by
  induction mods generalizing h front at_ with
  | nil =>
      exact ⟨h, [], fun _ _ => rfl, links, Extends.refl h, by simp, rfl, rfl⟩
  | cons m mods ih =>
      rw [List.nodup_cons] at distinct
      obtain ⟨rest, whole⟩ := links.exists_eq_cons
      have tail : (front ++ at_ :: behind).tail = rest := by
        rw [whole, List.tail_cons]
      have seen : ∀ fuel,
          (front ++ at_ :: behind).length + (m :: mods).length ≤ fuel →
            h.present m fuel (h.next class_) =
              some (decide (m ∈ h.modulesOf rest)) := by
        intro fuel enough
        refine present_behind (whole ▸ links) m ?_
        rw [whole, List.length_cons, List.length_cons] at enough
        omega
      rw [tail]
      by_cases old : m ∈ h.modulesOf rest
      · have same : lacking (m :: mods) (h.modulesOf rest) =
            lacking mods (h.modulesOf rest) := by
          rw [lacking, List.filter_cons, if_neg (by simpa using old)]
          rfl
        obtain ⟨h', news, returns, others⟩ :=
          ih distinct.2 links inside
        rw [tail, ← same] at others
        refine ⟨h', news, ?_, others⟩
        intro fuel enough
        rw [includeLoop, seen fuel enough, decide_eq_true old]
        refine returns fuel ?_
        rw [List.length_cons] at enough
        omega
      · have here := inside at_ (by simp)
        have grows := h.extends_insertAbove at_ m here
        have count := h.length_insertAbove at_ m
        have linked := links_insertAbove m links inside
        have moved : front ++ at_ :: h.classes.length :: behind =
            (front ++ [at_]) ++ h.classes.length :: behind := by simp
        rw [moved] at linked
        have known : ∀ x ∈ (front ++ [at_]) ++ h.classes.length :: behind,
            x < (h.insertAbove at_ m).classes.length := by
          intro x member
          rw [count]
          rw [← moved, List.mem_append, List.mem_cons, List.mem_cons] at member
          rcases member with early | rfl | rfl | late
          · exact Nat.lt_succ_of_lt (inside x (by simp [early]))
          · exact Nat.lt_succ_of_lt here
          · exact Nat.lt_succ_self _
          · exact Nat.lt_succ_of_lt (inside x (by simp [late]))
        obtain ⟨h', news, returns, chain, inserted⟩ :=
          ih distinct.2 linked known
        have isNew : ((h.insertAbove at_ m).cls h.classes.length) =
            ⟨h.next at_, some m, none, none⟩ := by
          rw [h.cls_insertAbove at_ m _ here, if_pos rfl]
        have newKnown : h.classes.length <
            (h.insertAbove at_ m).classes.length := by
          rw [count]
          exact Nat.lt_succ_self _
        have isModule : (h'.cls h.classes.length).iclassOf = some m := by
          rw [inserted.grows.iclassOf _ newKnown, isNew]
        have isShown : h'.shown h.classes.length = some m := by
          rw [inserted.grows.shown newKnown, Heap.shown, isNew]
          rfl
        have missing : lacking (m :: mods) (h.modulesOf rest) =
            m :: lacking mods ((h.insertAbove at_ m).modulesOf
              ((front ++ [at_]) ++ h.classes.length :: behind).tail) := by
          rw [lacking, List.filter_cons, if_pos (by simpa using old)]
          congr 1
          apply List.filter_congr
          intro a member
          have other : a ≠ m := fun same => distinct.1 (same ▸ member)
          have restKnown : ∀ x ∈ rest, x < h.classes.length := by
            intro x memberRest
            exact inside x (whole ▸ List.mem_cons_of_mem _ memberRest)
          congr 1
          rw [← moved, eq_iff_iff, not_iff_not, ← grows.modulesOf restKnown,
            ← tail]
          simp only [modulesOf, List.mem_filterMap, mem_tail_insert]
          constructor
          · rintro ⟨x, memberRest, is⟩
            exact ⟨x, Or.inr memberRest, is⟩
          · rintro ⟨x, rfl | memberRest, is⟩
            · rw [isNew] at is
              exact absurd (Option.some.inj is).symm other
            · exact ⟨x, memberRest, is⟩
        refine ⟨h', h.classes.length :: news, ?_, ?_, ?_, ?_, ?_, ?_⟩
        · intro fuel enough
          rw [includeLoop, seen fuel enough, decide_eq_false old]
          refine returns fuel ?_
          simp only [List.length_append, List.length_cons,
            List.length_nil] at enough ⊢
          omega
        · rw [List.append_assoc] at chain
          exact chain
        · exact grows.trans inserted.grows
        · rw [List.forall_mem_cons]
          exact ⟨Nat.lt_of_lt_of_le newKnown inserted.grows.count,
            inserted.fresh⟩
        · rw [missing, modulesOf, List.filterMap_cons_some
            (f := fun x => (h'.cls x).iclassOf) isModule, ← inserted.modules]
          rfl
        · rw [missing, List.filterMap_cons_some isShown, inserted.shown]

/-! ## Including -/

/-- The modules of the ancestors of a class. -/
def included (h : Heap) (chain : List Nat) : List Nat :=
  h.modulesOf chain.tail

/-- Those in front of the place where modules are inserted: the prepended
ones. -/
def prepended (h : Heap) (class_ : Nat) (chain : List Nat) : List Nat :=
  h.modulesOf
    (chain.takeWhile (· ≠ h.defTarget class_) ++ [h.defTarget class_]).tail

/-- Those behind the place, of the class itself and of its superclasses. -/
def inherited (h : Heap) (class_ : Nat) (chain : List Nat) : List Nat :=
  h.modulesOf (chain.dropWhile (· ≠ h.defTarget class_)).tail

theorem Hierarchy.defTarget_mem
    (hierarchy : h.Hierarchy)
    (links : LinkChain h.next class_ chain) : h.defTarget class_ ∈ chain := by
  unfold defTarget
  cases has : (h.cls class_).origin with
  | none => exact links.mem_self
  | some o =>
      obtain ⟨front, behind, others⟩ := hierarchy.origin class_ o has
      rw [links.unique others]
      simp

theorem Hierarchy.chain_known
    (hierarchy : h.Hierarchy)
    (links : LinkChain h.next class_ chain)
    (known : class_ < h.classes.length) :
    ∀ x ∈ chain, x < h.classes.length := by
  induction links with
  | last x _ =>
      intro y member
      rw [List.mem_singleton.mp member]
      exact known
  | link x y chain linked _ ih =>
      rw [List.forall_mem_cons]
      exact ⟨known, ih (hierarchy.known x y linked)⟩

theorem dropWhile_ne
    {chain : List Nat}
    (member : a ∈ chain) :
    chain.dropWhile (· ≠ a) = a :: (chain.dropWhile (· ≠ a)).tail := by
  induction chain with
  | nil => cases member
  | cons x chain ih =>
      by_cases same : x = a
      · simp [same]
      · have later : a ∈ chain := by
          rcases List.mem_cons.mp member with first | later
          · exact absurd first.symm same
          · exact later
        simpa [same] using ih later

/-- A chain is split at the place where modules are inserted. -/
theorem split_chain
    {class_ : Nat}
    (member : h.defTarget class_ ∈ chain) :
    ∃ front behind, chain = front ++ h.defTarget class_ :: behind ∧
      h.prepended class_ chain =
        h.modulesOf (front ++ [h.defTarget class_]).tail ∧
      h.inherited class_ chain = h.modulesOf behind := by
  refine ⟨chain.takeWhile (· ≠ h.defTarget class_), _, ?_, rfl, rfl⟩
  rw [← dropWhile_ne member, List.takeWhile_append_dropWhile]

/-- Ranks for the classes of a heap without origins make it a hierarchy. -/
theorem hierarchy_of_ranks
    (h : Heap)
    (rank : Nat → Nat)
    (links : ∀ x < h.classes.length,
      (∀ s ∈ h.next x, rank s < rank x ∧ s < h.classes.length) ∧
        (∀ m ∈ (h.cls x).iclassOf, rank m < rank x) ∧
        (h.cls x).origin = none) : h.Hierarchy := by
  have outside : ∀ x, ¬x < h.classes.length →
      h.cls x = ⟨none, none, none, none⟩ := by
    intro x late
    rw [cls, List.getD_eq_getElem?_getD, List.getElem?_eq_none (by omega)]
    rfl
  have plain : ∀ x, (h.cls x).origin = none := by
    intro x
    by_cases early : x < h.classes.length
    · exact (links x early).2.2
    · rw [outside x early]
  have lower : ∀ x s, h.next x = some s →
      rank s < rank x ∧ s < h.classes.length := by
    intro x s linked
    by_cases early : x < h.classes.length
    · exact (links x early).1 s linked
    · rw [next, outside x early] at linked
      cases linked
  refine ⟨⟨rank, fun x => ⟨fun s linked => (lower x s linked).1, ?_⟩⟩,
    fun x s linked => (lower x s linked).2, ?_, fun x _ _ => plain x⟩
  · intro m is
    by_cases early : x < h.classes.length
    · exact (links x early).2.1 m is
    · rw [outside x early] at is
      cases is
  · intro x o has
    rw [plain x] at has
    cases has

/-- Modules 0 and 1, a module 2 that includes both, and a class 5 that includes
module 0 already. -/
def sharedMiddle : Heap :=
  ⟨[⟨none, none, none, none⟩, ⟨none, none, none, none⟩,
    ⟨some 3, none, none, none⟩, ⟨some 4, some 0, none, none⟩,
    ⟨none, some 1, none, none⟩, ⟨some 6, none, none, none⟩,
    ⟨none, some 0, none, none⟩]⟩

theorem hierarchy_sharedMiddle : sharedMiddle.Hierarchy :=
  sharedMiddle.hierarchy_of_ranks (fun x => [0, 0, 3, 2, 1, 2, 1].getD x 0)
    (by decide)

end Heap
end SabiRuby.Modules
