import Mathlib.Tactic.ByContra
import SabiRuby.Instances.Natives

/-!
# Frozen instances stay as they are

A native is run beside the same native on a state where the object is writable.
Up to the first refused write both do the same, and neither changes the object,
unless a write that is not guarded puts something else in it.
-/

namespace SabiRuby.Instances

open Library

variable (C : Classes)

namespace Vm

/-- The same state with one object writable. -/
def thaw (o : ObjId) (vm : Vm) : Vm :=
  vm.update o fun object => { object with frozen := false }

/-- The same state, or the one with the object writable. -/
def Twin (o : ObjId) (vm twin : Vm) : Prop :=
  twin = vm ∨ twin = vm.thaw o

end Vm

/-- The object is frozen and stores what it did. -/
structure Kept (o : ObjId) (vm after : Vm) : Prop where
  frozen : after.isFrozen o = true
  contents : after.contents o = vm.contents o

/-- What a command does from a state and from the one with the object
writable: it records a harmful write, or the object keeps what it stores and
either the write was refused or both runs go the same way. -/
def Agrees
    (o : ObjId)
    (vm : Vm) :
    EStateM.Result (Stop VmError) Vm α →
      EStateM.Result (Stop VmError) Vm α → Prop
  | .ok value after, other =>
      after.overwritten = true ∨
        (Kept o vm after ∧
          ∃ twin, other = .ok value twin ∧ after.Twin o twin)
  | .error stop after, other =>
      after.overwritten = true ∨
        (Kept o vm after ∧
          (stop = .raised (frozenError C (.obj o)) ∨
            ∃ twin, other = .error stop twin ∧ after.Twin o twin))

/-- A harmful write stays recorded. -/
def Sticky (command : Native α) : Prop :=
  ∀ vm : Vm, vm.overwritten = true →
    match command vm with
    | .ok _ after => after.overwritten = true
    | .error _ after => after.overwritten = true

/-- A command that treats a frozen object as such. -/
structure Guarded (o : ObjId) (command : Native α) : Prop where
  sticky : Sticky command
  agrees : ∀ vm : Vm, vm.isFrozen o = true → vm.overwritten = false →
    Agrees C o vm (command vm) (command (vm.thaw o))

section Thaw

variable (o : ObjId) (vm : Vm)

theorem thaw_heap (i : Nat) :
    (vm.thaw o).heap[i]? = vm.heap[i]?.map fun object =>
      if i = o.index then { object with frozen := false } else object := by
  unfold Vm.thaw Vm.update
  by_cases same : i = o.index
  · simp [same]
  · rw [List.getElem?_modify]
    cases vm.heap[i]? <;> simp [same, Ne.symm same]

/-- A value refers to the same object, up to the mark. -/
theorem thaw_object? (v : Value) :
    (vm.thaw o).object? v = vm.object? v ∨
      ∃ object, vm.object? v = some object ∧
        (vm.thaw o).object? v = some { object with frozen := false } := by
  cases v with
  | obj other =>
      simp only [Vm.object?, thaw_heap]
      cases vm.heap[other.index]? with
      | none => exact .inl rfl
      | some object =>
          simp only [Option.map_some]
          split
          · exact .inr ⟨object, rfl, rfl⟩
          · exact .inl rfl
  | _ => exact .inl rfl

@[simp]
theorem thaw_aryVals (v : Value) : (vm.thaw o).aryVals v = vm.aryVals v := by
  unfold Vm.aryVals
  rcases thaw_object? o vm v with same | ⟨object, before, after⟩
  · rw [same]
  · rw [before, after]
    rcases object with ⟨_, kind, _⟩
    cases kind <;> rfl

@[simp]
theorem thaw_values (v : Value) : (vm.thaw o).values v = vm.values v := by
  simp [Vm.values]

@[simp]
theorem thaw_isStruct (v : Value) :
    (vm.thaw o).isStruct v = vm.isStruct v := by
  simp [Vm.isStruct]

@[simp]
theorem thaw_hashEntries (v : Value) :
    (vm.thaw o).hashEntries v = vm.hashEntries v := by
  unfold Vm.hashEntries
  rcases thaw_object? o vm v with same | ⟨object, before, after⟩
  · rw [same]
  · rw [before, after]
    rcases object with ⟨_, kind, _⟩
    cases kind <;> rfl

@[simp]
theorem thaw_isHash (v : Value) : (vm.thaw o).isHash v = vm.isHash v := by
  unfold Vm.isHash
  rcases thaw_object? o vm v with same | ⟨object, before, after⟩
  · rw [same]
  · rw [before, after]
    rcases object with ⟨_, kind, _⟩
    cases kind <;> rfl

@[simp]
theorem thaw_strBytes (v : Value) :
    (vm.thaw o).strBytes v = vm.strBytes v := by
  unfold Vm.strBytes
  rcases thaw_object? o vm v with same | ⟨object, before, after⟩
  · rw [same]
  · rw [before, after]
    rcases object with ⟨_, kind, _⟩
    cases kind <;> rfl

@[simp]
theorem thaw_iv (v : Value) (name : Sym) :
    (vm.thaw o).iv v name = vm.iv v name := by
  unfold Vm.iv
  rcases thaw_object? o vm v with same | ⟨object, before, after⟩
  · rw [same]
  · rw [before, after]
    rfl

@[simp]
theorem thaw_classOf (v : Value) :
    (vm.thaw o).classOf C v = vm.classOf C v := by
  unfold Vm.classOf
  rcases thaw_object? o vm v with same | ⟨object, before, after⟩
  · rw [same]
  · rw [before, after]

@[simp]
theorem thaw_realClassOf (v : Value) :
    (vm.thaw o).realClassOf C v = vm.realClassOf C v := by
  simp [Vm.realClassOf]

/-- Another object is as frozen as before. -/
theorem thaw_isFrozen_of_ne
    (other : ObjId)
    (different : other ≠ o) :
    (vm.thaw o).isFrozen other = vm.isFrozen other := by
  have index : other.index ≠ o.index := by
    intro same
    exact different (by cases other; cases o; simp_all)
  simp only [Vm.isFrozen, thaw_heap, index, if_false, Option.map_id']

end Thaw

section Updates

variable (o other : ObjId) (vm : Vm) (change : HeapObject → HeapObject)

/-- A write elsewhere and the thaw do not meet. -/
theorem thaw_update_of_ne (different : other ≠ o) :
    (vm.thaw o).update other change = (vm.update other change).thaw o := by
  have index : o.index ≠ other.index := by
    intro same
    exact different (by cases other; cases o; simp_all)
  unfold Vm.thaw Vm.update
  rw [List.modify_modify_ne _ _ _ index]

/-- A write that neither reads nor writes the mark commutes with the thaw. -/
theorem thaw_update
    (blind : ∀ object, change { object with frozen := false } =
      { change object with frozen := false }) :
    (vm.thaw o).update o change = (vm.update o change).thaw o := by
  unfold Vm.thaw Vm.update
  simp only [List.modify_modify_eq]
  congr 2
  funext object
  exact blind object

theorem update_heap_of_ne (different : other ≠ o) :
    (vm.update other change).heap[o.index]? = vm.heap[o.index]? := by
  have index : other.index ≠ o.index := by
    intro same
    exact different (by cases other; cases o; simp_all)
  exact List.getElem?_modify_ne change vm.heap index

/-- A write elsewhere keeps the object. -/
theorem Kept.update_of_ne
    (different : other ≠ o)
    (frozen : vm.isFrozen o = true) :
    Kept o vm (vm.update other change) := by
  have same := update_heap_of_ne o other vm change different
  constructor
  · unfold Vm.isFrozen
    rw [same]
    exact frozen
  · unfold Vm.contents
    rw [same]

theorem Kept.refl (frozen : vm.isFrozen o = true) : Kept o vm vm :=
  ⟨frozen, rfl⟩

variable {o vm}

theorem Kept.trans
    (first : Kept o vm middle)
    (second : Kept o middle after) :
    Kept o vm after :=
  ⟨second.frozen, second.contents.trans first.contents⟩

end Updates

section Commands

variable {C}
variable {o : ObjId}

variable {result other : EStateM.Result (Stop VmError) Vm α}

theorem Agrees.trans
    (kept : Kept o vm middle)
    (agrees : Agrees C o middle result other) :
    Agrees C o vm result other := by
  cases result with
  | ok value after =>
      rcases agrees with harm | ⟨later, twins⟩
      · exact .inl harm
      · exact .inr ⟨kept.trans later, twins⟩
  | error stop after =>
      rcases agrees with harm | ⟨later, twins⟩
      · exact .inl harm
      · exact .inr ⟨kept.trans later, twins⟩

/-- From the same state both runs are the same run. -/
theorem Agrees.self
    (agrees : Agrees C o vm result other) :
    Agrees C o vm result result := by
  cases result with
  | ok value after =>
      rcases agrees with harm | ⟨kept, _⟩
      · exact .inl harm
      · exact .inr ⟨kept, after, rfl, .inl rfl⟩
  | error stop after =>
      rcases agrees with harm | ⟨kept, _⟩
      · exact .inl harm
      · exact .inr ⟨kept, .inr ⟨after, rfl, .inl rfl⟩⟩

theorem Guarded.pure (value : α) : Guarded C o (Pure.pure value) where
  sticky _ harm := harm
  agrees vm frozen _ := .inr ⟨.refl o vm frozen, _, rfl, .inr rfl⟩

theorem Guarded.throw (stop : Stop VmError) :
    Guarded C o (MonadExcept.throw stop : Native α) where
  sticky _ harm := harm
  agrees vm frozen _ := .inr ⟨.refl o vm frozen, .inr ⟨_, rfl, .inr rfl⟩⟩

theorem Guarded.raise (error : VmError) :
    Guarded C o (Exec.raise error : Native α) :=
  Guarded.throw _

theorem Guarded.orPanic (access : Option α) :
    Guarded C o (Exec.orPanic access : Native α) := by
  cases access with
  | none => exact Guarded.throw _
  | some value => exact Guarded.pure value

protected theorem Guarded.read
    (look : Vm → α)
    (blind : ∀ vm : Vm, look (vm.thaw o) = look vm) :
    Guarded C o (read look) where
  sticky _ harm := harm
  agrees vm frozen _ := by
    refine .inr ⟨.refl o vm frozen, _, ?_, .inr rfl⟩
    unfold read
    rw [blind]

protected theorem Guarded.check
    (look : Vm → Except VmError α)
    (blind : ∀ vm : Vm, look (vm.thaw o) = look vm) :
    Guarded C o (check look) where
  sticky vm harm := by
    unfold check
    cases look vm <;> exact harm
  agrees vm frozen _ := by
    unfold check
    rw [blind]
    cases look vm with
    | ok value => exact .inr ⟨.refl o vm frozen, _, rfl, .inr rfl⟩
    | error error =>
        exact .inr ⟨.refl o vm frozen, .inr ⟨_, rfl, .inr rfl⟩⟩

theorem Guarded.bind
    (first : Guarded C o command)
    (rest : ∀ value, Guarded C o (next value)) :
    Guarded C o (command >>= next) where
  sticky vm harm := by
    have kept := first.sticky vm harm
    simp only [Bind.bind, EStateM.bind]
    cases ran : command vm with
    | ok value after =>
        rw [ran] at kept
        exact (rest value).sticky after kept
    | error stop after =>
        rw [ran] at kept
        exact kept
  agrees vm frozen clean := by
    have agreed := first.agrees vm frozen clean
    simp only [Bind.bind, EStateM.bind]
    cases ran : command vm with
    | error stop after =>
        rw [ran] at agreed
        rcases agreed with harm | ⟨kept, refused | ⟨twin, other, twins⟩⟩
        · exact .inl harm
        · exact .inr ⟨kept, .inl refused⟩
        · rw [other]
          exact .inr ⟨kept, .inr ⟨twin, rfl, twins⟩⟩
    | ok value after =>
        rw [ran] at agreed
        have spoiled : after.overwritten = true →
            ∀ other, Agrees C o vm (next value after) other := by
          intro harm other
          have kept := (rest value).sticky after harm
          cases result : next value after with
          | ok _ last =>
              rw [result] at kept
              exact .inl kept
          | error _ last =>
              rw [result] at kept
              exact .inl kept
        dsimp only
        rcases agreed with harm | ⟨kept, twin, other, twins⟩
        · exact spoiled harm _
        · cases harm : after.overwritten with
          | true => exact spoiled harm _
          | false =>
              have later := (rest value).agrees after kept.frozen harm
              rw [other]
              rcases twins with rfl | rfl
              · exact later.self.trans kept
              · exact later.trans kept

theorem Guarded.ite
    {condition : Prop}
    [Decidable condition]
    (whenTrue : Guarded C o yes)
    (whenFalse : Guarded C o no) :
    Guarded C o (if condition then yes else no) := by
  split
  · exact whenTrue
  · exact whenFalse

protected theorem Guarded.writeGuarded
    (s : Value)
    (change : HeapObject → HeapObject) :
    Guarded C o (writeGuarded C s change) where
  sticky vm harm := by
    unfold writeGuarded
    cases s with
    | obj other =>
        by_cases frozen : vm.isFrozen other = true
        · simpa [frozen] using harm
        · simpa [frozen, Vm.update] using harm
    | _ => exact harm
  agrees vm frozen clean := by
    unfold writeGuarded
    cases s with
    | obj other =>
        dsimp only
        by_cases same : other = o
        · subst same
          rw [if_pos frozen]
          exact .inr ⟨.refl _ vm frozen, .inl rfl⟩
        · rw [thaw_isFrozen_of_ne o vm other same]
          split
          · exact .inr ⟨.refl o vm frozen, .inr ⟨_, rfl, .inr rfl⟩⟩
          · refine .inr ⟨.update_of_ne o other vm change same frozen, _, rfl,
              .inr ?_⟩
            exact thaw_update_of_ne o other vm change same
    | _ => exact .inr ⟨.refl o vm frozen, _, rfl, .inr rfl⟩

protected theorem Guarded.allocObject (object : HeapObject) :
    Guarded C o (allocObject object) where
  sticky _ harm := harm
  agrees vm frozen _ := by
    have inside : o.index < vm.heap.length := by
      by_contra beyond
      unfold Vm.isFrozen at frozen
      rw [List.getElem?_eq_none (Nat.le_of_not_lt beyond)] at frozen
      exact absurd frozen (by simp)
    have same : (vm.heap ++ [object])[o.index]? = vm.heap[o.index]? :=
      List.getElem?_append_left inside
    refine .inr ⟨⟨?_, ?_⟩, _, ?_, .inr rfl⟩
    · unfold Vm.isFrozen
      dsimp only
      rw [same]
      exact frozen
    · unfold Vm.contents
      dsimp only
      rw [same]
    · unfold allocObject Vm.thaw Vm.update
      simp only [List.length_modify, EStateM.Result.ok.injEq, Vm.mk.injEq,
        and_true, true_and]
      apply List.ext_getElem?
      intro i
      simp only [List.getElem?_append, List.getElem?_modify,
        List.length_modify]
      split
      · rfl
      · rename_i beyond
        have apart : o.index ≠ i := by omega
        simp [apart]

/-- Freezing the frozen object again changes nothing. -/
protected theorem Guarded.freeze (s : Value) :
    Guarded C o (freeze s) where
  sticky vm harm := by
    unfold freeze
    cases s <;> exact harm
  agrees vm frozen _ := by
    unfold freeze
    cases s with
    | obj other =>
        by_cases same : other = o
        · subst same
          refine .inr ⟨⟨?_, ?_⟩, _, rfl, .inl ?_⟩
          · unfold Vm.isFrozen at frozen
            simp only [Vm.isFrozen, Vm.update, List.getElem?_modify_eq]
            cases found : vm.heap[other.index]? with
            | none => simp [found] at frozen
            | some object => rfl
          · simp only [Vm.contents, Vm.update, List.getElem?_modify_eq]
            cases vm.heap[other.index]? <;> rfl
          · unfold Vm.thaw Vm.update
            dsimp only
            rw [List.modify_modify_eq]
            rfl
        · refine .inr ⟨.update_of_ne o other vm _ same frozen, _, rfl,
            .inr ?_⟩
          exact thaw_update_of_ne o other vm _ same
    | _ => exact .inr ⟨.refl o vm frozen, _, rfl, .inr rfl⟩

/-- A write that is not guarded is harmless when it puts in the object what it
has there. -/
protected theorem Guarded.writeUnguarded
    (s : Value)
    (differs : HeapObject → Bool)
    (change : HeapObject → HeapObject)
    (calm : ∀ object, differs object = false →
      (change object).kind = object.kind ∧
        (change object).ivars = object.ivars)
    (mark : ∀ object, (change object).frozen = object.frozen)
    (blind : ∀ object, change { object with frozen := false } =
      { change object with frozen := false }) :
    Guarded C o (writeUnguarded s differs change) where
  sticky vm harm := by
    unfold writeUnguarded
    cases s with
    | obj other => simp [harm]
    | _ => exact harm
  agrees vm frozen clean := by
    unfold writeUnguarded
    cases s with
    | obj other =>
        by_cases same : other = o
        · subst same
          have entry : ∃ object, vm.heap[other.index]? = some object ∧
              object.frozen = true := by
            unfold Vm.isFrozen at frozen
            cases found : vm.heap[other.index]? with
            | none => simp [found] at frozen
            | some object => exact ⟨object, rfl, by simpa [found] using frozen⟩
          obtain ⟨object, found, marked⟩ := entry
          cases harm : differs object with
          | true =>
              left
              simp [Vm.object?, found, marked, harm]
          | false =>
              obtain ⟨sameKind, sameIvars⟩ := calm object harm
              refine .inr ⟨⟨?_, ?_⟩, _, rfl, .inr ?_⟩
              · simp [Vm.isFrozen, Vm.update, found, mark, marked]
              · simp [Vm.contents, Vm.update, found, sameKind, sameIvars]
              · have thawed : (vm.thaw other).object? (.obj other) =
                    some { object with frozen := false } := by
                  simp [Vm.object?, thaw_heap, found]
                rw [thaw_update other vm change blind, thawed]
                simp [Vm.object?, found, marked, harm, clean, Vm.thaw,
                  Vm.update]
        · have sameObject : (vm.thaw o).object? (.obj other) =
              vm.object? (.obj other) := by
            have index : other.index ≠ o.index := by
              intro equal
              exact same (by cases other; cases o; simp_all)
            simp [Vm.object?, thaw_heap, index]
          refine .inr ⟨?_, _, rfl, .inr ?_⟩
          · have kept := Kept.update_of_ne o other vm change same frozen
            exact ⟨kept.frozen, kept.contents⟩
          · rw [thaw_update_of_ne o other vm change same, sameObject]
            rfl
    | _ => exact .inr ⟨.refl o vm frozen, _, rfl, .inr rfl⟩

end Commands

section Blind

variable (o : ObjId) (vm : Vm)

@[simp]
theorem thaw_sMembers (top : ObjId) (what : String) (cs : List ObjId) :
    sMembers C (vm.thaw o) top what cs = sMembers C vm top what cs := by
  induction cs with
  | nil => rfl
  | cons c cs ih =>
      unfold sMembers
      rw [ih]
      simp only [thaw_aryVals]

@[simp]
theorem thaw_structMembers (s : Value) :
    structMembers C (vm.thaw o) s = structMembers C vm s := by
  simp [structMembers]

@[simp]
theorem thaw_memberIndex (mid : Sym) (setter : Bool) (s : Value) :
    memberIndex C mid setter s (vm.thaw o) = memberIndex C mid setter s vm := by
  simp [memberIndex]

@[simp]
theorem thaw_keySym (idx : Value) :
    keySym C idx (vm.thaw o) = keySym C idx vm := by
  cases idx <;> simp [keySym]

@[simp]
theorem thaw_position (s idx : Value) :
    position C s idx (vm.thaw o) = position C s idx vm := by
  simp [position, memberPosition, indexPosition]

@[simp]
theorem thaw_classMembers (c : ObjId) :
    classMembers C (vm.thaw o) c = classMembers C vm c := by
  simp [classMembers]

@[simp]
theorem thaw_dataMembers (s : Value) :
    dataMembers C (vm.thaw o) s = dataMembers C vm s := by
  simp [dataMembers]

@[simp]
theorem thaw_symArg (v : Value) :
    symArg C v (vm.thaw o) = symArg C v vm := by
  cases v <;> simp [symArg]

@[simp]
theorem thaw_methodParts (method : Value) :
    methodParts C method (vm.thaw o) = methodParts C method vm := by
  simp [methodParts]

@[simp]
theorem thaw_bindCheck (recv : Value) (owner : ObjId) :
    bindCheck C recv owner (vm.thaw o) = bindCheck C recv owner vm := by
  simp [bindCheck]

@[simp]
theorem thaw_receiverFor (parts : MethodParts) (recv : Option Value) :
    receiverFor C parts recv (vm.thaw o) = receiverFor C parts recv vm := by
  cases recv <;> simp [receiverFor]

@[simp]
theorem thaw_initializeKeywords
    (kw : Value)
    (args : List Value)
    (mems : List Sym) :
    initializeKeywords kw args mems (vm.thaw o) =
      initializeKeywords kw args mems vm := by
  simp [initializeKeywords]

@[simp]
theorem thaw_newValues (kw : Value) (args : List Value) (mems : List Sym) :
    newValues C kw args mems (vm.thaw o) = newValues C kw args mems vm := by
  simp [newValues]

@[simp]
theorem thaw_copyOf (s : Value) :
    copyOf C s (vm.thaw o) = copyOf C s vm := by
  unfold copyOf
  rcases thaw_object? o vm s with same | ⟨object, before, after⟩
  · simp [same]
  · simp only [before, after, thaw_realClassOf]
    rfl

end Blind

section Steps

variable {C}
variable {o : ObjId}

protected theorem Guarded.argnumError (given : Nat) (expected : String) :
    Guarded C o (argnumError given expected : Native α) :=
  Guarded.raise _

/-- A check that may stop before the rest. -/
theorem Guarded.unless
    {condition : Prop}
    [Decidable condition]
    (stops : Guarded C o command)
    (rest : ∀ value, Guarded C o (next value)) :
    Guarded C o (if condition then command >>= next else next ()) :=
  .ite (.bind stops rest) (rest ())

protected theorem Guarded.arySet (s : Value) (i : Nat) (v : Value) :
    Guarded C o (arySet C s i v) :=
  Guarded.writeGuarded _ _

protected theorem Guarded.aryReplace (dst src : Value) :
    Guarded C o (aryReplace C dst src) := by
  unfold aryReplace
  apply Guarded.bind
  · exact .read _ fun vm => by simp
  · exact fun vals => .writeGuarded _ _

protected theorem Guarded.ivSet (recv : Value) (name : Sym) (v : Value) :
    Guarded C o (ivSet C recv name v) := by
  unfold ivSet
  apply Guarded.bind
  · apply Guarded.read
    intro vm
    rcases thaw_object? o vm recv with same | ⟨object, before, after⟩
    · rw [same]
    · rw [before, after]
      rfl
  · intro able
    exact .ite (.writeGuarded _ _) (.raise _)

theorem putItems_calm
    (vals : List Value)
    (object : HeapObject)
    (same : storesOther vals object = false) :
    (putItems vals object).kind = object.kind ∧
      (putItems vals object).ivars = object.ivars := by
  rcases object with ⟨cls, kind, ivars, frozen, noIvars, ttStruct⟩
  cases kind with
  | array items =>
      have equal : items = vals := by simpa [storesOther] using same
      simp [putItems, equal]
  | _ => exact ⟨rfl, rfl⟩

theorem putItems_frozen (vals : List Value) (object : HeapObject) :
    (putItems vals object).frozen = object.frozen := by
  rcases object with ⟨cls, kind, ivars, frozen, noIvars, ttStruct⟩
  cases kind <;> rfl

theorem putItems_blind (vals : List Value) (object : HeapObject) :
    putItems vals { object with frozen := false } =
      { putItems vals object with frozen := false } := by
  rcases object with ⟨cls, kind, ivars, frozen, noIvars, ttStruct⟩
  cases kind <;> rfl

protected theorem Guarded.dataStore (data : Value) (vals : List Value) :
    Guarded C o (dataStore data vals) := by
  unfold dataStore
  apply Guarded.bind
  · apply Guarded.writeUnguarded
    · exact putItems_calm vals
    · exact putItems_frozen vals
    · exact putItems_blind vals
  · exact fun _ => .freeze data

/-- A variable set to the value it has is as it was. -/
theorem setVar_same
    (name : Sym)
    (v : Value)
    (vars : List (Sym × Value))
    (present : (vars.find? fun entry => entry.1 == name).map Prod.snd =
      some v) :
    HeapObject.setVar name v vars = vars := by
  induction vars with
  | nil => simp at present
  | cons entry vars ih =>
      unfold HeapObject.setVar
      by_cases here : entry.1 == name
      · rw [if_pos here]
        simp only [List.find?_cons, here, Option.map_some,
          Option.some.injEq] at present
        have named : entry.1 = name := by simpa using here
        rw [← named, ← present]
      · rw [if_neg here]
        simp only [List.find?_cons, here] at present
        rw [ih present]

theorem Guarded.writeVariable (recv : Value) (name : Sym) (v : Value) :
    Guarded C o (Instances.writeUnguarded recv (variableDiffers name v)
      (·.ivarSet name v)) := by
  apply Guarded.writeUnguarded
  · intro object same
    have present : object.ivar? name = some v := by
      simpa [variableDiffers] using same
    exact ⟨rfl, setVar_same name v object.ivars present⟩
  · exact fun _ => rfl
  · exact fun _ => rfl

end Steps

section Natives

variable {C}
variable {o : ObjId}

protected theorem Guarded.structRef (mid : Sym) (s : Value) (args : List Value) :
    Guarded C o (structRef C mid s args) := by
  unfold structRef
  refine .unless (.argnumError _ _) fun _ => ?_
  refine .bind (.check _ fun vm => by simp) fun i => ?_
  exact .read _ fun vm => by simp

protected theorem Guarded.structSet (mid : Sym) (s : Value) (args : List Value) :
    Guarded C o (structSet C mid s args) := by
  unfold structSet
  split
  · refine .bind (.check _ fun vm => by simp) fun i => ?_
    exact .bind (.arySet s i _) fun _ => .pure _
  · exact .argnumError _ _

protected theorem Guarded.fillMembers (s : Value) (i : Nat) (vals : List Value) :
    Guarded C o (fillMembers C s i vals) := by
  induction vals generalizing i with
  | nil => exact .pure _
  | cons v vals ih => exact .bind (.arySet s i v) fun _ => ih (i + 1)

protected theorem Guarded.initWithArgs (s : Value) (argv : List Value) :
    Guarded C o (initWithArgs C s argv) := by
  unfold initWithArgs
  refine .bind (.check _ fun vm => by simp) fun m => ?_
  refine .unless (.raise _) fun _ => ?_
  refine .bind (.fillMembers s 0 argv) fun _ => ?_
  exact .bind (.fillMembers s _ _) fun _ => .pure _

protected theorem Guarded.fillFromHash (s hash : Value) (i : Nat) (m : List Sym) :
    Guarded C o (fillFromHash C s hash i m) := by
  induction m generalizing i with
  | nil => exact .pure _
  | cons mem m ih =>
      unfold fillFromHash
      refine .bind (.read _ fun vm => by simp) fun v => ?_
      exact .bind (.arySet s i v) fun _ => ih (i + 1)

protected theorem Guarded.initWithKeywords (s hash : Value) :
    Guarded C o (initWithKeywords C s hash) := by
  unfold initWithKeywords
  refine .bind (.check _ fun vm => by simp) fun m => ?_
  refine .bind (.fillFromHash s hash 0 m) fun _ => ?_
  refine .bind (.read _ fun vm => by simp) fun invalid => ?_
  exact .unless (.raise _) fun _ => .pure _

protected theorem Guarded.initBody (kw s : Value) (args : List Value) :
    Guarded C o (initBody C kw s args) := by
  unfold initBody
  refine .bind (.read _ fun vm => by simp) fun kwGiven => ?_
  refine .bind (.read _ fun vm => by simp) fun ki => ?_
  refine .bind (.read _ fun vm => by simp) fun firstIsHash => ?_
  apply Guarded.ite
  · apply Guarded.ite
    · exact .argnumError _ _
    · split
      · exact .initWithKeywords s _
      · exact .bind (.allocObject _) fun hash => .initWithKeywords s hash
  · split
    · exact .ite (.initWithKeywords s _) (.initWithArgs s _)
    · exact .initWithArgs s args

protected theorem Guarded.copySource (what : String) (s src : Value) :
    Guarded C o (copySource C what s src) := by
  unfold copySource
  refine .bind (.read _ fun vm => by simp) fun same => ?_
  refine .unless (.raise _) fun _ => ?_
  refine .bind (.read _ fun vm => by simp) fun stored => ?_
  exact .ite (.raise _) (.pure _)

protected theorem Guarded.structInitCopy (s : Value) (args : List Value) :
    Guarded C o (structInitCopy C s args) := by
  unfold structInitCopy
  refine .bind (.orPanic _) fun src => ?_
  refine .ite (.pure _) ?_
  refine .bind (.copySource _ s src) fun _ => ?_
  exact .bind (.aryReplace s src) fun _ => .pure _

protected theorem Guarded.structAref (s : Value) (args : List Value) :
    Guarded C o (structAref C s args) := by
  unfold structAref
  refine .bind (.orPanic _) fun idx => ?_
  refine .bind (.check _ fun vm => by simp) fun i => ?_
  exact .read _ fun vm => by simp

protected theorem Guarded.structAset (s : Value) (args : List Value) :
    Guarded C o (structAset C s args) := by
  unfold structAset
  refine .bind (.orPanic _) fun idx => ?_
  refine .bind (.orPanic _) fun v => ?_
  refine .bind (.check _ fun vm => by simp) fun i => ?_
  exact .bind (.arySet s i v) fun _ => .pure _

protected theorem Guarded.structValues (s : Value) :
    Guarded C o (structValues C s) := by
  unfold structValues
  exact .bind (.read _ fun vm => by simp) fun v => .allocObject _

protected theorem Guarded.dataInitialize (kw s : Value) (args : List Value) :
    Guarded C o (dataInitialize C kw s args) := by
  unfold dataInitialize
  refine .bind (.check _ fun vm => by simp) fun mems => ?_
  refine .bind (.check _ fun vm => by simp) fun vals => ?_
  refine .unless (.argnumError _ _) fun _ => ?_
  exact .bind (.dataStore s _) fun _ => .pure _

protected theorem Guarded.dataInitCopy (s : Value) (args : List Value) :
    Guarded C o (dataInitCopy C s args) := by
  unfold dataInitCopy
  split
  · refine .ite (.pure _) ?_
    refine .bind (.copySource _ s _) fun _ => ?_
    refine .bind (.aryReplace s _) fun _ => ?_
    exact .bind (.freeze s) fun _ => .pure _
  · exact .argnumError _ _

protected theorem Guarded.dataWith (kw s : Value) (args : List Value) :
    Guarded C o (dataWith C kw s args) := by
  unfold dataWith
  refine .bind (.read _ fun vm => by simp) fun c => ?_
  refine .bind (.check _ fun vm => by simp) fun mems => ?_
  refine .unless (.argnumError _ _) fun _ => ?_
  split
  · exact .pure _
  · refine .bind (.check _ fun vm => by simp) fun given => ?_
    refine .bind (.read _ fun vm => by simp) fun cur => ?_
    refine .bind (.allocObject _) fun data => ?_
    exact .bind (.dataStore data _) fun _ => .pure _

protected theorem Guarded.checkAspec
    (least : Nat)
    (most : Option Nat)
    (args : List Value) :
    Guarded C o (checkAspec least most args) := by
  unfold checkAspec
  exact .ite (.argnumError _ _) (.pure _)

/-- The natives a native calls are guarded. -/
def GuardedCall (C : Classes) (o : ObjId) (call : Call) : Prop :=
  ∀ f mid kw s args, Guarded C o (call f mid kw s args)

variable {call : Call}

section

variable (calls : GuardedCall C o call)
include calls

protected theorem Guarded.funcall
    (kw recv : Value)
    (mid : Sym)
    (args : List Value) :
    Guarded C o (funcall C call kw recv mid args) := by
  unfold funcall
  refine .bind (.read _ fun vm => by simp) fun found => ?_
  split
  · exact .bind (.checkAspec _ _ args) fun _ => calls _ _ _ _ _
  · exact .read _ fun vm => by simp
  · exact .bind (.ivSet recv _ _) fun _ => .pure _
  · exact .raise _
  · exact .raise _

protected theorem Guarded.opSend
    (kw recv : Value)
    (mid : Sym)
    (args : List Value) :
    Guarded C o (opSend C call kw recv mid args) := by
  unfold opSend
  refine .bind (.read _ fun vm => by simp) fun found => ?_
  split
  · exact .bind (.checkAspec _ _ args) fun _ => calls _ _ _ _ _
  · exact .ite (.argnumError _ _) (.read _ fun vm => by simp)
  · split
    · exact .bind (.ivSet recv _ _) fun _ => .pure _
    · exact .argnumError _ _
  · exact .raise _
  · exact .raise _

protected theorem Guarded.structNew
    (kw s : Value)
    (args : List Value) :
    Guarded C o (structNew C call kw s args) := by
  unfold structNew
  refine .bind (.orPanic _) fun klass => ?_
  refine .bind (.allocObject _) fun object => ?_
  refine .ite (.initBody kw object args) ?_
  split
  · refine .bind (.allocObject _) fun pos => ?_
    exact .bind (.funcall calls kw object _ _) fun _ => .pure _
  · exact .bind (.funcall calls kw object _ _) fun _ => .pure _

protected theorem Guarded.dataNew
    (kw s : Value)
    (args : List Value) :
    Guarded C o (dataNew C call kw s args) := by
  unfold dataNew
  refine .bind (.orPanic _) fun c => ?_
  refine .bind (.check _ fun vm => by simp) fun mems => ?_
  refine .bind (.allocObject _) fun data => ?_
  apply Guarded.ite
  · refine .bind (.check _ fun vm => by simp) fun vals => ?_
    exact .bind (.dataStore data vals) fun _ => .pure _
  · refine .ite (.raise _) ?_
    refine .bind (.read _ fun vm => by simp) fun entries => ?_
    refine .bind (.allocObject _) fun h => ?_
    exact .bind (.funcall calls kw data _ _) fun _ => .pure _

protected theorem Guarded.kernelSend
    (kw s : Value)
    (args : List Value) :
    Guarded C o (kernelSend C call kw s args) := by
  unfold kernelSend
  split
  · exact .argnumError _ _
  · refine .bind (.check _ fun vm => by simp) fun m => ?_
    exact .funcall calls kw s m _

end

protected theorem Guarded.kernelInitCopy (s : Value) (args : List Value) :
    Guarded C o (kernelInitCopy C s args) := by
  unfold kernelInitCopy
  split
  · refine .ite (.pure _) ?_
    refine .bind (.read _ fun vm => by simp) fun same => ?_
    exact .unless (.raise _) fun _ => .pure _
  · exact .argnumError _ _

protected theorem Guarded.kernelDup
    (calls : GuardedCall C o call)
    (kw s : Value) :
    Guarded C o (kernelDup C call kw s) := by
  unfold kernelDup
  split
  · refine .bind (.read _ fun vm => by simp) fun copy => ?_
    split
    · exact .raise _
    · refine .bind (.allocObject _) fun n => ?_
      exact .bind (.funcall calls kw n _ _) fun _ => .pure _
  · exact .pure _

protected theorem Guarded.methodAlloc
    (c : ObjId)
    (object : Value)
    (name : Sym)
    (unbound : Bool) :
    Guarded C o (methodAlloc C c object name unbound) := by
  unfold methodAlloc
  dsimp only
  split
  · exact .allocObject _
  · exact .ite (.allocObject _) (.raise _)

protected theorem Guarded.kernelMethod (s : Value) (args : List Value) :
    Guarded C o (kernelMethod C s args) := by
  unfold kernelMethod
  split
  · refine .bind (.check _ fun vm => by simp) fun n => ?_
    refine .bind (.read _ fun vm => by simp) fun c => ?_
    exact .methodAlloc c s n false
  · exact .argnumError _ _

protected theorem Guarded.moduleInstanceMethod (s : Value) (args : List Value) :
    Guarded C o (moduleInstanceMethod C s args) := by
  unfold moduleInstanceMethod
  split
  · refine .bind (.check _ fun vm => by simp) fun n => ?_
    split
    · exact .methodAlloc _ _ n true
    · exact .orPanic _
  · exact .argnumError _ _

section

variable (calls : GuardedCall C o call)
include calls

protected theorem Guarded.runMethod
    (mid : Sym)
    (kw : Value)
    (parts : MethodParts)
    (recv : Value)
    (args : List Value) :
    Guarded C o (runMethod C call mid kw parts recv args) := by
  unfold runMethod
  apply Guarded.ite
  · exact .funcall calls kw recv _ _
  · split
    · exact .raise _
    · split
      · exact .bind (.checkAspec _ _ args) fun _ => calls _ _ _ _ _
      · exact .read _ fun vm => by simp
      · split
        · exact .bind (.writeVariable recv _ _) fun _ => .pure _
        · exact .argnumError _ _
      · exact .raise _
      · exact .funcall calls kw recv _ _

protected theorem Guarded.mcall
    (mid : Sym)
    (kw method : Value)
    (recv : Option Value)
    (args : List Value) :
    Guarded C o (mcall C call mid kw method recv args) := by
  unfold mcall
  refine .bind (.check _ fun vm => by simp) fun parts => ?_
  refine .bind (.check _ fun vm => by simp) fun recv => ?_
  exact .runMethod calls mid kw parts recv args

protected theorem Guarded.unboundBindCall
    (mid : Sym)
    (kw s : Value)
    (args : List Value) :
    Guarded C o (unboundBindCall C call mid kw s args) := by
  unfold unboundBindCall
  split
  · exact .argnumError _ _
  · exact .mcall calls mid kw s _ _

end

protected theorem Guarded.unboundBind (s : Value) (args : List Value) :
    Guarded C o (unboundBind C s args) := by
  unfold unboundBind
  split
  · refine .bind (.check _ fun vm => by simp) fun parts => ?_
    refine .bind (.check _ fun vm => by simp) fun _ => ?_
    exact .allocObject _
  · exact .argnumError _ _

protected theorem Guarded.methodUnbind (s : Value) :
    Guarded C o (methodUnbind C s) := by
  unfold methodUnbind
  exact .bind (.check _ fun vm => by simp) fun parts => .allocObject _

/-- Each native is guarded, when the natives it calls are. -/
theorem GuardedCall.native
    (calls : GuardedCall C o call) :
    GuardedCall C o (Instances.native C call) := by
  intro f mid kw s args
  cases f with
  | structRef => exact .structRef mid s args
  | structSet => exact .structSet mid s args
  | structAref => exact .structAref s args
  | structAset => exact .structAset s args
  | structInitialize => exact .initBody kw s args
  | structInitCopy => exact .structInitCopy s args
  | structValues => exact .structValues s
  | structNew => exact .structNew calls kw s args
  | dataInitialize => exact .dataInitialize kw s args
  | dataInitCopy => exact .dataInitCopy s args
  | dataWith => exact .dataWith kw s args
  | dataNew => exact .dataNew calls kw s args
  | kernelInitCopy => exact .kernelInitCopy s args
  | kernelDup => exact .kernelDup calls kw s
  | kernelSend => exact .kernelSend calls kw s args
  | kernelMethod => exact .kernelMethod s args
  | moduleInstanceMethod => exact .moduleInstanceMethod s args
  | methodCall => exact .mcall calls mid kw s none args
  | methodUnbind => exact .methodUnbind s
  | unboundBind => exact .unboundBind s args
  | unboundBindCall => exact .unboundBindCall calls mid kw s args

theorem GuardedCall.runNative (fuel : Nat) :
    GuardedCall C o (Instances.runNative C fuel) := by
  induction fuel with
  | zero => exact fun _ _ _ _ _ => .throw _
  | succ fuel ih => exact GuardedCall.native ih

/-- One call of a program, however deep the natives call each other. -/
protected theorem Guarded.send
    (fuel : Nat)
    (recv : Value)
    (mid : Sym)
    (args : List Value)
    (kw : Value) :
    Guarded C o (send C fuel recv mid args kw) :=
  .opSend (.runNative fuel) kw recv mid args

end Natives

/-- The state a computation stopped in. -/
def stateAfter : EStateM.Result (Stop VmError) Vm α → Vm
  | .ok _ after => after
  | .error _ after => after

/-- The states a program reaches by calls, each of which may return, raise or
stop in code outside the model. -/
inductive Run (start : Vm) : Vm → Prop
  | start : Run start start
  | send (vm : Vm) (fuel : Nat) (recv : Value) (mid : Sym)
      (args : List Value) (kw : Value) :
      Run start vm →
        Run start (stateAfter (Instances.send C fuel recv mid args kw vm))

section Runs

variable {C}

variable {o : ObjId}

theorem Agrees.kept
    (agrees : Agrees C o vm result other)
    (never : (stateAfter result).overwritten = false) :
    Kept o vm (stateAfter result) := by
  cases result with
  | ok value after =>
      rcases agrees with harm | ⟨kept, _⟩
      · exact absurd harm (by simpa [stateAfter] using never)
      · exact kept
  | error stop after =>
      rcases agrees with harm | ⟨kept, _⟩
      · exact absurd harm (by simpa [stateAfter] using never)
      · exact kept

theorem Sticky.clean
    (sticky : Sticky command)
    (vm : Vm)
    (never : (stateAfter (command vm)).overwritten = false) :
    vm.overwritten = false := by
  cases harm : vm.overwritten with
  | false => rfl
  | true =>
      have kept := sticky vm harm
      unfold stateAfter at never
      cases ran : command vm with
      | ok value after =>
          rw [ran] at kept never
          exact absurd kept (by simpa using never)
      | error stop after =>
          rw [ran] at kept never
          exact absurd kept (by simpa using never)

/-- A frozen object is kept by every run that overwrites none. -/
theorem Run.kept
    {start vm : Vm}
    (run : Run C start vm)
    (frozen : start.isFrozen o = true)
    (never : vm.overwritten = false) :
    Kept o start vm := by
  induction run with
  | start => exact .refl o start frozen
  | send vm fuel recv mid args kw _ ih =>
      have guarded : Guarded C o (Instances.send C fuel recv mid args kw) :=
        .send fuel recv mid args kw
      have clean := guarded.sticky.clean vm never
      have kept := ih clean
      exact kept.trans
        ((guarded.agrees vm kept.frozen clean).kept never)

/-- A call that changes the object once it is writable is refused while it is
frozen. -/
theorem Guarded.refused
    (guarded : Guarded C o command)
    (vm : Vm)
    (frozen : vm.isFrozen o = true)
    (never : (stateAfter (command vm)).overwritten = false)
    (changes : (stateAfter (command (vm.thaw o))).contents o ≠
      vm.contents o) :
    ∃ after, command vm =
      .error (.raised (frozenError C (.obj o))) after := by
  have clean := guarded.sticky.clean vm never
  have agrees := guarded.agrees vm frozen clean
  have kept := agrees.kept never
  have thawed : ∀ after : Vm, (after.thaw o).contents o =
      after.contents o := by
    intro after
    simp only [Vm.contents, thaw_heap, if_true]
    cases after.heap[o.index]? <;> rfl
  have twinContents : ∀ after twin : Vm, after.Twin o twin →
      twin.contents o = after.contents o := by
    intro after twin twins
    rcases twins with rfl | rfl
    · rfl
    · exact thawed after
  cases ran : command vm with
  | ok value after =>
      rw [ran] at agrees kept never
      rcases agrees with harm | ⟨_, twin, other, twins⟩
      · exact absurd harm (by simpa [stateAfter] using never)
      · rw [other] at changes
        exact absurd ((twinContents after twin twins).trans kept.contents)
          changes
  | error stop after =>
      rw [ran] at agrees kept never
      rcases agrees with harm | ⟨_, refused | ⟨twin, other, twins⟩⟩
      · exact absurd harm (by simpa [stateAfter] using never)
      · exact ⟨after, by rw [refused]⟩
      · rw [other] at changes
        exact absurd ((twinContents after twin twins).trans kept.contents)
          changes

end Runs

section Overwriting

end Overwriting

section Examples

/-- A class graph with a Data class (1) of one member, a class (2) with a
writer, and `Method` (3). -/
def sampleClasses : Classes where
  immediateClass _ := ⟨9⟩
  ancestors c := [c, ⟨9⟩]
  realClass c := c
  tableClass c := c
  isModule _ := false
  isSingleton _ := false
  isKindOf c owner := c == owner
  findMethod c name :=
    match c.index, name.number.toNat with
    | 1, 1 => some (.native .dataInitialize 0 none, c)
    | 2, 2 => some (.attrWriter ⟨5⟩, c)
    | 3, 3 => some (.native .methodCall 0 none, c)
    | _, _ => none
  membersIvar c := if c.index = 1 then .obj ⟨2⟩ else .nil
  keywordInitIvar _ := .nil
  arrayClass := ⟨7⟩
  hashClass := ⟨8⟩
  structClass := ⟨6⟩
  dataClass := ⟨5⟩
  methodClass := ⟨3⟩
  unboundMethodClass := ⟨4⟩
  symName _ := "x"
  intern name := ⟨if name = "_owner" then 11 else if name = "_recv" then 12
    else if name = "_name" then 13 else 14⟩
  internBytes _ := ⟨0⟩
  describe _ := "#<data x=1>"
  asString _ := ""
  expectInt _ := .ok 0
  respondToMissing _ _ := false

/-- A frozen Data instance `x=1`, a Hash `x: 2`, the members of the class, a
frozen object with a variable, and its writer as a Method. -/
def sampleVm : Vm where
  heap :=
    [⟨⟨1⟩, .array [.int 1], [], true, false, true⟩,
     ⟨⟨8⟩, .hash [(.sym ⟨4⟩, .int 2)], [], false, false, false⟩,
     ⟨⟨7⟩, .array [.sym ⟨4⟩], [], false, false, false⟩,
     ⟨⟨2⟩, .object, [(⟨5⟩, .int 1)], true, false, false⟩,
     ⟨⟨3⟩, .object, [(⟨11⟩, .obj ⟨2⟩), (⟨12⟩, .obj ⟨3⟩), (⟨13⟩, .sym ⟨2⟩)],
       false, false, false⟩]
  overwritten := false

end Examples

end SabiRuby.Instances
