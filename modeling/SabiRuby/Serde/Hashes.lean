import SabiRuby.Serde.Serializer

/-!
# What making objects keeps

A conversion only adds to the VM: the objects and the symbols there were are
there afterwards.  While a Hash is filled it is the one object that changes, and
pairs whose keys differ end up in it in their order.
-/

namespace SabiRuby.Serde

open Library Integer

/-- The command returns, and in such a state. -/
def Makes (command : Exec Error Vm α) (vm : Vm) (returns : α → Vm → Prop) :
    Prop :=
  Exec.Satisfies command vm returns fun _ _ => False

variable {command : Exec Error Vm α}

theorem Makes.bind
    {next : α → Exec Error Vm β}
    (first : Makes command vm middle)
    (second : ∀ value after, middle value after →
      Makes (next value) after returns) :
    Makes (command >>= next) vm returns := by
  apply (Exec.satisfies_bind command next).mpr
  exact first.mono second fun _ _ impossible => impossible

theorem Makes.mono
    (made : Makes command vm returns)
    (weaken : ∀ value after, returns value after → weaker value after) :
    Makes command vm weaker :=
  Exec.Satisfies.mono made weaken fun _ _ impossible => impossible

theorem Makes.pure
    {value : α}
    (holds : returns value vm) :
    Makes (pure value) vm returns :=
  holds

theorem Makes.get
    {next : Vm → Exec Error Vm β}
    (made : Makes (next vm) vm returns) :
    Makes (MonadState.get >>= next) vm returns :=
  made

theorem Makes.exists_ok
    (made : Makes command vm returns) :
    ∃ value after, command vm = .ok value after ∧ returns value after :=
  Exec.Satisfies.exists_ok made fun _ _ impossible => impossible

/-! ## What is kept -/

namespace Vm

/-- Everything there was is there, the object at `hole` apart, and there are
the same symbols. -/
structure Grows (hole : Nat) (vm after : Vm) : Prop where
  kept : ∀ i < vm.heap.length, i ≠ hole → after.heap[i]? = vm.heap[i]?
  longer : vm.heap.length ≤ after.heap.length
  syms : after.syms = vm.syms

/-- Everything there was is there. -/
structure Extends (vm after : Vm) : Prop where
  kept : ∀ i < vm.heap.length, after.heap[i]? = vm.heap[i]?
  longer : vm.heap.length ≤ after.heap.length
  named : ∀ i < vm.syms.length, after.syms[i]? = vm.syms[i]?

theorem Grows.refl (hole : Nat) (vm : Vm) : vm.Grows hole vm where
  kept := fun _ _ _ => rfl
  longer := Nat.le_refl _
  syms := rfl

theorem Grows.trans
    {vm middle after : Vm}
    (first : vm.Grows hole middle)
    (second : middle.Grows hole after) : vm.Grows hole after where
  kept := by
    intro i inside other
    rw [second.kept i (Nat.lt_of_lt_of_le inside first.longer) other]
    exact first.kept i inside other
  longer := Nat.le_trans first.longer second.longer
  syms := second.syms.trans first.syms

theorem Extends.refl (vm : Vm) : vm.Extends vm where
  kept := fun _ _ => rfl
  longer := Nat.le_refl _
  named := fun _ _ => rfl

variable {vm after : Vm}

theorem Extends.symsLonger
    (extended : vm.Extends after) : vm.syms.length ≤ after.syms.length := by
  by_cases empty : vm.syms.length = 0
  · omega
  · have last := extended.named (vm.syms.length - 1) (by omega)
    have there : vm.syms.length - 1 < vm.syms.length := by omega
    rw [List.getElem?_eq_getElem there] at last
    have inside := (List.getElem?_eq_some_iff.mp last).1
    omega

theorem Extends.trans
    {vm middle after : Vm}
    (first : vm.Extends middle)
    (second : middle.Extends after) : vm.Extends after where
  kept := by
    intro i inside
    rw [second.kept i (Nat.lt_of_lt_of_le inside first.longer)]
    exact first.kept i inside
  longer := Nat.le_trans first.longer second.longer
  named := by
    intro i inside
    rw [second.named i (Nat.lt_of_lt_of_le inside first.symsLonger)]
    exact first.named i inside

/-- An object stays what it is. -/
theorem Extends.object
    {cell : HeapObject}
    (extended : vm.Extends after)
    (held : vm.object v = some cell) : after.object v = some cell := by
  cases v with
  | obj o =>
      have inside := (List.getElem?_eq_some_iff.mp held).1
      exact (extended.kept o.index inside).trans held
  | _ => cases held

/-- An object that is not the one being filled stays what it is. -/
theorem Grows.object
    {cell : HeapObject}
    (grown : vm.Grows hole after)
    (held : vm.object v = some cell)
    (other : v ≠ .obj ⟨hole⟩) : after.object v = some cell := by
  cases v with
  | obj o =>
      have inside := (List.getElem?_eq_some_iff.mp held).1
      have different : o.index ≠ hole := by
        intro same
        subst same
        exact other rfl
      exact (grown.kept o.index inside different).trans held
  | _ => cases held

theorem strBytes_eq_some_iff (vm : Vm) (v : Value) (bytes : List UInt8) :
    vm.strBytes v = some bytes ↔
      ∃ object, vm.object v = some object ∧ object.kind = .string bytes := by
  unfold strBytes
  split
  · rename_i object held
    rw [held]
    split <;> simp_all
  · simp_all

theorem bigInt_eq_some_iff (vm : Vm) (v : Value) (number : BigInt) :
    vm.bigInt v = some number ↔
      ∃ object, vm.object v = some object ∧ object.kind = .bigInt number := by
  unfold bigInt
  split
  · rename_i object held
    rw [held]
    split <;> simp_all
  · simp_all

theorem aryVals_eq_some_iff (vm : Vm) (v : Value) (items : List Value) :
    vm.aryVals v = some items ↔
      ∃ object, vm.object v = some object ∧ object.kind = .array items := by
  unfold aryVals
  split
  · rename_i object held
    rw [held]
    split <;> simp_all
  · simp_all

theorem hashEntries_eq_some_iff
    (vm : Vm)
    (v : Value)
    (entries : List (Value × Value)) :
    vm.hashEntries v = some entries ↔
      ∃ object, vm.object v = some object ∧ object.kind = .hash entries := by
  unfold hashEntries
  split
  · rename_i object held
    rw [held]
    split <;> simp_all
  · simp_all

section Kept

variable {vm after : Vm} (extended : vm.Extends after)

include extended

theorem Extends.strBytes
    (held : vm.strBytes v = some bytes) : after.strBytes v = some bytes := by
  rw [strBytes_eq_some_iff] at held ⊢
  obtain ⟨object, there, kind⟩ := held
  exact ⟨object, extended.object there, kind⟩

theorem Extends.bigInt
    (held : vm.bigInt v = some number) : after.bigInt v = some number := by
  rw [bigInt_eq_some_iff] at held ⊢
  obtain ⟨object, there, kind⟩ := held
  exact ⟨object, extended.object there, kind⟩

theorem Extends.aryVals
    (held : vm.aryVals v = some items) : after.aryVals v = some items := by
  rw [aryVals_eq_some_iff] at held ⊢
  obtain ⟨object, there, kind⟩ := held
  exact ⟨object, extended.object there, kind⟩

theorem Extends.hashEntries
    (held : vm.hashEntries v = some entries) :
    after.hashEntries v = some entries := by
  rw [hashEntries_eq_some_iff] at held ⊢
  obtain ⟨object, there, kind⟩ := held
  exact ⟨object, extended.object there, kind⟩

theorem Extends.name
    (held : vm.name s = some bytes) : after.name s = some bytes := by
  have inside := (List.getElem?_eq_some_iff.mp held).1
  exact (extended.named s.number.toNat inside).trans held

end Kept

/-! ## The contents of keys -/

/-- The value is a key with this content. -/
inductive HasContent (vm : Vm) : Value → KeyContent → Prop
  | int (i : Int64) : HasContent vm (.int i) (.integer i.toInt)
  | wide (held : vm.bigInt v = some number) :
      HasContent vm v (.integer number.toInt)
  | text (held : vm.strBytes v = some bytes) : HasContent vm v (.text bytes)
  | sym (s : Sym) : HasContent vm (.sym s) (.word (.sym s))

theorem HasContent.content_eq
    {vm : Vm}
    (holds : vm.HasContent v c) : vm.content v = c := by
  cases holds with
  | int i => rfl
  | wide held =>
      obtain ⟨object, there, kind⟩ := (vm.bigInt_eq_some_iff _ _).mp held
      cases v with
      | obj o => simp [content, strBytes, bigInt, there, kind]
      | _ => cases there
  | text held =>
      cases v with
      | obj o => simp [content, held]
      | _ =>
          obtain ⟨_, there, _⟩ := (vm.strBytes_eq_some_iff _ _).mp held
          cases there
  | sym s => rfl

theorem HasContent.extends
    (holds : vm.HasContent v c)
    (extended : vm.Extends after) : after.HasContent v c := by
  cases holds with
  | int i => exact .int i
  | wide held => exact .wide (extended.bigInt held)
  | text held => exact .text (extended.strBytes held)
  | sym s => exact .sym s

/-- A key has its content while another object is filled. -/
theorem HasContent.grows
    (holds : vm.HasContent v c)
    (grown : vm.Grows hole after)
    (filled : vm.hashEntries (.obj ⟨hole⟩) = some entries) :
    after.HasContent v c := by
  obtain ⟨hash, isHash, hashKind⟩ := (vm.hashEntries_eq_some_iff _ _).mp filled
  cases holds with
  | int i => exact .int i
  | wide held =>
      obtain ⟨object, there, kind⟩ := (vm.bigInt_eq_some_iff _ _).mp held
      apply HasContent.wide
      refine (after.bigInt_eq_some_iff _ _).mpr ⟨object, ?_, kind⟩
      apply grown.object there
      rintro rfl
      rw [isHash] at there
      cases there
      rw [hashKind] at kind
      cases kind
  | text held =>
      obtain ⟨object, there, kind⟩ := (vm.strBytes_eq_some_iff _ _).mp held
      apply HasContent.text
      refine (after.strBytes_eq_some_iff _ _).mpr ⟨object, ?_, kind⟩
      apply grown.object there
      rintro rfl
      rw [isHash] at there
      cases there
      rw [hashKind] at kind
      cases kind
  | sym s => exact .sym s

end Vm

/-! ## Making one object -/

theorem alloc_makes (className : String) (kind : ObjKind) (vm : Vm) :
    Makes (alloc className kind) vm fun v after =>
      v = .obj ⟨vm.heap.length⟩ ∧ after.syms = vm.syms ∧
        after.heap = vm.heap ++ [HeapObject.fresh className kind] :=
  ⟨rfl, rfl, rfl⟩

variable {vm after : Vm}

theorem extends_of_append
    (syms : after.syms = vm.syms)
    (heap : after.heap = vm.heap ++ objects) : vm.Extends after where
  kept := by
    intro i inside
    rw [heap, List.getElem?_append_left inside]
  longer := by
    rw [heap, List.length_append]
    omega
  named := by
    intro i _
    rw [syms]

/-- A new object, and everything else as it was. -/
theorem alloc_extends (className : String) (kind : ObjKind) (vm : Vm) :
    Makes (alloc className kind) vm fun v after =>
      vm.Extends after ∧ after.syms = vm.syms ∧
        after.object v = some (HeapObject.fresh className kind) := by
  apply (alloc_makes className kind vm).mono
  rintro v after ⟨rfl, syms, heap⟩
  refine ⟨extends_of_append syms heap, syms, ?_⟩
  simp [Vm.object, heap]

/-- A String with these bytes. -/
theorem strNew_makes (bytes : List UInt8) (vm : Vm) :
    Makes (strNew bytes) vm fun v after =>
      vm.Extends after ∧ after.syms = vm.syms ∧
        after.strBytes v = some bytes ∧ after.strBinary v = false := by
  apply (alloc_extends "String" (.string bytes) vm).mono
  rintro v after ⟨extended, syms, held⟩
  refine ⟨extended, syms, ?_, ?_⟩
  · exact (after.strBytes_eq_some_iff v bytes).mpr ⟨_, held, rfl⟩
  · simp [Vm.strBinary, held, HeapObject.fresh]

theorem aryNew_makes (items : List Value) (vm : Vm) :
    Makes (aryNew items) vm fun v after =>
      vm.Extends after ∧ after.syms = vm.syms ∧
        after.aryVals v = some items := by
  apply (alloc_extends "Array" (.array items) vm).mono
  rintro v after ⟨extended, syms, held⟩
  exact ⟨extended, syms, (after.aryVals_eq_some_iff v items).mpr ⟨_, held, rfl⟩⟩

/-- A wide Integer is made only where the number is wide. -/
theorem bintValue_makes
    {number : BigInt}
    (formed : number.WellFormed)
    (vm : Vm) :
    Makes (bintValue number) vm fun v after =>
      vm.Extends after ∧ after.syms = vm.syms ∧
        (BigInt.FitsI64 number.toInt ∧ v = .int (Int64.ofInt number.toInt) ∨
          ¬BigInt.FitsI64 number.toInt ∧ after.bigInt v = some number) := by
  unfold bintValue
  rw [formed.toI64_eq]
  by_cases fits : BigInt.FitsI64 number.toInt
  · rw [if_pos fits]
    exact Makes.pure ⟨Vm.Extends.refl vm, rfl, Or.inl ⟨fits, rfl⟩⟩
  · rw [if_neg fits]
    apply (alloc_extends "Integer" (.bigInt number) vm).mono
    rintro v after ⟨extended, syms, held⟩
    refine ⟨extended, syms, Or.inr ⟨fits, ?_⟩⟩
    exact (after.bigInt_eq_some_iff v number).mpr ⟨_, held, rfl⟩

/-! ## Symbols -/

/-- A symbol with the name, as long as there is room for one. -/
theorem intern_makes
    (name : String)
    (vm : Vm)
    (room : vm.syms.length < 2 ^ 32) :
    Makes (intern name) vm fun s after =>
      vm.Extends after ∧ after.syms.length ≤ vm.syms.length + 1 ∧
        after.name s = some (utf8 name) := by
  unfold intern
  apply Makes.get
  cases found : vm.syms.findIdx? (· == utf8 name) with
  | some index =>
      obtain ⟨inside, same, _⟩ := List.findIdx?_eq_some_iff_getElem.mp found
      have number : (UInt32.ofNat index).toNat = index := by
        rw [UInt32.toNat_ofNat', Nat.mod_eq_of_lt (by omega)]
      refine Makes.pure ⟨Vm.Extends.refl vm, Nat.le_succ _, ?_⟩
      unfold Vm.name
      simp only [number, List.getElem?_eq_getElem inside]
      exact congrArg some (eq_of_beq same)
  | none =>
      have number : (UInt32.ofNat vm.syms.length).toNat =
          vm.syms.length := by
        rw [UInt32.toNat_ofNat', Nat.mod_eq_of_lt (by omega)]
      refine ⟨⟨fun _ _ => rfl, Nat.le_refl _, ?_⟩, ?_, ?_⟩
      · intro i inside
        exact List.getElem?_append_left inside
      · simp
      · simp [Vm.name, number]

/-! ## Filling a Hash -/

/-- The object at `hole` is a Hash with these entries, and not frozen. -/
def Filling (vm : Vm) (hole : Nat) (entries : List (Value × Value)) : Prop :=
  ∃ cell, vm.object (.obj ⟨hole⟩) = some cell ∧ cell.kind = .hash entries ∧
    cell.frozen = false

/-- A stored key is the key, or a String with the same bytes. -/
def KeyCopy (vm : Vm) (k stored : Value) : Prop :=
  stored = k ∨
    ∃ bytes, vm.strBytes k = some bytes ∧ vm.strBytes stored = some bytes

/-- A new entry, where there is room. -/
def push (entries : List (Value × Value)) (entry : Value × Value) :
    List (Value × Value) :=
  if entries.length < HashTable.indexLimit then entries ++ [entry] else entries

theorem Filling.hashEntries
    (filling : Filling vm hole entries) :
    vm.hashEntries (.obj ⟨hole⟩) = some entries := by
  obtain ⟨cell, held, kind, _⟩ := filling
  exact (vm.hashEntries_eq_some_iff _ _).mpr ⟨cell, held, kind⟩

theorem KeyCopy.hasContent
    (copy : KeyCopy vm k stored)
    (holds : vm.HasContent k c) : vm.HasContent stored c := by
  rcases copy with rfl | ⟨bytes, ofKey, ofStored⟩
  · exact holds
  · have same : c = .text bytes :=
      holds.content_eq.symm.trans (Vm.HasContent.text ofKey).content_eq
    rw [same]
    exact .text ofStored

theorem strBytes_of_grows
    (grown : vm.Grows hole after)
    (filling : Filling vm hole entries)
    (held : vm.strBytes v = some bytes) : after.strBytes v = some bytes := by
  obtain ⟨hash, isHash, hashKind, _⟩ := filling
  obtain ⟨cell, there, kind⟩ := (vm.strBytes_eq_some_iff _ _).mp held
  refine (after.strBytes_eq_some_iff _ _).mpr ⟨cell, ?_, kind⟩
  apply grown.object there
  rintro rfl
  rw [isHash] at there
  cases there
  rw [hashKind] at kind
  cases kind

theorem KeyCopy.grows
    (copy : KeyCopy vm k stored)
    (grown : vm.Grows hole after)
    (filling : Filling vm hole entries) : KeyCopy after k stored := by
  rcases copy with same | ⟨bytes, ofKey, ofStored⟩
  · exact Or.inl same
  · exact Or.inr ⟨bytes, strBytes_of_grows grown filling ofKey,
      strBytes_of_grows grown filling ofStored⟩

/-- Changing one object leaves the others. -/
theorem update_makes
    (hole : Nat)
    (change : HeapObject → HeapObject)
    (vm : Vm) :
    Makes (update (.obj ⟨hole⟩) change) vm fun _ after =>
      vm.Grows hole after ∧
        after.object (.obj ⟨hole⟩) =
          (vm.object (.obj ⟨hole⟩)).map change := by
  refine ⟨⟨?_, ?_, rfl⟩, ?_⟩
  · intro i _ other
    exact List.getElem?_modify_ne change _ (Ne.symm other)
  · simp
  · simp [Vm.object]

/-- The key that is stored for a key. -/
theorem hKeyFor_makes (k : Value) (vm : Vm) :
    Makes (hKeyFor k) vm fun stored after =>
      vm.Extends after ∧ after.syms = vm.syms ∧ KeyCopy after k stored := by
  unfold hKeyFor
  apply Makes.get
  have same : Makes (pure k) vm fun stored after =>
      vm.Extends after ∧ after.syms = vm.syms ∧ KeyCopy after k stored :=
    Makes.pure ⟨Vm.Extends.refl vm, rfl, Or.inl rfl⟩
  cases held : vm.object k with
  | none => exact same
  | some cell =>
      cases kind : cell.kind with
      | string bytes =>
          simp only [kind]
          split
          · exact same
          · apply (alloc_makes "String" (.string bytes) vm).bind
            rintro _ middle ⟨rfl, syms, heap⟩
            apply (update_makes vm.heap.length _ middle).bind
            rintro _ after ⟨grown, copied⟩
            have extended := extends_of_append syms heap
            have fresh : middle.object (.obj ⟨vm.heap.length⟩) =
                some (HeapObject.fresh "String" (.string bytes)) := by
              simp [Vm.object, heap]
            rw [fresh, Option.map_some] at copied
            refine Makes.pure ⟨?_, grown.syms.trans syms, Or.inr ⟨bytes, ?_, ?_⟩⟩
            · refine ⟨?_, Nat.le_trans extended.longer grown.longer, ?_⟩
              · intro i inside
                rw [grown.kept i (Nat.lt_of_lt_of_le inside extended.longer)
                  (by omega)]
                exact extended.kept i inside
              · intro i _
                rw [grown.syms, syms]
            · refine (after.strBytes_eq_some_iff _ _).mpr ⟨cell, ?_, kind⟩
              apply grown.object (extended.object held)
              rintro rfl
              simp [Vm.object] at held
            · exact (after.strBytes_eq_some_iff _ _).mpr ⟨_, copied, rfl⟩
      | bigInt number =>
          simp only [kind]
          exact same
      | array items =>
          simp only [kind]
          exact same
      | hash entries =>
          simp only [kind]
          exact same
      | other =>
          simp only [kind]
          exact same

theorem grows_of_extends
    (extended : vm.Extends after)
    (syms : after.syms = vm.syms) : vm.Grows hole after where
  kept := fun i inside _ => extended.kept i inside
  longer := extended.longer
  syms := syms

/-- A key that no entry has becomes a new entry. -/
theorem hashSet_makes
    (filling : Filling vm hole entries)
    (holds : vm.HasContent k c)
    (unheld : ∀ entry ∈ entries, vm.content entry.1 ≠ c)
    (v : Value) :
    Makes (hashSet (.obj ⟨hole⟩) k v) vm fun _ after =>
      vm.Grows hole after ∧ ∃ stored, KeyCopy after k stored ∧
        Filling after hole (push entries (stored, v)) := by
  obtain ⟨cell, held, kind, unfrozen⟩ := filling
  have notFound : AssociationList.lookup
      (fun stored => decide (vm.content stored = vm.content k)) entries =
        none := by
    rw [AssociationList.lookup_eq_none_iff]
    intro entry member
    rw [holds.content_eq]
    exact decide_eq_false (unheld entry member)
  unfold hashSet
  apply Makes.get
  simp only [held, kind, unfrozen, Bool.false_eq_true, if_false]
  unfold hSet
  apply Makes.get
  simp only [notFound]
  by_cases room : entries.length < HashTable.indexLimit
  · rw [if_pos room]
    apply (hKeyFor_makes k vm).bind
    rintro stored middle ⟨extended, syms, copy⟩
    have heldAfter := extended.object held
    apply (update_makes hole _ middle).mono
    rintro _ after ⟨grown, changed⟩
    rw [heldAfter, Option.map_some] at changed
    have fillingAfter : Filling middle hole entries :=
      ⟨cell, heldAfter, kind, unfrozen⟩
    refine ⟨(grows_of_extends extended syms).trans grown, stored,
      copy.grows grown fillingAfter, _, changed, ?_, unfrozen⟩
    rw [push, if_pos room]
  · rw [if_neg room]
    refine Makes.pure ⟨Vm.Grows.refl hole vm, k, Or.inl rfl, cell, held, ?_,
      unfrozen⟩
    rw [push, if_neg room]
    exact kind

/-- The value of a pair under a key that stands for the pair's. -/
def StoredPair (vm : Vm) (pair stored : Value × Value) : Prop :=
  stored.2 = pair.2 ∧ KeyCopy vm pair.1 stored.1

/-- Pairs whose keys differ are stored in their order. -/
theorem storePairs_makes
    (pairs : List (Value × Value))
    (filling : Filling vm hole entries)
    (keys : ∀ pair ∈ pairs, ∃ c, vm.HasContent pair.1 c)
    (distinct : (pairs.map fun pair => vm.content pair.1).Nodup)
    (unheld : ∀ entry ∈ entries, ∃ c, vm.HasContent entry.1 c ∧
      ∀ pair ∈ pairs, vm.content pair.1 ≠ c) :
    Makes (storePairs (.obj ⟨hole⟩) pairs) vm fun _ after =>
      vm.Grows hole after ∧ ∃ stored,
        List.Forall₂ (StoredPair after) pairs stored ∧
          Filling after hole (stored.foldl push entries) := by
  induction pairs generalizing vm entries with
  | nil =>
      exact ⟨Vm.Grows.refl hole vm, [], List.Forall₂.nil, filling⟩
  | cons pair pairs ih =>
      obtain ⟨k, v⟩ := pair
      obtain ⟨c, holds⟩ := keys (k, v) List.mem_cons_self
      rw [List.map_cons, List.nodup_cons] at distinct
      have filled := filling.hashEntries
      unfold storePairs
      apply Makes.bind
      · apply hashSet_makes filling holds _ v
        intro entry member
        obtain ⟨other, holdsEntry, differs⟩ := unheld entry member
        rw [holdsEntry.content_eq, ← holds.content_eq]
        exact Ne.symm (differs (k, v) List.mem_cons_self)
      rintro _ middle ⟨grown, stored, copy, fillingAfter⟩
      have kept : ∀ other ∈ pairs,
          ∃ c, vm.HasContent other.1 c ∧ middle.HasContent other.1 c := by
        intro other member
        obtain ⟨c, holds⟩ := keys other (List.mem_cons_of_mem _ member)
        exact ⟨c, holds, holds.grows grown filled⟩
      have sameContent : ∀ other ∈ pairs,
          middle.content other.1 = vm.content other.1 := by
        intro other member
        obtain ⟨c, before, afterwards⟩ := kept other member
        rw [before.content_eq, afterwards.content_eq]
      have inMap : ∀ other ∈ pairs, vm.content other.1 ≠ c := by
        intro other member same
        apply distinct.1
        rw [holds.content_eq, ← same]
        exact List.mem_map.mpr ⟨other, member, rfl⟩
      apply (ih fillingAfter
        (fun other member =>
          let ⟨c, _, afterwards⟩ := kept other member
          ⟨c, afterwards⟩)
        (by
          rw [List.map_congr_left sameContent]
          exact distinct.2)
        ?_).mono
      · rintro _ after ⟨more, rest, pairsStored, finished⟩
        exact ⟨grown.trans more, (stored, v) :: rest,
          .cons ⟨rfl, copy.grows more fillingAfter⟩ pairsStored, finished⟩
      · have unheldBefore : ∀ entry ∈ entries, ∃ c,
            middle.HasContent entry.1 c ∧
              ∀ pair ∈ pairs, middle.content pair.1 ≠ c := by
          intro entry member
          obtain ⟨other, holdsEntry, differs⟩ := unheld entry member
          refine ⟨other, holdsEntry.grows grown filled, ?_⟩
          intro pair inPairs
          rw [sameContent pair inPairs]
          exact differs pair (List.mem_cons_of_mem _ inPairs)
        intro entry member
        unfold push at member
        split at member
        · rcases List.mem_append.mp member with old | new
          · exact unheldBefore entry old
          · rw [List.mem_singleton.mp new]
            refine ⟨c, copy.hasContent (holds.grows grown filled), ?_⟩
            intro pair inPairs
            rw [sameContent pair inPairs]
            exact inMap pair inPairs
        · exact unheldBefore entry member

theorem foldl_push
    (stored entries : List (Value × Value))
    (short : entries.length ≤ HashTable.indexLimit) :
    stored.foldl push entries =
      (entries ++ stored).take HashTable.indexLimit := by
  induction stored generalizing entries with
  | nil => rw [List.foldl_nil, List.append_nil, List.take_of_length_le short]
  | cons entry stored ih =>
      rw [List.foldl_cons]
      by_cases room : entries.length < HashTable.indexLimit
      · have pushed : push entries entry = entries ++ [entry] := if_pos room
        have shortAfter :
            (entries ++ [entry]).length ≤ HashTable.indexLimit := by
          rw [List.length_append, List.length_singleton]
          omega
        rw [pushed, ih _ shortAfter, List.append_assoc,
          List.singleton_append]
      · have pushed : push entries entry = entries := if_neg room
        have exactly : entries.length = HashTable.indexLimit := by omega
        rw [pushed, ih _ short, ← exactly, List.take_left,
          List.take_left]

/-- A Hash of pairs whose keys differ has them as its entries, as many as there
is room for. -/
theorem buildHash_makes
    (pairs : List (Value × Value))
    (keys : ∀ pair ∈ pairs, ∃ c, vm.HasContent pair.1 c)
    (distinct : (pairs.map fun pair => vm.content pair.1).Nodup) :
    Makes (buildHash pairs) vm fun h after =>
      vm.Extends after ∧ after.syms = vm.syms ∧ ∃ stored,
        List.Forall₂ (StoredPair after) pairs stored ∧
          after.hashEntries h =
            some (stored.take HashTable.indexLimit) := by
  unfold buildHash
  apply (alloc_makes "Hash" (.hash []) vm).bind
  rintro _ middle ⟨rfl, syms, heap⟩
  have extended := extends_of_append syms heap
  have filling : Filling middle vm.heap.length [] :=
    ⟨HeapObject.fresh "Hash" (.hash []), by simp [Vm.object, heap], rfl, rfl⟩
  have sameContent : ∀ pair ∈ pairs,
      middle.content pair.1 = vm.content pair.1 := by
    intro pair member
    obtain ⟨c, holds⟩ := keys pair member
    rw [holds.content_eq, (holds.extends extended).content_eq]
  apply (storePairs_makes pairs filling
    (fun pair member =>
      let ⟨c, holds⟩ := keys pair member
      ⟨c, holds.extends extended⟩)
    (by
      rw [List.map_congr_left sameContent]
      exact distinct)
    (by simp)).bind
  rintro _ after ⟨grown, stored, pairsStored, finished⟩
  rw [foldl_push stored [] (Nat.zero_le _), List.nil_append] at finished
  refine Makes.pure ⟨⟨?_, Nat.le_trans extended.longer grown.longer, ?_⟩,
    grown.syms.trans syms, stored, pairsStored, finished.hashEntries⟩
  · intro i inside
    rw [grown.kept i (Nat.lt_of_lt_of_le inside extended.longer) (by omega)]
    exact extended.kept i inside
  · intro i _
    rw [grown.syms, syms]

end SabiRuby.Serde
