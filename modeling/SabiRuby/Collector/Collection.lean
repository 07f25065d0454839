import SabiRuby.Collector.Marking
import Mathlib.Tactic.ByContra

/-!
# A whole collection

After a mark phase and the sweep the live objects are the reachable ones, and
what is allocated then takes slots that are not live.
-/

namespace SabiRuby.Collector

open Library (Reachable)

/-! ## The sweep of all slots -/

section SweepLoop

theorem sweepLoop_objs
    (objs : List HeapObject)
    (flags : List UInt8) :
    (sweepLoop objs flags).1 =
      List.zipWith (fun o f => (sweepSlot o f).1) objs flags := by
  induction objs generalizing flags with
  | nil => rfl
  | cons o objs ih =>
      cases flags with
      | nil => rfl
      | cons f flags => simp [sweepLoop, ih]

theorem sweepLoop_flags
    (objs : List HeapObject)
    (flags : List UInt8) :
    (sweepLoop objs flags).2.1 =
      List.zipWith (fun o f => (sweepSlot o f).2.1) objs flags := by
  induction objs generalizing flags with
  | nil => rfl
  | cons o objs ih =>
      cases flags with
      | nil => rfl
      | cons f flags => simp [sweepLoop, ih]

/-- A flag word that makes the sweep free its slot. -/
def Doomed (f : UInt8) : Prop :=
  f &&& MARKED = 0 ∧ f &&& FREE = 0

/-- The sweep frees each doomed slot once, in ascending order. -/
theorem sweepLoop_victims
    (objs : List HeapObject)
    (flags : List UInt8)
    (sized : flags.length = objs.length) :
    ∃ victims : List Nat, victims.Pairwise (· < ·) ∧
      (∀ i, i ∈ victims ↔ ∃ f, flags[i]? = some f ∧ Doomed f) ∧
      (sweepLoop objs flags).2.2.1 =
        victims.filterMap (fun i => objs[i]?.bind hostData) ∧
      (sweepLoop objs flags).2.2.2 = victims.length := by
  induction objs generalizing flags with
  | nil =>
      rw [List.length_nil, List.length_eq_zero_iff] at sized
      subst sized
      exact ⟨[], List.Pairwise.nil, by simp, rfl, rfl⟩
  | cons o objs ih =>
      cases flags with
      | nil => simp at sized
      | cons f flags =>
          obtain ⟨victims, ascending, same, data, freed⟩ :=
            ih flags (by simpa using sized)
          have later : (victims.map (· + 1)).Pairwise (· < ·) :=
            List.pairwise_map.mpr (ascending.imp (by omega))
          have shifted : ∀ i, i + 1 ∈ victims.map (· + 1) ↔ i ∈ victims := by
            intro i
            simp
          have dataLater :
              (victims.map (· + 1)).filterMap
                (fun i => (o :: objs)[i]?.bind hostData) =
                (sweepLoop objs flags).2.2.1 := by
            rw [data, List.filterMap_map]
            apply List.filterMap_congr
            intro i _
            simp
          by_cases doomed : Doomed f
          · have slot :
                sweepSlot o f = (inert, FREE, (hostData o).toList, 1) := by
              simp [sweepSlot, doomed.1, doomed.2]
            refine ⟨0 :: victims.map (· + 1), ?_, ?_, ?_, ?_⟩
            · refine List.pairwise_cons.mpr ⟨?_, later⟩
              simp
            · intro i
              cases i with
              | zero => simpa using doomed
              | succ i => simp [same]
            · simp only [sweepLoop, slot]
              rw [List.filterMap_cons]
              cases named : hostData o <;> simp [named, dataLater]
            · simp [sweepLoop, slot, freed, Nat.add_comm]
          · have slot : (sweepSlot o f).2.2 = ([], 0) := by
              unfold sweepSlot
              by_cases marked : f &&& MARKED = 0
              · have held : f &&& FREE ≠ 0 := fun free => doomed ⟨marked, free⟩
                simp [marked, held]
              · simp [marked]
            refine ⟨victims.map (· + 1), later, ?_, ?_, ?_⟩
            · intro i
              cases i with
              | zero => simpa using doomed
              | succ i => simp [same]
            · simp [sweepLoop, slot, dataLater]
            · simp [sweepLoop, slot, freed]

end SweepLoop

/-! ## The flags after the sweep -/

/-- The end of a list that is dropped holds nothing else. -/
theorem getElem?_rdropWhile
    (drop : α → Bool)
    (items : List α)
    (i : Nat)
    (kept : drop a = false) :
    (items.rdropWhile drop)[i]? = some a ↔ items[i]? = some a := by
  have whole := @List.rdropWhile_append_rtakeWhile _ drop items
  constructor
  · intro found
    have inside := (List.getElem?_eq_some_iff.mp found).1
    rw [← whole, List.getElem?_append_left inside]
    exact found
  · intro found
    rw [← whole] at found
    by_cases inside : i < (items.rdropWhile drop).length
    · rwa [List.getElem?_append_left inside] at found
    · rw [List.getElem?_append_right (by omega)] at found
      have dropped := List.mem_rtakeWhile_imp (List.mem_of_getElem? found)
      rw [kept] at dropped
      contradiction

variable {h marking : Heap} {id : ObjId} {i : Nat} {f : UInt8}

namespace Marks

variable (sound : h.Sound) (marks : Marks h marking)

include sound marks

/-- The three flags of a mark phase. -/
theorem flag_cases (slot : marking.flags[i]? = some f) :
    (f = MARKED ∧ h.flags[i]? = some 0) ∨ (f = 0 ∧ h.flags[i]? = some 0) ∨
      f = FREE ∧ h.flags[i]? = some FREE := by
  rcases marks.flagged i with same | ⟨unflagged, marked⟩
  · rw [same] at slot
    rcases sound.unmarked f (List.mem_of_getElem? slot) with rfl | rfl
    · exact Or.inr (Or.inl ⟨rfl, slot⟩)
    · exact Or.inr (Or.inr ⟨rfl, slot⟩)
  · rw [marked] at slot
    cases slot
    exact Or.inl ⟨rfl, unflagged⟩

/-- The doomed slots are the live ones that were not marked. -/
theorem doomed_iff :
    (∃ f, marking.flags[i]? = some f ∧ Doomed f) ↔
      h.Live ⟨i⟩ ∧ ¬marking.isMarked ⟨i⟩ = true := by
  rw [sound.live_iff]
  unfold Heap.isMarked
  constructor
  · rintro ⟨f, slot, doomed⟩
    rcases marks.flag_cases sound slot with
      ⟨rfl, _⟩ | ⟨rfl, live⟩ | ⟨rfl, _⟩
    · exact absurd doomed.1 (by decide)
    · exact ⟨live, by simp [slot]⟩
    · exact absurd doomed.2 (by decide)
  · rintro ⟨live, unmarked⟩
    have inside := (List.getElem?_eq_some_iff.mp live).1
    rw [← marks.sized] at inside
    have slot := List.getElem?_eq_getElem inside
    generalize marking.flags[i] = f at slot
    refine ⟨f, slot, ?_⟩
    rcases marks.flag_cases sound slot with
      ⟨rfl, _⟩ | ⟨rfl, _⟩ | ⟨rfl, free⟩
    · simp [slot] at unmarked
    · exact ⟨by decide, by decide⟩
    · rw [live, Option.some.injEq] at free
      exact absurd free.symm free_ne_zero

/-- After the sweep the marked slots have no flag and the others are free. -/
theorem swept_flag :
    (sweepLoop marking.objs marking.flags).2.1[i]? =
      marking.flags[i]?.map fun f => if f = MARKED then 0 else FREE := by
  have inside := marks.sized.trans (sound.sized.trans
    (congrArg List.length marks.objs.symm))
  rw [sweepLoop_flags, List.getElem?_zipWith]
  cases slot : marking.flags[i]? with
  | none => cases marking.objs[i]? <;> rfl
  | some f =>
      have bound := (List.getElem?_eq_some_iff.mp slot).1
      rw [inside] at bound
      rw [List.getElem?_eq_getElem bound]
      rcases marks.flag_cases sound slot with
        ⟨rfl, _⟩ | ⟨rfl, _⟩ | ⟨rfl, _⟩ <;>
        simp [sweepSlot] <;> decide

omit sound in
/-- The sweep leaves a marked object as it was. -/
theorem swept_object
    (marked : marking.flags[i]? = some MARKED) :
    (sweepLoop marking.objs marking.flags).1[i]? = h.objs[i]? := by
  rw [sweepLoop_objs, List.getElem?_zipWith, marked, marks.objs]
  cases h.objs[i]? with
  | none => rfl
  | some o => simp [sweepSlot]

theorem marked_iff :
    marking.isMarked ⟨i⟩ = true ↔ marking.flags[i]? = some MARKED := by
  unfold Heap.isMarked
  cases slot : marking.flags[i]? with
  | none => simp
  | some f =>
      rcases marks.flag_cases sound slot with
        ⟨rfl, _⟩ | ⟨rfl, _⟩ | ⟨rfl, _⟩ <;> simp <;> decide

end Marks

/-! ## The result of a collection -/

namespace Heap

/-- The free list names the free slots, the highest first. -/
structure FreeListed (h : Heap) : Prop where
  sized : h.flags.length = h.objs.length
  descending : h.free.Pairwise (· > ·)
  listed : ∀ i, i ∈ h.free ↔ i < h.objs.length ∧ ¬h.Live ⟨i⟩

/-- Put objects in the heap one after another. -/
def allocAll (h : Heap) : List HeapObject → List ObjId × Heap
  | [] => ([], h)
  | o :: os =>
      let (id, h) := h.alloc o
      let (ids, h) := h.allocAll os
      (id :: ids, h)

end Heap

/-- What a collection of `h` from roots leaves, and how many slots it freed. -/
structure Collected
    (roots : ObjId → Prop)
    (h after : Heap)
    (freed : Nat) : Prop where
  live : ∀ id, after.Live id ↔ Reachable h.referencesAt roots id
  kept : ∀ id, Reachable h.referencesAt roots id →
    after.objs[id.index]? = h.objs[id.index]?
  /-- Each unreachable object was freed once, and handed to the host if it was
  one of the host's. -/
  victims : ∃ victims : List Nat, victims.Pairwise (· < ·) ∧
    (∀ i, i ∈ victims ↔
      h.Live ⟨i⟩ ∧ ¬Reachable h.referencesAt roots ⟨i⟩) ∧
    after.freedData =
      h.freedData ++ victims.filterMap (fun i => h.objs[i]?.bind hostData) ∧
    freed = victims.length
  sound : after.Sound
  /-- The table ends with a live slot. -/
  trimmed : ∀ f, after.flags.getLast? = some f → f = 0
  freeListed : after.FreeListed

/-- The free slots of a table. -/
theorem mem_free_iff (flags : List UInt8) (len : Nat) :
    (i ∈ (List.range len).reverse.filter fun i =>
      (flags[i]?.getD 0) &&& FREE ≠ 0) ↔
      i < len ∧ ∃ f, flags[i]? = some f ∧ f &&& FREE ≠ 0 := by
  rw [List.mem_filter, List.mem_reverse, List.mem_range]
  cases slot : flags[i]? <;> simp

namespace Marks

variable (sound : h.Sound) (marks : Marks h marking)

include sound marks

theorem sweep_flag (i : Nat) :
    (sweep marking).1.flags[i]? = some 0 ↔ marking.isMarked ⟨i⟩ = true := by
  rw [marks.marked_iff sound]
  refine (getElem?_rdropWhile _ _ i (by decide)).trans ?_
  rw [marks.swept_flag sound]
  cases slot : marking.flags[i]? with
  | none => simp
  | some f => by_cases isMarked : f = MARKED <;> simp [isMarked]

theorem sweep_unmarked : ∀ f ∈ (sweep marking).1.flags, f = 0 ∨ f = FREE := by
  intro f held
  have within := (List.rdropWhile_prefix _ _).subset held
  obtain ⟨i, slot⟩ := List.mem_iff_getElem?.mp within
  rw [marks.swept_flag sound] at slot
  obtain ⟨g, _, rfl⟩ := Option.map_eq_some_iff.mp slot
  by_cases isMarked : g = MARKED <;> simp [isMarked]

omit sound marks in
theorem sweep_sized (marking : Heap) :
    (sweep marking).1.flags.length = (sweep marking).1.objs.length := by
  have short := (List.rdropWhile_prefix (fun f => decide (f &&& FREE ≠ 0))
    (sweepLoop marking.objs marking.flags).2.1).length_le
  have whole : (sweepLoop marking.objs marking.flags).2.1.length =
      (sweepLoop marking.objs marking.flags).1.length := by
    rw [sweepLoop_flags, sweepLoop_objs, List.length_zipWith,
      List.length_zipWith]
  rw [whole] at short
  unfold sweep
  rw [List.length_take, Nat.min_eq_left short]

theorem sweep_live (id : ObjId) :
    (sweep marking).1.Live id ↔ marking.isMarked id = true := by
  rw [Heap.live_iff _ (marks.sweep_unmarked sound)]
  exact marks.sweep_flag sound id.index

theorem sweep_kept (marked : marking.isMarked id = true) :
    (sweep marking).1.objs[id.index]? = h.objs[id.index]? := by
  have flag := (marks.sweep_flag sound id.index).mpr marked
  have inside := (List.getElem?_eq_some_iff.mp flag).1
  rw [← marks.swept_object ((marks.marked_iff sound).mp marked)]
  exact List.getElem?_take_of_lt inside

theorem sweep_trimmed
    (last : (sweep marking).1.flags.getLast? = some f) : f = 0 := by
  rcases marks.sweep_unmarked sound f (List.mem_of_getLast? last) with
    zero | rfl
  · exact zero
  · have nonempty : (sweep marking).1.flags ≠ [] := by
      intro empty
      simp [empty] at last
    have kept := List.rdropWhile_last_not
      (fun f => decide (f &&& FREE ≠ 0)) _ nonempty
    rw [List.getLast?_eq_some_getLast nonempty, Option.some.injEq] at last
    exact absurd (congrArg (fun f => decide (f &&& FREE ≠ 0)) last) (by
      intro same
      exact kept (same.trans (by decide)))

theorem sweep_freeListed : (sweep marking).1.FreeListed where
  sized := sweep_sized marking
  descending := by
    apply List.Pairwise.filter
    rw [List.pairwise_reverse]
    exact List.pairwise_lt_range
  listed := by
    intro i
    refine (mem_free_iff (sweep marking).1.flags _).trans ?_
    rw [Heap.live_iff _ (marks.sweep_unmarked sound),
      ← sweep_sized marking]
    refine and_congr_right fun inside => ?_
    obtain ⟨f, slot⟩ : ∃ f, (sweep marking).1.flags[i]? = some f :=
      ⟨_, List.getElem?_eq_getElem inside⟩
    rw [slot]
    rcases marks.sweep_unmarked sound f (List.mem_of_getElem? slot) with
      rfl | rfl <;> simp

end Marks

/-- Sweeping after a complete mark phase. -/
theorem sweep_collects
    (sound : h.Sound)
    (marks : Marks h marking)
    (marked : ∀ id, marking.isMarked id = true ↔
      Reachable h.referencesAt roots id) :
    Collected roots h (sweep marking).1 (sweep marking).2 := by
  have live : ∀ id, (sweep marking).1.Live id ↔
      Reachable h.referencesAt roots id := fun id =>
    (marks.sweep_live sound id).trans (marked id)
  have kept : ∀ id, Reachable h.referencesAt roots id →
      (sweep marking).1.objs[id.index]? = h.objs[id.index]? := fun id reached =>
    marks.sweep_kept sound ((marked id).mpr reached)
  have sized : marking.flags.length = marking.objs.length := by
    rw [marks.sized, sound.sized, marks.objs]
  refine ⟨live, kept, ?_, ?_, ?_, marks.sweep_freeListed sound⟩
  · obtain ⟨victims, ascending, same, data, freed⟩ :=
      sweepLoop_victims marking.objs marking.flags sized
    refine ⟨victims, ascending, ?_, ?_, freed⟩
    · intro i
      rw [same i, marks.doomed_iff sound, marked]
    · rw [← marks.freedData, ← marks.objs, ← data]
      rfl
  · refine ⟨Marks.sweep_sized marking, marks.sweep_unmarked sound, ?_⟩
    intro id isLive r refers
    have reached := (live id).mp isLive
    rw [live]
    apply Reachable.step reached
    unfold Heap.referencesAt at refers ⊢
    rwa [kept id reached] at refers
  · intro f last
    exact marks.sweep_trimmed sound last

/-! ## Allocation -/

namespace Heap

/-- What allocating in a heap with a free list does: the object goes to the
lowest slot that is not live, and every other slot stays. -/
structure Allocated (h after : Heap) (o : HeapObject) (id : ObjId) : Prop where
  fresh : ¬h.Live id
  lowest : ∀ n, ¬h.Live n → id.index ≤ n.index
  holds : after.objs[id.index]? = some o
  live : ∀ n, after.Live n ↔ h.Live n ∨ n = id
  kept : ∀ n, h.Live n → after.objs[n.index]? = h.objs[n.index]?
  freeListed : after.FreeListed

/-- A slot past the end is not live. -/
theorem live_lt (sized : h.flags.length = h.objs.length) (live : h.Live id) :
    id.index < h.objs.length := by
  rw [← sized]
  by_contra outside
  simp [Live, isFree, List.getElem?_eq_none (Nat.le_of_not_lt outside)] at live

/-- An object put in a free slot. -/
theorem alloc_reused
    (listed : h.FreeListed)
    (o : HeapObject)
    (last : h.free.getLast? = some i) :
    Allocated h { h with
      free := h.free.dropLast
      flags := h.flags.set i 0
      objs := h.objs.set i o } o ⟨i⟩ := by
  have whole := List.dropLast_append_getLast? i last
  have descending := listed.descending
  rw [← whole, List.pairwise_append] at descending
  obtain ⟨shorter, _, above⟩ := descending
  have member : ∀ j, j ∈ h.free ↔ j ∈ h.free.dropLast ∨ j = i := by
    intro j
    rw [← whole]
    simp
  obtain ⟨inside, free⟩ := (listed.listed i).mp ((member i).mpr (Or.inr rfl))
  have flagged : i < h.flags.length := listed.sized ▸ inside
  have live : ∀ n : ObjId,
      Live { h with
        free := h.free.dropLast
        flags := h.flags.set i 0
        objs := h.objs.set i o } n ↔ h.Live n ∨ n = ⟨i⟩ := by
    rintro ⟨n⟩
    by_cases same : n = i
    · simp [Live, isFree, same, flagged]
    · simp [Live, isFree, same, List.getElem?_set_ne (Ne.symm same)]
  refine ⟨free, ?_, ?_, live, ?_, ?_⟩
  · intro n dead
    by_cases within : n.index < h.objs.length
    · rcases (member _).mp ((listed.listed n.index).mpr ⟨within, dead⟩) with
        earlier | same
      · exact (above _ earlier i List.mem_cons_self).le
      · exact same.ge
    · exact inside.le.trans (Nat.le_of_not_lt within)
  · simp [inside]
  · intro n isLive
    have other : i ≠ n.index := by
      rintro rfl
      exact free isLive
    exact List.getElem?_set_ne other
  · refine ⟨by simpa using listed.sized, shorter, ?_⟩
    intro j
    rw [live, List.length_set]
    have apart : j ∈ h.free.dropLast → j ≠ i := fun earlier =>
      (above _ earlier i List.mem_cons_self).ne'
    have named := (member j).symm.trans (listed.listed j)
    simp only [ObjId.mk.injEq, not_or]
    constructor
    · intro earlier
      obtain ⟨within, dead⟩ := named.mp (Or.inl earlier)
      exact ⟨within, dead, apart earlier⟩
    · rintro ⟨within, dead, other⟩
      exact (named.mpr ⟨within, dead⟩).resolve_right other

/-- An object put in a new slot. -/
theorem alloc_appended
    (listed : h.FreeListed)
    (o : HeapObject)
    (full : h.free = []) :
    Allocated h { h with
      objs := h.objs ++ [o]
      flags := h.flags ++ [0] } o ⟨h.objs.length⟩ := by
  have everyLive : ∀ n : ObjId, n.index < h.objs.length → h.Live n := by
    intro n within
    by_contra dead
    have member := (listed.listed n.index).mpr ⟨within, dead⟩
    rw [full] at member
    exact absurd member List.not_mem_nil
  have live : ∀ n : ObjId,
      Live { h with
        objs := h.objs ++ [o]
        flags := h.flags ++ [0] } n ↔ h.Live n ∨ n = ⟨h.objs.length⟩ := by
    rintro ⟨n⟩
    rcases Nat.lt_trichotomy n h.objs.length with within | same | outside
    · have flagged : n < h.flags.length := listed.sized ▸ within
      have other : n ≠ h.objs.length := within.ne
      simp [Live, isFree, List.getElem?_append_left flagged, other]
    · simp [Live, isFree, same, ← listed.sized]
    · have past : h.flags.length + 1 ≤ n := by
        rw [listed.sized]
        exact outside
      have gone : h.flags[n]? = none := List.getElem?_eq_none (by omega)
      have goneLater : (h.flags ++ [0])[n]? = none :=
        List.getElem?_eq_none (by simpa using past)
      simp [Live, isFree, gone, goneLater, outside.ne']
  refine ⟨?_, ?_, by simp, live, ?_, ?_⟩
  · intro held
    exact absurd (live_lt listed.sized held) (lt_irrefl _)
  · intro n dead
    by_contra below
    exact dead (everyLive n (Nat.lt_of_not_le below))
  · intro n held
    exact List.getElem?_append_left (live_lt listed.sized held)
  · refine ⟨by simpa using listed.sized, listed.descending, ?_⟩
    intro j
    rw [live, full]
    simp only [List.not_mem_nil, List.length_append, List.length_singleton,
      ObjId.mk.injEq, not_or, false_iff, not_and]
    intro within dead other
    exact dead (everyLive ⟨j⟩ (by change j < _; omega))

theorem alloc_allocated
    (listed : h.FreeListed)
    (o : HeapObject) : Allocated h (h.alloc o).2 o (h.alloc o).1 := by
  unfold alloc
  cases last : h.free.getLast? with
  | some i => exact alloc_reused listed o last
  | none => exact alloc_appended listed o (List.getLast?_eq_none_iff.mp last)

/-- Objects allocated one after another get different slots, none of which was
live, and leave what was live alone. -/
def AllocatesFresh (h : Heap) : Prop :=
  ∀ os, (h.allocAll os).1.Nodup ∧ (∀ id ∈ (h.allocAll os).1, ¬h.Live id) ∧
    ∀ id, h.Live id →
      (h.allocAll os).2.Live id ∧
        (h.allocAll os).2.objs[id.index]? = h.objs[id.index]?

theorem FreeListed.allocatesFresh
    (listed : h.FreeListed) : h.AllocatesFresh := by
  intro os
  induction os generalizing h with
  | nil =>
      exact ⟨List.nodup_nil, by simp [allocAll], fun _ live => ⟨live, rfl⟩⟩
  | cons o os ih =>
      have first := alloc_allocated listed o
      obtain ⟨distinct, fresh, kept⟩ := ih first.freeListed
      have stays : ∀ n, h.Live n → (h.alloc o).2.Live n := fun n live =>
        (first.live n).mpr (Or.inl live)
      refine ⟨List.nodup_cons.mpr ⟨?_, distinct⟩, ?_, ?_⟩
      · intro again
        exact fresh _ again ((first.live _).mpr (Or.inr rfl))
      · intro n member
        rcases List.mem_cons.mp member with rfl | later
        · exact first.fresh
        · exact fun live => fresh n later (stays n live)
      · intro n live
        obtain ⟨later, same⟩ := kept n (stays n live)
        exact ⟨later, same.trans (first.kept n live)⟩

end Heap

/-- An array that holds itself, a host object nobody refers to, a free slot and
a string. -/
def exampleHeap : Heap :=
  { objs := [
      { inert with classId := NO_CLASS, kind := .array [.obj ⟨0⟩, .obj ⟨3⟩] },
      { inert with classId := ⟨0⟩, kind := .data 7 9 },
      inert,
      { inert with classId := ⟨0⟩, kind := .string [97] }]
    flags := [0, 0, FREE, 0]
    free := [2]
    freedData := [] }

theorem exampleHeap_sound : exampleHeap.Sound where
  sized := rfl
  unmarked := by simp [exampleHeap]
  closed := by
    rintro ⟨i⟩ live r refers
    have named : r = ⟨0⟩ ∨ r = ⟨3⟩ := by
      match i with
      | 0 | 1 | 2 | 3 =>
          simp [Heap.referencesAt, exampleHeap, references, kindReferences,
            ofValue, inert, NO_CLASS] at refers
          simp [refers]
      | i + 4 => simp [Heap.referencesAt, exampleHeap] at refers
    rcases named with rfl | rfl <;> rfl

end SabiRuby.Collector
