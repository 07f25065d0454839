import SabiRuby.HashTable.Index

/-!
# The representation invariant of a Hash

What the bookkeeping of a Hash says about its entries, for any assignment of
hash codes to keys, and how each operation on the storage keeps it.
-/

namespace SabiRuby.HashTable

open Library HashData

/-- The entries have ascending slots below the used count, which fits the
entry array. -/
structure Storage (h : HashData) : Prop where
  /-- Every entry has a slot. -/
  slotsLength : h.slots.length = h.entries.length
  /-- The slots ascend. -/
  ascending : h.slots.Pairwise (· < ·)
  /-- Every slot is a used one. -/
  slotsBound : ∀ slot ∈ h.slots, slot < h.nUsed
  /-- The used slots fit. -/
  usedBound : h.nUsed ≤ h.eaCapa
  /-- The capacity is one the source can ask for. -/
  capaBound : h.eaCapa ≤ EA_MAX_CAPA

/-- The index of a Hash holds its entries and has room. -/
structure Indexed (code : Value → Nat) (h : HashData) : Prop where
  /-- The smallest width. -/
  widthLow : 5 ≤ h.ibBit
  /-- The largest width. -/
  widthHigh : h.ibBit ≤ 31
  /-- The number of buckets is the power of two of the width. -/
  bucketCount : h.ib.length = 2 ^ h.ibBit
  /-- Every entry is reached from its code. -/
  indexes : Indexes (probeAt h.mask) h.ib
    (h.entries.map fun entry => code entry.1)
  /-- Every used slot has used one bucket. -/
  used : usedBuckets h.ib = h.nUsed
  /-- At least two buckets are empty. -/
  room : h.nUsed + 2 ≤ 2 ^ h.ibBit
  /-- The entries take at most three quarters of the buckets. -/
  load : 4 * h.entries.length ≤ 3 * 2 ^ h.ibBit

/-- The representation invariant. -/
structure Representation (code : Value → Nat) (h : HashData) : Prop
    extends Storage h where
  /-- A Hash without an index has no buckets and a small entry array. -/
  small : h.isHt = false → h.ib = [] ∧ h.eaCapa ≤ AR_MAX_SIZE
  /-- A Hash with an index keeps it. -/
  indexed : h.isHt = true → Indexed code h

/-- An indexed Hash that has room for one more entry. -/
structure Ready (code : Value → Nat) (h : HashData) : Prop
    extends Representation code h where
  /-- The Hash has an index. -/
  hasIndex : h.isHt = true
  /-- Three buckets are empty. -/
  roomForOne : h.nUsed + 3 ≤ 2 ^ h.ibBit
  /-- One more entry keeps the load. -/
  loadForOne : 4 * (h.entries.length + 1) ≤ 3 * 2 ^ h.ibBit

theorem isHt_iff (h : HashData) : h.isHt = true ↔ h.ibBit ≠ 0 := by
  simp [isHt]

theorem not_isHt_iff (h : HashData) : h.isHt = false ↔ h.ibBit = 0 := by
  simp [isHt]

/-- Ascending numbers below a bound are at most as many as the bound. -/
theorem length_le_of_ascending
    {numbers : List Nat}
    (ascending : numbers.Pairwise (· < ·))
    (bounded : ∀ number ∈ numbers, number < bound) :
    numbers.length ≤ bound := by
  have distinct : numbers.Nodup := ascending.imp fun less => Nat.ne_of_lt less
  have inside : numbers ⊆ List.range bound := by
    intro number member
    exact List.mem_range.mpr (bounded number member)
  simpa using (distinct.subperm inside).length_le

theorem Storage.length_le_nUsed
    {h : HashData} (storage : Storage h) :
    h.entries.length ≤ h.nUsed := by
  rw [← storage.slotsLength]
  exact length_le_of_ascending storage.ascending storage.slotsBound

theorem Storage.length_lt (storage : Storage h) :
    h.entries.length < 2 ^ 31 := by
  have entries := storage.length_le_nUsed
  have used := storage.usedBound
  have capa := storage.capaBound
  unfold EA_MAX_CAPA EA_N_RESERVED_INDICES at capa
  omega

theorem Storage.u32_length (storage : Storage h) :
    u32 h.entries.length = h.entries.length :=
  u32_of_lt (by have := storage.length_lt; omega)

theorem mask_of_le (small : h.ibBit ≤ 31) :
    mask h = 2 ^ h.ibBit - 1 := by
  rw [mask, shiftOne_of_lt (by omega)]

theorem Indexed.mask_eq (indexed : Indexed code h) :
    h.mask = 2 ^ h.ibBit - 1 :=
  mask_of_le indexed.widthHigh

theorem Indexed.mask_succ (indexed : Indexed code h) :
    h.mask + 1 = h.ib.length := by
  rw [indexed.mask_eq, indexed.bucketCount]
  exact Nat.sub_add_cancel (Nat.two_pow_pos _)

theorem Indexed.complete (indexed : Indexed code h) :
    CompleteProbe (probeAt h.mask) h.ib.length := by
  rw [indexed.mask_eq, indexed.bucketCount]
  exact probeAt_complete indexed.widthHigh

theorem Indexed.roomy (indexed : Indexed code h) :
    usedBuckets h.ib < h.ib.length := by
  rw [indexed.used, indexed.bucketCount]
  have := indexed.room
  omega

theorem Indexed.width_large (indexed : Indexed code h) :
    32 ≤ 2 ^ h.ibBit := by
  have grown := Nat.pow_le_pow_right (show 0 < 2 by omega) indexed.widthLow
  omega

/-- Only the codes of the stored keys matter. -/
theorem Representation.congr
    (rep : Representation code h)
    (agree : ∀ entry ∈ h.entries, code entry.1 = other entry.1) :
    Representation other h where
  toStorage := rep.toStorage
  small := rep.small
  indexed := by
    intro hasIndex
    have index := rep.indexed hasIndex
    refine ⟨index.widthLow, index.widthHigh, index.bucketCount, ?_,
      index.used, index.room, index.load⟩
    have same : h.entries.map (fun entry => other entry.1) =
        h.entries.map fun entry => code entry.1 :=
      List.map_congr_left fun entry member => (agree entry member).symm
    rw [same]
    exact index.indexes

/-! ## Tables that start empty -/

theorem representation_initial (code : Value → Nat) :
    Representation code initial where
  slotsLength := rfl
  ascending := List.Pairwise.nil
  slotsBound := by simp [initial]
  usedBound := Nat.le_refl _
  capaBound := Nat.zero_le _
  small := fun _ => ⟨rfl, Nat.zero_le _⟩
  indexed := by simp [isHt, initial]

/-- Empty buckets index a Hash without entries. -/
theorem indexed_of_empty
    (widthLow : 5 ≤ h.ibBit)
    (widthHigh : h.ibBit ≤ 31)
    (buckets : h.ib = List.replicate (2 ^ h.ibBit) .empty)
    (noEntries : h.entries = [])
    (noneUsed : h.nUsed = 0) :
    Indexed code h where
  widthLow := widthLow
  widthHigh := widthHigh
  bucketCount := by simp [buckets]
  indexes := by
    rw [buckets, noEntries]
    exact Indexes.replicate_empty _ _
  used := by simp [buckets, noneUsed]
  room := by
    have := Nat.pow_le_pow_right (show 0 < 2 by omega) widthLow
    omega
  load := by simp [noEntries]

theorem representation_withCapa (code : Value → Nat) (capa : Nat) :
    Representation code (withCapa capa) := by
  unfold withCapa
  split
  · exact representation_initial code
  · simp only
    split
    · rename_i large
      obtain ⟨widthLow, widthHigh⟩ := ibBitFor_range large
      refine ⟨⟨rfl, List.Pairwise.nil, by simp [htReset,
          initial], Nat.zero_le _, Nat.min_le_right _ _⟩, ?_, ?_⟩
      · intro noIndex
        have := (not_isHt_iff _).mp noIndex
        simp only [htReset] at this
        omega
      · intro _
        exact indexed_of_empty widthLow widthHigh rfl rfl rfl
    · rename_i fits
      refine ⟨⟨rfl, List.Pairwise.nil, by simp [initial],
          Nat.zero_le _, Nat.min_le_right _ _⟩, ?_, ?_⟩
      · intro _
        have atMost := Nat.not_lt.mp fits
        exact ⟨rfl, atMost⟩
      · simp [isHt, initial]

theorem representation_clear (code : Value → Nat) (h : HashData) :
    Representation code h.clear where
  slotsLength := rfl
  ascending := List.Pairwise.nil
  slotsBound := by simp [clear]
  usedBound := Nat.le_refl _
  capaBound := Nat.zero_le _
  small := fun _ => ⟨rfl, Nat.zero_le _⟩
  indexed := by simp [isHt, clear]

/-- The invariant does not read the epoch and the default. -/
theorem representation_replaceTable
    (other : Representation code source) :
    Representation code (replaceTable h source) :=
  ⟨⟨other.slotsLength, other.ascending, other.slotsBound, other.usedBound,
    other.capaBound⟩, other.small, fun isHt =>
      let held := other.indexed isHt
      ⟨held.widthLow, held.widthHigh, held.bucketCount, held.indexes,
        held.used, held.room, held.load⟩⟩

/-! ## Operations that keep the entries -/

theorem storage_compress (storage : Storage h) : Storage h.compress where
  slotsLength := by simp [compress, storage.slotsLength]
  ascending := List.pairwise_lt_range
  slotsBound := by
    simp [compress, storage.slotsLength, storage.u32_length]
  usedBound := by
    have := storage.length_le_nUsed
    have := storage.usedBound
    simp only [compress, storage.u32_length]
    omega
  capaBound := storage.capaBound

@[simp] theorem compress_entries (h : HashData) :
    h.compress.entries = h.entries := rfl

theorem Storage.compress_nUsed (storage : Storage h) :
    h.compress.nUsed = h.entries.length :=
  storage.u32_length

/-- A new capacity that holds the used slots keeps the storage. -/
theorem storage_adjustEa
    (storage : Storage h)
    (fits : h.nUsed ≤ eaNextCapaFor size limit)
    (bounded : limit ≤ EA_MAX_CAPA) :
    Storage (h.adjustEa size limit) where
  slotsLength := storage.slotsLength
  ascending := storage.ascending
  slotsBound := storage.slotsBound
  usedBound := fits
  capaBound := by
    show eaNextCapaFor size limit ≤ EA_MAX_CAPA
    rcases eaNextCapaFor_le size limit with atMost | least
    · omega
    · rw [least]
      decide

/-- A small Hash without an index satisfies the invariant. -/
theorem representation_of_small
    (storage : Storage h)
    (noIndex : h.ibBit = 0)
    (noBuckets : h.ib = [])
    (capa : h.eaCapa ≤ AR_MAX_SIZE) :
    Representation code h where
  toStorage := storage
  small := fun _ => ⟨noBuckets, capa⟩
  indexed := by simp [isHt, noIndex]

theorem eaNextCapaFor_ar (size : Nat) :
    eaNextCapaFor size AR_MAX_SIZE ≤ AR_MAX_SIZE := by
  rcases eaNextCapaFor_le size AR_MAX_SIZE with atMost | least
  · exact atMost
  · rw [least]
    decide

/-- Dropping the index of at most sixteen entries keeps the invariant. -/
theorem representation_toAr
    (storage : Storage h)
    (few : h.entries.length ≤ AR_MAX_SIZE) :
    Representation code h.toAr := by
  have compressed := storage_compress storage
  refine representation_of_small ?_ rfl rfl ?_
  · refine ⟨compressed.slotsLength, compressed.ascending,
      compressed.slotsBound, ?_, ?_⟩
    · show h.compress.nUsed ≤ eaNextCapaFor (u32 h.entries.length) AR_MAX_SIZE
      rw [storage.compress_nUsed, storage.u32_length]
      exact le_eaNextCapaFor few
    · exact Nat.le_trans (eaNextCapaFor_ar _) (by decide)
  · exact eaNextCapaFor_ar _

/-- Changing the value of an entry changes no key. -/
theorem map_key_modify (entries : List Entry) (p : Nat) (value : Value) :
    (entries.modify p fun entry => (entry.1, value)).map (·.1) =
      entries.map (·.1) := by
  induction entries generalizing p with
  | nil => simp
  | cons entry entries ih =>
      cases p with
      | zero => simp
      | succ p => simp [ih]

theorem map_code_eq_of_map_key_eq
    {left right : List Entry}
    (code : Value → Nat)
    (sameKeys : left.map (·.1) = right.map (·.1)) :
    left.map (fun entry => code entry.1) =
      right.map (fun entry => code entry.1) := by
  have mapped := congrArg (List.map code) sameKeys
  rw [List.map_map, List.map_map] at mapped
  exact mapped

/-- The invariant reads the keys of the entries only. -/
theorem representation_setValueAt
    (rep : Representation code h) (p : Nat) (value : Value) :
    Representation code (h.setValueAt p value) := by
  have sameKeys := map_key_modify h.entries p value
  have sameLength : (h.setValueAt p value).entries.length =
      h.entries.length := by simp [setValueAt]
  refine ⟨⟨?_, rep.ascending, rep.slotsBound, rep.usedBound,
    rep.capaBound⟩, rep.small, ?_⟩
  · rw [sameLength]
    exact rep.slotsLength
  · intro isHt
    have held := rep.indexed isHt
    refine ⟨held.widthLow, held.widthHigh, held.bucketCount, ?_, held.used,
      held.room, ?_⟩
    · have codes := map_code_eq_of_map_key_eq code sameKeys
      exact codes ▸ held.indexes
    · rw [sameLength]
      exact held.load

/-! ## Removal -/

theorem removeEntry_eq
    {h : HashData}
    (slotsLength : h.slots.length = h.entries.length)
    (held : h.entries[p]? = some entry) :
    h.removeEntry p = some (entry, { h with
      entries := h.entries.eraseIdx p
      slots := h.slots.eraseIdx p
      ib := if h.isHt then h.ib.map (Bucket.vacate p) else h.ib }) := by
  have inside := (List.getElem?_eq_some_iff.mp held).1
  obtain ⟨slot, slotHeld⟩ : ∃ slot, h.slots[p]? = some slot :=
    ⟨_, List.getElem?_eq_getElem (slotsLength ▸ inside)⟩
  simp [removeEntry, held, slotHeld]

variable {h after : HashData}

/-- Removing an entry keeps the invariant. -/
theorem representation_removeEntry
    (rep : Representation code h)
    (removed : h.removeEntry p = some (entry, after)) :
    Representation code after ∧ h.entries[p]? = some entry ∧
      after.entries = h.entries.eraseIdx p := by
  have held : h.entries[p]? = some entry := by
    unfold removeEntry at removed
    split at removed <;> simp_all
  have inside := (List.getElem?_eq_some_iff.mp held).1
  rw [removeEntry_eq rep.slotsLength held] at removed
  simp only [Option.some.injEq, Prod.mk.injEq, true_and] at removed
  subst removed
  refine ⟨⟨⟨?_, ?_, ?_, rep.usedBound, rep.capaBound⟩, ?_, ?_⟩, held, rfl⟩
  · have slots := rep.slotsLength
    simp only [List.length_eraseIdx, slots]
  · exact rep.ascending.sublist (List.eraseIdx_sublist _ _)
  · intro slot member
    exact rep.slotsBound slot (List.mem_of_mem_eraseIdx member)
  · intro noIndex
    have before : h.isHt = false := noIndex
    simpa [before] using rep.small before
  · intro isHt
    have before : h.isHt = true := isHt
    have index := rep.indexed before
    have fewer : (h.entries.eraseIdx p).length ≤ h.entries.length := by
      rw [List.length_eraseIdx]
      split <;> omega
    simp only [before, if_true]
    refine ⟨index.widthLow, index.widthHigh, by
      simpa using index.bucketCount, ?_, ?_, index.room, ?_⟩
    · have place : p < (h.entries.map fun entry => code entry.1).length := by
        simpa using inside
      have erased := index.indexes.erase place
      rw [List.eraseIdx_map] at erased
      exact erased
    · rw [usedBuckets_map_vacate]
      exact index.used
    · have := index.load
      show 4 * (h.entries.eraseIdx p).length ≤ 3 * 2 ^ h.ibBit
      omega

/-! ## Room for one more entry -/

/-- Making room in a Hash without an index: either it is full with sixteen
entries and no hole, or it has a free slot. -/
theorem arMakeRoom_spec
    (rep : Representation code h)
    (noIndex : h.isHt = false)
    (made : h.arMakeRoom = (toHt, after)) :
    after.entries = h.entries ∧ after.ibBit = 0 ∧
      Representation code after ∧
      (toHt = true → after = h ∧ h.entries.length = AR_MAX_SIZE ∧
        h.nUsed = AR_MAX_SIZE) ∧
      (toHt = false → after.nUsed < after.eaCapa) := by
  have storage := rep.toStorage
  obtain ⟨noBuckets, capa⟩ := rep.small noIndex
  have width := (not_isHt_iff h).mp noIndex
  have entriesBound := storage.length_le_nUsed
  have usedBound := storage.usedBound
  have arLarge : AR_MAX_SIZE ≤ EA_MAX_CAPA := by decide
  unfold arMakeRoom at made
  simp only [storage.u32_length] at made
  split at made
  · rename_i full
    split at made
    · rename_i noHole
      split at made
      · rename_i sixteen
        obtain ⟨rfl, rfl⟩ := Prod.mk.inj made
        exact ⟨rfl, width, rep, fun _ => ⟨rfl, sixteen, by omega⟩, by simp⟩
      · rename_i fewer
        obtain ⟨rfl, rfl⟩ := Prod.mk.inj made
        have grows : h.entries.length <
            eaNextCapaFor h.entries.length AR_MAX_SIZE :=
          lt_eaNextCapaFor (by omega)
        refine ⟨rfl, width, representation_of_small
          (storage_adjustEa storage (by omega) arLarge) width noBuckets
          (eaNextCapaFor_ar _), by simp, fun _ => ?_⟩
        show h.nUsed < eaNextCapaFor h.entries.length AR_MAX_SIZE
        omega
    · rename_i hole
      obtain ⟨rfl, rfl⟩ := Prod.mk.inj made
      have smaller : min h.compress.eaCapa AR_MAX_SIZE = h.eaCapa :=
        Nat.min_eq_left capa
      have grows : h.entries.length <
          eaNextCapaFor h.entries.length h.eaCapa :=
        lt_eaNextCapaFor (by omega)
      have compressed := storage.compress_nUsed
      have bounded := storage.capaBound
      rw [smaller]
      refine ⟨rfl, width, representation_of_small
        (storage_adjustEa (storage_compress storage) (by omega) bounded)
        width noBuckets ?_, by simp, fun _ => ?_⟩
      · show eaNextCapaFor h.entries.length h.eaCapa ≤ AR_MAX_SIZE
        rcases eaNextCapaFor_le h.entries.length h.eaCapa with atMost | least
        · omega
        · rw [least]
          decide
      · show h.compress.nUsed < eaNextCapaFor h.entries.length h.eaCapa
        omega
  · rename_i notFull
    obtain ⟨rfl, rfl⟩ := Prod.mk.inj made
    exact ⟨rfl, width, rep, by simp, fun _ => by omega⟩

/-- Appending to a Hash without an index that has a free slot. -/
theorem representation_arPush
    (rep : Representation code h)
    (noIndex : h.isHt = false)
    (free : h.nUsed < h.eaCapa)
    (key value : Value) :
    Representation code (h.arPush key value) := by
  have storage := rep.toStorage
  obtain ⟨noBuckets, capa⟩ := rep.small noIndex
  have next : u32 (h.nUsed + 1) = h.nUsed + 1 := by
    refine u32_of_lt ?_
    unfold AR_MAX_SIZE at capa
    omega
  refine representation_of_small ⟨?_, ?_, ?_, ?_, storage.capaBound⟩
    ((not_isHt_iff h).mp noIndex) noBuckets capa
  · simp [arPush, storage.slotsLength]
  · refine List.pairwise_append.mpr
      ⟨storage.ascending, List.pairwise_singleton _ _, ?_⟩
    intro slot member last lastMember
    rw [List.mem_singleton.mp lastMember]
    exact storage.slotsBound slot member
  · intro slot member
    simp only [arPush, next]
    rcases List.mem_append.mp member with old | new
    · have := storage.slotsBound slot old
      omega
    · rw [List.mem_singleton.mp new]
      omega
  · simp only [arPush, next]
    omega

/-- What a store into an indexed Hash finds before its probe. -/
theorem htMakeRoom_spec
    (rep : Representation code h)
    (hasIndex : h.isHt = true)
    (made : h.htMakeRoom = (room, after)) :
    after.entries = h.entries ∧ Storage after ∧
      match room with
      | .fits => after = h ∧ Ready code h
      | .rebuild bit => after.nUsed = h.entries.length ∧
          4 * (h.entries.length + 1) ≤ 3 * 2 ^ bit ∧ 5 ≤ bit ∧
          (bit = h.ibBit ∨ bit = h.ibBit + 1 ∧
            3 * 2 ^ h.ibBit ≤ 4 * h.entries.length)
      | .toAr => after = h ∧ h.entries.length ≤ AR_MAX_SIZE := by
  have storage := rep.toStorage
  have index := rep.indexed hasIndex
  have large := index.width_large
  have low := index.widthLow
  have quarter := ibUpperBoundFor_of_le
    (show 2 ≤ h.ibBit by have := index.widthLow; omega)
  have compressed := storage_compress storage
  have compressedUsed := storage.compress_nUsed
  have entriesUsed := storage.length_le_nUsed
  have usedCapa := storage.usedBound
  have shrinks : h.entries.length ≠ h.nUsed →
      Storage (h.compress.adjustEa h.entries.length h.compress.eaCapa) := by
    intro hole
    refine storage_adjustEa compressed ?_ storage.capaBound
    rw [compressedUsed]
    exact le_eaNextCapaFor (Nat.le_trans entriesUsed usedCapa)
  have ready : h.nUsed + 3 ≤ 2 ^ h.ibBit →
      4 * (h.entries.length + 1) ≤ 3 * 2 ^ h.ibBit → Ready code h :=
    fun room load => ⟨rep, hasIndex, room, load⟩
  unfold htMakeRoom at made
  simp only [storage.u32_length,
    shiftOne_of_lt (show h.ibBit < 32 by have := index.widthHigh; omega),
    EA_N_RESERVED_INDICES] at made
  split at made
  · rename_i full
    obtain ⟨rfl, rfl⟩ := Prod.mk.inj made
    refine ⟨by split <;> rfl, by split <;> assumption, ?_, ?_, by omega,
      Or.inr ⟨rfl, by omega⟩⟩
    · split
      · rename_i same
        exact same.symm
      · exact compressedUsed
    · have := index.load
      rw [Nat.pow_succ]
      omega
  · split at made
    · rename_i hole
      split at made
      · obtain ⟨rfl, rfl⟩ := Prod.mk.inj made
        exact ⟨rfl, shrinks hole, compressedUsed, by omega, low,
          Or.inl rfl⟩
      · split at made
        · split at made
          · rename_i few
            obtain ⟨rfl, rfl⟩ := Prod.mk.inj made
            exact ⟨rfl, storage, rfl, few⟩
          · split at made
            · obtain ⟨rfl, rfl⟩ := Prod.mk.inj made
              exact ⟨rfl, shrinks hole, compressedUsed, by omega, low,
                Or.inl rfl⟩
            · obtain ⟨rfl, rfl⟩ := Prod.mk.inj made
              exact ⟨rfl, storage, rfl, ready (by omega) (by omega)⟩
        · obtain ⟨rfl, rfl⟩ := Prod.mk.inj made
          exact ⟨rfl, storage, rfl, ready (by omega) (by omega)⟩
    · obtain ⟨rfl, rfl⟩ := Prod.mk.inj made
      exact ⟨rfl, storage, rfl, ready (by omega) (by omega)⟩

/-- The entry array a push writes to: the same Hash with a free slot. -/
theorem htPush_capacity
    (storage : Storage h)
    (below : h.nUsed < EA_MAX_CAPA) :
    ∃ capa, (if h.nUsed = h.eaCapa then h.adjustEa h.nUsed EA_MAX_CAPA
        else h) = { h with eaCapa := capa } ∧
      h.nUsed < capa ∧ capa ≤ EA_MAX_CAPA := by
  have bounded := storage.usedBound
  split
  · refine ⟨_, rfl, lt_eaNextCapaFor below, ?_⟩
    rcases eaNextCapaFor_le h.nUsed EA_MAX_CAPA with atMost | least
    · exact atMost
    · rw [least]
      decide
  · exact ⟨h.eaCapa, rfl, by omega, storage.capaBound⟩

/-- Appending to an indexed Hash that has room, in the first empty bucket of the
probe of the key. -/
theorem representation_htPush
    (ready : Ready code h)
    (vacant : FirstEmpty (probeAt h.mask) h.ib (code key) b)
    (value : Value) :
    Representation code (h.htPush b key value) ∧
      (h.htPush b key value).entries = h.entries ++ [(key, value)] := by
  have storage := ready.toStorage
  have index := ready.indexed ready.hasIndex
  have room := ready.roomForOne
  have widest : 2 ^ h.ibBit ≤ 2 ^ 31 :=
    Nat.pow_le_pow_right (by omega) index.widthHigh
  have below : h.nUsed < EA_MAX_CAPA := by
    unfold EA_MAX_CAPA EA_N_RESERVED_INDICES
    omega
  have next : u32 (h.nUsed + 1) = h.nUsed + 1 := u32_of_lt (by omega)
  obtain ⟨capa, resized, free, bounded⟩ := htPush_capacity storage below
  obtain ⟨step, stepBound, met, empty, clear⟩ := vacant
  unfold htPush
  simp only [resized, next]
  refine ⟨⟨⟨?_, ?_, ?_, free, bounded⟩, ?_, ?_⟩, trivial⟩
  · simp [storage.slotsLength]
  · refine List.pairwise_append.mpr
      ⟨storage.ascending, List.pairwise_singleton _ _, ?_⟩
    intro slot member last lastMember
    rw [List.mem_singleton.mp lastMember]
    exact storage.slotsBound slot member
  · intro slot member
    rcases List.mem_append.mp member with old | new
    · have := storage.slotsBound slot old
      show slot < h.nUsed + 1
      omega
    · rw [List.mem_singleton.mp new]
      exact Nat.lt_succ_self _
  · intro noIndex
    have hasIndex : h.isHt = true := ready.hasIndex
    have contrary : h.isHt = false := noIndex
    simp [hasIndex] at contrary
  · intro _
    refine ⟨index.widthLow, index.widthHigh, by simpa using index.bucketCount,
      ?_, ?_, room, ?_⟩
    · have there : h.ib[probeAt h.mask (code key) step]? = some .empty :=
        met ▸ empty
      have inserted := index.indexes.insert stepBound (Or.inl there) clear
      rw [met, List.length_map] at inserted
      simp only [List.map_append, List.map_cons, List.map_nil]
      exact inserted
    · rw [usedBuckets_set_of_empty empty, index.used]
    · simpa using ready.loadForOne

/-! ## Rebuilding an index -/

/-- The index after the first `codes.length` entries were placed. -/
theorem placeAll_spec
    {h : HashData}
    (codes : List Nat)
    (maskEq : h.mask + 1 = h.ib.length)
    (complete : CompleteProbe (probeAt h.mask) h.ib.length)
    (indexes : Indexes (probeAt h.mask) h.ib placed)
    (used : usedBuckets h.ib = placed.length)
    (roomy : placed.length + codes.length ≤ h.ib.length) :
    ∃ ib, h.placeAll placed.length codes = some { h with ib := ib } ∧
      ib.length = h.ib.length ∧
      usedBuckets ib = placed.length + codes.length ∧
      Indexes (probeAt h.mask) ib (placed ++ codes) := by
  induction codes generalizing h placed with
  | nil =>
      exact ⟨h.ib, rfl, rfl, by simpa using used, by simpa using indexes⟩
  | cons code codes ih =>
      simp only [List.length_cons] at roomy
      obtain ⟨ib, placedOne, sameLength, usedOne, indexesOne⟩ :=
        place_spec maskEq complete indexes (by omega) code
      have onward := @ih (placed ++ [code])
        { h with ib := ib } (by rw [sameLength]; exact maskEq)
        (by rw [sameLength]; exact complete) indexesOne
        (by simp [usedOne, used])
        (by rw [sameLength, List.length_append, List.length_singleton]; omega)
      obtain ⟨final, placedAll, finalLength, finalUsed, finalIndexes⟩ := onward
      refine ⟨final, ?_, finalLength.trans sameLength, ?_, ?_⟩
      · simp only [placeAll, placedOne]
        rw [List.length_append, List.length_singleton] at placedAll
        exact placedAll
      · rw [finalUsed]
        simp
        omega
      · rw [List.append_assoc] at finalIndexes
        exact finalIndexes

/-- The table a rebuild starts from: empty buckets. -/
def rebuildBase (h : HashData) (bit : Nat) : HashData :=
  (h.htReset bit).setNUsed (u32 h.len)

@[simp] theorem rebuildBase_entries (h : HashData) (bit : Nat) :
    (rebuildBase h bit).entries = h.entries :=
  rfl

theorem rebuildBase_mask (h : HashData) (bit : Nat) :
    (rebuildBase h bit).mask = shiftOne bit - 1 :=
  rfl

theorem rebuildBase_ib (h : HashData) (bit : Nat) :
    (rebuildBase h bit).ib = List.replicate (2 ^ bit) .empty :=
  rfl

theorem rebuildBase_inside (h : HashData) (bit : Nat) :
    (rebuildBase h bit).mask < (rebuildBase h bit).ib.length := by
  have narrower : 2 ^ (bit % 32) ≤ 2 ^ bit :=
    Nat.pow_le_pow_right (by omega) (Nat.mod_le _ _)
  have positive := Nat.two_pow_pos (bit % 32)
  simp only [rebuildBase, mask, setNUsed, htReset,
    shiftOne, List.length_replicate]
  omega

/-- Placing the codes of all entries in an index of that many empty buckets
gives back the invariant. -/
theorem rebuilt_spec
    {h : HashData}
    (storage : Storage h)
    (noHole : h.nUsed = h.entries.length)
    (widthLow : 5 ≤ bit)
    (widthHigh : bit ≤ 31)
    (load : 4 * (h.entries.length + 1) ≤ 3 * 2 ^ bit) :
    ∃ after, (rebuildBase h bit).placeAll 0
        (h.entries.map fun entry => code entry.1) = some after ∧
      after.entries = h.entries ∧ after.nUsed = h.entries.length ∧
      Ready code after := by
  have large := Nat.pow_le_pow_right (show 0 < 2 by omega) widthLow
  have length : u32 h.len = h.nUsed := by
    rw [noHole]
    exact storage.u32_length
  have maskEq : (rebuildBase h bit).mask + 1 = 2 ^ bit := by
    show shiftOne bit - 1 + 1 = 2 ^ bit
    rw [shiftOne_of_lt (by omega)]
    omega
  have mask : (rebuildBase h bit).mask = 2 ^ bit - 1 := by
    omega
  have bucketCount : (rebuildBase h bit).ib.length = 2 ^ bit := by
    simp [rebuildBase, htReset, setNUsed]
  have codesLength : (h.entries.map fun entry => code entry.1).length =
      h.entries.length := by
    simp
  obtain ⟨ib, placed, sameLength, used, indexes⟩ :=
    placeAll_spec (h.entries.map fun entry => code entry.1)
      (maskEq.trans bucketCount.symm)
      (by rw [mask, bucketCount]; exact probeAt_complete widthHigh)
      (Indexes.replicate_empty _ _)
      (by simp [rebuildBase, htReset, setNUsed])
      (by
        rw [bucketCount, codesLength, List.length_nil]
        omega)
  have buckets : ib.length = 2 ^ bit := sameLength.trans bucketCount
  rw [List.nil_append] at indexes
  refine ⟨_, placed, rfl, length.trans noHole, ⟨⟨⟨storage.slotsLength,
    storage.ascending, ?_, ?_, storage.capaBound⟩, ?_, ?_⟩, ?_, ?_, load⟩⟩
  · show ∀ slot ∈ h.slots, slot < u32 h.len
    rw [length]
    exact storage.slotsBound
  · show u32 h.len ≤ h.eaCapa
    rw [length]
    exact storage.usedBound
  · intro noIndex
    have : bit = 0 := (not_isHt_iff _).mp noIndex
    omega
  · intro _
    refine ⟨widthLow, widthHigh, buckets, indexes, ?_, ?_, ?_⟩
    · show usedBuckets ib = u32 h.len
      rw [used, length, noHole]
      simp
    · show u32 h.len + 2 ≤ 2 ^ bit
      rw [length, noHole]
      omega
    · show 4 * h.entries.length ≤ 3 * 2 ^ bit
      omega
  · exact (isHt_iff _).mpr (show bit ≠ 0 by omega)
  · show u32 h.len + 3 ≤ 2 ^ bit
    rw [length, noHole]
    omega

/-- Placing reads no bucket out of range and changes nothing but the buckets. -/
theorem place_inRange
    (inside : h.mask < h.ib.length)
    (code p : Nat) :
    ∃ ib, h.place code p = some { h with ib := ib } ∧
      ib.length = h.ib.length ∧
      ∀ b q : Nat, ib[b]? = some (.live q) →
        h.ib[b]? = some (.live q) ∨ q = p := by
  rw [place, placeLoop_eq_scan h code p _ _ fun step =>
    Nat.lt_of_le_of_lt (probeAt_le _ _ _) inside]
  split
  · rename_i target _
    refine ⟨h.ib.set target (.live p), rfl, by simp, ?_⟩
    intro b q held
    rw [List.getElem?_set] at held
    split at held
    · right
      simp_all
    · exact Or.inl held
  · exact ⟨h.ib, rfl, rfl, fun b q held => Or.inl held⟩

/-- Placing codes one after another puts no other positions into buckets. -/
theorem placeAll_inRange
    (inside : h.mask < h.ib.length)
    (p : Nat)
    (codes : List Nat) :
    ∃ ib, h.placeAll p codes = some { h with ib := ib } ∧
      ib.length = h.ib.length ∧
      ∀ b q : Nat, ib[b]? = some (.live q) →
        h.ib[b]? = some (.live q) ∨ q < p + codes.length := by
  induction codes generalizing h p with
  | nil => exact ⟨h.ib, rfl, rfl, fun b q held => Or.inl held⟩
  | cons code codes ih =>
      obtain ⟨first, placed, sameLength, firstLive⟩ :=
        place_inRange inside code p
      obtain ⟨ib, placedAll, finalLength, live⟩ :=
        @ih { h with ib := first }
          (by rw [sameLength]; exact inside) (p + 1)
      refine ⟨ib, ?_, finalLength.trans sameLength, ?_⟩
      · simp only [placeAll, placed]
        exact placedAll
      · intro b q held
        rw [List.length_cons]
        rcases live b q held with before | bound
        · rcases firstLive b q before with old | rfl
          · exact Or.inl old
          · exact Or.inr (by omega)
        · exact Or.inr (by omega)

/-- With a mask of zero a taken bucket zero takes no position any more. -/
theorem placeAll_narrow
    {h : HashData}
    (narrow : h.mask = 0)
    (taken : h.ib[0]? = some (.live q))
    (p : Nat)
    (codes : List Nat) :
    h.placeAll p codes = some h := by
  induction codes generalizing p with
  | nil => rfl
  | cons code codes ih =>
      have first : probeAt h.mask code 0 = 0 := by
        have := probeAt_le h.mask code 0
        omega
      have kept : h.place code p = some h := by
        rw [place, narrow]
        unfold placeLoop
        simp [first, taken, placeLoop]
      simp only [placeAll, kept]
      exact ih (p + 1)

/-- An index whose width the shift wraps to one bucket has a mask of zero: of
all entries only the first gets into a bucket. -/
theorem placeAll_wide
    (h : HashData)
    (wide : shiftOne bit = 1)
    (code : Nat)
    (codes : List Nat) :
    (rebuildBase h bit).placeAll 0 (code :: codes) =
      some { rebuildBase h bit with
        ib := (rebuildBase h bit).ib.set 0 (.live 0) } := by
  have mask : (rebuildBase h bit).mask = 0 := by
    rw [rebuildBase_mask, wide]
  have first : probeAt (rebuildBase h bit).mask code 0 = 0 := by
    have := probeAt_le (rebuildBase h bit).mask code 0
    omega
  have there : (rebuildBase h bit).ib[0]? = some .empty := by
    rw [rebuildBase_ib, List.getElem?_replicate,
      if_pos (Nat.two_pow_pos bit)]
  have placed : (rebuildBase h bit).place code 0 =
      some { rebuildBase h bit with
        ib := (rebuildBase h bit).ib.set 0 (.live 0) } := by
    rw [place, mask]
    unfold placeLoop
    simp only [mask] at first
    simp only [mask, first, there]
  simp only [placeAll, placed]
  obtain ⟨inside, _⟩ := List.getElem?_eq_some_iff.mp there
  exact @placeAll_narrow 0 { rebuildBase h bit with
    ib := (rebuildBase h bit).ib.set 0 (.live 0) } mask
    (List.getElem?_set_self inside) 1 codes

/-! ## Searching -/

/-- The scan of an index for the one entry whose key satisfies a predicate. -/
def scanKeys (h : HashData) (code : Nat) (eql : Value → Bool) : Scan :=
  scan (probeAt h.mask) h.ib code
    (fun p => h.entries[p]?.any fun entry => eql entry.1) 0 (h.mask + 1)

/-- A scan for a key that determines its code, and that at most one entry has,
finds the entry or the first empty bucket. -/
theorem scanKeys_spec
    (index : Indexed code h)
    (coded : ∀ entry ∈ h.entries, eql entry.1 = true → code entry.1 = target)
    (only : h.entries.Pairwise fun first second =>
      eql first.1 = true → eql second.1 = false) :
    match h.entries.findIdx? fun entry => eql entry.1 with
    | some p => scanKeys h target eql = .found p
    | none => ∃ b, scanKeys h target eql = .vacant b ∧
        FirstEmpty (probeAt h.mask) h.ib target b := by
  unfold scanKeys
  rw [index.mask_succ]
  cases search : h.entries.findIdx? fun entry => eql entry.1 with
  | some p =>
      obtain ⟨bound, holds, before⟩ := List.findIdx?_eq_some_iff_getElem.mp search
      refine scan_eq_found index.complete index.indexes ?_ ?_ ?_
      · rw [List.getElem?_map, List.getElem?_eq_getElem bound, Option.map_some,
          coded _ (List.getElem_mem bound) holds]
      · simp [List.getElem?_eq_getElem bound, holds]
      · intro other matched
        have otherBound : other < h.entries.length := by
          by_contra past
          simp [List.getElem?_eq_none (Nat.not_lt.mp past)] at matched
        have otherHolds : eql h.entries[other].1 = true := by
          simpa [List.getElem?_eq_getElem otherBound] using matched
        rcases Nat.lt_trichotomy other p with earlier | same | later
        · exact absurd otherHolds (by simpa using before other earlier)
        · exact same
        · have clash := List.pairwise_iff_getElem.mp only p other bound
            otherBound later holds
          simp [otherHolds] at clash
  | none =>
      have nothing := List.findIdx?_eq_none_iff.mp search
      refine scan_eq_vacant index.complete
        (exists_empty_of_usedBuckets_lt index.roomy) ?_
      intro step position held
      cases here : h.entries[position]? with
      | none => rfl
      | some entry =>
          simpa using nothing entry (List.mem_of_getElem? here)

end SabiRuby.HashTable
