import SabiRuby.HashTable.Invariant

/-!
# What every table keeps

A weaker invariant than the representation: it bounds the lengths and keeps the
index inside the entries, but says nothing of which bucket an entry is found
in.  Keys that change the table while they are asked keep it, and it is enough
for every access to stay in range.
-/

namespace SabiRuby.HashTable

open Library

/-- The lengths of a table are bounded and its index points at entries. -/
structure WellFormed (h : HashData) : Prop where
  /-- Every entry has a slot. -/
  slotsLength : h.slots.length = h.entries.length
  /-- The entries fit the largest entry array. -/
  lengthBound : h.entries.length ≤ EA_MAX_CAPA
  /-- The used slots fit the largest entry array. -/
  usedBound : h.nUsed ≤ EA_MAX_CAPA
  /-- Without an index the used slots count the entries and fit. -/
  small : h.isHt = false → h.entries.length ≤ h.nUsed ∧
    h.nUsed ≤ h.eaCapa ∧ h.eaCapa ≤ AR_MAX_SIZE
  /-- The smallest width of an index. -/
  widthLow : h.isHt = true → 5 ≤ h.ibBit
  /-- The number of buckets is the power of two of the width. -/
  bucketCount : h.isHt = true → h.ib.length = 2 ^ h.ibBit
  /-- A bucket holds the position of an entry. -/
  inRange : h.isHt = true → ∀ b p : Nat,
    h.ib[b]? = some (.live p) → p < h.entries.length
  /-- Up to a width the entries take at most three quarters of the buckets. -/
  load : h.isHt = true → h.ibBit ≤ 30 →
    4 * h.entries.length ≤ 3 * 2 ^ h.ibBit
  /-- Past the largest width of a mask the used slots count the entries. -/
  wide : 32 ≤ h.ibBit → h.entries.length ≤ h.nUsed

/-- The tables agree on what the modification check reads but the first key. -/
structure SameShape (before after : HashData) : Prop where
  ibBit : after.ibBit = before.ibBit
  eaCapa : after.eaCapa = before.eaCapa
  length : after.entries.length = before.entries.length

theorem SameShape.refl (h : HashData) : SameShape h h := ⟨rfl, rfl, rfl⟩

theorem SameShape.trans
    (first : SameShape before middle)
    (second : SameShape middle after) :
    SameShape before after :=
  ⟨second.ibBit.trans first.ibBit, second.eaCapa.trans first.eaCapa,
    second.length.trans first.length⟩

theorem SameShape.isHt (shape : SameShape before after) :
    after.isHt = before.isHt := by
  unfold HashData.isHt
  rw [shape.ibBit]

theorem WellFormed.length_lt (wellFormed : WellFormed h) :
    h.entries.length < 2 ^ 32 :=
  Nat.lt_of_le_of_lt wellFormed.lengthBound (by decide)

theorem WellFormed.u32_length (wellFormed : WellFormed h) :
    u32 h.entries.length = h.entries.length :=
  u32_of_lt wellFormed.length_lt

theorem WellFormed.slotAt
    (wellFormed : WellFormed h)
    (inside : p < h.entries.length) :
    ∃ slot, h.slots[p]? = some slot :=
  ⟨_, List.getElem?_eq_getElem (wellFormed.slotsLength ▸ inside)⟩

theorem shiftOne_le_two_pow (bit : Nat) : shiftOne bit ≤ 2 ^ bit :=
  Nat.pow_le_pow_right Nat.two_pos (Nat.mod_le bit 32)

theorem WellFormed.mask_inside
    (wellFormed : WellFormed h)
    (hasIndex : h.isHt = true) :
    h.mask < h.ib.length := by
  have positive : 0 < shiftOne h.ibBit := Nat.two_pow_pos _
  have atMost := shiftOne_le_two_pow h.ibBit
  rw [wellFormed.bucketCount hasIndex]
  unfold HashData.mask
  omega

/-- The representation says more. -/
theorem Representation.wellFormed (rep : Representation code h) :
    WellFormed h where
  slotsLength := rep.slotsLength
  lengthBound := rep.length_le_nUsed.trans (rep.usedBound.trans rep.capaBound)
  usedBound := rep.usedBound.trans rep.capaBound
  small := fun noIndex =>
    ⟨rep.length_le_nUsed, rep.usedBound, (rep.small noIndex).2⟩
  widthLow := fun hasIndex => (rep.indexed hasIndex).widthLow
  bucketCount := fun hasIndex => (rep.indexed hasIndex).bucketCount
  inRange := by
    intro hasIndex b p held
    simpa using (rep.indexed hasIndex).indexes.bounded b p held
  load := fun hasIndex _ => (rep.indexed hasIndex).load
  wide := fun _ => rep.length_le_nUsed

theorem wellFormed_withCapa (capa : Nat) :
    WellFormed (HashData.withCapa capa) :=
  (representation_withCapa (fun _ => 0) capa).wellFormed

/-! ## Operations -/

theorem WellFormed.clear (h : HashData) : WellFormed h.clear :=
  (representation_clear (fun _ => 0) h).wellFormed

theorem WellFormed.replaceTable
    (h : HashData)
    (other : WellFormed table) :
    WellFormed (h.replaceTable table) :=
  ⟨other.slotsLength, other.lengthBound, other.usedBound, other.small,
    other.widthLow, other.bucketCount, other.inRange, other.load, other.wide⟩

section

variable (wellFormed : WellFormed h)
include wellFormed

theorem WellFormed.setValueAt
    (p : Nat)
    (value : Value) :
    WellFormed (h.setValueAt p value) := by
  have length : (h.setValueAt p value).entries.length = h.entries.length :=
    List.length_modify _ _ _
  constructor
  · rw [length]
    exact wellFormed.slotsLength
  · rw [length]
    exact wellFormed.lengthBound
  · exact wellFormed.usedBound
  · rw [length]
    exact wellFormed.small
  · exact wellFormed.widthLow
  · exact wellFormed.bucketCount
  · rw [length]
    exact wellFormed.inRange
  · rw [length]
    exact wellFormed.load
  · rw [length]
    exact wellFormed.wide

/-- Emptying the index of a table at a width keeps the lengths. -/
theorem WellFormed.htReset
    (low : 5 ≤ bit)
    (countBound : count ≤ EA_MAX_CAPA)
    (load : bit ≤ 30 → 4 * h.entries.length ≤ 3 * 2 ^ bit)
    (wide : 32 ≤ bit → h.entries.length ≤ count) :
    WellFormed ((h.htReset bit).setNUsed count) where
  slotsLength := wellFormed.slotsLength
  lengthBound := wellFormed.lengthBound
  usedBound := countBound
  small := by
    intro noIndex
    have := (not_isHt_iff _).mp noIndex
    simp only [HashData.setNUsed, HashData.htReset] at this
    omega
  widthLow := fun _ => low
  bucketCount := fun _ => List.length_replicate
  inRange := by
    intro _ b p held
    simp [HashData.setNUsed, HashData.htReset, List.getElem?_replicate] at held
  load := fun _ => load
  wide := wide

/-- Giving the holes of a table with an index back. -/
theorem WellFormed.compress
    (hasIndex : h.isHt = true) :
    WellFormed h.compress where
  slotsLength := by
    show (List.range h.slots.length).length = h.entries.length
    rw [List.length_range]
    exact wellFormed.slotsLength
  lengthBound := wellFormed.lengthBound
  usedBound := by
    show u32 h.entries.length ≤ EA_MAX_CAPA
    rw [wellFormed.u32_length]
    exact wellFormed.lengthBound
  small := by
    intro noIndex
    cases hasIndex.symm.trans noIndex
  widthLow := wellFormed.widthLow
  bucketCount := wellFormed.bucketCount
  inRange := wellFormed.inRange
  load := wellFormed.load
  wide := fun _ => Nat.le_of_eq wellFormed.u32_length.symm

/-- The capacity of a table with an index is any. -/
theorem WellFormed.adjustEa
    (hasIndex : h.isHt = true)
    (size max : Nat) :
    WellFormed (h.adjustEa size max) where
  slotsLength := wellFormed.slotsLength
  lengthBound := wellFormed.lengthBound
  usedBound := wellFormed.usedBound
  small := by
    intro noIndex
    cases hasIndex.symm.trans noIndex
  widthLow := wellFormed.widthLow
  bucketCount := wellFormed.bucketCount
  inRange := wellFormed.inRange
  load := wellFormed.load
  wide := wellFormed.wide

end

/-- A table without an index is well formed by its lengths. -/
theorem wellFormed_of_small
    (slotsLength : h.slots.length = h.entries.length)
    (noIndex : h.ibBit = 0)
    (counted : h.entries.length ≤ h.nUsed)
    (fits : h.nUsed ≤ h.eaCapa)
    (few : h.eaCapa ≤ AR_MAX_SIZE) :
    WellFormed h := by
  have without : ¬h.isHt = true := by
    rw [Bool.not_eq_true]
    exact (not_isHt_iff h).mpr noIndex
  have arLarge : AR_MAX_SIZE ≤ EA_MAX_CAPA := by decide
  constructor
  · exact slotsLength
  · omega
  · omega
  · exact fun _ => ⟨counted, fits, few⟩
  · exact fun hasIndex => absurd hasIndex without
  · exact fun hasIndex => absurd hasIndex without
  · exact fun hasIndex => absurd hasIndex without
  · exact fun hasIndex => absurd hasIndex without
  · intro wide
    omega

/-- Dropping the index of at most sixteen entries. -/
theorem WellFormed.toAr
    (wellFormed : WellFormed h)
    (few : h.entries.length ≤ AR_MAX_SIZE) :
    WellFormed h.toAr := by
  refine wellFormed_of_small ?_ rfl ?_ ?_ ?_
  · show (List.range h.slots.length).length = h.entries.length
    rw [List.length_range]
    exact wellFormed.slotsLength
  · exact Nat.le_of_eq wellFormed.u32_length.symm
  · show u32 h.entries.length ≤
      eaNextCapaFor (u32 h.entries.length) AR_MAX_SIZE
    rw [wellFormed.u32_length]
    exact le_eaNextCapaFor few
  · exact eaNextCapaFor_ar _

/-- Counting the entries as the used slots. -/
theorem WellFormed.recount (wellFormed : WellFormed h) :
    WellFormed (h.setNUsed h.entries.length) where
  slotsLength := wellFormed.slotsLength
  lengthBound := wellFormed.lengthBound
  usedBound := wellFormed.lengthBound
  small := by
    intro noIndex
    obtain ⟨counted, fits, few⟩ := wellFormed.small noIndex
    exact ⟨Nat.le_refl _, counted.trans fits, few⟩
  widthLow := wellFormed.widthLow
  bucketCount := wellFormed.bucketCount
  inRange := wellFormed.inRange
  load := wellFormed.load
  wide := fun _ => Nat.le_refl _

/-- A counted table takes the capacity for its entries within its own. -/
theorem WellFormed.adjustEa_counted
    (wellFormed : WellFormed h)
    (counted : h.nUsed = h.entries.length) :
    WellFormed (h.adjustEa h.entries.length h.eaCapa) := by
  cases hasIndex : h.isHt with
  | true => exact wellFormed.adjustEa hasIndex _ _
  | false =>
      obtain ⟨_, fits, few⟩ := wellFormed.small hasIndex
      refine wellFormed_of_small wellFormed.slotsLength
        ((not_isHt_iff h).mp hasIndex) (Nat.le_of_eq counted.symm) ?_ ?_
      · show h.nUsed ≤ eaNextCapaFor h.entries.length h.eaCapa
        rw [counted]
        exact le_eaNextCapaFor (by omega)
      · show eaNextCapaFor h.entries.length h.eaCapa ≤ AR_MAX_SIZE
        rcases eaNextCapaFor_le h.entries.length h.eaCapa with limit | least
        · omega
        · rw [least]
          decide

/-- Removing an entry that is there does not go out of range. -/
theorem WellFormed.removeEntry
    (wellFormed : WellFormed h)
    (held : h.entries[p]? = some entry) :
    ∃ after, h.removeEntry p = some (entry, after) ∧ WellFormed after ∧
      after.entries = h.entries.eraseIdx p ∧ after.ibBit = h.ibBit ∧
      after.eaCapa = h.eaCapa ∧ after.nUsed = h.nUsed ∧
      after.slots = h.slots.eraseIdx p := by
  have inside := (List.getElem?_eq_some_iff.mp held).1
  obtain ⟨slot, slotHeld⟩ := wellFormed.slotAt inside
  refine ⟨{ h with
    entries := h.entries.eraseIdx p
    slots := h.slots.eraseIdx p
    ib := if h.isHt then h.ib.map (Bucket.vacate p) else h.ib },
    by simp [HashData.removeEntry, held, slotHeld], ?_, rfl, rfl, rfl, rfl,
    rfl⟩
  have length : (h.entries.eraseIdx p).length + 1 = h.entries.length := by
    rw [List.length_eraseIdx, if_pos inside]
    omega
  constructor
  · show (h.slots.eraseIdx p).length = (h.entries.eraseIdx p).length
    rw [List.length_eraseIdx, List.length_eraseIdx, wellFormed.slotsLength]
  · have := wellFormed.lengthBound
    dsimp only
    omega
  · exact wellFormed.usedBound
  · intro noIndex
    have := wellFormed.small noIndex
    dsimp only at this ⊢
    omega
  · exact wellFormed.widthLow
  · intro hasIndex
    have index : h.isHt = true := hasIndex
    dsimp only
    rw [if_pos index, List.length_map]
    exact wellFormed.bucketCount index
  · intro hasIndex b q bucketHeld
    have index : h.isHt = true := hasIndex
    dsimp only at bucketHeld ⊢
    rw [if_pos index, getElem?_map_vacate_eq_live] at bucketHeld
    have bound := wellFormed.inRange index b _ bucketHeld
    split at bound <;> omega
  · intro hasIndex narrow
    have := wellFormed.load hasIndex narrow
    dsimp only at this ⊢
    omega
  · intro large
    have := wellFormed.wide large
    dsimp only at this ⊢
    omega

/-- Making room without an index leaves a free slot, or the full table for an
index to be built. -/
theorem WellFormed.arMakeRoom
    (wellFormed : WellFormed h)
    (noIndex : h.isHt = false)
    (made : h.arMakeRoom = (toHt, after)) :
    WellFormed after ∧ after.ibBit = 0 ∧ after.entries = h.entries ∧
      (toHt = true → after.entries.length = AR_MAX_SIZE ∧
        after.eaCapa = AR_MAX_SIZE) ∧
      (toHt = false → after.nUsed < after.eaCapa) := by
  have width := (not_isHt_iff h).mp noIndex
  obtain ⟨counted, fits, few⟩ := wellFormed.small noIndex
  unfold HashData.arMakeRoom at made
  simp only [wellFormed.u32_length] at made
  split at made
  · rename_i full
    split at made
    · rename_i noHole
      split at made
      · rename_i sixteen
        obtain ⟨rfl, rfl⟩ := Prod.mk.inj made
        exact ⟨wellFormed, width, rfl, fun _ => ⟨sixteen, by omega⟩, by simp⟩
      · rename_i fewer
        obtain ⟨rfl, rfl⟩ := Prod.mk.inj made
        have grows : h.entries.length <
            eaNextCapaFor h.entries.length AR_MAX_SIZE :=
          lt_eaNextCapaFor (by omega)
        have used : h.nUsed < eaNextCapaFor h.entries.length AR_MAX_SIZE := by
          omega
        refine ⟨?_, width, rfl, by simp, fun _ => used⟩
        exact wellFormed_of_small wellFormed.slotsLength width counted
          (Nat.le_of_lt used) (eaNextCapaFor_ar _)
    · rename_i hole
      obtain ⟨rfl, rfl⟩ := Prod.mk.inj made
      have capa : h.compress.eaCapa = h.eaCapa := rfl
      have atMost : min h.compress.eaCapa AR_MAX_SIZE = h.eaCapa := by
        rw [capa]
        exact Nat.min_eq_left few
      rw [atMost]
      have grows : h.entries.length <
          eaNextCapaFor h.entries.length h.eaCapa :=
        lt_eaNextCapaFor (by omega)
      have used : h.compress.nUsed = h.entries.length := wellFormed.u32_length
      have bounded : eaNextCapaFor h.entries.length h.eaCapa ≤ AR_MAX_SIZE := by
        rcases eaNextCapaFor_le h.entries.length h.eaCapa with limit | least
        · omega
        · rw [least]
          decide
      refine ⟨?_, width, rfl, by simp, fun _ => ?_⟩
      · refine wellFormed_of_small ?_ width ?_ ?_ bounded
        · show (List.range h.slots.length).length = h.entries.length
          rw [List.length_range]
          exact wellFormed.slotsLength
        · exact Nat.le_of_eq used.symm
        · exact Nat.le_of_lt (used ▸ grows)
      · exact used ▸ grows
  · rename_i free
    obtain ⟨rfl, rfl⟩ := Prod.mk.inj made
    refine ⟨wellFormed, width, rfl, by simp, fun _ => ?_⟩
    omega

/-- Appending an entry where there is a free slot. -/
theorem WellFormed.arPush
    (wellFormed : WellFormed h)
    (noIndex : h.isHt = false)
    (free : h.nUsed < h.eaCapa)
    (key value : Value) :
    WellFormed (h.arPush key value) := by
  obtain ⟨counted, fits, few⟩ := wellFormed.small noIndex
  have next : u32 (h.nUsed + 1) = h.nUsed + 1 := by
    refine u32_of_lt ?_
    have : AR_MAX_SIZE < 2 ^ 31 := by decide
    omega
  refine wellFormed_of_small ?_ ((not_isHt_iff h).mp noIndex) ?_ ?_ few
  · simp [HashData.arPush, wellFormed.slotsLength]
  · simp only [HashData.arPush, List.length_append, List.length_singleton, next]
    omega
  · simp only [HashData.arPush, next]
    omega

/-- Making room in an index. -/
theorem WellFormed.htMakeRoom
    (wellFormed : WellFormed h)
    (hasIndex : h.isHt = true)
    (made : h.htMakeRoom = (room, after)) :
    WellFormed after ∧ after.isHt = true ∧ after.entries = h.entries ∧
      match room with
      | .fits => after = h ∧
          (h.ibBit ≤ 31 → 4 * (h.entries.length + 1) ≤ 3 * 2 ^ h.ibBit)
      | .rebuild bit => 5 ≤ bit ∧
          (bit ≤ 31 → 4 * (h.entries.length + 1) ≤ 3 * 2 ^ bit)
      | .toAr => after = h ∧ h.entries.length ≤ AR_MAX_SIZE ∧
          h.entries.length ≠ h.eaCapa := by
  have low := wellFormed.widthLow hasIndex
  have compressed := wellFormed.compress hasIndex
  have shrunk := compressed.adjustEa hasIndex h.entries.length h.eaCapa
  have enough : ¬ibUpperBoundFor (shiftOne h.ibBit) ≤ h.entries.length →
      h.ibBit ≤ 31 → 4 * (h.entries.length + 1) ≤ 3 * 2 ^ h.ibBit := by
    intro below narrow
    have quarter := ibUpperBoundFor_of_le (Nat.le_trans (by decide : 2 ≤ 5) low)
    rw [shiftOne_of_lt (Nat.lt_succ_of_le narrow)] at below
    omega
  unfold HashData.htMakeRoom at made
  simp only [wellFormed.u32_length] at made
  split at made
  · rename_i full
    obtain ⟨rfl, rfl⟩ := Prod.mk.inj made
    have grown : h.ibBit + 1 ≤ 31 →
        4 * (h.entries.length + 1) ≤ 3 * 2 ^ (h.ibBit + 1) := by
      intro narrow
      have load := wellFormed.load hasIndex (by omega)
      have large : 2 ^ 5 ≤ 2 ^ h.ibBit := Nat.pow_le_pow_right Nat.two_pos low
      rw [Nat.pow_succ]
      omega
    refine ⟨?_, ?_, ?_, Nat.le_succ_of_le low, grown⟩
    · split
      · exact wellFormed
      · exact compressed
    · split
      · exact hasIndex
      · exact hasIndex
    · split <;> rfl
  · rename_i below
    split at made
    · split at made
      · obtain ⟨rfl, rfl⟩ := Prod.mk.inj made
        exact ⟨shrunk, hasIndex, rfl, low, enough below⟩
      · split at made
        · rename_i full
          split at made
          · rename_i few
            obtain ⟨rfl, rfl⟩ := Prod.mk.inj made
            exact ⟨wellFormed, hasIndex, rfl, rfl, few, by omega⟩
          · split at made
            · obtain ⟨rfl, rfl⟩ := Prod.mk.inj made
              exact ⟨shrunk, hasIndex, rfl, low, enough below⟩
            · obtain ⟨rfl, rfl⟩ := Prod.mk.inj made
              exact ⟨wellFormed, hasIndex, rfl, rfl, enough below⟩
        · obtain ⟨rfl, rfl⟩ := Prod.mk.inj made
          exact ⟨wellFormed, hasIndex, rfl, rfl, enough below⟩
    · obtain ⟨rfl, rfl⟩ := Prod.mk.inj made
      exact ⟨wellFormed, hasIndex, rfl, rfl, enough below⟩

/-- The entries leave room for one more. -/
structure Spacious (h : HashData) : Prop where
  wellFormed : WellFormed h
  hasIndex : h.isHt = true
  /-- The entries take less than three quarters of the buckets. -/
  load : h.ibBit ≤ 31 → 4 * (h.entries.length + 1) ≤ 3 * 2 ^ h.ibBit

/-- A table of the same shape leaves as much room. -/
theorem Spacious.of_shape
    (spacious : Spacious h)
    (wellFormed : WellFormed after)
    (shape : SameShape h after) :
    Spacious after := by
  refine ⟨wellFormed, shape.isHt.trans spacious.hasIndex, ?_⟩
  rw [shape.ibBit, shape.length]
  exact spacious.load

/-- Storing an entry in a bucket where there is a free slot. -/
theorem Spacious.htPush
    (spacious : Spacious h)
    (free : h.nUsed ≠ EA_MAX_CAPA)
    (b : Nat)
    (key value : Value) :
    WellFormed (h.htPush b key value) := by
  have wellFormed := spacious.wellFormed
  have hasIndex := spacious.hasIndex
  have used := wellFormed.usedBound
  have next : u32 (h.nUsed + 1) = h.nUsed + 1 := by
    refine u32_of_lt ?_
    have : EA_MAX_CAPA + 1 < 2 ^ 32 := by decide
    omega
  have room : h.entries.length + 1 ≤ EA_MAX_CAPA := by
    by_cases narrow : h.ibBit ≤ 31
    · have load := spacious.load narrow
      have top : 2 ^ h.ibBit ≤ 2 ^ 31 := Nat.pow_le_pow_right Nat.two_pos narrow
      have : EA_MAX_CAPA = 2 ^ 31 - 2 := rfl
      omega
    · have := wellFormed.wide (by omega)
      omega
  have same : h.htPush b key value = { h with
      entries := h.entries ++ [(key, value)]
      slots := h.slots ++ [h.nUsed]
      nUsed := h.nUsed + 1
      eaCapa := if h.nUsed = h.eaCapa then eaNextCapaFor h.nUsed EA_MAX_CAPA
        else h.eaCapa
      ib := h.ib.set b (.live h.entries.length) } := by
    unfold HashData.htPush HashData.adjustEa
    split <;> simp only [next]
  rw [same]
  constructor
  · simp [wellFormed.slotsLength]
  · simpa using room
  · show h.nUsed + 1 ≤ EA_MAX_CAPA
    omega
  · intro noIndex
    cases hasIndex.symm.trans noIndex
  · exact fun _ => wellFormed.widthLow hasIndex
  · intro _
    rw [List.length_set]
    exact wellFormed.bucketCount hasIndex
  · intro _ bucket p held
    rw [List.length_append, List.length_singleton]
    dsimp only at held
    rw [List.getElem?_set] at held
    split at held
    · split at held
      · cases held
        exact Nat.lt_succ_self _
      · cases held
    · exact Nat.lt_succ_of_lt (wellFormed.inRange hasIndex bucket p held)
  · intro _ narrow
    rw [List.length_append, List.length_singleton]
    exact spacious.load (Nat.le_succ_of_le narrow)
  · intro large
    have := wellFormed.wide large
    rw [List.length_append, List.length_singleton]
    show h.entries.length + 1 ≤ h.nUsed + 1
    omega

section

variable (wellFormed : WellFormed h)
include wellFormed

/-- Buckets that hold positions of entries may be written in any way. -/
theorem WellFormed.withBuckets
    (length : ib.length = h.ib.length)
    (inRange : ∀ b p : Nat, ib[b]? = some (.live p) →
      h.ib[b]? = some (.live p) ∨ p < h.entries.length) :
    WellFormed { h with ib := ib } where
  slotsLength := wellFormed.slotsLength
  lengthBound := wellFormed.lengthBound
  usedBound := wellFormed.usedBound
  small := wellFormed.small
  widthLow := wellFormed.widthLow
  bucketCount := fun hasIndex => length.trans (wellFormed.bucketCount hasIndex)
  inRange := by
    intro hasIndex b p held
    rcases inRange b p held with there | inside
    · exact wellFormed.inRange hasIndex b p there
    · exact inside
  load := wellFormed.load
  wide := wellFormed.wide

/-- Placing the position of an entry in the index. -/
theorem WellFormed.place
    (hasIndex : h.isHt = true)
    (inside : p < h.entries.length)
    (code : Nat) :
    ∃ after, h.place code p = some after ∧ WellFormed after ∧
      SameShape h after := by
  obtain ⟨ib, placed, length, inRange⟩ :=
    place_inRange (wellFormed.mask_inside hasIndex) code p
  refine ⟨_, placed, wellFormed.withBuckets length ?_, rfl, rfl, rfl⟩
  intro b q held
  rcases inRange b q held with there | rfl
  · exact Or.inl there
  · exact Or.inr inside

/-- Placing the positions of all entries in the index. -/
theorem WellFormed.placeAll
    (hasIndex : h.isHt = true)
    (count : codes.length = h.entries.length) :
    ∃ after, h.placeAll 0 codes = some after ∧ WellFormed after ∧
      SameShape h after := by
  obtain ⟨ib, placed, length, inRange⟩ :=
    placeAll_inRange (wellFormed.mask_inside hasIndex) 0 codes
  refine ⟨_, placed, wellFormed.withBuckets length ?_, rfl, rfl, rfl⟩
  intro b q held
  refine (inRange b q held).imp_right fun below => ?_
  omega

/-- Writing the position of an entry in a bucket. -/
theorem WellFormed.setBucket
    (inside : p < h.entries.length)
    (b : Nat) :
    WellFormed (h.setBucket b p) := by
  refine wellFormed.withBuckets (List.length_set) ?_
  intro bucket q held
  rw [List.getElem?_set] at held
  split at held
  · split at held
    · cases held
      exact Or.inr inside
    · cases held
  · exact Or.inl held

theorem WellFormed.setSlot
    (inside : p < h.entries.length)
    (slot : Nat) :
    ∃ after, h.setSlot p slot = some after ∧ WellFormed after ∧
      SameShape h after := by
  have room : p < h.slots.length := wellFormed.slotsLength ▸ inside
  refine ⟨{ h with slots := h.slots.set p slot }, if_pos room, ?_, rfl, rfl,
    rfl⟩
  exact ⟨List.length_set.trans wellFormed.slotsLength, wellFormed.lengthBound,
    wellFormed.usedBound, wellFormed.small, wellFormed.widthLow,
    wellFormed.bucketCount, wellFormed.inRange, wellFormed.load,
    wellFormed.wide⟩

/-- Taking an entry out and putting it back at another place. -/
theorem WellFormed.reinsert
    (held : h.entries[r]? = some entry)
    (inside : w < h.entries.length) :
    ∃ removed after, h.removeEntry r = some (entry, removed) ∧
      removed.reinsert w entry = some after ∧ WellFormed after ∧
      SameShape h after := by
  obtain ⟨removed, took, between, entries, width, capa, used, slots⟩ :=
    wellFormed.removeEntry held
  have there := (List.getElem?_eq_some_iff.mp held).1
  have length : removed.entries.length + 1 = h.entries.length := by
    rw [entries, List.length_eraseIdx, if_pos there]
    omega
  have slotsLength := between.slotsLength
  have room : w ≤ removed.entries.length ∧ w ≤ removed.slots.length := by
    omega
  have insertedEntries :
      (removed.entries.insertIdx w entry).length = h.entries.length := by
    rw [List.length_insertIdx_of_le_length room.1]
    exact length
  have insertedSlots :
      (removed.slots.insertIdx w 0).length = h.entries.length := by
    rw [List.length_insertIdx_of_le_length room.2]
    omega
  have sameIndex : removed.isHt = h.isHt := by
    unfold HashData.isHt
    rw [width]
  refine ⟨removed, _, took, if_pos room, ?_, width, capa, insertedEntries⟩
  constructor
  · exact insertedSlots.trans insertedEntries.symm
  · exact insertedEntries.trans_le wellFormed.lengthBound
  · exact between.usedBound
  · intro noIndex
    dsimp only
    rw [insertedEntries, used, capa]
    exact wellFormed.small (sameIndex.symm.trans noIndex)
  · exact between.widthLow
  · intro hasIndex
    have index : removed.isHt = true := hasIndex
    dsimp only
    rw [if_pos index, List.length_map]
    exact between.bucketCount index
  · intro hasIndex b q bucketHeld
    have index : removed.isHt = true := hasIndex
    dsimp only at bucketHeld ⊢
    rw [insertedEntries]
    rw [if_pos index, List.getElem?_map, Option.map_eq_some_iff] at bucketHeld
    obtain ⟨bucket, there, shifted⟩ := bucketHeld
    cases bucket with
    | empty => cases shifted
    | deleted => cases shifted
    | live position =>
        have bound := between.inRange index b position there
        cases shifted
        split <;> omega
  · intro hasIndex narrow
    dsimp only at narrow ⊢
    rw [insertedEntries, width]
    exact wellFormed.load (sameIndex.symm.trans hasIndex) (width ▸ narrow)
  · intro large
    dsimp only at large ⊢
    rw [insertedEntries, used]
    exact wellFormed.wide (width ▸ large)

end

end SabiRuby.HashTable
