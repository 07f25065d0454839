import SabiRuby.SetTable.Probe

/-!
# The invariant of a Set

The elements of a Set are native, in the form they are stored in, and no two are
the same.  Up to four have no table; a table indexes them all and is at most
seven eighths full.  One lemma for each operation says what it answers and what
it leaves.
-/

namespace SabiRuby.SetTable

open Library HashTable HashData

/-- A Set of native elements. -/
structure NativeSet (heap : Heap) (h : HashData) : Prop where
  /-- The elements are native and no unfrozen Strings. -/
  held : ∀ entry ∈ h.entries, HeldKey heap entry.1
  /-- No element is the same as a later one. -/
  distinct : h.entries.Pairwise fun earlier later =>
    ksetSame heap earlier.1 later.1 = false
  slotsLength : h.slots.length = h.entries.length
  /-- Without a table there are few elements. -/
  small : h.isHt = false → h.entries.length ≤ KHASH_SMALL_LIMIT
  indexed : h.isHt = true → Indexed (elementCode heap) h

variable {heap : Heap} {h : HashData}

theorem nativeSet_initial (heap : Heap) :
    NativeSet heap initial where
  held := by simp [initial]
  distinct := List.Pairwise.nil
  slotsLength := rfl
  small := fun _ => Nat.zero_le _
  indexed := fun hasTable => by cases hasTable

theorem NativeSet.native
    (set : NativeSet heap h) :
    ∀ entry ∈ h.entries, isNative heap entry.1 = true :=
  fun entry member => (set.held entry member).native

/-- Elements with the same codes are indexed by the same table. -/
theorem Indexed.congr
    (index : Indexed code h)
    (same : ∀ entry ∈ h.entries, otherCode entry.1 = code entry.1) :
    Indexed otherCode h := by
  refine ⟨index.widthLow, index.widthHigh, index.bucketCount, ?_, index.load⟩
  rw [List.map_congr_left same]
  exact index.indexes

/-- A Set stays one when the objects of its elements stay. -/
theorem NativeSet.of_agree
    (set : NativeSet heap h)
    (agree : ∀ entry ∈ h.entries, ∀ object, entry.1 = .obj object →
      later[object.index]? = heap[object.index]?) :
    NativeSet later h := by
  have kept : ∀ entry ∈ h.entries, HeldKey later entry.1 ∧
      elementContent later entry.1 = elementContent heap entry.1 :=
    fun entry member =>
      HeldKey.of_agree (set.held entry member) (agree entry member) id
  refine ⟨fun entry member => (kept entry member).1, ?_, set.slotsLength,
    set.small, ?_⟩
  · refine set.distinct.imp_of_mem ?_
    intro earlier other earlierMember otherMember different
    rw [← Bool.not_eq_true] at different ⊢
    intro same
    refine different ((ksetSame_iff
      (set.held earlier earlierMember).native other.1).mpr ?_)
    have now := (ksetSame_iff (kept earlier earlierMember).1.native
      other.1).mp same
    rw [(kept earlier earlierMember).2, (kept other otherMember).2] at now
    exact now
  · intro hasTable
    refine (set.indexed hasTable).congr ?_
    intro entry member
    unfold elementCode
    rw [(kept entry member).2]

theorem NativeSet.of_extends
    (set : NativeSet heap h)
    (grown : heap <+: later) : NativeSet later h := by
  refine set.of_agree ?_
  intro entry member object key
  have valid := validKey_of_isNative (set.native entry member)
  rw [key] at valid
  exact getElem?_of_extends grown valid

/-! ## The search -/

/-- The element a search is for. -/
def position (heap : Heap) (key : Value) (entries : List Entry) :
    Option Nat :=
  entries.findIdx? fun entry => ksetSame heap entry.1 key

/-- At most one element is the same as a value. -/
theorem NativeSet.only
    (set : NativeSet heap h)
    {first second : Nat}
    (firstHeld : h.entries[first]? = some one)
    (secondHeld : h.entries[second]? = some other)
    (firstSame : ksetSame heap one.1 key = true)
    (secondSame : ksetSame heap other.1 key = true) : first = second := by
  have oneNative := set.native one (List.mem_of_getElem? firstHeld)
  have otherNative := set.native other (List.mem_of_getElem? secondHeld)
  obtain ⟨oneContent, oneNumber⟩ := (ksetSame_iff oneNative key).mp firstSame
  obtain ⟨otherContent, otherNumber⟩ :=
    (ksetSame_iff otherNative key).mp secondSame
  have same : ksetSame heap one.1 other.1 = true :=
    (ksetSame_iff oneNative other.1).mpr
      ⟨oneContent.trans otherContent.symm, oneNumber⟩
  have back : ksetSame heap other.1 one.1 = true :=
    (ksetSame_iff otherNative one.1).mpr
      ⟨otherContent.trans oneContent.symm, otherNumber⟩
  obtain ⟨firstBound, rfl⟩ := List.getElem?_eq_some_iff.mp firstHeld
  obtain ⟨secondBound, rfl⟩ := List.getElem?_eq_some_iff.mp secondHeld
  have apart := List.pairwise_iff_getElem.mp set.distinct
  rcases Nat.lt_trichotomy first second with before | equal | after
  · rw [apart first second firstBound secondBound before] at same
    cases same
  · exact equal
  · rw [apart second first secondBound firstBound after] at back
    cases back

/-- The search along the probe finds the element of the list. -/
theorem NativeSet.position?_scan
    (set : NativeSet heap h)
    (hasTable : h.isHt = true)
    (key : Value) :
    (scan (probeAt h.mask) h.ib (elementCode heap key)
      (sameAt heap key h.entries) 0 h.ib.length).position? =
        position heap key h.entries := by
  have index := set.indexed hasTable
  have only : ∀ first second, sameAt heap key h.entries first = true →
      sameAt heap key h.entries second = true → first = second := by
    intro first second firstMatched secondMatched
    obtain ⟨one, firstHeld, firstSame⟩ := sameAt_iff.mp firstMatched
    obtain ⟨other, secondHeld, secondSame⟩ := sameAt_iff.mp secondMatched
    exact set.only firstHeld secondHeld firstSame secondSame
  have coded : ∀ p, sameAt heap key h.entries p = true →
      (h.entries.map fun entry => elementCode heap entry.1)[p]? =
        some (elementCode heap key) := by
    intro p matched
    obtain ⟨entry, there, same⟩ := sameAt_iff.mp matched
    have native := set.native entry (List.mem_of_getElem? there)
    rw [List.getElem?_map, there, Option.map_some, elementCode_eq native same]
  refine Option.ext ?_
  intro p
  rw [Library.position?_scan index.complete index.indexes coded only p]
  constructor
  · intro matched
    obtain ⟨entry, there, same⟩ := sameAt_iff.mp matched
    obtain ⟨bound, rfl⟩ := List.getElem?_eq_some_iff.mp there
    refine List.findIdx?_eq_some_iff_getElem.mpr ⟨bound, same, ?_⟩
    intro earlier before also
    have earlierBound : earlier < h.entries.length := by omega
    exact Nat.ne_of_lt before (set.only
      (List.getElem?_eq_getElem earlierBound) there also same)
  · intro found
    obtain ⟨bound, same, _⟩ := List.findIdx?_eq_some_iff_getElem.mp found
    exact sameAt_iff.mpr ⟨_, List.getElem?_eq_getElem bound, same⟩

section Operations

variable {ω : Type} {vm : Vm ω}

/-- The search answers the position of the element in the list. -/
theorem khGet_eq
    (callbacks : Callbacks ω)
    (set : NativeSet vm.heap vm.table)
    (native : isNative vm.heap key = true) :
    khGet callbacks key vm =
      .ok (position vm.heap key vm.table.entries) vm := by
  unfold khGet
  simp only [bind, EStateM.bind, Exec.get_apply]
  cases hasTable : vm.table.isHt with
  | false =>
      have few : vm.table.entries.length <
          0 + (vm.table.len + KHASH_SMALL_LIMIT + 1) := by
        unfold len
        omega
      exact khGetSmallLoop_eq callbacks set.native key few (Nat.zero_le _)
        fun _ _ earlier => absurd earlier (Nat.not_lt_zero _)
  | true =>
      have index := set.indexed hasTable
      have first : elementCode vm.heap key &&& vm.table.mask =
          probeAt vm.table.mask (elementCode vm.heap key) 0 := by
        rw [index.mask_eq]
        exact and_mask_eq_probeAt index.widthHigh _
      simp only [if_true, EStateM.bind, ksetHash_native callbacks native,
        khVerify, bind, Exec.get_apply, pure, EStateM.pure, index.lookupMask_eq,
        first]
      rw [khGetLoop_eq callbacks index set.native, set.position?_scan hasTable]

/-! ## Rebuilding -/

/-- The elements from `p` on are hashed and placed in turn. -/
theorem khRebuildLoop_eq
    (callbacks : Callbacks ω)
    (native : ∀ entry ∈ vm.table.entries, isNative vm.heap entry.1 = true)
    (small : vm.table.ibBit ≤ 31)
    (bucketCount : vm.table.ib.length = 2 ^ vm.table.ibBit)
    (enough : vm.table.entries.length ≤ p + fuel)
    (placed : vm.table.placeAll p ((vm.table.entries.drop p).map fun entry =>
      elementCode vm.heap entry.1) = some after) :
    khRebuildLoop callbacks fuel p vm = .ok () { vm with table := after } := by
  induction fuel generalizing p vm with
  | zero =>
      have past : vm.table.keyAt p = none := by
        unfold keyAt
        rw [List.getElem?_eq_none (by omega), Option.map_none]
      rw [List.drop_eq_nil_of_le (by omega)] at placed
      cases placed
      simp only [khRebuildLoop, bind, EStateM.bind, Exec.get_apply, past]
      rfl
  | succ fuel ih =>
      unfold khRebuildLoop
      simp only [bind, EStateM.bind, Exec.get_apply]
      rcases Nat.lt_or_ge p vm.table.entries.length with inside | past
      · have stored : vm.table.keyAt p = some vm.table.entries[p].1 := by
          unfold keyAt
          rw [List.getElem?_eq_getElem inside, Option.map_some]
        have reached : vm.table.mask < vm.table.ib.length := by
          have positive := Nat.two_pow_pos vm.table.ibBit
          rw [bucketCount, mask_of_le small]
          omega
        rw [List.drop_eq_getElem_cons inside] at placed
        obtain ⟨ib, one, sameLength, _⟩ := place_inRange reached
          (elementCode vm.heap vm.table.entries[p].1) p
        simp only [List.map_cons, placeAll, one] at placed
        have isInside : p < vm.table.len := inside
        have hashed := ksetHash_native callbacks
          (native _ (List.getElem_mem inside))
        simp only [stored, EStateM.bind, hashed, if_pos isInside, tryTable,
          bind, Exec.get_apply, khPlace_eq small bucketCount, one, Exec.orPanic,
          pure, EStateM.pure, set, MonadStateOf.set, EStateM.set]
        exact @ih
          { vm with table := { vm.table with ib := ib } } (p + 1) native small
          (sameLength.trans bucketCount)
          (show vm.table.entries.length ≤ p + 1 + fuel by omega) placed
      · have gone : vm.table.keyAt p = none := by
          unfold keyAt
          rw [List.getElem?_eq_none past, Option.map_none]
        rw [List.drop_eq_nil_of_le past] at placed
        cases placed
        simp only [gone]
        rfl

/-- A table was rebuilt at a width. -/
structure Rebuilt (before after : HashData) (bit : Nat) : Prop where
  entries : after.entries = before.entries
  slots : after.slots = before.slots
  nUsed : after.nUsed = before.nUsed
  width : after.ibBit = bit

/-- A rebuild at a width with room indexes every element. -/
theorem khRebuild_eq
    (callbacks : Callbacks ω)
    (set : NativeSet vm.heap vm.table)
    (widthLow : 3 ≤ bit)
    (widthHigh : bit ≤ 31)
    (load : 8 * vm.table.entries.length ≤ 7 * 2 ^ bit) :
    ∃ after, khRebuild callbacks bit vm = .ok () { vm with table := after } ∧
      Rebuilt vm.table after bit ∧ NativeSet vm.heap after := by
  have positive := Nat.two_pow_pos bit
  have maskEq : (bumpGen (vm.table.htReset bit)).mask = 2 ^ bit - 1 :=
    mask_of_le widthHigh
  have bucketCount : (bumpGen (vm.table.htReset bit)).ib.length = 2 ^ bit :=
    List.length_replicate
  obtain ⟨ib, placed, sameLength, _, indexes⟩ :=
    placeAll_spec (vm.table.entries.map fun entry =>
        elementCode vm.heap entry.1)
      (show (bumpGen (vm.table.htReset bit)).mask + 1 = _ by
        rw [maskEq, bucketCount]
        omega)
      (by rw [maskEq, bucketCount]; exact probeAt_complete widthHigh)
      (Indexes.replicate_empty _ _)
      (by simp [bumpGen, htReset])
      (by
        rw [bucketCount, List.length_map, List.length_nil]
        omega)
  refine ⟨{ bumpGen (vm.table.htReset bit) with ib := ib }, ?_,
    ⟨rfl, rfl, rfl, rfl⟩, set.held, set.distinct, set.slotsLength, ?_, ?_⟩
  · simp only [khRebuild, bind, EStateM.bind, modifyTable, modify, modifyGet,
    MonadStateOf.modifyGet, EStateM.modifyGet, Exec.get_apply]
    exact @khRebuildLoop_eq ω
      { vm with table := bumpGen (vm.table.htReset bit) } 0 _ _ callbacks
      set.native widthHigh bucketCount
      (show vm.table.entries.length ≤ 0 + vm.table.entries.length by omega)
      placed
  · intro noTable
    have : bit = 0 := (not_isHt_iff _).mp noTable
    omega
  · intro _
    exact ⟨widthLow, widthHigh, sameLength.trans bucketCount, indexes, load⟩

/-! ## Putting in a new element -/

/-- What a new element leaves behind. -/
structure Added (heap : Heap) (before : HashData) (key : Value)
    (after : HashData) : Prop where
  set : NativeSet heap after
  entries : after.entries = before.entries ++ [(key, .trueValue)]
  slots : after.slots = before.slots ++ [before.nUsed]
  nUsed : after.nUsed = u32 (before.nUsed + 1)

/-- A value is the same as no element. -/
def Fresh (heap : Heap) (h : HashData) (key : Value) : Prop :=
  ∀ entry ∈ h.entries, ksetSame heap entry.1 key = false

theorem NativeSet.push
    (set : NativeSet heap h)
    (held : HeldKey heap key)
    (fresh : Fresh heap h key)
    (entries : after.entries = h.entries ++ [(key, .trueValue)])
    (slots : after.slots = h.slots ++ [h.nUsed])
    (small : after.isHt = false → after.entries.length ≤ KHASH_SMALL_LIMIT)
    (indexed : after.isHt = true → Indexed (elementCode heap) after) :
    NativeSet heap after := by
  refine ⟨?_, ?_, ?_, small, indexed⟩
  · intro entry member
    rw [entries] at member
    rcases List.mem_append.mp member with old | new
    · exact set.held entry old
    · rw [List.mem_singleton.mp new]
      exact held
  · rw [entries, List.pairwise_append]
    refine ⟨set.distinct, List.pairwise_singleton _ _, ?_⟩
    intro entry member other new
    rw [List.mem_singleton.mp new]
    exact fresh entry member
  · rw [entries, slots, List.length_append, List.length_append,
      set.slotsLength]
    rfl

/-- A table with room indexes a new element put into a slot of its probe. -/
theorem Indexed.put
    (index : Indexed code h)
    (slot : Slot h (code key) b)
    (room : 8 * (h.entries.length + 1) ≤ 7 * 2 ^ h.ibBit) :
    Indexed code ((h.arPush key value).setBucket b h.len) := by
  obtain ⟨step, stepBound, rfl, free, clear⟩ := slot
  refine ⟨index.widthLow, index.widthHigh, ?_, ?_, ?_⟩
  · simpa [setBucket, arPush] using index.bucketCount
  · have inserted := index.indexes.insert stepBound free clear
    rw [List.length_map] at inserted
    show Indexes (probeAt h.mask) _ ((h.entries ++ [(key, value)]).map _)
    rw [List.map_append]
    exact inserted
  · simpa [setBucket, arPush] using room

/-- A new element is put into a table with room, at the end of the list. -/
theorem khPutLoop_eq
    (callbacks : Callbacks ω)
    (set : NativeSet vm.heap vm.table)
    (hasTable : vm.table.isHt = true)
    (held : HeldKey vm.heap key)
    (fresh : Fresh vm.heap vm.table key)
    (room : 8 * (vm.table.entries.length + 1) ≤ 7 * 2 ^ vm.table.ibBit)
    (turns : Nat) :
    ∃ after, khPutLoop callbacks key (turns + 1) vm =
        .ok () { vm with table := after } ∧
      Added vm.heap vm.table key after := by
  have index := set.indexed hasTable
  have first : elementCode vm.heap key &&& vm.table.mask =
      probeAt vm.table.mask (elementCode vm.heap key) 0 := by
    rw [index.mask_eq]
    exact and_mask_eq_probeAt index.widthHigh _
  obtain ⟨b, slot, searched⟩ :=
    khSlotLoop_slot index (elementCode vm.heap key)
  refine ⟨(vm.table.arPush key .trueValue).setBucket b vm.table.len, ?_,
    set.push held fresh rfl rfl ?_ fun _ => index.put slot room, rfl, rfl, rfl⟩
  · unfold khPutLoop
    simp only [bind, EStateM.bind, ksetHash_native callbacks held.native,
      Exec.get_apply, index.lookupMask_eq, first]
    rcases searched with ⟨empty, deleted⟩ | empty
    · rw [deleted]
      rfl
    · rw [empty]
      rfl
  · intro noTable
    have same : vm.table.isHt = false := noTable
    rw [hasTable] at same
    cases same

/-- The most elements a Set can hold when one is added. -/
def elementLimit : Nat := 7 * 2 ^ 28

/-- A table with room for its elements has room for one more unless it is
full. -/
theorem room_of_lt_khUpperBound
    (widthLow : 3 ≤ h.ibBit)
    (bucketCount : h.ib.length = 2 ^ h.ibBit)
    (below : h.entries.length < khUpperBound h) :
    8 * (h.entries.length + 1) ≤ 7 * 2 ^ h.ibBit := by
  obtain ⟨width, same⟩ : ∃ width, h.ibBit = width + 3 :=
    ⟨h.ibBit - 3, by omega⟩
  unfold khUpperBound at below
  rw [bucketCount, same, Nat.shiftRight_eq_div_pow, Nat.pow_add] at below
  rw [same, Nat.pow_add]
  omega

/-- An element added to a rebuilt table is added to the table before. -/
theorem Rebuilt.added
    (rebuilt : Rebuilt before middle bit)
    (added : Added heap middle key after) : Added heap before key after := by
  refine ⟨added.set, ?_, ?_, ?_⟩
  · rw [added.entries, rebuilt.entries]
  · rw [added.slots, rebuilt.slots, rebuilt.nUsed]
  · rw [added.nUsed, rebuilt.nUsed]

/-- The width of a full table that is not the widest. -/
theorem full_table
    (index : Indexed code h)
    (full : khUpperBound h ≤ h.entries.length)
    (roomy : h.entries.length < elementLimit) :
    h.ibBit + 1 ≤ 31 ∧
      8 * (h.entries.length + 1) ≤ 7 * 2 ^ (h.ibBit + 1) := by
  obtain ⟨width, same⟩ : ∃ width, h.ibBit = width + 3 :=
    ⟨h.ibBit - 3, by have := index.widthLow; omega⟩
  have load := index.load
  have positive := Nat.two_pow_pos width
  unfold khUpperBound at full
  rw [index.bucketCount, same, Nat.shiftRight_eq_div_pow, Nat.pow_add] at full
  rw [same, Nat.pow_add] at load
  have narrow : width < 28 := by
    by_contra wide
    have large := Nat.pow_le_pow_right Nat.two_pos (Nat.not_lt.mp wide)
    unfold elementLimit at roomy
    omega
  refine ⟨by omega, ?_⟩
  rw [same, Nat.pow_succ, Nat.pow_add]
  omega

/-- Putting a new element into a table grows it where it is full. -/
theorem khPutTable_eq
    (callbacks : Callbacks ω)
    (set : NativeSet vm.heap vm.table)
    (hasTable : vm.table.isHt = true)
    (held : HeldKey vm.heap key)
    (fresh : Fresh vm.heap vm.table key)
    (roomy : vm.table.entries.length < elementLimit) :
    ∃ after, khPutTable callbacks key vm =
        .ok () { vm with table := after } ∧
      Added vm.heap vm.table key after := by
  have index := set.indexed hasTable
  unfold khPutTable
  simp only [bind, EStateM.bind, Exec.get_apply]
  rcases Nat.lt_or_ge vm.table.len (khUpperBound vm.table) with
    below | full
  · have room :=
      room_of_lt_khUpperBound index.widthLow index.bucketCount below
    simp only [if_neg (Nat.not_le.mpr below)]
    exact khPutLoop_eq callbacks set hasTable held fresh room 1
  · obtain ⟨widthHigh, room⟩ := full_table index full roomy
    obtain ⟨middle, ran, rebuilt, grown⟩ := khRebuild_eq callbacks set
      (Nat.le_succ_of_le index.widthLow) widthHigh (by omega)
    have freshThere : Fresh vm.heap middle key := by
      unfold Fresh
      rw [rebuilt.entries]
      exact fresh
    have isTable : middle.isHt = true := by
      rw [isHt_iff, rebuilt.width]
      exact Nat.succ_ne_zero _
    obtain ⟨after, put, added⟩ := @khPutLoop_eq ω { vm with table := middle }
      key callbacks grown isTable held freshThere
      (by rw [rebuilt.entries, rebuilt.width]; exact room) 1
    simp only [if_pos full, EStateM.bind, ran]
    exact ⟨after, put, rebuilt.added added⟩

/-- Putting in an element that is the same as none appends it. -/
theorem khPutNew_eq
    (callbacks : Callbacks ω)
    (set : NativeSet vm.heap vm.table)
    (held : HeldKey vm.heap key)
    (fresh : Fresh vm.heap vm.table key)
    (roomy : vm.table.entries.length < elementLimit) :
    ∃ after, khPutNew callbacks key vm = .ok () { vm with table := after } ∧
      Added vm.heap vm.table key after := by
  unfold khPutNew
  simp only [bind, EStateM.bind, Exec.get_apply]
  cases hasTable : vm.table.isHt with
  | true =>
      rw [if_pos rfl]
      exact khPutTable_eq callbacks set hasTable held fresh roomy
  | false =>
      have few := set.small hasTable
      simp only [Bool.false_eq_true, if_false]
      rcases Nat.lt_or_ge vm.table.len KHASH_SMALL_LIMIT with below | full
      · simp only [if_neg (Nat.not_le.mpr below)]
        refine ⟨vm.table.arPush key .trueValue, rfl,
          set.push held fresh rfl rfl ?_ ?_, rfl, rfl, rfl⟩
        · intro _
          rw [show (vm.table.arPush key .trueValue).entries =
            vm.table.entries ++ [(key, .trueValue)] from rfl,
            List.length_append]
          exact below
        · intro isTable
          have same : vm.table.isHt = true := isTable
          rw [hasTable] at same
          cases same
      · have load : 8 * vm.table.entries.length ≤ 7 * 2 ^ KHASH_MIN_BIT := by
          unfold KHASH_SMALL_LIMIT at few
          unfold KHASH_MIN_BIT
          omega
        obtain ⟨middle, ran, rebuilt, grown⟩ := khRebuild_eq callbacks set
          (Nat.le_refl KHASH_MIN_BIT) (by decide) load
        have freshThere : Fresh vm.heap middle key := by
          unfold Fresh
          rw [rebuilt.entries]
          exact fresh
        have isTable : middle.isHt = true := by
          rw [isHt_iff, rebuilt.width]
          decide
        obtain ⟨after, put, added⟩ := @khPutTable_eq ω
          { vm with table := middle } key callbacks grown isTable held
          freshThere (by rw [rebuilt.entries]; exact roomy)
        simp only [if_pos full, EStateM.bind, ran]
        exact ⟨after, put, rebuilt.added added⟩

/-! ## The operations of a Set -/

/-- A value that is the same as no element is the same as none in the form it
would be stored in. -/
theorem NativeSet.fresh_storedKey
    (set : NativeSet heap h)
    (fresh : Fresh heap h key) :
    Fresh (storedKey heap key).2 h (storedKey heap key).1 := by
  intro entry member
  have grown := storedKey_extends heap key
  have native := set.native entry member
  have valid := validKey_of_isNative native
  have nativeAfter : isNative (storedKey heap key).2 entry.1 = true := by
    rw [isNative_of_extends grown valid]
    exact native
  have different := fresh entry member
  rw [← Bool.not_eq_true] at different ⊢
  intro same
  refine different ((ksetSame_iff native key).mpr ?_)
  have now := (ksetSame_iff nativeAfter _).mp same
  unfold elementContent at now ⊢
  rw [content_storedKey, content_of_extends grown valid] at now
  exact now

/-- `Set#include?` answers whether the list holds the element. -/
theorem setContains_eq
    (callbacks : Callbacks ω)
    (set : NativeSet vm.heap vm.table)
    (native : isNative vm.heap key = true)
    (frozen : Bool) :
    setContains callbacks (.set frozen) key vm =
      .ok (position vm.heap key vm.table.entries).isSome vm := by
  simp only [setContains, bind, EStateM.bind, khGet_eq callbacks set native]
  rfl

/-- `Set#add` of an element that is there changes nothing. -/
theorem setInsert_present
    (callbacks : Callbacks ω)
    (set : NativeSet vm.heap vm.table)
    (native : isNative vm.heap key = true)
    (present : position vm.heap key vm.table.entries = some p) :
    setInsert callbacks (.set false) key vm = .ok () vm := by
  simp only [setInsert, bind, EStateM.bind, khGet_eq callbacks set native,
    present]
  rfl

/-- `Set#add` of an element that is not there appends the stored form of it. -/
theorem setInsert_absent
    (callbacks : Callbacks ω)
    (set : NativeSet vm.heap vm.table)
    (native : isNative vm.heap key = true)
    (absent : position vm.heap key vm.table.entries = none)
    (roomy : vm.table.entries.length < elementLimit) :
    ∃ after, setInsert callbacks (.set false) key vm =
        .ok () { vm with
          table := after, heap := (storedKey vm.heap key).2 } ∧
      Added (storedKey vm.heap key).2 vm.table (storedKey vm.heap key).1
        after := by
  have fresh : Fresh vm.heap vm.table key := List.findIdx?_eq_none_iff.mp absent
  obtain ⟨after, put, added⟩ := @khPutNew_eq ω
    { vm with heap := (storedKey vm.heap key).2 } (storedKey vm.heap key).1
    callbacks (set.of_extends (storedKey_extends _ _))
    (heldKey_storedKey native) (set.fresh_storedKey fresh) roomy
  refine ⟨after, ?_, added⟩
  simp only [setInsert, bind, EStateM.bind, khGet_eq callbacks set native,
    absent, hKeyFor_eq]
  exact put

/-- What a removed element leaves behind. -/
structure Removed (heap : Heap) (before : HashData) (p : Nat)
    (after : HashData) : Prop where
  set : NativeSet heap after
  entries : after.entries = before.entries.eraseIdx p
  slots : after.slots = before.slots.eraseIdx p
  nUsed : after.nUsed = before.nUsed

/-- Removing an element keeps a Set. -/
theorem NativeSet.removeEntry
    (set : NativeSet heap h)
    (inside : p < h.entries.length) :
    ∃ entry after, h.removeEntry p = some (entry, after) ∧
      Removed heap h p after := by
  have fewer : (h.entries.eraseIdx p).length ≤ h.entries.length :=
    List.length_eraseIdx_le _ _
  refine ⟨_, _, removeEntry_eq set.slotsLength (List.getElem?_eq_getElem inside),
    ⟨?_, ?_, ?_, ?_, ?_⟩, rfl, rfl, rfl⟩
  · intro entry member
    exact set.held entry (List.mem_of_mem_eraseIdx member)
  · exact set.distinct.sublist (List.eraseIdx_sublist _ _)
  · simp only [List.length_eraseIdx, set.slotsLength]
  · intro noTable
    have few := set.small noTable
    exact Nat.le_trans fewer few
  · intro hasTable
    have before : h.isHt = true := hasTable
    have index := set.indexed before
    have load := index.load
    simp only [before, if_true]
    refine ⟨index.widthLow, index.widthHigh, ?_, ?_, ?_⟩
    · rw [List.length_map]
      exact index.bucketCount
    · have place : p <
          (h.entries.map fun entry => elementCode heap entry.1).length := by
        rw [List.length_map]
        exact inside
      have erased := index.indexes.erase place
      rw [List.eraseIdx_map] at erased
      exact erased
    · show 8 * (h.entries.eraseIdx p).length ≤ 7 * 2 ^ h.ibBit
      omega

/-- `Set#delete` of an element that is not there changes nothing. -/
theorem setRemove_absent
    (callbacks : Callbacks ω)
    (set : NativeSet vm.heap vm.table)
    (native : isNative vm.heap key = true)
    (absent : position vm.heap key vm.table.entries = none)
    (frozen : Bool) :
    setRemove callbacks (.set frozen) key vm = .ok false vm := by
  simp only [setRemove, bind, EStateM.bind, khGet_eq callbacks set native,
    absent]
  rfl

/-- `Set#delete` of an element that is there takes it out of the list. -/
theorem setRemove_present
    (callbacks : Callbacks ω)
    (set : NativeSet vm.heap vm.table)
    (native : isNative vm.heap key = true)
    (present : position vm.heap key vm.table.entries = some p)
    (frozen : Bool) :
    ∃ after, setRemove callbacks (.set frozen) key vm =
        .ok true { vm with table := after } ∧
      Removed vm.heap vm.table p after := by
  obtain ⟨inside, _⟩ := List.findIdx?_eq_some_iff_getElem.mp present
  obtain ⟨entry, after, taken, removed⟩ := set.removeEntry inside
  have isInside : p < vm.table.len := inside
  refine ⟨after, ?_, removed⟩
  simp only [setRemove, bind, EStateM.bind, khGet_eq callbacks set native,
    present, Exec.get_apply, if_pos isInside, taken, Exec.orPanic, pure,
    EStateM.pure, MonadStateOf.set, EStateM.set]

end Operations

end SabiRuby.SetTable
