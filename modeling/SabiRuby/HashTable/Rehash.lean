import SabiRuby.HashTable.Store

/-!
# The rehash of distinct keys

A rehash of a Hash whose keys are distinct stores every entry again under the
slot of its position.  It keeps the entries; with an index it fills empty
buckets one entry at a time, so that a key that raises on the way leaves itself
and the later ones in no bucket.
-/

namespace SabiRuby.HashTable

open Library AssociationList
open Exec (satisfies_bind satisfies_get satisfies_get_bind satisfies_modify)

/-- The slots after the first `w` entries got the slot of their position. -/
def rehashedSlots (slots : List Nat) (w : Nat) : List Nat :=
  List.range w ++ slots.drop w

theorem le_of_ascending
    {slots : List Nat}
    {i : Nat}
    (ascending : slots.Pairwise (· < ·))
    (held : slots[i]? = some slot) : i ≤ slot := by
  obtain ⟨bound, rfl⟩ := List.getElem?_eq_some_iff.mp held
  have below : ∀ number ∈ slots.take i, number < slots[i] := by
    intro number member
    obtain ⟨j, inside, rfl⟩ := List.mem_iff_getElem.mp member
    rw [List.length_take] at inside
    rw [List.getElem_take]
    exact List.pairwise_iff_getElem.mp ascending j i (by omega) bound (by omega)
  have counted := length_le_of_ascending
    (ascending.sublist (List.take_sublist i slots)) below
  rw [List.length_take] at counted
  omega

@[simp] theorem rehashedSlots_zero (slots : List Nat) :
    rehashedSlots slots 0 = slots := by
  simp [rehashedSlots]

theorem length_rehashedSlots
    (atMost : w ≤ slots.length) :
    (rehashedSlots slots w).length = slots.length := by
  simp [rehashedSlots]
  omega

theorem rehashedSlots_ascending
    (ascending : slots.Pairwise (· < ·)) (w : Nat) :
    (rehashedSlots slots w).Pairwise (· < ·) := by
  refine List.pairwise_append.mpr ⟨List.pairwise_lt_range,
    ascending.sublist (List.drop_sublist w slots), ?_⟩
  intro low lowMember high highMember
  obtain ⟨i, held⟩ := List.mem_iff_getElem?.mp highMember
  rw [List.getElem?_drop] at held
  have := le_of_ascending ascending held
  have := List.mem_range.mp lowMember
  omega

/-- Giving the next entry the slot of its position. -/
theorem rehashedSlots_set
    (bound : w < slots.length) :
    (rehashedSlots slots w).set w w = rehashedSlots slots (w + 1) := by
  unfold rehashedSlots
  rw [List.set_append_right _ _ (by simp), List.length_range, Nat.sub_self,
    List.drop_eq_getElem_cons bound, List.set_cons_zero, List.range_succ,
    List.append_assoc, List.singleton_append]

section Rehash

variable {ω : Type} {callbacks : Callbacks ω} {oracle : KeyOracle ω}
variable {vm : Vm ω} {keys : Value → Prop}

/-- The search of a rehash without an index passes entries that are not the
key's. -/
theorem rehashArLoop_asks
    (searchable : Searchable callbacks oracle keys vm)
    (isKey : keys key)
    (inside : j + left ≤ vm.table.entries.length)
    (different : ∀ i entry, j ≤ i → i < j + left →
      vm.table.entries[i]? = some entry →
        oracle.same vm.heap key entry.1 = false) :
    Asks oracle (rehashArLoop callbacks key left j) vm
      (oracle.walkCalls vm.heap key ((vm.table.entries.drop j).take left))
      (.error 0) := by
  induction left generalizing j vm with
  | zero =>
      rw [List.take_zero]
      exact asks_pure vm _
  | succ left ih =>
      have bound : j < vm.table.entries.length := by omega
      have held := List.getElem?_eq_getElem bound
      have other := different j _ (Nat.le_refl _) (by omega) held
      rw [List.drop_eq_getElem_cons bound, List.take_succ_cons]
      unfold rehashArLoop KeyOracle.walkCalls
      refine (hCompare_asks searchable isKey held).bind fun world => ?_
      simp only [other, Bool.false_eq_true, if_false]
      refine @ih { vm with world := world } (j + 1)
        (searchable.setWorld world) (by dsimp only; omega) ?_
      intro i entry after before
      exact different i entry (by omega) (by omega)

/-- What the probe of a rehash answers with. -/
def rehashTarget : Scan → Except Nat Nat
  | .found position => .ok position
  | .vacant bucket => .error bucket
  | .exhausted => .error 0

/-- The probe of a rehash among buckets none of which is deleted asks for what
their scan finds. -/
theorem rehashHtLoop_asks
    (searchable : Searchable callbacks oracle keys vm)
    (isKey : keys key)
    (noDeleted : ∀ bucket : Nat, vm.table.ib[bucket]? ≠ some .deleted) :
    Asks oracle (rehashHtLoop callbacks key code mask step left) vm
      (oracle.probeCalls vm.heap vm.table key code mask step left)
      (rehashTarget (scan (probeAt mask) vm.table.ib code
        (fun p => vm.table.entries[p]?.any fun entry =>
          oracle.same vm.heap key entry.1) step left)) := by
  induction left generalizing step vm with
  | zero => exact asks_pure vm _
  | succ left ih =>
      have onward := fun world => @ih
        { vm with world := world } (step + 1) (searchable.setWorld world)
        noDeleted
      unfold rehashHtLoop scan KeyOracle.probeCalls
      rw [asks_get_bind]
      simp only [HashData.bucket]
      cases met : vm.table.ib[probeAt mask code step]? with
      | none => exact asks_pure vm _
      | some bucket =>
          cases bucket with
          | empty => exact asks_pure vm _
          | deleted => exact absurd met (noDeleted _)
          | live v =>
              simp only [Option.getD_some]
              cases held : vm.table.entries[v]? with
              | none =>
                  have nothing : vm.table.keyAt v = none := by
                    simp [HashData.keyAt, held]
                  unfold hCompare
                  rw [bind_assoc, asks_get_bind]
                  simp only [nothing]
                  exact onward vm.world
              | some entry =>
                  refine (hCompare_asks searchable isKey held).bind
                    fun world => ?_
                  by_cases same : oracle.same vm.heap key entry.1 = true
                  · simp only [same, if_true, Option.any_some]
                    exact asks_pure _ _
                  · simp only [same, if_false, Option.any_some,
                      Bool.false_eq_true]
                    exact onward world

/-- The slot of an entry still holds its key when nothing moved. -/
theorem hCheckVacated_eq
    (ascending : vm.table.slots.Pairwise (· < ·))
    (slotted : vm.table.slots[p]? = some slot)
    (held : vm.table.entries[p]? = some entry) :
    hCheckVacated slot entry.1 vm = .ok p vm := by
  unfold hCheckVacated
  simp only [bind, EStateM.bind, Exec.get_apply, slotHolds_self ascending
    slotted held, Exec.orPanic, pure, EStateM.pure]

/-- Moving an entry to the place it has is giving it the slot of its
position. -/
theorem rehashMove_eq
    (bound : w < vm.table.slots.length) (ht : Bool) (b : Nat) :
    rehashMove ht w w b vm = .ok () { vm with
      table := { vm.table with
        slots := vm.table.slots.set w w
        ib := if ht then vm.table.ib.set b (.live w) else vm.table.ib } } := by
  have slot : vm.table.setSlot w w =
      some { vm.table with slots := vm.table.slots.set w w } := by
    rw [HashData.setSlot, if_pos bound]
  cases ht <;>
    simp [rehashMove, tryTable, bind, EStateM.bind, Exec.get_apply, slot,
      Exec.orPanic, pure, EStateM.pure, set, MonadStateOf.set, EStateM.set,
      modifyTable, modify, modifyGet, MonadStateOf.modifyGet, EStateM.modifyGet,
      HashData.setBucket]

/-! ## Without an index -/

/-- A Hash without an index keeps its representation while the slots are given
anew. -/
theorem representation_rehashedSlots
    (rep : Representation code base)
    (noIndex : base.isHt = false)
    (atMost : w ≤ base.entries.length) :
    Representation code { base with
      slots := rehashedSlots base.slots w } := by
  have width := (not_isHt_iff base).mp noIndex
  obtain ⟨noBuckets, capa⟩ := rep.small noIndex
  have length := rep.slotsLength
  have used := rep.toStorage.length_le_nUsed
  refine representation_of_small ⟨?_, rehashedSlots_ascending rep.ascending w,
    ?_, rep.usedBound, rep.capaBound⟩ width noBuckets capa
  · exact (length_rehashedSlots (length ▸ atMost)).trans length
  · intro slot member
    rcases List.mem_append.mp member with low | high
    · exact Nat.lt_of_lt_of_le (List.mem_range.mp low) (atMost.trans used)
    · exact rep.slotsBound slot (List.mem_of_mem_drop high)

/-- A distinct key is not the key of an earlier entry. -/
theorem Sound.not_same
    {w i : Nat}
    (sound : Sound callbacks oracle keys vm)
    (held : vm.table.entries[w]? = some entry)
    (otherHeld : vm.table.entries[i]? = some other)
    (different : i ≠ w) :
    oracle.same vm.heap entry.1 other.1 = false := by
  obtain ⟨bound, rfl⟩ := List.getElem?_eq_some_iff.mp held
  obtain ⟨otherBound, rfl⟩ := List.getElem?_eq_some_iff.mp otherHeld
  have pairwise := List.pairwise_iff_getElem.mp
    (List.pairwise_map.mp sound.distinct)
  rw [KeyOracle.same, decide_eq_false_iff_not]
  rcases Nat.lt_or_gt_of_ne different with before | after
  · exact pairwise i w otherBound bound before
  · intro same
    exact pairwise w i bound otherBound after same.symm

/-- The loop of a rehash without an index. -/
theorem hRehashLoop_ar
    (sound : Sound callbacks oracle keys { vm with table := base })
    (noIndex : base.isHt = false)
    (total : w + left = base.entries.length)
    (shape : vm.table = { base with slots := rehashedSlots base.slots w }) :
    Exec.Satisfies (hRehashLoop callbacks false left w) vm
      (fun _ after => ∃ world, after = { vm with
        table := { base with
          slots := rehashedSlots base.slots base.entries.length }
        world := world })
      (fun _ after => oracle.raiseAt ≠ none ∧
        ∃ world, ∃ reached ≤ base.entries.length, after = { vm with
          table := { base with slots := rehashedSlots base.slots reached }
          world := world }) := by
  induction left generalizing w vm with
  | zero =>
      refine ⟨vm.world, ?_⟩
      rw [show base.entries.length = w by omega, ← shape]
  | succ left ih =>
      have rep := representation_rehashedSlots sound.representation noIndex
        (show w ≤ base.entries.length by omega)
      have here : Sound callbacks oracle keys vm := by
        have moved : Sound callbacks oracle keys { vm with
            table := { base with slots := rehashedSlots base.slots w } } :=
          sound.setTable rfl rep
        rwa [← shape] at moved
      have entries : vm.table.entries = base.entries := by rw [shape]
      have bound : w < vm.table.entries.length := by
        rw [entries]
        omega
      have held := List.getElem?_eq_getElem bound
      have slotBound : w < vm.table.slots.length := by
        rw [here.representation.slotsLength]
        exact bound
      have slotted := List.getElem?_eq_getElem slotBound
      have member := List.getElem_mem bound
      unfold hRehashLoop
      rw [satisfies_get_bind]
      simp only [HashData.keyAt, held, Option.map_some, HashData.slotAt,
        slotted]
      rw [satisfies_bind, Exec.satisfies_orPanic]
      refine ⟨_, rfl, ?_⟩
      simp only [Bool.false_eq_true, if_false]
      refine (rehashArLoop_asks here.searchable (here.stored _ member)
        (by omega) ?_).satisfies_bind ?_ ?_
      · intro i entry _ before otherHeld
        exact here.not_same held otherHeld (by omega)
      · intro world _ _
        have later := here.setWorld world
        have vacated := hCheckVacated_eq later.representation.ascending slotted
          held
        have moved := @rehashMove_eq _ { vm with world := world } w slotBound
          false 0
        rw [Exec.satisfies_bind_of_ok vacated]
        simp only
        rw [Exec.satisfies_bind_of_ok moved]
        refine @ih { vm with
          table := { vm.table with slots := vm.table.slots.set w w }
          world := world } (w + 1) (sound.setWorld world) (by omega) ?_
        simp only [shape]
        rw [rehashedSlots_set]
        rw [sound.representation.slotsLength]
        show w < base.entries.length
        omega
      · intro error world within
        refine ⟨within.raises, world, w, by omega, ?_⟩
        rw [← shape]

/-! ## With an index -/

/-- A rehash under way: the first `w` entries have the slots of their positions
and are in the index, and no bucket is deleted. -/
structure Rehashing
    (code : Value → Nat)
    (base : HashData)
    (w : Nat)
    (table : HashData) : Prop where
  shape : table = { base with
    slots := rehashedSlots base.slots w
    ib := table.ib }
  bucketCount : table.ib.length = base.ib.length
  indexes : Indexes (probeAt base.mask) table.ib
    ((base.entries.map fun entry => code entry.1).take w)
  used : usedBuckets table.ib = w
  noDeleted : ∀ bucket : Nat, table.ib[bucket]? ≠ some .deleted

/-- A Hash with emptied buckets that a rehash can fill. -/
structure Refillable
    (callbacks : Callbacks ω)
    (oracle : KeyOracle ω)
    (keys : Value → Prop)
    (heap : Heap)
    (base : HashData) : Prop where
  consistent : Consistent callbacks oracle heap keys
  slotsLength : base.slots.length = base.entries.length
  ascending : base.slots.Pairwise (· < ·)
  distinct : Distinct (oracle.content heap) base.entries
  stored : ∀ entry ∈ base.entries, keys entry.1
  maskEq : base.mask + 1 = base.ib.length
  complete : CompleteProbe (probeAt base.mask) base.ib.length
  /-- There are more buckets than entries. -/
  roomy : base.entries.length < base.ib.length

/-- The keys of a Hash in the middle of a rehash can be searched for. -/
theorem Rehashing.searchable
    (refillable : Refillable callbacks oracle keys vm.heap base)
    (rehashing : Rehashing code base w vm.table)
    (atMost : w ≤ base.entries.length) :
    Searchable callbacks oracle keys vm := by
  have shape := rehashing.shape
  have entries : vm.table.entries = base.entries := by rw [shape]
  have slots : vm.table.slots = rehashedSlots base.slots w := by rw [shape]
  refine ⟨refillable.consistent, ?_, ?_, ?_⟩
  · rw [slots, entries, ← refillable.slotsLength]
    exact length_rehashedSlots (refillable.slotsLength ▸ atMost)
  · rw [slots]
    exact rehashedSlots_ascending refillable.ascending w
  · intro entry member
    rw [entries] at member
    exact refillable.consistent.valid _ (refillable.stored entry member)

/-- The probe of the next entry ends at the first empty bucket. -/
theorem Rehashing.vacant
    (refillable : Refillable callbacks oracle keys heap base)
    (rehashing : Rehashing (oracle.code heap) base w table)
    (held : base.entries[w]? = some entry)
    (code : Nat) :
    ∃ b, scan (probeAt base.mask) table.ib code
        (fun p => base.entries[p]?.any fun other =>
          oracle.same heap entry.1 other.1) 0 table.ib.length = .vacant b ∧
      FirstEmpty (probeAt base.mask) table.ib code b := by
  obtain ⟨bound, here⟩ := List.getElem?_eq_some_iff.mp held
  have complete := refillable.complete
  rw [← rehashing.bucketCount] at complete
  refine scan_eq_vacant complete (exists_empty_of_usedBuckets_lt ?_) ?_
  · rw [rehashing.used, rehashing.bucketCount]
    exact Nat.lt_trans bound refillable.roomy
  · intro step p met
    have earlier := rehashing.indexes.bounded _ p met
    rw [List.length_take] at earlier
    have otherBound : p < base.entries.length := by omega
    have different := List.pairwise_iff_getElem.mp
      (List.pairwise_map.mp refillable.distinct) p w otherBound bound
      (by omega)
    rw [List.getElem?_eq_getElem otherBound, Option.any_some, KeyOracle.same,
      decide_eq_false_iff_not, ← here]
    exact different

/-- The next entry is in the index after it was put into the bucket. -/
theorem Rehashing.next
    (rehashing : Rehashing code base w table)
    (slotsLength : base.slots.length = base.entries.length)
    (held : base.entries[w]? = some entry)
    (firstEmpty : FirstEmpty (probeAt base.mask) table.ib (code entry.1) b) :
    Rehashing code base (w + 1) { table with
      slots := table.slots.set w w
      ib := table.ib.set b (.live w) } := by
  obtain ⟨bound, here⟩ := List.getElem?_eq_some_iff.mp held
  obtain ⟨step, stepBound, met, empty, clear⟩ := firstEmpty
  have codes : (base.entries.map fun entry => code entry.1).take (w + 1) =
      (base.entries.map fun entry => code entry.1).take w ++
        [code entry.1] := by
    rw [List.take_succ_eq_append_getElem (by simpa using bound),
      List.getElem_map, here]
  have placed : ((base.entries.map fun entry => code entry.1).take w).length =
      w := by
    rw [List.length_take, List.length_map]
    omega
  refine ⟨?_, by simpa using rehashing.bucketCount, ?_, ?_, ?_⟩
  · have shape := rehashing.shape
    have slots : table.slots = rehashedSlots base.slots w := by rw [shape]
    rw [slots, rehashedSlots_set (by omega)]
    rw [shape]
  · have there : table.ib[probeAt base.mask (code entry.1) step]? =
        some .empty := met ▸ empty
    have inserted := rehashing.indexes.insert stepBound (Or.inl there) clear
    rw [met, placed] at inserted
    rw [codes]
    exact inserted
  · rw [usedBuckets_set_of_empty empty, rehashing.used]
  · intro bucket deleted
    rw [List.getElem?_set] at deleted
    split at deleted
    · split at deleted <;> simp at deleted
    · exact rehashing.noDeleted bucket deleted

/-- The loop of a rehash with an index. -/
theorem hRehashLoop_ht
    (refillable : Refillable callbacks oracle keys vm.heap base)
    (total : w + left = base.entries.length)
    (rehashing : Rehashing (oracle.code vm.heap) base w vm.table) :
    Exec.Satisfies (hRehashLoop callbacks true left w) vm
      (fun _ after => ∃ world table, after = { vm with
        table := table
        world := world } ∧
          Rehashing (oracle.code vm.heap) base base.entries.length table)
      (fun _ after => oracle.raiseAt ≠ none ∧
        ∃ world table, ∃ reached < base.entries.length, after = { vm with
          table := table
          world := world } ∧
            Rehashing (oracle.code vm.heap) base reached table) := by
  induction left generalizing w vm with
  | zero =>
      refine ⟨vm.world, vm.table, rfl, ?_⟩
      rw [show base.entries.length = w by omega]
      exact rehashing
  | succ left ih =>
      have searchable := rehashing.searchable refillable (by omega)
      have shape := rehashing.shape
      have entries : vm.table.entries = base.entries := by rw [shape]
      have mask : vm.table.mask = base.mask := by rw [shape]; rfl
      have bound : w < vm.table.entries.length := by
        rw [entries]
        omega
      obtain ⟨entry, held⟩ : ∃ entry, vm.table.entries[w]? = some entry :=
        ⟨_, List.getElem?_eq_getElem bound⟩
      have slotBound : w < vm.table.slots.length := by
        rw [searchable.slotsLength]
        exact bound
      have slotted := List.getElem?_eq_getElem slotBound
      have baseHeld : base.entries[w]? = some entry := by
        rw [← held, entries]
      have isKey : keys entry.1 :=
        refillable.stored _ (List.mem_of_getElem? baseHeld)
      obtain ⟨b, scanned, firstEmpty⟩ := rehashing.vacant refillable baseHeld
        (oracle.code vm.heap entry.1)
      unfold hRehashLoop
      rw [satisfies_get_bind]
      simp only [HashData.keyAt, held, Option.map_some, HashData.slotAt,
        slotted]
      rw [satisfies_bind, Exec.satisfies_orPanic]
      refine ⟨_, rfl, ?_⟩
      simp only [if_true]
      refine (hCode_asks searchable.consistent searchable.slotsLength
        isKey).satisfies_bind ?_ ?_
      · intro world _ _
        rw [satisfies_get_bind]
        have probed : Asks oracle (rehashHtLoop callbacks entry.1
            (oracle.code vm.heap entry.1) vm.table.mask 0
            (vm.table.mask + 1)) { vm with world := world } _ _ :=
          rehashHtLoop_asks (searchable.setWorld world) isKey
            rehashing.noDeleted
        refine probed.satisfies_bind ?_ ?_
        · intro later _ _
          have size : base.mask + 1 = vm.table.ib.length := by
            rw [rehashing.bucketCount]
            exact refillable.maskEq
          have vacated := hCheckVacated_eq
            (searchable.setWorld later).ascending slotted held
          have moved := @rehashMove_eq _ { vm with world := later } w slotBound
            true b
          rw [Exec.satisfies_bind_of_ok vacated]
          dsimp only
          rw [mask, entries, size, scanned]
          simp only [rehashTarget]
          rw [Exec.satisfies_bind_of_ok moved]
          exact @ih { vm with
              table := { vm.table with
                slots := vm.table.slots.set w w
                ib := vm.table.ib.set b (.live w) }
              world := later } (w + 1) refillable (by omega)
            (rehashing.next refillable.slotsLength baseHeld firstEmpty)
        · intro error later within
          exact ⟨within.raises, later, vm.table, w, by omega, rfl, rehashing⟩
      · intro error world within
        exact ⟨within.raises, world, vm.table, w, by omega, rfl, rehashing⟩

/-! ## The whole rehash -/

/-- The entries and the heap are as before and the Hash is sound. -/
structure Rehashed
    (callbacks : Callbacks ω)
    (oracle : KeyOracle ω)
    (keys : Value → Prop)
    (before after : Vm ω) : Prop where
  sound : Sound callbacks oracle keys after
  heap : after.heap = before.heap
  entries : after.table.entries = before.table.entries

section

variable (sound : Sound callbacks oracle keys vm)
include sound

/-- A rehash without an index. -/
theorem hRehashAll_ar
    (noIndex : vm.table.isHt = false) :
    Exec.Satisfies (hRehashAll callbacks vm.table.entries.length) vm
      (fun _ after => Rehashed callbacks oracle keys vm after)
      (fun _ after => oracle.raiseAt ≠ none ∧ Intact oracle vm after) := by
  have storage := sound.representation.toStorage
  have length := storage.u32_length
  have entriesBound := storage.length_le_nUsed
  have capaBound := storage.usedBound
  obtain ⟨noBuckets, small⟩ := sound.representation.small noIndex
  unfold hRehashAll
  rw [satisfies_get_bind]
  simp only [noIndex, Bool.false_eq_true, if_false, false_and]
  rw [satisfies_bind]
  have start : vm.table = { vm.table with
      slots := rehashedSlots vm.table.slots 0 } := by
    rw [rehashedSlots_zero]
  refine (hRehashLoop_ar sound noIndex (Nat.zero_add _) start).mono ?_ ?_
  · rintro _ after ⟨world, rfl⟩
    unfold modifyTable
    simp only [satisfies_bind, satisfies_get, satisfies_modify]
    have slots : rehashedSlots vm.table.slots vm.table.entries.length =
        List.range vm.table.entries.length := by
      unfold rehashedSlots
      rw [List.drop_eq_nil_of_le (by rw [storage.slotsLength]),
        List.append_nil]
    refine ⟨(sound.setWorld world).setTable rfl ?_, rfl, rfl⟩
    refine representation_of_small ⟨?_, ?_, ?_, ?_, ?_⟩
      ((not_isHt_iff _).mp noIndex) noBuckets ?_
    · show (rehashedSlots vm.table.slots vm.table.entries.length).length =
        vm.table.entries.length
      rw [slots, List.length_range]
    · exact rehashedSlots_ascending storage.ascending _
    · show ∀ slot ∈ rehashedSlots vm.table.slots vm.table.entries.length,
        slot < u32 vm.table.entries.length
      rw [slots, length]
      exact fun slot member => List.mem_range.mp member
    · show u32 vm.table.entries.length ≤
        eaNextCapaFor (u32 vm.table.entries.length) vm.table.eaCapa
      rw [length]
      exact le_eaNextCapaFor (entriesBound.trans capaBound)
    · show eaNextCapaFor (u32 vm.table.entries.length) vm.table.eaCapa ≤ _
      rcases eaNextCapaFor_le (u32 vm.table.entries.length) vm.table.eaCapa with
        atMost | least
      · exact atMost.trans storage.capaBound
      · rw [least]
        decide
    · show eaNextCapaFor (u32 vm.table.entries.length) vm.table.eaCapa ≤ _
      rcases eaNextCapaFor_le (u32 vm.table.entries.length) vm.table.eaCapa with
        atMost | least
      · exact atMost.trans small
      · rw [least]
        decide
  · rintro _ after ⟨raises, world, reached, atMost, rfl⟩
    exact ⟨raises, GrownBy.refl _, rfl,
      representation_rehashedSlots sound.representation noIndex atMost⟩

/-- The emptied index of a Hash of more than sixteen entries can be filled. -/
theorem Sound.refillable
    (hasIndex : vm.table.isHt = true)
    (many : AR_MAX_SIZE < vm.table.entries.length) :
    Refillable callbacks oracle keys vm.heap
      ((vm.table.htReset (ibBitFor vm.table.entries.length)).setNUsed 0) := by
  obtain ⟨widthLow, widthHigh⟩ := ibBitFor_range many
  have index := sound.representation.indexed hasIndex
  have load := index.load
  have widest : 2 ^ vm.table.ibBit ≤ 2 ^ 31 :=
    Nat.pow_le_pow_right (by omega) index.widthHigh
  have newLoad := ibBitFor_load many (by omega)
  have positive := Nat.two_pow_pos (ibBitFor vm.table.entries.length)
  have mask : ((vm.table.htReset
      (ibBitFor vm.table.entries.length)).setNUsed 0).mask =
        2 ^ ibBitFor vm.table.entries.length - 1 :=
    mask_of_le widthHigh
  have buckets : ((vm.table.htReset
      (ibBitFor vm.table.entries.length)).setNUsed 0).ib.length =
        2 ^ ibBitFor vm.table.entries.length := by
    simp [HashData.htReset, HashData.setNUsed]
  refine ⟨sound.consistent, sound.representation.slotsLength,
    sound.representation.ascending, sound.distinct, sound.stored, ?_, ?_, ?_⟩
  · rw [mask, buckets]
    exact Nat.sub_add_cancel positive
  · rw [mask, buckets]
    exact probeAt_complete widthHigh
  · rw [buckets]
    show vm.table.entries.length < _
    unfold AR_MAX_SIZE at many
    omega

/-- A rehash with an index. -/
theorem hRehashAll_ht
    (hasIndex : vm.table.isHt = true)
    (many : AR_MAX_SIZE < vm.table.entries.length) :
    Exec.Satisfies (hRehashAll callbacks vm.table.entries.length) vm
      (fun _ after => Rehashed callbacks oracle keys vm after)
      (fun _ after => oracle.raiseAt ≠ none ∧ Damaged vm after) := by
  have storage := sound.representation.toStorage
  have length := storage.u32_length
  have refillable := sound.refillable hasIndex many
  obtain ⟨widthLow, widthHigh⟩ := ibBitFor_range many
  have index := sound.representation.indexed hasIndex
  have oldLoad := index.load
  have widest : 2 ^ vm.table.ibBit ≤ 2 ^ 31 :=
    Nat.pow_le_pow_right (by omega) index.widthHigh
  have load := ibBitFor_load many (by omega)
  have large := Nat.pow_le_pow_right (show 0 < 2 by omega) widthLow
  have bound := storage.length_le_nUsed.trans storage.usedBound
  have start : Rehashing (oracle.code vm.heap)
      ((vm.table.htReset (ibBitFor vm.table.entries.length)).setNUsed 0) 0
      ((vm.table.htReset (ibBitFor vm.table.entries.length)).setNUsed 0) := by
    refine ⟨by rw [rehashedSlots_zero], rfl, ?_, ?_, ?_⟩
    · rw [List.take_zero]
      exact Indexes.replicate_empty _ _
    · exact usedBuckets_replicate_empty _
    · intro bucket deleted
      simp only [HashData.setNUsed, HashData.htReset,
        List.getElem?_replicate] at deleted
      split at deleted <;> simp at deleted
  unfold hRehashAll
  rw [satisfies_get_bind]
  simp only [hasIndex, if_true, true_and]
  unfold modifyTable
  rw [satisfies_bind, satisfies_modify, satisfies_bind]
  have filled : Exec.Satisfies
      (hRehashLoop callbacks true vm.table.entries.length 0)
      { vm with table := (vm.table.htReset
        (ibBitFor vm.table.entries.length)).setNUsed 0 } _ _ :=
    hRehashLoop_ht refillable (Nat.zero_add _) start
  refine filled.mono ?_ ?_
  · rintro _ after ⟨world, table, rfl, rehashing⟩
    obtain ⟨shape, bucketCount, indexes, used, _⟩ := rehashing
    have entries : table.entries = vm.table.entries := by rw [shape]; rfl
    have slots : table.slots = List.range vm.table.entries.length := by
      rw [shape]
      show rehashedSlots vm.table.slots vm.table.entries.length = _
      unfold rehashedSlots
      rw [List.drop_eq_nil_of_le (by rw [storage.slotsLength]),
        List.append_nil]
    have width : table.ibBit = ibBitFor vm.table.entries.length := by
      rw [shape]
      rfl
    have buckets : table.ib.length = 2 ^ table.ibBit := by
      rw [bucketCount, width]
      exact List.length_replicate
    have mask : table.mask = ((vm.table.htReset
        (ibBitFor vm.table.entries.length)).setNUsed 0).mask := by
      rw [shape]
      rfl
    have size : u32 table.len = vm.table.entries.length := by
      rw [HashData.len, entries]
      exact length
    simp only [satisfies_bind, satisfies_get, satisfies_modify]
    rw [size, if_neg (Nat.not_le.mpr many), satisfies_modify]
    refine ⟨(sound.setWorld world).setTable entries ⟨⟨?_, ?_, ?_, ?_, ?_⟩,
      ?_, ?_⟩, rfl, entries⟩
    · show table.slots.length = table.entries.length
      rw [slots, entries, List.length_range]
    · show table.slots.Pairwise (· < ·)
      rw [slots]
      exact List.pairwise_lt_range
    · show ∀ slot ∈ table.slots, slot < vm.table.entries.length
      rw [slots]
      exact fun slot member => List.mem_range.mp member
    · exact le_eaNextCapaFor bound
    · show eaNextCapaFor vm.table.entries.length vm.table.eaCapa ≤ _
      rcases eaNextCapaFor_le vm.table.entries.length vm.table.eaCapa with
        atMost | least
      · exact atMost.trans storage.capaBound
      · rw [least]
        decide
    · intro noIndex
      have zero : table.ibBit = 0 := (not_isHt_iff _).mp noIndex
      omega
    · intro _
      refine ⟨?_, ?_, buckets, ?_, used, ?_, ?_⟩
      · show 5 ≤ table.ibBit
        omega
      · show table.ibBit ≤ 31
        omega
      · have all : ((vm.table.htReset (ibBitFor
            vm.table.entries.length)).setNUsed 0).entries = table.entries := by
          rw [entries]
          rfl
        rw [all, List.take_of_length_le (by rw [List.length_map]),
          ← mask] at indexes
        exact indexes
      · show vm.table.entries.length + 2 ≤ 2 ^ table.ibBit
        rw [width]
        omega
      · show 4 * table.entries.length ≤ 3 * 2 ^ table.ibBit
        rw [width, entries]
        exact load
  · rintro _ after ⟨raises, world, table, reached, before, rfl, rehashing⟩
    have searchable : Searchable callbacks oracle keys
        { vm with table := table, world := world } :=
      rehashing.searchable refillable (Nat.le_of_lt before)
    obtain ⟨shape, bucketCount, indexes, _, _⟩ := rehashing
    have entries : table.entries = vm.table.entries := by rw [shape]; rfl
    have live : ∀ b q : Nat, table.ib[b]? = some (.live q) → q < reached := by
      intro b q held
      have := indexes.bounded b q held
      rw [List.length_take] at this
      omega
    refine ⟨raises, GrownBy.refl _, entries, ?_, searchable.slotsLength,
      searchable.ascending, ⟨?_, ?_⟩, reached, ?_, ?_⟩
    · show table.isHt = true
      rw [isHt_iff, shape]
      show ibBitFor vm.table.entries.length ≠ 0
      omega
    · show table.mask < table.ib.length
      have maskEq := refillable.maskEq
      have mask : table.mask = ((vm.table.htReset
          (ibBitFor vm.table.entries.length)).setNUsed 0).mask := by
        rw [shape]
        rfl
      omega
    · intro b q held
      show q < table.entries.length
      rw [entries]
      exact Nat.lt_trans (live b q held) before
    · show reached < table.entries.length
      rw [entries]
      exact before
    · intro b held
      exact absurd (live b reached held) (Nat.lt_irrefl _)

/-- A rehash keeps the entries.  When it raises, the Hash is intact if it has no
index after the first step, and has lost an entry otherwise. -/
theorem hRehash_outcome :
    Exec.Satisfies (hRehash callbacks) vm
      (fun _ after => Rehashed callbacks oracle keys vm after)
      (fun _ after => oracle.raiseAt ≠ none ∧
        if vm.table.isHt = true ∧ AR_MAX_SIZE < vm.table.entries.length then
          Damaged vm after
        else Intact oracle vm after) := by
  have storage := sound.representation.toStorage
  have length : u32 vm.table.len = vm.table.entries.length :=
    storage.u32_length
  unfold hRehash
  rw [satisfies_get_bind]
  simp only [length]
  by_cases none : vm.table.entries.length = 0
  · rw [if_pos none]
    unfold modifyTable
    rw [satisfies_modify]
    have empty : vm.table.clear.entries = vm.table.entries := by
      rw [List.length_eq_zero_iff.mp none]
      rfl
    exact ⟨sound.setTable empty (representation_clear _ _), rfl, empty⟩
  · rw [if_neg none]
    cases hasIndex : vm.table.isHt with
    | false =>
        simp only [Bool.false_eq_true, false_and, if_false]
        exact hRehashAll_ar sound hasIndex
    | true =>
        simp only [true_and]
        by_cases many : AR_MAX_SIZE < vm.table.entries.length
        · rw [if_neg (Nat.not_le.mpr many)]
          simp only [if_pos many]
          exact hRehashAll_ht sound hasIndex many
        · rw [if_pos (Nat.not_lt.mp many)]
          simp only [if_neg many]
          have without : Sound callbacks oracle keys
              { vm with table := vm.table.toAr } :=
            sound.setTable rfl
              (representation_toAr storage (Nat.not_lt.mp many))
          unfold modifyTable
          rw [satisfies_bind, satisfies_modify]
          exact (hRehashAll_ar without rfl).mono
            (fun _ _ done => ⟨done.sound, done.heap, done.entries⟩)
            (fun _ _ ⟨raises, intact⟩ => ⟨raises, intact.grown,
              intact.entries, intact.representation⟩)

end

end Rehash

end SabiRuby.HashTable
