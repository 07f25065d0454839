import SabiRuby.HashTable.Asking
import SabiRuby.SetTable.Elements

/-!
# The probe of a Set

The probe of a Set adds one more than before at each step, which goes through
the buckets of the triangular probe.  What its searches answer is therefore what
a search along that probe answers.
-/

namespace SabiRuby.SetTable

open Library HashTable

/-- The table of a Set indexes the elements. -/
structure Indexed (code : Value → Nat) (h : HashData) : Prop where
  /-- The smallest width. -/
  widthLow : 3 ≤ h.ibBit
  /-- The largest width. -/
  widthHigh : h.ibBit ≤ 31
  /-- The number of buckets is the power of two of the width. -/
  bucketCount : h.ib.length = 2 ^ h.ibBit
  /-- Every element is reached from its code. -/
  indexes : Indexes (probeAt h.mask) h.ib
    (h.entries.map fun entry => code entry.1)
  /-- The elements take at most seven eighths of the buckets. -/
  load : 8 * h.entries.length ≤ 7 * 2 ^ h.ibBit

variable {code : Value → Nat} {h : HashData}

theorem Indexed.mask_eq (index : Indexed code h) :
    h.mask = 2 ^ h.ibBit - 1 :=
  mask_of_le index.widthHigh

theorem Indexed.complete (index : Indexed code h) :
    CompleteProbe (probeAt h.mask) h.ib.length := by
  rw [index.bucketCount, index.mask_eq]
  exact probeAt_complete index.widthHigh

theorem Indexed.fewer (index : Indexed code h) :
    h.entries.length < h.ib.length := by
  have positive : 0 < 2 ^ h.ibBit := Nat.two_pow_pos _
  have load := index.load
  rw [index.bucketCount]
  omega

/-- The mask of a lookup is the mask of the table. -/
theorem lookupMask_two_pow (small : bit ≤ 31) :
    lookupMask (2 ^ bit) = 2 ^ bit - 1 := by
  have positive : 0 < 2 ^ bit := Nat.two_pow_pos bit
  have atMost : 2 ^ bit ≤ 2 ^ 31 := Nat.pow_le_pow_right Nat.two_pos small
  have word : 2 ^ bit % 2 ^ 32 = 2 ^ bit := Nat.mod_eq_of_lt (by omega)
  unfold lookupMask u32
  rw [word]
  omega

theorem Indexed.lookupMask_eq (index : Indexed code h) :
    lookupMask h.ib.length = h.mask := by
  rw [index.bucketCount, index.mask_eq, lookupMask_two_pow index.widthHigh]

/-- The first bucket of the probe. -/
theorem and_mask_eq_probeAt
    (small : bit ≤ 31)
    (code : Nat) :
    code &&& (2 ^ bit - 1) = probeAt (2 ^ bit - 1) code 0 := by
  rw [probeAt_eq_triangularProbe small, Nat.and_two_pow_sub_one_eq_mod]
  rfl

/-- The next bucket of the probe. -/
theorem nextBucket_probeAt
    (small : bit ≤ 31)
    (code step : Nat) :
    nextBucket (2 ^ bit - 1) (probeAt (2 ^ bit - 1) code step) (step + 1) =
      probeAt (2 ^ bit - 1) code (step + 1) := by
  have divides : 2 ^ bit ∣ 2 ^ 32 := Nat.pow_dvd_pow 2 (by omega)
  rw [probeAt_eq_triangularProbe small, probeAt_eq_triangularProbe small]
  unfold nextBucket triangularProbe u32
  rw [Nat.and_two_pow_sub_one_eq_mod, Nat.mod_mod_of_dvd _ divides,
    Nat.mod_add_mod, triangle_succ, Nat.add_assoc]

/-- The search for an empty bucket is the one of a Hash. -/
theorem khPlaceLoop_eq
    (small : h.ibBit ≤ 31)
    (code p step left : Nat) :
    khPlaceLoop h p h.mask left (probeAt h.mask code step) step =
      h.placeLoop code p step left := by
  induction left generalizing step with
  | zero => rfl
  | succ left ih =>
      have next : nextBucket h.mask (probeAt h.mask code step) (step + 1) =
          probeAt h.mask code (step + 1) := by
        rw [mask_of_le small]
        exact nextBucket_probeAt small code step
      unfold khPlaceLoop HashData.placeLoop
      dsimp only
      cases h.ib[probeAt h.mask code step]? with
      | none => rfl
      | some bucket =>
          cases bucket with
          | empty => rfl
          | deleted =>
              dsimp only
              rw [next]
              exact ih (step + 1)
          | live position =>
              dsimp only
              rw [next]
              exact ih (step + 1)

theorem khPlace_eq
    (small : h.ibBit ≤ 31)
    (bucketCount : h.ib.length = 2 ^ h.ibBit)
    (code p : Nat) :
    khPlace h code p = h.place code p := by
  have positive : 0 < 2 ^ h.ibBit := Nat.two_pow_pos _
  have first : code &&& h.mask = probeAt h.mask code 0 := by
    rw [mask_of_le small]
    exact and_mask_eq_probeAt small code
  have count : h.ib.length = h.mask + 1 := by
    rw [bucketCount, mask_of_le small]
    omega
  unfold khPlace HashData.place
  rw [first, count]
  exact khPlaceLoop_eq small code p 0 _

/-! ## Searches -/

/-- The element at a position is the same as a value. -/
def sameAt (heap : Heap) (key : Value) (entries : List Entry) (p : Nat) :
    Bool :=
  entries[p]?.any fun entry => ksetSame heap entry.1 key

theorem sameAt_iff
    {entries : List Entry} :
    sameAt heap key entries p = true ↔
      ∃ entry, entries[p]? = some entry ∧
        ksetSame heap entry.1 key = true := by
  unfold sameAt
  cases entries[p]? <;> simp

section Searches

variable {ω : Type} {vm : Vm ω}

/-- The search in a table of native elements is a search along the probe. -/
theorem khGetLoop_eq
    (callbacks : Callbacks ω)
    (index : Indexed code vm.table)
    (native : ∀ entry ∈ vm.table.entries, isNative vm.heap entry.1 = true)
    (key : Value)
    (target step left : Nat) :
    khGetLoop callbacks key (khMark vm.table) vm.table.mask left
        (probeAt vm.table.mask target step) step vm =
      .ok (scan (probeAt vm.table.mask) vm.table.ib target
        (sameAt vm.heap key vm.table.entries) step left).position? vm := by
  induction left generalizing step with
  | zero => rfl
  | succ left ih =>
      have next : nextBucket vm.table.mask
          (probeAt vm.table.mask target step) (step + 1) =
            probeAt vm.table.mask target (step + 1) := by
        rw [index.mask_eq]
        exact nextBucket_probeAt index.widthHigh target step
      obtain ⟨bucket, met⟩ : ∃ bucket,
          vm.table.ib[probeAt vm.table.mask target step]? = some bucket :=
        ⟨_, List.getElem?_eq_getElem (index.complete.inside target step)⟩
      have read : vm.table.bucket (probeAt vm.table.mask target step) =
          bucket := by
        unfold HashData.bucket
        rw [met, Option.getD_some]
      unfold khGetLoop scan
      simp only [bind, EStateM.bind, Exec.get_apply, read, met]
      cases bucket with
      | empty => rfl
      | deleted =>
          dsimp only
          rw [next]
          exact ih (step + 1)
      | live v =>
          have inside : v < vm.table.entries.length := by
            simpa using index.indexes.bounded _ v met
          have held := List.getElem?_eq_getElem inside
          have stored : (vm.table.keyAt v).getD .nil =
              vm.table.entries[v].1 := by
            unfold HashData.keyAt
            rw [held, Option.map_some, Option.getD_some]
          have compared := ksetEqual_native callbacks
            (native _ (List.getElem_mem inside)) key
          simp only [stored, EStateM.bind, compared, khVerify, bind,
            Exec.get_apply, if_true, pure, EStateM.pure, sameAt, held,
            Option.any_some]
          cases same : ksetSame vm.heap vm.table.entries[v].1 key with
          | true => rfl
          | false =>
              simp only [Bool.false_eq_true, if_false]
              rw [next]
              exact ih (step + 1)

/-- The search without a table of native elements. -/
theorem khGetSmallLoop_eq
    (callbacks : Callbacks ω)
    (native : ∀ entry ∈ vm.table.entries, isNative vm.heap entry.1 = true)
    (key : Value)
    (enough : vm.table.entries.length < i + fuel)
    (reached : i ≤ vm.table.entries.length)
    (before : ∀ p (inside : p < vm.table.entries.length), p < i →
      ksetSame vm.heap vm.table.entries[p].1 key = false) :
    khGetSmallLoop callbacks key fuel i vm =
      .ok (vm.table.entries.findIdx? fun entry =>
        ksetSame vm.heap entry.1 key) vm := by
  induction fuel generalizing i with
  | zero => omega
  | succ fuel ih =>
      unfold khGetSmallLoop
      simp only [bind, EStateM.bind, Exec.get_apply]
      rcases Nat.lt_or_eq_of_le reached with inside | last
      · have stored : vm.table.keyAt i = some vm.table.entries[i].1 := by
          unfold HashData.keyAt
          rw [List.getElem?_eq_getElem inside, Option.map_some]
        have compared := ksetEqual_native callbacks
          (native _ (List.getElem_mem inside)) key
        simp only [stored, EStateM.bind, compared, khVerify, bind,
          Exec.get_apply, if_true, pure, EStateM.pure]
        cases same : ksetSame vm.heap vm.table.entries[i].1 key with
        | true =>
            have first : (vm.table.entries.findIdx? fun entry =>
                ksetSame vm.heap entry.1 key) = some i := by
              rw [List.findIdx?_eq_some_iff_getElem]
              refine ⟨inside, same, ?_⟩
              intro p earlier
              simpa using before p (by omega) earlier
            rw [first]
            rfl
        | false =>
            simp only [Bool.false_eq_true, if_false]
            refine ih (by omega) inside ?_
            intro p bound earlier
            rcases Nat.lt_succ_iff_lt_or_eq.mp earlier with earlier | rfl
            · exact before p bound earlier
            · exact same
      · have past : vm.table.keyAt i = none := by
          unfold HashData.keyAt
          rw [List.getElem?_eq_none (Nat.le_of_eq last.symm), Option.map_none]
        have missing : (vm.table.entries.findIdx? fun entry =>
            ksetSame vm.heap entry.1 key) = none := by
          rw [List.findIdx?_eq_none_iff]
          intro entry member
          obtain ⟨p, bound, rfl⟩ := List.mem_iff_getElem.mp member
          exact before p bound (by omega)
        rw [past, missing]
        rfl

end Searches

/-! ## The bucket of a new element -/

theorem khSlotLoop_del
    (mask left b step deleted : Nat) :
    (khSlotLoop h mask left b step (some deleted)).1 = some deleted := by
  induction left generalizing b step with
  | zero => rfl
  | succ left ih =>
      unfold khSlotLoop
      cases h.bucket b with
      | empty => rfl
      | deleted => exact ih _ _
      | live position => exact ih _ _

/-- A bucket of the probe that is not live, with no empty one before it. -/
def Slot (h : HashData) (target b : Nat) : Prop :=
  ∃ step < h.ib.length, probeAt h.mask target step = b ∧
    (h.ib[b]? = some .empty ∨ h.ib[b]? = some .deleted) ∧
      ∀ earlier < step, h.ib[probeAt h.mask target earlier]? ≠ some .empty

/-- The search for a slot ends at one, unless all buckets it met are live. -/
theorem khSlotLoop_spec
    (index : Indexed code h)
    (target step left : Nat)
    (total : step + left = h.ib.length)
    (live : ∀ earlier < step, ∃ position : Nat,
      h.ib[probeAt h.mask target earlier]? = some (.live position)) :
    (∃ b, Slot h target b ∧
      ∃ empty, khSlotLoop h h.mask left (probeAt h.mask target step) step
        none = (some b, empty)) ∨
    (∃ b, Slot h target b ∧
      khSlotLoop h h.mask left (probeAt h.mask target step) step none =
        (none, some b)) ∨
    (∀ earlier < h.ib.length, ∃ position : Nat,
      h.ib[probeAt h.mask target earlier]? = some (.live position)) := by
  induction left generalizing step with
  | zero =>
      refine Or.inr (Or.inr ?_)
      rw [← total]
      exact live
  | succ left ih =>
      have next : nextBucket h.mask (probeAt h.mask target step) (step + 1) =
          probeAt h.mask target (step + 1) := by
        rw [index.mask_eq]
        exact nextBucket_probeAt index.widthHigh target step
      obtain ⟨bucket, met⟩ : ∃ bucket,
          h.ib[probeAt h.mask target step]? = some bucket :=
        ⟨_, List.getElem?_eq_getElem (index.complete.inside target step)⟩
      have read : h.bucket (probeAt h.mask target step) = bucket := by
        unfold HashData.bucket
        rw [met, Option.getD_some]
      have clear : ∀ earlier < step,
          h.ib[probeAt h.mask target earlier]? ≠ some .empty := by
        intro earlier before empty
        obtain ⟨position, held⟩ := live earlier before
        rw [held] at empty
        cases empty
      unfold khSlotLoop
      rw [read]
      cases bucket with
      | empty =>
          exact Or.inr (Or.inl ⟨_,
            ⟨step, by omega, rfl, Or.inl met, clear⟩, rfl⟩)
      | deleted =>
          refine Or.inl ⟨_, ⟨step, by omega, rfl, Or.inr met, clear⟩,
            (khSlotLoop h h.mask left (nextBucket h.mask
              (probeAt h.mask target step) (step + 1)) (step + 1)
              (some (probeAt h.mask target step))).2, ?_⟩
          exact Prod.ext (khSlotLoop_del _ _ _ _ _) rfl
      | live position =>
          dsimp only
          rw [next]
          refine ih (step + 1) (by omega) ?_
          intro earlier before
          rcases Nat.lt_succ_iff_lt_or_eq.mp before with before | rfl
          · exact live earlier before
          · exact ⟨position, met⟩

/-- A new element has a slot in a table with room. -/
theorem khSlotLoop_slot
    (index : Indexed code h)
    (target : Nat) :
    ∃ b, Slot h target b ∧
      ((∃ empty, khSlotLoop h h.mask h.ib.length (probeAt h.mask target 0) 0
        none = (some b, empty)) ∨
      khSlotLoop h h.mask h.ib.length (probeAt h.mask target 0) 0 none =
        (none, some b)) := by
  have fewer : (h.entries.map fun entry => code entry.1).length <
      h.ib.length := by
    rw [List.length_map]
    exact index.fewer
  obtain ⟨free, inside, notLive⟩ := index.indexes.exists_free fewer
  obtain ⟨step, bound, met⟩ := index.complete.meets target free inside
  rcases khSlotLoop_spec index target 0 h.ib.length (Nat.zero_add _)
      (by intro earlier none; exact absurd none (Nat.not_lt_zero _)) with
    ⟨b, slot, found⟩ | ⟨b, slot, found⟩ | full
  · exact ⟨b, slot, Or.inl found⟩
  · exact ⟨b, slot, Or.inr found⟩
  · obtain ⟨position, held⟩ := full step bound
    rw [met] at held
    exact absurd held (notLive position)

end SabiRuby.SetTable
