import Mathlib.Data.Nat.Bitwise
import SabiRuby.HashTable.Data

/-!
# Probe and capacity arithmetic

The probe of the source is the triangular one for every width an index can have,
and the capacities the source computes leave the room that its operations rely
on.  `place` is the search of the library for the first empty bucket.
-/

namespace SabiRuby.HashTable

open Library

theorem shiftOne_of_lt (small : bit < 32) : shiftOne bit = 2 ^ bit := by
  rw [shiftOne, Nat.mod_eq_of_lt small]

theorem u32_of_lt (small : number < 2 ^ 32) : u32 number = number :=
  Nat.mod_eq_of_lt small

/-- The wrapping square of a step, halved, is its triangular number up to the
top bit. -/
theorem wrapped_triangle (step : Nat) :
    u32 (u32 (step * step) + step) / 2 = triangle step % 2 ^ 31 := by
  have twice := two_mul_triangle step
  have square : step * (step + 1) = step * step + step := by ring
  unfold u32
  rw [Nat.mod_add_mod, ← square, ← twice]
  omega

/-- The probe of the source is triangular for every width up to 31. -/
theorem probeAt_eq_triangularProbe
    (small : bit ≤ 31) (code step : Nat) :
    probeAt (2 ^ bit - 1) code step =
      triangularProbe (2 ^ bit) code step := by
  unfold probeAt triangularProbe
  rw [wrapped_triangle, Nat.and_two_pow_sub_one_eq_mod]
  have divides : 2 ^ bit ∣ 2 ^ 31 := Nat.pow_dvd_pow 2 small
  have dividesWord : 2 ^ bit ∣ 2 ^ 32 := Nat.pow_dvd_pow 2 (by omega)
  unfold u32
  rw [Nat.mod_mod_of_dvd _ dividesWord, Nat.add_mod,
    Nat.mod_mod_of_dvd _ divides, ← Nat.add_mod]

/-- The probe of the source meets every bucket. -/
theorem probeAt_complete (small : bit ≤ 31) :
    CompleteProbe (probeAt (2 ^ bit - 1)) (2 ^ bit) := by
  have same : probeAt (2 ^ bit - 1) = triangularProbe (2 ^ bit) := by
    funext code step
    exact probeAt_eq_triangularProbe small code step
  rw [same]
  exact triangularProbe_complete bit

/-- Whatever the mask, the probe stays at or below it. -/
theorem probeAt_le (mask code step : Nat) : probeAt mask code step ≤ mask :=
  Nat.and_le_right

/-! ## Capacities -/

theorem ibUpperBoundFor_two_pow (bit : Nat) :
    ibUpperBoundFor (2 ^ (bit + 2)) = 3 * 2 ^ bit := by
  unfold ibUpperBoundFor
  have quarter : 2 ^ (bit + 2) >>> 2 = 2 ^ bit := by
    rw [Nat.shiftRight_eq_div_pow, Nat.pow_add]
    exact Nat.mul_div_cancel _ (by omega)
  have half : 2 ^ (bit + 2) >>> 1 = 2 ^ (bit + 1) := by
    rw [Nat.shiftRight_eq_div_pow, show bit + 2 = bit + 1 + 1 by omega,
      Nat.pow_succ]
    exact Nat.mul_div_cancel _ (by omega)
  have disjoint := Nat.two_pow_add_eq_or_of_lt
    (show 2 ^ bit < 2 ^ (bit + 1) from
      Nat.pow_lt_pow_right (by omega) (by omega)) 1
  rw [quarter, half, Nat.or_comm]
  rw [Nat.mul_one] at disjoint
  rw [← disjoint, Nat.pow_succ]
  omega

theorem ibUpperBoundFor_of_le (atLeast : 2 ≤ bit) :
    4 * ibUpperBoundFor (2 ^ bit) = 3 * 2 ^ bit := by
  obtain ⟨more, rfl⟩ := Nat.exists_eq_add_of_le' atLeast
  rw [ibUpperBoundFor_two_pow, Nat.pow_add]
  omega

theorem size_lt_two_pow_bitLength (size : Nat) :
    size < 2 ^ bitLength size := by
  unfold bitLength
  split
  · omega
  · exact Nat.lt_log2_self

theorem bitLength_le_iff (size bits : Nat) :
    bitLength size ≤ bits ↔ size < 2 ^ bits := by
  unfold bitLength
  split
  · rename_i zero
    simp [zero]
  · rename_i nonzero
    rw [Nat.succ_le_iff, Nat.log2_lt nonzero]

/-- The bucket width for an indexed table is between 5 and 31. -/
theorem ibBitFor_range (large : 16 < size) :
    5 ≤ ibBitFor size ∧ ibBitFor size ≤ 31 := by
  have atLeast : 5 ≤ bitLength size := by
    by_contra below
    have := (bitLength_le_iff size 4).mp (by omega)
    omega
  unfold ibBitFor
  simp only
  split <;> omega

/-- The buckets of that width hold the entries within three quarters, up to the
size the widest index has room for. -/
theorem ibBitFor_load
    (large : 16 < size)
    (bound : size ≤ 3 * 2 ^ 29) :
    4 * size ≤ 3 * 2 ^ ibBitFor size := by
  have atLeast : 5 ≤ bitLength size := by
    by_contra below
    have := (bitLength_le_iff size 4).mp (by omega)
    omega
  have below := size_lt_two_pow_bitLength size
  have atMost : bitLength size ≤ 31 := by
    rw [bitLength_le_iff]
    omega
  unfold ibBitFor
  simp only [Nat.min_eq_left atMost]
  split
  · rw [Nat.pow_succ]
    omega
  · rename_i enough
    rcases Nat.eq_or_lt_of_le atMost with top | inner
    · rw [top]
      omega
    · have := ibUpperBoundFor_of_le (show 2 ≤ bitLength size by omega)
      have : size ≤ ibUpperBoundFor (2 ^ bitLength size) := by
        by_contra beyond
        exact enough ⟨by omega, by omega⟩
      omega

/-- The next capacity holds the entries. -/
theorem le_eaNextCapaFor (fits : size ≤ limit) :
    size ≤ eaNextCapaFor size limit := by
  unfold eaNextCapaFor AR_DEFAULT_CAPA EA_MAX_INCREASE
  simp only
  split
  · omega
  · split <;> split <;> omega

/-- The next capacity holds one entry more, below the largest capacity. -/
theorem lt_eaNextCapaFor (fits : size < limit) :
    size < eaNextCapaFor size limit := by
  unfold eaNextCapaFor AR_DEFAULT_CAPA EA_MAX_INCREASE
  simp only
  split
  · omega
  · split <;> split <;> omega

/-- The next capacity is at most the largest one, or the smallest one. -/
theorem eaNextCapaFor_le (size limit : Nat) :
    eaNextCapaFor size limit ≤ limit ∨ eaNextCapaFor size limit = 4 := by
  unfold eaNextCapaFor AR_DEFAULT_CAPA EA_MAX_INCREASE
  simp only
  split
  · exact Or.inr rfl
  · left
    split <;> split <;> omega

/-! ## Placing -/

/-- `place` is the search for the first empty bucket. -/
theorem placeLoop_eq_scan
    (h : HashData) (code p step left : Nat)
    (inside : ∀ step, probeAt h.mask code step < h.ib.length) :
    h.placeLoop code p step left =
      match scan (probeAt h.mask) h.ib code (fun _ => false) step left with
      | .vacant b => some { h with ib := h.ib.set b (.live p) }
      | _ => some h := by
  induction left generalizing step with
  | zero => rfl
  | succ left ih =>
      obtain ⟨bucket, held⟩ : ∃ bucket, h.ib[probeAt h.mask code step]? =
          some bucket :=
        ⟨_, List.getElem?_eq_getElem (inside step)⟩
      unfold HashData.placeLoop scan
      simp only [held]
      cases bucket with
      | empty => rfl
      | deleted => exact ih (step + 1)
      | live position => simpa using ih (step + 1)

/-- Placing an entry of an index with an empty bucket indexes it too. -/
theorem place_spec
    {h : HashData}
    (maskEq : h.mask + 1 = h.ib.length)
    (complete : CompleteProbe (probeAt h.mask) h.ib.length)
    (indexes : Indexes (probeAt h.mask) h.ib codes)
    (roomy : usedBuckets h.ib < h.ib.length)
    (code : Nat) :
    ∃ ib, h.place code codes.length = some { h with ib := ib } ∧
      ib.length = h.ib.length ∧
      usedBuckets ib = usedBuckets h.ib + 1 ∧
      Indexes (probeAt h.mask) ib (codes ++ [code]) := by
  obtain ⟨b, scanned, step, stepBound, met, empty, clear⟩ : ∃ b,
      scan (probeAt h.mask) h.ib code (fun _ => false) 0 h.ib.length =
        .vacant b ∧ FirstEmpty (probeAt h.mask) h.ib code b :=
    scan_eq_vacant complete (exists_empty_of_usedBuckets_lt roomy)
      (fun _ _ _ => rfl)
  refine ⟨h.ib.set b (.live codes.length), ?_, by simp,
    usedBuckets_set_of_empty empty, ?_⟩
  · rw [HashData.place, placeLoop_eq_scan h code _ _ _ (complete.inside code),
      maskEq, scanned]
  · subst met
    exact indexes.insert stepBound (Or.inl empty) clear

end SabiRuby.HashTable
