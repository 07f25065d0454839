import SabiRuby.Randoms.Streams

/-!
# The program's generator

The congruential state comes from every state to every other, and its permuted
output takes every value.  So the stream from any state is lively, and it comes
to every word.
-/

namespace SabiRuby.Randoms

open Library

/-- A state as a residue. -/
def residue (s : UInt64) : ZMod (2 ^ 64) := (s.toNat : ZMod (2 ^ 64))

theorem residue_injective : Function.Injective residue := by
  intro s t equal
  have congruent := (ZMod.natCast_eq_natCast_iff' _ _ _).mp equal
  apply UInt64.toNat_inj.mp
  rw [Nat.mod_eq_of_lt s.toNat_lt, Nat.mod_eq_of_lt t.toNat_lt] at congruent
  exact congruent

theorem residue_next (s : UInt64) :
    residue (next pcg s) =
      congruentialMod 64 6364136223846793005 1442695040888963407
        (residue s) := by
  have multiplier : PCG_MULTIPLIER.toNat = 6364136223846793005 := rfl
  have increment : PCG_INCREMENT.toNat = 1442695040888963407 := rfl
  rw [next, pcg, residue, UInt64.toNat_add, UInt64.toNat_mul, multiplier,
    increment, ZMod.natCast_mod, Nat.cast_add, ZMod.natCast_mod,
    Nat.cast_mul, congruentialMod, residue, mul_comm]
  norm_num

theorem residue_iterate (n : Nat) (s : UInt64) :
    residue ((next pcg)^[n] s) =
      (congruentialMod 64 6364136223846793005 1442695040888963407)^[n]
        (residue s) := by
  have semiconj : Function.Semiconj residue (next pcg)
      (congruentialMod 64 6364136223846793005 1442695040888963407) :=
    residue_next
  exact semiconj.iterate_right n s

/-- The generator comes from every state to every other. -/
theorem pcg_reaches (s t : UInt64) : ∃ n, (next pcg)^[n] s = t := by
  obtain ⟨n, reaches⟩ := congruential_reaches 63
    (by decide : (6364136223846793005 : ℤ) % 4 = 1)
    (by decide : (1442695040888963407 : ℤ) % 2 = 1) (residue s) (residue t)
  refine ⟨n, ?_⟩
  apply residue_injective
  rw [residue_iterate]
  exact reaches

theorem pcg_parity (n : Nat) (s : UInt64) :
    ((next pcg)^[n] s).toNat % 2 = (s.toNat + n) % 2 := by
  induction n with
  | zero => rfl
  | succ n ih =>
      have multiplier : PCG_MULTIPLIER.toNat = 6364136223846793005 := rfl
      have increment : PCG_INCREMENT.toNat = 1442695040888963407 := rfl
      rw [Function.iterate_succ_apply', next, pcg, UInt64.toNat_add,
        UInt64.toNat_mul, multiplier, increment]
      omega

/-- From every state the generator comes, at an even distance, to one whose
output has the highest bit. -/
theorem pcg_lively (s : UInt64) : Lively pcg s := by
  intro k
  let start := (next pcg)^[k] s
  obtain ⟨high, parity, output⟩ : ∃ high : UInt64,
      high.toNat % 2 = start.toNat % 2 ∧ 2 ^ 31 ≤ (pcg high).1.toNat := by
    rcases Nat.mod_two_eq_zero_or_one start.toNat with even | odd
    · exact ⟨288230376151711744, by rw [even]; rfl, by decide⟩
    · exact ⟨288230376151711745, by rw [odd]; rfl, by decide⟩
  obtain ⟨n, reaches⟩ := pcg_reaches start high
  have distance := pcg_parity n start
  rw [reaches] at distance
  refine ⟨n / 2, ?_⟩
  have double : 2 * (n / 2) = n := by omega
  rw [double, Nat.add_comm, Function.iterate_add_apply]
  change 2 ^ 31 ≤ (pcg ((next pcg)^[n] start)).1.toNat
  rw [reaches]
  exact output

/-- Folding a word of 32 bits on itself twice leaves it. -/
theorem fold_fold {n : Nat} (lt : n < 2 ^ 32) :
    (n ^^^ (n >>> 18)) >>> 18 ^^^ (n ^^^ (n >>> 18)) = n := by
  have beyond : n >>> 18 >>> 18 = 0 := by
    rw [← Nat.shiftRight_add, Nat.shiftRight_eq_div_pow]
    omega
  rw [Nat.shiftRight_xor_distrib, beyond, Nat.xor_zero, Nat.xor_comm n,
    ← Nat.xor_assoc, Nat.xor_self, Nat.zero_xor]

/-- Every word is the output of a state. -/
theorem pcgOutput_surjective (r : UInt32) : ∃ s, pcgOutput s = r := by
  have lt := r.toNat_lt
  let folded := r.toNat ^^^ (r.toNat >>> 18)
  have small : folded < 2 ^ 32 := by
    apply Nat.xor_lt_two_pow lt
    rw [Nat.shiftRight_eq_div_pow]
    omega
  let s : UInt64 := UInt64.ofNat (folded <<< 27)
  have shifted : folded <<< 27 = folded * 2 ^ 27 := Nat.shiftLeft_eq _ _
  have state : s.toNat = folded <<< 27 := by
    apply UInt64.toNat_ofNat_of_lt
    rw [shifted]
    change folded * 2 ^ 27 < 2 ^ 64
    omega
  have unrotated : (s >>> 59).toUInt32 = 0 := by
    apply UInt32.toNat_inj.mp
    rw [UInt64.toNat_toUInt32, UInt64.toNat_shiftRight, state, shifted]
    change (folded * 2 ^ 27) >>> 59 % 2 ^ 32 = 0
    rw [Nat.shiftRight_eq_div_pow]
    omega
  have back : folded <<< 27 >>> 27 = folded := Nat.shiftLeft_shiftRight _ _
  have later : folded <<< 27 >>> 18 >>> 27 = folded >>> 18 := by
    rw [← Nat.shiftRight_add, Nat.add_comm, Nat.shiftRight_add, back]
  have xorshifted : (((s >>> 18) ^^^ s) >>> 27).toUInt32 = r := by
    apply UInt32.toNat_inj.mp
    rw [UInt64.toNat_toUInt32, UInt64.toNat_shiftRight, UInt64.toNat_xor,
      UInt64.toNat_shiftRight, state]
    change (folded <<< 27 >>> (18 % 64) ^^^ folded <<< 27) >>> (27 % 64) %
      2 ^ 32 = r.toNat
    rw [Nat.shiftRight_xor_distrib, later, back, fold_fold lt,
      Nat.mod_eq_of_lt lt]
  refine ⟨s, ?_⟩
  rw [pcgOutput, xorshifted, unrotated]
  apply UInt32.toNat_inj.mp
  simp

end SabiRuby.Randoms
