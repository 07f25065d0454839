import Mathlib.Logic.Function.Iterate
import SabiRuby.Randoms.Fairness

/-!
# Streams that keep answering

A draw ends where its generator comes to a word that it accepts.  A word with
its highest bit is accepted by every span, so a stream that has one again and
again at even distances answers every draw.
-/

namespace SabiRuby.Randoms

open Library

section

variable {S : Type} (uint32 : S → UInt32 × S)

/-- The state after a word. -/
def next (s : S) : S := (uint32 s).2

/-- From every word of the stream another with its highest bit is at an even
distance. -/
def Lively (s : S) : Prop :=
  ∀ k, ∃ n, 2 ^ 31 ≤ (uint32 ((next uint32)^[k + 2 * n] s)).1.toNat

end

section

variable {S : Type} {uint32 : S → UInt32 × S}

theorem Lively.iterate
    (lively : Lively uint32 s)
    (k : Nat) : Lively uint32 ((next uint32)^[k] s) := by
  intro m
  obtain ⟨n, high⟩ := lively (m + k)
  refine ⟨n, ?_⟩
  rw [← Function.iterate_add_apply]
  rw [show m + 2 * n + k = m + k + 2 * n by omega]
  exact high

/-- A stream that comes to an accepted word has a first one. -/
theorem drawUntil_returns
    {W : Type}
    {step : S → W × S}
    {accepted : W → Bool}
    {n : Nat}
    {s : S}
    (yes : accepted (step ((fun s => (step s).2)^[n] s)).1 = true) :
    ∃ k ≤ n, accepted (step ((fun s => (step s).2)^[k] s)).1 = true ∧
      Returns (fun turns => drawUntil step accepted turns s)
        (step ((fun s => (step s).2)^[k] s)) := by
  induction n generalizing s with
  | zero =>
      refine ⟨0, Nat.le_refl 0, yes, ?_⟩
      apply (returns_const (step s)).turn
      intro turns
      exact if_pos yes
  | succ n ih =>
      by_cases first : accepted (step s).1 = true
      · refine ⟨0, Nat.zero_le _, first, ?_⟩
        apply (returns_const (step s)).turn
        intro turns
        exact if_pos first
      · obtain ⟨k, le, accepts, returns⟩ := ih yes
        refine ⟨k + 1, Nat.succ_le_succ le, accepts, ?_⟩
        apply returns.turn
        intro turns
        exact if_neg first

theorem uint_iterate (n : Nat) (s : S) :
    (fun s => (uint uint32 s).2)^[n] s = (next uint32)^[2 * n] s := by
  have twice : (fun s => (uint uint32 s).2) = (next uint32)^[2] := rfl
  rw [twice, ← Function.iterate_mul]

/-- A lively stream has a word of 64 bits that every span accepts. -/
theorem Lively.accepts_uint
    (lively : Lively uint32 s)
    (pos : 0 < span.toNat) :
    ∃ n, decide (threshold64 span ≤
      (uint uint32 ((fun s => (uint uint32 s).2)^[n] s)).1) = true := by
  obtain ⟨n, high⟩ := lively 0
  have lt := span.toNat_lt
  have small : 2 ^ 64 % span.toNat < 2 ^ 63 :=
    mod_lt_half (Nat.le_of_lt lt) pos (by decide)
  refine ⟨n, ?_⟩
  rw [decide_eq_true_eq, UInt64.le_iff_toNat_le, threshold64_toNat pos,
    uint_iterate, uint_toNat]
  rw [Nat.zero_add] at high
  omega

/-- A lively stream has a word of 32 bits that every bound accepts. -/
theorem Lively.accepts
    (lively : Lively uint32 s)
    (pos : 0 < m.toNat) :
    ∃ n, decide (threshold32 m ≤
      (uint32 ((fun s => (uint32 s).2)^[n] s)).1) = true := by
  obtain ⟨n, high⟩ := lively 0
  have lt := m.toNat_lt
  have small : 2 ^ 32 % m.toNat < 2 ^ 31 :=
    mod_lt_half (Nat.le_of_lt lt) pos (by decide)
  refine ⟨2 * n, ?_⟩
  rw [Nat.zero_add] at high
  rw [decide_eq_true_eq, UInt32.le_iff_toNat_le, threshold32_toNat pos]
  exact Nat.le_trans (Nat.le_of_lt small) high

theorem int_returns
    (lively : Lively uint32 s)
    (max : Int64) :
    ∃ drawn k, drawn.2 = (next uint32)^[k] s ∧
      Returns (fun turns => int uint32 turns max s) drawn := by
  by_cases nonpos : max.toInt ≤ 0
  · refine ⟨(0, s), 0, rfl, ?_⟩
    simp only [int_of_nonpos uint32 _ nonpos s]
    exact returns_const (0, s)
  · by_cases le : max.toInt ≤ 4294967295
    · have bound := toUInt32_of_small (by omega) le
      obtain ⟨n, yes⟩ := lively.accepts
        (m := max.toUInt64.toUInt32) (by omega)
      obtain ⟨k, -, -, returns⟩ := @drawUntil_returns S UInt32 uint32
        (fun r => decide (threshold32 max.toUInt64.toUInt32 ≤ r)) n s yes
      simp only [int_of_small uint32 _ (by omega : 0 < max.toInt) le s]
      exact ⟨_, k + 1, (Function.iterate_succ_apply' (next uint32) k s).symm,
        returns.map _⟩
    · have bound := toNat_of_nonneg (j := max) (by omega)
      obtain ⟨n, yes⟩ := lively.accepts_uint
        (by omega : 0 < max.toUInt64.toNat)
      obtain ⟨k, -, -, returns⟩ := @drawUntil_returns S UInt64 (uint uint32)
        (fun r => decide (threshold64 max.toUInt64 ≤ r)) n s yes
      simp only [int_of_large uint32 _ (by omega : 4294967295 < max.toInt) s]
      refine ⟨_, 2 * (k + 1), ?_, returns.map _⟩
      rw [← uint_iterate, Function.iterate_succ_apply']

theorem randRangeInt_returns
    (lively : Lively uint32 s)
    (begin_ end_ : Int64)
    (excl : Bool) :
    ∃ drawn,
      Returns (fun turns => randRangeInt uint32 turns begin_ end_ excl s)
        drawn := by
  unfold randRangeInt
  split
  · exact ⟨_, returns_const _⟩
  · generalize end_.toUInt64 - begin_.toUInt64 + _ = span
    dsimp only [u]
    by_cases whole : span = 0
    · simp only [if_pos whole]
      exact ⟨_, returns_const _⟩
    · have pos : 0 < span.toNat := by
        apply Nat.pos_of_ne_zero
        intro zero
        exact whole (UInt64.toNat_inj.mp zero)
      obtain ⟨n, yes⟩ := lively.accepts_uint pos
      obtain ⟨k, -, -, returns⟩ := @drawUntil_returns S UInt64 (uint uint32)
        (fun r => decide (threshold64 span ≤ r)) n s yes
      simp only [if_neg whole]
      exact ⟨_, (returns.map _).map _⟩

end

end SabiRuby.Randoms
