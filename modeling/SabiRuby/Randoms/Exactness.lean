import SabiRuby.Randoms.Samples

/-!
# Draws, shuffles and samples

The draws of every generator are right: in their range, fair, in one-to-one
correspondence with the orders of a shuffle, at different positions in a sample.
They end on the stream of the program's generator from every state.
-/

namespace SabiRuby.Randoms

open Library

/-- A word that is accepted and falls on a value of the bound. -/
theorem exists_word
    (lt : value < modulus)
    (le : modulus ≤ 2 ^ 32) :
    ∃ number < 2 ^ 32,
      2 ^ 32 % modulus ≤ number ∧ number % modulus = value := by
  have some_ : 0 < 2 ^ 32 / modulus := Nat.div_pos le (Nat.zero_lt_of_lt lt)
  rw [← fair_card lt (2 ^ 32), Finset.card_pos] at some_
  obtain ⟨number, mem⟩ := some_
  obtain ⟨below, inside⟩ := Finset.mem_filter.mp mem
  exact ⟨number, Finset.mem_range.mp below, inside⟩

/-- The draws of the program's generator come to a value whose word is the
output of a state some words later. -/
theorem pcg_comes
    {max value : Int64}
    {word : UInt32}
    (pos : 0 < max.toInt)
    (le : max.toInt ≤ 4294967295)
    (accepted : threshold32 max.toUInt64.toUInt32 ≤ word)
    (falls : (word % max.toUInt64.toUInt32).toUInt64.toInt64 = value)
    (n : Nat)
    (s : UInt64)
    (output : (pcg ((next pcg)^[n] s)).1 = word) :
    Comes pcg max value s := by
  induction n using Nat.strong_induction_on generalizing s with
  | _ n ih =>
      have accepts : decide (threshold32 max.toUInt64.toUInt32 ≤
          (pcg ((next pcg)^[n] s)).1) = true := by
        rw [output]
        exact decide_eq_true accepted
      obtain ⟨k, leN, -, returns⟩ := @drawUntil_returns UInt64 UInt32 pcg
        (fun r => decide (threshold32 max.toUInt64.toUInt32 ≤ r)) n s accepts
      have draws : Returns (fun turns => int pcg turns max s)
          (((pcg ((next pcg)^[k] s)).1 %
            max.toUInt64.toUInt32).toUInt64.toInt64,
            (next pcg)^[k + 1] s) := by
        simp only [int_of_small pcg _ pos le s]
        rw [Function.iterate_succ_apply']
        exact returns.map _
      by_cases last : k = n
      · subst last
        rw [output, falls] at draws
        exact Comes.here draws
      · apply Comes.later draws
        apply ih (n - (k + 1)) (by omega)
        rw [← Function.iterate_add_apply]
        have distance : n - (k + 1) + (k + 1) = n := by omega
        rw [distance]
        exact output

/-- The program's generator comes to every number below a bound that fits 32
bits. -/
theorem pcg_reaching
    {max : Int64}
    (le : max ≤ 4294967295)
    (s : UInt64) : Reaching pcg max s := by
  intro k value nonneg lt
  have limit : (4294967295 : Int64).toInt = 4294967295 := rfl
  have zero : (0 : Int64).toInt = 0 := rfl
  rw [Int64.le_iff_toInt_le, limit] at le
  rw [Int64.le_iff_toInt_le, zero] at nonneg
  rw [Int64.lt_iff_toInt_lt] at lt
  have pos : 0 < max.toInt := by omega
  have bound := toUInt32_of_small pos le
  obtain ⟨number, below, accepted, falls⟩ := exists_word
    (by omega : value.toInt.toNat < max.toInt.toNat) (by omega)
  have word : (UInt32.ofNat number).toNat = number :=
    UInt32.toNat_ofNat_of_lt below
  have modulus : max.toUInt64.toUInt32.toNat = max.toInt.toNat := by omega
  obtain ⟨t, output⟩ := pcgOutput_surjective (UInt32.ofNat number)
  obtain ⟨n, reaches⟩ := pcg_reaches ((next pcg)^[k] s) t
  refine @pcg_comes max value (UInt32.ofNat number) pos le ?_ ?_ n _ ?_
  · rw [UInt32.le_iff_toNat_le, threshold32_toNat (by omega), word, modulus]
    exact accepted
  · apply Int64.toInt_inj.mp
    rw [small_value pos le, word, falls]
    omega
  · rw [reaches]
    exact output

section

variable {S : Type} (uint32 : S → UInt32 × S)

/-- A range is answered with nil where it is empty, else with one of its
integers, and a lively stream does answer. -/
def RangeRight (begin_ end_ : Int64) (excl : Bool) (s : S) : Prop :=
  (∀ turns drawn,
    randRangeInt uint32 turns begin_ end_ excl s = some drawn →
      (drawn.1 = none ↔ EmptyRange begin_ end_ excl) ∧
        ∀ value, drawn.1 = some value →
          begin_ ≤ value ∧ if excl then value < end_ else value ≤ end_) ∧
    (Lively uint32 s → ∃ drawn,
      Returns (fun turns => randRangeInt uint32 turns begin_ end_ excl s) drawn)

/-- A shuffle leaves a permutation, which is the one of its script of draws, and
a lively stream does shuffle. -/
def ShuffleRight {α : Type} (v : List α) (s : S) : Prop :=
  (∀ turns v' s', shuffle (int uint32 turns) v s = some (v', s') →
    v'.Perm v ∧ ∃ places script,
      shuffle scripted (List.range v.length) script = some (places, []) ∧
        v'.map some = places.map fun i => v[i]?) ∧
    (Lively uint32 s → ∃ drawn,
      Returns (fun turns => shuffle (int uint32 turns) v s) drawn)

/-- A sample has elements at different positions, as many as asked for or as
there are, and a stream that reaches every position does sample. -/
def SampleRight {α : Type} (vals : List α) (n : Int64) (s : S) : Prop :=
  (∀ turns drawn, sample (int uint32 turns) turns vals n s = some drawn →
    ∃ out, drawn.1 = some out ∧ Sampled vals n.toInt.toNat out) ∧
    (Reaching uint32 (Int64.ofNat vals.length) s → ∃ drawn,
      Returns (fun turns => sample (int uint32 turns) turns vals n s) drawn)

end

/-- Every value of a span or below a bound is drawn from as many accepted words
as another. -/
def FairDraws : Prop :=
  (∀ span value : UInt64, span = 0 ∨ value < span →
    (wordsOfSpan span value).card =
      if span = 0 then 1 else 2 ^ 64 / span.toNat) ∧
    ∀ max value : Int64, 0 ≤ value → value < max →
      if max ≤ 4294967295
      then (wordsOfInt max value).card = 2 ^ 32 / max.toInt.toNat
      else (wordsOfLargeInt max value).card = 2 ^ 64 / max.toInt.toNat

theorem fairDraws : FairDraws := by
  constructor
  · intro span value inside
    exact wordsOfSpan_card inside
  · intro max value nonneg lt
    have limit : (4294967295 : Int64).toInt = 4294967295 := rfl
    have zero : (0 : Int64).toInt = 0 := rfl
    rw [Int64.le_iff_toInt_le, zero] at nonneg
    rw [Int64.lt_iff_toInt_lt] at lt
    split
    case isTrue le =>
      rw [Int64.le_iff_toInt_le, limit] at le
      exact wordsOfInt_card (by omega) le nonneg lt
    case isFalse large =>
      rw [Int64.le_iff_toInt_le, limit] at large
      exact wordsOfLargeInt_card (by omega) nonneg lt

theorem range_map_getElem? {α : Type} (v : List α) :
    (List.range v.length).map (fun i => v[i]?) = v.map some := by
  apply List.ext_getElem?
  intro k
  rw [List.getElem?_map, List.getElem?_map]
  by_cases inside : k < v.length
  · rw [List.getElem?_range inside, List.getElem?_eq_getElem inside]
    simp [inside]
  · have outside : v.length ≤ k := by omega
    rw [List.getElem?_eq_none outside,
      List.getElem?_eq_none (by rw [List.length_range]; exact outside)]
    rfl

section

variable {S α : Type} {uint32 : S → UInt32 × S}

theorem shuffleRight
    {v : List α}
    (lt : v.length < 2 ^ 63)
    (s : S) : ShuffleRight uint32 v s := by
  refine ⟨?_, shuffle_returns lt⟩
  intro turns v' s' shuffles
  refine ⟨shuffle_perm shuffles, ?_⟩
  have elements := @shuffle_map S α (int uint32 turns) _ some v s
  have positions := @shuffle_map S Nat (int uint32 turns) _
    (fun i => v[i]?) (List.range v.length) s
  rw [range_map_getElem?, elements, shuffles, Option.map_some] at positions
  obtain ⟨⟨places, rest⟩, run, same⟩ :=
    Option.map_eq_some_iff.mp positions.symm
  obtain ⟨script, runs⟩ := shuffle_scripted (int_bounded uint32 turns)
    (by rw [List.length_range]; exact lt) run
  exact ⟨places, script, runs, (congrArg Prod.fst same).symm⟩

theorem sampleRight
    (lt : vals.length < 2 ^ 63)
    (nonneg : 0 ≤ n)
    (s : S) : SampleRight uint32 vals n s := by
  have zero : (0 : Int64).toInt = 0 := rfl
  rw [Int64.le_iff_toInt_le, zero] at nonneg
  refine ⟨?_, sample_returns lt n⟩
  intro turns drawn samples
  exact sample_spec (int_bounded uint32 turns) lt nonneg samples

end

end SabiRuby.Randoms
