import SabiRuby.Randoms.Permuted
import SabiRuby.Randoms.Shuffles

/-!
# Samples at different positions

`sample` draws positions until it has as many different ones as asked for, so it
ends on a stream that keeps coming to every position.
-/

namespace SabiRuby.Randoms

open Library

section

variable {S : Type} {draw : Int64 → S → Option (Int64 × S)}

theorem pick_spec
    (bounded : Bounded draw)
    (pos : 0 < len)
    (lt : len < 2 ^ 63)
    (picked : pick draw len idx turns s = some result) :
    result.1 ∉ idx ∧ result.1 < len := by
  induction turns generalizing s with
  | zero => cases picked
  | succ turns ih =>
      simp only [pick, Option.bind_eq_bind, Option.bind_eq_some_iff] at picked
      obtain ⟨drawn, draws, rest⟩ := picked
      split at rest
      case isTrue => exact ih rest
      case isFalse fresh =>
        cases rest
        refine ⟨fresh, ?_⟩
        have bound := Int64.toInt_ofNat_of_lt lt
        obtain ⟨nonneg, below⟩ := bounded _ _ _ (by omega) draws
        have place := toNat_of_nonneg nonneg
        dsimp only
        omega

theorem picks_spec
    (bounded : Bounded draw)
    (pos : 0 < len)
    (lt : len < 2 ^ 63)
    (nodup : idx.Nodup)
    (inside : ∀ i ∈ idx, i < len)
    (picked : picks draw len turns n idx s = some result) :
    result.1.Nodup ∧ (∀ i ∈ result.1, i < len) ∧
      result.1.length = idx.length + n := by
  induction n generalizing idx s with
  | zero =>
      cases picked
      exact ⟨nodup, inside, rfl⟩
  | succ n ih =>
      simp only [picks, Option.bind_eq_bind, Option.bind_eq_some_iff] at picked
      obtain ⟨one, first, rest⟩ := picked
      obtain ⟨fresh, below⟩ := pick_spec bounded pos lt first
      obtain ⟨nodup', inside', length⟩ := ih
        (by
          rw [List.nodup_append]
          refine ⟨nodup, List.nodup_singleton _, ?_⟩
          intro i mem j memJ equal
          rw [List.mem_singleton.mp memJ] at equal
          exact fresh (equal ▸ mem))
        (by
          intro i mem
          rcases List.mem_append.mp mem with mem | mem
          · exact inside i mem
          · rw [List.mem_singleton.mp mem]
            exact below)
        rest
      refine ⟨nodup', inside', ?_⟩
      rw [length, List.length_append, List.length_singleton]
      omega

/-- The positions of a sample are different and inside the list. -/
theorem picks_places
    (bounded : Bounded draw)
    (lt : len < 2 ^ 63)
    (le : n ≤ len)
    (picked : picks draw len turns n [] s = some result) :
    result.1.Nodup ∧ (∀ i ∈ result.1, i < len) ∧ result.1.length = n := by
  by_cases pos : 0 < len
  · obtain ⟨nodup, inside, length⟩ := picks_spec bounded pos lt
      List.nodup_nil (List.forall_mem_nil _) picked
    rw [List.length_nil, Nat.zero_add] at length
    exact ⟨nodup, inside, length⟩
  · have none : n = 0 := by omega
    subst none
    cases picked
    exact ⟨List.nodup_nil, List.forall_mem_nil _, rfl⟩

/-- The elements at positions inside a list. -/
theorem mapM_getElem?
    (vals : List α)
    {idx : List Nat}
    (inside : ∀ i ∈ idx, i < vals.length) :
    ∃ out, idx.mapM (fun i => vals[i]?) = some out ∧
      out.map some = idx.map fun i => vals[i]? := by
  induction idx with
  | nil => exact ⟨[], rfl, rfl⟩
  | cons i idx ih =>
      obtain ⟨out, maps, values⟩ :=
        ih (fun j mem => inside j (List.mem_cons_of_mem i mem))
      have lt := inside i List.mem_cons_self
      have here := List.getElem?_eq_getElem lt
      refine ⟨vals[i] :: out, ?_, ?_⟩
      · rw [List.mapM_cons, here, maps]
        rfl
      · rw [List.map_cons, List.map_cons, values, here]

/-- What a sample has: elements at pairwise different positions, as many as
asked for or as there are. -/
def Sampled {α : Type} (vals : List α) (n : Nat) (out : List α) : Prop :=
  ∃ idx : List Nat, idx.Nodup ∧ idx.length = min n vals.length ∧
    out.map some = idx.map fun i => vals[i]?

theorem sample_spec
    (bounded : Bounded draw)
    {turns : Nat}
    {vals : List α}
    {result : Option (List α) × S}
    (lt : vals.length < 2 ^ 63)
    (nonneg : 0 ≤ n.toInt)
    (samples : sample draw turns vals n s = some result) :
    ∃ out, result.1 = some out ∧ Sampled vals n.toInt.toNat out := by
  have zero : (0 : Int64).toInt = 0 := rfl
  have count := toNat_of_nonneg nonneg
  rw [sample, if_neg (by rw [Int64.lt_iff_toInt_lt, zero]; omega)] at samples
  simp only [Option.bind_eq_bind, Option.bind_eq_some_iff] at samples
  obtain ⟨drawn, draws, out, maps, result⟩ := samples
  cases result
  obtain ⟨nodup, inside, length⟩ :=
    picks_places bounded lt (Nat.min_le_right _ _) draws
  obtain ⟨elements, maps', values⟩ := mapM_getElem? vals inside
  rw [maps'] at maps
  cases maps
  refine ⟨out, rfl, drawn.1, nodup, ?_, values⟩
  rw [length]
  omega

end

section

variable {S : Type} (uint32 : S → UInt32 × S)

/-- Draws from a bound come to a value after some others. -/
inductive Comes (max : Int64) (value : Int64) : S → Prop
  | here {s rest : S} :
      Returns (fun turns => int uint32 turns max s) (value, rest) →
        Comes max value s
  | later {s rest : S} {other : Int64} :
      Returns (fun turns => int uint32 turns max s) (other, rest) →
        Comes max value rest → Comes max value s

/-- From every word of the stream, draws come to every number below a bound. -/
def Reaching (max : Int64) (s : S) : Prop :=
  ∀ k value, 0 ≤ value → value < max →
    Comes uint32 max value ((next uint32)^[k] s)

end

section

variable {S : Type} {uint32 : S → UInt32 × S}

theorem Reaching.iterate
    {max : Int64}
    (reaching : Reaching uint32 max s)
    (k : Nat) : Reaching uint32 max ((next uint32)^[k] s) := by
  intro m value nonneg lt
  rw [← Function.iterate_add_apply]
  exact reaching (m + k) value nonneg lt

theorem drawUntil_state
    {step : S → W × S}
    {accepted : W → Bool}
    {drawn : W × S}
    (draws : drawUntil step accepted turns s = some drawn) :
    ∃ k, drawn.2 = (fun s => (step s).2)^[k] s := by
  induction turns generalizing s with
  | zero => cases draws
  | succ turns ih =>
      simp only [drawUntil] at draws
      split at draws
      case isTrue =>
        cases draws
        exact ⟨1, rfl⟩
      case isFalse =>
        obtain ⟨k, state⟩ := ih draws
        exact ⟨k + 1, state⟩

/-- A draw leaves the stream at one of its later words. -/
theorem int_state
    {max : Int64}
    {drawn : Int64 × S}
    (draws : int uint32 turns max s = some drawn) :
    ∃ k, drawn.2 = (next uint32)^[k] s := by
  by_cases nonpos : max.toInt ≤ 0
  · rw [int_of_nonpos uint32 turns nonpos] at draws
    cases draws
    exact ⟨0, rfl⟩
  · by_cases le : max.toInt ≤ 4294967295
    · rw [int_of_small uint32 turns (by omega) le,
        Option.map_eq_some_iff] at draws
      obtain ⟨word, draws, rfl⟩ := draws
      exact drawUntil_state draws
    · rw [int_of_large uint32 turns (by omega), Option.map_eq_some_iff] at draws
      obtain ⟨word, draws, rfl⟩ := draws
      obtain ⟨k, state⟩ := drawUntil_state draws
      rw [uint_iterate] at state
      exact ⟨2 * k, state⟩

variable {len : Nat}

/-- A draw that is not among the positions is picked at once. -/
theorem pick_of_fresh
    (returns : Returns (fun turns => int uint32 turns (Int64.ofNat len) s)
      (value, rest))
    (fresh : value.toUInt64.toNat ∉ idx) :
    ∃ result k, result.2 = (next uint32)^[k] s ∧
      ∃ least, ∀ turns more, least ≤ turns → least ≤ more →
        pick (int uint32 turns) len idx more s = some result := by
  obtain ⟨turns, draws⟩ := returns.answers
  obtain ⟨k, state⟩ := int_state draws
  obtain ⟨least, computes⟩ := returns
  refine ⟨(value.toUInt64.toNat, rest), k, state, least + 1, ?_⟩
  intro turns more le leMore
  cases more with
  | zero => exact absurd leMore (Nat.not_succ_le_zero least)
  | succ more =>
      have drawn := computes turns (Nat.le_of_succ_le le)
      dsimp only at drawn
      simp only [pick, Option.bind_eq_bind, drawn, Option.bind_some,
        if_neg fresh]

/-- A stream that comes to a position that is not drawn yet has one picked. -/
theorem Comes.pick
    (comes : Comes uint32 (Int64.ofNat len) value s)
    (fresh : value.toUInt64.toNat ∉ idx) :
    ∃ result k, result.2 = (next uint32)^[k] s ∧
      ∃ least, ∀ turns more, least ≤ turns → least ≤ more →
        pick (int uint32 turns) len idx more s = some result := by
  induction comes with
  | here returns => exact pick_of_fresh returns fresh
  | @later s rest other returns _ ih =>
      by_cases old : other.toUInt64.toNat ∈ idx
      · obtain ⟨result, k, state, least, picks⟩ := ih
        obtain ⟨turns, draws⟩ := returns.answers
        obtain ⟨m, state'⟩ := int_state draws
        obtain ⟨least', computes⟩ := returns
        refine ⟨result, k + m, ?_, max least least' + 1, ?_⟩
        · rw [Function.iterate_add_apply, ← state']
          exact state
        · intro turns more le leMore
          cases more with
          | zero => exact absurd leMore (Nat.not_succ_le_zero _)
          | succ more =>
              have drawn := computes turns (by omega)
              dsimp only at drawn
              simp only [SabiRuby.Randoms.pick, Option.bind_eq_bind, drawn,
                Option.bind_some, if_pos old]
              exact picks turns more (by omega) (by omega)
      · exact pick_of_fresh returns old

/-- While some position is not drawn there is one below the length. -/
theorem exists_fresh
    {idx : List Nat}
    (fewer : idx.length < len) : ∃ i < len, i ∉ idx := by
  by_contra all
  have subset : List.range len ⊆ idx := by
    intro i mem
    by_contra fresh
    exact all ⟨i, List.mem_range.mp mem, fresh⟩
  have atLeast := (List.nodup_range.subperm subset).length_le
  rw [List.length_range] at atLeast
  omega

theorem picks_returns
    {len n : Nat}
    {idx : List Nat}
    {s : S}
    (lt : len < 2 ^ 63)
    (enough : idx.length + n ≤ len)
    (reaching : Reaching uint32 (Int64.ofNat len) s) :
    ∃ result, Returns (fun turns => picks (int uint32 turns) len turns n idx s)
      result := by
  induction n generalizing idx s with
  | zero => exact ⟨_, returns_const _⟩
  | succ n ih =>
      obtain ⟨i, below, fresh⟩ := exists_fresh
        (by omega : idx.length < len)
      have number : (Int64.ofNat i).toInt = i :=
        Int64.toInt_ofNat_of_lt (by omega)
      have bound : (Int64.ofNat len).toInt = len := Int64.toInt_ofNat_of_lt lt
      have zero : (0 : Int64).toInt = 0 := rfl
      have back : (Int64.ofNat i).toUInt64.toNat = i := by
        have nonneg := toNat_of_nonneg (j := Int64.ofNat i) (by omega)
        omega
      have comes := reaching 0 (Int64.ofNat i)
        (by rw [Int64.le_iff_toInt_le, number, zero]; omega)
        (by rw [Int64.lt_iff_toInt_lt, number, bound]; omega)
      obtain ⟨drawn, k, state, least, picked⟩ :=
        comes.pick (by rw [back]; exact fresh)
      have rest : Reaching uint32 (Int64.ofNat len) drawn.2 := by
        rw [state]
        exact reaching.iterate k
      obtain ⟨result, returns⟩ := @ih (idx ++ [drawn.1]) drawn.2
        (by rw [List.length_append, List.length_singleton]; omega) rest
      refine ⟨result, ?_⟩
      simp only [picks, Option.bind_eq_bind]
      have first : Returns
          (fun turns => pick (int uint32 turns) len idx turns s) drawn :=
        ⟨least, fun turns le => picked turns turns le le⟩
      exact first.bind returns

/-- A stream that keeps coming to every position answers every sample. -/
theorem sample_returns
    {s : S}
    (lt : vals.length < 2 ^ 63)
    (n : Int64)
    (reaching : Reaching uint32 (Int64.ofNat vals.length) s) :
    ∃ result,
      Returns (fun turns => sample (int uint32 turns) turns vals n s)
        result := by
  by_cases negative : n < 0
  · simp only [sample, if_pos negative]
    exact ⟨_, returns_const _⟩
  · obtain ⟨drawn, returns⟩ := @picks_returns S uint32 _
      (min n.toUInt64.toNat vals.length) [] s lt
      (by rw [List.length_nil, Nat.zero_add]; exact Nat.min_le_right _ _)
      reaching
    obtain ⟨turns, picked⟩ := returns.answers
    obtain ⟨-, inside, -⟩ := picks_places (int_bounded uint32 turns) lt
      (Nat.min_le_right _ _) picked
    obtain ⟨out, maps, -⟩ := mapM_getElem? vals inside
    refine ⟨(some out, drawn.2), ?_⟩
    simp only [sample, if_neg negative, Option.bind_eq_bind]
    apply returns.bind
    simp only [maps, Option.bind_some]
    exact returns_const _

end

end SabiRuby.Randoms
