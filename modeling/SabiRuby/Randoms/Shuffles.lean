import SabiRuby.Randoms.Streams

/-!
# Shuffles and scripts of draws

A shuffle is determined by the numbers it draws.  Run on a script of such
numbers, it comes to every order of the positions by exactly one script.
-/

namespace SabiRuby.Randoms

open Library

/-- Draw the numbers of a script, each of which must be below its bound. -/
def scripted (max : Int64) : List Int64 → Option (Int64 × List Int64)
  | [] => none
  | j :: script => if 0 ≤ j ∧ j < max then some (j, script) else none

/-- What is drawn is below its bound. -/
def Bounded {S : Type} (draw : Int64 → S → Option (Int64 × S)) : Prop :=
  ∀ max s drawn, 0 < max.toInt → draw max s = some drawn →
    0 ≤ drawn.1.toInt ∧ drawn.1.toInt < max.toInt

theorem int_bounded
    (uint32 : S → UInt32 × S)
    (turns : Nat) : Bounded (int uint32 turns) := by
  intro max s drawn pos draws
  exact int_below pos draws

theorem scripted_bounded : Bounded scripted := by
  intro max script drawn _ draws
  cases script with
  | nil => cases draws
  | cons j script =>
      rw [scripted] at draws
      split at draws
      case isTrue inside =>
        cases draws
        exact ⟨Int64.le_iff_toInt_le.mp inside.1,
          Int64.lt_iff_toInt_lt.mp inside.2⟩
      case isFalse => cases draws

section

variable {α β : Type}

variable {i j : Nat}

theorem swap_eq_some
    (ltI : i < v.length)
    (ltJ : j < v.length) :
    swap v i j = some ((v.set i v[j]).set j v[i]) := by
  rw [swap, List.getElem?_eq_getElem ltI, List.getElem?_eq_getElem ltJ]
  rfl

theorem swap_perm
    (swaps : swap v i j = some w) : w.Perm v := by
  simp only [swap, Option.bind_eq_bind, Option.bind_eq_some_iff] at swaps
  obtain ⟨x, isX, y, isY, result⟩ := swaps
  obtain ⟨ltI, rfl⟩ := List.getElem?_eq_some_iff.mp isX
  obtain ⟨ltJ, rfl⟩ := List.getElem?_eq_some_iff.mp isY
  cases result
  exact List.set_set_perm ltI ltJ

theorem swap_getElem?
    (swaps : swap v i j = some w)
    (k : Nat) :
    w[k]? = if k = j then v[i]? else if k = i then v[j]? else v[k]? := by
  simp only [swap, Option.bind_eq_bind, Option.bind_eq_some_iff] at swaps
  obtain ⟨x, isX, y, isY, result⟩ := swaps
  obtain ⟨ltI, rfl⟩ := List.getElem?_eq_some_iff.mp isX
  obtain ⟨ltJ, rfl⟩ := List.getElem?_eq_some_iff.mp isY
  cases result
  rw [isX, isY]
  by_cases atJ : k = j
  · subst atJ
    rw [if_pos rfl, List.getElem?_set_self (by rw [List.length_set]; exact ltJ)]
  · rw [if_neg atJ, List.getElem?_set_ne (Ne.symm atJ)]
    by_cases atI : k = i
    · subst atI
      rw [if_pos rfl, List.getElem?_set_self ltI]
    · rw [if_neg atI, List.getElem?_set_ne (Ne.symm atI)]

theorem swap_map (f : α → β) (v : List α) (i j : Nat) :
    swap (v.map f) i j = (swap v i j).map (List.map f) := by
  simp only [swap, List.getElem?_map]
  cases v[i]? with
  | none => rfl
  | some x =>
      cases v[j]? with
      | none => rfl
      | some y => simp [List.map_set]

end

section

variable {S : Type} {draw : Int64 → S → Option (Int64 × S)} {α β : Type}

theorem shuffleLoop_map (f : α → β) (i : Nat) (v : List α) (s : S) :
    shuffleLoop draw i (v.map f) s =
      (shuffleLoop draw i v s).map (Prod.map (List.map f) id) := by
  induction i generalizing v s with
  | zero => rfl
  | succ i ih =>
      simp only [shuffleLoop, Option.bind_eq_bind, swap_map]
      cases draw (Int64.ofNat (i + 1) + 1) s with
      | none => rfl
      | some drawn =>
          simp only [Option.bind_some]
          cases swap v (i + 1) drawn.1.toUInt64.toNat with
          | none => rfl
          | some w => exact ih w drawn.2

/-- What one turn of the loop does. -/
theorem shuffleLoop_succ_eq_some
    {result : List α × S} :
    shuffleLoop draw (i + 1) v s = some result ↔
      ∃ drawn w, draw (Int64.ofNat (i + 1) + 1) s = some drawn ∧
        swap v (i + 1) drawn.1.toUInt64.toNat = some w ∧
          shuffleLoop draw i w drawn.2 = some result := by
  simp only [shuffleLoop, Option.bind_eq_bind, Option.bind_eq_some_iff]
  constructor
  · rintro ⟨drawn, draws, w, swaps, loops⟩
    exact ⟨drawn, w, draws, swaps, loops⟩
  · rintro ⟨drawn, w, draws, swaps, loops⟩
    exact ⟨drawn, draws, w, swaps, loops⟩

theorem shuffleLoop_perm
    (loops : shuffleLoop draw i v s = some result) : result.1.Perm v := by
  induction i generalizing v s with
  | zero =>
      cases loops
      exact List.Perm.refl v
  | succ i ih =>
      obtain ⟨drawn, w, -, swaps, loops⟩ := shuffleLoop_succ_eq_some.mp loops
      exact (ih loops).trans (swap_perm swaps)

/-- The bound of a turn. -/
theorem bound_toInt {i : Nat} (lt : i + 1 < 2 ^ 63) :
    (Int64.ofNat i + 1).toInt = i + 1 := by
  have one : (1 : Int64).toInt = 1 := rfl
  rw [Int64.toInt_add, Int64.toInt_ofNat_of_lt (by omega), one]
  apply Int.bmod_eq_of_le <;> omega

/-- The loop from a place down leaves the positions above it. -/
theorem shuffleLoop_above
    (bounded : Bounded draw)
    (lt : i + 1 < 2 ^ 63)
    (loops : shuffleLoop draw i v s = some result)
    (above : i < k) : result.1[k]? = v[k]? := by
  induction i generalizing v s with
  | zero =>
      cases loops
      rfl
  | succ i ih =>
      obtain ⟨drawn, w, draws, swaps, loops⟩ :=
        shuffleLoop_succ_eq_some.mp loops
      have bound := bound_toInt (i := i + 1) (by omega)
      obtain ⟨nonneg, below⟩ := bounded _ _ _ (by omega) draws
      have place := toNat_of_nonneg nonneg
      rw [ih (by omega) loops (by omega), swap_getElem? swaps,
        if_neg (by omega), if_neg (by omega)]

/-- Every run of the loop is a run on the script of what it drew. -/
theorem shuffleLoop_scripted
    (bounded : Bounded draw)
    (lt : i + 1 < 2 ^ 63)
    (loops : shuffleLoop draw i v s = some result) :
    ∃ script, shuffleLoop scripted i v script = some (result.1, []) := by
  induction i generalizing v s with
  | zero =>
      cases loops
      exact ⟨[], rfl⟩
  | succ i ih =>
      obtain ⟨drawn, w, draws, swaps, loops⟩ :=
        shuffleLoop_succ_eq_some.mp loops
      obtain ⟨script, runs⟩ := ih (by omega) loops
      have bound := bound_toInt (i := i + 1) (by omega)
      obtain ⟨nonneg, below⟩ := bounded _ _ _ (by omega) draws
      refine ⟨drawn.1 :: script, ?_⟩
      apply shuffleLoop_succ_eq_some.mpr
      refine ⟨(drawn.1, script), w, if_pos ⟨?_, ?_⟩, swaps, runs⟩
      · exact Int64.le_iff_toInt_le.mpr nonneg
      · exact Int64.lt_iff_toInt_lt.mpr below

end

variable
  {v target : List α}
  {α : Type}

/-- Two lists of one multiset that agree after their first place are equal. -/
theorem eq_of_agree_above_zero
    (perm : target.Perm v)
    (agree : ∀ k, 0 < k → target[k]? = v[k]?) : target = v := by
  cases v with
  | nil => exact perm.eq_nil
  | cons x v =>
      cases target with
      | nil => exact absurd perm.symm.eq_nil (List.cons_ne_nil x v)
      | cons y target =>
          have tails : target = v := by
            apply List.ext_getElem?
            intro k
            exact agree (k + 1) (Nat.succ_pos k)
          subst tails
          have heads : [y].Perm [x] :=
            (List.perm_append_right_iff target).mp perm
          have equal : y = x :=
            List.head_eq_of_cons_eq (List.perm_singleton.mp heads)
          rw [equal]

theorem scripted_eq_some
    {max : Int64}
    {drawn : Int64 × List Int64} :
    scripted max script = some drawn ↔
      script = drawn.1 :: drawn.2 ∧ 0 ≤ drawn.1 ∧ drawn.1 < max := by
  cases script with
  | nil =>
      constructor
      · intro draws
        cases draws
      · rintro ⟨equal, -⟩
        cases equal
  | cons j script =>
      rw [scripted]
      constructor
      · intro draws
        split at draws
        case isTrue inside =>
          cases draws
          exact ⟨rfl, inside⟩
        case isFalse => cases draws
      · rintro ⟨equal, inside⟩
        cases equal
        exact if_pos inside

/-- After a swap the upper place has what the drawn place had. -/
theorem swap_upper
    (swaps : swap v i j = some w) : w[i]? = v[j]? := by
  rw [swap_getElem? swaps]
  split
  case isTrue equal => rw [equal]
  case isFalse => rw [if_pos rfl]

/-- From a place down, exactly one script leads to an order of the elements that
is already right above that place. -/
theorem shuffleLoop_script_unique
    (nodup : v.Nodup)
    (inside : i < v.length)
    (lt : i + 1 < 2 ^ 63)
    (perm : target.Perm v)
    (agree : ∀ k, i < k → target[k]? = v[k]?) :
    ∃! script, shuffleLoop scripted i v script = some (target, []) := by
  induction i generalizing v with
  | zero =>
      have equal := eq_of_agree_above_zero perm agree
      subst equal
      refine ⟨[], rfl, ?_⟩
      intro script runs
      cases runs
      rfl
  | succ i ih =>
      have insideTarget : i + 1 < target.length := by
        rw [perm.length_eq]
        exact inside
      have nodupTarget : target.Nodup := perm.nodup_iff.mpr nodup
      obtain ⟨j, ltJ, isPlace⟩ :=
        List.getElem_of_mem (perm.mem_iff.mp (List.getElem_mem insideTarget))
      have place : v[j]? = target[i + 1]? := by
        rw [List.getElem?_eq_getElem ltJ, isPlace,
          List.getElem?_eq_getElem insideTarget]
      have leJ : j ≤ i + 1 := by
        by_contra above
        have equal : target[i + 1]? = target[j]? :=
          ((agree j (by omega)).trans place).symm
        have same := (List.getElem?_inj insideTarget nodupTarget).mp equal
        omega
      have swaps := swap_eq_some inside ltJ
      let w := (v.set (i + 1) v[j]).set j v[i + 1]
      have permW : w.Perm v := swap_perm swaps
      have agreeW : ∀ k, i < k → target[k]? = w[k]? := by
        intro k above
        by_cases atUpper : k = i + 1
        · rw [atUpper, swap_upper swaps, place]
        · rw [swap_getElem? swaps, if_neg (by omega), if_neg atUpper]
          exact agree k (by omega)
      obtain ⟨script, runs, unique⟩ := ih (permW.nodup_iff.mpr nodup)
        (by rw [permW.length_eq]; omega) (by omega)
        (perm.trans permW.symm) agreeW
      have number : (Int64.ofNat j).toInt = j :=
        Int64.toInt_ofNat_of_lt (by omega)
      have bound := bound_toInt (i := i + 1) (by omega)
      refine ⟨Int64.ofNat j :: script, ?_, ?_⟩
      · apply shuffleLoop_succ_eq_some.mpr
        refine ⟨(Int64.ofNat j, script), w, ?_, ?_, runs⟩
        · apply scripted_eq_some.mpr
          refine ⟨rfl, ?_, ?_⟩
          · rw [Int64.le_iff_toInt_le, number]
            exact Int.natCast_nonneg j
          · rw [Int64.lt_iff_toInt_lt, number, bound]
            omega
        · have back : (Int64.ofNat j).toUInt64.toNat = j := by
            have nonneg := toNat_of_nonneg (j := Int64.ofNat j) (by omega)
            omega
          rw [back]
          exact swaps
      · intro other runsOther
        obtain ⟨drawn, w', draws, swaps', loops⟩ :=
          shuffleLoop_succ_eq_some.mp runsOther
        obtain ⟨rfl, nonneg, below⟩ := scripted_eq_some.mp draws
        have upper : v[drawn.1.toUInt64.toNat]? = v[j]? := by
          rw [← swap_upper swaps', place]
          exact (shuffleLoop_above scripted_bounded (by omega) loops
            (Nat.lt_succ_self i)).symm
        have same : j = drawn.1.toUInt64.toNat :=
          (List.getElem?_inj ltJ nodup).mp upper.symm
        rw [← same, swaps] at swaps'
        cases swaps'
        have rest : drawn.2 = script := unique drawn.2 loops
        have first : drawn.1 = Int64.ofNat j := by
          apply Int64.toInt_inj.mp
          have nonnegative := Int64.le_iff_toInt_le.mp nonneg
          rw [number, same, toNat_of_nonneg nonnegative]
        rw [rest, first]

section

variable {S α : Type} {uint32 : S → UInt32 × S}

theorem shuffleLoop_returns
    (inside : i < v.length)
    (lt : i + 1 < 2 ^ 63)
    (lively : Lively uint32 s) :
    ∃ result,
      Returns (fun turns => shuffleLoop (int uint32 turns) i v s) result := by
  induction i generalizing v s with
  | zero => exact ⟨_, returns_const _⟩
  | succ i ih =>
      have bound := bound_toInt (i := i + 1) (by omega)
      obtain ⟨drawn, k, state, returns⟩ :=
        int_returns lively (Int64.ofNat (i + 1) + 1)
      obtain ⟨turns, draws⟩ := returns.answers
      obtain ⟨nonneg, below⟩ := int_below (by omega) draws
      have place := toNat_of_nonneg nonneg
      have ltJ : drawn.1.toUInt64.toNat < v.length := by omega
      have swaps := swap_eq_some inside ltJ
      have rest : Lively uint32 drawn.2 := by
        rw [state]
        exact lively.iterate k
      obtain ⟨result, loops⟩ := ih
        (v := (v.set (i + 1) v[drawn.1.toUInt64.toNat]).set
          drawn.1.toUInt64.toNat v[i + 1])
        (by rw [List.length_set, List.length_set]; omega) (by omega) rest
      refine ⟨result, ?_⟩
      simp only [shuffleLoop, Option.bind_eq_bind]
      apply returns.bind
      simp only [swaps, Option.bind_some]
      exact loops

/-- A lively stream answers every shuffle. -/
theorem shuffle_returns
    (lt : v.length < 2 ^ 63)
    (lively : Lively uint32 s) :
    ∃ result, Returns (fun turns => shuffle (int uint32 turns) v s) result := by
  by_cases many : v.length > 1
  · simp only [shuffle, if_pos many]
    exact shuffleLoop_returns (by omega) (by omega) lively
  · simp only [shuffle, if_neg many]
    exact ⟨_, returns_const _⟩

end

section

variable {S α : Type} {draw : Int64 → S → Option (Int64 × S)}

theorem shuffle_perm
    (shuffles : shuffle draw v s = some result) : result.1.Perm v := by
  rw [shuffle] at shuffles
  split at shuffles
  case isTrue => exact shuffleLoop_perm shuffles
  case isFalse =>
    cases shuffles
    exact List.Perm.refl v

/-- A shuffle of the elements is a shuffle of their positions. -/
theorem shuffle_map {β : Type} (f : α → β) (v : List α) (s : S) :
    shuffle draw (v.map f) s =
      (shuffle draw v s).map (Prod.map (List.map f) id) := by
  simp only [shuffle, List.length_map]
  split
  case isTrue => exact shuffleLoop_map f (v.length - 1) v s
  case isFalse => rfl

/-- Every shuffle is a shuffle on the script of what it drew. -/
theorem shuffle_scripted
    (bounded : Bounded draw)
    (lt : v.length < 2 ^ 63)
    (shuffles : shuffle draw v s = some result) :
    ∃ script, shuffle scripted v script = some (result.1, []) := by
  simp only [shuffle] at shuffles ⊢
  by_cases many : v.length > 1
  · simp only [if_pos many] at shuffles ⊢
    exact shuffleLoop_scripted bounded (by omega) shuffles
  · simp only [if_neg many] at shuffles ⊢
    cases shuffles
    exact ⟨[], rfl⟩

end

/-- Exactly one script leads to an order of different elements. -/
theorem shuffle_script_unique
    (nodup : v.Nodup)
    (lt : v.length < 2 ^ 63)
    (perm : target.Perm v) :
    ∃! script, shuffle scripted v script = some (target, []) := by
  simp only [shuffle]
  by_cases many : v.length > 1
  · simp only [if_pos many]
    apply shuffleLoop_script_unique nodup (by omega) (by omega) perm
    intro k above
    have length := perm.length_eq
    rw [List.getElem?_eq_none (by omega), List.getElem?_eq_none (by omega)]
  · simp only [if_neg many]
    have equal : target = v := by
      apply eq_of_agree_above_zero perm
      intro k above
      have length := perm.length_eq
      rw [List.getElem?_eq_none (by omega), List.getElem?_eq_none (by omega)]
    subst equal
    refine ⟨[], rfl, ?_⟩
    intro script runs
    cases runs
    rfl

end SabiRuby.Randoms
