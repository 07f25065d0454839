import Mathlib.Data.List.Basic
import SabiRuby.Library.TriangularProbe

/-!
# Open-addressing indexes

An index is an array of buckets, each empty, deleted or holding the position of
an entry kept elsewhere.  The entry with a given code is looked for along the
probe sequence of the code, up to the first empty bucket.  This module states
when an array of buckets indexes a list of codes and shows that insertion,
removal and the search respect it, for any probe sequence that meets every
bucket.
-/

namespace SabiRuby.Library

/-- One bucket of an open-addressing index. -/
inductive Bucket
  | empty
  | deleted
  | live (position : Nat)
  deriving DecidableEq, Repr

/-- A probe sequence of a table of `size` buckets that stays inside the table
and meets every bucket within `size` steps. -/
structure CompleteProbe (probe : Nat → Nat → Nat) (size : Nat) : Prop where
  /-- Every step stays inside the table. -/
  inside : ∀ code step, probe code step < size
  /-- Every bucket is met. -/
  meets : ∀ code bucket, bucket < size →
    ∃ step < size, probe code step = bucket

/-- The triangular probe of a power of two is complete. -/
theorem triangularProbe_complete (bits : Nat) :
    CompleteProbe (triangularProbe (2 ^ bits)) (2 ^ bits) where
  inside := triangularProbe_lt (Nat.two_pow_pos bits)
  meets := fun _ _ bucketBound => triangularProbe_surjective bucketBound

/-- The probe of a code meets a position before any empty bucket. -/
def Reaches
    (probe : Nat → Nat → Nat)
    (buckets : List Bucket)
    (code position : Nat) : Prop :=
  ∃ step < buckets.length,
    buckets[probe code step]? = some (.live position) ∧
      ∀ earlier < step, buckets[probe code earlier]? ≠ some .empty

/-- The buckets index the entries with the given codes: each entry is reached by
the probe of its code, and no bucket holds a position twice or a position that
is no entry's. -/
structure Indexes
    (probe : Nat → Nat → Nat)
    (buckets : List Bucket)
    (codes : List Nat) : Prop where
  /-- Every live bucket holds the position of an entry. -/
  bounded : ∀ bucket position : Nat,
    buckets[bucket]? = some (.live position) → position < codes.length
  /-- No position is held by two buckets. -/
  unique : ∀ first second position : Nat,
    buckets[first]? = some (.live position) →
      buckets[second]? = some (.live position) → first = second
  /-- Every entry is reached from its code. -/
  reached : ∀ position code : Nat,
    codes[position]? = some code → Reaches probe buckets code position

/-- The number of buckets that are not empty. -/
def usedBuckets (buckets : List Bucket) : Nat :=
  buckets.countP fun bucket => decide (bucket ≠ Bucket.empty)

/-- A table of empty buckets indexes nothing. -/
theorem Indexes.replicate_empty
    (probe : Nat → Nat → Nat) (size : Nat) :
    Indexes probe (List.replicate size .empty) [] where
  bounded := by
    intro bucket position held
    simp [List.getElem?_replicate] at held
  unique := by
    intro first second position held
    simp [List.getElem?_replicate] at held
  reached := by
    intro position code coded
    simp at coded

@[simp] theorem usedBuckets_replicate_empty (size : Nat) :
    usedBuckets (List.replicate size .empty) = 0 := by
  simp [usedBuckets, List.countP_replicate]

/-- A table with fewer used buckets than buckets has an empty one. -/
theorem exists_empty_of_usedBuckets_lt
    (roomy : usedBuckets buckets < buckets.length) :
    ∃ bucket : Nat, buckets[bucket]? = some Bucket.empty := by
  by_contra none
  have allUsed : usedBuckets buckets = buckets.length := by
    refine List.countP_eq_length.mpr ?_
    intro bucket member
    obtain ⟨place, held⟩ := List.mem_iff_getElem?.mp member
    have notEmpty : bucket ≠ .empty := by
      rintro rfl
      exact none ⟨place, held⟩
    simpa using notEmpty
  omega

/-! ## Insertion -/

/-- Storing a new entry in a bucket that its probe meets before any empty one
keeps the index. -/
theorem Indexes.insert
    (indexes : Indexes probe buckets codes)
    (stepBound : step < buckets.length)
    (free : buckets[probe code step]? = some .empty ∨
      buckets[probe code step]? = some .deleted)
    (clear : ∀ earlier < step, buckets[probe code earlier]? ≠ some .empty) :
    Indexes probe (buckets.set (probe code step) (.live codes.length))
      (codes ++ [code]) := by
  have inside : probe code step < buckets.length := by
    rcases free with held | held <;>
      exact (List.getElem?_eq_some_iff.mp held).1
  have notLive : ∀ position,
      buckets[probe code step]? ≠ some (.live position) := by
    intro position held
    rcases free with empty | deleted <;> simp_all
  constructor
  · intro bucket position held
    rw [List.getElem?_set] at held
    rw [List.length_append, List.length_singleton]
    split at held
    · have : codes.length = position := by simp_all
      omega
    · have := indexes.bounded bucket position held
      omega
  · intro first second position firstHeld secondHeld
    rw [List.getElem?_set] at firstHeld secondHeld
    split at firstHeld <;> split at secondHeld
    · omega
    · have new : codes.length = position := by simp_all
      have := indexes.bounded second position secondHeld
      omega
    · have new : codes.length = position := by simp_all
      have := indexes.bounded first position firstHeld
      omega
    · exact indexes.unique first second position firstHeld secondHeld
  · intro position oldCode coded
    rcases Nat.lt_or_ge position codes.length with old | new
    · rw [List.getElem?_append_left old] at coded
      obtain ⟨oldStep, oldBound, held, oldClear⟩ :=
        indexes.reached position oldCode coded
      refine ⟨oldStep, by simpa using oldBound, ?_, ?_⟩
      · rw [List.getElem?_set_ne]
        · exact held
        · intro same
          exact notLive position (same ▸ held)
      · intro earlier before empty
        rw [List.getElem?_set] at empty
        split at empty
        · simp_all
        · exact oldClear earlier before empty
    · have last : position = codes.length := by
        have := (List.getElem?_eq_some_iff.mp coded).1
        simp at this
        omega
      subst last
      have sameCode : code = oldCode := by simpa using coded
      subst sameCode
      refine ⟨step, by simpa using stepBound, ?_, ?_⟩
      · simp [inside]
      · intro earlier before empty
        rw [List.getElem?_set] at empty
        split at empty
        · simp_all
        · exact clear earlier before empty

/-- Storing a position in an empty bucket uses one more bucket. -/
theorem usedBuckets_set_of_empty
    (held : buckets[bucket]? = some Bucket.empty) :
    usedBuckets (buckets.set bucket (.live position)) =
      usedBuckets buckets + 1 := by
  obtain ⟨inside, value⟩ := List.getElem?_eq_some_iff.mp held
  unfold usedBuckets
  rw [List.countP_set inside]
  simp [value]

/-- An index of fewer entries than buckets has a bucket that is not live. -/
theorem Indexes.exists_free
    (indexes : Indexes probe buckets codes)
    (fewer : codes.length < buckets.length) :
    ∃ bucket < buckets.length, ∀ position : Nat,
      buckets[bucket]? ≠ some (.live position) := by
  by_contra full
  have live : ∀ bucket : Fin buckets.length, ∃ position : Fin codes.length,
      buckets[bucket.val]? = some (.live position.val) := by
    intro bucket
    by_contra free
    refine full ⟨bucket.val, bucket.isLt, ?_⟩
    intro position held
    exact free ⟨⟨position, indexes.bounded _ _ held⟩, held⟩
  choose position held using live
  have injective : Function.Injective position := by
    intro first second same
    refine Fin.ext ?_
    exact indexes.unique _ _ (position first).val (held first)
      (same ▸ held second)
  have atMost := Fintype.card_le_of_injective position injective
  simp only [Fintype.card_fin] at atMost
  omega

/-! ## Removal -/

/-- What becomes of a bucket when the entry at a position is taken out and the
later ones move down. -/
def Bucket.vacate (gone : Nat) : Bucket → Bucket
  | .empty => .empty
  | .deleted => .deleted
  | .live position =>
      if position = gone then .deleted
      else if gone < position then .live (position - 1)
      else .live position

@[simp] theorem Bucket.vacate_eq_empty (gone : Nat) (bucket : Bucket) :
    bucket.vacate gone = .empty ↔ bucket = .empty := by
  cases bucket with
  | empty => simp [vacate]
  | deleted => simp [vacate]
  | live position =>
      simp only [vacate]
      split
      · simp
      · split <;> simp

/-- A bucket is live after a removal exactly when it held the position the
remaining entry had before. -/
theorem Bucket.vacate_eq_live (gone position : Nat) (bucket : Bucket) :
    bucket.vacate gone = .live position ↔
      bucket = .live (if position < gone then position else position + 1) := by
  cases bucket with
  | empty => simp [vacate]
  | deleted => simp [vacate]
  | live held =>
      simp only [vacate]
      split
      · split <;> simp <;> omega
      · split <;> split <;> simp <;> omega

theorem usedBuckets_map_vacate (gone : Nat) (buckets : List Bucket) :
    usedBuckets (buckets.map (Bucket.vacate gone)) = usedBuckets buckets := by
  unfold usedBuckets
  rw [List.countP_map]
  refine List.countP_congr ?_
  intro bucket _
  simp

theorem getElem?_map_vacate_eq_live
    (gone position : Nat) (buckets : List Bucket) (place : Nat) :
    (buckets.map (Bucket.vacate gone))[place]? = some (.live position) ↔
      buckets[place]? =
        some (.live (if position < gone then position else position + 1)) := by
  rw [List.getElem?_map, Option.map_eq_some_iff]
  constructor
  · rintro ⟨bucket, held, moved⟩
    rw [held, (Bucket.vacate_eq_live gone position bucket).mp moved]
  · intro held
    exact ⟨_, held, (Bucket.vacate_eq_live gone position _).mpr rfl⟩

theorem getElem?_map_vacate_eq_empty
    (gone : Nat) (buckets : List Bucket) (place : Nat) :
    (buckets.map (Bucket.vacate gone))[place]? = some .empty ↔
      buckets[place]? = some .empty := by
  rw [List.getElem?_map, Option.map_eq_some_iff]
  constructor
  · rintro ⟨bucket, held, moved⟩
    rw [held, (Bucket.vacate_eq_empty gone bucket).mp moved]
  · intro held
    exact ⟨_, held, by simp⟩

/-- Taking an entry out, moving the later positions down and marking its bucket
deleted keeps the index. -/
theorem Indexes.erase
    (indexes : Indexes probe buckets codes)
    (goneBound : gone < codes.length) :
    Indexes probe (buckets.map (Bucket.vacate gone))
      (codes.eraseIdx gone) := by
  have shorter : (codes.eraseIdx gone).length = codes.length - 1 :=
    List.length_eraseIdx_of_lt goneBound
  constructor
  · intro bucket position held
    have before := indexes.bounded bucket _
      ((getElem?_map_vacate_eq_live gone position buckets bucket).mp held)
    split at before <;> omega
  · intro first second position firstHeld secondHeld
    exact indexes.unique first second _
      ((getElem?_map_vacate_eq_live gone position buckets first).mp firstHeld)
      ((getElem?_map_vacate_eq_live gone position buckets second).mp secondHeld)
  · intro position code coded
    have codedBefore :
        codes[if position < gone then position else position + 1]? =
          some code := by
      rw [List.getElem?_eraseIdx] at coded
      split at coded <;> rename_i place
      · simpa [place] using coded
      · simpa [place] using coded
    obtain ⟨step, stepBound, held, clear⟩ := indexes.reached _ _ codedBefore
    refine ⟨step, by simpa using stepBound, ?_, ?_⟩
    · exact (getElem?_map_vacate_eq_live gone position buckets _).mpr held
    · intro earlier before empty
      exact clear earlier before
        ((getElem?_map_vacate_eq_empty gone buckets _).mp empty)

/-! ## Search -/

/-- How a search along a probe ends. -/
inductive Scan
  /-- A live bucket whose position matched. -/
  | found (position : Nat)
  /-- The first empty bucket. -/
  | vacant (bucket : Nat)
  /-- Every bucket was met, none empty and none matching. -/
  | exhausted
  deriving DecidableEq, Repr

/-- The position a search found. -/
def Scan.position? : Scan → Option Nat
  | .found position => some position
  | .vacant _ => none
  | .exhausted => none

/-- Search along the probe of a code from one step on, for `left` steps. -/
def scan
    (probe : Nat → Nat → Nat)
    (buckets : List Bucket)
    (code : Nat)
    (matching : Nat → Bool) : Nat → Nat → Scan
  | _, 0 => .exhausted
  | step, left + 1 =>
      match buckets[probe code step]? with
      | some (.live position) =>
          if matching position then .found position
          else scan probe buckets code matching (step + 1) left
      | some .deleted => scan probe buckets code matching (step + 1) left
      | some .empty => .vacant (probe code step)
      | none => .vacant (probe code step)

/-- A position that was found is in a bucket and matches. -/
theorem scan_found
    (found : scan probe buckets code matching step left = .found position) :
    (∃ bucket : Nat, buckets[bucket]? = some (.live position)) ∧
      matching position = true := by
  induction left generalizing step with
  | zero => cases found
  | succ left ih =>
      unfold scan at found
      cases met : buckets[probe code step]? with
      | none => simp [met] at found
      | some bucket =>
          cases bucket with
          | empty => simp [met] at found
          | deleted => exact ih (by simpa [met] using found)
          | live held =>
              by_cases isMatch : matching held = true
              · have same : held = position := by
                  simpa [met, isMatch] using found
                subst same
                exact ⟨⟨_, met⟩, isMatch⟩
              · exact ih (by simpa [met, isMatch] using found)

/-- The bucket a search stops at is the first empty one of the probe. -/
def FirstEmpty
    (probe : Nat → Nat → Nat)
    (buckets : List Bucket)
    (code bucket : Nat) : Prop :=
  ∃ step < buckets.length, probe code step = bucket ∧
    buckets[bucket]? = some .empty ∧
      ∀ earlier < step, buckets[probe code earlier]? ≠ some .empty

/-- A search that matches nothing on its way stops at the first empty bucket. -/
theorem scan_eq_vacant
    (complete : CompleteProbe probe buckets.length)
    (hasEmpty : ∃ bucket : Nat, buckets[bucket]? = some Bucket.empty)
    (unmatched : ∀ step position,
      buckets[probe code step]? = some (.live position) →
        matching position = false) :
    ∃ bucket, scan probe buckets code matching 0 buckets.length =
        .vacant bucket ∧
      FirstEmpty probe buckets code bucket := by
  obtain ⟨emptyBucket, emptyHeld⟩ := hasEmpty
  obtain ⟨emptyStep, emptyBound, emptyMet⟩ := complete.meets code emptyBucket
    (List.getElem?_eq_some_iff.mp emptyHeld).1
  have emptyThere : buckets[probe code emptyStep]? = some .empty := by
    rw [emptyMet, emptyHeld]
  suffices onward : ∀ left step, step + left = buckets.length →
      (∀ earlier < step, buckets[probe code earlier]? ≠ some .empty) →
      ∃ bucket, scan probe buckets code matching step left = .vacant bucket ∧
        FirstEmpty probe buckets code bucket from
    onward buckets.length 0 (by omega) (by omega)
  intro left
  induction left with
  | zero =>
      intro step total clear
      exact absurd emptyThere (clear emptyStep (by omega))
  | succ left ih =>
      intro step total clear
      have inside : probe code step < buckets.length :=
        complete.inside code step
      have continued :
          buckets[probe code step]? ≠ some .empty →
          ∃ bucket,
            scan probe buckets code matching (step + 1) left =
              .vacant bucket ∧ FirstEmpty probe buckets code bucket := by
        intro used
        refine ih (step + 1) (by omega) ?_
        intro earlier before
        rcases Nat.lt_succ_iff_lt_or_eq.mp before with earlier | rfl
        · exact clear _ earlier
        · exact used
      obtain ⟨bucket, held⟩ : ∃ bucket, buckets[probe code step]? =
          some bucket :=
        ⟨_, List.getElem?_eq_getElem inside⟩
      cases bucket with
      | empty =>
          refine ⟨probe code step, by simp [scan, held], ?_⟩
          exact ⟨step, by omega, rfl, held, clear⟩
      | deleted => simpa [scan, held] using continued (by simp [held])
      | live position =>
          simpa [scan, held, unmatched step position held] using
            continued (by simp [held])

/-- A search whose only match is an indexed entry with the searched code finds
that entry. -/
theorem scan_eq_found
    (complete : CompleteProbe probe buckets.length)
    (indexes : Indexes probe buckets codes)
    (coded : codes[position]? = some code)
    (matched : matching position = true)
    (only : ∀ other, matching other = true → other = position) :
    scan probe buckets code matching 0 buckets.length = .found position := by
  obtain ⟨target, targetBound, targetHeld, clear⟩ :=
    indexes.reached position code coded
  suffices onward : ∀ left step, step + left = buckets.length →
      step ≤ target →
      scan probe buckets code matching step left = .found position from
    onward buckets.length 0 (by omega) (by omega)
  intro left
  induction left with
  | zero =>
      intro step total before
      omega
  | succ left ih =>
      intro step total before
      rcases Nat.lt_or_eq_of_le before with earlier | rfl
      · have next := ih (step + 1) (by omega) earlier
        have used := clear step earlier
        obtain ⟨bucket, held⟩ : ∃ bucket, buckets[probe code step]? =
            some bucket :=
          ⟨_, List.getElem?_eq_getElem (complete.inside code step)⟩
        cases bucket with
        | empty => exact absurd held used
        | deleted => simpa [scan, held] using next
        | live other =>
            by_cases isMatch : matching other
            · have same := only other isMatch
              subst same
              simp [scan, held, matched]
            · simpa [scan, held, isMatch] using next
      · simp [scan, targetHeld, matched]

/-- A search whose matches have the searched code, and of which there is at most
one, finds what matches. -/
theorem position?_scan
    (complete : CompleteProbe probe buckets.length)
    (indexes : Indexes probe buckets codes)
    (coded : ∀ position, matching position = true →
      codes[position]? = some code)
    (only : ∀ first second, matching first = true → matching second = true →
      first = second)
    (position : Nat) :
    (scan probe buckets code matching 0 buckets.length).position? =
      some position ↔ matching position = true := by
  constructor
  · intro answered
    cases ended : scan probe buckets code matching 0 buckets.length with
    | found other =>
        rw [ended] at answered
        cases answered
        exact (scan_found ended).2
    | vacant bucket =>
        rw [ended] at answered
        cases answered
    | exhausted =>
        rw [ended] at answered
        cases answered
  · intro matched
    rw [scan_eq_found complete indexes (coded position matched) matched
      fun other also => only other position also matched]
    rfl

end SabiRuby.Library
