import SabiRuby.Times.Instants

/-!
# Exact instants

`gmtime` is exact on every `i64`: its fields are those of the date and the time
of day, they order as the seconds do, and `days_from_civil` takes them back.
The methods that build a Time are exact where their sums fit, which they do not
check: `mktime` multiplies the days of any year and the microseconds, and
`Time.at` carries into the seconds.
-/

namespace SabiRuby.Times

open Library

/-! ## Sums and differences -/

/-- A sum of seconds that fits keeps the nanoseconds, and another is refused. -/
theorem stores_sum
    (t : Time)
    (sum : Int)
    (refusal : Refusal)
    (held : IsI64 v) :
    Stores
      (match i64 sum with
      | none => some (.error refusal)
      | some sum => wrap sum t.nsec t.utc)
      [v] (sum * 1000000000 + t.nsec) := by
  have nsecMem := t.nsec_mem
  by_cases sumHeld : IsI64 sum
  · rw [i64, if_pos sumHeld]
    apply (stores_wrap sumHeld (by unfold IsI64; omega) (by simpa using held)
      rfl).mpr
    rw [Normalizes, show t.nsec / 1000000000 = 0 by omega, Int.add_zero]
    exact ⟨by omega, sumHeld⟩
  · rw [i64, if_neg sumHeld]
    trivial

theorem timePlus_exact (t : Time) (v : Int) : (Call.timePlus t v).Exact := by
  have nsecMem := t.nsec_mem
  have zero : i64 (0 * 1000) = some 0 := by decide
  have nsec : i64 (t.nsec + 0) = some t.nsec :=
    i64_eq_some_iff.mpr ⟨by unfold IsI64; omega, by omega⟩
  apply stores_orRefuse.mpr
  intro held
  simp only [zero, nsec, Option.bind_eq_bind, Option.bind_some]
  exact stores_sum t (t.sec + v) .addition held

theorem timeMinus_exact (t : Time) (v : Int) : (Call.timeMinus t v).Exact := by
  have nsecMem := t.nsec_mem
  have zero : i64 (0 * 1000) = some 0 := by decide
  have nsec : i64 (t.nsec - 0) = some t.nsec :=
    i64_eq_some_iff.mpr ⟨by unfold IsI64; omega, by omega⟩
  apply stores_orRefuse.mpr
  intro held
  simp only [zero, nsec, Option.bind_eq_bind, Option.bind_some]
  exact stores_sum t (t.sec - v) .subtraction held

/-! ## `Time.at` -/

/-- The microseconds that are left once whole seconds are carried. -/
theorem tdiv_usecs (tusec : Int) :
    ∃ adj, tusec.tdiv 1000000 = adj ∧
      (0 ≤ tusec → adj = tusec / 1000000) ∧
      (tusec < 0 → adj = -(-tusec / 1000000)) := by
  refine ⟨_, rfl, Int.tdiv_eq_ediv_of_nonneg, ?_⟩
  intro negative
  rw [← Int.tdiv_eq_ediv_of_nonneg (by omega), Int.neg_tdiv, Int.neg_neg]

theorem carry_eq
    (usecHeld : IsI64 tusec)
    (held : IsI64 (tsec + tusec.tdiv 1000000)) :
    carry tsec tusec =
      some (tsec + tusec.tdiv 1000000,
        tusec - tusec.tdiv 1000000 * 1000000) := by
  obtain ⟨adj, isAdj, nonneg, negative⟩ := tdiv_usecs tusec
  rw [isAdj] at held ⊢
  unfold IsI64 at usecHeld
  unfold carry USECS_PER_SEC
  by_cases large : tusec ≥ 1000000 ∨ tusec ≤ -1000000
  · rw [if_pos large]
    simp only [isAdj]
    refine i64_bind ?_
    refine i64_bind ?_
    exact i64_bind_of_eq rfl held rfl
  · rw [if_neg large, show adj = 0 by omega]
    simp

/-- Carrying has room for the carried second, with which the rest goes on. -/
theorem stores_carry
    (secHeld : IsI64 tsec)
    (usecHeld : IsI64 tusec) :
    Stores (carry tsec tusec >>= next) components instant ↔
      IsI64 (tsec + tusec.tdiv 1000000) ∧
        Stores
          (next (tsec + tusec.tdiv 1000000,
            tusec - tusec.tdiv 1000000 * 1000000))
          components instant := by
  by_cases held : IsI64 (tsec + tusec.tdiv 1000000)
  · rw [carry_eq usecHeld held]
    exact ⟨fun stores => ⟨held, stores⟩, And.right⟩
  · obtain ⟨adj, isAdj, nonneg, negative⟩ := tdiv_usecs tusec
    rw [isAdj] at held
    have large : tusec ≥ 1000000 ∨ tusec ≤ -1000000 := by
      by_contra small
      rw [show adj = 0 by omega, Int.add_zero] at held
      exact held secHeld
    have none_ : carry tsec tusec = none := by
      unfold carry USECS_PER_SEC
      unfold IsI64 at secHeld usecHeld
      rw [if_pos large]
      simp only [isAdj]
      rw [i64_bind_of_eq rfl (by unfold IsI64; omega) rfl,
        i64_bind_of_eq rfl (by unfold IsI64; omega) rfl, i64, if_neg held]
      rfl
    rw [none_, isAdj]
    exact ⟨False.elim, fun given => held given.1⟩

/-- Both seconds that `Time.at` computes fit: with the whole seconds carried
towards zero, and with a negative rest of them borrowed. -/
def AtFits (sec usec : Int) : Prop :=
  IsI64 (sec + usec.tdiv 1000000) ∧ IsI64 (sec + usec / 1000000)

instance (sec usec : Int) : Decidable (AtFits sec usec) :=
  inferInstanceAs (Decidable (_ ∧ _))

/-- The nanoseconds left by the carry are normalised where the borrowed second
fits. -/
theorem normalizes_carried (sec usec : Int) :
    Normalizes (sec + usec.tdiv 1000000)
        ((usec - usec.tdiv 1000000 * 1000000) * 1000) ↔
      IsI64 (sec + usec / 1000000) := by
  obtain ⟨adj, isAdj, nonneg, negative⟩ := tdiv_usecs usec
  rw [isAdj, Normalizes]
  rw [show sec + adj + (usec - adj * 1000000) * 1000 / 1000000000 =
    sec + usec / 1000000 by omega]
  constructor
  · exact And.right
  · intro held
    exact ⟨by omega, held⟩

theorem timeAt_exact_iff (sec : Int) (usec : Option Int) :
    (Call.timeAt sec usec).Exact ↔
      (IsI64 sec → IsI64 (usec.getD 0) → AtFits sec (usec.getD 0)) := by
  unfold Call.Exact
  change Stores (make sec (usec.getD 0) false) (sec :: usec.toList)
    (sec * 1000000000 + usec.getD 0 * 1000) ↔ _
  have given : IsI64 sec → IsI64 (usec.getD 0) →
      ∀ v ∈ sec :: usec.toList, IsI64 v := by
    intro secHeld usecHeld
    cases usec with
    | none => simpa using secHeld
    | some tusec => simpa using ⟨secHeld, usecHeld⟩
  generalize isUsec : usec.getD 0 = tusec at given ⊢
  rw [make, stores_orRefuse]
  apply imp_congr_right
  intro secHeld
  rw [stores_orRefuse]
  apply imp_congr_right
  intro usecHeld
  rw [stores_i64, Int.zero_add, stores_carry secHeld usecHeld, stores_i64]
  obtain ⟨adj, isAdj, nonneg, negative⟩ := tdiv_usecs tusec
  have restHeld : IsI64 ((tusec - tusec.tdiv 1000000 * 1000000) * 1000) := by
    unfold IsI64
    omega
  rw [AtFits, ← normalizes_carried, and_iff_right usecHeld]
  apply and_congr_right
  intro carriedHeld
  rw [and_iff_right restHeld]
  exact stores_wrap carriedHeld restHeld (given secHeld usecHeld) (by omega)

/-! ## `mktime` -/

/-- `mktime` accepts the components: machine integers, each in its range. -/
def Components.Accepted (a : Components) : Prop :=
  (∀ v ∈ a.all, IsI64 v) ∧
    ¬ a.year < -9223372036854775808 + 1900 ∧ ¬ a.Misplaced

instance (a : Components) : Decidable a.Accepted :=
  inferInstanceAs (Decidable (_ ∧ _))

instance (sec nsec : Int) : Decidable (Normalizes sec nsec) :=
  inferInstanceAs (Decidable (_ ∧ _))

/-- The midnight, the second of the day and the nanoseconds fit, and normalising
them does. -/
def Components.Fits (a : Components) : Prop :=
  IsI64 (dayCount a.year a.mon a.day * 86400) ∧ IsI64 a.seconds ∧
    IsI64 (a.usec * 1000) ∧ Normalizes a.seconds (a.usec * 1000)

instance (a : Components) : Decidable a.Fits :=
  inferInstanceAs (Decidable (_ ∧ _))

/-- Counting the days has room where the midnight does. -/
theorem stores_midnight
    (monMem : 1 ≤ m ∧ m ≤ 12)
    (dayMem : 1 ≤ d ∧ d ≤ 31) :
    Stores
        (daysFromCivil y m d >>= fun days => i64 (days * 86400) >>= next)
        components instant ↔
      IsI64 (dayCount y m d * 86400) ∧
        Stores (next (dayCount y m d * 86400)) components instant := by
  by_cases held : IsI64 (dayCount y m d * 86400)
  · have days : daysFromCivil y m d = some (dayCount y m d) := by
      unfold IsI64 at held
      apply daysFromCivil_eq monMem.1 monMem.2 dayMem.1 dayMem.2 <;> omega
    rw [days]
    exact stores_i64
  · cases answers : daysFromCivil y m d with
    | none => exact ⟨False.elim, fun given => held given.1⟩
    | some days =>
        rw [daysFromCivil_exact monMem.1 monMem.2 answers]
        exact stores_i64

theorem mktime_exact_iff (a : Components) (utc : Bool) :
    (Call.mktime a utc).Exact ↔ (a.Accepted → a.Fits) := by
  change Stores (mktime a utc) a.all
    (a.seconds * 1000000000 + a.usec * 1000) ↔ _
  unfold mktime Components.Accepted
  by_cases held : ∀ v ∈ a.all, IsI64 v
  · rw [if_neg (not_not.mpr held)]
    by_cases early : a.year < -9223372036854775808 + 1900
    · rw [if_pos early]
      exact ⟨fun _ accepted => absurd early accepted.2.1, fun _ => trivial⟩
    · rw [if_neg early]
      by_cases misplaced : a.Misplaced
      · rw [if_pos misplaced]
        exact ⟨fun _ accepted => absurd misplaced accepted.2.2,
          fun _ => trivial⟩
      · rw [if_neg misplaced,
          iff_true_intro (⟨held, early, misplaced⟩ : _ ∧ _ ∧ _),
          true_imp_iff]
        have placed := misplaced
        unfold Components.Misplaced at placed
        rw [asU32_of_mem (by omega) (by omega),
          stores_midnight (by omega) (by omega), Components.Fits]
        apply and_congr_right
        intro midnightHeld
        have sums : dayCount a.year a.mon a.day * 86400 + a.hour * 3600 +
            a.min * 60 + a.sec = a.seconds := rfl
        simp only [stores_i64, sums]
        constructor
        · rintro ⟨-, -, -, -, secondsHeld, nsecHeld, stores⟩
          exact ⟨secondsHeld, nsecHeld,
            (stores_wrap secondsHeld nsecHeld held rfl).mp stores⟩
        · rintro ⟨secondsHeld, nsecHeld, fits⟩
          -- the partial sums lie between the midnight and the second
          unfold IsI64 at midnightHeld
          have secondsLe := secondsHeld
          rw [← sums] at secondsLe
          unfold IsI64 at secondsLe
          refine ⟨?_, ?_, ?_, ?_, secondsHeld, nsecHeld,
            (stores_wrap secondsHeld nsecHeld held rfl).mpr fits⟩ <;>
          · unfold IsI64
            omega
  · rw [if_pos held]
    exact ⟨fun _ accepted => absurd accepted.1 held, fun _ => trivial⟩

/-! ## Calendar and instants -/

/-- `gmtime` of a second: the fields are its own, and `days_from_civil` of the
date answers its day. -/
def Reads (s : Int) : Prop :=
  ∃ time : DateTime,
    gmtime s = some time ∧ time.Shows s ∧
      daysFromCivil time.year time.mon time.mday = some (s / 86400)

/-- The fields of a later second come later. -/
def ReadsBefore (s t : Int) : Prop :=
  ∃ early late : DateTime,
    gmtime s = some early ∧ gmtime t = some late ∧ early.key < late.key

/-- The components `mktime` takes a broken-down time back by. -/
def DateTime.components (time : DateTime) : Components where
  year := time.year
  rest := [time.mon, time.mday, time.hour, time.min, time.sec]
  rest_le := by simp

/-- `mktime` takes the fields of a second back to it. -/
def ReadsBack (s : Int) (utc : Bool) : Prop :=
  ∃ time : DateTime,
    gmtime s = some time ∧
      mktime time.components utc = some (.ok ⟨s, 0, utc⟩)

/-- The condition on the components a call is given. -/
def Call.Fits : Call → Prop
  | mktime a _ => a.Accepted → a.Fits
  | timeAt sec usec =>
      IsI64 sec → IsI64 (usec.getD 0) → AtFits sec (usec.getD 0)
  | timePlus _ _ => True
  | timeMinus _ _ => True

theorem Call.exact_iff (call : Call) : call.Exact ↔ call.Fits := by
  cases call with
  | mktime a utc => exact mktime_exact_iff a utc
  | timeAt sec usec => exact timeAt_exact_iff sec usec
  | timePlus t v => exact iff_of_true (timePlus_exact t v) trivial
  | timeMinus t v => exact iff_of_true (timeMinus_exact t v) trivial

theorem reads {s : Int} (held : IsI64 s) : Reads s := by
  obtain ⟨time, answers, shows_⟩ := gmtime_shows held
  refine ⟨time, answers, shows_, ?_⟩
  rw [← shows_.dayCount_eq]
  have bounds := monthLength_bounds time.year time.mon
  have mdayMem := shows_.mday_mem
  have day := shows_.dayCount_eq
  unfold IsI64 at held
  apply daysFromCivil_eq shows_.mon_mem.1 shows_.mon_mem.2 <;> omega

theorem readsBefore
    (sHeld : IsI64 s)
    (tHeld : IsI64 t)
    (lt : s < t) :
    ReadsBefore s t := by
  obtain ⟨early, answersEarly, showsEarly⟩ := gmtime_shows sHeld
  obtain ⟨late, answersLate, showsLate⟩ := gmtime_shows tHeld
  exact ⟨early, late, answersEarly, answersLate,
    showsEarly.key_lt showsLate lt⟩

/-- `mktime` accepts the fields of a second. -/
theorem accepted_components
    {time : DateTime}
    (held : IsI64 s)
    (shows_ : time.Shows s) :
    time.components.Accepted := by
  have monMem := shows_.mon_mem
  have mdayMem := shows_.mday_mem
  have hourMem := shows_.hour_mem
  have minMem := shows_.min_mem
  have secMem := shows_.sec_mem
  have bounds := monthLength_bounds time.year time.mon
  have inYear := shows_.date.dayNumber_mem_year
  rw [shows_.date_dayNumber] at inYear
  change yearStart time.year ≤ _ ∧ _ < yearStart (time.year + 1) at inYear
  unfold yearStart at inYear
  unfold IsI64 at held
  refine ⟨?_, ?_, ?_⟩
  · simp only [Components.all, DateTime.components, List.forall_mem_cons,
      List.not_mem_nil, false_implies, implies_true, and_true]
    unfold IsI64
    omega
  · change ¬ time.year < _
    omega
  · change ¬ (¬ (1 ≤ time.mon ∧ time.mon ≤ 12) ∨
      ¬ (1 ≤ time.mday ∧ time.mday ≤ 31) ∨
        ¬ (0 ≤ time.hour ∧ time.hour ≤ 24) ∨
          (time.hour = 24 ∧ (time.min > 0 ∨ time.sec > 0)) ∨
            ¬ (0 ≤ time.min ∧ time.min ≤ 59) ∨
              ¬ (0 ≤ time.sec ∧ time.sec ≤ 60))
    omega

/-- An instant of whole seconds is wrapped as it is. -/
theorem wrap_zero (sec : Int) (utc : Bool) :
    wrap sec 0 utc = some (.ok ⟨sec, 0, utc⟩) :=
  rfl

theorem readsBack_iff
    {s : Int}
    (utc : Bool)
    (held : IsI64 s) :
    ReadsBack s utc ↔ IsI64 (s / 86400 * 86400) := by
  obtain ⟨time, answers, shows_⟩ := gmtime_shows held
  have accepted := accepted_components held shows_
  have count : dayCount time.components.year time.components.mon
      time.components.day = s / 86400 := shows_.dayCount_eq
  have seconds : time.components.seconds = s := shows_.count
  have usec : time.components.usec = 0 := rfl
  have back : ReadsBack s utc ↔
      mktime time.components utc = some (.ok ⟨s, 0, utc⟩) := by
    constructor
    · rintro ⟨other, otherAnswers, taken⟩
      rw [answers, Option.some_inj] at otherAnswers
      rwa [otherAnswers]
    · intro taken
      exact ⟨time, answers, taken⟩
  rw [back, ← count]
  constructor
  · intro taken
    have stores : (Call.mktime time.components utc).Exact := by
      change Stores (mktime time.components utc) _ _
      rw [taken]
      refine ⟨accepted.1, held, by dsimp only; omega, ?_⟩
      change s * 1000000000 + 0 = time.components.seconds * 1000000000 +
        time.components.usec * 1000
      rw [seconds, usec]
      omega
    exact ((mktime_exact_iff _ utc).mp stores accepted).1
  · intro midnight
    have sums : dayCount time.components.year time.components.mon
        time.components.day * 86400 + time.components.hour * 3600 +
          time.components.min * 60 + time.components.sec = s := seconds
    have days : daysFromCivil time.components.year time.components.mon
        time.components.day =
          some (dayCount time.components.year time.components.mon
            time.components.day) := by
      unfold IsI64 at held
      have placed := accepted.2.2
      unfold Components.Misplaced at placed
      apply daysFromCivil_eq <;> omega
    have placed := accepted.2.2
    unfold Components.Misplaced at placed
    have midnightHeld := midnight
    unfold IsI64 at midnightHeld held
    unfold mktime
    rw [if_neg (not_not.mpr accepted.1), if_neg accepted.2.1,
      if_neg accepted.2.2, asU32_of_mem (by omega) (by omega), days]
    refine i64_bind_of_eq rfl midnight ?_
    refine i64_bind ?_
    refine i64_bind ?_
    refine i64_bind ?_
    refine i64_bind ?_
    refine i64_bind_of_eq sums held ?_
    exact i64_bind_of_eq (by rw [usec, Int.zero_mul]) (by decide)
      (wrap_zero s utc)

/-- Reading, ordering, reading back and storing are exact precisely when the
midnight before the second fits and the components of the call do. -/
theorem calendar_exact_iff
    (s t : Int)
    (utc : Bool)
    (call : Call)
    (sHeld : IsI64 s)
    (tHeld : IsI64 t) :
    (Reads s ∧ (s < t → ReadsBefore s t) ∧ ReadsBack s utc ∧ call.Exact) ↔
      IsI64 (s / 86400 * 86400) ∧ call.Fits := by
  rw [readsBack_iff utc sHeld, call.exact_iff,
    and_iff_right (reads sHeld), and_iff_right (readsBefore sHeld tHeld)]

theorem calendar_exact_iff_at :
    (Reads (-1) ∧ (-1 < 951868800 → ReadsBefore (-1) 951868800) ∧
        ReadsBack (-1) true ∧ (Call.timeAt (-1) (some (-1))).Exact) ↔
      IsI64 (-1 / 86400 * 86400) ∧ (Call.timeAt (-1) (some (-1))).Fits :=
  calendar_exact_iff (-1) 951868800 true (.timeAt (-1) (some (-1)))
    (by decide) (by decide)

/-- A million microseconds after the last second there is no second, which
`Time.at` does not check. -/
theorem timeAt_not_exact :
    ¬ ∀ (s t : Int) (utc : Bool) (call : Call), IsI64 s → IsI64 t →
      (Reads s ∧ (s < t → ReadsBefore s t) ∧ ReadsBack s utc ∧
        call.Exact) := by
  intro exact_
  obtain ⟨-, -, -, stores⟩ := exact_ 0 0 true
    (.timeAt 9223372036854775807 (some 1000000)) (by decide) (by decide)
  exact stores

example :
    mktime ⟨1000000000000000000, [], by decide⟩ true = none := by
  rfl

example :
    mktime ⟨2000, [2, 29, 24, 0, 0, -1], by decide⟩ true =
      some (.ok ⟨951868799, 999999000, true⟩) := by
  rfl

end SabiRuby.Times
