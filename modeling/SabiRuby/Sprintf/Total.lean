import SabiRuby.Sprintf.Scanner

/-!
# Where the scanner of a format goes wrong

The scanner stays inside the format and takes fewer steps than it is given.  It
goes wrong at a name that is a bracket only, the last byte of the format, and at
an Integer whose width and precision leave 64 bits, and nowhere else.
-/

namespace SabiRuby.Sprintf

open Library Exec
open Integer

variable {V ε σ : Type}

/-- What the VM does for the scanner returns or raises. -/
structure Host.Sane (host : Host V ε σ) : Prop where
  hashGet : ∀ h k vm, Completes (host.hashGet h k) vm
  expectInt : ∀ v text vm, Completes (host.expectInt v text) vm
  respondsToStr : ∀ v vm, Completes (host.respondsToStr v) vm
  toStr : ∀ v vm, Completes (host.toStr v) vm
  inspect : ∀ v vm, Completes (host.inspect v) vm
  asString : ∀ v vm, Completes (host.asString v) vm
  integer : ∀ v vm, Completes (host.integer v) vm
  float : ∀ v c flags width prec vm,
    Completes (host.float v c flags width prec) vm

/-- The scanner is at a bracket that is the last byte of the format, and would
look its name up. -/
structure BareName (host : Host V ε σ) (f : List UInt8) (args : List V)
    (s : Scan V) (sp : Spec V) (vm : σ) : Prop where
  bracket : f[s.p]? = some 60 ∨ f[s.p]? = some 123
  last : s.p + 1 = f.length
  unnamed : sp.id = none
  unordered : ¬s.st.posarg > 0
  unnumbered : s.st.posarg ≠ -1
  hash : s.st.hash.isSome ∨ ∃ h, args = [h] ∧ host.isHash h vm = true

/-- The step from here does not go wrong. -/
def Safe (host : Host V ε σ) (f : List UInt8) (args : List V) (s : Scan V)
    (vm : σ) : Prop :=
  match s.mode with
  | .text => True
  | .spec sp => ¬BareName host f args s sp vm
  | .integer sp c val => formatIntFits val c sp.flags sp.width sp.prec = true

/-- A precision that is used is not negative, and a name has its brackets. -/
structure Spec.Sound (sp : Spec V) : Prop where
  prec : sp.flags &&& FPREC ≠ 0 → 0 ≤ sp.prec
  id : ∀ name, sp.id = some name → 2 ≤ name.length

/-- The scanner is in the format or one past its end. -/
def Scan.Inside (f : List UInt8) (s : Scan V) : Prop :=
  match s.mode with
  | .text => s.p ≤ f.length + 1
  | .spec sp => 1 ≤ s.p ∧ s.p ≤ f.length + 1 ∧ sp.Sound
  | .integer _ _ _ => s.p < f.length

/-- Three for every byte to come, one more in a specifier. -/
def Scan.measure (f : List UInt8) (s : Scan V) : Nat :=
  match s.mode with
  | .text => 3 * (f.length + 1 - s.p)
  | .spec _ => 3 * (f.length + 1 - s.p) + 1
  | .integer _ _ _ => 3 * (f.length + 1 - s.p)

/-- A step comes to a scan that is inside and has less to come. -/
def Goes (f : List UInt8) (s : Scan V) (command : Exec (Error ε) σ (Scan V))
    (vm : σ) : Prop :=
  Satisfies command vm
    (fun next _ => next.Inside f ∧ next.measure f < s.measure f)
    fun _ _ => True

variable {command : Exec (Error ε) σ α}

theorem completes_bind
    (first : Completes command vm)
    (others : ∀ a after, Satisfies (rest a) after returns fun _ _ => True) :
    Satisfies (command >>= rest) vm returns fun _ _ => True := by
  rw [satisfies_bind]
  exact first.mono (fun a after _ => others a after) fun _ _ _ => trivial

theorem completes_argErr (text : String) :
    Satisfies (argErr text : Exec (Error ε) σ α) vm returns fun _ _ => True := by
  unfold argErr
  rw [satisfies_raise]
  trivial

/-! ## Arguments -/

theorem completes_nth
    (args : List V)
    (n : Int)
    (vm : σ) : Completes (Fmt.nth args n : Exec (Error ε) σ V) vm := by
  unfold Fmt.nth
  by_cases outside : n < 1 ∨ n > args.length
  · rw [if_pos outside]
    exact completes_argErr _
  · rw [if_neg outside]
    unfold Completes
    rw [satisfies_orPanic]
    have below : (n - 1).toNat < args.length := by omega
    exact ⟨_, List.getElem?_eq_getElem below, trivial⟩

theorem completes_next
    (st : Fmt V)
    (args : List V)
    (vm : σ) : Completes (st.next args : Exec (Error ε) σ (V × Fmt V)) vm := by
  unfold Fmt.next
  split
  · exact completes_argErr _
  · split
    · exact completes_argErr _
    · exact completes_bind (completes_nth _ _ _) fun _ _ => trivial

theorem completes_pos
    (st : Fmt V)
    (args : List V)
    (n : Int)
    (vm : σ) : Completes (st.pos args n : Exec (Error ε) σ (V × Fmt V)) vm := by
  unfold Fmt.pos
  split
  · exact completes_argErr _
  · split
    · exact completes_argErr _
    · split
      · exact completes_argErr _
      · exact completes_bind (completes_nth _ _ _) fun _ _ => trivial

theorem completes_taken
    (args : List V)
    (s : Scan V)
    (sp : Spec V)
    (vm : σ) : Completes (taken args s sp : Exec (Error ε) σ (V × Fmt V)) vm := by
  unfold taken
  cases sp.nextvalue with
  | none => exact completes_next _ _ _
  | some v => trivial

/-! ## Numbers -/

theorem getNumLoop_spec
    (xs : List UInt8)
    (nonneg : 0 ≤ n)
    (ran : getNumLoop xs n p = some (m, q)) :
    0 ≤ m ∧ p ≤ q ∧ q ≤ p + xs.length := by
  induction xs generalizing n p with
  | nil =>
      cases ran
      exact ⟨nonneg, Nat.le_refl _, Nat.le_refl _⟩
  | cons c xs ih =>
      unfold getNumLoop at ran
      split at ran
      · rename_i digit
        have atLeast : 48 ≤ c.toNat := by
          unfold isDigit at digit
          have := (of_decide_eq_true digit).1
          exact UInt8.le_iff_toNat_le.mp this
        dsimp only at ran
        split at ran
        · cases ran
        · obtain ⟨value, lower, upper⟩ := ih (by omega) ran
          rw [List.length_cons]
          omega
      · cases ran
        exact ⟨nonneg, Nat.le_refl _, Nat.le_add_right _ _⟩

theorem getNum_spec
    (inside : p ≤ f.length)
    (ran : getNum f p = some (n, q)) : 0 ≤ n ∧ p ≤ q ∧ q ≤ f.length := by
  have bounds := getNumLoop_spec _ (Int.le_refl 0) ran
  rw [List.length_drop] at bounds
  omega

/-- A digit is passed. -/
theorem getNum_digit
    (digit : f[p]? = some c)
    (isDigit : isDigit c = true)
    (ran : getNum f p = some (n, q)) : p < q := by
  have inside : p < f.length := (List.getElem?_eq_some_iff.mp digit).1
  have here : f.drop p = c :: f.drop (p + 1) := by
    rw [List.drop_eq_getElem_cons inside,
      (List.getElem?_eq_some_iff.mp digit).2]
  unfold getNum at ran
  rw [here] at ran
  unfold getNumLoop at ran
  rw [if_pos isDigit] at ran
  dsimp only at ran
  split at ran
  · cases ran
  · have atLeast : 48 ≤ c.toNat := by
      unfold Sprintf.isDigit at isDigit
      exact UInt8.le_iff_toNat_le.mp (of_decide_eq_true isDigit).1
    have bounds := getNumLoop_spec _ (by omega) ran
    omega

theorem lt_length_of_getElem?
    {f : List UInt8}
    (found : f[p]? = some c) : p < f.length :=
  (List.getElem?_eq_some_iff.mp found).1

theorem getaster_spec
    (args : List V)
    (st : Fmt V)
    (inside : p < f.length)
    (vm : σ) :
    Satisfies (getaster f args st p : Exec (Error ε) σ (V × Fmt V × Nat)) vm
      (fun r _ => p ≤ r.2.2 ∧ r.2.2 < f.length) fun _ _ => True := by
  unfold getaster
  cases read : getNum f (p + 1) with
  | none => exact completes_argErr _
  | some result =>
      obtain ⟨n, q⟩ := result
      dsimp only
      split
      · rename_i dollar
        have bounds := getNum_spec inside read
        have below := lt_length_of_getElem? dollar
        exact completes_bind (completes_pos _ _ _ _) fun _ _ =>
          ⟨show p ≤ q by omega, below⟩
      · exact completes_bind (completes_next _ _ _) fun _ _ =>
          ⟨Nat.le_refl _, inside⟩

/-! ## Flags -/

theorem or_and_of_and_eq_zero
    {a b m : UInt32}
    (apart : b &&& m = 0) : (a ||| b) &&& m = a &&& m := by
  apply UInt32.eq_of_toBitVec_eq
  have bits := congrArg UInt32.toBitVec apart
  rw [UInt32.toBitVec_and] at bits
  rw [UInt32.toBitVec_and, UInt32.toBitVec_and, UInt32.toBitVec_or]
  apply BitVec.eq_of_getLsbD_eq
  intro i _
  have bit := congrArg (BitVec.getLsbD · i) bits
  have zero : (0 : UInt32).toBitVec.getLsbD i = false := BitVec.getLsbD_zero
  simp only [BitVec.getLsbD_and, BitVec.getLsbD_or, zero] at bit ⊢
  rw [Bool.and_or_distrib_right, bit, Bool.or_false]

theorem and_not_and (a m : UInt32) : a &&& ~~~m &&& m = 0 := by
  rw [UInt32.and_assoc, UInt32.and_comm (~~~m) m, UInt32.and_not_self]
  exact UInt32.and_zero

/-- A flag that is not the precision's. -/
theorem Spec.Sound.withFlag
    {sp : Spec V}
    (sound : sp.Sound)
    (apart : flag &&& FPREC = 0) :
    Spec.Sound { sp with flags := sp.flags ||| flag } where
  prec := by
    intro used
    rw [or_and_of_and_eq_zero apart] at used
    exact sound.prec used
  id := sound.id

theorem Spec.Sound.congr
    {sp other : Spec V}
    (sound : sp.Sound)
    (prec : other.prec = sp.prec)
    (flags : other.flags = sp.flags)
    (id : other.id = sp.id) : other.Sound where
  prec := by
    rw [prec, flags]
    exact sound.prec
  id := by
    rw [id]
    exact sound.id

/-! ## The steps in a specifier -/

theorem measure_spec (f : List UInt8) (s : Scan V) (inSpec : s.mode = .spec sp) :
    s.measure f = 3 * (f.length + 1 - s.p) + 1 := by
  unfold Scan.measure
  rw [inSpec]

variable {s : Scan V}

theorem inside_endSpec
    (inside : s.p < f.length)
    (more : List UInt8) : (s.endSpec more).Inside f := by
  change s.p + 1 ≤ f.length + 1
  omega

theorem flagStep_goes
    (inSpec : s.mode = .spec sp)
    (sound : sp.Sound)
    (inside : s.p < f.length)
    (c : UInt8)
    (vm : σ) : Goes f s (flagStep s sp c : Exec (Error ε) σ _) vm := by
  unfold Goes flagStep
  split
  · exact completes_argErr _
  · split
    · exact completes_argErr _
    · rw [satisfies_pure, measure_spec f s inSpec]
      refine ⟨⟨Nat.succ_pos _, show s.p + 1 ≤ f.length + 1 by omega,
        sound.withFlag ?_⟩, ?_⟩
      · repeat' split
        all_goals decide
      · change 3 * (f.length + 1 - (s.p + 1)) + 1 < _
        omega

theorem numberStep_goes
    (inSpec : s.mode = .spec sp)
    (sound : sp.Sound)
    (digit : f[s.p]? = some c)
    (isDigit : isDigit c = true)
    (args : List V)
    (vm : σ) : Goes f s (numberStep f args s sp : Exec (Error ε) σ _) vm := by
  have inside := lt_length_of_getElem? digit
  unfold Goes numberStep
  cases read : getNum f s.p with
  | none => exact completes_argErr _
  | some result =>
      obtain ⟨n, q⟩ := result
      have bounds := getNum_spec (Nat.le_of_lt inside) read
      have passed := getNum_digit digit isDigit read
      dsimp only
      split
      · rename_i dollar
        have below := lt_length_of_getElem? dollar
        split
        · exact completes_argErr _
        · refine completes_bind (completes_pos _ _ _ _) fun a _ => ?_
          rw [satisfies_pure, measure_spec f s inSpec]
          refine ⟨⟨Nat.succ_pos _, show q + 1 ≤ f.length + 1 by omega,
            sound.congr rfl rfl rfl⟩, ?_⟩
          change 3 * (f.length + 1 - (q + 1)) + 1 < _
          omega
      · split
        · exact completes_argErr _
        · split
          · exact completes_argErr _
          · rw [satisfies_pure, measure_spec f s inSpec]
            refine ⟨⟨show 1 ≤ q by omega, show q ≤ f.length + 1 by omega,
              (sound.withFlag (show FWIDTH &&& FPREC = 0 by decide)).congr
                rfl rfl rfl⟩, ?_⟩
            change 3 * (f.length + 1 - q) + 1 < _
            omega

/-- What is written of a text is a part of it. -/
theorem completes_formatString
    (text : List UInt8)
    (flags : UInt32)
    (width prec : Int)
    (used : flags &&& FPREC ≠ 0 → 0 ≤ prec)
    (vm : σ) :
    Completes (formatString text flags width prec :
      Exec (Error ε) σ (List UInt8)) vm := by
  have whole : ∃ part, sliceTo text text.length = some part := by
    unfold sliceTo
    rw [if_pos ⟨by omega, Int.le_refl _⟩]
    exact ⟨_, rfl⟩
  have cut : ∃ part, sliceTo text
      (if flags &&& FPREC ≠ 0 ∧ prec < text.length then prec
        else (text.length : Int)) = some part := by
    split
    · rename_i short
      have nonneg := used short.1
      unfold sliceTo
      rw [if_pos ⟨nonneg, Int.le_of_lt short.2⟩]
      exact ⟨_, rfl⟩
    · exact whole
  obtain ⟨part, cutEq⟩ := cut
  obtain ⟨all, wholeEq⟩ := whole
  unfold Completes formatString
  dsimp only
  generalize (if flags &&& FPREC ≠ 0 ∧ prec < text.length then prec
    else (text.length : Int)) = slen at cutEq ⊢
  split
  · split
    · rw [satisfies_bind, satisfies_orPanic]
      exact ⟨part, cutEq, trivial⟩
    · rw [satisfies_orPanic]
      exact ⟨part, cutEq, trivial⟩
  · rw [satisfies_orPanic]
    exact ⟨all, wholeEq, trivial⟩

theorem find_le (f : List UInt8) (inside : p ≤ f.length) (byte : UInt8) :
    p ≤ find f p byte ∧ find f p byte ≤ f.length := by
  have atMost : (f.drop p).findIdx (· == byte) ≤ (f.drop p).length :=
    List.findIdx_le_length
  rw [List.length_drop] at atMost
  unfold find
  omega

/-- A byte that is another one is passed. -/
theorem lt_find
    (found : f[p]? = some c)
    (other : c ≠ byte) : p < find f p byte := by
  have inside := lt_length_of_getElem? found
  have here : f.drop p = c :: f.drop (p + 1) := by
    rw [List.drop_eq_getElem_cons inside,
      (List.getElem?_eq_some_iff.mp found).2]
  unfold find
  rw [here, List.findIdx_cons]
  have differs : (c == byte) = false := by simpa using other
  rw [differs]
  simp

theorem closing_ne (bracket : c = 60 ∨ c = 123) :
    c ≠ (if c = 60 then (62 : UInt8) else 125) := by
  rcases bracket with rfl | rfl <;> decide

/-- A name that is not the last byte of the format has two bytes at least. -/
theorem length_nameAt
    (found : f[p]? = some c)
    (bracket : c = 60 ∨ c = 123)
    (more : p + 1 < f.length) : 2 ≤ (nameAt f p c).length := by
  have passed := lt_find found (closing_ne bracket)
  unfold nameAt
  rw [List.length_drop, List.length_take]
  omega

theorem slice_inner
    (xs : List α)
    (long : 2 ≤ xs.length) : ∃ inner, slice xs 1 (xs.length - 1) = some inner := by
  unfold slice
  rw [if_pos (by omega)]
  exact ⟨_, rfl⟩

theorem completes_theHash
    (host : Host V ε σ)
    (st : Fmt V)
    (args : List V)
    (vm : σ) :
    Satisfies (st.theHash host args : Exec (Error ε) σ V) vm
      (fun _ _ => st.hash.isSome ∨ ∃ h, args = [h] ∧ host.isHash h vm = true)
      fun _ _ => True := by
  unfold Fmt.theHash
  cases held : st.hash with
  | some h => exact .inl rfl
  | none =>
      cases args with
      | nil => exact completes_argErr _
      | cons h rest =>
          cases rest with
          | cons _ _ => exact completes_argErr _
          | nil =>
              dsimp only
              rw [satisfies_get_bind]
              split
              · rename_i isHash
                exact .inr ⟨h, rfl, isHash⟩
              · exact completes_argErr _

variable {host : Host V ε σ}

/-- A name is looked up without going wrong unless it is a bracket only. -/
theorem completes_named
    (sane : host.Sane)
    (st : Fmt V)
    (args : List V)
    (name : List UInt8)
    (vm : σ)
    (long : ¬st.posarg > 0 → st.posarg ≠ -1 →
      (st.hash.isSome ∨ ∃ h, args = [h] ∧ host.isHash h vm = true) →
      2 ≤ name.length) :
    Satisfies (st.named host args name) vm (fun _ _ => 2 ≤ name.length)
      fun _ _ => True := by
  unfold Fmt.named
  dsimp only
  split
  · exact completes_argErr _
  · rename_i unordered
    split
    · exact completes_argErr _
    · rename_i unnumbered
      rw [satisfies_bind]
      apply (completes_theHash host st args vm).mono
      · intro h after hashed
        have enough := long unordered unnumbered hashed
        obtain ⟨inner, sliced⟩ := slice_inner name enough
        rw [satisfies_bind, satisfies_orPanic]
        refine ⟨inner, sliced, completes_bind (sane.hashGet _ _ _) ?_⟩
        intro found after
        cases found with
        | none =>
            dsimp only
            rw [satisfies_raise]
            trivial
        | some v => exact enough
      · intro _ _ _
        trivial

theorem nameStep_goes
    (sane : host.Sane)
    {s : Scan V}
    (inSpec : s.mode = .spec sp)
    (sound : sp.Sound)
    (found : f[s.p]? = some c)
    (bracket : c = 60 ∨ c = 123)
    (args : List V)
    (vm : σ)
    (safe : ¬BareName host f args s sp vm) :
    Goes f s (nameStep host f args s sp c) vm := by
  have inside := lt_length_of_getElem? found
  have passed := lt_find found (closing_ne bracket)
  have bounds := find_le f (Nat.le_of_lt inside)
    (if c = 60 then (62 : UInt8) else 125)
  unfold Goes nameStep
  dsimp only
  generalize find f s.p (if c = 60 then (62 : UInt8) else 125) = q
    at passed bounds
  cases named : sp.id with
  | some prev =>
      obtain ⟨inner, sliced⟩ := slice_inner prev (sound.id prev named)
      dsimp only
      rw [satisfies_bind, satisfies_orPanic]
      exact ⟨inner, sliced, completes_argErr _⟩
  | none =>
      have long : ¬s.st.posarg > 0 → s.st.posarg ≠ -1 →
          (s.st.hash.isSome ∨ ∃ h, args = [h] ∧ host.isHash h vm = true) →
          2 ≤ (nameAt f s.p c).length := by
        intro unordered unnumbered hash
        by_cases more : s.p + 1 < f.length
        · exact length_nameAt found bracket more
        · refine absurd ?_ safe
          refine ⟨?_, by omega, named, unordered, unnumbered, hash⟩
          rcases bracket with rfl | rfl
          · exact .inl found
          · exact .inr found
      dsimp only
      rw [satisfies_bind]
      apply (completes_named sane s.st args _ vm long).mono
      · intro a after enough
        split
        · rw [satisfies_pure, measure_spec f s inSpec]
          refine ⟨⟨Nat.succ_pos _,
            show q + 1 ≤ f.length + 1 from Nat.succ_le_succ bounds.2, ?_⟩, ?_⟩
          · refine ⟨sound.prec, ?_⟩
            rintro name same
            cases same
            exact enough
          · change 3 * (f.length + 1 - (q + 1)) + 1 < _
            omega
        · refine completes_bind (sane.asString _ _) fun text after => ?_
          refine completes_bind
            (completes_formatString _ _ _ _ sound.prec _) fun more after => ?_
          rw [satisfies_pure, measure_spec f s inSpec]
          refine ⟨show q + 1 ≤ f.length + 1 from Nat.succ_le_succ bounds.2, ?_⟩
          change 3 * (f.length + 1 - (q + 1)) < _
          omega
      · intro _ _ _
        trivial

theorem starStep_goes
    (sane : host.Sane)
    {s : Scan V}
    (inSpec : s.mode = .spec sp)
    (sound : sp.Sound)
    (inside : s.p < f.length)
    (args : List V)
    (vm : σ) : Goes f s (starStep host f args s sp) vm := by
  unfold Goes starStep
  split
  · exact completes_argErr _
  · split
    · exact completes_argErr _
    · rw [satisfies_bind]
      apply (getaster_spec args s.st inside vm).mono
      · rintro ⟨v, st, q⟩ after ⟨low, high⟩
        change s.p ≤ q at low
        change q < f.length at high
        refine completes_bind (sane.expectInt _ _ _) fun w after => ?_
        split
        · exact completes_argErr _
        · rw [satisfies_pure, measure_spec f s inSpec]
          refine ⟨⟨Nat.succ_pos _, show q + 1 ≤ f.length + 1 by omega, ?_⟩, ?_⟩
          · have wide := sound.withFlag (show FWIDTH &&& FPREC = 0 by decide)
            by_cases negative : w < 0
            · rw [if_pos negative]
              exact (wide.withFlag (show FMINUS &&& FPREC = 0 by decide)).congr
                rfl rfl rfl
            · rw [if_neg negative]
              exact wide.congr rfl rfl rfl
          · change 3 * (f.length + 1 - (q + 1)) + 1 < _
            omega
      · intro _ _ _
        trivial

theorem precisionStep_goes
    (sane : host.Sane)
    {s : Scan V}
    (inSpec : s.mode = .spec sp)
    (sound : sp.Sound)
    (inside : s.p < f.length)
    (args : List V)
    (vm : σ) : Goes f s (precisionStep host f args s sp) vm := by
  unfold Goes precisionStep
  split
  · exact completes_argErr _
  · dsimp only
    split
    · rename_i star
      have below := lt_length_of_getElem? star
      rw [satisfies_bind]
      apply (getaster_spec args s.st below vm).mono
      · rintro ⟨v, st, q⟩ after ⟨low, high⟩
        change s.p + 1 ≤ q at low
        change q < f.length at high
        refine completes_bind (sane.expectInt _ _ _) fun prec after => ?_
        rw [satisfies_pure, measure_spec f s inSpec]
        refine ⟨⟨Nat.succ_pos _, show q + 1 ≤ f.length + 1 by omega, ?_,
          sound.id⟩, ?_⟩
        · intro used
          by_cases negative : prec < 0
          · dsimp only at used
            rw [if_pos negative, and_not_and] at used
            exact absurd rfl used
          · exact Int.not_lt.mp negative
        · change 3 * (f.length + 1 - (q + 1)) + 1 < _
          omega
      · intro _ _ _
        trivial
    · cases read : getNum f (s.p + 1) with
      | none => exact completes_argErr _
      | some result =>
          obtain ⟨prec, q⟩ := result
          obtain ⟨nonneg, low, high⟩ := getNum_spec inside read
          dsimp only
          rw [satisfies_pure, measure_spec f s inSpec]
          refine ⟨⟨show 1 ≤ q by omega, show q ≤ f.length + 1 by omega,
            fun _ => nonneg, sound.id⟩, ?_⟩
          change 3 * (f.length + 1 - q) + 1 < _
          omega

theorem percentStep_goes
    (inSpec : s.mode = .spec sp)
    (past : 1 ≤ s.p)
    (inside : s.p < f.length)
    (c : UInt8)
    (vm : σ) : Goes f s (percentStep s sp c : Exec (Error ε) σ _) vm := by
  unfold Goes percentStep
  rw [satisfies_bind]
  have place : Satisfies (if c ≠ 37 then
        orPanic (if 1 ≤ s.p then some (s.p - 1) else none)
      else pure s.p : Exec (Error ε) σ Nat) vm
      (fun p _ => p = s.p - 1 ∨ p = s.p) fun _ _ => True := by
    split
    · rw [satisfies_orPanic]
      exact ⟨s.p - 1, rfl, .inl rfl⟩
    · exact .inr rfl
  apply place.mono
  · intro p after where_
    split
    · exact completes_argErr _
    · rw [satisfies_pure, measure_spec f s inSpec]
      refine ⟨show p + 1 ≤ f.length + 1 by omega, ?_⟩
      change 3 * (f.length + 1 - (p + 1)) < _
      omega
  · intro _ _ _
    trivial

theorem completes_charText
    (sane : host.Sane)
    (val : V)
    (vm : σ) : Completes (charText host val) vm := by
  unfold charText
  cases host.code val with
  | some code =>
      dsimp only
      cases host.charBytes code with
      | none => exact completes_argErr _
      | some b => trivial
  | none =>
      dsimp only
      unfold Completes
      rw [satisfies_get_bind]
      refine completes_bind ?_ fun s after => ?_
      · cases host.strBytes val vm with
        | some b => trivial
        | none =>
            refine completes_bind (sane.respondsToStr _ _) fun responds _ => ?_
            cases responds with
            | false => exact completes_argErr _
            | true =>
                refine completes_bind (sane.toStr _ _) fun r after => ?_
                rw [satisfies_get_bind]
                cases host.strBytes r after with
                | some b => trivial
                | none => exact completes_argErr _
      · split
        · exact completes_argErr _
        · trivial

theorem specStep_goes
    (sane : host.Sane)
    {s : Scan V}
    (inSpec : s.mode = .spec sp)
    (sound : sp.Sound)
    (past : 1 ≤ s.p)
    (found : f[s.p]? = some c)
    (args : List V)
    (vm : σ)
    (safe : ¬BareName host f args s sp vm) :
    Goes f s (specStep host f args s sp c) vm := by
  have inside := lt_length_of_getElem? found
  -- a conversion that ends the specifier where the scanner is
  have ends : ∀ st binary more, Scan.Inside f
        (Scan.endSpec { s with st := st, binary := binary } more) ∧
      Scan.measure f (Scan.endSpec { s with st := st, binary := binary } more) <
        s.measure f := by
    intro st binary more
    rw [measure_spec f s inSpec]
    refine ⟨show s.p + 1 ≤ f.length + 1 by omega, ?_⟩
    change 3 * (f.length + 1 - (s.p + 1)) < _
    omega
  unfold specStep
  by_cases flag : c = 32 ∨ c = 35 ∨ c = 43 ∨ c = 45 ∨ c = 48
  · rw [if_pos flag]
    exact flagStep_goes inSpec sound inside c vm
  rw [if_neg flag]
  by_cases digit : 49 ≤ c ∧ c ≤ 57
  · rw [if_pos digit]
    exact numberStep_goes inSpec sound found (decide_eq_true ⟨
      Nat.le_trans (by decide) (UInt8.le_iff_toNat_le.mp digit.1), digit.2⟩)
      args vm
  rw [if_neg digit]
  by_cases bracket : c = 60 ∨ c = 123
  · rw [if_pos bracket]
    exact nameStep_goes sane inSpec sound found bracket args vm safe
  rw [if_neg bracket]
  by_cases star : c = 42
  · rw [if_pos star]
    exact starStep_goes sane inSpec sound inside args vm
  rw [if_neg star]
  by_cases point : c = 46
  · rw [if_pos point]
    exact precisionStep_goes sane inSpec sound inside args vm
  rw [if_neg point]
  by_cases percent : c = 10 ∨ c = 0 ∨ c = 37
  · rw [if_pos percent]
    exact percentStep_goes inSpec past inside c vm
  rw [if_neg percent]
  unfold Goes
  by_cases char : c = 99
  · rw [if_pos char]
    refine completes_bind (completes_taken _ _ _ _) fun a after => ?_
    refine completes_bind (completes_charText sane _ _) fun b after => ?_
    exact ends _ _ _
  rw [if_neg char]
  by_cases text : c = 115 ∨ c = 112
  · rw [if_pos text]
    refine completes_bind (completes_taken _ _ _ _) fun a after => ?_
    rw [satisfies_get_bind]
    refine completes_bind ?_ fun text after => ?_
    · by_cases inspected : c = 112
      · rw [if_pos inspected]
        exact sane.inspect _ _
      · rw [if_neg inspected]
        exact sane.asString _ _
    · refine completes_bind
        (completes_formatString _ _ _ _ sound.prec _) fun more after => ?_
      exact ends _ _ _
  rw [if_neg text]
  by_cases integer : c ∈ [100, 105, 117, 111, 120, 88, 98, 66]
  · rw [if_pos integer]
    refine completes_bind (completes_taken _ _ _ _) fun a after => ?_
    refine completes_bind (sane.integer _ _) fun number after => ?_
    rw [satisfies_pure, measure_spec f s inSpec]
    refine ⟨inside, ?_⟩
    change 3 * (f.length + 1 - s.p) < _
    omega
  rw [if_neg integer]
  by_cases float : c ∈ [102, 101, 69, 103, 71]
  · rw [if_pos float]
    refine completes_bind (completes_taken _ _ _ _) fun a after => ?_
    refine completes_bind (sane.float _ _ _ _ _ _) fun more after => ?_
    exact ends _ _ _
  · rw [if_neg float]
    exact completes_argErr _

/-! ## The whole scan -/

theorem scanStep_goes
    (sane : host.Sane)
    (f : List UInt8)
    (args : List V)
    (s : Scan V)
    (vm : σ)
    (inside : s.Inside f)
    (safe : Safe host f args s vm) :
    Satisfies (scanStep host f args s) vm
      (fun r _ => GoesOn (Scan.Inside f) (Scan.measure f) s r)
      fun _ _ => True := by
  unfold Scan.Inside at inside
  unfold Safe at safe
  unfold scanStep
  cases mode : s.mode with
  | text =>
      rw [mode] at inside
      dsimp only at inside ⊢
      have size : s.measure f = 3 * (f.length + 1 - s.p) := by
        unfold Scan.measure
        rw [mode]
      split
      · rename_i before
        have bounds := find_le f (Nat.le_of_lt before) 37
        split
        · exact completes_argErr _
        · have sliced : slice f s.p (find f s.p 37) =
              some ((f.take (find f s.p 37)).drop s.p) := if_pos bounds
          rw [satisfies_bind, satisfies_orPanic]
          refine ⟨_, sliced, ?_⟩
          split
          · trivial
          · rw [satisfies_pure]
            unfold GoesOn
            rw [size]
            refine ⟨⟨Nat.succ_pos _,
              show find f s.p 37 + 1 ≤ f.length + 1 by omega, ?_, ?_⟩, ?_⟩
            · intro used
              exact absurd (show (0 : UInt32) &&& FPREC = 0 by decide) used
            · intro name none
              cases none
            · change 3 * (f.length + 1 - (find f s.p 37 + 1)) + 1 < _
              omega
      · trivial
  | spec sp =>
      rw [mode] at inside safe
      obtain ⟨past, _, sound⟩ := inside
      dsimp only at safe ⊢
      split
      · exact completes_argErr _
      · rename_i before
        have below : s.p < f.length := Nat.not_le.mp before
        have found := List.getElem?_eq_getElem below
        rw [satisfies_bind, satisfies_orPanic]
        refine ⟨_, found, ?_⟩
        rw [satisfies_map]
        exact specStep_goes sane mode sound past found args vm safe
  | integer sp c val =>
      rw [mode] at inside safe
      dsimp only at inside safe ⊢
      have written : ∃ more,
          formatIntChecked val c sp.flags sp.width sp.prec = some more := by
        unfold formatIntChecked
        rw [if_pos safe]
        unfold formatIntFits at safe
        unfold formatInt
        dsimp only at safe ⊢
        split at safe
        · cases safe
        · rename_i t texted
          rw [texted]
          exact ⟨_, rfl⟩
      obtain ⟨more, writtenEq⟩ := written
      rw [satisfies_bind, satisfies_orPanic]
      refine ⟨more, writtenEq, ?_⟩
      rw [satisfies_pure]
      refine ⟨inside_endSpec inside more, ?_⟩
      unfold Scan.measure
      rw [mode]
      change 3 * (f.length + 1 - (s.p + 1)) < _
      dsimp only
      omega

theorem bind_of_panicked
    (rest : α → Exec (Error ε) σ β)
    (ran : command vm = .error .panicked after) :
    (command >>= rest) vm = .error .panicked after := by
  change EStateM.bind command rest vm = _
  unfold EStateM.bind
  rw [ran]

theorem bind_of_ok
    (rest : α → Exec (Error ε) σ β)
    (ran : command vm = .ok a after) :
    (command >>= rest) vm = rest a after := by
  change EStateM.bind command rest vm = _
  unfold EStateM.bind
  rw [ran]

theorem theHash_eq
    {st : Fmt V}
    (hash : st.hash.isSome ∨ ∃ h, args = [h] ∧ host.isHash h vm = true) :
    ∃ h, st.theHash host args vm = .ok h vm := by
  unfold Fmt.theHash
  cases held : st.hash with
  | some h => exact ⟨h, rfl⟩
  | none =>
      rcases hash with some_ | ⟨h, rfl, isHash⟩
      · rw [held] at some_
        cases some_
      · refine ⟨h, ?_⟩
        dsimp only
        rw [bind_of_ok _ (show (get : Exec (Error ε) σ σ) vm = .ok vm vm from rfl),
          if_pos isHash]
        rfl

/-- A bracket that is the last byte has nothing between its ends. -/
theorem BareName.stuck
    (bare : BareName host f args s sp vm)
    (bracket : c = 60 ∨ c = 123)
    (found : f[s.p]? = some c) :
    specStep host f args s sp c vm = .error .panicked vm := by
  have passed := lt_find found (closing_ne bracket)
  have inside := lt_length_of_getElem? found
  have last := bare.last
  have one : (nameAt f s.p c).length = 1 := by
    have bounds := find_le f (Nat.le_of_lt inside)
      (if c = 60 then (62 : UInt8) else 125)
    unfold nameAt
    rw [List.length_drop, List.length_take]
    omega
  have nothing : slice (nameAt f s.p c) 1 ((nameAt f s.p c).length - 1) =
      none := by
    rw [one]
    rfl
  obtain ⟨h, hashed⟩ := theHash_eq bare.hash
  have named : s.st.named host args (nameAt f s.p c) vm =
      .error .panicked vm := by
    unfold Fmt.named
    rw [if_neg bare.unordered, if_neg bare.unnumbered, bind_of_ok _ hashed,
      nothing]
    rfl
  have here : specStep host f args s sp c = nameStep host f args s sp c := by
    rcases bracket with rfl | rfl <;> rfl
  rw [here]
  unfold nameStep
  rw [bare.unnamed]
  exact bind_of_panicked _ named

theorem scanStep_stuck
    (host : Host V ε σ)
    (f : List UInt8)
    (args : List V)
    (s : Scan V)
    (vm : σ)
    (goesWrong : ¬Safe host f args s vm) :
    ∃ after, scanStep host f args s vm = .error .panicked after := by
  refine ⟨vm, ?_⟩
  unfold Safe at goesWrong
  unfold scanStep
  cases mode : s.mode with
  | text =>
      rw [mode] at goesWrong
      exact absurd trivial goesWrong
  | spec sp =>
      rw [mode] at goesWrong
      have bare := not_not.mp goesWrong
      obtain ⟨c, bracket, found⟩ : ∃ c : UInt8, (c = 60 ∨ c = 123) ∧
          f[s.p]? = some c := by
        rcases bare.bracket with angle | curly
        · exact ⟨60, .inl rfl, angle⟩
        · exact ⟨123, .inr rfl, curly⟩
      have below := lt_length_of_getElem? found
      dsimp only
      rw [if_neg (by omega), found,
        bind_of_ok _ (show (orPanic (some c) : Exec (Error ε) σ UInt8) vm =
          .ok c vm from rfl)]
      change EStateM.map _ _ vm = _
      unfold EStateM.map
      rw [bare.stuck bracket found]
  | integer sp c val =>
      rw [mode] at goesWrong
      have none : formatIntChecked val c sp.flags sp.width sp.prec = none :=
        if_neg goesWrong
      dsimp only
      rw [none]
      rfl

theorem stepping
    (sane : host.Sane)
    (f : List UInt8)
    (args : List V) :
    Stepping (scanStep host f args) (Scan.Inside f) (Safe host f args)
      (Scan.measure f) where
  goes := fun s vm inside safe => scanStep_goes sane f args s vm inside safe
  stuck := fun s vm _ goesWrong => scanStep_stuck host f args s vm goesWrong

/-- A VM whose only object is an empty Hash. -/
def emptyHashHost : Host Unit Unit Unit where
  isHash _ _ := true
  hashGet _ _ := pure none
  expectInt _ text := raise (.argument text)
  code _ := none
  charBytes code := some [UInt8.ofNat code.toNat]
  strBytes _ _ := none
  strBinary _ _ := false
  respondsToStr _ := pure false
  toStr v := pure v
  inspect _ := pure [123, 125]
  asString _ := pure [123, 125]
  integer _ := raise (.argument "value")
  float _ _ _ _ _ := raise (.argument "value")

theorem emptyHashHost_sane : emptyHashHost.Sane where
  hashGet := fun _ _ _ => trivial
  expectInt := fun _ _ _ => trivial
  respondsToStr := fun _ _ => trivial
  toStr := fun _ _ => trivial
  inspect := fun _ _ => trivial
  asString := fun _ _ => trivial
  integer := fun _ _ => trivial
  float := fun _ _ _ _ _ _ => trivial

end SabiRuby.Sprintf
