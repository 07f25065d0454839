import SabiRuby.Checkpoint.Locality

/-!
# Images are prefix-free

An accepted image is refused without its last bytes and with more bytes, and a
section the reader knows is refused with bytes more or fewer inside its length.
Where the sections start depends on the bytes before them only.
-/

namespace SabiRuby.Checkpoint

open Library Reader
open SabiRuby.Checkpoint.Cur

/-- A section or the end mark is looked for at this position. -/
inductive SectionHead (b : List UInt8) : Nat → Prop
  | first
      (ran : body ⟨b, 0⟩ = .ok (image, ⟨b, p⟩)) : SectionHead b p
  | next
      (head : SectionHead b p)
      (ran : sectionStep ⟨b, p⟩ = .ok (some lines, ⟨b, q⟩)) : SectionHead b q

theorem SectionHead.le_length (head : SectionHead b p) : p ≤ b.length := by
  induction head with
  | first ran => exact (local_body.reads (Nat.zero_le _) ran).2.2
  | next _ ran ih =>
      exact (local_sectionStep.reads ih ran).2.2

/-- The sections start where they do because of the bytes before them. -/
theorem SectionHead.same
    (head : SectionHead b p)
    (same : other.take p = b.take p) : SectionHead other p := by
  induction head with
  | first ran => exact .first (local_body.same (Nat.zero_le _) ran other same)
  | next head ran ih =>
      have inside := head.le_length
      have further := (local_sectionStep.reads inside ran).2.1
      exact .next (ih (take_eq_of_le same further))
        (local_sectionStep.same inside ran other same)

/-! ## Accepted images -/

/-- The sections from here on are read to their end mark, at the end of the
buffer. -/
def Ends (b : List UInt8) (p : Nat) : Prop :=
  ∃ turns lines out, sectionsLoop turns ⟨b, p⟩ lines =
    .ok (true, out, ⟨b, b.length⟩)

theorem sectionsLoop_buffer
    (turns : Nat)
    (inside : p ≤ b.length)
    (ran : sectionsLoop turns ⟨b, p⟩ lines = .ok (ended, out, after)) :
    after.b = b := by
  induction turns generalizing p lines with
  | zero =>
      cases ran
      rfl
  | succ turns ih =>
      unfold sectionsLoop at ran
      split at ran
      · cases step : sectionStep ⟨b, p⟩ with
        | error e => simp [step] at ran
        | ok result =>
            obtain ⟨more, ⟨b', q⟩⟩ := result
            obtain ⟨rfl, -, there⟩ := local_sectionStep.reads inside step
            cases more with
            | none =>
                simp only [step, Except.ok.injEq, Prod.mk.injEq] at ran
                rw [← ran.2.2]
            | some more =>
                simp only [step] at ran
                exact ih there ran
      · cases ran
        rfl

theorem ends_of_accepted
    (accepted : parse b = .ok image) :
    ∃ start p, body ⟨b, 0⟩ = .ok (start, ⟨b, p⟩) ∧ Ends b p := by
  unfold parse at accepted
  cases first : body ⟨b, 0⟩ with
  | error e => simp [first] at accepted
  | ok result =>
      obtain ⟨start, ⟨b', p⟩⟩ := result
      obtain ⟨rfl, -, inside⟩ := local_body.reads (Nat.zero_le _) first
      simp only [first] at accepted
      cases looped : sectionsLoop (b'.length + 1) ⟨b', p⟩ [] with
      | error e => simp [looped] at accepted
      | ok result =>
          obtain ⟨ended, out, ⟨b'', q⟩⟩ := result
          have buffer := sectionsLoop_buffer _ inside looped
          change b'' = b' at buffer
          subst buffer
          simp only [looped] at accepted
          cases ended with
          | false => simp at accepted
          | true =>
              simp only [Bool.not_true, Bool.false_eq_true, if_false] at accepted
              split at accepted
              · cases accepted
              · rename_i whole
                have there : q = b''.length := by
                  simpa using whole
                subst there
                exact ⟨start, p, rfl, _, _, _, looped⟩

/-- What is read at a head the sections end from. -/
theorem Ends.step
    (ends : Ends b p)
    (inside : p ≤ b.length) :
    ∃ more q, sectionStep ⟨b, p⟩ = .ok (more, ⟨b, q⟩) ∧
      match more with
      | none => q = b.length
      | some _ => Ends b q := by
  obtain ⟨turns, lines, out, ran⟩ := ends
  cases turns with
  | zero => cases ran
  | succ turns =>
      unfold sectionsLoop at ran
      split at ran
      · cases step : sectionStep ⟨b, p⟩ with
        | error e => simp [step] at ran
        | ok result =>
            obtain ⟨more, ⟨b', q⟩⟩ := result
            obtain ⟨rfl, -, there⟩ := local_sectionStep.reads inside step
            refine ⟨more, q, rfl, ?_⟩
            cases more with
            | none =>
                simp only [step, Except.ok.injEq, Prod.mk.injEq] at ran
                exact congrArg Cursor.p ran.2.2
            | some more =>
                simp only [step] at ran
                exact ⟨turns, _, _, ran⟩
      · cases ran

/-- The sections of an accepted image end from each of their heads. -/
theorem SectionHead.ends
    (head : SectionHead b p)
    (accepted : parse b = .ok image) : Ends b p := by
  obtain ⟨start, origin, began, ends⟩ := ends_of_accepted accepted
  induction head with
  | first ran =>
      rw [ran] at began
      cases began
      exact ends
  | next head ran ih =>
      obtain ⟨more, q, step, rest⟩ := ih.step head.le_length
      rw [ran] at step
      cases step
      exact rest

/-- An accepted image has its end mark where its sections lead to. -/
theorem end_of_accepted
    (accepted : parse b = .ok image) :
    ∃ p, SectionHead b p ∧ sectionStep ⟨b, p⟩ = .ok (none, ⟨b, b.length⟩) := by
  obtain ⟨start, origin, began, turns, lines, out, ran⟩ :=
    ends_of_accepted accepted
  have head : SectionHead b origin := .first began
  clear began accepted
  induction turns generalizing origin lines with
  | zero => cases ran
  | succ turns ih =>
      unfold sectionsLoop at ran
      split at ran
      · cases step : sectionStep ⟨b, origin⟩ with
        | error e => simp [step] at ran
        | ok result =>
            obtain ⟨more, ⟨b', q⟩⟩ := result
            obtain ⟨rfl, -, there⟩ :=
              local_sectionStep.reads head.le_length step
            cases more with
            | none =>
                simp only [step, Except.ok.injEq, Prod.mk.injEq] at ran
                rw [ran.2.2] at step
                exact ⟨origin, head, step⟩
            | some more =>
                simp only [step] at ran
                exact ih q _ ran (head.next step)
      · cases ran

/-- Of two accepted images neither goes on where the other ends. -/
theorem eq_of_accepted
    (isPart : part <+: whole)
    (partAccepted : parse part = .ok image)
    (wholeAccepted : parse whole = .ok image') : part = whole := by
  obtain ⟨rest, rfl⟩ := isPart
  obtain ⟨p, head, step⟩ := end_of_accepted partAccepted
  have inside := head.le_length
  have same : (part ++ rest).take part.length = part.take part.length := by
    rw [List.take_left' rfl, List.take_length]
  have wholeHead := head.same (take_eq_of_le same inside)
  have wholeStep := local_sectionStep.same inside step (part ++ rest) same
  obtain ⟨more, q, again, ended⟩ :=
    (wholeHead.ends wholeAccepted).step wholeHead.le_length
  rw [wholeStep] at again
  cases again
  change part.length = (part ++ rest).length at ended
  rw [List.length_append] at ended
  have none : rest = [] := List.eq_nil_of_length_eq_zero (by omega)
  rw [none, List.append_nil]

/-! ## Sections -/

/-- A length as the image writes it. -/
def be32 (n : Nat) : List UInt8 :=
  [UInt8.ofNat (n / 2 ^ 24), UInt8.ofNat (n / 2 ^ 16), UInt8.ofNat (n / 2 ^ 8),
    UInt8.ofNat n]

/-- A section with its tag and its length. -/
def sectionBytes (tag content : List UInt8) : List UInt8 :=
  tag ++ be32 content.length ++ content

theorem take_here (front middle rest : List UInt8) :
    take middle.length ⟨front ++ middle ++ rest, front.length⟩ =
      .ok (middle, ⟨front ++ middle ++ rest, (front ++ middle).length⟩) := by
  unfold take
  have room : ¬(front ++ middle ++ rest).length - front.length <
      middle.length := by
    rw [List.length_append, List.length_append]
    omega
  rw [if_neg room, List.length_append, List.append_assoc, List.drop_left' rfl,
    List.take_left' rfl]

/-- Four bytes as a number. -/
theorem toNat_bytes (a b c d : UInt8) :
    (a.toUInt32 <<< 24 ||| b.toUInt32 <<< 16 ||| c.toUInt32 <<< 8 |||
      d.toUInt32).toNat =
        ((a.toNat * 2 ^ 8 + b.toNat) * 2 ^ 8 + c.toNat) * 2 ^ 8 + d.toNat := by
  have aSmall := a.toNat_lt
  have bSmall := b.toNat_lt
  have cSmall := c.toNat_lt
  have dSmall := d.toNat_lt
  have shifted : ∀ (x : UInt8) (k : Nat), k ≤ 24 →
      (x.toUInt32 <<< UInt32.ofNat k).toNat = x.toNat <<< k := by
    intro x k bound
    have small := x.toNat_lt
    rw [UInt32.toNat_shiftLeft, UInt8.toNat_toUInt32, UInt32.toNat_ofNat',
      Nat.mod_eq_of_lt (show k < 2 ^ 32 by omega),
      Nat.mod_eq_of_lt (show k < 32 by omega), Nat.mod_eq_of_lt]
    rw [Nat.shiftLeft_eq]
    calc x.toNat * 2 ^ k ≤ x.toNat * 2 ^ 24 :=
          Nat.mul_le_mul_left _ (Nat.pow_le_pow_right (by omega) bound)
      _ < 2 ^ 32 := by omega
  have one := shifted a 24 (by omega)
  have two := shifted b 16 (by omega)
  have three := shifted c 8 (by omega)
  rw [UInt32.toNat_or, UInt32.toNat_or, UInt32.toNat_or, UInt8.toNat_toUInt32]
  rw [show (24 : UInt32) = UInt32.ofNat 24 from rfl,
    show (16 : UInt32) = UInt32.ofNat 16 from rfl,
    show (8 : UInt32) = UInt32.ofNat 8 from rfl, one, two, three]
  have top : a.toNat <<< 24 ||| b.toNat <<< 16 =
      (a.toNat * 2 ^ 8 + b.toNat) <<< 16 := by
    rw [← Nat.shiftLeft_add_eq_or_of_lt (by rw [Nat.shiftLeft_eq]; omega)]
    rw [Nat.shiftLeft_eq, Nat.shiftLeft_eq, Nat.shiftLeft_eq]
    omega
  have middle : (a.toNat * 2 ^ 8 + b.toNat) <<< 16 ||| c.toNat <<< 8 =
      ((a.toNat * 2 ^ 8 + b.toNat) * 2 ^ 8 + c.toNat) <<< 8 := by
    rw [← Nat.shiftLeft_add_eq_or_of_lt (by rw [Nat.shiftLeft_eq]; omega)]
    rw [Nat.shiftLeft_eq, Nat.shiftLeft_eq, Nat.shiftLeft_eq]
    omega
  rw [top, middle, ← Nat.shiftLeft_add_eq_or_of_lt dSmall, Nat.shiftLeft_eq]

theorem u32_here
    (front rest : List UInt8)
    (small : n < 2 ^ 32) :
    u32 ⟨front ++ be32 n ++ rest, front.length⟩ =
      .ok (UInt32.ofNat n,
        ⟨front ++ be32 n ++ rest, (front ++ be32 n).length⟩) := by
  have taken := take_here front (be32 n) rest
  have number : (UInt8.ofNat (n / 2 ^ 24)).toUInt32 <<< 24 |||
      (UInt8.ofNat (n / 2 ^ 16)).toUInt32 <<< 16 |||
      (UInt8.ofNat (n / 2 ^ 8)).toUInt32 <<< 8 |||
      (UInt8.ofNat n).toUInt32 = UInt32.ofNat n := by
    apply UInt32.toNat_inj.mp
    rw [toNat_bytes, UInt32.toNat_ofNat', UInt8.toNat_ofNat', UInt8.toNat_ofNat',
      UInt8.toNat_ofNat', UInt8.toNat_ofNat']
    omega
  apply bind_eq_ok_iff.mpr
  refine ⟨be32 n, _, taken, ?_⟩
  exact congrArg (fun x => Except.ok (x, _)) number

/-- What is read of a section. -/
theorem sectionStep_here
    (front content rest : List UInt8)
    (known : tag = DBG0 ∨ tag = GCS0)
    (small : content.length < 2 ^ 32) :
    sectionStep ⟨front ++ sectionBytes tag content ++ rest, front.length⟩ =
      (filled tag content).map fun lines =>
        (some lines, ⟨front ++ sectionBytes tag content ++ rest,
          (front ++ sectionBytes tag content).length⟩) := by
  have length : tag.length = 4 := by
    rcases known with rfl | rfl <;> rfl
  have notEnd : tag ≠ END0 := by
    rcases known with rfl | rfl <;> decide
  have tagTaken := take_here front tag (be32 content.length ++ content ++ rest)
  have lengthRead := u32_here (front ++ tag) (content ++ rest) small
  have contentTaken :=
    take_here (front ++ tag ++ be32 content.length) content rest
  have number : (UInt32.ofNat content.length).toNat = content.length := by
    rw [UInt32.toNat_ofNat', Nat.mod_eq_of_lt small]
  unfold sectionBytes
  rw [length] at tagTaken
  simp only [← List.append_assoc] at tagTaken lengthRead contentTaken ⊢
  have contentRead : takeContents tag (UInt32.ofNat content.length).toNat
      ⟨front ++ tag ++ be32 content.length ++ content ++ rest,
        (front ++ tag ++ be32 content.length).length⟩ =
      .ok (content, ⟨front ++ tag ++ be32 content.length ++ content ++ rest,
        (front ++ tag ++ be32 content.length ++ content).length⟩) := by
    rw [number]
    unfold takeContents
    split
    · rename_i short
      unfold take at contentTaken
      rw [if_pos short] at contentTaken
      cases contentTaken
    · exact contentTaken
  unfold sectionStep
  rw [bind_of_ok tagTaken, if_neg notEnd, bind_of_ok lengthRead,
    bind_of_ok contentRead]
  cases filled tag content with
  | error e => rfl
  | ok lines => rfl

/-- The contents that fill their length are read to their end. -/
theorem filled_eq_ok
    (ok : filled tag content = .ok lines) :
    ∃ more s, sectionContents tag ⟨content, 0⟩ = .ok (more, s) ∧
      s.p = content.length := by
  unfold filled at ok
  cases ran : sectionContents tag ⟨content, 0⟩ with
  | error e => simp [ran] at ok
  | ok result =>
      simp only [ran] at ok
      split at ok
      · cases ok
      · rename_i whole
        exact ⟨result.1, result.2, rfl, by simpa using whole⟩

/-- Of contents that fill their length neither goes on where the other ends. -/
theorem eq_of_filled
    (known : tag = DBG0 ∨ tag = GCS0)
    (isPart : part <+: whole)
    (partFilled : filled tag part = .ok lines)
    (wholeFilled : filled tag whole = .ok lines') : part = whole := by
  have reader := local_sectionContents known
  obtain ⟨more, ⟨b, q⟩, ran, ended⟩ := filled_eq_ok partFilled
  obtain ⟨more', ⟨b', q'⟩, ran', ended'⟩ := filled_eq_ok wholeFilled
  obtain ⟨buffer, -⟩ := reader.reads (Nat.zero_le _) ran
  obtain ⟨buffer', -⟩ := reader.reads (Nat.zero_le _) ran'
  change b = part at buffer
  change b' = whole at buffer'
  change q = part.length at ended
  change q' = whole.length at ended'
  subst buffer buffer' ended ended'
  exact reader.part_eq isPart ran' ran

/-- The known sections of an accepted image fill their lengths. -/
theorem filled_of_accepted
    (known : tag = DBG0 ∨ tag = GCS0)
    (small : content.length < 2 ^ 32)
    (head : SectionHead (front ++ sectionBytes tag content ++ rest)
      front.length)
    (accepted : parse (front ++ sectionBytes tag content ++ rest) =
      .ok image) : ∃ lines, filled tag content = .ok lines := by
  obtain ⟨more, q, step, -⟩ := (head.ends accepted).step head.le_length
  rw [sectionStep_here front content rest known small] at step
  cases done : filled tag content with
  | error e =>
      rw [done] at step
      cases step
  | ok lines => exact ⟨lines, rfl⟩

/-- An accepted image is refused cut short and with bytes after it, and with a
known section that has a byte more or less inside its length. -/
theorem image_prefix_free
    (accepted : parse b = .ok image) :
    (∀ part, part <+: b → part ≠ b → ∃ e, parse part = .error e) ∧
    (∀ longer, b <+: longer → longer ≠ b → ∃ e, parse longer = .error e) ∧
    ∀ front tag content rest, b = front ++ sectionBytes tag content ++ rest →
      SectionHead b front.length → tag = DBG0 ∨ tag = GCS0 →
      content.length < 2 ^ 32 →
      ∀ content' rest', content'.length < 2 ^ 32 →
        content' <+: content ∨ content <+: content' → content' ≠ content →
        ∃ e, parse (front ++ sectionBytes tag content' ++ rest') =
          .error e := by
  have refused : ∀ bytes, (∀ image', parse bytes ≠ .ok image') →
      ∃ e, parse bytes = .error e := by
    intro bytes never
    cases ran : parse bytes with
    | error e => exact ⟨e, rfl⟩
    | ok image' => exact absurd ran (never image')
  refine ⟨?_, ?_, ?_⟩
  · intro part isPart differs
    apply refused
    intro image' partAccepted
    exact differs (eq_of_accepted isPart partAccepted accepted)
  · intro longer isPart differs
    apply refused
    intro image' longerAccepted
    exact differs (eq_of_accepted isPart accepted longerAccepted).symm
  · rintro front tag content rest rfl head known small content' rest' small'
      related differs
    apply refused
    intro image' accepted'
    obtain ⟨lines, whole⟩ := filled_of_accepted known small head accepted
    have start : ∀ middle : List UInt8,
        (front ++ middle ++ rest').take front.length = front := by
      intro middle
      rw [List.append_assoc, List.take_left' rfl]
    have head' : SectionHead (front ++ sectionBytes tag content' ++ rest')
        front.length := by
      apply head.same
      rw [start, List.append_assoc, List.take_left' rfl]
    obtain ⟨lines', part⟩ := filled_of_accepted known small' head' accepted'
    rcases related with shorter | longer
    · exact differs (eq_of_filled known shorter part whole)
    · exact differs (eq_of_filled known longer whole part).symm

/-- The bytes of an image with no records and one section of line numbers. -/
def bareImage : List UInt8 :=
  mark ++ [0, 1] ++ be32 0 ++ be32 8 ++ rite0400 ++ [64, 64, 1, 64] ++
    be32 0 ++ be32 0 ++ be32 0 ++ be32 0 ++ be32 0 ++ be32 0 ++ [0, 0, 0] ++
    be32 0 ++ [0] ++ be32 0 ++ be32 0 ++ be32 0 ++ be32 0 ++
    sectionBytes DBG0 (be32 0) ++ END0

def bareRecords : Image :=
  { version := 1, writer := "", syms := [], ireps := [], objs := []
    patches := [], ctxs := [], current := 0
    sched :=
      { switchPending := false, loopRunning := false, unit := 0, tick := 0
        wakeup := none, tasks := [], running := 0, host := 0 }
    lines := [] }

theorem image_prefix_free_at :
    (∀ part, part <+: bareImage → part ≠ bareImage →
      ∃ e, parse part = .error e) ∧
    (∀ longer, bareImage <+: longer → longer ≠ bareImage →
      ∃ e, parse longer = .error e) ∧
    ∀ front tag content rest,
      bareImage = front ++ sectionBytes tag content ++ rest →
      SectionHead bareImage front.length → tag = DBG0 ∨ tag = GCS0 →
      content.length < 2 ^ 32 →
      ∀ content' rest', content'.length < 2 ^ 32 →
        content' <+: content ∨ content <+: content' → content' ≠ content →
        ∃ e, parse (front ++ sectionBytes tag content' ++ rest') =
          .error e :=
  image_prefix_free (show parse bareImage = .ok bareRecords by
    decide +kernel)

end SabiRuby.Checkpoint
