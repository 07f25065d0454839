import SabiRuby.Binaries.Annotations

/-!
# The reader of a binary

The loop over the sections runs in step with one that does not read the
annotations.  Every answer is a forest of records.
-/

namespace SabiRuby.Binaries

/-- The records of a run and the root it has found. -/
def Sound (root : Option Nat) (ireps : List Irep) : Prop :=
  ∃ roots, Forest 0 roots (ireps.map Irep.reps) ∧ ∀ r, root = some r → r ∈ roots

theorem Sound.linked
    (sound : Sound root ireps) :
    Linked ireps := by
  obtain ⟨roots, forest, _⟩ := sound
  intro i irep here r mem
  have bounds := forest.child_gt i irep.reps
    (by rw [List.getElem?_map, here]; rfl) r mem
  rwa [List.length_map, Nat.zero_add, Nat.zero_add] at bounds

theorem Sound.root_lt
    (sound : Sound (some r) ireps) :
    r < ireps.length := by
  obtain ⟨roots, forest, found⟩ := sound
  have bounds := forest.root_lt r (found r rfl)
  rw [List.length_map, Nat.zero_add] at bounds
  exact bounds.2

theorem map_bare_reps {ireps ireps' : List Irep}
    (bare : ireps.map Irep.bare = ireps'.map Irep.bare) :
    ireps.map Irep.reps = ireps'.map Irep.reps := by
  have reps : ∀ ireps : List Irep,
      ireps.map Irep.reps = (ireps.map Irep.bare).map Irep.reps := by
    intro ireps
    rw [List.map_map]
    rfl
  rw [reps, bare, ← reps]

theorem Sound.of_bare
    (sound : Sound root ireps)
    (bare : ireps.map Irep.bare = ireps'.map Irep.bare) :
    Sound root ireps' := by
  obtain ⟨roots, forest, found⟩ := sound
  exact ⟨roots, map_bare_reps bare ▸ forest, found⟩

/-! ## Two runs in step -/

/-- Two runs at one place, with records that agree but for annotations. -/
structure Agree (s t : Reading) : Prop where
  place : s.p = t.p
  bare : s.ireps.map Irep.bare = t.ireps.map Irep.bare

/-- A reader of records that stays in step with another one. -/
def InStep
    {α : Type}
    (P : List UInt8 → Reading → Prop)
    (m m' : Reader α)
    (post : α → List UInt8 → Reading → Prop) : Prop :=
  ∀ b s t, Agree s t → P b s → ∃ r s' t' more,
    m b s = (r, s') ∧ m' b t = (r, t') ∧ Agree s' t' ∧
      s'.reserved = s.reserved ++ more ∧ (∀ x ∈ more, Allowed x) ∧
      Fine r fun a => post a b s'

namespace InStep

variable {α : Type} {P : List UInt8 → Reading → Prop}

variable {Q : α → List UInt8 → Reading → Prop}

theorem bind
    (first : InStep P m m' Q)
    (second : ∀ a, InStep (Q a) (next a) (next' a) R) :
    InStep P (m >>= next) (m' >>= next') R := by
  intro b s t agree holds
  obtain ⟨r, s', t', more, run, run', agree', reserved, allowed, fine⟩ :=
    first b s t agree holds
  cases r with
  | error why =>
      exact ⟨.error why, s', t', more, Reader.bind_error run next,
        Reader.bind_error run' next', agree', reserved, allowed, fine.error⟩
  | ok a =>
      obtain ⟨r', s'', t'', more', next_, next'_, agree'', reserved', allowed',
        fine'⟩ := second a b s' t' agree' fine
      refine ⟨r', s'', t'', more ++ more', (Reader.bind_ok run next).trans next_,
        (Reader.bind_ok run' next').trans next'_, agree'', ?_,
        allowed_append allowed allowed', fine'⟩
      rw [reserved', reserved, List.append_assoc]

/-- A quiet reader goes forward in both runs. -/
theorem quiet
    (quiet : Quiet k m post)
    (after : ∀ (b : List UInt8) s a p' reserved, P b s → post a → s.p + k ≤ p' →
      p' ≤ max s.p b.length → Q a b ⟨p', s.ireps, reserved⟩) :
    InStep P m m Q := by
  intro b s t agree holds
  obtain ⟨r, p', more, run, low, high, allowed, fine⟩ := quiet b s.p
  refine ⟨r, ⟨p', s.ireps, s.reserved ++ more⟩,
    ⟨p', t.ireps, t.reserved ++ more⟩, more, run _ _, ?_, ⟨rfl, agree.bare⟩,
    rfl, allowed, ?_⟩
  · have other := run t.ireps t.reserved
    rwa [agree.place] at other
  · exact fine.mono fun a both =>
      after b s a p' _ holds both.1 both.2 high

theorem ite
    {c : Prop}
    [Decidable c]
    (first : c → InStep P m m' Q)
    (second : ¬ c → InStep P n n' Q) :
    InStep P (if c then m else n) (if c then m' else n') Q := by
  split
  · rename_i yes
    exact first yes
  · rename_i no
    exact second no

theorem fails
    (why : RiteError) :
    InStep P (fails why) (fails why) Q :=
  fun _ s t agree _ => ⟨.error (.rite why), s, t, [], rfl, rfl, agree,
    (List.append_nil _).symm, List.forall_mem_nil _, trivial⟩

theorem pure
    (holds : ∀ b s, P b s → Q a b s) :
    InStep P (pure a : Reader α) (pure a) Q :=
  fun b s t agree before => ⟨.ok a, s, t, [], rfl, rfl, agree,
    (List.append_nil _).symm, List.forall_mem_nil _, holds b s before⟩

/-- A question about the place or the input. -/
theorem asks
    (answer : List UInt8 → Nat → α)
    (run : ∀ b s, m b s = (.ok (answer b s.p), s)) :
    InStep P m m fun a b s => P b s ∧ a = answer b s.p :=
  fun b s t agree before => ⟨.ok (answer b s.p), s, t, [], run b s,
    by rw [run, agree.place], agree, (List.append_nil _).symm,
    List.forall_mem_nil _, before, rfl⟩

end InStep

/-! ## Sections -/

/-- Reading annotations stays in step with not reading them. -/
theorem annotate_inStep
    {read : Nat → Reader Unit}
    (edits : ∀ X r, Linked X → r < X.length →
      Edits X (read r) fun _ => True)
    (end_ : Nat)
    (root : Option Nat) :
    InStep (fun _ s => Sound root s.ireps)
      (annotate read end_ root)
      (annotate (fun _ => pure ()) end_ root)
      fun next _ s => Sound next.1 s.ireps ∧ next.2 = true := by
  cases root with
  | none => exact InStep.pure fun _ _ sound => ⟨sound, rfl⟩
  | some r =>
      intro b s t agree sound
      have bareSound : Sound (some r) (s.ireps.map Irep.bare) := by
        apply sound.of_bare
        rw [List.map_map]
        rfl
      have inside := bareSound.root_lt
      obtain ⟨answer, s', more, run, kept, reserved, allowed, fine⟩ :=
        edits _ r bareSound.linked inside (b.take end_) s rfl
      have done : bestEffort (within end_ (read r)) b s =
          (.ok (), { s' with p := s.p }) := by
        have ran : within end_ (read r) b s = (answer, { s' with p := s.p }) := by
          rw [within, run]
        rw [bestEffort, ran]
        cases answer with
        | ok a => rfl
        | error why =>
            cases why with
            | rite why => rfl
            | panics => exact fine.elim
            | endless => exact fine.elim
      exact ⟨.ok (some r, true), { s' with p := s.p }, t, more,
        Reader.bind_ok done _, rfl, ⟨agree.place, kept.trans agree.bare⟩,
        reserved, allowed, sound.of_bare kept.symm, rfl⟩

/-- A record in both runs. -/
theorem readRecord_inStep (end_ : Nat) (root : Option Nat) :
    InStep (fun _ s => Sound root s.ireps)
      (within end_ (readRecord (end_ + 1)))
      (within end_ (readRecord (end_ + 1)))
      fun r _ s => Sound (some r) s.ireps := by
  intro b s t agree sound
  obtain ⟨roots, forest, _⟩ := sound
  have lengths : t.ireps.length = s.ireps.length := by
    have same := congrArg List.length agree.bare
    rw [List.length_map, List.length_map] at same
    exact same.symm
  obtain ⟨r, p', T, more, run, _, _, allowed, fine⟩ :=
    readRecord_grows (end_ + 1) (b.take end_) s.p s.ireps.length
      (Nat.le_add_left 1 end_) (by
        rw [List.length_take]
        omega)
  have first := run s.ireps s.reserved rfl
  have second := run t.ireps t.reserved lengths
  rw [agree.place] at second
  refine ⟨r, ⟨s.p, s.ireps ++ T, s.reserved ++ more⟩,
    ⟨t.p, t.ireps ++ T, t.reserved ++ more⟩, more, ?_, ?_,
    ⟨agree.place, ?_⟩, rfl, allowed, ?_⟩
  · rw [within, first]
  · rw [within, second]
  · rw [List.map_append, agree.bare, ← List.map_append]
  · apply fine.mono
    intro i tree
    refine ⟨roots ++ [i], ?_, ?_⟩
    · rw [List.map_append]
      apply forest.append
      rwa [List.length_map, Nat.zero_add]
    · rintro _ ⟨⟩
      exact List.mem_append_right _ List.mem_cons_self

section Loop

variable {debug lvar : Nat → Reader Unit}

/-- Nothing is read of the annotations. -/
def ignored : Nat → Reader Unit := fun _ => pure ()

variable {P : List UInt8 → Reading → Prop}

theorem InStep.about
    {post : α → List UInt8 → Reading → Prop}
    (steps : InStep P m m' post)
    (F : List UInt8 → Prop) :
    InStep (fun b s => F b ∧ P b s) m m' fun a b s => F b ∧ post a b s := by
  intro b s t agree holds
  obtain ⟨r, s', t', more, run, run', agree', reserved, allowed, fine⟩ :=
    steps b s t agree holds.2
  exact ⟨r, s', t', more, run, run', agree', reserved, allowed,
    fine.mono fun a post => ⟨holds.1, post⟩⟩

theorem InStep.weaken
    {post post' : α → List UInt8 → Reading → Prop}
    (steps : InStep P m m' post)
    (weaker : ∀ a b s, post a b s → post' a b s) :
    InStep P m m' post' := by
  intro b s t agree holds
  obtain ⟨r, s', t', more, run, run', agree', reserved, allowed, fine⟩ :=
    steps b s t agree holds
  exact ⟨r, s', t', more, run, run', agree', reserved, allowed,
    fine.mono fun a post => weaker a b s' post⟩

theorem readSection_inStep
    (debugs : ∀ X r, Linked X → r < X.length →
      Edits X (debug r) fun _ => True)
    (lvars : ∀ X r, Linked X → r < X.length → Edits X (lvar r) fun _ => True)
    (ident : List UInt8)
    (end_ : Nat)
    (root : Option Nat) :
    InStep (fun _ s => Sound root s.ireps)
      (readSection debug lvar ident end_ root)
      (readSection ignored ignored ident end_ root)
      fun next _ s => Sound next.1 s.ireps := by
  apply InStep.ite
  · intro _
    apply InStep.bind (Q := fun _ _ s => Sound root s.ireps)
    · exact InStep.quiet (Quiet.bytes 4) fun _ _ _ _ _ sound _ _ _ => sound
    intro _
    apply (readRecord_inStep end_ root).bind
    intro r
    exact InStep.pure fun _ _ sound => sound
  intro _
  apply InStep.ite
  · intro _
    exact (annotate_inStep debugs end_ root).weaken fun _ _ _ both => both.1
  intro _
  apply InStep.ite
  · intro _
    exact (annotate_inStep lvars end_ root).weaken fun _ _ _ both => both.1
  intro _
  apply InStep.ite
  · intro _
    exact InStep.pure fun _ _ sound => sound
  · intro _
    exact InStep.fails _

/-- A section ends behind its header and inside the input. -/
theorem sectionHeader_inStep
    (K : List UInt8 → List Irep → Prop)
    (start : Nat) :
    InStep (fun b s => K b s.ireps ∧ start ≤ s.p) sectionHeader sectionHeader
      fun header b s =>
        K b s.ireps ∧ start + 8 ≤ header.2 ∧ header.2 ≤ b.length := by
  apply InStep.bind (Q := fun _ b s => K b s.ireps ∧ start + 4 ≤ s.p)
  · apply InStep.quiet (Quiet.bytes 4)
    intro b s _ p' _ holds _ far _
    exact ⟨holds.1, Nat.le_trans (Nat.add_le_add_right holds.2 4) far⟩
  intro ident
  apply InStep.bind (Q := fun _ b s => K b s.ireps ∧ start + 8 ≤ s.p)
  · apply InStep.quiet Quiet.u32
    intro b s _ p' _ holds _ far _
    exact ⟨holds.1, Nat.le_trans (Nat.add_le_add_right holds.2 4) far⟩
  intro size
  apply InStep.ite
  · exact fun _ => InStep.fails _
  intro large
  apply InStep.bind (InStep.asks (fun _ p => p) fun _ _ => rfl)
  intro p
  apply InStep.bind (InStep.asks (fun b _ => b.length) fun _ _ => rfl)
  intro len
  apply InStep.ite
  · exact fun _ => InStep.fails _
  intro fits
  apply InStep.pure
  rintro b s ⟨⟨⟨holds, far⟩, rfl⟩, rfl⟩
  exact ⟨holds, by omega, by omega⟩

/-- The loops over the sections stay in step. -/
theorem readSections_inStep
    (debugs : ∀ X r, Linked X → r < X.length →
      Edits X (debug r) fun _ => True)
    (lvars : ∀ X r, Linked X → r < X.length → Edits X (lvar r) fun _ => True)
    (total fuel : Nat)
    (root : Option Nat) :
    InStep
      (fun b s => Sound root s.ireps ∧ 1 ≤ fuel ∧ b.length + 1 ≤ s.p + fuel)
      (readSections debug lvar total fuel root)
      (readSections ignored ignored total fuel root)
      fun root _ s => Sound root s.ireps := by
  induction fuel generalizing root with
  | zero =>
      intro b s t _ holds
      exact absurd holds.2.1 (Nat.not_succ_le_zero 0)
  | succ fuel ih =>
      apply InStep.bind (InStep.asks (fun _ p => p) fun _ _ => rfl)
      intro p
      apply InStep.ite
      · intro _
        apply InStep.bind (Q := fun header b s =>
          (b.length ≤ p + fuel ∧ p + 8 ≤ header.2 ∧ header.2 ≤ b.length) ∧
            Sound root s.ireps)
        · have header := sectionHeader_inStep
            (fun b ireps => b.length ≤ p + fuel ∧ Sound root ireps) p
          intro b s t agree holds
          obtain ⟨⟨sound, _, enough⟩, rfl⟩ := holds
          obtain ⟨r, s', t', more, run, run', agree', reserved, allowed, fine⟩ :=
            header b s t agree ⟨⟨by omega, sound⟩, Nat.le_refl _⟩
          exact ⟨r, s', t', more, run, run', agree', reserved, allowed,
            fine.mono fun a post => ⟨⟨post.1.1, post.2⟩, post.1.2⟩⟩
        intro header
        apply InStep.bind ((readSection_inStep debugs lvars header.1 header.2
          root).about fun b =>
            b.length ≤ p + fuel ∧ p + 8 ≤ header.2 ∧ header.2 ≤ b.length)
        intro next
        apply InStep.ite
        · intro _
          apply InStep.bind (Q := fun _ b s => Sound next.1 s.ireps ∧ 1 ≤ fuel ∧
            b.length + 1 ≤ s.p + fuel)
          · intro b s t agree holds
            obtain ⟨⟨enough, after, inside⟩, sound⟩ := holds
            exact ⟨.ok (), { s with p := header.2 }, { t with p := header.2 },
              [], rfl, rfl, ⟨rfl, agree.bare⟩, (List.append_nil _).symm,
              List.forall_mem_nil _, sound, by omega, by
                change b.length + 1 ≤ header.2 + fuel
                omega⟩
          · exact fun _ => ih next.1
        · intro _
          exact InStep.pure fun _ _ holds => holds.2
      · intro _
        exact InStep.pure fun _ _ holds => holds.1.1

theorem parseSections_inStep
    (debugs : ∀ X r, Linked X → r < X.length →
      Edits X (debug r) fun _ => True)
    (lvars : ∀ X r, Linked X → r < X.length → Edits X (lvar r) fun _ => True) :
    InStep (fun _ s => s.ireps = []) (parseSections debug lvar)
      (parseSections ignored ignored)
      fun found _ s => Sound found.2.2 s.ireps := by
  have keep : ∀ {α : Type} {k : Nat} {m : Reader α} {post : α → Prop},
      Quiet k m post → InStep (fun _ s => s.ireps = []) m m
        fun _ _ s => s.ireps = [] :=
    fun quiet => InStep.quiet quiet fun _ _ _ _ _ empty _ _ _ => empty
  apply (keep (Quiet.bytes 4)).bind
  intro magic
  apply InStep.ite
  · exact fun _ => InStep.fails _
  intro _
  apply (keep (Quiet.bytes 4)).bind
  intro ver
  apply InStep.ite
  · exact fun _ => InStep.fails _
  intro _
  apply (keep Quiet.u32).bind
  intro total
  apply InStep.bind (InStep.asks (fun b _ => b.length) fun _ _ => rfl)
  intro len
  apply InStep.ite
  · exact fun _ => InStep.fails _
  intro _
  apply InStep.bind (Q := fun _ b s => s.ireps = [] ∧ len = b.length)
  · exact InStep.quiet (Quiet.bytes 4) fun _ _ _ _ _ holds _ _ _ => holds
  intro compilerName
  apply InStep.bind (Q := fun _ b s => Sound none s.ireps ∧ 1 ≤ len + 1 ∧
    b.length + 1 ≤ s.p + (len + 1))
  · apply InStep.quiet (Quiet.bytes 4)
    rintro b s _ p' _ ⟨empty, rfl⟩ _ _ _
    refine ⟨⟨[], ?_, fun _ none_ => nomatch none_⟩, by omega, by omega⟩
    change Forest 0 [] (s.ireps.map Irep.reps)
    rw [empty]
    exact Forest.nil 0
  intro compilerVersion
  apply (readSections_inStep debugs lvars total (len + 1) none).bind
  intro root
  exact InStep.pure fun _ _ sound => sound

end Loop

/-! ## `parse` -/

/-- A binary without its annotations. -/
def Rite.bare (rite : Rite) : Rite :=
  { rite with ireps := rite.ireps.map Irep.bare }

/-- A binary of one record, with an entry of the file `a` in its debug section. -/
def debugged : List UInt8 :=
  [82, 73, 84, 69, 48, 52, 48, 48, 0, 0, 0, 90, 77, 65, 84, 90, 48, 48, 48, 48,
    73, 82, 69, 80, 0, 0, 0, 32, 48, 52, 48, 48, 0, 0, 0, 20, 0, 1, 0, 1, 0, 0,
    0, 0, 0, 0, 0, 0, 0, 0, 0, 0, 68, 66, 71, 0, 0, 0, 0, 30, 0, 1, 0, 1, 97,
    0, 0, 0, 0, 0, 1, 0, 0, 0, 0, 0, 0, 0, 0, 0, 0, 0, 69, 78, 68, 0, 0, 0, 0, 8]

/-- A file name is kept besides the lines. -/
theorem parse_keeps_filename :
    ¬ ∀ bin rite rite',
      (parse bin).1 = .ok rite → (parseBare bin).1 = .ok rite' →
        rite.ireps.map (fun irep => { irep with lv := [], lines := [] }) =
          rite'.ireps.map fun irep => { irep with lv := [], lines := [] } := by
  intro agrees
  have named : (parse debugged).1.toOption.map (·.ireps.map Irep.filename) =
      some [some [97]] := by decide +kernel
  have unnamed :
      (parseBare debugged).1.toOption.map (·.ireps.map Irep.filename) =
        some [none] := by decide +kernel
  cases read : (parse debugged).1 with
  | error why =>
      rw [read] at named
      cases named
  | ok rite =>
      cases readBare : (parseBare debugged).1 with
      | error why =>
          rw [readBare] at unnamed
          cases unnamed
      | ok rite' =>
          have same := congrArg (List.map Irep.filename)
            (agrees debugged rite rite' read readBare)
          rw [List.map_map, List.map_map] at same
          rw [read] at named
          rw [readBare] at unnamed
          have name : rite.ireps.map Irep.filename = [some [97]] :=
            Option.some.inj named
          have none_ : rite'.ireps.map Irep.filename = [none] :=
            Option.some.inj unnamed
          have both : rite.ireps.map Irep.filename =
              rite'.ireps.map Irep.filename := same
          rw [name, none_] at both
          exact absurd both (by decide)

/-- Reading a binary ends in an answer or an error, its records are a forest,
and the annotations change nothing else. -/
theorem parse_total_bounded (bin : List UInt8) :
    Fine (parse bin).1 (fun _ => True) ∧
      (∀ x ∈ (parse bin).2.reserved, x.site ≠ .localNames → x.count ≤ 65535) ∧
      (∀ rite, (parse bin).1 = .ok rite →
        rite.root < rite.ireps.length ∧
        (∀ i irep, rite.ireps[i]? = some irep →
          ∀ r ∈ irep.reps, i < r ∧ r < rite.ireps.length) ∧
        (rite.ireps.flatMap Irep.reps).Nodup) ∧
      (parse bin).1.map Rite.bare = (parseBare bin).1.map Rite.bare := by
  have start : Agree ⟨0, [], []⟩ ⟨0, [], []⟩ := ⟨rfl, rfl⟩
  obtain ⟨r, s, t, more, run, run', agree, reserved, allowed, fine⟩ :=
    parseSections_inStep (fun _ _ => readDebug_edits)
      (fun _ _ => readLvar_edits) bin _ _ start rfl
  rw [List.nil_append] at reserved
  cases r with
  | error why =>
      have parsed : parse bin = (.error why, s) := Reader.bind_error run _
      have bare : parseBare bin = (.error why, t) := Reader.bind_error run' _
      rw [parsed, bare]
      refine ⟨fine.error, reserved ▸ allowed, ?_, rfl⟩
      rintro _ ⟨⟩
  | ok found =>
      have parsed : parse bin = finish found.1 found.2.1 found.2.2 bin s :=
        Reader.bind_ok run _
      have bare : parseBare bin = finish found.1 found.2.1 found.2.2 bin t :=
        Reader.bind_ok run' _
      obtain ⟨compilerName, compilerVersion, root⟩ := found
      cases root with
      | none =>
          rw [parsed, bare]
          refine ⟨trivial, reserved ▸ allowed, ?_, rfl⟩
          rintro _ ⟨⟩
      | some root =>
          rw [parsed, bare]
          refine ⟨trivial, reserved ▸ allowed, ?_, ?_⟩
          · rintro _ ⟨⟩
            refine ⟨fine.root_lt, fine.linked, ?_⟩
            obtain ⟨roots, forest, _⟩ := fine
            have nodup := forest.perm.nodup_iff.mpr List.nodup_range'
            rw [List.nodup_append] at nodup
            exact nodup.2.1
          · exact congrArg Except.ok
              (congrArg (Rite.mk compilerName compilerVersion · root) agree.bare)

end SabiRuby.Binaries
