import SabiRuby.Binaries.Forests

/-!
# Annotations

The sections of the line numbers and of the local variable names walk the
records from a root on.  They change the annotations of the records and nothing
else, also when they end early.
-/

namespace SabiRuby.Binaries

/-- A record without its annotations. -/
def Irep.bare (irep : Irep) : Irep :=
  { irep with lv := [], lines := [], filename := none }

/-- The children of a record are records behind it. -/
def Linked (ireps : List Irep) : Prop :=
  ∀ i irep, ireps[i]? = some irep → ∀ r ∈ irep.reps, i < r ∧ r < ireps.length

/-- A reader that keeps bare records as they are. -/
def Edits {α : Type} (X : List Irep) (m : Reader α) (post : α → Prop) : Prop :=
  ∀ b s, s.ireps.map Irep.bare = X → ∃ r s' more,
    m b s = (r, s') ∧ s'.ireps.map Irep.bare = X ∧
      s'.reserved = s.reserved ++ more ∧ (∀ x ∈ more, Allowed x) ∧ Fine r post

namespace Edits

variable {X : List Irep}

theorem bind
    (first : Edits X m P)
    (second : ∀ a, P a → Edits X (next a) Q) :
    Edits X (m >>= next) Q := by
  intro b s bare
  obtain ⟨r, s', more, run, kept, reserved, allowed, fine⟩ := first b s bare
  cases r with
  | error why =>
      exact ⟨.error why, s', more, Reader.bind_error run next, kept, reserved,
        allowed, fine.error⟩
  | ok a =>
      obtain ⟨r', s'', more', run', kept', reserved', allowed', fine'⟩ :=
        second a fine b s' kept
      refine ⟨r', s'', more ++ more', (Reader.bind_ok run next).trans run',
        kept', ?_, allowed_append allowed allowed', fine'⟩
      rw [reserved', reserved, List.append_assoc]

theorem quiet
    (quiet : Quiet k m P) :
    Edits X m P := by
  intro b s bare
  obtain ⟨r, p', more, run, _, _, allowed, fine⟩ := quiet b s.p
  exact ⟨r, ⟨p', s.ireps, s.reserved ++ more⟩, more, run s.ireps s.reserved,
    bare, rfl, allowed, fine.mono fun a both => both.1⟩

theorem forEach
    {read : Nat → Reader Unit}
    (each : ∀ r ∈ rs, Edits X (read r) fun _ => True) :
    Edits X (forEach read rs) fun _ => True := by
  induction rs with
  | nil => exact quiet (Quiet.pure trivial)
  | cons r rs ih =>
      rw [List.forall_mem_cons] at each
      exact each.1.bind fun _ _ => ih each.2

theorem bare_getElem?
    {s : Reading}
    (bare : s.ireps.map Irep.bare = X)
    (inside : i < X.length) :
    ∃ irep, s.ireps[i]? = some irep ∧ X[i]? = some irep.bare := by
  have length : i < s.ireps.length := by
    rw [← bare, List.length_map] at inside
    exact inside
  refine ⟨s.ireps[i], List.getElem?_eq_getElem length, ?_⟩
  rw [← bare, List.getElem?_map, List.getElem?_eq_getElem length]
  rfl

/-- The record that is read has the children of the bare one. -/
theorem irepAt {i : Nat} (inside : i < X.length) :
    Edits X (irepAt i) fun irep => X[i]? = some irep.bare := by
  intro b s bare
  obtain ⟨irep, here, same⟩ := bare_getElem? bare inside
  refine ⟨.ok irep, s, [], ?_, bare, (List.append_nil _).symm,
    List.forall_mem_nil _, same⟩
  rw [Binaries.irepAt, here]

theorem editIrep
    {i : Nat}
    (inside : i < X.length)
    (annotates : ∀ irep, (edit irep).bare = irep.bare) :
    Edits X (editIrep i edit) fun _ => True := by
  intro b s bare
  obtain ⟨irep, here, same⟩ := bare_getElem? bare inside
  refine ⟨.ok (), { s with ireps := s.ireps.set i (edit irep) }, [], ?_, ?_,
    (List.append_nil _).symm, List.forall_mem_nil _, trivial⟩
  · rw [Binaries.editIrep, here]
  · change (s.ireps.set i (edit irep)).map Irep.bare = X
    rw [List.map_set, annotates, bare]
    obtain ⟨_, element⟩ := List.getElem?_eq_some_iff.mp same
    rw [← element, List.set_getElem_self]

theorem irepCount : Edits X irepCount fun n => n = X.length := by
  intro b s bare
  refine ⟨.ok s.ireps.length, s, [], rfl, bare, (List.append_nil _).symm,
    List.forall_mem_nil _, ?_⟩
  rw [← bare, List.length_map]
  rfl

end Edits

/-! ## The two sections -/

section Annotations

variable {X : List Irep} {i fuel : Nat}

theorem readName_quiet : Quiet 0 readName fun _ => True :=
  Quiet.u16.weaken.bind fun n _ => (Quiet.bytes n).weaken.mono fun _ _ => trivial

theorem lineArray_quiet (entries pc : Nat) (lines : List (Nat × Nat)) :
    Quiet 0 (lineArray entries pc lines) fun _ => True := by
  induction entries generalizing pc lines with
  | zero => exact Quiet.pure trivial
  | succ entries ih => exact Quiet.u16.weaken.bind fun line _ => ih _ _

theorem linePair_quiet : Quiet 0 linePair fun _ => True := by
  apply Quiet.u32.weaken.bind
  intro start _
  exact Quiet.u16.weaken.bind fun _ _ => Quiet.pure trivial

theorem readLines_quiet (lineType : UInt8) (entries : Nat) :
    Quiet 0 (readLines lineType entries) fun _ => True := by
  apply Quiet.ite
  · exact lineArray_quiet entries 0 []
  apply Quiet.ite
  · exact linePair_quiet.times entries
  apply Quiet.ite
  · exact (Quiet.bytes entries).weaken.bind fun _ _ => Quiet.pure trivial
  · exact Quiet.fails _

theorem debugFile_edits
    (filenames : List (List UInt8))
    (inside : i < X.length)
    (f : Nat) :
    Edits X (debugFile filenames i f) fun _ => True := by
  apply (Edits.quiet Quiet.u32).bind
  intro _ _
  apply (Edits.quiet Quiet.u16).bind
  intro filenameIdx _
  apply (Edits.quiet Quiet.u32).bind
  intro entries _
  apply (Edits.quiet Quiet.u8).bind
  intro lineType _
  apply (Edits.quiet (readLines_quiet lineType entries)).bind
  intro lines _
  split
  · exact Edits.editIrep inside fun _ => rfl
  · exact Edits.quiet (Quiet.pure trivial)

/-- The children of a linked record are nearer to the end. -/
theorem Linked.children
    (linked : Linked X)
    (enough : X.length ≤ i + (fuel + 1))
    {irep : Irep}
    (here : X[i]? = some irep.bare) :
    ∀ r ∈ irep.reps, r < X.length ∧ X.length ≤ r + fuel := by
  intro r mem
  have bounds := linked i irep.bare here r mem
  omega

theorem debugRecord_edits
    (filenames : List (List UInt8))
    (linked : Linked X)
    (inside : i < X.length)
    (enough : X.length ≤ i + fuel) :
    Edits X (debugRecord filenames fuel i) fun _ => True := by
  induction fuel generalizing i with
  | zero => omega
  | succ fuel ih =>
      apply (Edits.quiet Quiet.u32).bind
      intro _ _
      apply (Edits.quiet Quiet.u16).bind
      intro files _
      apply (Edits.forEach fun f _ => debugFile_edits filenames inside f).bind
      intro _ _
      apply (Edits.irepAt inside).bind
      intro irep here
      apply Edits.forEach
      intro r mem
      have later := linked.children enough here r mem
      exact ih later.1 later.2

theorem readDebug_edits (linked : Linked X) (inside : i < X.length) :
    Edits X (readDebug i) fun _ => True := by
  apply (Edits.quiet Quiet.u16).bind
  intro flen small
  apply (Edits.quiet (Quiet.reserve (allowed_of_le small))).bind
  intro _ _
  apply (Edits.quiet (readName_quiet.times flen)).bind
  intro filenames _
  apply Edits.irepCount.bind
  rintro _ rfl
  exact debugRecord_edits filenames linked inside (Nat.le_add_left _ _)

theorem readLocal_quiet (names : List (List UInt8)) :
    Quiet 0 (readLocal names) fun _ => True :=
  Quiet.u16.weaken.bind fun _ _ => Quiet.pure trivial

theorem lvarRecord_edits
    (names : List (List UInt8))
    (linked : Linked X)
    (inside : i < X.length)
    (enough : X.length ≤ i + fuel) :
    Edits X (lvarRecord names fuel i) fun _ => True := by
  induction fuel generalizing i with
  | zero => omega
  | succ fuel ih =>
      apply (Edits.irepAt inside).bind
      intro irep here
      apply (Edits.quiet ((readLocal_quiet names).times _)).bind
      intro lv _
      refine Edits.bind (Edits.editIrep inside ?_) fun _ _ => ?_
      · exact fun _ => rfl
      apply Edits.forEach
      intro r mem
      have later := linked.children enough here r mem
      exact ih later.1 later.2

theorem readLvar_edits (linked : Linked X) (inside : i < X.length) :
    Edits X (readLvar i) fun _ => True := by
  apply (Edits.quiet Quiet.u32).bind
  intro slen _
  apply (Edits.quiet (Quiet.reserve fun other => absurd rfl other)).bind
  intro _ _
  apply (Edits.quiet (readName_quiet.times slen)).bind
  intro names _
  apply Edits.irepCount.bind
  rintro _ rfl
  exact lvarRecord_edits names linked inside (Nat.le_add_left _ _)

end Annotations

end SabiRuby.Binaries
