import Mathlib.Data.List.Perm.Basic
import Mathlib.Data.List.Range
import SabiRuby.Binaries.Records

/-!
# The records of a binary are forests

A record is pushed before its children, so each subtree is a block of records
and its root is the first of the block.
-/

namespace SabiRuby.Binaries

/-! ## Forests -/

/-- The children of a block of nodes whose first one has the number `base`, and
the roots of its trees. -/
inductive Forest : Nat → List Nat → List (List Nat) → Prop
  | nil (base : Nat) : Forest base [] []
  | cons
      {base : Nat}
      {children rs : List Nat}
      {inner rest : List (List Nat)}
      (below : Forest (base + 1) children inner)
      (behind : Forest (base + 1 + inner.length) rs rest) :
      Forest base (base :: rs) (children :: (inner ++ rest))

namespace Forest

variable {base : Nat} {rs rs' : List Nat} {T T' : List (List Nat)}

theorem append
    (forest : Forest base rs T)
    (more : Forest (base + T.length) rs' T') :
    Forest base (rs ++ rs') (T ++ T') := by
  induction forest with
  | nil base => exact more
  | @cons base children rs inner rest below behind _ ih =>
      rw [List.cons_append, List.cons_append, List.append_assoc]
      apply cons below
      apply ih
      rw [List.length_cons, List.length_append] at more
      rwa [show base + 1 + inner.length + rest.length =
        base + (inner.length + rest.length + 1) by omega]

theorem tree (below : Forest (base + 1) rs T) : Forest base [base] (rs :: T) := by
  have whole := cons below (nil _)
  rwa [List.append_nil] at whole

/-- Every node is a root or a child, and only once. -/
theorem perm (forest : Forest base rs T) :
    (rs ++ T.flatten).Perm (List.range' base T.length) := by
  induction forest with
  | nil base => exact List.Perm.refl _
  | @cons base children rs inner rest below behind ih ih' =>
      have numbers : List.range' base (children :: (inner ++ rest)).length =
          base :: (List.range' (base + 1) inner.length ++
            List.range' (base + 1 + inner.length) rest.length) := by
        rw [List.length_cons, List.length_append, List.range'_succ,
          List.range'_append_1]
      rw [numbers, List.flatten_cons, List.flatten_append, List.cons_append]
      apply List.Perm.cons
      refine List.Perm.trans ?_ (ih.append ih')
      rw [← List.append_assoc, ← List.append_assoc, ← List.append_assoc]
      apply List.Perm.append_right
      rw [List.append_assoc]
      exact List.perm_append_comm

theorem root_lt (forest : Forest base rs T) :
    ∀ r ∈ rs, base ≤ r ∧ r < base + T.length := by
  intro r mem
  have inside := forest.perm.mem_iff.mp (List.mem_append_left _ mem)
  rw [List.mem_range'_1] at inside
  exact inside

/-- A child comes after its parent. -/
theorem child_gt (forest : Forest base rs T) :
    ∀ i children, T[i]? = some children →
      ∀ r ∈ children, base + i < r ∧ r < base + T.length := by
  induction forest with
  | nil base => exact fun i children here => nomatch here
  | @cons base kids rs inner rest below behind ih ih' =>
      intro i children here r mem
      rw [List.length_cons, List.length_append]
      cases i with
      | zero =>
          rw [List.getElem?_cons_zero, Option.some.injEq] at here
          have bounds := below.root_lt r (here ▸ mem)
          omega
      | succ i =>
          rw [List.getElem?_cons_succ] at here
          by_cases first : i < inner.length
          · rw [List.getElem?_append_left first] at here
            have bounds := ih i children here r mem
            omega
          · rw [List.getElem?_append_right (Nat.le_of_not_lt first)] at here
            have bounds := ih' _ children here r mem
            omega

end Forest

/-! ## Reading a record -/

/-- A reader that only adds records, and how it depends on the earlier ones: on
their number alone. -/
def Grows
    {α : Type}
    (fuel : Nat)
    (m : Reader α)
    (shape : Nat → α → List (List Nat) → Prop) : Prop :=
  ∀ b p n, 1 ≤ fuel → b.length + 1 ≤ p + fuel → ∃ r p' T more,
    (∀ ireps reserved, ireps.length = n →
      m b ⟨p, ireps, reserved⟩ = (r, ⟨p', ireps ++ T, reserved ++ more⟩)) ∧
    p ≤ p' ∧ p' ≤ max p b.length ∧ (∀ x ∈ more, Allowed x) ∧
    Fine r fun a => shape n a (T.map Irep.reps)

theorem allowed_append
    {more more' : List Reservation}
    (first : ∀ x ∈ more, Allowed x)
    (second : ∀ x ∈ more', Allowed x) :
    ∀ x ∈ more ++ more', Allowed x := by
  intro x mem
  rcases List.mem_append.mp mem with before | after
  · exact first x before
  · exact second x after

namespace Grows

variable {α β : Type} {fuel k : Nat}
  {shape : Nat → β → List (List Nat) → Prop}

/-- Behind a quiet reader, which may pay for a deeper level. -/
theorem behind
    {cost : Nat}
    {m : Reader α}
    {next : α → Reader β}
    {P : α → Prop}
    (first : Quiet k m P)
    (paid : cost ≤ k)
    (second : ∀ a, P a → Grows fuel (next a) shape) :
    Grows (fuel + cost) (m >>= next) shape := by
  intro b p n some_ enough
  obtain ⟨r, p', more, run, low, high, allowed, fine⟩ := first b p
  cases r with
  | error why =>
      refine ⟨.error why, p', [], more, fun ireps reserved _ => ?_, low, high,
        allowed, fine.error⟩
      rw [List.append_nil]
      exact Reader.bind_error (run ireps reserved) next
  | ok a =>
      have far := fine.2
      obtain ⟨r', p'', T, more', run', low', high', allowed', fine'⟩ :=
        second a fine.1 b p' n (by omega) (by omega)
      refine ⟨r', p'', T, more ++ more', fun ireps reserved length => ?_,
        by omega, by omega, allowed_append allowed allowed', fine'⟩
      rw [Reader.bind_ok (run ireps reserved), run' ireps _ length,
        List.append_assoc]

theorem quiet
    (first : Quiet k m P)
    (second : ∀ a, P a → Grows fuel (next a) shape) :
    Grows fuel (m >>= next) shape :=
  behind first (Nat.zero_le k) second

theorem fails (why : RiteError) : Grows fuel (fails why) shape := by
  intro b p n _ _
  refine ⟨.error (.rite why), p, [], [], fun ireps reserved _ => ?_,
    Nat.le_refl p, Nat.le_max_left _ _, List.forall_mem_nil _, trivial⟩
  rw [List.append_nil, List.append_nil]
  rfl

/-- The loop over the children. -/
theorem times
    {child : Reader Nat}
    (grows : Grows fuel child fun n r T => Forest n [r] T)
    (count : Nat) :
    Grows fuel (times count child) fun n rs T => Forest n rs T := by
  induction count with
  | zero =>
      intro b p n _ _
      refine ⟨.ok [], p, [], [], fun ireps reserved _ => ?_, Nat.le_refl p,
        Nat.le_max_left _ _, List.forall_mem_nil _, Forest.nil n⟩
      rw [List.append_nil, List.append_nil]
      rfl
  | succ count ih =>
      intro b p n some_ enough
      obtain ⟨r, p', T, more, run, low, high, allowed, fine⟩ :=
        grows b p n some_ enough
      cases r with
      | error why =>
          exact ⟨.error why, p', T, more, fun ireps reserved length =>
            Reader.bind_error (run ireps reserved length) _, low, high, allowed,
            fine.error⟩
      | ok r =>
          obtain ⟨rs, p'', T', more', run', low', high', allowed', fine'⟩ :=
            ih b p' (n + T.length) some_ (by omega)
          have length' : ∀ ireps : List Irep, ireps.length = n →
              (ireps ++ T).length = n + T.length := by
            intro ireps length
            rw [List.length_append, length]
          cases rs with
          | error why =>
              refine ⟨.error why, p'', T ++ T', more ++ more',
                fun ireps reserved length => ?_, by omega, by omega,
                allowed_append allowed allowed', fine'.error⟩
              rw [← List.append_assoc, ← List.append_assoc]
              exact (Reader.bind_ok (run ireps reserved length) _).trans
                (Reader.bind_error (run' _ _ (length' ireps length)) _)
          | ok rs =>
              refine ⟨.ok (r :: rs), p'', T ++ T', more ++ more',
                fun ireps reserved length => ?_, by omega, by omega,
                allowed_append allowed allowed', ?_⟩
              · rw [← List.append_assoc, ← List.append_assoc]
                exact (Reader.bind_ok (run ireps reserved length) _).trans
                  (Reader.bind_ok (run' _ _ (length' ireps length)) _)
              · have whole := Forest.append fine
                  (by rw [List.length_map]; exact fine')
                rwa [← List.map_append] at whole

end Grows

/-- The record and its children are one tree. -/
theorem readChildren_grows
    (irep : Irep)
    {rlen : Nat}
    (small : rlen ≤ 65535)
    (grows : Grows fuel child fun n r T => Forest n [r] T) :
    Grows fuel (readChildren irep rlen child) fun n r T => Forest n [r] T := by
  intro b p n some_ enough
  obtain ⟨r, p', T, more, run, low, high, allowed, fine⟩ :=
    grows.times rlen b p (n + 1) some_ (by omega)
  have announced : ∀ x ∈ [(⟨.children, rlen⟩ : Reservation)], Allowed x := by
    intro x mem _
    rw [List.mem_singleton.mp mem]
    exact small
  have pushed : ∀ (ireps : List Irep) reserved, ireps.length = n →
      pushIrep irep b ⟨p, ireps, reserved⟩ =
        (.ok n, ⟨p, ireps ++ [irep], reserved⟩) := by
    intro ireps reserved length
    rw [pushIrep, length]
  have kept : ∀ (ireps : List Irep) (reserved : List Reservation),
      ireps.length = n →
      Binaries.times rlen child b
          ⟨p, ireps ++ [irep], reserved ++ [⟨.children, rlen⟩]⟩ =
        (r, ⟨p', ireps ++ irep :: T,
          reserved ++ (⟨.children, rlen⟩ :: more)⟩) := by
    intro ireps reserved length
    rw [run _ _ (by rw [List.length_append, length, List.length_singleton]),
      List.append_assoc, List.append_assoc, List.singleton_append,
      List.singleton_append]
  cases r with
  | error why =>
      refine ⟨.error why, p', irep :: T, ⟨.children, rlen⟩ :: more,
        fun ireps reserved length => ?_, low, high,
        allowed_append announced allowed, fine.error⟩
      exact (Reader.bind_ok (pushed ireps reserved length) _).trans
        (Reader.bind_error (kept ireps reserved length) _)
  | ok reps =>
      refine ⟨.ok n, p', { irep with reps } :: T, ⟨.children, rlen⟩ :: more,
        fun ireps reserved length => ?_, low, high,
        allowed_append announced allowed, ?_⟩
      · have edited : editIrep n (fun irep => { irep with reps }) b
            ⟨p', ireps ++ irep :: T, reserved ++ (⟨.children, rlen⟩ :: more)⟩ =
              (.ok (), ⟨p', ireps ++ { irep with reps } :: T,
                reserved ++ (⟨.children, rlen⟩ :: more)⟩) := by
          subst length
          simp [editIrep]
        exact (Reader.bind_ok (pushed ireps reserved length) _).trans
          ((Reader.bind_ok (kept ireps reserved length) _).trans
            (Reader.bind_ok edited _))
      · rw [List.map_cons]
        exact Forest.tree fine

/-! ### The parts of a record -/

theorem catchType_quiet (t : UInt8) : Quiet 0 (catchType t) fun _ => True :=
  Quiet.ite (Quiet.pure trivial)
    (Quiet.ite (Quiet.pure trivial) (Quiet.fails _))

theorem readHandler_quiet : Quiet 0 readHandler fun _ => True := by
  apply Quiet.u8.weaken.bind
  intro t _
  apply (catchType_quiet t).bind
  intro kind _
  apply Quiet.u32.weaken.bind
  intro begin_ _
  apply Quiet.u32.weaken.bind
  intro end_ _
  apply Quiet.u32.weaken.bind
  intro target _
  exact Quiet.pure trivial

theorem poolEntry_quiet (tt : UInt8) : Quiet 0 (poolEntry tt) fun _ => True := by
  apply Quiet.ite
  · exact Quiet.u32.weaken.bind fun _ _ => Quiet.pure trivial
  apply Quiet.ite
  · apply Quiet.u32.weaken.bind
    intro hi _
    exact Quiet.u32.weaken.bind fun _ _ => Quiet.pure trivial
  apply Quiet.ite
  · apply Quiet.u8.weaken.bind
    intro len _
    apply Quiet.u8.weaken.bind
    intro base _
    exact (Quiet.bytes _).weaken.bind fun _ _ => Quiet.pure trivial
  apply Quiet.ite
  · exact (Quiet.bytes 8).weaken.bind fun _ _ => Quiet.pure trivial
  apply Quiet.ite
  · apply Quiet.u16.weaken.bind
    intro len _
    apply (Quiet.bytes len).weaken.bind
    intro s _
    exact Quiet.u8.weaken.bind fun _ _ => Quiet.pure trivial
  · exact Quiet.fails _

theorem readPool_quiet : Quiet 0 readPool fun _ => True :=
  Quiet.u8.weaken.bind fun tt _ => poolEntry_quiet tt

theorem readSymbol_quiet : Quiet 0 readSymbol fun _ => True := by
  apply Quiet.u16.weaken.bind
  intro n _
  apply Quiet.ite
  · exact Quiet.pure trivial
  · apply (Quiet.bytes n).weaken.bind
    intro s _
    exact Quiet.u8.weaken.bind fun _ _ => Quiet.pure trivial

theorem allowed_of_le {site : Site} {count : Nat} (small : count ≤ 65535) :
    Allowed ⟨site, count⟩ :=
  fun _ => small

theorem readBody_grows
    (nlocals nregs : Nat)
    (grows : Grows fuel child fun n r T => Forest n [r] T) :
    Grows fuel (readBody nlocals nregs child) fun n r T => Forest n [r] T := by
  apply Grows.quiet Quiet.u16
  intro rlen smallR
  apply Grows.quiet Quiet.u16
  intro clen smallC
  apply Grows.quiet Quiet.u32
  intro ilen _
  apply Grows.quiet (Quiet.bytes ilen)
  intro iseq _
  apply Grows.quiet (Quiet.reserve (allowed_of_le smallC))
  intro _ _
  apply Grows.quiet (readHandler_quiet.times clen)
  intro catch_ _
  apply Grows.quiet Quiet.u16
  intro plen smallP
  apply Grows.quiet (Quiet.reserve (allowed_of_le smallP))
  intro _ _
  apply Grows.quiet (readPool_quiet.times plen)
  intro pool _
  apply Grows.quiet Quiet.u16
  intro slen smallS
  apply Grows.quiet (Quiet.reserve (allowed_of_le smallS))
  intro _ _
  apply Grows.quiet (readSymbol_quiet.times slen)
  intro syms _
  exact readChildren_grows _ smallR grows

/-- A record is a tree of new records. -/
theorem readRecord_grows (fuel : Nat) :
    Grows fuel (readRecord fuel) fun n r T => Forest n [r] T := by
  induction fuel with
  | zero =>
      intro b p n some_
      cases some_
  | succ fuel ih =>
      apply Grows.behind Quiet.u32 (by decide : 1 ≤ 4)
      intro _ _
      apply Grows.quiet Quiet.u16
      intro nlocals _
      apply Grows.quiet Quiet.u16
      intro nregs _
      split
      · exact Grows.fails _
      · exact readBody_grows nlocals nregs ih

end SabiRuby.Binaries
