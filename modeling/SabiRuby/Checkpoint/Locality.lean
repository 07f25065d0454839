import SabiRuby.Checkpoint.Parse

/-!
# The readers of an image are local

What a reader of the image returns depends on the bytes it passes.  Counts are
checked against the length of the whole image; this does not matter, since the
values they count take up room.
-/

namespace SabiRuby.Checkpoint.Cur

open Library Reader

theorem local_take (n : Nat) : Local (take n) where
  reads := by
    intro b p s after inside ran
    unfold take at ran
    split at ran
    · cases ran
    · rename_i room
      cases ran
      exact ⟨rfl, Nat.le_add_right _ _, by
        change p + n ≤ b.length
        change ¬b.length - p < n at room
        omega⟩
  same := by
    intro b p s after inside ran other same
    unfold take at ran ⊢
    split at ran
    · cases ran
    · rename_i room
      cases ran
      change ¬b.length - p < n at room
      change other.take (p + n) = b.take (p + n) at same
      have long := le_length_of_take same (by omega)
      have enough : ¬other.length - p < n := by omega
      have taken : (other.drop p).take n = (b.drop p).take n := by
        rw [List.take_drop, List.take_drop, same]
      rw [if_neg enough]
      change Except.ok (_, _) = Except.ok (_, _)
      rw [taken]

theorem advances_take (n : Nat) : Advances (take (n + 1)) := by
  intro b p s after _ ran
  unfold take at ran
  split at ran
  · cases ran
  · cases ran
    change p < p + (n + 1)
    omega

/-! ## Numbers, bytes and values -/

theorem local_u8 : Local u8 := (local_take 1).bind fun _ => .pure _

theorem local_u16 : Local u16 := (local_take 2).bind fun _ => .pure _

theorem local_u32 : Local u32 := (local_take 4).bind fun _ => .pure _

theorem local_u64 : Local u64 :=
  local_u32.bind fun _ => local_u32.bind fun _ => .pure _

theorem advances_u8 : Advances u8 :=
  Advances.bind (local_take 1) (advances_take 0) fun _ => .pure _

theorem advances_u32 : Advances u32 :=
  Advances.bind (local_take 4) (advances_take 3) fun _ => .pure _

theorem local_bytes : Local bytes :=
  local_u32.bind fun n => local_take n.toNat

theorem local_string : Local string := by
  apply local_bytes.bind
  intro b
  cases Serde.fromUtf8 b with
  | none => exact .throw _
  | some s => exact .pure s

/-- What follows the tag of a value. -/
theorem local_tagged_val (t : UInt8) : Local (
    if t = 0 then pure .nil
    else if t = 1 then pure .false
    else if t = 2 then pure .true
    else if t = 3 then do
      let i ← u64
      pure (.int i.toInt64)
    else if t = 4 then do
      let bits ← u64
      pure (.float bits)
    else if t = 5 then do
      let s ← u32
      pure (.sym s)
    else if t = 6 then do
      let o ← u32
      pure (.obj o)
    else if t = 7 then pure .undef
    else throw ("bad value tag " ++ toString t) : R Val) :=
  .ite (.pure _) <| .ite (.pure _) <| .ite (.pure _) <|
    .ite (local_u64.bind fun _ => .pure _) <|
    .ite (local_u64.bind fun _ => .pure _) <|
    .ite (local_u32.bind fun _ => .pure _) <|
    .ite (local_u32.bind fun _ => .pure _) <|
    .ite (.pure _) (.throw _)

theorem local_val : Local val := local_u8.bind local_tagged_val

theorem advances_val : Advances val :=
  Advances.bind local_u8 advances_u8 local_tagged_val

theorem local_ivars : Local ivars :=
  local_u32.bind fun n => Local.many
    (local_u32.bind fun _ => local_val.bind fun _ => .pure _) n.toNat

theorem local_head : Local head :=
  local_u32.bind fun _ => local_u8.bind fun _ => .pure _

theorem local_method : Local method :=
  local_u32.bind fun _ => local_u8.bind fun _ => local_u8.bind fun _ =>
    .ite (local_u32.bind fun _ => .pure _) <|
    .ite (local_string.bind fun _ => local_u32.bind fun _ => .pure _) <|
    .ite (.pure _) (.throw _)

/-! ## Records -/

theorem local_poolEntry : Local poolEntry :=
  local_u8.bind fun _ =>
    .ite (local_bytes.bind fun _ => .pure _) <|
    .ite (local_u64.bind fun _ => .pure _) <|
    .ite (local_u64.bind fun _ => .pure _) <|
    .ite (local_bytes.bind fun _ => .pure _) (.throw _)

theorem local_irep : Local irep :=
  local_u8.bind fun _ => local_u64.bind fun _ =>
    .ite (.pure _) <|
    .ite
      (local_u16.bind fun _ => local_u16.bind fun _ => local_u16.bind fun _ =>
        local_u32.bind fun _ => (local_take _).bind fun _ =>
        (local_take _).bind fun _ => local_u16.bind fun _ =>
        (local_poolEntry.many _).bind fun _ => local_u16.bind fun _ =>
        (local_u32.many _).bind fun _ => local_u16.bind fun _ =>
        (local_u32.many _).bind fun _ => local_u16.bind fun _ =>
        (local_u32.many _).bind fun _ => .pure _)
      (.throw _)

theorem local_pair : Local pair :=
  local_val.bind fun _ => local_val.bind fun _ => .pure _

theorem local_procBody : Local procBody :=
  local_u8.bind fun _ =>
    .ite (local_u32.bind fun _ => .pure _) <|
    .ite (local_string.bind fun _ => local_u32.bind fun _ => .pure _) <|
    .ite (local_u32.bind fun _ => .pure _) (.throw _)

theorem local_envPlace (len : UInt8) : Local (envPlace len) :=
  local_u8.bind fun _ =>
    .ite (local_u32.bind fun _ => local_u32.bind fun _ => .pure _)
      ((local_val.many _).bind fun _ => .pure _)

theorem local_carried (kind : UInt8) (head : Head) :
    Local (carried kind head) :=
  .ite (local_ivars.bind fun _ => .pure _) <|
    .ite (local_bytes.bind fun _ => .pure _) <|
    .ite (local_bytes.bind fun _ => .pure _) <|
    .ite (local_u32.bind fun _ => (local_val.many _).bind fun _ => .pure _) <|
    .ite (local_u8.bind fun _ => local_u32.bind fun _ =>
      (local_pair.many _).bind fun _ => local_ivars.bind fun _ => .pure _) <|
    .ite (local_val.bind fun _ => local_val.bind fun _ =>
      local_u8.bind fun _ => .pure _) <|
    .ite (local_val.bind fun _ => local_val.bind fun _ =>
      local_ivars.bind fun _ => .pure _) <|
    .ite (local_u32.bind fun _ => local_u8.bind fun _ =>
      local_u8.bind fun _ => local_ivars.bind fun _ =>
      local_u32.bind fun _ => (local_method.many _).bind fun _ => .pure _) <|
    .ite (local_u32.bind fun _ => .pure _) <|
    .ite (local_u8.bind fun _ => local_procBody.bind fun _ =>
      local_u32.bind fun _ => local_u8.bind fun _ =>
      local_u32.bind fun _ => .pure _) <|
    .ite (local_u32.bind fun _ => local_u8.bind fun _ =>
      local_u8.bind fun _ => local_u8.bind fun _ =>
      (local_envPlace _).bind fun _ => .pure _) <|
    .ite (local_string.bind fun _ => local_bytes.bind fun _ =>
      local_ivars.bind fun _ => .pure _) <|
    .ite (local_u32.bind fun _ => local_ivars.bind fun _ => .pure _) <|
    .ite (local_u32.bind fun _ => .pure _) <|
    .ite (.throw _) (.throw _)

theorem local_object : Local object :=
  local_u8.bind fun _ =>
    .ite (local_string.bind fun _ => .pure _) <|
    .ite (local_string.bind fun _ => local_u32.bind fun _ => .pure _)
      (local_head.bind fun _ => local_carried _ _)

theorem local_contents (o : UInt32) (frozen : Bool) :
    Local (contents o frozen) :=
  local_u8.bind fun _ =>
    .ite (local_bytes.bind fun _ => .pure _) <|
    .ite (local_u32.bind fun _ => (local_val.many _).bind fun _ => .pure _) <|
    .ite (.throw _) (.throw _)

theorem local_patch : Local patch :=
  local_u8.bind fun _ =>
    .ite (local_u32.bind fun _ => local_method.bind fun _ => .pure _) <|
    .ite (local_u32.bind fun _ => local_u32.bind fun _ => .pure _) <|
    .ite (local_u32.bind fun _ => local_u32.bind fun _ =>
      local_val.bind fun _ => .pure _) <|
    .ite (local_u32.bind fun _ => local_u32.bind fun _ => .pure _) <|
    .ite (local_u32.bind fun _ => local_u32.bind fun _ => .pure _) <|
    .ite (local_u32.bind fun _ => local_val.bind fun _ => .pure _) <|
    .ite (local_u32.bind fun _ => .pure _) <|
    .ite (.throw _) <| .ite (.throw _) <|
    .ite (local_u32.bind fun _ => local_u8.bind fun _ => local_contents _ _)
      (.throw _)

/-! ## Contexts and Tasks -/

/-- What follows the kind of a frame. -/
theorem local_kinded_frame (kind : UInt8) : Local (do
    let mid ← u32
    let proc ← u32
    let cfunc ← (if kind = 0 then pure none
      else if kind = 1 then some <$> string
      else throw ("bad frame kind " ++ toString kind) : R (Option String))
    let base ← u32
    let pc ← u32
    let n ← u8
    let nk ← u8
    let cci ← u8
    let vis ← u8
    let blk ← u32
    let envKind ← u8
    let env ← u32
    pure
      { cfunc := cfunc, mid := mid, proc := proc, base := base, pc := pc
        n := n, nk := nk, cci := cci, vis := vis, blk := blk
        envKind := envKind, env := env } : R FrameRec) :=
  local_u32.bind fun _ => local_u32.bind fun _ =>
    Local.bind (.ite (.pure _) <| .ite (local_string.map _) (.throw _)) fun _ =>
    local_u32.bind fun _ => local_u32.bind fun _ => local_u8.bind fun _ =>
    local_u8.bind fun _ => local_u8.bind fun _ => local_u8.bind fun _ =>
    local_u32.bind fun _ => local_u8.bind fun _ => local_u32.bind fun _ =>
    .pure _

theorem local_frame : Local frame := local_u8.bind local_kinded_frame

theorem advances_frame : Advances frame :=
  Advances.bind local_u8 advances_u8 local_kinded_frame

theorem local_context : Local context :=
  local_u8.bind fun _ => local_u8.bind fun _ => local_u32.bind fun _ =>
    local_u32.bind fun _ => local_u32.bind fun _ =>
    (local_val.counted advances_val _ _).bind fun _ => local_u32.bind fun _ =>
    (local_frame.counted advances_frame _ _).bind fun _ => .pure _

theorem local_wait (reason : UInt8) : Local (wait reason) :=
  .ite (.pure _) <|
    .ite (local_u32.bind fun _ => .pure _) <|
    .ite (local_u32.bind fun _ => .pure _) <|
    .ite (local_u32.bind fun _ => local_u8.bind fun _ =>
      local_u32.bind fun _ => .pure _) (.throw _)

theorem local_owned_task (obj : UInt32) : Local (do
    let ctx ← u32
    let status ← u8
    let queue ← u8
    let priority ← u8
    let reason ← u8
    let timeslice ← u8
    let name ← val
    let result ← val
    let wait ← wait reason
    pure
      { obj := obj, ctx := ctx, status := status, queue := queue
        priority := priority, reason := reason, timeslice := timeslice
        name := name, result := result, wait := wait } : R TaskRec) :=
  local_u32.bind fun _ => local_u8.bind fun _ => local_u8.bind fun _ =>
    local_u8.bind fun _ => local_u8.bind fun _ => local_u8.bind fun _ =>
    local_val.bind fun _ => local_val.bind fun _ => (local_wait _).bind fun _ =>
    .pure _

theorem local_task : Local task := local_u32.bind local_owned_task

theorem advances_task : Advances task :=
  Advances.bind local_u32 advances_u32 local_owned_task

theorem local_scheduler : Local scheduler :=
  local_u8.bind fun _ => local_u16.bind fun _ => local_u32.bind fun _ =>
    local_u8.bind fun _ => local_u32.bind fun _ => local_u32.bind fun _ =>
    (local_task.counted advances_task _ _).bind fun _ => local_u32.bind fun _ =>
    local_u32.bind fun _ => .pure _

/-! ## The image and its sections -/

theorem local_refusing
    (reader : Local r)
    (text : String) : Local (refusing r text) where
  reads := by
    intro b p a after inside ran
    unfold refusing at ran
    cases done : r ⟨b, p⟩ with
    | error e => simp [done] at ran
    | ok result =>
        simp only [done, Except.ok.injEq] at ran
        subst ran
        exact reader.reads inside done
  same := by
    intro b p a after inside ran other same
    unfold refusing at ran ⊢
    cases done : r ⟨b, p⟩ with
    | error e => simp [done] at ran
    | ok result =>
        simp only [done, Except.ok.injEq] at ran
        subst ran
        rw [reader.same inside done other same]

theorem local_header : Local header :=
  (local_refusing (local_take 4) _).bind fun _ =>
    .ite (.throw _) <|
    local_u16.bind fun _ => .ite (.throw _) <|
    local_string.bind fun _ => local_bytes.bind fun _ => .ite (.throw _) <|
    local_u8.bind fun _ => local_u8.bind fun _ => local_u8.bind fun _ =>
    local_u8.bind fun _ => .ite (.throw _) (.pure _)

theorem local_body : Local body :=
  local_header.bind fun _ =>
    local_u32.bind fun _ => (local_bytes.many _).bind fun _ =>
    local_u32.bind fun _ => (local_irep.many _).bind fun _ =>
    local_u32.bind fun _ => (local_object.many _).bind fun _ =>
    local_u32.bind fun _ => (local_patch.many _).bind fun _ =>
    local_u32.bind fun _ => (local_context.many _).bind fun _ =>
    local_u32.bind fun _ => local_scheduler.bind fun _ => .pure _

theorem local_debugIrep : Local debugIrep :=
  local_u32.bind fun _ => local_u16.bind fun _ =>
    Local.bind
      (Local.many
        (local_bytes.bind fun _ => local_u32.bind fun _ =>
          local_u32.bind fun _ => local_u32.bind fun _ =>
          Local.bind
            (Local.many
              (local_u32.bind fun _ => local_u32.bind fun _ => .pure _) _)
            fun _ => .pure _) _)
      fun _ => .pure _

/-- A section this reader knows is read locally. -/
theorem local_sectionContents
    (known : tag = DBG0 ∨ tag = GCS0) : Local (sectionContents tag) := by
  rcases known with rfl | rfl
  · exact local_u32.bind fun _ => local_debugIrep.many _
  · exact (local_take _).bind fun _ => .pure _

theorem takeContents_eq_ok
    (ran : takeContents tag len c = .ok result) : take len c = .ok result := by
  unfold takeContents at ran
  split at ran
  · cases ran
  · exact ran

theorem local_takeContents (tag : List UInt8) (len : Nat) :
    Local (takeContents tag len) where
  reads := fun inside ran => (local_take len).reads inside (takeContents_eq_ok ran)
  same := by
    intro b p a after inside ran other same
    have taken := (local_take len).same inside (takeContents_eq_ok ran) other same
    unfold takeContents
    split
    · rename_i short
      unfold take at taken
      rw [if_pos short] at taken
      cases taken
    · exact taken

theorem local_sectionStep : Local sectionStep := by
  refine (local_take 4).bind fun tag => .ite (.pure _) ?_
  refine local_u32.bind fun len => (local_takeContents _ _).bind fun content => ?_
  cases filled tag content with
  | error e => exact .throw e
  | ok lines => exact .pure _

end SabiRuby.Checkpoint.Cur
