import SabiRuby.Library.FiniteDescent
import SabiRuby.Nesting.Walks

/-!
# Which walks end

`join` keeps the Arrays it is inside of, `==`, `eql?` and `inspect` go no deeper
than natives may call one another, and `flatten` with a level no deeper than
that.  `flatten` without one and `puts` end exactly on Arrays that do not
contain themselves.
-/

namespace SabiRuby.Nesting

open Library

variable {α ε : Type} {g : Graph α} {leaves : Leaves α ε}

/-- An Array is an element of another. -/
def Graph.Contains (g : Graph α) (a b : Nat) : Prop :=
  .arr b ∈ g.items a

theorem Graph.contains_known
    (g : Graph α)
    (a b : Nat)
    (inside : g.Contains a b) : a < g.arrays.length := by
  by_contra late
  have empty : g.items a = [] := by
    rw [items, List.getD_eq_getElem?_getD, List.getElem?_eq_none (by omega)]
    rfl
  rw [Contains, empty] at inside
  cases inside

/-- What an Array contains, further down and down, comes to an end. -/
def Graph.Ends (g : Graph α) (a : Nat) : Prop :=
  Acc (fun b a => g.Contains a b) a

theorem Graph.ends_iff (g : Graph α) (a : Nat) :
    g.Ends a ↔ NoCycle g.Contains a :=
  acc_iff_noCycle (Finset.range g.arrays.length)
    (fun a b inside => Finset.mem_range.mpr (g.contains_known a b inside)) a

/-! ## Loops over the elements -/

/-- From this fuel on a computation has one value. -/
def SettlesBy {β : Type} (least : Nat) (compute : Nat → Option β) : Prop :=
  ∃ value, ∀ fuel, least ≤ fuel → compute fuel = some value

variable {β : Type}

theorem SettlesBy.mono
    (settles : SettlesBy m compute)
    (more : m ≤ n) : SettlesBy n compute := by
  obtain ⟨value, returns⟩ := settles
  exact ⟨value, fun fuel enough => returns fuel (more.trans enough)⟩

theorem SettlesBy.returns
    (settles : SettlesBy m compute) : ∃ value, Returns compute value := by
  obtain ⟨value, returns⟩ := settles
  exact ⟨value, m, returns⟩

theorem collect_cons
    (part : Nat → Elem α → Walk ε (List UInt8))
    (idx : Nat)
    (e : Elem α)
    (items : List (Elem α))
    (out : List UInt8) :
    collect part idx (e :: items) out =
      match part idx e with
      | none => none
      | some (.error raised) => some (.error raised)
      | some (.ok bytes) => collect part (idx + 1) items (out ++ bytes) :=
  rfl

theorem allEqual_cons
    (equal : Elem α → Elem α → Walk ε Bool)
    (p q : Elem α)
    (xs ys : List (Elem α)) :
    allEqual equal (p :: xs) (q :: ys) =
      match equal p q with
      | none => none
      | some (.error raised) => some (.error raised)
      | some (.ok false) => some (.ok false)
      | some (.ok true) => allEqual equal xs ys :=
  rfl

theorem collect_settles
    (least : Nat)
    (part : Nat → Nat → Elem α → Walk ε (List UInt8))
    (items : List (Elem α))
    (parts : ∀ e ∈ items, ∀ idx, SettlesBy least (part · idx e))
    (idx : Nat)
    (out : List UInt8) :
    SettlesBy least (fun fuel => collect (part fuel) idx items out) := by
  induction items generalizing idx out with
  | nil => exact ⟨.ok out, fun _ _ => rfl⟩
  | cons e items ih =>
      rw [List.forall_mem_cons] at parts
      obtain ⟨first, value⟩ := parts.1 idx
      cases first with
      | error raised =>
          refine ⟨.error raised, ?_⟩
          intro fuel enough
          simp only [collect_cons, value fuel enough]
      | ok bytes =>
          obtain ⟨result, later⟩ :=
            ih parts.2 (idx + 1) (out ++ bytes)
          refine ⟨result, ?_⟩
          intro fuel enough
          simp only [collect_cons, value fuel enough]
          exact later fuel enough

theorem allEqual_settles
    (least : Nat)
    (equal : Nat → Elem α → Elem α → Walk ε Bool)
    (xs ys : List (Elem α))
    (pairs : ∀ p ∈ xs, ∀ q, SettlesBy least (equal · p q)) :
    SettlesBy least (fun fuel => allEqual (equal fuel) xs ys) := by
  induction xs generalizing ys with
  | nil => exact ⟨.ok true, fun _ _ => rfl⟩
  | cons p xs ih =>
      cases ys with
      | nil => exact ⟨.ok true, fun _ _ => rfl⟩
      | cons q ys =>
          rw [List.forall_mem_cons] at pairs
          obtain ⟨first, value⟩ := pairs.1 q
          rcases first with raised | _ | _
          · refine ⟨.error raised, ?_⟩
            intro fuel enough
            simp only [allEqual_cons, value fuel enough]
          · refine ⟨.ok false, ?_⟩
            intro fuel enough
            simp only [allEqual_cons, value fuel enough]
          · obtain ⟨result, later⟩ := ih ys pairs.2
            refine ⟨result, ?_⟩
            intro fuel enough
            simp only [allEqual_cons, value fuel enough]
            exact later fuel enough

/-- What follows a computation settles with it. -/
theorem SettlesBy.map
    {compute : Nat → Option β}
    (settles : SettlesBy m compute)
    (f : β → γ) : SettlesBy m (fun fuel => (compute fuel).map f) := by
  obtain ⟨value, returns⟩ := settles
  refine ⟨f value, ?_⟩
  intro fuel enough
  simp only [returns fuel enough, Option.map_some]

theorem settles_const {β : Type} (least : Nat) (value : β) :
    SettlesBy least (fun _ => some value) :=
  ⟨value, fun _ _ => rfl⟩

/-- A walk that may stop at once. -/
theorem SettlesBy.unless
    {stops : Prop}
    [Decidable stops]
    {value : β}
    (settles : ¬stops → SettlesBy m compute) :
    SettlesBy m (fun fuel => if stops then some value else compute fuel) := by
  by_cases now : stops
  · simp only [if_pos now]
    exact settles_const m value
  · simp only [if_neg now]
    exact settles now

/-- One call takes one unit of fuel. -/
theorem SettlesBy.call
    (settles : SettlesBy m (fun fuel => compute (fuel + 1))) :
    SettlesBy (m + 1) compute := by
  obtain ⟨value, returns⟩ := settles
  refine ⟨value, ?_⟩
  intro fuel enough
  obtain ⟨fuel, rfl⟩ := Nat.exists_eq_add_of_le' (Nat.one_le_of_lt enough)
  exact returns fuel (Nat.le_of_succ_le_succ enough)

/-! ## `join`, `==`, `eql?` and `inspect` -/

/-- Different Arrays are not more than there are. -/
theorem length_le_of_nodup
    {path : List Nat}
    (distinct : path.Nodup)
    (known : ∀ a ∈ path, a < n) : path.length ≤ n := by
  have inside : path ⊆ List.range n :=
    fun a member => List.mem_range.mpr (known a member)
  have shorter := (distinct.subperm inside).length_le
  rwa [List.length_range] at shorter

/-- The Arrays that `join` is inside of are different ones. -/
theorem joinFrom_settles
    (nativeDepth : Nat)
    (sep : List UInt8)
    (room v : Nat)
    (path : List Nat)
    (distinct : (path ++ [v]).Nodup)
    (known : ∀ a ∈ path, a < g.arrays.length)
    (size : g.arrays.length ≤ path.length + room) :
    SettlesBy (room + 1)
      (fun fuel => g.joinFrom leaves nativeDepth sep fuel v path) := by
  induction room generalizing v path with
  | zero =>
      apply SettlesBy.call
      apply collect_settles
      intro e member
      -- there is no Array left that could have elements
      have inside : ∀ a ∈ path ++ [v], a < g.arrays.length := by
        intro a memberPath
        rcases List.mem_append.mp memberPath with old | new
        · exact known a old
        · rw [List.mem_singleton.mp new]
          by_contra late
          rw [Graph.items, List.getD_eq_getElem?_getD,
            List.getElem?_eq_none (by omega)] at member
          cases member
      have short := length_le_of_nodup distinct inside
      rw [List.length_append, List.length_singleton] at short
      omega
  | succ room ih =>
      apply SettlesBy.call
      apply collect_settles
      intro e member idx
      cases e with
      | leaf w => exact settles_const _ _
      | arr a =>
          simp only
          by_cases again : a = v ∨ a ∈ path
          · simp only [if_pos again]
            exact settles_const _ _
          · simp only [if_neg again]
            apply SettlesBy.map
            apply ih
            · rw [List.nodup_append]
              refine ⟨distinct, List.nodup_singleton a, ?_⟩
              rintro b old c new rfl
              rw [List.mem_singleton.mp new, List.mem_append,
                List.mem_singleton] at old
              exact again old.symm
            · intro b old
              rcases List.mem_append.mp old with before | new
              · exact known b before
              · rw [List.mem_singleton.mp new]
                exact g.contains_known v a member
            · rw [List.length_append, List.length_singleton]
              omega

theorem aryJoin_returns
    (nativeDepth : Nat)
    (sep : List UInt8)
    (s : Nat) :
    ∃ r, Returns (g.aryJoin leaves nativeDepth sep s) r :=
  (joinFrom_settles nativeDepth sep g.arrays.length s []
    (List.nodup_singleton s) (fun _ none => nomatch none) (by simp)).returns

/-- Each call of a nested `==` is one level deeper. -/
theorem aryEq_settles
    (room nativeDepth : Nat)
    (deep : NATIVE_DEPTH_MAX ≤ nativeDepth + room)
    (guard_ : List (Nat × Nat))
    (s : Nat)
    (other : Elem α) :
    SettlesBy (room + 1)
      (fun fuel => g.aryEq leaves fuel nativeDepth guard_ s other) := by
  induction room using Nat.strongRecOn
    generalizing nativeDepth guard_ s other with
  | ind room ih =>
      apply SettlesBy.call
      cases other with
      | leaf w => exact settles_const room _
      | arr o =>
          simp only [Graph.aryEq]
          refine .unless fun _ => .unless fun _ => .unless fun _ => ?_
          apply allEqual_settles
          intro p _ q
          cases p with
          | leaf v => exact settles_const room _
          | arr a =>
              refine .unless fun _ => .unless fun full => ?_
              exact (ih (room - 1) (by omega) _ (by omega) _ _
                _).mono (by omega)

/-- Each call of a nested `eql?` is one level deeper. -/
theorem aryEql_settles
    (room nativeDepth : Nat)
    (deep : NATIVE_DEPTH_MAX ≤ nativeDepth + room)
    (guard_ : List (Nat × Nat))
    (s : Nat)
    (other : Elem α) :
    SettlesBy (room + 1)
      (fun fuel => g.aryEql leaves fuel nativeDepth guard_ s other) := by
  induction room using Nat.strongRecOn
    generalizing nativeDepth guard_ s other with
  | ind room ih =>
      apply SettlesBy.call
      cases other with
      | leaf w => exact settles_const room _
      | arr o =>
          simp only [Graph.aryEql]
          refine .unless fun _ => .unless fun _ => .unless fun _ => ?_
          apply allEqual_settles
          intro p _ q
          cases p with
          | leaf v => exact settles_const room _
          | arr a =>
              refine .unless fun full => ?_
              exact (ih (room - 1) (by omega) _ (by omega) _ _
                _).mono (by omega)

/-- Each call of a nested `inspect` is one level deeper. -/
theorem aryInspect_settles
    (room nativeDepth : Nat)
    (deep : NATIVE_DEPTH_MAX ≤ nativeDepth + room)
    (guard_ : List Nat)
    (v : Nat) :
    SettlesBy (room + 1)
      (fun fuel => g.aryInspect leaves fuel nativeDepth guard_ v) := by
  induction room using Nat.strongRecOn generalizing nativeDepth guard_ v with
  | ind room ih =>
      apply SettlesBy.call
      apply SettlesBy.map
      apply collect_settles
      intro e _ idx
      cases e with
      | leaf w => exact settles_const room _
      | arr a =>
          simp only
          by_cases asked : a = v ∨ a ∈ guard_
          · simp only [if_pos asked]
            exact settles_const room _
          by_cases full : NATIVE_DEPTH_MAX ≤ nativeDepth
          · simp only [if_neg asked, if_pos full]
            exact settles_const room _
          simp only [if_neg asked, if_neg full]
          apply SettlesBy.map
          exact (ih (room - 1) (by omega) _ (by omega) _
            _).mono (by omega)

/-! ## `puts` -/

theorem settles_all
    (part : Nat → Elem α → Nat → Option β)
    (items : List (Elem α))
    (each : ∀ e ∈ items, ∃ least, ∀ idx, SettlesBy least (part idx e)) :
    ∃ least, ∀ e ∈ items, ∀ idx, SettlesBy least (part idx e) := by
  induction items with
  | nil => exact ⟨0, fun _ none => nomatch none⟩
  | cons e items ih =>
      rw [List.forall_mem_cons] at each
      obtain ⟨m, first⟩ := each.1
      obtain ⟨n, rest⟩ := ih each.2
      refine ⟨max m n, ?_⟩
      rw [List.forall_mem_cons]
      constructor
      · exact fun idx => (first idx).mono (Nat.le_max_left m n)
      · exact fun e member idx =>
          (rest e member idx).mono (Nat.le_max_right m n)

theorem putsValue_settles
    (nativeDepth : Nat)
    (ends : g.Ends a)
    (depth : Nat) :
    ∃ least, SettlesBy least
      (fun fuel => g.putsValue leaves nativeDepth fuel depth (.arr a)) := by
  induction ends generalizing depth with
  | intro a _ ih =>
      have each : ∀ e ∈ g.items a, ∃ least, ∀ _ : Nat, SettlesBy least
          (fun fuel => g.putsValue leaves nativeDepth fuel (depth + 1) e) := by
        intro e member
        cases e with
        | leaf w =>
            exact ⟨1, fun _ => SettlesBy.call (settles_const 0 _)⟩
        | arr b =>
            obtain ⟨least, settles⟩ := ih b member (depth + 1)
            exact ⟨least, fun _ => settles⟩
      obtain ⟨least, parts⟩ := settles_all
        (fun _ e fuel => g.putsValue leaves nativeDepth fuel (depth + 1) e)
        (g.items a) each
      refine ⟨least + 1, ?_⟩
      apply SettlesBy.call
      simp only [Graph.putsValue]
      by_cases empty : (g.items a).isEmpty ∧ depth = 0
      · simp only [if_pos empty]
        exact settles_const least _
      · simp only [if_neg empty]
        exact collect_settles least _ _ parts 0 []

theorem collect_ok
    (answers : collect part idx items out = some (.ok bytes)) :
    ∀ e ∈ items, ∃ i written, part i e = some (.ok written) := by
  induction items generalizing idx out with
  | nil => exact fun _ none => nomatch none
  | cons e items ih =>
      rw [collect] at answers
      cases first : part idx e with
      | none => simp [first] at answers
      | some answer =>
          cases answer with
          | error raised => simp [first] at answers
          | ok written =>
              simp only [first] at answers
              rw [List.forall_mem_cons]
              exact ⟨⟨idx, written, first⟩, ih answers⟩

/-- `puts` writes an Array to the end only where there is an end. -/
theorem ends_of_putsValue
    (nativeDepth fuel depth a : Nat)
    (writes : g.putsValue leaves nativeDepth fuel depth (.arr a) =
      some (.ok bytes)) : g.Ends a := by
  induction fuel generalizing depth a bytes with
  | zero => cases writes
  | succ fuel ih =>
      rw [Graph.putsValue] at writes
      constructor
      intro b inside
      by_cases empty : (g.items a).isEmpty ∧ depth = 0
      · have none := List.isEmpty_iff.mp empty.1
        rw [Graph.Contains, none] at inside
        cases inside
      · rw [if_neg empty] at writes
        obtain ⟨_, written, answer⟩ := collect_ok writes _ inside
        exact ih _ b answer

end SabiRuby.Nesting
