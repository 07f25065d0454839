import SabiRuby.Collector.Heap
import SabiRuby.Library.Tracing
import Mathlib.Data.List.Perm.Subperm

/-!
# The mark phase

Every mark phase of a heap whose live objects refer to live objects goes
through, and marks what can be reached from its roots.
-/

namespace SabiRuby.Collector

open Library (Reachable Tracing)

/-! ## Flags -/

@[simp]
theorem free_and_marked : FREE &&& MARKED = 0 := by decide

@[simp]
theorem marked_ne_zero : MARKED ≠ 0 := by decide

@[simp]
theorem free_ne_zero : FREE ≠ 0 := by decide

/-! ## Heaps between collections -/

namespace Heap

/-- The slot holds an object. -/
def Live (h : Heap) (id : ObjId) : Prop :=
  h.isFree id = false

instance (h : Heap) (id : ObjId) : Decidable (h.Live id) :=
  inferInstanceAs (Decidable (_ = _))

/-- What the object of a slot refers to. -/
def referencesAt (h : Heap) (id : ObjId) : List ObjId :=
  match h.objs[id.index]? with
  | some o => references o
  | none => []

/-- The contexts the object of a slot leads to. -/
def contextsAt (h : Heap) (id : ObjId) : List Nat :=
  match h.objs[id.index]? with
  | some o => contextsOf o
  | none => []

/-- The windows the object of a slot keeps. -/
def windowsAt (h : Heap) (id : ObjId) : List (Nat × Nat × Nat) :=
  match h.objs[id.index]? with
  | some o => windowsOf o
  | none => []

/-- Without marks a live slot is one without a flag. -/
theorem live_iff
    (h : Heap)
    (unmarked : ∀ f ∈ h.flags, f = 0 ∨ f = FREE)
    (id : ObjId) : h.Live id ↔ h.flags[id.index]? = some 0 := by
  unfold Live isFree
  cases slot : h.flags[id.index]? with
  | none => simp
  | some f =>
      rcases unmarked f (List.mem_of_getElem? slot) with rfl | rfl <;> simp

/-- A heap outside a collection; no live object refers to a free slot. -/
structure Sound (h : Heap) : Prop where
  sized : h.flags.length = h.objs.length
  unmarked : ∀ f ∈ h.flags, f = 0 ∨ f = FREE
  closed : ∀ id, h.Live id → ∀ r ∈ h.referencesAt id, h.Live r

namespace Sound

variable {h : Heap} (sound : h.Sound)

include sound

theorem live_iff (id : ObjId) : h.Live id ↔ h.flags[id.index]? = some 0 :=
  h.live_iff sound.unmarked id

/-- A live slot is in the table. -/
theorem live_lt {id : ObjId} (live : h.Live id) :
    id.index < h.objs.length := by
  rw [sound.live_iff] at live
  rw [← sound.sized]
  exact (List.getElem?_eq_some_iff.mp live).1

end Sound

end Heap

/-! ## The invariant -/

/-- A heap in the middle of a mark phase that began with `h`. -/
structure Marks (h marking : Heap) : Prop where
  objs : marking.objs = h.objs
  freedData : marking.freedData = h.freedData
  sized : marking.flags.length = h.flags.length
  flagged : ∀ i : Nat, marking.flags[i]? = h.flags[i]? ∨
    h.flags[i]? = some 0 ∧ marking.flags[i]? = some MARKED

/-- A mark phase that began with `h` traces its references. -/
structure Phase.Traces
    (h : Heap)
    (roots : ObjId → Prop)
    (black pending : List ObjId)
    (p : Phase) : Prop where
  marks : Marks h p.heap
  tracing : Tracing h.referencesAt roots (fun id => p.heap.isMarked id = true)
    p.work black pending
  live : ∀ id ∈ pending, h.Live id

/-- What a mark phase has handed back is what the black objects lead to. -/
structure Phase.Hands (h : Heap) (black : List ObjId) (p : Phase) : Prop where
  ctxs : p.ctxs = black.flatMap h.contextsAt
  windows : p.windows = black.flatMap h.windowsAt

variable {h marking : Heap} {id : ObjId}

/-- Only live slots are marked. -/
theorem Marks.live_of_marked
    (sound : h.Sound)
    (marks : Marks h marking)
    (isMarked : marking.isMarked id = true) : h.Live id := by
  rw [sound.live_iff]
  rcases marks.flagged id.index with same | ⟨unflagged, _⟩
  · unfold Heap.isMarked at isMarked
    rw [same] at isMarked
    cases slot : h.flags[id.index]? with
    | none => simp [slot] at isMarked
    | some f =>
        rcases sound.unmarked f (List.mem_of_getElem? slot) with rfl | rfl <;>
          simp [slot] at isMarked
  · exact unflagged

/-- Setting the mark of a live slot. -/
theorem Marks.set
    (marks : Marks h marking)
    (unflagged : h.flags[i]? = some 0) :
    Marks h { marking with flags := marking.flags.set i MARKED } where
  objs := marks.objs
  freedData := marks.freedData
  sized := by simpa using marks.sized
  flagged := by
    intro j
    by_cases same : i = j
    · subst same
      have inside := (List.getElem?_eq_some_iff.mp unflagged).1
      rw [← marks.sized] at inside
      exact Or.inr ⟨unflagged, by simp [inside]⟩
    · simpa [List.getElem?_set_ne same] using marks.flagged j

theorem isMarked_set
    (marking : Heap)
    (inside : id.index < marking.flags.length)
    (other : ObjId) :
    Heap.isMarked { marking with
        flags := marking.flags.set id.index MARKED } other = true ↔
      marking.isMarked other = true ∨ other = id := by
  unfold Heap.isMarked
  by_cases same : other = id
  · subst same
    simp [inside]
  · have apart : id.index ≠ other.index := by
      intro equal
      apply same
      cases id
      cases other
      exact congrArg ObjId.mk equal.symm
    simp [List.getElem?_set_ne apart, same]

namespace Phase

variable {roots : ObjId → Prop} {black pending rest : List ObjId} {p : Phase}
  {turns : Nat}

section

variable (sound : h.Sound)
include sound

/-- Marking what is next to be marked. -/
theorem markId_traces
    (traces : p.Traces h roots black (id :: pending)) :
    ∃ q, p.markId id = some q ∧ q.Traces h roots black pending ∧
      q.ctxs = p.ctxs ∧ q.windows = p.windows := by
  have unflagged := (sound.live_iff id).mp (traces.live id List.mem_cons_self)
  have rest : ∀ n ∈ pending, h.Live n := fun n later =>
    traces.live n (List.mem_cons_of_mem id later)
  have inside : id.index < p.heap.flags.length := by
    rw [traces.marks.sized]
    exact (List.getElem?_eq_some_iff.mp unflagged).1
  unfold markId
  rcases traces.marks.flagged id.index with same | ⟨_, nowMarked⟩
  · have unmarked : ¬p.heap.isMarked id = true := by
      simp [Heap.isMarked, same, unflagged]
    rw [same, unflagged]
    refine ⟨_, rfl, ⟨?_, ?_, rest⟩, rfl, rfl⟩
    · exact traces.marks.set unflagged
    · exact traces.tracing.mark unmarked (isMarked_set p.heap inside)
  · have isMarked : p.heap.isMarked id = true := by
      simp [Heap.isMarked, nowMarked]
    rw [nowMarked]
    refine ⟨p, rfl, ⟨traces.marks, ?_, rest⟩, rfl, rfl⟩
    exact traces.tracing.skip isMarked

/-- Marking all that is to be marked. -/
theorem markAll_traces
    (traces : p.Traces h roots black pending) :
    ∃ q, p.markAll pending = some q ∧ q.Traces h roots black [] ∧
      q.ctxs = p.ctxs ∧ q.windows = p.windows := by
  induction pending generalizing p with
  | nil => exact ⟨p, rfl, traces, rfl, rfl⟩
  | cons id pending ih =>
      obtain ⟨middle, first, traced, ctxs, windows⟩ :=
        markId_traces sound traces
      obtain ⟨q, later, done, ctxsLater, windowsLater⟩ :=
        ih traced
      refine ⟨q, ?_, done, ctxsLater.trans ctxs, windowsLater.trans windows⟩
      simp [markAll, first, later]

/-- The grey and the black objects are different slots of the table. -/
theorem Traces.length_le
    (traces : p.Traces h roots black pending) :
    (p.work ++ black).length ≤ h.objs.length := by
  have inside :
      (p.work ++ black).map ObjId.index ⊆ List.range h.objs.length := by
    intro i held
    obtain ⟨n, colored, rfl⟩ := List.mem_map.mp held
    have isMarked : p.heap.isMarked n = true :=
      (traces.tracing.colored n).mpr (List.mem_append.mp colored)
    rw [List.mem_range]
    exact sound.live_lt (traces.marks.live_of_marked sound isMarked)
  have once : ((p.work ++ black).map ObjId.index).Nodup := by
    apply traces.tracing.once.map
    rintro ⟨i⟩ ⟨j⟩ equal
    exact congrArg ObjId.mk equal
  have fewer := (once.subperm inside).length_le
  rwa [List.length_map, List.length_range] at fewer

/-- A grey object turns black: what it refers to is to be marked. -/
theorem Traces.take
    (traces : p.Traces h roots black [])
    (work : p.work = id :: rest) :
    Traces h roots (id :: black) (h.referencesAt id)
      { p with work := rest } := by
  have tracing := traces.tracing
  rw [work] at tracing
  have isMarked : p.heap.isMarked id = true :=
    (tracing.colored id).mpr (Or.inl List.mem_cons_self)
  exact {
    marks := traces.marks
    tracing := tracing.take
    live := sound.closed id (traces.marks.live_of_marked sound isMarked) }

/-- Draining leaves no grey object. -/
theorem drainLoop_traces
    (traces : p.Traces h roots black [])
    (hands : p.Hands h black)
    (enough : h.objs.length ≤ turns + black.length) :
    ∃ q later, drainLoop turns p = some q ∧ q.work = [] ∧
      q.Traces h roots later [] ∧ q.Hands h later := by
  induction turns generalizing p black with
  | zero =>
      have none : p.work = [] := by
        have short := traces.length_le sound
        rw [List.length_append] at short
        exact List.eq_nil_of_length_eq_zero (by omega)
      refine ⟨p, black, ?_, none, traces, hands⟩
      simp [drainLoop, none]
  | succ turns ih =>
      cases work : p.work with
      | nil =>
          refine ⟨p, black, ?_, work, traces, hands⟩
          simp [drainLoop, work]
      | cons id rest =>
          have isMarked : p.heap.isMarked id = true :=
            (traces.tracing.colored id).mpr
              (Or.inl (work ▸ List.mem_cons_self))
          have inside := sound.live_lt
            (traces.marks.live_of_marked sound isMarked)
          have slot : h.objs[id.index]? = some h.objs[id.index] :=
            List.getElem?_eq_getElem inside
          generalize h.objs[id.index] = o at slot
          have refers : h.referencesAt id = references o := by
            simp [Heap.referencesAt, slot]
          obtain ⟨marked, isAll, traced, ctxs, windows⟩ :=
            markAll_traces sound (traces.take sound work)
          have next := @ih (id :: black)
            { marked with
              ctxs := contextsOf o ++ marked.ctxs
              windows := windowsOf o ++ marked.windows }
            ⟨traced.marks, traced.tracing, traced.live⟩
            ⟨by simp [ctxs, hands.ctxs, Heap.contextsAt, slot],
              by simp [windows, hands.windows, Heap.windowsAt, slot]⟩
            (by rw [List.length_cons]; omega)
          obtain ⟨q, later, drained, rest⟩ := next
          refine ⟨q, later, ?_, rest⟩
          rw [refers] at isAll
          rw [drainLoop.eq_def]
          simp [work, traces.marks.objs, slot, isAll, drained]

end

/-- A new root is to be marked. -/
theorem Traces.addRoot
    (traces : p.Traces h roots black [])
    (live : h.Live id) :
    Traces h (fun n => roots n ∨ n = id) black [id] p where
  marks := traces.marks
  tracing := traces.tracing.addRoot id
  live := by
    intro n isPending
    rwa [List.mem_singleton.mp isPending]

/-- One event of a mark phase. -/
theorem handle_traces
    (sound : h.Sound)
    (traces : p.Traces h roots black [])
    (hands : p.Hands h black)
    (e : Event)
    (live : ∀ n, e = .root n → h.Live n) :
    ∃ q later, p.handle e = some q ∧
      q.Traces h (fun n => roots n ∨ e = .root n) later [] ∧
      q.Hands h later ∧ (e = .drain → q.work = []) := by
  cases e with
  | root id =>
      obtain ⟨q, marked, traced, ctxs, windows⟩ :=
        markId_traces sound (traces.addRoot (live id rfl))
      have same : (fun n => roots n ∨ Event.root id = .root n) =
          fun n => roots n ∨ n = id := by
        funext n
        rw [Event.root.injEq, @eq_comm _ id]
      rw [same]
      refine ⟨q, black, marked, traced, ?_, nofun⟩
      exact ⟨ctxs.trans hands.ctxs, windows.trans hands.windows⟩
  | drain =>
      have enough : h.objs.length ≤ p.heap.objs.length + black.length := by
        rw [traces.marks.objs]
        exact Nat.le_add_right _ _
      obtain ⟨q, later, drained, work, traced, handed⟩ :=
        drainLoop_traces sound traces hands enough
      have same : (fun n => roots n ∨ Event.drain = .root n) = roots := by
        funext n
        simp
      rw [same]
      exact ⟨q, later, drained, traced, handed, fun _ => work⟩

/-- A mark phase from any of its states. -/
theorem run_traces
    (sound : h.Sound)
    (traces : p.Traces h roots black [])
    (hands : p.Hands h black)
    (events : List Event)
    (live : ∀ n, .root n ∈ events → h.Live n) :
    ∃ q later, p.run events = some q ∧
      q.Traces h (fun n => roots n ∨ .root n ∈ events) later [] ∧
      q.Hands h later ∧ (events.getLast? = some .drain → q.work = []) := by
  induction events generalizing p roots black with
  | nil =>
      refine ⟨p, black, rfl, ?_, hands, by simp⟩
      simpa using traces
  | cons e events ih =>
      obtain ⟨middle, between, first, traced, handed, drained⟩ :=
        handle_traces sound traces hands e
          (fun n same => live n (same ▸ List.mem_cons_self))
      obtain ⟨q, later, rest, done, handedLater, drainedLater⟩ :=
        ih traced handed
          (fun n held => live n (List.mem_cons_of_mem e held))
      refine ⟨q, later, by simp [run, first, rest], ?_, handedLater, ?_⟩
      · have same : (fun n => roots n ∨ Event.root n ∈ e :: events) =
            fun n => (roots n ∨ e = .root n) ∨ .root n ∈ events := by
          funext n
          rw [List.mem_cons, or_assoc, @eq_comm _ (Event.root n)]
        rwa [same]
      · intro last
        cases events with
        | nil =>
            cases rest
            exact drained (by simpa using last)
        | cons next events => exact drainedLater (by simpa using last)

/-- Before the first event. -/
theorem start_traces (sound : h.Sound) :
    Traces h (fun _ => False) [] [] (start h) ∧ Hands h [] (start h) := by
  have unmarked : ∀ n, ¬(start h).heap.isMarked n = true := by
    intro n isMarked
    unfold start Heap.isMarked at isMarked
    cases slot : h.flags[n.index]? with
    | none => simp [slot] at isMarked
    | some f =>
        rcases sound.unmarked f (List.mem_of_getElem? slot) with rfl | rfl <;>
          simp [slot] at isMarked
  refine ⟨⟨⟨rfl, rfl, rfl, fun _ => Or.inl rfl⟩, ?_, by simp⟩, rfl, rfl⟩
  exact Library.tracing_start (fun _ => not_false) unmarked

end Phase

/-- What a mark phase that ends with a drain leaves. -/
theorem mark_complete
    (sound : h.Sound)
    (events : List Phase.Event)
    (live : ∀ n, .root n ∈ events → h.Live n) :
    ∃ p black, (Phase.start h).run (events ++ [.drain]) = some p ∧
      p.work = [] ∧ Marks h p.heap ∧ p.Hands h black ∧
      black.Nodup ∧
      (∀ n, n ∈ black ↔
        Reachable h.referencesAt (fun r => .root r ∈ events) n) ∧
      (∀ n, p.heap.isMarked n = true ↔
        Reachable h.referencesAt (fun r => .root r ∈ events) n) := by
  obtain ⟨traces, hands⟩ := Phase.start_traces sound
  obtain ⟨p, black, ran, traced, handed, drained⟩ :=
    Phase.run_traces sound traces hands (events ++ [.drain])
      (by simpa using live)
  have work := drained (by simp)
  have tracing := traced.tracing
  rw [work] at tracing
  simp only [List.mem_append, List.mem_singleton, reduceCtorEq, false_or,
    or_false] at tracing
  obtain ⟨marked, isBlack, once⟩ := tracing.done
  exact ⟨p, black, ran, work, traced.marks, handed, once, isBlack, marked⟩

end SabiRuby.Collector
