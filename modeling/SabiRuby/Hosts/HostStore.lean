import Mathlib.Data.List.Nodup
import Mathlib.Tactic.Cases
import Mathlib.Tactic.Push

/-!
# The values the host keeps

A `HostStore` is a slab of values that Ruby names by their handles.  A removed
value gives its number up for reuse, one that is lent out keeps it.  Against it
stands a book that records what each handle names: the store answers what the
book says, whatever is asked of it.
-/

namespace SabiRuby.Hosts

/-- What a handle's place in the slab holds. -/
inductive Cell (T : Type)
  | empty
  | full (value : T)
  | out
deriving DecidableEq, Repr

namespace Cell

variable {T : Type}

def isFull : Cell T → Bool
  | full _ => true
  | _ => false

def value : Cell T → Option T
  | full value => some value
  | _ => none

/-- Change a value in place. -/
def write (change : T → T) : Cell T → Cell T
  | full value => full (change value)
  | cell => cell

@[simp] theorem isFull_write (change : T → T) (cell : Cell T) :
    (cell.write change).isFull = cell.isFull := by
  cases cell <;> rfl

@[simp] theorem write_eq_empty {change : T → T} {cell : Cell T} :
    cell.write change = empty ↔ cell = empty := by
  cases cell <;> simp [write]

@[simp] theorem write_empty (change : T → T) :
    (empty : Cell T).write change = empty := rfl

end Cell

/-- The slab: handles are indices of `usize`, and the free numbers stand with
the one pushed last in front. -/
structure HostStore (T : Type) where
  slots : List (Cell T)
  free : List Nat
  live : Nat
deriving DecidableEq, Repr

namespace HostStore

variable {T : Type}

/-- `HostStore::new`. -/
def new : HostStore T := ⟨[], [], 0⟩

/-- `insert`: no answer is the panic of an index out of range. -/
def insert (s : HostStore T) (value : T) : Option (Nat × HostStore T) :=
  match s.free with
  | h :: free =>
      if h < s.slots.length then
        some (h, ⟨s.slots.set h (.full value), free, s.live + 1⟩)
      else none
  | [] =>
      let slots := s.slots ++ [.full value]
      some (slots.length - 1, ⟨slots, [], s.live + 1⟩)

def get (s : HostStore T) (handle : Nat) : Option T :=
  match s.slots[handle]? with
  | some (.full value) => some value
  | _ => none

/-- `get_mut`, with what the caller makes of the value. -/
def getMut
    (s : HostStore T)
    (handle : Nat)
    (change : T → T) : Option T × HostStore T :=
  match s.slots[handle]? with
  | some (.full value) =>
      let slots := s.slots.set handle (.full (change value))
      (some value, { s with slots := slots })
  | _ => (none, s)

def contains (s : HostStore T) (handle : Nat) : Bool := (s.get handle).isSome

def isOut (s : HostStore T) (handle : Nat) : Bool :=
  match s.slots[handle]? with
  | some .out => true
  | _ => false

/-- `self.live -= 1`: no answer is the panic of the underflow. -/
def oneLess (live : Nat) : Option Nat :=
  if live = 0 then none else some (live - 1)

def remove
    (s : HostStore T)
    (handle : Nat) : Option (Option T × HostStore T) :=
  match s.slots[handle]? with
  | some (.full value) =>
      (oneLess s.live).map fun live =>
        (some value, ⟨s.slots.set handle .empty, handle :: s.free, live⟩)
  | _ => some (none, s)

def take
    (s : HostStore T)
    (handle : Nat) : Option (Option T × HostStore T) :=
  match s.slots[handle]? with
  | some (.full value) =>
      (oneLess s.live).map fun live =>
        (some value, ⟨s.slots.set handle .out, s.free, live⟩)
  | _ => some (none, s)

def restore (s : HostStore T) (handle : Nat) (value : T) : HostStore T :=
  match s.slots[handle]? with
  | some .out => ⟨s.slots.set handle (.full value), s.free, s.live + 1⟩
  | _ => s

def len (s : HostStore T) : Nat := s.live

/-- `iter_mut`, with what the caller makes of each value. -/
def iterMut (s : HostStore T) (change : Nat → T → T) : HostStore T :=
  { s with slots := s.slots.mapIdx fun i cell => cell.write (change i) }

/-- What a handle names: nothing, outside of the slab. -/
def cell (s : HostStore T) (handle : Nat) : Cell T :=
  s.slots[handle]?.getD .empty

end HostStore

/-! ## Runs -/

/-- What is asked of a store. -/
inductive Op (T : Type)
  | insert (value : T)
  | get (handle : Nat)
  | getMut (handle : Nat) (change : T → T)
  | iterMut (change : Nat → T → T)
  | remove (handle : Nat)
  | take (handle : Nat)
  | restore (handle : Nat) (value : T)

/-- What it answers. -/
inductive Answer (T : Type)
  | handle (handle : Nat)
  | value (value : Option T)
  | done
deriving DecidableEq, Repr

/-- An operation with its answer. -/
abbrev Event (T : Type) := Op T × Answer T

variable {T : Type}

/-- One operation. -/
def perform (s : HostStore T) : Op T → Option (Answer T × HostStore T)
  | .insert value => (s.insert value).map fun r => (.handle r.1, r.2)
  | .get handle => some (.value (s.get handle), s)
  | .getMut handle change =>
      some (.value (s.getMut handle change).1, (s.getMut handle change).2)
  | .iterMut change => some (.done, s.iterMut change)
  | .remove handle => (s.remove handle).map fun r => (.value r.1, r.2)
  | .take handle => (s.take handle).map fun r => (.value r.1, r.2)
  | .restore handle value => some (.done, s.restore handle value)

/-- The operations one after another, with the history of their answers. -/
def run
    (s : HostStore T) : List (Op T) → Option (List (Event T) × HostStore T)
  | [] => some ([], s)
  | op :: ops =>
      (perform s op).bind fun first =>
        (run first.2 ops).map fun rest => ((op, first.1) :: rest.1, rest.2)

/-! ## The book -/

/-- What each handle names. -/
abbrev Book (T : Type) := Nat → Cell T

namespace Book

/-- What an event makes of the cell of a handle. -/
def entry (handle : Nat) (cell : Cell T) : Event T → Cell T
  | (.insert value, .handle h) => if h = handle then .full value else cell
  | (.getMut h change, _) => if h = handle then cell.write change else cell
  | (.iterMut change, _) => cell.write (change handle)
  | (.remove h, .value (some _)) => if h = handle then .empty else cell
  | (.take h, .value (some _)) => if h = handle then .out else cell
  | (.restore h value, _) =>
      match cell with
      | .out => if h = handle then .full value else .out
      | cell => cell
  | _ => cell

/-- The book after an event. -/
def record (book : Book T) (event : Event T) : Book T :=
  fun handle => entry handle (book handle) event

/-- The answers the book allows: a new handle names nothing yet, and the other
operations answer the value that a handle names. -/
def Allows (book : Book T) : Event T → Prop
  | (.insert _, answer) => ∃ h, answer = .handle h ∧ book h = .empty
  | (.get h, answer) => answer = .value (book h).value
  | (.getMut h _, answer) => answer = .value (book h).value
  | (.iterMut _, answer) => answer = .done
  | (.remove h, answer) => answer = .value (book h).value
  | (.take h, answer) => answer = .value (book h).value
  | (.restore _ _, answer) => answer = .done

/-- Every event of a history is one that the book allows. -/
def Follows : Book T → List (Event T) → Prop
  | _, [] => True
  | book, event :: rest =>
      book.Allows event ∧ Follows (book.record event) rest

/-- The book after a history. -/
def after (book : Book T) (history : List (Event T)) : Book T :=
  history.foldl record book

/-- The book of a new store. -/
def blank : Book T := fun _ => .empty

end Book

/-! ## The invariant -/

/-- The free list holds the empty slots, each once, and the counter counts the
full ones. -/
structure Sound (s : HostStore T) : Prop where
  free : ∀ h, h ∈ s.free ↔ s.slots[h]? = some .empty
  once : s.free.Nodup
  live : s.live = s.slots.countP Cell.isFull

namespace HostStore

variable {s : HostStore T} {h : Nat} {slots : List (Cell T)}

theorem sound_new : Sound (new : HostStore T) where
  free := by simp [new]
  once := List.nodup_nil
  live := rfl

theorem get_eq (s : HostStore T) (h : Nat) : s.get h = (s.cell h).value := by
  unfold get cell
  cases s.slots[h]? with
  | none => rfl
  | some cell => cases cell <;> rfl

/-- A cell that is not empty stands in the slab. -/
theorem slot_of_cell {cell : Cell T} (used : cell ≠ .empty) :
    s.cell h = cell ↔ s.slots[h]? = some cell := by
  unfold HostStore.cell
  cases s.slots[h]? with
  | none => simpa using used.symm
  | some c => simp

theorem cell_set (inside : h < s.slots.length) (cell : Cell T) (free live)
    (h' : Nat) :
    (⟨s.slots.set h cell, free, live⟩ : HostStore T).cell h' =
      if h = h' then cell else s.cell h' := by
  unfold HostStore.cell
  by_cases same : h = h'
  · subst same
    simp [inside]
  · simp [same, List.getElem?_set_ne same]

theorem slot_push (slots : List (Cell T)) (cell : Cell T) (h : Nat) :
    (slots ++ [cell])[h]? =
      if h = slots.length then some cell else slots[h]? := by
  rcases Nat.lt_trichotomy h slots.length with less | equal | more
  · rw [List.getElem?_append_left less, if_neg (Nat.ne_of_lt less)]
  · simp [equal]
  · rw [if_neg (Nat.ne_of_gt more),
      List.getElem?_eq_none (by simpa using Nat.succ_le_of_lt more),
      List.getElem?_eq_none (Nat.le_of_lt more)]

/-- Counting after one slot has changed. -/
theorem countP_set_slot
    (slot : slots[h]? = some before)
    (after : Cell T) :
    (slots.set h after).countP Cell.isFull + before.isFull.toNat =
      slots.countP Cell.isFull + after.isFull.toNat := by
  obtain ⟨inside, rfl⟩ := List.getElem?_eq_some_iff.mp slot
  have counted :
      slots[h].isFull = true → 0 < slots.countP Cell.isFull := fun full =>
    List.countP_pos_iff.mpr ⟨_, List.getElem_mem inside, full⟩
  rw [List.countP_set inside]
  cases full : slots[h].isFull with
  | false => cases after.isFull <;> simp
  | true =>
      have positive := counted full
      cases after.isFull <;> simp <;> omega

end HostStore

open HostStore (cell_set slot_push countP_set_slot oneLess)

variable {s : HostStore T} {h : Nat}

/-- A change of one slot keeps the invariant when the free list and the counter
follow it. -/
theorem Sound.setSlot
    (sound : Sound s)
    (slot : s.slots[h]? = some before)
    {free : List Nat}
    {live : Nat}
    (once : free.Nodup)
    (member : h ∈ free ↔ after = .empty)
    (others : ∀ h', h' ≠ h → (h' ∈ free ↔ h' ∈ s.free))
    (counted : live + before.isFull.toNat = s.live + after.isFull.toNat) :
    Sound ⟨s.slots.set h after, free, live⟩ := by
  obtain ⟨inside, _⟩ := List.getElem?_eq_some_iff.mp slot
  refine ⟨fun h' => ?_, once, ?_⟩
  · by_cases same : h' = h
    · subst same
      simpa [inside] using member
    · simpa [List.getElem?_set_ne (Ne.symm same), others h' same] using
        sound.free h'
  · have count := countP_set_slot slot after
    have live_eq := sound.live
    simp only
    omega

/-- A value put on top of the slab. -/
theorem Sound.push
    (sound : Sound s)
    (none_free : s.free = [])
    (value : T) : Sound ⟨s.slots ++ [.full value], [], s.live + 1⟩ := by
  have no_empty : ∀ h : Nat, s.slots[h]? ≠ some Cell.empty := by
    intro h slot
    have mem := (sound.free h).mpr slot
    simp [none_free] at mem
  refine ⟨fun h => ?_, List.nodup_nil, ?_⟩
  · rw [slot_push]
    split
    · simp
    · simpa using no_empty h
  · simp [sound.live, Cell.isFull]

/-! ## One operation -/

/-- `insert` answers a handle that names nothing. -/
theorem insert_spec (sound : Sound s) (value : T) :
    ∃ handle after, s.insert value = some (handle, after) ∧ Sound after ∧
      s.cell handle = .empty ∧
      ∀ h, after.cell h = if handle = h then .full value else s.cell h := by
  unfold HostStore.insert
  cases popped : s.free with
  | cons top free =>
      have slot : s.slots[top]? = some .empty :=
        (sound.free top).mp (by simp [popped])
      obtain ⟨inside, _⟩ := List.getElem?_eq_some_iff.mp slot
      have once := popped ▸ sound.once
      refine ⟨top, _, if_pos inside, ?_, by simp [HostStore.cell, slot],
        cell_set inside _ _ _⟩
      refine sound.setSlot slot (List.nodup_cons.mp once).2 ?_ ?_ rfl
      · simpa using (List.nodup_cons.mp once).1
      · intro h' other
        simp [popped, other]
  | nil =>
      refine ⟨s.slots.length, _, by simp, sound.push popped value,
        by simp [HostStore.cell], fun h => ?_⟩
      simp only [HostStore.cell, slot_push, eq_comm (a := h)]
      split <;> rfl

/-- A full slot is counted. -/
theorem Sound.oneLess
    (sound : Sound s)
    (slot : s.slots[h]? = some (.full value)) :
    oneLess s.live = some (s.live - 1) ∧ 0 < s.live := by
  have positive : 0 < s.live := by
    rw [sound.live]
    exact List.countP_pos_iff.mpr ⟨_, List.mem_of_getElem? slot, rfl⟩
  exact ⟨if_neg (Nat.ne_of_gt positive), positive⟩

theorem remove_spec (sound : Sound s) (handle : Nat) :
    ∃ after, s.remove handle = some ((s.cell handle).value, after) ∧
      Sound after ∧
      ∀ h, after.cell h =
        if handle = h ∧ (s.cell handle).isFull then .empty else s.cell h := by
  unfold HostStore.remove
  rcases slot : s.slots[handle]? with _ | _ | value | _
  case some.full =>
    have inside := (List.getElem?_eq_some_iff.mp slot).1
    obtain ⟨less, positive⟩ := sound.oneLess slot
    have taken : handle ∉ s.free := by simp [sound.free, slot]
    refine ⟨_, by simp [less, HostStore.cell, slot, Cell.value]; rfl, ?_,
      fun h => ?_⟩
    · refine sound.setSlot slot (List.nodup_cons.mpr ⟨taken, sound.once⟩)
        (by simp) (fun h' other => by simp [other]) ?_
      simp [Cell.isFull]
      omega
    · rw [cell_set inside]
      simp [HostStore.cell, slot, Cell.isFull]
  all_goals exact ⟨s, by simp [HostStore.cell, slot, Cell.value], sound,
    fun h => by simp [HostStore.cell, slot, Cell.isFull]⟩

theorem take_spec (sound : Sound s) (handle : Nat) :
    ∃ after, s.take handle = some ((s.cell handle).value, after) ∧
      Sound after ∧
      ∀ h, after.cell h =
        if handle = h ∧ (s.cell handle).isFull then .out else s.cell h := by
  unfold HostStore.take
  rcases slot : s.slots[handle]? with _ | _ | value | _
  case some.full =>
    have inside := (List.getElem?_eq_some_iff.mp slot).1
    obtain ⟨less, positive⟩ := sound.oneLess slot
    have taken : handle ∉ s.free := by simp [sound.free, slot]
    refine ⟨_, by simp [less, HostStore.cell, slot, Cell.value]; rfl, ?_,
      fun h => ?_⟩
    · refine sound.setSlot slot sound.once (by simp [taken])
        (fun _ _ => Iff.rfl) ?_
      simp [Cell.isFull]
      omega
    · rw [cell_set inside]
      simp [HostStore.cell, slot, Cell.isFull]
  all_goals exact ⟨s, by simp [HostStore.cell, slot, Cell.value], sound,
    fun h => by simp [HostStore.cell, slot, Cell.isFull]⟩

/-- A value is put back where it is out, and dropped elsewhere. -/
theorem restore_spec (sound : Sound s) (handle : Nat) (value : T) :
    Sound (s.restore handle value) ∧
      (s.cell handle ≠ .out → s.restore handle value = s) ∧
      (s.restore handle value).cell =
        Book.record s.cell (.restore handle value, .done) := by
  unfold HostStore.restore
  rcases slot : s.slots[handle]? with _ | _ | _ | _
  case some.out =>
    have inside := (List.getElem?_eq_some_iff.mp slot).1
    have reserved : handle ∉ s.free := by simp [sound.free, slot]
    refine ⟨?_, by simp [HostStore.cell, slot], funext fun h => ?_⟩
    · exact sound.setSlot slot sound.once (by simp [reserved])
        (fun _ _ => Iff.rfl) (by simp [Cell.isFull])
    · rw [cell_set inside]
      by_cases same : handle = h
      · simp [← same, Book.record, Book.entry, HostStore.cell, slot]
      · cases named : s.cell h <;> simp [Book.record, Book.entry, named, same]
  all_goals
    refine ⟨sound, fun _ => rfl, funext fun h => ?_⟩
    by_cases same : handle = h
    · simp [← same, Book.record, Book.entry, HostStore.cell, slot]
    · cases named : s.cell h <;> simp [Book.record, Book.entry, named, same]

theorem getMut_spec (sound : Sound s) (handle : Nat) (change : T → T) :
    (s.getMut handle change).1 = (s.cell handle).value ∧
      Sound (s.getMut handle change).2 ∧
      ∀ h, (s.getMut handle change).2.cell h =
        if handle = h then (s.cell h).write change else s.cell h := by
  unfold HostStore.getMut
  rcases slot : s.slots[handle]? with _ | _ | value | _
  case some.full =>
    have inside := (List.getElem?_eq_some_iff.mp slot).1
    have reserved : handle ∉ s.free := by simp [sound.free, slot]
    refine ⟨by simp [HostStore.cell, slot, Cell.value], ?_, fun h => ?_⟩
    · exact sound.setSlot slot sound.once (by simp [reserved])
        (fun _ _ => Iff.rfl) (by simp [Cell.isFull])
    · simp only [cell_set inside]
      by_cases same : handle = h
      · simp [← same, HostStore.cell, slot, Cell.write]
      · simp [same]
  all_goals
    refine ⟨by simp [HostStore.cell, slot, Cell.value], sound, fun h => ?_⟩
    by_cases same : handle = h
    · simp [← same, HostStore.cell, slot, Cell.write]
    · simp [same]

theorem iterMut_spec (sound : Sound s) (change : Nat → T → T) :
    Sound (s.iterMut change) ∧
      ∀ h, (s.iterMut change).cell h = (s.cell h).write (change h) := by
  refine ⟨⟨fun h => ?_, sound.once, ?_⟩, fun h => ?_⟩
  · rw [show (s.iterMut change).free = s.free from rfl, sound.free]
    cases slot : s.slots[h]? <;> simp [HostStore.iterMut, slot]
  · have same : ∀ (slots : List (Cell T)) (change : Nat → T → T),
        (slots.mapIdx fun i cell => cell.write (change i)).countP Cell.isFull =
          slots.countP Cell.isFull := by
      intro slots
      induction slots with
      | nil => exact fun _ => rfl
      | cons cell rest ih =>
          intro change
          simp [List.mapIdx_cons, List.countP_cons, ih fun i => change (i + 1)]
    simp [HostStore.iterMut, sound.live, same]
  · cases slot : s.slots[h]? <;> simp [HostStore.iterMut, HostStore.cell, slot]

/-- Every operation is answered, as the book allows, and recorded. -/
theorem perform_spec (sound : Sound s) (op : Op T) :
    ∃ answer after, perform s op = some (answer, after) ∧ Sound after ∧
      Book.Allows s.cell (op, answer) ∧
      after.cell = Book.record s.cell (op, answer) := by
  cases op with
  | insert value =>
      obtain ⟨handle, after, answered, kept, fresh, cells⟩ :=
        insert_spec sound value
      exact ⟨.handle handle, after, by simp [perform, answered], kept,
        ⟨handle, rfl, fresh⟩, funext cells⟩
  | get handle =>
      exact ⟨_, s, rfl, sound, by simp [Book.Allows, HostStore.get_eq], rfl⟩
  | getMut handle change =>
      obtain ⟨answered, kept, cells⟩ := getMut_spec sound handle change
      exact ⟨_, _, rfl, kept, by simp [Book.Allows, answered], funext cells⟩
  | iterMut change =>
      obtain ⟨kept, cells⟩ := iterMut_spec sound change
      exact ⟨_, _, rfl, kept, rfl, funext cells⟩
  | remove handle =>
      obtain ⟨after, answered, kept, cells⟩ := remove_spec sound handle
      refine ⟨_, after, by simp [perform, answered], kept, rfl, ?_⟩
      funext h
      rw [cells]
      cases named : s.cell handle <;>
        simp [Book.record, Book.entry, Cell.value, Cell.isFull]
  | take handle =>
      obtain ⟨after, answered, kept, cells⟩ := take_spec sound handle
      refine ⟨_, after, by simp [perform, answered], kept, rfl, ?_⟩
      funext h
      rw [cells]
      cases named : s.cell handle <;>
        simp [Book.record, Book.entry, Cell.value, Cell.isFull]
  | restore handle value =>
      obtain ⟨kept, _, cells⟩ := restore_spec sound handle value
      exact ⟨.done, _, rfl, kept, rfl, cells⟩

/-- A run of the store is one of the book. -/
theorem run_spec (sound : Sound s) (ops : List (Op T)) :
    ∃ history after, run s ops = some (history, after) ∧ Sound after ∧
      history.map Prod.fst = ops ∧ Book.Follows s.cell history ∧
      after.cell = Book.after s.cell history := by
  induction ops generalizing s with
  | nil => exact ⟨[], s, rfl, sound, rfl, trivial, rfl⟩
  | cons op ops ih =>
      obtain ⟨answer, next, performed, kept, allowed, recorded⟩ :=
        perform_spec sound op
      obtain ⟨history, after, ran, last, asked, follows, cells⟩ := ih kept
      refine ⟨(op, answer) :: history, after, ?_, last, by simp [asked],
        ⟨allowed, recorded ▸ follows⟩, ?_⟩
      · simp [run, performed, ran]
      · rw [cells, recorded]
        rfl

/-! ## What the book allows -/

/-- The entry of a handle was removed. -/
def Removed (h : Nat) (events : List (Event T)) : Prop :=
  ∃ value, (.remove h, .value (some value)) ∈ events

/-- A value was given back for a handle. -/
def Restored (h : Nat) (events : List (Event T)) : Prop :=
  ∃ value, (.restore h value, .done) ∈ events

def RestoredThenRemoved (h : Nat) (events : List (Event T)) : Prop :=
  ∃ early value late,
    events = early ++ (.restore h value, .done) :: late ∧ Removed h late

namespace Book

variable {book : Book T} {event : Event T} {history early late : List (Event T)}

@[simp] theorem after_append :
    book.after (early ++ late) = (book.after early).after late :=
  List.foldl_append

@[simp] theorem after_cons :
    book.after (event :: late) = (book.record event).after late := rfl

theorem follows_append :
    book.Follows (early ++ late) ↔
      book.Follows early ∧ (book.after early).Follows late := by
  induction early generalizing book with
  | nil => simp [Follows, after]
  | cons event early ih => simp [Follows, ih, and_assoc]

/-- Only a removal empties the cell of a handle. -/
theorem removed_of_record
    (used : book h ≠ .empty)
    (empty : book.record event h = .empty) :
    ∃ value, event = (.remove h, .value (some value)) := by
  unfold record entry at empty
  split at empty
  case h_4 h' value =>
    by_cases same : h' = h
    · exact ⟨value, by rw [same]⟩
    · exact absurd (by simpa [same] using empty) used
  all_goals grind [Cell.write_eq_empty]

/-- Only a value given back ends a loan. -/
theorem restored_of_record
    (lent : book h = .out)
    (allowed : book.Allows event)
    (ended : book.record event h ≠ .out) :
    ∃ value, event = (.restore h value, .done) := by
  obtain ⟨op, answer⟩ := event
  simp only [record, lent] at ended
  unfold entry at ended
  split at ended <;> simp_all [Cell.write, Allows, Cell.value]

theorem used_of_restore
    (lent : book h = .out) :
    book.record (.restore h value, .done) h ≠ .empty := by
  simp [record, entry, lent]

/-- Between a used and an empty cell stands a removal. -/
theorem removed_between
    (used : book h ≠ .empty)
    (empty : book.after history h = .empty) : Removed h history := by
  induction history generalizing book with
  | nil => exact absurd empty used
  | cons event rest ih =>
      by_cases next : book.record event h = .empty
      · obtain ⟨value, rfl⟩ := removed_of_record used next
        exact ⟨value, List.mem_cons_self ..⟩
      · obtain ⟨value, mem⟩ := ih next empty
        exact ⟨value, List.mem_cons_of_mem _ mem⟩

/-- Where a loan has ended the value was given back. -/
theorem restored_between
    (lent : book h = .out)
    (follows : book.Follows history)
    (ended : book.after history h ≠ .out) :
    ∃ early value late,
      history = early ++ (.restore h value, .done) :: late ∧
        book.after early h = .out := by
  induction history generalizing book with
  | nil => exact absurd lent ended
  | cons event rest ih =>
      obtain ⟨allowed, follows⟩ := follows
      by_cases next : book.record event h = .out
      · obtain ⟨early, value, late, rfl, still⟩ := ih next follows ended
        exact ⟨event :: early, value, late, rfl, still⟩
      · obtain ⟨value, rfl⟩ := restored_of_record lent allowed next
        exact ⟨[], value, rest, rfl, lent⟩

end Book

/-! ## Handles of a run -/

section Runs

variable {before middle rest : List (Event T)} {value other : T}

/-- What a new handle names is nothing. -/
theorem fresh_of_follows
    (follows : Book.blank.Follows
      (before ++ (.insert value, .handle h) :: rest)) :
    Book.blank.after before h = .empty := by
  obtain ⟨_, ⟨h', same, fresh⟩, _⟩ := Book.follows_append.mp follows
  cases same
  exact fresh

/-- A handle is given out again only after a removal. -/
theorem removed_between_inserts
    (follows : Book.blank.Follows (before ++ (.insert value, .handle h) ::
      (middle ++ (.insert other, .handle h) :: rest))) :
    Removed h middle := by
  have fresh : Book.blank.after
      (before ++ (.insert value, .handle h) :: middle) h = .empty :=
    fresh_of_follows (by simpa using follows)
  have used : (Book.blank.after before).record
      (.insert value, .handle h) h ≠ .empty := by
    simp [Book.record, Book.entry]
  exact Book.removed_between used (by simpa using fresh)

/-- A lent handle is given out again by `insert` only after its value was given
back and then removed. -/
theorem restoredThenRemoved_of_insert
    (follows : Book.blank.Follows (before ++
      (.take h, .value (some value)) ::
        (middle ++ (.insert other, .handle h) :: rest))) :
    RestoredThenRemoved h middle := by
  have fresh : Book.blank.after
      (before ++ (.take h, .value (some value)) :: middle) h = .empty :=
    fresh_of_follows (by simpa using follows)
  obtain ⟨_, _, later⟩ := Book.follows_append.mp follows
  obtain ⟨follows, _⟩ := Book.follows_append.mp later
  obtain ⟨early, back, late, rfl, lent⟩ := Book.restored_between (h := h)
    (by simp [Book.record, Book.entry]) follows (by simp_all)
  exact ⟨early, back, late, rfl,
    Book.removed_between (Book.used_of_restore lent) (by simpa using fresh)⟩

/-- A lent value is lent again only after it was given back. -/
theorem restored_of_take
    (follows : Book.blank.Follows (before ++
      (.take h, .value (some value)) ::
        (middle ++ (.take h, .value (some other)) :: rest))) :
    Restored h middle := by
  obtain ⟨_, _, later⟩ := Book.follows_append.mp follows
  obtain ⟨follows, allowed, _⟩ := Book.follows_append.mp later
  obtain ⟨early, back, late, rfl, _⟩ := Book.restored_between (h := h)
    (by simp [Book.record, Book.entry]) follows (fun lent => by
      simp [Book.Allows, lent, Cell.value] at allowed)
  exact ⟨back, by simp⟩

end Runs

/-- No handle is given out twice without a removal in between. -/
def Unique (history : List (Event T)) : Prop :=
  ∀ before h value middle other rest,
    history = before ++ (.insert value, .handle h) ::
      (middle ++ (.insert other, .handle h) :: rest) →
    Removed h middle

/-- A lent entry is neither given to another value before its own was given back
and then removed, nor lent a second time before it was given back. -/
def LentOnce (history : List (Event T)) : Prop :=
  ∀ before h value middle other rest,
    (history = before ++ (.take h, .value (some value)) ::
        (middle ++ (.insert other, .handle h) :: rest) →
      RestoredThenRemoved h middle) ∧
    (history = before ++ (.take h, .value (some value)) ::
        (middle ++ (.take h, .value (some other)) :: rest) →
      Restored h middle)

/-- Whatever is asked of a new store, it answers.  Handles are unique while they
are in use, the values are the ones the book holds after the history, a value
is given back only to an entry that is out, the free list holds the empty slots
once each and the length is the number of full ones. -/
theorem handles_in_use (ops : List (Op T)) :
    ∃ history s, run .new ops = some (history, s) ∧
      history.map Prod.fst = ops ∧
      Unique history ∧
      LentOnce history ∧
      Book.blank.Follows history ∧
      (∀ h, s.get h = (Book.blank.after history h).value) ∧
      (∀ h change,
        (s.getMut h change).1 = (Book.blank.after history h).value) ∧
      (∀ h value, s.slots[h]? ≠ some .out → s.restore h value = s) ∧
      (∀ h, h ∈ s.free ↔ s.slots[h]? = some .empty) ∧
      s.free.Nodup ∧
      s.len = s.slots.countP Cell.isFull := by
  obtain ⟨history, s, ran, sound, asked, follows, cells⟩ :=
    run_spec HostStore.sound_new ops
  have blank : (HostStore.new : HostStore T).cell = Book.blank := rfl
  rw [blank] at follows cells
  refine ⟨history, s, ran, asked, ?unique, ?lent, follows, fun h => ?get,
    fun h change => ?getMut, fun h value kept => ?restore, sound.free,
    sound.once, sound.live⟩
  case unique =>
    rintro before h value middle other rest rfl
    exact removed_between_inserts follows
  case lent =>
    intro before h value middle other rest
    constructor
    · rintro rfl
      exact restoredThenRemoved_of_insert follows
    · rintro rfl
      exact restored_of_take follows
  case get => rw [HostStore.get_eq, cells]
  case getMut => rw [(getMut_spec sound h change).1, cells]
  case restore =>
    refine (restore_spec sound h value).2.1 fun out => kept ?_
    exact (HostStore.slot_of_cell (by simp)).mp out

/-- A value that was given back is lent again although nothing was removed. -/
theorem lent_again :
    ∃ (history before middle : List (Event Nat)) (s : HostStore Nat),
      run .new [.insert 7, .take 0, .restore 0 7, .take 0] =
        some (history, s) ∧
      history = before ++ (.take 0, .value (some 7)) ::
        (middle ++ [(.take 0, .value (some 7))]) ∧
      ¬ RestoredThenRemoved 0 middle := by
  refine ⟨_, [(.insert 7, .handle 0)], [(.restore 0 7, .done)], _, rfl, rfl,
    ?_⟩
  rintro ⟨early, value, late, split, removed, mem⟩
  have mem : (.remove 0, .value (some removed)) ∈
      ([(.restore 0 7, .done)] : List (Event Nat)) :=
    split ▸ List.mem_append_right early (List.mem_cons_of_mem _ mem)
  simp at mem

end SabiRuby.Hosts
