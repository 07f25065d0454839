import Mathlib.Data.List.Basic
import Mathlib.Data.List.Nodup

/-!
# Insertion-ordered association lists

Pairs of keys and values in the order the keys were first stored.  A key is
looked for by a test on the stored keys; what makes two keys the same is given
by a function to the contents they are compared by.
-/

namespace SabiRuby.Library.AssociationList

variable {α β κ : Type}

/-- The first entry whose key passes the test. -/
def lookup (same : α → Bool) (entries : List (α × β)) : Option Nat :=
  entries.findIdx? fun entry => same entry.1

/-- Give entry `p` another value. -/
def overwrite (p : Nat) (value : β) (entries : List (α × β)) :
    List (α × β) :=
  entries.modify p fun entry => (entry.1, value)

/-- Overwrite the value of the first entry whose key passes the test, or append
a new entry. -/
def store (same : α → Bool) (key : α) (value : β)
    (entries : List (α × β)) : List (α × β) :=
  match lookup same entries with
  | some p => overwrite p value entries
  | none => entries ++ [(key, value)]

/-- Remove the first entry whose key passes the test. -/
def erase (same : α → Bool) (entries : List (α × β)) : List (α × β) :=
  match lookup same entries with
  | some p => entries.eraseIdx p
  | none => entries

/-- Store every entry again in order, a later duplicate giving its value to the
earlier one. -/
def restore (same : α → α → Bool) (entries : List (α × β)) : List (α × β) :=
  entries.foldl (fun kept entry => store (same entry.1) entry.1 entry.2 kept) []

/-- No two keys have the same content. -/
def Distinct (content : α → κ) (entries : List (α × β)) : Prop :=
  (entries.map fun entry => content entry.1).Nodup

variable {entries : List (α × β)}

theorem lookup_lt
    (found : lookup same entries = some p) :
    p < entries.length :=
  (List.findIdx?_eq_some_iff_getElem.mp found).1

/-- The entry that was found passes the test. -/
theorem lookup_same
    (found : lookup same entries = some p)
    (held : entries[p]? = some entry) :
    same entry.1 = true := by
  obtain ⟨bound, holds, _⟩ := List.findIdx?_eq_some_iff_getElem.mp found
  obtain ⟨_, rfl⟩ := List.getElem?_eq_some_iff.mp held
  exact holds

/-- Nothing is found exactly when no key passes the test. -/
theorem lookup_eq_none_iff (same : α → Bool) (entries : List (α × β)) :
    lookup same entries = none ↔ ∀ entry ∈ entries, same entry.1 = false :=
  List.findIdx?_eq_none_iff

/-- Tests that agree on the stored keys find the same entry. -/
theorem lookup_congr
    (agree : ∀ entry ∈ entries, same entry.1 = other entry.1) :
    lookup same entries = lookup other entries := by
  unfold lookup
  induction entries with
  | nil => rfl
  | cons entry entries ih =>
      rw [List.findIdx?_cons, List.findIdx?_cons,
        agree entry List.mem_cons_self, ih]
      intro later member
      exact agree later (List.mem_cons_of_mem _ member)

/-- Overwriting a value keeps the contents of the keys. -/
theorem map_overwrite (content : α → κ) (p : Nat) (value : β)
    (entries : List (α × β)) :
    (overwrite p value entries).map (fun entry => content entry.1) =
      entries.map fun entry => content entry.1 := by
  unfold overwrite
  refine List.ext_getElem? ?_
  intro position
  rw [List.getElem?_map, List.getElem?_map, List.getElem?_modify]
  cases entries[position]? with
  | none => rfl
  | some entry =>
      by_cases same : p = position <;> simp [same]

/-- Overwriting changes no key. -/
theorem exists_of_mem_overwrite
    (member : entry ∈ overwrite p value entries) :
    ∃ old ∈ entries, old.1 = entry.1 := by
  obtain ⟨place, held⟩ := List.mem_iff_getElem?.mp member
  unfold overwrite at held
  rw [List.getElem?_modify, Option.map_eq_map, Option.map_eq_some_iff] at held
  obtain ⟨old, oldHeld, rfl⟩ := held
  refine ⟨old, List.mem_of_getElem? oldHeld, ?_⟩
  split <;> rfl

section Distinct

variable {content : α → κ} {entries : List (α × β)}

/-- Among distinct keys, the entry found for the content of entry `p` is `p`. -/
theorem Distinct.lookup_self [DecidableEq κ]
    (distinct : Distinct content entries)
    (held : entries[p]? = some entry) :
    lookup (fun stored => decide (content stored = content entry.1)) entries =
      some p := by
  obtain ⟨bound, rfl⟩ := List.getElem?_eq_some_iff.mp held
  refine List.findIdx?_eq_some_iff_getElem.mpr ⟨bound, by simp, ?_⟩
  intro earlier before
  have different := List.pairwise_iff_getElem.mp distinct earlier p
    (by simpa using Nat.lt_trans before bound) (by simpa using bound) before
  simpa using different

/-- Among distinct keys, at most one has a content. -/
theorem Distinct.only [DecidableEq κ]
    (distinct : Distinct content entries) (wanted : κ) :
    entries.Pairwise fun first second =>
      decide (content first.1 = wanted) = true →
        decide (content second.1 = wanted) = false := by
  have pairwise : entries.Pairwise fun first second =>
      content first.1 ≠ content second.1 := List.pairwise_map.mp distinct
  refine pairwise.imp ?_
  intro first second different firstSame
  rw [decide_eq_true_eq] at firstSame
  rw [decide_eq_false_iff_not]
  intro secondSame
  exact different (firstSame.trans secondSame.symm)

theorem Distinct.eraseIdx
    (distinct : Distinct content entries) (p : Nat) :
    Distinct content (entries.eraseIdx p) :=
  List.Nodup.sublist ((List.eraseIdx_sublist entries p).map _) distinct

theorem Distinct.overwrite
    (distinct : Distinct content entries) (p : Nat) (value : β) :
    Distinct content (AssociationList.overwrite p value entries) := by
  unfold Distinct
  rw [map_overwrite]
  exact distinct

/-- Storing by content keeps the keys distinct. -/
theorem Distinct.store [DecidableEq κ]
    (distinct : Distinct content entries)
    (test : ∀ entry ∈ entries,
      same entry.1 = decide (content entry.1 = content key))
    (value : β) :
    Distinct content (store same key value entries) := by
  unfold AssociationList.store
  cases search : lookup same entries with
  | some p => exact distinct.overwrite p value
  | none =>
      unfold Distinct at distinct ⊢
      rw [List.map_append, List.map_singleton]
      refine distinct.append (List.nodup_singleton _) ?_
      intro held member last
      obtain ⟨entry, entryMember, rfl⟩ := List.mem_map.mp member
      have missing := (lookup_eq_none_iff same entries).mp search entry
        entryMember
      rw [test entry entryMember, decide_eq_false_iff_not] at missing
      exact missing (List.mem_singleton.mp last)

/-- Entries with distinct keys are stored again as they are. -/
theorem Distinct.restore_eq [DecidableEq κ]
    (distinct : Distinct content entries)
    (test : ∀ key ∈ entries, ∀ entry ∈ entries,
      same key.1 entry.1 = decide (content entry.1 = content key.1)) :
    restore same entries = entries := by
  have onward : ∀ rest kept : List (α × β), kept ++ rest = entries →
      rest.foldl (fun kept entry =>
        AssociationList.store (same entry.1) entry.1 entry.2 kept) kept =
        entries := by
    intro rest
    induction rest with
    | nil =>
        intro kept all
        simpa using all
    | cons entry rest ih =>
        intro kept all
        have isEntry : entry ∈ entries := by simp [← all]
        have missing : lookup (same entry.1) kept = none := by
          rw [lookup_eq_none_iff]
          intro earlier member
          have isEarlier : earlier ∈ entries := by
            rw [← all]
            exact List.mem_append_left _ member
          have pairwise : entries.Pairwise fun first second =>
              content first.1 ≠ content second.1 := List.pairwise_map.mp distinct
          rw [← all, List.pairwise_append] at pairwise
          rw [test entry isEntry earlier isEarlier, decide_eq_false_iff_not]
          exact pairwise.2.2 earlier member entry List.mem_cons_self
        rw [List.foldl_cons, AssociationList.store, missing]
        exact ih (kept ++ [(entry.1, entry.2)]) (by
          simpa using all)
  exact onward entries [] rfl

end Distinct

end SabiRuby.Library.AssociationList
