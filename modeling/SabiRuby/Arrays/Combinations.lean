import Mathlib.Data.List.Basic

/-!
# The states of the combination iterators

`__combination_init` and `__combination_next`.  The indexes of a state are never
negative and stay far below the end of the machine's integers, so they are
naturals here.
-/

namespace SabiRuby.Arrays

/-- What the first word of a state says. -/
inductive CombMode
  | finished
  | repeatedPermutation
  | repeatedCombination
  | permutation
  | combination
  deriving DecidableEq, Repr

/-- A state of an iterator. -/
structure CombState where
  mode : CombMode
  n : Nat
  k : Nat
  ind : List Nat
  deriving DecidableEq, Repr

theorem length_filter_succ_lt
    {read : List Nat}
    (held : v ∈ read) :
    (read.filter (v + 1 ≤ ·)).length < (read.filter (v ≤ ·)).length := by
  have again : (read.filter (v ≤ ·)).filter (v + 1 ≤ ·) =
      read.filter (v + 1 ≤ ·) := by
    rw [List.filter_filter]
    congr 1
    funext w
    rw [← Bool.decide_and, decide_eq_decide]
    omega
  rw [← again, List.length_filter_lt_length_iff_exists]
  exact ⟨v, List.mem_filter.mpr ⟨held, by simp⟩, by simp⟩

/-- The loop of `adjust_next_permutation_index`: what `v` after the indexes
`read` turns into, the positions from `j` on being done.  A value that is taken
goes up by one, and all positions are looked at again. -/
def adjustLoop (read : List Nat) (v : Nat) : Nat → Nat
  | 0 => v
  | j + 1 =>
      if read[j]? = some v then adjustLoop read (v + 1) read.length
      else adjustLoop read v j
termination_by j => ((read.filter (v ≤ ·)).length, j)
decreasing_by
  · apply Prod.Lex.left
    exact length_filter_succ_lt (List.mem_of_getElem? ‹read[j]? = some v›)
  · apply Prod.Lex.right
    exact Nat.lt_succ_self j

/-- `adjust_next_permutation_index` -/
def adjustNextPermutationIndex (ind : List Nat) (i : Nat) : List Nat :=
  ind.modify i fun v => adjustLoop (ind.take i) v i

/-- `for j in iu + 1..k` -/
def resetAfter (i k : Nat) (reset : List Nat → Nat → List Nat)
    (ind : List Nat) : List Nat :=
  (List.range' (i + 1) (k - (i + 1))).foldl reset ind

/-- The loop that raises an index: from the position below `i` to the first one,
until the raised index is below its limit and those after it are reset. -/
def advance (k : Nat) (raise : List Nat → Nat → List Nat) (limit : Nat → Nat)
    (reset : Nat → List Nat → Nat → List Nat) :
    Nat → List Nat → Option (List Nat)
  | 0, _ => none
  | i + 1, ind =>
      let ind := raise ind i
      if ind.getD i 0 < limit i then some (resetAfter i k (reset i) ind)
      else advance k raise limit reset i ind

/-- `ind[i] += 1` -/
def bump (ind : List Nat) (i : Nat) : List Nat :=
  ind.modify i (· + 1)

/-- The indexes after those of a state, by its mode. -/
def advanced (mode : CombMode) (n k : Nat) (ind : List Nat) :
    Option (List Nat) :=
  match mode with
  | .repeatedPermutation =>
      advance k bump (fun _ => n) (fun _ ind j => ind.set j 0) k ind
  | .repeatedCombination =>
      advance k bump (fun _ => n) (fun i ind j => ind.set j (ind.getD i 0))
        k ind
  | .permutation =>
      advance k (fun ind i => adjustNextPermutationIndex (bump ind i) i)
        (fun _ => n)
        (fun _ ind j => adjustNextPermutationIndex (ind.set j 0) j) k ind
  | .combination =>
      advance k bump (fun i => n - k + i + 1)
        (fun _ ind j => ind.set j (ind.getD (j - 1) 0 + 1)) k ind
  | .finished => none

/-- `__combination_init`, for a mode that exists. -/
def combinationInit (mode : CombMode) (n k : Nat) : Option CombState :=
  if k < 1 ∨ n < 1 then none
  else
    match mode with
    | .repeatedPermutation => some ⟨mode, n, k, List.replicate k 0⟩
    | .repeatedCombination => some ⟨mode, n, k, List.replicate k 0⟩
    | .permutation =>
        if k > n then none else some ⟨mode, n, k, List.range k⟩
    | .combination =>
        if k > n then none else some ⟨mode, n, k, List.range k⟩
    | .finished => none

/-- What `__combination_next` answers. -/
inductive CombAnswer (V : Type)
  | nil
  | list (values : List V)
  /-- "array modified during iteration" -/
  | modified
  deriving DecidableEq, Repr

/-- `__combination_next` of an Array.  An index past its end stops the
machine. -/
def combinationNext (array : List V) (st : CombState) :
    Option (CombAnswer V × CombState) :=
  if st.mode = .finished then some (.nil, st)
  else if array.length ≠ st.n then some (.modified, st)
  else if st.ind.any (st.n ≤ ·) then
    some (.nil, { st with mode := .finished, ind := [] })
  else do
    let cur ← st.ind.mapM (array[·]?)
    match advanced st.mode st.n st.k st.ind with
    | some ind => some (.list cur, { st with ind := ind })
    | none => some (.list cur, { st with mode := .finished, ind := [] })

end SabiRuby.Arrays
