import Mathlib.Data.List.Lex
import Mathlib.Data.List.Basic
import Mathlib.Order.Basic
import Mathlib.Tactic.Ring

/-!
# Counting through lists of digits

Which digits may follow depends on the digits already read.  Counting up raises
the last digit that can be raised and fills in the least digits after it.  From
the least list on this goes through every list once, in lexicographic order.
-/

namespace SabiRuby.Library

/-- Every digit of a list may follow those before it. -/
def Fits (allowed : List Nat → Nat → Prop) (read : List Nat) :
    List Nat → Prop
  | [] => True
  | d :: ds => allowed read d ∧ Fits allowed (read ++ [d]) ds

/-- Digits in their order: the least that may follow, and the least above
another one. -/
structure Counting where
  first : List Nat → Nat
  higher : List Nat → Nat → Option Nat

namespace Counting

variable (c : Counting)

/-- The least digits after those read. -/
def fill (read : List Nat) : Nat → List Nat
  | 0 => []
  | m + 1 => c.first read :: fill (read ++ [c.first read]) m

/-- Raise the last digit that can be raised, and fill in the least after it. -/
def next (read : List Nat) : List Nat → Option (List Nat)
  | [] => none
  | d :: ds =>
      match next (read ++ [d]) ds with
      | some es => some (d :: es)
      | none =>
          match c.higher read d with
          | some e => some (e :: c.fill (read ++ [e]) ds.length)
          | none => none

/-- The digits are in order, for lists of some length. -/
structure Counts (allowed : List Nat → Nat → Prop) (k : Nat) : Prop where
  first : ∀ read, Fits allowed [] read → read.length < k →
    allowed read (c.first read) ∧ ∀ d, allowed read d → c.first read ≤ d
  raised : ∀ read d, Fits allowed [] read → read.length < k →
    allowed read d → ∀ e, c.higher read d = some e →
      allowed read e ∧ d < e ∧ ∀ f, allowed read f → d < f → e ≤ f
  highest : ∀ read d, Fits allowed [] read → read.length < k →
    allowed read d → c.higher read d = none → ∀ f, allowed read f → f ≤ d

end Counting

section

variable {allowed : List Nat → Nat → Prop}

theorem fits_append (read ds es : List Nat) :
    Fits allowed read (ds ++ es) ↔
      Fits allowed read ds ∧ Fits allowed (read ++ ds) es := by
  induction ds generalizing read with
  | nil => simp [Fits]
  | cons d ds ih =>
      rw [List.cons_append, Fits, Fits, ih, and_assoc,
        List.append_assoc, List.singleton_append]

theorem fits_concat (read : List Nat) (d : Nat) :
    Fits allowed [] (read ++ [d]) ↔ Fits allowed [] read ∧ allowed read d := by
  rw [fits_append]
  simp [Fits]

end

namespace Counting.Counts

variable {c : Counting} {allowed : List Nat → Nat → Prop} {k : Nat}
  (counts : c.Counts allowed k)

include counts

/-- Filling in gives a list that fits, and none is below it. -/
theorem fill_least
    (m : Nat)
    (read : List Nat)
    (fits : Fits allowed [] read)
    (length : read.length + m = k) :
    Fits allowed read (c.fill read m) ∧ (c.fill read m).length = m ∧
      ∀ ds, Fits allowed read ds → ds.length = m → ¬ds < c.fill read m := by
  induction m generalizing read with
  | zero =>
      refine ⟨trivial, rfl, fun ds _ empty => ?_⟩
      rw [List.eq_nil_of_length_eq_zero empty]
      exact lt_irrefl []
  | succ m ih =>
      obtain ⟨may, least⟩ := counts.first read fits (by omega)
      obtain ⟨restFits, restLength, restLeast⟩ :=
        ih (read ++ [c.first read])
          ((fits_concat read _).mpr ⟨fits, may⟩) (by simp; omega)
      refine ⟨⟨may, restFits⟩, by simp [fill, restLength], ?_⟩
      intro ds dsFits dsLength below
      cases ds with
      | nil => simp at dsLength
      | cons d ds =>
          rw [fill, List.cons_lt_cons_iff] at below
          rcases below with lower | ⟨same, below⟩
          · exact absurd (least d dsFits.1) (Nat.not_le_of_lt lower)
          · subst same
            exact restLeast ds dsFits.2 (by simpa using dsLength) below

/-- When counting up ends there is no list above. -/
theorem next_none
    (ds read : List Nat)
    (fits : Fits allowed [] read)
    (length : read.length + ds.length = k)
    (dsFits : Fits allowed read ds)
    (ended : c.next read ds = none)
    (fs : List Nat)
    (fsFits : Fits allowed read fs)
    (same : fs.length = ds.length) : ¬ds < fs := by
  induction ds generalizing read fs with
  | nil =>
      rw [List.eq_nil_of_length_eq_zero same]
      exact lt_irrefl []
  | cons d ds ih =>
      intro above
      cases fs with
      | nil => simp at same
      | cons f fs =>
          rw [List.length_cons] at length same
          rw [next] at ended
          cases inner : c.next (read ++ [d]) ds with
          | some es => simp [inner] at ended
          | none =>
              have top : c.higher read d = none := by
                cases raised : c.higher read d with
                | none => rfl
                | some e => simp [inner, raised] at ended
              have highest := counts.highest read d fits (by omega)
                dsFits.1 top f fsFits.1
              rcases List.cons_lt_cons_iff.mp above with lower | ⟨rfl, tail⟩
              · exact absurd highest (Nat.not_le_of_lt lower)
              · exact ih (read ++ [d])
                  ((fits_concat read d).mpr ⟨fits, dsFits.1⟩)
                  (by simp; omega) dsFits.2 inner fs fsFits.2
                  (Nat.succ_inj.mp same) tail

/-- Counting up gives the next list. -/
theorem next_some
    (ds read es : List Nat)
    (fits : Fits allowed [] read)
    (length : read.length + ds.length = k)
    (dsFits : Fits allowed read ds)
    (found : c.next read ds = some es) :
    Fits allowed read es ∧ es.length = ds.length ∧ ds < es ∧
      ∀ fs, Fits allowed read fs → fs.length = ds.length →
        ds < fs → ¬fs < es := by
  induction ds generalizing read es with
  | nil => simp [next] at found
  | cons d ds ih =>
      rw [List.length_cons] at length
      have readFits : Fits allowed [] (read ++ [d]) :=
        (fits_concat read d).mpr ⟨fits, dsFits.1⟩
      have whole : (read ++ [d]).length + ds.length = k := by
        simp
        omega
      rw [next] at found
      cases inner : c.next (read ++ [d]) ds with
      | some later =>
          simp only [inner, Option.some.injEq] at found
          subst found
          obtain ⟨laterFits, laterLength, above, between⟩ :=
            ih (read ++ [d]) later readFits whole dsFits.2
              inner
          refine ⟨⟨dsFits.1, laterFits⟩, by simp [laterLength],
            List.cons_lt_cons_iff.mpr (Or.inr ⟨rfl, above⟩), ?_⟩
          intro fs fsFits same more under
          cases fs with
          | nil => simp at same
          | cons f fs =>
              rcases List.cons_lt_cons_iff.mp more with lower | ⟨rfl, tail⟩
              · rcases List.cons_lt_cons_iff.mp under with higher | ⟨rfl, _⟩
                · exact absurd higher (Nat.not_lt_of_lt lower)
                · exact absurd lower (lt_irrefl _)
              · rcases List.cons_lt_cons_iff.mp under with higher | ⟨_, under⟩
                · exact absurd higher (lt_irrefl _)
                · exact between fs fsFits.2 (by simpa using same) tail under
      | none =>
          cases top : c.higher read d with
          | none => simp [inner, top] at found
          | some e =>
              simp only [inner, top, Option.some.injEq] at found
              subst found
              obtain ⟨may, raised, least⟩ :=
                counts.raised read d fits (by omega) dsFits.1 e top
              obtain ⟨restFits, restLength, restLeast⟩ :=
                counts.fill_least ds.length (read ++ [e])
                  ((fits_concat read e).mpr ⟨fits, may⟩) (by simp; omega)
              refine ⟨⟨may, restFits⟩, by simp [restLength],
                List.cons_lt_cons_iff.mpr (Or.inl raised), ?_⟩
              intro fs fsFits same more under
              cases fs with
              | nil => simp at same
              | cons f fs =>
                  rw [List.length_cons, List.length_cons] at same
                  rcases List.cons_lt_cons_iff.mp more with lower | ⟨rfl, tail⟩
                  · have above := least f fsFits.1 lower
                    rcases List.cons_lt_cons_iff.mp under with
                      higher | ⟨rfl, under⟩
                    · exact absurd higher (Nat.not_lt_of_le above)
                    · exact restLeast fs fsFits.2 (Nat.succ_inj.mp same) under
                  · exact counts.next_none ds (read ++ [d]) readFits whole
                      dsFits.2 inner fs fsFits.2 (Nat.succ_inj.mp same) tail

end Counting.Counts

/-! ## Whole walks -/

/-- The lists from one on, until counting up ends. -/
inductive Counting.Walk (c : Counting) : List Nat → List (List Nat) → Prop
  | last (ended : c.next [] ds = none) : Walk c ds [ds]
  | more (found : c.next [] ds = some es) (walk : Walk c es rest) :
      Walk c ds (ds :: rest)

/-- The place of a list among the lists with digits below a base. -/
def digitsRank (base : Nat) : List Nat → Nat
  | [] => 0
  | d :: ds => d * base ^ ds.length + digitsRank base ds

theorem digitsRank_lt
    (ds : List Nat)
    (below : ∀ d ∈ ds, d < base) : digitsRank base ds < base ^ ds.length := by
  induction ds with
  | nil => simp [digitsRank]
  | cons d ds ih =>
      rw [List.forall_mem_cons] at below
      have rest := ih below.2
      calc d * base ^ ds.length + digitsRank base ds
          < d * base ^ ds.length + base ^ ds.length := by omega
        _ = (d + 1) * base ^ ds.length := by ring
        _ ≤ base * base ^ ds.length := Nat.mul_le_mul_right _ below.1
        _ = base ^ (d :: ds).length := by rw [List.length_cons, pow_succ']

theorem digitsRank_mono
    (ds es : List Nat)
    (length : es.length = ds.length)
    (dsBelow : ∀ d ∈ ds, d < base)
    (above : ds < es) : digitsRank base ds < digitsRank base es := by
  induction ds generalizing es with
  | nil =>
      rw [List.eq_nil_of_length_eq_zero length] at above
      exact absurd above (lt_irrefl [])
  | cons d ds ih =>
      cases es with
      | nil => simp at length
      | cons e es =>
          rw [List.forall_mem_cons] at dsBelow
          have same : es.length = ds.length := Nat.succ_inj.mp length
          rw [digitsRank, digitsRank, same]
          rcases List.cons_lt_cons_iff.mp above with lower | ⟨rfl, tail⟩
          · have rest := digitsRank_lt ds dsBelow.2
            have step : (d + 1) * base ^ ds.length ≤ e * base ^ ds.length :=
              Nat.mul_le_mul_right _ lower
            rw [Nat.succ_mul] at step
            omega
          · have rest := ih es same dsBelow.2 tail
            omega

namespace Counting.Counts

variable {c : Counting} {allowed : List Nat → Nat → Prop} {k base : Nat}
  (counts : c.Counts allowed k)
  (bounded : ∀ read d, read.length < k → allowed read d → d < base)

include bounded in
theorem fits_bounded
    (ds read : List Nat)
    (length : read.length + ds.length = k)
    (fits : Fits allowed read ds) : ∀ d ∈ ds, d < base := by
  induction ds generalizing read with
  | nil => simp
  | cons d ds ih =>
      rw [List.length_cons] at length
      rw [List.forall_mem_cons]
      exact ⟨bounded read d (by omega) fits.1,
        ih _ (by simp; omega) fits.2⟩

include counts bounded

/-- From every list a walk starts, and it ends. -/
theorem walk_exists
    (ds : List Nat)
    (fits : Fits allowed [] ds)
    (length : ds.length = k) : ∃ walk, c.Walk ds walk := by
  have below := fits_bounded bounded ds [] (by simpa using length) fits
  induction gap : base ^ k - digitsRank base ds using Nat.strong_induction_on
    generalizing ds with
  | _ gap ih =>
      cases found : c.next [] ds with
      | none => exact ⟨[ds], .last found⟩
      | some es =>
          obtain ⟨esFits, esLength, above, _⟩ :=
            counts.next_some ds [] es trivial (by simpa using length) fits found
          have esBelow := fits_bounded bounded es []
            (by simpa using esLength.trans length) esFits
          have lower := digitsRank_mono ds es esLength below above
          have bound := digitsRank_lt es esBelow
          rw [esLength, length] at bound
          obtain ⟨walk, walks⟩ := ih _ (by omega) es esFits
            (esLength.trans length) esBelow rfl
          exact ⟨ds :: walk, .more found walks⟩

omit bounded in
/-- A walk goes up through every list from its start on. -/
theorem walk_complete
    (walks : c.Walk ds walk)
    (fits : Fits allowed [] ds)
    (length : ds.length = k) :
    walk.Pairwise (· < ·) ∧ ∀ es, es ∈ walk ↔
      Fits allowed [] es ∧ es.length = k ∧ ¬es < ds := by
  induction walks with
  | @last ds ended =>
      refine ⟨List.pairwise_singleton _ _, fun es => ?_⟩
      rw [List.mem_singleton]
      constructor
      · rintro rfl
        exact ⟨fits, length, lt_irrefl es⟩
      · rintro ⟨esFits, esLength, notBelow⟩
        have notAbove := counts.next_none ds [] trivial (by simpa using length)
          fits ended es esFits (esLength.trans length.symm)
        exact le_antisymm (not_lt.mp notAbove) (not_lt.mp notBelow)
  | @more ds es rest found walk ih =>
      obtain ⟨esFits, esLength, above, between⟩ :=
        counts.next_some ds [] es trivial (by simpa using length) fits found
      obtain ⟨ascending, complete⟩ :=
        ih esFits (esLength.trans length)
      refine ⟨List.pairwise_cons.mpr ⟨?_, ascending⟩, fun fs => ?_⟩
      · intro fs held
        exact lt_of_lt_of_le above (not_lt.mp ((complete fs).mp held).2.2)
      · rw [List.mem_cons, complete fs]
        constructor
        · rintro (rfl | ⟨fsFits, fsLength, notBelow⟩)
          · exact ⟨fits, length, lt_irrefl fs⟩
          · exact ⟨fsFits, fsLength, fun below => notBelow (below.trans above)⟩
        · rintro ⟨fsFits, fsLength, notBelow⟩
          rcases eq_or_lt_of_le (not_lt.mp notBelow) with same | more
          · exact Or.inl same.symm
          · exact Or.inr ⟨fsFits, fsLength,
              between fs fsFits (fsLength.trans length.symm) more⟩

/-- From the least list a walk goes through all of them. -/
theorem walk_all :
    ∃ walk, c.Walk (c.fill [] k) walk ∧ walk.Pairwise (· < ·) ∧
      ∀ es, es ∈ walk ↔ Fits allowed [] es ∧ es.length = k := by
  obtain ⟨fits, length, least⟩ := counts.fill_least k [] trivial (by simp)
  obtain ⟨walk, walks⟩ := counts.walk_exists bounded _ fits length
  obtain ⟨ascending, complete⟩ := counts.walk_complete walks fits length
  refine ⟨walk, walks, ascending, fun es => ?_⟩
  rw [complete es]
  exact ⟨fun ⟨esFits, esLength, _⟩ => ⟨esFits, esLength⟩,
    fun ⟨esFits, esLength⟩ => ⟨esFits, esLength, least es esFits esLength⟩⟩

end Counting.Counts

end SabiRuby.Library
