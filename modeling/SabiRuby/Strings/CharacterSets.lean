import SabiRuby.Strings.Translation

/-!
# Places and sets of a pattern

A compiled pattern finds the place of a character in the text of its parts, the
character at a place of it, and the set of the characters of it.
-/

namespace SabiRuby.Strings

/-! ## Places -/

/-- The last place of a character in a text, counted on from `base`. -/
def lastPlace (ch : UInt8) : Int → Int → List UInt8 → Int
  | _, ret, [] => ret
  | base, ret, x :: xs =>
      lastPlace ch (base + 1) (if x = ch then base else ret) xs

section Places

variable {ch : UInt8} {base ret : Int} {xs ys : List UInt8}

theorem lastPlace_append :
    lastPlace ch base ret (xs ++ ys) =
      lastPlace ch (base + xs.length) (lastPlace ch base ret xs) ys := by
  induction xs generalizing base ret with
  | nil => rw [List.length_nil, Int.natCast_zero, Int.add_zero]; rfl
  | cons x xs ih =>
      rw [List.cons_append, lastPlace, ih, lastPlace, List.length_cons,
        Int.natCast_add, Int.natCast_one, Int.add_assoc, Int.add_comm 1]

theorem lastPlace_of_not_mem (absent : ch ∉ xs) :
    lastPlace ch base ret xs = ret := by
  induction xs generalizing base ret with
  | nil => rfl
  | cons x xs ih =>
      rw [List.mem_cons, not_or] at absent
      rw [lastPlace, if_neg (Ne.symm absent.1), ih absent.2]

theorem lastPlace_of_nodup (nodup : xs.Nodup) (inside : ch ∈ xs) :
    lastPlace ch base ret xs = base + xs.idxOf ch := by
  induction xs generalizing base ret with
  | nil => cases inside
  | cons x xs ih =>
      rw [List.nodup_cons] at nodup
      by_cases here : x = ch
      · subst here
        rw [lastPlace, if_pos rfl, lastPlace_of_not_mem nodup.1,
          List.idxOf_cons_self, Int.natCast_zero, Int.add_zero]
      · have later : ch ∈ xs := by
          rcases List.mem_cons.mp inside with same | mem
          · exact absurd same.symm here
          · exact mem
        rw [lastPlace, ih nodup.2 later, List.idxOf_cons_ne _ here,
          Int.natCast_succ, Int.add_assoc, Int.add_comm 1]

theorem lastPlace_neg_iff (nonneg : 0 ≤ base) :
    lastPlace ch base ret xs < 0 ↔ ch ∉ xs ∧ ret < 0 := by
  induction xs generalizing base ret with
  | nil => simp [lastPlace]
  | cons x xs ih =>
      rw [lastPlace, ih (Int.add_nonneg nonneg Int.one_nonneg), List.mem_cons,
        not_or]
      by_cases here : x = ch
      · subst here
        simp [Int.not_lt.mpr nonneg]
      · simp [here, Ne.symm here]

/-- The loop over a stretch of characters. -/
theorem foldl_lastPlace (xs : List UInt8) (base ret : Int) :
    (List.range xs.length).foldl
        (fun ret i => if xs.getD i 0 = ch then base + (i : Int) else ret) ret =
      lastPlace ch base ret xs := by
  induction xs generalizing base ret with
  | nil => rfl
  | cons x xs ih =>
      rw [List.length_cons, List.range_succ_eq_map, List.foldl_cons,
        List.foldl_map, lastPlace, ← ih]
      simp only [List.getD_cons_zero, List.getD_cons_succ, Int.natCast_zero,
        Int.add_zero, Nat.succ_eq_add_one, Int.natCast_add, Int.natCast_one,
        Int.add_assoc, Int.add_comm 1]

/-- The characters from one on, as many as there are. -/
theorem lastPlace_range (m a : Nat) (base ret : Int) (small : a + m ≤ 256) :
    lastPlace ch base ret
        ((List.range m).map fun k => UInt8.ofNat (a + k)) =
      if a ≤ ch.toNat ∧ ch.toNat < a + m then base + ((ch.toNat : Int) - a)
      else ret := by
  induction m generalizing a base ret with
  | zero => rw [if_neg (by omega)]; rfl
  | succ m ih =>
      have shifted : ((List.range m).map Nat.succ).map
          (fun k => UInt8.ofNat (a + k)) =
            (List.range m).map fun k => UInt8.ofNat (a + 1 + k) := by
        rw [List.map_map]
        apply List.map_congr_left
        intro k _
        exact congrArg UInt8.ofNat (by simp only [Nat.succ_eq_add_one]; omega)
      have first : UInt8.ofNat (a + 0) = ch ↔ a = ch.toNat := by
        rw [← UInt8.toNat_inj, UInt8.toNat_ofNat', Nat.add_zero,
          Nat.mod_eq_of_lt (by omega)]
      rw [List.range_succ_eq_map, List.map_cons, shifted, lastPlace,
        ih (a + 1) _ _ (by omega)]
      simp only [first]
      split <;> split <;> omega

end Places

/-! ## Compiled parts -/

theorem asI8_asU8 {v : Int} (nonneg : 0 ≤ v) (small : v < 128) :
    asI8 (asU8 v) = v := by
  obtain ⟨n, rfl⟩ := Int.eq_ofNat_of_zero_le nonneg
  have below : n < 128 := by omega
  have value : (UInt8.ofNat n).toNat = n := by
    rw [UInt8.toNat_ofNat']
    exact Nat.mod_eq_of_lt (by omega)
  rw [asU8_natCast, asI8, value, if_pos below]

section Parts

variable {p : List UInt8} {pat : Pat} {pats : List Pat} {ch : UInt8}

theorem Pat.Proper.patN (proper : pat.Proper p) :
    patN pat = (pat.text p).length := by
  cases pat with
  | inOrder start n =>
      have within := proper.2
      simp only [Strings.patN, Pat.text, List.length_take, List.length_drop]
      omega
  | range c0 c1 n =>
      obtain ⟨_, up, _, rfl⟩ := proper
      simp only [Strings.patN, Pat.text, List.length_map, List.length_range]
      omega

theorem Pat.Proper.text_ne_nil (proper : pat.Proper p) : pat.text p ≠ [] := by
  intro empty
  have length := proper.patN
  rw [empty] at length
  cases pat with
  | inOrder start n =>
      have positive := proper.1
      simp only [Strings.patN, List.length_nil] at length
      omega
  | range c0 c1 n =>
      obtain ⟨_, up, _, rfl⟩ := proper
      simp only [Strings.patN, List.length_nil] at length
      omega

/-- The characters of a stretch. -/
theorem getD_slice (start : Nat) {n i : Nat} (below : i < n) :
    ((p.drop start).take n).getD i 0 = p.getD (start + i) 0 := by
  rw [List.getD_eq_getElem?_getD, List.getD_eq_getElem?_getD,
    List.getElem?_take_of_lt below, List.getElem?_drop]

theorem findIn_eq
    (proper : pat.Proper p)
    (ascii : ch < 128)
    (nSum ret : Int) :
    findIn p (asI8 ch) nSum ret pat = lastPlace ch nSum ret (pat.text p) := by
  cases pat with
  | inOrder start n =>
      obtain ⟨_, within⟩ := proper
      have length : ((p.drop start).take n).length = n := by
        rw [List.length_take, List.length_drop]
        omega
      have loop := @foldl_lastPlace ch ((p.drop start).take n) nSum ret
      rw [length] at loop
      simp only [findIn, Pat.text]
      rw [← loop]
      apply List.foldl_ext
      intro ret i mem
      rw [getD_slice start (List.mem_range.mp mem)]
      simp only [asI8_inj]
  | range c0 c1 n =>
      obtain ⟨low, up, high, _⟩ := proper
      obtain ⟨a, rfl⟩ := Int.eq_ofNat_of_zero_le low
      have numbers : ∀ k : Nat, asU8 ((a : Int) + k) = UInt8.ofNat (a + k) := by
        intro k
        rw [← asU8_natCast, Int.natCast_add]
      have place := @lastPlace_range ch (c1 + 1 - (a : Int)).toNat a nSum ret
        (by omega)
      simp only [findIn, Pat.text, numbers]
      rw [place, asI8_of_ascii ascii]
      split <;> split <;> omega

theorem findFrom_eq
    (proper : ∀ pat ∈ pats, pat.Proper p)
    (ascii : ch < 128)
    (nSum ret : Int) :
    findFrom p (asI8 ch) pats nSum ret =
      lastPlace ch nSum ret (pats.flatMap (Pat.text p)) := by
  induction pats generalizing nSum ret with
  | nil => rfl
  | cons pat pats ih =>
      rw [List.forall_mem_cons] at proper
      rw [findFrom, ih proper.2, findIn_eq proper.1 ascii, proper.1.patN,
        List.flatMap_cons, lastPlace_append]

theorem charAt_eq
    (proper : pat.Proper p)
    (inside : k < (pat.text p).length) :
    charAt p k pat = asI8 (pat.text p)[k] := by
  cases pat with
  | inOrder start n =>
      obtain ⟨_, within⟩ := proper
      simp only [Pat.text, List.length_take, List.length_drop] at inside
      have char := @getD_slice p start n k (by omega)
      rw [List.getD_eq_getElem _ _ (by
        rw [List.length_take, List.length_drop]
        omega)] at char
      simp only [charAt, Int.toNat_natCast, Pat.text, char]
  | range c0 c1 n =>
      obtain ⟨low, up, high, _⟩ := proper
      simp only [Pat.text, List.length_map, List.length_range] at inside
      simp only [charAt, Pat.text, List.getElem_map, List.getElem_range]
      rw [asI8_asU8 (by omega) (by omega)]

theorem lastOf_eq (proper : pat.Proper p) :
    some (lastOf p pat) = (pat.text p).getLast?.map asI8 := by
  have positive := List.length_pos_iff.mpr proper.text_ne_nil
  rw [List.getLast?_eq_getElem?,
    List.getElem?_eq_getElem (Nat.sub_lt positive Nat.one_pos), Option.map_some,
    ← charAt_eq proper]
  have length := proper.patN
  cases pat with
  | inOrder start n =>
      simp only [Strings.patN] at length
      have same : (Pat.inOrder start n |>.text p).length = n := by omega
      simp only [lastOf, charAt, same, Int.toNat_natCast]
  | range c0 c1 n =>
      obtain ⟨low, up, high, rfl⟩ := proper
      simp only [Strings.patN] at length
      apply congrArg some
      simp only [lastOf, charAt]
      omega

/-- The character of the text at a place, or the last one. -/
theorem getFrom_eq
    (proper : ∀ pat ∈ pats, pat.Proper p)
    (some_ : pats ≠ [])
    (after : nSum ≤ nth) :
    ∃ r, getFrom p nth pats nSum = asI8 r ∧
      (pats.flatMap (Pat.text p))[(nth - nSum).toNat]?.or
        (pats.flatMap (Pat.text p)).getLast? = some r := by
  induction pats generalizing nSum with
  | nil => exact absurd rfl some_
  | cons pat pats ih =>
      rw [List.forall_mem_cons] at proper
      have length := proper.1.patN
      rw [getFrom, List.flatMap_cons]
      by_cases inside : nth < nSum + patN pat
      · have place : (nth - nSum).toNat < (pat.text p).length := by omega
        refine ⟨(pat.text p)[(nth - nSum).toNat], ?_, ?_⟩
        · rw [if_pos inside, ← charAt_eq proper.1 place,
            Int.toNat_of_nonneg (Int.sub_nonneg_of_le after)]
        · rw [List.getElem?_append_left place, List.getElem?_eq_getElem place]
          rfl
      · rw [if_neg inside]
        have beyond : (pat.text p).length ≤ (nth - nSum).toNat := by omega
        by_cases last : pats = []
        · subst last
          have final := lastOf_eq proper.1
          rw [if_pos rfl, List.flatMap_nil, List.append_nil,
            List.getElem?_eq_none beyond]
          cases ends : (pat.text p).getLast? with
          | none =>
              rw [ends] at final
              cases final
          | some r =>
              rw [ends, Option.map_some, Option.some.injEq] at final
              exact ⟨r, final, rfl⟩
        · obtain ⟨r, got, char⟩ := ih proper.2 last (Int.not_lt.mp inside)
          refine ⟨r, by rw [if_neg last, got], ?_⟩
          have rest : pats.flatMap (Pat.text p) ≠ [] := by
            obtain ⟨next, more, rfl⟩ := List.exists_cons_of_ne_nil last
            rw [List.flatMap_cons]
            exact List.append_ne_nil_of_left_ne_nil
              (proper.2 next List.mem_cons_self).text_ne_nil _
          rw [List.getElem?_append_right beyond,
            List.getLast?_append_of_ne_nil _ rest,
            show (nth - nSum).toNat - (pat.text p).length =
              (nth - (nSum + patN pat)).toNat by omega]
          exact char

/-- What a compiled part puts into the map. -/
theorem sets_eq (proper : pat.Proper p) :
    sets p ch pat = decide (ch ∈ pat.textBelow p) := by
  rw [Bool.eq_iff_iff, decide_eq_true_iff]
  cases pat with
  | inOrder start n =>
      obtain ⟨_, within⟩ := proper
      have length : ((p.drop start).take n).length = n := by
        rw [List.length_take, List.length_drop]
        omega
      simp only [sets, Pat.textBelow, List.any_eq_true, beq_iff_eq]
      constructor
      · rintro ⟨i, mem, rfl⟩
        have below := List.mem_range.mp mem
        rw [← getD_slice start below, List.getD_eq_getElem _ _
          (by rw [length]; exact below)]
        exact List.getElem_mem _
      · intro mem
        obtain ⟨i, below, same⟩ := List.mem_iff_getElem.mp mem
        have inside := below
        rw [length] at inside
        refine ⟨i, List.mem_range.mpr inside, ?_⟩
        rw [← getD_slice start inside, List.getD_eq_getElem _ _ below, same]
  | range c0 c1 n =>
      simp only [sets, Pat.textBelow, List.any_eq_true, List.mem_map,
        beq_iff_eq]

end Parts

end SabiRuby.Strings
