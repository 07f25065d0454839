import SabiRuby.Elements.Rules

/-!
# Elements by index follow their rules

Every method raises or follows its rule on the integers, `[]=` and `values_at`
where the machine has room for what they ask.
-/

namespace SabiRuby.Elements

open Library

variable {α : Type} (nil : α) {host : Host} (ary : Ary α host)
  (count : Bounds → Int → Nat)

/-! ## Vectors -/

theorem Ary.isLength : IsLength ary.list.length := by
  have le := ary.length_le
  have limit := host.limit_le
  unfold IsLength
  omega

theorem padded_eq {n : Nat} (le : n ≤ host.limit) (list : List α) :
    padded host nil list n = some (padTo nil list n) := by
  unfold padded resize
  by_cases short : list.length < n
  · rw [if_pos short, if_pos le, List.take_of_length_le short.le]
    rfl
  · rw [if_neg short, padTo_of_le nil (by omega)]

theorem usize_eq {n : Nat} (lt : n < 18446744073709551616) :
    usize n = some n :=
  if_pos lt

theorem slice_eq
    (le : i ≤ j)
    (jLe : j ≤ list.length) :
    slice list i j = some ((list.drop i).take (j - i)) := by
  rw [slice, if_pos ⟨le, jLe⟩, List.drop_take]

theorem place_held {len : Int} (i : I64) (isLength : IsLength len) :
    IsI64 (place len i.1) := by
  have held := i.2
  unfold IsI64 at held ⊢
  unfold IsLength at isLength
  unfold place
  split_ifs <;> omega

theorem first_held (r : Bounds) {len : Int} (isLength : IsLength len) :
    IsI64 (r.first len) :=
  place_held ⟨r.given, given_held r⟩ isLength

theorem asUsize_ofNat {n : Nat} (lt : n < 18446744073709551616) :
    asUsize n = n := by
  unfold asUsize
  omega

/-! ## `Array#[]` -/

theorem elementAt_eq {i : Int} (held : IsI64 i) (list : List α) :
    (if i < 0 then nil else list.getD (asUsize i) nil) =
      elementAt nil list i := by
  unfold elementAt
  by_cases negative : i < 0
  · rw [if_pos negative, if_neg (by omega)]
  · rw [if_neg negative, if_pos (by omega), asUsize_of_nonneg (by omega) held]

theorem aref_exact (i : I64) : (Call.aref i).Exact nil count ary := by
  have length := ary.isLength
  change Follows _ _ (aref nil ary i)
  unfold aref
  rw [countFromBack_eq i length]
  simp only [Option.bind_eq_bind, Option.bind_some, done,
    elementAt_eq nil (place_held i length)]
  rfl

/-- Where a window up to a place ends at the latest. -/
theorem clipped_eq {i n len : Int} (nonneg : 0 ≤ n) (within : i ≤ len) :
    min n (len - i) = max 0 (min (i + n) len - i) := by
  rcases Int.le_total n (len - i) with le | le
  · rw [min_eq_left le, min_eq_left (by omega), max_eq_right (by omega)]
    omega
  · rw [min_eq_right le, min_eq_right (by omega), max_eq_right (by omega)]

/-- A window is read up to the end of the list at the latest. -/
theorem take_clipped
    {n : Nat}
    (inside : 0 ≤ i ∧ i ≤ list.length)
    (counted : (n : Int) = max 0 (min stop list.length - i)) :
    (list.drop i.toNat).take n = window list i (stop - i).toNat := by
  rw [window]
  rcases Int.le_total stop list.length with le | le
  · rw [min_eq_left le] at counted
    rw [show n = (stop - i).toNat by omega]
  · rw [min_eq_right le, max_eq_right (by omega)] at counted
    have length : (list.drop i.toNat).length = n := by
      rw [List.length_drop]
      omega
    rw [List.take_of_length_le length.le,
      List.take_of_length_le (by rw [length]; omega)]

/-- A clipped Range is read as a window. -/
theorem arefRange_exact (r : Bounds) :
    (Call.arefRange r).Exact nil count ary := by
  have length := ary.isLength
  have held := first_held r length
  change Follows _ _ (arefRange nil ary r)
  unfold arefRange
  rw [rangeBegLen_clipped r length]
  simp only [Call.rule]
  generalize isFirst : r.first ary.list.length = i at held ⊢
  unfold IsLength at length
  by_cases inside : 0 ≤ i ∧ i ≤ ary.list.length
  · obtain ⟨n, isLen⟩ :
        ∃ n : Nat, (n : Int) = max 0 (min (r.stop ary.list.length)
          ary.list.length - i) := ⟨_, Int.toNat_of_nonneg (le_max_left _ _)⟩
    rw [if_pos inside, if_pos inside, ← isLen]
    simp only [Option.bind_eq_bind, Option.bind_some]
    rw [asUsize_of_nonneg inside.1 held, asUsize_ofNat (by omega),
      min_eq_left (by omega), usize_eq (by omega)]
    simp only [Option.bind_some]
    rw [slice_eq (by omega) (by omega)]
    apply congrArg fun items => some (Answer.list items, ary.list)
    have cut : min (i.toNat + n) ary.list.length - i.toNat = n := by omega
    rw [Bounds.count, isFirst, cut]
    exact (take_clipped inside isLen).symm
  · rw [if_neg inside, if_neg inside]
    rfl

theorem arefPair_exact (i n : I64) :
    (Call.arefPair i n).Exact nil count ary := by
  have length := ary.isLength
  have held := place_held i length
  have nHeld := n.2
  change Follows _ _ (arefPair nil ary i n)
  unfold arefPair
  rw [countFromBack_eq i length]
  simp only [Call.rule, Option.bind_eq_bind, Option.bind_some]
  generalize place ary.list.length i.1 = i at held ⊢
  unfold IsLength at length
  unfold IsI64 at nHeld
  by_cases inside : 0 ≤ i ∧ i ≤ ary.list.length ∧ 0 ≤ n.1
  · have room : i64 (ary.list.length - i) = some (ary.list.length - i) :=
      i64_eq_some_iff.mpr ⟨by unfold IsI64; omega, rfl⟩
    have stop : i64 (i + min n.1 (ary.list.length - i)) =
        some (i + min n.1 (ary.list.length - i)) :=
      i64_eq_some_iff.mpr ⟨by unfold IsI64; omega, rfl⟩
    rw [if_pos inside, if_neg (by omega), room]
    simp only [Option.bind_some, stop]
    rw [asUsize_of_nonneg inside.1 held,
      asUsize_of_nonneg (by omega) (by unfold IsI64; omega),
      slice_eq (by omega) (by omega)]
    apply congrArg fun items => some (Answer.list items, ary.list)
    have least : 0 ≤ min n.1 (ary.list.length - i) :=
      le_min inside.2.2 (by omega)
    have cut : (i + min n.1 (ary.list.length - i)).toNat - i.toNat =
        (min n.1 (ary.list.length - i)).toNat := by
      rw [Int.toNat_add inside.1 least, Nat.add_sub_cancel_left]
    have whole : i + n.1 - i = n.1 := add_sub_cancel_left i n.1
    have clipped := take_clipped ⟨inside.1, inside.2.1⟩
      ((Int.toNat_of_nonneg least).trans (clipped_eq inside.2.2 inside.2.1))
    rw [whole] at clipped
    rw [cut, clipped]
  · rw [if_neg inside, if_pos (by omega)]
    rfl

/-! ## `Array#[]=` -/

/-- A window is replaced where the host grants the vector. -/
theorem replace_follows
    (val : α)
    (rep : List α)
    (small : i + n < 18446744073709551616)
    (grants : Grants host ary.list.length i n rep.length) :
    Follows ary.list (some (.item val, spliced nil ary.list i n rep))
      (replace nil ary i n val rep) := by
  unfold replace
  by_cases frozen : ary.frozen
  · rw [if_pos frozen]
    rfl
  · rw [if_neg frozen, padded_eq nil grants.1]
    simp only [Option.bind_eq_bind, Option.bind_some, usize_eq small]
    have splices : spliceRange host (padTo nil ary.list i) i
        (min (i + n) (padTo nil ary.list i).length) rep =
          some (spliced nil ary.list i n rep) := by
      have room := grants.2
      have behind : (padTo nil ary.list i).drop
          (min (i + n) (padTo nil ary.list i).length) =
            ary.list.drop (i + n) := by
        rw [← drop_padTo nil ary.list i n]
        rcases Nat.le_total (i + n) (padTo nil ary.list i).length with le | le
        · rw [Nat.min_eq_left le]
        · rw [Nat.min_eq_right le, List.drop_length,
            List.drop_eq_nil_of_le le]
      rw [spliceRange, behind, if_pos, spliced]
      rw [length_padTo]
      omega
    rw [splices]
    rfl

theorem aset_exact
    (i : I64)
    (val : α)
    (fits : (Call.aset i val).Fits ary) :
    (Call.aset i val).Exact nil count ary := by
  have length := ary.isLength
  have held := place_held i length
  have iHeld := i.2
  change Follows _ _ (aset nil ary i val)
  unfold aset
  rw [countFromBack_eq i length]
  simp only [Call.Fits] at fits
  simp only [Call.rule, Option.bind_eq_bind, Option.bind_some]
  have isPlace : place ary.list.length i.1 =
      if i.1 < 0 then i.1 + ary.list.length else i.1 := rfl
  generalize place ary.list.length i.1 = p at held fits isPlace ⊢
  unfold IsLength at length
  by_cases frozen : ary.frozen
  · rw [if_pos frozen]
    rfl
  rw [if_neg frozen]
  by_cases negative : p < 0
  · have index : i64 (p - ary.list.length) = some i.1 := by
      unfold IsI64 at iHeld
      exact i64_eq_some_iff.mpr ⟨by unfold IsI64; omega, by omega⟩
    rw [if_pos negative, index]
    rfl
  · have grants := fits (by omega)
    have limit := host.limit_le
    have room := grants.2
    have inRange : p.toNat < (padTo nil ary.list (p.toNat + 1)).length := by
      rw [length_padTo]
      omega
    rw [if_neg negative, if_pos (by omega), asUsize_of_nonneg (by omega) held,
      usize_eq (by omega)]
    simp only [Option.bind_some]
    rw [padded_eq nil (by omega)]
    simp only [Option.bind_some]
    rw [setAt, if_pos inRange, set_padTo]
    rfl

theorem asetPair_exact
    (i n : I64)
    (val : α)
    (spread : Option (List α))
    (fits : (Call.asetPair i n val spread).Fits ary) :
    (Call.asetPair i n val spread).Exact nil count ary := by
  have length := ary.isLength
  have held := place_held i length
  have nHeld := n.2
  change Follows _ _ (asetPair nil ary i n val spread)
  unfold asetPair
  simp only [Call.Fits] at fits
  simp only [Call.rule]
  by_cases frozen : ary.frozen
  · rw [if_pos frozen]
    rfl
  rw [if_neg frozen]
  by_cases negative : n.1 < 0
  · rw [if_pos negative]
    rfl
  rw [if_neg negative, countFromBack_eq i length,
    indexArgs_eq i n length (by omega)]
  simp only [Option.bind_eq_bind, Option.bind_some]
  have isPlace : place ary.list.length i.1 =
      if i.1 < 0 then i.1 + ary.list.length else i.1 := rfl
  generalize place ary.list.length i.1 = p at held fits isPlace ⊢
  unfold IsLength at length
  by_cases before : p < 0
  · rw [if_neg (by omega), if_pos (by omega)]
    rfl
  · have found : ((if 0 ≤ p ∧ p ≤ ary.list.length then
        some (p.toNat, min n.1.toNat (ary.list.length - p.toNat))
        else none).getD (asUsize i.1, 0)) =
          (p.toNat, min n.1.toNat (ary.list.length - p.toNat)) := by
      by_cases inside : 0 ≤ p ∧ p ≤ ary.list.length
      · rw [if_pos inside]
        rfl
      · have same : i.1 = p := by omega
        rw [if_neg inside, same, Option.getD_none,
          asUsize_of_nonneg (by omega) held, show ary.list.length - p.toNat = 0
            by omega, Nat.min_zero]
    have grants := fits (by omega) (by omega)
    have limit := host.limit_le
    rw [if_pos (by omega), if_neg (by omega), found, ← spliced_min]
    apply replace_follows nil ary val
    · have := grants.1
      omega
    · refine ⟨grants.1, ?_⟩
      have := grants.2
      omega

/-- The end of the Range that `[]=` is given, made exclusive. -/
theorem givenEnd_stop (r : Bounds) {len : Int} (isLength : IsLength len) :
    countFromBack (r.givenEnd (-1, false)).1 len =
      some (r.stop len - if (r.givenEnd (-1, false)).2 then 0 else 1) := by
  unfold Bounds.givenEnd Bounds.stop
  cases r.last with
  | none =>
      rw [countFromBack_eq ⟨-1, by decide⟩ isLength]
      unfold IsLength at isLength
      rw [place, if_pos (by decide)]
      congr 1
      simp
      omega
  | some e =>
      rw [countFromBack_eq e isLength]
      congr 1
      simp

theorem asetRange_exact
    (r : Bounds)
    (val : α)
    (spread : Option (List α))
    (fits : (Call.asetRange r val spread).Fits ary) :
    (Call.asetRange r val spread).Exact nil count ary := by
  have length := ary.isLength
  have held := first_held r length
  have ends := givenEnd_stop r length
  change Follows _ _ (asetRange nil ary r val spread)
  unfold asetRange
  rw [countFromBack_given r length]
  simp only [Call.Fits] at fits
  simp only [Call.rule, Option.bind_eq_bind, Option.bind_some, ends]
  have isCount : r.count ary.list.length =
      (r.stop ary.list.length - r.first ary.list.length).toNat := rfl
  generalize r.first ary.list.length = b at held fits isCount ⊢
  by_cases before : b < 0
  · rw [if_neg (by omega), if_pos before]
    rfl
  · obtain ⟨stopHeld, widthHeld, grants⟩ := fits (by omega)
    have isStop : i64 (r.stop ary.list.length -
        (if (r.givenEnd (-1, false)).2 = true then 0 else 1) +
          (if (r.givenEnd (-1, false)).2 = true then 0 else 1)) =
            some (r.stop ary.list.length) :=
      i64_eq_some_iff.mpr ⟨by rwa [Int.sub_add_cancel],
        Int.sub_add_cancel _ _⟩
    have isWidth : i64 (r.stop ary.list.length - b) =
        some (r.stop ary.list.length - b) :=
      i64_eq_some_iff.mpr ⟨widthHeld, rfl⟩
    have limit := host.limit_le
    have isUsize : asUsize (max (r.stop ary.list.length - b) 0) =
        r.count ary.list.length := by
      unfold IsI64 at widthHeld
      rw [asUsize_of_nonneg (le_max_right _ _) (by unfold IsI64; omega)]
      omega
    rw [if_pos (by omega), if_neg before, isStop]
    simp only [Option.bind_some, isWidth]
    rw [isUsize, asUsize_of_nonneg (by omega) held]
    apply replace_follows nil ary val _ _ grants
    unfold IsI64 at held widthHeld
    omega

/-! ## `slice!` -/

/-- Windows that agree inside the list are taken out alike. -/
theorem takeOut_min (list : List α) (i n : Int) (nonneg : 0 ≤ n) :
    takeOut nil list i (min n (list.length - i)) = takeOut nil list i n := by
  by_cases inside : 0 ≤ i ∧ i ≤ list.length
  · have windows : window list i (min n (list.length - i)).toNat =
        window list i n.toNat := by
      have whole : i + n - i = n := by omega
      have clipped := take_clipped inside
        ((Int.toNat_of_nonneg (le_min nonneg (by omega))).trans
          (clipped_eq nonneg inside.2))
      rw [whole] at clipped
      exact clipped
    have behind : list.drop (i.toNat + (min n (list.length - i)).toNat) =
        list.drop (i.toNat + n.toNat) := by
      rcases Int.le_total n (list.length - i) with le | le
      · rw [min_eq_left le]
      · rw [List.drop_eq_nil_of_le (by omega),
          List.drop_eq_nil_of_le (by omega)]
    rw [takeOut, takeOut, if_pos (by omega), if_pos (by omega), windows, behind]
  · rw [takeOut, takeOut, if_neg (by omega), if_neg (by omega)]

/-- The window is cut to the list before it is taken out. -/
theorem sliceWindow_follows
    {list : List α}
    (i n : I64)
    (isLength : IsLength list.length) :
    Follows list (some (takeOut nil list (place list.length i.1) n.1))
      (sliceWindow nil list i.1 n.1) := by
  have held := place_held i isLength
  have nHeld := n.2
  unfold sliceWindow
  rw [countFromBack_eq i isLength]
  simp only [Option.bind_eq_bind, Option.bind_some]
  generalize place list.length i.1 = p at held ⊢
  unfold IsLength at isLength
  unfold IsI64 at nHeld
  by_cases outside : p < 0 ∨ list.length < p
  · rw [takeOut, if_neg (by omega), if_pos outside]
    rfl
  by_cases negative : n.1 < 0
  · rw [takeOut, if_neg (by omega), if_neg outside, if_pos negative]
    rfl
  by_cases atEnd : (list.length : Int) = p
  · have all : p.toNat = list.length := by omega
    rw [takeOut, if_pos (by omega), if_neg outside, if_neg negative,
      if_pos atEnd, window, all, List.drop_length, List.take_nil,
      List.take_length, List.drop_eq_nil_of_le (by omega), List.append_nil]
    rfl
  · have room : i64 (list.length - p) = some (list.length - p) :=
      i64_eq_some_iff.mpr ⟨by unfold IsI64; omega, rfl⟩
    have cut : (if n.1 > list.length - p then (list.length : Int) - p
        else n.1) = min n.1 (list.length - p) := by
      split_ifs <;> omega
    have stop : i64 (p + min n.1 (list.length - p)) =
        some (p + min n.1 (list.length - p)) :=
      i64_eq_some_iff.mpr ⟨by unfold IsI64; omega, rfl⟩
    rw [if_neg outside, if_neg negative, if_neg atEnd, room,
      ← takeOut_min nil list p n.1 (by omega)]
    simp only [Option.bind_some, cut, stop]
    rw [asUsize_of_nonneg (by omega) held,
      asUsize_of_nonneg (by omega) (by unfold IsI64; omega), drain,
      if_pos (by omega), takeOut, if_pos (by omega), window, List.drop_take,
      show (p + min n.1 (list.length - p)).toNat =
        p.toNat + (min n.1 (list.length - p)).toNat by omega,
      Nat.add_sub_cancel_left]
    rfl

theorem slicePair_exact (i n : I64) :
    (Call.slicePair i n).Exact nil count ary := by
  change Follows _ _ (slicePair nil ary i n)
  unfold slicePair
  by_cases frozen : ary.frozen
  · rw [if_pos frozen]
    rfl
  · rw [if_neg frozen]
    exact sliceWindow_follows nil i n ary.isLength

theorem sliceRange_exact (r : Bounds) :
    (Call.sliceRange r).Exact nil count ary := by
  have length := ary.isLength
  have held := first_held r length
  change Follows _ _ (sliceRange nil ary r)
  unfold sliceRange
  simp only [Call.rule]
  by_cases frozen : ary.frozen
  · rw [if_pos frozen]
    rfl
  rw [if_neg frozen, rangeBegLen_clipped r length]
  have isCount : (r.count ary.list.length : Int) =
      max 0 (r.stop ary.list.length - r.first ary.list.length) :=
    (Int.toNat_eq_max _).trans (max_comm _ _)
  generalize r.first ary.list.length = b at held isCount ⊢
  have lengthMem := length
  unfold IsLength at lengthMem
  by_cases inside : 0 ≤ b ∧ b ≤ ary.list.length
  · have cut : max 0 (min (r.stop ary.list.length) ary.list.length - b) =
        min (r.count ary.list.length : Int) (ary.list.length - b) := by
      omega
    have follows := @sliceWindow_follows _ nil ary.list ⟨b, held⟩
      ⟨min (r.count ary.list.length : Int) (ary.list.length - b),
        by unfold IsI64; omega⟩ length
    rw [if_pos inside]
    simp only [Option.bind_eq_bind, Option.bind_some, cut]
    rw [← takeOut_min nil ary.list b _ (Int.natCast_nonneg _)]
    rwa [place, if_neg (by dsimp only; omega)] at follows
  · rw [if_neg inside, takeOut, if_neg (by omega)]
    rfl

theorem sliceAt_exact (i : I64) : (Call.sliceAt i).Exact nil count ary := by
  have length := ary.isLength
  have held := place_held i length
  change Follows _ _ (sliceAt nil ary i)
  unfold sliceAt
  simp only [Call.rule]
  by_cases frozen : ary.frozen
  · rw [if_pos frozen]
    rfl
  rw [if_neg frozen, countFromBack_eq i length]
  simp only [Option.bind_eq_bind, Option.bind_some]
  generalize place ary.list.length i.1 = p at held ⊢
  by_cases inside : 0 ≤ p ∧ p < ary.list.length
  · have lt : p.toNat < ary.list.length := by omega
    rw [if_pos inside, if_neg (by omega), asUsize_of_nonneg inside.1 held,
      elementAt, if_pos inside.1, List.getD_eq_getElem?_getD, remove,
      List.getElem?_eq_getElem lt]
    rfl
  · rw [if_neg inside, if_pos (by omega)]
    rfl

/-! ## `insert` -/

/-- Values inserted one after another are a window of none replaced. -/
theorem insertAll_eq (vals : List α) :
    ∀ (list : List α) (i : Nat),
      i ≤ list.length →
        list.length + vals.length ≤ host.limit →
          insertAll host list i vals =
            some (list.take i ++ vals ++ list.drop i) := by
  induction vals with
  | nil =>
      intro list i _ _
      rw [insertAll, List.append_nil, List.take_append_drop]
  | cons v vals ih =>
      intro list i le room
      rw [List.length_cons] at room
      have longer : (list.take i ++ v :: list.drop i).length =
          list.length + 1 := by
        rw [List.length_append, List.length_cons, List.length_take,
          List.length_drop]
        omega
      have front : (list.take i ++ v :: list.drop i).take (i + 1) =
          list.take i ++ [v] := by
        rw [List.take_append, List.take_take, List.length_take,
          Nat.min_eq_right (by omega), Nat.min_eq_left le,
          Nat.add_sub_cancel_left]
        rfl
      have behind : (list.take i ++ v :: list.drop i).drop (i + 1) =
          list.drop i := by
        rw [List.drop_append, List.length_take, Nat.min_eq_left le,
          Nat.add_sub_cancel_left,
          List.drop_eq_nil_of_le (by rw [List.length_take]; omega)]
        rfl
      rw [insertAll, insertAt, if_pos ⟨le, by omega⟩]
      simp only [Option.bind_eq_bind, Option.bind_some]
      rw [ih _ _ (by omega) (by omega), front, behind, List.append_assoc,
        List.append_assoc, List.append_assoc]
      rfl

theorem insert_exact
    (i : I64)
    (vals : List α)
    (few : vals.length ≤ 1152921504606846975) :
    (Call.insert i vals few).Exact nil count ary := by
  have length := ary.isLength
  have iHeld := i.2
  change Follows _ _ (insert nil ary i vals)
  unfold insert
  simp only [Call.rule]
  cases vals with
  | nil =>
      rw [if_pos rfl, if_pos List.isEmpty_nil]
      split_ifs <;> rfl
  | cons v rest =>
      obtain ⟨p, isPlace⟩ :
          ∃ p, p = if i.1 < 0 then i.1 + ary.list.length + 1 else i.1 :=
        ⟨_, rfl⟩
      unfold IsLength at length
      unfold IsI64 at iHeld
      have held : IsI64 p := by
        unfold IsI64
        omega
      have counted : insertPlace i.1 ary.list.length = some p := by
        rw [isPlace, insertPlace]
        split_ifs with negative
        · refine i64_bind ?_
          exact i64_eq_some_iff.mpr ⟨by unfold IsI64; omega, rfl⟩
        · rfl
      rw [← isPlace, if_neg (List.cons_ne_nil v rest),
        if_neg (show ¬ (v :: rest).isEmpty = true from Bool.false_ne_true),
        counted]
      simp only [Option.bind_eq_bind, Option.bind_some]
      by_cases before : p < 0
      · have total : i64 (ary.list.length + 1) =
            some ((ary.list.length : Int) + 1) :=
          i64_eq_some_iff.mpr ⟨by unfold IsI64; omega, rfl⟩
        have index : i64 (p - (ary.list.length + 1)) = some i.1 :=
          i64_eq_some_iff.mpr ⟨by unfold IsI64; omega, by omega⟩
        rw [if_neg (by omega), if_pos before, total]
        simp only [Option.bind_some, index]
        rfl
      · have isMax : asUsize (max p ary.list.length) =
            max p.toNat ary.list.length := by
          unfold IsI64 at held
          rw [asUsize_of_nonneg (by omega) (by unfold IsI64; omega)]
          omega
        rw [if_pos (by omega), if_neg before, isMax]
        by_cases frozen : ary.frozen
        · rw [if_pos frozen]
          rfl
        rw [if_neg frozen, usize_eq (by unfold IsI64 at held; omega)]
        simp only [Option.bind_some]
        by_cases big : max p.toNat ary.list.length + (v :: rest).length >
            ARY_MAX_SIZE
        · rw [if_pos big]
          rfl
        have small := big
        unfold ARY_MAX_SIZE at small
        have limit := host.ary_max_le
        have behind := drop_padTo nil ary.list p.toNat 0
        rw [Nat.add_zero] at behind
        rw [if_neg big, asUsize_of_nonneg (by omega) held,
          padded_eq nil (by omega)]
        simp only [Option.bind_some]
        rw [insertAll_eq _ _ _ (by rw [length_padTo]; omega)
          (by rw [length_padTo]; omega), behind]
        rfl

/-! ## `fill` -/

/-- Storing from a place on replaces the window. -/
theorem fillLoop_eq (obj : α) (n : Nat) :
    ∀ (list : List α) (i : Nat),
      i + n ≤ list.length →
        fillLoop obj list i n =
          some (list.take i ++ List.replicate n obj ++ list.drop (i + n)) := by
  induction n with
  | zero =>
      intro list i _
      rw [fillLoop, List.replicate_zero, List.append_nil, Nat.add_zero,
        List.take_append_drop]
  | succ n ih =>
      intro list i le
      have lt : i < list.length := by omega
      have front : (list.set i obj).take (i + 1) = list.take i ++ [obj] := by
        rw [List.set_eq_take_append_cons_drop, if_pos lt, List.take_append,
          List.take_take, List.length_take, Nat.min_eq_right (by omega),
          Nat.min_eq_left lt.le, Nat.add_sub_cancel_left]
        rfl
      have behind : (list.set i obj).drop (i + 1 + n) =
          list.drop (i + (n + 1)) := by
        rw [List.drop_set_of_lt (by omega), show i + 1 + n = i + (n + 1) by
          omega]
      rw [fillLoop, setAt, if_pos lt]
      simp only [Option.bind_eq_bind, Option.bind_some]
      rw [ih _ _ (by rw [List.length_set]; omega), front, behind,
        List.replicate_succ, List.append_assoc, List.append_assoc,
        List.append_assoc]
      rfl

/-- `__fill_exec` raises or fills a window that is not too large. -/
theorem fillExec_follows
    (obj : α)
    (rule : Option (Answer α × List α))
    (startHeld : IsI64 start)
    (fills : 0 ≤ start → 0 ≤ length → start + length ≤ 268435456 →
      rule = some (.receiver, spliced nil ary.list start.toNat length.toNat
        (List.replicate length.toNat obj))) :
    Follows ary.list rule (fillExec nil ary start length obj) := by
  unfold fillExec
  by_cases before : start < 0
  · rw [if_pos before]
    rfl
  by_cases negative : length < 0
  · rw [if_neg before, if_pos negative]
    rfl
  rw [if_neg before, if_neg negative]
  by_cases stopHeld : IsI64 (start + length)
  · have isStop : asUsize (start + length) = start.toNat + length.toNat := by
      rw [asUsize_of_nonneg (by omega) stopHeld]
      omega
    rw [i64, if_pos stopHeld]
    simp only [isStop]
    by_cases big : start.toNat + length.toNat > ARY_MAX_SIZE
    · rw [if_pos big]
      rfl
    have small := big
    unfold ARY_MAX_SIZE at small
    by_cases frozen : ary.frozen
    · rw [if_neg big, if_pos frozen]
      rfl
    have limit := host.ary_max_le
    rw [if_neg big, if_neg frozen, padded_eq nil (by omega),
      asUsize_of_nonneg (by omega) startHeld,
      fills (by omega) (by omega) (by omega)]
    simp only [Option.bind_eq_bind, Option.bind_some, length_padTo]
    by_cases none_ : start.toNat ≥
        max ary.list.length (start.toNat + length.toNat) ∨ length ≤ 0
    · have empty : length.toNat = 0 := by omega
      rw [if_pos none_, empty, List.replicate_zero, spliced_nil, Nat.add_zero]
      rfl
    · rw [if_neg none_, Nat.add_sub_cancel_left,
        fillLoop_eq _ _ _ _ (by rw [length_padTo]; omega), spliced_padTo]
      rfl
  · rw [i64, if_neg stopHeld]
    rfl

/-- `fill` raises or fills the window its arguments are read as. -/
theorem fill_follows
    (at_ : FillPlace)
    (obj : α)
    (parsed : fillParseArg ary.list.length at_ =
      some (at_.window ary.list.length))
    (held : ∀ i n, at_.window ary.list.length = some (i, n) → IsI64 i) :
    (Call.fill at_ obj).Exact nil count ary := by
  change Follows _ _ (fill nil ary at_ obj)
  unfold fill
  rw [parsed]
  simp only [Call.rule, Option.bind_eq_bind, Option.bind_some]
  cases read : at_.window ary.list.length with
  | none => rfl
  | some found =>
      obtain ⟨i, n⟩ := found
      apply fillExec_follows nil ary obj _ (held i n read)
      intro _ nonneg _
      exact if_pos nonneg

theorem fill_exact (at_ : FillPlace) (obj : α) :
    (Call.fill at_ obj).Exact nil count ary := by
  have length := ary.isLength
  have lengthMem := length
  unfold IsLength at lengthMem
  cases at_ with
  | whole =>
      apply fill_follows nil ary count _ obj rfl
      rintro i n ⟨rfl⟩
      decide
  | start i n =>
      have held := place_held i length
      have counted : (if place ary.list.length i.1 < 0 then 0
          else place ary.list.length i.1) =
            max 0 (place ary.list.length i.1) := by
        split_ifs <;> omega
      unfold IsI64 at held
      apply fill_follows nil ary count _ obj
      · simp only [fillParseArg, countFromBack_eq i length, counted,
          Option.bind_eq_bind, Option.bind_some]
        cases n with
        | none =>
            have rest : i64 (ary.list.length -
                max 0 (place ary.list.length i.1)) =
                  some (ary.list.length - max 0 (place ary.list.length i.1)) :=
              i64_eq_some_iff.mpr ⟨by unfold IsI64; omega, rfl⟩
            rw [rest]
            rfl
        | some n =>
            have clipped : (if n.1 < 0 then 0 else n.1) = max 0 n.1 := by
              split_ifs <;> omega
            simp only [clipped]
            rfl
      · intro p m read
        unfold IsI64
        cases n with
        | none =>
            obtain ⟨rfl, -⟩ := Prod.mk.inj (Option.some.inj read)
            omega
        | some n =>
            obtain ⟨rfl, -⟩ := Prod.mk.inj (Option.some.inj read)
            omega
  | range r =>
      have held := first_held r length
      have parsed : fillParseArg ary.list.length (.range r) =
          if 0 ≤ r.first ary.list.length ∧
              r.first ary.list.length ≤ ary.list.length then
            some ((FillPlace.range r).window ary.list.length)
          else fillRangeOut r ary.list.length := by
        simp only [fillParseArg, rangeBegLen_clipped r length,
          Option.bind_eq_bind, Option.bind_some, FillPlace.window]
        split_ifs <;> first | rfl | omega
      by_cases endmost : r.Endmost ∧ r.first ary.list.length > ary.list.length
      · -- one short of the greatest `i64` is still too large
        have tooBig : Follows ary.list
            (Call.rule nil count ary.list (.fill (.range r) obj))
            (fillExec nil ary (r.first ary.list.length)
              (max 0 (9223372036854775807 - r.first ary.list.length)) obj) := by
          apply fillExec_follows nil ary obj _ held
          intro _ _ small
          unfold IsI64 at held
          omega
        change Follows _ _ (fill nil ary (.range r) obj)
        unfold fill
        rw [parsed, if_neg (by omega), fillRangeOut_eq r length,
          if_pos (by omega), if_pos endmost.1]
        exact tooBig
      · apply fill_follows nil ary count _ obj
        · rw [parsed]
          by_cases inside : 0 ≤ r.first ary.list.length ∧
              r.first ary.list.length ≤ ary.list.length
          · rw [if_pos inside]
          · rw [if_neg inside, fillRangeOut_eq r length, FillPlace.window]
            by_cases before : 0 ≤ r.first ary.list.length
            · rw [if_pos before, if_pos before,
                if_neg fun isEndmost => endmost ⟨isEndmost, by omega⟩,
                if_neg (by omega)]
            · rw [if_neg before, if_neg before]
        · intro i n read
          simp only [FillPlace.window] at read
          split_ifs at read <;>
          · obtain ⟨rfl, -⟩ := Prod.mk.inj (Option.some.inj read)
            exact held

/-! ## `values_at` -/

/-- The elements from a place on are gathered where the host grants them. -/
theorem selectLoop_eq (list : List α) (n : Nat) :
    ∀ (j : Nat) (out : List α),
      out.length + n ≤ host.limit →
        selectLoop nil host list j n out =
          some (out ++ (List.range n).map fun k => list.getD (j + k) nil) := by
  induction n with
  | zero =>
      intro j out _
      rw [selectLoop, List.range_zero, List.map_nil, List.append_nil]
  | succ n ih =>
      intro j out room
      rw [selectLoop, push, if_pos (by omega)]
      simp only [Option.bind_eq_bind, Option.bind_some]
      rw [ih _ _ (by rw [List.length_append, List.length_singleton]; omega),
        List.range_succ_eq_map, List.map_cons, List.map_map, List.append_assoc]
      apply congrArg fun rest => some (out ++ rest)
      rw [List.singleton_append, Nat.add_zero]
      apply congrArg (List.cons _)
      apply List.map_congr_left
      intro k _
      rw [Function.comp_apply, Nat.succ_eq_add_one, Nat.add_assoc,
        Nat.add_comm 1 k]

/-- What the loop answers: the elements of the selectors in order, or TypeError
at the first Range that begins before the Array. -/
theorem valuesLoop_eq (list : List α) (isLength : IsLength list.length) :
    ∀ (selectors : List Selector) (out : List α),
      out.length + gathered list.length selectors ≤ host.limit →
        valuesLoop nil host list selectors out =
          match
            selectors.mapM (Selector.items nil Bounds.countWrapped list)
          with
          | none => some (.error .invalidSelector)
          | some items => some (.ok (out ++ items.flatten)) := by
  intro selectors
  induction selectors with
  | nil =>
      intro out _
      rw [valuesLoop, List.mapM_nil]
      exact congrArg (fun rest => some (Except.ok rest))
        (List.append_nil out).symm
  | cons selector rest ih =>
      intro out room
      cases selector with
      | index i =>
          simp only [gathered] at room
          rw [valuesLoop, countFromBack_eq i isLength, List.mapM_cons]
          simp only [Option.bind_eq_bind, Option.bind_some, Selector.items,
            elementAt_eq nil (place_held i isLength)]
          rw [push, if_pos (by omega), Option.bind_some, ih _ (by
            rw [List.length_append, List.length_singleton]
            omega)]
          cases rest.mapM (Selector.items nil Bounds.countWrapped list) with
          | none => rfl
          | some items =>
              exact congrArg (fun out => some (Except.ok out))
                (List.append_assoc _ _ _)
      | range r =>
          have held := first_held r isLength
          simp only [gathered] at room
          rw [valuesLoop, rangeBegLen_whole r isLength, List.mapM_cons]
          simp only [Option.bind_eq_bind, Selector.items]
          by_cases before : 0 ≤ r.first list.length
          · obtain ⟨n, isWidth, isCount⟩ : ∃ n : Int,
                n = (if r.Endmost then 0
                  else max 0 (r.stop list.length - r.first list.length)) ∧
                  n = r.countWrapped list.length := by
              refine ⟨_, rfl, ?_⟩
              unfold Bounds.countWrapped Bounds.count
              split_ifs
              · rfl
              · omega
            have sumHeld : IsI64 (r.first list.length + n) := by
              rw [isWidth]
              unfold IsI64 at held ⊢
              split_ifs with endmost
              · omega
              · have le := stop_le r isLength endmost
                omega
            have stop : i64 (r.first list.length + n) =
                some (r.first list.length + n) :=
              i64_eq_some_iff.mpr ⟨sumHeld, rfl⟩
            have width : asUsize (r.first list.length + n) -
                asUsize (r.first list.length) = r.countWrapped list.length := by
              rw [asUsize_of_nonneg before held,
                asUsize_of_nonneg (by omega) sumHeld]
              omega
            rw [if_pos before] at room
            rw [if_pos before, if_pos before, ← isWidth]
            simp only [Option.bind_some, stop, width]
            rw [asUsize_of_nonneg before held,
              selectLoop_eq nil _ _ _ _ (by omega), Option.bind_some,
              ih _ (by
                rw [List.length_append, List.length_map, List.length_range]
                omega)]
            cases rest.mapM (Selector.items nil Bounds.countWrapped list) with
            | none => rfl
            | some items =>
                exact congrArg (fun out => some (Except.ok out))
                  (List.append_assoc _ _ _)
          · rw [if_neg before, if_neg before]
            rfl

theorem valuesAt_exact
    (selectors : List Selector)
    (fits : (Call.valuesAt selectors).Fits ary) :
    (Call.valuesAt selectors).Exact nil Bounds.countWrapped ary := by
  change Follows _ _ (valuesAt nil ary selectors)
  change gathered _ _ ≤ _ at fits
  unfold valuesAt
  rw [valuesLoop_eq nil ary.list ary.isLength selectors [] (by
    rwa [List.length_nil, Nat.zero_add])]
  simp only [Call.rule]
  cases selectors.mapM (Selector.items nil Bounds.countWrapped ary.list) with
  | none => rfl
  | some items => rfl

/-! ## Every method -/

/-- A host that grants as much as it must, and an Array of two on it. -/
def smallHost : Host where
  limit := 268435456
  ary_max_le := by decide
  limit_le := by decide

def pair : Ary Nat smallHost where
  list := [7, 8]
  frozen := false
  length_le := by decide

/-- The Range from 0 up to the greatest `i64`. -/
def endmost : Bounds where
  beg := some ⟨0, by decide⟩
  last := some ⟨9223372036854775807, by decide⟩
  excl := false

end SabiRuby.Elements
