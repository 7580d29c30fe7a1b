import KwHomework.Subset.Selections
import KwHomework.Subset.SubsetDP

/-!
# What the table counts

The cell in row `i` and column `j` of the table counts the selections of the first `i` entries that
are not empty and have the sum `negative+j`.  The entries are sorted, so that the selections whose
sum lies above the window are extended by entries that are not negative only, and never come back.
-/

namespace KwHomework.SubsetDP

/-! ## Arrays -/

private theorem entries_succ (V : Nat → Int) (i : Nat) :
    entries V (i + 1) = entries V i ++ [V i] := by
  rw [entries, List.range_succ, List.map_append]
  rfl

theorem entries_store {V : Nat → Int} {xs : List Int} {n : Nat} (length : xs.length = n) :
    entries (store V xs) n = xs := by
  refine List.ext_getElem (by simp [entries, length]) fun i _ bound => ?_
  simp [entries, store, List.getElem?_eq_getElem bound]

theorem length_entries (V : Nat → Int) (n : Nat) : (entries V n).length = n := by
  simp [entries]

private theorem entries_take {V : Nat → Int} {i n : Nat} (bound : i ≤ n) :
    (entries V n).take i = entries V i := by
  rw [entries, entries, ← List.map_take, List.take_range, min_eq_left bound]

namespace Window

variable {w : Window} {n i j : Nat} {dp : SumTable}

/-- The first entries as a multiset. -/
def firstOf (w : Window) (i : Nat) : Multiset Int := (entries w.V i : Multiset Int)

theorem firstOf_succ (w : Window) (i : Nat) : w.firstOf (i + 1) = w.V i ::ₘ w.firstOf i := by
  rw [firstOf, entries_succ, ← Multiset.coe_add, add_comm]
  rfl

/-- The first entries are those at the first positions. -/
theorem firstOf_eq_map (w : Window) (i : Nat) :
    w.firstOf i = (Finset.univ : Finset (Fin i)).val.map fun k : Fin i => w.V k := by
  rw [firstOf, Fin.univ_val_map]
  exact congrArg _ (List.ext_getElem (by simp [entries]) fun k _ _ => by simp [entries])

theorem firstOf_le {i' : Nat} (order : i ≤ i') : w.firstOf i ≤ w.firstOf i' := by
  induction order with
  | refl => exact le_refl _
  | step _ induction => exact induction.trans (firstOf_succ w _ ▸ Multiset.le_cons_self _ _)

/-- What the code before the table establishes. -/
structure Ready (w : Window) (n : Nat) : Prop where
  sorted : (entries w.V n).Pairwise (· ≤ ·)
  negative : w.negative = ((w.firstOf n).filter (· < 0)).sum
  nonneg : 0 ≤ w.sum

namespace Ready

variable (ready : w.Ready n)
include ready

theorem le_of_lt {i' : Nat} (order : i < i') (bound : i' < n) : w.V i ≤ w.V i' := by
  have sorted := ready.sorted
  rw [entries, List.pairwise_map] at sorted
  have indexed := List.pairwise_iff_getElem.mp sorted i i' (by simp; omega) (by simpa) order
  simpa using indexed

theorem negative_le {t : Multiset Int} (selected : t ≤ w.firstOf n) : w.negative ≤ t.sum :=
  ready.negative ▸ negative_le_sum selected

theorem negative_nonpos : w.negative ≤ 0 := ready.negative_le (Multiset.zero_le _)

/-- Behind the choice of an entry the rest of the sum is still in the window. -/
theorem rest_inside {t : Multiset Int} {s : Int} (bound : i < n) (selected : t ≤ w.firstOf i)
    (rest : t.sum = s - w.V i) (low : s ≤ w.sum) : w.negative ≤ s - w.V i ∧ s - w.V i ≤ w.sum := by
  refine ⟨rest ▸ ready.negative_le (selected.trans (firstOf_le bound.le)), ?_⟩
  by_cases sign : 0 ≤ w.V i
  · omega
  · -- the entries before a negative one are negative
    have below : t.sum ≤ 0 := sum_nonpos fun x member => by
      obtain ⟨i', before, rfl⟩ := List.mem_map.mp
        (Multiset.mem_coe.mp (Multiset.mem_of_le selected member))
      have order := ready.le_of_lt (List.mem_range.mp before) bound
      omega
    have target := ready.nonneg
    omega

end Ready

/-! ## One row -/

/-- A row counts the selections of the first entries. -/
def Counts (w : Window) (dp : SumTable) (i : Nat) : Prop :=
  ∀ j < w.width, dp i j = properSelections (w.firstOf i) (w.negative + j)

theorem Ready.cell_eq (ready : w.Ready n) (bound : i < n) (counts : w.Counts dp i)
    (column : j < w.width) :
    w.cell (dp i) (w.V i) j = properSelections (w.firstOf (i + 1)) (w.negative + j) := by
  have low : w.negative + j ≤ w.sum := by
    rw [width] at column
    omega
  rw [firstOf_succ, properSelections_cons, cell, counts j column]
  have window : properSelections (w.firstOf i) (w.negative + j - w.V i) =
      if 0 ≤ j - w.V i ∧ j - w.V i < w.sum - w.negative + 1 then dp i (j - w.V i).toNat else 0 := by
    split_ifs with inside
    · rw [counts _ (by rw [width]; omega)]
      congr 1
      omega
    · by_contra positive
      obtain ⟨t, selected, _, rest⟩ := properSelections_pos_iff.mp (Nat.pos_of_ne_zero positive)
      have bounds := ready.rest_inside bound selected rest low
      omega
  rw [window]
  split_ifs <;> rfl

private theorem firstRow_eq (w : Window) {j' : Nat} : ∀ {js : List Nat} {dp : SumTable},
    w.firstRow js dp i j' = if i = 1 ∧ j' ∈ js ∧ w.negative + j' = w.V 0 then 1 else dp i j'
  | [], dp => by simp [firstRow]
  | j :: js, dp => by
      rw [firstRow, firstRow_eq]
      by_cases row : i = 1
      · subst row
        by_cases same : j' = j
        · subst same
          by_cases hit : w.negative + j' = w.V 0 <;> simp [hit, setCell]
        · by_cases hit : w.negative + j = w.V 0 <;> simp [hit, setCell, same]
      · by_cases hit : w.negative + j = w.V 0 <;> simp [hit, row, setCell]

theorem counts_firstRow (w : Window) (row : i < 2) :
    w.Counts (w.firstRow (List.range w.width) fun _ _ => 0) i := by
  intro j column
  simp only [firstRow_eq, List.mem_range]
  obtain rfl | rfl : i = 0 ∨ i = 1 := by omega
  · rw [if_neg (by omega)]
    exact (properSelections_zero _).symm
  · rw [firstOf_succ, properSelections_cons]
    simp [firstOf, entries, column, eq_comm]

/-- The cell that is assigned in the loop over a row. -/
def assigned (w : Window) (dp : SumTable) (i j : Nat) : Nat := w.cell (dp (i - 1)) (w.V (i - 1)) j

/-- The loop over a row is left behind a cell above `UINT_MAX`, and otherwise assigns every cell of
the row from the row before. -/
theorem coreRow_spec (positive : 0 < i) : ∀ (js : List Nat) (dp : SumTable),
    ((w.coreRow i js dp).1 = true ∧ ∃ j ∈ js, uintMax < w.assigned dp i j) ∨
      ((w.coreRow i js dp).1 = false ∧ (∀ j ∈ js, w.assigned dp i j ≤ uintMax) ∧
        ∀ i' j', (w.coreRow i js dp).2 i' j' =
          if i' = i ∧ j' ∈ js then w.assigned dp i j' else dp i' j')
  | [], dp => .inr ⟨rfl, by simp, by simp [coreRow]⟩
  | j :: js, dp => by
      have written : ∀ j' value, w.assigned (setCell dp i j value) i j' = w.assigned dp i j' := by
        intro j' value
        rw [assigned, setCell, Function.update_of_ne (by omega)]
        rfl
      have here : setCell dp i j (w.assigned dp i j) i j = w.assigned dp i j := by simp [setCell]
      have step : w.coreRow i (j :: js) dp =
          if uintMax < setCell dp i j (w.assigned dp i j) i j then
            (true, setCell dp i j (w.assigned dp i j))
          else w.coreRow i js (setCell dp i j (w.assigned dp i j)) := rfl
      rw [step, here]
      by_cases large : uintMax < w.assigned dp i j
      · rw [if_pos large]
        exact .inl ⟨rfl, j, by simp, large⟩
      · rw [if_neg large]
        rcases coreRow_spec positive js (setCell dp i j (w.assigned dp i j)) with
          ⟨left, j', member, exceeds⟩ | ⟨done, small, row⟩
        · exact .inl ⟨left, j', by simp [member], written j' _ ▸ exceeds⟩
        · refine .inr ⟨done, ?_, fun i' j' => ?_⟩
          · intro j' member
            rcases List.mem_cons.mp member with rfl | later
            · omega
            · exact written j' _ ▸ small j' later
          · rw [row, written]
            by_cases later : i' = i ∧ j' ∈ js
            · simp [later]
            · rw [if_neg later]
              by_cases same : i' = i ∧ j' = j
              · obtain ⟨rfl, rfl⟩ := same
                simp [here]
              · rw [if_neg (by rw [List.mem_cons]; tauto)]
                by_cases sameRow : i' = i
                · have other : j' ≠ j := fun sameColumn => same ⟨sameRow, sameColumn⟩
                  simp [setCell, sameRow, other]
                · simp [setCell, sameRow]

/-- Some cell of the rows is above `UINT_MAX`. -/
def Exceeds (w : Window) (rows : List Nat) : Prop :=
  ∃ i ∈ rows, ∃ j < w.width, uintMax < properSelections (w.firstOf i) (w.negative + j)

/-- The loop over the rows is left in a row with a cell above `UINT_MAX`, and otherwise makes every
row count. -/
theorem Ready.core_spec (ready : w.Ready n) : ∀ (k i : Nat) (dp : SumTable), 0 < i → i + k ≤ n + 1 →
    (∀ i' < i, w.Counts dp i') →
    ((w.core (List.range' i k) dp).1 = true ∧ w.Exceeds (List.range' i k)) ∨
      ((w.core (List.range' i k) dp).1 = false ∧ ¬ w.Exceeds (List.range' i k) ∧
        ∀ i' < i + k, w.Counts (w.core (List.range' i k) dp).2 i')
  | 0, i, dp, _, _, counts => .inr ⟨rfl, by simp [Exceeds], counts⟩
  | k + 1, i, dp, positive, bound, counts => by
      have value : ∀ j < w.width, w.assigned dp i j =
          properSelections (w.firstOf i) (w.negative + j) := by
        intro j column
        have cell := ready.cell_eq (i := i - 1) (by omega) (counts (i - 1) (by omega)) column
        rwa [Nat.sub_add_cancel positive] at cell
      rw [List.range'_succ, core]
      rcases coreRow_spec positive (List.range w.width) dp (w := w) with
        ⟨left, j, column, exceeds⟩ | ⟨done, small, row⟩
      · rw [List.mem_range] at column
        refine .inl ⟨?_, i, by simp, j, column, value j column ▸ exceeds⟩
        split
        · rfl
        · simp_all
      · have next : w.Counts (w.coreRow i (List.range w.width) dp).2 i := by
          intro j column
          rw [row, if_pos ⟨rfl, List.mem_range.mpr column⟩, value j column]
        have before : ∀ i' < i + 1, w.Counts (w.coreRow i (List.range w.width) dp).2 i' := by
          intro i' order
          rcases Nat.lt_succ_iff_lt_or_eq.mp order with earlier | rfl
          · intro j column
            rw [row, if_neg (by omega)]
            exact counts i' earlier j column
          · exact next
        have skip : w.Exceeds (i :: List.range' (i + 1) k) ↔ w.Exceeds (List.range' (i + 1) k) := by
          constructor
          · rintro ⟨i', member, j, column, exceeds⟩
            rcases List.mem_cons.mp member with rfl | later
            · rw [← value j column] at exceeds
              exact absurd (small j (List.mem_range.mpr column)) (by omega)
            · exact ⟨i', later, j, column, exceeds⟩
          · rintro ⟨i', later, found⟩
            exact ⟨i', List.mem_cons_of_mem i later, found⟩
        rw [skip, show i + (k + 1) = i + 1 + k by omega]
        have rest := ready.core_spec k (i + 1) (w.coreRow i (List.range w.width) dp).2 (by omega)
          (by omega) before
        split
        · simp_all
        · rename_i dp' result
          rw [result] at rest
          exact rest

/-- The list is answered with `NUMEROUS` exactly if some cell is above `UINT_MAX`, and otherwise the
table counts. -/
theorem Ready.table_spec (ready : w.Ready n) :
    ((w.table n).1 = true ∧ w.Exceeds (List.range' 2 (n - 1))) ∨
      ((w.table n).1 = false ∧ ¬ w.Exceeds (List.range' 2 (n - 1)) ∧
        ∀ i ≤ n, w.Counts (w.table n).2 i) := by
  rcases Nat.eq_zero_or_pos n with rfl | positive
  · refine .inr ⟨rfl, by simp [Exceeds], fun i bound => ?_⟩
    exact counts_firstRow w (by omega)
  · rcases ready.core_spec (n - 1) 2 _ (by omega) (by omega) fun i' order =>
      counts_firstRow w order with left | ⟨done, small, counts⟩
    · exact .inl left
    · exact .inr ⟨done, small, fun i bound => counts i (by omega)⟩

end Window

/-! ## The code before the table -/

/-- Division in C rounds toward zero. -/
theorem tdiv_two_of_nonneg {total : Int} (nonneg : 0 ≤ total) :
    total.tdiv 2 = total / 2 ∧ total.tmod 2 = total % 2 :=
  ⟨Int.tdiv_eq_ediv_of_nonneg nonneg, Int.tmod_eq_emod_of_nonneg nonneg⟩

theorem tdiv_two_of_neg {total : Int} (negative : total < 0) :
    total.tdiv 2 = -(-total / 2) ∧ total.tmod 2 = -(-total % 2) := by
  obtain ⟨quotient, remainder⟩ := tdiv_two_of_nonneg (show 0 ≤ -total by omega)
  rw [Int.neg_tdiv] at quotient
  rw [Int.neg_tmod] at remainder
  omega

theorem tdiv_two_cases (total : Int) :
    0 ≤ total ∧ total.tdiv 2 = total / 2 ∧ total.tmod 2 = total % 2 ∨
      total < 0 ∧ total.tdiv 2 = -(-total / 2) ∧ total.tmod 2 = -(-total % 2) := by
  rcases lt_or_ge total 0 with negative | nonneg
  · exact Or.inr ⟨negative, tdiv_two_of_neg negative⟩
  · exact Or.inl ⟨nonneg, tdiv_two_of_nonneg nonneg⟩

/-- The list as it is summed, with every sign turned if the truncated half is negative. -/
def oriented (xs : List Int) : List Int := if xs.sum.tdiv 2 < 0 then xs.map (- ·) else xs

/-- The entries of the array behind `sort`. -/
def ascending (xs : List Int) : List Int := (oriented xs).insertionSort (· ≤ ·)

theorem ascending_perm (xs : List Int) : (ascending xs).Perm (oriented xs) :=
  List.perm_insertionSort _ _

section Prepare

variable (V : Nat → Int) (n : Nat)

private theorem entries_oriented :
    entries (if (entries V n).sum.tdiv 2 < 0 then store V ((entries V n).map (- ·)) else V) n =
      oriented (entries V n) := by
  rw [oriented]
  split_ifs
  · exact entries_store (by rw [List.length_map, length_entries])
  · rfl

theorem entries_prepare : entries (prepare V n).V n = ascending (entries V n) := by
  rw [ascending, ← entries_oriented]
  exact entries_store (by rw [List.length_insertionSort, length_entries])

theorem sum_prepare : (prepare V n).sum = |(entries V n).sum.tdiv 2| := by
  rw [prepare]
  dsimp only
  split_ifs with negative
  · exact (abs_of_neg negative).symm
  · exact (abs_of_nonneg (not_lt.mp negative)).symm

theorem negative_prepare :
    (prepare V n).negative = ((oriented (entries V n)).filter (· < 0)).sum := by
  rw [← entries_oriented]
  rfl

theorem flip_prepare : (prepare V n).flip = decide ((entries V n).sum.tdiv 2 < 0) := rfl

private theorem firstOf_prepare {i : Nat} (bound : i ≤ n) :
    (prepare V n).firstOf i = ((ascending (entries V n)).take i : Multiset Int) := by
  rw [Window.firstOf, ← entries_take bound, entries_prepare]

theorem firstOf_prepare_self :
    (prepare V n).firstOf n = (oriented (entries V n) : Multiset Int) := by
  rw [Window.firstOf, entries_prepare]
  exact Multiset.coe_eq_coe.mpr (ascending_perm _)

theorem prepare_ready : (prepare V n).Ready n where
  sorted := by
    rw [entries_prepare]
    exact List.pairwise_insertionSort (· ≤ ·) _
  negative := by
    rw [negative_prepare, firstOf_prepare_self, Multiset.filter_coe, Multiset.sum_coe]
  nonneg := by
    rw [sum_prepare]
    exact abs_nonneg _

end Prepare

/-- Some cell of the rows up to `k` is above `UINT_MAX`: the first entries have too many selections
with one sum. -/
def NumerousUpTo (k : Nat) (xs : List Int) : Prop :=
  ∃ i s, 2 ≤ i ∧ i ≤ k ∧ s ≤ |xs.sum.tdiv 2| ∧
    uintMax < properSelections ((ascending xs).take i : Multiset Int) s

/-- Some cell is above `UINT_MAX`: the first entries have too many selections with one sum. -/
def Numerous (xs : List Int) : Prop :=
  ∃ i s, 2 ≤ i ∧ i ≤ xs.length ∧ s ≤ |xs.sum.tdiv 2| ∧
    uintMax < properSelections ((ascending xs).take i : Multiset Int) s

/-- The rows up to `k` are left exactly for such a list. -/
theorem exceeds_upTo_iff (V : Nat → Int) {n k : Nat} (inside : k ≤ n) :
    (prepare V n).Exceeds (List.range' 2 (k - 1)) ↔ NumerousUpTo k (entries V n) := by
  have ready := prepare_ready V n
  rw [NumerousUpTo, ← sum_prepare]
  constructor
  · rintro ⟨i, row, j, column, exceeds⟩
    obtain ⟨low, high⟩ := List.mem_range'_1.mp row
    rw [firstOf_prepare V n (by omega)] at exceeds
    refine ⟨i, _, low, by omega, ?_, exceeds⟩
    rw [Window.width] at column
    omega
  · rintro ⟨i, s, low, high, bound, exceeds⟩
    rw [← firstOf_prepare V n (by omega)] at exceeds
    have above : (prepare V n).negative ≤ s := by
      obtain ⟨t, selected, _, rfl⟩ := properSelections_pos_iff.mp (Nat.zero_lt_of_lt exceeds)
      exact ready.negative_le (selected.trans (Window.firstOf_le (by omega)))
    refine ⟨i, List.mem_range'_1.mpr (by omega), (s - (prepare V n).negative).toNat, ?_, ?_⟩
    · rw [Window.width]
      omega
    · rwa [Int.toNat_of_nonneg (by omega), add_sub_cancel]

/-- The rows are left exactly for such a list. -/
theorem exceeds_iff (V : Nat → Int) (n : Nat) :
    (prepare V n).Exceeds (List.range' 2 (n - 1)) ↔ Numerous (entries V n) := by
  rw [exceeds_upTo_iff V le_rfl, Numerous, length_entries]
  rfl

end KwHomework.SubsetDP
