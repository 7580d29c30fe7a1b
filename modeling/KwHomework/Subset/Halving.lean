import KwHomework.Subset.EqualSplits

/-!
# The printed lists

The search starts at the largest sum up to half of the total that some entries have, and marks
entries with that sum.  When the target sum is 0 the empty set was counted in the target cell, so
that the first comparison marks the last entry whatever it is.
-/

namespace KwHomework.SubsetDP

open Function

namespace Window

variable {w : Window} {n i j : Nat} {dp : SumTable} {sol : Nat → Nat}

/-! ## The search for the sum -/

/-- The search stops at the last column that is not 0. -/
theorem chIdx_eq_some {row : Nat → Nat} {k : Nat} (found : chIdx row k = some j) :
    j ≤ k ∧ row j ≠ 0 ∧ ∀ j' ≤ k, row j' ≠ 0 → j' ≤ j := by
  induction k with
  | zero =>
      rw [chIdx] at found
      split_ifs at found with zero
      obtain rfl := Option.some.inj found
      exact ⟨le_rfl, zero, fun j' bound _ => bound⟩
  | succ k induction =>
      rw [chIdx] at found
      split_ifs at found with zero
      · obtain ⟨bound, positive, last⟩ := induction found
        refine ⟨by omega, positive, fun j' bound' positive' => last j' ?_ positive'⟩
        rcases Nat.le_or_eq_of_le_succ bound' with below | rfl
        · exact below
        · exact absurd zero positive'
      · obtain rfl := Option.some.inj found
        exact ⟨le_rfl, zero, fun j' bound _ => bound⟩

/-- The search runs below the table when the row is 0. -/
theorem chIdx_eq_none {row : Nat → Nat} {k : Nat} :
    chIdx row k = none ↔ ∀ j ≤ k, row j = 0 := by
  induction k with
  | zero => simp [chIdx]
  | succ k induction =>
      rw [chIdx]
      split_ifs with zero
      · rw [induction]
        refine ⟨fun all j bound => ?_, fun all j bound => all j (by omega)⟩
        rcases Nat.le_or_eq_of_le_succ bound with below | rfl
        · exact all j below
        · exact zero
      · exact iff_of_false id fun all => zero (all _ le_rfl)

/-! ## The marks -/

/-- The sum of the first entries that are marked. -/
def markedSum (w : Window) (i : Nat) (sol : Nat → Nat) : Int :=
  (((List.range i).filter fun k => sol k = 1).map w.V).sum

private theorem markedSum_succ (w : Window) (i : Nat) (sol : Nat → Nat) :
    w.markedSum (i + 1) sol = w.markedSum i sol + if sol i = 1 then w.V i else 0 := by
  rw [markedSum, List.range_succ, List.filter_append, List.map_append, List.sum_append]
  by_cases marked : sol i = 1 <;> simp [markedSum, marked]

private theorem markedSum_of_unmarked (clear : ∀ k < i, sol k = 0) : w.markedSum i sol = 0 := by
  induction i with
  | zero => rfl
  | succ i induction =>
      rw [markedSum_succ, induction fun k order => clear k (by omega), clear i (by omega)]
      rfl

/-- Every entry before `i` has at most one mark, and the marked ones have the sum. -/
structure Marks (w : Window) (i : Nat) (sol sol' : Nat → Nat) (sum : Int) : Prop where
  rest : ∀ k, i ≤ k → sol' k = sol k
  single : ∀ k < i, sol' k = 0 ∨ sol' k = 1
  sum_eq : w.markedSum i sol' = sum

private theorem Marks.skip {sol' : Nat → Nat} {sum : Int} (marks : w.Marks i sol sol' sum)
    (clear : sol i = 0) : w.Marks (i + 1) sol sol' sum where
  rest k order := marks.rest k (by omega)
  single k order := by
    rcases Nat.lt_succ_iff_lt_or_eq.mp order with before | rfl
    · exact marks.single k before
    · exact .inl ((marks.rest k le_rfl).trans clear)
  sum_eq := by
    rw [markedSum_succ, marks.sum_eq, marks.rest i le_rfl, clear]
    simp

private theorem Marks.take {sol' : Nat → Nat} {sum : Int}
    (marks : w.Marks i (update sol i (sol i + 1)) sol' (sum - w.V i)) (clear : sol i = 0) :
    w.Marks (i + 1) sol sol' sum where
  rest k order := by rw [marks.rest k (by omega), update_of_ne (by omega)]
  single k order := by
    rcases Nat.lt_succ_iff_lt_or_eq.mp order with before | rfl
    · exact marks.single k before
    · rw [marks.rest k le_rfl, update_self, clear]
      exact .inr rfl
  sum_eq := by
    rw [markedSum_succ, marks.sum_eq, marks.rest i le_rfl, update_self, clear]
    simp

theorem Ready.mark_spec (ready : w.Ready n) (fits : w.width ≤ maxSum) :
    ∀ (i j : Nat) (sol : Nat → Nat), i ≤ n → j < w.width → (∀ i' ≤ i, w.Counts dp i') →
      (∀ k < i, sol k = 0) → 0 < dp i j ∨ w.negative + j = 0 →
      ∃ sol', w.mark dp i j sol = some sol' ∧ w.Marks i sol sol' (w.negative + j)
  | 0, j, sol, _, column, counts, _, reached => by
      refine ⟨sol, rfl, fun _ _ => rfl, by omega, ?_⟩
      rcases reached with positive | zero
      · rw [counts 0 le_rfl j column] at positive
        exact absurd positive (by rw [firstOf, entries]; simp)
      · rw [zero]
        rfl
  | i + 1, j, sol, bound, column, counts, clear, reached => by
      have low : w.negative + j ≤ w.sum := by
        rw [width] at column
        omega
      have target := ready.nonneg
      have negative := ready.negative_nonpos
      rw [mark, if_neg (by omega), if_neg (by omega), Int.toNat_natCast]
      by_cases same : dp (i + 1) j = dp i j
      · rw [if_neg (not_not.mpr same)]
        rw [same] at reached
        obtain ⟨sol', run, marks⟩ := ready.mark_spec fits i j sol (by omega) column
          (fun i' order => counts i' (by omega)) (fun k order => clear k (by omega)) reached
        exact ⟨sol', run, marks.skip (clear i (by omega))⟩
      · rw [if_pos same]
        -- the cell counts the entry alone, or a selection that it extends
        have extended : w.V i = w.negative + j ∨
            0 < properSelections (w.firstOf i) (w.negative + j - w.V i) := by
          rw [counts (i + 1) le_rfl j column, counts i (by omega) j column, firstOf_succ,
            properSelections_cons] at same
          by_contra neither
          rw [not_or] at neither
          exact same (by rw [if_neg neither.1]; omega)
        have inside : w.negative ≤ w.negative + j - w.V i ∧
            w.negative + j - w.V i ≤ w.sum := by
          rcases extended with alone | positive
          · omega
          · obtain ⟨t, selected, _, rest⟩ := properSelections_pos_iff.mp positive
            exact ready.rest_inside (by omega) selected rest low
        obtain ⟨j', column_eq⟩ : ∃ j' : Nat, (j : Int) - w.V i = j' :=
          ⟨((j : Int) - w.V i).toNat, by omega⟩
        have column' : j' < w.width := by
          rw [width]
          omega
        obtain ⟨sol', run, marks⟩ := ready.mark_spec fits i j' (update sol i (sol i + 1))
          (by omega) column' (fun i' order => counts i' (by omega))
          (fun k order => by rw [update_of_ne (by omega), clear k (by omega)]) (by
            rw [counts i (by omega) j' column', ← column_eq]
            rcases extended with alone | positive
            · exact .inr (by omega)
            · exact .inl (by rwa [← add_sub_assoc]))
        rw [column_eq]
        refine ⟨sol', run, Marks.take ?_ (clear i (by omega))⟩
        rwa [add_sub_assoc, column_eq]

/-- From a cell that counts nothing, nothing is marked. -/
theorem Ready.mark_none (ready : w.Ready n) (fits : w.width ≤ maxSum) :
    ∀ (i j : Nat) (sol : Nat → Nat), i ≤ n → j < w.width → (∀ i' ≤ i, w.Counts dp i') →
      dp i j = 0 → w.mark dp i j sol = some sol
  | 0, _, _, _, _, _, _ => rfl
  | i + 1, j, sol, bound, column, counts, empty => by
      have before : dp i j = 0 := by
        rw [counts (i + 1) le_rfl j column, firstOf_succ, properSelections_cons] at empty
        rw [counts i (by omega) j column]
        omega
      rw [mark, if_neg (by omega), if_neg (by omega), Int.toNat_natCast,
        if_neg (not_not.mpr (empty.trans before.symm))]
      exact ready.mark_none fits i j sol (by omega) column (fun i' order => counts i' (by omega))
        before

/-- The columns of the target row that are not 0 are the sums of the selections. -/
theorem Ready.column_of_selection (ready : w.Ready n) (counts : w.Counts dp n) {t : Multiset Int}
    (selected : t ≤ w.firstOf n) (proper : t ≠ 0) (low : t.sum ≤ w.sum) :
    ∃ j ≤ w.target, w.negative + j = t.sum ∧ dp n j ≠ 0 := by
  have above := ready.negative_le selected
  refine ⟨(t.sum - w.negative).toNat, by rw [target]; omega, by omega, ?_⟩
  rw [counts _ (by rw [width]; omega)]
  refine (properSelections_pos_iff.mpr ⟨t, selected, proper, ?_⟩).ne'
  omega

/-- Unless the target sum is 0, the marked entries have the largest sum of a selection up to it, and
without such a selection the search leaves the table. -/
theorem Ready.lists_of_pos (ready : w.Ready n) (fits : w.width ≤ maxSum)
    (counts : ∀ i ≤ n, w.Counts dp i) :
    (w.lists n dp = none ∧ ∀ t ≤ w.firstOf n, t ≠ 0 → w.sum < t.sum) ∨
      ∃ sol r, w.lists n dp = some (w.marked n sol 1, w.marked n sol 0) ∧
        w.Marks n (fun _ => 0) sol r ∧ (∃ t ≤ w.firstOf n, t ≠ 0 ∧ t.sum = r) ∧ r ≤ w.sum ∧
        ∀ t ≤ w.firstOf n, t ≠ 0 → t.sum ≤ w.sum → t.sum ≤ r := by
  cases found : chIdx (dp n) w.target with
  | none =>
      refine .inl ⟨by rw [lists, found]; rfl, fun t selected proper => ?_⟩
      by_contra low
      obtain ⟨j, bound, _, positive⟩ :=
        ready.column_of_selection (counts n le_rfl) selected proper (not_lt.mp low)
      exact positive (chIdx_eq_none.mp found j bound)
  | some j =>
      obtain ⟨bound, positive, last⟩ := chIdx_eq_some found
      have column : j < w.width := Nat.lt_of_le_of_lt bound ready.target_lt
      have reached := ready.target_eq
      obtain ⟨sol, run, marks⟩ := ready.mark_spec fits n j (fun _ => 0) le_rfl column counts
        (fun _ _ => rfl) (.inl (Nat.pos_of_ne_zero positive))
      refine .inr ⟨sol, _, ?_, marks, ?_, by omega, ?_⟩
      · rw [lists, found]
        dsimp only [Option.bind_eq_bind, Option.bind_some]
        rw [run]
        rfl
      · rw [counts n le_rfl j column] at positive
        exact properSelections_pos_iff.mp (Nat.pos_of_ne_zero positive)
      · intro t selected proper low
        obtain ⟨j', bound', same, positive'⟩ :=
          ready.column_of_selection (counts n le_rfl) selected proper low
        have order := last j' bound' positive'
        omega

/-- With the target sum 0 the last entry is marked, together with others if a selection with it has
the sum 0. -/
theorem Ready.lists_of_zero (ready : w.Ready (n + 1)) (fits : w.width ≤ maxSum)
    (counts : ∀ i ≤ n + 1, w.Counts dp i) (zero : w.sum = 0) (last : 0 ≤ w.V n ∨ n = 0) :
    ∃ sol, w.lists (n + 1) (w.countEmpty (n + 1) dp) =
        some (w.marked (n + 1) sol 1, w.marked (n + 1) sol 0) ∧
      w.Marks (n + 1) (fun _ => 0) sol
        (if 0 < selections (w.firstOf n) (-w.V n) then 0 else w.V n) := by
  set dp' := w.countEmpty (n + 1) dp with counted
  have reached := ready.target_eq
  have column := ready.target_lt
  have before : ∀ i ≤ n, w.Counts dp' i := by
    intro i bound
    rw [counted, countEmpty, if_pos zero, Counts, setCell, update_of_ne (by omega)]
    exact counts i (by omega)
  -- the target cell is above the one before it
  have target : dp' n w.target < dp' (n + 1) w.target := by
    rw [counted, ready.countEmpty_target (counts _ le_rfl), ← counted, before n le_rfl _ column,
      firstOf_succ, selections_eq, properSelections_cons, reached, if_pos zero]
    omega
  have found : chIdx (dp' (n + 1)) w.target = some w.target := by
    cases search : chIdx (dp' (n + 1)) w.target with
    | none => exact absurd (chIdx_eq_none.mp search _ le_rfl) (by omega)
    | some j =>
        obtain ⟨bound, _, latest⟩ := chIdx_eq_some search
        rw [Nat.le_antisymm bound (latest _ le_rfl (by omega))]
  obtain ⟨sol, run, marks⟩ : ∃ sol,
      w.mark dp' n (w.target - w.V n) (update (fun _ => 0) n (0 + 1)) = some sol ∧
        w.Marks n (update (fun _ => 0) n (0 + 1)) sol
          ((if 0 < selections (w.firstOf n) (-w.V n) then 0 else w.V n) - w.V n) := by
    have clear : ∀ k < n, update (fun _ => 0) n (0 + 1) k = 0 := fun k order =>
      update_of_ne (by omega) ..
    have unmarked : w.Marks n (update (fun _ => 0) n (0 + 1)) (update (fun _ => 0) n (0 + 1)) 0 :=
      ⟨fun _ _ => rfl, fun k order => .inl (clear k order), markedSum_of_unmarked clear⟩
    by_cases outside : (w.target : Int) - w.V n < 0
    · have impossible : ¬ 0 < selections (w.firstOf n) (-w.V n) := by
        intro positive
        obtain ⟨t, selected, sum⟩ := selections_pos_iff.mp positive
        have above := ready.negative_le (selected.trans (firstOf_le n.le_succ))
        omega
      refine ⟨_, ?_, by rwa [if_neg impossible, sub_self]⟩
      cases n with
      | zero => rfl
      | succ n => rw [mark, if_pos outside]
    · rcases last with nonneg | rfl
      · obtain ⟨j, column_eq⟩ : ∃ j : Nat, (w.target : Int) - w.V n = j :=
          ⟨((w.target : Int) - w.V n).toNat, by omega⟩
        have inside : j < w.width := by omega
        have rest : w.negative + j = -w.V n := by omega
        rw [column_eq]
        by_cases positive : 0 < selections (w.firstOf n) (-w.V n)
        · rw [if_pos positive, zero_sub, ← rest]
          refine ready.mark_spec fits n j _ n.le_succ inside before clear ?_
          rw [selections_eq] at positive
          rw [before n le_rfl j inside, rest]
          by_cases none : -w.V n = 0
          · exact .inr none
          · rw [if_neg none] at positive
            exact .inl positive
        · refine ⟨_, ready.mark_none fits n j _ n.le_succ inside before ?_, ?_⟩
          · rw [selections_eq] at positive
            rw [before n le_rfl j inside, rest]
            omega
          · rwa [if_neg positive, sub_self]
      · have alone : (if 0 < selections (w.firstOf 0) (-w.V 0) then 0 else w.V 0) = w.V 0 := by
          change (if 0 < selections 0 (-w.V 0) then 0 else w.V 0) = w.V 0
          rw [selections_zero]
          split_ifs with single first <;> omega
        exact ⟨_, rfl, by rwa [alone, sub_self]⟩
  refine ⟨sol, ?_, Marks.take marks rfl⟩
  rw [lists, found]
  dsimp only [Option.bind_eq_bind, Option.bind_some]
  rw [mark, if_neg (by omega), if_neg (by omega), Int.toNat_natCast, if_pos (by omega), run]
  rfl

end Window
end KwHomework.SubsetDP
