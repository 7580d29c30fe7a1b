import KwHomework.Subset.Counts

/-!
# The printed count

The count is half the number of selections with the truncated half of the total.  That is the number
of equal splits of a list with an even total; a list with a positive odd total is set aside by the
flag `odd`, but a negative odd total has the remainder -1 and is not.
-/

namespace KwHomework.SubsetDP

open Finset

variable {w : Window} {n : Nat} {dp : SumTable} {g : Session} {xs : List Int}

namespace Window

theorem Ready.target_eq (ready : w.Ready n) : w.negative + w.target = w.sum := by
  have negative := ready.negative_nonpos
  have nonneg := ready.nonneg
  rw [target]
  omega

theorem Ready.target_lt (ready : w.Ready n) : w.target < w.width := by
  have negative := ready.negative_nonpos
  have nonneg := ready.nonneg
  rw [target, width]
  omega

/-- With the empty set counted, the target cell counts all selections with the target sum. -/
theorem Ready.countEmpty_target (ready : w.Ready n) (counts : w.Counts dp n) :
    w.countEmpty n dp n w.target = selections (w.firstOf n) w.sum := by
  have cell := counts w.target ready.target_lt
  rw [ready.target_eq] at cell
  rw [selections_eq, countEmpty]
  split_ifs with zero
  · simp [setCell, cell, zero]
  · rw [cell, add_zero]

end Window

/-- The window of a list that is read over an array. -/
def windowOf (V : Nat → Int) (xs : List Int) : Window := prepare (store V xs) xs.length

private theorem selections_oriented (xs : List Int) :
    selections (oriented xs : Multiset Int) |xs.sum.tdiv 2| =
      selections (xs : Multiset Int) (xs.sum.tdiv 2) := by
  rw [oriented]
  split_ifs with negative
  · rw [abs_of_neg negative, ← Multiset.map_coe, selections_neg]
  · rw [abs_of_nonneg (not_lt.mp negative)]

/-- The flag `odd` when the count is printed. -/
def oddAfter (odd : Bool) (xs : List Int) : Bool := if xs.sum.tmod 2 = 1 then true else odd

theorem answer_of_numerous (numerous : Numerous xs) :
    (answer g xs).1 = .numerous ∧ (answer g xs).2.odd = false := by
  have read : entries (store g.V xs) xs.length = xs := entries_store rfl
  rw [← read, ← exceeds_iff] at numerous
  rcases (prepare_ready (store g.V xs) xs.length).table_spec with ⟨left, _⟩ | ⟨_, small, _⟩
  · rw [answer]
    dsimp only
    split
    · exact ⟨rfl, rfl⟩
    · simp_all
  · exact absurd numerous small

theorem not_numerous (printed : (answer start xs).1 ≠ .numerous) : ¬ Numerous xs :=
  fun numerous => printed (answer_of_numerous numerous).1

/-- For a list without a cell above `UINT_MAX`, every cell of the table counts the sets of positions
among the first `i` that are not empty and have the sum `negative+j`. -/
theorem table_eq_card (V : Nat → Int) (_fits : Fits xs) (small : ¬ Numerous xs) :
    ((windowOf V xs).table xs.length).1 = false ∧
    ∀ i, 1 ≤ i → i ≤ xs.length → ∀ j : Nat,
      (j : Int) ≤ (windowOf V xs).sum - (windowOf V xs).negative →
      ((windowOf V xs).table xs.length).2 i j =
        #{I : Finset (Fin i) | I.Nonempty ∧
          ∑ k ∈ I, (windowOf V xs).V k = (windowOf V xs).negative + j} := by
  have read : entries (store V xs) xs.length = xs := entries_store rfl
  rcases (prepare_ready (store V xs) xs.length).table_spec with ⟨_, large⟩ | ⟨done, _, counts⟩
  · rw [exceeds_iff, read] at large
    exact absurd large small
  · refine ⟨done, fun i _ bound j column => ?_⟩
    have inside : j < (prepare (store V xs) xs.length).width := by
      rw [windowOf] at column
      rw [Window.width]
      omega
    rw [card_nonempty_sum, ← Window.firstOf_eq_map]
    exact counts i bound j inside

/-- The table of the list `1 2 3`. -/
theorem table_eq_card_three : ((windowOf (fun _ => 0) [1, 2, 3]).table 3).2 3 3 =
    #{I : Finset (Fin 3) | I.Nonempty ∧ ∑ k ∈ I, (windowOf (fun _ => 0) [1, 2, 3]).V k = 0 + 3} :=
  (table_eq_card (fun _ => 0) (by decide) (not_numerous (by decide))).2 3 (by decide) (by decide) 3
    (by decide)

/-- What is printed for a list without a cell above `UINT_MAX`. -/
theorem answer_of_small (small : ¬ Numerous xs) :
    ∃ dp, (∀ i ≤ xs.length, (windowOf g.V xs).Counts dp i) ∧
      (windowOf g.V xs).table xs.length = (false, dp) ∧
      (answer g xs).1 =
        .answer
          (if oddAfter g.odd xs then 0 else selections (xs : Multiset Int) (xs.sum.tdiv 2) / 2)
          ((windowOf g.V xs).lists xs.length ((windowOf g.V xs).countEmpty xs.length dp)) ∧
      (answer g xs).2.odd = oddAfter g.odd xs := by
  have read : entries (store g.V xs) xs.length = xs := entries_store rfl
  have ready := prepare_ready (store g.V xs) xs.length
  rcases ready.table_spec with ⟨_, large⟩ | ⟨done, _, counts⟩
  · rw [exceeds_iff, read] at large
    exact absurd large small
  · have count := ready.countEmpty_target (counts _ le_rfl)
    rw [firstOf_prepare_self, sum_prepare, read, selections_oriented] at count
    have result : (prepare (store g.V xs) xs.length).table xs.length =
        (false, ((prepare (store g.V xs) xs.length).table xs.length).2) := Prod.ext done rfl
    refine ⟨_, counts, result, ?_⟩
    rw [answer]
    dsimp only
    rw [result]
    dsimp only
    rw [read, count]
    exact ⟨rfl, rfl⟩

/-- As the first list of a session, the count is the number of equal splits exactly if the total is
not negative and odd, or no two sets of positions have the truncated half of it. -/
theorem count_eq_card_equalSplits_iff (xs : List Int) (nonempty : xs ≠ []) (_fits : Fits xs)
    (small : ¬ Numerous xs) :
    ∃ count lists, (answer start xs).1 = .answer count lists ∧
      ((count = #(equalSplits xs) ∧ (xs.sum % 2 = 1 → count = 0)) ↔
        (xs.sum < 0 → xs.sum % 2 = 1 → ∀ I J : Finset (Fin xs.length),
          sumAt xs I = xs.sum.tdiv 2 → sumAt xs J = xs.sum.tdiv 2 → I = J)) := by
  obtain ⟨dp, _, _, printed, _⟩ := answer_of_small (g := start) small
  refine ⟨_, _, printed, ?_⟩
  have unique : (∀ I J : Finset (Fin xs.length),
      sumAt xs I = xs.sum.tdiv 2 → sumAt xs J = xs.sum.tdiv 2 → I = J) ↔
      selections (xs : Multiset Int) (xs.sum.tdiv 2) ≤ 1 := by
    rw [← card_sumAt, card_le_one]
    simp only [mem_filter_univ]
    exact ⟨fun same I first J second => same I J first second,
      fun same I J first second => same I first J second⟩
  rw [unique, card_equalSplits nonempty, oddAfter]
  rcases Int.emod_two_eq_zero_or_one xs.sum with even | odd
  · -- the half of an even total is exact
    have half : xs.sum.tdiv 2 = xs.sum / 2 ∧ xs.sum.tmod 2 = 0 := by
      have parts := tdiv_two_cases xs.sum
      omega
    simp [even, half, start, exit2]
  · by_cases negative : xs.sum < 0
    · have unseen : xs.sum.tmod 2 = -1 := by
        have parts := tdiv_two_of_neg negative
        omega
      have clear : (if xs.sum.tmod 2 = 1 then true else start.odd) = false := if_neg (by omega)
      rw [clear, if_neg Bool.false_ne_true, if_neg (show ¬ xs.sum % 2 = 0 by omega)]
      omega
    · have seen : xs.sum.tmod 2 = 1 := by
        have parts := tdiv_two_of_nonneg (not_lt.mp negative)
        omega
      simp [odd, negative, seen]

/-- The list `1 2 3` has one equal split. -/
theorem count_eq_card_equalSplits_iff_three :
    ∃ count lists, (answer start [1, 2, 3]).1 = .answer count lists ∧
      count = #(equalSplits [(1 : Int), 2, 3]) := by
  obtain ⟨count, lists, printed, exactly⟩ := count_eq_card_equalSplits_iff [1, 2, 3] (by decide)
    (by decide) (not_numerous (by decide))
  exact ⟨count, lists, printed, (exactly.mpr fun negative => absurd negative (by decide)).1⟩

/-- The list `-1 -1 -1` has no equal split, and the count is 1. -/
theorem count_ne_card_equalSplits : Fits [-1, -1, -1] ∧ ¬ Numerous [-1, -1, -1] ∧
    (answer start [-1, -1, -1]).1 = .answer 1 (some ([-1], [-1, -1])) ∧
      #(equalSplits [(-1 : Int), -1, -1]) = 0 :=
  ⟨by decide, not_numerous (by decide), by decide, by rw [card_equalSplits (by decide)]; rfl⟩

end KwHomework.SubsetDP
