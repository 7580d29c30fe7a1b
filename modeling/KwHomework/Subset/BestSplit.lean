import KwHomework.Subset.Halving

/-!
# The best split

The two printed lists are the input, and they are as balanced as any split exactly if the selection
that the program looks for can be one of the best: it is never empty, it stays below half of the
total, and if that half is 0 it contains the last entry.
-/

namespace KwHomework.SubsetDP

open Function

variable {w : Window} {n : Nat} {sol : Nat → Nat} {g : Session} {xs left right : List Int}

/-! ## Splits and selections -/

/-- The sides are the input, and no other sides have sums that are closer. -/
def BestSplit (xs left right : List Int) : Prop :=
  (left ++ right).Perm xs ∧
    ∀ a b : List Int, (a ++ b).Perm xs → |left.sum - right.sum| ≤ |a.sum - b.sum|

private theorem difference_eq (perm : (left ++ right).Perm xs) :
    left.sum - right.sum = 2 * left.sum - (xs : Multiset Int).sum := by
  rw [Multiset.sum_coe, ← perm.sum_eq, List.sum_append]
  omega

private theorem bestSplit_iff (perm : (left ++ right).Perm xs) :
    BestSplit xs left right ↔ Evenest (xs : Multiset Int) left.sum := by
  constructor
  · rintro ⟨_, best⟩ t selected
    have split : (t.toList ++ ((xs : Multiset Int) - t).toList).Perm xs := by
      rw [← Multiset.coe_eq_coe, ← Multiset.coe_add, Multiset.coe_toList, Multiset.coe_toList]
      exact add_tsub_cancel_of_le selected
    have closer := best _ _ split
    rwa [difference_eq perm, difference_eq split, Multiset.sum_toList] at closer
  · refine fun evenest => ⟨perm, fun a b other => ?_⟩
    have selected : (a : Multiset Int) ≤ xs := by
      rw [← Multiset.coe_eq_coe.mpr other, ← Multiset.coe_add]
      exact Multiset.le_add_right _ _
    rw [difference_eq perm, difference_eq other]
    exact evenest a selected

/-! ## The marked lists -/

namespace Window

/-- The sign that an entry had before the flip. -/
def old (w : Window) (x : Int) : Int := if w.flip then -x else x

private theorem marked_perm (w : Window) (n : Nat) (sol : Nat → Nat) (value : Nat) :
    (w.marked n sol value).Perm
      ((((List.range n).filter fun i => sol i = value).map w.V).map w.old) := by
  rw [List.map_map]
  exact List.perm_insertionSort _ _

private theorem sum_map_old (w : Window) (vs : List Int) : (vs.map w.old).sum = w.old vs.sum := by
  induction vs with
  | nil => simp [old]
  | cons v vs induction =>
      rw [List.map_cons, List.sum_cons, List.sum_cons, induction, old, old, old]
      split_ifs <;> omega

private theorem sum_marked (w : Window) (n : Nat) (sol : Nat → Nat) :
    (w.marked n sol 1).sum = w.old (w.markedSum n sol) := by
  rw [(w.marked_perm n sol 1).sum_eq, sum_map_old]
  rfl

theorem marked_append (single : ∀ k < n, sol k = 0 ∨ sol k = 1) :
    (w.marked n sol 1 ++ w.marked n sol 0).Perm ((entries w.V n).map w.old) := by
  refine ((w.marked_perm n sol 1).append (w.marked_perm n sol 0)).trans ?_
  rw [← List.map_append, ← List.map_append]
  refine ((List.Perm.map _ ?_).map _)
  have other : (List.range n).filter (fun i => sol i = 0) =
      (List.range n).filter fun i => !decide (sol i = 1) := by
    refine List.filter_congr fun k member => ?_
    rcases single k (List.mem_range.mp member) with clear | marked <;> simp [*]
  rw [other]
  exact List.filter_append_perm _ _

end Window

private theorem old_eq (V : Nat → Int) (xs : List Int) (x : Int) :
    (windowOf V xs).old x = if xs.sum.tdiv 2 < 0 then -x else x := by
  have read : entries (store V xs) xs.length = xs := entries_store rfl
  rw [Window.old, windowOf, flip_prepare, read]
  simp only [decide_eq_true_eq]

private theorem map_old_oriented (V : Nat → Int) (xs : List Int) :
    (oriented xs).map (windowOf V xs).old = xs := by
  have turned : (windowOf V xs).old = fun x => if xs.sum.tdiv 2 < 0 then -x else x :=
    funext (old_eq V xs)
  rw [turned, oriented]
  by_cases negative : xs.sum.tdiv 2 < 0 <;> simp [negative]

private theorem evenest_oriented (V : Nat → Int) (xs : List Int) (r : Int) :
    Evenest (xs : Multiset Int) ((windowOf V xs).old r) ↔
      Evenest (oriented xs : Multiset Int) r := by
  rw [old_eq, oriented]
  split_ifs
  · rw [← Multiset.map_coe, ← evenest_neg, neg_neg]
  · rfl

theorem lists_spec (V : Nat → Int) (xs : List Int) {r : Int}
    (marks : (windowOf V xs).Marks xs.length (fun _ => 0) sol r) :
    ((windowOf V xs).marked xs.length sol 1 ++ (windowOf V xs).marked xs.length sol 0).Perm xs ∧
      ((windowOf V xs).marked xs.length sol 1).sum = (windowOf V xs).old r := by
  refine ⟨(Window.marked_append marks.single).trans ?_, ?_⟩
  · rw [windowOf, entries_prepare, entries_store rfl, ← windowOf]
    exact ((ascending_perm xs).map _).trans (List.Perm.of_eq (map_old_oriented V xs))
  · rw [Window.sum_marked, marks.sum_eq]

private theorem bestSplit_marked_iff (V : Nat → Int) (xs : List Int) {r : Int}
    (marks : (windowOf V xs).Marks xs.length (fun _ => 0) sol r) :
    BestSplit xs ((windowOf V xs).marked xs.length sol 1)
        ((windowOf V xs).marked xs.length sol 0) ↔
      Evenest (oriented xs : Multiset Int) r := by
  obtain ⟨perm, sum⟩ := lists_spec V xs marks
  rw [bestSplit_iff perm, sum, evenest_oriented]

/-! ## When the best split is found -/

/-- The selection that the program looks for can be one of the best.  If the half of the total is
not 0, some selection that is not empty has a sum between 0 and that half; otherwise the largest
entry is the total, or is in a selection with the sum 0. -/
def Halvable (xs : List Int) : Prop :=
  if xs.sum.natAbs ≤ 1 then
    ∃ x ∈ xs, (∀ y ∈ xs, y ≤ x) ∧
      (x = xs.sum ∨ ∃ t : Multiset Int, t ≤ xs ∧ x ∈ t ∧ t.sum = 0)
  else
    ∃ t : Multiset Int, t ≤ xs ∧ t ≠ 0 ∧
      0 ≤ xs.sum.sign * t.sum ∧ 2 * (xs.sum.sign * t.sum) ≤ |xs.sum|

private theorem abs_tdiv_two (total : Int) : |total.tdiv 2| = total.natAbs / 2 := by
  rw [Int.abs_eq_natAbs]
  have parts := tdiv_two_cases total
  omega

theorem sum_windowOf (V : Nat → Int) (xs : List Int) :
    (windowOf V xs).sum = xs.sum.natAbs / 2 := by
  rw [windowOf, sum_prepare, entries_store rfl, abs_tdiv_two]

private theorem tdiv_two_neg_iff {total : Int} (large : ¬ total.natAbs ≤ 1) :
    total.tdiv 2 < 0 ↔ total < 0 := by
  have parts := tdiv_two_cases total
  omega

private theorem sum_oriented (large : ¬ xs.sum.natAbs ≤ 1) :
    (oriented xs : Multiset Int).sum = xs.sum.natAbs := by
  rw [oriented, Multiset.sum_coe]
  split_ifs with negative
  · rw [tdiv_two_neg_iff large] at negative
    rw [← Multiset.sum_coe, ← Multiset.map_coe, sum_map_neg, Multiset.sum_coe]
    omega
  · rw [tdiv_two_neg_iff large] at negative
    omega

/-- The selections of the oriented entries are those of the list with their sums oriented. -/
theorem exists_oriented_iff (large : ¬ xs.sum.natAbs ≤ 1) {p : Int → Prop} :
    (∃ t : Multiset Int, t ≤ xs ∧ t ≠ 0 ∧ p (xs.sum.sign * t.sum)) ↔
      ∃ t : Multiset Int, t ≤ oriented xs ∧ t ≠ 0 ∧ p t.sum := by
  rw [oriented]
  split_ifs with negative
  · rw [tdiv_two_neg_iff large] at negative
    rw [← Multiset.map_coe, exists_le_neg_iff, Int.sign_eq_neg_one_of_neg negative]
    simp only [sum_map_neg, ne_eq, Multiset.map_eq_zero, neg_one_mul]
  · rw [tdiv_two_neg_iff large] at negative
    rw [Int.sign_eq_one_of_pos (by omega)]
    simp only [one_mul]

private theorem halvable_iff_of_large (large : ¬ xs.sum.natAbs ≤ 1) :
    Halvable xs ↔ ∃ t : Multiset Int, t ≤ oriented xs ∧ t ≠ 0 ∧ 0 ≤ t.sum ∧
      t.sum ≤ xs.sum.natAbs / 2 := by
  rw [Halvable, if_neg large,
    exists_oriented_iff large (p := fun sum => 0 ≤ sum ∧ 2 * sum ≤ |xs.sum|), Int.abs_eq_natAbs]
  refine exists_congr fun t => and_congr_right fun _ => and_congr_right fun _ => ?_
  omega

theorem ready_windowOf (V : Nat → Int) (xs : List Int) : (windowOf V xs).Ready xs.length :=
  prepare_ready _ _

theorem firstOf_windowOf (V : Nat → Int) (xs : List Int) :
    (windowOf V xs).firstOf xs.length = (oriented xs : Multiset Int) := by
  rw [windowOf, firstOf_prepare_self, entries_store rfl]

private theorem oriented_of_small (small : xs.sum.natAbs ≤ 1) : oriented xs = xs := by
  have half := abs_tdiv_two xs.sum
  rw [Int.abs_eq_natAbs] at half
  exact if_neg (by omega)

theorem le_last {V : Nat → Int} (length : xs.length = n + 1) {x : Int}
    (member : x ∈ (windowOf V xs).firstOf (n + 1)) : x ≤ (windowOf V xs).V n := by
  obtain ⟨i, before, rfl⟩ := List.mem_map.mp (Multiset.mem_coe.mp member)
  rw [List.mem_range] at before
  rcases Nat.lt_succ_iff_lt_or_eq.mp before with earlier | rfl
  · exact (ready_windowOf V xs).le_of_lt earlier (by omega)
  · exact le_rfl

private theorem halvable_iff_of_small {V : Nat → Int} (small : xs.sum.natAbs ≤ 1)
    (length : xs.length = n + 1) :
    Halvable xs ↔ (windowOf V xs).V n = xs.sum ∨
      0 < selections ((windowOf V xs).firstOf n) (-(windowOf V xs).V n) := by
  set w := windowOf V xs with window
  have whole : (xs : Multiset Int) = w.V n ::ₘ w.firstOf n := by
    rw [← Window.firstOf_succ, ← length, window, firstOf_windowOf, oriented_of_small small]
  have last : w.V n ∈ xs := by
    rw [← Multiset.mem_coe, whole]
    exact Multiset.mem_cons_self _ _
  have largest : ∀ y ∈ xs, y ≤ w.V n := by
    intro y member
    rw [← Multiset.mem_coe, whole, ← Window.firstOf_succ] at member
    exact le_last length member
  have balanced : (∃ t : Multiset Int, t ≤ xs ∧ w.V n ∈ t ∧ t.sum = 0) ↔
      0 < selections (w.firstOf n) (-w.V n) := by
    rw [selections_pos_iff, whole]
    constructor
    · rintro ⟨t, selected, member, sum⟩
      obtain ⟨rest, rfl⟩ := Multiset.exists_cons_of_mem member
      rw [Multiset.sum_cons] at sum
      exact ⟨rest, (Multiset.cons_le_cons_iff _).mp selected, by omega⟩
    · rintro ⟨rest, selected, sum⟩
      refine ⟨_, Multiset.cons_le_cons (w.V n) selected, Multiset.mem_cons_self _ _, ?_⟩
      rw [Multiset.sum_cons, sum, add_neg_cancel]
  rw [Halvable, if_pos small, ← balanced]
  constructor
  · rintro ⟨x, member, above, cases_⟩
    obtain rfl : x = w.V n := le_antisymm (largest x member) (above _ last)
    exact cases_
  · exact fun found => ⟨w.V n, last, largest, found⟩

theorem width_windowOf (V : Nat → Int) (fits : Fits xs) : (windowOf V xs).width ≤ maxSum := by
  have read : entries (fun i => xs.getD i 0) xs.length = xs := entries_store (V := fun _ => 0) rfl
  have bound := fits.2
  rw [Window.width, sum_prepare, negative_prepare, read] at bound
  rwa [Window.width, windowOf, sum_prepare, negative_prepare, entries_store rfl]

private theorem natAbs_sum_oriented (xs : List Int) :
    (oriented xs : Multiset Int).sum.natAbs = xs.sum.natAbs := by
  rw [oriented]
  split_ifs
  · rw [← Multiset.map_coe, sum_map_neg, Int.natAbs_neg, Multiset.sum_coe]
  · rw [Multiset.sum_coe]

private theorem abs_sum_le_of_oriented (fits : Fits xs) {t : Multiset Int}
    (selected : t ≤ oriented xs) :
    |t.sum| ≤ 2 * maxSum := by
  set w := windowOf (fun _ => 0) xs with window
  have ready : w.Ready xs.length := ready_windowOf _ xs
  have width : w.width ≤ maxSum := width_windowOf _ fits
  have half : w.sum = xs.sum.natAbs / 2 := sum_windowOf _ xs
  have whole := natAbs_sum_oriented xs
  have nonpos := ready.negative_nonpos
  -- the selection and the entries outside it have sums from `negative` on
  rw [← firstOf_windowOf (fun _ => 0), ← window] at selected whole
  have inside := ready.negative_le selected
  have outside := ready.negative_le (Multiset.sub_le_self (w.firstOf xs.length) t)
  rw [sum_sub selected] at outside
  rw [Window.width, maxSum] at width
  rw [abs_le, maxSum]
  omega

/-- On a list that fits no `int` overflows: the sum of any entries is below two rows. -/
theorem abs_sum_le (fits : Fits xs) {t : Multiset Int} (selected : t ≤ xs) :
    |t.sum| ≤ 2 * maxSum := by
  by_cases negative : xs.sum.tdiv 2 < 0
  · have turned : t.map (- ·) ≤ oriented xs := by
      rw [oriented, if_pos negative, ← Multiset.map_coe]
      exact Multiset.map_le_map selected
    have bound := abs_sum_le_of_oriented fits turned
    rwa [sum_map_neg, abs_neg] at bound
  · exact abs_sum_le_of_oriented fits (by rwa [oriented, if_neg negative])

/-- What is printed when the half of the total is 0. -/
theorem lists_of_small {V : Nat → Int} {dp : SumTable} (fits : Fits xs) (small : xs.sum.natAbs ≤ 1)
    (length : xs.length = n + 1) (counts : ∀ i ≤ xs.length, (windowOf V xs).Counts dp i) :
    ∃ sol,
      (windowOf V xs).lists xs.length ((windowOf V xs).countEmpty xs.length dp) =
        some ((windowOf V xs).marked xs.length sol 1, (windowOf V xs).marked xs.length sol 0) ∧
      (windowOf V xs).Marks xs.length (fun _ => 0) sol
        (if 0 < selections ((windowOf V xs).firstOf n) (-(windowOf V xs).V n) then 0
          else (windowOf V xs).V n) := by
  have zero : (windowOf V xs).sum = 0 := by
    rw [sum_windowOf]
    omega
  have total : xs.sum = ((windowOf V xs).firstOf (n + 1)).sum := by
    rw [← length, firstOf_windowOf, oriented_of_small small, Multiset.sum_coe]
  have last : 0 ≤ (windowOf V xs).V n ∨ n = 0 := by
    by_contra neither
    rw [not_or] at neither
    have bound := Multiset.sum_le_card_nsmul ((windowOf V xs).firstOf (n + 1)) (-1)
      fun x member => by
        have below := le_last length member
        omega
    rw [Window.firstOf, Multiset.coe_card, length_entries, ← Window.firstOf, ← total] at bound
    simp at bound
    omega
  have ready := ready_windowOf V xs
  rw [length] at ready counts ⊢
  exact ready.lists_of_zero (width_windowOf V fits) counts zero last

/-- The printed lists are a best split exactly if the list is halvable. -/
theorem lists_bestSplit_iff (g : Session) (xs : List Int) (nonempty : xs ≠ []) (fits : Fits xs)
    (small : ¬ Numerous xs) :
    ∃ count lists, (answer g xs).1 = .answer count lists ∧
      ((∃ left right, lists = some (left, right) ∧ BestSplit xs left right) ↔ Halvable xs) := by
  obtain ⟨dp, counts, _, printed, _⟩ := answer_of_small (g := g) small
  refine ⟨_, _, printed, ?_⟩
  set w := windowOf g.V xs with window
  have ready : w.Ready xs.length := ready_windowOf g.V xs
  have width : w.width ≤ maxSum := width_windowOf g.V fits
  have half : w.sum = xs.sum.natAbs / 2 := sum_windowOf g.V xs
  by_cases large : xs.sum.natAbs ≤ 1
  · obtain ⟨n, length⟩ := Nat.exists_eq_add_one.mpr (List.length_pos_of_ne_nil nonempty)
    obtain ⟨sol, run, marks⟩ := lists_of_small fits large length counts
    have best := bestSplit_marked_iff g.V xs marks
    rw [oriented_of_small large, evenest_iff_of_small (by rwa [Multiset.sum_coe]),
      Multiset.sum_coe] at best
    have found : (if 0 < selections (w.firstOf n) (-w.V n) then 0 else w.V n) = 0 ∨
        (if 0 < selections (w.firstOf n) (-w.V n) then 0 else w.V n) = xs.sum ↔ Halvable xs := by
      rw [halvable_iff_of_small large length, ← window]
      split_ifs with positive
      · exact iff_of_true (.inl rfl) (.inr positive)
      · have other : w.V n ≠ 0 := by
          intro zero
          refine positive (selections_pos_iff.mpr ⟨0, Multiset.zero_le _, ?_⟩)
          rw [zero, neg_zero, Multiset.sum_zero]
        simp [positive, other]
    rw [← found, ← best]
    constructor
    · rintro ⟨left, right, printed, split⟩
      obtain ⟨rfl, rfl⟩ := Prod.mk.inj (Option.some.inj (run.symm.trans printed))
      exact split
    · exact fun split => ⟨_, _, run, split⟩
  · have positive : w.sum ≠ 0 := by omega
    rw [Window.countEmpty, if_neg positive, halvable_iff_of_large large]
    have sum := sum_oriented large
    rcases ready.lists_of_pos width counts with ⟨outside, above⟩ |
      ⟨sol, r, run, marks, ⟨t, selected, proper, reached⟩, low, last⟩
    · rw [firstOf_windowOf] at above
      refine iff_of_false ?_ ?_
      · rintro ⟨left, right, printed, _⟩
        rw [outside] at printed
        exact Option.some_ne_none _ printed.symm
      · rintro ⟨t, selected, proper, _, bound⟩
        have beyond := above t selected proper
        omega
    · rw [firstOf_windowOf] at selected last
      have best := bestSplit_marked_iff g.V xs marks
      rw [evenest_iff (by omega) (fun t selected proper bound =>
        last t selected proper (by omega)) (by omega)] at best
      constructor
      · rintro ⟨left, right, printed, split⟩
        obtain ⟨rfl, rfl⟩ := Prod.mk.inj (Option.some.inj (run.symm.trans printed))
        exact ⟨t, selected, proper, reached ▸ best.mp split, by omega⟩
      · rintro ⟨t', selected', proper', nonneg, bound⟩
        have order := last t' selected' proper' (by omega)
        exact ⟨_, _, run, best.mpr (by omega)⟩

/-- The list `1 2 3` is halved. -/
theorem lists_bestSplit_iff_three : ∃ count left right,
    (answer start [1, 2, 3]).1 = .answer count (some (left, right)) ∧
      BestSplit [1, 2, 3] left right := by
  obtain ⟨count, lists, printed, exactly⟩ := lists_bestSplit_iff start [1, 2, 3] (by decide)
    (by decide) (not_numerous (by decide))
  obtain ⟨left, right, rfl, split⟩ := exactly.mpr ⟨{3}, by decide, by decide, by decide, by decide⟩
  exact ⟨count, left, right, printed, split⟩

/-- The list `-3 10` is split into `-3` and `10`, although the empty side is closer; the search for
the list `3` leaves the table. -/
theorem lists_not_bestSplit : Fits [-3, 10] ∧ ¬ Numerous [-3, 10] ∧
    (answer start [-3, 10]).1 = .answer 0 (some ([-3], [10])) ∧ ¬ BestSplit [-3, 10] [-3] [10] ∧
      Fits [3] ∧ ¬ Numerous [3] ∧ (answer start [3]).1 = .answer 0 none := by
  refine ⟨by decide, not_numerous (by decide), by decide, fun split => ?_, by decide,
    not_numerous (by decide), by decide⟩
  exact absurd (split.2 [-3, 10] [] (List.Perm.refl _)) (by decide)

end KwHomework.SubsetDP
