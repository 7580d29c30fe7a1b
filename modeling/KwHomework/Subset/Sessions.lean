import KwHomework.Subset.BestSplit

/-!
# Sessions

`V` and `dp` are cleared before every list and `flip` is, but the flag `odd` is set for a list with
a positive odd total and cleared behind `NUMEROUS` only.  While it is set, every count is 0.
-/

namespace KwHomework.SubsetDP

variable {g : Session} {xs : List Int} {dp : SumTable}

/-- The list sets the flag `odd`. -/
def PositiveOdd (xs : List Int) : Prop := 0 < xs.sum ∧ xs.sum % 2 = 1

/-- The flag `odd` is left over from the lists before. -/
def OddSince (before : List (List Int)) : Prop :=
  ∃ earlier xs later, before = earlier ++ xs :: later ∧ PositiveOdd xs ∧
    ∀ ys ∈ xs :: later, ¬ Numerous ys

/-- The count of the list alone is not 0: two sets of positions have the truncated half of the
total. -/
def Sensitive (xs : List Int) : Prop :=
  ¬ Numerous xs ∧ ¬ PositiveOdd xs ∧ ∃ I J : Finset (Fin xs.length),
    I ≠ J ∧ sumAt xs I = xs.sum.tdiv 2 ∧ sumAt xs J = xs.sum.tdiv 2

/-- No selection but the empty one has a sum up to half of the total. -/
def LeavesTable (xs : List Int) : Prop :=
  ¬ Numerous xs ∧ 2 ≤ xs.sum.natAbs ∧
    ∀ t : Multiset Int, t ≤ xs → t ≠ 0 → xs.sum.natAbs / 2 < xs.sum.sign * t.sum

/-- The search leaves the table for the lists with one entry that is not -1, 0 or 1.  Of two
disjoint selections that add up to the total, one has at most half of it. -/
theorem leavesTable_iff : LeavesTable xs ↔ ∃ x, xs = [x] ∧ 2 ≤ x.natAbs := by
  constructor
  · rintro ⟨_, large, above⟩
    match xs with
    | [] => exact absurd large (by decide)
    | [x] => exact ⟨x, rfl, by simpa using large⟩
    | x :: y :: rest =>
        have first := above {x} (Multiset.singleton_le.mpr (by simp)) (by simp)
        have others := above (y :: rest : List Int)
          (Multiset.coe_le.mpr (List.sublist_cons_self x _).subperm) (by simp)
        have whole := Int.sign_mul_self_eq_natAbs (x :: y :: rest).sum
        rw [Multiset.sum_singleton] at first
        rw [Multiset.sum_coe] at others
        rw [List.sum_cons, mul_add, ← List.sum_cons] at whole
        omega
  · rintro ⟨x, rfl, large⟩
    refine ⟨fun numerous => ?_, by simpa using large, fun t selected proper => ?_⟩
    · obtain ⟨i, _, several, inside, _⟩ := numerous
      exact absurd (several.trans inside) (by simp)
    · obtain rfl := (Multiset.le_singleton.mp selected).resolve_left proper
      rw [Multiset.sum_singleton, List.sum_singleton, Int.sign_mul_self_eq_natAbs]
      omega

private theorem oddAfter_iff {odd : Bool} : oddAfter odd xs = true ↔ PositiveOdd xs ∨
    odd = true := by
  have remainder : xs.sum.tmod 2 = 1 ↔ PositiveOdd xs := by
    rw [PositiveOdd]
    have parts := tdiv_two_cases xs.sum
    omega
  rw [oddAfter, ← remainder]
  split_ifs with positive <;> simp [positive]

private theorem sensitive_iff (small : ¬ Numerous xs) :
    Sensitive xs ↔ ¬ PositiveOdd xs ∧ selections (xs : Multiset Int) (xs.sum.tdiv 2) / 2 ≠ 0 := by
  have several : (∃ I J : Finset (Fin xs.length),
      I ≠ J ∧ sumAt xs I = xs.sum.tdiv 2 ∧ sumAt xs J = xs.sum.tdiv 2) ↔
      1 < selections (xs : Multiset Int) (xs.sum.tdiv 2) := by
    rw [← card_sumAt, Finset.one_lt_card]
    simp only [Finset.mem_filter_univ]
    constructor
    · rintro ⟨I, J, other, first, second⟩
      exact ⟨I, first, J, second, other⟩
    · rintro ⟨I, first, J, second, other⟩
      exact ⟨I, J, other, first, second⟩
  rw [Sensitive, several]
  refine ⟨fun ⟨_, odd, more⟩ => ⟨odd, by omega⟩, fun ⟨odd, more⟩ => ⟨small, odd, by omega⟩⟩

private theorem above_oriented_iff (large : ¬ xs.sum.natAbs ≤ 1) :
    (∀ t : Multiset Int, t ≤ xs → t ≠ 0 → (xs.sum.natAbs / 2 : Int) < xs.sum.sign * t.sum) ↔
      ∀ t : Multiset Int, t ≤ oriented xs → t ≠ 0 → (xs.sum.natAbs / 2 : Int) < t.sum := by
  have below := exists_oriented_iff large (p := fun sum => ¬ (xs.sum.natAbs / 2 : Int) < sum)
  rw [← not_iff_not]
  simp only [not_forall, exists_prop]
  exact below

/-- The search for the sum leaves the table exactly for such a list. -/
theorem lists_eq_none_iff {V : Nat → Int} (fits : Fits xs) (small : ¬ Numerous xs)
    (counts : ∀ i ≤ xs.length, (windowOf V xs).Counts dp i) :
    (windowOf V xs).lists xs.length ((windowOf V xs).countEmpty xs.length dp) = none ↔
      LeavesTable xs := by
  set w := windowOf V xs with window
  have ready : w.Ready xs.length := ready_windowOf V xs
  have width : w.width ≤ maxSum := width_windowOf V fits
  have half : w.sum = xs.sum.natAbs / 2 := sum_windowOf V xs
  by_cases large : xs.sum.natAbs ≤ 1
  · refine iff_of_false ?_ fun leaves => absurd leaves.2.1 (by omega)
    cases entries : xs with
    | nil =>
        subst entries
        have cell := ready.countEmpty_target (counts 0 le_rfl)
        rw [List.length_nil] at cell ⊢
        cases found : Window.chIdx (w.countEmpty 0 dp 0) w.target with
        | none =>
            rw [Window.chIdx_eq_none.mp found _ le_rfl, half] at cell
            change 0 = selections 0 0 at cell
            rw [selections_zero] at cell
            exact absurd cell (by decide)
        | some j =>
            rw [Window.lists, found]
            exact Option.some_ne_none _
    | cons x rest =>
        obtain ⟨sol, run, _⟩ := lists_of_small fits large (by rw [entries, List.length_cons]) counts
        rw [← entries, run]
        exact Option.some_ne_none _
  · rw [LeavesTable, above_oriented_iff large, Window.countEmpty, if_neg (by omega)]
    rcases ready.lists_of_pos width counts with ⟨outside, above⟩ |
      ⟨sol, r, run, _, ⟨t, selected, proper, reached⟩, low, _⟩
    · rw [firstOf_windowOf, half] at above
      exact iff_of_true outside ⟨small, by omega, above⟩
    · rw [firstOf_windowOf] at selected
      refine iff_of_false (by rw [run]; exact Option.some_ne_none _) fun leaves => ?_
      have beyond := leaves.2.2 t selected proper
      omega

/-- The search for the sum runs below the table exactly for such a list. -/
theorem chIdx_eq_none_iff {V : Nat → Int} (small : ¬ Numerous xs)
    (counts : (windowOf V xs).Counts dp xs.length) :
    Window.chIdx ((windowOf V xs).countEmpty xs.length dp xs.length) (windowOf V xs).target = none ↔
      LeavesTable xs := by
  set w := windowOf V xs with window
  have ready : w.Ready xs.length := ready_windowOf V xs
  have half : w.sum = xs.sum.natAbs / 2 := sum_windowOf V xs
  rw [Window.chIdx_eq_none]
  by_cases large : xs.sum.natAbs ≤ 1
  · -- the empty set is counted in the target cell
    have zero : w.sum = 0 := by omega
    have cell := ready.countEmpty_target counts
    rw [selections_eq, if_pos zero] at cell
    refine iff_of_false (fun all => ?_) fun leaves => absurd leaves.2.1 (by omega)
    have clear := all _ le_rfl
    omega
  · rw [LeavesTable, above_oriented_iff large, Window.countEmpty, if_neg (by omega)]
    refine ⟨fun all => ⟨small, by omega, fun t selected proper => ?_⟩, fun leaves j bound => ?_⟩
    · rw [← firstOf_windowOf V, ← window] at selected
      by_contra low
      obtain ⟨j, bound, _, positive⟩ :=
        ready.column_of_selection counts selected proper (by omega)
      exact positive (all j bound)
    · have column : j < w.width := Nat.lt_of_le_of_lt bound ready.target_lt
      have reached := ready.target_eq
      rw [counts j column, firstOf_windowOf]
      by_contra positive
      obtain ⟨t, selected, proper, sum⟩ := properSelections_pos_iff.mp (Nat.pos_of_ne_zero positive)
      have beyond := leaves.2.2 t selected proper
      omega

/-- The search for the sum stops in the table exactly if the total is 0, 1 or -1 or some selection
that is not empty has a sum up to half of it. -/
theorem search_stops_iff (V : Nat → Int) (_fits : Fits xs) (small : ¬ Numerous xs) :
    ∃ dp, (windowOf V xs).table xs.length = (false, dp) ∧
      ((∃ j ≤ (windowOf V xs).target,
          Window.chIdx ((windowOf V xs).countEmpty xs.length dp xs.length) (windowOf V xs).target =
            some j) ↔
        xs.sum.natAbs ≤ 1 ∨ ∃ t : Multiset Int, t ≤ xs ∧ t ≠ 0 ∧
          xs.sum.sign * t.sum ≤ xs.sum.natAbs / 2) := by
  obtain ⟨dp, counts, run, _⟩ := answer_of_small (g := ⟨V, fun _ _ => 0, false, false, false⟩) small
  refine ⟨dp, run, ?_⟩
  have leaves := chIdx_eq_none_iff small (counts _ le_rfl)
  have stops : (∃ j ≤ (windowOf V xs).target,
      Window.chIdx ((windowOf V xs).countEmpty xs.length dp xs.length) (windowOf V xs).target =
        some j) ↔ ¬ LeavesTable xs := by
    rw [← leaves, ← ne_eq, Option.ne_none_iff_exists']
    exact ⟨fun ⟨j, _, found⟩ => ⟨j, found⟩, fun ⟨j, found⟩ =>
      ⟨j, (Window.chIdx_eq_some found).1, found⟩⟩
  rw [stops, LeavesTable]
  simp only [small, not_false_eq_true, true_and, not_and_or, not_forall, exists_prop, not_lt,
    not_le]
  exact or_congr_left (by omega)

/-- In the list `1 2 3` the search stops. -/
theorem search_stops_iff_three : ∃ dp, (windowOf (fun _ => 0) [1, 2, 3]).table 3 = (false, dp) ∧
    ∃ j ≤ (windowOf (fun _ => 0) [1, 2, 3]).target,
      Window.chIdx ((windowOf (fun _ => 0) [1, 2, 3]).countEmpty 3 dp 3)
        (windowOf (fun _ => 0) [1, 2, 3]).target = some j := by
  obtain ⟨dp, run, stops⟩ := search_stops_iff (fun _ => 0) (show Fits [1, 2, 3] by decide)
    (not_numerous (by decide))
  exact ⟨dp, run, stops.mpr (.inr ⟨{1}, by decide, by decide, by decide⟩)⟩

/-- In the list `3` no selection but the empty one has a sum up to 1, and the search leaves the
table. -/
theorem search_leaves : Fits [3] ∧ ¬ Numerous [3] ∧
    (windowOf (fun _ => 0) [3]).target = 1 ∧
    ((windowOf (fun _ => 0) [3]).table 1).1 = false ∧
    Window.chIdx ((windowOf (fun _ => 0) [3]).countEmpty 1
      ((windowOf (fun _ => 0) [3]).table 1).2 1) 1 = none :=
  ⟨by decide, not_numerous (by decide), by decide, by decide, by decide⟩

/-! ## One list -/

theorem answer_clears (g : Session) (xs : List Int) : (answer g xs).2.V = fun _ => 0 := by
  rw [answer]
  dsimp only
  split <;> rfl

/-- A list is answered as if it were alone exactly if its count does not depend on the flag. -/
theorem answer_of_cleared (cleared : g.V = start.V) (fits : Fits xs) (small : ¬ Numerous xs) :
    ∃ count alone lists, (answer g xs).1 = .answer count lists ∧
      (answer start xs).1 = .answer alone lists ∧
      (count = alone ↔ (g.odd = true → ¬ Sensitive xs)) ∧ (lists = none ↔ LeavesTable xs) ∧
      ((answer g xs).2.odd = true ↔ PositiveOdd xs ∨ g.odd = true) := by
  obtain ⟨dp, counts, run, printed, odd⟩ := answer_of_small (g := g) small
  obtain ⟨dp', _, run', printed', _⟩ := answer_of_small (g := start) small
  rw [cleared] at run counts printed
  obtain rfl : dp = dp' := (Prod.mk.inj (run.symm.trans run')).2
  refine ⟨_, _, _, printed, printed', ?_, lists_eq_none_iff fits small counts, odd ▸ oddAfter_iff⟩
  rw [sensitive_iff small]
  have after : oddAfter g.odd xs = true ↔ PositiveOdd xs ∨ g.odd = true := oddAfter_iff
  have alone : oddAfter start.odd xs = true ↔ PositiveOdd xs ∨ start.odd = true := oddAfter_iff
  have clear : start.odd = false := rfl
  by_cases positive : PositiveOdd xs
  · rw [if_pos (after.mpr (.inl positive)), if_pos (alone.mpr (.inl positive))]
    exact iff_of_true rfl fun _ others => others.1 positive
  · rw [if_neg fun set => (alone.mp set).elim positive (by rw [clear]; exact Bool.false_ne_true)]
    by_cases left : g.odd = true
    · rw [if_pos (after.mpr (.inr left))]
      exact ⟨fun same _ others => others.2 same.symm,
        fun insensitive => (not_not.mp fun other => insensitive left ⟨positive, other⟩).symm⟩
    · rw [if_neg fun set => (after.mp set).elim positive left]
      exact iff_of_true rfl fun set => absurd set left

theorem session_cons (g : Session) (xs : List Int) (rest : List (List Int)) :
    session g (xs :: rest) = (answer g xs).1 ::
      if (answer g xs).1.lost then [] else session (answer g xs).2 rest := rfl

private theorem session_single (g : Session) (xs : List Int) :
    session g [xs] = [(answer g xs).1] := by
  rw [session_cons]
  split_ifs <;> rfl

/-! ## All lists -/

/-- Every list is answered as if it were alone, when the flag is left over as given. -/
def Undisturbed (left : Prop) : List (List Int) → Prop
  | [] => True
  | xs :: rest =>
      (left → ¬ Sensitive xs) ∧ (rest ≠ [] → ¬ LeavesTable xs) ∧
        Undisturbed (¬ Numerous xs ∧ (PositiveOdd xs ∨ left)) rest

private theorem flatMap_eq_nil {lists : List (List Int)} :
    lists.flatMap (fun xs => session start [xs]) = [] ↔ lists = [] := by
  cases lists with
  | nil => simp
  | cons xs rest => simp [session_single]

private theorem session_eq_iff : ∀ (lists : List (List Int)) (g : Session), g.V = start.V →
    (∀ xs ∈ lists, Fits xs) →
    (session g lists = lists.flatMap (fun xs => session start [xs]) ↔
      Undisturbed (g.odd = true) lists)
  | [], _, _, _ => iff_of_true rfl trivial
  | xs :: rest, g, cleared, fits => by
      have rest_iff := session_eq_iff rest (answer g xs).2 (answer_clears g xs) fun ys member =>
        fits ys (List.mem_cons_of_mem xs member)
      rw [session_cons, List.flatMap_cons, session_single, Undisturbed, List.singleton_append,
        List.cons.injEq]
      by_cases numerous : Numerous xs
      · obtain ⟨printed, odd⟩ := answer_of_numerous (g := g) numerous
        obtain ⟨alone, _⟩ := answer_of_numerous (g := start) numerous
        rw [printed, alone, if_neg (by exact Bool.false_ne_true), rest_iff, odd]
        simp [Sensitive, LeavesTable, numerous]
      · obtain ⟨count, lone, lists, printed, alone, same, leaves, odd⟩ :=
          answer_of_cleared cleared (fits xs List.mem_cons_self) numerous
        rw [printed, alone, ← same, ← leaves]
        cases lists with
        | none =>
            rw [if_pos (by rfl), eq_comm (a := []), flatMap_eq_nil]
            constructor
            · rintro ⟨equal, rfl⟩
              exact ⟨by simpa using equal, fun more => absurd rfl more, trivial⟩
            · rintro ⟨equal, last, _⟩
              exact ⟨by rw [equal], not_not.mp fun more => last more rfl⟩
        | some lists =>
            rw [if_neg (by exact Bool.false_ne_true), rest_iff, odd]
            simp [numerous]

private theorem oddSince_cons {before : List (List Int)} :
    OddSince (xs :: before) ↔
      (PositiveOdd xs ∧ ∀ ys ∈ xs :: before, ¬ Numerous ys) ∨ OddSince before := by
  constructor
  · rintro ⟨earlier, ys, later, split, odd, small⟩
    cases earlier with
    | nil =>
        obtain ⟨rfl, rfl⟩ := List.cons.inj split
        exact .inl ⟨odd, small⟩
    | cons first earlier =>
        obtain ⟨rfl, rfl⟩ := List.cons.inj split
        exact .inr ⟨earlier, ys, later, rfl, odd, small⟩
  · rintro (⟨odd, small⟩ | ⟨earlier, ys, later, rfl, odd, small⟩)
    · exact ⟨[], xs, before, rfl, odd, small⟩
    · exact ⟨xs :: earlier, ys, later, rfl, odd, small⟩

theorem oddSince_or_cons {before : List (List Int)} {left : Prop} :
    OddSince (xs :: before) ∨ (left ∧ ∀ ys ∈ xs :: before, ¬ Numerous ys) ↔
      OddSince before ∨
        ((¬ Numerous xs ∧ (PositiveOdd xs ∨ left)) ∧ ∀ ys ∈ before, ¬ Numerous ys) := by
  rw [oddSince_cons, List.forall_mem_cons]
  constructor
  · rintro ((⟨odd, small, rest⟩ | since) | ⟨set, small, rest⟩)
    · exact .inr ⟨⟨small, .inl odd⟩, rest⟩
    · exact .inl since
    · exact .inr ⟨⟨small, .inr set⟩, rest⟩
  · rintro (since | ⟨⟨small, odd | set⟩, rest⟩)
    · exact .inl (.inr since)
    · exact .inl (.inl ⟨odd, small, rest⟩)
    · exact .inr ⟨set, small, rest⟩

private theorem undisturbed_iff : ∀ (lists : List (List Int)) (left : Prop),
    Undisturbed left lists ↔ ∀ before xs after, lists = before ++ xs :: after →
      (OddSince before ∨ (left ∧ ∀ ys ∈ before, ¬ Numerous ys) → ¬ Sensitive xs) ∧
        (after ≠ [] → ¬ LeavesTable xs)
  | [], _ => by simp [Undisturbed]
  | ys :: rest, left => by
      rw [Undisturbed, undisturbed_iff rest]
      have empty : ¬ OddSince [] := by
        rintro ⟨earlier, xs, later, split, _⟩
        exact List.append_ne_nil_of_right_ne_nil _ (List.cons_ne_nil _ _) split.symm
      constructor
      · rintro ⟨first, inside, others⟩ before xs after split
        cases before with
        | nil =>
            obtain ⟨rfl, rfl⟩ := List.cons.inj split
            refine ⟨?_, inside⟩
            rintro (since | since)
            · exact absurd since empty
            · exact first since.1
        | cons first' before =>
            obtain ⟨rfl, rfl⟩ := List.cons.inj split
            obtain ⟨insensitive, stays⟩ := others before xs after rfl
            exact ⟨fun since => insensitive (oddSince_or_cons.mp since), stays⟩
      · intro all
        have first := all [] ys rest rfl
        refine ⟨fun set => first.1 (.inr ⟨set, by simp⟩), first.2, fun before xs after split => ?_⟩
        obtain ⟨insensitive, stays⟩ := all (ys :: before) xs after (by rw [split]; rfl)
        exact ⟨fun since => insensitive (oddSince_or_cons.mpr since), stays⟩

/-- In a session every list is answered as if it were alone exactly if no list whose own count is
not 0 comes behind a positive odd total without `NUMEROUS` in between, and only the last list lets
the search leave the table. -/
theorem session_eq_alone_iff (lists : List (List Int)) (fits : ∀ xs ∈ lists, Fits xs) :
    session start lists = lists.flatMap (fun xs => session start [xs]) ↔
      ∀ before xs after, lists = before ++ xs :: after →
        (OddSince before → ¬ Sensitive xs) ∧ (after ≠ [] → ¬ LeavesTable xs) := by
  rw [session_eq_iff lists start rfl fits, undisturbed_iff]
  have clear : start.odd = false := rfl
  simp only [clear, Bool.false_eq_true, false_and, or_false]

/-- The list `1` behind `1 1` is answered as if it were alone. -/
theorem session_eq_alone_iff_even : (∀ xs ∈ [[1, 1], [1]], Fits xs) ∧
    ∀ before xs after, [[1, 1], [1]] = before ++ xs :: after →
      (OddSince before → ¬ Sensitive xs) ∧ (after ≠ [] → ¬ LeavesTable xs) :=
  ⟨by decide, (session_eq_alone_iff [[1, 1], [1]] (by decide)).mp (by decide)⟩

/-- The count of `1 1` is 1 when it is alone, and 0 behind the list `1`. -/
theorem session_not_alone : (∀ xs ∈ [[1], [1, 1]], Fits xs) ∧
    session start [[1], [1, 1]] = [.answer 0 (some ([1], [])), .answer 0 (some ([1], [1]))] ∧
      session start [[1, 1]] = [.answer 1 (some ([1], [1]))] := by
  decide

end KwHomework.SubsetDP
