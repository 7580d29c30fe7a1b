import Mathlib.Algebra.BigOperators.Fin
import Mathlib.Algebra.Group.Int.Defs
import Mathlib.Algebra.Order.Group.Unbundled.Abs
import Mathlib.Algebra.Order.BigOperators.Group.Multiset
import Mathlib.Data.Finset.Powerset
import Mathlib.Data.Multiset.Powerset
import Mathlib.Data.Sym.Sym2
import Mathlib.Tactic.Linarith

/-!
# Selections with a given sum

The selections of a multiset are its sub-multisets, and a value that occurs several times can be
selected in several ways.  Subset sums count the selections with a sum, with or without the empty
one, and the best selection of a multiset cuts its sum as nearly in half as any.
-/

namespace KwHomework

section Counting

variable {α : Type*} [AddCommGroup α] [DecidableEq α] {m : Multiset α} {s v : α}

/-- The number of selections with a sum. -/
def selections (m : Multiset α) (s : α) : Nat :=
  m.powerset.countP fun t => t.sum = s

/-- The number of selections with a sum that are not empty. -/
def properSelections (m : Multiset α) (s : α) : Nat :=
  m.powerset.countP fun t => t ≠ 0 ∧ t.sum = s

@[simp] theorem properSelections_zero (s : α) : properSelections 0 s = 0 := by
  rw [properSelections, Multiset.countP_eq_zero]
  intro t selected
  rw [Multiset.powerset_zero, Multiset.mem_singleton] at selected
  exact fun proper => proper.1 selected

theorem selections_zero (s : α) : selections 0 s = if s = 0 then 1 else 0 := by
  rw [selections, Multiset.powerset_zero, ← Multiset.cons_zero, Multiset.countP_cons,
    Multiset.countP_zero, Multiset.sum_zero, zero_add]
  simp only [eq_comm]

theorem selections_eq (m : Multiset α) (s : α) :
    selections m s = properSelections m s + if s = 0 then 1 else 0 := by
  induction m using Multiset.induction_on with
  | empty => rw [selections_zero, properSelections_zero, zero_add]
  | cons v m induction =>
      simp only [selections, properSelections, Multiset.powerset_cons, Multiset.countP_add]
        at induction ⊢
      rw [induction, Multiset.countP_map, Multiset.countP_map]
      simp only [Multiset.cons_ne_zero, ne_eq, not_false_eq_true, true_and]
      omega

private theorem selections_cons (v : α) (m : Multiset α) (s : α) :
    selections (v ::ₘ m) s = selections m s + selections m (s - v) := by
  simp only [selections, Multiset.powerset_cons, Multiset.countP_add, Multiset.countP_map,
    Multiset.sum_cons, ← Multiset.countP_eq_card_filter, eq_sub_iff_add_eq']

theorem properSelections_cons (v : α) (m : Multiset α) (s : α) :
    properSelections (v ::ₘ m) s =
      properSelections m s + (if v = s then 1 else 0) + properSelections m (s - v) := by
  have counted := selections_cons v m s
  rw [selections_eq, selections_eq, selections_eq] at counted
  simp only [sub_eq_zero, eq_comm (a := s)] at counted ⊢
  omega

theorem properSelections_pos_iff :
    0 < properSelections m s ↔ ∃ t ≤ m, t ≠ 0 ∧ t.sum = s := by
  simp [properSelections, Multiset.countP_pos]

theorem selections_pos_iff : 0 < selections m s ↔ ∃ t ≤ m, t.sum = s := by
  simp [selections, Multiset.countP_pos]

/-- Turning every sign turns the sums. -/
theorem selections_neg (m : Multiset α) (s : α) :
    selections (m.map (- ·)) (-s) = selections m s := by
  induction m using Multiset.induction_on generalizing s with
  | empty => rw [Multiset.map_zero, selections_zero, selections_zero]; simp only [neg_eq_zero]
  | cons v m induction =>
      rw [Multiset.map_cons, selections_cons, selections_cons, induction, ← induction (s - v),
        neg_sub_neg, neg_sub]

/-! ## Selections of positions -/

open Finset

omit [AddCommGroup α] [DecidableEq α] in
private theorem powerset_map {β : Type*} (f : β → α) (m : Multiset β) :
    (m.map f).powerset = m.powerset.map (Multiset.map f) := by
  induction m using Multiset.induction_on with
  | empty => rfl
  | cons v m induction =>
      rw [Multiset.map_cons, Multiset.powerset_cons, Multiset.powerset_cons, induction,
        Multiset.map_add, Multiset.map_map, Multiset.map_map]
      simp only [Function.comp_def, Multiset.map_cons]

omit [AddCommGroup α] [DecidableEq α] in
theorem card_positions {ι : Type*} [Fintype ι] [DecidableEq ι] (f : ι → α)
    (p : Multiset α → Prop) [DecidablePred p] :
    #{I : Finset ι | p (I.val.map f)} = (univ.val.map f).powerset.countP p := by
  have subsets : (univ : Finset (Finset ι)).val.map Finset.val =
      (univ : Finset ι).val.powerset := by
    rw [← powerset_univ]
    simp [Finset.powerset, Multiset.map_pmap, Multiset.pmap_eq_map]
  rw [powerset_map, ← subsets, Multiset.map_map, Multiset.countP_map]
  rfl

/-- The sets of positions that are not empty. -/
theorem card_nonempty_sum {n : Nat} (f : Fin n → α) (s : α) :
    #{I : Finset (Fin n) | I.Nonempty ∧ ∑ i ∈ I, f i = s} =
      properSelections (univ.val.map f) s := by
  rw [properSelections, ← card_positions]
  refine congrArg card (filter_congr fun I _ => ?_)
  rw [ne_eq, Multiset.map_eq_zero, val_eq_zero, ← ne_eq, nonempty_iff_ne_empty]
  rfl

/-- The sum over some positions of a list. -/
def sumAt (xs : List α) (I : Finset (Fin xs.length)) : α := ∑ i ∈ I, xs.get i

theorem card_sumAt (xs : List α) (s : α) :
    #{I | sumAt xs I = s} = selections (xs : Multiset α) s := by
  have values : (univ : Finset (Fin xs.length)).val.map xs.get = (xs : Multiset α) := by
    rw [Fin.univ_val_map, List.ofFn_get]
  rw [selections, ← values, ← card_positions]
  rfl

omit [DecidableEq α] in
private theorem sumAt_compl (xs : List α) (I : Finset (Fin xs.length)) :
    sumAt xs I + sumAt xs Iᶜ = xs.sum := by
  rw [sumAt, sumAt, sum_add_sum_compl, ← List.sum_ofFn, List.ofFn_get]

/-- The sets of positions that have the same sum as the other positions. -/
def evenSides (xs : List α) : Finset (Finset (Fin xs.length)) := {I | sumAt xs I = sumAt xs Iᶜ}

/-- The splits of the positions into two sides with equal sums. -/
def equalSplits (xs : List α) : Finset (Sym2 (Finset (Fin xs.length))) :=
  (evenSides xs).image fun I => s(I, Iᶜ)

theorem two_mul_card_equalSplits {xs : List α} (nonempty : xs ≠ []) :
    2 * #(equalSplits xs) = #(evenSides xs) := by
  have : Nonempty (Fin xs.length) := ⟨⟨0, List.length_pos_of_ne_nil nonempty⟩⟩
  rw [card_eq_sum_card_image (fun I => s(I, Iᶜ)) (evenSides xs), mul_comm]
  refine (sum_const_nat fun split member => ?_).symm
  obtain ⟨I, equal, rfl⟩ := mem_image.mp member
  have sides : (evenSides xs).filter (fun J => s(J, Jᶜ) = s(I, Iᶜ)) = {I, Iᶜ} := by
    ext J
    rw [mem_filter, mem_insert, mem_singleton, Sym2.eq_iff]
    constructor
    · rintro ⟨_, ⟨rfl, _⟩ | ⟨rfl, _⟩⟩
      · exact .inl rfl
      · exact .inr rfl
    · rintro (rfl | rfl)
      · exact ⟨equal, .inl ⟨rfl, rfl⟩⟩
      · refine ⟨?_, .inr ⟨rfl, compl_compl I⟩⟩
        rw [evenSides, mem_filter_univ] at equal ⊢
        rw [compl_compl, equal]
  rw [sides, card_pair ne_compl_self]

end Counting
section Halves

variable {m : Multiset Int} {r : Int}

open Finset

/-- An odd total has no equal split, and the equal splits of an even one are pairs of selections
with half of it. -/
theorem card_equalSplits {xs : List Int} (nonempty : xs ≠ []) :
    #(equalSplits xs) =
      if xs.sum % 2 = 0 then selections (xs : Multiset Int) (xs.sum / 2) / 2 else 0 := by
  have twice := two_mul_card_equalSplits nonempty
  split_ifs with even
  · have half : evenSides xs = univ.filter fun I => sumAt xs I = xs.sum / 2 := by
      refine filter_congr fun I _ => ?_
      have total := sumAt_compl xs I
      omega
    rw [half, card_sumAt] at twice
    omega
  · have none : evenSides xs = ∅ := by
      refine filter_false_of_mem fun I _ => ?_
      have total := sumAt_compl xs I
      omega
    rw [none, card_empty] at twice
    omega

theorem sum_nonpos (below : ∀ x ∈ m, x ≤ 0) : m.sum ≤ 0 :=
  (Multiset.sum_le_card_nsmul m 0 below).trans_eq (nsmul_zero _)

/-- No selection has a smaller sum than the negative values together. -/
theorem negative_le_sum {t : Multiset Int} (selected : t ≤ m) : (m.filter (· < 0)).sum ≤ t.sum := by
  obtain ⟨rest, rfl⟩ := Multiset.le_iff_exists_add.mp selected
  have low : (rest.filter (· < 0)).sum ≤ 0 :=
    sum_nonpos fun x member => (Multiset.mem_filter.mp member).2.le
  have high : 0 ≤ (t.filter fun x => ¬ x < 0).sum :=
    Multiset.sum_nonneg fun x member => not_lt.mp (Multiset.mem_filter.mp member).2
  have parts := congrArg Multiset.sum (Multiset.filter_add_not (· < 0) t)
  rw [Multiset.sum_add] at parts
  rw [Multiset.filter_add, Multiset.sum_add]
  omega

/-- A selection with the sum cuts the total as evenly as any. -/
def Evenest (m : Multiset Int) (r : Int) : Prop :=
  ∀ t ≤ m, |2 * r - m.sum| ≤ |2 * t.sum - m.sum|

theorem sum_sub {t : Multiset Int} (selected : t ≤ m) : (m - t).sum = m.sum - t.sum := by
  have whole := Multiset.sum_add (m - t) t
  rw [tsub_add_cancel_of_le selected] at whole
  omega

/-- The largest sum of a selection up to the half that is not empty is evenest exactly if it is not
negative, as the empty selection is one of the others. -/
theorem evenest_iff (half : 2 * r ≤ m.sum)
    (largest : ∀ t ≤ m, t ≠ 0 → 2 * t.sum ≤ m.sum → t.sum ≤ r) (nonneg : 0 ≤ m.sum) :
    Evenest m r ↔ 0 ≤ r := by
  constructor
  · intro evenest
    have empty := evenest 0 (Multiset.zero_le m)
    rw [Multiset.sum_zero, Int.abs_eq_natAbs, Int.abs_eq_natAbs] at empty
    omega
  · intro positive
    have lower : ∀ t ≤ m, 2 * t.sum ≤ m.sum → t.sum ≤ r := by
      intro t selected low
      by_cases empty : t = 0
      · rw [empty, Multiset.sum_zero]
        exact positive
      · exact largest t selected empty low
    intro t selected
    rw [Int.abs_eq_natAbs, Int.abs_eq_natAbs]
    rcases le_total (2 * t.sum) m.sum with low | high
    · have bound := lower t selected low
      omega
    · have rest := sum_sub selected
      have bound := lower (m - t) (Multiset.sub_le_self m t) (by omega)
      omega

theorem sum_map_neg (t : Multiset Int) : (t.map (- ·)).sum = -t.sum := by
  rw [Multiset.sum_map_neg, Multiset.map_id']

theorem exists_le_neg_iff {p : Multiset Int → Prop} :
    (∃ t, t ≤ m.map (- ·) ∧ p t) ↔ ∃ t, t ≤ m ∧ p (t.map (- ·)) := by
  constructor
  · rintro ⟨t, selected, holds⟩
    have back := Multiset.map_le_map (f := (- ·)) selected
    exact ⟨t.map (- ·), by simpa using back, by simpa using holds⟩
  · rintro ⟨t, selected, holds⟩
    exact ⟨t.map (- ·), Multiset.map_le_map selected, holds⟩

/-- Turning every sign turns the evenest sums. -/
theorem evenest_neg : Evenest (m.map (- ·)) (-r) ↔ Evenest m r := by
  have turn : ∀ {m : Multiset Int} {r : Int}, Evenest m r → Evenest (m.map (- ·)) (-r) := by
    intro m r evenest t selected
    have back : t.map (- ·) ≤ m := by
      have mapped := Multiset.map_le_map (f := (- ·)) selected
      simpa using mapped
    have bound := evenest _ back
    rw [sum_map_neg, Int.abs_eq_natAbs, Int.abs_eq_natAbs] at bound
    rw [sum_map_neg, Int.abs_eq_natAbs, Int.abs_eq_natAbs]
    omega
  refine ⟨fun evenest => ?_, turn⟩
  have twice := turn evenest
  simpa using twice

/-- With a total of 0, 1 or -1, a sum is evenest exactly if it is 0 or the total. -/
theorem evenest_iff_of_small (small : m.sum.natAbs ≤ 1) : Evenest m r ↔ r = 0 ∨ r = m.sum := by
  constructor
  · intro evenest
    have empty := evenest 0 (Multiset.zero_le m)
    rw [Multiset.sum_zero, Int.abs_eq_natAbs, Int.abs_eq_natAbs] at empty
    omega
  · intro close t _
    rw [Int.abs_eq_natAbs, Int.abs_eq_natAbs]
    omega

end Halves
end KwHomework
