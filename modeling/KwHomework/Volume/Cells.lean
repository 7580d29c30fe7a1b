import Mathlib.Data.List.Induction
import Mathlib.Logic.Function.Basic
import Mathlib.Order.Bounds.Basic

/-!
# Cells and marked numbers

The cells of an array are assigned one after the other, and each holds what was assigned to it last.
A search goes through the numbers below a bound for one that is not in a set, and returns the
least.
-/

namespace Cells

open Function

variable {ι α : Type*} [DecidableEq ι]

/-- The cells after some assignments in order. -/
def after (cells : ι → α) (writes : List (ι × α)) : ι → α :=
  writes.foldl (fun cells write => update cells write.1 write.2) cells

/-- The value that was assigned to a cell last. -/
def last (writes : List (ι × α)) (i : ι) : Option α := writes.reverse.lookup i

theorem last_concat (writes : List (ι × α)) (write : ι × α) (i : ι) :
    last (writes ++ [write]) i = if i = write.1 then some write.2 else last writes i := by
  rw [last, List.reverse_append, List.reverse_singleton, List.singleton_append, List.lookup_cons]
  by_cases same : i = write.1
  · simp [same]
  · rw [if_neg same, beq_eq_false_iff_ne.mpr same]
    rfl

/-- A cell holds what was assigned to it last, or what it held before. -/
theorem after_eq (cells : ι → α) (writes : List (ι × α)) (i : ι) :
    after cells writes i = (last writes i).getD (cells i) := by
  induction writes using List.reverseRecOn with
  | nil => rfl
  | append_singleton writes write induction =>
      rw [after, List.foldl_append, List.foldl_cons, List.foldl_nil, ← after, last_concat]
      by_cases same : i = write.1
      · rw [if_pos same, same, update_self, Option.getD_some]
      · rw [if_neg same, update_of_ne same, induction]

/-- A search finds the least number below its bound that is not in the set. -/
theorem isLeast_of_find? {bound n : Nat} {inside : Nat → Bool} {s : Set Nat}
    (members : ∀ m, inside m = true ↔ m ∈ s)
    (found : (List.range bound).find? (fun m => !inside m) = some n) :
    IsLeast {m | m < bound ∧ m ∉ s} n := by
  obtain ⟨outside, below, earlier⟩ := List.find?_range_eq_some.mp found
  refine ⟨⟨List.mem_range.mp below, fun member => ?_⟩, fun m ⟨_, free⟩ => ?_⟩
  · simp [(members n).mpr member] at outside
  · by_contra less
    have taken := earlier m (not_le.mp less)
    exact free ((members m).mp (by simpa using taken))

theorem find?_eq_none_iff {bound : Nat} {inside : Nat → Bool} {s : Set Nat}
    (members : ∀ m, inside m = true ↔ m ∈ s) :
    (List.range bound).find? (fun m => !inside m) = none ↔ ∀ m < bound, m ∈ s := by
  simp [List.find?_eq_none, members]

end Cells
