import Mathlib.Data.List.GetD
import Mathlib.Data.List.Sort
import Mathlib.Order.Defs.LinearOrder

/-!
# Ranks in a list

The `k`-th smallest value of a list is characterized by counting the values below and up to it; it
is the entry `k` of the sorted list.
-/

namespace Ranks

variable {α : Type*} [LinearOrder α] {values front back : List α} {k : Nat} {v : α}

/-- The value is the smallest one but `k`. -/
structure Ranked (values : List α) (k : Nat) (v : α) : Prop where
  mem : v ∈ values
  below : values.countP (· < v) ≤ k
  upTo : k < values.countP (· ≤ v)

theorem ranked_middle (order : (front ++ v :: back).Pairwise (· ≤ ·)) :
    Ranked (front ++ v :: back) front.length v := by
  obtain ⟨_, behind, across⟩ := List.pairwise_append.mp order
  have low : ∀ a ∈ front, a ≤ v := fun a member => across a member v List.mem_cons_self
  have high : ∀ a ∈ v :: back, v ≤ a :=
    List.forall_mem_cons.mpr ⟨le_rfl, (List.pairwise_cons.mp behind).1⟩
  refine ⟨by simp, ?_, ?_⟩
  · have none_below : (v :: back).countP (· < v) = 0 :=
      List.countP_eq_zero.mpr fun a member => by simpa using high a member
    rw [List.countP_append, none_below]
    exact List.countP_le_length
  · have all_upTo : front.countP (· ≤ v) = front.length :=
      List.countP_eq_length.mpr fun a member => by simpa using low a member
    rw [List.countP_append, all_upTo, List.countP_cons_of_pos (by simp)]
    omega

/-- The entries of the sorted list have the ranks of their positions. -/
theorem ranked_insertionSort (bound : k < values.length) (default : α) :
    Ranked values k ((values.insertionSort (· ≤ ·)).getD k default) := by
  set sorted := values.insertionSort (· ≤ ·) with sorting
  have perm : sorted.Perm values := List.perm_insertionSort _ _
  have inside : k < sorted.length := by rwa [perm.length_eq]
  have split : sorted = sorted.take k ++ sorted.getD k default :: sorted.drop (k + 1) := by
    rw [List.getD_eq_getElem _ _ inside, List.getElem_cons_drop, List.take_append_drop]
  have order : sorted.Pairwise (· ≤ ·) := List.pairwise_insertionSort (· ≤ ·) values
  have length : (sorted.take k).length = k := List.length_take_of_le inside.le
  rw [split] at order
  obtain ⟨mem, below, upTo⟩ := ranked_middle order
  rw [← split, length] at below upTo
  rw [← split] at mem
  exact ⟨perm.mem_iff.mp mem, perm.countP_eq _ ▸ below, perm.countP_eq _ ▸ upTo⟩

/-- Below the smallest value there is none. -/
theorem Ranked.lt_iff_of_first (ranked : Ranked values 0 v) {x : α} :
    v < x ↔ ∃ a ∈ values, a < x := by
  refine ⟨fun above => ⟨v, ranked.mem, above⟩, fun ⟨a, member, above⟩ => ?_⟩
  have least := List.countP_eq_zero.mp (Nat.le_zero.mp ranked.below) a member
  exact (not_lt.mp (by simpa using least)).trans_lt above

/-- Above the largest value there is none. -/
theorem Ranked.lt_iff_of_last (ranked : Ranked values k v) (last : k + 1 = values.length) {x : α} :
    x < v ↔ ∃ a ∈ values, x < a := by
  refine ⟨fun below => ⟨v, ranked.mem, below⟩, fun ⟨a, member, below⟩ => ?_⟩
  have all : values.countP (· ≤ v) = values.length :=
    le_antisymm List.countP_le_length (by rw [← last]; exact ranked.upTo)
  have most := List.countP_eq_length.mp all a member
  exact below.trans_le (by simpa using most)

/-! ## Outliers -/

variable {ι : Type*} {positions : List ι} {f : ι → α} {bad : ι → Bool}

private theorem exists_of_countP_lt {p : ι → Bool}
    (more : positions.countP bad < positions.countP p) :
    ∃ i ∈ positions, bad i = false ∧ p i = true := by
  by_contra none
  refine more.not_ge (List.countP_mono_left fun i member passes => ?_)
  by_contra clean
  exact none ⟨i, member, Bool.eq_false_iff.mpr clean, passes⟩

/-- The middle one of `2 * k + 1` values, `k` of which may be outliers, lies between two that are
none. -/
theorem Ranked.exists_between (ranked : Ranked (positions.map f) k v)
    (length : positions.length = 2 * k + 1) (few : positions.countP bad ≤ k) :
    (∃ i ∈ positions, bad i = false ∧ f i ≤ v) ∧ ∃ i ∈ positions, bad i = false ∧ v ≤ f i := by
  obtain ⟨_, below, upTo⟩ := ranked
  rw [List.countP_map] at below upTo
  constructor
  · obtain ⟨i, member, clean, passes⟩ := exists_of_countP_lt (few.trans_lt upTo)
    exact ⟨i, member, clean, by simpa using passes⟩
  · have all := List.length_eq_countP_add_countP ((· < v) ∘ f) (l := positions)
    have above : positions.countP bad <
        positions.countP fun i => decide ¬ ((fun a => decide (a < v)) ∘ f) i = true := by
      omega
    obtain ⟨i, member, clean, passes⟩ := exists_of_countP_lt above
    exact ⟨i, member, clean, by simpa using passes⟩

end Ranks
