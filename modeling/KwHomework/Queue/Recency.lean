import Mathlib.Data.Finset.Card
import Mathlib.Data.List.Dedup
import Mathlib.Data.List.DropRight

/-!
# Recency order

The entries of a trace in increasing order of their last occurrence, and a bounded queue that moves
an entry to its tail whenever it is used.  A new entry that finds the queue full replaces the one
at the head.  Whatever the trace, the queue holds the most recently used entries in recency order.
-/

namespace Recency

variable {α : Type*}

/-- In the trace, `x` is used for the last time before `y` is. -/
def LastBefore (trace : List α) (x y : α) : Prop :=
  ∃ before after, trace = before ++ x :: after ∧ x ∉ after ∧ y ∈ after

variable [DecidableEq α]

/-- The most recently used distinct entries of a trace, the least recent one first. -/
def recent (capacity : Nat) (trace : List α) : List α := trace.dedup.rtake capacity

/-- Use an entry. -/
def touch (capacity : Nat) (queue : List α) (x : α) : List α :=
  if x ∈ queue then queue.erase x ++ [x]
  else if queue.length < capacity then queue ++ [x]
  else queue.tail ++ [x]

/-! ## Traces -/

omit [DecidableEq α] in
theorem LastBefore.cons {trace : List α} {x y : α} (order : LastBefore trace x y) (z : α) :
    LastBefore (z :: trace) x y := by
  obtain ⟨before, after, trace_eq, last, later⟩ := order
  exact ⟨z :: before, after, by rw [trace_eq, List.cons_append], last, later⟩

theorem pairwise_dedup : ∀ trace : List α, trace.dedup.Pairwise (LastBefore trace)
  | [] => List.Pairwise.nil
  | z :: trace => by
      have rest := (pairwise_dedup trace).imp fun order => LastBefore.cons order z
      by_cases again : z ∈ trace
      · rwa [List.dedup_cons_of_mem again]
      · rw [List.dedup_cons_of_notMem again, List.pairwise_cons]
        exact ⟨fun y later => ⟨[], trace, rfl, again, List.mem_dedup.mp later⟩, rest⟩

theorem dedup_concat (x : α) : ∀ trace : List α,
    (trace ++ [x]).dedup = trace.dedup.erase x ++ [x]
  | [] => by simp
  | z :: trace => by
      have rest := dedup_concat x trace
      rw [List.cons_append]
      by_cases again : z ∈ trace
      · have inside : z ∈ trace ++ [x] := List.mem_append_left _ again
        rw [List.dedup_cons_of_mem inside, List.dedup_cons_of_mem again, rest]
      · rw [List.dedup_cons_of_notMem again]
        by_cases same : z = x
        · subst same
          have absent : z ∉ trace.dedup := fun member => again (List.mem_dedup.mp member)
          have inside : z ∈ trace ++ [z] := by simp
          rw [List.dedup_cons_of_mem inside, rest, List.erase_of_not_mem absent,
            List.erase_cons_head]
        · have absent : z ∉ trace ++ [x] := by simp [again, same]
          rw [List.dedup_cons_of_notMem absent, rest,
            List.erase_cons_tail (by simpa using same), List.cons_append]

/-! ## The queue -/

omit [DecidableEq α] in
private theorem rtake_of_length_le {queue : List α} {capacity : Nat}
    (short : queue.length ≤ capacity) : queue.rtake capacity = queue := by
  rw [List.rtake, Nat.sub_eq_zero_of_le short, List.drop_zero]

omit [DecidableEq α] in
private theorem rtake_append {dropped kept : List α} {capacity : Nat}
    (full : kept.length = capacity) : (dropped ++ kept).rtake capacity = kept := by
  rw [List.rtake, List.length_append, full, Nat.add_sub_cancel, List.drop_left]

theorem length_recent (capacity : Nat) (trace : List α) :
    (recent capacity trace).length = min capacity trace.toFinset.card := by
  rw [recent, List.rtake, List.length_drop, List.card_toFinset]
  omega

/-- The queue lists its entries in the order of their last uses. -/
theorem pairwise_recent (capacity : Nat) (trace : List α) :
    (recent capacity trace).Pairwise (LastBefore trace) :=
  (pairwise_dedup trace).sublist (List.drop_sublist _ _)

/-- An entry of the trace that the queue does not hold was used for the last time before all that
it holds. -/
theorem lastBefore_of_not_mem_recent {capacity : Nat} {trace : List α} {x y : α} (used : x ∈ trace)
    (dropped : x ∉ recent capacity trace) (kept : y ∈ recent capacity trace) :
    LastBefore trace x y := by
  have order := pairwise_dedup trace
  have member := List.mem_dedup.mpr used
  rw [← List.take_append_drop (trace.dedup.length - capacity) trace.dedup] at order member
  rw [List.pairwise_append] at order
  rw [List.mem_append] at member
  exact order.2.2 x (member.resolve_right dropped) y kept

theorem touch_rtake {capacity : Nat} (room : 0 < capacity) {queue : List α}
    (nodup : queue.Nodup) (x : α) :
    touch capacity (queue.rtake capacity) x = (queue.erase x ++ [x]).rtake capacity := by
  rcases Nat.lt_or_ge queue.length capacity with short | long
  · -- nothing was ever dropped
    have whole : (queue.erase x ++ [x]).length ≤ capacity := by
      have := List.length_erase_le (a := x) (l := queue)
      rw [List.length_append, List.length_singleton]
      omega
    rw [rtake_of_length_le short.le, rtake_of_length_le whole, touch]
    split_ifs with used
    · rfl
    · rw [List.erase_of_not_mem used]
  · obtain ⟨dropped, kept, queue_eq, full⟩ :
        ∃ dropped kept, queue = dropped ++ kept ∧ kept.length = capacity :=
      ⟨_, _, (List.take_append_drop (queue.length - capacity) queue).symm, by
        rw [List.length_drop]
        omega⟩
    subst queue_eq
    rw [rtake_append full, touch]
    split_ifs with used short
    · have absent : x ∉ dropped := fun earlier =>
        (List.disjoint_of_nodup_append nodup) earlier used
      rw [List.erase_append_right _ absent, List.append_assoc]
      refine (rtake_append ?_).symm
      rw [List.length_append, List.length_erase_of_mem used, List.length_singleton]
      omega
    · omega
    · obtain ⟨oldest, newer, kept_eq⟩ := List.exists_cons_of_length_pos (full ▸ room)
      subst kept_eq
      have erased : (dropped ++ oldest :: newer).erase x = dropped.erase x ++ oldest :: newer := by
        by_cases earlier : x ∈ dropped
        · exact List.erase_append_left _ earlier
        · rw [List.erase_of_not_mem earlier, List.erase_of_not_mem (by simp [earlier, used])]
      have tail_full : (newer ++ [x]).length = capacity := by simpa using full
      rw [erased, List.tail_cons, List.append_assoc, List.cons_append,
        List.append_cons (dropped.erase x) oldest, rtake_append tail_full]

/-- One more use of the trace is one use of the queue. -/
theorem recent_concat {capacity : Nat} (room : 0 < capacity) (trace : List α) (x : α) :
    recent capacity (trace ++ [x]) = touch capacity (recent capacity trace) x := by
  rw [recent, dedup_concat, recent, touch_rtake room (List.nodup_dedup trace)]

/-- Only a new entry that finds the queue full replaces one, the one at the head. -/
theorem evicted {capacity : Nat} {queue : List α} {x y : α} (here : y ∈ queue)
    (gone : y ∉ touch capacity queue x) :
    x ∉ queue ∧ capacity ≤ queue.length ∧ queue.head? = some y := by
  rw [touch] at gone
  split_ifs at gone with used short
  · refine absurd ?_ gone
    by_cases same : y = x
    · simp [same]
    · exact List.mem_append_left _ ((List.mem_erase_of_ne same).mpr here)
  · exact absurd (List.mem_append_left _ here) gone
  · refine ⟨used, Nat.not_lt.mp short, ?_⟩
    cases queue with
    | nil => simp at here
    | cons oldest newer =>
        simp only [List.tail_cons, List.mem_append, not_or] at gone
        simpa [gone.1, eq_comm] using here

end Recency
