import Mathlib.Data.Finset.Card
import Mathlib.Data.Fintype.Card
import Mathlib.Logic.Function.Basic
import Mathlib.Tactic.Common

/-!
# Exclusive ownership of a pool of cells

Owners hold pointers into a pool of cells, and a bitmap marks the cells in use.  `Owned` says that
no cell has two owners and that the bitmap marks exactly the owned cells.  It is kept when an owner
without a cell takes an unmarked one and when an owner gives its cell back.
-/

namespace KwHomework

open Function

/-- When every marked cell is taken by somebody, and there are more cells than takers, some cell is
unmarked. -/
theorem exists_unmarked {Cell C O : Type*} [Fintype C] [Fintype O] {cell : C → Cell}
    (injective : Injective cell) {used : Cell → Bool} {taken : O → Cell}
    (taker : ∀ c, used (cell c) = true → ∃ o, taken o = cell c)
    (fewer : Fintype.card O < Fintype.card C) : ∃ c, used (cell c) = false := by
  by_contra all
  push Not at all
  choose takerOf takes using fun c => taker c (by simpa using all c)
  have takerOf_injective : Injective takerOf := fun c c' same =>
    injective (by rw [← takes c, same, takes c'])
  exact Nat.not_le.mpr fewer (Fintype.card_le_of_injective takerOf takerOf_injective)

/-- Every cell of the pool that is marked as used has exactly one owner. -/
structure Owned {Owner Cell : Type*} (null : Cell) (pool : Set Cell) (ptr : Owner → Cell)
    (used : Cell → Bool) : Prop where
  null_notMem : null ∉ pool
  mem_pool : ∀ i, ptr i ≠ null → ptr i ∈ pool
  injective : ∀ i j, ptr i ≠ null → ptr i = ptr j → i = j
  used_iff : ∀ c ∈ pool, used c = true ↔ ∃ i, ptr i = c

namespace Owned

variable {Owner Cell : Type*}
variable {null : Cell} {pool : Set Cell} {ptr : Owner → Cell} {used : Cell → Bool}

/-- The cell of an owner is marked. -/
theorem used_ptr (owned : Owned null pool ptr used) {i : Owner} (holds : ptr i ≠ null) :
    used (ptr i) = true :=
  (owned.used_iff _ (owned.mem_pool i holds)).mpr ⟨i, rfl⟩

/-- An unmarked cell of the pool is nobody's. -/
theorem ptr_ne_of_unused (owned : Owned null pool ptr used) {c : Cell} (inside : c ∈ pool)
    (unused : used c = false) (i : Owner) : ptr i ≠ c := by
  intro same
  rw [(owned.used_iff c inside).mpr ⟨i, same⟩] at unused
  exact Bool.noConfusion unused

/-- With more cells than owners some cell is unmarked. -/
theorem exists_unused (owned : Owned null pool ptr used) {C O : Type*} [Fintype C] [Fintype O]
    {cell : C → Cell} (injective : Injective cell) (inside : ∀ c, cell c ∈ pool)
    {owner : O → Owner} (holders : ∀ i, ptr i ≠ null → ∃ o, owner o = i)
    (fewer : Fintype.card O < Fintype.card C) : ∃ c, used (cell c) = false := by
  have taker : ∀ c, used (cell c) = true → ∃ o, ptr (owner o) = cell c := by
    intro c marked
    obtain ⟨i, same⟩ := (owned.used_iff _ (inside c)).mp marked
    obtain ⟨o, rfl⟩ := holders i fun empty => owned.null_notMem (empty ▸ same ▸ inside c)
    exact ⟨o, same⟩
  exact exists_unmarked injective taker fewer

/-- As many cells are marked as owners hold one. -/
theorem card_used (owned : Owned null pool ptr used) {cells : Finset Cell} {owners : Finset Owner}
    (inside : ∀ c, c ∈ cells ↔ c ∈ pool) (holders : ∀ i, i ∈ owners ↔ ptr i ≠ null) :
    (cells.filter fun c => used c).card = owners.card := by
  refine (Finset.card_nbij ptr (fun i held => ?_) (fun i held j _ same => ?_)
    fun c marked => ?_).symm
  · have holds := (holders i).mp held
    refine Finset.mem_filter.mpr ⟨(inside _).mpr (owned.mem_pool i holds), owned.used_ptr holds⟩
  · exact owned.injective i j ((holders i).mp held) same
  · obtain ⟨member, marked⟩ := Finset.mem_filter.mp marked
    obtain ⟨i, rfl⟩ := (owned.used_iff c ((inside c).mp member)).mp marked
    exact ⟨i, (holders i).mpr fun empty => owned.null_notMem (empty ▸ (inside _).mp member), rfl⟩

variable [DecidableEq Owner] [DecidableEq Cell]

/-- An owner without a cell takes an unmarked one. -/
theorem assign (owned : Owned null pool ptr used) {i : Owner} {c : Cell} (inside : c ∈ pool)
    (unused : used c = false) (empty : ptr i = null) :
    Owned null pool (update ptr i c) (update used c true) where
  null_notMem := owned.null_notMem
  mem_pool := by
    intro j holds
    by_cases same : j = i
    · rwa [same, update_self]
    · rw [update_of_ne same] at holds ⊢
      exact owned.mem_pool j holds
  injective := by
    intro j j' holds eq
    by_cases left : j = i <;> by_cases right : j' = i
    · rw [left, right]
    · rw [left, update_self, update_of_ne right] at eq
      exact absurd eq.symm (owned.ptr_ne_of_unused inside unused j')
    · rw [right, update_self, update_of_ne left] at eq
      exact absurd eq (owned.ptr_ne_of_unused inside unused j)
    · rw [update_of_ne left] at holds eq
      rw [update_of_ne right] at eq
      exact owned.injective j j' holds eq
  used_iff := by
    intro d inside'
    by_cases same : d = c
    · rw [same, update_self]
      exact ⟨fun _ => ⟨i, update_self i c ptr⟩, fun _ => rfl⟩
    · rw [update_of_ne same, owned.used_iff d inside']
      constructor
      · rintro ⟨j, rfl⟩
        refine ⟨j, update_of_ne ?_ c ptr⟩
        rintro rfl
        exact owned.null_notMem (empty ▸ inside')
      · rintro ⟨j, eq⟩
        by_cases taken : j = i
        · rw [taken, update_self] at eq
          exact absurd eq.symm same
        · rw [update_of_ne taken] at eq
          exact ⟨j, eq⟩

/-- An owner gives its cell back. -/
theorem clear (owned : Owned null pool ptr used) {i : Owner} (holds : ptr i ≠ null) :
    Owned null pool (update ptr i null) (update used (ptr i) false) where
  null_notMem := owned.null_notMem
  mem_pool := by
    intro j holds'
    by_cases same : j = i
    · rw [same, update_self] at holds'
      exact absurd rfl holds'
    · rw [update_of_ne same] at holds' ⊢
      exact owned.mem_pool j holds'
  injective := by
    intro j j' holds' eq
    have left : j ≠ i := by
      rintro rfl
      exact holds' (update_self j null ptr)
    rw [update_of_ne left] at holds' eq
    by_cases right : j' = i
    · rw [right, update_self] at eq
      exact absurd eq holds'
    · rw [update_of_ne right] at eq
      exact owned.injective j j' holds' eq
  used_iff := by
    intro d inside
    by_cases same : d = ptr i
    · rw [same, update_self]
      refine ⟨fun marked => Bool.noConfusion marked, ?_⟩
      rintro ⟨j, eq⟩
      by_cases cleared : j = i
      · rw [cleared, update_self] at eq
        exact absurd eq.symm holds
      · rw [update_of_ne cleared] at eq
        exact absurd (owned.injective i j holds eq.symm).symm cleared
    · rw [update_of_ne same, owned.used_iff d inside]
      constructor
      · rintro ⟨j, rfl⟩
        refine ⟨j, update_of_ne ?_ null ptr⟩
        rintro rfl
        exact same rfl
      · rintro ⟨j, eq⟩
        by_cases cleared : j = i
        · rw [cleared, update_self] at eq
          exact absurd (eq ▸ inside) owned.null_notMem
        · rw [update_of_ne cleared] at eq
          exact ⟨j, eq⟩

end Owned

/-! ## Counting the marked cells -/

section Counting

variable {Cell : Type*} {used used' : Cell → Bool} {cells : List Cell} {c : Cell}

/-- Unmarking some cells and marking none. -/
theorem countP_lt (fewer : ∀ d ∈ cells, used' d = true → used d = true) (inside : c ∈ cells)
    (marked : used c = true) (cleared : used' c = false) :
    cells.countP used' < cells.countP used := by
  induction cells with
  | nil => cases inside
  | cons d cells induction =>
      have rest : ∀ e ∈ cells, used' e = true → used e = true := fun e member =>
        fewer e (List.mem_cons_of_mem _ member)
      have less := List.countP_mono_left rest
      rcases List.mem_cons.mp inside with rfl | later
      · rw [List.countP_cons_of_pos marked, List.countP_cons_of_neg (by simp [cleared])]
        omega
      · have strict := induction rest later
        have first := fewer d List.mem_cons_self
        simp only [List.countP_cons]
        split_ifs with now before
        · omega
        · exact absurd (first now) before
        · omega
        · omega

variable [DecidableEq Cell]

theorem countP_update_of_notMem (outside : c ∉ cells) (value : Bool) :
    cells.countP (update used c value) = cells.countP used := by
  refine List.countP_congr fun d member => ?_
  have other : d ≠ c := by
    rintro rfl
    exact outside member
  rw [update_of_ne other]

/-- Marking a cell. -/
theorem countP_mark (nodup : cells.Nodup) (inside : c ∈ cells) (unused : used c = false) :
    cells.countP (update used c true) = cells.countP used + 1 := by
  induction cells with
  | nil => cases inside
  | cons d cells induction =>
      obtain ⟨outside, nodup⟩ := List.nodup_cons.mp nodup
      by_cases same : d = c
      · subst same
        rw [List.countP_cons_of_pos (by simp), List.countP_cons_of_neg (by simp [unused]),
          countP_update_of_notMem outside]
      · have later : c ∈ cells := (List.mem_cons.mp inside).resolve_left (Ne.symm same)
        simp only [List.countP_cons, update_of_ne same, induction nodup later]
        omega

end Counting
end KwHomework
