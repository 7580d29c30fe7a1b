import Mathlib.Data.List.Basic
import Mathlib.Data.List.Nodup
import Mathlib.Logic.Function.Basic
import Mathlib.Tactic.Common

/-!
# Linked lists with a head pointer

Nodes carry a `next` and a `prev` link, either of which may be null.  `Trail` says what following
`next` visits, and `Backs` what the `prev` links of the visited nodes are.  The two are kept apart:
a list whose `prev` links have gone stale can still be walked.
-/

namespace KwHomework.LinkedList

open Function

variable {ν : Type*} {next next' prev prev' : ν → Option ν} {head before rest : Option ν}
  {l l' : List ν} {a t : ν}

/-- Following `next` from `head` visits `l` and arrives at `rest`. -/
def Trail (next : ν → Option ν) : Option ν → List ν → Option ν → Prop
  | head, [], rest => head = rest
  | head, a :: l, rest => head = some a ∧ Trail next (next a) l rest

/-- Every node of `l` points back to the one in front of it, and the first one to `before`. -/
def Backs (prev : ν → Option ν) : Option ν → List ν → Prop
  | _, [] => True
  | before, a :: l => prev a = before ∧ Backs prev (some a) l

/-- The last node, or what is in front of the list. -/
def lastOr (before : Option ν) (l : List ν) : Option ν := l.getLast?.or before

@[simp] theorem lastOr_nil : lastOr before ([] : List ν) = before := rfl

@[simp] theorem lastOr_concat : lastOr before (l ++ [a]) = some a := by simp [lastOr]

theorem lastOr_cons : lastOr before (a :: l) = lastOr (some a) l := by
  cases l with
  | nil => rfl
  | cons b l => simp [lastOr, List.getLast?_cons]

theorem lastOr_eq_of_ne_nil (nonempty : l ≠ []) : lastOr before l = l.getLast? := by
  cases last : l.getLast? with
  | none => exact absurd (List.getLast?_eq_none_iff.mp last) nonempty
  | some b => rw [lastOr, last, Option.some_or]

/-! ## Following `next` -/

theorem trail_append : Trail next head (l ++ l') rest ↔
    ∃ m, Trail next head l m ∧ Trail next m l' rest := by
  induction l generalizing head with
  | nil => exact ⟨fun path => ⟨head, rfl, path⟩, fun ⟨_, same, path⟩ => same ▸ path⟩
  | cons a l induction =>
      constructor
      · intro ⟨first, path⟩
        obtain ⟨m, left, right⟩ := induction.mp path
        exact ⟨m, ⟨first, left⟩, right⟩
      · intro ⟨m, ⟨first, left⟩, right⟩
        exact ⟨first, induction.mpr ⟨m, left, right⟩⟩

theorem Trail.congr (path : Trail next head l rest) (same : ∀ a ∈ l, next' a = next a) :
    Trail next' head l rest := by
  induction l generalizing head with
  | nil => exact path
  | cons a l induction =>
      obtain ⟨first, tail⟩ := path
      refine ⟨first, ?_⟩
      rw [same a (by simp)]
      exact induction tail fun b member => same b (List.mem_cons_of_mem a member)

/-- Two walks from one head agree as long as both go on. -/
theorem Trail.prefix_of_le {rest' : Option ν} (path : Trail next head l rest)
    (path' : Trail next head l' rest') (shorter : l.length ≤ l'.length) : l <+: l' := by
  induction l generalizing head l' with
  | nil => exact List.nil_prefix
  | cons a l induction =>
      cases l' with
      | nil => simp at shorter
      | cons b l' =>
          obtain ⟨first, tail⟩ := path
          obtain ⟨first', tail'⟩ := path'
          obtain rfl : a = b := Option.some.inj (first.symm.trans first')
          exact List.cons_prefix_cons.mpr
            ⟨rfl, induction tail tail' (Nat.le_of_succ_le_succ shorter)⟩

variable [DecidableEq ν]

/-- Writing the link of a node that the walk does not visit. -/
theorem Trail.update (path : Trail next head l rest) (outside : a ∉ l) (link : Option ν) :
    Trail (update next a link) head l rest :=
  path.congr fun _ member => update_of_ne (ne_of_mem_of_not_mem member outside) _ _

/-- A node is put behind the last one. -/
theorem Trail.concat (path : Trail next head (l ++ [a]) none) (nodup : (l ++ [a]).Nodup)
    (fresh : t ∉ l ++ [a]) :
    Trail (Function.update (Function.update next a (some t)) t none) head
      (l ++ [a] ++ [t]) none := by
  have other : a ≠ t := by
    rintro rfl
    simp at fresh
  have outside : a ∉ l := fun member => by
    have := List.disjoint_of_nodup_append nodup member
    simp at this
  have outside' : t ∉ l := fun member => fresh (List.mem_append_left _ member)
  obtain ⟨m, left, first, _⟩ := trail_append.mp path
  rw [List.append_assoc]
  refine trail_append.mpr ⟨m, (left.update outside _).update outside' _, first, ?_, ?_⟩
  · rw [update_of_ne other, update_self]
  · rw [update_self]
    rfl

/-- The node in front is made to point behind the one that leaves. -/
theorem Trail.bypass {l₁ l₂ : List ν} {p : ν} (path : Trail next head (l₁ ++ p :: t :: l₂) rest)
    (nodup : (l₁ ++ p :: t :: l₂).Nodup) :
    Trail (Function.update next p (next t)) head (l₁ ++ p :: l₂) rest := by
  obtain ⟨m, left, first, second, right⟩ := trail_append.mp path
  have parts := List.nodup_append.mp nodup
  have outside : p ∉ l₁ := fun member => parts.2.2 p member p (by simp) rfl
  have outside' : p ∉ l₂ := fun member =>
    (List.nodup_cons.mp parts.2.1).1 (List.mem_cons_of_mem t member)
  refine trail_append.mpr ⟨m, left.update outside _, first, ?_⟩
  rw [update_self]
  exact right.update outside' _

/-! ## Pointing back -/

omit [DecidableEq ν] in
theorem backs_append : Backs prev before (l ++ l') ↔
    Backs prev before l ∧ Backs prev (lastOr before l) l' := by
  induction l generalizing before with
  | nil => exact ⟨fun backs => ⟨trivial, backs⟩, And.right⟩
  | cons a l induction =>
      rw [lastOr_cons]
      exact (and_congr_right fun _ => induction).trans and_assoc.symm

omit [DecidableEq ν] in
theorem Backs.congr (backs : Backs prev before l) (same : ∀ a ∈ l, prev' a = prev a) :
    Backs prev' before l := by
  induction l generalizing before with
  | nil => trivial
  | cons a l induction =>
      obtain ⟨first, tail⟩ := backs
      exact ⟨(same a (by simp)).trans first,
        induction tail fun b member => same b (List.mem_cons_of_mem a member)⟩

theorem Backs.update (backs : Backs prev before l) (outside : a ∉ l) (link : Option ν) :
    Backs (update prev a link) before l :=
  backs.congr fun _ member => update_of_ne (ne_of_mem_of_not_mem member outside) _ _

/-- A node that is put behind the last one points back to it. -/
theorem Backs.concat (backs : Backs prev before l) (fresh : t ∉ l) :
    Backs (Function.update prev t (lastOr before l)) before (l ++ [t]) := by
  refine backs_append.mpr ⟨backs.update fresh _, ?_, trivial⟩
  rw [update_self]

/-- The node behind the one that leaves points back to the one in front. -/
theorem Backs.bypass {l₁ l₂ : List ν} {n : ν} (backs : Backs prev before (l₁ ++ t :: n :: l₂))
    (nodup : (l₁ ++ t :: n :: l₂).Nodup) :
    Backs (Function.update prev n (prev t)) before (l₁ ++ n :: l₂) := by
  obtain ⟨left, first, second, right⟩ := backs_append.mp backs
  have parts := List.nodup_append.mp nodup
  have outside : n ∉ l₁ := fun member => parts.2.2 n member n (by simp) rfl
  have outside' : n ∉ l₂ := (List.nodup_cons.mp (List.nodup_cons.mp parts.2.1).2).1
  refine backs_append.mpr ⟨left.update outside _, ?_, right.update outside' _⟩
  rw [update_self, first]

end KwHomework.LinkedList
