import Mathlib.Data.Set.Card
import Mathlib.Logic.Function.Basic
import Mathlib.Logic.Relation
import Mathlib.Tactic.Common

/-!
# Check, then act

Clients share a counter of units.  A client tests that the counter is not zero, and takes a unit in
a later step; other clients may come in between.  No unit is taken twice as long as a client passes
the test only while there are more units than clients that have passed it and not yet taken theirs.
-/

namespace KwHomework.CheckThenAct

open Function Relation

/-- Where a client is. -/
inductive Phase where
  | outside
  /-- The client has passed the test. -/
  | passed
  /-- The client has taken a unit and not given it back. -/
  | inside
  deriving DecidableEq

structure Counter (κ : Type*) where
  count : Int
  phase : κ → Phase

namespace Counter

variable {κ : Type*} {a b : Counter κ} {p : κ} {x y z : Phase} {c : Int}

/-- The clients in a phase. -/
def clients (a : Counter κ) (x : Phase) : Set κ := {p | a.phase p = x}

/-- There are `c` units, and enough are left for the clients that have passed the test. -/
structure Bounded (c : Int) (a : Counter κ) : Prop where
  finite : ∀ x, x ≠ .outside → (a.clients x).Finite
  total : a.count + (a.clients .inside).ncard = c
  room : ((a.clients .passed).ncard : Int) ≤ a.count

theorem bounded_of_outside (count : a.count = c) (positive : 0 ≤ c)
    (outside : ∀ p, a.phase p = .outside) : a.Bounded c := by
  have empty : ∀ x, x ≠ .outside → a.clients x = ∅ := by
    intro x busy
    apply Set.eq_empty_of_forall_notMem
    intro p member
    exact busy (member.symm.trans (outside p))
  constructor
  · intro x busy
    rw [empty x busy]
    exact Set.finite_empty
  · rw [empty .inside nofun, Set.ncard_empty, count]
    simp
  · rw [empty .passed nofun, Set.ncard_empty, count]
    simpa using positive

/-- The counter is not negative, and at most `c` clients hold a unit. -/
theorem Bounded.safe {n : Nat} (bounded : a.Bounded n) :
    0 ≤ a.count ∧ (a.clients .inside).encard ≤ n := by
  have total := bounded.total
  have room := bounded.room
  constructor
  · omega
  · rw [← (bounded.finite .inside nofun).cast_ncard_eq]
    exact_mod_cast (show (a.clients .inside).ncard ≤ n by omega)

variable [DecidableEq κ]

/-- A step of one client. -/
inductive Step : Counter κ → Counter κ → Prop
  | pass {a : Counter κ} {p : κ} : a.phase p = .outside →
      ((a.clients .passed).ncard : Int) < a.count → Step a ⟨a.count, update a.phase p .passed⟩
  | take {a : Counter κ} {p : κ} : a.phase p = .passed →
      Step a ⟨a.count - 1, update a.phase p .inside⟩
  | give {a : Counter κ} {p : κ} : a.phase p = .inside →
      Step a ⟨a.count + 1, update a.phase p .outside⟩

/-! ## A client that changes its phase -/

theorem clients_enter (count : Int) :
    clients ⟨count, update a.phase p x⟩ x = insert p (a.clients x) := by
  ext q
  by_cases same : q = p
  · simp [clients, same]
  · simp [clients, same]

theorem clients_leave (count : Int) (other : x ≠ y) :
    clients ⟨count, update a.phase p x⟩ y = a.clients y \ {p} := by
  ext q
  by_cases same : q = p
  · simp [clients, same, other]
  · simp [clients, same]

theorem clients_other (count : Int) (here : a.phase p = y) (left : z ≠ y) (entered : x ≠ z) :
    clients ⟨count, update a.phase p x⟩ z = a.clients z := by
  rw [clients_leave count entered]
  apply Set.sdiff_singleton_eq_self
  intro member
  exact left (member.symm.trans here)

section

variable (finite : (a.clients x).Finite) (count : Int)
include finite

theorem ncard_enter (here : a.phase p ≠ x) :
    (clients ⟨count, update a.phase p x⟩ x).ncard = (a.clients x).ncard + 1 := by
  rw [clients_enter]
  exact Set.ncard_insert_of_notMem here finite

theorem ncard_leave (here : a.phase p = x) (other : y ≠ x) :
    (clients ⟨count, update a.phase p y⟩ x).ncard + 1 = (a.clients x).ncard := by
  rw [clients_leave count other]
  exact Set.ncard_sdiff_singleton_add_one here finite

end

theorem finite_update (finite : (a.clients y).Finite) (count : Int) :
    (clients ⟨count, update a.phase p x⟩ y).Finite := by
  by_cases same : x = y
  · subst same
    rw [clients_enter]
    exact finite.insert p
  · rw [clients_leave count same]
    exact finite.sdiff

/-! ## Steps -/

theorem Bounded.step (bounded : a.Bounded c) (step : Step a b) : b.Bounded c := by
  have total := bounded.total
  have room := bounded.room
  have finite : ∀ {p x} (count : Int) y, y ≠ .outside →
      (clients ⟨count, update a.phase p x⟩ y).Finite := fun count y busy =>
    finite_update (bounded.finite y busy) count
  cases step with
  | pass here fewer =>
      constructor
      · exact finite _
      · rw [clients_other (x := .passed) (z := .inside) _ here nofun nofun]
        exact total
      · rw [ncard_enter (bounded.finite .passed nofun) _ (by rw [here]; nofun)]
        push_cast
        omega
  | take here =>
      have left := ncard_leave (bounded.finite .passed nofun) (a.count - 1) here
        (show Phase.inside ≠ .passed from nofun)
      constructor
      · exact finite _
      · rw [ncard_enter (bounded.finite .inside nofun) _ (by rw [here]; nofun)]
        push_cast
        omega
      · change (_ : Int) ≤ a.count - 1
        omega
  | give here =>
      have left := ncard_leave (bounded.finite .inside nofun) (a.count + 1) here
        (show Phase.outside ≠ .inside from nofun)
      constructor
      · exact finite _
      · change a.count + 1 + _ = c
        omega
      · rw [clients_other (x := .outside) (z := .passed) _ here nofun nofun]
        change _ ≤ a.count + 1
        omega

theorem Bounded.steps (bounded : a.Bounded c) (steps : ReflTransGen Step a b) : b.Bounded c := by
  induction steps with
  | refl => exact bounded
  | tail _ step induction => exact induction.step step

end Counter
end KwHomework.CheckThenAct
