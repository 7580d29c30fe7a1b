import Mathlib.Data.List.Basic
import Mathlib.Data.List.Nodup
import Mathlib.Logic.Function.Basic
import Mathlib.Logic.Function.Iterate
import Mathlib.Tactic.Common

/-!
# Round robin

A current task and a queue of others.  A tick puts the current task at the end of the queue, unless
it has exited, and makes the first one current.  Seen as the order in which the tasks are served a
tick is a rotation, so a full turn serves every task once.
-/

namespace KwHomework

open Function

/-- The tasks, and how many ticks have selected each. -/
structure RoundRobin (τ : Type*) where
  current : Option τ
  /-- The current task has exited. -/
  exited : Bool
  queue : List τ
  ticks : τ → Nat

namespace RoundRobin

variable {τ : Type*} {r : RoundRobin τ} {t : τ}

/-- Nothing has been created. -/
def empty : RoundRobin τ := ⟨none, false, [], fun _ => 0⟩

/-- A new task goes to the end of the queue. -/
def create (r : RoundRobin τ) (t : τ) : RoundRobin τ := { r with queue := r.queue ++ [t] }

/-- The current task exits. -/
def exit (r : RoundRobin τ) : RoundRobin τ := { r with exited := true }

/-- The current task leaves. -/
def leave (r : RoundRobin τ) : RoundRobin τ := { r with current := none }

/-- The order in which the tasks will be served, the current one last. -/
def order (r : RoundRobin τ) : List τ := r.queue ++ if r.exited then [] else r.current.toList

variable [DecidableEq τ]

/-- A task is gone, and its ticks are not remembered. -/
def forget (r : RoundRobin τ) (t : τ) : RoundRobin τ := { r with ticks := update r.ticks t 0 }

/-- A task is selected while the others wait in `queue`. -/
def select (r : RoundRobin τ) (t : τ) (queue : List τ) : RoundRobin τ :=
  ⟨some t, false, queue, update r.ticks t (r.ticks t + 1)⟩

/-- A tick. -/
def tick (r : RoundRobin τ) : RoundRobin τ :=
  match r.current, r.queue with
  | none, [] => r
  | none, t :: l => r.select t l
  | some c, [] => r.select c []
  | some c, t :: l => r.select t (if r.exited then l else l ++ [c])

/-- A tick selects a task of the queue or keeps the current one. -/
theorem current_tick (current : r.tick.current = some t) : t ∈ r.queue ∨ r.current = some t := by
  obtain ⟨here, exited, queue, ticks⟩ := r
  cases here with
  | none =>
      cases queue with
      | nil => cases current
      | cons a l => exact .inl (Option.some.inj current ▸ List.mem_cons_self)
  | some c =>
      cases queue with
      | nil => exact .inr current
      | cons a l => exact .inl (Option.some.inj current ▸ List.mem_cons_self)

/-- A tick leaves a task to serve. -/
theorem tick_busy (busy : r.current = none → r.queue ≠ []) : r.tick.current = none →
    r.tick.queue ≠ [] := by
  obtain ⟨here, exited, queue, ticks⟩ := r
  intro none
  cases here with
  | none =>
      cases queue with
      | nil => exact absurd rfl (busy rfl)
      | cons a l => cases none
  | some c => cases queue <;> cases none

/-- A tick serves the first task and puts it last.  An exited task is not served again, as long as
there is another one. -/
theorem order_tick {l : List τ} (order : r.order = t :: l)
    (others : r.exited = true → r.queue ≠ []) :
    r.tick.order = l ++ [t] ∧ r.tick.current = some t ∧
      r.tick.ticks = update r.ticks t (r.ticks t + 1) ∧ r.tick.exited = false := by
  obtain ⟨current, exited, queue, ticks⟩ := r
  cases queue with
  | nil =>
      cases exited with
      | true => exact absurd rfl (others rfl)
      | false =>
          cases current with
          | none => simp [RoundRobin.order] at order
          | some c =>
              obtain ⟨rfl, rfl⟩ : c = t ∧ [] = l := by simpa [RoundRobin.order] using order
              exact ⟨rfl, rfl, rfl, rfl⟩
  | cons b queue =>
      obtain ⟨rfl, rest⟩ := List.cons_eq_cons.mp order
      cases current with
      | none =>
          obtain rfl : queue = l := by simpa using rest
          exact ⟨rfl, rfl, rfl, rfl⟩
      | some c =>
          refine ⟨?_, rfl, rfl, rfl⟩
          rw [← rest]
          cases exited with
          | true => simp [tick, select, RoundRobin.order]
          | false => simp [tick, select, RoundRobin.order]

theorem iterate_tick {l₁ l₂ : List τ} : ∀ {r : RoundRobin τ}, r.order = l₁ ++ t :: l₂ →
    (r.exited = true → r.queue ≠ []) →
    (tick^[l₁.length + 1] r).order = l₂ ++ l₁ ++ [t] ∧
      (tick^[l₁.length + 1] r).current = some t := by
  induction l₁ generalizing l₂ with
  | nil =>
      intro r order others
      obtain ⟨order', current, _⟩ := order_tick order others
      rw [List.append_nil]
      exact ⟨order', current⟩
  | cons a l₁ induction =>
      intro r order others
      obtain ⟨order', _, _, alive⟩ := order_tick order others
      have rest : r.tick.order = l₁ ++ t :: (l₂ ++ [a]) := by
        rw [order']
        simp
      obtain ⟨turned, current⟩ := induction rest fun exited => by simp [alive] at exited
      rw [List.length_cons, iterate_succ_apply]
      exact ⟨by rw [turned]; simp, current⟩

theorem current_iterate_tick (others : r.exited = true → r.queue ≠ []) {k : Nat}
    (small : k < r.order.length) : (tick^[k + 1] r).current = r.order[k]? := by
  have split : r.order = r.order.take k ++ r.order[k] :: r.order.drop (k + 1) := by
    rw [← List.drop_eq_getElem_cons small, List.take_append_drop]
  have served := (iterate_tick split others).2
  rwa [List.length_take_of_le (Nat.le_of_lt small), ← List.getElem?_eq_getElem small] at served

/-- Each of `n` tasks is current after exactly one of `n` consecutive ticks. -/
theorem existsUnique_current (nodup : r.order.Nodup) (others : r.exited = true → r.queue ≠ [])
    (member : t ∈ r.order) :
    ∃! k, k < r.order.length ∧ (tick^[k + 1] r).current = some t := by
  obtain ⟨k, small, here⟩ := List.getElem_of_mem member
  have here' : r.order[k]? = some t := by rw [List.getElem?_eq_getElem small, here]
  refine ⟨k, ⟨small, (current_iterate_tick others small).trans here'⟩, ?_⟩
  rintro j ⟨small', there⟩
  have there' := (current_iterate_tick others small').symm.trans there
  exact (List.getElem?_inj small' nodup).mp (there'.trans here'.symm)

end RoundRobin
end KwHomework
