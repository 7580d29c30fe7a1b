import KwHomework.Thread.Calls

/-!
# All queues at once

`Separate` gives every queue its list, with no thread on two of them.  One pair of links serves all
queues, so an operation on one queue is shown to leave the lists of the others alone.
-/

namespace KwHomework.Threads

open Function LinkedList

variable {s s' : Threads} {L : QueueName → List Ptr} {l l₁ l₂ : List Ptr} {q q' : QueueName}
  {t a : Ptr}

/-- The queues hold the threads of these lists, which are disjoint. -/
structure Separate (s : Threads) (L : QueueName → List Ptr) : Prop where
  lists : ∀ q, s.Lists q (L q)
  apart : ∀ {q q' p}, p ∈ L q → p ∈ L q' → q = q'

namespace Separate

/-- Neither queues nor forward links change. -/
theorem congr (separate : s.Separate L) (queue : s'.queue = s.queue) (next : s'.pNext = s.pNext)
    (live : ∀ p, s.allocated p = true → s'.allocated p = true) : s'.Separate L where
  lists q := (separate.lists q).congr (congrFun queue q) (fun a _ => congrFun next a)
    fun a member => live a ((separate.lists q).live a member)
  apart := separate.apart

/-- The list of one queue changes, and the other queues keep their links. -/
theorem update (separate : s.Separate L) (lists : s'.Lists q l)
    (others : ∀ q', q' ≠ q → s'.queue q' = s.queue q')
    (links : ∀ q', q' ≠ q → ∀ a ∈ L q', s'.pNext a = s.pNext a)
    (live : ∀ p, s.allocated p = true → s'.allocated p = true)
    (old : ∀ a ∈ l, a ∈ L q ∨ ∀ q', a ∉ L q') : s'.Separate (Function.update L q l) where
  lists q' := by
    by_cases same : q' = q
    · subst same
      rwa [update_self]
    · rw [update_of_ne same]
      exact (separate.lists q').congr (others q' same) (links q' same)
        fun a member => live a ((separate.lists q').live a member)
  apart {q₁ q₂ p} member₁ member₂ := by
    have only : ∀ {q'}, q' ≠ q → p ∈ L q' → p ∉ l := by
      intro q' other member here
      rcases old p here with inside | outside
      · exact other (separate.apart member inside)
      · exact outside q' member
    by_cases same₁ : q₁ = q
    · by_cases same₂ : q₂ = q
      · rw [same₁, same₂]
      · rw [same₁, update_self] at member₁
        rw [update_of_ne same₂] at member₂
        exact absurd member₁ (only same₂ member₂)
    · rw [update_of_ne same₁] at member₁
      by_cases same₂ : q₂ = q
      · rw [same₂, update_self] at member₂
        exact absurd member₂ (only same₁ member₁)
      · rw [update_of_ne same₂] at member₂
        exact separate.apart member₁ member₂

/-- A thread on no queue is put at the end of one. -/
theorem append (separate : s.Separate L) (q back : QueueName) (fresh : ∀ q', t ∉ L q')
    (live : s.allocated t = true) : ∃ next queue,
    s.append q back t = some (s.relink next
      (Function.update s.pPrev t (if L q = [] then none else (s.queue back).pTail)) q queue) ∧
    (s.relink next (Function.update s.pPrev t (if L q = [] then none else (s.queue back).pTail)) q
      queue).Separate (Function.update L q (L q ++ [t])) := by
  obtain ⟨next, queue, run, lists, same⟩ := (separate.lists q).exists_append back (fresh q) live
  refine ⟨next, queue, run, separate.update lists (fun q' other => update_of_ne other _ _)
    (fun q' other a member => ?_) (fun _ here => here) fun a member => ?_⟩
  · exact same a (ne_of_mem_of_not_mem member (fresh q'))
      fun inside => other (separate.apart member inside)
  · rcases List.mem_append.mp member with inside | new
    · exact Or.inl inside
    · rw [List.mem_singleton.mp new]
      exact Or.inr fresh

/-- The first thread of a queue is taken off. -/
theorem unlink_first (separate : s.Separate L) (front : L q = t :: l) (first : s.pPrev t = none) :
    ∃ prev queue,
    (s.unlink q some t).map (·.countDown q) = some (s.relink s.pNext prev q queue) ∧
    (s.relink s.pNext prev q queue).Separate (Function.update L q l) ∧
    (∀ n, l.head? = some n → prev n = none) ∧ ∀ a, l.head? ≠ some a → prev a = s.pPrev a := by
  have lists := separate.lists q
  rw [front] at lists
  obtain ⟨prev, queue, run, lists', head, kept⟩ := lists.exists_unlink_first first some
  refine ⟨prev, queue, run, separate.update lists' (fun q' other => update_of_ne other _ _)
    (fun _ _ _ _ => rfl) (fun _ here => here) (fun a member => Or.inl ?_), head, kept⟩
  rw [front]
  exact List.mem_cons_of_mem t member

/-- The head of `ReadyQueue` is popped. -/
theorem popReady (separate : s.Separate L) (front : L .ready = t :: l) :
    (s.popReady t l).Separate (Function.update L .ready l) := by
  have lists := separate.lists .ready
  rw [front] at lists
  refine separate.update lists.popReady (fun q' other => update_of_ne other _ _)
    (fun _ _ _ _ => rfl)
    (fun _ here => here) fun a member => Or.inl ?_
  rw [front]
  exact List.mem_cons_of_mem t member

end Separate

theorem Initial.separate (initial : s.Initial) : s.Separate fun _ => [] := by
  obtain ⟨s₀, _, _, closed, rfl⟩ := initial
  have empty : ∀ q, (s₀.init.queue q).queueCount = 0 := by
    intro q
    cases q with
    | ready => rfl
    | waiting => rfl
    | semaphore semid => exact closed semid
  refine ⟨fun q => ⟨empty q, fun nonempty => absurd rfl nonempty,
    fun nonempty => absurd rfl nonempty, List.nodup_nil, fun _ member => ?_⟩, fun member => ?_⟩
  · cases member
  · cases member

end KwHomework.Threads
