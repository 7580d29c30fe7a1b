import KwHomework.Queue.LinkedList
import KwHomework.Thread.Threads
import Mathlib.Tactic.Simps.Basic

/-!
# The queues as lists

`Lists` says that a queue holds the threads of a list.  A queue with `queueCount` zero is empty
whatever its pointers are.  Under it the code that puts a thread on a queue or takes it off acts on
the lists, provided that the thread it takes off has the right `pPrev`.
-/

namespace KwHomework.Threads

open Function LinkedList

variable {s s' : Threads} {q back : QueueName} {l l₁ l₂ : List Ptr} {t a : Ptr}

/-- The queue holds the threads of the list, in this order. -/
structure Lists (s : Threads) (q : QueueName) (l : List Ptr) : Prop where
  count : (s.queue q).queueCount = l.length
  path : l ≠ [] → Trail s.pNext (s.queue q).pHead l none
  tail : l ≠ [] → (s.queue q).pTail = l.getLast?
  nodup : l.Nodup
  live : ∀ a ∈ l, s.allocated a = true

/-- Other links and another queue. -/
@[simps -fullyApplied] def relink (s : Threads) (next prev : Ptr → Option Ptr) (q : QueueName)
    (queue : ThreadQueue) : Threads :=
  { s with pNext := next, pPrev := prev, queue := update s.queue q queue }

theorem deref_some (live : s.allocated a = true) : s.deref (some a) = some a := by
  simp [deref, live]

theorem deref_eq_some {p : Option Ptr} : s.deref p = some a ↔ p = some a ∧
    s.allocated a = true := by
  simp [deref, Option.filter_eq_some_iff]

theorem setNext_some (live : s.allocated a = true) (link : Option Ptr) :
    s.setNext (some a) link = some { s with pNext := update s.pNext a link } := by
  simp [setNext, deref_some live]

theorem setPrev_some (live : s.allocated a = true) (link : Option Ptr) :
    s.setPrev (some a) link = some { s with pPrev := update s.pPrev a link } := by
  simp [setPrev, deref_some live]

/-! ## What does not change -/

theorem relink_of_setNext {p link : Option Ptr} (run : s.setNext p link = some s') :
    ∃ next, s' = { s with pNext := next } := by
  obtain ⟨a, _, rest⟩ := Option.bind_eq_some_iff.mp run
  exact ⟨_, (Option.some.inj rest).symm⟩

theorem relink_of_setPrev {p link : Option Ptr} (run : s.setPrev p link = some s') :
    ∃ prev, s' = { s with pPrev := prev } := by
  obtain ⟨a, _, rest⟩ := Option.bind_eq_some_iff.mp run
  exact ⟨_, (Option.some.inj rest).symm⟩

/-- Putting a thread on a queue changes links and this queue only. -/
theorem relink_of_append (run : s.append q back t = some s') :
    ∃ next prev queue, s' = s.relink next prev q queue := by
  by_cases empty : (s.queue q).queueCount = 0
  · simp only [append, empty, if_true, setQueue, Option.some.injEq, update_self, update_idem] at run
    exact ⟨_, _, _, run.symm⟩
  · simp only [append, if_neg empty] at run
    obtain ⟨s₁, set, rest⟩ := Option.bind_eq_some_iff.mp run
    obtain ⟨next, rfl⟩ := relink_of_setNext set
    simp only [setQueue, Option.some.injEq, update_self, update_idem] at rest
    exact ⟨_, _, _, rest.symm⟩

/-- Taking a thread off a queue changes links and the ends of this queue only. -/
theorem relink_of_unlink (run : s.unlink q (·.leaveHead q t) t = some s') :
    ∃ next prev queue, s' = s.relink next prev q queue ∧
      queue.queueCount = (s.queue q).queueCount := by
  cases front : s.pPrev t with
  | none =>
      cases after : s.pNext t with
      | none =>
          simp only [unlink, front, after, Option.some.injEq] at run
          exact ⟨s.pNext, s.pPrev, s.queue q, by simp [relink, ← run], rfl⟩
      | some n =>
          simp only [unlink, front, after, unlinkFirst] at run
          obtain ⟨s₁, set, rest⟩ := Option.bind_eq_some_iff.mp run
          obtain ⟨prev, rfl⟩ := relink_of_setPrev set
          exact ⟨_, _, _, (Option.some.inj rest).symm, rfl⟩
  | some p =>
      cases after : s.pNext t with
      | none =>
          simp only [unlink, front, after, unlinkLast] at run
          obtain ⟨s₁, set, rest⟩ := Option.bind_eq_some_iff.mp run
          obtain ⟨next, rfl⟩ := relink_of_setNext set
          exact ⟨_, _, _, (Option.some.inj rest).symm, rfl⟩
      | some n =>
          simp only [unlink, front, after] at run
          obtain ⟨s₁, moved, rest⟩ := Option.bind_eq_some_iff.mp run
          obtain ⟨s₂, set, rest⟩ := Option.bind_eq_some_iff.mp rest
          obtain ⟨head, _, moved⟩ := Option.bind_eq_some_iff.mp moved
          obtain ⟨next, rfl⟩ := relink_of_setNext set
          obtain ⟨prev, rfl⟩ := relink_of_setPrev rest
          split_ifs at moved
          · obtain rfl := Option.some.inj moved
            exact ⟨next, prev, _, rfl, rfl⟩
          · obtain rfl := Option.some.inj moved
            exact ⟨next, prev, s.queue q, by simp [relink], rfl⟩

namespace Lists

/-- The links of the listed threads and the queue are as before. -/
theorem congr (lists : s.Lists q l) (queue : s'.queue q = s.queue q)
    (links : ∀ a ∈ l, s'.pNext a = s.pNext a) (live : ∀ a ∈ l, s'.allocated a = true) :
    s'.Lists q l where
  count := by rw [queue, lists.count]
  path nonempty := by
    rw [queue]
    exact (lists.path nonempty).congr links
  tail nonempty := by rw [queue, lists.tail nonempty]
  nodup := lists.nodup
  live := live

theorem queueCount_eq_zero_iff (lists : s.Lists q l) : (s.queue q).queueCount = 0 ↔ l = [] := by
  rw [lists.count, Int.natCast_eq_zero, List.length_eq_zero_iff]

theorem queueCount_pos_iff (lists : s.Lists q l) : 0 < (s.queue q).queueCount ↔ l ≠ [] := by
  rw [lists.count, Int.natCast_pos, List.length_pos_iff]

theorem pHead_eq (lists : s.Lists q (t :: l)) : (s.queue q).pHead = some t :=
  (lists.path (List.cons_ne_nil t l)).1

theorem pNext_eq (lists : s.Lists q (l₁ ++ t :: l₂)) : s.pNext t = l₂.head? := by
  obtain ⟨m, _, _, rest⟩ := trail_append.mp (lists.path (by simp))
  cases l₂ with
  | nil => exact rest
  | cons n l₂ => exact rest.1

theorem pNext_head (lists : s.Lists q (t :: l)) : s.pNext t = l.head? :=
  pNext_eq (show s.Lists q ([] ++ t :: l) from lists)

/-! ## Putting a thread on a queue -/

/-- A thread is put at the end of a queue. -/
theorem exists_append (lists : s.Lists q l) (back : QueueName) (fresh : t ∉ l)
    (live : s.allocated t = true) : ∃ next queue,
    s.append q back t = some (s.relink next
      (update s.pPrev t (if l = [] then none else (s.queue back).pTail)) q queue) ∧
    (s.relink next (update s.pPrev t (if l = [] then none else (s.queue back).pTail)) q queue).Lists
      q (l ++ [t]) ∧
    ∀ a, a ≠ t → a ∉ l → next a = s.pNext a := by
  rcases List.eq_nil_or_concat l with rfl | ⟨l, p, rfl⟩
  · have empty := lists.queueCount_eq_zero_iff.mpr rfl
    refine ⟨update s.pNext t none, ⟨1, some t, some t⟩, ?_, ⟨?_, fun _ => ?_, fun _ => ?_, ?_, ?_⟩,
      fun a other _ => update_of_ne other _ _⟩
    · simp [append, empty, setQueue, relink]
    · simp
    · simp [Trail]
    · simp
    · simp
    · simpa using live
  · rw [List.concat_eq_append] at *
    have nonempty : l ++ [p] ≠ [] := by simp
    have counted : (s.queue q).queueCount ≠ 0 := fun zero =>
      nonempty (lists.queueCount_eq_zero_iff.mp zero)
    have tail : (s.queue q).pTail = some p := by simpa using lists.tail nonempty
    have last : s.allocated p = true := lists.live p (by simp)
    refine ⟨update (update s.pNext p (some t)) t none,
      ⟨(s.queue q).queueCount + 1, (s.queue q).pHead, some t⟩, ?_, ⟨?_, fun _ => ?_, fun _ => ?_,
        ?_, ?_⟩, fun a other outside => ?_⟩
    · simp [append, counted, tail, setNext_some, last, setQueue, relink]
    · simp [lists.count]
      omega
    · simp only [relink_pNext, relink_queue, update_self]
      exact (lists.path nonempty).concat lists.nodup fresh
    · simp
    · exact List.nodup_append.mpr ⟨lists.nodup, by simp, fun b member c same => by
        rw [List.mem_singleton.mp same]
        exact ne_of_mem_of_not_mem member fresh⟩
    · intro b member
      rcases List.mem_append.mp member with old | new
      · exact lists.live b old
      · rw [List.mem_singleton.mp new]
        exact live
    · have different : a ≠ p := by
        rintro rfl
        simp at outside
      rw [update_of_ne other, update_of_ne different]

/-- A thread at the end of a queue points back to what is in front of it. -/
theorem backs_concat (lists : s.Lists q l) {before : Option Ptr} (backs : Backs s.pPrev before l)
    (fresh : t ∉ l) : Backs (update s.pPrev t (if l = [] then none else (s.queue q).pTail))
      (if l = [] then none else before) (l ++ [t]) := by
  by_cases empty : l = []
  · subst empty
    exact ⟨by simp, trivial⟩
  · rw [if_neg empty, if_neg empty, lists.tail empty, ← lastOr_eq_of_ne_nil empty]
    exact backs.concat fresh

/-! ## Taking a thread off a queue -/

theorem remove {next prev : Ptr → Option Ptr} {queue : ThreadQueue}
    (lists : s.Lists q (l₁ ++ t :: l₂)) (count : queue.queueCount = (s.queue q).queueCount - 1)
    (path : l₁ ++ l₂ ≠ [] → Trail next queue.pHead (l₁ ++ l₂) none)
    (tail : l₁ ++ l₂ ≠ [] → queue.pTail = (l₁ ++ l₂).getLast?) :
    (s.relink next prev q queue).Lists q (l₁ ++ l₂) where
  count := by
    have length := lists.count
    simp only [relink_queue, update_self, count, length, List.length_append, List.length_cons]
    omega
  path nonempty := by simpa using path nonempty
  tail nonempty := by simpa using tail nonempty
  nodup := by
    exact (List.nodup_cons.mp (List.nodup_middle.mp lists.nodup)).2
  live a member := lists.live a (List.perm_middle.mem_iff.mpr (List.mem_cons_of_mem t member))

private theorem remove_head {next prev : Ptr → Option Ptr} {queue : ThreadQueue}
    (lists : s.Lists q (t :: l)) (count : queue.queueCount = (s.queue q).queueCount - 1)
    (path : l ≠ [] → Trail next queue.pHead l none) (tail : l ≠ [] → queue.pTail = l.getLast?) :
    (s.relink next prev q queue).Lists q l :=
  remove (show s.Lists q ([] ++ t :: l) from lists) count path tail

/-- A first thread without `pPrev` is taken off. -/
theorem exists_unlink_first (lists : s.Lists q (t :: l)) (first : s.pPrev t = none)
    (between : Threads → Option Threads) : ∃ prev queue,
    (s.unlink q between t).map (·.countDown q) = some (s.relink s.pNext prev q queue) ∧
    (s.relink s.pNext prev q queue).Lists q l ∧ (∀ n, l.head? = some n → prev n = none) ∧
    ∀ a, l.head? ≠ some a → prev a = s.pPrev a := by
  have head := lists.pHead_eq
  have after : s.pNext t = l.head? := lists.pNext_head
  have path := (lists.path (List.cons_ne_nil t l)).2
  cases l with
  | nil =>
      refine ⟨s.pPrev, ⟨(s.queue q).queueCount - 1, (s.queue q).pHead, (s.queue q).pTail⟩, ?_,
        lists.remove_head rfl (by simp) (by simp), by simp, fun _ _ => rfl⟩
      simp at after
      simp [unlink, first, after, countDown, setQueue, relink]
  | cons n l =>
      have live : s.allocated n = true := lists.live n (by simp)
      have after : s.pNext t = some n := after
      refine ⟨update s.pPrev n none, ⟨(s.queue q).queueCount - 1, some n, (s.queue q).pTail⟩, ?_,
        lists.remove_head rfl (fun _ => ?_) (fun _ => ?_), ?_, ?_⟩
      · simp [unlink, first, after, unlinkFirst, setPrev_some, live, countDown, setQueue, relink]
      · rw [after] at path
        exact path
      · simpa using lists.tail (List.cons_ne_nil _ _)
      · simp
      · intro a other
        exact update_of_ne (fun same => other (by simp [same])) _ _

/-- `thread_cancel` takes a first thread without `pPrev` off. -/
theorem exists_cancelFrom_first (lists : s.Lists q (t :: l)) (first : s.pPrev t = none) :
    ∃ prev queue, s.cancelFrom q t = some (s.relink s.pNext prev q queue) ∧
    (s.relink s.pNext prev q queue).Lists q l ∧ (∀ n, l.head? = some n → prev n = none) ∧
    ∀ a, l.head? ≠ some a → prev a = s.pPrev a := by
  obtain ⟨prev, queue, run, rest⟩ := lists.exists_unlink_first first some
  refine ⟨prev, queue, ?_, rest⟩
  rw [← run]
  have head := lists.pHead_eq
  have live := lists.live t (by simp)
  have after : s.pNext t = l.head? := lists.pNext_head
  cases l with
  | nil =>
      rw [List.head?_nil] at after
      simp [cancelFrom, unlink, first, after, countDown, setQueue]
  | cons n l =>
      have live' : s.allocated n = true := lists.live n (by simp)
      simp [cancelFrom, unlink, first, after, leaveHead, head, deref_some, live, unlinkFirst,
        setPrev_some, live', countDown, setQueue]

/-- What taking a thread off a queue leaves behind; the first thread points back to `before`. -/
structure Without (s s' : Threads) (q : QueueName) (before : Option Ptr) (l₁ : List Ptr) (t : Ptr)
    (l₂ : List Ptr) : Prop where
  lists : s'.Lists q (l₁ ++ l₂)
  backs : Backs s'.pPrev before (l₁ ++ l₂)
  same : ∃ next prev queue, s' = s.relink next prev q queue
  next : ∀ a, a ∉ l₁ ++ t :: l₂ → s.pPrev t ≠ some a → s'.pNext a = s.pNext a
  prev : ∀ a, a ∉ l₁ ++ t :: l₂ → s'.pPrev a = s.pPrev a

section Removal

variable {before : Option Ptr} {p n : Ptr}

/-- The thread in front of one on a list is what it points back to. -/
theorem pPrev_eq (backs : Backs s.pPrev before (l₁ ++ t :: l₂)) : s.pPrev t = lastOr before l₁ :=
  (backs_append.mp backs).2.1

theorem mem_or_of_pPrev (backs : Backs s.pPrev before (l₁ ++ t :: l₂))
    (front : s.pPrev t = some a) :
    a ∈ l₁ ∨ before = some a := by
  rw [pPrev_eq backs] at front
  rcases List.eq_nil_or_concat l₁ with rfl | ⟨l, p, rfl⟩
  · exact Or.inr front
  · rw [List.concat_eq_append, lastOr_concat] at front
    obtain rfl := Option.some.inj front
    exact Or.inl (by simp)

/-- The neighbours of a thread between two others are linked to each other. -/
theorem without_inner (lists : s.Lists q (l₁ ++ [p] ++ t :: n :: l₂))
    (backs : Backs s.pPrev before (l₁ ++ [p] ++ t :: n :: l₂)) :
    Without s (s.relink (update s.pNext p (some n)) (update s.pPrev n (some p)) q
      ⟨(s.queue q).queueCount - 1, (s.queue q).pHead, (s.queue q).pTail⟩) q before (l₁ ++ [p]) t
      (n :: l₂) := by
  have after : s.pNext t = some n := lists.pNext_eq
  have front : s.pPrev t = some p := by rw [pPrev_eq backs, lastOr_concat]
  have nodup : (l₁ ++ p :: t :: n :: l₂).Nodup := by simpa using lists.nodup
  have path := lists.path (by simp)
  refine ⟨lists.remove rfl (fun _ => ?_) (fun _ => ?_), ?_, ⟨_, _, _, rfl⟩, fun a outside _ => ?_,
    fun a outside => ?_⟩
  · have short := Trail.bypass (by simpa using path) nodup
    rw [after] at short
    simpa using short
  · simpa using lists.tail (by simp)
  · have short := backs.bypass lists.nodup
    rwa [front] at short
  · exact update_of_ne (by rintro rfl; simp at outside) _ _
  · exact update_of_ne (by rintro rfl; simp at outside) _ _

/-- The thread in front of the last one becomes the last one. -/
theorem without_last (lists : s.Lists q (l₁ ++ [p] ++ [t]))
    (backs : Backs s.pPrev before (l₁ ++ [p] ++ [t])) :
    Without s (s.relink (update s.pNext p none) s.pPrev q
      ⟨(s.queue q).queueCount - 1, (s.queue q).pHead, some p⟩) q before (l₁ ++ [p]) t [] := by
  have after : s.pNext t = none := lists.pNext_eq
  have nodup : (l₁ ++ p :: t :: []).Nodup := by simpa using lists.nodup
  have path := lists.path (by simp)
  refine ⟨lists.remove rfl (fun _ => ?_) (fun _ => ?_), ?_, ⟨_, _, _, rfl⟩, fun a outside _ => ?_,
    fun _ _ => rfl⟩
  · have short := Trail.bypass (by simpa using path) nodup
    rw [after] at short
    simpa using short
  · simp
  · simpa using (backs_append.mp backs).1
  · exact update_of_ne (by rintro rfl; simp at outside) _ _

theorem without_first (lists : s.Lists q (t :: n :: l₂))
    (backs : Backs s.pPrev (some p) (t :: n :: l₂))
    (stale : p ∉ t :: n :: l₂) :
    Without s (s.relink (update s.pNext p (some n)) (update s.pPrev n (some p)) q
      ⟨(s.queue q).queueCount - 1, some n, (s.queue q).pTail⟩) q (some p) [] t (n :: l₂) := by
  have after : s.pNext t = some n := lists.pNext_head
  have front : s.pPrev t = some p := backs.1
  have path := (lists.path (by simp)).2
  refine ⟨lists.remove_head rfl (fun _ => ?_) (fun _ => ?_), ?_, ⟨_, _, _, rfl⟩,
    fun a _ different => ?_, fun a member => ?_⟩
  · rw [after] at path
    exact path.update (fun member => stale (List.mem_cons_of_mem t member)) _
  · simpa using lists.tail (by simp)
  · have short := Backs.bypass (show Backs _ _ ([] ++ t :: n :: l₂) from backs) lists.nodup
    rwa [front] at short
  · exact update_of_ne (fun same => different (by rw [front, same])) _ _
  · exact update_of_ne (by rintro rfl; simp at member) _ _

/-- The second thread becomes the first one. -/
theorem without_head (lists : s.Lists q (t :: n :: l₂))
    (backs : Backs s.pPrev none (t :: n :: l₂)) :
    Without s (s.relink s.pNext (update s.pPrev n none) q
      ⟨(s.queue q).queueCount - 1, some n, (s.queue q).pTail⟩) q none [] t (n :: l₂) := by
  have after : s.pNext t = some n := lists.pNext_head
  have front : s.pPrev t = none := backs.1
  have path := (lists.path (by simp)).2
  refine ⟨lists.remove_head rfl (fun _ => ?_) (fun _ => ?_), ?_, ⟨_, _, _, rfl⟩,
    fun _ _ _ => rfl, fun a member => ?_⟩
  · rw [after] at path
    exact path
  · simpa using lists.tail (by simp)
  · have short := Backs.bypass (show Backs _ _ ([] ++ t :: n :: l₂) from backs) lists.nodup
    rwa [front] at short
  · exact update_of_ne (by rintro rfl; simp at member) _ _

/-- The only thread leaves an empty queue. -/
theorem without_only (lists : s.Lists q [t]) (next : Ptr → Option Ptr) (head tail : Option Ptr)
    (same : ∀ a, s.pPrev t ≠ some a → next a = s.pNext a) :
    Without s (s.relink next s.pPrev q ⟨(s.queue q).queueCount - 1, head, tail⟩) q before [] t [] :=
  ⟨lists.remove_head rfl (by simp) (by simp), trivial, ⟨_, _, _, rfl⟩,
    fun a _ different => same a different, fun _ _ => rfl⟩

private theorem pHead_inner (lists : s.Lists q (l₁ ++ [p] ++ t :: l₂))
    (pids : ∀ a ∈ l₁ ++ [p] ++ t :: l₂, s.pid a = s.pid t → a = t) :
    ∃ a, (s.queue q).pHead = some a ∧ s.allocated a = true ∧ s.pid a ≠ s.pid t := by
  have nodup := lists.nodup
  cases l₁ with
  | nil =>
      refine ⟨p, lists.pHead_eq, lists.live p (by simp), fun same => ?_⟩
      obtain rfl := pids p (by simp) same
      simp at nodup
  | cons a l₁ =>
      refine ⟨a, lists.pHead_eq (l := l₁ ++ [p] ++ t :: l₂), lists.live a (by simp), fun same => ?_⟩
      obtain rfl := pids a (by simp) same
      simp at nodup

variable (lists : s.Lists q (l₁ ++ t :: l₂)) (backs : Backs s.pPrev before (l₁ ++ t :: l₂))
  (stale : ∀ b, before = some b → b ∉ l₁ ++ t :: l₂ ∧ s.allocated b = true)
  (pids : ∀ a ∈ l₁ ++ t :: l₂, s.pid a = s.pid t → a = t)
include lists backs stale pids

omit pids in
/-- A thread does not point back to itself. -/
private theorem pPrev_ne (front : s.pPrev t = some p) : t ≠ p := by
  rintro rfl
  rw [pPrev_eq backs] at front
  rcases List.eq_nil_or_concat l₁ with rfl | ⟨l, p, rfl⟩
  · exact (stale t front).1 (by simp)
  · rw [List.concat_eq_append, lastOr_concat] at front
    obtain rfl := Option.some.inj front
    have nodup : (l ++ p :: p :: l₂).Nodup := by simpa using lists.nodup
    exact (List.nodup_cons.mp (List.nodup_append.mp nodup).2.1).1 (by simp)

/-- `thread_suspend` takes a thread off. -/
theorem exists_unlink : ∃ s', (s.unlink q (·.leaveHead q t) t).map (·.countDown q) = some s' ∧
    Without s s' q before l₁ t l₂ ∧ (l₁ ++ l₂ = [] →
      (s'.queue q).pTail = some t ∨ ∃ b, before = some b ∧ (s'.queue q).pTail = some b) := by
  have front := pPrev_eq backs
  have after := lists.pNext_eq
  have live : s.allocated t = true := lists.live t (by simp)
  have live' : ∀ n ∈ l₂, s.allocated n = true := fun n member => lists.live n (by simp [member])
  have other : ∀ p, s.pPrev t = some p → t ≠ p := fun p => pPrev_ne lists backs stale
  rcases List.eq_nil_or_concat l₁ with rfl | ⟨l, p, rfl⟩
  · have head := lists.pHead_eq (l := l₂)
    cases l₂ with
    | nil =>
        simp only [List.head?_nil, lastOr_nil] at front after
        cases before with
        | none =>
            have tail : (s.queue q).pTail = some t := lists.tail (by simp)
            refine ⟨_, ?_, without_only lists s.pNext (some t) (some t) fun _ _ => rfl,
              fun _ => Or.inl ?_⟩
            · simp [unlink, front, after, countDown, setQueue, relink, head, tail]
            · simp
        | some p =>
            have live₁ := (stale p rfl).2
            refine ⟨_, ?_, without_only lists (update s.pNext p none) (some t) (some p) ?_,
              fun _ => Or.inr ⟨p, rfl, ?_⟩⟩
            · simp [unlink, front, after, unlinkLast, setNext_some, live₁, countDown, setQueue,
                relink, head]
            · intro a different
              exact update_of_ne (fun same => different (by rw [front, same])) _ _
            · simp
    | cons n l₂ =>
        simp only [List.head?_cons, lastOr_nil] at front after
        have live₂ := live' n (by simp)
        cases before with
        | none =>
            refine ⟨_, ?_, without_head lists backs, by simp⟩
            simp [unlink, front, after, unlinkFirst, setPrev_some, live₂, countDown, setQueue,
              relink]
        | some p =>
            have live₁ := (stale p rfl).2
            refine ⟨_, ?_, without_first lists backs (stale p rfl).1, by simp⟩
            simp [unlink, front, after, leaveHead, head, deref_some, live, bypass, setNext_some,
              setPrev_some, live₁, live₂, other p front, countDown, setQueue, relink]
  · rw [List.concat_eq_append] at *
    obtain ⟨a, head, live₀, different⟩ := pHead_inner lists pids
    rw [lastOr_concat] at front
    have live₁ : s.allocated p = true := lists.live p (by simp)
    cases l₂ with
    | nil =>
        rw [List.head?_nil] at after
        refine ⟨_, ?_, without_last lists backs, by simp⟩
        simp [unlink, front, after, unlinkLast, setNext_some, live₁, countDown, setQueue, relink]
    | cons n l₂ =>
        rw [List.head?_cons] at after
        have live₂ := live' n (by simp)
        refine ⟨_, ?_, without_inner lists backs, by simp⟩
        simp [unlink, front, after, leaveHead, head, deref_some, live₀, different, bypass,
          setNext_some, setPrev_some, live₁, live₂, other p front, countDown, setQueue, relink]

/-- `thread_cancel` takes a thread off. -/
theorem exists_cancelFrom : ∃ s', s.cancelFrom q t = some s' ∧ Without s s' q before l₁ t l₂ := by
  have front := pPrev_eq backs
  have after := lists.pNext_eq
  have live : s.allocated t = true := lists.live t (by simp)
  have live' : ∀ n ∈ l₂, s.allocated n = true := fun n member => lists.live n (by simp [member])
  have other : ∀ p, s.pPrev t = some p → t ≠ p := fun p => pPrev_ne lists backs stale
  rcases List.eq_nil_or_concat l₁ with rfl | ⟨l, p, rfl⟩
  · have head := lists.pHead_eq (l := l₂)
    cases l₂ with
    | nil =>
        simp only [List.head?_nil, lastOr_nil] at front after
        have tail : (s.queue q).pTail = some t := lists.tail (by simp)
        cases before with
        | none =>
            refine ⟨_, ?_, without_only lists s.pNext (some t) (some t) fun _ _ => rfl⟩
            simp [cancelFrom, front, after, countDown, setQueue, relink, head, tail]
        | some p =>
            refine ⟨_, ?_, without_only lists s.pNext none none fun _ _ => rfl⟩
            simp [cancelFrom, front, after, countDown, setQueue, relink, head, deref_some, live]
    | cons n l₂ =>
        simp only [List.head?_cons, lastOr_nil] at front after
        have live₂ := live' n (by simp)
        cases before with
        | none =>
            refine ⟨_, ?_, without_head lists backs⟩
            simp [cancelFrom, front, after, leaveHead, head, deref_some, live, unlinkFirst,
              setPrev_some, live₂, countDown, setQueue, relink]
        | some p =>
            have live₁ := (stale p rfl).2
            refine ⟨_, ?_, without_first lists backs (stale p rfl).1⟩
            simp [cancelFrom, front, after, leaveHead, head, deref_some, live, bypass, setNext_some,
              setPrev_some, live₁, live₂, other p front, countDown, setQueue, relink]
  · rw [List.concat_eq_append] at *
    obtain ⟨a, head, live₀, different⟩ := pHead_inner lists pids
    rw [lastOr_concat] at front
    have live₁ : s.allocated p = true := lists.live p (by simp)
    cases l₂ with
    | nil =>
        rw [List.head?_nil] at after
        refine ⟨_, ?_, without_last lists backs⟩
        simp [cancelFrom, front, after, head, deref_some, live₀, different, unlinkLast,
          setNext_some, live₁, countDown, setQueue, relink]
    | cons n l₂ =>
        rw [List.head?_cons] at after
        have live₂ := live' n (by simp)
        refine ⟨_, ?_, without_inner lists backs⟩
        simp [cancelFrom, front, after, leaveHead, head, deref_some, live₀, different, bypass,
          setNext_some, setPrev_some, live₁, live₂, other p front, countDown, setQueue, relink]

end Removal

end Lists
end KwHomework.Threads
