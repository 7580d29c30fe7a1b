import KwHomework.Thread.QueueInvariant

/-!
# Calls that break the queues

A running thread is on no queue, but `thread_suspend` counts it as taken off `ReadyQueue`, and
`thread_cancel` leaves `pCurrentThread` behind.  A waiting thread that is not the first one points
back past `WaitingQueue`, so `thread_resume` and `thread_cancel` do not take it off.
-/

namespace KwHomework.Threads

open Function LinkedList

variable {s s' : Threads} {q back : QueueName} {R W l l₁ l₂ : List Ptr} {t x : Ptr}
  {tid : Fin maxThreadNum}

/-! ## What an operation can change -/

theorem pNext_of_append {a : Ptr} (run : s.append q back t = some s') (other : a ≠ t)
    (last : (s.queue q).queueCount = 0 ∨ (s.queue q).pTail ≠ some a) : s'.pNext a = s.pNext a := by
  by_cases empty : (s.queue q).queueCount = 0
  · simp only [append, empty, if_true, setQueue, Option.some.injEq] at run
    rw [← run]
    exact update_of_ne other _ _
  · simp only [append, if_neg empty] at run
    obtain ⟨s₁, set, rest⟩ := Option.bind_eq_some_iff.mp run
    obtain ⟨p, followed, linked⟩ := Option.bind_eq_some_iff.mp set
    have tail := (deref_eq_some.mp followed).1
    have different : a ≠ p := by
      rintro rfl
      exact last.resolve_left empty tail
    obtain rfl := Option.some.inj linked
    simp only [setQueue, Option.some.injEq] at rest
    rw [← rest]
    exact (update_of_ne other _ _).trans (update_of_ne different _ _)

/-- A thread that points back is taken off without a change of the head. -/
theorem relink_of_unlink_inner (run : s.unlink q some t = some s') (front : s.pPrev t = some x) :
    ∃ next prev queue, s' = s.relink next prev q queue ∧
      queue.queueCount = (s.queue q).queueCount ∧ queue.pHead = (s.queue q).pHead ∧
      (s.pNext t = none → queue.pTail = some x) ∧ ∀ a, a ≠ x → next a = s.pNext a := by
  cases after : s.pNext t with
  | none =>
      simp only [unlink, front, after, unlinkLast] at run
      obtain ⟨s₁, set, rest⟩ := Option.bind_eq_some_iff.mp run
      obtain ⟨p, followed, linked⟩ := Option.bind_eq_some_iff.mp set
      obtain rfl := Option.some.inj (deref_eq_some.mp followed).1
      obtain rfl := Option.some.inj linked
      refine ⟨_, _, _, (Option.some.inj rest).symm, rfl, rfl, fun _ => front, fun a other => ?_⟩
      exact update_of_ne other _ _
  | some n =>
      simp only [unlink, front, after, bypass, Option.bind_eq_bind, Option.bind_some] at run
      obtain ⟨s₁, set, rest⟩ := Option.bind_eq_some_iff.mp run
      obtain ⟨p, followed, linked⟩ := Option.bind_eq_some_iff.mp set
      obtain rfl := Option.some.inj (deref_eq_some.mp followed).1
      obtain rfl := Option.some.inj linked
      obtain ⟨prev, rfl⟩ := relink_of_setPrev rest
      refine ⟨update s.pNext x (some n), prev, s.queue q, by simp [relink], rfl, rfl,
        fun last => absurd last (Option.some_ne_none n), fun a other => ?_⟩
      exact update_of_ne other _ _

/-- `thread_cancel` takes a thread off like `thread_resume` if it is not the head. -/
theorem cancelFrom_eq_unlink {a : Ptr} (front : s.pPrev t = some x)
    (head : (s.queue q).pHead = some a) (live : s.allocated a = true) (other : s.pid a ≠ s.pid t) :
    s.cancelFrom q t = (s.countDown q).unlink q some t := by
  cases after : s.pNext t with
  | none =>
      simp [cancelFrom, unlink, front, after, countDown, setQueue, head, deref_some, live, other]
  | some n =>
      simp [cancelFrom, unlink, front, after, leaveHead, countDown, setQueue, head, deref_some,
        live, other]

theorem Linked.mem_of_astray (linked : s.Linked R (l₁ ++ t :: l₂)) (nonempty : l₁ ≠ [])
    (head : (s'.queue .waiting).pHead = (s.queue .waiting).pHead)
    (count : (s'.queue .waiting).queueCount = (s.queue .waiting).queueCount - 1)
    (next : ∀ a ∈ l₁, s'.pNext a = s.pNext a)
    (tail : l₂ = [] → ∃ x, (s'.queue .waiting).pTail = some x ∧ x ∉ l₁)
    (lists : s'.Lists .waiting l) : t ∈ l := by
  have length : l.length = l₁.length + l₂.length := by
    have counted := lists.count
    rw [count, linked.waiting.count, List.length_append, List.length_cons] at counted
    omega
  have positive := List.length_pos_iff.mpr nonempty
  have here : l ≠ [] := List.length_pos_iff.mp (by omega)
  obtain ⟨m, left, same, _⟩ := trail_append.mp (linked.waiting.path (by simp))
  have front : Trail s'.pNext (s'.queue .waiting).pHead l₁ m := by
    rw [head]
    exact left.congr next
  cases l₂ with
  | nil =>
      have equal := (front.prefix_of_le (lists.path here) (by simp [length])).eq_of_length
        (by simp [length])
      obtain ⟨x, last, outside⟩ := tail rfl
      have member := List.mem_of_getLast? ((lists.tail here).symm.trans last)
      rw [← equal] at member
      exact absurd member outside
  | cons n l₂ =>
      have long : Trail s'.pNext (s'.queue .waiting).pHead (l₁ ++ [t]) (s'.pNext t) :=
        trail_append.mpr ⟨m, front, same, rfl⟩
      have initial := long.prefix_of_le (lists.path here) (by simp [length])
      exact initial.subset (by simp)

/-! ## The running thread -/

theorem Linked.suspend_running {r : Int} (linked : s.Linked R W) (found : s.thread tid = some t)
    (status : s.status t = .run) (run : s.threadSuspend tid = some (r, s')) : ¬ s'.Queued := by
  rw [threadSuspend_eq found (by rw [status]; decide)] at run
  obtain ⟨s₁, counted, rest⟩ := Option.bind_eq_some_iff.mp run
  obtain ⟨s₀, unlinked, rfl⟩ := Option.map_eq_some_iff.mp counted
  obtain ⟨next, prev, queue, rfl, count⟩ := relink_of_unlink unlinked
  obtain ⟨s₂, appended, same⟩ := Option.map_eq_some_iff.mp rest
  obtain ⟨next', prev', queue', rfl⟩ := relink_of_append appended
  obtain rfl := (Prod.mk.inj same).2
  rintro ⟨⟨l, lists, ready⟩, -⟩
  have shorter : (l.length : Int) = R.length - 1 := by
    rw [← lists.count, ← linked.ready.count, ← count]
    simp [setStatus, countDown, setQueue]
  have members : ∀ p, p ∈ l ↔ p ∈ R := by
    intro p
    refine (ready p).trans (Iff.trans ?_ (linked.ready_iff p).symm)
    by_cases same : p = t
    · simp [same, setStatus, status]
    · simp [same, setStatus, countDown, setQueue]
  have equal := ((List.perm_ext_iff_of_nodup lists.nodup linked.ready.nodup).mpr members).length_eq
  omega

theorem timer_freed (current : s.pCurrentThread = some t) : (s.freed t).timer = none := by
  simp [timer, current, deref]

/-! ## A waiting thread that is not the first one -/

section Behind

variable (linked : s.Linked R (l₁ ++ t :: l₂)) (nonempty : l₁ ≠ []) (found : s.thread tid = some t)
include linked nonempty found

private theorem Linked.resume_behind {r : Int} (run : s.threadResume tid = some (r, s')) :
    ¬ s'.Queued := by
  have member : t ∈ l₁ ++ t :: l₂ := by simp
  have status := ((linked.waiting_iff t).mp member).2
  obtain ⟨x, front, outside⟩ := linked.astray l₁ t l₂ rfl nonempty
  rw [threadResume_eq found status] at run
  obtain ⟨s₁, counted, rest⟩ := Option.bind_eq_some_iff.mp run
  obtain ⟨s₀, unlinked, rfl⟩ := Option.map_eq_some_iff.mp counted
  obtain ⟨next, prev, queue, rfl, count, head, tail, kept⟩ := relink_of_unlink_inner unlinked front
  obtain ⟨s₂, appended, same⟩ := Option.map_eq_some_iff.mp rest
  have links : ∀ a ∈ l₁, s₂.pNext a = s.pNext a := by
    intro a inside
    have waits : a ∈ l₁ ++ t :: l₂ := List.mem_append_left _ inside
    have other : a ≠ t := fun same =>
      (List.nodup_append.mp linked.waiting.nodup).2.2 a inside t (by simp) same
    rw [pNext_of_append appended other ?_]
    · exact kept a (ne_of_mem_of_not_mem inside outside)
    · by_cases empty : R = []
      · exact Or.inl (linked.ready.queueCount_eq_zero_iff.mpr empty)
      · refine Or.inr fun last => ?_
        have inside' := List.mem_of_getLast? ((linked.ready.tail empty).symm.trans last)
        exact linked.ready_notMem_waiting inside' waits
  obtain ⟨next', prev', queue', rfl⟩ := relink_of_append appended
  obtain rfl := (Prod.mk.inj same).2
  rintro ⟨-, l, lists, waiting⟩
  have counted : t ∈ l := by
    refine linked.mem_of_astray nonempty ?_ ?_ links (fun last => ⟨x, ?_, outside⟩) lists
    · simp [countDown, setQueue, setStatus, head]
    · simp [countDown, setQueue, setStatus, count]
    · have after : s.pNext t = none := by rw [linked.waiting.pNext_eq, last, List.head?_nil]
      simp [countDown, setQueue, setStatus, tail after]
  have waits := ((waiting t).mp counted).2
  simp [setStatus] at waits

private theorem Linked.cancel_behind {r : Option Int} (used : (s.pThreadTbEnt tid).bUsed = true)
    (run : s.threadCancel tid = some (r, s')) : ¬ s'.Queued := by
  have member : t ∈ l₁ ++ t :: l₂ := by simp
  obtain ⟨live, status⟩ := (linked.waiting_iff t).mp member
  obtain ⟨x, front, outside⟩ := linked.astray l₁ t l₂ rfl nonempty
  have before : ∀ {a : Ptr}, a ∈ l₁ → a ≠ t := fun inside same =>
    (List.nodup_append.mp linked.waiting.nodup).2.2 _ inside t (by simp) same
  obtain ⟨a, k, rfl⟩ := List.exists_cons_of_ne_nil nonempty
  have first : s.allocated a = true := linked.waiting.live a (by simp)
  have other : s.pid a ≠ s.pid t := fun same =>
    before (List.mem_cons_self) (linked.distinct.injective a t first live same)
  rw [threadCancel_eq used found, if_neg (by rw [status]; decide), if_pos status,
    cancelFrom_eq_unlink (s := s.kill (s.pid t) .kill) front linked.waiting.pHead_eq first
    other] at run
  obtain ⟨s₁, unlinked, same⟩ := Option.map_eq_some_iff.mp run
  obtain ⟨next, prev, queue, rfl, count, head, tail, kept⟩ := relink_of_unlink_inner unlinked front
  obtain rfl := (Prod.mk.inj same).2
  rintro ⟨-, l, lists, waiting⟩
  have counted : t ∈ l := by
    refine linked.mem_of_astray nonempty ?_ ?_ (fun a inside => ?_)
      (fun last => ⟨x, ?_, outside⟩) lists
    · simp [head, countDown, setQueue, kill]
    · simp [count, countDown, setQueue, kill]
    · exact kept a (ne_of_mem_of_not_mem inside outside)
    · have after : s.pNext t = none := by rw [linked.waiting.pNext_eq, last, List.head?_nil]
      simp [tail after]
  have allocated := ((waiting t).mp counted).1
  simp at allocated

end Behind

/-! ## Runs -/

/-- The calls under the rule are those that leave both queues and the scheduler intact. -/
theorem Linked.orderly_iff {c : Call} (linked : s.Linked R W) (live : c.OnLive s)
    (run : c.exec s = some s') :
    c.Orderly s ↔ s'.Queued ∧ (Call.OnLive s' .tick → s'.timer ≠ none) := by
  constructor
  · intro orderly
    obtain ⟨R', W', linked'⟩ := linked.step live orderly run
    refine ⟨linked'.queued, fun busy stuck => ?_⟩
    obtain ⟨s₁, _, ticked, _⟩ := linked'.timer busy
    exact Option.some_ne_none s₁ (ticked.symm.trans stuck)
  · rintro ⟨queued, ticks⟩
    cases c with
    | suspend tid =>
        intro t found status
        obtain ⟨_, suspended, rfl⟩ := Option.map_eq_some_iff.mp run
        exact linked.suspend_running found status suspended queued
    | resume tid =>
        intro t found status
        obtain ⟨_, resumed, rfl⟩ := Option.map_eq_some_iff.mp run
        have allocated := (deref_eq_some.mp found).2
        obtain ⟨l₁, l₂, rfl⟩ := List.append_of_mem ((linked.waiting_iff t).mpr ⟨allocated, status⟩)
        by_cases first : l₁ = []
        · subst first
          exact linked.waiting.pHead_eq
        · exact absurd queued (linked.resume_behind first found resumed)
    | cancel tid =>
        intro t found
        obtain ⟨⟨r, s₁⟩, cancelled, rfl⟩ := Option.map_eq_some_iff.mp run
        have allocated := (deref_eq_some.mp found).2
        constructor
        · intro status
          have current := (linked.current_iff t).mpr ⟨allocated, status⟩
          rw [threadCancel_eq live.1 found, status] at cancelled
          obtain rfl := (Prod.mk.inj (Option.some.inj cancelled)).2
          exact ticks (Or.inl fun idle => Option.some_ne_none t (current.symm.trans idle))
            (timer_freed current)
        · intro status
          obtain ⟨l₁, l₂, rfl⟩ := List.append_of_mem
            ((linked.waiting_iff t).mpr ⟨allocated, status⟩)
          by_cases first : l₁ = []
          · subst first
            exact linked.waiting.pHead_eq
          · exact absurd queued (linked.cancel_behind first found live.1 cancelled)
    | create stack pid => trivial
    | exit => trivial
    | semWait semid => trivial
    | semWake semid => trivial
    | semPost semid => trivial
    | tick => trivial

/-- As long as every call keeps to the rule, both queues hold what they are for.  Of the next call
they survive exactly those that keep to it. -/
theorem queued_of_run (run : Run (fun s c => c.OnLive s ∧ c.Orderly s) s) :
    s.Queued ∧ ∀ (c : Call) (s' : Threads), c.OnLive s → c.exec s = some s' →
      (c.Orderly s ↔ s'.Queued ∧ (Call.OnLive s' .tick → s'.timer ≠ none)) := by
  obtain ⟨R, W, linked⟩ := linked_of_run run
  exact ⟨linked.queued, fun c s' live exec => linked.orderly_iff live exec⟩

/-- The ready one of two threads is suspended. -/
theorem queued_of_run_two : ∃ s, (Call.suspend 1).exec twoThreads = some s ∧ s.status 2 = .wait ∧
    s.Queued := by
  have run : Run (fun s c => c.OnLive s ∧ c.Orderly s) twoThreads :=
    run_twoThreads (fun _ _ _ fresh => ⟨fresh, trivial⟩) (fun _ busy _ => ⟨Or.inr busy, trivial⟩)
  have orderly : (Call.suspend 1).Orderly twoThreads := by
    intro t found
    obtain rfl : 2 = t := Option.some.inj found
    decide
  have run' := run.call (c := .suspend 1) ⟨⟨rfl, nofun⟩, orderly⟩ rfl
  exact ⟨_, rfl, rfl, (queued_of_run run').1⟩

/-- The running one of two threads is suspended: a ready thread is left, and none is counted. -/
theorem not_queued_of_suspended : ∃ s, (Call.suspend 0).exec twoThreads = some s ∧
    Run (fun s c => c.OnLive s) s ∧ (s.queue .ready).queueCount = 0 ∧ s.allocated 2 = true ∧
    s.status 2 = .ready ∧ ¬ s.Queued := by
  have run : Run (fun s c => c.OnLive s) twoThreads :=
    run_twoThreads (fun _ _ _ fresh => fresh) (fun _ busy _ => Or.inr busy)
  refine ⟨_, rfl, run.call (c := .suspend 0) ⟨rfl, nofun⟩ rfl, rfl, rfl, rfl, ?_⟩
  rintro ⟨⟨l, lists, ready⟩, -⟩
  have empty : l = [] := lists.queueCount_eq_zero_iff.mp rfl
  have member : 2 ∈ l := (ready 2).mpr ⟨rfl, rfl⟩
  rw [empty] at member
  cases member

end KwHomework.Threads
