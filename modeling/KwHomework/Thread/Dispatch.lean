import KwHomework.Thread.QueueInvariant
import KwHomework.Thread.Separation

/-!
# Threads that the timer must leave alone

A tick must not continue a thread that has exited or waits.  It does so exactly if no thread is
ready: then `timer` continues the current thread without asking for its status, and before the first
tick it takes the head that an emptied `ReadyQueue` has kept.  For this the queues must be intact,
which `Call.Careful` asks of the other calls.
-/

namespace KwHomework.Threads

open Function LinkedList

variable {s s' y : Threads} {L : QueueName → List Ptr} {l : List Ptr} {c t : Ptr} {stack : Ptr}
  {pid : Pid} {tid : Fin maxThreadNum} {semid : Fin maxSemaphoreNum}

/-- A thread that has exited or waits. -/
def Off (s : Threads) (p : Ptr) : Prop := s.status p = .zombie ∨ s.status p = .wait

/-- A tick from `s` to `s'` gives no thread that is off its time slice, the status
`THREAD_STATUS_RUN` or `SIGCONT`. -/
def Untouched (s s' : Threads) : Prop :=
  ∀ p, s.allocated p = true → s.Off p → s'.cpuTime p = s.cpuTime p ∧ s'.status p ≠ .run ∧
    ∀ sent, s'.signals = s.signals ++ sent → (s.pid p, Signal.cont) ∉ sent

/-- The thread is on the `waitingQueue` of a semaphore. -/
def OnSemaphore (s : Threads) (p : Ptr) : Prop :=
  ∃ semid l, s.Lists (.semaphore semid) l ∧ p ∈ l

/-- The calls that are made. -/
def Call.Made (s : Threads) : Call → Prop
  | .create stack pid => s.Fresh stack pid
  | .resume _ | .cancel _ => False
  | _ => True

/-- A tick finds a ready thread or a current one that is not off.  Only ready and waiting threads
are suspended, and none that still points back to a thread at a semaphore; no thread enters a second
queue while it is at a semaphore, and the current thread is not woken. -/
def Call.Careful (s : Threads) : Call → Prop
  | .tick => 0 < (s.queue .ready).queueCount ∨ ∃ c, s.pCurrentThread = some c ∧ ¬ s.Off c
  | .suspend tid => ∀ t, s.thread tid = some t → s.status t ≠ .run ∧ s.status t ≠ .zombie ∧
      (s.status t = .ready → ∀ b, s.pPrev t = some b → ¬ s.OnSemaphore b)
  | .semWait semid | .semWake semid =>
      s.count semid = 0 → ∀ c, s.pCurrentThread = some c → ¬ s.OnSemaphore c
  | .semPost semid => (s.queue (.semaphore semid)).queueCount ≠ 0 →
      (s.queue (.semaphore semid)).pHead ≠ s.pCurrentThread
  | _ => True

/-- Every queue holds threads of its kind only, and the ready ones can be taken off. -/
structure Steady (s : Threads) (L : QueueName → List Ptr) : Prop where
  separate : s.Separate L
  ready_iff : ∀ p, p ∈ L .ready ↔ s.allocated p = true ∧ s.status p = .ready
  suspended : ∀ p ∈ L .waiting, s.status p = .wait ∧ s.pCurrentThread ≠ some p
  blocked : ∀ semid, ∀ p ∈ L (.semaphore semid), s.Off p
  current : ∀ c, s.pCurrentThread = some c → s.allocated c = true ∧ s.status c ≠ .ready
  first : ∀ semid p, (L (.semaphore semid)).head? = some p → s.pPrev p = none
  /-- The first ready thread may still point back to the one that was popped before it. -/
  backs : ∃ before, Backs s.pPrev before (L .ready) ∧
    ∀ b, before = some b → s.pCurrentThread = some b
  stack : ∀ p, s.allocated p = true → s.stackAddr p = p
  distinct : s.Distinct
  /-- Before the first tick the head of an empty `ReadyQueue` is a suspended thread. -/
  idle : s.pCurrentThread = none → L .ready = [] → ∀ p, (s.queue .ready).pHead = some p →
    s.status p = .wait

private theorem not_off_of_ready (status : s.status t = .ready) : ¬ s.Off t := by
  rintro (ended | waits)
  · rw [status] at ended
    cases ended
  · rw [status] at waits
    cases waits

/-- A thread that is not off is ready or runs. -/
theorem run_of_not_off (active : ¬ s.Off t) (busy : s.status t ≠ .ready) : s.status t = .run := by
  cases status : s.status t with
  | run => rfl
  | ready => exact absurd status busy
  | wait => exact absurd (Or.inr status) active
  | zombie => exact absurd (Or.inl status) active

private theorem waiting_ne_ready : QueueName.waiting ≠ .ready := by decide

theorem semaphore_ne_ready : QueueName.semaphore semid ≠ .ready := by simp

private theorem semaphore_ne_waiting : QueueName.semaphore semid ≠ .waiting := by simp

namespace Steady

/-- A current thread that is not off is on no queue. -/
theorem fresh (steady : s.Steady L) (current : s.pCurrentThread = some c)
    (semaphores : ∀ semid, c ∉ L (.semaphore semid)) : ∀ q, c ∉ L q := by
  intro q member
  cases q with
  | ready => exact (steady.current c current).2 ((steady.ready_iff c).mp member).2
  | waiting => exact (steady.suspended c member).2 current
  | semaphore semid => exact semaphores semid member

private theorem notMem_semaphore (steady : s.Steady L) (off : ¬ s.OnSemaphore t) (semid) :
    t ∉ L (.semaphore semid) :=
  fun member => off ⟨semid, _, steady.separate.lists _, member⟩

/-- The ready threads do not belong to another queue. -/
theorem ready_notMem (steady : s.Steady L) (member : t ∈ L .ready) {q : QueueName}
    (other : q ≠ .ready) : t ∉ L q :=
  fun member' => other (steady.separate.apart member' member)

end Steady

/-! ## `thread_create`, `thread_exit` -/

theorem Initial.steady (initial : s.Initial) : s.Steady fun _ => [] := by
  have separate := initial.separate
  have distinct := initial.distinct
  obtain ⟨s₀, unallocated, current, _, rfl⟩ := initial
  have absent : ∀ {p}, s₀.init.allocated p = true → False := fun {p} live =>
    Bool.noConfusion ((unallocated p).symm.trans live)
  refine ⟨separate, fun p => ⟨fun member => ?_, fun live => (absent live.1).elim⟩,
    fun p member => ?_,
    fun _ p member => ?_, fun c here => ?_, fun _ p here => ?_, ⟨none, trivial, fun b same => ?_⟩,
    fun p live => (absent live).elim, distinct, fun _ _ p here => ?_⟩
  · cases member
  · cases member
  · cases member
  · exact (Option.some_ne_none c (here.symm.trans current)).elim
  · cases here
  · cases same
  · cases here

theorem Steady.create (steady : s.Steady L) (fresh : s.Fresh stack pid)
    (run : s.threadCreate stack pid = some (tid, s')) :
    s'.Steady (update L .ready (L .ready ++ [stack])) := by
  have new : ∀ q, stack ∉ L q := fun q => fresh.notMem (steady.separate.lists q)
  have ne : ∀ {q p}, p ∈ L q → p ≠ stack := fun member => ne_of_mem_of_not_mem member (new _)
  have born : (s.born stack pid tid).Separate L := by
    refine steady.separate.congr rfl rfl fun p live => ?_
    by_cases same : p = stack
    · simp [same]
    · simpa [same] using live
  obtain ⟨next, queue, appended, separate⟩ := born.append .ready .ready new (update_self _ _ _)
  rw [threadCreate_eq] at run
  obtain ⟨tid', _, rest⟩ := Option.bind_eq_some_iff.mp run
  obtain ⟨s₁, appended', same⟩ := Option.map_eq_some_iff.mp rest
  obtain ⟨rfl, rfl⟩ := Prod.mk.inj same
  obtain rfl := Option.some.inj (appended.symm.trans appended')
  obtain ⟨before, backs, current⟩ := steady.backs
  refine ⟨separate, fun p => ?_, fun p member => ?_, fun i p member => ?_, fun c here => ?_,
    fun i p here => ?_, ⟨if L .ready = [] then none else before, ?_, fun b same => ?_⟩,
    fun p live => ?_, ?_, fun _ empty => ?_⟩
  · by_cases here : p = stack
    · simp [here]
    · simpa [here] using steady.ready_iff p
  · simp only [ne_eq, reduceCtorEq, not_false_eq_true, update_of_ne] at member
    simpa [ne member] using steady.suspended p member
  · simp only [ne_eq, reduceCtorEq, not_false_eq_true, update_of_ne] at member
    simpa [Off, ne member] using steady.blocked i p member
  · obtain ⟨live, busy⟩ := steady.current c here
    have other : c ≠ stack := by
      rintro rfl
      exact Bool.noConfusion (fresh.unallocated.symm.trans live)
    simpa [other] using And.intro live busy
  · simp only [ne_eq, reduceCtorEq, not_false_eq_true, update_of_ne] at here
    simpa [ne (List.mem_of_mem_head? here)] using steady.first i p here
  · rw [update_self]
    exact (steady.separate.lists .ready).backs_concat backs (new .ready)
  · split_ifs at same
    exact current b same
  · by_cases same : p = stack
    · simp [same]
    · simp only [relink_stackAddr, born_stackAddr, update_of_ne same]
      exact steady.stack p (by simpa [same] using live)
  · exact (fresh.distinct steady.distinct tid').mono fun p here => ⟨here, rfl⟩
  · simp at empty

/-- `thread_exit` marks the current thread. -/
theorem Steady.exit (steady : s.Steady L) (run : s.threadExit = some s') : s'.Steady L := by
  obtain ⟨c, followed, marked⟩ := Option.bind_eq_some_iff.mp run
  obtain ⟨current, live⟩ := deref_eq_some.mp followed
  obtain rfl := Option.some.inj marked
  have busy := (steady.current c current).2
  refine ⟨steady.separate.congr rfl rfl fun _ here => here, fun p => ?_, fun p member => ?_,
    fun i p member => ?_, fun p here => ?_, steady.first, steady.backs, steady.stack,
    steady.distinct.mono fun p here => ⟨here, rfl⟩, fun idle => ?_⟩
  · by_cases same : p = c
    · have queued := steady.ready_iff c
      simp only [busy, and_false, iff_false] at queued
      simp [same, queued, setStatus]
    · simpa [same, setStatus] using steady.ready_iff p
  · obtain ⟨waits, other⟩ := steady.suspended p member
    have different : p ≠ c := by
      rintro rfl
      exact other current
    simpa [different, setStatus] using And.intro waits other
  · by_cases same : p = c
    · simp [same, Off, setStatus]
    · simpa [same, Off, setStatus] using steady.blocked i p member
  · obtain rfl := Option.some.inj (current.symm.trans here)
    exact ⟨live, by simp [setStatus]⟩
  · exact absurd (current.symm.trans idle) (Option.some_ne_none c)

/-! ## `thread_suspend` -/

/-- The only ready thread leaves its queue as it is, apart from the count. -/
theorem unlink_only {q : QueueName} {between : Threads → Option Threads} (front : s.pPrev t = none)
    (after : s.pNext t = none) : s.unlink q between t = some s := by
  simp [unlink, front, after]

theorem Steady.suspend (steady : s.Steady L) (found : s.thread tid = some t)
    (status : s.status t = .ready)
    (away : ∀ b, s.pPrev t = some b → ∀ semid, b ∉ L (.semaphore semid)) :
    ∃ s' L', s.threadSuspend tid = some (0, s') ∧ s'.Steady L' := by
  have live := (deref_eq_some.mp found).2
  have member := (steady.ready_iff t).mpr ⟨live, status⟩
  obtain ⟨l₁, l₂, split⟩ := List.append_of_mem member
  obtain ⟨before, backs, current⟩ := steady.backs
  have lists := steady.separate.lists .ready
  have busy : ∀ c, s.pCurrentThread = some c → c ∉ L .ready := fun c here inside =>
    (steady.current c here).2 ((steady.ready_iff c).mp inside).2
  rw [split] at lists backs
  obtain ⟨s₁, unlinked, without, _⟩ := lists.exists_unlink backs
    (fun b same => ⟨split ▸ busy b (current b same), (steady.current b (current b same)).1⟩)
    (fun a inside same => steady.distinct.injective a t (lists.live a inside) live same)
  obtain ⟨next, prev, queue, rfl⟩ := without.same
  have outside : ∀ {q a}, q ≠ .ready → a ∈ L q → a ∉ l₁ ++ t :: l₂ := fun other inside inside' =>
    other (steady.separate.apart inside (split ▸ inside'))
  have separate : (s.relink next prev .ready queue).Separate (update L .ready (l₁ ++ l₂)) := by
    refine steady.separate.update without.lists (fun q other => update_of_ne other _ _)
      (fun q other a inside => without.next a (outside other inside) fun front => ?_)
      (fun _ here => here) fun a inside => Or.inl ?_
    · rcases Lists.mem_or_of_pPrev backs front with before | same
      · exact outside other inside (List.mem_append_left _ before)
      · cases q with
        | ready => exact other rfl
        | waiting => exact (steady.suspended a inside).2 (current a same)
        | semaphore semid => exact away a front semid inside
    · rw [split]
      exact List.perm_middle.mem_iff.mpr (List.mem_cons_of_mem t inside)
  have gone : t ∉ l₁ ++ l₂ := (List.nodup_cons.mp (List.nodup_middle.mp lists.nodup)).1
  have elsewhere : ∀ {q}, q ≠ .ready → t ∉ L q := fun other => steady.ready_notMem member other
  have ne : ∀ {q p}, q ≠ .ready → p ∈ L q → p ≠ t := fun other inside =>
    ne_of_mem_of_not_mem inside (elsewhere other)
  have fresh : ∀ q, t ∉ update L .ready (l₁ ++ l₂) q := by
    intro q
    by_cases same : q = .ready
    · rwa [same, update_self]
    · rw [update_of_ne same]
      exact elsewhere same
  obtain ⟨next', queue', appended, separate'⟩ := separate.append .waiting .ready fresh live
  have frame : ∀ q, q ≠ .ready → q ≠ .waiting →
      update (update L .ready (l₁ ++ l₂)) .waiting (update L .ready (l₁ ++ l₂) .waiting ++ [t]) q =
        L q := fun q other other' => by rw [update_of_ne other', update_of_ne other]
  have ready : update (update L .ready (l₁ ++ l₂)) .waiting
      (update L .ready (l₁ ++ l₂) .waiting ++ [t]) .ready = l₁ ++ l₂ := by
    simp
  refine ⟨((s.relink next prev .ready queue).relink next' (update prev t
    (if update L .ready (l₁ ++ l₂) .waiting = [] then none
      else ((s.relink next prev .ready queue).queue .ready).pTail)) .waiting queue').setStatus t
      .wait,
    _, ?_, separate'.congr rfl rfl fun _ here => here, fun p => ?_, fun p inside => ?_,
    fun i p inside => ?_, fun c here => ?_, fun i p here => ?_, ⟨before, ?_, current⟩, steady.stack,
    steady.distinct.mono fun p here => ⟨here, rfl⟩, fun idle empty p here => ?_⟩
  · rw [threadSuspend_eq found (by rw [status]; decide), unlinked, Option.bind_some, appended]
    rfl
  · rw [ready]
    by_cases same : p = t
    · simp [same, gone, setStatus]
    · have queued := steady.ready_iff p
      rw [split] at queued
      simpa [same, setStatus] using queued
  · simp only [update_self, ne_eq, reduceCtorEq, not_false_eq_true, update_of_ne] at inside
    rcases List.mem_append.mp inside with old | new
    · simpa [ne waiting_ne_ready old, setStatus] using steady.suspended p old
    · obtain rfl := List.mem_singleton.mp new
      refine ⟨by simp [setStatus], fun here => busy p here member⟩
  · rw [frame _ semaphore_ne_ready semaphore_ne_waiting] at inside
    simpa [Off, ne semaphore_ne_ready inside, setStatus] using steady.blocked i p inside
  · obtain ⟨live', other⟩ := steady.current c here
    have different : c ≠ t := by
      rintro rfl
      exact other status
    simpa [different, setStatus] using And.intro live' other
  · rw [frame _ semaphore_ne_ready semaphore_ne_waiting] at here
    have inside := List.mem_of_mem_head? here
    have kept := without.prev p (outside semaphore_ne_ready inside)
    simp only [setStatus, relink_pPrev, update_of_ne (ne semaphore_ne_ready inside)]
    exact kept.trans (steady.first i p here)
  · rw [ready]
    exact without.backs.update gone _
  · rw [ready] at empty
    obtain ⟨rfl, rfl⟩ := List.append_eq_nil_iff.mp empty
    have front : s.pPrev t = none := by
      rw [backs.1]
      by_contra stale
      obtain ⟨b, same⟩ := Option.ne_none_iff_exists'.mp stale
      exact Option.some_ne_none b ((current b same).symm.trans idle)
    have after : s.pNext t = none := lists.pNext_head
    rw [unlink_only front after] at unlinked
    have kept := congrArg (fun s => (s.queue .ready).pHead) (Option.some.inj unlinked)
    have head : queue.pHead = some t := by
      rw [← lists.pHead_eq (l := [])]
      simpa [countDown, setQueue] using kept.symm
    obtain rfl : t = p := by simpa [setStatus, head] using here
    simp [setStatus]

/-! ## Semaphores -/

private theorem findM?_eq_some {α : Type} {f : α → Option Bool} {l : List α} {a : α}
    (found : l.findM? f = some (some a)) : f a = some true := by
  induction l with
  | nil => cases found
  | cons b l induction =>
      rw [List.findM?] at found
      obtain ⟨x, tested, rest⟩ := Option.bind_eq_some_iff.mp found
      cases x with
      | false => exact induction rest
      | true =>
          obtain rfl := Option.some.inj (Option.some.inj rest)
          exact tested

/-- Neither queues nor statuses change. -/
theorem Steady.congr (steady : s.Steady L) (status : s'.status = s.status)
    (rest : s' = { s with
      status := s'.status, cpuTime := s'.cpuTime, count := s'.count, signals := s'.signals }) :
    s'.Steady L := by
  rw [rest, status]
  exact ⟨steady.separate.congr rfl rfl fun _ here => here, steady.ready_iff, steady.suspended,
    steady.blocked, steady.current, steady.first, steady.backs, steady.stack,
    steady.distinct.mono fun _ here => ⟨here, rfl⟩, steady.idle⟩

theorem Steady.threadSelf (steady : s.Steady L) (self : s.threadSelf = some tid)
    (found : s.thread tid = some t) : s.pCurrentThread = some t := by
  obtain ⟨c, followed, rest⟩ := Option.bind_eq_some_iff.mp self
  obtain ⟨current, live⟩ := deref_eq_some.mp followed
  obtain ⟨hit, search, same⟩ := Option.bind_eq_some_iff.mp rest
  have tested := findM?_eq_some (search.trans (congrArg some same))
  rw [current]
  split_ifs at tested with null
  · cases tested
  · rw [found] at tested
    have equal : s.stackAddr c = s.stackAddr t := by simpa using tested
    rwa [steady.stack c live, steady.stack t (deref_eq_some.mp found).2, ← Option.some_inj] at equal

/-- The current thread goes to the end of the queue of a semaphore. -/
theorem Steady.block (steady : s.Steady L) (current : s.pCurrentThread = some c)
    (away : ∀ semid, c ∉ L (.semaphore semid)) (semid : Fin maxSemaphoreNum) :
    ∃ s₁, s.append (.semaphore semid) .ready c = some s₁ ∧
      ∀ sent, Steady { s₁.setStatus c .wait with signals := sent }
        (update L (.semaphore semid) (L (.semaphore semid) ++ [c])) := by
  obtain ⟨live, busy⟩ := steady.current c current
  have fresh := steady.fresh current away
  obtain ⟨next, queue, appended, separate⟩ :=
    steady.separate.append (.semaphore semid) .ready fresh live
  have ne : ∀ {q p}, p ∈ L q → p ≠ c := fun {q} _ inside => ne_of_mem_of_not_mem inside (fresh q)
  refine ⟨_, appended, fun sent => ⟨separate.congr rfl rfl fun _ here => here, fun p => ?_,
    fun p inside => ?_, fun i p inside => ?_, fun p here => ?_, fun i p here => ?_, ?_,
    steady.stack, steady.distinct.mono fun p here => ⟨here, rfl⟩, fun idle => ?_⟩⟩
  · simp only [ne_eq, reduceCtorEq, not_false_eq_true, update_of_ne]
    by_cases same : p = c
    · simp [same, fresh .ready, setStatus]
    · simpa [same, setStatus] using steady.ready_iff p
  · simp only [ne_eq, reduceCtorEq, not_false_eq_true, update_of_ne] at inside
    simpa [ne inside, setStatus] using steady.suspended p inside
  · by_cases same : p = c
    · simp [same, Off, setStatus]
    · have old : p ∈ L (.semaphore i) := by
        by_cases here : i = semid
        · subst here
          simpa [same] using inside
        · rwa [update_of_ne (by simpa using here)] at inside
      simpa [same, Off, setStatus] using steady.blocked i p old
  · obtain rfl := Option.some.inj (current.symm.trans here)
    exact ⟨live, by simp [setStatus]⟩
  · by_cases same : i = semid
    · subst same
      rw [update_self] at here
      cases waiting : L (.semaphore i) with
      | nil =>
          obtain rfl : c = p := by simpa [waiting] using here
          simp [setStatus]
      | cons a l =>
          have first := steady.first i a (by rw [waiting]; rfl)
          obtain rfl : a = p := by simpa [waiting] using here
          have other : a ≠ c := ne (q := .semaphore i) (by simp [waiting])
          simpa [setStatus, other] using first
    · rw [update_of_ne (by simpa using same)] at here
      simpa [setStatus, ne (List.mem_of_mem_head? here)] using steady.first i p here
  · obtain ⟨before, backs, same⟩ := steady.backs
    refine ⟨before, ?_, same⟩
    simp only [ne_eq, reduceCtorEq, not_false_eq_true, update_of_ne]
    exact backs.update (fresh .ready) _
  · exact absurd (current.symm.trans idle) (Option.some_ne_none c)

theorem Steady.semWaitStart (steady : s.Steady L)
    (careful : s.count semid = 0 → ∀ c, s.pCurrentThread = some c → ¬ s.OnSemaphore c)
    (run : s.semWaitStart semid = some s') : ∃ L', s'.Steady L' := by
  obtain ⟨tid, self, rest⟩ := Option.bind_eq_some_iff.mp run
  split_ifs at rest with zero
  · obtain ⟨c, found, rest⟩ := Option.bind_eq_some_iff.mp rest
    have current := steady.threadSelf self found
    obtain ⟨s₁, appended, steady'⟩ := steady.block current
      (steady.notMem_semaphore (careful zero c current)) semid
    obtain ⟨s₂, appended', stopped⟩ := Option.bind_eq_some_iff.mp rest
    obtain rfl := Option.some.inj (appended.symm.trans appended')
    rw [← Option.some.inj stopped]
    exact ⟨_, steady' _⟩
  · obtain rfl := Option.some.inj rest
    exact ⟨L, steady.congr rfl rfl⟩

theorem Steady.findWaiting (steady : s.Steady L) (front : L (.semaphore semid) = t :: l)
    (search : s.findWaiting semid = some tid) {a : Ptr} (found : s.thread tid = some a) :
      a = t := by
  obtain ⟨hit, searched, same⟩ := Option.bind_eq_some_iff.mp search
  have tested := findM?_eq_some (searched.trans (congrArg some same))
  have lists := steady.separate.lists (.semaphore semid)
  rw [front] at lists
  have live := lists.live t (by simp)
  split_ifs at tested with null
  · cases tested
  · rw [found, lists.pHead_eq, deref_some live] at tested
    have equal : s.pid a = s.pid t := by simpa using tested
    exact steady.distinct.injective a t (deref_eq_some.mp found).2 live equal

/-- The first thread at a semaphore goes to the end of `ReadyQueue`. -/
theorem Steady.wake (steady : s.Steady L) (front : L (.semaphore semid) = t :: l)
    (other : s.pCurrentThread ≠ some t) : ∃ s₁ s₂,
    (s.unlink (.semaphore semid) some t).map (·.countDown (.semaphore semid)) = some s₁ ∧
    (s₁.setStatus t .ready).append .ready .ready t = some s₂ ∧
    s₂.Steady (update (update L (.semaphore semid) l) .ready (L .ready ++ [t])) := by
  have member : t ∈ L (.semaphore semid) := by simp [front]
  have live := (steady.separate.lists _).live t member
  have nodup := (steady.separate.lists (.semaphore semid)).nodup
  rw [front] at nodup
  have gone := (List.nodup_cons.mp nodup).1
  obtain ⟨prev, queue, unlinked, separate, head, kept⟩ :=
    steady.separate.unlink_first front (steady.first semid t (by rw [front]; rfl))
  have outside : ∀ {q}, q ≠ .semaphore semid → t ∉ L q := fun different inside =>
    different (steady.separate.apart inside member)
  have rest : ∀ {q p}, q ≠ .semaphore semid → p ∈ L q → prev p = s.pPrev p := by
    intro q p different inside
    refine kept p fun here => different (steady.separate.apart inside ?_)
    rw [front]
    exact List.mem_cons_of_mem t (List.mem_of_mem_head? here)
  have fresh : ∀ q, t ∉ update L (.semaphore semid) l q := by
    intro q
    by_cases same : q = .semaphore semid
    · rwa [same, update_self]
    · rw [update_of_ne same]
      exact outside same
  have ready : update L (.semaphore semid) l .ready = L .ready := by simp
  obtain ⟨before, backs, current⟩ := steady.backs
  obtain ⟨next, queue', appended, separate'⟩ := Separate.append
    (s := (s.relink s.pNext prev (.semaphore semid) queue).setStatus t .ready)
    (separate.congr rfl rfl fun _ here => here) .ready .ready fresh live
  have semaphores : ∀ i p, p ∈ update L (.semaphore semid) l (.semaphore i) →
      p ∈ L (.semaphore i) ∧ p ≠ t := by
    intro i p inside
    refine ⟨?_, ne_of_mem_of_not_mem inside (fresh _)⟩
    by_cases same : i = semid
    · subst same
      rw [update_self] at inside
      rw [front]
      exact List.mem_cons_of_mem t inside
    · rwa [update_of_ne (by simpa using same)] at inside
  rw [ready] at separate'
  refine ⟨_, _, unlinked, appended, separate', fun p => ?_, fun p inside => ?_,
    fun i p inside => ?_, fun c here => ?_, fun i p here => ?_,
    ⟨if L .ready = [] then none else before, ?_, fun b same => ?_⟩,
    steady.stack, steady.distinct.mono fun p here => ⟨here, rfl⟩, fun _ empty => ?_⟩
  · rw [update_self, ready]
    by_cases same : p = t
    · simp [same, setStatus, live]
    · simpa [same, setStatus] using steady.ready_iff p
  · simp only [ne_eq, reduceCtorEq, not_false_eq_true, update_of_ne] at inside
    have different : p ≠ t := ne_of_mem_of_not_mem inside (outside semaphore_ne_waiting.symm)
    simpa [different, setStatus] using steady.suspended p inside
  · simp only [ne_eq, reduceCtorEq, not_false_eq_true, update_of_ne] at inside
    obtain ⟨inside, different⟩ := semaphores i p inside
    simpa [different, Off, setStatus] using steady.blocked i p inside
  · obtain ⟨live', busy⟩ := steady.current c here
    have different : c ≠ t := by
      rintro rfl
      exact other here
    simpa [different, setStatus] using And.intro live' busy
  · simp only [ne_eq, reduceCtorEq, not_false_eq_true, update_of_ne] at here
    obtain ⟨inside, different⟩ := semaphores i p (List.mem_of_mem_head? here)
    simp only [relink_pPrev, setStatus, update_of_ne different]
    by_cases same : i = semid
    · subst same
      rw [update_self] at here
      exact head p here
    · rw [update_of_ne (by simpa using same)] at here
      exact (rest (by simpa using same) inside).trans (steady.first i p here)
  · have lists := separate.lists .ready
    have backs' : Backs prev before (L .ready) := backs.congr fun a inside =>
      rest semaphore_ne_ready.symm inside
    rw [ready] at lists
    simp only [update_self, ready]
    exact lists.backs_concat backs' (outside semaphore_ne_ready.symm)
  · split_ifs at same
    exact current b same
  · simp at empty

/-! ## Ticks -/

/-- A selected thread that is not off leaves the others alone. -/
theorem untouched_select (distinct : s.Distinct) (live : s.allocated t = true) (active : ¬ s.Off t)
    (cpuTime : y.cpuTime = s.cpuTime) (pid : y.pid = s.pid) {stopped : List (Pid × Signal)}
    (signals : y.signals = s.signals ++ stopped) (stops : ∀ p, (p, Signal.cont) ∉ stopped)
    (kept : ∀ p, s.Off p → y.status p = s.status p) : s.Untouched (y.select t) := by
  intro p here off
  have other : p ≠ t := by
    rintro rfl
    exact active off
  refine ⟨by simp [other, cpuTime], ?_, fun sent same => ?_⟩
  · have status : y.status p ≠ .run := by
      rw [kept p off]
      rcases off with ended | waits
      · rw [ended]
        decide
      · rw [waits]
        decide
    simp only [select_status]
    split_ifs
    · exact status
    · rwa [update_of_ne other]
  · rw [select_signals, signals, pid, List.append_assoc] at same
    rw [← List.append_cancel_left same]
    intro member
    rcases List.mem_append.mp member with stop | continued
    · exact stops _ stop
    · have equal : s.pid p = s.pid t := by simpa using continued
      exact other (distinct.injective p t here live equal)

theorem steady_select {x : Threads} (separate : (x.popReady t l).Separate L) (ready : L .ready = l)
    (fresh : ∀ q, t ∉ L q)
    (ready_iff : ∀ p, p ∈ t :: l ↔ x.allocated p = true ∧ x.status p = .ready)
    (suspended : ∀ p ∈ L .waiting, x.status p = .wait)
    (blocked : ∀ semid, ∀ p ∈ L (.semaphore semid), x.Off p)
    (first : ∀ semid p, (L (.semaphore semid)).head? = some p → x.pPrev p = none)
    (backs : Backs x.pPrev (some t) l) (stack : ∀ p, x.allocated p = true → x.stackAddr p = p)
    (distinct : x.Distinct) : ((x.popReady t l).select t).Steady L := by
  obtain ⟨live, status⟩ := (ready_iff t).mp (by simp)
  have alive : x.status t ≠ .zombie := by
    rw [status]
    decide
  have ne : ∀ {q p}, p ∈ L q → p ≠ t := fun inside => ne_of_mem_of_not_mem inside (fresh _)
  refine ⟨separate.congr rfl rfl fun _ here => here, fun p => ?_, fun p inside => ?_,
    fun i p inside => ?_, fun p here => ?_, first, ⟨some t, ?_, fun b same => same⟩, stack,
    distinct.mono fun _ here => ⟨here, rfl⟩, fun idle => ?_⟩
  · by_cases same : p = t
    · simp [same, alive, fresh]
    · have queued := ready_iff p
      simp only [List.mem_cons, same, false_or] at queued
      simpa [same, alive, ready] using queued
  · have other := ne inside
    simpa [alive, other, Ne.symm other] using suspended p inside
  · simpa [Off, alive, ne inside] using blocked i p inside
  · obtain rfl : t = p := by simpa using here
    simp [alive, live]
  · rw [ready]
    exact backs
  · simp at idle

/-- The head of `ReadyQueue` is selected, and the current thread is not put on a queue. -/
theorem Steady.pop (steady : s.Steady L) (ready : L .ready = t :: l) {x : Threads}
    (same : x = { s with pCurrentThread := x.pCurrentThread, signals := x.signals })
    {stopped : List (Pid × Signal)} (signals : x.signals = s.signals ++ stopped)
    (stops : ∀ p, (p, Signal.cont) ∉ stopped) :
    ((x.popReady t l).select t).Steady (update L .ready l) ∧
      s.Untouched ((x.popReady t l).select t) := by
  have member : t ∈ L .ready := by simp [ready]
  obtain ⟨live, status⟩ := (steady.ready_iff t).mp member
  have nodup := (steady.separate.lists .ready).nodup
  rw [ready] at nodup
  have fresh : ∀ q, t ∉ update L .ready l q := by
    intro q
    by_cases here : q = .ready
    · rw [here, update_self]
      exact (List.nodup_cons.mp nodup).1
    · rw [update_of_ne here]
      exact steady.ready_notMem member here
  obtain ⟨before, backs, _⟩ := steady.backs
  rw [ready] at backs
  constructor
  · rw [same]
    have separate :
        Separate { s with pCurrentThread := x.pCurrentThread, signals := x.signals } L :=
      steady.separate.congr rfl rfl fun _ here => here
    refine steady_select (separate.popReady ready) (update_self _ _ _) fresh (fun p => ?_)
      (fun p inside => ?_) (fun i p inside => ?_) (fun i p here => ?_) backs.2 steady.stack
      (steady.distinct.mono fun _ here => ⟨here, rfl⟩)
    · rw [← ready]
      exact steady.ready_iff p
    · simp only [ne_eq, reduceCtorEq, not_false_eq_true, update_of_ne] at inside
      exact (steady.suspended p inside).1
    · simp only [ne_eq, reduceCtorEq, not_false_eq_true, update_of_ne] at inside
      exact steady.blocked i p inside
    · simp only [ne_eq, reduceCtorEq, not_false_eq_true, update_of_ne] at here
      exact steady.first i p here
  · refine untouched_select steady.distinct live (not_off_of_ready status) ?_ ?_ signals stops
      fun p _ => ?_
    · rw [same]
      rfl
    · rw [same]
      rfl
    · rw [same]
      rfl

/-- The current thread goes to the end of `ReadyQueue`, and the head is selected. -/
theorem Steady.switch (steady : s.Steady L) (ready : L .ready = t :: l)
    (current : s.pCurrentThread = some c) (status : s.status c = .run) :
    ∃ x : Threads, x.status = update s.status c .ready ∧ x.count = s.count ∧
      s.timer = some ((x.popReady t (l ++ [c])).select t) ∧
      ((x.popReady t (l ++ [c])).select t).Steady (update L .ready (l ++ [c])) ∧
      s.Untouched ((x.popReady t (l ++ [c])).select t) := by
  have member : t ∈ L .ready := by simp [ready]
  have lists := steady.separate.lists .ready
  obtain ⟨before, backs, _⟩ := steady.backs
  obtain ⟨live, _⟩ := steady.current c current
  obtain ⟨live', status'⟩ := (steady.ready_iff t).mp member
  have active : ¬ s.Off c := by
    rintro (ended | waits)
    · rw [status] at ended
      cases ended
    · rw [status] at waits
      cases waits
  have outside := steady.fresh current fun semid inside => active (steady.blocked semid c inside)
  have ne : ∀ {q p}, p ∈ L q → p ≠ c := fun {q} _ inside => ne_of_mem_of_not_mem inside (outside q)
  rw [ready] at lists backs
  have away : c ∉ t :: l := ready ▸ outside .ready
  obtain ⟨next, queue, run, lists', same⟩ := timer_switch current live
    (steady.distinct.positive c live) (steady.distinct.positive t live') lists
    (fun ended => active (Or.inl ended)) (fun waits => active (Or.inr waits)) away
  have fresh : ∀ q, t ∉ update L .ready (l ++ [c]) q := by
    intro q
    by_cases here : q = .ready
    · rw [here, update_self]
      simp [(List.nodup_cons.mp lists.nodup).1, ne member]
    · rw [update_of_ne here]
      exact steady.ready_notMem member here
  have backs' := lists.backs_concat backs away
  rw [if_neg (List.cons_ne_nil t l), if_neg (List.cons_ne_nil t l)] at backs'
  refine ⟨((s.kill (s.pid c) .stop).setStatus c .ready).relink next
    (update s.pPrev c (s.queue .ready).pTail) .ready queue, rfl, rfl, run,
    steady_select (steady.separate.update lists' (fun q other => ?_)
    (fun q other a inside => ?_) (fun _ here => here) fun a inside => ?_) (update_self _ _ _) fresh
    (fun p => ?_) (fun p inside => ?_) (fun i p inside => ?_) (fun i p here => ?_) backs'.2
    steady.stack (steady.distinct.mono fun _ here => ⟨here, rfl⟩),
    untouched_select steady.distinct live' (not_off_of_ready status') rfl rfl rfl (by simp)
      fun p off => ?_⟩
  · simp [other, kill, setStatus]
  · refine same a (ne inside) fun inside' => other (steady.separate.apart inside ?_)
    rwa [ready]
  · rcases List.mem_append.mp inside with old | new
    · left
      rw [ready]
      exact List.mem_cons_of_mem t old
    · right
      rw [List.mem_singleton.mp new]
      exact outside
  · rw [← List.cons_append, ← ready]
    by_cases here : p = c
    · simp [here, setStatus, kill, live]
    · simpa [here, setStatus, kill] using steady.ready_iff p
  · simp only [ne_eq, reduceCtorEq, not_false_eq_true, update_of_ne] at inside
    simpa [ne inside, setStatus, kill] using (steady.suspended p inside).1
  · simp only [ne_eq, reduceCtorEq, not_false_eq_true, update_of_ne] at inside
    simpa [Off, ne inside, setStatus, kill] using steady.blocked i p inside
  · simp only [ne_eq, reduceCtorEq, not_false_eq_true, update_of_ne] at here
    simpa [ne (List.mem_of_mem_head? here)] using steady.first i p here
  · have other : p ≠ c := by
      rintro rfl
      exact active off
    simp [setStatus, kill, other]

theorem Steady.timer (steady : s.Steady L) (careful : Call.Careful s .tick) :
    ∃ s' L', s.timer = some s' ∧ s'.Steady L' ∧ s.Untouched s' := by
  have lists := steady.separate.lists .ready
  cases ready : L .ready with
  | nil =>
      rw [ready] at lists
      have empty : ¬ 0 < (s.queue .ready).queueCount := fun positive =>
        lists.queueCount_pos_iff.mp positive rfl
      obtain ⟨c, current, active⟩ := careful.resolve_left empty
      obtain ⟨live, busy⟩ := steady.current c current
      have status := run_of_not_off active busy
      have kept : ((s.kill (s.pid c) .stop).select c).status = s.status := by
        have alive : s.status c ≠ .zombie := fun ended => active (Or.inl ended)
        simp only [select_status, kill, if_neg alive]
        rw [← status, update_eq_self]
      refine ⟨_, L, timer_alone current live (steady.distinct.positive c live) lists,
        steady.congr kept rfl, ?_⟩
      exact untouched_select steady.distinct live active rfl rfl rfl (by simp) fun _ _ => rfl
  | cons t l =>
      have member : t ∈ L .ready := by simp [ready]
      have positive' := steady.distinct.positive t ((steady.ready_iff t).mp member).1
      rw [ready] at lists
      cases current : s.pCurrentThread with
      | none =>
          have popped := steady.pop ready (x := s) rfl (List.append_nil _).symm (by simp)
          exact ⟨_, _, timer_first lists current, popped⟩
      | some c =>
          obtain ⟨live, busy⟩ := steady.current c current
          have positive := steady.distinct.positive c live
          cases status : s.status c with
          | run =>
              obtain ⟨_, _, _, tick, steady', untouched⟩ := steady.switch ready current status
              exact ⟨_, _, tick, steady', untouched⟩
          | ready => exact absurd status busy
          | wait =>
              have popped := steady.pop ready (x := s.kill (s.pid c) .stop) rfl rfl (by simp)
              exact ⟨_, _, timer_wait current live positive lists status, popped⟩
          | zombie =>
              have popped := steady.pop ready
                (x := { (s.kill (s.pid c) .stop).kill
                  (s.pid c) .kill with pCurrentThread := none }) rfl
                (List.append_assoc _ _ _) (by simp)
              exact ⟨_, _, timer_zombie current live positive positive' lists status, popped⟩

/-- The current thread gets its time slice, whatever its status is. -/
theorem cpuTime_of_noThread {p : Pid} (current : s.pCurrentThread = some c)
    (selected : s.noThread p = some s') : s'.cpuTime c = s.cpuTime c + timeslice := by
  obtain ⟨a, followed, same⟩ := Option.bind_eq_some_iff.mp selected
  obtain rfl := Option.some.inj (current.symm.trans (deref_eq_some.mp followed).1)
  rw [← Option.some.inj same]
  split_ifs
  · simp [kill]
  · simp [kill, setStatus]

theorem timer_idle (current : s.pCurrentThread = none) (tick : s.timer = some s') :
    ∃ h, (s.queue .ready).pHead = some h ∧ s.allocated h = true ∧
      s'.cpuTime h = s.cpuTime h + timeslice := by
  simp only [timer, current] at tick
  obtain ⟨h, followed, rest⟩ := Option.bind_eq_some_iff.mp tick
  obtain ⟨head, live⟩ := deref_eq_some.mp followed
  refine ⟨h, head, live, ?_⟩
  rw [contextSwitch, if_pos rfl, dispatch] at rest
  split_ifs at rest
  · obtain ⟨n, _, selected⟩ := Option.bind_eq_some_iff.mp rest
    exact (cpuTime_of_noThread head selected :)
  · exact (cpuTime_of_noThread head rest :)

/-- A tick leaves the threads that are off alone if and only if it finds another one. -/
theorem Steady.careful_iff (steady : s.Steady L) (tick : s.timer = some s') :
    Call.Careful s .tick ↔ s.Untouched s' := by
  constructor
  · intro careful
    obtain ⟨s₁, _, run, _, untouched⟩ := steady.timer careful
    rwa [← Option.some.inj (run.symm.trans tick)]
  · intro untouched
    by_contra careless
    obtain ⟨empty, off⟩ := not_or.mp careless
    have lists := steady.separate.lists .ready
    have ready : L .ready = [] := by
      by_contra nonempty
      exact empty (lists.queueCount_pos_iff.mpr nonempty)
    cases current : s.pCurrentThread with
    | none =>
        obtain ⟨h, head, live, longer⟩ := timer_idle current tick
        have same := (untouched h live (Or.inr (steady.idle current ready h head))).1
        simp [same] at longer
    | some c =>
        rw [ready] at lists
        have live := (steady.current c current).1
        have ticked := timer_alone current live (steady.distinct.positive c live) lists
        obtain rfl := Option.some.inj (ticked.symm.trans tick)
        have asleep : s.Off c := by
          by_contra active
          exact off ⟨c, current, active⟩
        have same := (untouched c live asleep).1
        simp [kill] at same

/-! ## Runs -/

theorem Steady.post (steady : s.Steady L) (careful : Call.Careful s (.semPost semid))
    (run : s.threadSemPost semid = some s') : ∃ L', s'.Steady L' := by
  rw [threadSemPost] at run
  split_ifs at run with empty
  · obtain rfl := Option.some.inj run
    exact ⟨L, steady.congr rfl rfl⟩
  · have steady' : Steady { s with count := update s.count semid (s.count semid + 1) } L :=
      steady.congr rfl rfl
    have lists := steady.separate.lists (.semaphore semid)
    obtain ⟨tid, search, rest⟩ := Option.bind_eq_some_iff.mp run
    obtain ⟨a, found, rest⟩ := Option.bind_eq_some_iff.mp rest
    obtain ⟨s₁, unlinked, appended⟩ := Option.bind_eq_some_iff.mp rest
    cases front : L (.semaphore semid) with
    | nil =>
        rw [front] at lists
        exact absurd (lists.queueCount_eq_zero_iff.mpr rfl) empty
    | cons t l =>
        rw [front] at lists
        obtain rfl := steady'.findWaiting front search found
        have other : s.pCurrentThread ≠ some a := fun current =>
          careful empty (lists.pHead_eq.trans current.symm)
        obtain ⟨s₂, s₃, unlinked', appended', woken⟩ := steady'.wake front other
        rw [unlinked] at unlinked'
        obtain rfl := Option.some.inj unlinked'
        obtain rfl := Option.some.inj (appended'.symm.trans appended)
        exact ⟨_, woken⟩

private theorem Steady.step {x : Call} (steady : s.Steady L) (made : x.Made s)
    (careful : x.Careful s) (run : x.exec s = some s') : ∃ L', s'.Steady L' := by
  cases x with
  | create stack pid =>
      obtain ⟨⟨tid, s₁⟩, created, rfl⟩ := Option.map_eq_some_iff.mp run
      exact ⟨_, steady.create made created⟩
  | suspend tid =>
      obtain ⟨⟨r, s₁⟩, suspended, rfl⟩ := Option.map_eq_some_iff.mp run
      obtain ⟨t, found, _⟩ := Option.bind_eq_some_iff.mp suspended
      obtain ⟨still, alive, away⟩ := careful t found
      cases status : s.status t with
      | run => exact absurd status still
      | zombie => exact absurd status alive
      | wait =>
          obtain ⟨_, rfl⟩ : r = -1 ∧ s = s₁ := by
            simpa [threadSuspend, found, status, eq_comm] using suspended
          exact ⟨L, steady⟩
      | ready =>
          obtain ⟨s₂, L', suspended', steady'⟩ := steady.suspend found status
            fun b front semid => steady.notMem_semaphore (away status b front) semid
          obtain ⟨_, rfl⟩ := Prod.mk.inj (Option.some.inj (suspended'.symm.trans suspended))
          exact ⟨L', steady'⟩
  | exit => exact ⟨L, steady.exit run⟩
  | semWait semid =>
      obtain ⟨_, _, rest⟩ := Option.bind_eq_some_iff.mp run
      exact steady.semWaitStart careful rest
  | semWake semid =>
      change s.semWaitResume semid = some s' at run
      rw [semWaitResume] at run
      split_ifs at run with zero
      · exact steady.semWaitStart careful run
      · obtain rfl := Option.some.inj run
        exact ⟨L, steady.congr rfl rfl⟩
  | semPost semid => exact steady.post careful run
  | tick =>
      obtain ⟨s₁, L', tick, steady', _⟩ := steady.timer careful
      obtain rfl := Option.some.inj (tick.symm.trans run)
      exact ⟨L', steady'⟩
  | resume tid => exact made.elim
  | cancel tid => exact made.elim

/-- The queues are intact in every state that careful calls reach. -/
theorem steady_of_run (run : Run (fun s x => x.Made s ∧ x.Careful s) s) : ∃ L, s.Steady L := by
  induction run with
  | start initial => exact ⟨_, initial.steady⟩
  | call _ allowed exec induction =>
      obtain ⟨L, steady⟩ := induction
      exact steady.step allowed.1 allowed.2 exec

/-- In a run of careful calls a tick leaves the threads that have exited or wait alone if and only
if it is careful as well. -/
theorem untouched_of_run (run : Run (fun s x => x.Made s ∧ x.Careful s) s) (s' : Threads)
    (tick : s.timer = some s') : Call.Careful s .tick ↔ s.Untouched s' := by
  obtain ⟨L, steady⟩ := steady_of_run run
  exact steady.careful_iff tick

/-- The running one of two threads exits, and the tick finds the other one. -/
theorem untouched_of_run_two : ∃ s s', Call.exit.exec twoThreads = some s ∧ s.status 1 = .zombie ∧
    s.timer = some s' ∧ s.Untouched s' := by
  have run : Run (fun s x => x.Made s ∧ x.Careful s) twoThreads :=
    run_twoThreads (fun _ _ _ fresh => ⟨fresh, trivial⟩) (fun _ _ ready => ⟨trivial, Or.inl ready⟩)
  have run' := run.call (c := .exit) ⟨trivial, trivial⟩ rfl
  exact ⟨_, _, rfl, rfl, rfl, (untouched_of_run run' _ rfl).mp (Or.inl (by decide))⟩

/-- The only thread exits.  The next tick continues it. -/
theorem not_untouched_of_exit : ∃ s s',
    [Call.create 1 11, .tick, .exit].foldlM Call.exec blank.init = some s ∧
    Run (fun s x => x.Made s) s ∧ s.status 1 = .zombie ∧ s.timer = some s' ∧
    s'.cpuTime 1 = s.cpuTime 1 + timeslice ∧
    s'.signals = s.signals ++ [(11, Signal.stop), (11, Signal.cont)] ∧ ¬ s.Untouched s' := by
  have start : Run (fun s x => x.Made s) blank.init := Run.start initial_blank
  have created := start.call (c := .create 1 11)
    ⟨rfl, by decide, fun _ live => Bool.noConfusion live⟩ rfl
  have ticked := created.call (c := .tick) trivial rfl
  refine ⟨_, _, rfl, ticked.call (c := .exit) trivial rfl, rfl, rfl, rfl, rfl, fun untouched => ?_⟩
  exact absurd (untouched 1 rfl (Or.inl rfl)).1 (by decide)

end KwHomework.Threads
