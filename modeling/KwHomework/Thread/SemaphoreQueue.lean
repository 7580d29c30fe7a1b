import KwHomework.Queue.Fifo
import KwHomework.Thread.Dispatch

/-!
# The waiting queue of a semaphore

Threads block at a semaphore and `thread_sem_post` wakes them.  A blocked thread points back to the
tail of `ReadyQueue`, not to the thread in front of it.  Still the queue is first in, first out: a
post takes off the first thread, which has no `pPrev` because the one that was first before it wrote
the null pointer there.
-/

namespace KwHomework.Threads

open Function LinkedList

variable {s s' s₀ : Threads} {q : QueueName} {R W l : List Ptr} {t a : Ptr}
  {semid : Fin maxSemaphoreNum} {events : List (Fifo.Event Ptr)}

/-! ## What is assumed -/

/-- The table holds all threads, which have pids and stacks of their own. -/
structure Registered (s : Threads) : Prop where
  live : ∀ tid p, (s.pThreadTbEnt tid).pThread = some p → s.allocated p = true
  holds : ∀ p, s.allocated p = true → ∃ tid, (s.pThreadTbEnt tid).pThread = some p
  pids : ∀ p p', s.allocated p = true → s.allocated p' = true → s.pid p = s.pid p' → p = p'
  stack : ∀ p p', s.allocated p = true → s.allocated p' = true →
    s.stackAddr p = s.stackAddr p' → p = p'

/-- A chain of `queueCount` threads leads from the head of the queue to its tail.  What comes behind
the tail is not said. -/
structure Chained (s : Threads) (q : QueueName) (l : List Ptr) : Prop where
  count : (s.queue q).queueCount = l.length
  path : l ≠ [] → ∃ rest, Trail s.pNext (s.queue q).pHead l rest
  tail : l ≠ [] → (s.queue q).pTail = l.getLast?
  nodup : l.Nodup
  live : ∀ a ∈ l, s.allocated a = true

/-- The thread is on no queue. -/
def Away (s : Threads) (t : Ptr) : Prop := ∀ q l, s.Chained q l → t ∉ l

/-- Something happens that does not concern the semaphore: its queue and the threads on it are left
alone, and `ReadyQueue` stays a chain of other threads. -/
structure Elsewhere (semid : Fin maxSemaphoreNum) (s s' : Threads) : Prop where
  registered : s'.Registered
  queue : s'.queue (.semaphore semid) = s.queue (.semaphore semid)
  links : ∀ W, s.Chained (.semaphore semid) W → ∀ a ∈ W,
    s'.pNext a = s.pNext a ∧ s'.pPrev a = s.pPrev a ∧ s'.allocated a = true
  ready : ∃ R, s'.Chained .ready R ∧ ∀ W, s'.Chained (.semaphore semid) W → ∀ a ∈ W, a ∉ R

/-- Threads block at the semaphore, each while it runs, and the semaphore is posted. -/
inductive Blocking (semid : Fin maxSemaphoreNum) (s₀ : Threads) :
    List (Fifo.Event Ptr) → Threads → Prop
  | nil : Blocking semid s₀ [] s₀
  | wait {events : List (Fifo.Event Ptr)} {s s' : Threads} {t : Ptr} : Blocking semid s₀ events s →
      s.pCurrentThread = some t → s.allocated t = true → s.Away t → s.count semid = 0 →
      s.threadSemWait semid = some s' → Blocking semid s₀ (events ++ [.enter t]) s'
  | post {events : List (Fifo.Event Ptr)} {s s' : Threads} : Blocking semid s₀ events s →
      s.threadSemPost semid = some s' → Blocking semid s₀ (events ++ [.leave]) s'
  | elsewhere {events : List (Fifo.Event Ptr)} {s s' : Threads} : Blocking semid s₀ events s →
      Elsewhere semid s s' → Blocking semid s₀ events s'

/-! ## Searches of the table -/

namespace Registered

private theorem thread_eq (registered : s.Registered) {tid : Fin maxThreadNum}
    (entry : (s.pThreadTbEnt tid).pThread = some t) : s.thread tid = some t := by
  rw [thread, entry, deref_some (registered.live tid t entry)]

theorem search (registered : s.Registered) (test : Ptr → Bool) {p : Ptr}
    (live : s.allocated p = true) (passes : test p = true) : ∃ tid t,
    ((List.finRange maxThreadNum).findM? fun tid =>
      if (s.pThreadTbEnt tid).pThread = none then
        some false
      else
        (s.thread tid).bind fun t => some (test t)) = some (some tid) ∧
    s.thread tid = some t ∧ s.allocated t = true ∧ test t = true := by
  have total : (fun tid => if (s.pThreadTbEnt tid).pThread = none then some false else
      (s.thread tid).bind fun t => some (test t)) =
      fun tid => pure ((s.pThreadTbEnt tid).pThread.any test) := by
    funext tid
    cases entry : (s.pThreadTbEnt tid).pThread with
    | none => rfl
    | some t =>
        rw [if_neg (Option.some_ne_none t), registered.thread_eq entry]
        rfl
  obtain ⟨tid, entry⟩ := registered.holds p live
  have hit : ((List.finRange maxThreadNum).find? fun tid =>
      (s.pThreadTbEnt tid).pThread.any test).isSome := by
    refine List.find?_isSome.mpr ⟨tid, List.mem_finRange tid, ?_⟩
    rw [entry]
    exact passes
  obtain ⟨tid', found⟩ := Option.isSome_iff_exists.mp hit
  have tested := List.find?_some found
  obtain ⟨t, entry', passes'⟩ := (Option.any_eq_true _ _).mp tested
  refine ⟨tid', t, ?_, registered.thread_eq entry', registered.live tid' t entry', passes'⟩
  rw [total, List.findM?_pure, found]
  rfl

/-- `thread_self` finds the current thread. -/
theorem threadSelf (registered : s.Registered) (current : s.pCurrentThread = some t)
    (live : s.allocated t = true) : ∃ tid, s.threadSelf = some tid ∧ s.thread tid = some t := by
  obtain ⟨tid, t', search, found, live', same⟩ := registered.search
    (fun t' => decide (s.stackAddr t = s.stackAddr t')) live (decide_eq_true rfl)
  obtain rfl := registered.stack t t' live live' (of_decide_eq_true same)
  refine ⟨tid, ?_, found⟩
  rw [Threads.threadSelf, current, deref_some live]
  exact congrArg (Option.bind · id) search

/-- `thread_sem_post` finds the first thread of the queue. -/
theorem findWaiting (registered : s.Registered) (lists : s.Lists (.semaphore semid) (t :: W)) :
    ∃ tid, s.findWaiting semid = some tid ∧ s.thread tid = some t := by
  have live := lists.live t List.mem_cons_self
  obtain ⟨tid, t', search, found, live', same⟩ := registered.search
    (fun t' => decide (s.pid t' = s.pid t)) live (decide_eq_true rfl)
  obtain rfl := registered.pids t' t live' live (of_decide_eq_true same)
  refine ⟨tid, ?_, found⟩
  rw [Threads.findWaiting, lists.pHead_eq, deref_some live]
  exact congrArg (Option.bind · id) search

theorem congr (registered : s.Registered) (live : s'.allocated = s.allocated)
    (table : s'.pThreadTbEnt = s.pThreadTbEnt) (pid : s'.pid = s.pid)
    (stack : s'.stackAddr = s.stackAddr) : s'.Registered := by
  obtain ⟨entries, holds, pids, own⟩ := registered
  refine ⟨?_, ?_, ?_, ?_⟩
  · rwa [table, live]
  · rwa [table, live]
  · rwa [pid, live]
  · rwa [stack, live]

end Registered

/-! ## Chains -/

private theorem Lists.chained (lists : s.Lists q l) : s.Chained q l :=
  ⟨lists.count, fun nonempty => ⟨none, lists.path nonempty⟩, lists.tail, lists.nodup, lists.live⟩

namespace Chained

private theorem congr (chained : s.Chained q l) (queue : s'.queue q = s.queue q)
    (links : ∀ a ∈ l, s'.pNext a = s.pNext a) (live : ∀ a ∈ l, s'.allocated a = true) :
    s'.Chained q l where
  count := by rw [queue, chained.count]
  path nonempty := by
    obtain ⟨rest, path⟩ := chained.path nonempty
    rw [queue]
    exact ⟨rest, path.congr links⟩
  tail nonempty := by rw [queue, chained.tail nonempty]
  nodup := chained.nodup
  live := live

theorem unique {l' : List Ptr} (chained : s.Chained q l) (chained' : s.Chained q l') : l = l' := by
  have length : l.length = l'.length := Int.natCast_inj.mp (chained.count.symm.trans chained'.count)
  cases l with
  | nil => exact (List.length_eq_zero_iff.mp length.symm).symm
  | cons b l =>
      have nonempty : l' ≠ [] := by
        rintro rfl
        simp at length
      obtain ⟨_, path⟩ := chained.path (List.cons_ne_nil b l)
      obtain ⟨_, path'⟩ := chained'.path nonempty
      exact (path.prefix_of_le path' (Nat.le_of_eq length)).eq_of_length length

/-- The link behind the tail, cleared. -/
def cleared (s : Threads) (last : Ptr) : Threads := { s with pNext := update s.pNext last none }

theorem lists_cleared {last : Ptr} (chained : s.Chained q (l ++ [last])) :
    (cleared s last).Lists q (l ++ [last]) where
  count := chained.count
  path nonempty := by
    obtain ⟨rest, path⟩ := chained.path nonempty
    obtain ⟨m, front, first, _⟩ := trail_append.mp path
    have outside : last ∉ l := fun inside => by
      simpa using List.disjoint_of_nodup_append chained.nodup inside
    exact trail_append.mpr ⟨m, front.update outside none, first, by simp [cleared, Trail]⟩
  tail := chained.tail
  nodup := chained.nodup
  live := chained.live

/-- The link behind the tail is written first, whatever it is. -/
theorem append_cleared {last : Ptr} (chained : s.Chained q (l ++ [last])) (back : QueueName) :
    s.append q back t = (cleared s last).append q back t := by
  have counted : (s.queue q).queueCount ≠ 0 := by
    rw [chained.count, List.length_append, List.length_singleton]
    omega
  have tail : (s.queue q).pTail = some last := by simpa using chained.tail (by simp)
  have live := chained.live last (by simp)
  simp [append, cleared, counted, tail, setNext_some, live, setQueue]

theorem exists_append (chained : s.Chained q l) (back : QueueName) (fresh : t ∉ l)
    (live : s.allocated t = true) : ∃ next prev queue,
    s.append q back t = some (s.relink next prev q queue) ∧
    (s.relink next prev q queue).Lists q (l ++ [t]) ∧
    (∀ a, a ≠ t → a ∉ l → next a = s.pNext a) ∧ ∀ a, a ≠ t → prev a = s.pPrev a := by
  rcases List.eq_nil_or_concat l with rfl | ⟨l, last, rfl⟩
  · have lists : s.Lists q [] := ⟨chained.count, by simp, by simp, chained.nodup, chained.live⟩
    obtain ⟨next, queue, run, lists', kept⟩ := lists.exists_append back fresh live
    exact ⟨next, _, queue, run, lists', kept, fun a other => update_of_ne other _ _⟩
  · rw [List.concat_eq_append] at *
    obtain ⟨next, queue, run, lists', kept⟩ := chained.lists_cleared.exists_append back fresh live
    refine ⟨next, _, queue, (chained.append_cleared back).trans run, lists',
      fun a other outside => ?_, fun a other => update_of_ne other _ _⟩
    rw [kept a other outside]
    exact update_of_ne (fun same => outside (by simp [same])) _ _

end Chained

/-! ## What holds between the calls -/

/-- The threads that wait, and the ready ones. -/
structure Waits (s : Threads) (semid : Fin maxSemaphoreNum) (W R : List Ptr) : Prop where
  registered : s.Registered
  waiting : s.Lists (.semaphore semid) W
  /-- The first thread does not point back. -/
  first : ∀ t, W.head? = some t → s.pPrev t = none
  ready : s.Chained .ready R
  apart : ∀ t ∈ W, t ∉ R

namespace Waits

/-- Statuses, counters and signals do not matter. -/
theorem congr (waits : s.Waits semid W R)
    (same : s' = { s with status := s'.status, count := s'.count, signals := s'.signals }) :
    s'.Waits semid W R := by
  rw [same]
  exact ⟨waits.registered.congr rfl rfl rfl rfl, waits.waiting.congr rfl (fun _ _ => rfl)
    waits.waiting.live, waits.first, waits.ready.congr rfl (fun _ _ => rfl) waits.ready.live,
    waits.apart⟩

theorem block (waits : s.Waits semid W R) (live : s.allocated t = true) (idle : t ∉ W)
    (idle' : t ∉ R) : ∃ s₁, s.append (.semaphore semid) .ready t = some s₁ ∧
      s₁.Waits semid (W ++ [t]) R ∧ s₁.status = s.status ∧ s₁.count = s.count := by
  obtain ⟨next, queue, appended, lists, kept⟩ := waits.waiting.exists_append .ready idle live
  refine ⟨_, appended, ?_, rfl, rfl⟩
  refine ⟨waits.registered.congr rfl rfl rfl rfl, lists, fun a first => ?_,
    waits.ready.congr rfl (fun a inside => ?_) waits.ready.live, fun a inside => ?_⟩
  · cases W with
    | nil =>
        obtain rfl : t = a := by simpa using first
        exact update_self _ _ _
    | cons b W =>
        obtain rfl : b = a := by simpa using first
        have other : b ≠ t := ne_of_mem_of_not_mem List.mem_cons_self idle
        exact (update_of_ne other _ _).trans (waits.first b rfl)
  · exact kept a (ne_of_mem_of_not_mem inside idle') fun inside' => waits.apart a inside' inside
  · rcases List.mem_append.mp inside with old | new
    · exact waits.apart a old
    · rwa [List.mem_singleton.mp new]

theorem wait (waits : s.Waits semid W R) (current : s.pCurrentThread = some t)
    (live : s.allocated t = true) (idle : t ∉ W) (idle' : t ∉ R) (zero : s.count semid = 0) :
    ∃ s', s.threadSemWait semid = some s' ∧ s'.Waits semid (W ++ [t]) R ∧
      s'.status = update s.status t .wait ∧ s'.count = s.count := by
  obtain ⟨tid, self, found⟩ := waits.registered.threadSelf current live
  obtain ⟨s₁, appended, waits', status, count⟩ := waits.block live idle idle'
  refine ⟨(s₁.setStatus t .wait).kill (s₁.pid t) .stop, ?_, waits'.congr rfl, ?_, count⟩
  · simp only [threadSemWait, semWaitStart, self, zero, if_true, found, appended,
      Option.bind_eq_bind, Option.bind_some]
    rfl
  · rw [← status]
    rfl

theorem post_nil (waits : s.Waits semid [] R) :
    s.threadSemPost semid = some { s with count := update s.count semid (s.count semid + 1) } := by
  rw [threadSemPost, if_pos (waits.waiting.queueCount_eq_zero_iff.mpr rfl)]

theorem wake (waits : s.Waits semid (t :: W) R) : ∃ s₁ s₂,
    (s.unlink (.semaphore semid) some t).map (·.countDown (.semaphore semid)) = some s₁ ∧
    (s₁.setStatus t .ready).append .ready .ready t = some s₂ ∧
    s₂.Waits semid W (R ++ [t]) ∧ s₂.Lists .ready (R ++ [t]) ∧
    s₂.status = update s.status t .ready ∧ s₂.count = s.count := by
  have gone := (List.nodup_cons.mp waits.waiting.nodup).1
  have live := waits.waiting.live t List.mem_cons_self
  have outside := waits.apart t List.mem_cons_self
  have apart : ∀ a ∈ W, a ≠ t ∧ a ∉ R := fun a inside =>
    ⟨ne_of_mem_of_not_mem inside gone, waits.apart a (List.mem_cons_of_mem t inside)⟩
  obtain ⟨prev, queue, unlinked, lists, head, _⟩ :=
    waits.waiting.exists_unlink_first (waits.first t rfl) some
  have ready : ((s.relink s.pNext prev (.semaphore semid) queue).setStatus t .ready).Chained
      .ready R := waits.ready.congr rfl (fun _ _ => rfl) waits.ready.live
  obtain ⟨next, prev', queue', appended, lists', links, backs⟩ :=
    ready.exists_append .ready outside live
  refine ⟨_, _, unlinked, appended, ?_, lists', rfl, rfl⟩
  refine ⟨waits.registered.congr rfl rfl rfl rfl, lists.congr rfl (fun a inside => ?_) lists.live,
    fun a first => ?_, lists'.chained, fun a inside => ?_⟩
  · exact links a (apart a inside).1 (apart a inside).2
  · exact (backs a (apart a (List.mem_of_mem_head? first)).1).trans (head a first)
  · simpa [(apart a inside).1] using (apart a inside).2

theorem post_cons (waits : s.Waits semid (t :: W) R) :
    ∃ s', s.threadSemPost semid = some s' ∧ s'.Waits semid W (R ++ [t]) ∧
      s'.Lists .ready (R ++ [t]) ∧ s'.status = update s.status t .ready ∧
      s'.count = update s.count semid (s.count semid + 1) := by
  have counted : (s.queue (.semaphore semid)).queueCount ≠ 0 := fun zero =>
    List.cons_ne_nil t W (waits.waiting.queueCount_eq_zero_iff.mp zero)
  have posted : Waits { s with count := update s.count semid (s.count semid + 1) } semid
    (t :: W) R :=
    waits.congr rfl
  obtain ⟨tid, search, found⟩ := posted.registered.findWaiting posted.waiting
  obtain ⟨s₁, s₂, unlinked, appended, waits', lists, status, count⟩ := posted.wake
  obtain ⟨s₀, unlinked₀, rfl⟩ := Option.map_eq_some_iff.mp unlinked
  refine ⟨s₂, ?_, waits', lists, status, count⟩
  simp only [threadSemPost, if_neg counted, search, found, unlinked₀, Option.bind_eq_bind,
    Option.bind_some]
  exact appended

theorem elsewhere (waits : s.Waits semid W R) (elsewhere : Elsewhere semid s s') :
    ∃ R', s'.Waits semid W R' := by
  obtain ⟨R', ready, apart⟩ := elsewhere.ready
  have links := elsewhere.links W waits.waiting.chained
  have lists : s'.Lists (.semaphore semid) W := waits.waiting.congr elsewhere.queue
    (fun a inside => (links a inside).1) fun a inside => (links a inside).2.2
  refine ⟨R', elsewhere.registered, lists, fun t first => ?_, ready, apart W lists.chained⟩
  rw [(links t (List.mem_of_mem_head? first)).2.1]
  exact waits.first t first

/-- A `thread_sem_wait` that does not block does not concern the queue. -/
theorem elsewhere_of_count (waits : s.Waits semid W R) (positive : s.count semid ≠ 0)
    (run : s.threadSemWait semid = some s') : Elsewhere semid s s' := by
  obtain ⟨_, _, run⟩ := Option.bind_eq_some_iff.mp run
  obtain ⟨_, _, run⟩ := Option.bind_eq_some_iff.mp run
  rw [if_neg positive] at run
  obtain rfl := Option.some.inj run
  have waits' : Waits { s with count := update s.count semid (s.count semid - 1) } semid W R :=
    waits.congr rfl
  refine ⟨waits'.registered, rfl, fun l chained a inside => ⟨rfl, rfl, chained.live a inside⟩, R,
    waits'.ready, fun l chained => ?_⟩
  rw [chained.unique waits'.waiting.chained]
  exact waits'.apart

end Waits

/-! ## Runs -/

theorem Blocking.waits (run : Blocking semid s₀ events s) (start : s₀.Waits semid [] R) :
    ∃ R, s.Waits semid (Fifo.queue events) R := by
  induction run with
  | nil => exact ⟨R, start⟩
  | wait _ current live away zero step induction =>
      obtain ⟨R, waits⟩ := induction
      obtain ⟨s', step', waits', _⟩ := waits.wait current live (away _ _ waits.waiting.chained)
        (away _ _ waits.ready) zero
      obtain rfl := Option.some.inj (step.symm.trans step')
      exact ⟨R, by rwa [Fifo.queue_enter]⟩
  | @post events s s' _ step induction =>
      obtain ⟨R, waits⟩ := induction
      rw [Fifo.queue_leave]
      cases queued : Fifo.queue events with
      | nil =>
          rw [queued] at waits
          obtain rfl := Option.some.inj (step.symm.trans waits.post_nil)
          exact ⟨R, waits.congr rfl⟩
      | cons t W =>
          rw [queued] at waits
          obtain ⟨s'', step', waits', _⟩ := waits.post_cons
          obtain rfl := Option.some.inj (step.symm.trans step')
          exact ⟨_, waits'⟩
  | elsewhere _ other induction =>
      obtain ⟨R, waits⟩ := induction
      exact waits.elsewhere other

/-- From an empty queue on, the waiting queue of a semaphore is first in, first out: it holds the
threads that have blocked and were not woken, in this order, a thread that blocks goes to its end,
and a post counts if nobody waits and otherwise makes the first thread the last one of
`ReadyQueue`. -/
theorem semaphore_fifo (run : Blocking semid s₀ events s)
    (empty : (s₀.queue (.semaphore semid)).queueCount = 0) (registered : s₀.Registered)
    (ready : ∃ R, s₀.Chained .ready R) :
    s.Lists (.semaphore semid) (Fifo.queue events) ∧
    Fifo.gone events ++ Fifo.queue events = Fifo.entered events ∧
    (∀ t, s.pCurrentThread = some t → s.allocated t = true → s.Away t → s.count semid = 0 →
      ∃ s', s.threadSemWait semid = some s' ∧
        s'.Lists (.semaphore semid) (Fifo.queue events ++ [t]) ∧
        s'.status = update s.status t .wait ∧ s'.count = s.count) ∧
    ∃ R, s.Chained .ready R ∧
      (Fifo.queue events = [] → s.threadSemPost semid =
        some { s with count := update s.count semid (s.count semid + 1) }) ∧
      ∀ t W, Fifo.queue events = t :: W → ∃ s', s.threadSemPost semid = some s' ∧
        s'.Lists (.semaphore semid) W ∧ s'.Lists .ready (R ++ [t]) ∧
        s'.status = update s.status t .ready ∧
        s'.count = update s.count semid (s.count semid + 1) := by
  obtain ⟨R₀, chained⟩ := ready
  have start : s₀.Waits semid [] R₀ :=
    ⟨registered, ⟨empty, by simp, by simp, List.nodup_nil, by simp⟩, by simp, chained, by simp⟩
  obtain ⟨R, waits⟩ := run.waits start
  refine ⟨waits.waiting, Fifo.gone_append_queue events, fun t current live away zero => ?_, R,
    waits.ready, fun nobody => ?_, fun t W queued => ?_⟩
  · obtain ⟨s', step, waits', status, count⟩ := waits.wait current live
      (away _ _ waits.waiting.chained) (away _ _ waits.ready) zero
    exact ⟨s', step, waits'.waiting, status, count⟩
  · rw [nobody] at waits
    exact waits.post_nil
  · rw [queued] at waits
    obtain ⟨s', step, waits', lists, status, count⟩ := waits.post_cons
    exact ⟨s', step, waits'.waiting, lists, status, count⟩

theorem waits_twoThreads (semid : Fin maxSemaphoreNum) : twoThreads.Waits semid [] [2] := by
  have live : twoThreads.allocated = update (update (fun _ => false) 1 true) 2 true := rfl
  have two : ∀ p, twoThreads.allocated p = true → p = 1 ∨ p = 2 := by
    intro p here
    by_contra other
    obtain ⟨one, two⟩ := not_or.mp other
    simp [live, one, two] at here
  have entries : ∀ tid, (twoThreads.pThreadTbEnt tid).pThread =
      if tid = 0 then some 1 else if tid = 1 then some 2 else none := by decide
  have both {f : Ptr → Nat} (different : f 1 ≠ f 2) : ∀ p p', twoThreads.allocated p = true →
      twoThreads.allocated p' = true → f p = f p' → p = p' := by
    intro p p' here here' same
    rcases two p here with rfl | rfl <;> rcases two p' here' with rfl | rfl
    · rfl
    · exact absurd same different
    · exact absurd same.symm different
    · rfl
  refine ⟨⟨fun tid p entry => ?_, fun p here => ?_, both (by decide), both (by decide)⟩,
    ⟨rfl, by simp, by simp, List.nodup_nil, by simp⟩, by simp,
    ⟨rfl, fun _ => ⟨none, rfl, rfl⟩, fun _ => rfl, List.nodup_singleton 2, ?_⟩, by simp⟩
  · rw [entries] at entry
    split_ifs at entry
    · obtain rfl := Option.some.inj entry
      rfl
    · obtain rfl := Option.some.inj entry
      rfl
  · rcases two p here with rfl | rfl
    · exact ⟨0, rfl⟩
    · exact ⟨1, rfl⟩
  · intro a inside
    rw [List.mem_singleton.mp inside]
    rfl

private theorem away_of_chained (known : ∀ q, ∃ l, s.Chained q l ∧ t ∉ l) : s.Away t := by
  intro q l chained
  obtain ⟨l', chained', outside⟩ := known q
  rwa [chained.unique chained']

private theorem chained_nil (counted : (s.queue q).queueCount = 0) : s.Chained q [] :=
  ⟨counted, by simp, by simp, List.nodup_nil, by simp⟩

/-- The first of two threads passes the semaphore and blocks at it. -/
def oneSleeper : Threads :=
  ((twoThreads.threadSemWait 0).bind fun s => s.threadSemWait 0).getD blank

/-- The second thread is dispatched. -/
def oneSleeperTicked : Threads := oneSleeper.timer.getD blank

private theorem blocking_oneSleeper : Blocking 0 twoThreads [.enter 1] oneSleeper := by
  have start := waits_twoThreads 0
  have passed : twoThreads.threadSemWait 0 =
      some { twoThreads with count := update twoThreads.count 0 0 } := rfl
  have elsewhere := start.elsewhere_of_count (by decide) passed
  have waits : Waits { twoThreads with count := update twoThreads.count 0 0 } 0 [] [2] :=
    start.congr rfl
  have away : Away { twoThreads with count := update twoThreads.count 0 0 } 1 := by
    refine away_of_chained fun q => ?_
    cases q with
    | ready => exact ⟨[2], waits.ready, by decide⟩
    | waiting => exact ⟨[], chained_nil rfl, List.not_mem_nil⟩
    | semaphore semid => exact ⟨[], chained_nil rfl, List.not_mem_nil⟩
  exact (Blocking.nil.elsewhere elsewhere).wait rfl rfl away rfl rfl

/-- A tick does not concern the semaphore. -/
theorem blocking_oneSleeperTicked : Blocking 0 twoThreads [.enter 1] oneSleeperTicked := by
  obtain ⟨R, waits⟩ := blocking_oneSleeper.waits (waits_twoThreads 0)
  have pid : oneSleeperTicked.pid = oneSleeper.pid := update_eq_self 2 oneSleeper.pid
  refine blocking_oneSleeper.elsewhere ⟨waits.registered.congr rfl rfl pid rfl, rfl,
    fun W chained a inside => ⟨rfl, rfl, chained.live a inside⟩, [], chained_nil rfl, ?_⟩
  exact fun _ _ _ _ => List.not_mem_nil

/-- Both threads block, and a post wakes the one that was first. -/
theorem semaphore_fifo_twoThreads : ∃ s s', Blocking 0 twoThreads [.enter 1, .enter 2] s ∧
    s.Lists (.semaphore 0) [1, 2] ∧ s.threadSemPost 0 = some s' ∧ s'.Lists (.semaphore 0) [2] ∧
    s'.Lists .ready [1] := by
  have start := waits_twoThreads 0
  obtain ⟨R, waits⟩ := blocking_oneSleeperTicked.waits start
  have away : Away oneSleeperTicked 2 := by
    refine away_of_chained fun q => ?_
    cases q with
    | ready => exact ⟨[], chained_nil rfl, List.not_mem_nil⟩
    | waiting => exact ⟨[], chained_nil rfl, List.not_mem_nil⟩
    | semaphore semid =>
        by_cases same : semid = 0
        · subst same
          exact ⟨[1], waits.waiting.chained, by decide⟩
        · have others : ∀ i : Fin maxSemaphoreNum, i ≠ 0 →
              (oneSleeperTicked.queue (.semaphore i)).queueCount = 0 := by decide
          exact ⟨[], chained_nil (others semid same), List.not_mem_nil⟩
  obtain ⟨_, _, blocks, _⟩ :=
    semaphore_fifo blocking_oneSleeperTicked rfl start.registered ⟨[2], start.ready⟩
  obtain ⟨s, step, lists, _⟩ := blocks 2 rfl rfl away rfl
  have run : Blocking 0 twoThreads [.enter 1, .enter 2] s :=
    blocking_oneSleeperTicked.wait rfl rfl away rfl step
  obtain rfl : _ = s := Option.some.inj step
  obtain ⟨_, _, _, R', ready, _, post⟩ :=
    semaphore_fifo run rfl start.registered ⟨[2], start.ready⟩
  obtain ⟨s', step', lists', woken, _⟩ := post 1 [2] rfl
  obtain rfl : R' = [] := ready.unique (chained_nil rfl)
  exact ⟨_, s', run, lists, step', lists', woken⟩

end KwHomework.Threads
