import KwHomework.Thread.QueueLists

/-!
# The timer

What a tick does, by the status of the current thread and by what `ReadyQueue` holds.  In every case
it selects one thread: the head of `ReadyQueue`, or the current thread if the queue is empty.
-/

namespace KwHomework.Threads

open Function LinkedList

variable {s : Threads} {l : List Ptr} {c t : Ptr}

/-- The selected thread gets its time slice. -/
@[simps -fullyApplied] def select (s : Threads) (t : Ptr) : Threads :=
  { s with
    status := if s.status t = .zombie then s.status else update s.status t .run
    cpuTime := update s.cpuTime t (s.cpuTime t + timeslice)
    signals := s.signals ++ [(s.pid t, .cont)] }

/-- The head of `ReadyQueue` becomes the current thread. -/
@[simps -fullyApplied] def popReady (s : Threads) (t : Ptr) (l : List Ptr) : Threads :=
  { s with
    pCurrentThread := some t
    queue := update s.queue .ready
      ⟨l.length, if l = [] then (s.queue .ready).pHead else l.head?, (s.queue .ready).pTail⟩ }

private theorem noThread_eq (current : s.pCurrentThread = some t) (live : s.allocated t = true) :
    s.noThread (s.pid t) = some (s.select t) := by
  by_cases exited : s.status t = .zombie
  · simp [noThread, current, deref_some live, exited, select, kill]
  · simp [noThread, current, deref_some live, exited, select, kill, setStatus]

namespace Lists

/-- The other threads stay in the queue. -/
theorem popReady (lists : s.Lists .ready (t :: l)) : (s.popReady t l).Lists .ready l where
  count := by simp
  path nonempty := by
    have path := (lists.path (List.cons_ne_nil t l)).2
    have after : s.pNext t = l.head? := lists.pNext_head
    rw [after] at path
    simpa [nonempty] using path
  tail nonempty := by
    have tail := lists.tail (List.cons_ne_nil t l)
    cases l with
    | nil => exact absurd rfl nonempty
    | cons a l => simpa using tail
  nodup := (List.nodup_cons.mp lists.nodup).2
  live a member := lists.live a (List.mem_cons_of_mem t member)

private theorem dispatch_eq (lists : s.Lists .ready (t :: l)) :
    s.dispatch (s.pid t) = some ((s.popReady t l).select t) := by
  have head := lists.pHead_eq
  have live := lists.live t (by simp)
  have after : s.pNext t = l.head? := lists.pNext_head
  have count : (s.queue .ready).queueCount - 1 = l.length := by
    rw [lists.count, List.length_cons]
    omega
  have selected := noThread_eq (s := s.popReady t l) (t := t) rfl live
  rw [← selected]
  cases l with
  | nil => simp [dispatch, head, countDown, setQueue, count, Threads.popReady]
  | cons a l =>
      have counted : (↑l.length + 1 : Int) ≠ 0 := by omega
      simp [dispatch, head, countDown, setQueue, count, Threads.popReady, deref_some, live, after,
        counted]

end Lists

/-! ## Ticks -/

/-- The first tick. -/
theorem timer_first (lists : s.Lists .ready (t :: l)) (current : s.pCurrentThread = none) :
    s.timer = some ((s.popReady t l).select t) := by
  rw [← lists.dispatch_eq]
  simp [timer, current, lists.pHead_eq, deref_some (lists.live t (by simp)), contextSwitch]

variable (current : s.pCurrentThread = some c) (live : s.allocated c = true)
  (positive : s.pid c ≠ 0)
include current live positive

/-- No other thread is ready. -/
theorem timer_alone (lists : s.Lists .ready []) :
    s.timer = some ((s.kill (s.pid c) .stop).select c) := by
  have selected := noThread_eq (s := s.kill (s.pid c) .stop) current live
  rw [← selected]
  simp [timer, current, deref_some live, positive, kill, lists.count, contextSwitch]

private theorem timer_ready (lists : s.Lists .ready (t :: l)) :
    s.timer = (s.kill (s.pid c) .stop).contextSwitch (if s.status c = .wait then 0 else s.pid c)
      (s.pid t) := by
  have counted := lists.queueCount_pos_iff.mpr (List.cons_ne_nil t l)
  have first := lists.live t (by simp)
  simp [timer, current, deref_some, live, positive, kill, counted, lists.pHead_eq, first]

/-- The current thread waits and is dropped. -/
theorem timer_wait (lists : s.Lists .ready (t :: l)) (status : s.status c = .wait) :
    s.timer = some (((s.kill (s.pid c) .stop).popReady t l).select t) := by
  have lists' : (s.kill (s.pid c) .stop).Lists .ready (t :: l) :=
    lists.congr rfl (fun _ _ => rfl) lists.live
  rw [timer_ready current live positive lists, if_pos status, ← lists'.dispatch_eq, contextSwitch,
    if_pos rfl]
  rfl

variable (positive' : s.pid t ≠ 0)
include positive'

/-- The current thread has exited and is dropped. -/
theorem timer_zombie (lists : s.Lists .ready (t :: l)) (status : s.status c = .zombie) :
    s.timer = some (({ (s.kill (s.pid c) .stop).kill (s.pid c) .kill with
      pCurrentThread := none }.popReady t l).select t) := by
  have lists' : ({ (s.kill (s.pid c) .stop).kill (s.pid c) .kill with pCurrentThread := none } :
      Threads).Lists .ready (t :: l) := lists.congr rfl (fun _ _ => rfl) lists.live
  rw [timer_ready current live positive lists, if_neg (by rw [status]; decide),
    ← lists'.dispatch_eq, contextSwitch, if_neg positive, if_neg positive']
  simp [kill, current, deref_some, live, status]

/-- The current thread is put behind the others. -/
theorem timer_switch (lists : s.Lists .ready (t :: l)) (status : s.status c ≠ .zombie)
    (status' : s.status c ≠ .wait) (fresh : c ∉ t :: l) : ∃ next queue,
    s.timer = some (((((s.kill (s.pid c) .stop).setStatus c .ready).relink next
      (update s.pPrev c (s.queue .ready).pTail) .ready queue).popReady t (l ++ [c])).select t) ∧
    ((((s.kill (s.pid c) .stop).setStatus c .ready).relink next
      (update s.pPrev c (s.queue .ready).pTail) .ready queue).popReady t (l ++ [c])).Lists .ready
        (l ++ [c]) ∧
    ∀ a, a ≠ c → a ∉ t :: l → next a = s.pNext a := by
  have lists₁ : ((s.kill (s.pid c) .stop).setStatus c .ready).Lists .ready (t :: l) :=
    lists.congr rfl (fun _ _ => rfl) lists.live
  obtain ⟨next, queue, run, lists₂, same⟩ := lists₁.exists_append .ready fresh live
  rw [if_neg (List.cons_ne_nil t l)] at run lists₂
  refine ⟨next, queue, ?_, lists₂.popReady, same⟩
  have step := lists₂.dispatch_eq
  have current' : (s.kill (s.pid c) .stop).deref (s.kill (s.pid c) .stop).pCurrentThread = some c :=
    (congrArg s.deref current).trans (deref_some live)
  have running : ¬ (s.kill (s.pid c) .stop).status c = .zombie := status
  rw [timer_ready current live positive lists, if_neg status', contextSwitch, if_neg positive,
    if_neg positive']
  simp only [current', Option.bind_eq_bind, Option.bind_some, if_neg running, run]
  exact step

end KwHomework.Threads
