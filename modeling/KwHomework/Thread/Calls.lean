import KwHomework.Thread.Timer

/-!
# Calls of the thread library

The calls that change the queues, and runs of them from `Init`.  `malloc` returns a stack that is
not allocated, and `clone` a positive pid that no thread has.
-/

namespace KwHomework.Threads

open Function LinkedList

variable {s s' : Threads} {l : List Ptr} {stack : Ptr} {pid : Pid}

/-- A call, a tick of the timer included. -/
inductive Call where
  | create (stack : Ptr) (pid : Pid)
  | suspend (tid : Fin maxThreadNum)
  | resume (tid : Fin maxThreadNum)
  | cancel (tid : Fin maxThreadNum)
  | exit
  | semWait (semid : Fin maxSemaphoreNum)
  | semWake (semid : Fin maxSemaphoreNum)
  | semPost (semid : Fin maxSemaphoreNum)
  | tick

/-- What a call does to the memory.  `semWake` is the rest of a `thread_sem_wait` that was
stopped. -/
def Call.exec (s : Threads) : Call → Option Threads
  | .create stack pid => (s.threadCreate stack pid).map Prod.snd
  | .suspend tid => (s.threadSuspend tid).map Prod.snd
  | .resume tid => (s.threadResume tid).map Prod.snd
  | .cancel tid => (s.threadCancel tid).map Prod.snd
  | .exit => s.threadExit
  | .semWait semid => s.threadSemWait semid
  | .semWake semid => s.semWaitResume semid
  | .semPost semid => s.threadSemPost semid
  | .tick => s.timer

/-- What `malloc` and `clone` return. -/
structure Fresh (s : Threads) (stack : Ptr) (pid : Pid) : Prop where
  unallocated : s.allocated stack = false
  positive : pid ≠ 0
  other : ∀ p, s.allocated p = true → s.pid p ≠ pid

/-- Memory behind `Init`: no thread has been created, and no thread waits at a semaphore. -/
def Initial (s : Threads) : Prop :=
  ∃ s₀ : Threads, (∀ p, s₀.allocated p = false) ∧ s₀.pCurrentThread = none ∧
    (∀ semid, (s₀.queue (.semaphore semid)).queueCount = 0) ∧ s = s₀.init

/-- Memory before any call, with nothing allocated. -/
def blank : Threads where
  allocated _ := false
  status _ := .run
  pid _ := 0
  cpuTime _ := 0
  pPrev _ := none
  pNext _ := none
  stackAddr _ := 0
  queue _ := ⟨0, none, none⟩
  count _ := 1
  pThreadTbEnt _ := ⟨false, none⟩
  pCurrentThread := none
  signals := []

theorem initial_blank : blank.init.Initial :=
  ⟨blank, fun _ => rfl, rfl, fun _ => rfl, rfl⟩

/-- The states that allowed calls reach from `Init`. -/
inductive Run (allowed : Threads → Call → Prop) : Threads → Prop
  | start {s : Threads} : s.Initial → Run allowed s
  | call {s s' : Threads} {c : Call} : Run allowed s → allowed s c → c.exec s = some s' →
    Run allowed s'

/-- Two threads, the first of which runs. -/
def twoThreads : Threads :=
  ([Call.create 1 11, .create 2 12, .tick].foldlM Call.exec blank.init).getD blank

/-- Two threads are created and the first one is dispatched. -/
theorem run_twoThreads {allowed : Threads → Call → Prop}
    (create : ∀ s stack pid, s.Fresh stack pid → allowed s (.create stack pid))
    (tick : ∀ s, (∃ p, s.allocated p = true ∧ s.status p = .ready) →
      0 < (s.queue .ready).queueCount → allowed s .tick) :
    Run allowed twoThreads := by
  have start : Run allowed blank.init := Run.start initial_blank
  have first := start.call (create _ 1 11 ⟨rfl, by decide, fun _ live => Bool.noConfusion live⟩) rfl
  have second := first.call (create _ 2 12 ⟨rfl, by decide, fun p live => ?_⟩) rfl
  · exact second.call (tick _ ⟨1, rfl, rfl⟩ (by decide)) rfl
  · by_cases same : p = 1
    · subst same
      decide
    · have other : update blank.init.allocated 1 true p = true := live
      rw [update_of_ne same] at other
      cases other

/-! ## Pids -/

/-- The threads have different positive pids. -/
structure Distinct (s : Threads) : Prop where
  positive : ∀ p, s.allocated p = true → s.pid p ≠ 0
  injective : ∀ p p', s.allocated p = true → s.allocated p' = true → s.pid p = s.pid p' → p = p'

theorem Initial.distinct (initial : s.Initial) : s.Distinct := by
  obtain ⟨s₀, none, _, _, rfl⟩ := initial
  have absent : ∀ {p}, s₀.init.allocated p = true → False := fun {p} live =>
    Bool.noConfusion ((none p).symm.trans live)
  exact ⟨fun p live => (absent live).elim, fun p p' live => (absent live).elim⟩

/-- The pids do not change, and no thread appears. -/
theorem Distinct.mono (distinct : s.Distinct)
    (live : ∀ p, s'.allocated p = true → s.allocated p = true ∧ s'.pid p = s.pid p) :
      s'.Distinct where
  positive p here := by
    rw [(live p here).2]
    exact distinct.positive p (live p here).1
  injective p p' here here' same := by
    rw [(live p here).2, (live p' here').2] at same
    exact distinct.injective p p' (live p here).1 (live p' here').1 same

/-! ## `thread_create` -/

/-- The new control block, before it is put on `ReadyQueue`. -/
@[simps -fullyApplied] def born (s : Threads) (stack : Ptr) (pid : Pid) (tid : Fin maxThreadNum) :
    Threads :=
  { s with
    allocated := update s.allocated stack true
    signals := s.signals ++ [(pid, .stop)]
    pThreadTbEnt := update s.pThreadTbEnt tid ⟨true, some stack⟩
    pid := update s.pid stack pid
    status := update s.status stack .ready
    stackAddr := update s.stackAddr stack stack
    cpuTime := update s.cpuTime stack 0 }

/-- The first entry of `pThreadTbEnt` that is not used. -/
def unusedTid (s : Threads) : Option (Fin maxThreadNum) :=
  (List.finRange maxThreadNum).find? fun tid => !(s.pThreadTbEnt tid).bUsed

theorem threadCreate_eq : s.threadCreate stack pid = s.unusedTid.bind fun tid =>
    ((s.born stack pid tid).append .ready .ready stack).map fun s' => (tid, s') := by
  simp only [threadCreate, unusedTid, kill, Option.map_eq_bind]
  rfl

theorem Fresh.distinct (fresh : s.Fresh stack pid) (distinct : s.Distinct)
    (tid : Fin maxThreadNum) :
    (s.born stack pid tid).Distinct := by
  have old : ∀ p, p ≠ stack → (s.born stack pid tid).allocated p = true →
      s.allocated p = true ∧ (s.born stack pid tid).pid p = s.pid p := by
    intro p other live
    exact ⟨(update_of_ne other _ _).symm.trans live, update_of_ne other _ _⟩
  have new : (s.born stack pid tid).pid stack = pid := update_self _ _ _
  constructor
  · intro p live
    by_cases same : p = stack
    · rw [same, new]
      exact fresh.positive
    · rw [(old p same live).2]
      exact distinct.positive p (old p same live).1
  · intro p p' live live' eq
    by_cases same : p = stack
    · by_cases same' : p' = stack
      · rw [same, same']
      · rw [same, new, (old p' same' live').2] at eq
        exact absurd eq.symm (fresh.other p' (old p' same' live').1)
    · by_cases same' : p' = stack
      · rw [same', new, (old p same live).2] at eq
        exact absurd eq (fresh.other p (old p same live).1)
      · rw [(old p same live).2, (old p' same' live').2] at eq
        exact distinct.injective p p' (old p same live).1 (old p' same' live').1 eq

theorem Fresh.relink (fresh : s.Fresh stack pid) (next prev : Ptr → Option Ptr) (q : QueueName)
    (queue : ThreadQueue) : (s.relink next prev q queue).Fresh stack pid :=
  ⟨fresh.unallocated, fresh.positive, fresh.other⟩

/-- A thread of a list is not a fresh one. -/
theorem Fresh.notMem {q : QueueName} (fresh : s.Fresh stack pid) (lists : s.Lists q l) :
    stack ∉ l :=
  fun member => Bool.noConfusion (fresh.unallocated.symm.trans (lists.live stack member))

/-- A list does not see the new control block. -/
theorem Lists.born {q : QueueName} (lists : s.Lists q l) (stack : Ptr) (pid : Pid)
    (tid : Fin maxThreadNum) : (s.born stack pid tid).Lists q l :=
  lists.congr rfl (fun _ _ => rfl) fun a member => by
    by_cases same : a = stack
    · simp [same]
    · simpa [same] using lists.live a member

/-- A new thread goes to the end of `ReadyQueue`. -/
theorem exists_threadCreate (lists : s.Lists .ready l) (fresh : s.Fresh stack pid)
    {tid : Fin maxThreadNum} (unused : s.unusedTid = some tid) : ∃ next queue,
    s.threadCreate stack pid = some (tid, (s.born stack pid tid).relink next
      (update s.pPrev stack (if l = [] then none else (s.queue .ready).pTail)) .ready queue) ∧
    ((s.born stack pid tid).relink next
      (update s.pPrev stack (if l = [] then none else (s.queue .ready).pTail)) .ready queue).Lists
        .ready (l ++ [stack]) ∧
    ∀ a, a ≠ stack → a ∉ l → next a = s.pNext a := by
  have live : (s.born stack pid tid).allocated stack = true := update_self _ _ _
  obtain ⟨next, queue, run, lists', same⟩ :=
    (lists.born stack pid tid).exists_append .ready (fresh.notMem lists) live
  refine ⟨next, queue, ?_, lists', same⟩
  rw [threadCreate_eq, unused, Option.bind_some, run]
  rfl

/-- What `thread_create` does to the memory. -/
theorem created_eq {tid : Fin maxThreadNum} (lists : s.Lists .ready l) (fresh : s.Fresh stack pid)
    (run : s.threadCreate stack pid = some (tid, s')) : s.unusedTid = some tid ∧ ∃ next queue,
    s' = (s.born stack pid tid).relink next
      (update s.pPrev stack (if l = [] then none else (s.queue .ready).pTail)) .ready queue ∧
    s'.Lists .ready (l ++ [stack]) ∧ ∀ a, a ≠ stack → a ∉ l → next a = s.pNext a := by
  have unused : s.unusedTid = some tid := by
    rw [threadCreate_eq] at run
    obtain ⟨tid', found, rest⟩ := Option.bind_eq_some_iff.mp run
    obtain ⟨_, _, same⟩ := Option.map_eq_some_iff.mp rest
    rw [found, (Prod.mk.inj same).1]
  obtain ⟨next, queue, run', lists', same⟩ := exists_threadCreate lists fresh unused
  obtain rfl := (Prod.mk.inj (Option.some.inj (run.symm.trans run'))).2
  exact ⟨unused, next, queue, rfl, lists', same⟩

/-! ## The table -/

/-- The first `n` entries of `pThreadTbEnt` are used. -/
def Used (s : Threads) (n : Nat) : Prop := ∀ tid, (s.pThreadTbEnt tid).bUsed = true ↔ tid.val < n

theorem Initial.used (initial : s.Initial) : s.Used 0 := by
  obtain ⟨s₀, _, _, _, rfl⟩ := initial
  simp [Used, init]

/-- The entry that is taken is the one behind those in use. -/
theorem Used.unusedTid {n : Nat} (used : s.Used n) {tid : Fin maxThreadNum}
    (found : s.unusedTid = some tid) : tid.val = n := by
  obtain ⟨free, i, small, here, before⟩ := List.find?_eq_some_iff_getElem.mp found
  have unused : ¬ tid.val < n := fun inside => by
    rw [(used tid).mpr inside] at free
    exact absurd free (by decide)
  have index : i = tid.val := by
    rw [← here, List.getElem_finRange]
    rfl
  by_contra other
  have inside : n < i := by omega
  have taken := before n inside
  rw [List.getElem_finRange] at taken
  have taken' := (used _).mp (by simpa using taken)
  simp at taken'

theorem Used.exists_unusedTid {n : Nat} (used : s.Used n) (room : n < maxThreadNum) :
    ∃ tid, s.unusedTid = some tid := by
  refine Option.isSome_iff_exists.mp (List.find?_isSome.mpr ⟨⟨n, room⟩, List.mem_finRange _, ?_⟩)
  have unused := mt (used ⟨n, room⟩).mp (Nat.lt_irrefl n)
  simpa using unused

/-- A new thread takes one more entry. -/
theorem Used.born {n : Nat} (used : s.Used n) {tid : Fin maxThreadNum} (free : tid.val = n)
    (stack : Ptr) (pid : Pid) : (s.born stack pid tid).Used (n + 1) := by
  intro tid'
  by_cases same : tid' = tid
  · simp [same, free]
  · have other : tid'.val ≠ n := fun eq => same (Fin.ext (eq.trans free.symm))
    have old := used tid'
    simp only [born_pThreadTbEnt, update_of_ne same, old]
    omega

end KwHomework.Threads
