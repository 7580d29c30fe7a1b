import KwHomework.Memory.CMemory
import KwHomework.Scheduling.UnitPool
import KwHomework.Thread.Processes
import KwHomework.Thread.SemaphoreQueue

/-!
# The table of semaphores

`thread_sem_open` and `thread_sem_close`, and runs in which semaphores are opened, used by the
running thread and closed.  No tick comes inside a call, other than the one that stops a waiting
thread.
-/

namespace KwHomework.Threads

open Function LinkedList

variable {s s' x : Threads} {L : QueueName → List Ptr} {l : List Ptr} {c t p : Ptr} {stack : Ptr}
  {pid : Pid} {tid : Fin maxThreadNum} {semid : Fin maxSemaphoreNum}

/-- `SEM_NAME_MAX`. -/
abbrev semNameMax : Nat := 100

/-- `SemaphoreTblEnt`, without `pSemaphore`: the semaphores themselves are numbered as their entries
are. -/
structure SemaphoreTblEnt where
  name : Fin semNameMax → Byte
  bUsed : Bool

/-- `pSemaphoreTblEnt`. -/
abbrev SemaphoreTbl := Fin maxSemaphoreNum → SemaphoreTblEnt

/-- `thread_sem_open`, where `malloc` returns memory that holds the queue `memory`.  The search for
an entry runs off the table if all are used. -/
def threadSemOpen (s : Threads) (table : SemaphoreTbl) (name : List Byte) (count : Int)
    (memory : ThreadQueue) : Option (Fin maxSemaphoreNum × SemaphoreTbl × Threads) := do
  let pos ← (List.finRange maxSemaphoreNum).find? fun pos => !(table pos).bUsed
  let copy ← strcpy (table pos).name name
  let table := update table pos ⟨copy, true⟩
  let s := s.setQueue (.semaphore pos) fun _ => memory
  return (pos, table, { s with count := update s.count pos count })

/-- `thread_sem_close`.  The freed semaphore is left as it is, since nothing reads it. -/
def threadSemClose (table : SemaphoreTbl) (semid : Fin maxSemaphoreNum) : Int × SemaphoreTbl :=
  let table := update table semid { table semid with bUsed := false }
  let table := update table semid { table semid with name := fun _ => 0#8 }
  (0, table)

/-- The thread is current and runs. -/
def Runs (s : Threads) (c : Ptr) : Prop := s.pCurrentThread = some c ∧ s.status c = .run

/-- The threads that sleep at each semaphore, and those that have been woken there. -/
abbrev Pools := Fin maxSemaphoreNum → Option (UnitPool Ptr)

namespace Pools

def asleep (a : Pools) (semid : Fin maxSemaphoreNum) : List Ptr := (a semid).elim [] UnitPool.asleep

def woken (a : Pools) (semid : Fin maxSemaphoreNum) : List Ptr := (a semid).elim [] UnitPool.woken

end Pools

/-- The thread runs and is not inside `thread_sem_wait`. -/
def Acts (s : Threads) (a : Pools) (c : Ptr) : Prop := s.Runs c ∧ ∀ semid, c ∉ a.woken semid

/-- A run from `Init`, beside the pools of the semaphores that are open.  Ticks find a ready thread
or a running one.  A semaphore is closed when nobody is inside its `thread_sem_wait`. -/
inductive Serving : Threads → SemaphoreTbl → Pools → Prop
  | start {s : Threads} {table : SemaphoreTbl} : s.Initial →
      (∀ tid, (s.pThreadTbEnt tid).pThread = none) → (∀ semid, (table semid).bUsed = false) →
      Serving s table fun _ => none
  | create {s s' : Threads} {table : SemaphoreTbl} {a : Pools} {stack : Ptr} {pid : Pid}
      {tid : Fin maxThreadNum} : Serving s table a → s.Fresh stack pid →
      s.threadCreate stack pid = some (tid, s') → Serving s' table a
  | tick {s s' : Threads} {table : SemaphoreTbl} {a : Pools} : Serving s table a →
      (0 < (s.queue .ready).queueCount ∨ ∃ c, s.Runs c) → s.timer = some s' → Serving s' table a
  | exit {s s' : Threads} {table : SemaphoreTbl} {a : Pools} {c : Ptr} : Serving s table a →
      s.Acts a c → s.threadExit = some s' → Serving s' table a
  | semOpen {s s' : Threads} {table table' : SemaphoreTbl} {a : Pools} {semid : Fin maxSemaphoreNum}
      (name : List Byte) (n : Nat) (memory : ThreadQueue) : Serving s table a →
      memory.queueCount = 0 → s.threadSemOpen table name n memory = some (semid, table', s') →
      Serving s' table' (update a semid (some (.opened n)))
  | semClose {s : Threads} {table : SemaphoreTbl} {a : Pools} {semid : Fin maxSemaphoreNum} :
      Serving s table a → a semid ≠ none → a.asleep semid = [] → a.woken semid = [] →
      Serving s (threadSemClose table semid).2 (update a semid none)
  | semWait {s s' : Threads} {table : SemaphoreTbl} {a : Pools} {pool : UnitPool Ptr} {c : Ptr}
      {semid : Fin maxSemaphoreNum} : Serving s table a → s.Acts a c → a semid = some pool →
      s.threadSemWait semid = some s' → Serving s' table (update a semid (some (pool.enter c)))
  | semWake {s s' : Threads} {table : SemaphoreTbl} {a : Pools} {pool : UnitPool Ptr} {c : Ptr}
      {semid : Fin maxSemaphoreNum} : Serving s table a → s.Runs c → a semid = some pool →
      c ∈ pool.woken → s.semWaitResume semid = some s' →
      Serving s' table (update a semid (some (pool.retry c)))
  | semPost {s s' : Threads} {table : SemaphoreTbl} {a : Pools} {pool : UnitPool Ptr} {c : Ptr}
      {semid : Fin maxSemaphoreNum} : Serving s table a → s.Acts a c → a semid = some pool →
      s.threadSemPost semid = some s' → Serving s' table (update a semid (some pool.give))

/-! ## Ticks -/

/-- A tick from `s` to `s'` selects `t` and leaves `R` on `ReadyQueue`. -/
structure Selects (s s' : Threads) (L : QueueName → List Ptr) (t : Ptr) (R : List Ptr) : Prop where
  steady : s'.Steady (update L .ready R)
  runs : s'.Runs t
  others : ∀ p, p ≠ t → ¬ s.Runs p → s'.status p = s.status p
  rest : (L .ready = [] ∧ R = [] ∧ s.Runs t) ∨
    ∃ l back, L .ready = t :: l ∧ R = l ++ back ∧ ∀ c, s.Runs c → c ∈ back
  count : s'.count = s.count

theorem runs_popReady (status : x.status t = .ready) : ((x.popReady t l).select t).Runs t := by
  have alive : x.status t ≠ .zombie := by
    rw [status]
    decide
  exact ⟨rfl, by simp [alive]⟩

private theorem status_popReady (other : p ≠ t) :
    ((x.popReady t l).select t).status p = x.status p := by
  simp only [select_status, popReady_status]
  split_ifs
  · rfl
  · exact update_of_ne other _ _

/-- What a tick does as long as a thread is ready or runs. -/
theorem Steady.exists_select (steady : s.Steady L)
    (busy : 0 < (s.queue .ready).queueCount ∨ ∃ c, s.Runs c) :
    ∃ s' t R, s.timer = some s' ∧ s.Selects s' L t R := by
  have lists := steady.separate.lists .ready
  cases ready : L .ready with
  | nil =>
      rw [ready] at lists
      have empty : ¬ 0 < (s.queue .ready).queueCount := fun positive =>
        lists.queueCount_pos_iff.mp positive rfl
      obtain ⟨c, current, status⟩ := busy.resolve_left empty
      have live := (steady.current c current).1
      have alive : s.status c ≠ .zombie := by
        rw [status]
        decide
      have kept : ((s.kill (s.pid c) .stop).select c).status = s.status := by
        simp only [select_status, kill, if_neg alive]
        rw [← status, update_eq_self]
      have same : update L .ready [] = L := by rw [← ready, update_eq_self]
      refine ⟨_, c, [], timer_alone current live (steady.distinct.positive c live) lists, ?_,
        ⟨current, (congrFun kept c).trans status⟩, fun p _ _ => congrFun kept p,
        .inl ⟨ready, rfl, current, status⟩, rfl⟩
      rw [same]
      exact steady.congr kept rfl
  | cons t l =>
      have member : t ∈ L .ready := by simp [ready]
      obtain ⟨liveT, statusT⟩ := (steady.ready_iff t).mp member
      have positive' := steady.distinct.positive t liveT
      rw [ready] at lists
      cases current : s.pCurrentThread with
      | none =>
          have idle : ∀ c, ¬ s.Runs c := fun c runs =>
            Option.some_ne_none c (runs.1.symm.trans current)
          exact ⟨_, t, l, timer_first lists current,
            (steady.pop ready (x := s) rfl (List.append_nil _).symm (by simp)).1,
            runs_popReady statusT, fun p other _ => status_popReady other,
            .inr ⟨l, [], ready, (List.append_nil l).symm, fun c runs => absurd runs (idle c)⟩, rfl⟩
      | some c =>
          obtain ⟨live, busy'⟩ := steady.current c current
          have positive := steady.distinct.positive c live
          have only : ∀ b, s.Runs b → s.status c = .run := fun b runs => by
            rw [Option.some.inj (current.symm.trans runs.1)]
            exact runs.2
          cases status : s.status c with
          | run =>
              obtain ⟨x, statuses, count, tick, steady', _⟩ := steady.switch ready current status
              have other : t ≠ c := by
                rintro rfl
                exact busy' statusT
              refine ⟨_, t, _, tick, steady', runs_popReady ?_, fun p here idle => ?_,
                .inr ⟨l, [c], ready, rfl, fun b runs => ?_⟩, count⟩
              · rw [statuses, update_of_ne other, statusT]
              · have apart : p ≠ c := by
                  rintro rfl
                  exact idle ⟨current, status⟩
                rw [status_popReady here, statuses, update_of_ne apart]
              · exact List.mem_singleton.mpr (Option.some.inj (runs.1.symm.trans current))
          | ready => exact absurd status busy'
          | wait =>
              have popped := steady.pop ready (x := s.kill (s.pid c) .stop) rfl rfl (by simp)
              refine ⟨_, t, l, timer_wait current live positive lists status, popped.1,
                runs_popReady (x := s.kill (s.pid c) .stop) statusT,
                fun p other _ => status_popReady (x := s.kill (s.pid c) .stop) other,
                .inr ⟨l, [], ready, (List.append_nil l).symm, fun b runs => ?_⟩, rfl⟩
              rw [only b runs] at status
              cases status
          | zombie =>
              have popped := steady.pop ready
                (x := { (s.kill (s.pid c) .stop).kill
                  (s.pid c) .kill with pCurrentThread := none }) rfl
                (List.append_assoc _ _ _) (by simp)
              refine ⟨_, t, l, timer_zombie current live positive positive' lists status, popped.1,
                runs_popReady statusT, fun p other _ => status_popReady other,
                .inr ⟨l, [], ready, (List.append_nil l).symm, fun b runs => ?_⟩, rfl⟩
              rw [only b runs] at status
              cases status

/-! ## The thread table -/

/-- The table holds the live threads, in entries that are used. -/
structure Tabled (s : Threads) : Prop where
  live : ∀ tid p, (s.pThreadTbEnt tid).pThread = some p → s.allocated p = true
  holds : ∀ p, s.allocated p = true → ∃ tid, (s.pThreadTbEnt tid).pThread = some p
  used : ∀ tid, (s.pThreadTbEnt tid).pThread ≠ none → (s.pThreadTbEnt tid).bUsed = true

namespace Tabled

theorem congr (tabled : s.Tabled) (same : SameBlocks s s') : s'.Tabled := by
  obtain ⟨live, holds, used⟩ := tabled
  refine ⟨?_, ?_, ?_⟩
  · rwa [same.table, same.allocated]
  · rwa [same.table, same.allocated]
  · rwa [same.table]

/-- A new thread gets an entry of its own. -/
theorem create (tabled : s.Tabled) (run : s.threadCreate stack pid = some (tid, s')) :
    s'.Tabled := by
  rw [threadCreate_eq] at run
  obtain ⟨tid', unused, rest⟩ := Option.bind_eq_some_iff.mp run
  obtain ⟨s₁, appended, same⟩ := Option.map_eq_some_iff.mp rest
  obtain ⟨rfl, rfl⟩ := Prod.mk.inj same
  have free : (s.pThreadTbEnt tid').bUsed = false := by simpa using List.find?_some unused
  have null : (s.pThreadTbEnt tid').pThread = none := by
    by_contra held
    exact Bool.noConfusion (free.symm.trans (tabled.used tid' held))
  obtain ⟨next, prev, queue, rfl⟩ := relink_of_append appended
  refine ⟨fun i p entry => ?_, fun p live => ?_, fun i entry => ?_⟩
  · by_cases new : p = stack
    · simp [new]
    · have other : i ≠ tid' := by
        rintro rfl
        exact new (by simpa [born, eq_comm] using entry)
      simpa [new] using tabled.live i p (by simpa [born, other] using entry)
  · by_cases new : p = stack
    · exact ⟨tid', by simp [born, new]⟩
    · obtain ⟨i, entry⟩ := tabled.holds p (by simpa [new] using live)
      have other : i ≠ tid' := by
        rintro rfl
        exact Option.some_ne_none p (entry.symm.trans null)
      exact ⟨i, by simpa [born, other] using entry⟩
  · by_cases here : i = tid'
    · simp [born, here]
    · simpa [born, here] using tabled.used i (by simpa [born, here] using entry)

private theorem registered (tabled : s.Tabled) (steady : s.Steady L) : s.Registered := by
  refine ⟨tabled.live, tabled.holds, steady.distinct.injective, fun p p' live live' same => ?_⟩
  rwa [steady.stack p live, steady.stack p' live'] at same

end Tabled

/-! ## Calls -/

/-- A call from `s` to `s'` gives one thread another status and leaves the table alone. -/
structure Marks (s s' : Threads) (t : Ptr) (status : ThreadStatus) : Prop where
  status : s'.status = update s.status t status
  current : s'.pCurrentThread = s.pCurrentThread
  blocks : SameBlocks s s'

/-- A running thread is at no semaphore. -/
theorem Steady.notMem_of_runs (steady : s.Steady L) (runs : s.Runs c)
    (semid : Fin maxSemaphoreNum) :
    c ∉ L (.semaphore semid) := by
  intro member
  rcases steady.blocked semid c member with ended | waits
  · rw [runs.2] at ended
    cases ended
  · rw [runs.2] at waits
    cases waits

section

variable (steady : s.Steady L) (tabled : s.Tabled)
include steady tabled

/-- `thread_sem_wait` from `START`, without a unit. -/
theorem Steady.exists_block (runs : s.Runs c) (gone : s.count semid = 0) : ∃ s',
    s.semWaitStart semid = some s' ∧
      s'.Steady (update L (.semaphore semid) (L (.semaphore semid) ++ [c])) ∧ Marks s s' c .wait ∧
      s'.count = s.count := by
  have live := (steady.current c runs.1).1
  obtain ⟨tid, self, found⟩ := (tabled.registered steady).threadSelf runs.1 live
  obtain ⟨s₁, appended, steady'⟩ := steady.block runs.1 (steady.notMem_of_runs runs) semid
  refine ⟨_, ?_, steady' (s₁.signals ++ [(s₁.pid c, .stop)]), ?_, ?_⟩
  · refine Option.bind_eq_some_iff.mpr ⟨tid, self, ?_⟩
    rw [if_pos gone]
    refine Option.bind_eq_some_iff.mpr ⟨c, found, ?_⟩
    exact Option.bind_eq_some_iff.mpr ⟨s₁, appended, rfl⟩
  · obtain ⟨_, _, _, rfl⟩ := Relinked.append appended
    exact ⟨rfl, rfl, rfl, rfl⟩
  · obtain ⟨_, _, _, rfl⟩ := Relinked.append appended
    rfl

/-- `thread_sem_wait` from `START`, with a unit. -/
theorem Steady.semWaitStart_pos (runs : s.Runs c) (left : s.count semid ≠ 0) :
    s.semWaitStart semid = some { s with count := update s.count semid (s.count semid - 1) } := by
  have live := (steady.current c runs.1).1
  obtain ⟨tid, self, _⟩ := (tabled.registered steady).threadSelf runs.1 live
  refine Option.bind_eq_some_iff.mpr ⟨tid, self, ?_⟩
  rw [if_neg left]
  rfl

theorem Steady.threadSemWait_eq (runs : s.Runs c) :
    s.threadSemWait semid = s.semWaitStart semid := by
  have live := (steady.current c runs.1).1
  obtain ⟨tid, self, _⟩ := (tabled.registered steady).threadSelf runs.1 live
  rw [threadSemWait, self]
  rfl

/-- `thread_sem_post` with a thread to wake. -/
theorem Steady.exists_wake (front : L (.semaphore semid) = t :: l)
    (other : s.pCurrentThread ≠ some t) : ∃ s', s.threadSemPost semid = some s' ∧
      s'.Steady (update (update L (.semaphore semid) l) .ready (L .ready ++ [t])) ∧
      Marks s s' t .ready ∧ s'.count = update s.count semid (s.count semid + 1) := by
  let s₀ : Threads := { s with count := update s.count semid (s.count semid + 1) }
  have steady₀ : s₀.Steady L := steady.congr rfl rfl
  have lists := steady₀.separate.lists (.semaphore semid)
  have counted : (s.queue (.semaphore semid)).queueCount ≠ 0 := fun empty => by
    rw [(steady.separate.lists _).queueCount_eq_zero_iff.mp empty] at front
    cases front
  rw [front] at lists
  have tabled₀ : s₀.Tabled := tabled.congr ⟨rfl, rfl⟩
  obtain ⟨tid, search, found⟩ := (tabled₀.registered steady₀).findWaiting lists
  obtain ⟨s₁, s₂, unlinks, appended, steady'⟩ := steady₀.wake front other
  obtain ⟨u, unlinked, rfl⟩ := Option.map_eq_some_iff.mp unlinks
  refine ⟨s₂, ?_, steady', ?_⟩
  · rw [threadSemPost, if_neg counted]
    refine Option.bind_eq_some_iff.mpr ⟨tid, search, ?_⟩
    refine Option.bind_eq_some_iff.mpr ⟨t, found, ?_⟩
    exact Option.bind_eq_some_iff.mpr ⟨u, unlinked, appended⟩
  · obtain ⟨_, _, _, rfl⟩ := Relinked.unlink
      (fun x same => Option.some.inj same ▸ .refl s₀) unlinked
    obtain ⟨_, _, _, rfl⟩ := Relinked.append appended
    exact ⟨⟨rfl, rfl, rfl, rfl⟩, rfl⟩

end

/-- `thread_sem_post` with nobody to wake. -/
theorem Steady.threadSemPost_nil (steady : s.Steady L) (empty : L (.semaphore semid) = []) :
    s.threadSemPost semid = some { s with count := update s.count semid (s.count semid + 1) } :=
  if_pos ((steady.separate.lists _).queueCount_eq_zero_iff.mpr empty)

/-- A semaphore where nobody waits gets another queue that is empty. -/
theorem Steady.renew (steady : s.Steady L) (empty : L (.semaphore semid) = [])
    {memory : ThreadQueue} (fresh : memory.queueCount = 0) (count : Fin maxSemaphoreNum → Int) :
    Steady { s.setQueue (.semaphore semid) fun _ => memory with count := count } L := by
  have lists : ∀ q, Lists { s.setQueue (.semaphore semid) fun _ => memory with count := count } q
      (L q) := by
    intro q
    by_cases here : q = .semaphore semid
    · subst here
      rw [empty]
      exact ⟨(congrArg ThreadQueue.queueCount (update_self _ _ _)).trans fresh,
        fun nonempty => absurd rfl nonempty, fun nonempty => absurd rfl nonempty, List.nodup_nil,
        fun _ member => absurd member List.not_mem_nil⟩
    · exact (steady.separate.lists q).congr (update_of_ne here _ _) (fun _ _ => rfl)
        (steady.separate.lists q).live
  refine ⟨⟨lists, steady.separate.apart⟩, steady.ready_iff, steady.suspended, steady.blocked,
    steady.current, steady.first, steady.backs, steady.stack,
    steady.distinct.mono fun _ here => ⟨here, rfl⟩, fun idle nobody p head => ?_⟩
  have kept : (update s.queue (.semaphore semid) memory) .ready = s.queue .ready :=
    update_of_ne (by simp) _ _
  exact steady.idle idle nobody p ((congrArg ThreadQueue.pHead kept).symm.trans head)

end KwHomework.Threads
