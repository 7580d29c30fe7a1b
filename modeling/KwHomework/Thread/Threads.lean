import Mathlib.Logic.Function.Basic
import Mathlib.Data.List.Basic
import Mathlib.Tactic.Common

/-!
# The thread library

The functions of `thread.c`, `scheduler.c` and `semaphore.c`.  A control block lies at the start of
the stack that `thread_create` allocates, and its fields are kept one function for each field.  A
`none` is undefined behaviour: a null pointer or a freed control block is followed, or a search runs
off `pThreadTbEnt`.  `malloc` and `clone` are arguments of `thread_create`, and `kill` is recorded.
-/

namespace KwHomework

open Function

/-- `TIMESLICE`. -/
abbrev timeslice : Nat := 2

/-- `MAX_THREAD_NUM`. -/
abbrev maxThreadNum : Nat := 64

/-- `MAX_SEMAPHORE_NUM`. -/
abbrev maxSemaphoreNum : Nat := 100

/-- The address of a control block. -/
abbrev Ptr := Nat

/-- A `pid_t` that is not negative. -/
abbrev Pid := Nat

/-- `ThreadStatus`. -/
inductive ThreadStatus where
  | run
  | ready
  | wait
  | zombie
  deriving DecidableEq

/-- `ThreadQueue`. -/
structure ThreadQueue where
  queueCount : Int
  pHead : Option Ptr
  pTail : Option Ptr

/-- The queues: `ReadyQueue`, `WaitingQueue` and the `waitingQueue` of each semaphore. -/
inductive QueueName where
  | ready
  | waiting
  | semaphore (semid : Fin maxSemaphoreNum)
  deriving DecidableEq

/-- The signals that are sent. -/
inductive Signal where
  | stop
  | cont
  | kill
  deriving DecidableEq

/-- `ThreadTblEnt`. -/
structure ThreadTblEnt where
  bUsed : Bool
  pThread : Option Ptr

/-- The memory of the thread library. -/
structure Threads where
  /-- The control blocks that are allocated. -/
  allocated : Ptr → Bool
  status : Ptr → ThreadStatus
  pid : Ptr → Pid
  cpuTime : Ptr → Nat
  pPrev : Ptr → Option Ptr
  pNext : Ptr → Option Ptr
  stackAddr : Ptr → Ptr
  queue : QueueName → ThreadQueue
  /-- `count` of every semaphore. -/
  count : Fin maxSemaphoreNum → Int
  pThreadTbEnt : Fin maxThreadNum → ThreadTblEnt
  pCurrentThread : Option Ptr
  /-- The calls of `kill` so far. -/
  signals : List (Pid × Signal)

namespace Threads

/-! ## Memory -/

/-- A pointer that can be followed. -/
def deref (s : Threads) (p : Option Ptr) : Option Ptr := p.filter s.allocated

/-- `p->pNext = link`. -/
def setNext (s : Threads) (p link : Option Ptr) : Option Threads := do
  let a ← s.deref p
  return { s with pNext := update s.pNext a link }

/-- `p->pPrev = link`. -/
def setPrev (s : Threads) (p link : Option Ptr) : Option Threads := do
  let a ← s.deref p
  return { s with pPrev := update s.pPrev a link }

/-- Assign the status of a thread. -/
def setStatus (s : Threads) (t : Ptr) (status : ThreadStatus) : Threads :=
  { s with status := update s.status t status }

/-- Assign fields of a queue. -/
def setQueue (s : Threads) (q : QueueName) (change : ThreadQueue → ThreadQueue) : Threads :=
  { s with queue := update s.queue q (change (s.queue q)) }

/-- `kill`. -/
def kill (s : Threads) (pid : Pid) (sig : Signal) : Threads :=
  { s with signals := s.signals ++ [(pid, sig)] }

/-- `pThreadTbEnt[tid].pThread`. -/
def thread (s : Threads) (tid : Fin maxThreadNum) : Option Ptr :=
  s.deref (s.pThreadTbEnt tid).pThread

/-! ## Queues -/

/-- The code that puts a thread at the end of a queue; `back` is the queue whose tail it takes for
`pPrev`. -/
def append (s : Threads) (q back : QueueName) (t : Ptr) : Option Threads :=
  if (s.queue q).queueCount = 0 then
    let s := s.setQueue q fun queue => { queue with pHead := some t, pTail := some t }
    let s := { s with pPrev := update s.pPrev t none, pNext := update s.pNext t none }
    some (s.setQueue q fun queue => { queue with queueCount := queue.queueCount + 1 })
  else do
    let s := { s with pPrev := update s.pPrev t (s.queue back).pTail }
    let s ← s.setNext (s.queue q).pTail (some t)
    let s := s.setQueue q fun queue => { queue with pTail := some t }
    let s := { s with pNext := update s.pNext t none }
    some (s.setQueue q fun queue => { queue with queueCount := queue.queueCount + 1 })

/-- `queueCount--`. -/
def countDown (s : Threads) (q : QueueName) : Threads :=
  s.setQueue q fun queue => { queue with queueCount := queue.queueCount - 1 }

/-- `if (pHead->pid == t->pid) pHead = t->pNext`. -/
def leaveHead (s : Threads) (q : QueueName) (t : Ptr) : Option Threads := do
  let head ← s.deref (s.queue q).pHead
  if s.pid head = s.pid t then
    some (s.setQueue q fun queue => { queue with pHead := s.pNext t })
  else
    some s

/-- The neighbours of a thread are linked to each other. -/
def bypass (s : Threads) (t : Ptr) : Option Threads := do
  let s ← s.setNext (s.pPrev t) (s.pNext t)
  s.setPrev (s.pNext t) (s.pPrev t)

/-- The first neighbour of a thread becomes the head. -/
def unlinkFirst (s : Threads) (q : QueueName) (t : Ptr) : Option Threads := do
  let s ← s.setPrev (s.pNext t) none
  return s.setQueue q fun queue => { queue with pHead := s.pNext t }

/-- The last neighbour of a thread becomes the tail. -/
def unlinkLast (s : Threads) (q : QueueName) (t : Ptr) : Option Threads := do
  let s ← s.setNext (s.pPrev t) none
  return s.setQueue q fun queue => { queue with pTail := s.pPrev t }

/-- The code that takes a thread off a queue; `between` comes first if it has two neighbours. -/
def unlink (s : Threads) (q : QueueName) (between : Threads → Option Threads) (t : Ptr) :
    Option Threads :=
  match s.pPrev t, s.pNext t with
  | some _, some _ => do
      let s ← between s
      s.bypass t
  | none, some _ => s.unlinkFirst q t
  | some _, none => s.unlinkLast q t
  | none, none => some s

/-! ## `thread.c` -/

/-- `Init`. -/
def init (s : Threads) : Threads :=
  { s with
    queue := update (update s.queue .ready ⟨0, none, none⟩) .waiting ⟨0, none, none⟩
    pThreadTbEnt := fun tid => { s.pThreadTbEnt tid with bUsed := false } }

/-- `thread_create` with the stack that `malloc` returns and the process that `clone` makes. -/
def threadCreate (s : Threads) (stack : Ptr) (_pid : Pid) :
    Option (Fin maxThreadNum × Threads) := do
  let s := { s with allocated := update s.allocated stack true }
  let s := s.kill _pid .stop
  let tid ← (List.finRange maxThreadNum).find? fun tid => !(s.pThreadTbEnt tid).bUsed
  let s := { s with
    pThreadTbEnt := update s.pThreadTbEnt tid ⟨true, some stack⟩
    pid := update s.pid stack _pid
    status := update s.status stack .ready
    stackAddr := update s.stackAddr stack stack
    cpuTime := update s.cpuTime stack 0 }
  let s ← s.append .ready .ready stack
  return (tid, s)

/-- `thread_suspend`. -/
def threadSuspend (s : Threads) (tid : Fin maxThreadNum) : Option (Int × Threads) := do
  let t ← s.thread tid
  if s.status t = .wait then
    return (-1, s)
  else
    let s ← s.unlink .ready (fun s => s.leaveHead .ready t) t
    let s := s.countDown .ready
    let s ← s.append .waiting .ready t
    return (0, s.setStatus t .wait)

/-- The code of `thread_cancel` that takes a thread off a queue. -/
def cancelFrom (s : Threads) (q : QueueName) (t : Ptr) : Option Threads :=
  let s := s.countDown q
  match s.pPrev t, s.pNext t with
  | some _, some _ => do
      let s ← s.leaveHead q t
      s.bypass t
  | none, some _ => do
      let s ← s.leaveHead q t
      s.unlinkFirst q t
  | some _, none => do
      let head ← s.deref (s.queue q).pHead
      if s.pid head = s.pid t then
        some (s.setQueue q fun queue => { queue with pHead := none, pTail := none })
      else
        s.unlinkLast q t
  | none, none => some s

/-- `thread_cancel`, which returns a value only if it fails.  `THREAD_STATUS_RUN` is zero, so
`status == THREAD_STATUS_READY || THREAD_STATUS_RUN` asks for the status `THREAD_STATUS_READY`, and
`bUsed == 0` assigns nothing. -/
def threadCancel (s : Threads) (tid : Fin maxThreadNum) : Option (Option Int × Threads) :=
  if (s.pThreadTbEnt tid).bUsed = false then
    some (some (-1), s)
  else do
    let t ← s.thread tid
    let s := s.kill (s.pid t) .kill
    let s ←
      if s.status t = .ready then s.cancelFrom .ready t
      else if s.status t = .wait then s.cancelFrom .waiting t
      else some s
    return (none, { s with allocated := update s.allocated t false })

/-- `thread_resume`. -/
def threadResume (s : Threads) (tid : Fin maxThreadNum) : Option (Int × Threads) := do
  let t ← s.thread tid
  if s.status t ≠ .wait then
    return (-1, s)
  else
    let s ← s.unlink .waiting some t
    let s := s.countDown .waiting
    let s := s.setStatus t .ready
    let s ← s.append .ready .ready t
    return (0, s)

/-- `thread_self`. -/
def threadSelf (s : Threads) : Option (Fin maxThreadNum) := do
  let c ← s.deref s.pCurrentThread
  let found ← (List.finRange maxThreadNum).findM? fun tid =>
    if (s.pThreadTbEnt tid).pThread = none then
      some false
    else do
      let t ← s.thread tid
      return s.stackAddr c = s.stackAddr t
  found

/-- The search of `thread_join` for the current thread. -/
def findCurrent (s : Threads) : Option (Fin maxThreadNum) := do
  let c ← s.deref s.pCurrentThread
  let found ← (List.finRange maxThreadNum).findM? fun i => do
    let t ← s.thread i
    return s.stackAddr c = s.stackAddr t
  found

/-- The code of `thread_join` that puts the current thread on `WaitingQueue`. -/
def appendWaiting (s : Threads) (c : Ptr) : Option Threads :=
  if (s.queue .waiting).queueCount < 1 then
    let s := s.setQueue .waiting fun queue => { queue with pHead := some c, pTail := some c }
    let s := { s with pPrev := update s.pPrev c none, pNext := update s.pNext c none }
    some (s.setQueue .waiting fun queue => { queue with queueCount := queue.queueCount + 1 })
  else do
    let s := { s with pPrev := update s.pPrev c (s.queue .waiting).pTail }
    let s ← s.setNext (s.queue .waiting).pTail (some c)
    let s := s.setQueue .waiting fun queue => { queue with pTail := some c }
    let s := { s with pNext := update s.pNext c none }
    some (s.setQueue .waiting fun queue => { queue with queueCount := queue.queueCount + 1 })

/-- `thread_join` up to the loop that waits for the thread, where `sigaction` succeeds.  It leaves
`parentTid`. -/
def threadJoinStart (s : Threads) : Option (Fin maxThreadNum × Threads) := do
  let parentTid ← s.findCurrent
  let c ← s.deref s.pCurrentThread
  let s ← s.appendWaiting c
  match s.pPrev c, s.pNext c with
  | some _, some _ => do
      let t ← s.thread parentTid
      let s ← s.bypass t
      return (parentTid, s)
  | _, _ => return (parentTid, { s with pCurrentThread := none })

/-- The code of `thread_join` that puts the joining thread back on `ReadyQueue`. -/
def appendReady (s : Threads) (t : Ptr) : Option Threads :=
  if (s.queue .ready).queueCount < 1 then
    let s := s.setStatus t .ready
    let s := s.setQueue .ready fun queue => { queue with pHead := some t, pTail := some t }
    let s := { s with pPrev := update s.pPrev t none, pNext := update s.pNext t none }
    some (s.setQueue .ready fun queue => { queue with queueCount := queue.queueCount + 1 })
  else do
    let s := s.setStatus t .ready
    let s := { s with pPrev := update s.pPrev t (s.queue .ready).pTail }
    let s ←
      if (s.queue .ready).pTail = none then
        some (s.setQueue .ready fun queue => { queue with pTail := some t })
      else do
        let s ← s.setNext (s.queue .ready).pTail (some t)
        some (s.setQueue .ready fun queue => { queue with pTail := some t })
    let s := { s with pNext := update s.pNext t none }
    some (s.setQueue .ready fun queue => { queue with queueCount := queue.queueCount + 1 })

/-- `thread_join` behind the loop; again `bUsed == 0` assigns nothing. -/
def threadJoinEnd (s : Threads) (parentTid tid : Fin maxThreadNum) : Option (Int × Threads) := do
  let t ← s.thread parentTid
  let s ← s.unlink .waiting some t
  let s := s.countDown .waiting
  let s ← s.appendReady t
  let s := s.kill (s.pid t) .stop
  let joined ← s.thread tid
  return (0, { s with
    allocated := update s.allocated joined false
    pThreadTbEnt := update s.pThreadTbEnt tid { s.pThreadTbEnt tid with pThread := none } })

/-- `thread_exit`. -/
def threadExit (s : Threads) : Option Threads := do
  let c ← s.deref s.pCurrentThread
  return s.setStatus c .zombie

/-! ## `scheduler.c` -/

/-- `__ContextSwitch` from the label `NOTHREAD`. -/
def noThread (s : Threads) (newpid2 : Pid) : Option Threads := do
  let c ← s.deref s.pCurrentThread
  let s := if s.status c = .zombie then s else s.setStatus c .run
  let s := { s with
    cpuTime := update s.cpuTime c (s.cpuTime c + timeslice)
    pid := update s.pid c newpid2 }
  return s.kill newpid2 .cont

/-- `__ContextSwitch` from where the head of `ReadyQueue` becomes the current thread. -/
def dispatch (s : Threads) (newpid2 : Pid) : Option Threads := do
  let s := { s with pCurrentThread := (s.queue .ready).pHead }
  let s := s.countDown .ready
  let s ←
    if (s.queue .ready).queueCount ≠ 0 then do
      let head ← s.deref (s.queue .ready).pHead
      some (s.setQueue .ready fun queue => { queue with pHead := s.pNext head })
    else
      some s
  s.noThread newpid2

/-- `__ContextSwitch`.  Its two branches on `ReadyQueue.queueCount` differ as those of `append`. -/
def contextSwitch (s : Threads) (curpid newpid : Pid) : Option Threads :=
  if curpid = 0 then
    s.dispatch newpid
  else if newpid = 0 then
    s.noThread curpid
  else do
    let c ← s.deref s.pCurrentThread
    let s ←
      if s.status c = .zombie then
        some { s.kill curpid .kill with pCurrentThread := none }
      else
        (s.setStatus c .ready).append .ready .ready c
    s.dispatch newpid

/-- `timer` on `SIGALRM`. -/
def timer (s : Threads) : Option Threads :=
  match s.pCurrentThread with
  | none => do
      let head ← s.deref (s.queue .ready).pHead
      s.contextSwitch 0 (s.pid head)
  | some c => do
      let c ← s.deref (some c)
      let s := if s.pid c = 0 then s else s.kill (s.pid c) .stop
      if 0 < (s.queue .ready).queueCount then do
        let head ← s.deref (s.queue .ready).pHead
        s.contextSwitch (if s.status c = .wait then 0 else s.pid c) (s.pid head)
      else if (s.queue .ready).queueCount = 0 then
        s.contextSwitch (s.pid c) 0
      else
        some s

/-! ## `semaphore.c` -/

/-- The part of `thread_sem_wait` from the label `START`.  It returns, or stops the thread by the
signal it sends to itself. -/
def semWaitStart (s : Threads) (semid : Fin maxSemaphoreNum) : Option Threads := do
  let tid ← s.threadSelf
  if s.count semid = 0 then
    let t ← s.thread tid
    let s ← s.append (.semaphore semid) .ready t
    let s := s.setStatus t .wait
    return s.kill (s.pid t) .stop
  else
    return { s with count := update s.count semid (s.count semid - 1) }

/-- `thread_sem_wait` up to its return or to the signal. -/
def threadSemWait (s : Threads) (semid : Fin maxSemaphoreNum) : Option Threads := do
  let _ ← s.threadSelf
  s.semWaitStart semid

/-- `thread_sem_wait` behind the signal. -/
def semWaitResume (s : Threads) (semid : Fin maxSemaphoreNum) : Option Threads :=
  if s.count semid = 0 then
    s.semWaitStart semid
  else
    some { s with count := update s.count semid (s.count semid - 1) }

/-- The search of `thread_sem_post` for the first waiting thread. -/
def findWaiting (s : Threads) (semid : Fin maxSemaphoreNum) : Option (Fin maxThreadNum) := do
  let found ← (List.finRange maxThreadNum).findM? fun tid =>
    if (s.pThreadTbEnt tid).pThread = none then
      some false
    else do
      let t ← s.thread tid
      let head ← s.deref (s.queue (.semaphore semid)).pHead
      return s.pid t = s.pid head
  found

/-- `thread_sem_post`. -/
def threadSemPost (s : Threads) (semid : Fin maxSemaphoreNum) : Option Threads :=
  let posted := { s with count := update s.count semid (s.count semid + 1) }
  if (s.queue (.semaphore semid)).queueCount = 0 then
    some posted
  else do
    let s := posted
    let tid ← s.findWaiting semid
    let t ← s.thread tid
    let s ← s.unlink (.semaphore semid) some t
    let s := s.countDown (.semaphore semid)
    let s := s.setStatus t .ready
    s.append .ready .ready t

end Threads
end KwHomework
