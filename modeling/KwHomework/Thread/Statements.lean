import KwHomework.Thread.Calls

/-!
# Semaphores, statement by statement

`thread_sem_wait` and `thread_sem_post` with a program point for every statement, for threads that
call them in turn.  Only a process that has been continued runs, and a tick may come at any point.
-/

namespace KwHomework.Threads

open Function

variable {s s' : Threads} {q back : QueueName} {semid : Fin maxSemaphoreNum} {t : Ptr}
  {tid : Fin maxThreadNum}

/-- The assignments of the code that puts a thread at the end of a queue: those of an empty queue,
those of a queue that is not empty, and those at the end of both branches. -/
inductive Append where
  | head
  | onlyTail
  | clearPrev
  | prev
  | link
  | tail
  | clearNext
  | count
  deriving DecidableEq

/-- The first assignment of the branch that is taken. -/
def Append.first (queue : ThreadQueue) : Append := if queue.queueCount = 0 then .head else .prev

def Append.next : Append → Option Append
  | .head => some .onlyTail
  | .onlyTail => some .clearPrev
  | .clearPrev => some .clearNext
  | .prev => some .link
  | .link => some .tail
  | .tail => some .clearNext
  | .clearNext => some .count
  | .count => none

/-- The three places in which a thread can be on a queue, in the order of the tests. -/
inductive Place where
  | inner
  | first
  | last
  deriving DecidableEq

/-- The assignments of the code that takes a thread off a queue, two for each place. -/
inductive Unlink where
  | bypassNext
  | bypassPrev
  | clearPrev
  | moveHead
  | clearNext
  | moveTail
  deriving DecidableEq

def Unlink.first : Place → Unlink
  | .inner => .bypassNext
  | .first => .clearPrev
  | .last => .clearNext

def Unlink.next : Unlink → Option Unlink
  | .bypassNext => some .bypassPrev
  | .clearPrev => some .moveHead
  | .clearNext => some .moveTail
  | .bypassPrev | .moveHead | .moveTail => none

/-- The statements of `thread_sem_wait` and `thread_sem_post`, each named by what it does. -/
inductive Point where
  /-- `int tid = thread_self();` -/
  | self
  /-- `START: tid = thread_self();` -/
  | start
  | testCount
  | testQueue
  | enqueue (a : Append)
  | setWait
  | stop
  /-- The test of `count` behind the signal. -/
  | retestCount
  | decrement
  | returns
  /-- Between `thread_sem_wait` and `thread_sem_post`. -/
  | holding
  | testWaiting
  | increment (waiting : Bool)
  | search
  | testThread
  | testPid
  | nextThread
  | testPlace (place : Place)
  | unlink (a : Unlink)
  | countDown
  | setReady
  | testReady
  | enqueueReady (a : Append)
  deriving DecidableEq

/-- The program point of a thread and its variable `tid`. -/
structure Frame where
  point : Point
  tid : Fin maxThreadNum

/-- An assignment of the code that puts a thread at the end of a queue. -/
def appendStatement (s : Threads) (q back : QueueName) (t : Ptr) : Append → Option Threads
  | .head => some (s.setQueue q fun queue => { queue with pHead := some t })
  | .onlyTail | .tail => some (s.setQueue q fun queue => { queue with pTail := some t })
  | .clearPrev => some { s with pPrev := update s.pPrev t none }
  | .prev => some { s with pPrev := update s.pPrev t (s.queue back).pTail }
  | .link => s.setNext (s.queue q).pTail (some t)
  | .clearNext => some { s with pNext := update s.pNext t none }
  | .count => some (s.setQueue q fun queue => { queue with queueCount := queue.queueCount + 1 })

/-- An assignment changes links and the queue only. -/
theorem relink_of_appendStatement {a : Append} (run : s.appendStatement q back t a = some s') :
    ∃ next prev queue, s' = s.relink next prev q queue := by
  cases a with
  | head => exact ⟨s.pNext, s.pPrev, _, (Option.some.inj run).symm⟩
  | onlyTail => exact ⟨s.pNext, s.pPrev, _, (Option.some.inj run).symm⟩
  | clearPrev =>
      refine ⟨s.pNext, update s.pPrev t none, s.queue q, ?_⟩
      simp [relink, ← Option.some.inj run]
  | prev =>
      refine ⟨s.pNext, update s.pPrev t (s.queue back).pTail, s.queue q, ?_⟩
      simp [relink, ← Option.some.inj run]
  | link =>
      obtain ⟨next, rfl⟩ := relink_of_setNext run
      exact ⟨next, s.pPrev, s.queue q, by simp [relink]⟩
  | tail => exact ⟨s.pNext, s.pPrev, _, (Option.some.inj run).symm⟩
  | clearNext =>
      refine ⟨update s.pNext t none, s.pPrev, s.queue q, ?_⟩
      simp [relink, ← Option.some.inj run]
  | count => exact ⟨s.pNext, s.pPrev, _, (Option.some.inj run).symm⟩

/-- The test for a place. -/
def isAt (s : Threads) (t : Ptr) : Place → Bool
  | .inner => (s.pPrev t).isSome && (s.pNext t).isSome
  | .first => (s.pPrev t).isNone && (s.pNext t).isSome
  | .last => (s.pPrev t).isSome && (s.pNext t).isNone

/-- An assignment of the code that takes a thread off a queue. -/
def unlinkStatement (s : Threads) (q : QueueName) (t : Ptr) : Unlink → Option Threads
  | .bypassNext => s.setNext (s.pPrev t) (s.pNext t)
  | .bypassPrev => s.setPrev (s.pNext t) (s.pPrev t)
  | .clearPrev => s.setPrev (s.pNext t) none
  | .moveHead => some (s.setQueue q fun queue => { queue with pHead := s.pNext t })
  | .clearNext => s.setNext (s.pPrev t) none
  | .moveTail => some (s.setQueue q fun queue => { queue with pTail := s.pPrev t })

theorem relink_of_unlinkStatement {a : Unlink} (run : s.unlinkStatement q t a = some s') :
    ∃ next prev queue, s' = s.relink next prev q queue := by
  have next : ∀ {p link}, s.setNext p link = some s' →
      ∃ next prev queue, s' = s.relink next prev q queue := by
    intro p link set
    obtain ⟨next, rfl⟩ := relink_of_setNext set
    exact ⟨next, s.pPrev, s.queue q, by simp [relink]⟩
  have prev : ∀ {p link}, s.setPrev p link = some s' →
      ∃ next prev queue, s' = s.relink next prev q queue := by
    intro p link set
    obtain ⟨prev, rfl⟩ := relink_of_setPrev set
    exact ⟨s.pNext, prev, s.queue q, by simp [relink]⟩
  cases a with
  | bypassNext => exact next run
  | bypassPrev => exact prev run
  | clearPrev => exact prev run
  | moveHead => exact ⟨s.pNext, s.pPrev, _, (Option.some.inj run).symm⟩
  | clearNext => exact next run
  | moveTail => exact ⟨s.pNext, s.pPrev, _, (Option.some.inj run).symm⟩

/-- The test behind one that fails. -/
def Place.otherwise : Place → Point
  | .inner => .testPlace .first
  | .first => .testPlace .last
  | .last => .countDown

/-- The next statement of a thread. -/
def statement (s : Threads) (semid : Fin maxSemaphoreNum) (f : Frame) : Option (Threads × Frame) :=
  let q := QueueName.semaphore semid
  match f.point with
  | .self => do
      let tid ← s.threadSelf
      return (s, ⟨.start, tid⟩)
  | .start => do
      let tid ← s.threadSelf
      return (s, ⟨.testCount, tid⟩)
  | .testCount => some (s, ⟨if s.count semid = 0 then .testQueue else .decrement, f.tid⟩)
  | .testQueue => some (s, ⟨.enqueue (.first (s.queue q)), f.tid⟩)
  | .enqueue a => do
      let t ← s.thread f.tid
      let s ← s.appendStatement q .ready t a
      return (s, ⟨a.next.elim .setWait .enqueue, f.tid⟩)
  | .setWait => do
      let t ← s.thread f.tid
      return (s.setStatus t .wait, ⟨.stop, f.tid⟩)
  | .stop => do
      let t ← s.thread f.tid
      return (s.kill (s.pid t) .stop, ⟨.retestCount, f.tid⟩)
  | .retestCount => some (s, ⟨if s.count semid = 0 then .start else .decrement, f.tid⟩)
  | .decrement =>
      some ({ s with count := update s.count semid (s.count semid - 1) }, ⟨.returns, f.tid⟩)
  | .returns => some (s, ⟨.holding, f.tid⟩)
  | .holding => some (s, ⟨.testWaiting, f.tid⟩)
  | .testWaiting => some (s, ⟨.increment ((s.queue q).queueCount ≠ 0), f.tid⟩)
  | .increment waiting =>
      some ({ s with count := update s.count semid (s.count semid + 1) },
        ⟨if waiting then .search else .self, f.tid⟩)
  | .search => some (s, ⟨.testThread, ⟨0, by decide⟩⟩)
  | .testThread =>
      some (s, ⟨if (s.pThreadTbEnt f.tid).pThread = none then .nextThread else .testPid, f.tid⟩)
  | .testPid => do
      let t ← s.thread f.tid
      let head ← s.deref (s.queue q).pHead
      return (s, ⟨if s.pid t = s.pid head then .testPlace .inner else .nextThread, f.tid⟩)
  | .nextThread =>
      if inside : f.tid.val + 1 < maxThreadNum then some (s, ⟨.testThread, ⟨f.tid.val + 1, inside⟩⟩)
      else none
  | .testPlace place => do
      let t ← s.thread f.tid
      return (s, ⟨if s.isAt t place then .unlink (.first place) else place.otherwise, f.tid⟩)
  | .unlink a => do
      let t ← s.thread f.tid
      let s ← s.unlinkStatement q t a
      return (s, ⟨a.next.elim .countDown .unlink, f.tid⟩)
  | .countDown => some (s.countDown q, ⟨.setReady, f.tid⟩)
  | .setReady => do
      let t ← s.thread f.tid
      return (s.setStatus t .ready, ⟨.testReady, f.tid⟩)
  | .testReady => some (s, ⟨.enqueueReady (.first (s.queue .ready)), f.tid⟩)
  | .enqueueReady a => do
      let t ← s.thread f.tid
      let s ← s.appendStatement .ready .ready t a
      return (s, ⟨a.next.elim .self .enqueueReady, f.tid⟩)

/-! ## Without a tick

The statements of a call that no tick interrupts do what the function does.
-/

/-- `n` statements of a thread. -/
def statements (semid : Fin maxSemaphoreNum) : Nat → Threads × Frame → Option (Threads × Frame)
  | 0, x => some x
  | n + 1, (s, f) => (s.statement semid f).bind (statements semid n)

theorem statements_add {n k : Nat} {x y z : Threads × Frame} (first : statements semid n x = some y)
    (second : statements semid k y = some z) : statements semid (n + k) x = some z := by
  induction n generalizing x with
  | zero =>
      obtain rfl := Option.some.inj first
      rwa [Nat.zero_add]
  | succ n induction =>
      obtain ⟨s, f⟩ := x
      obtain ⟨x', step, rest⟩ := Option.bind_eq_some_iff.mp first
      rw [Nat.add_right_comm, statements, step]
      exact induction rest

private theorem statements_one {x : Threads × Frame} {f : Frame}
    (step : s.statement semid f = some x) :
    statements semid 1 (s, f) = some x := by
  rw [statements, step]
  rfl

/-- The assignments that follow one, up to the last. -/
def Append.Before : Append → List Append → Prop
  | a, [] => a.next = none
  | a, b :: l => a.next = some b ∧ b.Before l

theorem exists_appendStatements (s : Threads) (q back : QueueName) (t : Ptr) :
    ∃ l, (Append.first (s.queue q)).Before l ∧
      (Append.first (s.queue q) :: l).foldlM (fun x a => x.appendStatement q back t a) s =
        s.append q back t := by
  by_cases empty : (s.queue q).queueCount = 0
  · refine ⟨[.onlyTail, .clearPrev, .clearNext, .count], ?_, ?_⟩
    · simp [Append.first, empty, Append.Before, Append.next]
    · simp [Append.first, append, appendStatement, empty, setQueue]
  · refine ⟨[.link, .tail, .clearNext, .count], ?_, ?_⟩
    · simp [Append.first, empty, Append.Before, Append.next]
    · simp [Append.first, append, appendStatement, empty, setQueue]

theorem statements_append (point : Append → Point) (after : Point)
    (step : ∀ {x y : Threads} a, x.thread tid = some t → x.appendStatement q back t a = some y →
      x.statement semid ⟨point a, tid⟩ = some (y, ⟨a.next.elim after point, tid⟩))
    {l : List Append} {a : Append} (order : a.Before l) (found : s.thread tid = some t)
    (run : (a :: l).foldlM (fun x a => x.appendStatement q back t a) s = some s') :
    statements semid (l.length + 1) (s, ⟨point a, tid⟩) = some (s', ⟨after, tid⟩) := by
  induction l generalizing a s with
  | nil =>
      obtain ⟨s₁, assigned, same⟩ := Option.bind_eq_some_iff.mp run
      obtain rfl := Option.some.inj same
      have last : a.next = none := order
      simp [statements, step a found assigned, last]
  | cons b l induction =>
      obtain ⟨s₁, assigned, rest⟩ := Option.bind_eq_some_iff.mp run
      have kept : s₁.thread tid = some t := by
        obtain ⟨next, prev, queue, rfl⟩ := relink_of_appendStatement assigned
        exact found
      have assignments := induction order.2 kept rest
      simpa [statements, step a found assigned, order.1] using assignments

theorem statements_semWaitStart (run : s.semWaitStart semid = some s') (tid₀ : Fin maxThreadNum) :
    ∃ n f, statements semid n (s, ⟨.start, tid₀⟩) = some (s', f) ∧
      (f.point = .returns ∨ f.point = .retestCount) := by
  obtain ⟨tid, self, rest⟩ := Option.bind_eq_some_iff.mp run
  split_ifs at rest with zero
  · obtain ⟨t, found, rest⟩ := Option.bind_eq_some_iff.mp rest
    obtain ⟨s₁, appended, rest⟩ := Option.bind_eq_some_iff.mp rest
    obtain ⟨l, order, row⟩ := exists_appendStatements s (.semaphore semid) .ready t
    have enqueued : statements semid (l.length + 1)
        (s, ⟨.enqueue (.first (s.queue (.semaphore semid))), tid⟩) = some (s₁, ⟨.setWait, tid⟩) :=
      statements_append .enqueue .setWait
        (fun a here assigned => by simp [statement, here, assigned]) order found
        (row.trans appended)
    have kept : s₁.thread tid = some t := by
      obtain ⟨next, prev, queue, rfl⟩ := relink_of_append appended
      exact found
    have tests : statements semid 3 (s, ⟨.start, tid₀⟩) =
        some (s, ⟨.enqueue (.first (s.queue (.semaphore semid))), tid⟩) := by
      simp [statements, statement, self, zero]
    have sleeps : statements semid 2 (s₁, ⟨.setWait, tid⟩) = some (s', ⟨.retestCount, tid⟩) := by
      have kept' : (s₁.setStatus t .wait).thread tid = some t := kept
      rw [← Option.some.inj rest]
      simp [statements, statement, kept, kept']
    exact ⟨_, _, statements_add tests (statements_add enqueued sleeps), Or.inr rfl⟩
  · refine ⟨3, ⟨.returns, tid⟩, ?_, Or.inl rfl⟩
    rw [← Option.some.inj rest]
    simp [statements, statement, self, zero]

/-- `thread_sem_wait` up to its return or to the signal. -/
theorem statements_threadSemWait (run : s.threadSemWait semid = some s') (tid₀ : Fin maxThreadNum) :
    ∃ n f, statements semid n (s, ⟨.self, tid₀⟩) = some (s', f) ∧
      (f.point = .returns ∨ f.point = .retestCount) := by
  obtain ⟨tid, self, rest⟩ := Option.bind_eq_some_iff.mp run
  obtain ⟨n, f, started, ends⟩ := statements_semWaitStart rest tid
  have first : s.statement semid ⟨.self, tid₀⟩ = some (s, ⟨.start, tid⟩) := by
    simp [statement, self]
  exact ⟨_, f, statements_add (statements_one first) started, ends⟩

/-- `thread_sem_wait` behind the signal. -/
theorem statements_semWaitResume (run : s.semWaitResume semid = some s') (tid₀ : Fin maxThreadNum) :
    ∃ n f, statements semid n (s, ⟨.retestCount, tid₀⟩) = some (s', f) ∧
      (f.point = .returns ∨ f.point = .retestCount) := by
  rw [semWaitResume] at run
  split_ifs at run with zero
  · obtain ⟨n, f, started, ends⟩ := statements_semWaitStart run tid₀
    have first : s.statement semid ⟨.retestCount, tid₀⟩ = some (s, ⟨.start, tid₀⟩) := by
      simp [statement, zero]
    exact ⟨_, f, statements_add (statements_one first) started, ends⟩
  · refine ⟨2, ⟨.returns, tid₀⟩, ?_, Or.inl rfl⟩
    rw [← Option.some.inj run]
    simp [statements, statement, zero]

theorem statements_search {k : Nat} (small : k < maxThreadNum)
    (search : ((List.finRange maxThreadNum).drop k).findM? (fun tid =>
      if (s.pThreadTbEnt tid).pThread = none then some false
      else do
        let t ← s.thread tid
        let head ← s.deref (s.queue (.semaphore semid)).pHead
        return s.pid t = s.pid head) = some (some tid)) :
    ∃ n, statements semid n (s, ⟨.testThread, ⟨k, small⟩⟩) =
      some (s, ⟨.testPlace .inner, tid⟩) := by
  induction left : maxThreadNum - k generalizing k with
  | zero => omega
  | succ d induction =>
      have long : k < (List.finRange maxThreadNum).length := by simpa using small
      rw [List.drop_eq_getElem_cons long, List.findM?, List.getElem_finRange] at search
      obtain ⟨hit, tested, rest⟩ := Option.bind_eq_some_iff.mp search
      have onward : ∀ {n}, statements semid n (s, ⟨.testThread, ⟨k, small⟩⟩) =
          some (s, ⟨.nextThread, ⟨k, small⟩⟩) → hit = false →
          ∃ n, statements semid n (s, ⟨.testThread, ⟨k, small⟩⟩) =
            some (s, ⟨.testPlace .inner, tid⟩) := by
        rintro n missed rfl
        have more : k + 1 < maxThreadNum := by
          by_contra full
          rw [List.drop_eq_nil_of_le (by simpa using Nat.le_of_not_lt full)] at rest
          cases rest
        obtain ⟨n', found⟩ := induction more rest (by omega)
        have next : s.statement semid ⟨.nextThread, ⟨k, small⟩⟩ =
            some (s, ⟨.testThread, ⟨k + 1, more⟩⟩) := by
          simp [statement, more]
        exact ⟨_, statements_add missed (statements_add (statements_one next) found)⟩
      change (if (s.pThreadTbEnt ⟨k, small⟩).pThread = none then _ else _) = _ at tested
      split_ifs at tested with null
      · exact onward (n := 1) (by simp [statements, statement, null])
          (Option.some.inj tested).symm
      · obtain ⟨t, found, tested⟩ := Option.bind_eq_some_iff.mp tested
        obtain ⟨head, front, tested⟩ := Option.bind_eq_some_iff.mp tested
        change s.thread ⟨k, small⟩ = some t at found
        obtain rfl := Option.some.inj tested
        by_cases same : s.pid t = s.pid head
        · obtain rfl : ⟨k, small⟩ = tid := by simpa [same] using rest
          exact ⟨2, by simp [statements, statement, null, found, front, same]⟩
        · exact onward (n := 2) (by simp [statements, statement, null, found, front, same])
            (by simp [same])

theorem statements_unlink (found : s.thread tid = some t)
    (run : s.unlink (.semaphore semid) some t = some s') :
    s'.thread tid = some t ∧
      ∃ n, statements semid n (s, ⟨.testPlace .inner, tid⟩) = some (s', ⟨.countDown, tid⟩) := by
  have kept : ∀ a {x y : Threads}, x.thread tid = some t →
      x.unlinkStatement (.semaphore semid) t a = some y → y.thread tid = some t := by
    intro a x y here assigned
    obtain ⟨next, prev, queue, rfl⟩ := relink_of_unlinkStatement assigned
    exact here
  cases front : s.pPrev t with
  | none =>
      cases after : s.pNext t with
      | none =>
          simp only [Threads.unlink, front, after, Option.some.injEq] at run
          subst run
          refine ⟨found, 3, ?_⟩
          simp [statements, statement, found, isAt, front, after, Place.otherwise]
      | some a =>
          simp only [Threads.unlink, front, after] at run
          obtain ⟨s₁, set, rest⟩ := Option.bind_eq_some_iff.mp run
          have found' := kept .clearPrev found set
          rw [after] at set
          rw [← Option.some.inj rest]
          refine ⟨found', 4, ?_⟩
          simp [statements, statement, found, isAt, front, after, Place.otherwise, Unlink.first,
            Unlink.next, unlinkStatement, set, found']
  | some p =>
      cases after : s.pNext t with
      | none =>
          simp only [Threads.unlink, front, after] at run
          obtain ⟨s₁, set, rest⟩ := Option.bind_eq_some_iff.mp run
          have found' := kept .clearNext found set
          rw [front] at set
          rw [← Option.some.inj rest]
          refine ⟨found', 5, ?_⟩
          simp [statements, statement, found, isAt, front, after, Place.otherwise, Unlink.first,
            Unlink.next, unlinkStatement, set, found']
      | some a =>
          simp only [Threads.unlink, front, after, Option.bind_eq_bind, Option.bind_some] at run
          obtain ⟨s₁, set, rest⟩ := Option.bind_eq_some_iff.mp run
          have found' := kept .bypassNext found set
          rw [front, after] at set
          refine ⟨kept .bypassPrev found' rest, 3, ?_⟩
          simp [statements, statement, found, isAt, front, after, Unlink.first, Unlink.next,
            unlinkStatement, set, found', rest]

/-- `thread_sem_post`. -/
theorem statements_threadSemPost (run : s.threadSemPost semid = some s') (tid₀ : Fin maxThreadNum) :
    ∃ n f, statements semid n (s, ⟨.testWaiting, tid₀⟩) = some (s', f) ∧ f.point = .self := by
  rw [threadSemPost] at run
  split_ifs at run with empty
  · refine ⟨2, ⟨.self, tid₀⟩, ?_, rfl⟩
    rw [← Option.some.inj run]
    simp [statements, statement, empty]
  · obtain ⟨tid, search, rest⟩ := Option.bind_eq_some_iff.mp run
    obtain ⟨t, found, rest⟩ := Option.bind_eq_some_iff.mp rest
    obtain ⟨s₁, unlinked, appended⟩ := Option.bind_eq_some_iff.mp rest
    obtain ⟨hit, searched, same⟩ := Option.bind_eq_some_iff.mp search
    have positive : 0 < maxThreadNum := by decide
    obtain ⟨n, searching⟩ := statements_search positive (searched.trans (congrArg some same))
    obtain ⟨found₁, k, unlinking⟩ := statements_unlink found unlinked
    obtain ⟨l, order, row⟩ :=
      exists_appendStatements ((s₁.countDown (.semaphore semid)).setStatus t .ready) .ready .ready t
    have counts : statements semid 3 (s, ⟨.testWaiting, tid₀⟩) =
        some ({ s with count := update s.count semid (s.count semid + 1) },
          ⟨.testThread, ⟨0, positive⟩⟩) := by
      simp [statements, statement, empty]
    have wakes : statements semid 3 (s₁, ⟨.countDown, tid⟩) =
        some ((s₁.countDown (.semaphore semid)).setStatus t .ready, ⟨.enqueueReady
          (.first (((s₁.countDown (.semaphore semid)).setStatus t .ready).queue .ready)),
          tid⟩) := by
      have found₂ : (s₁.countDown (.semaphore semid)).thread tid = some t := found₁
      simp [statements, statement, found₂]
    have enqueued : statements semid (l.length + 1)
        ((s₁.countDown (.semaphore semid)).setStatus t .ready, ⟨.enqueueReady
          (.first (((s₁.countDown (.semaphore semid)).setStatus t .ready).queue .ready)), tid⟩) =
          some (s', ⟨.self, tid⟩) :=
      statements_append .enqueueReady .self
        (fun a here assigned => by simp [statement, here, assigned]) order found₁
        (row.trans appended)
    exact ⟨_, _, statements_add counts (statements_add searching (statements_add unlinking
      (statements_add wakes enqueued))), rfl⟩

/-! ## Processes -/

/-- The process has been continued and not stopped since; a killed one never runs again. -/
def running (s : Threads) (pid : Pid) : Bool :=
  (pid, .kill) ∉ s.signals ∧
    (s.signals.filter fun sent => sent.1 = pid).getLast?.map Prod.snd = some .cont

/-- The memory, and where each thread is. -/
structure Machine where
  memory : Threads
  frame : Ptr → Frame

/-- What happens next: a statement of the current thread, or a tick. -/
inductive Move where
  | statement
  | tick

def Machine.move (semid : Fin maxSemaphoreNum) (m : Machine) : Move → Option Machine
  | .statement => do
      let c ← m.memory.deref m.memory.pCurrentThread
      if m.memory.running (m.memory.pid c) then
        let (s, f) ← m.memory.statement semid (m.frame c)
        return ⟨s, update m.frame c f⟩
      else
        none
  | .tick => do
      let s ← m.memory.timer
      return { m with memory := s }

end KwHomework.Threads
