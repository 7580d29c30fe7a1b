import KwHomework.Thread.Processes
import KwHomework.Thread.Turns

/-!
# Round robin with `thread_join`

A thread that joins another one leaves the rotation of `Interleaving` for `WaitingQueue` and goes to
the end of `ReadyQueue` when the other one has exited.  While it waits its status is still
`THREAD_STATUS_RUN`.  Nothing that the other threads do depends on it, so the memory seen without
the waiting threads takes the turns of round robin.
-/

namespace KwHomework.Threads

open Function LinkedList

variable {s s' x : Threads} {r : RoundRobin Ptr} {W l l₁ l₂ : List Ptr} {q : QueueName}
  {c t z : Ptr}
  {pid : Pid} {tid parentTid : Fin maxThreadNum} {f : Ptr → ThreadStatus}

/-- An interleaving of `thread_create`, ticks, `thread_exit` and `thread_join`, beside round robin
and the list of the threads that wait in `thread_join`.  A thread joins or exits while another one
is ready, and its join ends when the other thread has exited and is not current any more. -/
inductive Rotation : Threads → RoundRobin Ptr → List Ptr → Prop
  | start {s : Threads} : s.Initial → Rotation s .empty []
  | create {s s' : Threads} {r : RoundRobin Ptr} {W : List Ptr} {stack : Ptr} {pid : Pid}
      {tid : Fin maxThreadNum} : Rotation s r W → s.Fresh stack pid →
      s.threadCreate stack pid = some (tid, s') → Rotation s' (r.create stack) W
  | tick {s s' : Threads} {r : RoundRobin Ptr} {W : List Ptr} : Rotation s r W →
      (s.pCurrentThread ≠ none ∨ ∃ p, s.allocated p = true ∧ s.status p = .ready) →
      s.timer = some s' → Rotation s' r.tick W
  | exit {s s' : Threads} {r : RoundRobin Ptr} {W : List Ptr} {p : Ptr} : Rotation s r W →
      s.allocated p = true → s.status p = .ready → s.threadExit = some s' → Rotation s' r.exit W
  | joinStart {s s' : Threads} {r : RoundRobin Ptr} {W : List Ptr} {parentTid : Fin maxThreadNum}
      {c p : Ptr} : Rotation s r W → s.pCurrentThread = some c → s.status c = .run →
      s.allocated p = true → s.status p = .ready → s.threadJoinStart = some (parentTid, s') →
      Rotation s' r.leave (W ++ [c])
  | joinEnd {s s' : Threads} {r : RoundRobin Ptr} {W : List Ptr} {parentTid tid : Fin maxThreadNum}
      {t z : Ptr} {result : Int} : Rotation s r W → s.thread parentTid = some t → t ∈ W →
      s.thread tid = some z → s.status z = .zombie → s.pCurrentThread ≠ some z →
      s.threadJoinEnd parentTid tid = some (result, s') →
      Rotation s' ((r.create t).forget z) (W.erase t)

/-! ## Threads that stand aside -/

/-- The memory with other statuses for these threads. -/
def seen (s : Threads) (W : List Ptr) (status : Ptr → ThreadStatus) : Threads :=
  { s with status := fun p => if p ∈ W then status p else s.status p }

/-- The memory as if these threads had exited. -/
def aside (s : Threads) (W : List Ptr) : Threads := s.seen W fun _ => .zombie

private theorem status_seen (outside : t ∉ W) : (s.seen W f).status t = s.status t := if_neg outside

private theorem status_seen_of_mem (inside : t ∈ W) : (s.seen W f).status t = f t := if_pos inside

private theorem seen_setStatus (outside : t ∉ W) (status : ThreadStatus) :
    (s.setStatus t status).seen W f = (s.seen W f).setStatus t status := by
  have same : (fun p => if p ∈ W then f p else update s.status t status p) =
      update (s.seen W f).status t status := by
    funext p
    by_cases here : p = t
    · rw [here, update_self, update_self, if_neg outside]
    · rw [update_of_ne here, update_of_ne here]
      rfl
  simp only [seen, setStatus] at same ⊢
  rw [same]

/-- The waiting threads and their queue are as before. -/
structure Keeps (W : List Ptr) (s s' : Threads) : Prop where
  allocated : ∀ a ∈ W, s'.allocated a = s.allocated a
  waiting : s'.queue .waiting = s.queue .waiting
  links : ∀ a ∈ W, s'.pNext a = s.pNext a ∧ s'.pPrev a = s.pPrev a
  status : ∀ a ∈ W, s'.status a = s.status a

private theorem Keeps.trans (first : Keeps W s x) (second : Keeps W x s') : Keeps W s s' where
  allocated a member := (second.allocated a member).trans (first.allocated a member)
  waiting := second.waiting.trans first.waiting
  links a member := ⟨(second.links a member).1.trans (first.links a member).1,
    (second.links a member).2.trans (first.links a member).2⟩
  status a member := (second.status a member).trans (first.status a member)

/-- What the code does is independent of the statuses of the waiting threads. -/
def Passes (W : List Ptr) (f : Ptr → ThreadStatus) (code : Threads → Option Threads)
    (s s' : Threads) : Prop :=
  code (s.seen W f) = some (s'.seen W f) ∧ Keeps W s s'

private theorem passes_append (outside : c ∉ W)
    (tail : (s.queue .ready).queueCount ≠ 0 → ∀ a, (s.queue .ready).pTail = some a → a ∉ W)
    (run : s.append .ready .ready c = some s') : Passes W f (·.append .ready .ready c) s s' := by
  have apart : QueueName.waiting ≠ .ready := by decide
  have other : ∀ {a}, a ∈ W → a ≠ c := fun member => ne_of_mem_of_not_mem member outside
  rw [append] at run
  split_ifs at run with empty
  · obtain rfl := Option.some.inj run
    refine ⟨if_pos empty, fun _ _ => rfl, by simp [setQueue, apart], fun a member => ?_,
      fun _ _ => rfl⟩
    exact ⟨update_of_ne (other member) _ _, update_of_ne (other member) _ _⟩
  · obtain ⟨s₁, set, rest⟩ := Option.bind_eq_some_iff.mp run
    obtain ⟨b, followed, same⟩ := Option.bind_eq_some_iff.mp set
    obtain rfl := Option.some.inj same
    obtain rfl := Option.some.inj rest
    refine ⟨?_, fun _ _ => rfl, by simp [setQueue, apart], fun a member => ⟨?_, ?_⟩, fun _ _ => rfl⟩
    · change (s.seen W f).append .ready .ready c = _
      rw [append, if_neg (show ((s.seen W f).queue .ready).queueCount ≠ 0 from empty)]
      exact Option.bind_eq_some_iff.mpr ⟨_, Option.bind_eq_some_iff.mpr ⟨b, followed, rfl⟩, rfl⟩
    · have last : a ≠ b := ne_of_mem_of_not_mem member (tail empty b (deref_eq_some.mp followed).1)
      exact (update_of_ne (other member) _ _).trans (update_of_ne last _ _)
    · exact update_of_ne (other member) _ _

private theorem passes_noThread (current : s.pCurrentThread = some c) (outside : c ∉ W)
    (run : s.noThread pid = some s') : Passes W f (·.noThread pid) s s' := by
  obtain ⟨c', followed, rest⟩ := Option.bind_eq_some_iff.mp run
  obtain rfl := Option.some.inj (current.symm.trans (deref_eq_some.mp followed).1)
  obtain rfl := Option.some.inj rest
  have other : ∀ {a}, a ∈ W → a ≠ c := fun member => ne_of_mem_of_not_mem member outside
  refine ⟨Option.bind_eq_some_iff.mpr ⟨c, followed, ?_⟩, ?_⟩
  · by_cases ended : s.status c = .zombie
    · have ended' : (s.seen W f).status c = .zombie := (status_seen outside).trans ended
      simp only [if_pos ended, if_pos ended']
      rfl
    · have alive : (s.seen W f).status c ≠ .zombie := by rwa [status_seen outside]
      simp only [if_neg ended, if_neg alive, ← seen_setStatus outside]
      rfl
  · split_ifs
    · exact ⟨fun _ _ => rfl, rfl, fun _ _ => ⟨rfl, rfl⟩, fun _ _ => rfl⟩
    · exact ⟨fun _ _ => rfl, rfl, fun _ _ => ⟨rfl, rfl⟩, fun a member =>
        update_of_ne (other member) _ _⟩

private theorem passes_dispatch (head : (s.queue .ready).pHead = some t) (outside : t ∉ W)
    (run : s.dispatch pid = some s') : Passes W f (·.dispatch pid) s s' := by
  have apart : QueueName.waiting ≠ .ready := by decide
  let s₁ := { s with pCurrentThread := (s.queue .ready).pHead }.countDown .ready
  have popped : ∀ queue : ThreadQueue, Keeps W s (s₁.setQueue .ready fun _ => queue) := fun queue =>
    ⟨fun _ _ => rfl, by simp [s₁, countDown, setQueue, apart], fun _ _ => ⟨rfl, rfl⟩,
      fun _ _ => rfl⟩
  rw [dispatch] at run
  split_ifs at run with more
  · obtain ⟨a, followed, rest⟩ := Option.bind_eq_some_iff.mp run
    obtain ⟨selects, keeps⟩ := passes_noThread (W := W) (f := f)
      (s := s₁.setQueue .ready fun queue =>
      { queue with pHead := s₁.pNext a }) head outside rest
    refine ⟨?_, (popped _).trans keeps⟩
    change (s.seen W f).dispatch pid = _
    rw [dispatch]
    exact (if_pos more).trans (Option.bind_eq_some_iff.mpr ⟨a, followed, selects⟩)
  · obtain ⟨selects, keeps⟩ := passes_noThread (W := W) (f := f) (s := s₁) head outside run
    have counted : Keeps W s s₁ :=
      ⟨fun _ _ => rfl, by simp [s₁, countDown, setQueue, apart], fun _ _ => ⟨rfl, rfl⟩,
      fun _ _ => rfl⟩
    refine ⟨?_, counted.trans keeps⟩
    change (s.seen W f).dispatch pid = _
    rw [dispatch]
    exact (if_neg more).trans selects

/-- The threads that `timer` deals with do not wait. -/
structure Clear (W : List Ptr) (s : Threads) : Prop where
  current : ∀ c, s.pCurrentThread = some c → c ∉ W
  head : (s.queue .ready).queueCount ≠ 0 → ∀ a, (s.queue .ready).pHead = some a → a ∉ W
  tail : (s.queue .ready).queueCount ≠ 0 → ∀ a, (s.queue .ready).pTail = some a → a ∉ W

private theorem Clear.contextSwitch {curpid newpid : Pid} (clear : Clear W s)
    (ready : curpid = 0 ∨ newpid ≠ 0 → (s.queue .ready).queueCount ≠ 0)
    (head : curpid = 0 ∨ newpid ≠ 0 → (s.queue .ready).pHead = some t)
    (run : s.contextSwitch curpid newpid = some s') :
      Passes W f (·.contextSwitch curpid newpid) s s' := by
  change (s.seen W f).contextSwitch curpid newpid = _ ∧ _
  rw [Threads.contextSwitch] at run ⊢
  split_ifs at run ⊢ with first same
  · exact passes_dispatch (head (.inl first))
      (clear.head (ready (.inl first)) t (head (.inl first))) run
  · obtain ⟨c, followed, _⟩ := Option.bind_eq_some_iff.mp run
    have current := (deref_eq_some.mp followed).1
    exact passes_noThread current (clear.current c current) run
  · obtain ⟨c, followed, rest⟩ := Option.bind_eq_some_iff.mp run
    have outside := clear.current c (deref_eq_some.mp followed).1
    have front := head (.inr same)
    have away := clear.head (ready (.inr same)) t front
    split_ifs at rest with ended
    · have gone : Keeps W s { s.kill curpid .kill with pCurrentThread := none } :=
        ⟨fun _ _ => rfl, rfl, fun _ _ => ⟨rfl, rfl⟩, fun _ _ => rfl⟩
      obtain ⟨selects, keeps⟩ := passes_dispatch (W := W) (f := f)
        (s := { s.kill curpid .kill with pCurrentThread := none }) front away rest
      refine ⟨Option.bind_eq_some_iff.mpr ⟨c, followed, ?_⟩, gone.trans keeps⟩
      rw [if_pos ((status_seen outside).trans ended)]
      exact selects
    · obtain ⟨s₁, appended, rest⟩ := Option.bind_eq_some_iff.mp rest
      have kept : (s₁.queue .ready).pHead = (s.queue .ready).pHead :=
        pHead_append (s := s.setStatus c .ready) (ready (.inr same)) appended
      obtain ⟨appends, keeps⟩ := passes_append (W := W) (f := f)
        (s := s.setStatus c .ready) outside clear.tail appended
      obtain ⟨selects, keeps'⟩ := passes_dispatch (W := W) (f := f) (s := s₁)
        (kept.trans front) away rest
      have marked : Keeps W s (s.setStatus c .ready) :=
        ⟨fun _ _ => rfl, rfl, fun _ _ => ⟨rfl, rfl⟩, fun a member =>
          update_of_ne (ne_of_mem_of_not_mem member outside) _ _⟩
      refine ⟨Option.bind_eq_some_iff.mpr ⟨c, followed, ?_⟩, marked.trans (keeps.trans keeps')⟩
      rw [if_neg (by rwa [status_seen outside]), ← seen_setStatus outside]
      exact Option.bind_eq_some_iff.mpr ⟨_, appends, selects⟩

private theorem Clear.timer (clear : Clear W s) (positive : ∀ p, s.allocated p = true → s.pid p ≠ 0)
    (idle : s.pCurrentThread = none → (s.queue .ready).queueCount ≠ 0) (run : s.timer = some s') :
    Passes W f Threads.timer s s' := by
  change (s.seen W f).timer = _ ∧ _
  cases current : s.pCurrentThread with
  | none =>
      have current' : (s.seen W f).pCurrentThread = none := current
      simp only [Threads.timer, current, current'] at run ⊢
      obtain ⟨a, followed, rest⟩ := Option.bind_eq_some_iff.mp run
      have front := (deref_eq_some.mp followed).1
      obtain ⟨switches, keeps⟩ := clear.contextSwitch (f := f) (fun _ => idle current)
        (fun _ => front) rest
      exact ⟨Option.bind_eq_some_iff.mpr ⟨a, followed, switches⟩, keeps⟩
  | some c =>
      have outside := clear.current c current
      have current' : (s.seen W f).pCurrentThread = some c := current
      simp only [Threads.timer, current, current'] at run ⊢
      obtain ⟨c', followed, rest⟩ := Option.bind_eq_some_iff.mp run
      obtain ⟨same, live⟩ := deref_eq_some.mp followed
      obtain rfl := Option.some.inj same
      have nonzero := positive c live
      let s₁ := s.kill (s.pid c) .stop
      have stopped : Keeps W s s₁ := ⟨fun _ _ => rfl, rfl, fun _ _ => ⟨rfl, rfl⟩, fun _ _ => rfl⟩
      have clear₁ : Clear W s₁ := ⟨clear.current, clear.head, clear.tail⟩
      rw [if_neg nonzero] at rest
      suffices both : _ ∧ Keeps W s₁ s' from
        ⟨Option.bind_eq_some_iff.mpr ⟨c, followed, both.1⟩, stopped.trans both.2⟩
      rw [if_neg (show (s.seen W f).pid c ≠ 0 from nonzero)]
      by_cases ready : 0 < (s.queue .ready).queueCount
      · rw [if_pos (by exact ready)] at rest ⊢
        obtain ⟨a, front, rest⟩ := Option.bind_eq_some_iff.mp rest
        have head := (deref_eq_some.mp front).1
        obtain ⟨switches, keeps⟩ := clear₁.contextSwitch (f := f) (fun _ => ready.ne')
          (fun _ => head) rest
        refine ⟨Option.bind_eq_some_iff.mpr ⟨a, front, ?_⟩, keeps⟩
        have status : ((s.seen W f).kill ((s.seen W f).pid c) .stop).status c = s₁.status c :=
          status_seen outside
        rw [status]
        exact switches
      · rw [if_neg (by exact ready)] at rest ⊢
        by_cases empty : (s.queue .ready).queueCount = 0
        · rw [if_pos (by exact empty)] at rest ⊢
          have stays : ¬ (s₁.pid c = 0 ∨ (0 : Pid) ≠ 0) := fun choice =>
            choice.elim nonzero fun other => other rfl
          exact clear₁.contextSwitch (f := f) (t := 0) (fun choice => absurd choice stays)
            (fun choice => absurd choice stays) rest
        · rw [if_neg (by exact empty)] at rest ⊢
          obtain rfl := Option.some.inj rest
          exact ⟨rfl, fun _ _ => rfl, rfl, fun _ _ => ⟨rfl, rfl⟩, fun _ _ => rfl⟩

/-! ## The queues of `thread_join` -/

namespace Lists

theorem appendWaiting_eq (lists : s.Lists .waiting l) (c : Ptr) :
    s.appendWaiting c = s.append .waiting .waiting c := by
  have test : (s.queue .waiting).queueCount < 1 ↔ (s.queue .waiting).queueCount = 0 := by
    rw [lists.count]
    omega
  by_cases empty : (s.queue .waiting).queueCount = 0
  · rw [appendWaiting, append, if_pos (test.mpr empty), if_pos empty]
  · rw [appendWaiting, append, if_neg (mt test.mp empty), if_neg empty]

theorem appendReady_eq (lists : s.Lists .ready l) (t : Ptr) :
    s.appendReady t = (s.setStatus t .ready).append .ready .ready t := by
  have test : (s.queue .ready).queueCount < 1 ↔ (s.queue .ready).queueCount = 0 := by
    rw [lists.count]
    omega
  by_cases empty : (s.queue .ready).queueCount = 0
  · rw [appendReady, append, if_pos (test.mpr empty)]
    exact (if_pos empty).symm
  · have nonempty : l ≠ [] := fun same => empty (lists.queueCount_eq_zero_iff.mpr same)
    have last : (s.queue .ready).pTail ≠ none := by
      rw [lists.tail nonempty, Ne, List.getLast?_eq_none_iff]
      exact nonempty
    rw [appendReady, append, if_neg (mt test.mp empty)]
    refine Eq.trans ?_ (if_neg empty).symm
    exact if_neg last

/-- A thread of a queue whose links are right both ways is taken off. -/
theorem exists_unlink_plain (lists : s.Lists q (l₁ ++ t :: l₂))
    (backs : Backs s.pPrev none (l₁ ++ t :: l₂)) :
    ∃ s', (s.unlink q some t).map (·.countDown q) = some s' ∧ Without s s' q none l₁ t l₂ := by
  have front := pPrev_eq backs
  have after := lists.pNext_eq
  have live : ∀ n ∈ l₂, s.allocated n = true := fun n member => lists.live n (by simp [member])
  rcases List.eq_nil_or_concat l₁ with rfl | ⟨l, p, rfl⟩
  · have head := lists.pHead_eq (l := l₂)
    cases l₂ with
    | nil =>
        simp only [List.head?_nil, lastOr_nil] at front after
        have tail : (s.queue q).pTail = some t := lists.tail (by simp)
        refine ⟨_, ?_, without_only lists s.pNext (some t) (some t) fun _ _ => rfl⟩
        simp [unlink, front, after, countDown, setQueue, relink, head, tail]
    | cons n l₂ =>
        simp only [List.head?_cons, lastOr_nil] at front after
        have live₂ := live n (by simp)
        refine ⟨_, ?_, without_head lists backs⟩
        simp [unlink, front, after, unlinkFirst, setPrev_some, live₂, countDown, setQueue, relink]
  · rw [List.concat_eq_append] at *
    rw [lastOr_concat] at front
    have live₁ : s.allocated p = true := lists.live p (by simp)
    have other : t ≠ p := by
      rintro rfl
      have nodup : (l ++ t :: t :: l₂).Nodup := by simpa using lists.nodup
      exact (List.nodup_cons.mp (List.nodup_append.mp nodup).2.1).1 (by simp)
    cases l₂ with
    | nil =>
        rw [List.head?_nil] at after
        refine ⟨_, ?_, without_last lists backs⟩
        simp [unlink, front, after, unlinkLast, setNext_some, live₁, countDown, setQueue, relink]
    | cons n l₂ =>
        rw [List.head?_cons] at after
        have live₂ := live n (by simp)
        refine ⟨_, ?_, without_inner lists backs⟩
        simp [unlink, front, after, bypass, setNext_some, setPrev_some, live₁, live₂, other,
          countDown, setQueue, relink]

end Lists

/-! ## The invariant -/

/-- Without the waiting threads the memory takes the turns of round robin, and `WaitingQueue` holds
the waiting ones with right links. -/
structure Rotating (s : Threads) (r : RoundRobin Ptr) (W : List Ptr) : Prop where
  turn : (s.aside W).Turn r
  waiting : s.Lists .waiting W
  backs : Backs s.pPrev none W
  run : ∀ p ∈ W, s.status p = .run
  current : ∀ p ∈ W, s.pCurrentThread ≠ some p

namespace Rotating

variable (rotating : s.Rotating r W)
include rotating

private theorem ready : s.Lists .ready r.queue :=
  rotating.turn.refines.ready.congr rfl (fun _ _ => rfl) rotating.turn.refines.ready.live

private theorem notMem_queue (waits : t ∈ W) : t ∉ r.queue := by
  intro member
  have status := (rotating.turn.refines.ready_iff t (rotating.waiting.live t waits)).mpr member
  rw [aside, status_seen_of_mem waits] at status
  cases status

private theorem notMem_of_current (current : s.pCurrentThread = some c) : c ∉ W :=
  fun waits => rotating.current c waits current

/-- The queues and statuses are those of round robin, but a waiting thread has the status of a
running one. -/
theorem status_iff {p : Ptr} (live : s.allocated p = true) :
    (s.status p = .run ↔ p ∈ W ∨ r.current = some p ∧ r.exited = false) ∧
      (s.status p = .ready ↔ p ∈ r.queue) ∧ s.status p ≠ .wait := by
  have refines := rotating.turn.refines
  by_cases waits : p ∈ W
  · have status := rotating.run p waits
    have outside := rotating.notMem_queue waits
    simp [status, waits, outside]
  · have running := refines.run_iff p live
    have queued := refines.ready_iff p live
    have busy := refines.wait p live
    rw [aside, status_seen waits] at running queued busy
    simpa [waits, running, queued] using busy

private theorem clear : Clear W s where
  current c current := rotating.notMem_of_current current
  head counted a head waits := by
    have nonempty : r.queue ≠ [] := fun empty =>
      counted (rotating.ready.queueCount_eq_zero_iff.mpr empty)
    obtain ⟨t, l, queue⟩ := List.exists_cons_of_ne_nil nonempty
    have lists := queue ▸ rotating.ready
    obtain rfl := Option.some.inj (lists.pHead_eq.symm.trans head)
    exact rotating.notMem_queue waits (by simp [queue])
  tail counted a tail waits := by
    have nonempty : r.queue ≠ [] := fun empty =>
      counted (rotating.ready.queueCount_eq_zero_iff.mpr empty)
    rw [rotating.ready.tail nonempty] at tail
    exact rotating.notMem_queue waits (List.mem_of_getLast? tail)

theorem keep {r' : RoundRobin Ptr} (turn : (s'.aside W).Turn r') (keeps : Keeps W s s')
    (current : ∀ p ∈ W, s'.pCurrentThread ≠ some p) : s'.Rotating r' W where
  turn := turn
  waiting := rotating.waiting.congr keeps.waiting (fun a waits => (keeps.links a waits).1)
    fun a waits => (keeps.allocated a waits).trans (rotating.waiting.live a waits)
  backs := rotating.backs.congr fun a waits => (keeps.links a waits).2
  run p waits := (keeps.status p waits).trans (rotating.run p waits)
  current := current

private theorem create {stack : Ptr} (fresh : s.Fresh stack pid)
    (run : s.threadCreate stack pid = some (tid, s')) : s'.Rotating (r.create stack) W := by
  have outside := fresh.notMem rotating.waiting
  have other : ∀ {p}, p ∈ W → p ≠ stack := fun member => ne_of_mem_of_not_mem member outside
  rw [threadCreate_eq] at run
  obtain ⟨tid', unused, rest⟩ := Option.bind_eq_some_iff.mp run
  obtain ⟨s₂, appended, same⟩ := Option.map_eq_some_iff.mp rest
  obtain ⟨rfl, rfl⟩ := Prod.mk.inj same
  let s₁ := s.born stack pid tid'
  have born : s₁.aside W = (s.aside W).born stack pid tid' := by
    have status : (fun p => if p ∈ W then .zombie else update s.status stack .ready p) =
        update (s.aside W).status stack .ready := by
      funext p
      by_cases here : p = stack
      · rw [here, update_self, update_self, if_neg outside]
      · rw [update_of_ne here, update_of_ne here]
        rfl
    simp only [s₁, aside, seen, Threads.born] at status ⊢
    rw [status]
  have entered : Keeps W s s₁ := ⟨fun a waits => update_of_ne (other waits) _ _, rfl,
    fun _ _ => ⟨rfl, rfl⟩, fun a waits => update_of_ne (other waits) _ _⟩
  obtain ⟨appends, keeps⟩ :=
    passes_append (s := s₁) (f := fun _ => .zombie) outside rotating.clear.tail appended
  have run' : (s.aside W).threadCreate stack pid = some (tid', s₂.aside W) := by
    rw [threadCreate_eq, show (s.aside W).unusedTid = some tid' from unused, Option.bind_some,
      ← born]
    exact congrArg (Option.map fun s' => (tid', s')) appends
  have turn := rotating.turn.create ⟨fresh.unallocated, fresh.positive, fresh.other⟩ run'
  refine rotating.keep turn (entered.trans keeps) fun p waits current => ?_
  obtain ⟨_, _, _, rfl⟩ := relink_of_append appended
  exact rotating.current p waits current

theorem exists_timer (busy : r.current = none → r.queue ≠ []) :
    ∃ s', s.timer = some s' ∧ s'.Rotating r.tick W := by
  have refines := rotating.turn.refines
  obtain ⟨x, tick, turn, _⟩ := rotating.turn.exists_timer busy
  have clear : Clear W (s.aside W) :=
    ⟨rotating.clear.current, rotating.clear.head, rotating.clear.tail⟩
  have idle : (s.aside W).pCurrentThread = none → ((s.aside W).queue .ready).queueCount ≠ 0 := by
    intro none empty
    rw [refines.current] at none
    exact busy none (refines.ready.queueCount_eq_zero_iff.mp empty)
  obtain ⟨ticks, keeps⟩ := clear.timer (f := s.status) rotating.turn.distinct.positive idle tick
  have restored : (s.aside W).seen W s.status = s := by
    have status : (fun p => if p ∈ W then s.status p else (s.aside W).status p) = s.status := by
      funext p
      split_ifs with waits
      · rfl
      · exact status_seen waits
    change { s with status := _ } = s
    rw [status]
  have hidden : (x.seen W s.status).aside W = x := by
    have status : (fun p => if p ∈ W then .zombie else (x.seen W s.status).status p) =
        x.status := by
      funext p
      split_ifs with waits
      · exact ((keeps.status p waits).trans (status_seen_of_mem waits)).symm
      · exact status_seen waits
    change { x with status := _ } = x
    rw [status]
  have kept : Keeps W s (x.seen W s.status) :=
    ⟨keeps.allocated, keeps.waiting, keeps.links, fun a waits => status_seen_of_mem waits⟩
  rw [restored] at ticks
  refine ⟨_, ticks, rotating.keep (hidden.symm ▸ turn) kept fun p waits current => ?_⟩
  rcases RoundRobin.current_tick (turn.refines.current.symm.trans current) with queued | same
  · exact rotating.notMem_queue waits queued
  · exact rotating.current p waits (refines.current.trans same)

private theorem exit {p : Ptr} (live : s.allocated p = true) (ready : s.status p = .ready)
    (run : s.threadExit = some s') : s'.Rotating r.exit W := by
  obtain ⟨c, followed, rest⟩ := Option.bind_eq_some_iff.mp run
  obtain rfl := Option.some.inj rest
  have outside := rotating.notMem_of_current (deref_eq_some.mp followed).1
  have queued := (rotating.status_iff live).2.1.mp ready
  have awake : p ∉ W := fun waits => rotating.notMem_queue waits queued
  have run' : (s.aside W).threadExit = some ((s.setStatus c .zombie).aside W) := by
    rw [aside, aside, seen_setStatus outside]
    exact Option.bind_eq_some_iff.mpr ⟨c, followed, rfl⟩
  have turn := rotating.turn.exit live ((status_seen awake).trans ready) run'
  refine rotating.keep turn ⟨fun _ _ => rfl, rfl, fun _ _ => ⟨rfl, rfl⟩, fun a waits => ?_⟩
    rotating.current
  exact update_of_ne (ne_of_mem_of_not_mem waits outside) _ _

private theorem statuses_leave (current : s.pCurrentThread = some c) {p : Ptr}
    (live : s.allocated p = true) :
    (s.aside (W ++ [c])).status p ≠ .run ∧
      ((s.aside (W ++ [c])).status p = .ready ↔ p ∈ r.queue) ∧
      (s.aside (W ++ [c])).status p ≠ .wait := by
  have here : r.current = some c := rotating.turn.refines.current.symm.trans current
  obtain ⟨running, queued, busy⟩ := rotating.status_iff live
  by_cases inside : p ∈ W ++ [c]
  · have notQueued : p ∉ r.queue := by
      rcases List.mem_append.mp inside with waits | same
      · exact rotating.notMem_queue waits
      · rw [List.mem_singleton.mp same]
        exact (rotating.turn.live c here).2
    rw [aside, status_seen_of_mem inside]
    simp [notQueued]
  · have other : ¬ (p ∈ W ∨ r.current = some p ∧ r.exited = false) := by
      rintro (waits | ⟨same, _⟩)
      · exact inside (List.mem_append_left _ waits)
      · exact inside (by simp [Option.some.inj (here.symm.trans same)])
    rw [aside, status_seen inside]
    exact ⟨mt running.mp other, queued, busy⟩

theorem joinStart (current : s.pCurrentThread = some c) (status : s.status c = .run)
    (run : s.threadJoinStart = some (parentTid, s')) : s'.Rotating r.leave (W ++ [c]) := by
  have refines := rotating.turn.refines
  have here : r.current = some c := refines.current.symm.trans current
  have outside := rotating.notMem_of_current current
  obtain ⟨live, idle⟩ := rotating.turn.live c here
  obtain ⟨next, queue, appends, lists, same⟩ := rotating.waiting.exists_append .waiting outside live
  have backs := rotating.waiting.backs_concat rotating.backs outside
  rw [ite_self] at backs
  have after : next c = none := lists.pNext_eq
  obtain ⟨_, _, rest⟩ := Option.bind_eq_some_iff.mp run
  obtain ⟨c', followed, rest⟩ := Option.bind_eq_some_iff.mp rest
  obtain rfl := Option.some.inj (current.symm.trans (deref_eq_some.mp followed).1)
  rw [rotating.waiting.appendWaiting_eq, appends] at rest
  obtain ⟨s₁, appended, rest⟩ := Option.bind_eq_some_iff.mp rest
  obtain rfl := Option.some.inj appended
  have last : s' = { s.relink next
    (update s.pPrev c (if W = [] then none else (s.queue .waiting).pTail))
      .waiting queue with pCurrentThread := none } := by
    -- the thread is the last one of the queue, so the first branch is never taken
    split at rest
    · rename_i behind
      exact absurd (after.symm.trans behind) (Option.some_ne_none _).symm
    · exact (Prod.mk.inj (Option.some.inj rest)).2.symm
  subst last
  have alive : r.exited = false := by
    rcases (rotating.status_iff live).1.mp status with waits | both
    · exact absurd waits outside
    · exact both.2
  have ready : ∀ a ∈ r.queue, a ≠ c ∧ a ∉ W := fun a queued =>
    ⟨ne_of_mem_of_not_mem queued idle, fun waits => rotating.notMem_queue waits queued⟩
  have statuses := fun p live' => rotating.statuses_leave current (p := p) live'
  refine ⟨⟨⟨?_, rfl, fun p live' => ?_, fun p live' => (statuses p live').2.1,
    fun p live' => (statuses p live').2.2, refines.cpuTime⟩,
    rotating.turn.distinct.mono fun _ live' => ⟨live', rfl⟩,
    fun b gone => (Option.some_ne_none b gone.symm).elim, fun exited => ?_,
    rotating.turn.ticks⟩, lists.congr rfl (fun _ _ => rfl) lists.live, backs, fun p waits => ?_,
    fun p _ => (Option.some_ne_none p).symm⟩
  · have apart : QueueName.ready ≠ .waiting := by decide
    refine rotating.ready.congr ?_ (fun a queued => ?_) rotating.ready.live
    · exact update_of_ne apart queue s.queue
    · exact same a (ready a queued).1 (ready a queued).2
  · exact iff_of_false (statuses p live').1 fun both => Option.some_ne_none p both.1.symm
  · exact Bool.noConfusion (alive.symm.trans exited)
  · rcases List.mem_append.mp waits with old | new
    · exact rotating.run p old
    · rw [List.mem_singleton.mp new]
      exact status

private theorem exists_unlinkWaiting (waits : t ∈ W) : ∃ u next prev queue,
    s.unlink .waiting some t = some u ∧ u.countDown .waiting = s.relink next prev .waiting queue ∧
      (s.relink next prev .waiting queue).Lists .waiting (W.erase t) ∧
      Backs prev none (W.erase t) ∧ ∀ a ∈ r.queue, next a = s.pNext a := by
  obtain ⟨l₁, l₂, rfl⟩ := List.append_of_mem waits
  have nodup := List.nodup_cons.mp (List.nodup_middle.mp rotating.waiting.nodup)
  have left : (l₁ ++ t :: l₂).erase t = l₁ ++ l₂ := by
    rw [List.erase_append_right _ fun member => nodup.1 (List.mem_append_left _ member),
      List.erase_cons_head]
  have away : ∀ {a}, a ∈ r.queue → a ∉ l₁ ++ t :: l₂ := fun queued member =>
    rotating.notMem_queue member queued
  obtain ⟨_, unlinks, without⟩ := rotating.waiting.exists_unlink_plain rotating.backs
  obtain ⟨u, unlinked, rfl⟩ := Option.map_eq_some_iff.mp unlinks
  obtain ⟨next, prev, queue, same⟩ := without.same
  have links : ∀ a ∈ r.queue, (u.countDown .waiting).pNext a = s.pNext a := fun a queued =>
    without.next a (away queued) fun front =>
      (Lists.mem_or_of_pPrev rotating.backs front).elim
        (fun member => away queued (List.mem_append_left _ member)) fun none => nomatch none
  rw [same] at without links
  rw [left]
  exact ⟨u, next, prev, queue, unlinked, same, without.lists, without.backs, links⟩

private theorem statuses_requeue (waits : t ∈ W) (status : x.status = update s.status t .ready)
    {p : Ptr} (live : s.allocated p = true) :
    ((x.aside (W.erase t)).status p = .run ↔ r.current = some p ∧ r.exited = false) ∧
      ((x.aside (W.erase t)).status p = .ready ↔ p ∈ r.queue ++ [t]) ∧
      (x.aside (W.erase t)).status p ≠ .wait := by
  have left : ∀ {a}, a ∈ W.erase t ↔ a ≠ t ∧ a ∈ W := rotating.waiting.nodup.mem_erase_iff
  have away : ∀ {a}, a ∈ W → r.current ≠ some a := fun member here =>
    rotating.current _ member (rotating.turn.refines.current.trans here)
  obtain ⟨running, queued, busy⟩ := rotating.status_iff live
  by_cases inside : p ∈ W.erase t
  · obtain ⟨other, member⟩ := left.mp inside
    rw [aside, status_seen_of_mem inside]
    simp [other, away member, rotating.notMem_queue member]
  · rw [aside, status_seen inside, status]
    by_cases here : p = t
    · subst here
      simp [away waits]
    · have outside : p ∉ W := fun member => inside (left.mpr ⟨here, member⟩)
      rw [update_of_ne here]
      simpa [here, outside, running, queued] using busy

theorem exists_requeue (waits : t ∈ W) : ∃ u next prev queue next' prev' queue',
    let x :=
      ((s.relink next prev .waiting queue).setStatus t .ready).relink next' prev' .ready queue'
    s.unlink .waiting some t = some u ∧ (u.countDown .waiting).appendReady t = some x ∧
      x.Rotating (r.create t) (W.erase t) := by
  have refines := rotating.turn.refines
  have apart : QueueName.ready ≠ .waiting := by decide
  have live := rotating.waiting.live t waits
  have idle := rotating.notMem_queue waits
  have left : ∀ {a}, a ∈ W.erase t → a ≠ t ∧ a ∈ W := rotating.waiting.nodup.mem_erase_iff.mp
  obtain ⟨u, next, prev, queue, unlinked, same, lists, backs, links⟩ :=
    rotating.exists_unlinkWaiting waits
  let s₁ := s.relink next prev .waiting queue
  have ready : (s₁.setStatus t .ready).Lists .ready r.queue :=
    rotating.ready.congr (update_of_ne apart queue s.queue) links rotating.ready.live
  obtain ⟨next', queue', appends, lists', same'⟩ := ready.exists_append .ready idle live
  let before := if r.queue = [] then none else ((s₁.setStatus t .ready).queue .ready).pTail
  let s₂ := (s₁.setStatus t .ready).relink next' (update prev t before) .ready queue'
  have entered : (u.countDown .waiting).appendReady t = some s₂ := by
    have ready₁ : s₁.Lists .ready r.queue := ready.congr rfl (fun _ _ => rfl) ready.live
    rw [same]
    exact (ready₁.appendReady_eq t).trans appends
  refine ⟨u, next, prev, queue, next', _, queue', unlinked, entered, ?_, ?_, ?_, fun p member => ?_,
    fun p member => rotating.current p (left member).2⟩
  · have statuses := fun p live' => rotating.statuses_requeue (x := s₂) waits rfl (p := p) live'
    refine ⟨⟨lists'.congr rfl (fun _ _ => rfl) lists'.live, refines.current,
      fun p live' => (statuses p live').1, fun p live' => (statuses p live').2.1,
      fun p live' => (statuses p live').2.2, refines.cpuTime⟩,
      rotating.turn.distinct.mono fun _ live' => ⟨live', rfl⟩, fun c here => ?_,
      fun exited => ⟨by simp [RoundRobin.create], (rotating.turn.others exited).2⟩,
      rotating.turn.ticks⟩
    obtain ⟨live', idle'⟩ := rotating.turn.live c here
    refine ⟨live', fun member => ?_⟩
    rcases List.mem_append.mp member with queued | new
    · exact idle' queued
    · rw [List.mem_singleton.mp new] at here
      exact rotating.current t waits (refines.current.trans here)
  · refine lists.congr (update_of_ne apart.symm queue' s₁.queue) (fun a member => ?_) lists.live
    exact same' a (left member).1 (rotating.notMem_queue (left member).2)
  · exact backs.congr fun a member => update_of_ne (left member).1 _ _
  · exact (update_of_ne (left member).1 _ _).trans (rotating.run p (left member).2)

/-- A thread that has exited and is not current is freed. -/
theorem free {entries : Fin maxThreadNum → ThreadTblEnt} {sent : List (Pid × Signal)}
    (ended : s.status z = .zombie) (live : s.allocated z = true)
    (gone : s.pCurrentThread ≠ some z) :
    { s with allocated := update s.allocated z false, pThreadTbEnt := entries,
             signals := sent }.Rotating (r.forget z) W := by
  have refines := rotating.turn.refines
  have freed : ∀ {p}, update s.allocated z false p = true → p ≠ z ∧ s.allocated p = true := by
    intro p live'
    by_cases here : p = z
    · simp [here] at live'
    · exact ⟨here, (update_of_ne here _ _).symm.trans live'⟩
  have lives : ∀ {p}, p ≠ z → s.allocated p = true → update s.allocated z false p = true :=
    fun other live' => (update_of_ne other _ _).trans live'
  have waiting : ∀ a ∈ W, a ≠ z := by
    rintro _ member rfl
    cases (rotating.run _ member).symm.trans ended
  have queued : ∀ a ∈ r.queue, a ≠ z := by
    rintro _ member rfl
    cases ((rotating.status_iff live).2.1.mpr member).symm.trans ended
  refine ⟨⟨⟨?_, refines.current, fun p live' => refines.run_iff p (freed live').2,
    fun p live' => refines.ready_iff p (freed live').2, fun p live' =>
    refines.wait p (freed live').2,
    fun p live' => ?_⟩, rotating.turn.distinct.mono fun p live' => ⟨(freed live').2, rfl⟩,
    fun c here => ?_, rotating.turn.others, fun p absent => ?_⟩, ?_, rotating.backs, rotating.run,
    rotating.current⟩
  · exact rotating.ready.congr rfl (fun _ _ => rfl) fun a member =>
      lives (queued a member) (rotating.ready.live a member)
  · change s.cpuTime p = timeslice * update r.ticks z 0 p
    rw [update_of_ne (freed live').1]
    exact refines.cpuTime p (freed live').2
  · obtain ⟨live', idle⟩ := rotating.turn.live c here
    exact ⟨lives (fun same => gone (refines.current.trans (same ▸ here))) live', idle⟩
  · by_cases here : p = z
    · simp [RoundRobin.forget, here]
    · have absent' : s.allocated p = false := (update_of_ne here _ _).symm.trans absent
      simpa [RoundRobin.forget, here] using rotating.turn.ticks p absent'
  · exact rotating.waiting.congr rfl (fun _ _ => rfl) fun a member =>
      lives (waiting a member) (rotating.waiting.live a member)

/-- The wait ends when the other thread has exited: the waiting thread goes to the end of
`ReadyQueue`, and the other one is freed. -/
theorem joinEnd (found : s.thread parentTid = some t) (waits : t ∈ W)
    (joined : s.thread tid = some z) (ended : s.status z = .zombie)
    (gone : s.pCurrentThread ≠ some z) :
    ∃ s', s.threadJoinEnd parentTid tid = some (0, s') ∧
      s'.Rotating ((r.create t).forget z) (W.erase t) ∧ s'.allocated z = false := by
  obtain ⟨u, next, prev, queue, next', prev', queue', unlinked, entered, requeued⟩ :=
    rotating.exists_requeue waits
  obtain ⟨live, _⟩ : s.allocated z = true ∧ (s.pThreadTbEnt tid).pThread = some z :=
    (deref_eq_some.mp joined).symm
  have other : z ≠ t := by
    rintro rfl
    cases (rotating.run _ waits).symm.trans ended
  have ended' : update s.status t .ready z = .zombie := (update_of_ne other _ _).trans ended
  let x := ((s.relink next prev .waiting queue).setStatus t .ready).relink next' prev' .ready queue'
  let s' := { x.kill (s.pid t) .stop with
    allocated := update s.allocated z false
    pThreadTbEnt := update s.pThreadTbEnt tid { s.pThreadTbEnt tid with pThread := none } }
  refine ⟨s', ?_, requeued.free ended' live gone, update_self _ _ _⟩
  refine Option.bind_eq_some_iff.mpr ⟨t, found, ?_⟩
  refine Option.bind_eq_some_iff.mpr ⟨u, unlinked, ?_⟩
  refine Option.bind_eq_some_iff.mpr ⟨_, entered, ?_⟩
  exact Option.bind_eq_some_iff.mpr ⟨z, joined, rfl⟩

end Rotating

/-! ## Runs -/

private theorem Initial.rotating (initial : s.Initial) : s.Rotating .empty [] := by
  have turn := initial.turn
  obtain ⟨s₀, _, _, _, rfl⟩ := initial
  have same : s₀.init.aside [] = s₀.init := by simp [aside, seen]
  refine ⟨same.symm ▸ turn, ?_, trivial, fun _ member => absurd member List.not_mem_nil,
    fun _ member => absurd member List.not_mem_nil⟩
  exact ⟨rfl, fun nonempty => absurd rfl nonempty, fun nonempty => absurd rfl nonempty,
    List.nodup_nil, fun _ member => absurd member List.not_mem_nil⟩

private theorem Rotating.busy_iff (rotating : s.Rotating r W) :
    (r.current = none → r.queue ≠ []) ↔
      (s.pCurrentThread ≠ none ∨ ∃ p, s.allocated p = true ∧ s.status p = .ready) := by
  have current : s.pCurrentThread = r.current := rotating.turn.refines.current
  rw [current]
  constructor
  · intro busy
    by_cases idle : r.current = none
    · obtain ⟨p, member⟩ := List.exists_mem_of_ne_nil _ (busy idle)
      have live := rotating.ready.live p member
      exact .inr ⟨p, live, (rotating.status_iff live).2.1.mpr member⟩
    · exact .inl idle
  · rintro (here | ⟨p, live, ready⟩) none
    · exact absurd none here
    · exact List.ne_nil_of_mem ((rotating.status_iff live).2.1.mp ready)

private theorem Rotation.rotating (run : Rotation s r W) : s.Rotating r W := by
  induction run with
  | start initial => exact initial.rotating
  | create _ fresh created rotating => exact rotating.create fresh created
  | tick _ busy tick rotating =>
      obtain ⟨s', tick', rotating'⟩ := rotating.exists_timer (rotating.busy_iff.mpr busy)
      rwa [Option.some.inj (tick.symm.trans tick')]
  | exit _ live ready exit rotating => exact rotating.exit live ready exit
  | joinStart _ current status _ _ started rotating =>
      exact rotating.joinStart current status started
  | joinEnd _ found waits joined ended gone finished rotating =>
      obtain ⟨s', finished', rotating', _⟩ := rotating.joinEnd found waits joined ended gone
      obtain ⟨_, rfl⟩ := Prod.mk.inj (Option.some.inj (finished.symm.trans finished'))
      exact rotating'

private theorem Rotating.exists_ticks (k : Nat) : ∀ {s : Threads} {r : RoundRobin Ptr},
    s.Rotating r W → (r.current = none → r.queue ≠ []) →
    ∃ s', ticks k s = some s' ∧ s'.Rotating (RoundRobin.tick^[k] r) W := by
  induction k with
  | zero => exact fun {s} _ rotating _ => ⟨s, rfl, rotating⟩
  | succ k induction =>
      intro s r rotating busy
      obtain ⟨s₁, tick, rotating₁⟩ := rotating.exists_timer busy
      obtain ⟨s', rest, rotating'⟩ := induction rotating₁ (RoundRobin.tick_busy busy)
      refine ⟨s', ?_, rotating'⟩
      rw [ticks, tick, Option.bind_some, rest]

/-- The memory shows the state of round robin and the threads that wait in `thread_join`, all of
which have the status of a running one. -/
structure Shows (s : Threads) (r : RoundRobin Ptr) (W : List Ptr) : Prop where
  ready : s.Lists .ready r.queue
  waiting : s.Lists .waiting W
  current : s.pCurrentThread = r.current
  run_iff : ∀ p, s.allocated p = true →
    (s.status p = .run ↔ p ∈ W ∨ r.current = some p ∧ r.exited = false)
  ready_iff : ∀ p, s.allocated p = true → (s.status p = .ready ↔ p ∈ r.queue)
  zombie_iff : ∀ p, s.allocated p = true →
    (s.status p = .zombie ↔ p ∉ W ∧ p ∉ r.queue ∧ ¬ (r.current = some p ∧ r.exited = false))
  not_wait : ∀ p, s.allocated p = true → s.status p ≠ .wait
  cpuTime : ∀ p, s.allocated p = true → s.cpuTime p = timeslice * r.ticks p

private theorem Rotating.shows (rotating : s.Rotating r W) : s.Shows r W where
  ready := rotating.ready
  waiting := rotating.waiting
  current := rotating.turn.refines.current
  run_iff _ live := (rotating.status_iff live).1
  ready_iff _ live := (rotating.status_iff live).2.1
  zombie_iff p live := by
    obtain ⟨running, queued, busy⟩ := rotating.status_iff live
    rw [and_left_comm, ← not_or, ← running, ← queued]
    cases status : s.status p with
    | wait => exact absurd status busy
    | run => simp
    | ready => simp
    | zombie => simp
  not_wait _ live := (rotating.status_iff live).2.2
  cpuTime := rotating.turn.refines.cpuTime

/-- The scheduler is round robin with threads that leave to join others.  A tick succeeds as long as
a thread is current or ready, a join ends once the other thread has exited and is not current, with
the thread that waited behind all that are ready, and in `k` ticks without other calls each of the
`k` threads that are served runs exactly once. -/
theorem refines_rotation (run : Rotation s r W) : s.Shows r W ∧
    ((s.pCurrentThread ≠ none ∨ ∃ p, s.allocated p = true ∧ s.status p = .ready) →
      ∃ s', s.timer = some s') ∧
    (∀ parentTid tid t z, s.thread parentTid = some t → t ∈ W → s.thread tid = some z →
      s.status z = .zombie → s.pCurrentThread ≠ some z →
        ∃ s', s.threadJoinEnd parentTid tid = some (0, s') ∧
        s'.Lists .ready (r.queue ++ [t]) ∧ s'.Lists .waiting (W.erase t) ∧ s'.allocated z = false) ∧
    ∀ k p, p ∈ r.order → r.order.length = k →
      ∃! i, i < k ∧ ∃ s', ticks (i + 1) s = some s' ∧ s'.pCurrentThread = some p := by
  have rotating := run.rotating
  refine ⟨rotating.shows, fun busy => ?_,
    fun parentTid tid t z found waits joined ended gone => ?_, ?_⟩
  · obtain ⟨s', tick, _⟩ := rotating.exists_timer (rotating.busy_iff.mpr busy)
    exact ⟨s', tick⟩
  · obtain ⟨s', finished, rotating', freed⟩ := rotating.joinEnd found waits joined ended gone
    exact ⟨s', finished, rotating'.ready, rotating'.waiting, freed⟩
  · rintro k p served rfl
    have busy : r.current = none → r.queue ≠ [] := by
      rintro none empty
      simp [RoundRobin.order, none, empty] at served
    have others : r.exited = true → r.queue ≠ [] := fun exited => (rotating.turn.others exited).1
    have shows : ∀ i, (∃ s', ticks i s = some s' ∧ s'.pCurrentThread = some p) ↔
        (RoundRobin.tick^[i] r).current = some p := by
      intro i
      obtain ⟨s', ticked, rotating'⟩ := rotating.exists_ticks i busy
      have current : s'.pCurrentThread = _ := rotating'.turn.refines.current
      rw [← current]
      constructor
      · rintro ⟨s'', ticked', here⟩
        rwa [Option.some.inj (ticked.symm.trans ticked')]
      · exact fun here => ⟨s', ticked, here⟩
    simp only [shows]
    exact RoundRobin.existsUnique_current rotating.turn.nodup others served

/-- The running one of two threads waits for the other one. -/
theorem refines_rotation_two : ∃ s r tid, twoThreads.threadJoinStart = some (tid, s) ∧
    Rotation s r [1] ∧ s.Shows r [1] ∧ ∃ s', s.timer = some s' := by
  have first : Rotation oneThread _ [] := (Rotation.start initial_blank).create fresh_blank rfl
  have second := first.create fresh_oneThread rfl
  have third : Rotation twoThreads _ [] := second.tick (.inr ⟨1, rfl, rfl⟩) rfl
  have fourth := third.joinStart (p := 2) rfl rfl rfl rfl rfl
  obtain ⟨shows, ticks, _⟩ := refines_rotation fourth
  exact ⟨_, _, _, rfl, fourth, shows, ticks (.inr ⟨2, rfl, rfl⟩)⟩

end KwHomework.Threads
