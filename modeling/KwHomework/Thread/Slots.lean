import KwHomework.Thread.Calls
import Mathlib.Data.Fintype.Card

/-!
# Slots of the thread table

A session follows the thread numbers beside the memory: whether a number was given to a thread, and
whether that thread has been cancelled or joined.  The statement that should release the entry of
such a thread compares instead of assigning, so an entry of `pThreadTbEnt` is used at most once.
-/

namespace KwHomework.Threads

open Function

variable {s s' : Threads} {q back : QueueName} {t c : Ptr} {tid parentTid : Fin maxThreadNum}

/-! ## Sessions -/

/-- What became of a thread number. -/
inductive Life where
  | unborn
  | born (t : Ptr)
  | ended
  deriving DecidableEq

/-- The thread numbers, and the calls of `thread_join` that wait, each with `parentTid` and
`tid`. -/
structure History where
  life : Fin maxThreadNum → Life
  joins : List (Fin maxThreadNum × Fin maxThreadNum)

/-- Calls from `Init` on a table of zeros, with the ticks that dispatch the threads. -/
inductive Session : History → Threads → Prop
  | start {s : Threads} : s.Initial → (∀ tid, (s.pThreadTbEnt tid).pThread = none) →
      Session ⟨fun _ => .unborn, []⟩ s
  | create {h s stack pid tid s'} : Session h s → s.Fresh stack pid →
      s.threadCreate stack pid = some (tid, s') →
      Session { h with life := update h.life tid (.born stack) } s'
  | refused {h s tid r s'} : Session h s → s.threadCancel tid = some (some r, s') → Session h s'
  | cancel {h s tid s'} : Session h s → s.threadCancel tid = some (none, s') →
      Session { h with life := update h.life tid .ended } s'
  | exit {h s s'} : Session h s → s.threadExit = some s' → Session h s'
  | joinStart {h s parentTid s'} (tid : Fin maxThreadNum) : Session h s →
      s.threadJoinStart = some (parentTid, s') →
      Session { h with joins := (parentTid, tid) :: h.joins } s'
  | joinEnd {h s parentTid tid z r s'} : Session h s → (parentTid, tid) ∈ h.joins →
      s.thread tid = some z → s.status z = .zombie → s.threadJoinEnd parentTid tid = some (r, s') →
      Session ⟨update h.life tid .ended, h.joins.erase (parentTid, tid)⟩ s'
  | tick {h s s'} : Session h s → s.timer = some s' → Session h s'

namespace History

/-- A number that belongs to a thread that was neither cancelled nor joined and has not exited. -/
def alive (h : History) (s : Threads) (tid : Fin maxThreadNum) : Bool :=
  match h.life tid with
  | .born t => s.status t ≠ .zombie
  | .unborn | .ended => false

/-- The number of threads alive. -/
def aliveCount (h : History) (s : Threads) : Nat :=
  (Finset.univ.filter fun tid => h.alive s tid = true).card

/-- A thread can be created while fewer than 64 are alive, and gets a number that no live thread
has; the entry of a cancelled or joined thread is free again; and cancelling it once more fails
without touching anything. -/
structure SlotsKept (h : History) (s : Threads) : Prop where
  create : h.aliveCount s < maxThreadNum → ∀ stack pid, ∃ tid s',
    s.threadCreate stack pid = some (tid, s') ∧ h.alive s tid = false
  released : ∀ tid, h.life tid = .ended → (s.pThreadTbEnt tid).bUsed = false
  cancel : ∀ tid, h.life tid = .ended → s.threadCancel tid = some (some (-1), s)

end History

/-! ## The table -/

/-- Code that leaves the table and the control blocks alone. -/
structure SameBlocks (s s' : Threads) : Prop where
  table : s'.pThreadTbEnt = s.pThreadTbEnt
  allocated : s'.allocated = s.allocated

private theorem SameBlocks.trans {s'' : Threads} (first : SameBlocks s s')
    (second : SameBlocks s' s'') :
    SameBlocks s s'' :=
  ⟨second.table.trans first.table, second.allocated.trans first.allocated⟩

private theorem sameBlocks_setNext {p link : Option Ptr} (run : s.setNext p link = some s') :
    SameBlocks s s' := by
  obtain ⟨next, rfl⟩ := relink_of_setNext run
  exact ⟨rfl, rfl⟩

private theorem sameBlocks_setPrev {p link : Option Ptr} (run : s.setPrev p link = some s') :
    SameBlocks s s' := by
  obtain ⟨prev, rfl⟩ := relink_of_setPrev run
  exact ⟨rfl, rfl⟩

private theorem sameBlocks_leaveHead (run : s.leaveHead q t = some s') : SameBlocks s s' := by
  obtain ⟨head, _, rest⟩ := Option.bind_eq_some_iff.mp run
  split_ifs at rest
  · obtain rfl := Option.some.inj rest
    exact ⟨rfl, rfl⟩
  · obtain rfl := Option.some.inj rest
    exact ⟨rfl, rfl⟩

private theorem sameBlocks_bypass (run : s.bypass t = some s') : SameBlocks s s' := by
  obtain ⟨s₁, set, rest⟩ := Option.bind_eq_some_iff.mp run
  exact (sameBlocks_setNext set).trans (sameBlocks_setPrev rest)

private theorem sameBlocks_unlinkFirst (run : s.unlinkFirst q t = some s') : SameBlocks s s' := by
  obtain ⟨s₁, set, rest⟩ := Option.bind_eq_some_iff.mp run
  obtain rfl := Option.some.inj rest
  exact (sameBlocks_setPrev set).trans ⟨rfl, rfl⟩

private theorem sameBlocks_unlinkLast (run : s.unlinkLast q t = some s') : SameBlocks s s' := by
  obtain ⟨s₁, set, rest⟩ := Option.bind_eq_some_iff.mp run
  obtain rfl := Option.some.inj rest
  exact (sameBlocks_setNext set).trans ⟨rfl, rfl⟩

private theorem sameBlocks_unlink (run : s.unlink q some t = some s') : SameBlocks s s' := by
  rw [unlink] at run
  split at run
  · exact sameBlocks_bypass run
  · exact sameBlocks_unlinkFirst run
  · exact sameBlocks_unlinkLast run
  · obtain rfl := Option.some.inj run
    exact ⟨rfl, rfl⟩

private theorem sameBlocks_cancelFrom (run : s.cancelFrom q t = some s') : SameBlocks s s' := by
  have counted : SameBlocks s (s.countDown q) := ⟨rfl, rfl⟩
  refine counted.trans ?_
  simp only [cancelFrom] at run
  split at run
  · obtain ⟨s₁, left, rest⟩ := Option.bind_eq_some_iff.mp run
    exact (sameBlocks_leaveHead left).trans (sameBlocks_bypass rest)
  · obtain ⟨s₁, left, rest⟩ := Option.bind_eq_some_iff.mp run
    exact (sameBlocks_leaveHead left).trans (sameBlocks_unlinkFirst rest)
  · obtain ⟨head, _, rest⟩ := Option.bind_eq_some_iff.mp run
    split_ifs at rest
    · obtain rfl := Option.some.inj rest
      exact ⟨rfl, rfl⟩
    · exact sameBlocks_unlinkLast rest
  · obtain rfl := Option.some.inj run
    exact ⟨rfl, rfl⟩

/-! ## The ready queue -/

/-- As long as no control block is freed, a thread can be put on `ReadyQueue`. -/
structure Appendable (s : Threads) : Prop where
  live : ∀ t, (s.queue .ready).pTail = some t → s.allocated t = true
  empty : (s.queue .ready).pTail = none →
    (s.queue .ready).queueCount = 0 ∧ (s.queue .ready).pHead = none

namespace Appendable

private theorem congr (appendable : s.Appendable) (queue : s'.queue .ready = s.queue .ready)
    (live : ∀ t, s.allocated t = true → s'.allocated t = true) : s'.Appendable where
  live t tail := live t (appendable.live t (queue ▸ tail))
  empty none := by
    rw [queue] at none ⊢
    exact appendable.empty none

theorem exists_append (appendable : s.Appendable) (live : s.allocated t = true) :
    ∃ s', s.append .ready .ready t = some s' ∧ s'.Appendable := by
  by_cases empty : (s.queue .ready).queueCount = 0
  · refine ⟨_, by simp only [append, empty, if_true]; rfl, ⟨fun t' tail => ?_, fun none => ?_⟩⟩
    · simp only [setQueue, update_self, Option.some.injEq] at tail
      exact tail ▸ live
    · simp [setQueue] at none
  · cases tail : (s.queue .ready).pTail with
    | none => exact absurd (appendable.empty tail).1 empty
    | some a =>
        have set :
            ({ s with pPrev := update s.pPrev t (some a) } : Threads).setNext (some a) (some t) =
              some { s with
                pPrev := update s.pPrev t (some a)
                pNext := update s.pNext a (some t) } :=
          setNext_some (s := { s with pPrev := update s.pPrev t (some a) })
          (appendable.live a tail) _
        refine ⟨_, by simp only [append, if_neg empty, tail, set, Option.bind_eq_bind,
          Option.bind_some]; rfl, ⟨fun t' tail' => ?_, fun none => ?_⟩⟩
        · simp only [setQueue, update_self, Option.some.injEq] at tail'
          exact tail' ▸ live
        · simp [setQueue] at none

private theorem append (appendable : s.Appendable) (live : s.allocated t = true)
    (run : s.append .ready .ready t = some s') : s'.Appendable := by
  obtain ⟨s'', run', kept⟩ := appendable.exists_append live
  rwa [Option.some.inj (run.symm.trans run')]

end Appendable

/-- Code that keeps the table, the control blocks and a usable `ReadyQueue`. -/
def Calm (s s' : Threads) : Prop := SameBlocks s s' ∧ (s.Appendable → s'.Appendable)

private theorem Calm.trans {s'' : Threads} (first : Calm s s') (second : Calm s' s'') :
    Calm s s'' :=
  ⟨first.1.trans second.1, second.2 ∘ first.2⟩

private theorem calm_of_same (table : s'.pThreadTbEnt = s.pThreadTbEnt)
    (allocated : s'.allocated = s.allocated) (queue : s'.queue .ready = s.queue .ready) :
    Calm s s' :=
  ⟨⟨table, allocated⟩, fun appendable => appendable.congr queue fun t => by
    rw [allocated]; exact id⟩

private theorem calm_noThread {pid : Pid} (run : s.noThread pid = some s') : Calm s s' := by
  obtain ⟨p, _, rest⟩ := Option.bind_eq_some_iff.mp run
  rw [← Option.some.inj rest]
  split_ifs
  · exact calm_of_same rfl rfl rfl
  · exact calm_of_same rfl rfl rfl

/-- The head of `ReadyQueue` is followed unless the queue gets empty. -/
theorem calm_dispatch {pid : Pid} (run : s.dispatch pid = some s') : Calm s s' := by
  rw [dispatch] at run
  split_ifs at run with more
  · obtain ⟨head, followed, rest⟩ := Option.bind_eq_some_iff.mp run
    obtain ⟨front, _⟩ := deref_eq_some.mp followed
    have selected := (calm_noThread rest :)
    refine Calm.trans ?_ selected
    refine ⟨⟨rfl, rfl⟩, fun appendable => ⟨fun t tail => appendable.live t tail, fun none => ?_⟩⟩
    have nothing := (appendable.empty none).2
    rw [show (s.queue .ready).pHead = some head from front] at nothing
    cases nothing
  · have selected := (calm_noThread run :)
    refine Calm.trans ?_ selected
    refine ⟨⟨rfl, rfl⟩, fun appendable => ⟨fun t tail => appendable.live t tail, fun none => ?_⟩⟩
    exact ⟨not_not.mp more, (appendable.empty none).2⟩

private theorem calm_contextSwitch {curpid newpid : Pid}
    (run : s.contextSwitch curpid newpid = some s') :
    Calm s s' := by
  rw [contextSwitch] at run
  split_ifs at run
  · exact calm_dispatch run
  · exact calm_noThread run
  · obtain ⟨c, current, rest⟩ := Option.bind_eq_some_iff.mp run
    split_ifs at rest
    · have dispatched := (calm_dispatch rest :)
      refine Calm.trans ?_ dispatched
      exact calm_of_same rfl rfl rfl
    · obtain ⟨s₁, appended, rest⟩ := Option.bind_eq_some_iff.mp rest
      have dispatched := (calm_dispatch rest :)
      have live : (s.setStatus c .ready).allocated c = true := (deref_eq_some.mp current).2
      refine Calm.trans ?_ dispatched
      have marked : Calm s (s.setStatus c .ready) := calm_of_same rfl rfl rfl
      refine marked.trans ⟨?_, fun appendable => appendable.append live appended⟩
      obtain ⟨next, prev, queue, rfl⟩ := relink_of_append appended
      exact ⟨rfl, rfl⟩

theorem calm_timer (run : s.timer = some s') : Calm s s' := by
  cases current : s.pCurrentThread with
  | none =>
      simp only [timer, current] at run
      obtain ⟨head, _, rest⟩ := Option.bind_eq_some_iff.mp run
      exact calm_contextSwitch rest
  | some p =>
      simp only [timer, current] at run
      obtain ⟨p', _, rest⟩ := Option.bind_eq_some_iff.mp run
      have stopped : Calm s (if s.pid p' = 0 then s else s.kill (s.pid p') .stop) := by
        split_ifs
        · exact calm_of_same rfl rfl rfl
        · exact calm_of_same rfl rfl rfl
      refine stopped.trans ?_
      generalize (if s.pid p' = 0 then s else s.kill (s.pid p') .stop) = x at rest
      by_cases ready : 0 < (x.queue .ready).queueCount
      · rw [if_pos ready] at rest
        obtain ⟨head, _, rest⟩ := Option.bind_eq_some_iff.mp rest
        exact calm_contextSwitch rest
      · rw [if_neg ready] at rest
        by_cases empty : (x.queue .ready).queueCount = 0
        · rw [if_pos empty] at rest
          exact calm_contextSwitch rest
        · rw [if_neg empty] at rest
          obtain rfl := Option.some.inj rest
          exact calm_of_same rfl rfl rfl

private theorem calm_threadExit (run : s.threadExit = some s') : Calm s s' := by
  obtain ⟨c, _, rest⟩ := Option.bind_eq_some_iff.mp run
  obtain rfl := Option.some.inj rest
  exact calm_of_same rfl rfl rfl

private theorem calm_appendWaiting (run : s.appendWaiting c = some s') : Calm s s' := by
  have apart : QueueName.ready ≠ .waiting := by decide
  rw [appendWaiting] at run
  split_ifs at run
  · obtain rfl := Option.some.inj run
    exact calm_of_same rfl rfl (by simp [setQueue, apart])
  · obtain ⟨s₁, set, rest⟩ := Option.bind_eq_some_iff.mp run
    obtain ⟨next, rfl⟩ := relink_of_setNext set
    obtain rfl := Option.some.inj rest
    exact calm_of_same rfl rfl (by simp [setQueue, apart])

private theorem calm_threadJoinStart (run : s.threadJoinStart = some (parentTid, s')) :
    Calm s s' := by
  obtain ⟨found, _, rest⟩ := Option.bind_eq_some_iff.mp run
  obtain ⟨c, _, rest⟩ := Option.bind_eq_some_iff.mp rest
  obtain ⟨s₁, appended, rest⟩ := Option.bind_eq_some_iff.mp rest
  refine (calm_appendWaiting appended).trans ?_
  split at rest
  · obtain ⟨t, _, rest⟩ := Option.bind_eq_some_iff.mp rest
    obtain ⟨s₂, set, rest⟩ := Option.bind_eq_some_iff.mp rest
    obtain ⟨_, rfl⟩ := Prod.mk.inj (Option.some.inj rest)
    obtain ⟨s₃, next, prev⟩ := Option.bind_eq_some_iff.mp set
    obtain ⟨next, rfl⟩ := relink_of_setNext next
    obtain ⟨prev, rfl⟩ := relink_of_setPrev prev
    exact calm_of_same rfl rfl rfl
  · obtain ⟨_, rfl⟩ := Prod.mk.inj (Option.some.inj rest)
    exact calm_of_same rfl rfl rfl

/-! ## Calls that end a thread -/

/-- `thread_cancel` fails for an entry that is not in use; otherwise it leaves the table as it
was. -/
theorem threadCancel_cases {r : Option Int} (run : s.threadCancel tid = some (r, s')) :
    (r = some (-1) ∧ s' = s ∧ (s.pThreadTbEnt tid).bUsed = false) ∨
      (r = none ∧ (s.pThreadTbEnt tid).bUsed = true ∧ s'.pThreadTbEnt = s.pThreadTbEnt) := by
  rw [threadCancel] at run
  split_ifs at run with used
  · obtain ⟨rfl, rfl⟩ := Prod.mk.inj (Option.some.inj run)
    exact .inl ⟨rfl, rfl, used⟩
  · refine .inr ?_
    have inUse : (s.pThreadTbEnt tid).bUsed = true := by simpa using used
    obtain ⟨t, _, rest⟩ := Option.bind_eq_some_iff.mp run
    have killed : SameBlocks s (s.kill (s.pid t) .kill) := ⟨rfl, rfl⟩
    generalize s.kill (s.pid t) .kill = x at rest killed
    dsimp only at rest
    split_ifs at rest
    · obtain ⟨s₁, left, rest⟩ := Option.bind_eq_some_iff.mp rest
      obtain ⟨rfl, rfl⟩ := Prod.mk.inj (Option.some.inj rest)
      exact ⟨rfl, inUse, (sameBlocks_cancelFrom left).table.trans killed.table⟩
    · obtain ⟨s₁, left, rest⟩ := Option.bind_eq_some_iff.mp rest
      obtain ⟨rfl, rfl⟩ := Prod.mk.inj (Option.some.inj rest)
      exact ⟨rfl, inUse, (sameBlocks_cancelFrom left).table.trans killed.table⟩
    · obtain ⟨rfl, rfl⟩ := Prod.mk.inj (Option.some.inj rest)
      exact ⟨rfl, inUse, killed.table⟩

private theorem sameBlocks_appendReady (run : s.appendReady t = some s') : SameBlocks s s' := by
  rw [appendReady] at run
  split_ifs at run
  · obtain rfl := Option.some.inj run
    exact ⟨rfl, rfl⟩
  · dsimp only at run
    split_ifs at run
    · obtain rfl := Option.some.inj run
      exact ⟨rfl, rfl⟩
    · obtain ⟨s₁, set, rest⟩ := Option.bind_eq_some_iff.mp run
      obtain ⟨next, rfl⟩ := relink_of_setNext set
      obtain rfl := Option.some.inj rest
      exact ⟨rfl, rfl⟩

/-- `thread_join` clears `pThread` of the joined thread and nothing else in the table. -/
theorem table_threadJoinEnd {r : Int} (run : s.threadJoinEnd parentTid tid = some (r, s')) :
    s'.pThreadTbEnt =
      update s.pThreadTbEnt tid { s.pThreadTbEnt tid with pThread := none } := by
  obtain ⟨t, _, rest⟩ := Option.bind_eq_some_iff.mp run
  obtain ⟨s₁, left, rest⟩ := Option.bind_eq_some_iff.mp rest
  obtain ⟨s₂, entered, rest⟩ := Option.bind_eq_some_iff.mp rest
  obtain ⟨joined, _, rest⟩ := Option.bind_eq_some_iff.mp rest
  obtain ⟨_, rfl⟩ := Prod.mk.inj (Option.some.inj rest)
  have same : s₂.pThreadTbEnt = s.pThreadTbEnt :=
    (sameBlocks_appendReady entered).table.trans (sameBlocks_unlink left).table
  simp only [kill, same]

/-! ## Sessions keep the table in step -/

/-- The entries in use are those of the numbers that were given, and `ReadyQueue` can be used as
long as no thread has been ended. -/
structure History.InStep (h : History) (s : Threads) : Prop where
  used : ∀ tid, (s.pThreadTbEnt tid).bUsed = true ↔ h.life tid ≠ .unborn
  null : ∀ tid, h.life tid = .unborn → (s.pThreadTbEnt tid).pThread = none
  appendable : (∀ tid, h.life tid ≠ .ended) → s.Appendable

private theorem Initial.inStep (initial : s.Initial)
    (null : ∀ tid, (s.pThreadTbEnt tid).pThread = none) :
    History.InStep ⟨fun _ => .unborn, []⟩ s := by
  obtain ⟨s₀, _, _, _, rfl⟩ := initial
  refine ⟨fun tid => by simp [init], fun tid _ => null tid, fun _ =>
    ⟨fun t tail => ?_, fun _ => ?_⟩⟩
  · simp [init] at tail
  · simp [init]

namespace History.InStep

variable {h : History} (inStep : h.InStep s)
include inStep

private theorem calm (calm : Calm s s') : h.InStep s' where
  used tid := by rw [calm.1.table, inStep.used]
  null tid unborn := by rw [calm.1.table, inStep.null tid unborn]
  appendable none := calm.2 (inStep.appendable none)

/-- A new thread takes the entry of a number that was not given yet. -/
theorem create {stack : Ptr} {pid : Pid} (run : s.threadCreate stack pid = some (tid, s')) :
    h.life tid = .unborn ∧ InStep { h with life := update h.life tid (.born stack) } s' := by
  rw [threadCreate_eq] at run
  obtain ⟨tid', found, rest⟩ := Option.bind_eq_some_iff.mp run
  obtain ⟨s'', appended, same⟩ := Option.map_eq_some_iff.mp rest
  obtain ⟨rfl, rfl⟩ := Prod.mk.inj same
  have unused : (s.pThreadTbEnt tid').bUsed = false := by simpa using List.find?_some found
  have unborn : h.life tid' = .unborn := by
    by_contra given
    rw [(inStep.used tid').mpr given] at unused
    cases unused
  obtain ⟨next, prev, queue, equal⟩ := relink_of_append appended
  refine ⟨unborn, fun tid => ?_, fun tid still => ?_, fun none => ?_⟩
  · rw [equal]
    by_cases here : tid = tid'
    · simp [here]
    · simpa [here] using inStep.used tid
  · rw [equal]
    by_cases here : tid = tid'
    · simp [here] at still
    · simpa [here] using inStep.null tid (by simpa [here] using still)
  · have before : (s.born stack pid tid').Appendable := by
      refine (inStep.appendable fun tid ended => ?_).congr rfl fun t live => ?_
      · by_cases here : tid = tid'
        · rw [here, unborn] at ended
          cases ended
        · exact none tid ((update_of_ne here (Life.born stack) h.life).trans ended)
      · by_cases same : t = stack
        · simp [same]
        · simpa [same] using live
    have live : (s.born stack pid tid').allocated stack = true := update_self _ _ _
    exact before.append live appended

/-- Once a thread has been ended, nothing is claimed about `ReadyQueue`. -/
theorem ended (given : h.life tid ≠ .unborn)
    (used : (s'.pThreadTbEnt tid).bUsed = (s.pThreadTbEnt tid).bUsed)
    (others : ∀ tid', tid' ≠ tid → s'.pThreadTbEnt tid' = s.pThreadTbEnt tid')
    {joins : List (Fin maxThreadNum × Fin maxThreadNum)} :
    InStep ⟨update h.life tid .ended, joins⟩ s' where
  used tid' := by
    by_cases here : tid' = tid
    · rw [here, used, inStep.used]
      simpa using given
    · rw [others tid' here, inStep.used]
      simp [here]
  null tid' unborn := by
    by_cases here : tid' = tid
    · simp [here] at unborn
    · rw [others tid' here]
      exact inStep.null tid' (by simpa [here] using unborn)
  appendable none := absurd (update_self tid Life.ended h.life) (none tid)

end History.InStep

private theorem Session.inStep {h : History} (session : Session h s) : h.InStep s := by
  induction session with
  | start initial null => exact initial.inStep null
  | create _ _ run inStep => exact (inStep.create run).2
  | refused _ run inStep =>
      rcases threadCancel_cases run with ⟨_, rfl, _⟩ | ⟨failed, _⟩
      · exact inStep
      · cases failed
  | cancel _ run inStep =>
      rcases threadCancel_cases run with ⟨failed, _⟩ | ⟨_, used, table⟩
      · cases failed
      · exact inStep.ended ((inStep.used _).mp used) (by rw [table]) fun _ _ => by rw [table]
  | exit _ run inStep => exact inStep.calm (calm_threadExit run)
  | joinStart tid _ run inStep =>
      have kept := inStep.calm (calm_threadJoinStart run)
      exact ⟨kept.used, kept.null, kept.appendable⟩
  | joinEnd _ _ found _ run inStep =>
      have table := table_threadJoinEnd run
      refine inStep.ended (fun unborn => ?_) (by simp [table]) fun tid' other => by
        rw [table, update_of_ne other]
      rw [thread, inStep.null _ unborn] at found
      cases found
  | tick _ run inStep => exact inStep.calm (calm_timer run)

/-! ## When the slots are kept -/

/-- In every session: a thread can be created, the entries of ended threads are free and cancelling
these threads fails, exactly when no thread has been cancelled or joined and, if fewer than 64
threads are alive, some entry is not in use. -/
theorem slotsKept_iff {h : History} (session : Session h s) : h.SlotsKept s ↔
    (∀ tid, h.life tid ≠ .ended) ∧
      (h.aliveCount s < maxThreadNum → ∃ tid, (s.pThreadTbEnt tid).bUsed = false) := by
  have inStep := session.inStep
  constructor
  · intro kept
    refine ⟨fun tid ended => ?_, fun few => ?_⟩
    · have unused := kept.released tid ended
      rw [(inStep.used tid).mpr (by rw [ended]; decide)] at unused
      cases unused
    · obtain ⟨tid, s', run, _⟩ := kept.create few 0 0
      rw [threadCreate_eq] at run
      obtain ⟨tid', found, _⟩ := Option.bind_eq_some_iff.mp run
      exact ⟨tid', by simpa using List.find?_some found⟩
  · rintro ⟨none, room⟩
    refine ⟨fun few stack pid => ?_, fun tid ended => absurd ended (none tid),
      fun tid ended => absurd ended (none tid)⟩
    obtain ⟨tid', unused⟩ := room few
    obtain ⟨tid, found⟩ : ∃ tid, s.unusedTid = some tid :=
      Option.isSome_iff_exists.mp (List.find?_isSome.mpr ⟨tid', List.mem_finRange _, by
        simp [unused]⟩)
    have before : (s.born stack pid tid).Appendable :=
      (inStep.appendable none).congr rfl fun t live => by
        by_cases same : t = stack
        · simp [same]
        · simpa [same] using live
    have live : (s.born stack pid tid).allocated stack = true := update_self _ _ _
    obtain ⟨s', appended, _⟩ := before.exists_append live
    have run : s.threadCreate stack pid = some (tid, s') := by
      rw [threadCreate_eq, found, Option.bind_some, appended]
      rfl
    refine ⟨tid, s', run, ?_⟩
    rw [History.alive, (inStep.create run).1]

/-- One thread. -/
def oneThread : Threads := ((Call.create 1 11).exec blank.init).getD blank

private theorem zero_lt_slots : 0 < 64 := Nat.succ_pos 63

/-- The history of one thread. -/
def oneHistory : History := ⟨update (fun _ => .unborn) ⟨0, zero_lt_slots⟩ (.born 1), []⟩

private theorem session_oneThread : Session oneHistory oneThread :=
  .create (.start initial_blank fun _ => rfl)
    ⟨rfl, by decide, fun _ live => Bool.noConfusion live⟩ rfl

/-- The memory after that thread was cancelled. -/
def cancelledThread : Threads := ((Call.cancel ⟨0, zero_lt_slots⟩).exec oneThread).getD blank

/-- The history of a cancelled thread. -/
def cancelledHistory : History :=
  { oneHistory with life := update oneHistory.life ⟨0, zero_lt_slots⟩ .ended }

private theorem session_cancelledThread : Session cancelledHistory cancelledThread :=
  .cancel session_oneThread rfl

/-- One thread keeps the slots, until it is cancelled. -/
theorem slotsKept_iff_cancelled : oneHistory.SlotsKept oneThread ∧
    ¬ cancelledHistory.SlotsKept cancelledThread := by
  constructor
  · exact (slotsKept_iff session_oneThread).mpr ⟨by decide, fun _ => ⟨1, rfl⟩⟩
  · intro kept
    exact ((slotsKept_iff session_cancelledThread).mp kept).1 ⟨0, zero_lt_slots⟩ rfl

/-- A cancelled thread keeps its entry, and cancelling it again follows its freed control block. -/
theorem not_slotsKept_of_cancel : ∃ h, Session h cancelledThread ∧
    h.life ⟨0, zero_lt_slots⟩ = .ended ∧
    (cancelledThread.pThreadTbEnt ⟨0, zero_lt_slots⟩).bUsed = true ∧
    cancelledThread.threadCancel ⟨0, zero_lt_slots⟩ = none :=
  ⟨_, session_cancelledThread, rfl, rfl, rfl⟩

end KwHomework.Threads
