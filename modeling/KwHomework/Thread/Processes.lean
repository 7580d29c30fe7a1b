import KwHomework.Thread.Slots
import KwHomework.Thread.Statements

/-!
# Which processes run

`Activity` allows every call of the library with any arguments, also those that spoil the queues.
Even so no two threads run at a time, apart from those that are inside `thread_join`: only a tick
sends `SIGCONT`, to the thread that it makes current, and it stops the one that was current.
-/

namespace KwHomework.Threads

open Function

variable {s s' s'' x : Threads} {q back : QueueName} {t c : Ptr} {pid : Pid}
  {joining : List Ptr}

/-- A state that calls lead to, and the threads that are inside `thread_join`.  A new process has a
pid that no signal was sent to. -/
inductive Activity : List Ptr → Threads → Prop
  | start {s : Threads} : s.Initial → Activity [] s
  | create {joining : List Ptr} {s s' : Threads} {stack : Ptr} {pid : Pid}
    {tid : Fin maxThreadNum} :
      Activity joining s → s.Fresh stack pid → (∀ sig, (pid, sig) ∉ s.signals) →
      s.threadCreate stack pid = some (tid, s') → Activity joining s'
  | call {joining : List Ptr} {s s' : Threads} (call : Call) : Activity joining s →
      (∀ stack pid, call ≠ .create stack pid) → call.exec s = some s' → Activity joining s'
  | joinStart {joining : List Ptr} {s s' : Threads} {parentTid : Fin maxThreadNum} {c : Ptr} :
      Activity joining s → s.pCurrentThread = some c → s.threadJoinStart = some (parentTid, s') →
      Activity (c :: joining) s'
  | joinEnd {joining : List Ptr} {s s' : Threads} {parentTid tid : Fin maxThreadNum} {t : Ptr}
      {r : Int} : Activity joining s → s.thread parentTid = some t → t ∈ joining →
      s.threadJoinEnd parentTid tid = some (r, s') → Activity (joining.erase t) s'

/-! ## Code that changes links and queues only -/

/-- Only links and queues differ. -/
def Relinked (s s' : Threads) : Prop :=
  ∃ next prev queue, s' = { s with pNext := next, pPrev := prev, queue := queue }

namespace Relinked

theorem refl (s : Threads) : Relinked s s := ⟨s.pNext, s.pPrev, s.queue, rfl⟩

private theorem trans (first : Relinked s s') (second : Relinked s' s'') : Relinked s s'' := by
  obtain ⟨_, _, _, rfl⟩ := first
  obtain ⟨next, prev, queue, rfl⟩ := second
  exact ⟨next, prev, queue, rfl⟩

private theorem setNext {p link : Option Ptr} (run : s.setNext p link = some s') :
    Relinked s s' := by
  obtain ⟨next, rfl⟩ := relink_of_setNext run
  exact ⟨next, s.pPrev, s.queue, rfl⟩

private theorem setPrev {p link : Option Ptr} (run : s.setPrev p link = some s') :
    Relinked s s' := by
  obtain ⟨prev, rfl⟩ := relink_of_setPrev run
  exact ⟨s.pNext, prev, s.queue, rfl⟩

private theorem setQueue (change : ThreadQueue → ThreadQueue) : Relinked s (s.setQueue q change) :=
  ⟨s.pNext, s.pPrev, _, rfl⟩

theorem append (run : s.append q back t = some s') : Relinked s s' := by
  obtain ⟨next, prev, queue, rfl⟩ := relink_of_append run
  exact ⟨next, prev, _, rfl⟩

private theorem leaveHead (run : s.leaveHead q t = some s') : Relinked s s' := by
  obtain ⟨head, _, rest⟩ := Option.bind_eq_some_iff.mp run
  split_ifs at rest
  · obtain rfl := Option.some.inj rest
    exact setQueue _
  · obtain rfl := Option.some.inj rest
    exact refl s

private theorem bypass (run : s.bypass t = some s') : Relinked s s' := by
  obtain ⟨s₁, set, rest⟩ := Option.bind_eq_some_iff.mp run
  exact (setNext set).trans (setPrev rest)

private theorem unlinkFirst (run : s.unlinkFirst q t = some s') : Relinked s s' := by
  obtain ⟨s₁, set, rest⟩ := Option.bind_eq_some_iff.mp run
  obtain rfl := Option.some.inj rest
  exact (setPrev set).trans (setQueue _)

private theorem unlinkLast (run : s.unlinkLast q t = some s') : Relinked s s' := by
  obtain ⟨s₁, set, rest⟩ := Option.bind_eq_some_iff.mp run
  obtain rfl := Option.some.inj rest
  exact (setNext set).trans (setQueue _)

theorem unlink {between : Threads → Option Threads}
    (moves : ∀ s', between s = some s' → Relinked s s') (run : s.unlink q between t = some s') :
    Relinked s s' := by
  rw [Threads.unlink] at run
  split at run
  · obtain ⟨s₁, moved, rest⟩ := Option.bind_eq_some_iff.mp run
    exact (moves s₁ moved).trans (bypass rest)
  · exact unlinkFirst run
  · exact unlinkLast run
  · obtain rfl := Option.some.inj run
    exact refl s

private theorem countDown (s : Threads) (q : QueueName) : Relinked s (s.countDown q) := setQueue _

private theorem cancelFrom (run : s.cancelFrom q t = some s') : Relinked s s' := by
  apply (countDown s q).trans
  simp only [Threads.cancelFrom] at run
  split at run
  · obtain ⟨s₁, left, rest⟩ := Option.bind_eq_some_iff.mp run
    exact (leaveHead left).trans (bypass rest)
  · obtain ⟨s₁, left, rest⟩ := Option.bind_eq_some_iff.mp run
    exact (leaveHead left).trans (unlinkFirst rest)
  · obtain ⟨head, _, rest⟩ := Option.bind_eq_some_iff.mp run
    split_ifs at rest
    · obtain rfl := Option.some.inj rest
      exact setQueue _
    · exact unlinkLast rest
  · obtain rfl := Option.some.inj run
    exact refl _

private theorem appendWaiting (run : s.appendWaiting c = some s') : Relinked s s' := by
  rw [Threads.appendWaiting] at run
  split_ifs at run
  · obtain rfl := Option.some.inj run
    exact ⟨_, _, _, rfl⟩
  · obtain ⟨s₁, set, rest⟩ := Option.bind_eq_some_iff.mp run
    obtain ⟨next, rfl⟩ := relink_of_setNext set
    obtain rfl := Option.some.inj rest
    exact ⟨_, _, _, rfl⟩

private theorem appendReady (run : s.appendReady t = some s') :
    Relinked (s.setStatus t .ready) s' := by
  rw [Threads.appendReady] at run
  split_ifs at run
  · obtain rfl := Option.some.inj run
    exact ⟨_, _, _, rfl⟩
  · dsimp only at run
    split_ifs at run
    · obtain rfl := Option.some.inj run
      exact ⟨_, _, _, rfl⟩
    · obtain ⟨s₁, set, rest⟩ := Option.bind_eq_some_iff.mp run
      obtain ⟨next, rfl⟩ := relink_of_setNext set
      obtain rfl := Option.some.inj rest
      exact ⟨_, _, _, rfl⟩

end Relinked

/-! ## Code that continues no process -/

/-- The last signal counts unless an earlier one has killed the process. -/
theorem running_of_signals {sent : List (Pid × Signal)} {sig : Signal}
    (signals : s.signals = sent ++ [(pid, sig)]) :
    s.running pid = decide (sig = .cont ∧ (pid, .kill) ∉ sent) := by
  rw [running, signals, List.filter_append, List.filter_singleton]
  cases sig <;> simp

private theorem not_running_of_signals {sent : List (Pid × Signal)} {sig : Signal}
    (signals : s.signals = sent ++ [(pid, sig)]) (stops : sig ≠ .cont) :
    s.running pid = false := by
  rw [running_of_signals signals, decide_eq_false_iff_not]
  exact fun both => stops both.1

/-- Signals to other processes do not count. -/
theorem running_of_unsent {sent : List (Pid × Signal)} (signals : s'.signals = s.signals ++ sent)
    (others : ∀ sig, (pid, sig) ∉ sent) : s'.running pid = s.running pid := by
  have none : sent.filter (fun sent => sent.1 = pid) = [] := by
    apply List.filter_eq_nil_iff.mpr
    rintro ⟨pid', sig⟩ member same
    obtain rfl : pid' = pid := by simpa using same
    exact others sig member
  simp only [running, signals, List.filter_append, none, List.append_nil, List.mem_append,
    others .kill, or_false]

/-- No process is continued, no thread appears, and none gets CPU time. -/
structure Quiet (s s' : Threads) : Prop where
  live : ∀ p, s'.allocated p = true → s.allocated p = true
  pid : s'.pid = s.pid
  current : s'.pCurrentThread = s.pCurrentThread
  cpuTime : s'.cpuTime = s.cpuTime
  sent : ∃ sent, s'.signals = s.signals ++ sent ∧ ∀ pid, (pid, Signal.cont) ∉ sent

private theorem Relinked.quiet (relinked : Relinked s s') : Quiet s s' := by
  obtain ⟨_, _, _, rfl⟩ := relinked
  exact ⟨fun _ live => live, rfl, rfl, rfl, [], (List.append_nil _).symm, by simp⟩

namespace Quiet

private theorem trans (first : Quiet s s') (second : Quiet s' s'') : Quiet s s'' where
  live p here := first.live p (second.live p here)
  pid := second.pid.trans first.pid
  current := second.current.trans first.current
  cpuTime := second.cpuTime.trans first.cpuTime
  sent := by
    obtain ⟨sent, signals, stops⟩ := first.sent
    obtain ⟨sent', signals', stops'⟩ := second.sent
    refine ⟨sent ++ sent', by rw [signals', signals, List.append_assoc], fun pid member => ?_⟩
    rcases List.mem_append.mp member with early | late
    · exact stops pid early
    · exact stops' pid late

private theorem setStatus (s : Threads) (t : Ptr) (status : ThreadStatus) :
    Quiet s (s.setStatus t status) :=
  ⟨fun _ live => live, rfl, rfl, rfl, [], (List.append_nil _).symm, by simp⟩

private theorem kill (s : Threads) (pid : Pid) {sig : Signal} (stops : sig ≠ .cont) :
    Quiet s (s.kill pid sig) :=
  ⟨fun _ live => live, rfl, rfl, rfl, [(pid, sig)], rfl, by simp [stops.symm]⟩

theorem running (quiet : Quiet s s') (runs : s'.running pid = true) : s.running pid = true := by
  obtain ⟨sent, signals, stops⟩ := quiet.sent
  rw [Threads.running, decide_eq_true_eq] at runs ⊢
  obtain ⟨alive, continued⟩ := runs
  rw [signals] at alive continued
  refine ⟨fun killed => alive (List.mem_append_left sent killed), ?_⟩
  rw [List.filter_append, List.getLast?_append] at continued
  cases last : (sent.filter fun sent => sent.1 = pid).getLast? with
  | none =>
      rw [last] at continued
      exact continued
  | some sig =>
      -- the last signal to the process would be among those that the code sent
      obtain ⟨sentTo, value⟩ := sig
      obtain ⟨inside, same⟩ := List.mem_filter.mp (List.mem_of_getLast? last)
      obtain rfl : sentTo = pid := by simpa using same
      obtain rfl : value = .cont := by simpa [last] using continued
      exact absurd inside (stops sentTo)

/-- The process is not continued. -/
theorem count_cont (quiet : Quiet s s') :
    s'.signals.count (pid, .cont) = s.signals.count (pid, .cont) := by
  obtain ⟨sent, signals, stops⟩ := quiet.sent
  rw [signals, List.count_append, List.count_eq_zero_of_not_mem (stops pid), Nat.add_zero]

private theorem threadSuspend {tid : Fin maxThreadNum} {r : Int}
    (run : s.threadSuspend tid = some (r, s')) :
    Quiet s s' := by
  obtain ⟨t, _, rest⟩ := Option.bind_eq_some_iff.mp run
  split_ifs at rest
  · obtain ⟨_, rfl⟩ := Prod.mk.inj (Option.some.inj rest)
    exact (Relinked.refl s).quiet
  · obtain ⟨s₁, unlinked, rest⟩ := Option.bind_eq_some_iff.mp rest
    obtain ⟨s₂, appended, rest⟩ := Option.bind_eq_some_iff.mp rest
    obtain ⟨_, rfl⟩ := Prod.mk.inj (Option.some.inj rest)
    have left := Relinked.unlink (fun _ moved => Relinked.leaveHead moved) unlinked
    have moved := (left.trans (Relinked.countDown s₁ .ready)).trans (Relinked.append appended)
    exact moved.quiet.trans (setStatus s₂ t .wait)

private theorem threadResume {tid : Fin maxThreadNum} {r : Int}
    (run : s.threadResume tid = some (r, s')) :
    Quiet s s' := by
  obtain ⟨t, _, rest⟩ := Option.bind_eq_some_iff.mp run
  split_ifs at rest
  · obtain ⟨_, rfl⟩ := Prod.mk.inj (Option.some.inj rest)
    exact (Relinked.refl s).quiet
  · obtain ⟨s₁, unlinked, rest⟩ := Option.bind_eq_some_iff.mp rest
    obtain ⟨s₂, appended, rest⟩ := Option.bind_eq_some_iff.mp rest
    obtain ⟨_, rfl⟩ := Prod.mk.inj (Option.some.inj rest)
    have left := Relinked.unlink (fun _ same => Option.some.inj same ▸ Relinked.refl s) unlinked
    have counted := left.trans (Relinked.countDown s₁ .waiting)
    exact counted.quiet.trans ((setStatus _ t .ready).trans (Relinked.append appended).quiet)

private theorem threadCancel {tid : Fin maxThreadNum} {r : Option Int}
    (run : s.threadCancel tid = some (r, s')) : Quiet s s' := by
  rw [Threads.threadCancel] at run
  split_ifs at run
  · obtain ⟨_, rfl⟩ := Prod.mk.inj (Option.some.inj run)
    exact (Relinked.refl s).quiet
  · obtain ⟨t, _, rest⟩ := Option.bind_eq_some_iff.mp run
    have killed := kill s (s.pid t) (show Signal.kill ≠ .cont by decide)
    generalize s.kill (s.pid t) .kill = x at rest killed
    have freed : ∀ y : Threads, Quiet y { y with allocated := update y.allocated t false } := by
      refine fun y => ⟨fun p live => ?_, rfl, rfl, rfl, [], (List.append_nil _).symm, by simp⟩
      by_cases same : p = t
      · simp [same] at live
      · exact (update_of_ne same _ _).symm.trans live
    dsimp only at rest
    split_ifs at rest
    · obtain ⟨s₁, left, rest⟩ := Option.bind_eq_some_iff.mp rest
      obtain ⟨_, rfl⟩ := Prod.mk.inj (Option.some.inj rest)
      exact killed.trans ((Relinked.cancelFrom left).quiet.trans (freed s₁))
    · obtain ⟨s₁, left, rest⟩ := Option.bind_eq_some_iff.mp rest
      obtain ⟨_, rfl⟩ := Prod.mk.inj (Option.some.inj rest)
      exact killed.trans ((Relinked.cancelFrom left).quiet.trans (freed s₁))
    · obtain ⟨_, rfl⟩ := Prod.mk.inj (Option.some.inj rest)
      exact killed.trans (freed x)

private theorem threadExit (run : s.threadExit = some s') : Quiet s s' := by
  obtain ⟨c, _, rest⟩ := Option.bind_eq_some_iff.mp run
  obtain rfl := Option.some.inj rest
  exact setStatus s c .zombie

private theorem semWaitStart {semid : Fin maxSemaphoreNum} (run : s.semWaitStart semid = some s') :
    Quiet s s' := by
  obtain ⟨tid, _, rest⟩ := Option.bind_eq_some_iff.mp run
  split_ifs at rest
  · obtain ⟨t, _, rest⟩ := Option.bind_eq_some_iff.mp rest
    obtain ⟨s₁, appended, rest⟩ := Option.bind_eq_some_iff.mp rest
    obtain rfl := Option.some.inj rest
    exact (Relinked.append appended).quiet.trans
      ((setStatus s₁ t .wait).trans (kill _ _ (by decide)))
  · obtain rfl := Option.some.inj rest
    exact ⟨fun _ live => live, rfl, rfl, rfl, [], (List.append_nil _).symm, by simp⟩

private theorem threadSemPost {semid : Fin maxSemaphoreNum}
    (run : s.threadSemPost semid = some s') :
    Quiet s s' := by
  have counted : ∀ n, Quiet s { s with count := n } := fun n =>
    ⟨fun _ live => live, rfl, rfl, rfl, [], (List.append_nil _).symm, by simp⟩
  rw [Threads.threadSemPost] at run
  split_ifs at run
  · obtain rfl := Option.some.inj run
    exact counted _
  · obtain ⟨tid, _, rest⟩ := Option.bind_eq_some_iff.mp run
    obtain ⟨t, _, rest⟩ := Option.bind_eq_some_iff.mp rest
    obtain ⟨s₁, unlinked, appended⟩ := Option.bind_eq_some_iff.mp rest
    have left := Relinked.unlink (fun _ same => Option.some.inj same ▸ Relinked.refl _) unlinked
    have waiting := left.trans (Relinked.countDown s₁ (.semaphore semid))
    have woken := (setStatus _ t .ready).trans (Relinked.append appended).quiet
    exact (counted _).trans (waiting.quiet.trans woken)

private theorem threadJoinStart {parentTid : Fin maxThreadNum}
    (run : s.threadJoinStart = some (parentTid, s')) :
    ∃ s₁ current, Quiet s s₁ ∧ s' = { s₁ with pCurrentThread := current } := by
  obtain ⟨found, _, rest⟩ := Option.bind_eq_some_iff.mp run
  obtain ⟨c, _, rest⟩ := Option.bind_eq_some_iff.mp rest
  obtain ⟨s₁, appended, rest⟩ := Option.bind_eq_some_iff.mp rest
  have waits := Relinked.appendWaiting appended
  split at rest
  · obtain ⟨t, _, rest⟩ := Option.bind_eq_some_iff.mp rest
    obtain ⟨s₂, passed, rest⟩ := Option.bind_eq_some_iff.mp rest
    obtain ⟨_, rfl⟩ := Prod.mk.inj (Option.some.inj rest)
    exact ⟨s₂, _, (waits.trans (Relinked.bypass passed)).quiet, rfl⟩
  · obtain ⟨_, rfl⟩ := Prod.mk.inj (Option.some.inj rest)
    exact ⟨s₁, none, waits.quiet, rfl⟩

theorem threadJoinEnd {parentTid tid : Fin maxThreadNum} {r : Int}
    (found : s.thread parentTid = some t) (run : s.threadJoinEnd parentTid tid = some (r, s')) :
    Quiet s s' ∧ s'.running (s'.pid t) = false := by
  obtain ⟨t', found', rest⟩ := Option.bind_eq_some_iff.mp run
  obtain rfl := Option.some.inj (found'.symm.trans found)
  obtain ⟨s₁, unlinked, rest⟩ := Option.bind_eq_some_iff.mp rest
  obtain ⟨s₂, appended, rest⟩ := Option.bind_eq_some_iff.mp rest
  obtain ⟨joined, _, rest⟩ := Option.bind_eq_some_iff.mp rest
  obtain ⟨_, rfl⟩ := Prod.mk.inj (Option.some.inj rest)
  have left := Relinked.unlink (fun _ same => Option.some.inj same ▸ Relinked.refl _) unlinked
  have waiting := left.trans (Relinked.countDown s₁ .waiting)
  have entered := Relinked.appendReady appended
  constructor
  · have moved := waiting.quiet.trans ((setStatus _ t' .ready).trans entered.quiet)
    refine (moved.trans (kill s₂ (s₂.pid t') (show Signal.stop ≠ .cont by decide))).trans
      ⟨fun p live => ?_, rfl, rfl, rfl, [], (List.append_nil _).symm, by simp⟩
    by_cases same : p = joined
    · simp [same] at live
    · exact (update_of_ne same _ _).symm.trans live
  · exact not_running_of_signals rfl (by decide)

end Quiet

/-! ## Ticks -/

/-- The thread `c` gets a time slice, and its process is continued under the pid `newpid`. -/
structure Selected (s s' : Threads) (c : Ptr) (newpid : Pid) : Prop where
  live : s.allocated c = true
  current : s'.pCurrentThread = some c
  allocated : s'.allocated = s.allocated
  pid : s'.pid = update s.pid c newpid
  cpuTime : s'.cpuTime = update s.cpuTime c (s.cpuTime c + timeslice)
  signals : s'.signals = s.signals ++ [(newpid, .cont)]

private theorem selected_noThread (current : s.pCurrentThread = some c)
    (run : s.noThread pid = some s') :
    Selected s s' c pid := by
  obtain ⟨c', followed, rest⟩ := Option.bind_eq_some_iff.mp run
  obtain ⟨here, live⟩ := deref_eq_some.mp followed
  obtain rfl := Option.some.inj (current.symm.trans here)
  obtain rfl := Option.some.inj rest
  split_ifs
  · exact ⟨live, current, rfl, rfl, rfl, rfl⟩
  · exact ⟨live, current, rfl, rfl, rfl, rfl⟩

private theorem selected_dispatch (head : (s.queue .ready).pHead = some c)
    (run : s.dispatch pid = some s') :
    Selected s s' c pid := by
  rw [dispatch] at run
  split_ifs at run
  · obtain ⟨_, _, rest⟩ := Option.bind_eq_some_iff.mp run
    have selected := (selected_noThread head rest :)
    exact ⟨selected.live, selected.current, selected.allocated, selected.pid, selected.cpuTime,
      selected.signals⟩
  · have selected := (selected_noThread head run :)
    exact ⟨selected.live, selected.current, selected.allocated, selected.pid, selected.cpuTime,
      selected.signals⟩

/-- A tick gives a time slice to `c`, continues its process, and first sends the signals
`before`. -/
structure Ticked (s s' : Threads) (c : Ptr) (before : List (Pid × Signal)) : Prop where
  live : s.allocated c = true
  current : s'.pCurrentThread = some c
  allocated : s'.allocated = s.allocated
  pid : s'.pid = s.pid
  cpuTime : s'.cpuTime = update s.cpuTime c (s.cpuTime c + timeslice)
  signals : s'.signals = s.signals ++ (before ++ [(s.pid c, .cont)])
  /-- The thread that was current is stopped or killed. -/
  stops : ∀ b, s.pCurrentThread = some b → ∃ early sig, before = early ++ [(s.pid b, sig)]
  quiet : ∀ pid, (pid, Signal.cont) ∉ before

/-- Code that sends these signals, before a thread is selected. -/
structure Sends (s s' : Threads) (sent : List (Pid × Signal)) : Prop where
  allocated : s'.allocated = s.allocated
  pid : s'.pid = s.pid
  cpuTime : s'.cpuTime = s.cpuTime
  signals : s'.signals = s.signals ++ sent

private theorem Selected.ticked {before : List (Pid × Signal)} (sends : Sends s x before)
    (selected : Selected x s' c (s.pid c))
    (stops : ∀ b, s.pCurrentThread = some b → ∃ early sig, before = early ++ [(s.pid b, sig)])
    (quiet : ∀ pid, (pid, Signal.cont) ∉ before) : Ticked s s' c before where
  live := by
    rw [← sends.allocated]
    exact selected.live
  current := selected.current
  allocated := selected.allocated.trans sends.allocated
  pid := by rw [selected.pid, sends.pid, update_eq_self]
  cpuTime := by rw [selected.cpuTime, sends.cpuTime]
  signals := by rw [selected.signals, sends.signals, List.append_assoc]
  stops := stops
  quiet := quiet

/-- A queue that is not empty keeps its head. -/
theorem pHead_append (ready : (s.queue q).queueCount ≠ 0) (run : s.append q back t = some s') :
    (s'.queue q).pHead = (s.queue q).pHead := by
  rw [append, if_neg ready] at run
  obtain ⟨s₁, set, rest⟩ := Option.bind_eq_some_iff.mp run
  obtain ⟨next, rfl⟩ := relink_of_setNext set
  obtain rfl := Option.some.inj rest
  simp [setQueue]

theorem selected_contextSwitch {curpid newpid : Pid} (current : s.pCurrentThread = some c)
    (busy : curpid ≠ 0) (other : newpid ≠ 0) (ready : (s.queue .ready).queueCount ≠ 0)
    (head : (s.queue .ready).pHead = some t) (run : s.contextSwitch curpid newpid = some s') :
    ∃ x, Selected x s' t newpid ∧ (Sends s x [] ∨ Sends s x [(curpid, .kill)]) := by
  rw [contextSwitch, if_neg busy, if_neg other] at run
  obtain ⟨c', followed, rest⟩ := Option.bind_eq_some_iff.mp run
  obtain rfl := Option.some.inj (current.symm.trans (deref_eq_some.mp followed).1)
  split_ifs at rest
  · refine ⟨{ s.kill curpid .kill with pCurrentThread := none }, ?_, .inr ⟨rfl, rfl, rfl, rfl⟩⟩
    exact selected_dispatch head rest
  · obtain ⟨s₁, appended, rest⟩ := Option.bind_eq_some_iff.mp rest
    have front : (s₁.queue .ready).pHead = some t :=
      (pHead_append (s := s.setStatus c .ready) ready appended).trans head
    obtain ⟨_, _, _, rfl⟩ := Relinked.append appended
    exact ⟨_, selected_dispatch front rest, .inl ⟨rfl, rfl, rfl, (List.append_nil _).symm⟩⟩

/-- What `timer` does: nothing but a `SIGSTOP` if `ReadyQueue.queueCount` is negative, and otherwise
it selects a thread. -/
theorem timer_cases (distinct : s.Distinct) (run : s.timer = some s') :
    ((s.queue .ready).queueCount < 0 ∧ Quiet s s') ∨ ∃ c before, Ticked s s' c before := by
  cases current : s.pCurrentThread with
  | none =>
      right
      simp only [timer, current] at run
      obtain ⟨head, followed, rest⟩ := Option.bind_eq_some_iff.mp run
      rw [contextSwitch, if_pos rfl] at rest
      have selected := selected_dispatch (deref_eq_some.mp followed).1 rest
      exact ⟨head, [], selected.ticked ⟨rfl, rfl, rfl, (List.append_nil _).symm⟩
        (fun b here => absurd (current.symm.trans here) (Option.some_ne_none b).symm) (by simp)⟩
  | some c =>
      simp only [timer, current] at run
      obtain ⟨c', followed, rest⟩ := Option.bind_eq_some_iff.mp run
      obtain ⟨same, live⟩ := deref_eq_some.mp followed
      obtain rfl := Option.some.inj same
      have positive := distinct.positive c live
      have only : ∀ b, s.pCurrentThread = some b → b = c := fun b here =>
        Option.some.inj (here.symm.trans current)
      have stops : ∀ b, s.pCurrentThread = some b →
          ∃ early sig, [(s.pid c, Signal.stop)] = early ++ [(s.pid b, sig)] := fun b here =>
        ⟨[], .stop, by rw [only b here]; rfl⟩
      rw [if_neg positive] at rest
      by_cases ready : 0 < (s.queue .ready).queueCount
      · right
        rw [if_pos (by exact ready)] at rest
        obtain ⟨head, followed, rest⟩ := Option.bind_eq_some_iff.mp rest
        obtain ⟨front, live'⟩ := deref_eq_some.mp followed
        have positive' := distinct.positive head live'
        split_ifs at rest
        · rw [contextSwitch, if_pos rfl] at rest
          have selected := selected_dispatch (s := s.kill (s.pid c) .stop) front rest
          exact ⟨head, _, Selected.ticked
            (x := s.kill (s.pid c) .stop) ⟨rfl, rfl, rfl, rfl⟩ selected stops (by simp)⟩
        · obtain ⟨x, selected, sends⟩ :=
            selected_contextSwitch (s := s.kill (s.pid c) .stop) current positive positive'
            ready.ne' front rest
          rcases sends with sends | sends
          · exact ⟨head, _, Selected.ticked (s := s) ⟨sends.allocated, sends.pid, sends.cpuTime,
              sends.signals.trans (List.append_nil _)⟩ selected stops (by simp)⟩
          · refine ⟨head, _, Selected.ticked (s := s) ⟨sends.allocated, sends.pid, sends.cpuTime,
              sends.signals.trans (List.append_assoc _ _ _)⟩ selected (fun b here => ?_) (by simp)⟩
            exact ⟨[(s.pid c, .stop)], .kill, by rw [only b here]⟩
      · rw [if_neg (by exact ready)] at rest
        split_ifs at rest with empty
        · right
          rw [contextSwitch, if_neg (by exact positive), if_pos rfl] at rest
          have selected := selected_noThread (s := s.kill (s.pid c) .stop) current rest
          exact ⟨c, _, Selected.ticked (x := s.kill (s.pid c) .stop) ⟨rfl, rfl, rfl,
            rfl⟩ selected stops (by simp)⟩
        · left
          obtain rfl := Option.some.inj rest
          exact ⟨lt_of_le_of_ne (not_lt.mp ready) empty, Quiet.kill s (s.pid c) (by decide)⟩

/-! ## Runs -/

/-- Only the current thread and those inside `thread_join` run, and the time of a thread is a slice
for each `SIGCONT` that its process got. -/
structure Accounted (joining : List Ptr) (s : Threads) : Prop where
  distinct : s.Distinct
  running : ∀ p, s.allocated p = true → s.running (s.pid p) = true →
    s.pCurrentThread = some p ∨ p ∈ joining
  cpuTime : ∀ p, s.allocated p = true → s.cpuTime p = timeslice * s.signals.count (s.pid p, .cont)

private theorem Initial.accounted (initial : s.Initial) : s.Accounted [] := by
  have distinct := initial.distinct
  obtain ⟨s₀, unallocated, _, _, rfl⟩ := initial
  have absent : ∀ {p}, s₀.init.allocated p = true → False := fun {p} live =>
    Bool.noConfusion ((unallocated p).symm.trans live)
  exact ⟨distinct, fun _ live => (absent live).elim, fun _ live => (absent live).elim⟩

namespace Accounted

variable (accounted : s.Accounted joining)
include accounted

private theorem quiet (quiet : Quiet s s') : s'.Accounted joining where
  distinct := accounted.distinct.mono fun p here => ⟨quiet.live p here, congrFun quiet.pid p⟩
  running p here runs := by
    rw [quiet.pid] at runs
    rw [quiet.current]
    exact accounted.running p (quiet.live p here) (quiet.running runs)
  cpuTime p here := by
    rw [quiet.cpuTime, quiet.pid, quiet.count_cont]
    exact accounted.cpuTime p (quiet.live p here)

theorem enter (here : s.pCurrentThread = some c) (current : Option Ptr) :
    Accounted (c :: joining) { s with pCurrentThread := current } where
  distinct := accounted.distinct.mono fun _ live => ⟨live, rfl⟩
  running p live runs := by
    right
    rcases accounted.running p live runs with same | inside
    · rw [Option.some.inj (here.symm.trans same)]
      exact List.mem_cons_self
    · exact List.mem_cons_of_mem c inside
  cpuTime := accounted.cpuTime

theorem leave (stopped : s.running (s.pid t) = false) : s.Accounted (joining.erase t) where
  distinct := accounted.distinct
  running p live runs := by
    have other : p ≠ t := by
      rintro rfl
      exact Bool.noConfusion (stopped.symm.trans runs)
    rw [List.mem_erase_of_ne other]
    exact accounted.running p live runs
  cpuTime := accounted.cpuTime

private theorem create {stack : Ptr} {tid : Fin maxThreadNum} (fresh : s.Fresh stack pid)
    (unsent : ∀ sig, (pid, sig) ∉ s.signals) (run : s.threadCreate stack pid = some (tid, s')) :
    s'.Accounted joining := by
  rw [threadCreate_eq] at run
  obtain ⟨tid', _, rest⟩ := Option.bind_eq_some_iff.mp run
  obtain ⟨_, appended, same⟩ := Option.map_eq_some_iff.mp rest
  obtain ⟨rfl, rfl⟩ := Prod.mk.inj same
  have old : ∀ p, p ≠ stack → (s.born stack pid tid').allocated p = true →
      s.allocated p = true ∧ (s.born stack pid tid').pid p = s.pid p := fun p other live =>
    ⟨(update_of_ne other _ _).symm.trans live, update_of_ne other _ _⟩
  have counts : ∀ pid', (s.born stack pid tid').signals.count (pid', .cont) =
      s.signals.count (pid', .cont) := fun pid' => by
    rw [born_signals, List.count_append, List.count_singleton]
    simp
  refine quiet ⟨fresh.distinct accounted.distinct tid', fun p live runs => ?_, fun p live => ?_⟩
    (Relinked.append appended).quiet
  · by_cases same : p = stack
    · -- the last signal to the new process is `SIGSTOP`
      rw [same, born_pid, update_self, not_running_of_signals (born_signals ..) (by decide)] at runs
      cases runs
    · obtain ⟨live', pid'⟩ := old p same live
      have others : ∀ sig, (s.pid p, sig) ∉ [(pid, Signal.stop)] := by
        intro sig member
        have equal : s.pid p = pid := (Prod.mk.inj (List.mem_singleton.mp member)).1
        exact fresh.other p live' equal
      rw [pid', running_of_unsent (born_signals ..) others] at runs
      exact accounted.running p live' runs
  · rw [counts]
    by_cases same : p = stack
    · rw [same, born_cpuTime, born_pid, update_self, update_self,
        List.count_eq_zero_of_not_mem (unsent .cont), Nat.mul_zero]
    · obtain ⟨live', pid'⟩ := old p same live
      rw [pid', born_cpuTime, update_of_ne same, accounted.cpuTime p live']

private theorem tick {before : List (Pid × Signal)} (ticked : Ticked s s' c before) :
    s'.Accounted joining := by
  have sent : Quiet s { s with signals := s.signals ++ before } :=
    ⟨fun _ live => live, rfl, rfl, rfl, before, rfl, ticked.quiet⟩
  have signals : s'.signals = (s.signals ++ before) ++ [(s.pid c, .cont)] := by
    rw [ticked.signals, List.append_assoc]
  have apart : ∀ p, s.allocated p = true → p ≠ c → s.pid p ≠ s.pid c := fun p live other same =>
    other (accounted.distinct.injective p c live ticked.live same)
  refine ⟨accounted.distinct.mono fun p live => ?_, fun p live runs => ?_, fun p live => ?_⟩
  · rw [ticked.allocated] at live
    exact ⟨live, congrFun ticked.pid p⟩
  · rw [ticked.allocated] at live
    rw [ticked.pid] at runs
    by_cases same : p = c
    · left
      rw [ticked.current, same]
    · right
      have others : ∀ sig, (s.pid p, sig) ∉ [(s.pid c, Signal.cont)] := by
        intro sig member
        exact apart p live same (Prod.mk.inj (List.mem_singleton.mp member)).1
      rw [running_of_unsent (s := { s with signals := s.signals ++ before }) signals others] at runs
      rcases accounted.running p live (sent.running runs) with current | inside
      · obtain ⟨early, sig, rfl⟩ := ticked.stops p current
        -- a thread that was current got a last signal other than `SIGCONT`
        rw [running_of_signals (s := { s with signals := _ })
          (List.append_assoc _ _ _).symm] at runs
        obtain ⟨rfl, -⟩ := of_decide_eq_true runs
        exact absurd (by simp) (ticked.quiet (s.pid p))
      · exact inside
  · rw [ticked.allocated] at live
    rw [ticked.cpuTime, ticked.pid, signals, List.count_append, sent.count_cont,
      List.count_singleton]
    by_cases same : p = c
    · rw [same, update_self, accounted.cpuTime c ticked.live]
      simp [Nat.mul_add]
    · have other : ¬ (s.pid c, Signal.cont) = (s.pid p, .cont) := fun equal =>
        apart p live same (Prod.mk.inj equal).1.symm
      rw [update_of_ne same, accounted.cpuTime p live]
      simp [other]

end Accounted

private theorem Activity.accounted (activity : Activity joining s) : s.Accounted joining := by
  induction activity with
  | start initial => exact initial.accounted
  | create _ fresh unsent run accounted => exact accounted.create fresh unsent run
  | @call joining s s' call _ old run accounted =>
      cases call with
      | create stack pid => exact absurd rfl (old stack pid)
      | suspend tid =>
          obtain ⟨_, suspended, rfl⟩ := Option.map_eq_some_iff.mp run
          exact accounted.quiet (Quiet.threadSuspend suspended)
      | resume tid =>
          obtain ⟨_, resumed, rfl⟩ := Option.map_eq_some_iff.mp run
          exact accounted.quiet (Quiet.threadResume resumed)
      | cancel tid =>
          obtain ⟨_, cancelled, rfl⟩ := Option.map_eq_some_iff.mp run
          exact accounted.quiet (Quiet.threadCancel cancelled)
      | exit => exact accounted.quiet (Quiet.threadExit run)
      | semWait semid =>
          obtain ⟨_, _, rest⟩ := Option.bind_eq_some_iff.mp run
          exact accounted.quiet (Quiet.semWaitStart rest)
      | semWake semid =>
          change s.semWaitResume semid = some s' at run
          rw [semWaitResume] at run
          split_ifs at run
          · exact accounted.quiet (Quiet.semWaitStart run)
          · obtain rfl := Option.some.inj run
            exact accounted.quiet ⟨fun _ live => live, rfl, rfl, rfl, [], (List.append_nil _).symm,
              by simp⟩
      | semPost semid => exact accounted.quiet (Quiet.threadSemPost run)
      | tick =>
          rcases timer_cases accounted.distinct run with ⟨_, quiet⟩ | ⟨c, before, ticked⟩
          · exact accounted.quiet quiet
          · exact accounted.tick ticked
  | joinStart _ current run accounted =>
      obtain ⟨s₁, current', quiet, rfl⟩ := Quiet.threadJoinStart run
      exact (accounted.quiet quiet).enter (quiet.current.trans current) current'
  | joinEnd _ found _ run accounted =>
      obtain ⟨quiet, stopped⟩ := Quiet.threadJoinEnd found run
      exact (accounted.quiet quiet).leave stopped

/-- Whatever calls are made, the process of a live thread runs only if the thread is current or
inside `thread_join`, and its `cpu_time` is `TIMESLICE` for each `SIGCONT` that it got.  A tick that
finds no negative `queueCount` gives its slice to one thread, which then is current, and which runs
unless its process was killed. -/
theorem running_of_activity (activity : Activity joining s) :
    (∀ p, s.allocated p = true → s.running (s.pid p) = true →
      s.pCurrentThread = some p ∨ p ∈ joining) ∧
    (∀ p, s.allocated p = true → s.cpuTime p = timeslice * s.signals.count (s.pid p, .cont)) ∧
    ∀ s', s.timer = some s' → 0 ≤ (s.queue .ready).queueCount → ∃ c, s'.pCurrentThread = some c ∧
      s'.allocated c = true ∧ s'.cpuTime = update s.cpuTime c (s.cpuTime c + timeslice) ∧
      (s'.running (s'.pid c) = true ↔ (s'.pid c, .kill) ∉ s'.signals) := by
  have accounted := activity.accounted
  refine ⟨accounted.running, accounted.cpuTime, fun s' tick counted => ?_⟩
  rcases timer_cases accounted.distinct tick with ⟨negative, _⟩ | ⟨c, before, ticked⟩
  · exact absurd negative (not_lt.mpr counted)
  · refine ⟨c, ticked.current, ticked.allocated ▸ ticked.live, ticked.cpuTime, ?_⟩
    have signals : s'.signals = (s.signals ++ before) ++ [(s.pid c, .cont)] :=
      ticked.signals.trans (List.append_assoc _ _ _).symm
    rw [ticked.pid, running_of_signals signals, signals, decide_eq_true_eq]
    simp

theorem fresh_blank : blank.init.Fresh 1 11 :=
  ⟨rfl, by decide, fun _ live => Bool.noConfusion live⟩

theorem fresh_oneThread : oneThread.Fresh 2 12 := by
  refine ⟨rfl, by decide, fun p live => ?_⟩
  by_cases same : p = 1
  · subst same
    decide
  · have other : update blank.init.allocated 1 true p = true := live
    rw [update_of_ne same] at other
    cases other

/-- The first one of two threads waits for the second one, which a tick has made current. -/
def oneJoins : Threads :=
  ((twoThreads.threadJoinStart.map Prod.snd).bind timer).getD blank

private theorem activity_oneJoins : Activity [1] oneJoins := by
  have first : Activity [] oneThread :=
    (Activity.start initial_blank).create fresh_blank (fun _ member => List.not_mem_nil member) rfl
  have unsent : ∀ sig, (12, sig) ∉ oneThread.signals := fun _ member => by
    cases List.mem_singleton.mp member
  have second := first.create fresh_oneThread unsent rfl
  have ticked : Activity [] twoThreads := second.call .tick (fun _ _ same => by cases same) rfl
  have joins := ticked.joinStart (c := 1) rfl rfl
  exact joins.call .tick (fun _ _ same => by cases same) rfl

/-- A thread inside `thread_join` and the current one run, and the next slice goes to the latter. -/
theorem running_of_activity_two : oneJoins.running 11 = true ∧ oneJoins.running 12 = true ∧
    (∀ p, oneJoins.allocated p = true → oneJoins.running (oneJoins.pid p) = true →
      oneJoins.pCurrentThread = some p ∨ p ∈ [1]) ∧
    (∀ p, oneJoins.allocated p = true →
      oneJoins.cpuTime p = timeslice * oneJoins.signals.count (oneJoins.pid p, .cont)) ∧
    ∃ s', oneJoins.timer = some s' ∧ ∃ c, s'.pCurrentThread = some c ∧ s'.allocated c = true ∧
      s'.cpuTime = update oneJoins.cpuTime c (oneJoins.cpuTime c + timeslice) ∧
      (s'.running (s'.pid c) = true ↔ (s'.pid c, .kill) ∉ s'.signals) := by
  obtain ⟨runs, slices, ticks⟩ := running_of_activity activity_oneJoins
  exact ⟨by decide, by decide, runs, slices, _, rfl, ticks _ rfl (by decide)⟩

end KwHomework.Threads
