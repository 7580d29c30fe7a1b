import KwHomework.Thread.Calls

/-!
# The two queues

`ReadyQueue` and `WaitingQueue` hold the threads with the status `THREAD_STATUS_READY` and
`THREAD_STATUS_WAIT`, as long as only ready threads are suspended, only the first waiting thread is
resumed, and no running thread is cancelled.  A call that breaks the rule breaks the queues.

The `pPrev` of a waiting thread is not its neighbour: `thread_suspend` takes it from `ReadyQueue`.
Only the first one, which has none, can be taken off again.
-/

namespace KwHomework.Threads

open Function LinkedList

variable {s s' : Threads} {R W : List Ptr} {t : Ptr} {tid : Fin maxThreadNum}

/-- The queue lists the threads of a status. -/
def Holds (s : Threads) (q : QueueName) (status : ThreadStatus) : Prop :=
  ∃ l, s.Lists q l ∧ ∀ p, p ∈ l ↔ s.allocated p = true ∧ s.status p = status

/-- Both queues hold what they are for. -/
def Queued (s : Threads) : Prop := s.Holds .ready .ready ∧ s.Holds .waiting .wait

/-- The calls that are made, on live threads, and ticks while some thread is current or ready. -/
def Call.OnLive (s : Threads) : Call → Prop
  | .create stack pid => s.Fresh stack pid
  | .suspend tid | .resume tid | .cancel tid =>
      (s.pThreadTbEnt tid).bUsed = true ∧ s.thread tid ≠ none
  | .tick => s.pCurrentThread ≠ none ∨ ∃ p, s.allocated p = true ∧ s.status p = .ready
  | .exit | .semWait _ | .semWake _ | .semPost _ => False

/-- The running thread is neither suspended nor cancelled, and a waiting thread is resumed or
cancelled only if it is the first one. -/
def Call.Orderly (s : Threads) : Call → Prop
  | .suspend tid => ∀ t, s.thread tid = some t → s.status t ≠ .run
  | .resume tid => ∀ t, s.thread tid = some t → s.status t = .wait →
      (s.queue .waiting).pHead = some t
  | .cancel tid => ∀ t, s.thread tid = some t → s.status t ≠ .run ∧
      (s.status t = .wait → (s.queue .waiting).pHead = some t)
  | _ => True

/-- The links behind the queues. -/
structure Linked (s : Threads) (R W : List Ptr) : Prop where
  ready : s.Lists .ready R
  waiting : s.Lists .waiting W
  ready_iff : ∀ p, p ∈ R ↔ s.allocated p = true ∧ s.status p = .ready
  waiting_iff : ∀ p, p ∈ W ↔ s.allocated p = true ∧ s.status p = .wait
  current_iff : ∀ p, s.pCurrentThread = some p ↔ s.allocated p = true ∧ s.status p = .run
  alive : ∀ p, s.allocated p = true → s.status p ≠ .zombie
  distinct : s.Distinct
  /-- The first ready thread may still point back to the one that was popped before it. -/
  backs : ∃ before, Backs s.pPrev before R ∧ ∀ b, before = some b → s.pCurrentThread = some b
  /-- The first waiting thread points back to none. -/
  first : ∀ t, W.head? = some t → s.pPrev t = none
  /-- The others point back to a thread that is not in front of them. -/
  astray : ∀ l₁ t l₂, W = l₁ ++ t :: l₂ → l₁ ≠ [] → ∃ x, s.pPrev t = some x ∧ x ∉ l₁

namespace Linked

theorem queued (linked : s.Linked R W) : s.Queued :=
  ⟨⟨R, linked.ready, linked.ready_iff⟩, W, linked.waiting, linked.waiting_iff⟩

theorem ready_notMem_waiting (linked : s.Linked R W) (member : t ∈ R) : t ∉ W := by
  intro member'
  have status := ((linked.ready_iff t).mp member).2
  rw [((linked.waiting_iff t).mp member').2] at status
  cases status

private theorem current_notMem (linked : s.Linked R W) (current : s.pCurrentThread = some t) :
    t ∉ R ∧ t ∉ W := by
  have status := ((linked.current_iff t).mp current).2
  constructor
  · intro member
    rw [((linked.ready_iff t).mp member).2] at status
    cases status
  · intro member
    rw [((linked.waiting_iff t).mp member).2] at status
    cases status

theorem pids (linked : s.Linked R W) (member : t ∈ R) : ∀ a ∈ R, s.pid a = s.pid t → a = t :=
  fun a member' same => linked.distinct.injective a t (linked.ready.live a member')
    (linked.ready.live t member) same

theorem stale (linked : s.Linked R W) {before : Option Ptr}
    (current : ∀ b, before = some b → s.pCurrentThread = some b) :
    ∀ b, before = some b → b ∉ R ∧ b ∉ W ∧ s.allocated b = true := fun b same =>
  ⟨(linked.current_notMem (current b same)).1, (linked.current_notMem (current b same)).2,
    ((linked.current_iff b).mp (current b same)).1⟩

/-- What a ready thread points back to does not wait. -/
theorem pPrev_ne_waiting {l₁ l₂ : List Ptr} {a : Ptr} {before : Option Ptr}
    (linked : s.Linked (l₁ ++ t :: l₂) W) (backs : Backs s.pPrev before (l₁ ++ t :: l₂))
    (current : ∀ b, before = some b → s.pCurrentThread = some b) (waits : a ∈ W) :
    s.pPrev t ≠ some a := by
  intro front
  rcases Lists.mem_or_of_pPrev backs front with member | same
  · exact linked.ready_notMem_waiting (List.mem_append_left _ member) waits
  · exact (linked.stale current a same).2.1 waits

end Linked

/-! ## `thread_create` -/

private theorem Initial.linked (initial : s.Initial) : s.Linked [] [] := by
  have distinct := initial.distinct
  obtain ⟨s₀, unallocated, current, _, rfl⟩ := initial
  have absent : ∀ {p}, s₀.init.allocated p = true → False := fun {p} live =>
    Bool.noConfusion ((unallocated p).symm.trans live)
  have idle : s₀.init.pCurrentThread = none := current
  have empty : ∀ q, (s₀.init.queue q).queueCount = 0 → s₀.init.Lists q [] := fun q count =>
    ⟨count, fun nonempty => absurd rfl nonempty, fun nonempty => absurd rfl nonempty,
      List.nodup_nil,
      fun _ member => by cases member⟩
  refine ⟨empty .ready rfl, empty .waiting rfl, fun p => ?_, fun p => ?_, fun p => ?_,
    fun p live => (absent live).elim, distinct,
    ⟨none, trivial, fun b same => (Option.some_ne_none b same.symm).elim⟩,
    fun t here => (Option.some_ne_none t here.symm).elim, fun l₁ t l₂ split => ?_⟩
  · exact ⟨fun member => (List.not_mem_nil member).elim, fun live => (absent live.1).elim⟩
  · exact ⟨fun member => (List.not_mem_nil member).elim, fun live => (absent live.1).elim⟩
  · exact ⟨fun here => (Option.some_ne_none p (here.symm.trans idle)).elim,
      fun live => (absent live.1).elim⟩
  · simp at split

private theorem Linked.create {stack : Ptr} {pid : Pid} (linked : s.Linked R W)
    (fresh : s.Fresh stack pid) (run : s.threadCreate stack pid = some (tid, s')) :
    s'.Linked (R ++ [stack]) W := by
  obtain ⟨_, next, queue, rfl, lists, same⟩ := created_eq linked.ready fresh run
  have newR := fresh.notMem linked.ready
  have newW := fresh.notMem linked.waiting
  obtain ⟨before, backs, current⟩ := linked.backs
  have old : ∀ {p}, p ≠ stack → update s.allocated stack true p = s.allocated p := fun other =>
    update_of_ne other _ _
  have ne : ∀ {p : Ptr} {l : List Ptr}, stack ∉ l → p ∈ l → p ≠ stack := fun new member =>
    ne_of_mem_of_not_mem member new
  have status : ∀ {p}, p ≠ stack → ∀ x, (update s.allocated stack true p = true ∧
      update s.status stack .ready p = x ↔ s.allocated p = true ∧ s.status p = x) := by
    intro p other x
    rw [old other, update_of_ne other]
  refine ⟨lists, ?_, fun p => ?_, fun p => ?_, fun p => ?_, fun p live => ?_, ?_,
    ⟨_, linked.ready.backs_concat backs newR, fun b same => ?_⟩, fun t here => ?_,
    fun l₁ t l₂ split nonempty => ?_⟩
  · refine (linked.waiting.born stack pid tid).congr rfl
      (fun a member => same a (ne newW member) ?_)
      (linked.waiting.born stack pid tid).live
    exact fun member' => linked.ready_notMem_waiting member' member
  · by_cases here : p = stack
    · simp [here]
    · simp only [List.mem_append, List.mem_singleton, here, or_false]
      exact (linked.ready_iff p).trans (status here .ready).symm
  · by_cases here : p = stack
    · simp [here, newW]
    · exact (linked.waiting_iff p).trans (status here .wait).symm
  · by_cases here : p = stack
    · have other : s.pCurrentThread ≠ some stack := fun current => by
        have live := ((linked.current_iff stack).mp current).1
        exact Bool.noConfusion (fresh.unallocated.symm.trans live)
      simp [here, other]
    · exact (linked.current_iff p).trans (status here .run).symm
  · by_cases here : p = stack
    · simp [here]
    · exact fun ended => linked.alive p ((status here .zombie).mp ⟨live, ended⟩).1
        ((status here .zombie).mp ⟨live, ended⟩).2
  · exact (fresh.distinct linked.distinct tid).mono fun p here => ⟨here, rfl⟩
  · split_ifs at same
    exact current b same
  · exact (update_of_ne (ne newW (List.mem_of_mem_head? here)) _ _).trans (linked.first t here)
  · obtain ⟨x, back, outside⟩ := linked.astray l₁ t l₂ split nonempty
    exact ⟨x, (update_of_ne (ne newW (by simp [split])) _ _).trans back, outside⟩

/-! ## Ticks -/

/-- The head of `ReadyQueue` is selected, while nothing runs. -/
theorem linked_select {x : Threads} {l : List Ptr} (lists : (x.popReady t l).Lists .ready l)
    (waiting : x.Lists .waiting W) (fresh : t ∉ l)
    (ready_iff : ∀ p, p ∈ t :: l ↔ x.allocated p = true ∧ x.status p = .ready)
    (waiting_iff : ∀ p, p ∈ W ↔ x.allocated p = true ∧ x.status p = .wait)
    (run : ∀ p, x.allocated p = true → x.status p ≠ .run)
    (alive : ∀ p, x.allocated p = true → x.status p ≠ .zombie) (distinct : x.Distinct)
    (backs : Backs x.pPrev (some t) l) (first : ∀ t, W.head? = some t → x.pPrev t = none)
    (astray : ∀ l₁ t l₂, W = l₁ ++ t :: l₂ → l₁ ≠ [] → ∃ b, x.pPrev t = some b ∧ b ∉ l₁) :
    ((x.popReady t l).select t).Linked l W := by
  obtain ⟨live, status⟩ := (ready_iff t).mp (by simp)
  have other : t ∉ W := fun member => by
    have waits := ((waiting_iff t).mp member).2
    rw [status] at waits
    cases waits
  refine ⟨lists.congr rfl (fun _ _ => rfl) lists.live,
    waiting.congr rfl (fun _ _ => rfl) waiting.live,
    fun p => ?_, fun p => ?_, fun p => ?_, fun p here => ?_,
    distinct.mono fun p here => ⟨here, rfl⟩, ⟨some t, backs, fun b same => same⟩, first, astray⟩
  · by_cases same : p = t
    · simp [same, alive t live, fresh]
    · have queued := ready_iff p
      simp only [List.mem_cons, same, false_or] at queued
      simpa [same, alive t live] using queued
  · by_cases same : p = t
    · simp [same, alive t live, other]
    · simpa [same, alive t live] using waiting_iff p
  · by_cases same : p = t
    · simp [same, alive t live, live]
    · simpa [same, alive t live, Ne.symm same] using run p
  · by_cases same : p = t
    · simp [same, alive t live]
    · simpa [same, alive t live] using alive p here

theorem Linked.timer (linked : s.Linked R W) (busy : Call.OnLive s .tick) :
    ∃ s' R', s.timer = some s' ∧ s'.Linked R' W := by
  obtain ⟨before, backs, current_before⟩ := linked.backs
  cases current : s.pCurrentThread with
  | none =>
      have idle : ∀ p, s.allocated p = true → s.status p ≠ .run := fun p live status =>
        Option.some_ne_none p (((linked.current_iff p).mpr ⟨live, status⟩).symm.trans current)
      obtain ⟨p, live, status⟩ := busy.resolve_left fun busy => busy current
      have member := (linked.ready_iff p).mpr ⟨live, status⟩
      cases R with
      | nil => cases member
      | cons t l =>
          refine ⟨_, l, timer_first linked.ready current, ?_⟩
          exact linked_select linked.ready.popReady linked.waiting
            (List.nodup_cons.mp linked.ready.nodup).1 linked.ready_iff linked.waiting_iff idle
            linked.alive linked.distinct backs.2 linked.first linked.astray
  | some c =>
      obtain ⟨live, status⟩ := (linked.current_iff c).mp current
      obtain ⟨outside, outside'⟩ := linked.current_notMem current
      have positive := linked.distinct.positive c live
      have only : ∀ p, s.allocated p = true → p ≠ c → s.status p ≠ .run := by
        intro p here other running
        have same := ((linked.current_iff p).mpr ⟨here, running⟩).symm.trans current
        exact other (Option.some.inj same)
      cases R with
      | nil =>
          refine ⟨_, [], timer_alone current live positive linked.ready, ?_⟩
          have alive := linked.alive c live
          have kept : ((s.kill (s.pid c) .stop).select c).status = s.status := by
            simp only [select_status, kill, if_neg alive]
            rw [← status, update_eq_self]
          refine ⟨linked.ready.congr rfl (fun _ _ => rfl) linked.ready.live,
            linked.waiting.congr rfl (fun _ _ => rfl) linked.waiting.live, fun p => ?_, fun p => ?_,
            fun p => ?_, fun p => ?_, linked.distinct.mono fun p here => ⟨here, rfl⟩, linked.backs,
            linked.first, linked.astray⟩
          · rw [kept]
            exact linked.ready_iff p
          · rw [kept]
            exact linked.waiting_iff p
          · rw [kept]
            exact linked.current_iff p
          · rw [kept]
            exact linked.alive p
      | cons t l =>
          have positive' := linked.distinct.positive t (linked.ready.live t (by simp))
          have alive : s.status c ≠ .zombie ∧ s.status c ≠ .wait := by
            rw [status]
            decide
          obtain ⟨next, queue, run, lists, same⟩ := timer_switch current live positive positive'
            linked.ready alive.1 alive.2 outside
          have fresh : t ∉ l ++ [c] := by
            have other : t ≠ c := fun same => outside (by simp [same])
            simp [(List.nodup_cons.mp linked.ready.nodup).1, other]
          have backs' := linked.ready.backs_concat backs outside
          rw [if_neg (List.cons_ne_nil t l), if_neg (List.cons_ne_nil t l)] at backs'
          have ne : ∀ {a : Ptr}, a ∈ W → a ≠ c := fun member => ne_of_mem_of_not_mem member outside'
          refine ⟨_, l ++ [c], run, linked_select lists ?_ fresh (fun p => ?_) (fun p => ?_)
            (fun p here => ?_) (fun p here => ?_)
            (linked.distinct.mono fun p here => ⟨here, rfl⟩) backs'.2
            (fun a here => ?_) fun l₁ a l₂ split nonempty => ?_⟩
          · refine linked.waiting.congr rfl (fun a member => ?_) linked.waiting.live
            exact same a (ne member) fun member' => linked.ready_notMem_waiting member' member
          · by_cases here : p = c
            · simp [here, setStatus, kill, live]
            · simpa [here, setStatus, kill] using linked.ready_iff p
          · by_cases here : p = c
            · simp [here, setStatus, outside']
            · simpa [here, setStatus, kill] using linked.waiting_iff p
          · by_cases same : p = c
            · simp [same, setStatus]
            · simpa [same, setStatus, kill] using only p here same
          · by_cases same : p = c
            · simp [same, setStatus]
            · simpa [same, setStatus, kill] using linked.alive p here
          · exact (update_of_ne (ne (List.mem_of_mem_head? here)) _ _).trans (linked.first a here)
          · obtain ⟨x, back, front⟩ := linked.astray l₁ a l₂ split nonempty
            exact ⟨x, (update_of_ne (ne (by simp [split])) _ _).trans back, front⟩

/-! ## `thread_suspend` -/

/-- What `thread_suspend` does to a thread that does not wait. -/
theorem threadSuspend_eq (found : s.thread tid = some t) (status : s.status t ≠ .wait) :
    s.threadSuspend tid = ((s.unlink .ready (·.leaveHead .ready t) t).map (·.countDown .ready)).bind
      fun s => (s.append .waiting .ready t).map fun s => (0, s.setStatus t .wait) := by
  simp only [threadSuspend, found, Option.bind_eq_bind, Option.bind_some, if_neg status,
    Option.map_eq_bind, Option.bind_assoc]
  rfl

theorem Linked.suspend {l₁ l₂ : List Ptr} (linked : s.Linked (l₁ ++ t :: l₂) W)
    (found : s.thread tid = some t) : ∃ s', s.threadSuspend tid = some (0, s') ∧
      s'.Linked (l₁ ++ l₂) (W ++ [t]) := by
  obtain ⟨before, backs, current⟩ := linked.backs
  have member : t ∈ l₁ ++ t :: l₂ := by simp
  obtain ⟨live, status⟩ := (linked.ready_iff t).mp member
  have outside := linked.ready_notMem_waiting member
  have stale := linked.stale current
  obtain ⟨s₁, unlinked, without, tail⟩ := linked.ready.exists_unlink backs
    (fun b same => ⟨(stale b same).1, (stale b same).2.2⟩) (linked.pids member)
  obtain ⟨next, prev, queue, rfl⟩ := without.same
  have notReady : ∀ {a : Ptr}, a ∈ W → a ∉ l₁ ++ t :: l₂ := fun inside inside' =>
    linked.ready_notMem_waiting inside' inside
  have waiting : (s.relink next prev .ready queue).Lists .waiting W := by
    refine linked.waiting.congr rfl (fun a inside => ?_) linked.waiting.live
    exact without.next a (notReady inside) (linked.pPrev_ne_waiting backs current inside)
  obtain ⟨next', queue', appended, lists, same⟩ := waiting.exists_append .ready outside live
  have kept : ∀ {a : Ptr}, a ∈ W → a ≠ t := fun inside => ne_of_mem_of_not_mem inside outside
  have gone : t ∉ l₁ ++ l₂ := (List.nodup_cons.mp (List.nodup_middle.mp linked.ready.nodup)).1
  have rest : ∀ {a : Ptr}, a ∈ l₁ ++ l₂ → a ∈ l₁ ++ t :: l₂ := fun inside =>
    List.perm_middle.mem_iff.mpr (List.mem_cons_of_mem t inside)
  have back : W ≠ [] → ∃ x, queue.pTail = some x ∧ x ∉ W := by
    intro nonempty
    by_cases only : l₁ ++ l₂ = []
    · rcases tail only with last | ⟨b, same, last⟩
      · exact ⟨t, by simpa using last, outside⟩
      · exact ⟨b, by simpa using last, (stale b same).2.1⟩
    · obtain ⟨x, last⟩ := Option.isSome_iff_exists.mp (List.getLast?_isSome.mpr only)
      have tail := (without.lists.tail only).trans last
      exact ⟨x, by simpa using tail, fun inside =>
        notReady inside (rest (List.mem_of_getLast? last))⟩
  refine ⟨((s.relink next prev .ready queue).relink next' (update prev t
    (if W = [] then none else ((s.relink next prev .ready queue).queue .ready).pTail)) .waiting
      queue').setStatus t .wait, ?_, ⟨?_, lists.congr rfl (fun _ _ => rfl) lists.live, fun p => ?_,
    fun p => ?_, fun p => ?_, fun p here => ?_, linked.distinct.mono fun p here => ⟨here, rfl⟩,
    ⟨before, without.backs.update gone _, current⟩, fun a here => ?_,
    fun k₁ a k₂ split nonempty => ?_⟩⟩
  · rw [threadSuspend_eq found (by rw [status]; decide), unlinked, Option.bind_some, appended]
    rfl
  · refine without.lists.congr rfl (fun a inside => ?_) without.lists.live
    exact same a (ne_of_mem_of_not_mem inside gone) fun inside' => notReady inside' (rest inside)
  · by_cases here : p = t
    · simp only [here, gone, false_iff, setStatus, update_self]
      rintro ⟨_, waits⟩
      cases waits
    · have queued := linked.ready_iff p
      simpa [here, setStatus] using queued
  · by_cases here : p = t
    · simp [here, setStatus, live]
    · simpa [here, setStatus] using linked.waiting_iff p
  · by_cases here : p = t
    · have running := linked.current_iff t
      rw [status] at running
      simpa [here, setStatus] using running
    · simpa [here, setStatus] using linked.current_iff p
  · by_cases same : p = t
    · simp [same, setStatus]
    · simpa [same, setStatus] using linked.alive p here
  · cases W with
    | nil =>
        obtain rfl : t = a := by simpa using here
        simp [setStatus]
    | cons w W =>
        obtain rfl : w = a := by simpa using here
        have ne : w ≠ t := kept (by simp)
        simp only [setStatus, relink_pPrev, update_of_ne ne]
        exact (without.prev w (notReady (by simp))).trans (linked.first w rfl)
  · rcases List.eq_nil_or_concat k₂ with rfl | ⟨k, b, rfl⟩
    · obtain ⟨rfl, last⟩ := List.append_inj' split rfl
      obtain rfl := List.singleton_inj.mp last
      obtain ⟨x, tail, front⟩ := back nonempty
      exact ⟨x, by simp [setStatus, nonempty, tail], front⟩
    · rw [List.concat_eq_append, ← List.cons_append, ← List.append_assoc] at split
      obtain ⟨rfl, _⟩ := List.append_inj' split rfl
      obtain ⟨x, back, front⟩ := linked.astray k₁ a k rfl nonempty
      refine ⟨x, ?_, front⟩
      have ne : a ≠ t := kept (by simp)
      simp only [setStatus, relink_pPrev, update_of_ne ne]
      exact (without.prev a (notReady (by simp))).trans back

/-! ## `thread_resume` -/

/-- What `thread_resume` does to a waiting thread. -/
theorem threadResume_eq (found : s.thread tid = some t) (status : s.status t = .wait) :
    s.threadResume tid = ((s.unlink .waiting some t).map (·.countDown .waiting)).bind fun s =>
      ((s.setStatus t .ready).append .ready .ready t).map fun s => (0, s) := by
  simp only [threadResume, found, Option.bind_eq_bind, Option.bind_some, ne_eq, status,
    not_true_eq_false, if_false, Option.map_eq_bind, Option.bind_assoc]
  rfl

/-- Behind the first waiting thread, the first one of the rest still is the only one in front. -/
theorem Linked.astray_tail {k₁ k₂ : List Ptr} {a : Ptr} (linked : s.Linked R (t :: k₁ ++ a :: k₂))
    (nonempty : k₁ ≠ []) : (k₁ ++ a :: k₂).head? ≠ some a ∧ ∃ x, s.pPrev a = some x ∧ x ∉ k₁ := by
  have nodup := (List.nodup_cons.mp linked.waiting.nodup).2
  constructor
  · intro here
    cases k₁ with
    | nil => exact nonempty rfl
    | cons b k =>
        obtain rfl : b = a := Option.some.inj here
        exact (List.nodup_cons.mp nodup).1 (by simp)
  · obtain ⟨x, back, front⟩ := linked.astray (t :: k₁) a k₂ rfl (List.cons_ne_nil t k₁)
    exact ⟨x, back, fun inside => front (List.mem_cons_of_mem t inside)⟩

theorem Linked.resume (linked : s.Linked R (t :: W)) (found : s.thread tid = some t) :
    ∃ s', s.threadResume tid = some (0, s') ∧ s'.Linked (R ++ [t]) W := by
  obtain ⟨before, backs, current⟩ := linked.backs
  have member : t ∈ t :: W := by simp
  obtain ⟨live, status⟩ := (linked.waiting_iff t).mp member
  have gone := (List.nodup_cons.mp linked.waiting.nodup).1
  have outside : t ∉ R := fun inside => linked.ready_notMem_waiting inside member
  obtain ⟨prev, queue, unlinked, waiting, head, kept⟩ :=
    linked.waiting.exists_unlink_first (linked.first t rfl) some
  have notWaiting : ∀ {a : Ptr}, a ∈ W → a ∉ R := fun inside inside' =>
    linked.ready_notMem_waiting inside' (List.mem_cons_of_mem t inside)
  have ready : ((s.relink s.pNext prev .waiting queue).setStatus t .ready).Lists .ready R :=
    linked.ready.congr rfl (fun _ _ => rfl) linked.ready.live
  have backs' : Backs prev before R := by
    apply backs.congr
    intro a inside
    exact kept a fun here => notWaiting (List.mem_of_mem_head? here) inside
  obtain ⟨next', queue', appended, lists, same⟩ := ready.exists_append .ready outside live
  refine ⟨_, ?_, lists, waiting.congr rfl (fun a inside => ?_) waiting.live, fun p => ?_,
    fun p => ?_, fun p => ?_, fun p here => ?_, linked.distinct.mono fun p here => ⟨here, rfl⟩,
    ⟨_, ready.backs_concat backs' outside, fun b same => ?_⟩, fun a here => ?_,
    fun k₁ a k₂ split nonempty => ?_⟩
  · rw [threadResume_eq found status, unlinked, Option.bind_some, appended]
    rfl
  · exact same a (ne_of_mem_of_not_mem inside gone) (notWaiting inside)
  · by_cases here : p = t
    · simp [here, setStatus, live]
    · simpa [here, setStatus] using linked.ready_iff p
  · by_cases here : p = t
    · simp [here, setStatus, gone]
    · simpa [here, setStatus] using linked.waiting_iff p
  · by_cases here : p = t
    · have running := linked.current_iff t
      rw [status] at running
      simpa [here, setStatus] using running
    · simpa [here, setStatus] using linked.current_iff p
  · by_cases same : p = t
    · simp [same, setStatus]
    · simpa [same, setStatus] using linked.alive p here
  · split_ifs at same
    exact current b same
  · exact (update_of_ne (ne_of_mem_of_not_mem (List.mem_of_mem_head? here) gone) _ _).trans
      (head a here)
  · subst split
    obtain ⟨other, x, back, front⟩ := linked.astray_tail nonempty
    have ne : a ≠ t := ne_of_mem_of_not_mem (by simp) gone
    exact ⟨x, (update_of_ne ne _ _).trans ((kept a other).trans back), front⟩

/-! ## `thread_cancel` -/

/-- `free` of a control block. -/
@[simps -fullyApplied] def freed (s : Threads) (t : Ptr) : Threads :=
  { s with allocated := update s.allocated t false }

private theorem Lists.freed {q : QueueName} {l : List Ptr} (lists : s.Lists q l) (outside : t ∉ l) :
    (s.freed t).Lists q l := by
  refine lists.congr rfl (fun _ _ => rfl) fun a member => ?_
  exact (update_of_ne (ne_of_mem_of_not_mem member outside) _ _).trans (lists.live a member)

private theorem Distinct.freed (distinct : s.Distinct)
    (live : s'.allocated = update s.allocated t false)
    (pid : s'.pid = s.pid) : s'.Distinct := by
  refine distinct.mono fun p here => ⟨?_, congrFun pid p⟩
  rw [live] at here
  by_cases same : p = t
  · simp [same] at here
  · simpa [same] using here

/-- What `thread_cancel` does to a thread in the table. -/
theorem threadCancel_eq (used : (s.pThreadTbEnt tid).bUsed = true) (found : s.thread tid = some t) :
    s.threadCancel tid =
      (if s.status t = .ready then (s.kill (s.pid t) .kill).cancelFrom .ready t
        else if s.status t = .wait then (s.kill (s.pid t) .kill).cancelFrom .waiting t
        else some (s.kill (s.pid t) .kill)).map fun s => (none, s.freed t) := by
  have status : (s.kill (s.pid t) .kill).status = s.status := rfl
  simp only [threadCancel, used, Bool.true_eq_false, if_false, found, Option.bind_eq_bind,
    Option.bind_some, Option.map_eq_bind, status]
  split_ifs <;> rfl

theorem Linked.cancel_ready {l₁ l₂ : List Ptr} (linked : s.Linked (l₁ ++ t :: l₂) W)
    (used : (s.pThreadTbEnt tid).bUsed = true) (found : s.thread tid = some t) :
    ∃ s', s.threadCancel tid = some (none, s') ∧ s'.Linked (l₁ ++ l₂) W := by
  obtain ⟨before, backs, current⟩ := linked.backs
  have member : t ∈ l₁ ++ t :: l₂ := by simp
  obtain ⟨live, status⟩ := (linked.ready_iff t).mp member
  have outside := linked.ready_notMem_waiting member
  have stale := linked.stale current
  have ready : (s.kill (s.pid t) .kill).Lists .ready (l₁ ++ t :: l₂) :=
    linked.ready.congr rfl (fun _ _ => rfl) linked.ready.live
  obtain ⟨s₁, run, without⟩ := ready.exists_cancelFrom backs
    (fun b same => ⟨(stale b same).1, (stale b same).2.2⟩) (linked.pids member)
  obtain ⟨next, prev, queue, rfl⟩ := without.same
  have gone : t ∉ l₁ ++ l₂ := (List.nodup_cons.mp (List.nodup_middle.mp linked.ready.nodup)).1
  have notReady : ∀ {a : Ptr}, a ∈ W → a ∉ l₁ ++ t :: l₂ := fun inside inside' =>
    linked.ready_notMem_waiting inside' inside
  have waiting : ((s.kill (s.pid t) .kill).relink next prev .ready queue).Lists .waiting W := by
    refine linked.waiting.congr rfl (fun a inside => ?_) linked.waiting.live
    exact without.next a (notReady inside) (linked.pPrev_ne_waiting backs current inside)
  have kept : ∀ {a : Ptr}, a ∈ W → prev a = s.pPrev a := fun inside =>
    without.prev _ (notReady inside)
  refine ⟨_, ?_, without.lists.freed gone, waiting.freed outside, fun p => ?_, fun p => ?_,
    fun p => ?_, fun p here => ?_, linked.distinct.freed rfl rfl,
    ⟨before, without.backs, current⟩,
    fun a here => (kept (List.mem_of_mem_head? here)).trans (linked.first a here),
    fun k₁ a k₂ split nonempty => ?_⟩
  · rw [threadCancel_eq used found, if_pos status, run]
    rfl
  · by_cases here : p = t
    · simp [here, gone]
    · simpa [here, kill] using linked.ready_iff p
  · by_cases here : p = t
    · simp [here, outside]
    · simpa [here, kill] using linked.waiting_iff p
  · by_cases here : p = t
    · have running := linked.current_iff t
      rw [status] at running
      simpa [here, kill] using running
    · simpa [here, kill] using linked.current_iff p
  · by_cases same : p = t
    · simp [same] at here
    · exact linked.alive p (by simpa [same, kill] using here)
  · obtain ⟨x, back, front⟩ := linked.astray k₁ a k₂ split nonempty
    exact ⟨x, (kept (by simp [split])).trans back, front⟩

theorem Linked.cancel_waiting (linked : s.Linked R (t :: W))
    (used : (s.pThreadTbEnt tid).bUsed = true) (found : s.thread tid = some t) :
    ∃ s', s.threadCancel tid = some (none, s') ∧ s'.Linked R W := by
  obtain ⟨before, backs, current⟩ := linked.backs
  have member : t ∈ t :: W := by simp
  obtain ⟨live, status⟩ := (linked.waiting_iff t).mp member
  have gone := (List.nodup_cons.mp linked.waiting.nodup).1
  have outside : t ∉ R := fun inside => linked.ready_notMem_waiting inside member
  have waiting : (s.kill (s.pid t) .kill).Lists .waiting (t :: W) :=
    linked.waiting.congr rfl (fun _ _ => rfl) linked.waiting.live
  obtain ⟨prev, queue, run, waiting', head, kept⟩ :=
    waiting.exists_cancelFrom_first (linked.first t rfl)
  have notWaiting : ∀ {a : Ptr}, a ∈ W → a ∉ R := fun inside inside' =>
    linked.ready_notMem_waiting inside' (List.mem_cons_of_mem t inside)
  have ready : ((s.kill (s.pid t) .kill).relink s.pNext prev .waiting queue).Lists .ready R :=
    linked.ready.congr rfl (fun _ _ => rfl) linked.ready.live
  have backs' : Backs prev before R := by
    apply backs.congr
    intro a inside
    exact kept a fun here => notWaiting (List.mem_of_mem_head? here) inside
  refine ⟨_, ?_, ready.freed outside, waiting'.freed gone, fun p => ?_, fun p => ?_, fun p => ?_,
    fun p here => ?_, linked.distinct.freed rfl rfl,
    ⟨before, backs', current⟩, head, fun k₁ a k₂ split nonempty => ?_⟩
  · rw [threadCancel_eq used found, if_neg (by rw [status]; decide), if_pos status, run]
    rfl
  · by_cases here : p = t
    · simp [here, outside]
    · simpa [here, kill] using linked.ready_iff p
  · by_cases here : p = t
    · simp [here, gone]
    · simpa [here, kill] using linked.waiting_iff p
  · by_cases here : p = t
    · have running := linked.current_iff t
      rw [status] at running
      simpa [here, kill] using running
    · simpa [here, kill] using linked.current_iff p
  · by_cases same : p = t
    · simp [same] at here
    · exact linked.alive p (by simpa [same, kill] using here)
  · subst split
    obtain ⟨other, x, back, front⟩ := linked.astray_tail nonempty
    exact ⟨x, (kept a other).trans back, front⟩

/-! ## Runs -/

theorem Linked.cases (linked : s.Linked R W) (live : s.thread tid ≠ none) :
    ∃ t, s.thread tid = some t ∧
    (s.pCurrentThread = some t ∧ s.status t = .run ∨ t ∈ R ∧ s.status t = .ready ∨
      t ∈ W ∧ s.status t = .wait) := by
  obtain ⟨t, found⟩ := Option.ne_none_iff_exists'.mp live
  have here := (deref_eq_some.mp found).2
  refine ⟨t, found, ?_⟩
  cases status : s.status t with
  | run => exact Or.inl ⟨(linked.current_iff t).mpr ⟨here, status⟩, rfl⟩
  | ready => exact Or.inr (Or.inl ⟨(linked.ready_iff t).mpr ⟨here, status⟩, rfl⟩)
  | wait => exact Or.inr (Or.inr ⟨(linked.waiting_iff t).mpr ⟨here, status⟩, rfl⟩)
  | zombie => exact absurd status (linked.alive t here)

theorem Linked.eq_cons_of_pHead (linked : s.Linked R W) (member : t ∈ W)
    (head : (s.queue .waiting).pHead = some t) : ∃ W', W = t :: W' := by
  cases W with
  | nil => cases member
  | cons w W' =>
      obtain rfl := Option.some.inj (linked.waiting.pHead_eq.symm.trans head)
      exact ⟨W', rfl⟩

/-- A call that keeps to the rule keeps the invariant. -/
theorem Linked.step {c : Call} (linked : s.Linked R W) (live : c.OnLive s) (orderly : c.Orderly s)
    (run : c.exec s = some s') : ∃ R' W', s'.Linked R' W' := by
  cases c with
  | create stack pid =>
      obtain ⟨⟨tid, s₁⟩, created, rfl⟩ := Option.map_eq_some_iff.mp run
      exact ⟨_, _, linked.create live created⟩
  | suspend tid =>
      obtain ⟨t, found, running | ready | waiting⟩ := linked.cases live.2
      · exact absurd running.2 (orderly t found)
      · obtain ⟨l₁, l₂, rfl⟩ := List.append_of_mem ready.1
        obtain ⟨s₁, suspended, linked'⟩ := linked.suspend found
        obtain rfl : s₁ = s' := by simpa [Call.exec, suspended] using run
        exact ⟨_, _, linked'⟩
      · obtain rfl : s = s' := by simpa [Call.exec, threadSuspend, found, waiting.2] using run
        exact ⟨R, W, linked⟩
  | resume tid =>
      obtain ⟨t, found, running | ready | waiting⟩ := linked.cases live.2
      · obtain rfl : s = s' := by simpa [Call.exec, threadResume, found, running.2] using run
        exact ⟨R, W, linked⟩
      · obtain rfl : s = s' := by simpa [Call.exec, threadResume, found, ready.2] using run
        exact ⟨R, W, linked⟩
      · obtain ⟨W', rfl⟩ := linked.eq_cons_of_pHead waiting.1 (orderly t found waiting.2)
        obtain ⟨s₁, resumed, linked'⟩ := linked.resume found
        obtain rfl : s₁ = s' := by simpa [Call.exec, resumed] using run
        exact ⟨_, _, linked'⟩
  | cancel tid =>
      obtain ⟨t, found, running | ready | waiting⟩ := linked.cases live.2
      · exact absurd running.2 (orderly t found).1
      · obtain ⟨l₁, l₂, rfl⟩ := List.append_of_mem ready.1
        obtain ⟨s₁, cancelled, linked'⟩ := linked.cancel_ready live.1 found
        obtain rfl : s₁ = s' := by simpa [Call.exec, cancelled] using run
        exact ⟨_, _, linked'⟩
      · obtain ⟨W', rfl⟩ := linked.eq_cons_of_pHead waiting.1 ((orderly t found).2 waiting.2)
        obtain ⟨s₁, cancelled, linked'⟩ := linked.cancel_waiting live.1 found
        obtain rfl : s₁ = s' := by simpa [Call.exec, cancelled] using run
        exact ⟨_, _, linked'⟩
  | tick =>
      obtain ⟨s₁, R', ticked, linked'⟩ := linked.timer live
      obtain rfl := Option.some.inj (ticked.symm.trans run)
      exact ⟨R', W, linked'⟩
  | exit => exact live.elim
  | semWait semid => exact live.elim
  | semWake semid => exact live.elim
  | semPost semid => exact live.elim

/-- The invariant holds in every state that calls under the rule reach. -/
theorem linked_of_run (run : Run (fun s c => c.OnLive s ∧ c.Orderly s) s) :
    ∃ R W, s.Linked R W := by
  induction run with
  | start initial => exact ⟨[], [], initial.linked⟩
  | call _ allowed exec induction =>
      obtain ⟨R, W, linked⟩ := induction
      exact linked.step allowed.1 allowed.2 exec

end KwHomework.Threads
