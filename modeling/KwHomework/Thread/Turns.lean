import KwHomework.Scheduling.RoundRobin
import KwHomework.Thread.Calls

/-!
# The scheduler is round robin

Threads are created, the timer ticks, and the running thread exits while another one is ready.  In
every interleaving the queue, the current thread and the statuses are those of round robin over a
list, and a tick never fails.
-/

namespace KwHomework.Threads

open Function LinkedList

variable {n : Nat} {s s' x : Threads} {r : RoundRobin Ptr} {l : List Ptr} {c t : Ptr}

/-- The memory shows the state of round robin. -/
structure Refines (s : Threads) (r : RoundRobin Ptr) : Prop where
  ready : s.Lists .ready r.queue
  current : s.pCurrentThread = r.current
  /-- The current thread is the only one that runs. -/
  run_iff : ∀ p, s.allocated p = true →
    (s.status p = .run ↔ r.current = some p ∧ r.exited = false)
  ready_iff : ∀ p, s.allocated p = true → (s.status p = .ready ↔ p ∈ r.queue)
  wait : ∀ p, s.allocated p = true → s.status p ≠ .wait
  cpuTime : ∀ p, s.allocated p = true → s.cpuTime p = timeslice * r.ticks p

/-- What holds between the steps of a run. -/
structure Turn (s : Threads) (r : RoundRobin Ptr) : Prop where
  refines : s.Refines r
  distinct : s.Distinct
  live : ∀ c, r.current = some c → s.allocated c = true ∧ c ∉ r.queue
  /-- Only the current thread exits, and then another one is ready. -/
  others : r.exited = true → r.queue ≠ [] ∧ r.current ≠ none
  ticks : ∀ p, s.allocated p = false → r.ticks p = 0

/-- An interleaving of `n` calls of `thread_create` with ticks and `thread_exit`, beside round
robin. -/
inductive Interleaving : Nat → Threads → RoundRobin Ptr → Prop
  | first {s₀ s : Threads} {stack : Ptr} {pid : Pid} {tid : Fin maxThreadNum} : s₀.Initial →
      s₀.Fresh stack pid → s₀.threadCreate stack pid = some (tid, s) →
      Interleaving 1 s (RoundRobin.empty.create stack)
  | create {n : Nat} {s s' : Threads} {r : RoundRobin Ptr} {stack : Ptr} {pid : Pid}
      {tid : Fin maxThreadNum} : Interleaving n s r → s.Fresh stack pid →
      s.threadCreate stack pid = some (tid, s') → Interleaving (n + 1) s' (r.create stack)
  | tick {n : Nat} {s s' : Threads} {r : RoundRobin Ptr} : Interleaving n s r →
      s.timer = some s' → Interleaving n s' r.tick
  | exit {n : Nat} {s s' : Threads} {r : RoundRobin Ptr} {p : Ptr} : Interleaving n s r →
      s.allocated p = true → s.status p = .ready → s.threadExit = some s' → Interleaving n s' r.exit

/-! ## `thread_create` -/

theorem Turn.create {stack : Ptr} {pid : Pid} {tid : Fin maxThreadNum} (turn : s.Turn r)
    (fresh : s.Fresh stack pid) (run : s.threadCreate stack pid = some (tid, s')) :
    s'.Turn (r.create stack) := by
  obtain ⟨_, next, queue, rfl, lists, _⟩ := created_eq turn.refines.ready fresh run
  have old : ∀ p, p ≠ stack → update s.allocated stack true p = true → s.allocated p = true :=
    fun p other live => (update_of_ne other _ _).symm.trans live
  have notCurrent : r.current ≠ some stack := fun current =>
    Bool.noConfusion (fresh.unallocated.symm.trans (turn.live stack current).1)
  have notQueued := fresh.notMem turn.refines.ready
  refine ⟨⟨lists, turn.refines.current, fun p here => ?_, fun p here => ?_, fun p here => ?_,
    fun p here => ?_⟩, ?_, fun c current => ⟨?_, ?_⟩, fun exited =>
    ⟨by simp [RoundRobin.create], ?_⟩, fun p absent => ?_⟩
  · by_cases same : p = stack
    · simp [same, RoundRobin.create, notCurrent]
    · simpa [same, RoundRobin.create] using turn.refines.run_iff p (old p same here)
  · by_cases same : p = stack
    · simp [same, RoundRobin.create]
    · simpa [same, RoundRobin.create] using turn.refines.ready_iff p (old p same here)
  · by_cases same : p = stack
    · simp [same]
    · simpa [same] using turn.refines.wait p (old p same here)
  · by_cases same : p = stack
    · simp [same, RoundRobin.create, turn.ticks stack fresh.unallocated]
    · simpa [same, RoundRobin.create] using turn.refines.cpuTime p (old p same here)
  · exact (fresh.distinct turn.distinct tid).mono fun p here => ⟨here, rfl⟩
  · have other : c ≠ stack := fun same => notCurrent (same ▸ current)
    exact (update_of_ne other _ _).trans (turn.live c current).1
  · have other : c ≠ stack := fun same => notCurrent (same ▸ current)
    simp [RoundRobin.create, (turn.live c current).2, other]
  · exact (turn.others exited).2
  · have other : p ≠ stack := by
      rintro rfl
      simp at absent
    exact turn.ticks p ((update_of_ne other _ _).symm.trans absent)

/-! ## Ticks -/

/-- The head of the queue is selected, while nothing runs. -/
theorem refines_select (lists : (x.popReady t l).Lists .ready l) (fresh : t ∉ l)
    (live : x.allocated t = true) (run : ∀ p, x.allocated p = true → x.status p ≠ .run)
    (ready : ∀ p, x.allocated p = true → (x.status p = .ready ↔ p ∈ t :: l))
    (wait : ∀ p, x.allocated p = true → x.status p ≠ .wait)
    (cpuTime : ∀ p, x.allocated p = true → x.cpuTime p = timeslice * r.ticks p) :
    ((x.popReady t l).select t).Refines (r.select t l) := by
  have status : x.status t = .ready := (ready t live).mpr (by simp)
  have alive : x.status t ≠ .zombie := by
    rw [status]
    decide
  refine ⟨lists.congr rfl (fun _ _ => rfl) lists.live, rfl, fun p here => ?_, fun p here => ?_,
    fun p here => ?_, fun p here => ?_⟩
  · by_cases same : p = t
    · simp [same, alive, RoundRobin.select]
    · have stopped := run p here
      simp [same, alive, RoundRobin.select, stopped, Ne.symm same]
  · by_cases same : p = t
    · simp [same, alive, RoundRobin.select, fresh]
    · have queued := ready p here
      simp only [List.mem_cons, same, false_or] at queued
      simp [same, alive, RoundRobin.select, queued]
  · by_cases same : p = t
    · simp [same, alive]
    · simpa [same, alive] using wait p here
  · by_cases same : p = t
    · rw [same]
      simp [RoundRobin.select, cpuTime t live, Nat.mul_add]
    · simpa [same, RoundRobin.select] using cpuTime p here

namespace Turn

theorem select (turn : s.Turn r) (refines : s'.Refines (r.select t l)) (fresh : t ∉ l)
    (same : s'.allocated = s.allocated ∧ s'.pid = s.pid) (live : s.allocated t = true) :
    s'.Turn (r.select t l) := by
  refine ⟨refines, turn.distinct.mono fun p here => ⟨same.1 ▸ here, congrFun same.2 p⟩,
    fun c current => ?_, fun exited => by simp [RoundRobin.select] at exited,
    fun p absent => ?_⟩
  · obtain rfl : t = c := by simpa [RoundRobin.select] using current
    exact ⟨same.1 ▸ live, fresh⟩
  · rw [same.1] at absent
    have other : p ≠ t := by
      rintro rfl
      exact Bool.noConfusion (absent.symm.trans live)
    simpa [RoundRobin.select, other] using turn.ticks p absent

/-- A tick succeeds and is a tick of round robin. -/
theorem exists_timer (turn : s.Turn r) (created : r.current = none → r.queue ≠ []) :
    ∃ s', s.timer = some s' ∧ s'.Turn r.tick ∧ s'.pThreadTbEnt = s.pThreadTbEnt := by
  obtain ⟨current, exited, queue, ticks⟩ := r
  have refines := turn.refines
  have nodup := refines.ready.nodup
  cases queue with
  | nil =>
      have alive : exited = false := by
        cases exited with
        | true => exact absurd rfl (turn.others rfl).1
        | false => rfl
      cases current with
      | none => exact absurd rfl (created rfl)
      | some c =>
          have live := (turn.live c rfl).1
          have running : s.status c = .run := (refines.run_iff c live).mpr ⟨rfl, alive⟩
          refine ⟨_, timer_alone refines.current live (turn.distinct.positive c live) refines.ready,
            ?_, rfl⟩
          refine turn.select ⟨?_, ?_, fun p here => ?_, fun p here => ?_, fun p here => ?_,
            fun p here => ?_⟩ (by simp) ⟨rfl, rfl⟩ live
          · exact refines.ready.congr rfl (fun _ _ => rfl) refines.ready.live
          · exact refines.current
          · by_cases same : p = c
            · simp [same, kill, running, RoundRobin.select]
            · have stopped := refines.run_iff p here
              simp only [Option.some.injEq, Ne.symm same, false_and, iff_false] at stopped
              simp [same, kill, running, RoundRobin.select, stopped, Ne.symm same]
          · by_cases same : p = c
            · simp [same, kill, running, RoundRobin.select]
            · have idle := refines.ready_iff p here
              simp only [List.not_mem_nil, iff_false] at idle
              simp [same, kill, running, RoundRobin.select, idle]
          · by_cases same : p = c
            · simp [same, kill, running]
            · simpa [same, kill, running] using refines.wait p here
          · by_cases same : p = c
            · rw [same]
              simp [RoundRobin.select, kill, refines.cpuTime c live, Nat.mul_add]
            · simpa [same, RoundRobin.select, kill] using refines.cpuTime p here
  | cons t l =>
      have first := refines.ready.live t (by simp)
      have fresh := (List.nodup_cons.mp nodup).1
      have positive' := turn.distinct.positive t first
      cases current with
      | none =>
          refine ⟨_, timer_first refines.ready refines.current, ?_, rfl⟩
          refine turn.select (refines_select refines.ready.popReady fresh first (fun p here => ?_)
            refines.ready_iff refines.wait refines.cpuTime) fresh ⟨rfl, rfl⟩ first
          have stopped := refines.run_iff p here
          simpa using stopped
      | some c =>
          obtain ⟨live, outside⟩ := turn.live c rfl
          have positive := turn.distinct.positive c live
          cases exited with
          | true =>
              have gone : s.status c = .zombie := by
                have stopped := refines.run_iff c live
                have idle := refines.ready_iff c live
                have busy := refines.wait c live
                cases status : s.status c with
                | run => simp [status] at stopped
                | ready => exact absurd (idle.mp status) outside
                | wait => exact absurd status busy
                | zombie => rfl
              refine ⟨_, timer_zombie refines.current live positive positive' refines.ready gone,
                ?_, rfl⟩
              refine turn.select (refines_select (Lists.popReady ?_) fresh first (fun p here => ?_)
                refines.ready_iff refines.wait refines.cpuTime) fresh ⟨rfl, rfl⟩ first
              · exact refines.ready.congr rfl (fun _ _ => rfl) refines.ready.live
              · have stopped := refines.run_iff p here
                simpa [kill] using stopped
          | false =>
              have running : s.status c = .run := (refines.run_iff c live).mpr ⟨rfl, rfl⟩
              have alive : s.status c ≠ .zombie ∧ s.status c ≠ .wait := by
                rw [running]
                decide
              obtain ⟨next, queue, run, lists, _⟩ := timer_switch refines.current live positive
                positive' refines.ready alive.1 alive.2 outside
              have fresh' : t ∉ l ++ [c] := by
                have other : t ≠ c := fun same => outside (by simp [same])
                simp [fresh, other]
              refine ⟨_, run, turn.select (refines_select lists fresh' first (fun p here => ?_)
                (fun p here => ?_) (fun p here => ?_) refines.cpuTime) fresh' ⟨rfl, rfl⟩ first, rfl⟩
              · by_cases same : p = c
                · simp [same, setStatus]
                · have stopped := refines.run_iff p here
                  simpa [same, setStatus, kill, Ne.symm same] using stopped
              · by_cases same : p = c
                · simp [same, setStatus]
                · simpa [same, setStatus, kill] using refines.ready_iff p here
              · by_cases same : p = c
                · simp [same, setStatus]
                · simpa [same, setStatus, kill] using refines.wait p here

/-- The running thread exits while another one is ready. -/
theorem exit (turn : s.Turn r) {p : Ptr} (live : s.allocated p = true) (ready : s.status p = .ready)
    (run : s.threadExit = some s') : s'.Turn r.exit := by
  have refines := turn.refines
  obtain ⟨c, current, rest⟩ := Option.bind_eq_some_iff.mp run
  obtain rfl := Option.some.inj rest
  obtain ⟨current, live'⟩ := deref_eq_some.mp current
  have here : r.current = some c := refines.current.symm.trans current
  have queued : p ∈ r.queue := (refines.ready_iff p live).mp ready
  have outside := (turn.live c here).2
  refine ⟨⟨refines.ready.congr rfl (fun _ _ => rfl) refines.ready.live, refines.current,
    fun a live₁ => ?_, fun a live₁ => ?_, fun a live₁ => ?_, refines.cpuTime⟩,
    turn.distinct.mono fun a live₁ => ⟨live₁, rfl⟩, turn.live,
    fun _ => ⟨List.ne_nil_of_mem queued, by simp [RoundRobin.exit, here]⟩, turn.ticks⟩
  · by_cases same : a = c
    · simp [same, setStatus, RoundRobin.exit]
    · have stopped := refines.run_iff a live₁
      simp only [here, Option.some.injEq, Ne.symm same, false_and, iff_false] at stopped
      simp [same, setStatus, RoundRobin.exit, stopped]
  · by_cases same : a = c
    · simp [same, setStatus, RoundRobin.exit, outside]
    · simpa [same, setStatus, RoundRobin.exit] using refines.ready_iff a live₁
  · by_cases same : a = c
    · simp [same, setStatus]
    · simpa [same, setStatus] using refines.wait a live₁

end Turn

/-! ## Runs -/

/-- Behind `Init` there is nothing to serve. -/
theorem Initial.turn (initial : s.Initial) : s.Turn .empty := by
  have distinct := initial.distinct
  obtain ⟨s₀, unallocated, current, _, rfl⟩ := initial
  have absent : ∀ {p}, s₀.init.allocated p = true → False := fun {p} live =>
    Bool.noConfusion ((unallocated p).symm.trans live)
  have lists : s₀.init.Lists .ready [] :=
    ⟨rfl, fun nonempty => absurd rfl nonempty, fun nonempty => absurd rfl nonempty, List.nodup_nil,
      fun _ member => by cases member⟩
  exact ⟨⟨lists, current, fun _ live => (absent live).elim, fun _ live => (absent live).elim,
    fun _ live => (absent live).elim, fun _ live => (absent live).elim⟩, distinct,
    fun _ here => absurd here (by simp [RoundRobin.empty]),
    fun exited => absurd exited (by simp [RoundRobin.empty]), fun _ _ => rfl⟩

theorem Interleaving.created (run : Interleaving n s r) : r.current = none → r.queue ≠ [] := by
  induction run with
  | first => exact fun _ => by simp [RoundRobin.create]
  | create => exact fun _ => by simp [RoundRobin.create]
  | @tick _ s s' r _ _ created =>
      intro none
      obtain ⟨current, exited, queue, ticks⟩ := r
      cases current with
      | some c => cases queue <;> simp [RoundRobin.tick, RoundRobin.select] at none
      | none =>
          cases queue with
          | nil => exact absurd rfl (created rfl)
          | cons t l => simp [RoundRobin.tick, RoundRobin.select] at none
  | exit _ _ _ _ created => exact created

private theorem Interleaving.turn (run : Interleaving n s r) : s.Turn r := by
  induction run with
  | first initial fresh create => exact initial.turn.create fresh create
  | create _ fresh create turn => exact turn.create fresh create
  | tick before tick turn =>
      obtain ⟨s', tick', turn', _⟩ := turn.exists_timer before.created
      rwa [Option.some.inj (tick.symm.trans tick')]
  | exit _ live ready exit turn => exact turn.exit live ready exit

/-- Consecutive ticks. -/
def ticks : Nat → Threads → Option Threads
  | 0, s => some s
  | k + 1, s => s.timer.bind (ticks k)

theorem Interleaving.used (run : Interleaving n s r) : s.Used n := by
  induction run with
  | @first s₀ s stack pid tid initial fresh create =>
      obtain ⟨unused, _, _, rfl, _⟩ := created_eq initial.turn.refines.ready fresh create
      exact initial.used.born (initial.used.unusedTid unused) stack pid
  | @create n s s' r stack pid tid before fresh create used =>
      obtain ⟨unused, _, _, rfl, _⟩ := created_eq before.turn.refines.ready fresh create
      exact used.born (used.unusedTid unused) stack pid
  | tick before tick used =>
      obtain ⟨s', tick', _, table⟩ := before.turn.exists_timer before.created
      obtain rfl := Option.some.inj (tick.symm.trans tick')
      intro tid
      rw [table]
      exact used tid
  | exit _ _ _ exit used =>
      obtain ⟨c, _, rest⟩ := Option.bind_eq_some_iff.mp exit
      obtain rfl := Option.some.inj rest
      exact used

private theorem Interleaving.exists_ticks (k : Nat) : ∀ {s : Threads} {r : RoundRobin Ptr},
    Interleaving n s r → ∃ s', ticks k s = some s' ∧ Interleaving n s' (RoundRobin.tick^[k] r) := by
  induction k with
  | zero => exact fun {s} _ run => ⟨s, rfl, run⟩
  | succ k induction =>
      intro s r run
      obtain ⟨s₁, tick, _⟩ := run.turn.exists_timer run.created
      obtain ⟨s', rest, run'⟩ := induction (run.tick tick)
      refine ⟨s', ?_, run'⟩
      rw [ticks, tick, Option.bind_some, rest]

theorem Turn.mem_order_iff (turn : s.Turn r) {p : Ptr} (live : s.allocated p = true) :
    p ∈ r.order ↔ s.status p ≠ .zombie := by
  have running := turn.refines.run_iff p live
  have queued := turn.refines.ready_iff p live
  have busy := turn.refines.wait p live
  have member : p ∈ r.order ↔ p ∈ r.queue ∨ r.current = some p ∧ r.exited = false := by
    cases exited : r.exited with
    | true => simp [RoundRobin.order, exited]
    | false =>
        cases current : r.current with
        | none => simp [RoundRobin.order, exited, current]
        | some c => simp [RoundRobin.order, exited, current, eq_comm]
  rw [member, ← running, ← queued]
  cases status : s.status p with
  | run => simp
  | ready => simp
  | wait => exact absurd status busy
  | zombie => simp

theorem Turn.nodup (turn : s.Turn r) : r.order.Nodup := by
  have queue := turn.refines.ready.nodup
  cases exited : r.exited with
  | true => simpa [RoundRobin.order, exited] using queue
  | false =>
      cases current : r.current with
      | none => simpa [RoundRobin.order, exited, current] using queue
      | some c =>
          have outside := (turn.live c current).2
          simp only [RoundRobin.order, exited, current]
          exact List.nodup_append.mpr ⟨queue, by simp, fun a member b same => by
            obtain rfl : b = c := by simpa using same
            exact ne_of_mem_of_not_mem member outside⟩

/-- The scheduler refines round robin.  Every call of a run succeeds: a tick, `thread_create` for
the first 64 threads, and `thread_exit` while a thread runs.  While no thread is created and none
exits, each of the `k` threads that are alive runs exactly once in `k` ticks. -/
theorem refines_roundRobin (run : Interleaving n s r) :
    s.Refines r ∧ (∃ s', s.timer = some s') ∧
      (n < maxThreadNum → ∀ stack pid, s.Fresh stack pid →
        ∃ tid s', s.threadCreate stack pid = some (tid, s')) ∧
      (r.current ≠ none → ∃ s', s.threadExit = some s') ∧
      ∀ k (p : Ptr), s.allocated p = true → s.status p ≠ .zombie → r.order.length = k →
        ∃! i, i < k ∧ ∃ s', ticks (i + 1) s = some s' ∧ s'.pCurrentThread = some p := by
  have turn := run.turn
  refine ⟨turn.refines, ?_, fun room stack pid fresh => ?_, fun busy => ?_, ?_⟩
  · obtain ⟨s', tick, _⟩ := turn.exists_timer run.created
    exact ⟨s', tick⟩
  · obtain ⟨tid, unused⟩ := run.used.exists_unusedTid room
    obtain ⟨_, _, create, _⟩ := exists_threadCreate turn.refines.ready fresh unused
    exact ⟨tid, _, create⟩
  · obtain ⟨c, current⟩ := Option.ne_none_iff_exists'.mp busy
    have here : s.deref s.pCurrentThread = some c := by
      rw [turn.refines.current, current, deref_some (turn.live c current).1]
    exact ⟨_, by rw [threadExit, here]; rfl⟩
  · rintro k p live alive rfl
    have others : r.exited = true → r.queue ≠ [] := fun exited => (turn.others exited).1
    have shows : ∀ i, (∃ s', ticks i s = some s' ∧ s'.pCurrentThread = some p) ↔
        (RoundRobin.tick^[i] r).current = some p := by
      intro i
      obtain ⟨s', ticked, run'⟩ := run.exists_ticks i
      rw [← run'.turn.refines.current]
      constructor
      · rintro ⟨s'', ticked', current⟩
        rwa [Option.some.inj (ticked.symm.trans ticked')]
      · exact fun current => ⟨s', ticked, current⟩
    simp only [shows]
    exact RoundRobin.existsUnique_current turn.nodup others ((turn.mem_order_iff live).mpr alive)

/-- Two threads are created and the first one runs. -/
theorem refines_roundRobin_two : ∃ s r, Interleaving 2 s r ∧ r.current = some 1 ∧ r.queue = [2] ∧
    s.Refines r ∧ ∃ s', s.timer = some s' := by
  have fresh₀ : blank.init.Fresh 1 11 := ⟨rfl, by decide, fun _ live => Bool.noConfusion live⟩
  obtain ⟨tid₁, unused₁⟩ := initial_blank.used.exists_unusedTid (by decide)
  obtain ⟨next, queue, create₁, _⟩ :=
    exists_threadCreate initial_blank.turn.refines.ready fresh₀ unused₁
  have run₁ := Interleaving.first initial_blank fresh₀ create₁
  have fresh₁ : (blank.init.born 1 11 tid₁).Fresh 2 12 := by
    refine ⟨rfl, by decide, fun p live => ?_⟩
    by_cases same : p = 1
    · simp [same]
    · simp [same, blank, init] at live
  obtain ⟨tid₂, unused₂⟩ := run₁.used.exists_unusedTid (by decide)
  obtain ⟨_, _, create₂, _⟩ := exists_threadCreate run₁.turn.refines.ready
    (fresh₁.relink _ _ _ _) unused₂
  have run₂ := run₁.create (fresh₁.relink _ _ _ _) create₂
  obtain ⟨s, tick, _⟩ := run₂.turn.exists_timer run₂.created
  have run := run₂.tick tick
  have refines := refines_roundRobin run
  exact ⟨s, _, run, rfl, rfl, refines.1, refines.2.1⟩

end KwHomework.Threads
