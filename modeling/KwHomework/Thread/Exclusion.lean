import KwHomework.Scheduling.CheckThenAct
import KwHomework.Thread.Statements

/-!
# Mutual exclusion

`thread_sem_wait` tests `count` and takes it in a later statement, and a tick can come in between.
Threads that pass the test only while `count` is larger than the number of threads between the two
statements refine a counter whose units are taken once.
-/

namespace KwHomework.Threads

open Function Relation CheckThenAct

variable {s s' : Threads} {q back : QueueName} {semid : Fin maxSemaphoreNum} {t : Ptr}
  {m m' : Machine}
  {c : Nat}

/-- Whether a thread has passed the test of `count`, or has taken its unit. -/
def Point.phase : Point → Phase
  | .decrement => .passed
  | .returns | .holding | .testWaiting | .increment _ => .inside
  | _ => .outside

/-- The counter behind a semaphore. -/
def Machine.counter (m : Machine) (semid : Fin maxSemaphoreNum) : Counter Ptr :=
  ⟨m.memory.count semid, fun p => (m.frame p).point.phase⟩

/-- The threads between the test of `count` and its decrement. -/
def Machine.between (m : Machine) : Set Ptr := {p | (m.frame p).point = .decrement}

/-- The threads that have returned from `thread_sem_wait` and not called `thread_sem_post` since. -/
def Machine.holders (m : Machine) : Set Ptr := {p | (m.frame p).point = .holding}

/-- A thread passes the test of `count` only while `count` is larger than the number of threads
between this test and the decrement. -/
def Machine.Careful (semid : Fin maxSemaphoreNum) (m : Machine) : Move → Prop
  | .statement => ∀ p, m.memory.pCurrentThread = some p →
      (m.frame p).point = .testCount ∨ (m.frame p).point = .retestCount →
      m.memory.count semid = 0 ∨ (m.between.ncard : Int) < m.memory.count semid
  | .tick => True

/-- A semaphore that has been opened with count `c`, and threads that have not used it yet. -/
structure Machine.Opened (m : Machine) (semid : Fin maxSemaphoreNum) (c : Nat) : Prop where
  count : m.memory.count semid = c
  empty : (m.memory.queue (.semaphore semid)).queueCount = 0
  outside : ∀ p, (m.frame p).point = .self

/-- The machines that allowed moves reach from an opened semaphore. -/
inductive Machine.Reached (semid : Fin maxSemaphoreNum) (c : Nat)
    (allowed : Machine → Move → Prop) :
    Machine → Prop
  | start {m : Machine} : m.Opened semid c → Reached semid c allowed m
  | move {m m' : Machine} {x : Move} : Reached semid c allowed m → allowed m x →
      m.move semid x = some m' → Reached semid c allowed m'

/-! ## What does not touch `count` -/

private theorem count_of_noThread {pid : Pid} (run : s.noThread pid = some s') :
    s'.count = s.count := by
  obtain ⟨p, _, rest⟩ := Option.bind_eq_some_iff.mp run
  rw [← Option.some.inj rest]
  split_ifs
  · rfl
  · rfl

private theorem count_of_dispatch {pid : Pid} (run : s.dispatch pid = some s') :
    s'.count = s.count := by
  rw [dispatch] at run
  split_ifs at run
  · obtain ⟨head, _, rest⟩ := Option.bind_eq_some_iff.mp run
    exact (count_of_noThread rest :)
  · exact (count_of_noThread run :)

private theorem count_of_contextSwitch {curpid newpid : Pid}
    (run : s.contextSwitch curpid newpid = some s') :
    s'.count = s.count := by
  rw [contextSwitch] at run
  split_ifs at run
  · exact count_of_dispatch run
  · exact count_of_noThread run
  · obtain ⟨p, _, rest⟩ := Option.bind_eq_some_iff.mp run
    split_ifs at rest
    · exact (count_of_dispatch rest :)
    · obtain ⟨s₁, appended, rest⟩ := Option.bind_eq_some_iff.mp rest
      obtain ⟨next, prev, queue, rfl⟩ := relink_of_append appended
      exact (count_of_dispatch rest :)

/-- A tick does not touch `count`. -/
theorem count_of_timer (run : s.timer = some s') : s'.count = s.count := by
  cases current : s.pCurrentThread with
  | none =>
      simp only [timer, current] at run
      obtain ⟨head, _, rest⟩ := Option.bind_eq_some_iff.mp run
      exact count_of_contextSwitch rest
  | some p =>
      simp only [timer, current] at run
      obtain ⟨p', _, rest⟩ := Option.bind_eq_some_iff.mp run
      have stopped : (if s.pid p' = 0 then s else s.kill (s.pid p') .stop).count = s.count := by
        split_ifs
        · rfl
        · rfl
      rw [← stopped]
      generalize (if s.pid p' = 0 then s else s.kill (s.pid p') .stop) = x at rest
      by_cases ready : 0 < (x.queue .ready).queueCount
      · rw [if_pos ready] at rest
        obtain ⟨head, _, rest⟩ := Option.bind_eq_some_iff.mp rest
        exact count_of_contextSwitch rest
      · rw [if_neg ready] at rest
        by_cases empty : (x.queue .ready).queueCount = 0
        · rw [if_pos empty] at rest
          exact count_of_contextSwitch rest
        · rw [if_neg empty] at rest
          rw [← Option.some.inj rest]

private theorem count_of_appendStatement {a : Append}
    (run : s.appendStatement q back t a = some s') :
    s'.count = s.count := by
  obtain ⟨next, prev, queue, rfl⟩ := relink_of_appendStatement run
  rfl

private theorem count_of_unlinkStatement {a : Unlink} (run : s.unlinkStatement q t a = some s') :
    s'.count = s.count := by
  obtain ⟨next, prev, queue, rfl⟩ := relink_of_unlinkStatement run
  rfl

/-! ## Statements -/

private theorem keeps_of_append {tid : Fin maxThreadNum} {a : Append} {f' : Frame}
    (point : Append → Point) (after : Point) (same : ∀ b, (point b).phase = after.phase)
    (run : ((s.thread tid).bind fun t => (s.appendStatement q back t a).bind fun x =>
      some (x, (⟨a.next.elim after point, tid⟩ : Frame))) = some (s', f')) :
    f'.point.phase = after.phase ∧ s'.count semid = s.count semid := by
  obtain ⟨t, _, rest⟩ := Option.bind_eq_some_iff.mp run
  obtain ⟨s₁, appended, rest⟩ := Option.bind_eq_some_iff.mp rest
  obtain ⟨rfl, rfl⟩ := Prod.mk.inj (Option.some.inj rest)
  refine ⟨?_, congrFun (count_of_appendStatement appended) semid⟩
  cases a.next with
  | none => rfl
  | some b => exact same b

/-- The statements of `thread_sem_post` behind the one that gives the unit back. -/
private def Point.wakes : Point → Bool
  | .search | .testThread | .testPid | .nextThread | .testPlace _ | .unlink _ | .countDown
  | .setReady | .testReady | .enqueueReady _ => true
  | _ => false

private theorem Point.phase_of_wakes {point : Point} (wakes : point.wakes = true) :
    point.phase = .outside := by
  cases point <;> first | rfl | cases wakes

/-- A thread that wakes another one up is outside, whatever the tests of the search say. -/
private theorem keeps_of_wakes {f f' : Frame} (wakes : f.point.wakes = true)
    (run : s.statement semid f = some (s', f')) :
    f'.point.phase = .outside ∧ s'.count semid = s.count semid := by
  obtain ⟨point, tid⟩ := f
  cases point with
  | search | countDown | testReady =>
      obtain ⟨rfl, rfl⟩ := Prod.mk.inj (Option.some.inj run)
      exact ⟨rfl, rfl⟩
  | testThread =>
      obtain ⟨rfl, rfl⟩ := Prod.mk.inj (Option.some.inj run)
      exact ⟨(apply_ite Point.phase _ _ _).trans (ite_self _), rfl⟩
  | testPid =>
      obtain ⟨t, _, rest⟩ := Option.bind_eq_some_iff.mp run
      obtain ⟨head, _, rest⟩ := Option.bind_eq_some_iff.mp rest
      obtain ⟨rfl, rfl⟩ := Prod.mk.inj (Option.some.inj rest)
      exact ⟨(apply_ite Point.phase _ _ _).trans (ite_self _), rfl⟩
  | nextThread =>
      simp only [statement] at run
      split_ifs at run
      obtain ⟨rfl, rfl⟩ := Prod.mk.inj (Option.some.inj run)
      exact ⟨rfl, rfl⟩
  | testPlace place =>
      obtain ⟨t, _, rest⟩ := Option.bind_eq_some_iff.mp run
      obtain ⟨rfl, rfl⟩ := Prod.mk.inj (Option.some.inj rest)
      have onward : place.otherwise.phase = .outside := by
        cases place with
        | inner => rfl
        | first => rfl
        | last => rfl
      refine ⟨?_, rfl⟩
      split_ifs
      · rfl
      · exact onward
  | unlink a =>
      obtain ⟨t, _, rest⟩ := Option.bind_eq_some_iff.mp run
      obtain ⟨s₁, unlinked, rest⟩ := Option.bind_eq_some_iff.mp rest
      obtain ⟨rfl, rfl⟩ := Prod.mk.inj (Option.some.inj rest)
      refine ⟨?_, congrFun (count_of_unlinkStatement unlinked) semid⟩
      cases a.next with
      | none => rfl
      | some b => rfl
  | setReady =>
      obtain ⟨t, _, rest⟩ := Option.bind_eq_some_iff.mp run
      obtain ⟨rfl, rfl⟩ := Prod.mk.inj (Option.some.inj rest)
      exact ⟨rfl, rfl⟩
  | enqueueReady a => exact keeps_of_append .enqueueReady .self (fun _ => rfl) run
  | _ => cases wakes

theorem statement_cases {f f' : Frame} (run : s.statement semid f = some (s', f')) :
    f'.point.phase = f.point.phase ∧ s'.count semid = s.count semid ∨
    (f.point = .testCount ∨ f.point = .retestCount) ∧ f'.point.phase = .passed ∧
      s.count semid ≠ 0 ∧ s'.count semid = s.count semid ∨
    f.point.phase = .passed ∧ f'.point.phase = .inside ∧ s'.count semid = s.count semid - 1 ∨
    f.point.phase = .inside ∧ f'.point.phase = .outside ∧
      s'.count semid = s.count semid + 1 := by
  by_cases wakes : f.point.wakes = true
  · rw [Point.phase_of_wakes wakes]
    exact Or.inl (keeps_of_wakes wakes run)
  obtain ⟨point, tid⟩ := f
  cases point with
  | self | start | setWait | stop =>
      obtain ⟨_, _, rest⟩ := Option.bind_eq_some_iff.mp run
      obtain ⟨rfl, rfl⟩ := Prod.mk.inj (Option.some.inj rest)
      exact Or.inl ⟨rfl, rfl⟩
  | testCount | retestCount =>
      obtain ⟨rfl, rfl⟩ := Prod.mk.inj (Option.some.inj run)
      by_cases zero : s.count semid = 0
      · simp [zero, Point.phase]
      · simp [zero, Point.phase]
  | testQueue | returns | holding | testWaiting =>
      obtain ⟨rfl, rfl⟩ := Prod.mk.inj (Option.some.inj run)
      exact Or.inl ⟨rfl, rfl⟩
  | enqueue a => exact Or.inl (keeps_of_append .enqueue .setWait (fun _ => rfl) run)
  | decrement =>
      obtain ⟨rfl, rfl⟩ := Prod.mk.inj (Option.some.inj run)
      exact Or.inr (Or.inr (Or.inl ⟨rfl, rfl, update_self _ _ _⟩))
  | increment waiting =>
      obtain ⟨rfl, rfl⟩ := Prod.mk.inj (Option.some.inj run)
      have leaves : (if waiting then Point.search else .self).phase = .outside :=
        (apply_ite Point.phase _ _ _).trans (ite_self _)
      exact Or.inr (Or.inr (Or.inr ⟨rfl, leaves, update_self _ _ _⟩))
  | _ => exact absurd rfl wakes

private theorem phase_eq_passed_iff {point : Point} : point.phase = .passed ↔
    point = .decrement := by
  cases point <;> simp [Point.phase]

/-! ## Refinement -/

theorem Machine.counter_update (memory : Threads) (p : Ptr) (f : Frame) :
    counter ⟨memory, update m.frame p f⟩ semid =
      ⟨memory.count semid, update (m.counter semid).phase p f.point.phase⟩ := by
  simp only [counter, Counter.mk.injEq, true_and]
  funext p'
  exact apply_update (fun _ f => f.point.phase) m.frame p f p'

/-- A careful move is a step of the counter, or none. -/
theorem Machine.refines {x : Move} (careful : m.Careful semid x) (move : m.move semid x = some m') :
    m'.counter semid = m.counter semid ∨ Counter.Step (m.counter semid) (m'.counter semid) := by
  cases x with
  | tick =>
      obtain ⟨s, ticked, rest⟩ := Option.bind_eq_some_iff.mp move
      rw [← Option.some.inj rest]
      left
      simp only [counter, count_of_timer ticked]
  | statement =>
      obtain ⟨p, followed, rest⟩ := Option.bind_eq_some_iff.mp move
      obtain ⟨current, _⟩ := deref_eq_some.mp followed
      split_ifs at rest
      obtain ⟨⟨s, f⟩, run, rest⟩ := Option.bind_eq_some_iff.mp rest
      rw [← Option.some.inj rest, counter_update]
      rcases statement_cases run with ⟨phase, count⟩ | ⟨test, phase, positive, count⟩ |
        ⟨here, phase, count⟩ | ⟨here, phase, count⟩
      · left
        rw [phase, count]
        simp only [counter, update_eq_self]
      · right
        have here : (m.frame p).point.phase = .outside := by
          rcases test with first | again
          · rw [first]
            rfl
          · rw [again]
            rfl
        have between : (m.counter semid).clients .passed = m.between := by
          ext p'
          exact phase_eq_passed_iff
        rw [phase, count]
        refine Counter.Step.pass here ?_
        rw [between]
        exact (careful p current test).resolve_left positive
      · right
        rw [phase, count]
        exact Counter.Step.take here
      · right
        rw [phase, count]
        exact Counter.Step.give here

theorem Machine.Reached.steps (reached : Reached semid c (Careful semid) m) :
    ∃ m₀ : Machine, m₀.Opened semid c ∧
      ReflTransGen Counter.Step (m₀.counter semid) (m.counter semid) := by
  induction reached with
  | start opened => exact ⟨_, opened, .refl⟩
  | move _ careful move induction =>
      obtain ⟨m₀, opened, steps⟩ := induction
      refine ⟨m₀, opened, ?_⟩
      rcases refines careful move with same | step
      · rwa [same]
      · exact steps.tail step

/-- As long as no thread passes the test of `count` too early, `count` is not negative and at most
`c` threads are between `thread_sem_wait` and `thread_sem_post`. -/
theorem Machine.excludes_of_run (reached : Reached semid c (Careful semid) m) :
    0 ≤ m.memory.count semid ∧ m.holders.encard ≤ c := by
  obtain ⟨m₀, opened, steps⟩ := reached.steps
  have start : (m₀.counter semid).Bounded c := by
    refine Counter.bounded_of_outside opened.count (by omega) fun p => ?_
    simp only [counter, opened.outside p]
    rfl
  obtain ⟨positive, few⟩ := (start.steps steps).safe
  refine ⟨positive, le_trans (Set.encard_le_encard fun p holds => ?_) few⟩
  have here : (m.frame p).point = .holding := holds
  simp only [Counter.clients, counter, Set.mem_ofPred_eq, here]
  rfl

/-- Two threads, the first of which runs, and semaphores of one unit. -/
def twoClients : Machine := ⟨twoThreads, fun _ => ⟨.self, ⟨0, Nat.succ_pos 63⟩⟩⟩

/-- The first thread takes the unit before a tick comes. -/
theorem Machine.excludes_of_run_two : ∃ m,
    [Move.statement, .statement, .statement, .statement, .tick].foldlM (Machine.move 0) twoClients =
      some m ∧ m.memory.count 0 = 0 ∧ m.memory.pCurrentThread = some 2 ∧ m.holders.encard ≤ 1 := by
  have start : Reached 0 1 (Careful 0) twoClients := .start ⟨rfl, rfl, fun _ => rfl⟩
  have aside : ∀ {m : Machine} {p}, m.memory.pCurrentThread = some p →
      (m.frame p).point ≠ .testCount → (m.frame p).point ≠ .retestCount →
      m.Careful 0 .statement := by
    intro m p current first again p' current' test
    obtain rfl := Option.some.inj (current.symm.trans current')
    exact absurd test (not_or.mpr ⟨first, again⟩)
  have one := start.move (x := .statement) (aside (p := 1) rfl (by decide) (by decide)) rfl
  have two := one.move (x := .statement) (aside (p := 1) rfl (by decide) (by decide)) rfl
  have three := two.move (x := .statement) (fun p _ _ => Or.inr ?_) rfl
  · have four := three.move (x := .statement) (aside (p := 1) rfl (by decide) (by decide)) rfl
    have five := four.move (x := .tick) trivial rfl
    exact ⟨_, rfl, rfl, rfl, (excludes_of_run five).2⟩
  · have empty : ∀ {m : Machine}, (∀ p, (m.frame p).point ≠ .decrement) → m.between = ∅ :=
      fun elsewhere => Set.eq_empty_of_forall_notMem elsewhere
    rw [empty, Set.ncard_empty]
    · decide
    · intro p'
      by_cases same : p' = 1
      · subst same
        decide
      · let start : Frame := ⟨.self, ⟨0, Nat.succ_pos 63⟩⟩
        change (update (update (fun _ => start) 1 _) 1 _ p').point ≠ _
        rw [update_of_ne same, update_of_ne same]
        nofun

/-- Both threads get through `thread_sem_wait`: a tick stops the first one behind its test. -/
theorem Machine.not_excludes_of_tick : twoClients.Opened 0 1 ∧ ∃ m : Machine,
    [Move.statement, .statement, .statement, .tick, .statement, .statement, .statement, .statement,
      .statement, .tick, .statement, .statement].foldlM (Machine.move 0) twoClients = some m ∧
    m.memory.count 0 = -1 ∧ (m.frame 1).point = .holding ∧ (m.frame 2).point = .holding ∧
    ¬ (0 ≤ m.memory.count 0 ∧ m.holders.encard ≤ 1) := by
  refine ⟨⟨rfl, rfl, fun _ => rfl⟩, _, rfl, rfl, rfl, rfl, fun safe => ?_⟩
  exact absurd safe.1 (by decide)

end KwHomework.Threads
