import KwHomework.Thread.SemaphoreTable
import KwHomework.Thread.Turns

/-!
# No wake-up is lost

Threads that call `thread_sem_wait` and `thread_sem_post` use the semaphores as pools of units.  A
woken thread is ready or runs until it has looked at `count` again, so a thread that sleeps beside a
free unit is followed by a thread that takes it.  This is so as long as no tick comes inside a call.
-/

namespace KwHomework.Threads

open Function LinkedList

variable {s s' : Threads} {table table' : SemaphoreTbl} {a : Pools} {pool : UnitPool Ptr}
  {L : QueueName → List Ptr} {c t p : Ptr} {stack : Ptr} {pid : Pid} {tid : Fin maxThreadNum}
  {semid i j : Fin maxSemaphoreNum} {R : List Ptr}

namespace Pools

private theorem asleep_of (opened : a i = some pool) : a.asleep i = pool.asleep := by
  rw [asleep, opened]
  rfl

private theorem woken_of (opened : a i = some pool) : a.woken i = pool.woken := by
  rw [woken, opened]
  rfl

private theorem asleep_update (a : Pools) (i : Fin maxSemaphoreNum) (pool : UnitPool Ptr) :
    asleep (update a i (some pool)) = update a.asleep i pool.asleep := by
  funext j
  by_cases here : j = i
  · subst here
    simp [asleep]
  · simp [asleep, here]

private theorem woken_update (a : Pools) (i : Fin maxSemaphoreNum) (pool : UnitPool Ptr) :
    woken (update a i (some pool)) = update a.woken i pool.woken := by
  funext j
  by_cases here : j = i
  · subst here
    simp [woken]
  · simp [woken, here]

end Pools

/-- The memory shows the pools. -/
structure Serves (s : Threads) (table : SemaphoreTbl) (a : Pools) (L : QueueName → List Ptr) :
    Prop where
  steady : s.Steady L
  tabled : s.Tabled
  used : ∀ i, (table i).bUsed = (a i).isSome
  asleep : ∀ i, L (.semaphore i) = a.asleep i
  waits : ∀ i, ∀ p ∈ a.asleep i, s.status p = .wait
  /-- A woken thread has not been left behind. -/
  woken : ∀ i, ∀ p ∈ a.woken i, p ∈ L .ready ∨ s.Runs p
  apart : ∀ {i j p}, p ∈ a.woken i → p ∈ a.woken j → i = j
  count : ∀ i pool, a i = some pool → s.count i = pool.free
  sound : ∀ i pool, a i = some pool → pool.Sound

private theorem Runs.unique (runs : s.Runs c) (runs' : s.Runs p) : c = p :=
  Option.some.inj (runs.1.symm.trans runs'.1)

private theorem Initial.serves (initial : s.Initial)
    (null : ∀ tid, (s.pThreadTbEnt tid).pThread = none)
    (unused : ∀ semid, (table semid).bUsed = false) : s.Serves table (fun _ => none) fun _ =>
    [] := by
  have steady := initial.steady
  obtain ⟨s₀, unallocated, _, _, rfl⟩ := initial
  refine ⟨steady, ⟨fun tid p entry => ?_, fun p live => ?_, fun tid held => absurd (null tid) held⟩,
    unused, fun _ => rfl, fun _ p member => ?_, fun _ p member => ?_, fun member => ?_,
    fun _ _ opened => ?_, fun _ _ opened => ?_⟩
  · exact (Option.some_ne_none p (entry.symm.trans (null tid))).elim
  · exact Bool.noConfusion ((unallocated p).symm.trans live)
  · exact absurd member List.not_mem_nil
  · exact absurd member List.not_mem_nil
  · exact absurd member List.not_mem_nil
  · cases opened
  · cases opened

namespace Serves

variable (serves : s.Serves table a L)
include serves

/-- A running thread does not sleep. -/
theorem notMem_asleep (runs : s.Runs c) (i : Fin maxSemaphoreNum) : c ∉ a.asleep i := by
  rw [← serves.asleep]
  exact serves.steady.notMem_of_runs runs i

/-- A woken thread does not sleep. -/
theorem notMem_of_woken (woken : p ∈ a.woken j) : p ∉ a.asleep i := by
  rcases serves.woken j p woken with ready | runs
  · rw [← serves.asleep]
    exact serves.steady.ready_notMem ready semaphore_ne_ready
  · exact serves.notMem_asleep runs i

theorem notMem_pool (acts : s.Acts a c) (opened : a semid = some pool) :
    c ∉ pool.asleep ++ pool.woken := by
  intro member
  rcases List.mem_append.mp member with asleep | woken
  · exact serves.notMem_asleep acts.1 semid (Pools.asleep_of opened ▸ asleep)
  · exact acts.2 semid (Pools.woken_of opened ▸ woken)

private theorem create (fresh : s.Fresh stack pid)
    (run : s.threadCreate stack pid = some (tid, s')) :
    s'.Serves table a (update L .ready (L .ready ++ [stack])) := by
  have steady' := serves.steady.create fresh run
  have tabled' := serves.tabled.create run
  obtain ⟨_, next, queue, rfl, _⟩ := created_eq (serves.steady.separate.lists .ready) fresh run
  have old : ∀ {p}, s.allocated p = true → p ≠ stack := by
    rintro p live rfl
    exact Bool.noConfusion (fresh.unallocated.symm.trans live)
  refine ⟨steady', tabled', serves.used, fun i => ?_, fun i p asleep => ?_, fun i p woken => ?_,
    serves.apart, serves.count, serves.sound⟩
  · rw [update_of_ne semaphore_ne_ready]
    exact serves.asleep i
  · have live := (serves.steady.separate.lists (.semaphore i)).live p (serves.asleep i ▸ asleep)
    exact (update_of_ne (old live) _ _).trans (serves.waits i p asleep)
  · rw [update_self]
    rcases serves.woken i p woken with ready | runs
    · exact .inl (List.mem_append_left _ ready)
    · have live := (serves.steady.current p runs.1).1
      exact .inr ⟨runs.1, (update_of_ne (old live) _ _).trans runs.2⟩

theorem select (selects : s.Selects s' L t R) (tick : s.timer = some s') :
    s'.Serves table a (update L .ready R) := by
  have asleep_other : ∀ i, ∀ p ∈ a.asleep i, p ≠ t ∧ ¬ s.Runs p := by
    refine fun i p asleep => ⟨?_, fun runs => serves.notMem_asleep runs i asleep⟩
    rintro rfl
    rcases selects.rest with ⟨_, _, runs⟩ | ⟨l, _, ready, _, _⟩
    · exact serves.notMem_asleep runs i asleep
    · have member : p ∈ L .ready := by simp [ready]
      exact serves.steady.ready_notMem member semaphore_ne_ready (serves.asleep i ▸ asleep)
  refine ⟨selects.steady, serves.tabled.congr (calm_timer tick).1, serves.used, fun i => ?_,
    fun i p asleep => ?_, fun i p woken => ?_, serves.apart, fun i pool opened => ?_, serves.sound⟩
  · rw [update_of_ne semaphore_ne_ready]
    exact serves.asleep i
  · obtain ⟨other, idle⟩ := asleep_other i p asleep
    exact (selects.others p other idle).trans (serves.waits i p asleep)
  · rw [update_self]
    rcases selects.rest with ⟨ready, _, here⟩ | ⟨l, back, ready, rfl, rejoins⟩
    · rcases serves.woken i p woken with member | runs
      · exact absurd (ready ▸ member) List.not_mem_nil
      · exact .inr (here.unique runs ▸ selects.runs)
    · rcases serves.woken i p woken with member | runs
      · rcases List.mem_cons.mp (ready ▸ member) with rfl | behind
        · exact .inr selects.runs
        · exact .inl (List.mem_append_left _ behind)
      · exact .inl (List.mem_append_right _ (rejoins p runs))
  · rw [selects.count]
    exact serves.count i pool opened

private theorem exit (acts : s.Acts a c) (run : s.threadExit = some s') : s'.Serves table a L := by
  have steady' := serves.steady.exit run
  obtain ⟨c', followed, marked⟩ := Option.bind_eq_some_iff.mp run
  obtain rfl := Option.some.inj (acts.1.1.symm.trans (deref_eq_some.mp followed).1)
  obtain rfl := Option.some.inj marked
  refine ⟨steady', serves.tabled.congr ⟨rfl, rfl⟩, serves.used, serves.asleep, fun i p asleep => ?_,
    fun i p woken => ?_, serves.apart, serves.count, serves.sound⟩
  · have other : p ≠ c := by
      rintro rfl
      exact serves.notMem_asleep acts.1 i asleep
    exact (update_of_ne other _ _).trans (serves.waits i p asleep)
  · rcases serves.woken i p woken with ready | runs
    · exact .inl ready
    · exact absurd (runs.unique acts.1 ▸ woken) (acts.2 i)

/-! ## Semaphores -/

theorem change {L' : QueueName → List Ptr} {pool' : UnitPool Ptr} (opened : a semid = some pool)
    (steady' : s'.Steady L') (blocks : SameBlocks s s')
    (count : s'.count = update s.count semid pool'.free) (sound : pool'.Sound)
    (asleep : ∀ i, L' (.semaphore i) = update a.asleep semid pool'.asleep i)
    (waits : ∀ i, ∀ p ∈ update a.asleep semid pool'.asleep i, s'.status p = .wait)
    (woken : ∀ i, ∀ p ∈ update a.woken semid pool'.woken i, p ∈ L' .ready ∨ s'.Runs p)
    (apart : ∀ {p}, p ∈ pool'.woken → ∀ i, i ≠ semid → p ∉ a.woken i) :
    s'.Serves table (update a semid (some pool')) L' := by
  have once : ∀ {i j p}, p ∈ update a.woken semid pool'.woken i →
      p ∈ update a.woken semid pool'.woken j → i = j := by
    intro i j p here there
    by_cases left : i = semid
    · by_cases right : j = semid
      · rw [left, right]
      · rw [left, update_self] at here
        rw [update_of_ne right] at there
        exact absurd there (apart here j right)
    · rw [update_of_ne left] at here
      by_cases right : j = semid
      · rw [right, update_self] at there
        exact absurd here (apart there i left)
      · rw [update_of_ne right] at there
        exact serves.apart here there
  refine ⟨steady', serves.tabled.congr blocks, fun i => ?_, ?_, ?_, ?_, ?_, fun i q here => ?_,
    fun i q here => ?_⟩
  · by_cases same : i = semid
    · subst same
      rw [update_self, serves.used, opened]
      rfl
    · rw [update_of_ne same]
      exact serves.used i
  · rwa [Pools.asleep_update]
  · rwa [Pools.asleep_update]
  · rwa [Pools.woken_update]
  · rwa [Pools.woken_update]
  · rw [count]
    by_cases same : i = semid
    · subst same
      rw [update_self] at here ⊢
      rw [Option.some.inj here]
    · rw [update_of_ne same] at here ⊢
      exact serves.count i q here
  · by_cases same : i = semid
    · rw [same, update_self] at here
      exact Option.some.inj here ▸ sound
    · rw [update_of_ne same] at here
      exact serves.sound i q here

theorem recount {pool' : UnitPool Ptr} (opened : a semid = some pool) (sound : pool'.Sound)
    (asleep : pool'.asleep = pool.asleep) (woken : ∀ p ∈ pool'.woken, p ∈ pool.woken) :
    Serves { s with count := update s.count semid pool'.free } table (update a semid (some pool'))
      L := by
  have same : update a.asleep semid pool'.asleep = a.asleep := by
    rw [asleep, ← Pools.asleep_of opened, update_eq_self]
  have old : ∀ {p}, p ∈ pool'.woken → p ∈ a.woken semid := fun member =>
    Pools.woken_of opened ▸ woken _ member
  refine serves.change opened (serves.steady.congr rfl rfl) ⟨rfl, rfl⟩ rfl sound (fun i => ?_)
    (fun i => ?_) (fun i p member => ?_) fun member i other member' =>
      other (serves.apart member' (old member))
  · rw [same]
    exact serves.asleep i
  · rw [same]
    exact serves.waits i
  · by_cases here : i = semid
    · subst here
      rw [update_self] at member
      exact serves.woken i p (old member)
    · rw [update_of_ne here] at member
      exact serves.woken i p member

theorem block {pool' : UnitPool Ptr} (opened : a semid = some pool) (runs : s.Runs c)
    (steady' : s'.Steady (update L (.semaphore semid) (L (.semaphore semid) ++ [c])))
    (marks : Marks s s' c .wait) (count : s'.count = update s.count semid pool'.free)
    (asleep : pool'.asleep = pool.asleep ++ [c])
    (woken : ∀ p ∈ pool'.woken, p ∈ pool.woken ∧ p ≠ c) (away : ∀ i, i ≠ semid → c ∉ a.woken i)
    (sound : pool'.Sound) : s'.Serves table (update a semid (some pool'))
      (update L (.semaphore semid) (L (.semaphore semid) ++ [c])) := by
  have old : ∀ {i p}, p ∈ update a.woken semid pool'.woken i → p ∈ a.woken i ∧ p ≠ c := by
    intro i p member
    by_cases here : i = semid
    · subst here
      rw [update_self] at member
      exact ⟨Pools.woken_of opened ▸ (woken p member).1, (woken p member).2⟩
    · rw [update_of_ne here] at member
      exact ⟨member, ne_of_mem_of_not_mem member (away i here)⟩
  have kept : ∀ {p}, p ≠ c → s'.status p = s.status p := fun other => by
    rw [marks.status, update_of_ne other]
  refine serves.change opened steady' marks.blocks count sound (fun i => ?_) (fun i p member => ?_)
    (fun i p member => ?_) fun member i other member' => other (serves.apart member' ?_)
  · by_cases here : i = semid
    · subst here
      rw [update_self, update_self, serves.asleep, Pools.asleep_of opened, asleep]
    · rw [update_of_ne here, update_of_ne (by simpa using here)]
      exact serves.asleep i
  · by_cases self : p = c
    · rw [self, marks.status, update_self]
    · rw [kept self]
      refine serves.waits i p ?_
      by_cases here : i = semid
      · subst here
        rw [update_self, asleep] at member
        rw [Pools.asleep_of opened]
        simpa [self] using member
      · rwa [update_of_ne here] at member
  · obtain ⟨before, other⟩ := old member
    rw [update_of_ne semaphore_ne_ready.symm]
    rcases serves.woken i p before with ready | runs'
    · exact .inl ready
    · exact absurd (runs'.unique runs) other
  · exact Pools.woken_of opened ▸ (woken _ member).1

theorem wake {l : List Ptr} (opened : a semid = some pool) (front : pool.asleep = t :: l)
    (steady' : s'.Steady (update (update L (.semaphore semid) l) .ready (L .ready ++ [t])))
    (marks : Marks s s' t .ready) (count : s'.count = update s.count semid (s.count semid + 1)) :
    s'.Serves table (update a semid (some pool.give))
      (update (update L (.semaphore semid) l) .ready (L .ready ++ [t])) := by
  have sleeps : t ∈ a.asleep semid := by
    rw [Pools.asleep_of opened, front]
    exact List.mem_cons_self
  have behind : ∀ {p}, p ∈ l → p ∈ a.asleep semid := fun member => by
    rw [Pools.asleep_of opened, front]
    exact List.mem_cons_of_mem t member
  have once : t ∉ l := by
    have nodup := (serves.steady.separate.lists (.semaphore semid)).nodup
    rw [serves.asleep, Pools.asleep_of opened, front] at nodup
    exact (List.nodup_cons.mp nodup).1
  have alone : ∀ {i}, t ∈ a.asleep i → i = semid := by
    intro i member
    rw [← serves.asleep] at member sleeps
    exact QueueName.semaphore.inj (serves.steady.separate.apart member sleeps)
  have given := UnitPool.give_cons front
  have sound := (serves.sound semid pool opened).give
  have free : pool.give.free = pool.free + 1 := by rw [given]
  have asleep : pool.give.asleep = l := by rw [given]
  have woken : pool.give.woken = pool.woken ++ [t] := by rw [given]
  refine serves.change opened steady' marks.blocks ?_ sound (fun i => ?_) (fun i p member => ?_)
    (fun i p member => ?_) fun member i other member' => ?_
  · rw [count, free, serves.count semid pool opened]
    push_cast
    rfl
  · rw [update_of_ne semaphore_ne_ready, asleep]
    by_cases here : i = semid
    · subst here
      rw [update_self, update_self]
    · rw [update_of_ne here, update_of_ne (by simpa using here)]
      exact serves.asleep i
  · rw [asleep] at member
    have before : p ∈ a.asleep i ∧ p ≠ t := by
      by_cases here : i = semid
      · subst here
        rw [update_self] at member
        exact ⟨behind member, ne_of_mem_of_not_mem member once⟩
      · rw [update_of_ne here] at member
        refine ⟨member, ?_⟩
        rintro rfl
        exact here (alone member)
    rw [marks.status, update_of_ne before.2]
    exact serves.waits i p before.1
  · rw [update_self]
    have before : p = t ∨ p ∈ a.woken i := by
      by_cases here : i = semid
      · subst here
        rw [update_self, woken] at member
        rw [Pools.woken_of opened]
        simpa [or_comm] using member
      · rw [update_of_ne here] at member
        exact .inr member
    rcases before with rfl | before
    · exact .inl (List.mem_append_right _ (List.mem_singleton_self p))
    · have other : p ≠ t := by
        rintro rfl
        exact serves.notMem_of_woken before sleeps
      rcases serves.woken i p before with ready | runs
      · exact .inl (List.mem_append_left _ ready)
      · refine .inr ⟨marks.current.trans runs.1, ?_⟩
        rw [marks.status, update_of_ne other]
        exact runs.2
  · rw [woken] at member
    rcases List.mem_append.mp member with before | new
    · exact other (serves.apart member' (Pools.woken_of opened ▸ before))
    · rw [List.mem_singleton.mp new] at member'
      exact serves.notMem_of_woken member' sleeps

/-- A thread without a pool to be in takes a unit or goes to sleep. -/
theorem exists_semWait (opened : a semid = some pool) (acts : s.Acts a c) : ∃ s' L',
    s.threadSemWait semid = some s' ∧
      s'.Serves table (update a semid (some (pool.enter c))) L' := by
  have count := serves.count semid pool opened
  have sound := (serves.sound semid pool opened).enter (serves.notMem_pool acts opened)
  rw [serves.steady.threadSemWait_eq serves.tabled acts.1]
  by_cases gone : pool.free = 0
  · have zero : s.count semid = 0 := by
      rw [count, gone]
      rfl
    obtain ⟨s', run, steady', marks, same⟩ := serves.steady.exists_block serves.tabled acts.1 zero
    rw [UnitPool.enter_zero gone] at sound ⊢
    refine ⟨s', _, run, serves.block opened acts.1 steady' marks ?_ rfl (fun p woken => ⟨woken, ?_⟩)
      (fun i _ => acts.2 i) sound⟩
    · rw [same, ← count, update_eq_self]
    · rintro rfl
      exact acts.2 semid (Pools.woken_of opened ▸ woken)
  · have left : s.count semid ≠ 0 := by
      rw [count]
      exact_mod_cast gone
    have run := serves.steady.semWaitStart_pos serves.tabled acts.1 left
    have taken : s.count semid - 1 = ((pool.free - 1 : Nat) : Int) := by omega
    rw [taken] at run
    rw [UnitPool.enter_pos gone] at sound ⊢
    exact ⟨_, L, run, serves.recount opened sound rfl fun _ woken => woken⟩

theorem exists_semWake (opened : a semid = some pool) (runs : s.Runs c) (woken : c ∈ pool.woken) :
    ∃ s' L', s.semWaitResume semid = some s' ∧
      s'.Serves table (update a semid (some (pool.retry c))) L' := by
  have count := serves.count semid pool opened
  have here : c ∈ a.woken semid := Pools.woken_of opened ▸ woken
  have nodup := (List.nodup_append.mp (serves.sound semid pool opened).nodup).2.1
  have sound := (serves.sound semid pool opened).retry woken
  rw [semWaitResume]
  by_cases gone : pool.free = 0
  · have zero : s.count semid = 0 := by
      rw [count, gone]
      rfl
    obtain ⟨s', run, steady', marks, same⟩ := serves.steady.exists_block serves.tabled runs zero
    rw [UnitPool.retry_zero gone] at sound ⊢
    rw [if_pos zero]
    refine ⟨s', _, run, serves.block opened runs steady' marks ?_ rfl
      (fun p member => ⟨List.mem_of_mem_erase member, ?_⟩)
      (fun i other member => other (serves.apart member here)) sound⟩
    · rw [same, ← count, update_eq_self]
    · rintro rfl
      exact nodup.not_mem_erase member
  · have left : s.count semid ≠ 0 := by
      rw [count]
      exact_mod_cast gone
    have taken : s.count semid - 1 = ((pool.free - 1 : Nat) : Int) := by omega
    rw [UnitPool.retry_pos gone] at sound ⊢
    rw [if_neg left, taken]
    exact ⟨_, L, rfl, serves.recount opened sound rfl fun _ => List.mem_of_mem_erase⟩

theorem exists_semPost (opened : a semid = some pool) (runs : s.Runs c) : ∃ s' L',
    s.threadSemPost semid = some s' ∧ s'.Serves table (update a semid (some pool.give)) L' := by
  have count := serves.count semid pool opened
  have queue := serves.asleep semid
  rw [Pools.asleep_of opened] at queue
  cases front : pool.asleep with
  | nil =>
      rw [front] at queue
      have sound := (serves.sound semid pool opened).give
      have run := serves.steady.threadSemPost_nil queue
      have more : s.count semid + 1 = ((pool.free + 1 : Nat) : Int) := by omega
      rw [more] at run
      rw [UnitPool.give_nil front] at sound ⊢
      exact ⟨_, L, run, serves.recount opened sound rfl fun _ woken => woken⟩
  | cons t l =>
      rw [front] at queue
      have other : s.pCurrentThread ≠ some t := by
        intro current
        obtain rfl := Option.some.inj (runs.1.symm.trans current)
        exact serves.steady.notMem_of_runs runs semid (by simp [queue])
      obtain ⟨s', run, steady', marks, same⟩ := serves.steady.exists_wake serves.tabled queue other
      exact ⟨s', _, run, serves.wake opened front steady' marks same⟩

theorem semOpen {name : List Byte} {n : Nat} {memory : ThreadQueue} (fresh : memory.queueCount = 0)
    (run : s.threadSemOpen table name n memory = some (semid, table', s')) :
    s'.Serves table' (update a semid (some (.opened n))) L ∧ a semid = none ∧
      ∀ i < semid, a i ≠ none := by
  obtain ⟨pos, found, rest⟩ := Option.bind_eq_some_iff.mp run
  obtain ⟨copy, copied, rest⟩ := Option.bind_eq_some_iff.mp rest
  obtain ⟨rfl, same⟩ := Prod.mk.inj (Option.some.inj rest)
  obtain ⟨rfl, rfl⟩ := Prod.mk.inj same
  rw [← Fin.find?_eq_find?_finRange, Fin.find?_eq_some_iff] at found
  have unused : a pos = none := by
    have free : (table pos).bUsed = false := by simpa using found.1
    rw [serves.used] at free
    simpa using free
  have empty : a.asleep pos = [] := by
    rw [Pools.asleep, unused]
    rfl
  have nobody : a.woken pos = [] := by
    rw [Pools.woken, unused]
    rfl
  have asleep : Pools.asleep (update a pos (some (.opened n))) = a.asleep := by
    rw [Pools.asleep_update, UnitPool.opened, ← empty, update_eq_self]
  have woken : Pools.woken (update a pos (some (.opened n))) = a.woken := by
    rw [Pools.woken_update, UnitPool.opened, ← nobody, update_eq_self]
  refine ⟨⟨serves.steady.renew ((serves.asleep pos).trans empty) fresh _,
    serves.tabled.congr ⟨rfl, rfl⟩, fun i => ?_, ?_, ?_, ?_, ?_, fun i pool here => ?_,
    fun i pool here => ?_⟩, unused, fun i before => ?_⟩
  · by_cases same : i = pos
    · subst same
      simp
    · rw [update_of_ne same, update_of_ne same]
      exact serves.used i
  · rw [asleep]
    exact serves.asleep
  · rw [asleep]
    exact serves.waits
  · rw [woken]
    exact serves.woken
  · rw [woken]
    exact serves.apart
  · by_cases same : i = pos
    · subst same
      rw [update_self] at here
      obtain rfl := Option.some.inj here
      exact update_self _ _ _
    · rw [update_of_ne same] at here
      exact (update_of_ne same _ _).trans (serves.count i pool here)
  · by_cases same : i = pos
    · rw [same, update_self] at here
      exact Option.some.inj here ▸ .opened n
    · rw [update_of_ne same] at here
      exact serves.sound i pool here
  · have busy : (table i).bUsed = true := by simpa using found.2 i before
    rw [serves.used] at busy
    exact Option.isSome_iff_ne_none.mp busy

theorem semClose (empty : a.asleep semid = []) (nobody : a.woken semid = []) :
    s.Serves (threadSemClose table semid).2 (update a semid none) L := by
  have asleep : Pools.asleep (update a semid none) = a.asleep := by
    funext i
    by_cases same : i = semid
    · subst same
      rw [empty, Pools.asleep, update_self]
      rfl
    · rw [Pools.asleep, Pools.asleep, update_of_ne same]
  have woken : Pools.woken (update a semid none) = a.woken := by
    funext i
    by_cases same : i = semid
    · subst same
      rw [nobody, Pools.woken, update_self]
      rfl
    · rw [Pools.woken, Pools.woken, update_of_ne same]
  have old : ∀ {i pool}, update a semid none i = some pool → a i = some pool := by
    intro i pool here
    by_cases same : i = semid
    · rw [same, update_self] at here
      cases here
    · rwa [update_of_ne same] at here
  refine ⟨serves.steady, serves.tabled, fun i => ?_, ?_, ?_, ?_, ?_,
    fun i pool here => serves.count i pool (old here), fun i pool here =>
    serves.sound i pool (old here)⟩
  · by_cases same : i = semid
    · simp [threadSemClose, same]
    · simpa [threadSemClose, same] using serves.used i
  · rw [asleep]
    exact serves.asleep
  · rw [asleep]
    exact serves.waits
  · rw [woken]
    exact serves.woken
  · rw [woken]
    exact serves.apart

end Serves

/-! ## Runs -/

private theorem Serving.serves (run : Serving s table a) : ∃ L, s.Serves table a L := by
  induction run with
  | start initial null unused => exact ⟨_, initial.serves null unused⟩
  | create _ fresh created induction =>
      obtain ⟨L, serves⟩ := induction
      exact ⟨_, serves.create fresh created⟩
  | tick _ busy tick induction =>
      obtain ⟨L, serves⟩ := induction
      obtain ⟨s', t, R, tick', selects⟩ := serves.steady.exists_select busy
      obtain rfl := Option.some.inj (tick'.symm.trans tick)
      exact ⟨_, serves.select selects tick⟩
  | exit _ acts exited induction =>
      obtain ⟨L, serves⟩ := induction
      exact ⟨L, serves.exit acts exited⟩
  | semOpen name n memory _ fresh opened induction =>
      obtain ⟨L, serves⟩ := induction
      exact ⟨L, (serves.semOpen fresh opened).1⟩
  | semClose _ _ empty nobody induction =>
      obtain ⟨L, serves⟩ := induction
      exact ⟨L, serves.semClose empty nobody⟩
  | semWait _ acts opened waited induction =>
      obtain ⟨L, serves⟩ := induction
      obtain ⟨s', L', waited', serves'⟩ := serves.exists_semWait opened acts
      exact ⟨L', Option.some.inj (waited'.symm.trans waited) ▸ serves'⟩
  | semWake _ runs opened woken looked induction =>
      obtain ⟨L, serves⟩ := induction
      obtain ⟨s', L', looked', serves'⟩ := serves.exists_semWake opened runs woken
      exact ⟨L', Option.some.inj (looked'.symm.trans looked) ▸ serves'⟩
  | semPost _ acts opened posted induction =>
      obtain ⟨L, serves⟩ := induction
      obtain ⟨s', L', posted', serves'⟩ := serves.exists_semPost opened acts.1
      exact ⟨L', Option.some.inj (posted'.symm.trans posted) ▸ serves'⟩

theorem Serves.exists_ticks {l₁ l₂ : List Ptr} (serves : s.Serves table a L)
    (place : L .ready = l₁ ++ p :: l₂) : ∃ s' L', ticks (l₁.length + 1) s = some s' ∧
      s'.Serves table a L' ∧ s'.Runs p := by
  induction l₁ generalizing s L l₂ with
  | nil =>
      have busy := (serves.steady.separate.lists .ready).queueCount_pos_iff.mpr (by simp [place])
      obtain ⟨s', t, R, tick, selects⟩ := serves.steady.exists_select (.inl busy)
      have serves' := serves.select selects tick
      rcases selects.rest with ⟨ready, _⟩ | ⟨l, back, ready, _⟩
      · simp [ready] at place
      · obtain ⟨rfl, _⟩ := List.cons.inj (ready.symm.trans place)
        refine ⟨s', _, ?_, serves', selects.runs⟩
        rw [List.length_nil, ticks, tick]
        rfl
  | cons b l₁ induction =>
      have busy := (serves.steady.separate.lists .ready).queueCount_pos_iff.mpr (by simp [place])
      obtain ⟨s₁, t, R, tick, selects⟩ := serves.steady.exists_select (.inl busy)
      have serves₁ := serves.select selects tick
      rcases selects.rest with ⟨ready, _⟩ | ⟨l, back, ready, rfl, _⟩
      · simp [ready] at place
      · obtain ⟨_, behind⟩ := List.cons.inj (ready.symm.trans place)
        have place₁ : update L .ready (l ++ back) .ready = l₁ ++ p :: (l₂ ++ back) := by
          rw [update_self, behind]
          simp
        obtain ⟨s', L', rest, serves', runs⟩ := induction serves₁ place₁
        refine ⟨s', L', ?_, serves', runs⟩
        rw [List.length_cons, ticks, tick]
        exact rest

/-- The memory shows a pool: the sleepers wait in their order, a woken thread is ready or runs, and
`count` is the number of free units. -/
structure ShowsPool (s : Threads) (i : Fin maxSemaphoreNum) (pool : UnitPool Ptr) : Prop where
  asleep : s.Lists (.semaphore i) pool.asleep
  count : s.count i = pool.free
  waits : ∀ p ∈ pool.asleep, s.status p = .wait
  woken : ∀ p ∈ pool.woken, s.status p = .ready ∨ s.Runs p
  sound : pool.Sound

private theorem Serves.showsPool (serves : s.Serves table a L) (opened : a i = some pool) :
    s.ShowsPool i pool := by
  have asleep := serves.asleep i
  rw [Pools.asleep_of opened] at asleep
  refine ⟨asleep ▸ serves.steady.separate.lists _, serves.count i pool opened, fun p member => ?_,
    fun p member => ?_, serves.sound i pool opened⟩
  · exact serves.waits i p (Pools.asleep_of opened ▸ member)
  · rcases serves.woken i p (Pools.woken_of opened ▸ member) with ready | runs
    · exact .inl ((serves.steady.ready_iff p).mp ready).2
    · exact .inr runs

/-- Three threads and a semaphore that is opened without units, and the first tick. -/
def threeThreads : Threads :=
  (([Call.create 1 11, .create 2 12, .create 3 13].foldlM Call.exec blank.init).bind fun s =>
    let semid : Fin maxSemaphoreNum := ⟨0, Nat.succ_pos 99⟩
    Threads.timer { s.setQueue (.semaphore semid) fun _ => ⟨0, some 7, none⟩ with
      count := update s.count semid 0 }).getD blank

/-- The first two of them sleep at the semaphore. -/
def twoSleepers : Threads :=
  let semid : Fin maxSemaphoreNum := ⟨0, Nat.succ_pos 99⟩
  ([Call.semWait semid, .tick, .semWait semid, .tick].foldlM Call.exec threeThreads).getD blank

private theorem fresh_third (create : [Call.create 1 11, .create 2 12].foldlM Call.exec blank.init =
    some s) :
    s.Fresh 3 13 := by
  obtain rfl := Option.some.inj create
  refine ⟨rfl, by decide, fun p live => ?_⟩
  by_cases first : p = 1
  · subst first
    decide
  · by_cases second : p = 2
    · subst second
      decide
    · have other : update (update blank.init.allocated 1 true) 2 true p = true := live
      rw [update_of_ne second, update_of_ne first] at other
      cases other

end KwHomework.Threads
