import KwHomework.FileSystem.PathSessions
import KwHomework.FileSystem.Reopen

/-!
# The whole machine

`testcase.c` runs the file system through the buffer cache over the disk, and a later process opens
what an earlier one has closed.  A process that formats the disk, with any calls and any restarts
after that, is a run of the files under paths: a restart closes the descriptors and keeps the rest.
-/

namespace KwHomework

open Function FS

/-- The memory of the process, and the buffer cache over the disk. -/
structure Machine where
  mem : Memory
  cache : BufCache

/-- What happens between `CreateFileSystem` and the end. -/
inductive MachineEvent where
  | call (c : Call) (r : Response)
  /-- `CloseFileSystem`, and `OpenFileSystem` in the next process. -/
  | restart

namespace Machine

/-- The memory of a new process: globals are zero, and the heap is taken to read as zero. -/
structure Fresh (mem : Memory) : Prop where
  zero : mem.heap = fun _ _ => 0#8
  unused : ∀ i, mem.pFileDesc i = ⟨false, .null⟩

/-- The state of the flat store that a machine stands for. -/
def For (m : Machine) (s : FileSys) : Prop := m.mem = s.toMemory ∧ m.cache.Implements s.disk

/-- `CreateFileSystem` in a new process, over any disk. -/
def Formats (m : Machine) : Prop :=
  ∃ (fresh cache : BufCache) (mem : Memory), fresh.bufInit = some cache ∧ Fresh mem ∧
    (createFileSystem.run mem).run cacheDevice cache = some (((), m.mem), m.cache)

/-- A well-formed call, or a restart. -/
inductive Step : Machine → MachineEvent → Machine → Prop
  | call {m m' : Machine} {s : FileSys} {c : Call} {r : Response} :
      m.For s → c.WellFormed s.view →
      (c.respond.run m.mem).run cacheDevice m.cache = some ((r, m'.mem), m'.cache) →
      Step m (.call c r) m'
  | restart {m m' : Machine} {last mem : Memory} {closed fresh cache : BufCache} :
      (closeFileSystem.run m.mem).run cacheDevice m.cache = some (((), last), closed) →
      fresh.dev.blocks = closed.dev.blocks → fresh.bufInit = some cache → Fresh mem →
      (openFileSystem.run mem).run cacheDevice cache = some (((), m'.mem), m'.cache) →
      Step m .restart m'

end Machine

/-- What the events do to files under paths. -/
inductive Files.Next : Files → MachineEvent → Files → Prop
  | call {a a' : Files} {c : Call} {r : Response} : Files.Step a c r a' → Next a (.call c r) a'
  | restart {a : Files} : Next a .restart { a with opened := fun _ => none }

/-! ## What a cache stands for -/

namespace BufCache

private theorem Shows.unique {c : BufCache} {l l' : CacheLists} (shows : c.Shows l)
    (shows' : c.Shows l') :
    l = l' := by
  have same : ∀ {ι : Type} [DecidableEq ι] {q : CircleQueue ι BufId}
    {lists lists' : ι → List BufId},
      q.Represents lists → q.Represents lists' → lists = lists' := fun rep rep' => funext fun h =>
    Option.some.inj ((listing_eq rep h).symm.trans (listing_eq rep' h))
  cases l
  cases l'
  rw [CacheLists.mk.injEq]
  exact ⟨shows.buf.symm.trans shows'.buf, same shows.hash shows'.hash,
    same shows.states shows'.states,
    congrFun (same shows.lru shows'.lru) (), congrFun (same shows.free shows'.free) (),
    shows.dev.symm.trans shows'.dev⟩

theorem Implements.unique {c : BufCache} {store store' : Store} (impl : c.Implements store)
    (impl' : c.Implements store') : store = store' := by
  obtain ⟨l, shows, _, rfl⟩ := impl
  obtain ⟨l', shows', _, rfl⟩ := impl'
  rw [shows.unique shows']

end BufCache

/-! ## Simulation -/

namespace Machine

/-- The machine stands for a state that shows the files. -/
def Stands (m : Machine) (a : Files) : Prop := ∃ s, m.For s ∧ Models s.view a

private theorem For.unique {m : Machine} {s s' : FileSys} (here : m.For s) (here' : m.For s') :
    s = s' := by
  obtain ⟨mem, impl⟩ := here
  obtain ⟨mem', impl'⟩ := here'
  cases s
  cases s'
  rw [FileSys.mk.injEq]
  exact ⟨mem.symm.trans mem', impl.unique impl'⟩

/-- Code that succeeds on the flat store succeeds on the machine. -/
theorem For.run {m : Machine} {s s' : FileSys} {α : Type} {x : FS α} {r : α} (here : m.For s)
    (success : exec x s = some (r, s')) : ∃ m' : Machine,
    (x.run m.mem).run cacheDevice m.cache = some ((r, m'.mem), m'.cache) ∧ m'.For s' := by
  obtain ⟨mem, impl⟩ := here
  obtain ⟨cache, run, impl'⟩ := exec_implemented impl success
  exact ⟨⟨s'.toMemory, cache⟩, mem ▸ run, rfl, impl'⟩

theorem models_restart {s : FileSys} {a : Files} (models : Models s.view a) {mem : Memory}
    (fresh : Fresh mem) (info : FileSysInfo) :
    Models (FileSys.view ⟨{ mem with pFileSysInfo := info }, s.disk⟩)
      { a with opened := fun _ => none } := by
  have closed : ∀ i, (mem.pFileDesc i).pOpenFile.held = none := fun i => by
    rw [fresh.unused i, FilePtr.held]
  obtain ⟨sound, sized, ok, shows⟩ := models
  refine ⟨⟨sound.consistent, sound.freeBlank, fresh.zero, fun i => ?_⟩, sized,
    ⟨ok.tree, ok.reached, fun {i _ _} held => ?_⟩, shows.entry, fun i path pos => ?_⟩
  · change (mem.pFileDesc i).Sound _
    rw [fresh.unused i]
    refine ⟨⟨fun used => Bool.noConfusion used, ?_⟩, fun _ same => by cases same⟩
    rintro ⟨_, same⟩
    cases same
  · exact absurd ((closed i).symm.trans held) (Option.some_ne_none _).symm
  · apply iff_of_false (Option.some_ne_none _).symm
    rintro ⟨_, _, _, held⟩
    exact absurd ((closed i).symm.trans held) (Option.some_ne_none _).symm

/-- A machine restarts, whatever its next process finds in its buffers. -/
theorem Stands.restart {m : Machine} {a : Files} (stands : m.Stands a) :
    ∃ m', Step m .restart m' := by
  obtain ⟨s, ⟨mem, impl⟩, models⟩ := stands
  obtain ⟨closed, close, blocks⟩ := run_closeFileSystem impl
  obtain ⟨cache, cache', init, run, _⟩ := run_openFileSystem blocks
    models.sound.consistent.blocks.reserved
    ⟨fun _ => ⟨false, .null⟩, .zeros, fun _ _ => 0#8⟩
  exact ⟨⟨_, cache'⟩, .restart (mem ▸ close) rfl init ⟨rfl, fun _ => rfl⟩ run⟩

/-- A step of the machine is one of the files. -/
theorem Stands.step {m m' : Machine} {a : Files} {event : MachineEvent} (stands : m.Stands a)
    (step : Step m event m') : ∃ a', Files.Next a event a' ∧ m'.Stands a' := by
  obtain ⟨s, here, models⟩ := stands
  cases step with
  | call here' fine run =>
      obtain rfl := here'.unique here
      obtain ⟨r', s', a', answered, step, models'⟩ := models.call fine
      obtain ⟨m'', run', there⟩ := here.run answered
      obtain ⟨same, cache⟩ := Prod.mk.inj (Option.some.inj (run'.symm.trans run))
      obtain ⟨rfl, mem⟩ := Prod.mk.inj same
      exact ⟨a', .call step, s', ⟨mem ▸ there.1, cache ▸ there.2⟩, models'⟩
  | restart close same init fresh run =>
      obtain ⟨mem, impl⟩ := here
      obtain ⟨closed', close', blocks⟩ := run_closeFileSystem impl
      rw [mem, close'] at close
      obtain ⟨_, rfl⟩ := Prod.mk.inj (Option.some.inj close)
      obtain ⟨cache', cache₂, init', run', impl'⟩ := run_openFileSystem (same.trans blocks)
        models.sound.consistent.blocks.reserved _
      obtain rfl := Option.some.inj (init'.symm.trans init)
      obtain ⟨both, cache⟩ := Prod.mk.inj (Option.some.inj (run'.symm.trans run))
      exact ⟨_, .restart, ⟨_, s.disk⟩, ⟨(Prod.mk.inj both).2.symm, cache ▸ impl'⟩,
        models_restart models fresh _⟩

theorem For.answers {m : Machine} {s : FileSys} {a : Files} (here : m.For s)
    (models : Models s.view a) {c : Call} (fine : c.WellFormed s.view) :
    ∃ r m', Step m (.call c r) m' := by
  obtain ⟨r, s', a', answered, _⟩ := models.call fine
  obtain ⟨m', run, _⟩ := here.run answered
  exact ⟨r, m', .call here fine run⟩

/-- A machine that has just formatted its disk stands for a formatted disk. -/
theorem Formats.formatted {m : Machine} (formats : m.Formats) : ∃ s, m.For s ∧ Formatted s := by
  obtain ⟨fresh, cache, mem, init, new, run⟩ := formats
  obtain ⟨cache', init', impl⟩ := BufCache.bufInit_implements fresh
  obtain rfl := Option.some.inj (init'.symm.trans init)
  obtain ⟨s', created, _⟩ := exec_createFileSystem (s := ⟨mem, fresh.dev.blocks⟩) new.zero
  have formatted : Formatted s' := ⟨⟨mem, fresh.dev.blocks⟩, new.zero, new.unused, created⟩
  obtain ⟨cache'', run', impl'⟩ := exec_implemented (s := ⟨mem, fresh.dev.blocks⟩) impl created
  obtain ⟨both, rfl⟩ := Prod.mk.inj (Option.some.inj (run'.symm.trans run))
  exact ⟨s', ⟨(Prod.mk.inj both).2.symm, impl'⟩, formatted⟩

theorem Formats.stands {m : Machine} (formats : m.Formats) : m.Stands .initial := by
  obtain ⟨s, here, formatted⟩ := formats.formatted
  exact ⟨s, here, formatted.view ▸ models_formatted⟩

theorem exists_formats : ∃ m : Machine, m.Formats := by
  obtain ⟨s, run, _⟩ := exec_createFileSystem
    (s := ⟨⟨fun _ => ⟨false, .null⟩, .zeros, fun _ _ => 0#8⟩, BufCache.blank.dev.blocks⟩) rfl
  obtain ⟨cache, init, impl⟩ := BufCache.bufInit_implements BufCache.blank
  obtain ⟨cache', run', _⟩ := exec_implemented impl run
  exact ⟨⟨s.toMemory, cache'⟩, _, cache, _, init, ⟨rfl, fun _ => rfl⟩, run'⟩

/-- A run in which one process creates `/a` and a second one starts. -/
theorem exists_run : ∃ m₀ r m, m₀.Formats ∧
    Trace Machine.Step m₀ [.call (.createFile pathA) r, .restart] m := by
  obtain ⟨m₀, formats⟩ := exists_formats
  obtain ⟨s, here, formatted⟩ := formats.formatted
  have models : Models s.view .initial := formatted.view ▸ models_formatted
  have fine : (Call.createFile pathA).WellFormed s.view := formatted.view ▸ wellFormed_pathA.2
  obtain ⟨r, m₁, call⟩ := here.answers models fine
  obtain ⟨a₁, _, stands⟩ := Machine.Stands.step ⟨s, here, models⟩ call
  obtain ⟨m, restart⟩ := stands.restart
  exact ⟨m₀, r, m, formats, ((Trace.nil m₀).snoc call).snoc restart⟩

end Machine

/-- Any number of processes, from the one that formats the disk, run as files under paths that a
restart leaves in place, and the machine answers every well-formed call and restarts at any time. -/
theorem machine_under_paths {m₀ m : Machine} {events : List MachineEvent} (formats : m₀.Formats)
    (run : Trace Machine.Step m₀ events m) : ∃ a s, Trace Files.Next .initial events a ∧ m.For s ∧
      a.WellFormed ∧ a.Shows s.view.nodes 0#32 dot dotDot ∧
      (∀ c, c.WellFormed s.view → ∃ r m', Machine.Step m (.call c r) m') ∧
      ∃ m', Machine.Step m .restart m' := by
  have matched : ∀ (m : Machine) (a : Files) event m', m.Stands a → Machine.Step m event m' →
      ∃ a', Files.Next a event a' ∧ m'.Stands a' := fun _ _ _ _ stands step => stands.step step
  obtain ⟨a, next, stands⟩ := Trace.simulates matched formats.stands run
  have restarts := stands.restart
  obtain ⟨s, here, models⟩ := stands
  exact ⟨a, s, next, here, models.shows.wellFormed models.ok, models.shows,
    fun c fine => here.answers models fine, restarts⟩

/-- A process that creates `/a`, and a second one. -/
theorem machine_under_paths_restart : ∃ m₀ r m, m₀.Formats ∧
    Trace Machine.Step m₀ [.call (.createFile pathA) r, .restart] m ∧
    ∃ a s, Trace Files.Next .initial [.call (.createFile pathA) r, .restart] a ∧ m.For s ∧
      a.WellFormed ∧ a.Shows s.view.nodes 0#32 dot dotDot ∧
      (∀ c, c.WellFormed s.view → ∃ r m', Machine.Step m (.call c r) m') ∧
      ∃ m', Machine.Step m .restart m' := by
  obtain ⟨m₀, r, m, formats, run⟩ := Machine.exists_run
  exact ⟨m₀, r, m, formats, run, machine_under_paths formats run⟩

end KwHomework
