import KwHomework.FileSystem.CacheLists
import Mathlib.Data.Fintype.Card

/-!
# The linked cache refines the cache on lists

`Shows` relates the globals of `buf.c` to the lists their links spell.  Every function of `buf.c`
runs without a wild access on a state that satisfies the list invariant and shows the result of
the same operation on lists.
-/

namespace KwHomework

open Function CacheLists

namespace BufCache

/-- The links of every list of the cache spell the lists of `l`. -/
structure Shows (c : BufCache) (l : CacheLists) : Prop where
  buf : c.buf = l.buf
  hash : c.bufList.Represents l.hash
  states : c.stateList.Represents l.states
  lru : c.lruList.Represents fun _ => l.lru
  free : c.freeList.Represents fun _ => l.free
  dev : c.dev = l.dev

private theorem update_unit {α : Type*} (f : Unit → α) (value : α) :
    update f () value = fun _ => value := by
  funext _
  simp

/-- A list of distinct buffers is shorter than a traversal may be long. -/
theorem length_lt_walkFuel {bufs : List BufId} (nodup : bufs.Nodup) :
    bufs.length < walkFuel := by
  have := nodup.length_le_card
  simp only [Fintype.card_fin] at this
  exact Nat.lt_succ_of_le this

namespace Shows

variable {c : BufCache} {l : CacheLists}

/-! ## List macros -/

private theorem lruInsertTail (shows : c.Shows l) {buf : BufId} (fresh : buf ∉ l.lru) :
    ∃ c', c.lruInsertTail buf = some c' ∧ c'.Shows (l.setLru (l.lru ++ [buf])) := by
  obtain ⟨q, run, rep⟩ := shows.lru.insertTail () fun _ => fresh
  rw [update_unit] at rep
  exact ⟨{ c with lruList := q }, by simp [BufCache.lruInsertTail, run],
    ⟨shows.buf, shows.hash, shows.states, rep, shows.free, shows.dev⟩⟩

private theorem lruRemove (shows : c.Shows l) {buf : BufId} (member : buf ∈ l.lru) :
    ∃ c', c.lruRemove buf = some c' ∧ c'.Shows (l.setLru (l.lru.erase buf)) := by
  obtain ⟨q, run, rep⟩ := shows.lru.remove (h := ()) member
  rw [update_unit] at rep
  exact ⟨{ c with lruList := q }, by simp [BufCache.lruRemove, run],
    ⟨shows.buf, shows.hash, shows.states, rep, shows.free, shows.dev⟩⟩

theorem freeInsertTail (shows : c.Shows l) {buf : BufId} (fresh : buf ∉ l.free) :
    ∃ c', c.freeInsertTail buf = some c' ∧ c'.Shows (l.setFree (l.free ++ [buf])) := by
  obtain ⟨q, run, rep⟩ := shows.free.insertTail () fun _ => fresh
  rw [update_unit] at rep
  exact ⟨{ c with freeList := q }, by simp [BufCache.freeInsertTail, run],
    ⟨shows.buf, shows.hash, shows.states, shows.lru, rep, shows.dev⟩⟩

private theorem stateInsertTail (shows : c.Shows l) (s : BufStateList) {buf : BufId}
    (fresh : ∀ s', buf ∉ l.states s') :
    ∃ c', c.stateInsertTail s buf = some c' ∧
      c'.Shows (l.setStates (update l.states s (l.states s ++ [buf]))) := by
  obtain ⟨q, run, rep⟩ := shows.states.insertTail s fresh
  exact ⟨{ c with stateList := q }, by simp [BufCache.stateInsertTail, run],
    ⟨shows.buf, shows.hash, rep, shows.lru, shows.free, shows.dev⟩⟩

private theorem stateRemove (shows : c.Shows l) {s : BufStateList} {buf : BufId}
    (member : buf ∈ l.states s) :
    ∃ c', c.stateRemove s buf = some c' ∧
      c'.Shows (l.setStates (update l.states s ((l.states s).erase buf))) := by
  obtain ⟨q, run, rep⟩ := shows.states.remove member
  exact ⟨{ c with stateList := q }, by simp [BufCache.stateRemove, run],
    ⟨shows.buf, shows.hash, rep, shows.lru, shows.free, shows.dev⟩⟩

theorem setBuf (shows : c.Shows l) (buf : BufId) (fields : Buf) :
    (c.setBuf buf fields).Shows (l.setBuf (update l.buf buf fields)) :=
  ⟨by rw [CacheLists.setBuf_buf, BufCache.setBuf, shows.buf], shows.hash, shows.states, shows.lru,
    shows.free, shows.dev⟩

private theorem setDev (shows : c.Shows l) (dev : Device) :
    { c with dev := dev }.Shows (l.setDev dev) :=
  ⟨shows.buf, shows.hash, shows.states, shows.lru, shows.free, rfl⟩

/-! ## Searches -/

theorem bufFind (shows : c.Shows l) {blkno : CInt} (nonneg : 0 ≤ blkno.toInt) :
    c.bufFind blkno = some (l.find blkno) := by
  rw [BufCache.bufFind, hashIndex_eq nonneg]
  exact (shows.hash.search _ _ (length_lt_walkFuel (shows.hash.nodup _))).trans
    (by simp [CacheLists.find, shows.buf])

private theorem findBufInLruList (shows : c.Shows l) (blkno : CInt) :
    c.findBufInLruList blkno = some (l.lru.find? fun buf => (l.buf buf).blkno = blkno) :=
  (shows.lru.search () _ (length_lt_walkFuel (shows.lru.nodup ()))).trans (by simp [shows.buf])

theorem findBufInStateList (shows : c.Shows l) (s : BufStateList) (buf : BufId) :
    c.findBufInStateList s buf =
      some ((l.states s).any fun iter => (l.buf iter).blkno = (l.buf buf).blkno) := by
  rw [BufCache.findBufInStateList,
    shows.states.search s _ (length_lt_walkFuel (shows.states.nodup s))]
  simp only [Option.pure_def, Option.bind_eq_bind, Option.bind_some, Option.some.injEq]
  rw [Bool.eq_iff_iff]
  simp [shows.buf]

theorem getBufCount (shows : c.Shows l) : c.getBufCount = some l.free.length := by
  rw [BufCache.getBufCount, shows.free.fold () _ _ (length_lt_walkFuel (shows.free.nodup ()))]
  simp

/-! ## Helper functions -/

theorem bufInsertToHead (shows : c.Shows l) {buf : BufId} {blkno : CInt} (s : BufStateList)
    (nonneg : 0 ≤ blkno.toInt) (same : (l.buf buf).blkno = blkno)
    (unhashed : ∀ h, buf ∉ l.hash h) (unlisted : ∀ s', buf ∉ l.states s') :
    ∃ c', c.bufInsertToHead buf blkno s = some c' ∧
      c'.Shows ((l.setHash
        (update l.hash (hashSlot blkno) (buf :: l.hash (hashSlot blkno)))).setStates
        (update l.states s (l.states s ++ [buf]))) := by
  have unchanged : c.setBuf buf { c.buf buf with blkno := blkno } = c := by
    rw [← same, ← shows.buf]
    simp [BufCache.setBuf]
  obtain ⟨q, run, rep⟩ := shows.hash.insertHead (hashSlot blkno) unhashed
  have hashed : { c with bufList := q }.Shows
      (l.setHash (update l.hash (hashSlot blkno) (buf :: l.hash (hashSlot blkno)))) :=
    ⟨shows.buf, rep, shows.states, shows.lru, shows.free, shows.dev⟩
  obtain ⟨c', run', shows'⟩ := hashed.stateInsertTail s unlisted
  refine ⟨c', ?_, shows'⟩
  simpa [BufCache.bufInsertToHead, unchanged, hashIndex_eq nonneg, run] using run'

/-- `BufGetNewBuffer` takes the head of a free list that is not empty. -/
theorem bufGetNewBuffer (shows : c.Shows l) {buf : BufId} {rest : List BufId}
    (free : l.free = buf :: rest) :
    ∃ c', c.bufGetNewBuffer = some (buf, c') ∧ c'.Shows (l.setFree (l.free.erase buf)) := by
  have first : c.freeList.first () = .elem buf := by simp [shows.free.first_eq, free]
  have listed : buf ∈ (fun _ : Unit => l.free) () := by simp [free]
  obtain ⟨q, run, rep⟩ := shows.free.remove listed
  rw [update_unit] at rep
  exact ⟨{ c with freeList := q }, by simp [BufCache.bufGetNewBuffer, first, run],
    ⟨shows.buf, shows.hash, shows.states, shows.lru, rep, shows.dev⟩⟩

theorem bufDelete (shows : c.Shows l) {buf : BufId} (nonneg : 0 ≤ (l.buf buf).blkno.toInt)
    (found : l.find (l.buf buf).blkno = some buf) (fresh : buf ∉ l.free) :
    ∃ c', c.bufDelete buf = some (true, c') ∧
      c'.Shows ((l.setHash (update l.hash (hashSlot (l.buf buf).blkno)
        ((l.hash (hashSlot (l.buf buf).blkno)).erase buf))).setFree (l.free ++ [buf])) := by
  have search : c.bufFind (c.buf buf).blkno = some (some buf) := by
    rw [shows.buf, shows.bufFind nonneg, found]
  have index : hashIndex (c.buf buf).blkno = some (hashSlot (l.buf buf).blkno) := by
    rw [shows.buf, hashIndex_eq nonneg]
  rw [BufCache.bufFind, index] at search
  obtain ⟨q, run, rep⟩ := shows.hash.remove (List.mem_of_find?_eq_some found)
  have unhashed : { c with bufList := q }.Shows
      (l.setHash (update l.hash (hashSlot (l.buf buf).blkno)
        ((l.hash (hashSlot (l.buf buf).blkno)).erase buf))) :=
    ⟨shows.buf, rep, shows.states, shows.lru, shows.free, shows.dev⟩
  obtain ⟨c', run', shows'⟩ := unhashed.freeInsertTail fresh
  refine ⟨c', ?_, shows'⟩
  simp only [Option.bind_eq_bind, Option.bind_some] at search
  simp [BufCache.bufDelete, index, search, run, run']

/-- `processLruListHead` evicts the head of an LRU list that is not empty. -/
theorem processLruListHead (shows : c.Shows l) (inv : l.Inv) (used : l.lru ≠ []) :
    ∃ c', c.processLruListHead = some c' ∧ c'.Shows l.evict := by
  obtain ⟨iter, rest, nodes⟩ := List.exists_cons_of_ne_nil used
  have iter_mem : iter ∈ l.lru := by simp [nodes]
  have erased : l.lru.erase iter = rest := by simp [nodes]
  have first : c.lruList.first () = .elem iter := by simp [shows.lru.first_eq, nodes]
  obtain ⟨c₁, run₁, shows₁⟩ := shows.lruRemove iter_mem
  rw [erased] at shows₁
  obtain ⟨c₂, run₂, shows₂⟩ := shows₁.bufDelete (inv.nonneg iter iter_mem)
    (inv.find_eq_some_iff.mpr ⟨iter_mem, rfl⟩) fun free => (inv.free_iff iter).mp free iter_mem
  have listed : iter ∈ l.states (l.buf iter).state.listNum :=
    (inv.states_iff _ _).mpr ⟨iter_mem, rfl⟩
  obtain ⟨c₃, run₃, shows₃⟩ := shows₂.stateRemove listed
  have state_eq : (c₂.buf iter).state = (l.buf iter).state := by simp [shows₂.buf]
  simp only [BufCache.processLruListHead, first, run₁, run₂, Option.bind_eq_bind,
    Option.bind_some, state_eq]
  cases state : (l.buf iter).state with
  | clean =>
      rw [state] at run₃ shows₃
      change c₂.stateRemove .cleanList iter = some c₃ at run₃
      refine ⟨c₃, run₃, ?_⟩
      simpa [CacheLists.evict, nodes, state, setLru, setHash, setFree, setStates] using shows₃
  | dirty =>
      rw [state] at run₃ shows₃
      change c₂.stateRemove .dirtyList iter = some c₃ at run₃
      refine ⟨_, by simp only [run₃, Option.bind_some]; rfl, ?_⟩
      have written := shows₃.setDev (l.dev.devWriteBlock (l.buf iter).blkno (l.buf iter).pMem)
      simpa [CacheLists.evict, nodes, state, shows₃.dev, shows₃.buf, setLru, setHash, setFree,
        setStates, CacheLists.setDev] using written

private theorem touchLru (shows : c.Shows l) {buf : BufId} (member : buf ∈ l.lru) :
    ∃ c', c.touchLru (l.buf buf).blkno buf = some c' ∧ c'.Shows (l.touch buf) := by
  have found : (l.lru.find? fun other => (l.buf other).blkno = (l.buf buf).blkno).isSome := by
    rw [List.find?_isSome]
    exact ⟨buf, member, by simp⟩
  obtain ⟨c₁, run₁, shows₁⟩ := shows.lruRemove member
  have erased : buf ∉ l.lru.erase buf := (shows.lru.nodup ()).not_mem_erase
  obtain ⟨c₂, run₂, shows₂⟩ := shows₁.lruInsertTail erased
  refine ⟨c₂, ?_, shows₂⟩
  simp [BufCache.touchLru, shows.findBufInLruList, found, run₁, run₂]

private theorem touchLru_of_missing (shows : c.Shows l) {blkno : CInt} {buf : BufId}
    (missing : ∀ other ∈ l.lru, (l.buf other).blkno ≠ blkno) (unused : buf ∉ l.lru) :
    ∃ c', c.touchLru blkno buf = some c' ∧ c'.Shows (l.setLru (l.lru ++ [buf])) := by
  have found : (l.lru.find? fun other => (l.buf other).blkno = blkno) = none := by
    simpa using missing
  obtain ⟨c', run, shows'⟩ := shows.lruInsertTail unused
  refine ⟨c', ?_, shows'⟩
  simp [BufCache.touchLru, shows.findBufInLruList, found, run]

theorem acquire (shows : c.Shows l) (inv : l.Inv) {buf : BufId} {rest : List BufId}
    (free : l.makeRoom.free = buf :: rest) :
    ∃ c', c.acquire = some (buf, c') ∧
      c'.Shows (l.makeRoom.setFree (l.makeRoom.free.erase buf)) := by
  by_cases full : l.free = []
  · have used : l.lru ≠ [] := by
      intro empty
      have := (inv.free_iff 0).mpr (by simp [empty])
      simp [full] at this
    obtain ⟨c₁, run₁, shows₁⟩ := shows.processLruListHead inv used
    rw [CacheLists.makeRoom, if_pos full] at free ⊢
    obtain ⟨c₂, run₂, shows₂⟩ := shows₁.bufGetNewBuffer free
    exact ⟨c₂, by simp [BufCache.acquire, shows.getBufCount, full, run₁, run₂], shows₂⟩
  · rw [CacheLists.makeRoom, if_neg full] at free ⊢
    obtain ⟨c₂, run₂, shows₂⟩ := shows.bufGetNewBuffer free
    exact ⟨c₂, by simp [BufCache.acquire, shows.getBufCount, free, run₂], shows₂⟩

theorem enter (shows : c.Shows l) (buf : BufId) (fields : Buf) (fields_eq : l.buf buf = fields)
    (nonneg : 0 ≤ fields.blkno.toInt)
    (missing : ∀ other ∈ l.lru, (l.buf other).blkno ≠ fields.blkno) (unused : buf ∉ l.lru)
    (unhashed : ∀ h, buf ∉ l.hash h) (unlisted : ∀ s, buf ∉ l.states s) :
    ∃ c₁, c.bufInsertToHead buf fields.blkno fields.state.listNum = some c₁ ∧
      c₁.buf = l.buf ∧
      ∀ pMem, ∃ c₂,
        (c₁.setBuf buf { fields with pMem := pMem }).touchLru fields.blkno buf = some c₂ ∧
        c₂.Shows ((((l.setHash (update l.hash (hashSlot fields.blkno)
          (buf :: l.hash (hashSlot fields.blkno)))).setStates (update l.states fields.state.listNum
          (l.states fields.state.listNum ++ [buf]))).setBuf
          (update l.buf buf { fields with pMem := pMem })).setLru (l.lru ++ [buf])) := by
  obtain ⟨c₁, run₁, shows₁⟩ := shows.bufInsertToHead fields.state.listNum nonneg
    (by rw [fields_eq]) unhashed unlisted
  refine ⟨c₁, run₁, shows₁.buf, fun pMem => ?_⟩
  have shows₂ := shows₁.setBuf buf { fields with pMem := pMem }
  refine shows₂.touchLru_of_missing ?_ unused
  intro other used
  have ne : other ≠ buf := fun same => unused (same ▸ used)
  simpa [update_of_ne ne] using missing other used

theorem moveState (shows : c.Shows l) {s : BufStateList} (s' : BufStateList) {buf : BufId}
    (member : buf ∈ l.states s) (only : ∀ t, buf ∈ l.states t → t = s) :
    ∃ c₁ c₂, c.stateRemove s buf = some c₁ ∧ c₁.stateInsertTail s' buf = some c₂ ∧
      c₁.Shows (l.setStates (update l.states s ((l.states s).erase buf))) ∧
      c₂.Shows (l.setStates (update (update l.states s ((l.states s).erase buf)) s'
        (update l.states s ((l.states s).erase buf) s' ++ [buf]))) := by
  obtain ⟨c₁, run₁, shows₁⟩ := shows.stateRemove member
  have gone : ∀ t, buf ∉ update l.states s ((l.states s).erase buf) t := by
    intro t
    by_cases same : t = s
    · subst same
      rw [update_self]
      exact (shows.states.nodup t).not_mem_erase
    · rw [update_of_ne same]
      exact fun listed => same (only t listed)
  obtain ⟨c₂, run₂, shows₂⟩ := shows₁.stateInsertTail s' gone
  exact ⟨c₁, c₂, run₁, run₂, shows₁, shows₂⟩

/-! ## The interface -/

/-- `BufRead` simulates `read`. -/
theorem bufRead (shows : c.Shows l) (inv : l.Inv) {blkno : CInt} (nonneg : 0 ≤ blkno.toInt) :
    ∃ c', c.bufRead blkno = some ((l.read blkno).1, c') ∧ c'.Shows (l.read blkno).2 := by
  rcases inv.read_cases blkno with ⟨buf, member, rfl, found, read⟩ | ⟨buf, rest, found, free, read⟩
  · obtain ⟨c', run, shows'⟩ := shows.touchLru member
    rw [read]
    refine ⟨c', ?_, shows'⟩
    simp [BufCache.bufRead, shows.bufFind nonneg, found, run, shows.buf]
  · have room := inv.makeRoom
    have missing := CacheLists.Inv.makeRoom_uncached (inv.find_eq_none_iff.mp found)
    have unused : buf ∉ l.makeRoom.lru := (room.free_iff buf).mp (by simp [free])
    obtain ⟨c₁, run₁, shows₁⟩ := shows.acquire inv free
    let fields : Buf := ⟨blkno, .clean, (l.makeRoom.load blkno).1⟩
    have shows₂ := (shows₁.setDev (l.makeRoom.load blkno).2.dev).setBuf buf fields
    obtain ⟨c₃, run₃, buf₃, touched⟩ := shows₂.enter buf fields (by simp) nonneg
      (CacheLists.Inv.uncached_update missing unused fields) unused (room.unhashed unused)
      (room.unlisted unused)
    obtain ⟨c₄, run₄, shows₄⟩ := touched fields.pMem
    have buf_eq : c₃.buf buf = fields := by simp [buf₃]
    have same : c₃.setBuf buf fields = c₃ := by
      rw [← buf_eq]
      simp [BufCache.setBuf]
    have dev_eq : (c₁.dev.devReadBlock blkno).2 = (l.makeRoom.load blkno).2.dev := by
      rw [shows₁.dev]
      rfl
    have data_eq : c₁.dev.blocks blkno = (l.makeRoom.load blkno).1 := by
      rw [shows₁.dev]
      rfl
    have inserted : ({ c₁ with dev := (l.makeRoom.load blkno).2.dev }.setBuf buf
        ⟨blkno, .clean, (l.makeRoom.load blkno).1⟩).bufInsertToHead buf blkno .cleanList =
        some c₃ := run₃
    have moved : c₃.touchLru blkno buf = some c₄ := same ▸ run₄
    rw [read]
    refine ⟨c₄, ?_, ?_⟩
    · simp [BufCache.bufRead, shows.bufFind nonneg, found, run₁, dev_eq, data_eq, inserted,
        moved, buf_eq, fields]
    · convert shows₄ using 1
      simp [CacheLists.fill, fields, CacheLists.setBuf, CacheLists.setHash,
        CacheLists.setStates, CacheLists.setLru, CacheLists.setFree, CacheLists.setDev,
        CacheLists.load, BufState.listNum]

/-- `BufWrite` simulates `write`. -/
theorem bufWrite (shows : c.Shows l) (inv : l.Inv) {blkno : CInt} (nonneg : 0 ≤ blkno.toInt)
    (pData : Block) :
    ∃ c', c.bufWrite blkno pData = some c' ∧ c'.Shows (l.write blkno pData) := by
  rcases inv.write_cases blkno pData with ⟨buf, member, rfl, found, write⟩ |
    ⟨buf, rest, found, free, write⟩
  · have in_list : ∀ s, c.findBufInStateList s buf =
        some (decide ((l.buf buf).state.listNum = s)) := by
      intro s
      rw [shows.findBufInStateList, Option.some_inj, Bool.eq_iff_iff]
      simp only [List.any_eq_true, decide_eq_true_eq]
      constructor
      · rintro ⟨other, listed, same⟩
        obtain ⟨used, state⟩ := (inv.states_iff s other).mp listed
        rwa [inv.distinct other used buf member same] at state
      · exact fun state => ⟨buf, (inv.states_iff s buf).mpr ⟨member, state⟩, rfl⟩
    have listed : buf ∈ l.states (l.buf buf).state.listNum :=
      (inv.states_iff _ _).mpr ⟨member, rfl⟩
    have only : ∀ t, buf ∈ l.states t → t = (l.buf buf).state.listNum := fun t listed =>
      ((inv.states_iff t buf).mp listed).2.symm
    rcases write with ⟨state, write⟩ | ⟨state, write⟩
    · rw [state] at listed only
      let fields : Buf := { l.buf buf with pMem := pData }
      obtain ⟨c₁, c₂, run₁, run₂, shows₁, shows₂⟩ :=
        (shows.setBuf buf fields).moveState .dirtyList listed only
      have shows₃ := shows₂.setBuf buf { fields with state := .dirty }
      have marked : (c₂.setBuf buf { fields with state := .dirty }).Shows
          (l.mark buf ⟨(l.buf buf).blkno, .dirty, pData⟩) := by
        convert shows₃ using 1
        simp [CacheLists.mark, state, BufState.listNum, CacheLists.setBuf,
          CacheLists.setStates, fields]
      obtain ⟨c₄, run₄, shows₄⟩ := marked.touchLru member
      have removed : (c.setBuf buf ⟨(l.buf buf).blkno, .clean, pData⟩).stateRemove .cleanList
          buf = some c₁ := state ▸ run₁
      have moved : (c₂.setBuf buf { c₂.buf buf with state := .dirty }).touchLru
          (l.buf buf).blkno buf = some c₄ := by
        rw [shows₂.buf]
        simpa [CacheLists.mark, fields] using run₄
      rw [write]
      refine ⟨c₄, ?_, shows₄⟩
      simp [BufCache.bufWrite, shows.bufFind nonneg, found, in_list, state, BufState.listNum,
        shows.buf, removed, run₂, moved]
    · have shows₁ := shows.setBuf buf { l.buf buf with pMem := pData }
      obtain ⟨c₂, run₂, shows₂⟩ := shows₁.touchLru member
      have moved : (c.setBuf buf ⟨(l.buf buf).blkno, .dirty, pData⟩).touchLru
          (l.buf buf).blkno buf = some c₂ := by simpa [state] using run₂
      rw [write]
      refine ⟨c₂, ?_, shows₂⟩
      simp [BufCache.bufWrite, shows.bufFind nonneg, found, in_list, state, BufState.listNum,
        shows.buf, moved]
  · have room := inv.makeRoom
    have missing := CacheLists.Inv.makeRoom_uncached (inv.find_eq_none_iff.mp found)
    have unused : buf ∉ l.makeRoom.lru := (room.free_iff buf).mp (by simp [free])
    obtain ⟨c₁, run₁, shows₁⟩ := shows.acquire inv free
    let fields : Buf := ⟨blkno, .dirty, (l.makeRoom.buf buf).pMem⟩
    have shows₂ := shows₁.setBuf buf fields
    obtain ⟨c₃, run₃, buf₃, touched⟩ := shows₂.enter buf fields (by simp) nonneg
      (CacheLists.Inv.uncached_update missing unused fields) unused (room.unhashed unused)
      (room.unlisted unused)
    obtain ⟨c₄, run₄, shows₄⟩ := touched pData
    have inserted : (c₁.setBuf buf ⟨blkno, .dirty, (l.makeRoom.buf buf).pMem⟩).bufInsertToHead
        buf blkno .dirtyList = some c₃ := run₃
    have moved : (c₃.setBuf buf { c₃.buf buf with pMem := pData }).touchLru blkno buf =
        some c₄ := by
      rw [buf₃]
      simpa [fields] using run₄
    have buf_eq : c₁.buf = l.makeRoom.buf := shows₁.buf
    rw [write]
    refine ⟨c₄, ?_, ?_⟩
    · simp [BufCache.bufWrite, shows.bufFind nonneg, found, run₁, buf_eq, inserted, moved]
    · convert shows₄ using 1
      simp [CacheLists.fill, fields, CacheLists.setBuf, CacheLists.setHash,
        CacheLists.setStates, CacheLists.setLru, CacheLists.setFree, BufState.listNum, free]

theorem writeBack (shows : c.Shows l) (inv : l.Inv) {buf : BufId}
    (listed : buf ∈ l.states .dirtyList) :
    ∃ c', c.writeBack buf = some c' ∧ c'.Shows (l.writeBack buf) := by
  have only : ∀ t, buf ∈ l.states t → t = .dirtyList := fun t listed' =>
    ((inv.states_iff t buf).mp listed').2.symm.trans ((inv.states_iff _ buf).mp listed).2
  have state : (l.buf buf).state = .dirty :=
    BufState.listNum_inj.mp ((inv.states_iff .dirtyList buf).mp listed).2
  obtain ⟨c₁, c₂, run₁, run₂, shows₁, shows₂⟩ :=
    (shows.setDev (l.flush buf).dev).moveState .cleanList listed only
  have shows₃ := shows₂.setBuf buf { l.buf buf with state := .clean }
  have written : { c with dev := c.dev.devWriteBlock (c.buf buf).blkno (c.buf buf).pMem } =
      { c with dev := (l.flush buf).dev } := by
    rw [shows.dev, shows.buf]
    rfl
  have buf_eq : c₂.buf buf = l.buf buf := congrFun shows₂.buf buf
  refine ⟨c₂.setBuf buf { l.buf buf with state := .clean }, ?_, ?_⟩
  · simp [BufCache.writeBack, written, run₁, run₂, buf_eq]
  convert shows₃ using 1
  simp [CacheLists.writeBack, CacheLists.mark, CacheLists.flush, state, BufState.listNum,
    CacheLists.setBuf, CacheLists.setStates, CacheLists.setDev]

theorem bufSyncFrom : ∀ {bufs : List BufId} {fuel : Nat} {c : BufCache} {l : CacheLists},
    c.Shows l → l.Inv → l.states .dirtyList = bufs → bufs.length < fuel →
    ∃ c', c.bufSyncFrom fuel (c.stateList.first .dirtyList) = some c' ∧
      c'.Shows (bufs.foldl CacheLists.writeBack l)
  | [], fuel + 1, c, l, shows, inv, dirty, _ => by
      have first : c.stateList.first .dirtyList = .head .dirtyList := by
        simp [shows.states.first_eq, dirty]
      exact ⟨c, by simp [first, BufCache.bufSyncFrom], shows⟩
  | buf :: bufs, fuel + 1, c, l, shows, inv, dirty, enough => by
      have first : c.stateList.first .dirtyList = .elem buf := by
        simp [shows.states.first_eq, dirty]
      have listed : buf ∈ l.states .dirtyList := by simp [dirty]
      have state : (l.buf buf).state = .dirty :=
        BufState.listNum_inj.mp ((inv.states_iff .dirtyList buf).mp listed).2
      obtain ⟨c₁, run₁, shows₁⟩ := shows.writeBack inv listed
      have inv₁ := inv.writeBack ((inv.states_iff _ buf).mp listed).1
      have dirty₁ : (l.writeBack buf).states .dirtyList = bufs := by
        simp [CacheLists.writeBack, CacheLists.mark, CacheLists.flush, state, dirty,
          BufState.listNum]
      obtain ⟨c', run', shows'⟩ := bufSyncFrom shows₁ inv₁ dirty₁ (Nat.lt_of_succ_lt_succ enough)
      have next : c.stateList.next buf = c₁.stateList.first .dirtyList := by
        rw [shows.states.next_eq dirty, shows₁.states.first_eq, dirty₁]
      refine ⟨c', ?_, shows'⟩
      rw [first, BufCache.bufSyncFrom, next]
      simp [run₁, run']

/-- `BufSync` simulates `sync`. -/
theorem bufSync (shows : c.Shows l) (inv : l.Inv) :
    ∃ c', c.bufSync = some c' ∧ c'.Shows l.sync :=
  bufSyncFrom shows inv rfl (length_lt_walkFuel (shows.states.nodup .dirtyList))

/-- `BufSyncBlock` of a cached block simulates `syncBlock`. -/
theorem bufSyncBlock (shows : c.Shows l) (inv : l.Inv) {blkno : CInt}
    (nonneg : 0 ≤ blkno.toInt) (cached : l.find blkno ≠ none) :
    ∃ c', c.bufSyncBlock blkno = some c' ∧ c'.Shows (l.syncBlock blkno) := by
  obtain ⟨buf, found⟩ := Option.ne_none_iff_exists'.mp cached
  have member := (inv.find_eq_some_iff.mp found).1
  simp only [CacheLists.syncBlock, found]
  cases state : (l.buf buf).state with
  | clean =>
      refine ⟨c, ?_, shows⟩
      simp [BufCache.bufSyncBlock, shows.bufFind nonneg, found, shows.buf, state]
  | dirty =>
      have listed : buf ∈ l.states .dirtyList :=
        (inv.states_iff _ _).mpr ⟨member, by rw [state]; rfl⟩
      have only : ∀ t, buf ∈ l.states t → t = .dirtyList := fun t listed' =>
        ((inv.states_iff t buf).mp listed').2.symm.trans ((inv.states_iff _ buf).mp listed).2
      obtain ⟨c₁, run₁, shows₁⟩ := shows.stateRemove listed
      have gone : ∀ t, buf ∉ update l.states .dirtyList ((l.states .dirtyList).erase buf) t := by
        intro t
        by_cases same : t = .dirtyList
        · subst same
          rw [update_self]
          exact (shows.states.nodup _).not_mem_erase
        · rw [update_of_ne same]
          exact fun listed' => same (only t listed')
      have shows₂ := shows₁.setDev (l.flush buf).dev
      obtain ⟨c₃, run₃, shows₃⟩ := shows₂.stateInsertTail .cleanList gone
      have shows₄ := shows₃.setBuf buf { l.buf buf with state := .clean }
      have written : { c₁ with dev := c₁.dev.devWriteBlock (c₁.buf buf).blkno (c₁.buf buf).pMem } =
          { c₁ with dev := (l.flush buf).dev } := by
        rw [shows₁.dev, shows₁.buf]
        rfl
      have buf_eq : c₃.buf buf = l.buf buf := congrFun shows₃.buf buf
      refine ⟨c₃.setBuf buf { l.buf buf with state := .clean }, ?_, ?_⟩
      · simp [BufCache.bufSyncBlock, shows.bufFind nonneg, found, shows.buf, state, run₁, written,
          run₃, buf_eq]
      · convert shows₄ using 1
        simp [CacheLists.writeBack, CacheLists.mark, CacheLists.flush, state, BufState.listNum,
          CacheLists.setBuf, CacheLists.setStates, CacheLists.setDev]

end Shows
end BufCache
end KwHomework
