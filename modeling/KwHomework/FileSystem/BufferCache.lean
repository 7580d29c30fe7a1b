import KwHomework.FileSystem.CacheSimulation

/-!
# Runs of the buffer cache

A run starts with `BufInit` on arbitrary memory and makes any calls of the cache interface, with
block numbers that are not negative and `BufSyncBlock` only of cached blocks.  Along every run the
sixteen buffers satisfy the representation invariant, and cache and disk together are the flat
block store of the calls made so far.
-/

namespace KwHomework

open Function CacheLists

/-- One call of the interface of `buf.h`. -/
inductive CacheCall where
  | read (blkno : CInt)
  | write (blkno : CInt) (pData : Block)
  | sync
  | syncBlock (blkno : CInt)

/-- The cache on lists after one call. -/
def CacheLists.exec (l : CacheLists) : CacheCall → CacheLists
  | .read blkno => (l.read blkno).2
  | .write blkno pData => l.write blkno pData
  | .sync => l.sync
  | .syncBlock blkno => l.syncBlock blkno

namespace BufCache

/-- The cache after one call. -/
def exec (c : BufCache) : CacheCall → Option BufCache
  | .read blkno => (c.bufRead blkno).map Prod.snd
  | .write blkno pData => c.bufWrite blkno pData
  | .sync => c.bufSync
  | .syncBlock blkno => c.bufSyncBlock blkno

/-- Block numbers are not negative, and only cached blocks are synchronised one by one. -/
def Allowed (c : BufCache) : CacheCall → Prop
  | .read blkno => 0 ≤ blkno.toInt
  | .write blkno _ => 0 ≤ blkno.toInt
  | .sync => True
  | .syncBlock blkno => ∃ buf, c.bufFind blkno = some (some buf)

/-- The caches that a sequence of allowed calls leads to. -/
inductive Run (initial : BufCache) : List CacheCall → BufCache → Prop
  | nil : Run initial [] initial
  | snoc {history : List CacheCall} {c c' : BufCache} {call : CacheCall} :
      Run initial history c → c.Allowed call → c.exec call = some c' →
      Run initial (history ++ [call]) c'

/-- The data of the latest write of a block, or the initial disk block. -/
def flatStore (disk : CInt → Block) (history : List CacheCall) (blkno : CInt) : Block :=
  match history.reverse.findSome? fun
      | .write other pData => if other = blkno then some pData else none
      | _ => none with
  | some pData => pData
  | none => disk blkno

theorem flatStore_write (disk : CInt → Block) (history : List CacheCall) (blkno : CInt)
    (pData : Block) :
    flatStore disk (history ++ [.write blkno pData]) =
      update (flatStore disk history) blkno pData := by
  funext other
  by_cases same : other = blkno
  · subst same
    simp [flatStore]
  · simp [flatStore, same, Ne.symm same]

theorem flatStore_of_not_write (disk : CInt → Block) (history : List CacheCall)
    {call : CacheCall} (other : ∀ blkno pData, call ≠ .write blkno pData) :
    flatStore disk (history ++ [call]) = flatStore disk history := by
  funext blkno
  cases call with
  | write blkno' pData => exact absurd rfl (other blkno' pData)
  | read | sync | syncBlock => simp [flatStore]

/-- The cache is well formed and stands for a flat store. -/
def Implements (c : BufCache) (store : CInt → Block) : Prop :=
  ∃ l : CacheLists, c.Shows l ∧ l.Inv ∧ l.logical = store

/-! ## `BufInit` -/

private theorem foldl_init_first (q : CircleQueue (Fin maxBufListNum) BufId)
    (heads : List (Fin maxBufListNum)) (h : Fin maxBufListNum) (listed : h ∈ heads) :
    (heads.foldl (·.init ·) q).first h = .head h ∧ (heads.foldl (·.init ·) q).last h = .head h := by
  induction heads using List.reverseRecOn with
  | nil => simp at listed
  | append_singleton heads last induction =>
      rw [List.foldl_append]
      by_cases same : h = last
      · subst same
        simp [CircleQueue.init, CircleQueue.setFirst, CircleQueue.setLast]
      · have earlier : h ∈ heads := by simpa [same] using listed
        simpa [CircleQueue.init, CircleQueue.setFirst, CircleQueue.setLast, same] using
          induction earlier

private theorem initLists_shows (c : BufCache) :
    c.initLists.Shows ⟨c.buf, fun _ => [], fun _ => [], [], [], c.dev⟩ where
  buf := rfl
  hash := CircleQueue.represents_empty
    (fun h => (foldl_init_first c.bufList _ h (List.mem_finRange h)).1)
    (fun h => (foldl_init_first c.bufList _ h (List.mem_finRange h)).2)
  states := CircleQueue.represents_empty
    (fun s => by
      cases s <;>
        simp [initLists, CircleQueue.init, CircleQueue.setFirst, CircleQueue.setLast])
    (fun s => by
      cases s <;>
        simp [initLists, CircleQueue.init, CircleQueue.setFirst, CircleQueue.setLast])
  lru := CircleQueue.represents_empty
    (fun _ => by simp [initLists, CircleQueue.init, CircleQueue.setFirst, CircleQueue.setLast])
    (fun _ => by simp [initLists, CircleQueue.init, CircleQueue.setFirst, CircleQueue.setLast])
  free := CircleQueue.represents_empty
    (fun _ => by simp [initLists, CircleQueue.init, CircleQueue.setFirst, CircleQueue.setLast])
    (fun _ => by simp [initLists, CircleQueue.init, CircleQueue.setFirst, CircleQueue.setLast])
  dev := rfl

private theorem foldlM_freeInsertTail : ∀ (bufs : List BufId) {done : List BufId} {c : BufCache}
    {l : CacheLists}, c.Shows l → l.free = done → (done ++ bufs).Nodup →
    ∃ c' buf, bufs.foldlM
        (fun c i => (c.setBuf i { c.buf i with blkno := BitVec.ofNat 32 i }).freeInsertTail i) c =
          some c' ∧
      c'.Shows ((l.setBuf buf).setFree (done ++ bufs))
  | [], _, c, l, shows, free, _ => ⟨c, l.buf, rfl, by
      convert shows using 1
      simp [← free, CacheLists.setBuf, CacheLists.setFree]⟩
  | i :: bufs, _, c, l, shows, free, nodup => by
      have fresh : i ∉ l.free := by
        rw [free]
        rw [List.nodup_append] at nodup
        exact fun member => nodup.2.2 i member i (by simp) rfl
      obtain ⟨c₁, run₁, shows₁⟩ :=
        (shows.setBuf i { c.buf i with blkno := BitVec.ofNat 32 i }).freeInsertTail fresh
      obtain ⟨c', buf, run', shows'⟩ := foldlM_freeInsertTail bufs shows₁ rfl
        (by simpa [free] using nodup)
      refine ⟨c', buf, ?_, ?_⟩
      · rw [List.foldlM_cons, run₁]
        exact run'
      · convert shows' using 1
        simp [free, CacheLists.setBuf, CacheLists.setFree]

/-- `BufInit` succeeds on any memory and leaves every buffer free. -/
theorem bufInit_shows (c : BufCache) :
    ∃ c' l, c.bufInit = some c' ∧ c'.Shows l ∧ l.Inv ∧ l.lru = [] ∧ l.logical = c.dev.blocks := by
  obtain ⟨c', buf, run, shows⟩ := foldlM_freeInsertTail (List.finRange maxBufNum)
    (initLists_shows c) rfl (List.nodup_finRange maxBufNum)
  refine ⟨c', _, run, shows, ?_, rfl, ?_⟩
  · refine ⟨List.nodup_finRange maxBufNum, List.nodup_nil, ?_, ?_, ?_, ?_, ?_, ?_, ?_, ?_⟩ <;>
      simp [CacheLists.setBuf, CacheLists.setFree]
  · funext blkno
    simp [CacheLists.logical, CacheLists.find, CacheLists.setBuf, CacheLists.setFree]

/-- The cache that `BufInit` leaves stands for the disk. -/
theorem bufInit_implements (c : BufCache) :
    ∃ c', c.bufInit = some c' ∧ c'.Implements c.dev.blocks := by
  obtain ⟨c', l, run, shows, inv, _, store⟩ := bufInit_shows c
  exact ⟨c', run, l, shows, inv, store⟩

/-! ## Steps and runs -/

/-- A cached block number is not negative. -/
theorem nonneg_of_bufFind {c : BufCache} {l : CacheLists} (shows : c.Shows l) (inv : l.Inv)
    {blkno : CInt} {buf : BufId} (found : c.bufFind blkno = some (some buf)) :
    0 ≤ blkno.toInt := by
  cases index : hashIndex blkno with
  | none => simp [bufFind, index] at found
  | some h =>
      have search := shows.hash.search h (fun buf => (c.buf buf).blkno = blkno)
        (length_lt_walkFuel (shows.hash.nodup h))
      simp only [bufFind, index, Option.bind_eq_bind, Option.bind_some, search,
        Option.some.injEq] at found
      have holds : (c.buf buf).blkno = blkno := by simpa using List.find?_some found
      have used := ((inv.hash_iff h buf).mp (List.mem_of_find?_eq_some found)).1
      rw [← holds, shows.buf]
      exact inv.nonneg buf used

/-- An allowed call succeeds and simulates the call on lists. -/
theorem Shows.exec {c : BufCache} {l : CacheLists} (shows : c.Shows l) (inv : l.Inv)
    {call : CacheCall} (allowed : c.Allowed call) :
    ∃ c', c.exec call = some c' ∧ c'.Shows (l.exec call) ∧ (l.exec call).Inv := by
  cases call with
  | read blkno =>
      obtain ⟨c', run, shows'⟩ := shows.bufRead inv allowed
      exact ⟨c', by simp [BufCache.exec, run], shows', (inv.read allowed).1⟩
  | write blkno pData =>
      obtain ⟨c', run, shows'⟩ := shows.bufWrite inv allowed pData
      exact ⟨c', run, shows', (inv.write allowed pData).1⟩
  | sync =>
      obtain ⟨c', run, shows'⟩ := shows.bufSync inv
      exact ⟨c', run, shows', inv.sync.1⟩
  | syncBlock blkno =>
      obtain ⟨buf, found⟩ := allowed
      have nonneg := nonneg_of_bufFind shows inv found
      have cached : l.find blkno ≠ none := by
        rw [shows.bufFind nonneg, Option.some.injEq] at found
        simp [found]
      obtain ⟨c', run, shows'⟩ := shows.bufSyncBlock inv nonneg cached
      exact ⟨c', run, shows', (inv.syncBlock blkno).1⟩

theorem logical_exec {c : BufCache} {l : CacheLists} (inv : l.Inv)
    {disk : CInt → Block} {history : List CacheCall} (store : l.logical = flatStore disk history)
    {call : CacheCall} (allowed : c.Allowed call) :
    (l.exec call).logical = flatStore disk (history ++ [call]) := by
  cases call with
  | read blkno =>
      rw [flatStore_of_not_write disk history (by simp), ← store]
      exact (inv.read allowed).2.2
  | write blkno pData =>
      rw [flatStore_write, ← store]
      exact (inv.write allowed pData).2
  | sync =>
      rw [flatStore_of_not_write disk history (by simp), ← store]
      exact inv.sync.2
  | syncBlock blkno =>
      rw [flatStore_of_not_write disk history (by simp), ← store]
      exact (inv.syncBlock blkno).2

theorem exec_implements {c : BufCache} {disk : CInt → Block} {history : List CacheCall}
    (impl : c.Implements (flatStore disk history)) {call : CacheCall} (allowed : c.Allowed call) :
    ∃ c', c.exec call = some c' ∧ c'.Implements (flatStore disk (history ++ [call])) := by
  obtain ⟨l, shows, inv, store⟩ := impl
  obtain ⟨c', run, shows', inv'⟩ := shows.exec inv allowed
  exact ⟨c', run, l.exec call, shows', inv', logical_exec inv store allowed⟩

/-- Along a run the cache implements the flat store of its calls. -/
theorem Run.implements {c₀ c : BufCache} {disk : CInt → Block} {history : List CacheCall}
    (run : Run c₀ history c) (initial : c₀.Implements disk) :
    c.Implements (flatStore disk history) := by
  induction run with
  | nil => exact initial
  | snoc _ allowed step induction =>
      obtain ⟨c', step', impl⟩ := exec_implements induction allowed
      rw [step', Option.some.injEq] at step
      exact step ▸ impl

theorem run_implements {c₀ c₁ c : BufCache} {history : List CacheCall}
    (init : c₀.bufInit = some c₁) (run : Run c₁ history c) :
    c.Implements (flatStore c₀.dev.blocks history) := by
  obtain ⟨c', init', impl⟩ := bufInit_implements c₀
  rw [init', Option.some.injEq] at init
  exact run.implements (init ▸ impl)

theorem listing_eq {ι : Type*} [DecidableEq ι] {q : CircleQueue ι BufId}
    {lists : ι → List BufId} (rep : q.Represents lists) (h : ι) :
    q.fold h (fun retBufs iter => retBufs ++ [iter]) walkFuel [] = some (lists h) := by
  rw [rep.fold h _ _ (length_lt_walkFuel (rep.nodup h))]
  suffices flat : ∀ bufs acc : List BufId,
      bufs.foldl (fun retBufs iter => retBufs ++ [iter]) acc = acc ++ bufs by
    simp [flat]
  intro bufs
  induction bufs with
  | nil => simp
  | cons buf bufs induction => simp [induction]

/-- After any run, every read returns the block of the flat store, every buffer on the clean list
agrees with the disk, and `BufSync` makes the disk equal to the flat store. -/
theorem run_refines_flatStore {c₀ c₁ c : BufCache} {history : List CacheCall}
    (init : c₀.bufInit = some c₁) (run : Run c₁ history c) :
    (∀ blkno : CInt, 0 ≤ blkno.toInt →
      ∃ c', c.bufRead blkno = some (flatStore c₀.dev.blocks history blkno, c')) ∧
    (∃ clean, c.getBufInfoInStateList .cleanList = some clean ∧
      ∀ buf ∈ clean, (c.buf buf).pMem = c.dev.blocks (c.buf buf).blkno) ∧
    ∃ c', c.bufSync = some c' ∧ c'.dev.blocks = flatStore c₀.dev.blocks history := by
  obtain ⟨l, shows, inv, store⟩ := run_implements init run
  refine ⟨?_, ?_, ?_⟩
  · intro blkno nonneg
    obtain ⟨c', step, _⟩ := shows.bufRead inv nonneg
    rw [(inv.read nonneg).2.1, store] at step
    exact ⟨c', step⟩
  · refine ⟨l.states .cleanList, listing_eq shows.states .cleanList, ?_⟩
    intro buf listed
    obtain ⟨used, state⟩ := (inv.states_iff .cleanList buf).mp listed
    rw [shows.buf, shows.dev]
    exact inv.coherent buf used (BufState.listNum_inj.mp state)
  · obtain ⟨c', step, shows'⟩ := shows.bufSync inv
    exact ⟨c', step, by rw [shows'.dev, inv.blocks_sync, store]⟩

/-- A cache whose memory has not been written yet, over an empty disk. -/
def blank : BufCache where
  buf _ := ⟨0, .clean, fun _ => 0⟩
  bufList := ⟨.head, .head, fun _ => .head 0, fun _ => .head 0⟩
  stateList := ⟨.head, .head, fun _ => .head .cleanList, fun _ => .head .cleanList⟩
  lruList := ⟨.head, .head, fun _ => .head (), fun _ => .head ()⟩
  freeList := ⟨.head, .head, fun _ => .head (), fun _ => .head ()⟩
  dev := ⟨fun _ _ => 0, 0, 0, []⟩

/-- The call is allowed whatever is cached. -/
def AlwaysAllowed : CacheCall → Bool
  | .read blkno | .write blkno _ => 0 ≤ blkno.toInt
  | .sync => true
  | .syncBlock _ => false

private theorem exists_run {history : List CacheCall} (allowed : history.all AlwaysAllowed = true) :
    ∃ c₁ c, blank.bufInit = some c₁ ∧ Run c₁ history c := by
  obtain ⟨c₁, init, _⟩ := bufInit_implements blank
  suffices run : ∃ c, Run c₁ history c from ⟨c₁, run.choose, init, run.choose_spec⟩
  induction history using List.reverseRecOn with
  | nil => exact ⟨c₁, .nil⟩
  | append_singleton history call induction =>
      rw [List.all_append, Bool.and_eq_true, List.all_cons, List.all_nil, Bool.and_true] at allowed
      obtain ⟨c, run⟩ := induction allowed.1
      have fine : c.Allowed call := by
        cases call with
        | read blkno | write blkno _ => exact of_decide_eq_true (p := 0 ≤ blkno.toInt) allowed.2
        | sync => trivial
        | syncBlock => cases allowed.2
      obtain ⟨c', step, _⟩ := exec_implements (run_implements init run) fine
      exact ⟨c', .snoc run fine step⟩

/-- A run that writes block 21. -/
theorem exists_run_write :
    ∃ c₁ c, blank.bufInit = some c₁ ∧ Run c₁ [.write 21 fun _ => 7] c :=
  exists_run (by decide)

/-- Eighteen blocks are written, the last two of which evict others; then there are a read that hits
and one that misses, a `BufSync` and one more write. -/
def sweep : List CacheCall :=
  (List.range 18).map (fun n => .write (BitVec.ofNat 32 (7 + n)) fun _ => BitVec.ofNat 8 n) ++
    [.read 24, .read 7, .sync, .write 21 fun _ => 7]

theorem exists_run_sweep : ∃ c₁ c, blank.bufInit = some c₁ ∧ Run c₁ sweep c :=
  exists_run (by decide)

/-- Writing block 21 and reading it back. -/
theorem run_refines_flatStore_write :
    ∃ c₁ c c', blank.bufInit = some c₁ ∧ Run c₁ [.write 21 fun _ => 7] c ∧
      c.bufRead 21 = some (fun _ => 7, c') := by
  obtain ⟨c₁, c, init, run⟩ := exists_run_write
  obtain ⟨c', read⟩ := (run_refines_flatStore init run).1 21 (by decide)
  exact ⟨c₁, c, c', init, run, read⟩

/-! ## The representation invariant -/

/-- The representation invariant of the sixteen buffers, on the lists that walking the queues
gives. -/
structure RepInvariant (c : BufCache) (free lru : List BufId)
    (hash : Fin maxBufListNum → List BufId) (states : BufStateList → List BufId) : Prop where
  free_eq : c.freeBufs = some free
  lru_eq : c.getBufInfoInLruList = some lru
  hash_eq : ∀ h, c.getBufInfoInBufferList h = some (hash h)
  states_eq : ∀ s, c.getBufInfoInStateList s = some (states s)
  /-- A free buffer is on the free list once and on no other list. -/
  of_free : ∀ buf ∈ free, free.count buf = 1 ∧ lru.count buf = 0 ∧
    (∀ h, (hash h).count buf = 0) ∧ ∀ s, (states s).count buf = 0
  /-- A buffer in use is once on the LRU list, on its hash list and on its state list, and on no
  other list. -/
  of_used : ∀ buf, buf ∉ free → lru.count buf = 1 ∧
    (∃ h, hashIndex (c.buf buf).blkno = some h ∧
      ∀ h', (hash h').count buf = if h' = h then 1 else 0) ∧
    ∀ s, (states s).count buf = if s = (c.buf buf).state.listNum then 1 else 0
  distinct : ∀ buf, buf ∉ free → ∀ buf', buf' ∉ free →
    (c.buf buf).blkno = (c.buf buf').blkno → buf = buf'
  exactly : (free ++ lru).Perm (List.finRange maxBufNum)

private theorem repInvariant {c : BufCache} {l : CacheLists} (shows : c.Shows l) (inv : l.Inv) :
    c.RepInvariant l.free l.lru l.hash l.states where
  free_eq := listing_eq shows.free ()
  lru_eq := listing_eq shows.lru ()
  hash_eq := listing_eq shows.hash
  states_eq := listing_eq shows.states
  of_free := by
    intro buf free
    have unused := (inv.free_iff buf).mp free
    refine ⟨List.count_eq_one_of_mem inv.free_nodup free, List.count_eq_zero.mpr unused, ?_, ?_⟩
    · exact fun h => List.count_eq_zero.mpr fun hashed => unused ((inv.hash_iff h buf).mp hashed).1
    · exact fun s => List.count_eq_zero.mpr fun listed =>
        unused ((inv.states_iff s buf).mp listed).1
  of_used := by
    intro buf not_free
    have used : buf ∈ l.lru := by
      by_contra unused
      exact not_free ((inv.free_iff buf).mpr unused)
    refine ⟨List.count_eq_one_of_mem inv.lru_nodup used,
      ⟨hashSlot (l.buf buf).blkno, ?_, fun h => ?_⟩, fun s => ?_⟩
    · rw [shows.buf, hashIndex_eq (inv.nonneg buf used)]
    · split
      · rename_i same
        exact List.count_eq_one_of_mem (inv.hash_nodup h)
          ((inv.hash_iff h buf).mpr ⟨used, same.symm⟩)
      · rename_i ne
        exact List.count_eq_zero.mpr fun hashed => ne ((inv.hash_iff h buf).mp hashed).2.symm
    · rw [shows.buf]
      split
      · rename_i same
        exact List.count_eq_one_of_mem (inv.states_nodup s)
          ((inv.states_iff s buf).mpr ⟨used, same.symm⟩)
      · rename_i ne
        exact List.count_eq_zero.mpr fun listed => ne ((inv.states_iff s buf).mp listed).2.symm
  distinct := by
    intro buf not_free buf' not_free' same
    rw [inv.free_iff, not_not] at not_free not_free'
    rw [shows.buf] at same
    exact inv.distinct buf not_free buf' not_free' same
  exactly := by
    have nodup : (l.free ++ l.lru).Nodup := by
      rw [List.nodup_append]
      refine ⟨inv.free_nodup, inv.lru_nodup, ?_⟩
      rintro buf free _ used rfl
      exact (inv.free_iff buf).mp free used
    refine (List.perm_ext_iff_of_nodup nodup (List.nodup_finRange _)).mpr fun buf => ?_
    simp only [List.mem_append, List.mem_finRange, iff_true, inv.free_iff]
    exact (em (buf ∈ l.lru)).symm

/-- After any run the sixteen buffers satisfy the representation invariant.  Hence no allowed call
makes a wild access: a free buffer remains after the eviction that a miss may make, an eviction
finds a buffer on the LRU list, and a write that hits finds its buffer on one of the two state
lists. -/
theorem run_repInvariant {c₀ c₁ c : BufCache} {history : List CacheCall}
    (init : c₀.bufInit = some c₁) (run : Run c₁ history c) :
    (∃ free lru hash states, c.RepInvariant free lru hash states) ∧
    (∀ call, c.Allowed call → ∃ c', c.exec call = some c') ∧
    (∀ c', (c.getBufCount >>= fun count =>
        if count ≤ 0 then c.processLruListHead else some c) = some c' →
      ∃ buf, c'.freeList.first () = .elem buf) ∧
    (c.getBufCount = some 0 → ∃ buf, c.lruList.first () = .elem buf) ∧
    (c.getBufCount = some 0 → c.processLruListHead ≠ none) ∧
    ∀ blkno buf, c.bufFind blkno = some (some buf) →
      c.findBufInStateList .cleanList buf = some true ∨
        c.findBufInStateList .dirtyList buf = some true := by
  have impl := run_implements init run
  obtain ⟨l, shows, inv, _⟩ := id impl
  have full_used : l.free = [] → l.lru ≠ [] := by
    intro full empty
    have := (inv.free_iff 0).mpr (by simp [empty])
    simp [full] at this
  have count_eq := shows.getBufCount
  refine ⟨⟨_, _, _, _, repInvariant shows inv⟩, ?_, ?_, ?_, ?_, ?_⟩
  · intro call allowed
    obtain ⟨c', step, _⟩ := exec_implements impl allowed
    exact ⟨c', step⟩
  · intro c' room
    have shows' : c'.Shows l.makeRoom := by
      rw [count_eq, Option.bind_eq_bind, Option.bind_some] at room
      rw [CacheLists.makeRoom]
      by_cases full : l.free = []
      · obtain ⟨c'', step, shows''⟩ := shows.processLruListHead inv (full_used full)
        simp only [full, List.length_nil, le_refl, if_true] at room ⊢
        rw [step, Option.some.injEq] at room
        exact room ▸ shows''
      · have positive : ¬ l.free.length ≤ 0 := by simpa using full
        rw [if_neg positive, Option.some.injEq] at room
        rw [if_neg full]
        exact room ▸ shows
    obtain ⟨buf, rest, free⟩ := List.exists_cons_of_ne_nil inv.makeRoom_free_ne_nil
    exact ⟨buf, by simp [shows'.free.first_eq, free]⟩
  · intro empty
    rw [count_eq, Option.some.injEq, List.length_eq_zero_iff] at empty
    obtain ⟨buf, rest, nodes⟩ := List.exists_cons_of_ne_nil (full_used empty)
    exact ⟨buf, by simp [shows.lru.first_eq, nodes]⟩
  · intro empty
    rw [count_eq, Option.some.injEq, List.length_eq_zero_iff] at empty
    obtain ⟨c', step, _⟩ := shows.processLruListHead inv (full_used empty)
    simp [step]
  · intro blkno buf found
    have nonneg := nonneg_of_bufFind shows inv found
    rw [shows.bufFind nonneg, Option.some.injEq] at found
    have used := (inv.find_eq_some_iff.mp found).1
    have listed : buf ∈ l.states (l.buf buf).state.listNum :=
      (inv.states_iff _ _).mpr ⟨used, rfl⟩
    have present : ∀ s, buf ∈ l.states s → c.findBufInStateList s buf = some true := by
      intro s member
      rw [shows.findBufInStateList, Option.some_inj]
      exact List.any_eq_true.mpr ⟨buf, member, by simp⟩
    cases state : (l.buf buf).state with
    | clean => exact Or.inl (present _ (by rw [state] at listed; exact listed))
    | dirty => exact Or.inr (present _ (by rw [state] at listed; exact listed))

/-- The invariant behind evictions, a `BufSync` and more. -/
theorem run_repInvariant_sweep :
    ∃ c₁ c free lru hash states, blank.bufInit = some c₁ ∧ Run c₁ sweep c ∧
      c.RepInvariant free lru hash states ∧ (∀ call, c.Allowed call → ∃ c', c.exec call = some c') ∧
      (c.getBufCount = some 0 → c.processLruListHead ≠ none) := by
  obtain ⟨c₁, c, init, run⟩ := exists_run_sweep
  obtain ⟨⟨free, lru, hash, states, rep⟩, allowed, _, _, evicts, _⟩ := run_repInvariant init run
  exact ⟨c₁, c, free, lru, hash, states, init, run, rep, allowed, evicts⟩

end BufCache
end KwHomework
