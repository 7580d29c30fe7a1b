import KwHomework.FileSystem.Eviction

/-!
# Synchronising one block

`BufSyncBlock` uses the result of `BufFind` without a test.  It is defined on a block exactly if the
block is cached, that is, if it is one of those accessed last.  Then it writes this block to the
disk and changes nothing else.
-/

namespace KwHomework

open Function CacheLists

/-! ## The call on lists -/

namespace CacheLists.Inv

variable {l : CacheLists} {blkno : CInt} {buf : BufId}

/-- `syncBlock` of a cached block touches one buffer and one block of the disk. -/
theorem syncBlock_frame (inv : l.Inv) (found : l.find blkno = some buf) :
    (l.syncBlock blkno).lru = l.lru ∧
    (l.syncBlock blkno).buf = update l.buf buf { l.buf buf with state := .clean } ∧
    (l.syncBlock blkno).states .dirtyList = (l.states .dirtyList).erase buf ∧
    (l.syncBlock blkno).dev.blocks = update l.dev.blocks blkno (l.logical blkno) := by
  obtain ⟨used, rfl⟩ := inv.find_eq_some_iff.mp found
  have logical := inv.logical_of_mem used
  simp only [CacheLists.syncBlock, found]
  cases state : (l.buf buf).state with
  | clean =>
      have unlisted : buf ∉ l.states .dirtyList := fun listed => by
        simpa [state, BufState.listNum] using ((inv.states_iff _ buf).mp listed).2
      have same : ({ l.buf buf with state := .clean } : Buf) = l.buf buf := by rw [← state]
      refine ⟨rfl, ?_, (List.erase_of_not_mem unlisted).symm, ?_⟩
      · rw [same, update_eq_self]
      · rw [logical, inv.coherent buf used state, update_eq_self]
  | dirty =>
      refine ⟨rfl, rfl, ?_, ?_⟩
      · simp [CacheLists.writeBack, CacheLists.mark, CacheLists.flush, state, BufState.listNum]
      · simp [CacheLists.writeBack, CacheLists.mark, CacheLists.flush, logical]

end CacheLists.Inv

/-! ## Runs -/

namespace BufCache

variable {c₀ c₁ c c' : BufCache} {l : CacheLists} {history : List CacheCall} {blkno : CInt}

/-- What synchronising one block should do: the block is no longer dirty and reaches the disk, every
other block, buffer and dirty mark stays, and so does the LRU list. -/
structure SyncsBlock (c c' : BufCache) (data : Block) (blkno : CInt) : Prop where
  clean : ∃ dirty dirty', c.getBufInfoInStateList .dirtyList = some dirty ∧
    c'.getBufInfoInStateList .dirtyList = some dirty' ∧
    ∀ buf, buf ∈ dirty' ↔ buf ∈ dirty ∧ (c.buf buf).blkno ≠ blkno
  stored : c'.dev.blocks = update c.dev.blocks blkno data
  contents : ∀ buf, (c'.buf buf).blkno = (c.buf buf).blkno ∧ (c'.buf buf).pMem = (c.buf buf).pMem
  others : ∀ buf, c.bufFind blkno ≠ some (some buf) → c'.buf buf = c.buf buf
  lru : ∃ lru, c.getBufInfoInLruList = some lru ∧ c'.getBufInfoInLruList = some lru

private theorem Shows.syncsBlock (shows : c.Shows l) (inv : l.Inv) (nonneg : 0 ≤ blkno.toInt)
    {buf : BufId} (found : l.find blkno = some buf) :
    ∃ c', c.bufSyncBlock blkno = some c' ∧ c.SyncsBlock c' (l.logical blkno) blkno := by
  obtain ⟨c', run, shows'⟩ := shows.bufSyncBlock inv nonneg (by simp [found])
  obtain ⟨lru, buffers, dirty, blocks⟩ := inv.syncBlock_frame found
  obtain ⟨used, holds⟩ := inv.find_eq_some_iff.mp found
  have buf_eq : c'.buf = update c.buf buf { c.buf buf with state := .clean } := by
    rw [shows'.buf, buffers, shows.buf]
  refine ⟨c', run, ⟨_, _, listing_eq shows.states _, listing_eq shows'.states _, fun other => ?_⟩,
    ?_, fun other => ?_, fun other apart => ?_, l.lru, listing_eq shows.lru (), ?_⟩
  · rw [dirty, (inv.states_nodup _).mem_erase_iff, shows.buf, and_comm]
    refine and_congr_right fun listed => not_congr ⟨fun same => same ▸ holds, fun same => ?_⟩
    exact inv.distinct other ((inv.states_iff _ _).mp listed).1 buf used (same.trans holds.symm)
  · rw [shows'.dev, blocks, shows.dev]
  · rw [buf_eq]
    by_cases same : other = buf
    · rw [same, update_self]
      exact ⟨rfl, rfl⟩
    · rw [update_of_ne same]
      exact ⟨rfl, rfl⟩
  · rw [buf_eq, update_of_ne]
    rintro rfl
    exact apart (by rw [shows.bufFind nonneg, found])
  · rw [← lru]
    exact listing_eq shows'.lru ()

/-- The result of the lookup is used without a test. -/
theorem bufSyncBlock_of_missing (missing : c.bufFind blkno = some none) :
    c.bufSyncBlock blkno = none := by
  rw [bufSyncBlock, missing]
  rfl

/-- Behind a run, `BufSyncBlock` synchronises a block if and only if the block is one of the sixteen
accessed last. -/
theorem run_bufSyncBlock_iff (init : c₀.bufInit = some c₁) (run : Run c₁ history c)
    (nonneg : 0 ≤ blkno.toInt) :
    (∃ c', c.bufSyncBlock blkno = some c' ∧
      c.SyncsBlock c' (flatStore c₀.dev.blocks history blkno) blkno) ↔
    blkno ∈ recentBlocks history := by
  obtain ⟨l, shows, inv, blocks⟩ := run.caches (bufInit_caches init)
  obtain ⟨l', shows', inv', store⟩ := run_implements init run
  rw [← blocks, inv.mem_cached_iff]
  constructor
  · rintro ⟨c', step, _⟩
    by_contra uncached
    have missing : l.find blkno = none :=
      by simpa [Option.eq_none_iff_forall_ne_some] using uncached
    rw [bufSyncBlock_of_missing (by rw [shows.bufFind nonneg, missing])] at step
    cases step
  · rintro ⟨buf, found⟩
    have found' : l'.find blkno = some buf := by
      have same := (shows.bufFind nonneg).symm.trans (shows'.bufFind nonneg)
      rw [← Option.some.inj same, found]
    rw [← store]
    exact shows'.syncsBlock inv' nonneg found'

/-- Synchronising the block that was written. -/
theorem run_bufSyncBlock_iff_write :
    ∃ c₁ c c', blank.bufInit = some c₁ ∧ Run c₁ [.write 21 fun _ => 7] c ∧
      c.bufSyncBlock 21 = some c' ∧ c.SyncsBlock c' (fun _ => 7) 21 := by
  obtain ⟨c₁, c, init, run⟩ := exists_run_write
  obtain ⟨c', step, syncs⟩ := (run_bufSyncBlock_iff init run (by decide)).mpr
    (show (21 : CInt) ∈ recentBlocks [.write 21 fun _ => 7] by decide)
  exact ⟨c₁, c, c', init, run, step, syncs⟩

/-- Behind `BufInit` no block is cached, and `BufSyncBlock` of block 0 follows a null pointer. -/
theorem bufSyncBlock_uncached : ∃ c₁, blank.bufInit = some c₁ ∧ Run c₁ [] c₁ ∧
    c₁.bufFind 0 = some none ∧ c₁.bufSyncBlock 0 = none := by
  obtain ⟨c₁, l, init, shows, inv, unused, _⟩ := bufInit_shows blank
  have missing : c₁.bufFind 0 = some none := by
    have uncached : l.find 0 = none := inv.find_eq_none_iff.mpr (by simp [unused])
    rw [shows.bufFind (by decide), uncached]
  exact ⟨c₁, init, .nil, missing, bufSyncBlock_of_missing missing⟩

end BufCache
end KwHomework
