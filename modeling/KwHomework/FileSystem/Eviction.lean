import KwHomework.FileSystem.BufferCache
import KwHomework.Queue.Recency

/-!
# The replacement policy

Read from head to tail, the LRU list of a run names the blocks of the latest `BufRead` and
`BufWrite` calls in the order of their last accesses.  The calls that synchronise do not touch it.
-/

namespace KwHomework

open Function CacheLists

/-- The block that a call accesses. -/
def CacheCall.accessed : CacheCall → Option CInt
  | .read blkno => some blkno
  | .write blkno _ => some blkno
  | .sync => none
  | .syncBlock _ => none

/-- The blocks accessed by a sequence of calls. -/
def accesses (history : List CacheCall) : List CInt := history.filterMap CacheCall.accessed

private theorem accesses_snoc (history : List CacheCall) (call : CacheCall) :
    accesses (history ++ [call]) = accesses history ++ call.accessed.toList := by
  cases accessed : call.accessed <;> simp [accesses, accessed]

/-! ## The LRU list on lists -/

namespace CacheLists

/-- The block numbers on the LRU list. -/
def cached (l : CacheLists) : List CInt := l.lru.map fun buf => (l.buf buf).blkno

theorem cached_update {l l' : CacheLists} {buf : BufId} {fields : Buf} (lru : l'.lru = l.lru)
    (buf_eq : l'.buf = update l.buf buf fields) (blkno : fields.blkno = (l.buf buf).blkno) :
    l'.cached = l.cached := by
  rw [cached, cached, lru, buf_eq]
  refine List.map_congr_left fun other _ => ?_
  by_cases same : other = buf
  · rw [same, update_self, blkno]
  · rw [update_of_ne same]

private theorem cached_writeBack (l : CacheLists) (buf : BufId) :
    (l.writeBack buf).cached = l.cached :=
  cached_update rfl rfl rfl

private theorem cached_sync (l : CacheLists) : l.sync.cached = l.cached := by
  rw [CacheLists.sync]
  induction l.states .dirtyList using List.reverseRecOn with
  | nil => rfl
  | append_singleton bufs buf induction =>
      rw [List.foldl_append, ← induction]
      exact cached_writeBack _ buf

private theorem cached_syncBlock (l : CacheLists) (blkno : CInt) :
    (l.syncBlock blkno).cached = l.cached := by
  cases found : l.find blkno with
  | none => simp [CacheLists.syncBlock, found]
  | some buf =>
      simp only [CacheLists.syncBlock, found]
      cases (l.buf buf).state with
      | clean => rfl
      | dirty => exact cached_writeBack l buf

private theorem cached_evict (l : CacheLists) : l.evict.cached = l.cached.tail := by
  cases nodes : l.lru with
  | nil => simp [cached, evict, nodes]
  | cons iter rest => simp [cached, evict, nodes]

namespace Inv

variable {l : CacheLists}

theorem mem_cached_iff (inv : l.Inv) {blkno : CInt} :
    blkno ∈ l.cached ↔ ∃ buf, l.find blkno = some buf := by
  simp only [cached, List.mem_map, inv.find_eq_some_iff]

private theorem length_cached (inv : l.Inv) : l.cached.length + l.free.length = maxBufNum := by
  have nodup : (l.lru ++ l.free).Nodup := by
    refine List.nodup_append.mpr ⟨inv.lru_nodup, inv.free_nodup, ?_⟩
    rintro buf used _ free rfl
    exact (inv.free_iff buf).mp free used
  have perm : (l.lru ++ l.free).Perm (List.finRange maxBufNum) := by
    refine (List.perm_ext_iff_of_nodup nodup (List.nodup_finRange _)).mpr fun buf => ?_
    simp only [List.mem_append, List.mem_finRange, iff_true, inv.free_iff]
    exact em (buf ∈ l.lru)
  have length := perm.length_eq
  rw [List.length_append, List.length_finRange] at length
  rw [cached, List.length_map, length]

theorem cached_makeRoom (inv : l.Inv) :
    l.makeRoom.cached = if l.cached.length < maxBufNum then l.cached else l.cached.tail := by
  have length := inv.length_cached
  rw [CacheLists.makeRoom]
  by_cases full : l.free = []
  · have whole : ¬ l.cached.length < maxBufNum := by
      rw [full, List.length_nil] at length
      omega
    rw [if_pos full, if_neg whole, cached_evict]
  · have positive := List.length_pos_iff.mpr full
    rw [if_neg full, if_pos (by omega)]

private theorem cached_fill (inv : l.Inv) {buf : BufId} (fields : Buf) (free : buf ∈ l.free) :
    (l.fill buf fields).cached = l.cached ++ [fields.blkno] := by
  have unused := (inv.free_iff buf).mp free
  have others : l.lru.map (fun other => (update l.buf buf fields other).blkno) = l.cached := by
    refine List.map_congr_left fun other used => ?_
    rw [update_of_ne fun same : other = buf => unused (same ▸ used)]
  rw [cached, CacheLists.fill, List.map_append, others, List.map_singleton]
  simp

theorem cached_touch (inv : l.Inv) {buf : BufId} (member : buf ∈ l.lru) :
    (l.touch buf).cached = l.cached.erase (l.buf buf).blkno ++ [(l.buf buf).blkno] := by
  suffices erase : ∀ bufs : List BufId, (∀ other ∈ bufs, other ∈ l.lru) →
      (bufs.erase buf).map (fun other => (l.buf other).blkno) =
        (bufs.map fun other => (l.buf other).blkno).erase (l.buf buf).blkno by
    rw [cached, CacheLists.touch, List.map_append, erase l.lru fun _ used => used, cached]
    rfl
  intro bufs used
  induction bufs with
  | nil => rfl
  | cons other bufs induction =>
      have rest := induction fun another later => used another (List.mem_cons_of_mem other later)
      by_cases same : other = buf
      · subst same
        rw [List.erase_cons_head, List.map_cons, List.erase_cons_head]
      · have apart : (l.buf other).blkno ≠ (l.buf buf).blkno := fun equal =>
          same (inv.distinct other (used other (by simp)) buf member equal)
        rw [List.erase_cons_tail (by simpa using same), List.map_cons, rest, List.map_cons,
          List.erase_cons_tail (by simpa using apart)]

end Inv

private theorem cached_hit {l l' : CacheLists} (inv : l'.Inv) {buf : BufId} (member : buf ∈ l'.lru)
    (same : l'.cached = l.cached) {blkno : CInt} (holds : (l'.buf buf).blkno = blkno) :
    (l'.touch buf).cached = Recency.touch maxBufNum l.cached blkno := by
  have here : (l'.buf buf).blkno ∈ l.cached := same ▸ List.mem_map_of_mem member
  rw [inv.cached_touch member, same, holds, Recency.touch, if_pos (holds ▸ here)]

private theorem cached_miss {l l' : CacheLists} (inv : l.Inv) (inv' : l'.Inv)
    (same : l'.cached = l.makeRoom.cached) {buf : BufId} (fields : Buf) (free : buf ∈ l'.free)
    (missing : fields.blkno ∉ l.cached) :
    (l'.fill buf fields).cached = Recency.touch maxBufNum l.cached fields.blkno := by
  rw [inv'.cached_fill fields free, same, inv.cached_makeRoom, Recency.touch, if_neg missing]
  split_ifs with short
  · rfl
  · rfl

namespace Inv

variable {l : CacheLists}

private theorem cached_read (inv : l.Inv) (blkno : CInt) :
    (l.read blkno).2.cached = Recency.touch maxBufNum l.cached blkno := by
  rcases inv.read_cases blkno with ⟨buf, member, rfl, _, read⟩ | ⟨buf, rest, found, free, read⟩
  · rw [read]
    exact cached_hit inv member rfl rfl
  · have missing : blkno ∉ l.cached := by simp [inv.mem_cached_iff, found]
    have loaded := inv.makeRoom.load blkno
    rw [read]
    exact cached_miss inv loaded rfl _ (List.mem_of_mem_head? (congrArg List.head? free)) missing

private theorem cached_write (inv : l.Inv) (blkno : CInt) (pData : Block) :
    (l.write blkno pData).cached = Recency.touch maxBufNum l.cached blkno := by
  rcases inv.write_cases blkno pData with ⟨buf, member, rfl, _, ⟨_, write⟩ | ⟨state, write⟩⟩ |
    ⟨buf, rest, found, free, write⟩
  · have marked := inv.mark ⟨(l.buf buf).blkno, .dirty, pData⟩ member rfl (by simp)
    have same : (l.mark buf ⟨(l.buf buf).blkno, .dirty, pData⟩).cached = l.cached :=
      cached_update rfl rfl rfl
    rw [write]
    exact cached_hit marked member same (by simp [CacheLists.mark])
  · have overwritten := inv.overwrite pData state
    have same : (l.overwrite buf pData).cached = l.cached := cached_update rfl rfl rfl
    rw [write]
    exact cached_hit overwritten member same (by simp [CacheLists.overwrite])
  · have missing : blkno ∉ l.cached := by simp [inv.mem_cached_iff, found]
    rw [write]
    exact cached_miss inv inv.makeRoom rfl _ (by simp [free]) missing

end Inv
end CacheLists

/-! ## Runs -/

namespace BufCache

/-- The cache is well formed and its LRU list names the given blocks. -/
def Caches (c : BufCache) (blocks : List CInt) : Prop :=
  ∃ l : CacheLists, c.Shows l ∧ l.Inv ∧ l.cached = blocks

/-- The blocks that the LRU list should name. -/
def recentBlocks (history : List CacheCall) : List CInt :=
  Recency.recent maxBufNum (accesses history)

theorem bufInit_caches {c c' : BufCache} (init : c.bufInit = some c') :
    c'.Caches (recentBlocks []) := by
  obtain ⟨c'', l, run, shows, inv, unused, _⟩ := bufInit_shows c
  rw [run, Option.some.injEq] at init
  exact init ▸ ⟨l, shows, inv, by rw [CacheLists.cached, unused]; rfl⟩

/-- A block is cached when its buffer is found. -/
def Holds (c : BufCache) (blkno : CInt) : Prop := ∃ buf, c.bufFind blkno = some (some buf)

private theorem Caches.holds_iff {c : BufCache} {blocks : List CInt} (caches : c.Caches blocks)
    {blkno : CInt} : c.Holds blkno ↔ blkno ∈ blocks := by
  obtain ⟨l, shows, inv, rfl⟩ := caches
  rw [inv.mem_cached_iff]
  constructor
  · rintro ⟨buf, found⟩
    rw [shows.bufFind (nonneg_of_bufFind shows inv found), Option.some.injEq] at found
    exact ⟨buf, found⟩
  · rintro ⟨buf, found⟩
    obtain ⟨member, rfl⟩ := inv.find_eq_some_iff.mp found
    exact ⟨buf, by rw [shows.bufFind (inv.nonneg buf member), found]⟩

private theorem exec_caches {c c' : BufCache} {history : List CacheCall} {call : CacheCall}
    (caches : c.Caches (recentBlocks history)) (allowed : c.Allowed call)
    (step : c.exec call = some c') : c'.Caches (recentBlocks (history ++ [call])) := by
  obtain ⟨l, shows, inv, blocks⟩ := caches
  have use : ∀ blkno, call.accessed = some blkno →
      recentBlocks (history ++ [call]) = Recency.touch maxBufNum l.cached blkno := by
    intro blkno accessed
    rw [recentBlocks, accesses_snoc, accessed, blocks]
    exact Recency.recent_concat (by decide) _ _
  have keep : call.accessed = none → recentBlocks (history ++ [call]) = l.cached := by
    intro accessed
    rw [recentBlocks, accesses_snoc, accessed, blocks]
    exact congrArg (Recency.recent maxBufNum) (List.append_nil _)
  obtain ⟨c'', run, shows', inv'⟩ := shows.exec inv allowed
  rw [run, Option.some.injEq] at step
  subst step
  refine ⟨_, shows', inv', ?_⟩
  cases call with
  | read blkno => exact (inv.cached_read blkno).trans (use blkno rfl).symm
  | write blkno pData => exact (inv.cached_write blkno pData).trans (use blkno rfl).symm
  | sync => exact l.cached_sync.trans (keep rfl).symm
  | syncBlock blkno => exact (l.cached_syncBlock blkno).trans (keep rfl).symm

theorem Run.caches {c₀ c : BufCache} {history : List CacheCall} (run : Run c₀ history c)
    (initial : c₀.Caches (recentBlocks [])) : c.Caches (recentBlocks history) := by
  induction run with
  | nil => exact initial
  | snoc _ allowed step induction => exact exec_caches induction allowed step

/-- Along a run the LRU list names the latest sixteen distinct blocks in the order of their last
accesses, these are the blocks that are cached, and a block leaves the cache only when a block that
is not cached is accessed, the cache is full, and the one that leaves is the least recent. -/
theorem run_lru_recent {c₀ c₁ c : BufCache} {history : List CacheCall}
    (init : c₀.bufInit = some c₁) (run : Run c₁ history c) :
    (∃ lru, c.getBufInfoInLruList = some lru ∧
      lru.map (fun buf => (c.buf buf).blkno) = recentBlocks history) ∧
    (recentBlocks history).Pairwise (Recency.LastBefore (accesses history)) ∧
    (∀ x ∈ accesses history, x ∉ recentBlocks history → ∀ y ∈ recentBlocks history,
      Recency.LastBefore (accesses history) x y) ∧
    (recentBlocks history).length = min maxBufNum (accesses history).toFinset.card ∧
    (∀ blkno, c.Holds blkno ↔ blkno ∈ recentBlocks history) ∧
    ∀ call c', c.Allowed call → c.exec call = some c' →
      ∀ victim, c.Holds victim → ¬ c'.Holds victim →
        (∃ blkno, call.accessed = some blkno ∧ ¬ c.Holds blkno) ∧
        (recentBlocks history).length = maxBufNum ∧
        (recentBlocks history).head? = some victim := by
  have caches := run.caches (bufInit_caches init)
  have length := Recency.length_recent maxBufNum (accesses history)
  refine ⟨?_, Recency.pairwise_recent _ _, ?_, length, fun _ => caches.holds_iff, ?_⟩
  · obtain ⟨l, shows, inv, blocks⟩ := caches
    refine ⟨l.lru, listing_eq shows.lru (), ?_⟩
    rw [shows.buf, ← blocks, CacheLists.cached]
  · exact fun x used dropped y kept => Recency.lastBefore_of_not_mem_recent used dropped kept
  · intro call c' allowed step victim here gone
    have caches' := exec_caches caches allowed step
    rw [caches.holds_iff] at here
    rw [caches'.holds_iff, recentBlocks, accesses_snoc] at gone
    cases accessed : call.accessed with
    | none => exact absurd here (by simpa [accessed, recentBlocks] using gone)
    | some blkno =>
        rw [accessed, Option.toList_some, Recency.recent_concat (by decide)] at gone
        obtain ⟨missing, full, oldest⟩ := Recency.evicted here gone
        refine ⟨⟨blkno, rfl, fun held => missing (caches.holds_iff.mp held)⟩, ?_, oldest⟩
        exact le_antisymm (length ▸ min_le_left _ _) full

/-- The LRU list behind two evictions: block 7 has come back, and block 21 was written last. -/
theorem run_lru_recent_sweep :
    ∃ c₁ c lru, blank.bufInit = some c₁ ∧ Run c₁ sweep c ∧ c.getBufInfoInLruList = some lru ∧
      lru.map (fun buf => (c.buf buf).blkno) =
        [10, 11, 12, 13, 14, 15, 16, 17, 18, 19, 20, 22, 23, 24, 7, 21] := by
  obtain ⟨c₁, c, init, run⟩ := exists_run_sweep
  obtain ⟨lru, listed, blocks⟩ := (run_lru_recent init run).1
  exact ⟨c₁, c, lru, init, run, listed, blocks.trans (by decide)⟩

end BufCache
end KwHomework
