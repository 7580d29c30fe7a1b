import KwHomework.FileSystem.BlockSync
import KwHomework.FileSystem.Eviction

/-!
# What is on the disk

Between two calls of `BufSync` a block reaches the disk only when its buffer is needed for another
block.  If the process stops there, every block of the disk is as it was at some moment since the
last time that it was synchronised, and no more than sixteen blocks differ from what the calls have
written.  The disk is read once for each block that `BufRead` finds neither among the sixteen blocks
accessed last.
-/

namespace KwHomework

open Function

/-! ## One call -/

namespace CacheLists

/-- The number of reads of the disk in a call. -/
def loads (l : CacheLists) : CacheCall → Nat
  | .read blkno => if l.find blkno = none then 1 else 0
  | _ => 0

namespace Inv

variable {l : CacheLists} (inv : l.Inv) (b : CInt)

include inv

theorem blocks_makeRoom : l.makeRoom.dev.blocks b = l.dev.blocks b ∨
    l.makeRoom.dev.blocks b = l.logical b := by
  rw [CacheLists.makeRoom]
  split_ifs with full
  · cases nodes : l.lru with
    | nil => simp [CacheLists.evict, nodes]
    | cons iter rest =>
        have stored := inv.logical_of_mem (show iter ∈ l.lru by simp [nodes])
        cases state : (l.buf iter).state with
        | clean => simp [CacheLists.evict, nodes, state]
        | dirty =>
            by_cases same : b = (l.buf iter).blkno
            · subst same
              simp [CacheLists.evict, nodes, state, stored]
            · simp [CacheLists.evict, nodes, state, same]
  · exact Or.inl rfl

theorem blocks_exec (call : CacheCall) : (l.exec call).dev.blocks b = l.dev.blocks b ∨
    (l.exec call).dev.blocks b = l.logical b := by
  cases call with
  | read blkno =>
      rcases inv.read_cases blkno with ⟨buf, _, _, _, read⟩ | ⟨buf, rest, _, _, read⟩
      · rw [CacheLists.exec, read]
        exact Or.inl rfl
      · rw [CacheLists.exec, read]
        exact inv.blocks_makeRoom b
  | write blkno pData =>
      rcases inv.write_cases blkno pData with ⟨buf, _, _, _, ⟨_, write⟩ | ⟨_, write⟩⟩ |
        ⟨buf, rest, _, _, write⟩
      · rw [CacheLists.exec, write]
        exact Or.inl rfl
      · rw [CacheLists.exec, write]
        exact Or.inl rfl
      · rw [CacheLists.exec, write]
        exact inv.blocks_makeRoom b
  | sync => exact Or.inr (congrFun inv.blocks_sync b)
  | syncBlock blkno =>
      cases found : l.find blkno with
      | none => simp [CacheLists.exec, CacheLists.syncBlock, found]
      | some buf =>
          rw [CacheLists.exec, (inv.syncBlock_frame found).2.2.2]
          by_cases same : b = blkno
          · rw [same, update_self]
            exact Or.inr rfl
          · rw [update_of_ne same]
            exact Or.inl rfl

theorem blocks_syncBlock (cached : l.find b ≠ none) :
    (l.exec (.syncBlock b)).dev.blocks b = l.logical b := by
  obtain ⟨buf, found⟩ := Option.ne_none_iff_exists'.mp cached
  rw [CacheLists.exec, (inv.syncBlock_frame found).2.2.2, update_self]

/-- A block that the disk does not have is in a dirty buffer. -/
theorem exists_dirty (differs : l.dev.blocks b ≠ l.logical b) :
    ∃ buf ∈ l.states .dirtyList, (l.buf buf).blkno = b := by
  by_cases held : ∃ buf ∈ l.lru, (l.buf buf).blkno = b
  · obtain ⟨buf, used, rfl⟩ := held
    refine ⟨buf, (inv.states_iff _ buf).mpr ⟨used, ?_⟩, rfl⟩
    cases state : (l.buf buf).state with
    | clean => exact absurd ((inv.coherent buf used state).symm.trans
        (inv.logical_of_mem used).symm) differs
    | dirty => rfl
  · exact absurd (inv.logical_of_uncached (by simpa using held)).symm differs

theorem readCount_exec (call : CacheCall) :
    (l.exec call).dev.diskReadCount = l.dev.diskReadCount + l.loads call := by
  have room : l.makeRoom.dev.diskReadCount = l.dev.diskReadCount := by
    rw [CacheLists.makeRoom]
    split_ifs
    · cases nodes : l.lru with
      | nil => simp [CacheLists.evict, nodes]
      | cons iter rest =>
          cases state : (l.buf iter).state <;>
            simp [CacheLists.evict, nodes, state, Device.devWriteBlock]
    · rfl
  cases call with
  | read blkno =>
      rcases inv.read_cases blkno with ⟨buf, _, _, found, read⟩ | ⟨buf, rest, found, _, read⟩
      · simp [CacheLists.exec, read, loads, found, CacheLists.touch]
      · rw [CacheLists.exec, read, loads, if_pos found, ← room]
        rfl
  | write blkno pData =>
      rcases inv.write_cases blkno pData with ⟨buf, _, _, _, ⟨_, write⟩ | ⟨_, write⟩⟩ |
        ⟨buf, rest, _, _, write⟩
      · simp [CacheLists.exec, write, loads, CacheLists.touch, CacheLists.mark]
      · simp [CacheLists.exec, write, loads, CacheLists.touch, CacheLists.overwrite]
      · rw [CacheLists.exec, write]
        exact room
  | sync =>
      simp only [CacheLists.exec, CacheLists.sync, loads]
      induction l.states .dirtyList using List.reverseRecOn with
      | nil => rfl
      | append_singleton bufs buf induction =>
          rw [List.foldl_append, ← induction]
          rfl
  | syncBlock blkno =>
      cases found : l.find blkno with
      | none => simp [CacheLists.exec, CacheLists.syncBlock, loads, found]
      | some buf =>
          cases state : (l.buf buf).state <;>
            simp [CacheLists.exec, CacheLists.syncBlock, loads, found, state, CacheLists.writeBack,
              CacheLists.mark, CacheLists.flush, Device.devWriteBlock]

end Inv
end CacheLists

/-! ## Runs -/

namespace BufCache

variable {c₀ c₁ c c' : BufCache} {early late history : List CacheCall} {b : CInt}

private theorem flatStore_append (disk : CInt → Block) (early late : List CacheCall) :
    flatStore (flatStore disk early) late = flatStore disk (early ++ late) := by
  induction late using List.reverseRecOn with
  | nil => rw [List.append_nil]; rfl
  | append_singleton late call induction =>
      rw [← List.append_assoc]
      cases call with
      | write blkno pData => rw [flatStore_write, flatStore_write, induction]
      | read | sync | syncBlock =>
          rw [flatStore_of_not_write _ _ (by simp), flatStore_of_not_write _ _ (by simp), induction]

private theorem Run.of_nil (run : Run c₁ [] c) : c = c₁ := by
  generalize none : [] = history at run
  cases run with
  | nil => rfl
  | snoc => simp at none

private theorem Run.of_concat {call : CacheCall} (run : Run c₁ (history ++ [call]) c) :
    ∃ c', Run c₁ history c' ∧ c'.Allowed call ∧ c'.exec call = some c := by
  generalize whole : history ++ [call] = longer at run
  cases run with
  | nil => simp at whole
  | snoc run allowed step =>
      obtain ⟨rfl, same⟩ := List.append_inj' whole rfl
      obtain rfl := List.singleton_inj.mp same
      exact ⟨_, run, allowed, step⟩

theorem Run.split : ∀ {late : List CacheCall} {c : BufCache}, Run c₁ (early ++ late) c →
    ∃ c', Run c₁ early c' ∧ Run c' late c := by
  intro late
  induction late using List.reverseRecOn with
  | nil =>
      intro c run
      rw [List.append_nil] at run
      exact ⟨c, run, .nil⟩
  | append_singleton late call induction =>
      intro c run
      rw [← List.append_assoc] at run
      obtain ⟨c₂, run, allowed, step⟩ := run.of_concat
      obtain ⟨c', first, second⟩ := induction run
      exact ⟨c', first, second.snoc allowed step⟩

/-- Where a block of the disk is up to date, it is later as it was at some moment since. -/
theorem Run.blocks_since {store : CInt → Block} (run : Run c' late c) (impl : c'.Implements store)
    (durable : c'.dev.blocks b = store b) :
    ∃ mid, mid <+: late ∧ c.dev.blocks b = flatStore store mid b := by
  induction run with
  | nil => exact ⟨[], List.prefix_rfl, durable⟩
  | snoc run allowed step induction =>
      obtain ⟨mid, before, held⟩ := induction
      obtain ⟨l, shows, inv, logical⟩ := run.implements impl
      obtain ⟨c'', run', shows', _⟩ := shows.exec inv allowed
      obtain rfl := Option.some.inj (run'.symm.trans step)
      rw [shows'.dev]
      rcases inv.blocks_exec b _ with same | stored
      · rw [same, ← shows.dev]
        exact ⟨mid, before.trans (List.prefix_append _ _), held⟩
      · rw [stored, logical]
        exact ⟨_, List.prefix_append _ _, rfl⟩

/-- Behind the last of the calls the block is on the disk. -/
def Synced (b : CInt) (early : List CacheCall) : Prop :=
  early = [] ∨ (∃ before, early = before ++ [.sync]) ∨ ∃ before, early = before ++ [.syncBlock b]

private theorem Run.blocks_synced {store : CInt → Block} (run : Run c₁ early c)
    (impl : c₁.Implements store) (initial : c₁.dev.blocks b = store b) (synced : Synced b early) :
    c.dev.blocks b = flatStore store early b := by
  have last : ∀ {before call}, Run c₁ (before ++ [call]) c →
    (∀ blkno pData, call ≠ .write blkno pData) →
      (∀ (c' : BufCache) (l : CacheLists), c'.Shows l → l.Inv → c'.Allowed call →
        (l.exec call).dev.blocks b = l.logical b) →
      c.dev.blocks b = flatStore store (before ++ [call]) b := by
    intro before call run other stores
    obtain ⟨c', first, allowed, step⟩ := run.of_concat
    obtain ⟨l, shows, inv, logical⟩ := first.implements impl
    obtain ⟨c'', run', shows', _⟩ := shows.exec inv allowed
    obtain rfl := Option.some.inj (run'.symm.trans step)
    rw [shows'.dev, stores c' l shows inv allowed, logical, flatStore_of_not_write _ _ other]
  obtain rfl | ⟨before, rfl⟩ | ⟨before, rfl⟩ := synced
  · rw [run.of_nil, initial]
    rfl
  · exact last run (by simp) fun _ l _ inv _ => congrFun inv.blocks_sync b
  · refine last run (by simp) fun c' l shows inv allowed => inv.blocks_syncBlock b fun none => ?_
    obtain ⟨buf, found⟩ := allowed
    rw [shows.bufFind (nonneg_of_bufFind shows inv found), none] at found
    cases found

/-- If the process stops behind a run, each block of the disk is as it was at some moment since it
was synchronised last, and only the blocks of the dirty buffers, sixteen at the most, differ from
what the calls have written. -/
theorem run_disk_blocks (init : c₀.bufInit = some c₁) (run : Run c₁ history c) :
    (∀ b early late, history = early ++ late → Synced b early →
      ∃ mid, mid <+: late ∧ c.dev.blocks b = flatStore c₀.dev.blocks (early ++ mid) b) ∧
    ∃ dirty, c.getBufInfoInStateList .dirtyList = some dirty ∧ dirty.length ≤ maxBufNum ∧
      ∀ b, c.dev.blocks b ≠ flatStore c₀.dev.blocks history b →
        ∃ buf ∈ dirty, (c.buf buf).blkno = b := by
  obtain ⟨_, l₁, init', shows₁, inv₁, unused, dev⟩ := bufInit_shows c₀
  obtain rfl := Option.some.inj (init'.symm.trans init)
  have initial := run_implements init Run.nil
  refine ⟨fun b early late whole synced => ?_, ?_⟩
  · subst whole
    obtain ⟨c', first, second⟩ := run.split
    have start : l₁.dev.blocks b = c₀.dev.blocks b := by
      rw [← dev, inv₁.logical_of_uncached (by simp [unused])]
    have stored := first.blocks_synced (b := b) initial (by rw [shows₁.dev, start]; rfl) synced
    obtain ⟨mid, before, held⟩ := second.blocks_since (run_implements init first) stored
    exact ⟨mid, before, held.trans (congrFun (flatStore_append ..) b)⟩
  · obtain ⟨l, shows, inv, logical⟩ := run_implements init run
    refine ⟨l.states .dirtyList, listing_eq shows.states .dirtyList, ?_, fun b differs => ?_⟩
    · have few := (inv.states_nodup .dirtyList).length_le_card
      rwa [Fintype.card_fin] at few
    · rw [← logical, shows.dev] at differs
      rw [shows.buf]
      exact inv.exists_dirty b differs

/-- A process that stops behind evictions, a `BufSync` and one more write. -/
theorem run_disk_blocks_sweep : ∃ c₁ c, blank.bufInit = some c₁ ∧ Run c₁ sweep c ∧
    (∀ b early late, sweep = early ++ late → Synced b early →
      ∃ mid, mid <+: late ∧ c.dev.blocks b = flatStore blank.dev.blocks (early ++ mid) b) ∧
    ∃ dirty, c.getBufInfoInStateList .dirtyList = some dirty ∧ dirty.length ≤ maxBufNum ∧
      ∀ b, c.dev.blocks b ≠ flatStore blank.dev.blocks sweep b →
        ∃ buf ∈ dirty, (c.buf buf).blkno = b := by
  obtain ⟨c₁, c, init, run⟩ := exists_run_sweep
  exact ⟨c₁, c, init, run, run_disk_blocks init run⟩

/-! ## Reading the disk -/

/-- The reads of blocks that are not among the sixteen accessed last; the latest call comes
first. -/
def missesRev : List CacheCall → Nat
  | [] => 0
  | .read blkno :: earlier =>
      missesRev earlier + if (recentBlocks earlier.reverse).contains blkno then 0 else 1
  | _ :: earlier => missesRev earlier

/-- The number of `BufRead` calls that miss in a least-recently-used cache of sixteen blocks. -/
def readMisses (history : List CacheCall) : Nat := missesRev history.reverse

private theorem readMisses_snoc {l : CacheLists} (inv : l.Inv)
    (blocks : l.cached = recentBlocks history)
    (call : CacheCall) : readMisses (history ++ [call]) = readMisses history + l.loads call := by
  rw [readMisses, List.reverse_append]
  cases call with
  | read blkno =>
      change missesRev history.reverse +
        (if (recentBlocks history.reverse.reverse).contains blkno then 0 else 1) = _
      rw [List.reverse_reverse, ← blocks, readMisses, CacheLists.loads]
      cases found : l.find blkno with
      | none => simp [inv.mem_cached_iff, found]
      | some buf => simp [inv.mem_cached_iff, found]
  | write | sync | syncBlock => rfl

private theorem Run.readCount (run : Run c₁ history c) (initial : c₁.Caches (recentBlocks [])) :
    c.dev.diskReadCount = c₁.dev.diskReadCount + readMisses history := by
  induction run with
  | nil => rfl
  | snoc run allowed step induction =>
      obtain ⟨l, shows, inv, blocks⟩ := run.caches initial
      obtain ⟨c'', run', shows', _⟩ := shows.exec inv allowed
      obtain rfl := Option.some.inj (run'.symm.trans step)
      rw [shows'.dev, inv.readCount_exec, ← shows.dev, induction, readMisses_snoc inv blocks,
        Nat.add_assoc]

/-- The disk is read for each `BufRead` of a block that is not among the sixteen accessed last, and
for nothing else. -/
theorem run_readCount (init : c₀.bufInit = some c₁) (run : Run c₁ history c) :
    c.dev.diskReadCount = c₁.dev.diskReadCount + readMisses history :=
  run.readCount (bufInit_caches init)

/-- Of the two reads one misses, and the writes read nothing. -/
theorem run_readCount_sweep : ∃ c₁ c, blank.bufInit = some c₁ ∧ Run c₁ sweep c ∧
    c.dev.diskReadCount = c₁.dev.diskReadCount + 1 := by
  obtain ⟨c₁, c, init, run⟩ := exists_run_sweep
  have misses : readMisses sweep = 1 := by decide
  exact ⟨c₁, c, init, run, misses ▸ run_readCount init run⟩

end BufCache

end KwHomework
