import KwHomework.FileSystem.Counters
import KwHomework.FileSystem.Machine
import Mathlib.Data.Set.Card

/-!
# The printed bitmaps

`PrintInodeBitmap` and `PrintBlockBitmap` of `testcase.c` read the disk behind the cache.  They call
`Sync` first, and so they print the bitmaps as the calls have left them: a bit for each path, and a
bit for each block.
-/

namespace KwHomework

open Function FS

/-- The number of set bits in the bytes of a bitmap, the highest bit of a byte first. -/
def setBits (bytes : List Byte) : Nat :=
  (List.range (8 * bytes.length)).countP fun n => (bytes.getD (n / 8) 0#8).getLsbD (7 - n % 8)

namespace Machine

/-- Code of the file system, run by the process. -/
def exec {α : Type} (x : FS α) (m : Machine) : Option (α × Machine) :=
  ((x.run m.mem).run cacheDevice m.cache).map fun r => (r.1.1, ⟨r.1.2, r.2⟩)

/-- The bytes that are printed of a bitmap, by `Sync` and a `DevReadBlock` behind the cache. -/
def printBitmap (m : Machine) (blkno : CInt) (count : Nat) : Option (List Byte × Machine) := do
  let (_, m) ← m.exec FS.sync
  let (pBitmap, dev) := m.cache.dev.devReadBlock blkno
  return ((List.range count).map pBitmap.byteAt, { m with cache := { m.cache with dev } })

/-- `PrintInodeBitmap`. -/
def printInodeBitmap (m : Machine) : Option (List Byte × Machine) :=
  m.printBitmap inodeBitmapBlockNum (64 / 8)

/-- `PrintBlockBitmap`. -/
def printBlockBitmap (m : Machine) : Option (List Byte × Machine) :=
  m.printBitmap blockBitmapBlockNum (blockSize / 8)

end Machine

/-! ## The disk behind the cache -/

/-- A `DevReadBlock` behind the cache changes nothing but a counter. -/
theorem BufCache.Implements.devReadBlock {c : BufCache} {store : Store} (impl : c.Implements store)
    (blkno : CInt) :
    BufCache.Implements { c with dev := (c.dev.devReadBlock blkno).2 } store := by
  obtain ⟨l, shows, inv, rfl⟩ := impl
  refine ⟨l.setDev (l.dev.devReadBlock blkno).2, ?_, ?_, rfl⟩
  · exact ⟨shows.buf, shows.hash, shows.states, shows.lru, shows.free, by rw [shows.dev]; rfl⟩
  · exact ⟨inv.free_nodup, inv.lru_nodup, inv.hash_nodup, inv.states_nodup, inv.free_iff,
      inv.hash_iff, inv.states_iff, inv.nonneg, inv.distinct, inv.coherent⟩

namespace Machine

variable {m : Machine} {s : FileSys}

/-- Code that succeeds on the flat store is run by the process. -/
theorem For.exec {α : Type} {x : FS α} {r : α} {s' : FileSys} (here : m.For s)
    (success : FS.exec x s = some (r, s')) : ∃ m', m.exec x = some (r, m') ∧ m'.For s' := by
  obtain ⟨m', run, there⟩ := here.run success
  exact ⟨m', by rw [Machine.exec, run]; rfl, there⟩

theorem For.printBitmap (here : m.For s) (blkno : CInt) (count : Nat) : ∃ m',
    m.printBitmap blkno count = some ((List.range count).map (s.disk blkno).byteAt, m') ∧
      m'.For s := by
  obtain ⟨m₁, sync, there⟩ := here.run (exec_bufSync s)
  obtain ⟨mem, impl⟩ := here
  obtain ⟨cache, close, blocks⟩ := run_closeFileSystem impl
  have same : m₁.cache = cache := by
    rw [mem] at sync
    exact (Prod.mk.inj (Option.some.inj (sync.symm.trans close))).2
  let cache' : BufCache := { m₁.cache with dev := (m₁.cache.dev.devReadBlock blkno).2 }
  refine ⟨⟨m₁.mem, cache'⟩, ?_, there.1, there.2.devReadBlock blkno⟩
  rw [← blocks, ← same, Machine.printBitmap, Machine.exec, FS.sync, sync]
  rfl

end Machine

/-! ## Numbers of bits -/

private theorem setBits_map (blk : Block) (count : Nat) :
    setBits ((List.range count).map blk.byteAt) = (List.range (8 * count)).countP blk.bitAt := by
  rw [setBits, List.length_map, List.length_range]
  refine List.countP_congr fun n member => ?_
  have inside : n / 8 < count := by
    rw [List.mem_range] at member
    omega
  rw [List.getD_eq_getElem _ _ (by simpa using inside), List.getElem_map, List.getElem_range,
    Block.bitAt]

namespace Store

theorem countP_inodes (disk : Store) :
    (List.range 64).countP (disk inodeBitmapBlockNum).bitAt = disk.volume.numUsedInodes := by
  rw [Volume.numUsedInodes, Volume.inodeNums, List.countP_map]
  refine List.countP_congr fun n member => ?_
  rw [List.mem_range] at member
  have value : (BitVec.ofNat 32 n).toNat = n := by
    rw [BitVec.toNat_ofNat]
    omega
  have valid : ValidInode (BitVec.ofNat 32 n) := by rwa [ValidInode, value]
  have bit : disk.volume.inodeUsed (BitVec.ofNat 32 n) = (decide (ValidInode (BitVec.ofNat 32 n)) &&
    (disk inodeBitmapBlockNum).bitAt (BitVec.ofNat 32 n).toNat) := rfl
  rw [comp_apply, bit, decide_eq_true valid, Bool.true_and, value]

theorem countP_blocks (disk : Store)
    (reserved : ∀ b : CInt, b.toNat < 7 → disk.volume.blockUsed b = true) :
    (List.range 512).countP (disk blockBitmapBlockNum).bitAt = 7 + disk.volume.numUsedBlocks := by
  have bit : ∀ n < 512, (disk blockBitmapBlockNum).bitAt n = disk.volume.blockUsed
      (BitVec.ofNat 32 n) := by
    intro n inside
    have value : (BitVec.ofNat 32 n).toNat = n := by
      rw [BitVec.toNat_ofNat]
      omega
    have bit : disk.volume.blockUsed (BitVec.ofNat 32 n) =
      (decide ((BitVec.ofNat 32 n).toNat < 512) &&
        (disk blockBitmapBlockNum).bitAt (BitVec.ofNat 32 n).toNat) := rfl
    rw [bit, value, decide_eq_true inside, Bool.true_and]
  have metadata : (List.range 7).countP (disk blockBitmapBlockNum).bitAt = 7 := by
    refine (List.countP_eq_length.mpr fun n member => ?_).trans List.length_range
    rw [List.mem_range] at member
    rw [bit n (by omega)]
    exact reserved _ (by rw [BitVec.toNat_ofNat]; omega)
  have split : List.range 512 = List.range 7 ++ List.range' 7 505 := by
    rw [List.range_eq_range', List.range_eq_range', List.range'_append_1]
  rw [split, List.countP_append, metadata, Volume.numUsedBlocks, Volume.dataBlocks, List.countP_map]
  refine congrArg (7 + ·) (List.countP_congr fun n member => ?_)
  rw [List.mem_range'_1] at member
  rw [bit n (by omega), comp_apply]

end Store

/-- There are as many inodes in use as paths. -/
theorem Models.numUsedInodes_eq {w : View} {a : Files} (models : Models w a) :
    w.volume.numUsedInodes = {path | a.entry path ≠ none}.ncard := by
  let nodes : Finset CInt := (Volume.inodeNums.filter w.volume.inodeUsed).toFinset
  have mem_nodes : ∀ n, n ∈ nodes ↔ w.volume.inodeUsed n = true := by
    intro n
    rw [List.mem_toFinset, List.mem_filter, Volume.mem_inodeNums,
      and_iff_right_of_imp (models.sound.consistent.used_valid n)]
  choose! path proper leads using models.ok.reached
  have shown : {path | a.entry path ≠ none} = path '' nodes := by
    ext y
    rw [Set.mem_ofPred_eq, Option.ne_none_iff_exists', Set.mem_image]
    constructor
    · rintro ⟨e, found⟩
      obtain ⟨proper', n, leads', _⟩ := (models.shows.entry ..).mp found
      have used := models.ok.tree.used_of_leads leads'
      exact ⟨n, Finset.mem_coe.mpr ((mem_nodes n).mpr used),
        models.ok.tree.path_unique (proper n used) proper' (leads n used) leads'⟩
    · rintro ⟨n, member, rfl⟩
      have used := (mem_nodes n).mp (Finset.mem_coe.mp member)
      exact ⟨_, models.shows.entry_of_leads (proper n used) (leads n used)⟩
  have injective : Set.InjOn path nodes := by
    intro n member n' member' same
    have used := (mem_nodes n).mp (Finset.mem_coe.mp member)
    have used' := (mem_nodes n').mp (Finset.mem_coe.mp member')
    exact models.ok.tree.leads_unique (leads n used) (same ▸ leads n' used')
  rw [shown, injective.ncard_image, Set.ncard_coe_finset,
    List.toFinset_card_of_nodup (Volume.nodup_inodeNums.filter _), Volume.numUsedInodes,
    List.countP_eq_length_filter]

/-! ## The bitmaps of a run -/

namespace Machine

/-- What is printed of the inodes. -/
theorem For.printInodeBitmap {m : Machine} {s : FileSys} {a : Files} (here : m.For s)
    (models : Models s.view a) : ∃ inodes m', m.printInodeBitmap = some (inodes, m') ∧ m'.For s ∧
      setBits inodes = {path | a.entry path ≠ none}.ncard := by
  obtain ⟨m', run, there⟩ := here.printBitmap inodeBitmapBlockNum (64 / 8)
  refine ⟨_, m', run, there, ?_⟩
  rw [setBits_map, ← models.numUsedInodes_eq]
  exact s.disk.countP_inodes

theorem For.printBlockBitmap {m : Machine} {s : FileSys} {a : Files} (here : m.For s)
    (models : Models s.view a) : ∃ blocks m', m.printBlockBitmap = some (blocks, m') ∧ m'.For s ∧
      setBits blocks = 7 + s.view.volume.sumAllocBlocks := by
  have sound := models.sound
  obtain ⟨m', run, there⟩ := here.printBitmap blockBitmapBlockNum (blockSize / 8)
  refine ⟨_, m', run, there, ?_⟩
  rw [setBits_map, ← models.sized.numUsedBlocks_eq sound.consistent sound.freeBlank]
  exact s.disk.countP_blocks sound.consistent.blocks.reserved

end Machine

/-- In every run over any number of processes, the printed bitmaps have one bit for each path and
one for each block of metadata or of a file or directory, and printing leaves the files as they
are. -/
theorem bitmaps_print {m₀ m : Machine} {events : List MachineEvent} (formats : m₀.Formats)
    (run : Trace Machine.Step m₀ events m) : ∃ a s inodes blocks m₁ m₂,
      Trace Files.Next .initial events a ∧ m.printInodeBitmap = some (inodes, m₁) ∧
      m₁.printBlockBitmap = some (blocks, m₂) ∧ m₂.For s ∧ a.Shows s.view.nodes 0#32 dot dotDot ∧
      setBits inodes = {path | a.entry path ≠ none}.ncard ∧
      setBits blocks = 7 + s.view.volume.sumAllocBlocks := by
  have matched : ∀ (m : Machine) (a : Files) event m', m.Stands a → Machine.Step m event m' →
      ∃ a', Files.Next a event a' ∧ m'.Stands a' := fun _ _ _ _ stands step => stands.step step
  obtain ⟨a, next, s, here, models⟩ := Trace.simulates matched formats.stands run
  obtain ⟨inodes, m₁, first, there, paths⟩ := here.printInodeBitmap models
  obtain ⟨blocks, m₂, second, there', sizes⟩ := there.printBlockBitmap models
  exact ⟨a, s, inodes, blocks, m₁, m₂, next, first, second, there', models.shows, paths, sizes⟩

/-- The bitmaps behind the creation of `/a` and a restart. -/
theorem bitmaps_print_restart : ∃ m₀ r m, m₀.Formats ∧
    Trace Machine.Step m₀ [.call (.createFile pathA) r, .restart] m ∧
    ∃ a s inodes blocks m₁ m₂, Trace Files.Next .initial [.call (.createFile pathA) r, .restart] a ∧
      m.printInodeBitmap = some (inodes, m₁) ∧ m₁.printBlockBitmap = some (blocks, m₂) ∧ m₂.For s ∧
      a.Shows s.view.nodes 0#32 dot dotDot ∧ setBits inodes = {path | a.entry path ≠ none}.ncard ∧
      setBits blocks = 7 + s.view.volume.sumAllocBlocks := by
  obtain ⟨m₀, r, m, formats, run⟩ := Machine.exists_run
  exact ⟨m₀, r, m, formats, run, bitmaps_print formats run⟩

end KwHomework
