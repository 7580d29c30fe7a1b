import KwHomework.FileSystem.View
import KwHomework.Volume.Cells

/-!
# Tables

The bitmaps stand for sets of numbers, and the inode list for one inode to a number.  The accessors
of `fs_internal.c` insert into these sets, delete from them and assign to the inodes, each without
touching anything else.
-/

namespace KwHomework

open Function FS

/-- A call of an accessor that writes. -/
inductive Accessor where
  | setInodeBitmap (inodeno : CInt)
  | resetInodeBitmap (inodeno : CInt)
  | setBlockBitmap (blkno : CInt)
  | resetBlockBitmap (blkno : CInt)
  | putInode (inodeno : CInt) (pInode : Inode)

/-- The numbers of the marked bits. -/
def Block.marked (blk : Block) : Set Nat := { n | blk.bitAt n = true }

/-- The marked blocks, the marked inodes, and the inodes. -/
structure Tables where
  blocks : Set Nat
  inodes : Set Nat
  inode : CInt → Inode

namespace Accessor

/-- Make the call. -/
def run : Accessor → FS Unit
  | setInodeBitmap inodeno => FS.setInodeBitmap inodeno
  | resetInodeBitmap inodeno => FS.resetInodeBitmap inodeno
  | setBlockBitmap blkno => FS.setBlockBitmap blkno
  | resetBlockBitmap blkno => FS.resetBlockBitmap blkno
  | putInode inodeno pInode => FS.putInode inodeno pInode

/-- The number is one of the inode table, or one of the disk. -/
def Allowed : Accessor → Prop
  | setInodeBitmap inodeno | resetInodeBitmap inodeno | putInode inodeno _ => ValidInode inodeno
  | setBlockBitmap blkno | resetBlockBitmap blkno => blkno.toNat < 512

/-- The block that is written. -/
def block : Accessor → CInt
  | setInodeBitmap _ | resetInodeBitmap _ => inodeBitmapBlockNum
  | setBlockBitmap _ | resetBlockBitmap _ => blockBitmapBlockNum
  | putInode inodeno _ => inodeBlock inodeno

/-- The bit of the block bitmap. -/
def blockBit : Accessor → Option Nat
  | setBlockBitmap blkno | resetBlockBitmap blkno => some blkno.toNat
  | _ => none

/-- The bit of the inode bitmap. -/
def inodeBit : Accessor → Option Nat
  | setInodeBitmap inodeno | resetInodeBitmap inodeno => some inodeno.toNat
  | _ => none

/-- The number and the inode that are put into the inode list. -/
def put : Accessor → Option (CInt × Inode)
  | putInode inodeno pInode => some (inodeno, pInode)
  | _ => none

end Accessor

/-- What a call is for. -/
def Tables.apply (t : Tables) : Accessor → Tables
  | .setInodeBitmap inodeno => { t with inodes := insert inodeno.toNat t.inodes }
  | .resetInodeBitmap inodeno => { t with inodes := t.inodes \ {inodeno.toNat} }
  | .setBlockBitmap blkno => { t with blocks := insert blkno.toNat t.blocks }
  | .resetBlockBitmap blkno => { t with blocks := t.blocks \ {blkno.toNat} }
  | .putInode inodeno pInode => { t with inode := update t.inode inodeno pInode }

/-- The tables on a disk. -/
def Store.tables (disk : Store) : Tables where
  blocks := (disk blockBitmapBlockNum).marked
  inodes := (disk inodeBitmapBlockNum).marked
  inode := disk.volume.inode

/-- The call changes its own bit or inode, and nothing else. -/
structure ChangesOnly (call : Accessor) (s s' : FileSys) : Prop where
  memory : s'.toMemory = s.toMemory
  block : ∀ b, b ≠ call.block → s'.disk b = s.disk b
  blockBit : ∀ n, call.blockBit ≠ some n →
    (s'.disk blockBitmapBlockNum).bitAt n = (s.disk blockBitmapBlockNum).bitAt n
  inodeBit : ∀ n, call.inodeBit ≠ some n →
    (s'.disk inodeBitmapBlockNum).bitAt n = (s.disk inodeBitmapBlockNum).bitAt n
  inode : ∀ n, ValidInode n → (∀ pInode, call.put ≠ some (n, pInode)) →
    ∃ inode, exec (getInode n) s' = some (inode, s') ∧ exec (getInode n) s = some (inode, s)

/-- The result of a search is the least number below the bound that is not in the set, or -1 if
there is none. -/
def LeastOutside (bound : Nat) (set : Set Nat) (result : CInt) : Prop :=
  (result = -1 ↔ ∀ n < bound, n ∈ set) ∧
    (result ≠ -1 → IsLeast { n | n < bound ∧ n ∉ set } result.toNat)

/-- The inode that the calls put last. -/
def lastPut (calls : List Accessor) (inodeno : CInt) : Option Inode :=
  Cells.last (calls.filterMap Accessor.put) inodeno

/-! ## Bitmaps -/

variable {s s' : FileSys} {blk blk' : Block} {n : CInt} {call : Accessor} {calls : List Accessor}

namespace Block

private theorem marked_setBit {k : Nat}
    (bits : ∀ m, blk'.bitAt m = if m = k then true else blk.bitAt m) :
    blk'.marked = insert k blk.marked := by
  ext m
  rw [marked, Set.mem_ofPred_eq, bits, Set.mem_insert_iff]
  by_cases same : m = k
  · simp [same]
  · simp [same, marked]

private theorem marked_resetBit {k : Nat}
    (bits : ∀ m, blk'.bitAt m = if m = k then false else blk.bitAt m) :
    blk'.marked = blk.marked \ {k} := by
  ext m
  rw [marked, Set.mem_ofPred_eq, bits, Set.mem_sdiff, Set.mem_singleton_iff]
  by_cases same : m = k
  · simp [same]
  · simp [same, marked]

/-- The scan of a bitmap finds the least number that is not marked. -/
theorem firstClear_least (blk : Block) {bytes : Nat} (small : bytes ≤ blockSize) :
    LeastOutside (8 * bytes) blk.marked (blk.firstClear bytes) := by
  have members : ∀ m, blk.bitAt m = true ↔ m ∈ blk.marked := fun m => Iff.rfl
  rw [firstClear_eq]
  cases found : (List.range (8 * bytes)).find? fun n => !blk.bitAt n with
  | none =>
      exact ⟨iff_of_true rfl ((Cells.find?_eq_none_iff members).mp found), fun other =>
        absurd rfl other⟩
  | some n =>
      have least := Cells.isLeast_of_find? members found
      have below : n < 4096 := by
        have inside : n < 8 * bytes := least.1.1
        simp only [blockSize] at small
        omega
      have value : (BitVec.ofNat 32 n).toNat = n := by
        rw [BitVec.toNat_ofNat]
        omega
      have positive : BitVec.ofNat 32 n ≠ (-1 : CInt) := fun same => by
        have large := congrArg BitVec.toNat same
        rw [value] at large
        simp at large
        omega
      refine ⟨iff_of_false positive fun all => least.1.2 (all n least.1.1), fun _ => ?_⟩
      rw [foundOrFail, value]
      exact least

end Block

/-! ## The tables after one call -/

namespace Store

variable (disk : Store)

private theorem tables_update_inodeBitmap (blk : Block) :
    tables (update disk inodeBitmapBlockNum blk) = { disk.tables with inodes := blk.marked } := by
  simp [tables, volume_update_inodeBitmap,
    update_of_ne (show blockBitmapBlockNum ≠ inodeBitmapBlockNum by decide)]

private theorem tables_update_blockBitmap (blk : Block) :
    tables (update disk blockBitmapBlockNum blk) = { disk.tables with blocks := blk.marked } := by
  simp [tables, volume_update_blockBitmap,
    update_of_ne (show inodeBitmapBlockNum ≠ blockBitmapBlockNum by decide)]

private theorem tables_storeInode (valid : ValidInode n) (inode : Inode) :
    tables (update disk (inodeBlock n)
      ((disk (inodeBlock n)).storeInode (inodeIndex n) inode)) =
      { disk.tables with inode := update disk.tables.inode n inode } := by
  have block := toNat_inodeBlock valid
  have inodes : inodeBitmapBlockNum ≠ inodeBlock n := fun same => by
    rw [← same] at block
    simp at block
  have blocks : blockBitmapBlockNum ≠ inodeBlock n := fun same => by
    rw [← same] at block
    simp at block
  simp [tables, volume_storeInode disk valid, update_of_ne inodes, update_of_ne blocks]

end Store

theorem Accessor.exec_run (allowed : call.Allowed) (s : FileSys) :
    ∃ blk, exec call.run s = some ((), { s with disk := update s.disk call.block blk }) ∧
      Store.tables (update s.disk call.block blk) = s.disk.tables.apply call := by
  cases call with
  | setInodeBitmap inodeno =>
      have small : inodeno.toNat < 512 := Nat.lt_trans allowed (by decide)
      obtain ⟨blk, changed, bits⟩ := (s.disk inodeBitmapBlockNum).exists_setBit small
      refine ⟨blk, exec_setInodeBitmap changed, ?_⟩
      rw [block, Store.tables_update_inodeBitmap, Block.marked_setBit bits]
      rfl
  | resetInodeBitmap inodeno =>
      have small : inodeno.toNat < 512 := Nat.lt_trans allowed (by decide)
      obtain ⟨blk, changed, bits⟩ := (s.disk inodeBitmapBlockNum).exists_resetBit small
      refine ⟨blk, exec_resetInodeBitmap changed, ?_⟩
      rw [block, Store.tables_update_inodeBitmap, Block.marked_resetBit bits]
      rfl
  | setBlockBitmap blkno =>
      obtain ⟨blk, changed, bits⟩ := (s.disk blockBitmapBlockNum).exists_setBit allowed
      refine ⟨blk, exec_setBlockBitmap changed, ?_⟩
      rw [block, Store.tables_update_blockBitmap, Block.marked_setBit bits]
      rfl
  | resetBlockBitmap blkno =>
      obtain ⟨blk, changed, bits⟩ := (s.disk blockBitmapBlockNum).exists_resetBit allowed
      refine ⟨blk, exec_resetBlockBitmap changed, ?_⟩
      rw [block, Store.tables_update_blockBitmap, Block.marked_resetBit bits]
      rfl
  | putInode inodeno pInode =>
      exact ⟨_, exec_putInode (inodeBlock_nonneg allowed) pInode s,
        Store.tables_storeInode s.disk allowed pInode⟩

namespace Tables

variable {t : Tables}

private theorem mem_apply_blocks {k : Nat} (other : call.blockBit ≠ some k) :
    k ∈ (t.apply call).blocks ↔ k ∈ t.blocks := by
  cases call with
  | setBlockBitmap blkno =>
      have apart : k ≠ blkno.toNat := fun same => other (congrArg some same.symm)
      simp [apply, apart]
  | resetBlockBitmap blkno =>
      have apart : k ≠ blkno.toNat := fun same => other (congrArg some same.symm)
      simp [apply, apart]
  | setInodeBitmap | resetInodeBitmap | putInode => rfl

private theorem mem_apply_inodes {k : Nat} (other : call.inodeBit ≠ some k) :
    k ∈ (t.apply call).inodes ↔ k ∈ t.inodes := by
  cases call with
  | setInodeBitmap inodeno =>
      have apart : k ≠ inodeno.toNat := fun same => other (congrArg some same.symm)
      simp [apply, apart]
  | resetInodeBitmap inodeno =>
      have apart : k ≠ inodeno.toNat := fun same => other (congrArg some same.symm)
      simp [apply, apart]
  | setBlockBitmap | resetBlockBitmap | putInode => rfl

private theorem inode_apply (other : ∀ pInode, call.put ≠ some (n, pInode)) :
    (t.apply call).inode n = t.inode n := by
  cases call with
  | putInode inodeno pInode =>
      have apart : n ≠ inodeno := by
        rintro rfl
        exact other pInode rfl
      exact update_of_ne apart _ _
  | setInodeBitmap | resetInodeBitmap | setBlockBitmap | resetBlockBitmap => rfl

theorem inode_foldl (t : Tables) (calls : List Accessor) :
    (calls.foldl apply t).inode = Cells.after t.inode (calls.filterMap Accessor.put) := by
  induction calls generalizing t with
  | nil => rfl
  | cons call calls induction =>
      rw [List.foldl_cons, induction]
      cases call <;> rfl

end Tables

/-- A call changes its own bit or inode, and nothing else. -/
theorem changesOnly_run (allowed : call.Allowed) (s : FileSys) :
    ∃ s', exec call.run s = some ((), s') ∧ s'.disk.tables = s.disk.tables.apply call ∧
      ChangesOnly call s s' := by
  obtain ⟨blk, run, tables⟩ := Accessor.exec_run allowed s
  refine ⟨_, run, tables, rfl, fun b other => update_of_ne other _ _, fun k other => ?_,
    fun k other => ?_, fun m valid other => ?_⟩
  · have same := Tables.mem_apply_blocks (t := s.disk.tables) other
    rw [← tables] at same
    exact Bool.eq_iff_iff.mpr same
  · have same := Tables.mem_apply_inodes (t := s.disk.tables) other
    rw [← tables] at same
    exact Bool.eq_iff_iff.mpr same
  · have same := Tables.inode_apply (t := s.disk.tables) other
    rw [← tables] at same
    refine ⟨_, exec_getInode valid _, (exec_getInode valid s).trans ?_⟩
    exact congrArg (fun inode => some (inode, s)) same.symm

/-! ## The tables after some calls -/

private theorem exec_calls (allowed : ∀ call ∈ calls, call.Allowed) (s : FileSys) :
    ∃ s', exec (calls.forM Accessor.run) s = some ((), s') ∧
      s'.disk.tables = calls.foldl Tables.apply s.disk.tables ∧ s'.toMemory = s.toMemory ∧
      ∀ b, (∀ call ∈ calls, b ≠ call.block) → s'.disk b = s.disk b := by
  induction calls generalizing s with
  | nil => exact ⟨s, rfl, rfl, rfl, fun _ _ => rfl⟩
  | cons call calls induction =>
      obtain ⟨here, allowed⟩ := List.forall_mem_cons.mp allowed
      obtain ⟨s₁, run₁, tables₁, only⟩ := changesOnly_run here s
      obtain ⟨s', run, tables, memory, kept⟩ := induction allowed s₁
      refine ⟨s', ?_, ?_, memory.trans only.memory, fun b others => ?_⟩
      · rw [List.forM, exec_bind, run₁, Option.bind_some, run]
      · rw [tables, tables₁, List.foldl_cons]
      · obtain ⟨other, others⟩ := List.forall_mem_cons.mp others
        exact (kept b others).trans (only.block b other)

private theorem getFreeBlockNum_least (s : FileSys) :
    ∃ free, exec getFreeBlockNum s = some (free, s) ∧ LeastOutside 512 s.disk.tables.blocks free :=
  ⟨_, exec_getFreeBlockNum s, Block.firstClear_least _ (show 64 ≤ blockSize by decide)⟩

private theorem getFreeInodeNum_least (s : FileSys) :
    ∃ free, exec getFreeInodeNum s = some (free, s) ∧ LeastOutside 64 s.disk.tables.inodes free :=
  ⟨_, exec_getFreeInodeNum s, Block.firstClear_least _ (show 8 ≤ blockSize by decide)⟩

/-- After any calls the bitmaps stand for the sets that the insertions and deletions lead to, a
search finds the least number outside them, an inode is the one that was put last, and a further
call changes its own bit or inode only. -/
theorem run_tables (s : FileSys) (allowed : ∀ call ∈ calls, call.Allowed) :
    ∃ s', exec (calls.forM Accessor.run) s = some ((), s') ∧
      s'.disk.tables = calls.foldl Tables.apply s.disk.tables ∧
      (s'.toMemory = s.toMemory ∧
        ∀ b, (∀ call ∈ calls, b ≠ call.block) → s'.disk b = s.disk b) ∧
      (∃ free, exec getFreeBlockNum s' = some (free, s') ∧
        LeastOutside 512 s'.disk.tables.blocks free) ∧
      (∃ free, exec getFreeInodeNum s' = some (free, s') ∧
        LeastOutside 64 s'.disk.tables.inodes free) ∧
      (∀ n, ValidInode n → ∃ old, exec (getInode n) s = some (old, s) ∧
        exec (getInode n) s' = some ((lastPut calls n).getD old, s')) ∧
      ∀ call : Accessor, call.Allowed →
        ∃ s'', exec call.run s' = some ((), s'') ∧ ChangesOnly call s' s'' := by
  obtain ⟨s', run, tables, kept⟩ := exec_calls allowed s
  refine ⟨s', run, tables, kept, getFreeBlockNum_least s', getFreeInodeNum_least s',
    fun n valid => ?_, fun call allowed' => ?_⟩
  · have inode := congrFun (Tables.inode_foldl s.disk.tables calls) n
    rw [← tables, Cells.after_eq, ← lastPut] at inode
    refine ⟨_, exec_getInode valid s, (exec_getInode valid s').trans ?_⟩
    exact congrArg (fun inode => some (inode, s')) inode
  · obtain ⟨s'', run', _, only⟩ := changesOnly_run allowed' s'
    exact ⟨s'', run', only⟩

/-- A disk of zeros before any call. -/
def zeroed : FileSys :=
  ⟨⟨fun _ => ⟨false, .null⟩, ⟨0, 0, 0, 0, 0, 0, 0, 0, 0, 0⟩, fun _ _ => 0#8⟩, fun _ _ => 0#8⟩

/-- Block 0 is marked, inode 5 is put twice, and the first free block is block 1. -/
theorem run_tables_marked : ∃ s',
    exec ([.setBlockBitmap 0#32, .putInode 5#32 .blank,
      .putInode 5#32 { Inode.blank with size := 7#32 }].forM Accessor.run) zeroed = some ((), s') ∧
      exec getFreeBlockNum s' = some (1#32, s') ∧
      exec (getInode 5#32) s' = some ({ Inode.blank with size := 7#32 }, s') := by
  have valid : ValidInode 5#32 := by decide
  obtain ⟨s', run, tables, _, ⟨free, search, full, least⟩, _, inodes, _⟩ := run_tables zeroed
    (show ∀ call ∈ [Accessor.setBlockBitmap 0#32, .putInode 5#32 .blank,
      .putInode 5#32 { Inode.blank with size := 7#32 }], call.Allowed by
        simp [Accessor.Allowed, valid])
  obtain ⟨_, _, put⟩ := inodes 5#32 valid
  have blocks : s'.disk.tables.blocks = {0} := by
    rw [tables]
    simp [Tables.apply, Store.tables, Block.marked, zeroed, Block.bitAt, Block.byteAt]
  rw [blocks] at full least
  have some_free : free ≠ -1 := fun none => absurd (full.mp none 1 (by decide)) (by simp)
  have one : IsLeast { n | n < 512 ∧ n ∉ ({0} : Set Nat) } 1 :=
    ⟨⟨by decide, by simp⟩, fun n outside => Nat.pos_of_ne_zero outside.2⟩
  obtain rfl : free = 1#32 := BitVec.eq_of_toNat_eq ((least some_free).unique one)
  exact ⟨s', run, search, put⟩

end KwHomework
