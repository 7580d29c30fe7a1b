import KwHomework.FileSystem.Volume
import Mathlib.Data.List.Find

/-!
# Running on views

`Yields x w r w'` says what file-system code does wherever the view is `w`: it ends with the result
`r` and the view `w'`.  There is one rule for each primitive and each accessor of
`fs_internal.c`, and `Yields.bind` chains them.
-/

namespace KwHomework

open Function FS

/-- The memory of the file system and its volume. -/
structure View extends Memory where
  volume : Volume

/-- The view after one chunk was drawn from the heap. -/
abbrev View.pop (w : View) : View := { w with heap := fun n => w.heap (n + 1) }

/-- What a state shows. -/
def FileSys.view (s : FileSys) : View := ⟨s.toMemory, s.disk.volume⟩

/-- In every state with the view `w` the code ends with `r`, in a state with the view `w'`. -/
def Yields {α : Type} (x : FS α) (w : View) (r : α) (w' : View) : Prop :=
  ∀ s : FileSys, s.view = w → ∃ s', exec x s = some (r, s') ∧ s'.view = w'

namespace Yields

variable {α β : Type} {x : FS α} {next : α → FS β} {w w' w'' : View} {r : α} {r' : β}

theorem pure (value : α) (w : View) : Yields (Pure.pure value) w value w :=
  fun s view => ⟨s, rfl, view⟩

theorem bind (first : Yields x w r w') (second : Yields (next r) w' r' w'') :
    Yields (x >>= next) w r' w'' := by
  intro s view
  obtain ⟨s₁, run₁, view₁⟩ := first s view
  obtain ⟨s₂, run₂, view₂⟩ := second s₁ view₁
  exact ⟨s₂, by simp [run₁, run₂], view₂⟩

/-- What the code did is what it yields. -/
theorem unique {s s' : FileSys} {result : α} (yields : Yields x s.view r w')
    (run : exec x s = some (result, s')) : result = r ∧ s'.view = w' := by
  obtain ⟨s'', run', view⟩ := yields s rfl
  rw [run', Option.some.injEq, Prod.mk.injEq] at run
  obtain ⟨rfl, rfl⟩ := run
  exact ⟨rfl, view⟩

end Yields

/-! ## Primitives -/

theorem yields_get (w : View) : Yields get w w.toMemory w := by
  rintro s rfl
  exact ⟨s, rfl, rfl⟩

theorem yields_set (mem : Memory) (w : View) : Yields (set mem) w () ⟨mem, w.volume⟩ := by
  rintro s rfl
  exact ⟨_, rfl, rfl⟩

theorem yields_modify (change : Memory → Memory) (w : View) :
    Yields (modify change) w () ⟨change w.toMemory, w.volume⟩ := by
  rintro s rfl
  exact ⟨_, rfl, rfl⟩

theorem yields_defined {α : Type} (value : α) (w : View) :
    Yields (defined (some value)) w value w := .pure value w

theorem yields_malloc (w : View) :
    Yields malloc w (w.heap 0) w.pop := by
  rintro s rfl
  exact ⟨_, rfl, rfl⟩

theorem yields_modifyInfo (change : FileSysInfo → FileSysInfo) (w : View) :
    Yields (modifyInfo change) w () { w with pFileSysInfo := change w.pFileSysInfo } := by
  rintro s rfl
  exact ⟨_, rfl, rfl⟩

theorem yields_bufRead {b : CInt} (data : DataBlock b) (w : View) :
    Yields (bufRead b) w (w.volume.block b) w := by
  rintro s rfl
  refine ⟨s, ?_, rfl⟩
  rw [exec_bufRead data.nonneg]
  simp [FileSys.view, Store.volume, data]

theorem yields_bufWrite {b : CInt} (data : DataBlock b) (contents : Block) (w : View) :
    Yields (bufWrite b contents) w ()
      { w with volume := { w.volume with block := update w.volume.block b contents } } := by
  rintro s rfl
  refine ⟨_, exec_bufWrite data.nonneg contents s, ?_⟩
  rw [FileSys.view, Store.volume_update_data _ data]
  rfl

theorem yields_writeInfo (w : View) :
    Yields writeInfo w () w.pop := by
  rintro s rfl
  simp only [writeInfo, exec_bind, exec_malloc, Option.bind_some, exec_get]
  refine ⟨_, exec_bufWrite (by decide) _ _, ?_⟩
  rw [FileSys.view, Store.volume_update_info]
  rfl

/-! ## The accessors of `fs_internal.c` -/

section Bitmaps

variable {n b : CInt} (w : View)

private theorem used_update (valid : CInt → Prop) [DecidablePred valid] {n : CInt}
    (inside : valid n) {blk blk' : Block} {value : Bool}
    (bits : ∀ m, blk'.bitAt m = if m = n.toNat then value else blk.bitAt m) :
    (fun m => decide (valid m) && blk'.bitAt m.toNat) =
      update (fun m => decide (valid m) && blk.bitAt m.toNat) n value := by
  funext m
  by_cases same : m = n
  · simp [same, bits, inside]
  · have different : m.toNat ≠ n.toNat := fun eq => same (BitVec.eq_of_toNat_eq eq)
    simp [same, bits, different]

theorem yields_setInodeBitmap (valid : ValidInode n) : Yields (setInodeBitmap n) w ()
    { w with volume := { w.volume with inodeUsed := update w.volume.inodeUsed n true } } := by
  rintro s rfl
  have small : n.toNat < 512 := Nat.lt_trans valid (by decide)
  obtain ⟨blk, set, bits⟩ := (s.disk inodeBitmapBlockNum).exists_setBit small
  refine ⟨_, exec_setInodeBitmap set, ?_⟩
  rw [FileSys.view, Store.volume_update_inodeBitmap, used_update ValidInode valid bits]
  rfl

theorem yields_resetInodeBitmap (valid : ValidInode n) : Yields (resetInodeBitmap n) w ()
    { w with volume := { w.volume with inodeUsed := update w.volume.inodeUsed n false } } := by
  rintro s rfl
  have small : n.toNat < 512 := Nat.lt_trans valid (by decide)
  obtain ⟨blk, reset, bits⟩ := (s.disk inodeBitmapBlockNum).exists_resetBit small
  refine ⟨_, exec_resetInodeBitmap reset, ?_⟩
  rw [FileSys.view, Store.volume_update_inodeBitmap, used_update ValidInode valid bits]
  rfl

theorem yields_setBlockBitmap (small : b.toNat < 512) : Yields (setBlockBitmap b) w ()
    { w with volume := { w.volume with blockUsed := update w.volume.blockUsed b true } } := by
  rintro s rfl
  obtain ⟨blk, set, bits⟩ := (s.disk blockBitmapBlockNum).exists_setBit small
  refine ⟨_, exec_setBlockBitmap set, ?_⟩
  rw [FileSys.view, Store.volume_update_blockBitmap,
    used_update (fun b => b.toNat < 512) small bits]
  rfl

theorem yields_resetBlockBitmap (small : b.toNat < 512) : Yields (resetBlockBitmap b) w ()
    { w with volume := { w.volume with blockUsed := update w.volume.blockUsed b false } } := by
  rintro s rfl
  obtain ⟨blk, reset, bits⟩ := (s.disk blockBitmapBlockNum).exists_resetBit small
  refine ⟨_, exec_resetBlockBitmap reset, ?_⟩
  rw [FileSys.view, Store.volume_update_blockBitmap,
    used_update (fun b => b.toNat < 512) small bits]
  rfl

theorem yields_putInode (valid : ValidInode n) (inode : Inode) : Yields (putInode n inode) w ()
    { w with volume := { w.volume with inode := update w.volume.inode n inode } } := by
  rintro s rfl
  refine ⟨_, exec_putInode (inodeBlock_nonneg valid) inode s, ?_⟩
  rw [FileSys.view, Store.volume_storeInode _ valid]
  rfl

end Bitmaps

theorem exec_getInode {n : CInt} (valid : ValidInode n) (s : FileSys) :
    exec (getInode n) s = some (s.disk.volume.inode n, s) := by
  have inode : s.disk.volume.inode n = (s.disk (inodeBlock n)).inodeAt (inodeIndex n) :=
    if_pos valid
  rw [getInode, exec_bind, exec_bufRead (inodeBlock_nonneg valid), Option.bind_some, exec_pure,
    inode]

theorem yields_getInode {n : CInt} (w : View) (valid : ValidInode n) :
    Yields (getInode n) w (w.volume.inode n) w := by
  rintro s rfl
  exact ⟨s, exec_getInode valid s, rfl⟩

namespace Volume

/-- The least free inode number, or -1. -/
def freeInodeNum (v : Volume) : CInt :=
  foundOrFail ((List.range 64).find? fun n => !v.inodeUsed (BitVec.ofNat 32 n))

/-- The least free block number, or -1. -/
def freeBlockNum (v : Volume) : CInt :=
  foundOrFail ((List.range 512).find? fun n => !v.blockUsed (BitVec.ofNat 32 n))

end Volume

private theorem find?_unused (blk : Block) (valid : CInt → Prop) [DecidablePred valid] (bound : Nat)
    (small : bound ≤ 512) (all : ∀ n : CInt, n.toNat < bound → valid n) :
    (List.range bound).find? (fun n => !(decide (valid (BitVec.ofNat 32 n)) &&
      blk.bitAt (BitVec.ofNat 32 n).toNat)) = (List.range bound).find? fun n => !blk.bitAt n := by
  refine List.find?_congr fun n member => ?_
  have inside : n < bound := List.mem_range.mp member
  have value : (BitVec.ofNat 32 n).toNat = n := by
    rw [BitVec.toNat_ofNat]
    omega
  simp [value, all (BitVec.ofNat 32 n) (by omega)]

theorem yields_getFreeInodeNum (w : View) :
    Yields getFreeInodeNum w w.volume.freeInodeNum w := by
  rintro s rfl
  refine ⟨s, ?_, rfl⟩
  have scan := find?_unused (s.disk inodeBitmapBlockNum) ValidInode 64 (by decide)
    fun _ => id
  rw [exec_getFreeInodeNum, Block.firstClear_eq]
  simp only [← scan, Volume.freeInodeNum, FileSys.view, Store.volume]

theorem yields_getFreeBlockNum (w : View) :
    Yields getFreeBlockNum w w.volume.freeBlockNum w := by
  rintro s rfl
  refine ⟨s, ?_, rfl⟩
  have scan := find?_unused (s.disk blockBitmapBlockNum) (fun b => b.toNat < 512) 512
    le_rfl
    fun _ => id
  rw [exec_getFreeBlockNum, Block.firstClear_eq]
  simp only [← scan, Volume.freeBlockNum, FileSys.view, Store.volume]

namespace Volume

private theorem foundOrFail_spec {bound : Nat} {used : CInt → Bool}
    (free : ∃ n < bound, used (BitVec.ofNat 32 n) = false) :
    ∃ m < bound, foundOrFail ((List.range bound).find? fun n => !used (BitVec.ofNat 32 n)) =
      BitVec.ofNat 32 m ∧ used (BitVec.ofNat 32 m) = false := by
  obtain ⟨n, small, unused⟩ := free
  cases found : (List.range bound).find? fun n => !used (BitVec.ofNat 32 n) with
  | none =>
      have marked := List.find?_eq_none.mp found n (List.mem_range.mpr small)
      simp [unused] at marked
  | some m =>
      exact ⟨m, List.mem_range.mp (List.mem_of_find?_eq_some found), rfl,
        by simpa using List.find?_some found⟩

/-- The search for a free inode finds one when there is one. -/
theorem exists_freeInodeNum {v : Volume}
    (free : ∃ n < 64, v.inodeUsed (BitVec.ofNat 32 n) = false) :
    ∃ m < 64, v.freeInodeNum = BitVec.ofNat 32 m ∧ v.inodeUsed (BitVec.ofNat 32 m) = false :=
  foundOrFail_spec free

/-- The search for a free block finds one when there is one. -/
theorem exists_freeBlockNum {v : Volume}
    (free : ∃ n < 512, v.blockUsed (BitVec.ofNat 32 n) = false) :
    ∃ m < 512, v.freeBlockNum = BitVec.ofNat 32 m ∧ v.blockUsed (BitVec.ofNat 32 m) = false :=
  foundOrFail_spec free

/-- The search for a free block looks at the block bitmap only. -/
theorem freeBlockNum_congr {v v' : Volume} (same : v'.blockUsed = v.blockUsed) :
    v'.freeBlockNum = v.freeBlockNum := by
  rw [freeBlockNum, freeBlockNum, same]

/-- The search for a free inode looks at the inode bitmap only. -/
theorem freeInodeNum_congr {v v' : Volume} (same : v'.inodeUsed = v.inodeUsed) :
    v'.freeInodeNum = v.freeInodeNum := by
  rw [freeInodeNum, freeInodeNum, same]

-- from here on the two searches are known by their lemmas only
attribute [irreducible] freeInodeNum freeBlockNum

end Volume
end KwHomework
