import KwHomework.FileSystem.Exec

/-!
# Volumes

A volume is what the metadata blocks say: which inodes and blocks are allocated, the inode table,
and the contents of the data blocks.  `Yields` runs file-system code on views, that is on the
memory and the volume; each accessor of `fs_internal.c` changes one component of the view.
-/

namespace KwHomework

open Function FS

/-- The blocks behind the inode list. -/
def DataBlock (blkno : CInt) : Prop := 7 ≤ blkno.toNat ∧ blkno.toNat < 512

instance : DecidablePred DataBlock := fun _ => inferInstanceAs (Decidable (_ ∧ _))

/-- The inode numbers that the inode list has room for. -/
def ValidInode (inodeno : CInt) : Prop := inodeno.toNat < 64

instance : DecidablePred ValidInode := fun _ => inferInstanceAs (Decidable (_ < _))

/-- An inode without blocks. -/
def Inode.blank : Inode := ⟨0#32, 0#32, 0#32, fun _ => 0#32⟩

/-- The two bitmaps, the inode table and the data blocks. -/
@[ext] structure Volume where
  inodeUsed : CInt → Bool
  blockUsed : CInt → Bool
  inode : CInt → Inode
  block : CInt → Block

/-- The volume on a disk; what lies outside the tables is blank. -/
def Store.volume (disk : Store) : Volume where
  inodeUsed n := decide (ValidInode n) && (disk inodeBitmapBlockNum).bitAt n.toNat
  blockUsed b := decide (b.toNat < 512) && (disk blockBitmapBlockNum).bitAt b.toNat
  inode n := if ValidInode n then (disk (inodeBlock n)).inodeAt (inodeIndex n) else .blank
  block b := if DataBlock b then disk b else fun _ => 0#8

/-! ## The components lie in different blocks -/

theorem DataBlock.nonneg {b : CInt} (data : DataBlock b) : 0 ≤ b.toInt := by
  obtain ⟨_, high⟩ := data
  rw [BitVec.toInt_eq_toNat_of_lt (by omega)]
  omega

theorem toNat_inodeBlock {n : CInt} (valid : ValidInode n) :
    (inodeBlock n).toNat = n.toNat / 16 + 3 := by
  have small : n.toNat < 64 := valid
  have positive : n.msb = false := by
    rw [BitVec.msb_eq_false_iff_two_mul_lt]
    omega
  rw [inodeBlock, BitVec.signExtend_eq_setWidth_of_msb_false positive, BitVec.toNat_setWidth,
    BitVec.toNat_add, BitVec.toNat_udiv, BitVec.toNat_setWidth]
  simp only [BitVec.toNat_ofNat, Nat.reducePow, Nat.reduceMod]
  omega

theorem val_inodeIndex {n : CInt} (valid : ValidInode n) :
    (inodeIndex n : Nat) = n.toNat % 16 := by
  have small : n.toNat < 64 := valid
  have positive : n.msb = false := by
    rw [BitVec.msb_eq_false_iff_two_mul_lt]
    omega
  rw [inodeIndex]
  simp only [BitVec.signExtend_eq_setWidth_of_msb_false positive, BitVec.toNat_umod,
    BitVec.toNat_setWidth, BitVec.toNat_ofNat, Nat.reducePow, Nat.reduceMod]
  omega

theorem inodeBlock_nonneg {n : CInt} (valid : ValidInode n) : 0 ≤ (inodeBlock n).toInt := by
  have small : n.toNat < 64 := valid
  have block := toNat_inodeBlock valid
  rw [BitVec.toInt_eq_toNat_of_lt (by omega)]
  omega

private theorem ne_of_toNat {a b : CInt} (different : a.toNat ≠ b.toNat) : a ≠ b :=
  fun same => different (congrArg _ same)

private theorem inodeBlock_ne_bitmap {n : CInt} (valid : ValidInode n) {b : CInt}
    (bitmap : b.toNat < 3) : inodeBlock n ≠ b :=
  ne_of_toNat (by rw [toNat_inodeBlock valid]; omega)

private theorem inodeBlock_ne_data {n : CInt} (valid : ValidInode n) {b : CInt}
    (data : DataBlock b) : inodeBlock n ≠ b := by
  have small : n.toNat < 64 := valid
  have low : 7 ≤ b.toNat := data.1
  exact ne_of_toNat (by rw [toNat_inodeBlock valid]; omega)

namespace Store

variable (disk : Store)

private theorem volume_update_low {b : CInt} (low : b.toNat < 3) (contents : Block) :
    (volume (update disk b contents)).inode = disk.volume.inode ∧
      (volume (update disk b contents)).block = disk.volume.block := by
  constructor
  · funext n
    simp only [volume]
    split_ifs with valid
    · rw [update_of_ne (inodeBlock_ne_bitmap valid low)]
    · rfl
  · funext b'
    simp only [volume]
    split_ifs with inside
    · have high : 7 ≤ b'.toNat := inside.1
      rw [update_of_ne (ne_of_toNat (by omega))]
    · rfl

/-- The info block is no part of the volume. -/
theorem volume_update_info (data : Block) :
    volume (update disk filesysInfoBlock data) = disk.volume := by
  obtain ⟨inodes, blocks⟩ := disk.volume_update_low
    (show (filesysInfoBlock).toNat < 3 by decide) data
  simp only [volume, Volume.mk.injEq]
  exact ⟨rfl, rfl, inodes, blocks⟩

theorem volume_update_data {b : CInt} (data : DataBlock b) (contents : Block) :
    volume (update disk b contents) =
      { disk.volume with block := update disk.volume.block b contents } := by
  have low : 7 ≤ b.toNat := data.1
  simp only [volume, Volume.mk.injEq]
  refine ⟨?_, ?_, funext fun n => ?_, funext fun b' => ?_⟩
  · rw [update_of_ne (ne_of_toNat (by simp; omega))]
  · rw [update_of_ne (ne_of_toNat (by simp; omega))]
  · split_ifs with valid
    · rw [update_of_ne (inodeBlock_ne_data valid data)]
    · rfl
  · by_cases same : b' = b
    · simp [same, data]
    · simp [same]

theorem volume_update_inodeBitmap (contents : Block) :
    volume (update disk inodeBitmapBlockNum contents) =
      { disk.volume with
        inodeUsed := fun n => decide (ValidInode n) && contents.bitAt n.toNat } := by
  obtain ⟨inodes, blocks⟩ :=
    disk.volume_update_low (show (inodeBitmapBlockNum).toNat < 3 by decide) contents
  simp only [volume, Volume.mk.injEq]
  exact ⟨by rw [update_self], rfl, inodes, blocks⟩

theorem volume_update_blockBitmap (contents : Block) :
    volume (update disk blockBitmapBlockNum contents) =
      { disk.volume with
        blockUsed := fun b => decide (b.toNat < 512) && contents.bitAt b.toNat } := by
  obtain ⟨inodes, blocks⟩ :=
    disk.volume_update_low (show (blockBitmapBlockNum).toNat < 3 by decide) contents
  simp only [volume, Volume.mk.injEq]
  exact ⟨rfl, by rw [update_self], inodes, blocks⟩

theorem volume_storeInode {n : CInt} (valid : ValidInode n) (inode : Inode) :
    volume (update disk (inodeBlock n)
      ((disk (inodeBlock n)).storeInode (inodeIndex n) inode)) =
      { disk.volume with inode := update disk.volume.inode n inode } := by
  have small : n.toNat < 64 := valid
  simp only [volume, Volume.mk.injEq]
  refine ⟨?_, ?_, funext fun m => ?_, funext fun b => ?_⟩
  · rw [update_of_ne (inodeBlock_ne_bitmap valid (by decide)).symm]
  · rw [update_of_ne (inodeBlock_ne_bitmap valid (by decide)).symm]
  · by_cases same : m = n
    · subst same
      simp [valid, Block.inodeAt_storeInode_self]
    · rw [update_of_ne same]
      split_ifs with valid'
      · by_cases sameBlock : inodeBlock m = inodeBlock n
        · have different : inodeIndex m ≠ inodeIndex n := by
            intro sameIndex
            have quotient := congrArg BitVec.toNat sameBlock
            have remainder := congrArg Fin.val sameIndex
            rw [toNat_inodeBlock valid, toNat_inodeBlock valid'] at quotient
            rw [val_inodeIndex valid, val_inodeIndex valid'] at remainder
            exact same (BitVec.eq_of_toNat_eq (by omega))
          rw [sameBlock, update_self, Block.inodeAt_storeInode_of_ne _ _ different]
        · rw [update_of_ne sameBlock]
      · rfl
  · split_ifs with inside
    · rw [update_of_ne (inodeBlock_ne_data valid inside).symm]
    · rfl

end Store
end KwHomework
