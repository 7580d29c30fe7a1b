import KwHomework.FileSystem.View
import KwHomework.Volume.Ownership
import Mathlib.Data.Fintype.Prod

/-!
# Allocation of blocks

The direct pointers of the inode table own the data blocks.  The block bitmap marks exactly the
owned ones, so the allocator always finds a free data block: the 64 inodes hold at most 320 of the
505.  `assign` and `unassign` are the two ways in which the code moves a block in and out of use.
-/

namespace KwHomework

open Function FS

namespace Volume

/-- Pointer `k` of inode `n`, for `(n, k)`. -/
def ptr (v : Volume) (owner : CInt × Fin numOfDirectBlockPtr) : CInt :=
  (v.inode owner.1).dirBlockPtr owner.2

/-- The data blocks. -/
def pool : Set CInt := { b | DataBlock b }

/-- The metadata blocks are marked, and the marked data blocks are the owned ones. -/
structure BlocksOwned (v : Volume) : Prop where
  reserved : ∀ b : CInt, b.toNat < 7 → v.blockUsed b = true
  owned : Owned 0#32 pool v.ptr v.blockUsed
  valid : ∀ n k, v.ptr (n, k) ≠ 0#32 → ValidInode n

theorem zero_notMem_pool : 0#32 ∉ pool := by simp [pool, DataBlock]

theorem toNat_ofNat_of_lt {n : Nat} (small : n < 512) : (BitVec.ofNat 32 n).toNat = n := by
  rw [BitVec.toNat_ofNat]
  omega

namespace BlocksOwned

variable {v : Volume}

theorem dataBlock (blocks : v.BlocksOwned) {n : CInt} {k : Fin numOfDirectBlockPtr}
    (holds : v.ptr (n, k) ≠ 0#32) : DataBlock (v.ptr (n, k)) :=
  blocks.owned.mem_pool (n, k) holds

/-- Two pointers to one block are the same pointer. -/
theorem ptr_injective (blocks : v.BlocksOwned) {n m : CInt} {k l : Fin numOfDirectBlockPtr}
    (holds : v.ptr (n, k) ≠ 0#32) (same : v.ptr (n, k) = v.ptr (m, l)) : n = m ∧ k = l := by
  simpa using blocks.owned.injective (n, k) (m, l) holds same

theorem exists_free (blocks : v.BlocksOwned) :
    ∃ n, 7 ≤ n ∧ n < 512 ∧ v.blockUsed (BitVec.ofNat 32 n) = false := by
  have value : ∀ c : Fin 505, (BitVec.ofNat 32 (7 + c)).toNat = 7 + c := fun c =>
    toNat_ofNat_of_lt (by omega)
  have injective : Injective fun c : Fin 505 => BitVec.ofNat 32 (7 + c) := by
    intro c c' same
    have equal := congrArg BitVec.toNat same
    simp only [value] at equal
    exact Fin.ext (by omega)
  have inside : ∀ c : Fin 505, BitVec.ofNat 32 (7 + c) ∈ pool := fun c => by
    rw [pool, Set.mem_ofPred_eq, DataBlock, value]
    omega
  have holders : ∀ i, v.ptr i ≠ 0#32 →
      ∃ o : Fin 64 × Fin numOfDirectBlockPtr, (BitVec.ofNat 32 o.1, o.2) = i := by
    rintro ⟨n, k⟩ holds
    have small : n.toNat < 64 := blocks.valid n k holds
    exact ⟨(⟨n.toNat, small⟩, k), by simp⟩
  have fewer : Fintype.card (Fin 64 × Fin numOfDirectBlockPtr) < Fintype.card (Fin 505) := by
    rw [Fintype.card_prod, Fintype.card_fin, Fintype.card_fin, Fintype.card_fin]
    decide
  obtain ⟨c, unused⟩ := blocks.owned.exists_unused injective inside holders fewer
  exact ⟨7 + c, by omega, by omega, unused⟩

/-- The allocator returns a free data block. -/
theorem freeBlockNum (blocks : v.BlocksOwned) :
    DataBlock v.freeBlockNum ∧ v.blockUsed v.freeBlockNum = false := by
  obtain ⟨n, _, high, unused⟩ := blocks.exists_free
  obtain ⟨m, small, result, unused'⟩ := exists_freeBlockNum ⟨n, high, unused⟩
  have value := toNat_ofNat_of_lt small
  rw [result]
  refine ⟨⟨?_, by omega⟩, unused'⟩
  by_contra low
  rw [blocks.reserved _ (by omega)] at unused'
  exact Bool.noConfusion unused'

end BlocksOwned

/-- The least free inode is a free inode, when there is one. -/
theorem freeInodeNum_spec {v : Volume} (free : ∃ n, ValidInode n ∧ v.inodeUsed n = false) :
    ValidInode v.freeInodeNum ∧ v.inodeUsed v.freeInodeNum = false := by
  obtain ⟨n, valid, unused⟩ := free
  obtain ⟨m, small, result, unused'⟩ :=
    exists_freeInodeNum (v := v) ⟨n.toNat, valid, by simpa using unused⟩
  rw [result]
  refine ⟨?_, unused'⟩
  rw [ValidInode, BitVec.toNat_ofNat]
  omega

/-! ## Elementary changes -/

/-- Overwrite a data block. -/
def fill (v : Volume) (b : CInt) (contents : Block) : Volume :=
  { v with block := update v.block b contents }

/-- Overwrite an inode. -/
def setInode (v : Volume) (n : CInt) (inode : Inode) : Volume :=
  { v with inode := update v.inode n inode }

/-- Mark or unmark an inode. -/
def markInode (v : Volume) (n : CInt) (used : Bool) : Volume :=
  { v with inodeUsed := update v.inodeUsed n used }

/-- Mark or unmark a block. -/
def markBlock (v : Volume) (b : CInt) (used : Bool) : Volume :=
  { v with blockUsed := update v.blockUsed b used }

end Volume

/-- An inode with one more block. -/
def Inode.withBlock (inode : Inode) (k : Fin numOfDirectBlockPtr) (b : CInt) : Inode :=
  { inode with
    allocBlocks := inode.allocBlocks + 1
    size := inode.size + 512
    dirBlockPtr := update inode.dirBlockPtr k b }

/-- An inode with one block less. -/
def Inode.withoutBlock (inode : Inode) (k : Fin numOfDirectBlockPtr) : Inode :=
  { inode with
    allocBlocks := inode.allocBlocks - 1
    size := inode.size - 512
    dirBlockPtr := update inode.dirBlockPtr k 0#32 }

theorem Inode.withoutBlock_withBlock (inode : Inode) {k : Fin numOfDirectBlockPtr} (b : CInt)
    (empty : inode.dirBlockPtr k = 0#32) : (inode.withBlock k b).withoutBlock k = inode := by
  refine Inode.ext ?_ ?_ rfl ?_
  · simp [withBlock, withoutBlock]
  · simp [withBlock, withoutBlock]
  · simp only [withBlock, withoutBlock, update_idem]
    rw [← empty, update_eq_self]

namespace Volume

/-- Give an inode a block. -/
def assign (v : Volume) (n : CInt) (k : Fin numOfDirectBlockPtr) (b : CInt) : Volume :=
  (v.setInode n ((v.inode n).withBlock k b)).markBlock b true

/-- Take a block from an inode. -/
def unassign (v : Volume) (n : CInt) (k : Fin numOfDirectBlockPtr) : Volume :=
  (v.setInode n ((v.inode n).withoutBlock k)).markBlock (v.ptr (n, k)) false

section Components

variable (v : Volume) (n b : CInt) (inode : Inode) (used : Bool) (contents : Block)

@[simp] theorem inodeUsed_fill : (v.fill b contents).inodeUsed = v.inodeUsed := rfl
@[simp] theorem blockUsed_fill : (v.fill b contents).blockUsed = v.blockUsed := rfl
@[simp] theorem inode_fill : (v.fill b contents).inode = v.inode := rfl
@[simp] theorem block_fill : (v.fill b contents).block = update v.block b contents := rfl
@[simp] theorem ptr_fill : (v.fill b contents).ptr = v.ptr := rfl

@[simp] theorem inodeUsed_setInode : (v.setInode n inode).inodeUsed = v.inodeUsed := rfl
@[simp] theorem blockUsed_setInode : (v.setInode n inode).blockUsed = v.blockUsed := rfl
@[simp] theorem inode_setInode : (v.setInode n inode).inode = update v.inode n inode := rfl
@[simp] theorem block_setInode : (v.setInode n inode).block = v.block := rfl

@[simp] theorem inodeUsed_markInode :
    (v.markInode n used).inodeUsed = update v.inodeUsed n used := rfl
@[simp] theorem blockUsed_markInode : (v.markInode n used).blockUsed = v.blockUsed := rfl
@[simp] theorem inode_markInode : (v.markInode n used).inode = v.inode := rfl
@[simp] theorem block_markInode : (v.markInode n used).block = v.block := rfl
@[simp] theorem ptr_markInode : (v.markInode n used).ptr = v.ptr := rfl

@[simp] theorem inodeUsed_markBlock : (v.markBlock b used).inodeUsed = v.inodeUsed := rfl
@[simp] theorem blockUsed_markBlock :
    (v.markBlock b used).blockUsed = update v.blockUsed b used := rfl
@[simp] theorem inode_markBlock : (v.markBlock b used).inode = v.inode := rfl
@[simp] theorem block_markBlock : (v.markBlock b used).block = v.block := rfl
@[simp] theorem ptr_markBlock : (v.markBlock b used).ptr = v.ptr := rfl

end Components

theorem ptr_setInode (v : Volume) (n : CInt) (inode : Inode)
    (owner : CInt × Fin numOfDirectBlockPtr) :
    (v.setInode n inode).ptr owner =
      if owner.1 = n then inode.dirBlockPtr owner.2 else v.ptr owner := by
  by_cases same : owner.1 = n <;> simp [ptr, same]

theorem ptr_assign (v : Volume) (n : CInt) (k : Fin numOfDirectBlockPtr) (b : CInt) :
    (v.assign n k b).ptr = update v.ptr (n, k) b := by
  funext ⟨m, l⟩
  by_cases same : m = n
  · subst same
    by_cases sameSlot : l = k <;> simp [assign, Inode.withBlock, sameSlot, ptr]
  · simp [assign, ptr_setInode, same]

theorem ptr_unassign (v : Volume) (n : CInt) (k : Fin numOfDirectBlockPtr) :
    (v.unassign n k).ptr = update v.ptr (n, k) 0#32 := by
  funext ⟨m, l⟩
  by_cases same : m = n
  · subst same
    by_cases sameSlot : l = k <;> simp [unassign, Inode.withoutBlock, sameSlot, ptr]
  · simp [unassign, ptr_setInode, same]

namespace BlocksOwned

variable {v : Volume}

theorem fill (blocks : v.BlocksOwned) (b : CInt) (contents : Block) :
    (v.fill b contents).BlocksOwned :=
  ⟨blocks.reserved, blocks.owned, blocks.valid⟩

theorem markInode (blocks : v.BlocksOwned) (n : CInt) (used : Bool) :
    (v.markInode n used).BlocksOwned :=
  ⟨blocks.reserved, blocks.owned, blocks.valid⟩

/-- Fields of an inode other than the pointers do not matter. -/
theorem setInode (blocks : v.BlocksOwned) {n : CInt} {inode : Inode}
    (same : inode.dirBlockPtr = (v.inode n).dirBlockPtr) : (v.setInode n inode).BlocksOwned := by
  have ptrs : (v.setInode n inode).ptr = v.ptr := by
    funext ⟨m, l⟩
    rw [ptr_setInode]
    split_ifs with here
    · rw [same, show m = n from here]
      rfl
    · rfl
  exact ⟨blocks.reserved, ptrs ▸ blocks.owned, fun m l holds => blocks.valid m l (ptrs ▸ holds)⟩

theorem assign (blocks : v.BlocksOwned) {n b : CInt} {k : Fin numOfDirectBlockPtr}
    (valid : ValidInode n) (data : DataBlock b) (unused : v.blockUsed b = false)
    (empty : v.ptr (n, k) = 0#32) : (v.assign n k b).BlocksOwned := by
  have low : 7 ≤ b.toNat := data.1
  refine ⟨fun b' small => ?_, ?_, fun m l holds => ?_⟩
  · have other : b' ≠ b := by
      rintro rfl
      omega
    simpa [Volume.assign, other] using blocks.reserved b' small
  · rw [ptr_assign]
    exact blocks.owned.assign data unused empty
  · rw [ptr_assign] at holds
    by_cases same : (m, l) = (n, k)
    · rw [(Prod.mk.inj same).1]
      exact valid
    · rw [update_of_ne same] at holds
      exact blocks.valid m l holds

theorem unassign (blocks : v.BlocksOwned) {n : CInt} {k : Fin numOfDirectBlockPtr}
    (holds : v.ptr (n, k) ≠ 0#32) : (v.unassign n k).BlocksOwned := by
  have low : 7 ≤ (v.ptr (n, k)).toNat := (blocks.dataBlock holds).1
  refine ⟨fun b' small => ?_, ?_, fun m l holds' => ?_⟩
  · have other : b' ≠ v.ptr (n, k) := by
      rintro rfl
      omega
    simpa [Volume.unassign, other] using blocks.reserved b' small
  · rw [ptr_unassign]
    exact blocks.owned.clear holds
  · rw [ptr_unassign] at holds'
    by_cases same : (m, l) = (n, k)
    · rw [same, update_self] at holds'
      exact absurd rfl holds'
    · rw [update_of_ne same] at holds'
      exact blocks.valid m l holds'

end BlocksOwned

/-! ## Releasing the blocks of an inode -/

/-- The inode gives up its block in pointer `k`, if there is one. -/
def releasePtr (n : CInt) (v : Volume) (k : Fin numOfDirectBlockPtr) : Volume :=
  if v.ptr (n, k) ≠ 0#32 then v.unassign n k else v

/-- The inode gives up its blocks. -/
def releasePtrs (v : Volume) (n : CInt) (ks : List (Fin numOfDirectBlockPtr)) : Volume :=
  ks.foldl (releasePtr n) v

/-- The inode and its blocks become free. -/
def release (v : Volume) (n : CInt) : Volume :=
  ((v.releasePtrs n (List.finRange numOfDirectBlockPtr)).setInode n
    { v.inode n with
      allocBlocks := 0#32
      size := 0#32
      dirBlockPtr := fun _ => 0#32 }).markInode n false

section Release

variable {v : Volume} (n : CInt)

private theorem ptr_releasePtr (k : Fin numOfDirectBlockPtr) :
    (v.releasePtr n k).ptr = update v.ptr (n, k) 0#32 := by
  rw [releasePtr]
  split_ifs with holds
  · exact ptr_unassign v n k
  · rw [← not_not.mp holds, update_eq_self]

private theorem BlocksOwned.releasePtrs (blocks : v.BlocksOwned)
    (ks : List (Fin numOfDirectBlockPtr)) :
    (v.releasePtrs n ks).BlocksOwned := by
  induction ks generalizing v with
  | nil => exact blocks
  | cons k ks induction =>
      refine induction (v := releasePtr n v k) ?_
      rw [releasePtr]
      split_ifs with holds
      · exact blocks.unassign holds
      · exact blocks

/-- Releasing blocks changes bits of the block bitmap and the inode itself. -/
theorem releasePtrs_frame (ks : List (Fin numOfDirectBlockPtr)) :
    (v.releasePtrs n ks).inodeUsed = v.inodeUsed ∧ (v.releasePtrs n ks).block = v.block ∧
      ∀ m, m ≠ n → (v.releasePtrs n ks).inode m = v.inode m := by
  induction ks generalizing v with
  | nil => exact ⟨rfl, rfl, fun _ _ => rfl⟩
  | cons k ks induction =>
      obtain ⟨used, block, inode⟩ := induction (v := releasePtr n v k)
      have step : (releasePtr n v k).inodeUsed = v.inodeUsed ∧
          (releasePtr n v k).block = v.block ∧
          ∀ m, m ≠ n → (releasePtr n v k).inode m = v.inode m := by
        rw [releasePtr]
        split_ifs
        · exact ⟨rfl, rfl, fun m other => by simp [unassign, other]⟩
        · exact ⟨rfl, rfl, fun _ _ => rfl⟩
      exact ⟨used.trans step.1, block.trans step.2.1,
        fun m other => (inode m other).trans (step.2.2 m other)⟩

theorem ptr_releasePtrs (ks : List (Fin numOfDirectBlockPtr))
    (owner : CInt × Fin numOfDirectBlockPtr) :
    (v.releasePtrs n ks).ptr owner = if owner.1 = n ∧ owner.2 ∈ ks then 0#32 else v.ptr owner := by
  induction ks generalizing v with
  | nil => simp [releasePtrs]
  | cons k ks induction =>
      change (Volume.releasePtrs (releasePtr n v k) n ks).ptr owner = _
      rw [induction, ptr_releasePtr]
      by_cases here : owner = (n, k)
      · simp [here]
      · rw [update_of_ne here]
        have iff : (owner.1 = n ∧ owner.2 ∈ k :: ks) ↔ (owner.1 = n ∧ owner.2 ∈ ks) := by
          refine and_congr_right fun same => ?_
          rw [List.mem_cons, or_iff_right]
          exact fun slot => here (Prod.ext same slot)
        simp only [iff]

theorem dirBlockPtr_releasePtrs :
    ((v.releasePtrs n (List.finRange numOfDirectBlockPtr)).inode n).dirBlockPtr =
      fun _ => 0#32 := by
  funext k
  have pointer := ptr_releasePtrs (v := v) n (List.finRange numOfDirectBlockPtr) (n, k)
  simp only [ptr, List.mem_finRange, and_self, if_true] at pointer
  exact pointer

theorem BlocksOwned.release (blocks : v.BlocksOwned) : (v.release n).BlocksOwned :=
  ((blocks.releasePtrs n _).setInode (by rw [dirBlockPtr_releasePtrs])).markInode n false

theorem inode_release_self : (v.release n).inode n =
    { v.inode n with allocBlocks := 0#32, size := 0#32, dirBlockPtr := fun _ => 0#32 } := by
  simp [Volume.release]

theorem inode_release_of_ne {m : CInt} (other : m ≠ n) : (v.release n).inode m = v.inode m := by
  rw [Volume.release, inode_markInode, inode_setInode, update_of_ne other]
  exact (releasePtrs_frame (v := v) n (List.finRange numOfDirectBlockPtr)).2.2 m other

@[simp] theorem block_release : (v.release n).block = v.block := by
  rw [Volume.release, block_markInode, block_setInode]
  exact (releasePtrs_frame (v := v) n (List.finRange numOfDirectBlockPtr)).2.1

@[simp] theorem inodeUsed_release :
    (v.release n).inodeUsed = update v.inodeUsed n false := by
  rw [Volume.release, inodeUsed_markInode, inodeUsed_setInode, (releasePtrs_frame n _).1]

theorem ptr_release (owner : CInt × Fin numOfDirectBlockPtr) :
    (v.release n).ptr owner = if owner.1 = n then 0#32 else v.ptr owner := by
  by_cases same : owner.1 = n
  · rw [if_pos same, ptr, same, inode_release_self]
  · rw [if_neg same, ptr, inode_release_of_ne n same, ptr]

private theorem blockUsed_releasePtr (k : Fin numOfDirectBlockPtr) (b : CInt) :
    (v.releasePtr n k).blockUsed b =
      if b ≠ 0#32 ∧ v.ptr (n, k) = b then false else v.blockUsed b := by
  rw [releasePtr]
  by_cases here : v.ptr (n, k) = b
  · by_cases zero : b = 0#32
    · simp [here, zero]
    · simp [here, zero, unassign]
  · split_ifs with holds both
    · exact absurd both.2 here
    · simp [unassign, Ne.symm here]
    · exact absurd (And.right ‹_›) here
    · rfl

/-- The bits that are cleared are those of the blocks of the inode. -/
theorem blockUsed_release (b : CInt) : (v.release n).blockUsed b =
    if b ≠ 0#32 ∧ ∃ k, v.ptr (n, k) = b then false else v.blockUsed b := by
  have loop : ∀ (ks : List (Fin numOfDirectBlockPtr)) (v : Volume),
      (v.releasePtrs n ks).blockUsed b =
        if b ≠ 0#32 ∧ ∃ k ∈ ks, v.ptr (n, k) = b then false else v.blockUsed b := by
    intro ks
    induction ks with
    | nil => simp [releasePtrs]
    | cons k ks induction =>
        intro v
        change ((releasePtr n v k).releasePtrs n ks).blockUsed b = _
        rw [induction, ptr_releasePtr, blockUsed_releasePtr]
        by_cases zero : b = 0#32
        · simp [zero]
        · have later : ∀ k', update v.ptr (n, k) 0#32 (n, k') = b ↔ k' ≠ k ∧ v.ptr (n, k') = b := by
            intro k'
            by_cases same : k' = k
            · simp [same, Ne.symm zero]
            · simp [same]
          by_cases here : v.ptr (n, k) = b
          · simp [here, zero]
          · simp only [later, List.exists_mem_cons_iff, here, false_or]
            have iff : (∃ k' ∈ ks, k' ≠ k ∧ v.ptr (n, k') = b) ↔ ∃ k' ∈ ks, v.ptr (n, k') = b := by
              refine exists_congr fun k' => and_congr_right fun _ => and_iff_right_of_imp ?_
              rintro found rfl
              exact here found
            simp [iff]
  have all := loop (List.finRange numOfDirectBlockPtr) v
  simpa [release] using all

end Release

/-! ## Writing through an inode -/

/-- One turn of the loop of `WriteFile`: a missing block is allocated, and the block is written. -/
def writeStep (n : CInt) (pBuffer : Chunk) (acc : Volume × CInt) (k : Fin numOfDirectBlockPtr) :
    Volume × CInt :=
  let acc := if acc.1.ptr (n, k) = 0#32
    then (acc.1.assign n k acc.1.freeBlockNum, acc.2 + 1) else acc
  (acc.1.fill (acc.1.ptr (n, k)) (blockOf fun i => pBuffer (512 * k + i)), acc.2)

/-- The loop of `WriteFile`, with the number of blocks it allocated. -/
def write (v : Volume) (n : CInt) (pBuffer : Chunk) (ks : List (Fin numOfDirectBlockPtr)) :
    Volume × CInt :=
  ks.foldl (writeStep n pBuffer) (v, 0#32)

/-- Blocks with the same pointers have the same bitmap. -/
theorem BlocksOwned.blockUsed_eq {v v' : Volume} (blocks : v.BlocksOwned) (blocks' : v'.BlocksOwned)
    (same : v'.ptr = v.ptr) {b : CInt} (small : b.toNat < 512) :
    v'.blockUsed b = v.blockUsed b := by
  by_cases low : b.toNat < 7
  · rw [blocks.reserved b low, blocks'.reserved b low]
  · have data : b ∈ pool := ⟨by omega, small⟩
    rw [Bool.eq_iff_iff, blocks.owned.used_iff b data, blocks'.owned.used_iff b data, same]

end Volume
end KwHomework
