import KwHomework.FileSystem.Calls

/-!
# Formatting

With a heap that reads as zero, `CreateFileSystem` leaves a volume that holds the root directory
with its entry `.` and nothing else, whatever was on the disk.
-/

namespace KwHomework

open Function FS

/-! ## The blank volume -/

/-- A volume of zeros. -/
def Volume.zeros : Volume where
  inodeUsed _ := false
  blockUsed _ := false
  inode _ := .blank
  block _ _ := 0#8

theorem Store.volume_zeros {disk : Store} (zeros : ∀ b, b.toNat < 512 → disk b = fun _ => 0#8) :
    disk.volume = .zeros := by
  have bit : ∀ n, Block.bitAt (fun _ => 0#8) n = false := fun n => by
    simp [Block.bitAt, Block.byteAt]
  have inode : ∀ idx, Block.inodeAt (fun _ => 0#8) idx = .blank := fun idx =>
    Inode.ext (Block.intAt_zero _) (Block.intAt_zero _) (Block.intAt_zero _)
      (funext fun _ => Block.intAt_zero _)
  simp only [volume, Volume.zeros, Volume.mk.injEq]
  refine ⟨funext fun n => ?_, funext fun b => ?_, funext fun n => ?_, funext fun b => ?_⟩
  · rw [zeros _ (by decide), bit, Bool.and_false]
  · rw [zeros _ (by decide), bit, Bool.and_false]
  · split_ifs with valid
    · have small : n.toNat < 64 := valid
      have inside := toNat_inodeBlock valid
      rw [zeros _ (by omega), inode]
    · rfl
  · split_ifs with data
    · exact zeros b data.2
    · rfl

private theorem exec_initBlocks : ∀ (n k : Nat), k + n ≤ 512 → ∀ s : FileSys,
    exec ((List.range' k n).forM fun i => do
      let pData ← malloc
      bufWrite (BitVec.ofNat 32 i) (blockOf pData)) s =
      some ((), { s with
        heap := fun j => s.heap (j + n)
        disk := fun b => if k ≤ b.toNat ∧ b.toNat < k + n then blockOf (s.heap (b.toNat - k))
          else s.disk b }) := by
  intro n
  induction n with
  | zero =>
      intro k _ s
      have disks : (fun b : CInt => if k ≤ b.toNat ∧ b.toNat < k + 0 then
          blockOf (s.heap (b.toNat - k)) else s.disk b) = s.disk :=
        funext fun b => if_neg (by omega)
      rw [disks]
      rfl
  | succ n induction =>
      intro k small s
      have value := Volume.toNat_ofNat_of_lt (n := k) (by omega)
      have nonneg : 0 ≤ (BitVec.ofNat 32 k).toInt := by
        rw [BitVec.toInt_eq_toNat_of_lt (by omega)]
        omega
      rw [List.range'_succ, List.forM, exec_bind, exec_bind, exec_malloc, Option.bind_some,
        exec_bufWrite nonneg, Option.bind_some]
      refine (induction (k + 1) (by omega) { s with
        heap := fun j => s.heap (j + 1)
        disk := update s.disk (BitVec.ofNat 32 k) (blockOf (s.heap 0)) }).trans ?_
      have disks : (fun b : CInt => if k + 1 ≤ b.toNat ∧ b.toNat < k + 1 + n then
            blockOf (s.heap (b.toNat - (k + 1) + 1))
          else update s.disk (BitVec.ofNat 32 k) (blockOf (s.heap 0)) b) =
          fun b => if k ≤ b.toNat ∧ b.toNat < k + (n + 1) then blockOf (s.heap (b.toNat - k))
            else s.disk b := by
        funext b
        by_cases same : b = BitVec.ofNat 32 k
        · have first : b.toNat = k := same ▸ value
          rw [if_neg (by omega), if_pos (by omega), same, update_self, value, Nat.sub_self]
        · have different : b.toNat ≠ k := fun eq =>
            same (BitVec.eq_of_toNat_eq (eq.trans value.symm))
          rw [update_of_ne same]
          by_cases inside : k ≤ b.toNat ∧ b.toNat < k + (n + 1)
          · rw [if_pos (by omega), if_pos inside]
            congr 2
            omega
          · rw [if_neg (by omega), if_neg inside]
      exact congrArg (fun disk => some ((), { s with
        heap := fun j => s.heap (j + (n + 1))
        disk := disk })) disks

/-- What `InitFileSys` leaves on the disk: block `b` is the chunk number `b`. -/
def FileSys.initDisk (s : FileSys) : Store := fun b =>
  if b.toNat < 512 then blockOf (s.heap b.toNat) else s.disk b

private theorem exec_initFileSys (s : FileSys) : exec initFileSys s =
    some ((), { s with heap := fun j => s.heap (j + 512), disk := s.initDisk }) := by
  have loop := exec_initBlocks 512 0 le_rfl s
  simp only [Nat.zero_le, true_and, Nat.zero_add, Nat.sub_zero] at loop
  rw [initFileSys, List.range_eq_range']
  exact loop

/-! ## The loops over the block bitmap -/

private theorem yields_markBlocks (mark : CInt → FS Unit) {value : Bool}
    (rule : ∀ b, b.toNat < 512 → ∀ w, Yields (mark b) w ()
      { w with volume := { w.volume with blockUsed := update w.volume.blockUsed b value } })
    (blocks : List Nat) : (∀ i ∈ blocks, i < 512) → ∀ w : View,
    Yields (blocks.forM fun i => mark (BitVec.ofNat 32 i)) w ()
      { w with volume := { w.volume with
        blockUsed := fun b => if b.toNat ∈ blocks then value else w.volume.blockUsed b } } := by
  induction blocks with
  | nil =>
      intro _ w
      simpa using Yields.pure () w
  | cons i blocks induction =>
      intro small w
      have value' := Volume.toNat_ofNat_of_lt (small i (by simp))
      have step := rule (BitVec.ofNat 32 i) (by rw [value']; exact small i (by simp)) w
      have tail := induction fun j member => small j (List.mem_cons_of_mem i member)
      have rest : Yields (mark (BitVec.ofNat 32 i) >>= fun _ =>
          blocks.forM fun i => mark (BitVec.ofNat 32 i)) w () _ := step.bind (tail _)
      have bits : (fun b : CInt => if b.toNat ∈ blocks then value
          else update w.volume.blockUsed (BitVec.ofNat 32 i) value b) =
          fun b => if b.toNat ∈ i :: blocks then value else w.volume.blockUsed b := by
        funext b
        by_cases same : b = BitVec.ofNat 32 i
        · subst same
          simp [value']
        · have different : b.toNat ≠ i := fun eq =>
            same (BitVec.eq_of_toNat_eq (eq.trans value'.symm))
          simp [same, different]
      simp only [bits] at rest
      exact rest

namespace Volume

/-- The metadata blocks are marked, and nothing else is in use. -/
def reserved : Volume := { zeros with blockUsed := fun b => decide (b.toNat < 7) }

private theorem freeBlockNum_reserved : reserved.freeBlockNum = 7#32 := by
  have scan : (List.range 512).find? (fun n => !reserved.blockUsed (BitVec.ofNat 32 n)) =
      some 7 := by
    rw [List.find?_range_eq_some]
    refine ⟨by decide, by simp, fun n low => ?_⟩
    have value := Volume.toNat_ofNat_of_lt (n := n) (by omega)
    simp only [reserved, value, Bool.not_not, decide_eq_true_eq]
    exact low
  rw [freeBlockNum, scan]
  rfl

theorem freeInodeNum_reserved : reserved.freeInodeNum = 0#32 := by
  have scan : (List.range 64).find? (fun n => !reserved.inodeUsed (BitVec.ofNat 32 n)) =
      some 0 := by
    rw [List.find?_range_eq_some]
    exact ⟨rfl, by simp, fun n low => absurd low (Nat.not_lt_zero n)⟩
  rw [freeInodeNum, scan]
  rfl

/-- The block of the root directory. -/
def rootBlock : Block := (Block.setEntryInode (fun _ => 0#8) 0 0#32).setName 0 2 (cString dot)

/-- The root directory and nothing else. -/
def formatted : Volume where
  inodeUsed := update (fun _ => false) 0#32 true
  blockUsed := update (fun b => decide (b.toNat < 7)) 7#32 true
  inode := update (fun _ => .blank) 0#32 (dirInode 7#32)
  block := update (fun _ _ => 0#8) 7#32 rootBlock

end Volume

/-- `*pFileSysInfo` in a chunk of zeros. -/
def FileSysInfo.zeros : FileSysInfo := .ofBlock fun _ => 0#8

/-- `*pFileSysInfo` after `setRoot`. -/
def FileSysInfo.formatted : FileSysInfo :=
  { zeros with
    numAllocBlocks := zeros.numAllocBlocks + 1
    numFreeBlocks := zeros.numFreeBlocks - 1
    numAllocInodes := zeros.numAllocInodes + 1 }

/-- The block of the root directory, made in the memory that `malloc` gave. -/
def rootBlockOn (chunk : Chunk) (inodeNo : CInt) : Block :=
  ((blockOf chunk).setEntryInode 0 inodeNo).setName 0 2 (cString dot)

/-- `*pFileSysInfo` after `setRoot`, made in the memory that `malloc` gave. -/
def infoOn (chunk : Chunk) : FileSysInfo :=
  let info := FileSysInfo.ofBlock (blockOf chunk)
  { info with
    numAllocBlocks := info.numAllocBlocks + 1
    numFreeBlocks := info.numFreeBlocks - 1
    numAllocInodes := info.numAllocInodes + 1 }

/-- The volume with the marks of the metadata blocks. -/
def FileSys.markedVolume (s : FileSys) : Volume :=
  { s.initDisk.volume with blockUsed := fun b => decide (b.toNat < 7) }

/-- The volume that `CreateFileSystem` makes of what `malloc` gives. -/
def FileSys.formattedVolume (s : FileSys) : Volume where
  inodeUsed := update s.initDisk.volume.inodeUsed s.markedVolume.freeInodeNum true
  blockUsed := update (fun b => decide (b.toNat < 7)) 7#32 true
  inode := update s.initDisk.volume.inode 0#32 (Volume.dirInode 7#32)
  block := update s.initDisk.volume.block 7#32
    (rootBlockOn (s.heap 512) s.markedVolume.freeInodeNum)

private theorem yields_setRoot {w : View} (reserved : w.volume.freeBlockNum = 7#32)
    (valid : ValidInode w.volume.freeInodeNum) :
    Yields setRoot w () ⟨⟨w.pFileDesc, infoOn (w.heap 1), fun k => w.heap (k + 3)⟩,
      { inodeUsed := update w.volume.inodeUsed w.volume.freeInodeNum true
        blockUsed := update w.volume.blockUsed 7#32 true
        inode := update w.volume.inode 0#32 (Volume.dirInode 7#32)
        block := update w.volume.block 7#32 (rootBlockOn (w.heap 0) w.volume.freeInodeNum) }⟩ := by
  have root : ValidInode 0#32 := by decide
  have data : DataBlock 7#32 := by decide
  have block := yields_getFreeBlockNum w
  rw [reserved] at block
  refine block.bind ?_
  refine (yields_getFreeInodeNum w).bind ?_
  refine (yields_malloc _).bind ?_
  refine (yields_bufWrite data _ _).bind ?_
  refine (yields_malloc _).bind ?_
  refine (yields_modifyInfo _ _).bind ?_
  refine (yields_writeInfo _).bind ?_
  refine (yields_getInode _ root).bind ?_
  refine (yields_putInode _ root _).bind ?_
  refine (yields_setBlockBitmap _ data.2).bind ?_
  exact yields_setInodeBitmap _ valid

private theorem yields_skipRead {α : Type} {b : CInt} (nonneg : 0 ≤ b.toInt) {next : FS α}
    {w w' : View} {r : α} (rest : Yields next w r w') :
    Yields (bufRead b >>= fun _ => next) w r w' := by
  intro s view
  rw [exec_bind, exec_bufRead nonneg]
  exact rest s view

/-- `CreateFileSystem`, whatever `malloc` gives, as long as the inode bitmap has a clear bit. -/
theorem exec_createFileSystem_on {s : FileSys} (valid : ValidInode s.markedVolume.freeInodeNum) :
    ∃ s', exec createFileSystem s = some ((), s') ∧
      s'.view = ⟨⟨s.pFileDesc, infoOn (s.heap 513), fun k => s.heap (k + 515)⟩,
        s.formattedVolume⟩ := by
  have set := yields_markBlocks setBlockBitmap (fun b small w => yields_setBlockBitmap w small)
    (List.range 7) (fun i member => by rw [List.mem_range] at member; omega)
    ⟨⟨s.pFileDesc, s.pFileSysInfo, fun j => s.heap (j + 512)⟩, s.initDisk.volume⟩
  have reset := yields_markBlocks resetBlockBitmap
    (fun b small w => yields_resetBlockBitmap w small) (List.range' 7 505)
    (fun i member => by rw [List.mem_range'_1] at member; omega)
    ⟨⟨s.pFileDesc, s.pFileSysInfo, fun j => s.heap (j + 512)⟩,
      { s.initDisk.volume with blockUsed := fun b =>
        if b.toNat ∈ List.range 7 then true else s.initDisk.volume.blockUsed b }⟩
  have bits : (fun b : CInt => if b.toNat ∈ List.range' 7 505 then false
      else if b.toNat ∈ List.range 7 then true else s.initDisk.volume.blockUsed b) =
      fun b => decide (b.toNat < 7) := by
    funext b
    simp only [List.mem_range'_1, List.mem_range]
    by_cases low : b.toNat < 7
    · rw [if_neg (by omega), if_pos low, decide_eq_true low]
    · by_cases inside : b.toNat < 512
      · rw [if_pos (by omega), decide_eq_false low]
      · have outside : s.initDisk.volume.blockUsed b = false := by simp [Store.volume, inside]
        rw [if_neg (by omega), if_neg low, decide_eq_false low, outside]
  simp only [bits] at reset
  have marks : s.markedVolume.blockUsed = Volume.reserved.blockUsed := rfl
  have number : s.markedVolume.freeBlockNum = 7#32 :=
    (Volume.freeBlockNum_congr marks).trans Volume.freeBlockNum_reserved
  have root := yields_setRoot
    (w := ⟨⟨s.pFileDesc, s.pFileSysInfo, fun j => s.heap (j + 512)⟩, s.markedVolume⟩) number valid
  have marked : Yields ((List.range 7).forM (fun i => setBlockBitmap (BitVec.ofNat 32 i)) >>=
      fun _ => (List.range' 7 505).forM (fun i => resetBlockBitmap (BitVec.ofNat 32 i)) >>=
        fun _ => setRoot) _ () _ := set.bind (reset.bind root)
  obtain ⟨s', run, view⟩ := yields_skipRead (b := blockBitmapBlockNum) (by decide)
    (yields_skipRead (b := inodeBitmapBlockNum) (by decide) marked)
    { s with heap := fun j => s.heap (j + 512), disk := s.initDisk } rfl
  refine ⟨s', ?_, view⟩
  rw [createFileSystem, exec_bind, exec_initFileSys, Option.bind_some]
  exact run

/-- `CreateFileSystem` formats the disk. -/
theorem exec_createFileSystem {s : FileSys} (zero : s.heap = fun _ _ => 0#8) :
    ∃ s', exec createFileSystem s = some ((), s') ∧
      s'.view = ⟨⟨s.pFileDesc, .formatted, fun _ _ => 0#8⟩, .formatted⟩ := by
  have blank : s.initDisk.volume = .zeros := Store.volume_zeros fun b small => by
    rw [FileSys.initDisk, if_pos small, zero]
    rfl
  have number : s.markedVolume.freeInodeNum = 0#32 := by
    rw [FileSys.markedVolume, blank]
    exact Volume.freeInodeNum_reserved
  obtain ⟨s', run, view⟩ := exec_createFileSystem_on (s := s) (by rw [number]; decide)
  refine ⟨s', run, ?_⟩
  rw [view, FileSys.formattedVolume, number, blank, zero]
  rfl

/-! ## The formatted volume is consistent -/

namespace Volume

theorem ptr_formatted : formatted.ptr = update (fun _ => 0#32) (0#32, 0) 7#32 := by
  funext ⟨n, k⟩
  by_cases root : n = 0#32
  · subst root
    by_cases first : k = 0 <;> simp [ptr, formatted, dirInode, first]
  · simp [ptr, formatted, Inode.blank, root]

private theorem isDir_formatted (d : CInt) : formatted.IsDir d ↔ d = 0#32 := by
  by_cases root : d = 0#32 <;> simp [IsDir, formatted, dirInode, root]

theorem entry_formatted (j : Fin numOfDirentPerBlock) :
    formatted.entry 0#32 (0, j) = if j = 0 then ⟨dot, 0#32⟩ else ⟨[], 0#32⟩ := by
  have pointer : formatted.ptr (0#32, 0) = 7#32 := by rw [ptr_formatted, update_self]
  have one : Spells (cString dot) dot := spells_cString (by decide)
  rw [entry, pointer, show formatted.block 7#32 = rootBlock by simp [formatted], Block.entryAt,
    rootBlock, Block.entryInode_setName _ _ _ (by omega), Block.entryInode_setEntryInode]
  split_ifs with first
  · rw [first, Block.nameOf_setName_self _ _ one (by omega) (by decide)]
  · rw [Block.nameOf_setName_of_ne _ _ _ (by omega) first, Block.nameOf_setEntryInode]
    exact entryAt_zero j

/-- The root's reference to itself is the only entry. -/
theorem slot_formatted {d : CInt} {s : Slot} {y : List Byte} {m : CInt} :
    formatted.tree.slot d s = some (y, m) ↔ d = 0#32 ∧ s = (0, 0) ∧ y = dot ∧ m = 0#32 := by
  rw [slot_eq_some, isDir_formatted, ptr_formatted]
  constructor
  · rintro ⟨rfl, holds, live, same⟩
    have first : s.1 = 0 := by
      by_contra other
      rw [update_of_ne (by simp [other])] at holds
      exact holds rfl
    obtain ⟨k, j⟩ := s
    obtain rfl : k = 0 := first
    rw [entry_formatted] at same
    split_ifs at same with zero
    · obtain ⟨rfl, rfl⟩ := Block.Entry.mk.inj same
      exact ⟨rfl, by rw [zero], rfl, rfl⟩
    · exact absurd (Block.Entry.mk.inj same).1.symm live
  · rintro ⟨rfl, rfl, rfl, rfl⟩
    refine ⟨rfl, by simp, by decide, ?_⟩
    rw [entry_formatted, if_pos rfl]

theorem consistent_formatted : formatted.Consistent := by
  have used : ∀ n, formatted.inodeUsed n = true ↔ n = 0#32 := fun n => by
    by_cases root : n = 0#32 <;> simp [formatted, root]
  have nothing : Owned 0#32 pool (fun _ : CInt × Fin numOfDirectBlockPtr => 0#32)
      fun b => decide (b.toNat < 7) := by
    refine ⟨zero_notMem_pool, fun _ holds => absurd rfl holds, fun _ _ holds => absurd rfl holds,
      fun c inside => ?_⟩
    have low : 7 ≤ c.toNat := inside.1
    refine ⟨fun marked => absurd (of_decide_eq_true marked) (by omega), ?_⟩
    rintro ⟨_, rfl⟩
    exact absurd inside zero_notMem_pool
  have data : DataBlock 7#32 := by decide
  refine ⟨⟨fun b low => ?_, ?_, fun n k holds => ?_⟩, fun n here => ?_, fun n here => ?_,
    fun d s dir holds => ?_, ⟨?_, ?_, ?_, ?_, ?_, ?_, ?_, ?_, ?_, ?_⟩, ?_, fun d dir notRoot => ?_⟩
  · have other : b ≠ 7#32 := by
      rintro rfl
      exact absurd low (by decide)
    simp [formatted, other, low]
  · rw [ptr_formatted]
    exact nothing.assign data (by decide) rfl
  · rw [ptr_formatted] at holds
    by_cases root : n = 0#32
    · rw [root]
      decide
    · rw [update_of_ne (by simp [root])] at holds
      exact absurd rfl holds
  · rw [(used n).mp here]
    decide
  · exact Or.inr ((isDir_formatted n).mpr ((used n).mp here))
  · obtain rfl := (isDir_formatted d).mp dir
    obtain ⟨k, j⟩ := s
    have first : k = 0 := by
      by_contra other
      rw [ptr_formatted, update_of_ne (by simp [other])] at holds
      exact holds rfl
    rw [first, entry_formatted]
    split_ifs <;> simp [dot]
  · exact (isDir_formatted 0#32).mpr rfl
  · exact fun d dir => dir.1
  · rintro d s ⟨y, m⟩ entry
    obtain ⟨rfl, _⟩ := slot_formatted.mp entry
    exact (isDir_formatted 0#32).mpr rfl
  · intro d s y m entry
    obtain ⟨_, _, _, rfl⟩ := slot_formatted.mp entry
    exact (used 0#32).mpr rfl
  · intro d s s' y m m' entry entry'
    exact (slot_formatted.mp entry).2.1.trans (slot_formatted.mp entry').2.1.symm
  · intro d s m entry
    obtain ⟨rfl, _, _, rfl⟩ := slot_formatted.mp entry
    rfl
  · intro d s m entry
    exact absurd (slot_formatted.mp entry).2.2.1 (by decide)
  · intro d s y m entry ne
    exact absurd (slot_formatted.mp entry).2.2.1 ne
  · intro d d' s s' y y' m entry ne
    exact absurd (slot_formatted.mp entry).2.2.1 ne
  · intro n here notRoot
    exact absurd ((used n).mp here) notRoot
  · intro d s y m entry _
    exact Or.inl (slot_formatted.mp entry).2.2.1
  · exact absurd ((isDir_formatted d).mp dir) notRoot

theorem freeBlank_formatted : formatted.FreeBlank := by
  intro n unused k
  have other : n ≠ 0#32 := by
    rintro rfl
    simp [formatted] at unused
  rw [ptr_formatted, update_of_ne (by simp [other])]

end Volume

/-! ## Runs from a formatted disk -/

/-- What `CreateFileSystem` leaves behind when the heap reads as zero and no descriptor is used. -/
def Formatted (s : FileSys) : Prop :=
  ∃ s₀ : FileSys, s₀.heap = (fun _ _ => 0#8) ∧ (∀ i, s₀.pFileDesc i = ⟨false, .null⟩) ∧
    exec createFileSystem s₀ = some ((), s)

/-- The view of a formatted disk. -/
def View.formatted : View :=
  ⟨⟨fun _ => ⟨false, .null⟩, .formatted, fun _ _ => 0#8⟩, .formatted⟩

theorem Formatted.view {s : FileSys} (here : Formatted s) : s.view = .formatted := by
  obtain ⟨s₀, zero, unused, run⟩ := here
  obtain ⟨s', run', view⟩ := exec_createFileSystem zero
  obtain rfl : s = s' := by simpa using run.symm.trans run'
  rw [view, funext unused]
  rfl

theorem exists_formatted : ∃ s, Formatted s := by
  obtain ⟨s, run, _⟩ := exec_createFileSystem
    (s := ⟨⟨fun _ => ⟨false, .null⟩, .zeros, fun _ _ => 0#8⟩, fun _ _ => 0#8⟩) rfl
  exact ⟨s, _, rfl, fun _ => rfl, run⟩

theorem View.formatted_sound {offsets : CInt → Prop} : View.formatted.Sound offsets :=
  ⟨Volume.consistent_formatted, Volume.freeBlank_formatted, rfl, fun _ =>
    ⟨⟨fun used => Bool.noConfusion used, fun ⟨_, same⟩ => by cases same⟩,
      fun _ same => by cases same⟩⟩

/-! ## A first path -/

/-- The path `/a`. -/
def pathA : Path := ⟨[47#8, 97#8], by decide⟩

theorem tokens_pathA : pathA.tokens = [[97#8]] := by decide

/-- The path `/b`. -/
def pathB : Path := ⟨[47#8, 98#8], by decide⟩

theorem tokens_pathB : pathB.tokens = [[98#8]] := by decide

namespace Volume

theorem names_pathA {v : Volume} (root : v.IsDir 0#32) : Names v pathA 0#32 [97#8] :=
  ⟨⟨[], by rw [tokens_pathA]; rfl, rfl⟩, root, by decide, by decide⟩

theorem formatted_isDir : formatted.IsDir 0#32 := (isDir_formatted 0#32).mpr rfl

theorem formatted_new {x : List Byte} (other : x ≠ dot) (d m : CInt) :
    ¬ formatted.tree.Refers d x m := by
  rintro ⟨s, entry⟩
  exact other (slot_formatted.mp entry).2.2.1

theorem formatted_room : ∃ e : Slot, formatted.ptr (0#32, e.1) ≠ 0#32 ∧
    (formatted.entry 0#32 e).name = [] := by
  refine ⟨(0, 1), ?_, ?_⟩
  · rw [ptr_formatted, update_self]
    decide
  · rw [entry_formatted, if_neg (by decide)]

theorem formatted_free : formatted.HasFreeInode := ⟨1#32, by decide, by decide⟩

end Volume

/-- Making or creating `/a` on a formatted disk is well-formed. -/
theorem wellFormed_pathA :
    (Call.makeDir pathA).WellFormed .formatted ∧ (Call.createFile pathA).WellFormed .formatted := by
  have proper := (⟨0#32, [97#8], Volume.names_pathA Volume.formatted_isDir,
    Volume.formatted_new (by decide) 0#32, Volume.formatted_free⟩ : ∃ p x,
      Names View.formatted.volume pathA p x ∧ (∀ m, ¬ View.formatted.volume.tree.Refers p x m) ∧
        View.formatted.volume.HasFreeInode)
  have short : pathA.bytes.length < 100 := by decide
  exact ⟨⟨proper, short⟩, proper, short⟩

/-- A file `/a` made on a formatted disk. -/
structure CreatedA (n : CInt) (w : View) : Prop where
  number : n = Volume.formatted.freeInodeNum
  volume : ∃ e, Volume.formatted.freeSlot 0#32 = some e ∧
    w.volume = (Volume.formatted.putEntry 0#32 e n [97#8]).newFile n
  table : w.pFileDesc = update (fun _ => ⟨false, .null⟩) 0 ⟨true, .file ⟨0#32, n⟩⟩
  sound : w.Sound fun _ => True
  created : Volume.formatted.Created 0#32 [97#8] n w.volume

/-- The first file on a formatted disk. -/
theorem exists_createdA {s : FileSys} (here : Formatted s) : ∃ n s',
    exec (createFile pathA) s = some (0#32, s') ∧ CreatedA n s'.view := by
  have sound : View.formatted.Sound fun _ => True := View.formatted_sound
  have new := Volume.formatted_new (x := [97#8]) (by decide) 0#32
  obtain ⟨e, slot⟩ := Volume.exists_freeSlot Volume.formatted_room
  obtain ⟨w, yields, sound', volume, table, _, created⟩ := sound.createFile
    (Volume.names_pathA Volume.formatted_isDir) new Volume.formatted_free trivial slot
  obtain ⟨s', run, rfl⟩ := yields s here.view
  exact ⟨_, s', run, rfl, ⟨e, slot, volume⟩, table, sound', created⟩

/-- A run of well-formed calls that creates the file `/a`. -/
theorem exists_reachableA : ∃ n s, Reachable Formatted Call.WellFormed s ∧ CreatedA n s.view := by
  obtain ⟨s, here⟩ := exists_formatted
  obtain ⟨n, s', run, made⟩ := exists_createdA here
  refine ⟨n, s', .call (c := .createFile pathA) (.start here) (here.view ▸ wellFormed_pathA.2) ?_,
    made⟩
  rw [Call.code, effect, exec_bind, run]
  rfl

namespace CreatedA

variable {n : CInt} {w : View} (made : CreatedA n w)

include made

theorem isFile : w.volume.IsFile n := by
  obtain ⟨_, _, volume⟩ := made.volume
  simp [volume, Volume.IsFile, Volume.newFile]

theorem isDir_root : w.volume.IsDir 0#32 :=
  made.created.consistent.tree.root_dir

/-- `/b` may be made beside `/a`. -/
theorem wellFormed_makeDirB : (Call.makeDir pathB).WellFormed w ∧
    Names w.volume pathB 0#32 [98#8] := by
  have names : Names w.volume pathB 0#32 [98#8] :=
    ⟨⟨[], by rw [tokens_pathB]; rfl, rfl⟩, made.isDir_root, by decide, by decide⟩
  have new : ∀ m, ¬ w.volume.tree.Refers 0#32 [98#8] m := by
    intro m refers
    rcases (made.created.refers _ _ _ (by decide) (by decide)).mp refers with ⟨_, same, _⟩ | old
    · exact absurd same (by decide)
    · exact Volume.formatted_new (by decide) _ _ old
  have unused : ∀ m : CInt, m = 1#32 ∨ m = 2#32 → m ≠ n → w.volume.inodeUsed m = false := by
    rintro m number other
    rw [made.created.used, update_of_ne other]
    rcases number with rfl | rfl <;> decide
  have free : w.volume.HasFreeInode := by
    by_cases same : 1#32 = n
    · exact ⟨2#32, by decide, unused _ (.inr rfl) (same ▸ by decide)⟩
    · exact ⟨1#32, by decide, unused _ (.inl rfl) same⟩
  exact ⟨⟨⟨_, _, names, new, free⟩, show pathB.bytes.length < 100 by decide⟩, names⟩

end CreatedA

theorem Volume.exists_room {v : Volume} {p : CInt}
    (some_room : ∃ e : Slot, v.ptr (p, e.1) = 0#32 ∨ (v.entry p e).name = []) :
    ∃ r, v.room p = some r := by
  rw [← Option.ne_none_iff_exists']
  intro none
  obtain ⟨e, null | empty⟩ := some_room
  · exact (firstRoom_eq_none_iff.mp none e).1 null
  · have taken := (firstRoom_eq_none_iff.mp none e).2
    simp [empty] at taken

/-- A run of well-formed calls that makes the directory `/a`. -/
theorem exists_reachableDirA : ∃ n s, Reachable Formatted Call.WellFormed s ∧
    s.view.volume.tree.Refers 0#32 [97#8] n ∧ s.view.volume.IsDir n := by
  obtain ⟨s, here⟩ := exists_formatted
  have ok := Volume.consistent_formatted
  have names := Volume.names_pathA Volume.formatted_isDir
  have new := Volume.formatted_new (x := [97#8]) (by decide) 0#32
  have free := Volume.formatted_free
  have sound : View.formatted.Sound fun _ => True := View.formatted_sound
  obtain ⟨e, _, empty⟩ := Volume.formatted_room
  obtain ⟨r, room⟩ := Volume.exists_room ⟨e, Or.inr empty⟩
  obtain ⟨w', yields, _, volume, _, created⟩ := sound.makeDir names new free room
  have made :=
    Volume.dirMade_makeDir ok Volume.freeBlank_formatted names.dir room free names.good new
  obtain ⟨s', run, rfl⟩ := yields s here.view
  refine ⟨_, s', .call (c := .makeDir pathA) (.start here) (here.view ▸ wellFormed_pathA.1) ?_,
    created.new, ?_⟩
  · rw [Call.code, effect, exec_bind, run]
    rfl
  · have dir : (Volume.formatted.makeDir 0#32 [97#8] r).tree.dir Volume.formatted.freeInodeNum := by
      rw [made.tree]
      exact Or.inl rfl
    exact volume ▸ dir

/-- Every state of a run of well-formed calls is sound. -/
theorem sound_of_wellFormed {s : FileSys} (reachable : Reachable Formatted Call.WellFormed s) :
    s.view.Sound AtBlock := by
  refine reachable.invariant (fun _ here => here.view ▸ View.formatted_sound) ?_
  intro s s' c sound fine run
  obtain ⟨w', yields, sound'⟩ := sound.step fine
  rwa [(yields.unique run).2]

/-- Every state of a run of proper calls is sound. -/
theorem sound_of_proper {s : FileSys} (reachable : Reachable Formatted Call.Proper s) :
    s.view.Sound fun _ => True :=
  reachable.invariant (fun _ here => here.view ▸ View.formatted_sound)
    fun _ _ _ sound proper run => sound.call proper run

end KwHomework
