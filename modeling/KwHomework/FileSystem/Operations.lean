import KwHomework.FileSystem.Directory

/-!
# The operations on views

For each function of `fs.c` that is called as intended, what it returns and what it does to the
view.  The volumes are given by small functions that later modules reason about.
-/

namespace KwHomework

open Function FS

/-! ## Descriptors -/

/-- The first unused descriptor. -/
def firstUnused (fds : Fin maxFdEntryMax → FileDesc) : Option (Fin maxFdEntryMax) :=
  (List.finRange maxFdEntryMax).find? fun i => !(fds i).bUsed

/-- The descriptor table after an inode was opened, and the descriptor. -/
def openAt (fds : Fin maxFdEntryMax → FileDesc) (n : CInt) :
    CInt × (Fin maxFdEntryMax → FileDesc) :=
  match firstUnused fds with
  | some i => (BitVec.ofNat 32 i, update fds i ⟨true, .file ⟨0#32, n⟩⟩)
  | none => (-1, fds)

/-- Opening an inode leaves the descriptors in use alone. -/
theorem openAt_of_used {fds : Fin maxFdEntryMax → FileDesc} {i : Fin maxFdEntryMax}
    (used : (fds i).bUsed = true) (n : CInt) : (openAt fds n).2 i = fds i := by
  rw [openAt]
  cases free : firstUnused fds with
  | none => rfl
  | some j =>
      have unused : (fds j).bUsed = false := by simpa using List.find?_some free
      have other : i ≠ j := by
        rintro rfl
        rw [used] at unused
        cases unused
      exact update_of_ne other _ _

/-- A free descriptor is found. -/
theorem exists_openAt {fds : Fin maxFdEntryMax → FileDesc}
    (unused : ∃ i, (fds i).bUsed = false) (n : CInt) : ∃ i, (fds i).bUsed = false ∧
      openAt fds n = (BitVec.ofNat 32 i, update fds i ⟨true, .file ⟨0#32, n⟩⟩) := by
  obtain ⟨j, unused⟩ := unused
  cases found : firstUnused fds with
  | none =>
      have used := List.find?_eq_none.mp found j (List.mem_finRange j)
      simp [unused] at used
  | some i =>
      refine ⟨i, by simpa using List.find?_some found, ?_⟩
      rw [openAt, found]

/-- The index behind a descriptor. -/
theorem descriptor_index (i : Fin maxFdEntryMax) :
    ∃ bound : (BitVec.ofNat 32 (i : Nat)).toNat < maxFdEntryMax,
      (⟨(BitVec.ofNat 32 (i : Nat)).toNat, bound⟩ : Fin maxFdEntryMax) = i := by
  have small : (i : Nat) < 64 := i.isLt
  have index : (BitVec.ofNat 32 (i : Nat)).toNat = i := by
    rw [BitVec.toNat_ofNat]
    omega
  exact ⟨by rwa [index], Fin.ext index⟩

theorem yields_openDescriptor (n : CInt) (w : View) :
    Yields (openDescriptor n) w (openAt w.pFileDesc n).1
      { w with pFileDesc := (openAt w.pFileDesc n).2 } := by
  refine (yields_get w).bind ?_
  rw [openAt]
  change Yields (match firstUnused w.pFileDesc with | some i => _ | none => _) _ _ _
  cases firstUnused w.pFileDesc with
  | some i => exact (yields_set _ w).bind (.pure _ _)
  | none => exact .pure _ w

/-- The open file of a descriptor. -/
def Memory.opened (mem : Memory) (i : Fin maxFdEntryMax) (file : File) : Prop :=
  (mem.pFileDesc i).pOpenFile = .file file

private theorem yields_descIndex {fileDesc : CInt} (bound : fileDesc.toNat < maxFdEntryMax)
    (w : View) :
    Yields (descIndex fileDesc) w ⟨fileDesc.toNat, bound⟩ w := by
  rw [descIndex, dif_pos bound]
  exact .pure _ w

private theorem yields_openFileOf {w : View} {i : Fin maxFdEntryMax} {file : File}
    (opened : w.opened i file) : Yields (openFileOf i) w file w := by
  refine (yields_get w).bind ?_
  rw [show (w.pFileDesc i).pOpenFile = .file file from opened]
  exact .pure file w

/-- The descriptor table with another offset. -/
def moveOffset (fds : Fin maxFdEntryMax → FileDesc) (i : Fin maxFdEntryMax) (file : File)
    (fileOffset : CInt) : Fin maxFdEntryMax → FileDesc :=
  update fds i { fds i with pOpenFile := .file { file with fileOffset := fileOffset } }

private theorem yields_setOffset (i : Fin maxFdEntryMax) (file : File) (fileOffset : CInt)
    (w : View) :
    Yields (setOffset i file fileOffset) w ()
      { w with pFileDesc := moveOffset w.pFileDesc i file fileOffset } :=
  yields_modify _ w

/-- The descriptor table after `CloseFile`. -/
def closeAt (fds : Fin maxFdEntryMax → FileDesc) (i : Fin maxFdEntryMax) :
    Fin maxFdEntryMax → FileDesc :=
  update fds i ⟨false, .freed⟩

theorem yields_closeFile {w : View} {fileDesc : CInt} (bound : fileDesc.toNat < maxFdEntryMax)
    {file : File} (opened : w.opened ⟨fileDesc.toNat, bound⟩ file) :
    Yields (closeFile fileDesc) w ()
      { w with pFileDesc := closeAt w.pFileDesc ⟨fileDesc.toNat, bound⟩ } := by
  refine (yields_descIndex bound w).bind ?_
  refine (yields_get w).bind ?_
  rw [show (w.pFileDesc _).pOpenFile = .file file from opened]
  exact yields_set _ w

/-- A `CloseFile` without undefined behaviour. -/
theorem closeFile_view {fileDesc : CInt} {s s' : FileSys} {r : Unit}
    (run : exec (closeFile fileDesc) s = some (r, s')) : ∃ i pOpenFile,
    (∀ file, pOpenFile ≠ .file file) ∧
      s'.view = { s.view with pFileDesc := update s.view.pFileDesc i ⟨false, pOpenFile⟩ } := by
  by_cases bound : fileDesc.toNat < maxFdEntryMax
  · rw [closeFile, exec_bind, descIndex, dif_pos bound, exec_pure, Option.bind_some, exec_bind,
      exec_get, Option.bind_some] at run
    cases pointer : (s.pFileDesc ⟨fileDesc.toNat, bound⟩).pOpenFile with
    | file file =>
        simp only [pointer, exec_set, Option.some.injEq, Prod.mk.injEq] at run
        exact ⟨_, .freed, fun _ same => (by cases same), by rw [← run.2]; rfl⟩
    | null =>
        simp only [pointer, exec_set, Option.some.injEq, Prod.mk.injEq] at run
        exact ⟨_, .null, fun _ same => (by cases same), by rw [← run.2]; rfl⟩
    | freed => simp [pointer] at run
  · rw [closeFile, exec_bind, descIndex, dif_neg bound, exec_fault] at run
    cases run

/-! ## Creating files -/

namespace Volume

/-- An entry is written into a slot. -/
def putEntry (v : Volume) (p : CInt) (s : Slot) (n : CInt) (x : List Byte) : Volume :=
  v.fill (v.ptr (p, s.1)) ((v.block (v.ptr (p, s.1))).setEntry s.2 n (cString x))

/-- A free inode becomes an empty file. -/
def newFile (v : Volume) (n : CInt) : Volume :=
  (v.setInode n { v.inode n with
    type := fileTypeFile
    size := 0#32
    allocBlocks := 0#32 }).markInode n true

/-- The first free slot of a directory. -/
def freeSlot (v : Volume) (p : CInt) : Option Slot :=
  firstSlot (v.inode p) fun s => (v.entry p s).name = []

theorem exists_freeSlot {v : Volume} {p : CInt} (empty : ∃ e : Slot, v.ptr (p, e.1) ≠ 0#32 ∧
    (v.entry p e).name = []) : ∃ e, v.freeSlot p = some e := by
  obtain ⟨e, holds, empty⟩ := empty
  rw [← Option.ne_none_iff_exists']
  intro none
  exact of_decide_eq_false (firstSlot_eq_none_iff.mp none e holds) empty

end Volume

theorem setEntry_sprintf (blk : Block) (j : Fin numOfDirentPerBlock) (n : CInt) (dst : Chunk)
    (x : List Byte) : blk.setEntry j n (sprintf dst x) = blk.setEntry j n (cString x) := by
  rw [Block.setEntry, Block.setEntry, strncpy_sprintf]

theorem yields_scanFree {w : View} (blocks : w.volume.BlocksOwned) (p : CInt) :
    Yields (scanEntries (w.volume.inode p) isFree) w
      ((w.volume.freeSlot p).map fun s =>
        (s.1, w.volume.block (w.volume.ptr (p, s.1)), s.2)) w := by
  refine yields_scanEntries (fun _ holds => blocks.dataBlock holds) fun k j _ => ?_
  rw [isFree, Option.some.injEq, decide_eq_decide]
  exact (Block.nameOf_eq_nil_iff _ j).symm

/-- What `CreateFile` does once it has a slot. -/
theorem yields_addFile {w : View} {b n : CInt} (data : DataBlock b) (contents : Block)
    (valid : ValidInode n) :
    Yields (do
      bufWrite b contents
      let pInode ← getInode n
      putInode n { pInode with type := fileTypeFile, size := 0#32, allocBlocks := 0#32 }
      setInodeBitmap n
      modifyInfo fun info => { info with numAllocInodes := info.numAllocInodes + 1 }
      writeInfo
      openDescriptor n) w (openAt w.pFileDesc n).1
      { pFileDesc := (openAt w.pFileDesc n).2
        pFileSysInfo :=
          { w.pFileSysInfo with numAllocInodes := w.pFileSysInfo.numAllocInodes + 1 }
        heap := fun k => w.heap (k + 1)
        volume := (w.volume.fill b contents).newFile n } := by
  refine (yields_bufWrite data _ _).bind ?_
  refine (yields_getInode _ valid).bind ?_
  refine (yields_putInode _ valid _).bind ?_
  refine (yields_setInodeBitmap _ valid).bind ?_
  refine (yields_modifyInfo _ _).bind ?_
  refine (yields_writeInfo _).bind ?_
  exact yields_openDescriptor n _

section Paths

variable {w : View} (ok : w.volume.Searchable) {path : Path} {dirs : List (List Byte)}
  {x : List Byte} {p : CInt} (tokens : path.tokens = dirs ++ [x])
  (leads : w.volume.tree.Leads 0#32 dirs p) (dir : w.volume.IsDir p)

include ok tokens leads dir

/-- `CreateFile` in a directory with a free slot. -/
theorem yields_createFile {s : Slot} (slot : w.volume.freeSlot p = some s)
    (free : ∃ n, ValidInode n ∧ w.volume.inodeUsed n = false) :
    Yields (createFile path) w (openAt w.pFileDesc w.volume.freeInodeNum).1
      { pFileDesc := (openAt w.pFileDesc w.volume.freeInodeNum).2
        pFileSysInfo :=
          { w.pFileSysInfo with numAllocInodes := w.pFileSysInfo.numAllocInodes + 1 }
        heap := fun n => w.heap (n + 2)
        volume := (w.volume.putEntry p s w.volume.freeInodeNum x).newFile w.volume.freeInodeNum
        } := by
  obtain ⟨valid, _⟩ := Volume.freeInodeNum_spec free
  obtain ⟨holds, _⟩ := firstSlot_eq_some slot
  refine (yields_getFreeInodeNum w).bind ?_
  refine (yields_malloc w).bind ?_
  refine (yields_getDirPos (w := w.pop) ok tokens leads _).bind ?_
  refine (yields_getInode _ (ok.used_valid p dir.1)).bind ?_
  refine (yields_scanFree (w := w.pop) ok.blocks p).bind ?_
  simp only [slot, Option.map_some]
  rw [setEntry_sprintf]
  exact yields_addFile (ok.blocks.dataBlock holds) _ valid

/-- `CreateFile` in a directory without a free slot. -/
theorem yields_createFile_full (full : w.volume.freeSlot p = none) :
    Yields (createFile path) w (-1) { w with heap := fun n => w.heap (n + 1) } := by
  refine (yields_getFreeInodeNum w).bind ?_
  refine (yields_malloc w).bind ?_
  refine (yields_getDirPos (w := w.pop) ok tokens leads _).bind ?_
  refine (yields_getInode _ (ok.used_valid p dir.1)).bind ?_
  refine (yields_scanFree (w := w.pop) ok.blocks p).bind ?_
  simp only [full, Option.map_none]
  exact .pure _ _

/-- `OpenFile` of an existing entry. -/
theorem yields_openFile {s : Slot} {n : CInt} (entry : w.volume.tree.slot p s = some (x, n)) :
    Yields (openFile path) w (openAt w.pFileDesc n).1
      { w with
        pFileDesc := (openAt w.pFileDesc n).2
        heap := fun n => w.heap (n + 1) } := by
  have spells := fun dst => spells_sprintf dst (path.tokens_spec x (by simp [tokens])).2
  have target : (w.volume.block (w.volume.ptr (p, s.1))).entryInode s.2 = n :=
    congrArg Block.Entry.inodeNum (Volume.slot_eq_some.mp entry).2.2.2
  refine (yields_malloc w).bind ?_
  refine (yields_getDirPos (w := w.pop) ok tokens leads _).bind ?_
  rw [if_neg (show (1 : CInt) ≠ -1 by decide)]
  refine (yields_getInode _ (ok.used_valid p dir.1)).bind ?_
  refine (yields_findName (w := w.pop) ok dir (spells _)).bind ?_
  simp only [ok.lookup_of_slot entry, Option.map_some, target]
  exact yields_openDescriptor n _

end Paths

/-! ## Writing and reading -/

/-- The number of blocks that a length spans. -/
def blockCount (length : CInt) : Nat := (length.toNat - 1) / 512 + 1

private theorem sdiv_blockSize {a : CInt} (positive : a.toNat < 2 ^ 31) :
    a.sdiv 512 = BitVec.ofNat 32 (a.toNat / 512) := by
  have msb : a.msb = false := by
    rw [BitVec.msb_eq_false_iff_two_mul_lt]
    omega
  apply BitVec.eq_of_toNat_eq
  rw [BitVec.sdiv_eq, msb, show (512 : CInt).msb = false by decide, BitVec.udiv_eq,
    BitVec.toNat_udiv, BitVec.toNat_ofNat]
  simp only [BitVec.ofNat_eq_ofNat, BitVec.toNat_ofNat, Nat.reducePow, Nat.reduceMod]
  omega

theorem curIdx_eq {c : Nat} (inside : c ≤ 5) :
    (BitVec.ofNat 32 (512 * c)).sdiv 512 = BitVec.ofNat 32 c := by
  have value : (BitVec.ofNat 32 (512 * c)).toNat = 512 * c := by
    rw [BitVec.toNat_ofNat]
    omega
  rw [sdiv_blockSize (by omega), value, Nat.mul_div_cancel_left c (by decide)]

private theorem toNat_of_pos {length : CInt} (positive : 1 ≤ length.toInt) :
    1 ≤ length.toNat ∧ length.toNat < 2 ^ 31 := by
  rw [BitVec.toInt_eq_toNat_cond] at positive
  split_ifs at positive <;> omega

private theorem totalAllocCount_eq {length : CInt} (positive : 1 ≤ length.toInt) :
    (length - 1).sdiv 512 + 1 = BitVec.ofNat 32 (blockCount length) := by
  obtain ⟨low, high⟩ := toNat_of_pos positive
  have value : (length - 1).toNat = length.toNat - 1 := by
    rw [BitVec.toNat_sub]
    simp only [BitVec.ofNat_eq_ofNat, BitVec.toNat_ofNat, Nat.reducePow, Nat.reduceMod]
    omega
  rw [sdiv_blockSize (by omega), value, blockCount]
  apply BitVec.eq_of_toNat_eq
  rw [BitVec.toNat_add]
  simp only [BitVec.ofNat_eq_ofNat, BitVec.toNat_ofNat, Nat.reducePow, Nat.reduceMod]
  omega

private theorem blockCount_lt {length : CInt} (positive : 1 ≤ length.toInt) :
    blockCount length ≤ 2 ^ 22 := by
  obtain ⟨_, high⟩ := toNat_of_pos positive
  rw [blockCount]
  omega

theorem toInt_ofNat_of_lt {n : Nat} (small : n < 2 ^ 31) :
    (BitVec.ofNat 32 n).toInt = n := by
  have value : (BitVec.ofNat 32 n).toNat = n := by
    rw [BitVec.toNat_ofNat]
    omega
  rw [BitVec.toInt_eq_toNat_of_lt (by omega), value]

/-- The pointers `c`, ..., `c + t - 1`. -/
def ptrRange (c t : Nat) : List (Fin numOfDirectBlockPtr) :=
  (List.finRange numOfDirectBlockPtr).filter fun k => c ≤ k ∧ (k : Nat) < c + t

theorem indexes_eq : ∀ c ≤ (5 : Nat), ∀ t ≤ (5 : Nat), c + t ≤ 5 →
    (List.range t).map (fun n : Nat => (c : Int) + n) =
      (ptrRange c t).map fun k : Fin numOfDirectBlockPtr => ((k : Nat) : Int) := by
  decide

private theorem yields_ptrIndex (k : Fin numOfDirectBlockPtr) (w : View) :
    Yields (ptrIndex ((k : Nat) : Int)) w k w := by
  have inside : 0 ≤ ((k : Nat) : Int) ∧ ((k : Nat) : Int) < numOfDirectBlockPtr := by
    have bound : (k : Nat) < numOfDirectBlockPtr := k.isLt
    omega
  rw [ptrIndex, dif_pos inside]
  exact .pure k w

private theorem yields_allocBlock {w : View} (data : DataBlock w.volume.freeBlockNum)
    (inode : Inode) (k : Fin numOfDirectBlockPtr) :
    Yields (allocBlock inode k) w (inode.withBlock k w.volume.freeBlockNum)
      { w with volume := w.volume.markBlock w.volume.freeBlockNum true } := by
  refine (yields_getFreeBlockNum w).bind ?_
  refine (yields_setBlockBitmap w data.2).bind ?_
  exact .pure _ _

private theorem yields_writeBlock {w : View} {n : CInt} {inode : Inode}
    (blocks : (w.volume.setInode n inode).BlocksOwned) (pBuffer : Chunk) (need : CInt)
    (k : Fin numOfDirectBlockPtr) :
    let acc := Volume.writeStep n pBuffer (w.volume.setInode n inode, need) k
    Yields (writeBlock pBuffer (inode, need) ((k : Nat) : Int)) w (acc.1.inode n, acc.2)
      { w with volume := { acc.1 with inode := w.volume.inode } } := by
  intro acc
  have pointer : (w.volume.setInode n inode).ptr (n, k) = inode.dirBlockPtr k := by
    simp [Volume.ptr_setInode]
  refine (yields_ptrIndex k w).bind ?_
  by_cases empty : inode.dirBlockPtr k = 0#32
  · have number : (w.volume.setInode n inode).freeBlockNum = w.volume.freeBlockNum :=
      Volume.freeBlockNum_congr rfl
    have data := blocks.freeBlockNum.1
    rw [number] at data
    have step : acc = (((w.volume.setInode n inode).assign n k w.volume.freeBlockNum).fill
        w.volume.freeBlockNum (blockOf fun i => pBuffer (512 * k + i)), need + 1) := by
      have assigned : ((w.volume.setInode n inode).assign n k
          w.volume.freeBlockNum).ptr (n, k) = w.volume.freeBlockNum := by
        rw [Volume.ptr_assign, update_self]
      simp only [acc, Volume.writeStep, pointer, empty, if_true, number, assigned]
    have inode_eq : acc.1.inode n = inode.withBlock k w.volume.freeBlockNum := by
      simp [step, Volume.assign]
    rw [if_pos empty, inode_eq, step]
    refine (yields_allocBlock data inode k).bind ?_
    refine (Yields.pure _ _).bind ?_
    have target : (inode.withBlock k w.volume.freeBlockNum).dirBlockPtr k =
        w.volume.freeBlockNum := by
      simp [Inode.withBlock]
    simp only [target]
    refine (yields_bufWrite data _ _).bind ?_
    exact .pure _ _
  · have step : acc = ((w.volume.setInode n inode).fill (inode.dirBlockPtr k)
        (blockOf fun i => pBuffer (512 * k + i)), need) := by
      simp only [acc, Volume.writeStep, pointer, if_neg empty]
    have inode_eq : acc.1.inode n = inode := by simp [step]
    rw [if_neg empty, inode_eq, step]
    have data : DataBlock (inode.dirBlockPtr k) := by
      rw [← pointer] at empty ⊢
      exact blocks.dataBlock empty
    refine (Yields.pure _ w).bind ?_
    refine (yields_bufWrite data _ w).bind ?_
    exact .pure _ _

namespace Volume

/-- One turn of the loop of `WriteFile` changes no other inode. -/
theorem writeStep_frame (n : CInt) (pBuffer : Chunk) (acc : Volume × CInt)
    (k : Fin numOfDirectBlockPtr) :
    (writeStep n pBuffer acc k).1.inodeUsed = acc.1.inodeUsed ∧
      ∀ m, m ≠ n → (writeStep n pBuffer acc k).1.inode m = acc.1.inode m := by
  rw [writeStep]
  split_ifs
  · exact ⟨rfl, fun m other => by simp [assign, other]⟩
  · exact ⟨rfl, fun _ _ => rfl⟩

theorem BlocksOwned.writeStep {acc : Volume × CInt} {n : CInt} (valid : ValidInode n)
    (blocks : acc.1.BlocksOwned) (pBuffer : Chunk) (k : Fin numOfDirectBlockPtr) :
    (writeStep n pBuffer acc k).1.BlocksOwned := by
  rw [Volume.writeStep]
  split_ifs with empty
  · obtain ⟨data, unused⟩ := blocks.freeBlockNum
    exact (blocks.assign valid data unused empty).fill _ _
  · exact blocks.fill _ _

theorem BlocksOwned.writeSteps {n : CInt} (valid : ValidInode n) (pBuffer : Chunk)
    (ks : List (Fin numOfDirectBlockPtr)) {acc : Volume × CInt} (blocks : acc.1.BlocksOwned) :
    (ks.foldl (Volume.writeStep n pBuffer) acc).1.BlocksOwned := by
  induction ks generalizing acc with
  | nil => exact blocks
  | cons k ks induction => exact induction (writeStep valid blocks pBuffer k)

theorem writeSteps_frame (n : CInt) (pBuffer : Chunk) (ks : List (Fin numOfDirectBlockPtr))
    (acc : Volume × CInt) :
    (ks.foldl (Volume.writeStep n pBuffer) acc).1.inodeUsed = acc.1.inodeUsed ∧
      ∀ m, m ≠ n → (ks.foldl (Volume.writeStep n pBuffer) acc).1.inode m = acc.1.inode m := by
  induction ks generalizing acc with
  | nil => exact ⟨rfl, fun _ _ => rfl⟩
  | cons k ks induction =>
      obtain ⟨used, inode⟩ := writeStep_frame n pBuffer acc k
      obtain ⟨used', inode'⟩ := induction (Volume.writeStep n pBuffer acc k)
      exact ⟨used'.trans used, fun m other => (inode' m other).trans (inode m other)⟩

end Volume

/-- The loop of `WriteFile` holds the inode in memory; storing it gives the written volume. -/
private theorem setInode_writeStep (v : Volume) (n : CInt) (inode : Inode) (need : CInt)
    (pBuffer : Chunk) (k : Fin numOfDirectBlockPtr) :
    let acc := Volume.writeStep n pBuffer (v.setInode n inode, need) k
    ({ acc.1 with inode := v.inode } : Volume).setInode n (acc.1.inode n) = acc.1 := by
  intro acc
  obtain ⟨_, others⟩ := Volume.writeStep_frame n pBuffer (v.setInode n inode, need) k
  have inodes : update v.inode n (acc.1.inode n) = acc.1.inode := by
    funext m
    by_cases same : m = n
    · rw [same, update_self]
    · rw [update_of_ne same, others m same]
      simp [same]
  simp only [Volume.setInode, inodes]

private theorem yields_writeBlocks {n : CInt} (valid : ValidInode n) (pBuffer : Chunk) :
    ∀ (ks : List (Fin numOfDirectBlockPtr)) {w : View} {inode : Inode} {need : CInt},
    (w.volume.setInode n inode).BlocksOwned →
    let acc := ks.foldl (Volume.writeStep n pBuffer) (w.volume.setInode n inode, need)
    Yields ((ks.map fun k : Fin numOfDirectBlockPtr => ((k : Nat) : Int)).foldlM
        (writeBlock pBuffer) (inode, need)) w
      (acc.1.inode n, acc.2) { w with volume := { acc.1 with inode := w.volume.inode } }
  | [], w, inode, need, _ => by
      have same : (w.volume.setInode n inode).inode n = inode := by simp
      simp only [List.foldl_nil, same]
      exact .pure _ w
  | k :: ks, w, inode, need, blocks => by
      have restored := setInode_writeStep w.volume n inode need pBuffer k
      have next : (Volume.writeStep n pBuffer (w.volume.setInode n inode, need) k).1.BlocksOwned :=
        Volume.BlocksOwned.writeStep valid blocks pBuffer k
      have step := yields_writeBlock blocks pBuffer need k
      generalize after : Volume.writeStep n pBuffer (w.volume.setInode n inode, need) k = acc
        at step next restored
      simp only [List.foldl_cons, after]
      refine step.bind ?_
      have rest := @yields_writeBlocks n valid pBuffer ks
        { w with volume := { acc.1 with inode := w.volume.inode } } (acc.1.inode n) acc.2
        (by rw [restored]; exact next)
      simp only [restored] at rest
      exact rest

/-- The indexes of the loop of `WriteFile`. -/
def writeIndexes (fileOffset length : CInt) : List Int :=
  (List.range ((fileOffset.sdiv 512 + ((length - 1).sdiv 512 + 1)).toInt -
    (fileOffset.sdiv 512).toInt).toNat).map fun n : Nat => (fileOffset.sdiv 512).toInt + n

/-- The view after the blocks `ks` were written and the offset was moved. -/
def View.written (w : View) (i : Fin maxFdEntryMax) (file : File) (pBuffer : Chunk)
    (ks : List (Fin numOfDirectBlockPtr)) (fileOffset : CInt) : View where
  pFileDesc := moveOffset w.pFileDesc i file fileOffset
  pFileSysInfo := { w.pFileSysInfo with
    numAllocBlocks := w.pFileSysInfo.numAllocBlocks + (w.volume.write file.inodeNum pBuffer ks).2
    numFreeBlocks := w.pFileSysInfo.numFreeBlocks - (w.volume.write file.inodeNum pBuffer ks).2 }
  heap := fun n => w.heap (n + 1)
  volume := (w.volume.write file.inodeNum pBuffer ks).1

section Written

variable {w : View} {i j : Fin maxFdEntryMax} {file file' : File} {pBuffer : Chunk}
  {ks : List (Fin numOfDirectBlockPtr)} {fileOffset : CInt}

theorem opened_moveOffset_self {mem : Memory} : ({ mem with
    pFileDesc := moveOffset mem.pFileDesc i file fileOffset } : Memory).opened i file' ↔
      file' = { file with fileOffset := fileOffset } := by
  simp only [Memory.opened, moveOffset, update_self, FilePtr.file.injEq]
  exact eq_comm

private theorem opened_moveOffset_of_ne {mem : Memory} (other : j ≠ i) : ({ mem with
    pFileDesc := moveOffset mem.pFileDesc i file fileOffset } : Memory).opened j file' ↔
      mem.opened j file' := by
  simp only [Memory.opened, moveOffset, update_of_ne other]

theorem View.opened_written_self : (w.written i file pBuffer ks fileOffset).opened i file' ↔
    file' = { file with fileOffset := fileOffset } :=
  opened_moveOffset_self

theorem View.opened_written_of_ne (other : j ≠ i) :
    (w.written i file pBuffer ks fileOffset).opened j file' ↔ w.opened j file' :=
  opened_moveOffset_of_ne other

end Written

section Transfers

variable {w : View} {fileDesc : CInt} (bound : fileDesc.toNat < maxFdEntryMax) {file : File}
  (opened : w.opened ⟨fileDesc.toNat, bound⟩ file) (valid : ValidInode file.inodeNum)
  (pBuffer : Chunk) {length : CInt}

include opened valid

/-- `WriteFile` when the end of the write lies behind the last pointer. -/
theorem yields_writeFile_beyond
    (beyond : (numOfDirectBlockPtr : Int) <
      (file.fileOffset.sdiv 512 + ((length - 1).sdiv 512 + 1)).toInt) :
    Yields (writeFile fileDesc pBuffer length) w (-1) w := by
  refine (yields_descIndex bound w).bind ?_
  refine (yields_openFileOf opened).bind ?_
  refine (yields_getInode w valid).bind ?_
  dsimp only
  rw [if_pos beyond]
  exact .pure _ w

/-- `WriteFile` when the indexes are those of pointers. -/
theorem yields_writeFile_indexes (blocks : w.volume.BlocksOwned)
    (before : ¬ (numOfDirectBlockPtr : Int) <
      (file.fileOffset.sdiv 512 + ((length - 1).sdiv 512 + 1)).toInt)
    {ks : List (Fin numOfDirectBlockPtr)}
    (indexes : writeIndexes file.fileOffset length =
      ks.map fun k : Fin numOfDirectBlockPtr => ((k : Nat) : Int)) :
    Yields (writeFile fileDesc pBuffer length) w (512 * ((length - 1).sdiv 512 + 1))
      (w.written ⟨fileDesc.toNat, bound⟩ file pBuffer ks
        (file.fileOffset + 512 * ((length - 1).sdiv 512 + 1))) := by
  have unchanged : w.volume.setInode file.inodeNum (w.volume.inode file.inodeNum) = w.volume := by
    simp only [Volume.setInode, update_eq_self]
  have loop := @yields_writeBlocks file.inodeNum valid pBuffer ks w
    (w.volume.inode file.inodeNum) 0#32 (by rwa [unchanged])
  simp only [unchanged] at loop
  obtain ⟨used, others⟩ := Volume.writeSteps_frame file.inodeNum pBuffer ks (w.volume, 0#32)
  refine (yields_descIndex bound w).bind ?_
  refine (yields_openFileOf opened).bind ?_
  refine (yields_getInode w valid).bind ?_
  dsimp only
  rw [if_neg before]
  rw [writeIndexes] at indexes
  rw [indexes]
  refine loop.bind ?_
  refine (yields_putInode _ valid _).bind ?_
  refine (yields_modifyInfo _ _).bind ?_
  refine (yields_writeInfo _).bind ?_
  refine (yields_setOffset _ file _ _).bind ?_
  rw [View.written, Volume.write]
  generalize ks.foldl (Volume.writeStep file.inodeNum pBuffer) (w.volume, 0#32) = acc at used others
  have restored : update w.volume.inode file.inodeNum (acc.1.inode file.inodeNum) =
      acc.1.inode := by
    funext m
    by_cases same : m = file.inodeNum
    · rw [same, update_self]
    · rw [update_of_ne same, others m same]
  simp only [restored]
  exact .pure _ _

variable {c : Nat} (inside : c ≤ 5) (offset : file.fileOffset = BitVec.ofNat 32 (512 * c))
  (positive : 1 ≤ length.toInt)

include inside offset positive

/-- `WriteFile` of more blocks than the file has room for. -/
theorem yields_writeFile_reject (tooLong : 5 < c + blockCount length) :
    Yields (writeFile fileDesc pBuffer length) w (-1) w := by
  have few := blockCount_lt positive
  refine yields_writeFile_beyond bound opened valid pBuffer ?_
  rw [offset, curIdx_eq inside, totalAllocCount_eq positive, ← BitVec.ofNat_add,
    toInt_ofNat_of_lt (by omega)]
  exact Int.ofNat_lt.mpr tooLong

omit opened valid in
/-- The blocks that `WriteFile` goes through when they fit. -/
theorem writeIndexes_eq (fits : c + blockCount length ≤ 5) : writeIndexes file.fileOffset length =
    (ptrRange c (blockCount length)).map fun k : Fin numOfDirectBlockPtr => ((k : Nat) : Int) := by
  have total : (BitVec.ofNat 32 c + BitVec.ofNat 32 (blockCount length)).toInt =
      ((c + blockCount length : Nat) : Int) := by
    rw [← BitVec.ofNat_add, toInt_ofNat_of_lt (by omega)]
  have count : (((c + blockCount length : Nat) : Int) - (c : Int)).toNat = blockCount length := by
    omega
  rw [writeIndexes, offset, curIdx_eq inside, totalAllocCount_eq positive, total,
    toInt_ofNat_of_lt (by omega), count, indexes_eq c inside _ (by omega) fits]

/-- `WriteFile` of blocks that fit. -/
theorem yields_writeFile (blocks : w.volume.BlocksOwned) (fits : c + blockCount length ≤ 5) :
    Yields (writeFile fileDesc pBuffer length) w (512 * BitVec.ofNat 32 (blockCount length))
      (w.written ⟨fileDesc.toNat, bound⟩ file pBuffer (ptrRange c (blockCount length))
        (BitVec.ofNat 32 (512 * (c + blockCount length)))) := by
  have total : (BitVec.ofNat 32 c + BitVec.ofNat 32 (blockCount length)).toInt =
      ((c + blockCount length : Nat) : Int) := by
    rw [← BitVec.ofNat_add, toInt_ofNat_of_lt (by omega)]
  have moved : BitVec.ofNat 32 (512 * c) + 512 * BitVec.ofNat 32 (blockCount length) =
      BitVec.ofNat 32 (512 * (c + blockCount length)) := by
    simp only [Nat.mul_add, BitVec.ofNat_add, BitVec.ofNat_mul, BitVec.ofNat_eq_ofNat]
  have before : ¬ (numOfDirectBlockPtr : Int) <
      (file.fileOffset.sdiv 512 + ((length - 1).sdiv 512 + 1)).toInt := by
    rw [offset, curIdx_eq inside, totalAllocCount_eq positive, total]
    exact mt Int.ofNat_lt.mp (Nat.not_lt.mpr fits)
  have run := yields_writeFile_indexes bound opened valid pBuffer blocks before
    (writeIndexes_eq inside offset positive fits)
  rwa [offset, totalAllocCount_eq positive, moved] at run

end Transfers

theorem exists_indexes {n : CInt} (valid : ValidInode n) (pBuffer : Chunk) (indexes : List Int) :
    ∀ {s s' : FileSys} {inode : Inode} {need : CInt} {r : Inode × CInt},
    (s.view.volume.setInode n inode).BlocksOwned →
    exec (indexes.foldlM (writeBlock pBuffer) (inode, need)) s = some (r, s') →
    ∃ ks : List (Fin numOfDirectBlockPtr),
      indexes = ks.map fun k : Fin numOfDirectBlockPtr => ((k : Nat) : Int) := by
  induction indexes with
  | nil => exact fun _ _ => ⟨[], rfl⟩
  | cons i indexes induction =>
      intro s s' inode need r blocks run
      rw [List.foldlM_cons] at run
      obtain ⟨acc, s₁, first, rest⟩ := exec_bind_eq_some run
      have inside : 0 ≤ i ∧ i < numOfDirectBlockPtr := by
        by_contra outside
        rw [writeBlock, writeBlockWith, liftM_eq, exec_bind, ptrIndex, dif_neg outside] at first
        exact absurd first (by simp)
      obtain ⟨k, rfl⟩ : ∃ k : Fin numOfDirectBlockPtr, ((k : Nat) : Int) = i :=
        ⟨⟨i.toNat, by omega⟩, by simp [inside.1]⟩
      obtain ⟨same, view⟩ := (yields_writeBlock blocks pBuffer need k).unique first
      have next : (Volume.writeStep n pBuffer
          (s.view.volume.setInode n inode, need) k).1.BlocksOwned :=
        Volume.BlocksOwned.writeStep valid blocks pBuffer k
      have blocks' : (s₁.view.volume.setInode n acc.1).BlocksOwned := by
        rw [view, same, setInode_writeStep]
        exact next
      obtain ⟨ks, rfl⟩ := induction blocks' rest
      exact ⟨k :: ks, rfl⟩

/-- Code that goes through a descriptor succeeds only if the descriptor refers to a file. -/
theorem exists_opened {α : Type} {fileDesc : CInt} {next : Fin maxFdEntryMax → File → FS α}
    {s s' : FileSys} {r : α}
    (run : exec (do
      let i ← descIndex fileDesc
      let file ← openFileOf i
      next i file) s = some (r, s')) :
    ∃ bound : fileDesc.toNat < maxFdEntryMax, ∃ file,
      s.view.opened ⟨fileDesc.toNat, bound⟩ file ∧
      exec (next ⟨fileDesc.toNat, bound⟩ file) s = some (r, s') := by
  by_cases bound : fileDesc.toNat < maxFdEntryMax
  · rw [descIndex, dif_pos bound, exec_bind, exec_pure, Option.bind_some, openFileOf, exec_bind,
      exec_bind, exec_get, Option.bind_some] at run
    cases pointer : (s.pFileDesc ⟨fileDesc.toNat, bound⟩).pOpenFile with
    | file file =>
        refine ⟨bound, file, pointer, ?_⟩
        simpa [pointer] using run
    | null => simp [pointer] at run
    | freed => simp [pointer] at run
  · rw [descIndex, dif_neg bound] at run
    simp at run

/-- What a `WriteFile` without undefined behaviour did. -/
theorem writeFile_view {fileDesc : CInt} {pBuffer : Chunk} {length : CInt} {s s' : FileSys}
    {r : CInt} (run : exec (writeFile fileDesc pBuffer length) s = some (r, s'))
    (blocks : s.view.volume.BlocksOwned)
    (valid : ∀ i file, s.view.opened i file → ValidInode file.inodeNum) :
    ∃ (i : Fin maxFdEntryMax) (file : File), (i : Nat) = fileDesc.toNat ∧ s.view.opened i file ∧
      (s'.view = s.view ∨
        ∃ ks fileOffset, s'.view = s.view.written i file pBuffer ks fileOffset) := by
  obtain ⟨bound, file, opened, rest⟩ := exists_opened (by rwa [writeFile] at run)
  refine ⟨_, file, rfl, opened, ?_⟩
  have inode := valid _ file opened
  by_cases beyond : (numOfDirectBlockPtr : Int) <
      (file.fileOffset.sdiv 512 + ((length - 1).sdiv 512 + 1)).toInt
  · have write := yields_writeFile_beyond bound opened inode pBuffer beyond
    exact Or.inl (write.unique run).2
  · obtain ⟨_, _, first, rest⟩ := exec_bind_eq_some rest
    obtain ⟨rfl, view⟩ := (yields_getInode s.view inode).unique first
    rw [if_neg beyond] at rest
    obtain ⟨acc, _, loop, _⟩ := exec_bind_eq_some rest
    obtain ⟨ks, indexes⟩ := exists_indexes inode pBuffer _ (by
      rw [view, Volume.setInode, update_eq_self]
      exact blocks) loop
    have write := yields_writeFile_indexes bound opened inode pBuffer blocks beyond indexes
    exact Or.inr ⟨ks, _, (write.unique run).2⟩

/-- A `ReadFile` without undefined behaviour moved the offset by one block. -/
theorem readFile_moves {fileDesc length : CInt} {s s' : FileSys} {r : CInt × List Byte}
    (run : exec (readFile fileDesc length) s = some (r, s'))
    (valid : ∀ i file, s.view.opened i file → ValidInode file.inodeNum) :
    length.toNat ≤ 512 ∧ ∃ (i : Fin maxFdEntryMax) (file : File),
      (i : Nat) = fileDesc.toNat ∧ s.view.opened i file ∧
      s'.view = { s.view with
        pFileDesc := moveOffset s.view.pFileDesc i file (file.fileOffset + 512) } := by
  obtain ⟨bound, file, opened, rest⟩ := exists_opened (by rwa [readFile] at run)
  obtain ⟨_, s₁, first, rest⟩ := exec_bind_eq_some rest
  obtain ⟨rfl, view⟩ := (yields_getInode s.view (valid _ file opened)).unique first
  rw [← view] at opened ⊢
  obtain ⟨k, s₂, index, rest⟩ := exec_bind_eq_some rest
  have same : s₁ = s₂ := by
    rw [ptrIndex] at index
    split_ifs at index
    · simp only [exec_pure, Option.some.injEq, Prod.mk.injEq] at index
      exact index.2
    · simp at index
  obtain ⟨pData, s₃, read, rest⟩ := exec_bind_eq_some rest
  have same' : s₂ = s₃ := by
    by_cases nonneg : 0 ≤ ((s.view.volume.inode file.inodeNum).dirBlockPtr k).toInt
    · rw [exec_bufRead nonneg] at read
      simp only [Option.some.injEq, Prod.mk.injEq] at read
      exact read.2
    · rw [exec_bufRead_of_neg nonneg] at read
      cases read
  subst same same'
  rw [setOffset, exec_bind, exec_modify, Option.bind_some] at rest
  split_ifs at rest with small
  · simp only [exec_pure, Option.some.injEq, Prod.mk.injEq] at rest
    refine ⟨small, _, file, rfl, opened, ?_⟩
    rw [← rest.2]
    rfl
  · simp at rest

/-- `ReadFile` moves the offset; what it reads from a hole is not on the volume. -/
theorem readFile_view {w : View} {fileDesc : CInt} (bound : fileDesc.toNat < maxFdEntryMax)
    {file : File} (opened : w.opened ⟨fileDesc.toNat, bound⟩ file)
    (blocks : w.volume.BlocksOwned) (valid : ValidInode file.inodeNum)
    (k : Fin numOfDirectBlockPtr) (offset : file.fileOffset = BitVec.ofNat 32 (512 * k))
    {length : CInt} (small : length.toNat ≤ 512) {s : FileSys} (view : s.view = w) :
    ∃ data s', exec (readFile fileDesc length) s =
        some ((512, (List.range length.toNat).map data), s') ∧
      s'.view = { w with
        pFileDesc := moveOffset w.pFileDesc ⟨fileDesc.toNat, bound⟩ file
          (BitVec.ofNat 32 (512 * (k + 1))) } ∧
      (w.volume.ptr (file.inodeNum, k) ≠ 0#32 →
        data = (w.volume.block (w.volume.ptr (file.inodeNum, k))).byteAt) := by
  subst view
  have small_k : (k : Nat) < 5 := k.isLt
  have index : file.fileOffset.sdiv 512 = BitVec.ofNat 32 k := by
    rw [offset, curIdx_eq (by omega)]
  have next : file.fileOffset + 512 = BitVec.ofNat 32 (512 * (k + 1)) := by
    rw [offset]
    simp only [Nat.mul_add, Nat.mul_one, BitVec.ofNat_add, BitVec.ofNat_eq_ofNat]
  have nonneg : 0 ≤ (s.view.volume.ptr (file.inodeNum, k)).toInt := by
    by_cases holds : s.view.volume.ptr (file.inodeNum, k) = 0#32
    · rw [holds]
      decide
    · exact (blocks.dataBlock holds).nonneg
  have opened_run : exec (openFileOf ⟨fileDesc.toNat, bound⟩) s = some (file, s) := by
    rw [openFileOf, exec_bind, exec_get, Option.bind_some,
      show (s.pFileDesc ⟨fileDesc.toNat, bound⟩).pOpenFile = .file file from opened]
    rfl
  have inode_run : exec (getInode file.inodeNum) s =
      some (s.view.volume.inode file.inodeNum, s) := exec_getInode valid s
  have ptr_run : exec (ptrIndex (BitVec.ofNat 32 (k : Nat)).toInt) s = some (k, s) := by
    rw [toInt_ofNat_of_lt (by omega), ptrIndex, dif_pos ⟨by omega, Int.ofNat_lt.mpr small_k⟩]
    rfl
  refine ⟨(s.disk (s.view.volume.ptr (file.inodeNum, k))).byteAt, { s with
    pFileDesc := moveOffset s.pFileDesc ⟨fileDesc.toNat, bound⟩ file
      (BitVec.ofNat 32 (512 * (k + 1))) }, ?_, rfl, fun holds => ?_⟩
  · rw [readFile, exec_bind, descIndex, dif_pos bound, exec_pure, Option.bind_some, exec_bind,
      opened_run, Option.bind_some, exec_bind, inode_run, Option.bind_some, index, exec_bind,
      ptr_run, Option.bind_some, exec_bind]
    change ((exec (bufRead (s.view.volume.ptr (file.inodeNum, k))) s).bind _) = _
    rw [exec_bufRead nonneg, Option.bind_some, exec_bind, setOffset, exec_modify, Option.bind_some,
      if_pos small, exec_pure, next]
    rfl
  · have shown : s.view.volume.block (s.view.volume.ptr (file.inodeNum, k)) =
        s.disk (s.view.volume.ptr (file.inodeNum, k)) := if_pos (blocks.dataBlock holds)
    rw [shown]

/-! ## Removing files -/

private theorem yields_releaseBlocks {n : CInt} : ∀ (ks : List (Fin numOfDirectBlockPtr)) {w : View}
    {inode : Inode} {v : Volume}, v.BlocksOwned → v.blockUsed = w.volume.blockUsed →
    (v.inode n).dirBlockPtr = inode.dirBlockPtr →
    Yields (ks.foldlM (fun inode i =>
      if inode.dirBlockPtr i ≠ 0#32 then do
        resetBlockBitmap (inode.dirBlockPtr i)
        return { inode with dirBlockPtr := update inode.dirBlockPtr i 0#32 }
      else
        return inode) inode) w
      { inode with dirBlockPtr := ((v.releasePtrs n ks).inode n).dirBlockPtr }
      { w with volume := { w.volume with blockUsed := (v.releasePtrs n ks).blockUsed } }
  | [], w, inode, v, _, used, ptrs => by
      simp only [Volume.releasePtrs, List.foldl_nil, used, ptrs]
      exact .pure _ w
  | k :: ks, w, inode, v, blocks, used, ptrs => by
      have pointer : v.ptr (n, k) = inode.dirBlockPtr k := congrFun ptrs k
      rw [List.foldlM_cons]
      by_cases holds : inode.dirBlockPtr k ≠ 0#32
      · have holds' : v.ptr (n, k) ≠ 0#32 := by rwa [pointer]
        have step : v.releasePtrs n (k :: ks) = (v.unassign n k).releasePtrs n ks := by
          rw [Volume.releasePtrs, List.foldl_cons, Volume.releasePtr, if_pos holds']
          rfl
        have data := blocks.dataBlock holds'
        rw [pointer] at data
        rw [if_pos holds, step]
        refine Yields.bind ((yields_resetBlockBitmap w data.2).bind (.pure _ _)) ?_
        refine yields_releaseBlocks ks (v := v.unassign n k) (blocks.unassign holds') ?_ ?_
        · simp [Volume.unassign, pointer, used]
        · simp [Volume.unassign, Inode.withoutBlock, ptrs]
      · have step : v.releasePtrs n (k :: ks) = v.releasePtrs n ks := by
          rw [Volume.releasePtrs, List.foldl_cons, Volume.releasePtr,
            if_neg (by rwa [pointer])]
          rfl
        rw [if_neg holds, step]
        exact (Yields.pure _ w).bind (yields_releaseBlocks ks blocks used ptrs)

private theorem release_eq (v : Volume) (n : CInt) : v.release n =
    { inodeUsed := update v.inodeUsed n false
      blockUsed := (v.releasePtrs n (List.finRange numOfDirectBlockPtr)).blockUsed
      inode := update v.inode n { v.inode n with
        allocBlocks := 0#32
        size := 0#32
        dirBlockPtr := fun _ => 0#32 }
      block := v.block } := by
  obtain ⟨used, block, others⟩ :=
    Volume.releasePtrs_frame (v := v) n (List.finRange numOfDirectBlockPtr)
  have inodes : update (v.releasePtrs n (List.finRange numOfDirectBlockPtr)).inode n
      { v.inode n with allocBlocks := 0#32, size := 0#32, dirBlockPtr := fun _ => 0#32 } =
      update v.inode n
        { v.inode n with allocBlocks := 0#32, size := 0#32, dirBlockPtr := fun _ => 0#32 } := by
    funext m
    by_cases same : m = n
    · rw [same, update_self, update_self]
    · rw [update_of_ne same, update_of_ne same, others m same]
  rw [Volume.release, Volume.markInode, Volume.setInode]
  simp only [used, block, inodes]

theorem yields_releaseInode {w : View} {n : CInt} (valid : ValidInode n)
    (blocks : w.volume.BlocksOwned) :
    Yields (releaseInode n (w.volume.inode n)) w ()
      { w with
        pFileSysInfo := { w.pFileSysInfo with
          numAllocInodes := w.pFileSysInfo.numAllocInodes - 1
          numAllocBlocks := w.pFileSysInfo.numAllocBlocks - 0#32
          numFreeBlocks := w.pFileSysInfo.numFreeBlocks + 0#32 }
        heap := fun n => w.heap (n + 1)
        volume := w.volume.release n } := by
  have loop := yields_releaseBlocks (n := n) (List.finRange numOfDirectBlockPtr) blocks rfl rfl
    (w := w)
  rw [Volume.dirBlockPtr_releasePtrs] at loop
  rw [release_eq]
  generalize (w.volume.releasePtrs n (List.finRange numOfDirectBlockPtr)).blockUsed = bits at loop ⊢
  refine Yields.bind loop ?_
  refine (yields_putInode _ valid _).bind ?_
  refine (yields_resetInodeBitmap _ valid).bind ?_
  refine (yields_modifyInfo _ _).bind ?_
  exact yields_writeInfo _

end KwHomework
