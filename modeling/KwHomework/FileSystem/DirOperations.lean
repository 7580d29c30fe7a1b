import KwHomework.FileSystem.Operations

/-!
# The operations on views: removal and directories

`MakeDir` is split into finding or adding room in the parent, creating a file there, and turning
the file into a directory; `RemoveDir` into removing a file and shrinking the parent.
-/

namespace KwHomework

open Function FS

/-! ## Volumes after an operation -/

namespace Volume

/-- An entry is cleared. -/
def dropEntry (v : Volume) (p : CInt) (s : Slot) : Volume :=
  v.fill (v.ptr (p, s.1)) ((v.block (v.ptr (p, s.1))).clearEntry s.2)

/-- A directory gets one more block, without entries. -/
def grow (v : Volume) (p : CInt) (k : Fin numOfDirectBlockPtr) : Volume :=
  (v.assign p k v.freeBlockNum).fill v.freeBlockNum fun _ => 0#8

/-- The inode that `MakeDir` stores. -/
def dirInode (b : CInt) : Inode where
  dirBlockPtr := update (fun _ => 0#32) 0 b
  type := fileTypeDir
  size := 512
  allocBlocks := 1

/-- A file becomes a directory below `p`. -/
def toDir (v : Volume) (n p : CInt) : Volume :=
  ((v.setInode n (dirInode v.freeBlockNum)).markBlock v.freeBlockNum true).fill v.freeBlockNum
    (newDirBlock (fun _ => 0#8) n p)

/-- The block `k` of a directory is released when all its inode numbers are 0. -/
def shrink (v : Volume) (p : CInt) (k : Fin numOfDirectBlockPtr) : Volume :=
  if ∀ j, (v.block (v.ptr (p, k))).entryInode j = 0#32 then v.unassign p k else v

theorem inode_shrink_of_ne {v : Volume} {p n : CInt} {k : Fin numOfDirectBlockPtr} (other : n ≠ p) :
    (v.shrink p k).inode n = v.inode n := by
  rw [shrink]
  split_ifs
  · simp [unassign, other]
  · rfl

private theorem BlocksOwned.shrink {v : Volume} (blocks : v.BlocksOwned) {p : CInt}
    {k : Fin numOfDirectBlockPtr} (holds : v.ptr (p, k) ≠ 0#32) : (v.shrink p k).BlocksOwned := by
  rw [Volume.shrink]
  split_ifs
  · exact blocks.unassign holds
  · exact blocks

end Volume

/-- Where `MakeDir` finds room: the first null pointer, or the first free slot before it. -/
def firstRoom (inode : Inode) (free : Slot → Bool) :
    Option (Fin numOfDirectBlockPtr × Option (Fin numOfDirentPerBlock)) :=
  (List.finRange numOfDirectBlockPtr).findSome? fun k =>
    if inode.dirBlockPtr k ≠ 0#32 then
      ((List.finRange numOfDirentPerBlock).find? fun j => free (k, j)).map fun j => (k, some j)
    else
      some (k, none)

section FirstRoom

variable {inode : Inode} {free : Slot → Bool} {k : Fin numOfDirectBlockPtr}

theorem firstRoom_slot {j : Fin numOfDirentPerBlock}
    (found : firstRoom inode free = some (k, some j)) :
    inode.dirBlockPtr k ≠ 0#32 ∧ free (k, j) = true := by
  obtain ⟨k', _, inner⟩ := List.exists_of_findSome?_eq_some found
  split_ifs at inner with holds
  · obtain ⟨j', scan, same⟩ := Option.map_eq_some_iff.mp inner
    simp only [Prod.mk.injEq, Option.some.injEq] at same
    obtain ⟨rfl, rfl⟩ := same
    have passes := List.find?_some scan
    exact ⟨holds, passes⟩
  · simp at inner

theorem firstRoom_grow (found : firstRoom inode free = some (k, none)) :
    inode.dirBlockPtr k = 0#32 := by
  obtain ⟨k', _, inner⟩ := List.exists_of_findSome?_eq_some found
  split_ifs at inner with holds
  · obtain ⟨j', _, same⟩ := Option.map_eq_some_iff.mp inner
    simp at same
  · simp only [Option.some.injEq, Prod.mk.injEq, and_true] at inner
    rw [← inner]
    exact not_not.mp holds

/-- The blocks before the room are there and full. -/
theorem firstRoom_first {o : Option (Fin numOfDirentPerBlock)}
    (found : firstRoom inode free = some (k, o)) {l : Fin numOfDirectBlockPtr} (before : l < k) :
    inode.dirBlockPtr l ≠ 0#32 ∧ ∀ j, free (l, j) = false := by
  rw [firstRoom, List.findSome?_eq_some_iff] at found
  obtain ⟨front, k', rest, all, inner, none⟩ := found
  obtain rfl : k' = k := by
    split_ifs at inner with holds
    · obtain ⟨_, _, same⟩ := Option.map_eq_some_iff.mp inner
      exact (Prod.mk.inj same).1
    · exact (Prod.mk.inj (Option.some.inj inner)).1
  have sorted : (front ++ k' :: rest).Pairwise (· < ·) := by
    rw [← all]
    exact List.pairwise_lt_finRange _
  have member : l ∈ front ++ k' :: rest := by
    rw [← all]
    exact List.mem_finRange l
  have front' : l ∈ front := by
    rcases List.mem_append.mp member with front' | rest'
    · exact front'
    · rcases List.mem_cons.mp rest' with rfl | rest'
      · exact absurd before (lt_irrefl l)
      · have later := (List.pairwise_cons.mp (List.pairwise_append.mp sorted).2.1).1 l rest'
        exact absurd (later.trans before) (lt_irrefl k')
  have scan := none l front'
  split_ifs at scan with holds
  rw [Option.map_eq_none_iff, List.find?_eq_none] at scan
  exact ⟨holds, fun j => by simpa using scan j (List.mem_finRange j)⟩

theorem firstRoom_eq_none_iff : firstRoom inode free = none ↔
    ∀ s : Slot, inode.dirBlockPtr s.1 ≠ 0#32 ∧ free s = false := by
  rw [firstRoom, List.findSome?_eq_none_iff]
  constructor
  · rintro none ⟨k, j⟩
    have inner := none k (List.mem_finRange k)
    split_ifs at inner with holds
    rw [Option.map_eq_none_iff, List.find?_eq_none] at inner
    exact ⟨holds, by simpa using inner j (List.mem_finRange j)⟩
  · intro none k _
    rw [if_pos (none (k, 0)).1, Option.map_eq_none_iff, List.find?_eq_none]
    exact fun j _ => by simp [(none (k, j)).2]

end FirstRoom

namespace Volume

/-- Where `MakeDir` finds room in a directory. -/
def room (v : Volume) (p : CInt) :
    Option (Fin numOfDirectBlockPtr × Option (Fin numOfDirentPerBlock)) :=
  firstRoom (v.inode p) fun s => (v.entry p s).name = []

/-- The volume with room for an entry, and its slot. -/
def makeRoom (v : Volume) (p : CInt) :
    Fin numOfDirectBlockPtr × Option (Fin numOfDirentPerBlock) → Volume × Slot
  | (k, some j) => (v, (k, j))
  | (k, none) => (v.grow p k, (k, 0))

/-- What `MakeDir` does when it finds room. -/
def makeDir (v : Volume) (p : CInt) (x : List Byte)
    (r : Fin numOfDirectBlockPtr × Option (Fin numOfDirentPerBlock)) : Volume :=
  (((v.makeRoom p r).1.putEntry p (v.makeRoom p r).2 v.freeInodeNum x).newFile
    v.freeInodeNum).toDir v.freeInodeNum p

/-- What `RemoveDir` does to the entry in a slot and to its target. -/
def removeDir (v : Volume) (p : CInt) (s : Slot) (n : CInt) : Volume :=
  ((v.dropEntry p s).shrink p s.1).release n

end Volume

/-- `*pFileSysInfo` after a removal: the blocks are counted after they were released. -/
def FileSysInfo.released (info : FileSysInfo) : FileSysInfo :=
  { info with
    numAllocInodes := info.numAllocInodes - 1
    numAllocBlocks := info.numAllocBlocks - 0#32
    numFreeBlocks := info.numFreeBlocks + 0#32 }

/-- `*pFileSysInfo` after `MakeDir`, which does not count a block added to the parent. -/
def FileSysInfo.dirMade (info : FileSysInfo) : FileSysInfo :=
  { info with
    numAllocBlocks := info.numAllocBlocks + 1
    numFreeBlocks := info.numFreeBlocks - 1
    numAllocInodes := info.numAllocInodes + 1 }

private theorem yields_scanSlots {w : View} (blocks : w.volume.BlocksOwned) (p : CInt) :
    Yields (scanSlots (w.volume.inode p)) w ((w.volume.room p).map fun r =>
      (r.1, r.2.map fun j => (w.volume.block (w.volume.ptr (p, r.1)), j))) w := by
  have outer : (w.volume.room p).map (fun r =>
      (r.1, r.2.map fun j => (w.volume.block (w.volume.ptr (p, r.1)), j))) =
      (List.finRange numOfDirectBlockPtr).findSome? fun k =>
        if w.volume.ptr (p, k) ≠ 0#32 then
          ((List.finRange numOfDirentPerBlock).find? fun j =>
            decide ((w.volume.entry p (k, j)).name = [])).map fun j =>
              (k, some (w.volume.block (w.volume.ptr (p, k)), j))
        else
          some (k, none) := by
    rw [Volume.room, firstRoom, List.map_findSome?]
    congr 1
    funext k
    simp only [comp_apply, apply_ite (Option.map _), Option.map_some, Option.map_none,
      Option.map_map]
    rfl
  rw [outer]
  refine yields_findSomeM? fun k _ => ?_
  by_cases holds : w.volume.ptr (p, k) ≠ 0#32
  · rw [if_pos holds]
    refine Eq.subst (motive := fun code => Yields code w _ w) (if_pos holds).symm ?_
    refine (yields_bufRead (blocks.dataBlock holds) w).bind ?_
    have inner : isFree (w.volume.block (w.volume.ptr (p, k))) =
        fun j => pure (decide ((w.volume.entry p (k, j)).name = [])) := by
      funext j
      rw [isFree]
      exact congrArg some (decide_eq_decide.mpr (Block.nameOf_eq_nil_iff _ j).symm)
    rw [inner, List.findM?_pure]
    exact (yields_defined _ w).bind (.pure _ w)
  · rw [if_neg holds]
    refine Eq.subst (motive := fun code => Yields code w _ w) (if_neg holds).symm ?_
    exact .pure _ w

/-! ## The end of `MakeDir` -/

private theorem newFile_toDir (v : Volume) (n p : CInt) : (v.newFile n).toDir n p =
    { inodeUsed := update v.inodeUsed n true
      blockUsed := update v.blockUsed v.freeBlockNum true
      inode := update v.inode n (Volume.dirInode v.freeBlockNum)
      block := update v.block v.freeBlockNum (newDirBlock (fun _ => 0#8) n p) } := by
  have number : (v.newFile n).freeBlockNum = v.freeBlockNum := Volume.freeBlockNum_congr rfl
  rw [Volume.toDir, number]
  simp only [Volume.newFile, Volume.setInode, Volume.markInode, Volume.markBlock, Volume.fill,
    update_idem]

private theorem yields_newDir {w : View} {n : CInt} (p : CInt) (valid : ValidInode n)
    (blocks : w.volume.BlocksOwned) (zero : w.heap = fun _ _ => 0#8) :
    Yields (do
      let blkNo ← getFreeBlockNum
      let cData ← malloc
      bufWrite blkNo (newDirBlock cData n p)
      let _ ← getInode n
      putInode n {
        dirBlockPtr := update (fun _ => 0#32) 0 blkNo
        type := fileTypeDir
        size := 512
        allocBlocks := 1 }
      setBlockBitmap blkNo
      setInodeBitmap n
      modifyInfo fun info => { info with
        numAllocBlocks := info.numAllocBlocks + 1
        numFreeBlocks := info.numFreeBlocks - 1
        numAllocInodes := info.numAllocInodes + 1 }
      writeInfo
      return (none : Option CInt)) w none
      { w with
        pFileSysInfo := w.pFileSysInfo.dirMade
        volume := (w.volume.newFile n).toDir n p } := by
  have data := blocks.freeBlockNum.1
  rw [newFile_toDir]
  obtain ⟨⟨fds, info, heap⟩, v⟩ := w
  obtain rfl : heap = fun _ _ => 0#8 := zero
  refine (yields_getFreeBlockNum _).bind ?_
  refine (yields_malloc _).bind ?_
  refine (yields_bufWrite data _ _).bind ?_
  refine (yields_getInode _ valid).bind ?_
  refine (yields_putInode _ valid _).bind ?_
  refine (yields_setBlockBitmap _ data.2).bind ?_
  refine (yields_setInodeBitmap _ valid).bind ?_
  refine (yields_modifyInfo _ _).bind ?_
  refine (yields_writeInfo _).bind ?_
  exact .pure _ _

private theorem grow_putEntry (v : Volume) (p : CInt) (k : Fin numOfDirectBlockPtr) (n : CInt)
    (x : List Byte) : (v.grow p k).putEntry p (k, 0) n x =
      (v.assign p k v.freeBlockNum).fill v.freeBlockNum
        (Block.setEntry (fun _ => 0#8) 0 n (cString x)) := by
  have pointer : (v.grow p k).ptr (p, k) = v.freeBlockNum := by
    rw [Volume.grow, Volume.ptr_fill, Volume.ptr_assign, update_self]
  rw [Volume.putEntry, pointer, Volume.grow]
  simp only [Volume.fill, update_self, update_idem]

/-! ## Removing a file -/

/-- What `RemoveFile` does once it has the entry. -/
theorem yields_dropFile {w : View} (blocks : w.volume.BlocksOwned) {b n : CInt} (data : DataBlock b)
    (contents : Block) (valid : ValidInode n) :
    Yields (do
      bufWrite b contents
      let fileInode ← getInode n
      releaseInode n fileInode
      return (1 : CInt)) w 1
      { w with
        pFileSysInfo := w.pFileSysInfo.released
        heap := fun k => w.heap (k + 1)
        volume := (w.volume.fill b contents).release n } := by
  refine (yields_bufWrite data _ _).bind ?_
  refine (yields_getInode _ valid).bind ?_
  have last := yields_releaseInode (w := { w with volume := w.volume.fill b contents }) valid
    (blocks.fill _ _)
  exact last.bind (.pure _ _)

section Paths

variable {w : View} (ok : w.volume.Searchable) {path : Path} {dirs : List (List Byte)}
  {x : List Byte} {p : CInt} (tokens : path.tokens = dirs ++ [x])
  (leads : w.volume.tree.Leads 0#32 dirs p) (dir : w.volume.IsDir p)

include ok tokens leads dir

/-- `RemoveFile` of an existing entry. -/
theorem yields_removeFile {s : Slot} {n : CInt} (entry : w.volume.tree.slot p s = some (x, n)) :
    Yields (removeFile path) w 1
      { w with
        pFileSysInfo := w.pFileSysInfo.released
        heap := fun n => w.heap (n + 2)
        volume := (w.volume.dropEntry p s).release n } := by
  obtain ⟨_, holds, _, same⟩ := Volume.slot_eq_some.mp entry
  have spells := fun dst => spells_sprintf dst (path.tokens_spec x (by simp [tokens])).2
  have target : (w.volume.block (w.volume.ptr (p, s.1))).entryInode s.2 = n :=
    congrArg Block.Entry.inodeNum same
  have valid : ValidInode n := ok.used_valid n (ok.used_target entry)
  refine (yields_malloc w).bind ?_
  refine (yields_getDirPos (w := w.pop) ok tokens leads _).bind ?_
  refine (yields_getInode _ (ok.used_valid p dir.1)).bind ?_
  refine (yields_findName (w := w.pop) ok dir (spells _)).bind ?_
  simp only [ok.lookup_of_slot entry, Option.map_some, target]
  exact yields_dropFile (w := w.pop) ok.blocks (ok.blocks.dataBlock holds) _ valid

/-! ## Making a directory -/

theorem yields_makeDir {r : Fin numOfDirectBlockPtr × Option (Fin numOfDirentPerBlock)}
    (zero : w.heap = fun _ _ => 0#8) (room : w.volume.room p = some r)
    (free : ∃ n, ValidInode n ∧ w.volume.inodeUsed n = false) :
    Yields (makeDir path) w none
      { w with
        pFileSysInfo := w.pFileSysInfo.dirMade
        volume := w.volume.makeDir p x r } := by
  obtain ⟨valid, _⟩ := Volume.freeInodeNum_spec free
  have dir_valid := ok.used_valid p dir.1
  obtain ⟨⟨fds, info, heap⟩, v⟩ := w
  obtain rfl : heap = fun _ _ => 0#8 := zero
  refine (yields_getFreeInodeNum _).bind ?_
  refine (yields_malloc _).bind ?_
  refine (yields_getDirPos ok tokens leads _).bind ?_
  refine (yields_getInode _ dir_valid).bind ?_
  refine (yields_scanSlots ok.blocks p).bind ?_
  rw [room]
  obtain ⟨k, _ | j⟩ := r
  · simp only [Option.map_some, Option.map_none]
    have data := ok.blocks.freeBlockNum
    have grown := ((ok.blocks.assign dir_valid data.1 data.2 (firstRoom_grow room)).fill
      v.freeBlockNum (Block.setEntry (fun _ => 0#8) 0 v.freeInodeNum (cString x)))
    simp only [setEntry_sprintf, Volume.makeDir, Volume.makeRoom, grow_putEntry]
    refine (yields_getFreeBlockNum _).bind ?_
    refine (yields_malloc _).bind ?_
    refine (yields_bufWrite data.1 _ _).bind ?_
    refine (yields_putInode _ dir_valid _).bind ?_
    refine (yields_setBlockBitmap _ data.1.2).bind ?_
    exact yields_newDir p valid grown (w := ⟨⟨fds, info, fun _ _ => 0#8⟩, _⟩) rfl
  · simp only [Option.map_some]
    obtain ⟨holds, _⟩ := firstRoom_slot room
    rw [setEntry_sprintf]
    refine (yields_bufWrite (ok.blocks.dataBlock holds) _ _).bind ?_
    exact yields_newDir p valid (ok.blocks.fill _ _) (w := ⟨⟨fds, info, fun _ _ => 0#8⟩, _⟩) rfl

/-- `MakeDir` in a full directory. -/
theorem yields_makeDir_full (full : w.volume.room p = none) :
    Yields (makeDir path) w (some (-1)) { w with heap := fun n => w.heap (n + 1) } := by
  refine (yields_getFreeInodeNum w).bind ?_
  refine (yields_malloc w).bind ?_
  refine (yields_getDirPos (w := w.pop) ok tokens leads _).bind ?_
  refine (yields_getInode _ (ok.used_valid p dir.1)).bind ?_
  refine (yields_scanSlots (w := w.pop) ok.blocks p).bind ?_
  simp only [full, Option.map_none]
  exact .pure _ _

end Paths

/-! ## Removing a directory -/

section RemoveDir

variable {w : View} {p : CInt} {x : List Byte}

/-- Nothing in a directory without proper entries stops `RemoveDir`. -/
theorem yields_scanOccupied (blocks : w.volume.BlocksOwned) (dir : w.volume.IsDir p)
    (empty : ∀ {s y m}, w.volume.tree.slot p s = some (y, m) → y = dot ∨ y = dotDot) :
    Yields (scanEntries (w.volume.inode p) isOccupied) w none w := by
  have scan := @yields_scanEntries (w.volume.inode p) w isOccupied
    (fun s => !((w.volume.block (w.volume.ptr (p, s.1))).nameByte s.2 0 = 46#8 ||
      (w.volume.block (w.volume.ptr (p, s.1))).nameByte s.2 0 = 0#8))
    (fun _ holds => blocks.dataBlock holds) fun _ _ _ => rfl
  rw [firstSlot_eq_none_iff.mpr] at scan
  · exact scan
  · intro s holds
    by_cases named : (w.volume.entry p s).name = []
    · have zero := (Block.nameOf_eq_nil_iff _ _).mp named
      simp [zero]
    · have special := empty (Volume.slot_eq_some.mpr ⟨dir, holds, named, rfl⟩)
      have first : (w.volume.entry p s).name.head? = some 46#8 := by
        rcases special with same | same
        · rw [same]
          rfl
        · rw [same]
          rfl
      rw [show (w.volume.entry p s).name.head? = _ from Block.head?_nameOf _ _] at first
      split_ifs at first with zero
      simp [Option.some.inj first]

/-- No other slot of the parent holds the number of a directory without proper entries. -/
private theorem yields_scanNames (ok : w.volume.Consistent) {s : Slot} {n : CInt}
    (entry : w.volume.tree.slot p s = some (x, n)) (proper : x ≠ dot ∧ x ≠ dotDot)
    (empty : ∀ {s y m}, w.volume.tree.slot n s = some (y, m) → y = dot ∨ y = dotDot) :
    Yields (scanEntries (w.volume.inode p) (namesInode n)) w
      (some (s.1, w.volume.block (w.volume.ptr (p, s.1)), s.2)) w := by
  obtain ⟨dir, holds, _, same⟩ := Volume.slot_eq_some.mp entry
  obtain ⟨notRoot, notSelf⟩ := ok.tree.proper_ne entry proper.1 proper.2
  have scan := @yields_scanEntries (w.volume.inode p) w (namesInode n)
    (fun s => decide ((w.volume.entry p s).inodeNum = n))
    (fun _ holds => ok.blocks.dataBlock holds) fun _ _ _ => rfl
  rw [firstSlot_eq_of_unique (s := s) holds (by simp [same])] at scan
  · exact scan
  · intro s' holds' passes
    have target : (w.volume.entry p s').inodeNum = n := by simpa using passes
    by_cases named : (w.volume.entry p s').name = []
    · exact absurd (target.symm.trans ((ok.names p s' dir holds').2 named)) notRoot
    · have entry' : w.volume.tree.slot p s' = some ((w.volume.entry p s').name, n) :=
        Volume.slot_eq_some.mpr ⟨dir, holds', named, by rw [← target]⟩
      by_cases isDot : (w.volume.entry p s').name = dot
      · exact absurd (ok.tree.dot_self (isDot ▸ entry')) notSelf
      · by_cases isDotDot : (w.volume.entry p s').name = dotDot
        · obtain ⟨y, ne, ne', s'', refers⟩ := ok.tree.dotDot_parent (isDotDot ▸ entry')
          exact ((empty refers).elim ne ne').elim
        · exact (ok.tree.unique entry' isDot isDotDot entry proper.1 proper.2).2

private theorem yields_shrinkParent {k : Fin numOfDirectBlockPtr} (valid : ValidInode p)
    (data : DataBlock (w.volume.ptr (p, k))) :
    Yields (shrinkParent p (w.volume.inode p) k (w.volume.block (w.volume.ptr (p, k)))) w ()
      { w with volume := w.volume.shrink p k } := by
  rw [shrinkParent, Volume.shrink]
  split_ifs
  · refine (yields_resetBlockBitmap w data.2).bind ?_
    exact yields_putInode _ valid _
  · exact .pure _ _

/-- `RemoveDir` of a directory that holds the special entries only. -/
theorem yields_removeDir (ok : w.volume.Consistent) {path : Path} {dirs : List (List Byte)}
    (tokens : path.tokens = dirs ++ [x]) (leads : w.volume.tree.Leads 0#32 dirs p)
    (dir : w.volume.IsDir p) {s : Slot} {n : CInt}
    (entry : w.volume.tree.slot p s = some (x, n)) (proper : x ≠ dot ∧ x ≠ dotDot)
    (dir' : w.volume.IsDir n)
    (empty : ∀ {s y m}, w.volume.tree.slot n s = some (y, m) → y = dot ∨ y = dotDot) :
    Yields (removeDir path) w none
      { w with
        pFileSysInfo := w.pFileSysInfo.released
        heap := fun n => w.heap (n + 2)
        volume := w.volume.removeDir p s n } := by
  obtain ⟨_, holds, _, same⟩ := Volume.slot_eq_some.mp entry
  have spells := fun dst => spells_sprintf dst (path.tokens_spec x (by simp [tokens])).2
  have target : (w.volume.block (w.volume.ptr (p, s.1))).entryInode s.2 = n :=
    congrArg Block.Entry.inodeNum same
  have valid : ValidInode n := ok.used_valid n dir'.1
  have dir_valid := ok.used_valid p dir.1
  have notParent := (ok.tree.proper_ne entry proper.1 proper.2).2
  have dropped : (w.volume.dropEntry p s).BlocksOwned := ok.blocks.fill _ _
  refine (yields_malloc w).bind ?_
  refine (yields_getDirPos (w := w.pop) ok.searchable tokens leads _).bind ?_
  refine (yields_getInode _ dir_valid).bind ?_
  refine (yields_findName (w := w.pop) ok.searchable dir (spells _)).bind ?_
  simp only [ok.searchable.lookup_of_slot entry, Option.map_some, target]
  refine (yields_getInode _ valid).bind ?_
  refine (yields_scanOccupied (w := w.pop) ok.blocks dir' empty).bind ?_
  refine (yields_scanNames (w := w.pop) ok entry proper empty).bind ?_
  refine (yields_bufWrite (ok.blocks.dataBlock holds) _ _).bind ?_
  have cleared : (w.volume.dropEntry p s).block (w.volume.ptr (p, s.1)) =
      (w.volume.block (w.volume.ptr (p, s.1))).clearEntry s.2 := by
    rw [Volume.dropEntry, Volume.block_fill, update_self]
  have shrunk := yields_shrinkParent (w := { w.pop with volume := w.volume.dropEntry p s })
    (k := s.1) dir_valid (ok.blocks.dataBlock holds)
  change Yields (shrinkParent p (w.volume.inode p) s.1
    ((w.volume.dropEntry p s).block (w.volume.ptr (p, s.1)))) _ _ _ at shrunk
  rw [cleared] at shrunk
  refine Yields.bind shrunk ?_
  have unchanged : ((w.volume.dropEntry p s).shrink p s.1).inode n = w.volume.inode n :=
    Volume.inode_shrink_of_ne (v := w.volume.dropEntry p s) notParent
  have last := yields_releaseInode
    (w := { w.pop with volume := (w.volume.dropEntry p s).shrink p s.1 }) valid
    (dropped.shrink holds)
  change Yields (releaseInode n (((w.volume.dropEntry p s).shrink p s.1).inode n)) _ _ _ at last
  rw [unchanged] at last
  exact last.bind (.pure _ _)

end RemoveDir

end KwHomework
