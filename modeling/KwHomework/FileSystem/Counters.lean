import KwHomework.FileSystem.Naming
import KwHomework.FileSystem.Removal

/-!
# Counters and bitmaps

`*pFileSysInfo` counts the blocks and inodes that the bitmaps mark.  `MakeDir` does not count the
block it adds to the parent, and the removals count blocks after they have cleared their number.
-/

namespace KwHomework

open Function FS

namespace Volume

/-- The data blocks, in order. -/
def dataBlocks : List CInt := (List.range' 7 505).map (BitVec.ofNat 32)

/-- The inode numbers, in order. -/
def inodeNums : List CInt := (List.range 64).map (BitVec.ofNat 32)

/-- The number of set block-bitmap bits in 7..511. -/
def numUsedBlocks (v : Volume) : Nat := dataBlocks.countP v.blockUsed

/-- The number of set inode-bitmap bits. -/
def numUsedInodes (v : Volume) : Nat := inodeNums.countP v.inodeUsed

end Volume

/-- The counters change as the numbers of set bits do. -/
structure View.Counted (w w' : View) : Prop where
  allocBlocks : w'.pFileSysInfo.numAllocBlocks - w.pFileSysInfo.numAllocBlocks =
    BitVec.ofNat 32 w'.volume.numUsedBlocks - BitVec.ofNat 32 w.volume.numUsedBlocks
  freeBlocks : w'.pFileSysInfo.numFreeBlocks - w.pFileSysInfo.numFreeBlocks =
    BitVec.ofNat 32 w.volume.numUsedBlocks - BitVec.ofNat 32 w'.volume.numUsedBlocks
  allocInodes : w'.pFileSysInfo.numAllocInodes - w.pFileSysInfo.numAllocInodes =
    BitVec.ofNat 32 w'.volume.numUsedInodes - BitVec.ofNat 32 w.volume.numUsedInodes

/-- The path names an entry of an existing directory. -/
structure NamesOld (v : Volume) (path : Path) (p : CInt) (x : List Byte) (n : CInt) : Prop where
  parent : ∃ dirs, path.tokens = dirs ++ [x] ∧ v.tree.Leads 0#32 dirs p
  refers : v.tree.Refers p x n

/-- A call that allocates or frees, used as it should be. -/
def Call.Allocates (w : View) : Call → Prop
  | .createFile path | .makeDir path => ∃ p x, NewName w.volume path p x
  | .writeFile fd _ length => w.Opened fd ∧ 1 ≤ length.toInt
  | .removeFile path => ∃ p x n, NamesOld w.volume path p x n ∧ w.volume.IsFile n ∧ w.Closed n
  | .removeDir path => ∃ p x n, NamesOld w.volume path p x n ∧ w.volume.IsDir n ∧ n ≠ 0#32 ∧
      ∀ y m, w.volume.tree.Refers n y m → y = dot ∨ y = dotDot
  | _ => False

/-- The call is successful; `MakeDir` and `RemoveDir` then fall off their end. -/
def Call.Succeeds (s s' : FileSys) : Call → Prop
  | .createFile path => ∃ r, r ≠ -1 ∧ exec (FS.createFile path) s = some (r, s')
  | .makeDir path => exec (FS.makeDir path) s = some (none, s')
  | .writeFile fd pBuffer length => ∃ r, r ≠ -1 ∧
    exec (FS.writeFile fd pBuffer length) s = some (r, s')
  | .removeFile path => ∃ r, r ≠ -1 ∧ exec (FS.removeFile path) s = some (r, s')
  | .removeDir path => exec (FS.removeDir path) s = some (none, s')
  | _ => False

/-- `MakeDir` finds a free slot before the first null pointer of the parent, `RemoveFile` removes a
file without blocks, and `RemoveDir` is not called. -/
def Call.CountsRight (w : View) : Call → Prop
  | .makeDir path => ∀ p x, NewName w.volume path p x → ∃ k j, w.volume.room p = some (k, some j)
  | .removeFile path => ∀ p x n, NamesOld w.volume path p x n → ∀ k, w.volume.ptr (n, k) = 0#32
  | .removeDir _ => False
  | _ => True

/-! ## The numbers of set bits -/

namespace Volume

variable {v v' : Volume} {n p b : CInt}

theorem mem_dataBlocks : b ∈ dataBlocks ↔ DataBlock b := by
  rw [dataBlocks, List.mem_map]
  constructor
  · rintro ⟨i, member, rfl⟩
    rw [List.mem_range'_1] at member
    rw [DataBlock, BitVec.toNat_ofNat]
    omega
  · rintro ⟨low, high⟩
    exact ⟨b.toNat, List.mem_range'_1.mpr (by omega), by simp⟩

theorem mem_inodeNums : n ∈ inodeNums ↔ ValidInode n := by
  rw [inodeNums, List.mem_map]
  constructor
  · rintro ⟨i, member, rfl⟩
    rw [List.mem_range] at member
    rw [ValidInode, BitVec.toNat_ofNat]
    omega
  · intro valid
    exact ⟨n.toNat, List.mem_range.mpr valid, by simp⟩

private theorem nodup_map_ofNat {l : List Nat} (nodup : l.Nodup) (small : ∀ i ∈ l, i < 512) :
    (l.map (BitVec.ofNat 32)).Nodup := by
  refine nodup.map_on fun i inside j inside' same => ?_
  have equal := congrArg BitVec.toNat same
  have bound := small i inside
  have bound' := small j inside'
  rw [BitVec.toNat_ofNat, BitVec.toNat_ofNat] at equal
  omega

theorem nodup_dataBlocks : dataBlocks.Nodup :=
  nodup_map_ofNat List.nodup_range' fun i member => by
    rw [List.mem_range'_1] at member
    omega

theorem nodup_inodeNums : inodeNums.Nodup :=
  nodup_map_ofNat List.nodup_range fun i member => by
    rw [List.mem_range] at member
    omega

private theorem numUsedBlocks_congr (same : v'.blockUsed = v.blockUsed) :
    v'.numUsedBlocks = v.numUsedBlocks := by
  rw [numUsedBlocks, numUsedBlocks, same]

private theorem numUsedInodes_congr (same : v'.inodeUsed = v.inodeUsed) :
    v'.numUsedInodes = v.numUsedInodes := by
  rw [numUsedInodes, numUsedInodes, same]

private theorem numUsedBlocks_mark (data : DataBlock b) (unused : v.blockUsed b = false)
    (marked : v'.blockUsed = update v.blockUsed b true) :
    v'.numUsedBlocks = v.numUsedBlocks + 1 := by
  rw [numUsedBlocks, numUsedBlocks, marked]
  exact countP_mark nodup_dataBlocks (mem_dataBlocks.mpr data) unused

theorem numUsedInodes_mark (valid : ValidInode n) (unused : v.inodeUsed n = false)
    (marked : v'.inodeUsed = update v.inodeUsed n true) :
    v'.numUsedInodes = v.numUsedInodes + 1 := by
  rw [numUsedInodes, numUsedInodes, marked]
  exact countP_mark nodup_inodeNums (mem_inodeNums.mpr valid) unused

private theorem numUsedInodes_unmark (valid : ValidInode n) (used : v.inodeUsed n = true)
    (unmarked : v'.inodeUsed = update v.inodeUsed n false) :
    v'.numUsedInodes + 1 = v.numUsedInodes := by
  have same : v.inodeUsed = update v'.inodeUsed n true := by
    rw [unmarked, update_idem, ← used, update_eq_self]
  exact (numUsedInodes_mark valid (by rw [unmarked, update_self]) same).symm

private theorem numUsedBlocks_lt (fewer : ∀ b, v'.blockUsed b = true → v.blockUsed b = true)
    (data : DataBlock b) (marked : v.blockUsed b = true) (cleared : v'.blockUsed b = false) :
    v'.numUsedBlocks < v.numUsedBlocks :=
  countP_lt (fun d _ => fewer d) (mem_dataBlocks.mpr data) marked cleared

private theorem numUsedBlocks_le (v : Volume) : v.numUsedBlocks ≤ 505 := by
  refine List.countP_le_length.trans_eq ?_
  rw [dataBlocks, List.length_map, List.length_range']

/-! ### Growing -/

private theorem BlocksOwned.numUsedBlocks_assign (blocks : v.BlocksOwned) (n : CInt)
    (k : Fin numOfDirectBlockPtr) :
    (v.assign n k v.freeBlockNum).numUsedBlocks = v.numUsedBlocks + 1 :=
  numUsedBlocks_mark blocks.freeBlockNum.1 blocks.freeBlockNum.2 rfl

theorem numUsedBlocks_writeSteps (valid : ValidInode n) (pBuffer : Chunk)
    (ks : List (Fin numOfDirectBlockPtr)) : ∀ {acc : Volume × CInt}, acc.1.BlocksOwned →
    (ks.foldl (writeStep n pBuffer) acc).2 + BitVec.ofNat 32 acc.1.numUsedBlocks =
      acc.2 + BitVec.ofNat 32 (ks.foldl (writeStep n pBuffer) acc).1.numUsedBlocks := by
  induction ks with
  | nil => exact fun _ => rfl
  | cons k ks induction =>
      intro acc blocks
      have rest := induction (blocks.writeStep valid pBuffer k)
      have step : (writeStep n pBuffer acc k).2 + BitVec.ofNat 32 acc.1.numUsedBlocks =
          acc.2 + BitVec.ofNat 32 (writeStep n pBuffer acc k).1.numUsedBlocks := by
        by_cases empty : acc.1.ptr (n, k) = 0#32
        · have used : (writeStep n pBuffer acc k).1.numUsedBlocks =
              (acc.1.assign n k acc.1.freeBlockNum).numUsedBlocks := by
            apply numUsedBlocks_congr
            rw [writeStep, if_pos empty]
            rfl
          rw [used, blocks.numUsedBlocks_assign n k, writeStep, if_pos empty, BitVec.ofNat_add]
          bv_omega
        · rw [writeStep, if_neg empty]
          rfl
      rw [List.foldl_cons]
      bv_omega

private theorem BlocksOwned.numUsedBlocks_write (blocks : v.BlocksOwned) (valid : ValidInode n)
    (pBuffer : Chunk) (ks : List (Fin numOfDirectBlockPtr)) : (v.write n pBuffer ks).2 =
      BitVec.ofNat 32 (v.write n pBuffer ks).1.numUsedBlocks - BitVec.ofNat 32 v.numUsedBlocks := by
  have loop := @numUsedBlocks_writeSteps _ valid pBuffer ks (v, 0#32) blocks
  rw [write]
  bv_omega

private theorem BlocksOwned.numUsedBlocks_toDir (blocks : v.BlocksOwned) (n p : CInt) :
    (v.toDir n p).numUsedBlocks = v.numUsedBlocks + 1 :=
  numUsedBlocks_mark blocks.freeBlockNum.1 blocks.freeBlockNum.2 rfl

/-- `MakeDir` marks one block, or two if the parent grows. -/
theorem BlocksOwned.numUsedBlocks_makeDir (blocks : v.BlocksOwned) (valid : ValidInode p)
    {x : List Byte} {r : Fin numOfDirectBlockPtr × Option (Fin numOfDirentPerBlock)}
    (room : v.room p = some r) : (v.makeDir p x r).numUsedBlocks =
      v.numUsedBlocks + if r.2 = none then 2 else 1 := by
  obtain ⟨k, _ | j⟩ := r
  · have empty := firstRoom_grow room
    have grown : (v.grow p k).BlocksOwned :=
      (blocks.assign valid blocks.freeBlockNum.1 blocks.freeBlockNum.2 empty).fill _ _
    have entered := BlocksOwned.newFile (v := (v.grow p k).putEntry p (k, 0) v.freeInodeNum x)
      (grown.fill _ _) v.freeInodeNum
    have used : (((v.grow p k).putEntry p (k, 0) v.freeInodeNum x).newFile
        v.freeInodeNum).numUsedBlocks = (v.assign p k v.freeBlockNum).numUsedBlocks :=
      numUsedBlocks_congr rfl
    have more := blocks.numUsedBlocks_assign p k
    rw [makeDir, makeRoom, entered.numUsedBlocks_toDir, used, more, if_pos rfl]
  · have entered := BlocksOwned.newFile (v := v.putEntry p (k, j) v.freeInodeNum x)
      (blocks.fill _ _) v.freeInodeNum
    have used : ((v.putEntry p (k, j) v.freeInodeNum x).newFile v.freeInodeNum).numUsedBlocks =
        v.numUsedBlocks := numUsedBlocks_congr rfl
    rw [makeDir, makeRoom, entered.numUsedBlocks_toDir, used, if_neg (by simp)]

/-! ### Releasing -/

private theorem numUsedBlocks_release_of_null (null : ∀ k, v.ptr (n, k) = 0#32) :
    (v.release n).numUsedBlocks = v.numUsedBlocks := by
  apply numUsedBlocks_congr
  funext b
  rw [blockUsed_release, if_neg]
  rintro ⟨other, k, same⟩
  exact other (same.symm.trans (null k))

theorem blockUsed_of_shrink {k : Fin numOfDirectBlockPtr}
    (marked : (v.shrink p k).blockUsed b = true) : v.blockUsed b = true := by
  rw [shrink] at marked
  split_ifs at marked
  · by_cases same : b = v.ptr (p, k)
    · simp [unassign, same] at marked
    · exact (update_of_ne same _ _).symm.trans marked
  · exact marked

end Volume

/-! ## The calls -/

section Calls

variable {s s' : FileSys} {path : Path} {p n : CInt} {x : List Byte}

theorem View.counted_released_iff {w w' : View} (info : w'.pFileSysInfo = w.pFileSysInfo.released)
    (valid : ValidInode n) (used : w.volume.inodeUsed n = true)
    (freed : w'.volume.inodeUsed = update w.volume.inodeUsed n false) :
    w.Counted w' ↔ w'.volume.numUsedBlocks = w.volume.numUsedBlocks := by
  have inodes := Volume.numUsedInodes_unmark valid used freed
  have few := w.volume.numUsedBlocks_le
  have few' := w'.volume.numUsedBlocks_le
  constructor
  · intro counted
    have same := counted.allocBlocks
    rw [info, FileSysInfo.released] at same
    bv_omega
  · intro same
    constructor
    · rw [info, FileSysInfo.released, same]
      bv_omega
    · rw [info, FileSysInfo.released, same]
      bv_omega
    · rw [info, FileSysInfo.released, ← inodes, BitVec.ofNat_add]
      bv_omega

variable {offsets : CInt → Prop} (sound : s.view.Sound offsets)

include sound

private theorem View.Sound.counted_createFile (name : NewName s.view.volume path p x) {r : CInt}
    (done : r ≠ -1) (run : exec (FS.createFile path) s = some (r, s')) :
      s.view.Counted s'.view := by
  obtain ⟨dirs, tokens, leads⟩ := name.parent
  have searchable := sound.consistent.searchable
  obtain ⟨valid, unused⟩ := Volume.freeInodeNum_spec name.free
  cases slot : s.view.volume.freeSlot p with
  | none =>
      have same := ((yields_createFile_full searchable tokens leads name.dir slot).unique run).1
      exact absurd same done
  | some e =>
      have view :=
        ((yields_createFile searchable tokens leads name.dir slot name.free).unique run).2
      have blocks : s'.view.volume.numUsedBlocks = s.view.volume.numUsedBlocks := by
        rw [view]
        exact Volume.numUsedBlocks_congr rfl
      have inodes : s'.view.volume.numUsedInodes = s.view.volume.numUsedInodes + 1 := by
        rw [view]
        exact Volume.numUsedInodes_mark valid unused rfl
      constructor
      · rw [blocks, view]
        simp only [BitVec.sub_self]
      · rw [blocks, view]
        simp only [BitVec.sub_self]
      · rw [inodes, view, BitVec.ofNat_add]
        bv_omega

theorem View.Sound.counted_makeDir_iff (name : NewName s.view.volume path p x)
    (run : exec (FS.makeDir path) s = some (none, s')) :
    s.view.Counted s'.view ↔ ∃ k j, s.view.volume.room p = some (k, some j) := by
  obtain ⟨dirs, tokens, leads⟩ := name.parent
  have searchable := sound.consistent.searchable
  obtain ⟨valid, unused⟩ := Volume.freeInodeNum_spec name.free
  cases room : s.view.volume.room p with
  | none =>
      have same := ((yields_makeDir_full searchable tokens leads name.dir room).unique run).1
      cases same
  | some r =>
      have view := ((yields_makeDir searchable tokens leads name.dir sound.zero room
        name.free).unique run).2
      have blocks : s'.view.volume.numUsedBlocks =
          s.view.volume.numUsedBlocks + if r.2 = none then 2 else 1 := by
        rw [view]
        exact searchable.blocks.numUsedBlocks_makeDir (searchable.used_valid p name.dir.1) room
      have inodes : s'.view.volume.numUsedInodes = s.view.volume.numUsedInodes + 1 := by
        rw [view]
        refine Volume.numUsedInodes_mark valid unused ?_
        obtain ⟨k, _ | j⟩ := r <;> rfl
      have info : s'.pFileSysInfo = s.pFileSysInfo.dirMade := congrArg (·.pFileSysInfo) view
      have counts : s.view.Counted s'.view ↔ r.2 ≠ none := by
        constructor
        · intro counted grown
          have same := counted.allocBlocks
          rw [blocks, if_pos grown, BitVec.ofNat_add] at same
          change s'.pFileSysInfo.numAllocBlocks - s.pFileSysInfo.numAllocBlocks = _ at same
          rw [info, FileSysInfo.dirMade] at same
          bv_omega
        · intro slot
          rw [if_neg slot] at blocks
          constructor
          · change s'.pFileSysInfo.numAllocBlocks - s.pFileSysInfo.numAllocBlocks = _
            rw [info, FileSysInfo.dirMade, blocks, BitVec.ofNat_add]
            bv_omega
          · change s'.pFileSysInfo.numFreeBlocks - s.pFileSysInfo.numFreeBlocks = _
            rw [info, FileSysInfo.dirMade, blocks, BitVec.ofNat_add]
            bv_omega
          · change s'.pFileSysInfo.numAllocInodes - s.pFileSysInfo.numAllocInodes = _
            rw [info, FileSysInfo.dirMade, inodes, BitVec.ofNat_add]
            bv_omega
      rw [counts]
      obtain ⟨k, o⟩ := r
      cases o with
      | none => simp
      | some j => simp

theorem View.Sound.counted_writeFile {fileDesc length r : CInt} {pBuffer : Chunk}
    (run : exec (FS.writeFile fileDesc pBuffer length) s = some (r, s')) :
    s.view.Counted s'.view := by
  obtain ⟨i, file, _, opened, same | ⟨ks, fileOffset, view⟩⟩ :=
    writeFile_view run sound.consistent.blocks sound.valid_opened
  · rw [same]
    constructor <;> simp only [BitVec.sub_self]
  · have valid := sound.valid_opened i file opened
    have need := sound.consistent.blocks.numUsedBlocks_write valid pBuffer ks
    have inodes : (s.view.volume.write file.inodeNum pBuffer ks).1.numUsedInodes =
        s.view.volume.numUsedInodes :=
      Volume.numUsedInodes_congr (Volume.writeSteps_frame file.inodeNum pBuffer ks _).1
    rw [view]
    constructor
    · simp only [View.written]
      bv_omega
    · simp only [View.written]
      bv_omega
    · simp only [View.written, inodes, BitVec.sub_self]

theorem View.Sound.counted_removeFile_iff (names : NamesOld s.view.volume path p x n)
    {r : CInt} (run : exec (FS.removeFile path) s = some (r, s')) :
    s.view.Counted s'.view ↔ ∀ k, s.view.volume.ptr (n, k) = 0#32 := by
  obtain ⟨dirs, tokens, leads⟩ := names.parent
  obtain ⟨e, entry⟩ := names.refers
  have searchable := sound.consistent.searchable
  have used := searchable.used_target entry
  have dir := (Volume.slot_eq_some.mp entry).1
  have view := ((yields_removeFile searchable tokens leads dir entry).unique run).2
  have info : s'.pFileSysInfo = s.pFileSysInfo.released := congrArg (·.pFileSysInfo) view
  have volume : s'.view.volume = (s.view.volume.dropEntry p e).release n := by
    rw [view]
  rw [View.counted_released_iff info (searchable.used_valid n used) used
    (by rw [volume, Volume.inodeUsed_release]; rfl)]
  constructor
  · intro same k
    by_contra holds
    have data := searchable.blocks.dataBlock holds
    have less : s'.view.volume.numUsedBlocks < s.view.volume.numUsedBlocks := by
      refine Volume.numUsedBlocks_lt (fun b marked => ?_) data
        (searchable.blocks.owned.used_ptr holds) ?_
      · rw [volume, Volume.blockUsed_release] at marked
        split_ifs at marked
        exact marked
      · rw [volume, Volume.blockUsed_release, if_pos ⟨holds, k, rfl⟩]
    omega
  · intro null
    rw [volume]
    exact Volume.numUsedBlocks_release_of_null (v := s.view.volume.dropEntry p e) null

/-- `RemoveDir` counts no block, but a directory has one. -/
theorem View.Sound.not_counted_removeDir (names : NamesOld s.view.volume path p x n)
    (dir : s.view.volume.IsDir n) (notRoot : n ≠ 0#32)
    (empty : ∀ y m, s.view.volume.tree.Refers n y m → y = dot ∨ y = dotDot)
    (run : exec (FS.removeDir path) s = some (none, s')) : ¬ s.view.Counted s'.view := by
  have ok := sound.consistent
  obtain ⟨dirs, tokens, leads⟩ := names.parent
  obtain ⟨e, entry⟩ := names.refers
  have parent := (Volume.slot_eq_some.mp entry).1
  have special : ∀ {s' y m}, s.view.volume.tree.slot n s' = some (y, m) → y = dot ∨ y = dotDot :=
    fun entry' => empty _ _ ⟨_, entry'⟩
  obtain ⟨self, _⟩ := ok.home n dir notRoot
  have holds : s.view.volume.ptr (n, 0) ≠ 0#32 := (Volume.slot_eq_some.mp self).2.1
  -- the bits are cleared, whichever name the directory has
  obtain ⟨info, freed, fewer, cleared⟩ : s'.pFileSysInfo = s.pFileSysInfo.released ∧
      s'.view.volume.inodeUsed = update s.view.volume.inodeUsed n false ∧
      (∀ b, s'.view.volume.blockUsed b = true → s.view.volume.blockUsed b = true) ∧
      s'.view.volume.blockUsed (s.view.volume.ptr (n, 0)) = false := by
    by_cases isDot : x = dot
    · subst isDot
      obtain rfl := ok.tree.dot_self entry
      obtain ⟨w', k, yields, used, _, _, _, info, fewer, cleared⟩ :=
        exists_removeDir_self ok tokens leads dir entry special
      have view := (yields.unique run).2
      rw [view]
      exact ⟨(congrArg (·.pFileSysInfo) view).trans info, used, fewer, cleared 0 holds⟩
    · have notDotDot : x ≠ dotDot := by
        rintro rfl
        obtain ⟨y, ne, ne', refers⟩ := ok.tree.dotDot_parent entry
        exact (empty _ _ refers).elim ne ne'
      have view := ((yields_removeDir ok tokens leads parent entry ⟨isDot, notDotDot⟩ dir
        special).unique run).2
      have notParent := (ok.tree.proper_ne entry isDot notDotDot).2
      have kept : (((s.view.volume.dropEntry p e).shrink p e.1)).ptr (n, 0) =
          s.view.volume.ptr (n, 0) := by
        rw [Volume.ptr, Volume.inode_shrink_of_ne (v := s.view.volume.dropEntry p e) notParent]
        rfl
      have volume : s'.view.volume = s.view.volume.removeDir p e n := by
        rw [view]
      refine ⟨congrArg (·.pFileSysInfo) view, ?_, fun b marked => ?_, ?_⟩
      · rw [volume, Volume.removeDir, Volume.inodeUsed_release, Volume.shrink]
        split_ifs <;> rfl
      · rw [volume, Volume.removeDir, Volume.blockUsed_release] at marked
        split_ifs at marked
        exact Volume.blockUsed_of_shrink (v := s.view.volume.dropEntry p e) marked
      · rw [volume, Volume.removeDir, Volume.blockUsed_release, if_pos ⟨holds, 0, kept⟩]
  rw [View.counted_released_iff info (ok.used_valid n dir.1) dir.1 freed]
  exact (Volume.numUsedBlocks_lt fewer (ok.blocks.dataBlock holds)
    (ok.blocks.owned.used_ptr holds) cleared).ne

end Calls

/-- When the counters change as the numbers of set bits do. -/
theorem counted_iff {s s' : FileSys} {c : Call} (reachable : Reachable Formatted Call.Proper s)
    (allocates : c.Allocates s.view) (done : c.Succeeds s s') :
    s.view.Counted s'.view ↔ c.CountsRight s.view := by
  have sound := sound_of_proper reachable
  cases c with
  | createFile path =>
      obtain ⟨p, x, name⟩ := allocates
      obtain ⟨r, success, run⟩ := done
      exact iff_of_true (sound.counted_createFile name success run) trivial
  | makeDir path =>
      obtain ⟨p, x, name⟩ := allocates
      constructor
      · exact fun counted p' x' name' => (sound.counted_makeDir_iff name' done).mp counted
      · exact fun right => (sound.counted_makeDir_iff name done).mpr (right p x name)
  | writeFile fd pBuffer length =>
      obtain ⟨r, _, run⟩ := done
      exact iff_of_true (sound.counted_writeFile run) trivial
  | removeFile path =>
      obtain ⟨p, x, n, names, _⟩ := allocates
      obtain ⟨r, _, run⟩ := done
      constructor
      · exact fun counted p' x' n' names' => (sound.counted_removeFile_iff names' run).mp counted
      · exact fun right => (sound.counted_removeFile_iff names run).mpr (right p x n names)
  | removeDir path =>
      obtain ⟨p, x, n, names, dir, notRoot, empty⟩ := allocates
      exact iff_of_false (sound.not_counted_removeDir names dir notRoot empty done) id
  | openFile | readFile | closeFile | enumerateDirStatus | getFileStatus | sync =>
      exact allocates.elim

/-- The first file on a formatted disk is counted. -/
theorem counted_iff_first : ∃ s s', Reachable Formatted Call.Proper s ∧
    (Call.createFile pathA).Allocates s.view ∧ (Call.createFile pathA).Succeeds s s' ∧
    (s.view.Counted s'.view ↔ (Call.createFile pathA).CountsRight s.view) := by
  obtain ⟨s, here⟩ := exists_formatted
  obtain ⟨_, s', run, _⟩ := exists_createdA here
  have allocates : (Call.createFile pathA).Allocates s.view := makesNew_pathA here
  have done : (Call.createFile pathA).Succeeds s s' := ⟨0#32, by decide, run⟩
  exact ⟨s, s', .start here, allocates, done, counted_iff (.start here) allocates done⟩

/-- `RemoveDir` of the empty directory `/a` does not count its block. -/
theorem removeDir_not_counted : ∃ s s', Reachable Formatted Call.Proper s ∧
    (Call.removeDir pathA).Allocates s.view ∧ (Call.removeDir pathA).Succeeds s s' ∧
    ¬ s.view.Counted s'.view := by
  obtain ⟨s, n, reachable, names, refers, dir, notRoot, empty⟩ := exists_dirA
  have sound := sound_of_proper reachable
  obtain ⟨w', _, yields, _⟩ := sound.removeDir names refers dir empty
  obtain ⟨s', run, _⟩ := yields s rfl
  have old : NamesOld s.view.volume pathA 0#32 [97#8] n := ⟨names.parent, refers⟩
  exact ⟨s, s', reachable, ⟨_, _, n, old, dir, notRoot, empty⟩, run,
    sound.not_counted_removeDir old dir notRoot empty run⟩

end KwHomework
