import KwHomework.FileSystem.Counters
import Mathlib.Algebra.BigOperators.Group.Finset.Sigma
import Mathlib.Data.Fintype.Prod

/-!
# How much files and directories hold

The size and the number of blocks that an inode gives are those of its block pointers, through every
call.  As there are fewer inodes than slots in a directory, `MakeDir` always finds room.
-/

namespace KwHomework

open Function FS

namespace Inode

/-- The pointers of an inode that are not null. -/
def pointers (inode : Inode) : Finset (Fin numOfDirectBlockPtr) :=
  Finset.univ.filter fun k => inode.dirBlockPtr k ≠ 0#32

/-- What an inode says about its blocks is right. -/
structure Sized (inode : Inode) : Prop where
  allocBlocks : inode.allocBlocks = BitVec.ofNat 32 inode.pointers.card
  size : inode.size = BitVec.ofNat 32 (512 * inode.pointers.card)

variable {inode : Inode} {k : Fin numOfDirectBlockPtr} {b : CInt}

theorem mem_pointers : k ∈ inode.pointers ↔ inode.dirBlockPtr k ≠ 0#32 := by
  rw [pointers, Finset.mem_filter_univ]

private theorem pointers_withBlock (nonnull : b ≠ 0#32) :
    (inode.withBlock k b).pointers = insert k inode.pointers := by
  ext l
  rw [mem_pointers, Finset.mem_insert, mem_pointers]
  by_cases same : l = k <;> simp [withBlock, same, nonnull]

private theorem pointers_withoutBlock :
    (inode.withoutBlock k).pointers = inode.pointers.erase k := by
  ext l
  rw [mem_pointers, Finset.mem_erase, mem_pointers]
  by_cases same : l = k <;> simp [withoutBlock, same]

private theorem Sized.withBlock (sized : inode.Sized) (null : inode.dirBlockPtr k = 0#32)
    (nonnull : b ≠ 0#32) : (inode.withBlock k b).Sized := by
  have one : (insert k inode.pointers).card = inode.pointers.card + 1 :=
    Finset.card_insert_of_notMem fun member => mem_pointers.mp member null
  constructor
  · rw [pointers_withBlock nonnull, one, BitVec.ofNat_add, ← sized.allocBlocks]
    rfl
  · rw [pointers_withBlock nonnull, one, Nat.mul_add, BitVec.ofNat_add, ← sized.size]
    rfl

private theorem Sized.withoutBlock (sized : inode.Sized) (holds : inode.dirBlockPtr k ≠ 0#32) :
    (inode.withoutBlock k).Sized := by
  have one : (inode.pointers.erase k).card + 1 = inode.pointers.card :=
    Finset.card_erase_add_one (mem_pointers.mpr holds)
  constructor
  · rw [pointers_withoutBlock]
    change inode.allocBlocks - 1 = _
    rw [sized.allocBlocks, ← one, BitVec.ofNat_add]
    exact BitVec.add_sub_cancel _ _
  · rw [pointers_withoutBlock]
    change inode.size - 512 = _
    rw [sized.size, ← one, Nat.mul_add, BitVec.ofNat_add]
    exact BitVec.add_sub_cancel _ _

/-- An inode without blocks has size 0. -/
theorem sized_of_blank (null : ∀ k, inode.dirBlockPtr k = 0#32)
    (allocBlocks : inode.allocBlocks = 0#32) (size : inode.size = 0#32) : inode.Sized := by
  have none : inode.pointers = ∅ := by
    ext k
    simp [mem_pointers, null]
  constructor
  · rw [allocBlocks, none]
    rfl
  · rw [size, none]
    rfl

private theorem sized_dirInode (nonnull : b ≠ 0#32) : (Volume.dirInode b).Sized := by
  have one : (Volume.dirInode b).pointers = {0} := by
    ext k
    rw [mem_pointers, Finset.mem_singleton]
    by_cases same : k = 0 <;> simp [Volume.dirInode, same, nonnull]
  constructor
  · rw [one]
    rfl
  · rw [one]
    rfl

end Inode

/-! ## Volumes -/

namespace Volume

/-- Every inode in use is right about its blocks. -/
def Sized (v : Volume) : Prop := ∀ n, v.inodeUsed n = true → (v.inode n).Sized

namespace Sized

variable {v : Volume} (sized : v.Sized) {n p : CInt} {k : Fin numOfDirectBlockPtr} {b : CInt}

include sized

theorem fill (b : CInt) (contents : Block) : (v.fill b contents).Sized := sized

private theorem setInode {inode : Inode} (right : inode.Sized) : (v.setInode n inode).Sized := by
  intro m used
  rw [inode_setInode]
  by_cases same : m = n
  · rw [same, update_self]
    exact right
  · rw [update_of_ne same]
    exact sized m used

private theorem assign (used : v.inodeUsed n = true) (null : v.ptr (n, k) = 0#32)
    (nonnull : b ≠ 0#32) :
    (v.assign n k b).Sized :=
  sized.setInode ((sized n used).withBlock null nonnull)

private theorem unassign (used : v.inodeUsed n = true) (holds : v.ptr (n, k) ≠ 0#32) :
    (v.unassign n k).Sized :=
  sized.setInode ((sized n used).withoutBlock holds)

/-- A free inode has no blocks, so the new file is empty. -/
theorem newFile (null : ∀ k, v.ptr (n, k) = 0#32) : (v.newFile n).Sized := by
  intro m used
  by_cases same : m = n
  · subst same
    refine Inode.sized_of_blank (fun k => ?_) ?_ ?_ <;> simp [Volume.newFile]
    exact null k
  · simp only [Volume.newFile, inodeUsed_markInode, inodeUsed_setInode, update_of_ne same] at used
    simpa [Volume.newFile, same] using sized m used

private theorem grow (blocks : v.BlocksOwned) (used : v.inodeUsed p = true)
    (null : v.ptr (p, k) = 0#32) :
    (v.grow p k).Sized :=
  sized.assign used null fun zero => zero_notMem_pool (zero ▸ blocks.freeBlockNum.1)

private theorem toDir (blocks : v.BlocksOwned) (p : CInt) : (v.toDir n p).Sized :=
  sized.setInode (Inode.sized_dirInode fun zero => zero_notMem_pool (zero ▸ blocks.freeBlockNum.1))

theorem shrink (used : v.inodeUsed p = true) (holds : v.ptr (p, k) ≠ 0#32) :
    (v.shrink p k).Sized := by
  rw [Volume.shrink]
  split_ifs
  · exact sized.unassign used holds
  · exact sized

theorem release (n : CInt) : (v.release n).Sized := by
  intro m used
  have other : m ≠ n := by
    rintro rfl
    simp at used
  rw [inode_release_of_ne n other]
  exact sized m (by simpa [other] using used)

/-- The loop of `WriteFile` counts the blocks that it allocates. -/
theorem write (valid : ValidInode n) (blocks : v.BlocksOwned) (used : v.inodeUsed n = true)
    (pBuffer : Chunk) (ks : List (Fin numOfDirectBlockPtr)) : (v.write n pBuffer ks).1.Sized := by
  suffices steps : ∀ acc : Volume × CInt, acc.1.BlocksOwned → acc.1.inodeUsed n = true →
      acc.1.Sized → (ks.foldl (writeStep n pBuffer) acc).1.Sized from steps
      (v, 0#32) blocks used sized
  induction ks with
  | nil => exact fun acc _ _ sized => sized
  | cons k ks induction =>
      intro acc blocks used sized
      refine induction _ (blocks.writeStep valid pBuffer k) ?_ ?_
      · rw [(writeStep_frame n pBuffer acc k).1]
        exact used
      · rw [writeStep]
        split_ifs with null
        · exact sized.assign used null fun zero => zero_notMem_pool (zero ▸ blocks.freeBlockNum.1)
        · exact sized

/-- `MakeDir` may give its parent a block before it makes the new directory. -/
theorem makeDir (ok : v.Consistent) (blank : v.FreeBlank) (dir : v.IsDir p)
    {r : Fin numOfDirectBlockPtr × Option (Fin numOfDirentPerBlock)} (room : v.room p = some r)
    (free : v.HasFreeInode) (x : List Byte) : (v.makeDir p x r).Sized := by
  obtain ⟨_, unused⟩ := freeInodeNum_spec free
  have hasRoom := hasRoom_makeRoom ok dir room
  have grown : (v.makeRoom p r).1.Sized := by
    obtain ⟨k, _ | j⟩ := r
    · exact sized.grow ok.blocks dir.1 (firstRoom_grow room)
    · exact sized
  have null : ∀ k, (v.makeRoom p r).1.ptr (v.freeInodeNum, k) = 0#32 :=
    hasRoom.freeBlank blank dir v.freeInodeNum (by rwa [hasRoom.used])
  have blocks : ((v.makeRoom p r).1.putEntry p (v.makeRoom p r).2 v.freeInodeNum x).BlocksOwned :=
    hasRoom.consistent.blocks.fill _ _
  rw [Volume.makeDir]
  exact ((grown.fill _ _).newFile null).toDir (blocks.newFile _) p

end Sized

theorem sized_formatted : formatted.Sized := by
  intro n used
  obtain rfl : n = 0#32 := by
    by_contra other
    simp [formatted, update_of_ne other] at used
  simpa [formatted] using Inode.sized_dirInode (b := 7#32) (by decide)

end Volume

/-! ## Runs -/

theorem View.Sound.sized_call {s s' : FileSys} {c : Call} (sound : s.view.Sound fun _ => True)
    (sized : s.view.volume.Sized) (proper : c.Proper s.view) (run : exec c.code s = some ((), s')) :
    s'.view.volume.Sized := by
  have ok := sound.consistent
  cases c with
  | createFile path =>
      obtain ⟨p, x, names, new, free⟩ := proper
      cases slot : s.view.volume.freeSlot p with
      | none => rwa [(sound.createFile_full names slot).view_of_effect run]
      | some slot' =>
          obtain ⟨w', yields, _, volume, _⟩ := sound.createFile names new free trivial slot
          rw [yields.view_of_effect run, volume]
          have null := sound.freeBlank _ (Volume.freeInodeNum_spec free).2
          exact (sized.fill _ _).newFile null
  | openFile path =>
      obtain ⟨p, x, n, names, refers, file⟩ := proper
      rw [(sound.openFile names refers trivial file).1.view_of_effect run]
      exact sized
  | writeFile fd buffer length =>
      obtain ⟨r, run⟩ := exec_of_effect run
      obtain ⟨i, file, _, opened, same | ⟨ks, offset, view⟩⟩ :=
        writeFile_view run ok.blocks sound.valid_opened
      · rwa [same]
      · rw [view]
        have used := ((sound.descriptors i).allowed file opened).1.1
        exact sized.write (sound.valid_opened i file opened) ok.blocks used buffer ks
  | readFile fd length =>
      obtain ⟨r, run⟩ := exec_of_effect run
      obtain ⟨_, i, file, _, opened, view⟩ := readFile_moves run sound.valid_opened
      rw [view]
      exact sized
  | closeFile fd =>
      obtain ⟨i, pOpenFile, gone, view⟩ := closeFile_view run
      rw [view]
      exact sized
  | removeFile path =>
      obtain ⟨p, x, n, names, refers, file, closed⟩ := proper
      obtain ⟨w', slot, yields, _, _, volume, _⟩ := sound.removeFile names refers file closed
      rw [yields.view_of_effect run, volume]
      exact Volume.Sized.release (v := s.view.volume.dropEntry p slot) sized n
  | makeDir path =>
      obtain ⟨p, x, names, new, free⟩ := proper
      cases room : s.view.volume.room p with
      | none => rwa [(sound.makeDir_full names room).view_of_effect run]
      | some r =>
          obtain ⟨w', yields, _, volume, _⟩ := sound.makeDir names new free room
          rw [yields.view_of_effect run, volume]
          exact sized.makeDir ok sound.freeBlank names.dir room free x
  | removeDir path =>
      obtain ⟨p, x, n, names, refers, dir, empty⟩ := proper
      obtain ⟨w', slot, yields, _, entry, volume, _⟩ := sound.removeDir names refers dir empty
      obtain ⟨parent, holds, _, _⟩ := Volume.slot_eq_some.mp entry
      rw [yields.view_of_effect run, volume, Volume.removeDir]
      exact (Volume.Sized.shrink (v := s.view.volume.dropEntry p slot) sized parent.1
        holds).release n
  | enumerateDirStatus path count =>
      obtain ⟨dirs, x, p, n, tokens, leads, refers, dir⟩ := proper
      obtain ⟨_, yields⟩ := sound.enumerateDirStatus tokens leads refers dir count
      rwa [yields.view_of_effect run]
  | getFileStatus path =>
      obtain ⟨dirs, x, p, tokens, leads, dir⟩ := proper
      obtain ⟨_, yields⟩ := sound.getFileStatus tokens leads dir
      rwa [yields.view_of_effect run]
  | sync =>
      obtain rfl : s = s' := by simpa [Call.code, FS.sync] using run
      exact sized

/-- In every state of a run of proper calls the inodes in use are right about their blocks. -/
theorem sized_of_run {s : FileSys} (reachable : Reachable Formatted Call.Proper s) :
    s.view.volume.Sized := by
  induction reachable with
  | start formatted => exact formatted.view ▸ Volume.sized_formatted
  | call before proper run sized => exact (sound_of_proper before).sized_call sized proper run

/-! ## Counting blocks -/

namespace Volume

variable {v : Volume}

/-- The number of blocks that the inodes in use give. -/
def sumAllocBlocks (v : Volume) : Nat :=
  ((inodeNums.filter v.inodeUsed).map fun n => (v.inode n).allocBlocks.toNat).sum

private theorem Sized.toNat_allocBlocks (sized : v.Sized) {n : CInt} (used : v.inodeUsed n = true) :
    (v.inode n).allocBlocks.toNat = (v.inode n).pointers.card := by
  have few : (v.inode n).pointers.card ≤ numOfDirectBlockPtr := card_finset_fin_le _
  have small : (v.inode n).pointers.card < 2 ^ 32 := lt_of_le_of_lt few (by decide)
  rw [(sized n used).allocBlocks, BitVec.toNat_ofNat, Nat.mod_eq_of_lt small]

/-- The marked data blocks are the ones that the inodes in use have. -/
theorem Sized.numUsedBlocks_eq (sized : v.Sized) (ok : v.Consistent) (blank : v.FreeBlank) :
    v.numUsedBlocks = v.sumAllocBlocks := by
  let nodes : Finset CInt := (inodeNums.filter v.inodeUsed).toFinset
  have mem_nodes : ∀ n, n ∈ nodes ↔ v.inodeUsed n = true := by
    intro n
    rw [List.mem_toFinset, List.mem_filter, mem_inodeNums, and_iff_right_of_imp (ok.used_valid n)]
  let owners : Finset (Σ _ : CInt, Fin numOfDirectBlockPtr) :=
    nodes.sigma fun n => (v.inode n).pointers
  have holders : ∀ o : CInt × Fin numOfDirectBlockPtr,
      o ∈ owners.map (Equiv.sigmaEquivProd _ _).toEmbedding ↔ v.ptr o ≠ 0#32 := by
    rintro ⟨n, k⟩
    rw [Finset.mem_map_equiv, Finset.mem_sigma]
    change n ∈ nodes ∧ k ∈ (v.inode n).pointers ↔ _
    rw [mem_nodes, Inode.mem_pointers]
    refine and_iff_right_of_imp fun holds => ?_
    by_contra unused
    exact holds (blank n (by simpa using unused) k)
  have blocks : ∀ b, b ∈ dataBlocks.toFinset ↔ b ∈ pool := fun b =>
    List.mem_toFinset.trans mem_dataBlocks
  calc v.numUsedBlocks = (dataBlocks.filter v.blockUsed).length := List.countP_eq_length_filter
    _ = (dataBlocks.toFinset.filter fun b => v.blockUsed b).card := by
      rw [← List.toFinset_filter, List.toFinset_card_of_nodup (nodup_dataBlocks.filter _)]
    _ = owners.card := by rw [ok.blocks.owned.card_used blocks holders, Finset.card_map]
    _ = ∑ n ∈ nodes, (v.inode n).pointers.card := Finset.card_sigma ..
    _ = ∑ n ∈ nodes, (v.inode n).allocBlocks.toNat :=
      Finset.sum_congr rfl fun n member => (sized.toNat_allocBlocks ((mem_nodes n).mp member)).symm
    _ = v.sumAllocBlocks := List.sum_toFinset _ (nodup_inodeNums.filter _)

end Volume

/-- In every state of a run of proper calls the inodes in use are right about their blocks, and
have all the blocks that are marked. -/
theorem blocks_accounted {s : FileSys} (reachable : Reachable Formatted Call.Proper s) :
    s.view.volume.Sized ∧ s.view.volume.numUsedBlocks = s.view.volume.sumAllocBlocks := by
  have sized := sized_of_run reachable
  have sound := sound_of_proper reachable
  exact ⟨sized, sized.numUsedBlocks_eq sound.consistent sound.freeBlank⟩

/-- The root and the directory `/a` have the blocks. -/
theorem blocks_accounted_makeDir : ∃ n s, Reachable Formatted Call.Proper s ∧
    s.view.volume.IsDir n ∧ s.view.volume.Sized ∧
    s.view.volume.numUsedBlocks = s.view.volume.sumAllocBlocks := by
  obtain ⟨n, s, reachable, _, dir⟩ := exists_reachableDirA
  have proper := reachable.mono fun _ _ fine => fine.1
  exact ⟨n, s, proper, dir, blocks_accounted proper⟩

/-! ## Room in directories -/

namespace Volume

variable {v : Volume} {p : CInt}

private theorem slot_ne_none {s : Slot} (dir : v.IsDir p) (holds : v.ptr (p, s.1) ≠ 0#32)
    (live : (v.entry p s).name ≠ []) : v.tree.slot p s ≠ none := by
  rw [show v.tree.slot p s = some ((v.entry p s).name, (v.entry p s).inodeNum) from
    slot_eq_some.mpr ⟨dir, holds, live, rfl⟩]
  exact Option.some_ne_none _

/-- A directory with 160 entries would need more inodes than there are. -/
theorem Consistent.room_ne_none (ok : v.Consistent) (dir : v.IsDir p) : v.room p ≠ none := by
  intro full
  have all := firstRoom_eq_none_iff.mp full
  have taken : ∀ s ∈ (Finset.univ : Finset Slot), v.tree.slot p s ≠ none := fun s _ =>
    slot_ne_none dir (all s).1 (of_decide_eq_false (all s).2)
  have few := ok.tree.card_taken_le taken fun n used =>
    List.mem_toFinset.mpr (mem_inodeNums.mpr (ok.used_valid n used))
  have nodes : inodeNums.toFinset.card ≤ 64 := List.toFinset_card_le _
  have slots : (Finset.univ : Finset Slot).card = 160 := by
    rw [Finset.card_univ, Fintype.card_prod, Fintype.card_fin, Fintype.card_fin]
    rfl
  omega

/-- A directory without a free slot in its blocks is the root, or has at least 30 proper entries. -/
theorem Consistent.names_of_full (ok : v.Consistent) (dir : v.IsDir p)
    (full : v.freeSlot p = none) :
    p = 0#32 ∨ ∃ names : Finset (List Byte), 30 ≤ names.card ∧
      ∀ y ∈ names, y ≠ dot ∧ y ≠ dotDot ∧ ∃ n, v.tree.Refers p y n := by
  refine or_iff_not_imp_left.mpr fun notRoot => ?_
  obtain ⟨_, holds, _, _⟩ := slot_eq_some.mp (ok.home p dir notRoot).1
  -- the slots of the first block
  let slots : Finset Slot := (Finset.univ : Finset (Fin numOfDirentPerBlock)).map
    ⟨fun j => (0, j), fun _ _ same => (Prod.mk.inj same).2⟩
  have taken : ∀ s ∈ slots, v.tree.slot p s ≠ none := by
    intro s member
    obtain ⟨j, _, rfl⟩ := Finset.mem_map.mp member
    exact slot_ne_none dir holds (of_decide_eq_false (firstSlot_eq_none_iff.mp full (0, j) holds))
  obtain ⟨names, many, proper⟩ := ok.tree.exists_names taken
  have count : slots.card = 32 := by rw [Finset.card_map, Finset.card_univ, Fintype.card_fin]
  exact ⟨names, by omega, proper⟩

end Volume

/-- `MakeDir` of a new name succeeds while an inode is free, and the new directory holds `.` and
`..` only. -/
theorem makeDir_succeeds {s : FileSys} (reachable : Reachable Formatted Call.Proper s) {path : Path}
    {p : CInt} {x : List Byte} (names : Names s.view.volume path p x)
    (new : ∀ m, ¬ s.view.volume.tree.Refers p x m) (free : s.view.volume.HasFreeInode) :
    ∃ s' n, exec (makeDir path) s = some (none, s') ∧ s'.view.volume.tree.Refers p x n ∧
      s'.view.volume.IsDir n ∧ ∀ y m, s'.view.volume.tree.Refers n y m ↔
        (y = dot ∧ m = n) ∨ (y = dotDot ∧ m = p) := by
  have sound := sound_of_proper reachable
  have ok := sound.consistent
  obtain ⟨r, room⟩ := Option.ne_none_iff_exists'.mp (ok.room_ne_none names.dir)
  obtain ⟨w', yields, _, volume, _, created⟩ := sound.makeDir names new free room
  have made := Volume.dirMade_makeDir ok sound.freeBlank names.dir room free names.good new
  rw [← volume] at made
  obtain ⟨s', run, rfl⟩ := yields s rfl
  refine ⟨s', _, run, created.new, ?_, fun y m => ?_⟩
  · change s'.view.volume.tree.dir _
    rw [made.tree]
    exact Or.inl rfl
  · rw [made.tree, DirTree.refers_toDir_self]
    constructor
    · rintro ⟨e, entry⟩
      exact (Volume.newSlots_special entry).imp And.right And.right
    · rintro (⟨rfl, rfl⟩ | ⟨rfl, rfl⟩)
      · exact ⟨(0, 0), rfl⟩
      · exact ⟨(0, 1), rfl⟩

/-- The directory `/a` of a formatted disk. -/
theorem makeDir_succeeds_first : ∃ s, Formatted s ∧ ∃ s' n,
    exec (makeDir pathA) s = some (none, s') ∧ s'.view.volume.tree.Refers 0#32 [97#8] n ∧
      s'.view.volume.IsDir n ∧ ∀ y m, s'.view.volume.tree.Refers n y m ↔
        (y = dot ∧ m = n) ∨ (y = dotDot ∧ m = 0#32) := by
  obtain ⟨s, here⟩ := exists_formatted
  refine ⟨s, here, makeDir_succeeds (.start here) ?_ ?_ ?_⟩ <;> rw [here.view]
  · exact Volume.names_pathA Volume.formatted_isDir
  · exact Volume.formatted_new (by decide) 0#32
  · exact Volume.formatted_free

end KwHomework
