import KwHomework.FileSystem.Leftovers

/-!
# Sessions on a new disk

A session formats a disk and then makes directories and files, with listings in between.  What it
shows does not depend on what `malloc` left in memory, as long as the bytes that are read before
they are written are zero.
-/

namespace KwHomework

open Function FS

/-! ## Sessions -/

/-- A call of a session. -/
inductive Request where
  | makeDir (szDirName : Path)
  | createFile (szFileName : Path)
  | enumerateDirStatus (szDirName : Path) (dirEntrys : CInt)
  | getFileStatus (szPathName : Path)

/-- What a call returns and stores for its caller. -/
inductive Reply where
  | makeDir (result : Option CInt)
  | createFile (result : CInt)
  | enumerateDirStatus (result : CInt × List DirEntryInfo)
  | getFileStatus (result : Option CInt × Option Inode)

/-- What the call runs. -/
def Request.code : Request → FS Reply
  | .makeDir path => FS.makeDir path >>= fun result => pure (.makeDir result)
  | .createFile path => FS.createFile path >>= fun result => pure (.createFile result)
  | .enumerateDirStatus path count =>
      FS.enumerateDirStatus path count >>= fun result => pure (.enumerateDirStatus result)
  | .getFileStatus path => FS.getFileStatus path >>= fun result => pure (.getFileStatus result)

/-- What is looked at between two calls: the descriptors, the counters, and the numbers that are
allocated. -/
structure Shown where
  pFileDesc : Fin maxFdEntryMax → FileDesc
  pFileSysInfo : FileSysInfo
  inodeUsed : CInt → Bool
  blockUsed : CInt → Bool

/-- What a state shows. -/
def FileSys.shown (s : FileSys) : Shown :=
  ⟨s.pFileDesc, s.pFileSysInfo, s.disk.volume.inodeUsed, s.disk.volume.blockUsed⟩

/-- The answers of a session, each with what is shown after it; `none` where it stops. -/
def session : FileSys → List Request → List (Option (Reply × Shown))
  | _, [] => []
  | s, request :: rest => (exec request.code s).elim [none] fun r =>
      some (r.1, r.2.shown) :: session r.2 rest

/-- A disk is formatted, and a session follows. -/
def newDisk (s : FileSys) (requests : List Request) :
    Option (Shown × List (Option (Reply × Shown))) :=
  (exec createFileSystem s).map fun r => (r.2.shown, session r.2 requests)

/-- Something holds before every call of a session. -/
def Throughout (holds : FileSys → Request → Prop) : FileSys → List Request → Prop
  | _, [] => True
  | s, request :: rest => holds s request ∧
      ∀ r, exec request.code s = some r → Throughout holds r.2 rest

/-! ## Clean memory -/

/-- The chunk is zero where `setRoot` writes nothing when it makes the root directory in it. -/
def RootClean (pData : Chunk) : Prop :=
  ∀ inodeNo, rootBlockOn pData inodeNo = rootBlockOn (fun _ => 0#8) inodeNo

/-- The chunks of the inode bitmap, of the root directory and of the info are zero where they are
read and not written. -/
structure FileSys.FormatClean (s : FileSys) : Prop where
  bitmap : ∀ i < 8, s.heap 1 i = 0#8
  root : RootClean (s.heap 512)
  info : FileSysInfo.ofBlock (blockOf (s.heap 513)) = .zeros

/-- What the call reads before it writes it is zero. -/
def Request.Clean (s : FileSys) : Request → Prop
  | .makeDir path => s.MakeDirClean path
  | .createFile path => s.CreateFileClean path
  | .enumerateDirStatus path _ => s.TokenClean path
  | .getFileStatus path => s.TokenClean path

/-- The memory is clean for formatting and for every call. -/
def CleanSession (s : FileSys) (requests : List Request) : Prop :=
  s.FormatClean ∧ ∀ r, exec createFileSystem s = some r →
    Throughout (fun s request => request.Clean s) r.2 requests

/-- If the call makes a directory, that directory lists `.` and `..` and nothing else. -/
def NewDirListsDots (s : FileSys) (request : Request) : Prop :=
  ∀ path s', request = .makeDir path → exec (FS.makeDir path) s = some (none, s') →
    s'.disk.ListsDots s.freeInode

/-! ## One call -/

private theorem Alike.shown {s t : FileSys} (alike : Alike s t) : s.shown = t.shown := by
  obtain ⟨known, dirs, _, paired⟩ := alike
  have inodes : s.disk.volume.inodeUsed = t.disk.volume.inodeUsed := by
    funext n
    by_cases valid : ValidInode n
    · simp [Store.volume, valid, paired.disk.inodeBit n.toNat valid]
    · simp [Store.volume, valid]
  have blocks : s.disk.volume.blockUsed = t.disk.volume.blockUsed := by
    funext b
    by_cases small : b.toNat < 512
    · simp [Store.volume, small, paired.disk.blockBit b.toNat small]
    · simp [Store.volume, small]
  rw [FileSys.shown, FileSys.shown, paired.table, paired.info, inodes, blocks]

private theorem sameEnd_reply {α : Type} {x : FS α} {s t : FileSys} (answer : α → Reply)
    (same : Option.Rel SameEnd (exec x s) (exec x t)) :
    Option.Rel SameEnd (exec (x >>= fun result => pure (answer result)) s)
      (exec (x >>= fun result => pure (answer result)) t) := by
  rw [exec_bind, exec_bind]
  exact rel_bind same fun r r' both => .some ⟨congrArg answer both.1, both.2⟩

private theorem Alike.request {s t : FileSys} (alike : Alike s t) {request : Request}
    (clean : request.Clean s) (clean' : request.Clean t) :
    Option.Rel SameEnd (exec request.code s) (exec request.code t) := by
  cases request with
  | makeDir path =>
      exact sameEnd_reply _ (rel_mono (alike.makeDir clean clean') fun r r' made => made.1)
  | createFile path => exact sameEnd_reply _ (alike.createFile clean clean')
  | enumerateDirStatus path count =>
      exact sameEnd_reply _ (alike.enumerateDirStatus clean clean' count)
  | getFileStatus path => exact sameEnd_reply _ (alike.getFileStatus clean clean')

private theorem Alike.newDirListsDots {s t : FileSys} (alike : Alike s t) {request : Request}
    (clean : request.Clean s) (clean' : request.Clean t) : NewDirListsDots s request := by
  rintro path s' rfl run
  have fresh : s.MakeDirClean path := clean
  have made := alike.makeDir fresh clean'
  rw [run] at made
  cases run' : exec (FS.makeDir path) t with
  | none =>
      rw [run'] at made
      cases made
  | some r =>
      rw [run'] at made
      cases made with
      | some both => exact both.2 rfl

/-! ## Runs -/

theorem Alike.session_eq (requests : List Request) : ∀ {s t : FileSys}, Alike s t →
    Throughout (fun s request => request.Clean s) s requests →
    Throughout (fun s request => request.Clean s) t requests →
    session s requests = session t requests ∧ Throughout NewDirListsDots s requests := by
  induction requests with
  | nil => exact fun _ _ _ => ⟨rfl, trivial⟩
  | cons request rest induction =>
      intro s t alike clean clean'
      have step := alike.request clean.1 clean'.1
      have lists := alike.newDirListsDots clean.1 clean'.1
      have tail := clean.2
      have tail' := clean'.2
      rw [session, session, Throughout]
      revert step tail tail'
      generalize exec request.code s = a, exec request.code t = b
      intro step tail tail'
      cases step with
      | none => exact ⟨rfl, lists, fun r run => by cases run⟩
      | some both =>
          obtain ⟨answer, alike'⟩ := both
          obtain ⟨same, more⟩ := induction alike' (tail _ rfl) (tail' _ rfl)
          rw [Option.elim_some, Option.elim_some, answer, alike'.shown, same]
          refine ⟨rfl, lists, fun r run => ?_⟩
          obtain rfl := Option.some.inj run
          exact more

/-! ## Formatting -/

namespace FileSys.FormatClean

variable {s t : FileSys}

theorem inodeUsed (clean : s.FormatClean) : s.initDisk.volume.inodeUsed = fun _ => false := by
  funext n
  by_cases valid : ValidInode n
  · have small : n.toNat < 64 := valid
    have inside : n.toNat / 8 < 512 := by omega
    have byte : (s.initDisk inodeBitmapBlockNum).byteAt (n.toNat / 8) = 0#8 := by
      rw [initDisk, if_pos (by decide), Block.byteAt, dif_pos inside]
      have early : n.toNat / 8 < 8 := by omega
      exact clean.bitmap _ early
    simp [Store.volume, Block.bitAt, byte]
  · simp [Store.volume, valid]

private theorem freeInodeNum (clean : s.FormatClean) : s.markedVolume.freeInodeNum = 0#32 := by
  have marks : s.markedVolume.inodeUsed = Volume.reserved.inodeUsed := clean.inodeUsed
  exact (Volume.freeInodeNum_congr marks).trans Volume.freeInodeNum_reserved

/-- On clean memory the disk gets the root directory and nothing else that is read. -/
theorem exec (clean : s.FormatClean) : ∃ s', FS.exec createFileSystem s = some ((), s') ∧
    s'.pFileDesc = s.pFileDesc ∧ s'.pFileSysInfo = .formatted ∧
    (s'.heap = fun k => s.heap (k + 515)) ∧
    s'.disk.volume.inodeUsed = Volume.formatted.inodeUsed ∧
    s'.disk.volume.blockUsed = Volume.formatted.blockUsed ∧
    s'.disk.inodeOf 0#32 = Volume.dirInode 7#32 ∧ s'.disk 7#32 = Volume.rootBlock := by
  have root : ValidInode 0#32 := by decide
  have data : DataBlock 7#32 := by decide
  obtain ⟨s', run, view⟩ := exec_createFileSystem_on (s := s) (clean.freeInodeNum ▸ root)
  have volume : s'.disk.volume = s.formattedVolume := congrArg View.volume view
  have info : infoOn (s.heap 513) = .formatted := by
    rw [infoOn, clean.info]
    rfl
  refine ⟨s', run, congrArg (·.pFileDesc) view, (congrArg (·.pFileSysInfo) view).trans info,
    congrArg (·.heap) view, ?_, congrArg (·.blockUsed) volume, ?_, ?_⟩
  · rw [volume, formattedVolume, clean.freeInodeNum, clean.inodeUsed]
    rfl
  · have inode := congrArg (·.inode 0#32) volume
    simp only [Store.volume, if_pos root, formattedVolume, update_self] at inode
    exact inode
  · have block := congrArg (·.block 7#32) volume
    simp only [Store.volume, if_pos data, formattedVolume, update_self] at block
    rw [block, clean.root, clean.freeInodeNum]
    rfl

theorem alike (clean : s.FormatClean) (clean' : t.FormatClean) (table : s.pFileDesc = t.pFileDesc) :
    ∃ s' t', FS.exec createFileSystem s = some ((), s') ∧
      FS.exec createFileSystem t = some ((), t') ∧ Alike s' t' ∧
      s'.disk.volume.inodeUsed = Volume.formatted.inodeUsed := by
  obtain ⟨s', run, fds, info, _, inodes, blocks, inode, block⟩ := clean.exec
  obtain ⟨t', run', fds', info', _, inodes', blocks', inode', block'⟩ := clean'.exec
  have data : DataBlock 7#32 := by decide
  have inodeBit : ∀ (disk : Store), ∀ m < 64, (disk inodeBitmapBlockNum).bitAt m =
      disk.volume.inodeUsed (BitVec.ofNat 32 m) := by
    intro disk m small
    have value := Volume.toNat_ofNat_of_lt (n := m) (by omega)
    simp [Store.volume, ValidInode, value, small]
  have blockBit : ∀ (disk : Store), ∀ m < 512, (disk blockBitmapBlockNum).bitAt m =
      disk.volume.blockUsed (BitVec.ofNat 32 m) := by
    intro disk m small
    have value := Volume.toNat_ofNat_of_lt (n := m) (by omega)
    simp [Store.volume, value, small]
  refine ⟨s', t', run, run', ⟨{0#32}, {7#32}, rfl, fds.trans (table.trans fds'.symm),
    info.trans info'.symm, ⟨?_, ?_, ?_, ?_, ?_, ?_, ?_, ?_, ?_⟩, trivial, trivial⟩, inodes⟩
  · intro m small
    rw [inodeBit _ m small, inodeBit _ m small, inodes, inodes']
  · intro m small
    rw [blockBit _ m small, blockBit _ m small, blocks, blocks']
  · intro m low
    have value := Volume.toNat_ofNat_of_lt (n := m) (by omega)
    have other : BitVec.ofNat 32 m ≠ 7#32 := by
      intro same
      rw [same] at value
      change 7 = m at value
      omega
    rw [blockBit _ m (by omega), blocks]
    change update (fun b : CInt => decide (b.toNat < 7)) 7#32 true (BitVec.ofNat 32 m) = true
    rw [update_of_ne other, value, decide_eq_true low]
  · rintro n rfl
    exact Or.inl (by decide)
  · rintro n rfl
    rw [inode, inode']
  · rintro n rfl k holds
    rw [inode] at holds ⊢
    exact Volume.ptr_dirInode holds
  · rintro b rfl
    exact data
  · rintro b rfl
    rw [block, block']
  · rintro b rfl j
    rw [block, Volume.rootBlock, Block.entryInode_setName _ _ _ (by omega),
      Block.entryInode_setEntryInode]
    split_ifs
    · rfl
    · exact Block.intAt_zero _

end FileSys.FormatClean

/-- Two sessions on clean memory show the same; the new disk has the root inode and no other, and
every new directory lists `.` and `..`. -/
theorem newDisk_eq_of_clean {s t : FileSys} (table : s.pFileDesc = t.pFileDesc)
    {requests : List Request} (clean : CleanSession s requests) (clean' : CleanSession t requests) :
    newDisk s requests = newDisk t requests ∧ ∃ s', exec createFileSystem s = some ((), s') ∧
      (∀ n, s'.shown.inodeUsed n = true ↔ n = 0#32) ∧ Throughout NewDirListsDots s' requests := by
  obtain ⟨s', t', run, run', alike, inodes⟩ := clean.1.alike clean'.1 table
  obtain ⟨same, lists⟩ := alike.session_eq requests (clean.2 _ run) (clean'.2 _ run')
  refine ⟨?_, s', run, fun n => ?_, lists⟩
  · rw [newDisk, newDisk, run, run', Option.map_some, Option.map_some, alike.shown, same]
  · rw [show s'.shown.inodeUsed = Volume.formatted.inodeUsed from inodes]
    by_cases root : n = 0#32 <;> simp [Volume.formatted, root]

/-! ## One chunk that is not zero -/

/-- A heap of zeros, but for one chunk that is full of a byte. -/
def stained (chunk : Nat) (byte : Byte) : FileSys :=
  ⟨⟨fun _ => ⟨false, .null⟩, .zeros, fun n _ => if n = chunk then byte else 0#8⟩, fun _ _ => 0#8⟩

private theorem heap_stained {chunk n : Nat} (other : n ≠ chunk) (byte : Byte) :
    (stained chunk byte).heap n = fun _ => 0#8 := by
  funext i
  exact if_neg other

/-- The first chunk of block 7 is not read before the root directory is written there. -/
theorem cleanSession_stained (byte : Byte) : CleanSession (stained 7 byte) [.makeDir pathA] := by
  have format : (stained 7 byte).FormatClean := by
    refine ⟨fun i _ => ?_, fun inodeNo => ?_, ?_⟩
    · rw [heap_stained (by decide)]
    · rw [heap_stained (by decide)]
    · rw [heap_stained (by decide)]
      rfl
  refine ⟨format, fun r run => ⟨?_, fun _ _ => trivial⟩⟩
  obtain ⟨s', run', _, _, heap, _⟩ := format.exec
  obtain rfl : r = ((), s') := Option.some.inj (run.symm.trans run')
  have zero : ∀ k, s'.heap k = fun _ => 0#8 := by
    intro k
    rw [heap]
    exact heap_stained (by omega) byte
  refine ⟨fun d _ => ?_, fun _ _ _ _ _ _ => ?_, fun _ _ _ _ _ => ⟨?_, ?_⟩⟩
  · rw [zero]
  · rw [zero]
    exact fun _ _ => rfl
  · rw [zero]
    exact fun _ _ => rfl
  · rw [zero]
    exact fun _ _ => rfl

/-- What lies in the chunk of block 7 makes no difference to the directory `/a`. -/
theorem newDisk_eq_of_clean_stained :
    newDisk (stained 7 0#8) [.makeDir pathA] = newDisk (stained 7 255#8) [.makeDir pathA] ∧
      ∃ s', exec createFileSystem (stained 7 0#8) = some ((), s') ∧
        (∀ n, s'.shown.inodeUsed n = true ↔ n = 0#32) ∧
        Throughout NewDirListsDots s' [.makeDir pathA] := by
  have table : (stained 7 0#8).pFileDesc = (stained 7 255#8).pFileDesc := rfl
  exact newDisk_eq_of_clean table (cleanSession_stained 0#8) (cleanSession_stained 255#8)

/-- What lies in the chunk of the inode bitmap does: with a bit set there the root directory does
not get the inode 0, and two inodes or more are marked. -/
theorem newDisk_ne_of_stained : newDisk (stained 1 0#8) [] ≠ newDisk (stained 1 128#8) [] ∧
    ∃ s' n, exec createFileSystem (stained 1 128#8) = some ((), s') ∧ n ≠ 0#32 ∧
      s'.shown.inodeUsed 0#32 = true ∧ s'.shown.inodeUsed n = true := by
  have format : (stained 1 0#8).FormatClean :=
    ⟨fun i _ => rfl, fun inodeNo => by rw [heap_stained (by decide)], by
      rw [heap_stained (by decide)]
      rfl⟩
  have bitmap : (stained 1 128#8).initDisk inodeBitmapBlockNum = fun _ => 128#8 := by
    rw [FileSys.initDisk, if_pos (by decide)]
    rfl
  have marked : (stained 1 128#8).markedVolume.inodeUsed 0#32 = true := by
    simp only [FileSys.markedVolume, Store.volume, bitmap]
    decide
  have clear : (stained 1 128#8).markedVolume.inodeUsed 1#32 = false := by
    simp only [FileSys.markedVolume, Store.volume, bitmap]
    decide
  obtain ⟨m, small, number, free⟩ := Volume.exists_freeInodeNum ⟨1, by decide, clear⟩
  have other : BitVec.ofNat 32 m ≠ 0#32 := by
    intro same
    rw [same, marked] at free
    cases free
  have valid : ValidInode (stained 1 128#8).markedVolume.freeInodeNum := by
    rw [number, ValidInode, Volume.toNat_ofNat_of_lt (by omega)]
    exact small
  obtain ⟨t', run', view'⟩ := exec_createFileSystem_on valid
  have inodes' : t'.shown.inodeUsed = (stained 1 128#8).formattedVolume.inodeUsed :=
    congrArg (·.volume.inodeUsed) view'
  have used : t'.shown.inodeUsed (BitVec.ofNat 32 m) = true := by
    rw [inodes', FileSys.formattedVolume, number]
    exact update_self _ _ _
  refine ⟨fun same => ?_, t', _, run', other, ?_, used⟩
  · obtain ⟨s', run, _, _, _, inodes, _⟩ := format.exec
    rw [newDisk, newDisk, run, run', Option.map_some, Option.map_some, Option.some.injEq,
      Prod.mk.injEq] at same
    rw [← same.1, show s'.shown.inodeUsed = Volume.formatted.inodeUsed from inodes,
      Volume.formatted] at used
    dsimp only at used
    rw [update_of_ne other] at used
    cases used
  · rw [inodes', FileSys.formattedVolume, number]
    exact (update_of_ne (Ne.symm other) _ _).trans marked

end KwHomework
