import KwHomework.FileSystem.Frames

/-!
# Runs of calls

A call is well-formed when it is used as `testcase.c` uses it.  Every well-formed call succeeds in
a sound view and leaves a sound view, so every state of a run that starts with `CreateFileSystem`
is sound.
-/

namespace KwHomework

open Function FS

/-- A call of a function of `fs.c`. -/
inductive Call where
  | createFile (szFileName : Path)
  | openFile (szFileName : Path)
  | writeFile (fileDesc : CInt) (pBuffer : Chunk) (length : CInt)
  | readFile (fileDesc : CInt) (length : CInt)
  | closeFile (fileDesc : CInt)
  | removeFile (szFileName : Path)
  | makeDir (szDirName : Path)
  | removeDir (szDirName : Path)
  | enumerateDirStatus (szDirName : Path) (dirEntrys : CInt)
  | getFileStatus (szPathName : Path)
  | sync

/-- Run code for its effect. -/
def effect {α : Type} (x : FS α) : FS Unit := do
  let _ ← x
  return ()

theorem Yields.effect {α : Type} {x : FS α} {w w' : View} {r : α} (yields : Yields x w r w') :
    Yields (effect x) w () w' := yields.bind (.pure () w')

/-- What the call runs; its result is dropped. -/
def Call.code : Call → FS Unit
  | .createFile path => effect <| FS.createFile path
  | .openFile path => effect <| FS.openFile path
  | .writeFile fd buffer length => effect <| FS.writeFile fd buffer length
  | .readFile fd length => effect <| FS.readFile fd length
  | .closeFile fd => FS.closeFile fd
  | .removeFile path => effect <| FS.removeFile path
  | .makeDir path => effect <| FS.makeDir path
  | .removeDir path => effect <| FS.removeDir path
  | .enumerateDirStatus path count => effect <| FS.enumerateDirStatus path count
  | .getFileStatus path => effect <| FS.getFileStatus path
  | .sync => FS.sync

/-- The states reached from initial ones by allowed calls. -/
inductive Reachable (initial : FileSys → Prop) (allowed : View → Call → Prop) : FileSys → Prop
  | start {s} : initial s → Reachable initial allowed s
  | call {s s' c} : Reachable initial allowed s → allowed s.view c →
      exec c.code s = some ((), s') → Reachable initial allowed s'

/-- An invariant that holds initially and is kept by every allowed call. -/
theorem Reachable.invariant {initial : FileSys → Prop} {allowed : View → Call → Prop}
    {good : View → Prop} (first : ∀ s, initial s → good s.view)
    (step : ∀ s s' c, good s.view → allowed s.view c → exec c.code s = some ((), s') → good s'.view)
    {s : FileSys} (reachable : Reachable initial allowed s) : good s.view := by
  induction reachable with
  | start here => exact first _ here
  | call _ fine run holds => exact step _ _ _ holds fine run

theorem Reachable.mono {initial : FileSys → Prop} {allowed allowed' : View → Call → Prop}
    (weaker : ∀ w c, allowed w c → allowed' w c) {s : FileSys}
    (reachable : Reachable initial allowed s) : Reachable initial allowed' s := by
  induction reachable with
  | start here => exact .start here
  | call _ fine run there => exact .call there (weaker _ _ fine) run

/-! ## Well-formed calls -/

/-- The last component `x` of the path is a proper name, and what comes before leads to the
directory `p`.  A path of 100 bytes or more is cut by the code, and so are its components. -/
structure Names (v : Volume) (path : Path) (p : CInt) (x : List Byte) : Prop where
  parent : ∃ dirs, path.tokens = dirs ++ [x] ∧ v.tree.Leads 0#32 dirs p
  dir : v.IsDir p
  length : x.length ≤ 11
  undotted : x.head? ≠ some 46#8

theorem Names.good {v : Volume} {path : Path} {p : CInt} {x : List Byte}
    (names : Names v path p x) : GoodName x := by
  obtain ⟨dirs, tokens, _⟩ := names.parent
  obtain ⟨named, string⟩ := path.tokens_spec x (by simp [tokens])
  exact ⟨named, string, Nat.lt_succ_of_le names.length, names.undotted⟩

/-- The descriptor is in use. -/
def View.Opened (w : View) (fileDesc : CInt) : Prop :=
  ∃ bound : fileDesc.toNat < maxFdEntryMax, (w.pFileDesc ⟨fileDesc.toNat, bound⟩).bUsed = true

/-- No descriptor in use holds the inode. -/
def View.Closed (w : View) (n : CInt) : Prop :=
  ∀ i file, (w.pFileDesc i).bUsed = true → w.opened i file → file.inodeNum ≠ n

/-- Some inode is free. -/
def Volume.HasFreeInode (v : Volume) : Prop := ∃ n, ValidInode n ∧ v.inodeUsed n = false

/-- Files are created under new names while an inode is free, only regular files are opened, and
only closed regular files and empty directories are removed. -/
def Call.Proper (w : View) : Call → Prop
  | .createFile path | .makeDir path => ∃ p x, Names w.volume path p x ∧
      (∀ m, ¬ w.volume.tree.Refers p x m) ∧ w.volume.HasFreeInode
  | .openFile path => ∃ p x n, Names w.volume path p x ∧ w.volume.tree.Refers p x n ∧
      w.volume.IsFile n
  | .writeFile .. | .readFile .. | .closeFile _ | .sync => True
  | .removeFile path => ∃ p x n, Names w.volume path p x ∧ w.volume.tree.Refers p x n ∧
      w.volume.IsFile n ∧ w.Closed n
  | .removeDir path => ∃ p x n, Names w.volume path p x ∧ w.volume.tree.Refers p x n ∧
      w.volume.IsDir n ∧ ∀ y m, w.volume.tree.Refers n y m → y = dot ∨ y = dotDot
  | .enumerateDirStatus path _ => ∃ dirs x p n, path.tokens = dirs ++ [x] ∧
      w.volume.tree.Leads 0#32 dirs p ∧ w.volume.tree.Refers p x n ∧ w.volume.IsDir n
  | .getFileStatus path => ∃ dirs x p, path.tokens = dirs ++ [x] ∧
      w.volume.tree.Leads 0#32 dirs p ∧ w.volume.IsDir p

/-- The path of a call is short, and what it does to a descriptor is in bounds. -/
def Call.InBounds (w : View) : Call → Prop
  | .createFile path | .openFile path | .removeFile path | .makeDir path | .removeDir path
  | .enumerateDirStatus path _ | .getFileStatus path => path.bytes.length < 100
  | .writeFile fd _ length => w.Opened fd ∧ 1 ≤ length.toInt
  | .readFile fd length => w.Opened fd ∧ 0 ≤ length.toInt ∧ length.toInt ≤ 512 ∧
      ∀ (i : Fin maxFdEntryMax) file, (i : Nat) = fd.toNat → w.opened i file →
        file.fileOffset.toInt < 2560
  | .closeFile fd => w.Opened fd
  | .sync => True

/-- The call is used as `testcase.c` uses it. -/
def Call.WellFormed (w : View) (c : Call) : Prop := c.Proper w ∧ c.InBounds w

/-! ## Sound views -/

/-- A descriptor is in use if it refers to an open file, and what it refers to is allowed. -/
structure FileDesc.Sound (allowed : CInt → CInt → Prop) (desc : FileDesc) : Prop where
  used_iff : desc.bUsed = true ↔ ∃ file, desc.pOpenFile = .file file
  allowed : ∀ file, desc.pOpenFile = .file file → allowed file.inodeNum file.fileOffset

/-- An offset at a block boundary of a file. -/
def AtBlock (fileOffset : CInt) : Prop := ∃ c ≤ 5, fileOffset = BitVec.ofNat 32 (512 * c)

theorem atBlock_zero : AtBlock 0#32 := ⟨0, Nat.zero_le 5, rfl⟩

/-- What holds between any two calls, with what is known about the offsets. -/
structure View.Sound (offsets : CInt → Prop) (w : View) : Prop where
  consistent : w.volume.Consistent
  freeBlank : w.volume.FreeBlank
  zero : w.heap = fun _ _ => 0#8
  descriptors : ∀ i, (w.pFileDesc i).Sound fun n fileOffset => w.volume.IsFile n ∧
    offsets fileOffset

theorem Volume.IsFile.not_isDir {v : Volume} {n : CInt} (file : v.IsFile n) : ¬ v.IsDir n :=
  fun dir => absurd (file.2.symm.trans dir.2) (by decide)

section Descriptors

variable {allowed allowed' : CInt → CInt → Prop} {fds : Fin maxFdEntryMax → FileDesc}

theorem FileDesc.Sound.mono {desc : FileDesc} (sound : desc.Sound allowed)
    (weaker : ∀ n fileOffset, allowed n fileOffset → allowed' n fileOffset) :
    desc.Sound allowed' :=
  ⟨sound.used_iff, fun file opened => weaker _ _ (sound.allowed file opened)⟩

theorem sound_openAt (sound : ∀ i, (fds i).Sound allowed) {n : CInt} (inode : allowed n 0#32)
    (i : Fin maxFdEntryMax) : ((openAt fds n).2 i).Sound allowed := by
  rw [openAt]
  cases firstUnused fds with
  | none => exact sound i
  | some j =>
      by_cases same : i = j
      · rw [same]
        simp only [update_self]
        refine ⟨⟨fun _ => ⟨_, rfl⟩, fun _ => rfl⟩, ?_⟩
        rintro file opened
        cases opened
        exact inode
      · simp only [update_of_ne same]
        exact sound i

private theorem sound_close (sound : ∀ i, (fds i).Sound allowed) (j : Fin maxFdEntryMax)
    {pOpenFile : FilePtr} (gone : ∀ file, pOpenFile ≠ .file file) (i : Fin maxFdEntryMax) :
    (update fds j ⟨false, pOpenFile⟩ i).Sound allowed := by
  by_cases same : i = j
  · rw [same, update_self]
    exact ⟨by simp [gone], fun file opened => absurd opened (gone file)⟩
  · rw [update_of_ne same]
    exact sound i

private theorem sound_moveOffset (sound : ∀ i, (fds i).Sound allowed) {j : Fin maxFdEntryMax}
    {file : File} (opened : (fds j).pOpenFile = .file file) {fileOffset : CInt}
    (inode : allowed file.inodeNum fileOffset) (i : Fin maxFdEntryMax) :
    (moveOffset fds j file fileOffset i).Sound allowed := by
  by_cases same : i = j
  · rw [same, moveOffset, update_self]
    refine ⟨⟨fun _ => ⟨_, rfl⟩, fun _ => (sound j).used_iff.mpr ⟨file, opened⟩⟩, ?_⟩
    rintro file' opened'
    cases opened'
    exact inode
  · rw [moveOffset, update_of_ne same]
    exact sound i

end Descriptors

namespace Volume

variable {v v' : Volume} {p n m : CInt} {x : List Byte}

private theorem isFile_of_same (same : SameFile v v' m) (used : v'.inodeUsed m = v.inodeUsed m)
    (file : v.IsFile m) : v'.IsFile m := by
  rw [IsFile, used, same.inode]
  exact file

theorem Created.isFile (created : Created v p x n v') (dir : v.IsDir p)
    (unused : v.inodeUsed n = false) (file : v.IsFile m) : v'.IsFile m := by
  have notParent : m ≠ p := fun same => file.not_isDir (same ▸ dir)
  have other : m ≠ n := by
    rintro rfl
    rw [file.1] at unused
    cases unused
  refine isFile_of_same (created.same m notParent other) ?_ file
  rw [created.used, update_of_ne other]

theorem Removed.isFile (removed : Removed v p x n v') (dir : v.IsDir p) (other : m ≠ n)
    (file : v.IsFile m) : v'.IsFile m := by
  have notParent : m ≠ p := fun same => file.not_isDir (same ▸ dir)
  refine isFile_of_same (removed.same m notParent other) ?_ file
  rw [removed.used, update_of_ne other]

/-- The created path names the new entry. -/
theorem Created.names (created : Created v p x n v') {path : Path} (names : Names v path p x) :
    Names v' path p x := by
  obtain ⟨dirs, tokens, leads⟩ := names.parent
  obtain ⟨_, entry⟩ := created.new
  exact ⟨⟨dirs, tokens, leads.mono created.kept⟩, (slot_eq_some.mp entry).1, names.length,
    names.undotted⟩

end Volume

theorem Names.of_tree_eq {v v' : Volume} {path : Path} {p : CInt} {x : List Byte}
    (names : Names v path p x) (same : v'.tree = v.tree) : Names v' path p x := by
  obtain ⟨dirs, tokens, leads⟩ := names.parent
  have dir : v'.tree.dir p = v.tree.dir p := by rw [same]
  exact ⟨⟨dirs, tokens, same ▸ leads⟩, dir.mpr names.dir, names.length, names.undotted⟩

/-! ## Each call in a sound view -/

theorem View.drop_of_zero {w : View} (zero : w.heap = fun _ _ => 0#8) (count : Nat) :
    { w with heap := fun n => w.heap (n + count) } = w := by
  have same : (fun n => w.heap (n + count)) = w.heap := by rw [zero]
  rw [same]

namespace View.Sound

variable {offsets : CInt → Prop} {w : View} (sound : w.Sound offsets) {path : Path} {p n : CInt}
  {x : List Byte}

section Create

variable (names : Names w.volume path p x) (new : ∀ m, ¬ w.volume.tree.Refers p x m)
  (free : w.volume.HasFreeInode)

include sound names new free

theorem createFile (start : offsets 0#32) {s : Slot} (slot : w.volume.freeSlot p = some s) :
    ∃ w', Yields (createFile path) w (openAt w.pFileDesc w.volume.freeInodeNum).1 w' ∧
      w'.Sound offsets ∧
      w'.volume = (w.volume.putEntry p s w.volume.freeInodeNum x).newFile w.volume.freeInodeNum ∧
      w'.pFileDesc = (openAt w.pFileDesc w.volume.freeInodeNum).2 ∧
      w'.pFileSysInfo.numAllocInodes = w.pFileSysInfo.numAllocInodes + 1 ∧
      w.volume.Created p x w.volume.freeInodeNum w'.volume := by
  obtain ⟨dirs, tokens, leads⟩ := names.parent
  obtain ⟨valid, unused⟩ := Volume.freeInodeNum_spec free
  obtain ⟨holds, empty⟩ := firstSlot_eq_some slot
  have created := Volume.created_newEntry unused sound.consistent names.dir holds
    (of_decide_eq_true empty) valid names.good new
  refine ⟨_, yields_createFile sound.consistent.searchable tokens leads names.dir slot free,
    ⟨created.consistent, created.freeBlank sound.freeBlank, ?_, ?_⟩, rfl, rfl, rfl, created⟩
  · funext k
    simp only [sound.zero]
  · refine sound_openAt (fun i => (sound.descriptors i).mono fun m _ file => ?_) ⟨?_, start⟩
    · exact ⟨created.isFile names.dir unused file.1, file.2⟩
    · simp [Volume.IsFile, Volume.newFile]

omit new free in
theorem createFile_full (full : w.volume.freeSlot p = none) :
    Yields (FS.createFile path) w (-1) w := by
  obtain ⟨dirs, tokens, leads⟩ := names.parent
  have run := yields_createFile_full sound.consistent.searchable tokens leads names.dir full
  rwa [drop_of_zero sound.zero] at run

theorem makeDir {r : Fin numOfDirectBlockPtr × Option (Fin numOfDirentPerBlock)}
    (room : w.volume.room p = some r) :
    ∃ w', Yields (makeDir path) w none w' ∧ w'.Sound offsets ∧ w'.volume = w.volume.makeDir p x r ∧
      w'.pFileDesc = w.pFileDesc ∧ w.volume.Created p x w.volume.freeInodeNum w'.volume := by
  obtain ⟨dirs, tokens, leads⟩ := names.parent
  have created := Volume.created_makeDir sound.consistent sound.freeBlank names.dir room free
    names.good new
  refine ⟨_, yields_makeDir sound.consistent.searchable tokens leads names.dir sound.zero room free,
    ⟨created.consistent, created.freeBlank sound.freeBlank, sound.zero, fun i => ?_⟩, rfl, rfl,
    created⟩
  exact (sound.descriptors i).mono fun m _ file =>
    ⟨created.isFile names.dir (Volume.freeInodeNum_spec free).2 file.1, file.2⟩

omit new free in
theorem makeDir_full (full : w.volume.room p = none) :
    Yields (FS.makeDir path) w (some (-1)) w := by
  obtain ⟨dirs, tokens, leads⟩ := names.parent
  have run := yields_makeDir_full sound.consistent.searchable tokens leads names.dir full
  rwa [drop_of_zero sound.zero] at run

end Create

section Existing

variable (names : Names w.volume path p x) (refers : w.volume.tree.Refers p x n)

include sound names refers

theorem openFile (start : offsets 0#32) (file : w.volume.IsFile n) :
    Yields (openFile path) w (openAt w.pFileDesc n).1
      { w with pFileDesc := (openAt w.pFileDesc n).2 } ∧
      ({ w with pFileDesc := (openAt w.pFileDesc n).2 } : View).Sound offsets := by
  obtain ⟨dirs, tokens, leads⟩ := names.parent
  obtain ⟨s, entry⟩ := refers
  have run := yields_openFile sound.consistent.searchable tokens leads names.dir entry
  have same : (fun k => w.heap (k + 1)) = w.heap := by rw [sound.zero]
  rw [same] at run
  exact ⟨run, sound.consistent, sound.freeBlank, sound.zero,
    sound_openAt sound.descriptors ⟨file, start⟩⟩

/-- A regular file is not a directory, so it holds no entries. -/
theorem removeFile (file : w.volume.IsFile n) (closed : w.Closed n) :
    ∃ w' s, Yields (removeFile path) w 1 w' ∧ w'.Sound offsets ∧
      w.volume.tree.slot p s = some (x, n) ∧
      w'.volume = (w.volume.dropEntry p s).release n ∧ w'.pFileDesc = w.pFileDesc ∧
      w'.pFileSysInfo.numAllocInodes = w.pFileSysInfo.numAllocInodes - 1 ∧
      w.volume.Removed p x n w'.volume := by
  obtain ⟨dirs, tokens, leads⟩ := names.parent
  obtain ⟨s, entry⟩ := refers
  have removed := Volume.removed_release sound.consistent entry names.good.proper
    fun entry' => absurd (Volume.slot_eq_some.mp entry').1 file.not_isDir
  refine ⟨_, s, yields_removeFile sound.consistent.searchable tokens leads names.dir entry,
    ⟨removed.consistent, removed.freeBlank sound.freeBlank, ?_, fun i => ?_⟩, entry, rfl, rfl, rfl,
    removed⟩
  · funext k
    simp only [sound.zero]
  · have desc := sound.descriptors i
    refine ⟨desc.used_iff, fun open' opened => ?_⟩
    have other := closed i open' (desc.used_iff.mpr ⟨open', opened⟩) opened
    exact ⟨removed.isFile names.dir other (desc.allowed open' opened).1,
      (desc.allowed open' opened).2⟩

theorem removeDir (dir : w.volume.IsDir n)
    (empty : ∀ y m, w.volume.tree.Refers n y m → y = dot ∨ y = dotDot) :
    ∃ w' s, Yields (removeDir path) w none w' ∧ w'.Sound offsets ∧
      w.volume.tree.slot p s = some (x, n) ∧ w'.volume = w.volume.removeDir p s n ∧
      w'.pFileDesc = w.pFileDesc ∧ w.volume.Removed p x n w'.volume := by
  obtain ⟨dirs, tokens, leads⟩ := names.parent
  obtain ⟨s, entry⟩ := refers
  have special : ∀ {s y m}, w.volume.tree.slot n s = some (y, m) → y = dot ∨ y = dotDot :=
    fun entry' => empty _ _ ⟨_, entry'⟩
  have removed := Volume.removed_removeDir sound.consistent entry names.good.proper special
  refine ⟨_, s, yields_removeDir sound.consistent tokens leads names.dir entry names.good.proper dir
    special, ⟨removed.consistent, removed.freeBlank sound.freeBlank, ?_, fun i => ?_⟩, entry, rfl,
    rfl, removed⟩
  · funext k
    simp only [sound.zero]
  · refine (sound.descriptors i).mono fun m _ file => ?_
    have other : m ≠ n := fun same => file.1.not_isDir (same ▸ dir)
    exact ⟨removed.isFile names.dir other file.1, file.2⟩

end Existing

section Transfers

variable {fileDesc length : CInt}

include sound

/-- The inode behind an open file exists. -/
theorem valid_opened (i : Fin maxFdEntryMax) (file : File) (opened : w.opened i file) :
    ValidInode file.inodeNum :=
  sound.consistent.used_valid _ ((sound.descriptors i).allowed file opened).1.1

/-- Writing through a descriptor leaves a sound view. -/
theorem written {i : Fin maxFdEntryMax} {file : File} (opened : w.opened i file) (pBuffer : Chunk)
    (ks : List (Fin numOfDirectBlockPtr)) {fileOffset : CInt} (inside : offsets fileOffset) :
    (w.written i file pBuffer ks fileOffset).Sound offsets := by
  obtain ⟨inode, _⟩ := (sound.descriptors i).allowed file opened
  have valid := sound.valid_opened i file opened
  have dirs := Volume.sameDirs_write valid pBuffer sound.consistent.blocks inode.not_isDir ks
  refine ⟨sound.consistent.write valid inode.not_isDir pBuffer ks,
    sound.freeBlank.write inode.1 pBuffer ks, ?_, ?_⟩
  · funext k
    simp only [View.written, sound.zero]
  · refine sound_moveOffset (fun j => (sound.descriptors j).mono fun m _ file => ?_) opened ?_
    · exact ⟨(dirs.isFile m).mpr file.1, file.2⟩
    · exact ⟨(dirs.isFile _).mpr inode, inside⟩

/-- Moving the offset of a descriptor leaves a sound view. -/
theorem moved {i : Fin maxFdEntryMax} {file : File} (opened : w.opened i file) {fileOffset : CInt}
    (inside : offsets fileOffset) :
    ({ w with pFileDesc := moveOffset w.pFileDesc i file fileOffset } : View).Sound offsets :=
  ⟨sound.consistent, sound.freeBlank, sound.zero, sound_moveOffset sound.descriptors opened
    ⟨((sound.descriptors i).allowed file opened).1, inside⟩⟩

/-- The open file behind a descriptor in use. -/
theorem exists_file (used : w.Opened fileDesc) : ∃ bound : fileDesc.toNat < maxFdEntryMax, ∃ file,
    w.opened ⟨fileDesc.toNat, bound⟩ file ∧ w.volume.IsFile file.inodeNum ∧
      offsets file.fileOffset := by
  obtain ⟨bound, used⟩ := used
  obtain ⟨file, opened⟩ := (sound.descriptors _).used_iff.mp used
  exact ⟨bound, file, opened, (sound.descriptors _).allowed file opened⟩

theorem closed (i : Fin maxFdEntryMax) {pOpenFile : FilePtr}
    (gone : ∀ file, pOpenFile ≠ .file file) :
    ({ w with pFileDesc := update w.pFileDesc i ⟨false, pOpenFile⟩ } : View).Sound offsets :=
  ⟨sound.consistent, sound.freeBlank, sound.zero, sound_close sound.descriptors i gone⟩

end Transfers

end View.Sound

namespace View.Sound

section AtBlock

variable {w : View} (sound : w.Sound AtBlock) {fileDesc length : CInt} (used : w.Opened fileDesc)

include sound used

/-- `WriteFile` either does nothing or writes the blocks from the offset on. -/
theorem writeFile (positive : 1 ≤ length.toInt) (pBuffer : Chunk) :
    ∃ bound : fileDesc.toNat < maxFdEntryMax, ∃ file c,
    w.opened ⟨fileDesc.toNat, bound⟩ file ∧ w.volume.IsFile file.inodeNum ∧ c ≤ 5 ∧
      file.fileOffset = BitVec.ofNat 32 (512 * c) ∧
      ((5 < c + blockCount length ∧ Yields (writeFile fileDesc pBuffer length) w (-1) w) ∨
        (c + blockCount length ≤ 5 ∧
          Yields (FS.writeFile fileDesc pBuffer length) w
            (512 * BitVec.ofNat 32 (blockCount length))
            (w.written ⟨fileDesc.toNat, bound⟩ file pBuffer (ptrRange c (blockCount length))
              (BitVec.ofNat 32 (512 * (c + blockCount length)))))) := by
  obtain ⟨bound, file, opened, inode, c, inside, offset⟩ := sound.exists_file used
  have valid := sound.valid_opened _ file opened
  refine ⟨bound, file, c, opened, inode, inside, offset, ?_⟩
  rcases Nat.lt_or_ge 5 (c + blockCount length) with tooLong | fits
  · exact Or.inl ⟨tooLong,
      yields_writeFile_reject bound opened valid pBuffer inside offset positive tooLong⟩
  · exact Or.inr ⟨fits,
      yields_writeFile bound opened valid pBuffer inside offset positive sound.consistent.blocks
      fits⟩

theorem readFile (nonneg : 0 ≤ length.toInt) (small : length.toInt ≤ 512)
    (before : ∀ (i : Fin maxFdEntryMax) file, (i : Nat) = fileDesc.toNat → w.opened i file →
      file.fileOffset.toInt < 2560) :
    ∃ w', Yields (effect (readFile fileDesc length)) w () w' ∧ w'.Sound AtBlock := by
  obtain ⟨bound, file, opened, inode, c, inside, offset⟩ := sound.exists_file used
  have last := before _ file rfl opened
  have next : c < 5 := by
    by_contra full
    rw [offset, show c = 5 by omega] at last
    exact absurd last (by decide)
  have count : length.toNat ≤ 512 := by
    rw [toInt_eq_toNat nonneg] at small
    omega
  refine ⟨_, fun s view => ?_, sound.moved opened ⟨c + 1, next, rfl⟩⟩
  obtain ⟨data, s', run, view', _⟩ := readFile_view bound opened sound.consistent.blocks
    (sound.valid_opened _ file opened) ⟨c, next⟩ offset count view
  exact ⟨s', by rw [effect, exec_bind, run]; rfl, view'⟩

end AtBlock

end View.Sound

/-! ## Calls that only read -/
/-- The code leaves the view as it is. -/
def Keeps {α : Type} (x : FS α) (w : View) : Prop := ∃ r, Yields x w r w

namespace Keeps

variable {α β : Type} {x : FS α} {next : α → FS β} {w : View}

private theorem pure (value : α) (w : View) : Keeps (Pure.pure value) w := ⟨value, .pure value w⟩

private theorem bind (first : Keeps x w) (second : ∀ r, Keeps (next r) w) :
    Keeps (x >>= next) w := by
  obtain ⟨r, run⟩ := first
  obtain ⟨r', run'⟩ := second r
  exact ⟨r', run.bind run'⟩

end Keeps

private theorem Yields.keeps {α β : Type} {x : FS α} {next : α → FS β} {w : View} {r : α}
    (first : Yields x w r w) (second : Keeps (next r) w) : Keeps (x >>= next) w := by
  obtain ⟨r', run⟩ := second
  exact ⟨r', first.bind run⟩

private theorem keeps_enumerateEntries {w : View} (dirEntrys : CInt) {entries : Block}
    (valid : ∀ j, entries.nameByte j 0 ≠ 0#8 → ValidInode (entries.entryInode j))
    (js : List (Fin numOfDirentPerBlock)) : ∀ listed,
    Keeps (enumerateEntries dirEntrys entries listed js) w := by
  induction js with
  | nil => exact fun listed => .pure _ w
  | cons j js induction =>
      intro listed
      rw [enumerateEntries]
      split_ifs with live
      · refine (yields_getInode w (valid j live)).keeps ?_
        dsimp only
        split_ifs
        · exact .pure _ w
        · exact induction _
      · exact induction listed

private theorem keeps_enumerateBlocks {w : View} (ok : w.volume.Consistent) {n : CInt}
    (dir : w.volume.IsDir n) (dirEntrys : CInt) (ks : List (Fin numOfDirectBlockPtr)) : ∀ listed,
    Keeps (enumerateBlocks dirEntrys (w.volume.inode n) listed ks) w := by
  induction ks with
  | nil => exact fun listed => .pure _ w
  | cons k ks induction =>
      intro listed
      rw [enumerateBlocks]
      split_ifs with holds
      · have valid : ∀ j, (w.volume.block (w.volume.ptr (n, k))).nameByte j 0 ≠ 0#8 →
            ValidInode ((w.volume.block (w.volume.ptr (n, k))).entryInode j) := by
          intro j live
          have entry : w.volume.tree.slot n (k, j) = some ((w.volume.entry n (k, j)).name,
              (w.volume.entry n (k, j)).inodeNum) :=
            Volume.slot_eq_some.mpr ⟨dir, holds, mt (Block.nameOf_eq_nil_iff _ j).mp live, rfl⟩
          exact ok.used_valid _ (ok.tree.used_target entry)
        refine (yields_bufRead (ok.blocks.dataBlock holds) w).keeps ?_
        refine (keeps_enumerateEntries dirEntrys valid _ listed).bind ?_
        rintro ⟨_ | _, listed'⟩
        · exact induction listed'
        · exact .pure _ w
      · exact induction listed

namespace View.Sound

variable {offsets : CInt → Prop} {w : View} (sound : w.Sound offsets) {path : Path} {p n : CInt}
  {x : List Byte} {dirs : List (List Byte)} (tokens : path.tokens = dirs ++ [x])
  (leads : w.volume.tree.Leads 0#32 dirs p) (dir : w.volume.IsDir p)

include sound

private theorem yields_malloc : Yields malloc w (w.heap 0) w := by
  have popped : w.pop = w := drop_of_zero sound.zero 1
  have run := KwHomework.yields_malloc w
  rwa [popped] at run

include tokens leads

include dir in
/-- `GetFileStatus` of a path whose parent exists. -/
theorem getFileStatus : Keeps (getFileStatus path) w := by
  obtain ⟨named, string⟩ := path.tokens_spec x (by simp [tokens])
  have find := yields_findName sound.consistent.searchable dir (spells_sprintf (w.heap 0) string)
  refine (yields_malloc sound).keeps ?_
  refine (yields_getDirPos sound.consistent.searchable tokens leads _).keeps ?_
  refine (yields_getInode w (sound.consistent.used_valid p dir.1)).keeps ?_
  refine Yields.keeps find ?_
  cases found : w.volume.lookup p x with
  | none => exact .pure _ w
  | some s =>
      have entry := Volume.slot_of_lookup dir named found
      have valid := sound.consistent.used_valid _ (sound.consistent.tree.used_target entry)
      exact (yields_getInode w valid).keeps (.pure _ w)

/-- `EnumerateDirStatus` of a directory. -/
theorem enumerateDirStatus (refers : w.volume.tree.Refers p x n) (dir : w.volume.IsDir n)
    (dirEntrys : CInt) : Keeps (enumerateDirStatus path dirEntrys) w := by
  obtain ⟨s, entry⟩ := refers
  obtain ⟨parent, _, _, same⟩ := Volume.slot_eq_some.mp entry
  have target : (w.volume.block (w.volume.ptr (p, s.1))).entryInode s.2 = n :=
    congrArg Block.Entry.inodeNum same
  have string := (path.tokens_spec x (by simp [tokens])).2
  have find := yields_findName sound.consistent.searchable parent (spells_sprintf (w.heap 0) string)
  refine (yields_malloc sound).keeps ?_
  refine (yields_getDirPos sound.consistent.searchable tokens leads _).keeps ?_
  refine (yields_getInode w (sound.consistent.used_valid p parent.1)).keeps ?_
  refine Yields.keeps find ?_
  simp only [sound.consistent.searchable.lookup_of_slot entry, Option.map_some, target]
  refine (yields_getInode w (sound.consistent.used_valid n dir.1)).keeps ?_
  exact (keeps_enumerateBlocks sound.consistent dir dirEntrys _ []).bind fun _ => .pure _ w

end View.Sound

/-! ## Runs -/

/-- Every well-formed call of a sound view succeeds and leaves a sound view. -/
theorem View.Sound.step {w : View} {c : Call} (sound : w.Sound AtBlock) (fine : c.WellFormed w) :
    ∃ w', Yields c.code w () w' ∧ w'.Sound AtBlock := by
  obtain ⟨proper, bounds⟩ := fine
  cases c with
  | createFile path =>
      obtain ⟨p, x, names, new, free⟩ := proper
      cases slot : w.volume.freeSlot p with
      | none => exact ⟨w, (sound.createFile_full names slot).effect, sound⟩
      | some s =>
          obtain ⟨w', run, sound', _⟩ := sound.createFile names new free atBlock_zero slot
          exact ⟨w', run.effect, sound'⟩
  | openFile path =>
      obtain ⟨p, x, n, names, refers, file⟩ := proper
      obtain ⟨run, sound'⟩ := sound.openFile names refers atBlock_zero file
      exact ⟨_, run.effect, sound'⟩
  | writeFile fd buffer length =>
      obtain ⟨used, positive⟩ := bounds
      obtain ⟨_, file, c, opened, _, _, _, ⟨_, run⟩ | ⟨fits, run⟩⟩ :=
        sound.writeFile used positive buffer
      · exact ⟨w, run.effect, sound⟩
      · exact ⟨_, run.effect, sound.written opened buffer _ ⟨_, fits, rfl⟩⟩
  | readFile fd length =>
      obtain ⟨used, nonneg, small, before⟩ := bounds
      exact sound.readFile used nonneg small before
  | closeFile fd =>
      obtain ⟨bound, file, opened, _⟩ := sound.exists_file bounds
      exact ⟨_, yields_closeFile bound opened, sound.closed _ fun _ same => by cases same⟩
  | removeFile path =>
      obtain ⟨p, x, n, names, refers, file, closed⟩ := proper
      obtain ⟨w', _, run, sound', _⟩ := sound.removeFile names refers file closed
      exact ⟨w', run.effect, sound'⟩
  | makeDir path =>
      obtain ⟨p, x, names, new, free⟩ := proper
      cases room : w.volume.room p with
      | none => exact ⟨w, (sound.makeDir_full names room).effect, sound⟩
      | some r =>
          obtain ⟨w', run, sound', _⟩ := sound.makeDir names new free room
          exact ⟨w', run.effect, sound'⟩
  | removeDir path =>
      obtain ⟨p, x, n, names, refers, dir, empty⟩ := proper
      obtain ⟨w', _, run, sound', _⟩ := sound.removeDir names refers dir empty
      exact ⟨w', run.effect, sound'⟩
  | enumerateDirStatus path count =>
      obtain ⟨dirs, x, p, n, tokens, leads, refers, dir⟩ := proper
      obtain ⟨_, run⟩ := sound.enumerateDirStatus tokens leads refers dir count
      exact ⟨w, run.effect, sound⟩
  | getFileStatus path =>
      obtain ⟨dirs, x, p, tokens, leads, dir⟩ := proper
      obtain ⟨_, run⟩ := sound.getFileStatus tokens leads dir
      exact ⟨w, run.effect, sound⟩
  | sync => exact ⟨w, fun s view => ⟨s, exec_bufSync s, view⟩, sound⟩

theorem exec_of_effect {α : Type} {x : FS α} {s s' : FileSys}
    (run : exec (effect x) s = some ((), s')) : ∃ r, exec x s = some (r, s') := by
  obtain ⟨r, s₁, first, rest⟩ := exec_bind_eq_some run
  simp only [exec_pure, Option.some.injEq, Prod.mk.injEq, true_and] at rest
  exact ⟨r, rest ▸ first⟩

theorem Yields.view_of_effect {α : Type} {x : FS α} {s s' : FileSys} {r : α} {w' : View}
    (yields : Yields x s.view r w') (run : exec (KwHomework.effect x) s = some ((), s')) :
    s'.view = w' :=
  (yields.effect.unique run).2

/-- The call moves the offset of a descriptor. -/
def Call.Transfers : Call → Prop
  | .writeFile .. | .readFile .. => True
  | _ => False

/-- A proper call that succeeds leaves a sound view, if it leaves the offsets where they are
allowed. -/
theorem View.Sound.call_of_moved {offsets : CInt → Prop} (start : offsets 0#32) {s s' : FileSys}
    {c : Call} (sound : s.view.Sound offsets) (proper : c.Proper s.view)
    (run : exec c.code s = some ((), s'))
    (moved : c.Transfers → ∀ i file, s'.view.opened i file → offsets file.fileOffset) :
    s'.view.Sound offsets := by
  cases c with
  | createFile path =>
      obtain ⟨p, x, names, new, free⟩ := proper
      cases slot : s.view.volume.freeSlot p with
      | none => rwa [(sound.createFile_full names slot).view_of_effect run]
      | some slot' =>
          obtain ⟨w', yields, sound', _⟩ := sound.createFile names new free start slot
          rwa [yields.view_of_effect run]
  | openFile path =>
      obtain ⟨p, x, n, names, refers, file⟩ := proper
      obtain ⟨yields, sound'⟩ := sound.openFile names refers start file
      rwa [yields.view_of_effect run]
  | writeFile fd buffer length =>
      obtain ⟨r, run⟩ := exec_of_effect run
      obtain ⟨i, file, _, opened, same | ⟨ks, offset, view⟩⟩ :=
        writeFile_view run sound.consistent.blocks sound.valid_opened
      · rwa [same]
      · have inside := moved trivial i ⟨offset, file.inodeNum⟩ (by
          rw [view]
          exact View.opened_written_self.mpr rfl)
        rw [view]
        exact sound.written opened buffer ks inside
  | readFile fd length =>
      obtain ⟨r, run⟩ := exec_of_effect run
      obtain ⟨_, i, file, _, opened, view⟩ := readFile_moves run sound.valid_opened
      have inside := moved trivial i ⟨file.fileOffset + 512, file.inodeNum⟩ (by
        rw [view]
        exact opened_moveOffset_self.mpr rfl)
      rw [view]
      exact sound.moved opened inside
  | closeFile fd =>
      obtain ⟨i, pOpenFile, gone, view⟩ := closeFile_view run
      rw [view]
      exact sound.closed i gone
  | removeFile path =>
      obtain ⟨p, x, n, names, refers, file, closed⟩ := proper
      obtain ⟨w', _, yields, sound', _⟩ := sound.removeFile names refers file closed
      rwa [yields.view_of_effect run]
  | makeDir path =>
      obtain ⟨p, x, names, new, free⟩ := proper
      cases room : s.view.volume.room p with
      | none => rwa [(sound.makeDir_full names room).view_of_effect run]
      | some r =>
          obtain ⟨w', yields, sound', _⟩ := sound.makeDir names new free room
          rwa [yields.view_of_effect run]
  | removeDir path =>
      obtain ⟨p, x, n, names, refers, dir, empty⟩ := proper
      obtain ⟨w', _, yields, sound', _⟩ := sound.removeDir names refers dir empty
      rwa [yields.view_of_effect run]
  | enumerateDirStatus path count =>
      obtain ⟨dirs, x, p, n, tokens, leads, refers, dir⟩ := proper
      obtain ⟨_, yields⟩ := sound.enumerateDirStatus tokens leads refers dir count
      rwa [yields.view_of_effect run]
  | getFileStatus path =>
      obtain ⟨dirs, x, p, tokens, leads, dir⟩ := proper
      obtain ⟨_, yields⟩ := sound.getFileStatus tokens leads dir
      rwa [yields.view_of_effect run]
  | sync =>
      obtain rfl : s = s' := by simpa [Call.code, FS.sync] using run
      exact sound

/-- A proper call that succeeds leaves a sound view, wherever the offsets are. -/
theorem View.Sound.call {s s' : FileSys} {c : Call} (sound : s.view.Sound fun _ => True)
    (proper : c.Proper s.view) (run : exec c.code s = some ((), s')) :
    s'.view.Sound fun _ => True :=
  sound.call_of_moved trivial proper run fun _ _ _ _ => trivial

end KwHomework
