import KwHomework.FileSystem.Contents
import KwHomework.FileSystem.Failures

/-!
# Descriptors and other files

A descriptor keeps the number of an inode, and `RemoveFile` does not look at descriptors.  So a
descriptor may outlive its file and refer to a later file that was given the number again, but a
write through it never reaches any other inode.
-/

namespace KwHomework

open Function FS

/-- Every inode whose entries are looked at along the path is that of a directory. -/
def Store.ThroughDirs (disk : Store) : CInt → List (List Byte) → Prop
  | cur, [] | cur, [_] => ∀ inode, disk.readInode cur = some inode → inode.type = fileTypeDir
  | cur, token :: nextToken :: rest => ∀ inode, disk.readInode cur = some inode →
      inode.type = fileTypeDir ∧ ∀ i entries j,
        disk.scan inode (nameMatches (cString token)) = some (some (i, entries, j)) →
        disk.ThroughDirs (entries.entryInode j) (nextToken :: rest)

private theorem Store.ThroughDirs.type {disk : Store} {cur : CInt} {tokens : List (List Byte)}
    {inode : Inode} (through : disk.ThroughDirs cur tokens)
    (read : disk.readInode cur = some inode) : inode.type = fileTypeDir := by
  cases tokens with
  | nil => exact through inode read
  | cons token tokens =>
      cases tokens with
      | nil => exact through inode read
      | cons nextToken rest => exact (through inode read).1

/-- The entry that `OpenFile` finds is that of a directory. -/
def FileSys.OpensDir (s : FileSys) (path : Path) : Prop :=
  ∃ last inode i entries j dir, s.disk.Ends path last inode ∧
    s.disk.scan inode (nameMatches (tokenOf (s.heap 0) last)) = some (some (i, entries, j)) ∧
    s.disk.readInode (entries.entryInode j) = some dir ∧ dir.type = fileTypeDir

/-- The states reached from a formatted disk by calls on files, whatever `malloc` returns.  Files
are created while an inode is free, and no directory is opened as a file. -/
inductive FileRun : FileSys → Prop
  | start {s heap} : Formatted s → FileRun { s with heap := heap }
  | createFile {s s' path r} : FileRun s → s.disk.ThroughDirs 0#32 path.tokens →
      s.view.volume.HasFreeInode → exec (createFile path) s = some (r, s') → FileRun s'
  | openFile {s s' path r} : FileRun s → s.disk.ThroughDirs 0#32 path.tokens → ¬ s.OpensDir path →
      exec (openFile path) s = some (r, s') → FileRun s'
  | writeFile {s s' fileDesc pBuffer length r} : FileRun s →
      exec (writeFile fileDesc pBuffer length) s = some (r, s') → FileRun s'
  | readFile {s s' fileDesc length r} : FileRun s →
      exec (readFile fileDesc length) s = some (r, s') → FileRun s'
  | closeFile {s s' fileDesc r} : FileRun s → exec (closeFile fileDesc) s = some (r, s') →
      FileRun s'
  | removeFile {s s' path r} : FileRun s → s.disk.ThroughDirs 0#32 path.tokens →
      exec (removeFile path) s = some (r, s') → FileRun s'

/-! ## What holds of the volume -/

namespace Volume

/-- The root is the only directory, and its entries lead to inodes. -/
structure Flat (v : Volume) : Prop where
  blocks : v.BlocksOwned
  root : (v.inode 0#32).type = fileTypeDir
  files : ∀ n, n ≠ 0#32 → (v.inode n).type ≠ fileTypeDir
  rootUsed : v.inodeUsed 0#32 = true ∨ ∀ k, v.ptr (0#32, k) = 0#32
  entries : ∀ k, v.ptr (0#32, k) ≠ 0#32 → ∀ j, ValidInode ((v.block (v.ptr (0#32, k))).entryInode j)

namespace Flat

variable {v : Volume} {n : CInt}

theorem fill (flat : v.Flat) (b : CInt) {contents : Block}
    (valid : ∀ j, ValidInode (contents.entryInode j)) : (v.fill b contents).Flat := by
  refine ⟨flat.blocks.fill _ _, flat.root, flat.files, flat.rootUsed, fun k holds j => ?_⟩
  rw [ptr_fill, block_fill]
  by_cases same : v.ptr (0#32, k) = b
  · rw [same, update_self]
    exact valid j
  · rw [update_of_ne same]
    exact flat.entries k holds j

private theorem newFile (flat : v.Flat) (other : n ≠ 0#32) : (v.newFile n).Flat := by
  refine ⟨flat.blocks.newFile n, ?_, fun m notRoot => ?_, ?_, ?_⟩
  · rw [Volume.newFile, inode_markInode, inode_setInode, update_of_ne other.symm]
    exact flat.root
  · rw [Volume.newFile, inode_markInode, inode_setInode]
    by_cases same : m = n
    · rw [same, update_self]
      exact show fileTypeFile ≠ fileTypeDir by decide
    · rw [update_of_ne same]
      exact flat.files m notRoot
  · rw [ptr_newFile, Volume.newFile, inodeUsed_markInode, update_of_ne other.symm]
    exact flat.rootUsed
  · rw [ptr_newFile]
    exact flat.entries

private theorem release (flat : v.Flat) (n : CInt) : (v.release n).Flat := by
  have type : ∀ m, ((v.release n).inode m).type = (v.inode m).type := by
    intro m
    by_cases same : m = n
    · rw [same, inode_release_self]
    · rw [inode_release_of_ne n same]
  refine ⟨flat.blocks.release n, ?_, fun m notRoot => ?_, ?_, fun k holds j => ?_⟩
  · rw [type]
    exact flat.root
  · rw [type]
    exact flat.files m notRoot
  · by_cases root : 0#32 = n
    · refine Or.inr fun k => ?_
      rw [ptr_release, if_pos root]
    · refine flat.rootUsed.imp (fun used => ?_) fun null k => ?_
      · rw [inodeUsed_release, update_of_ne root]
        exact used
      · rw [ptr_release, if_neg root]
        exact null k
  · rw [ptr_release] at holds ⊢
    split_ifs at holds ⊢ with root
    · exact absurd rfl holds
    · rw [block_release]
      exact flat.entries k holds j

private theorem write (flat : v.Flat) (valid : ValidInode n) (other : n ≠ 0#32) (pBuffer : Chunk)
    (ks : List (Fin numOfDirectBlockPtr)) : (v.write n pBuffer ks).1.Flat := by
  have notDir : ¬ v.IsDir n := fun dir => flat.files n other dir.2
  have dirs := sameDirs_write valid pBuffer flat.blocks notDir ks
  have root := SameFile.write flat.blocks valid other.symm pBuffer ks
  refine ⟨BlocksOwned.writeSteps valid pBuffer ks flat.blocks, ?_, fun m notRoot => ?_, ?_,
    fun k holds j => ?_⟩
  · rw [dirs.type]
    exact flat.root
  · rw [dirs.type]
    exact flat.files m notRoot
  · rw [dirs.used]
    refine flat.rootUsed.imp_right fun null k => ?_
    rw [root.ptr]
    exact null k
  · rw [root.ptr] at holds ⊢
    rw [root.block k holds]
    exact flat.entries k holds j

end Flat

private theorem flat_formatted : formatted.Flat := by
  refine ⟨consistent_formatted.blocks, rfl, fun n other => ?_, Or.inl rfl, fun k holds j => ?_⟩
  · simp [formatted, Inode.blank, other]
  · have first : k = 0 := by
      by_contra later
      rw [ptr_formatted, update_of_ne (by simp [later])] at holds
      exact holds rfl
    have number : ((formatted.block (formatted.ptr (0#32, k))).entryInode j) =
        (formatted.entry 0#32 (k, j)).inodeNum := rfl
    rw [number, first, entry_formatted]
    split_ifs <;> decide

end Volume

/-! ## What holds between calls -/

/-- The open files are inodes other than the root. -/
def FilesOpened (fds : Fin maxFdEntryMax → FileDesc) : Prop :=
  ∀ i file, (fds i).pOpenFile = .file file → ValidInode file.inodeNum ∧ file.inodeNum ≠ 0#32

section Descriptors

variable {fds : Fin maxFdEntryMax → FileDesc} (files : FilesOpened fds)

include files

private theorem FilesOpened.update {i : Fin maxFdEntryMax} {desc : FileDesc}
    (fine : ∀ file, desc.pOpenFile = .file file → ValidInode file.inodeNum ∧ file.inodeNum ≠ 0#32) :
    FilesOpened (Function.update fds i desc) := by
  intro j file opened
  by_cases same : j = i
  · rw [same, update_self] at opened
    exact fine file opened
  · rw [update_of_ne same] at opened
    exact files j file opened

private theorem FilesOpened.openAt {n : CInt} (valid : ValidInode n) (other : n ≠ 0#32) :
    FilesOpened (openAt fds n).2 := by
  rw [KwHomework.openAt]
  cases firstUnused fds with
  | none => exact files
  | some i =>
      refine files.update ?_
      rintro file ⟨⟩
      exact ⟨valid, other⟩

private theorem FilesOpened.moveOffset {i : Fin maxFdEntryMax} {file : File}
    (opened : (fds i).pOpenFile = .file file) (fileOffset : CInt) :
    FilesOpened (moveOffset fds i file fileOffset) := by
  refine files.update ?_
  rintro file' ⟨⟩
  exact files i file opened

end Descriptors

/-- What holds between any two calls on files. -/
structure View.Flat (w : View) : Prop where
  volume : w.volume.Flat
  files : FilesOpened w.pFileDesc

private theorem View.Flat.valid {w : View} (flat : w.Flat) (i : Fin maxFdEntryMax) (file : File)
    (opened : w.opened i file) : ValidInode file.inodeNum :=
  (flat.files i file opened).1

/-! ## The walk stays in the root -/

section Walk

variable {s : FileSys}

private theorem readInode_eq {n : CInt} (valid : ValidInode n) :
    s.disk.readInode n = some (s.view.volume.inode n) :=
  (reads_getInode n).value (yields_getInode s.view valid)

theorem Volume.Flat.entry_of_scan (flat : s.view.volume.Flat)
    {test : Block → Fin numOfDirentPerBlock → Option Bool} {i : Fin numOfDirectBlockPtr}
    {entries : Block} {j : Fin numOfDirentPerBlock}
    (found : s.disk.scan (s.view.volume.inode 0#32) test = some (some (i, entries, j))) :
    s.view.volume.ptr (0#32, i) ≠ 0#32 ∧
      entries = s.view.volume.block (s.view.volume.ptr (0#32, i)) := by
  obtain ⟨holds, _, rfl, _⟩ := Store.scan_eq_some found
  refine ⟨holds, ?_⟩
  have data := flat.blocks.dataBlock (n := 0#32) holds
  exact (if_pos data).symm

theorem Volume.Flat.walk_root (flat : s.view.volume.Flat) {d : CInt} {last : Option (List Byte)}
    (tokens : List (List Byte)) : s.disk.ThroughDirs 0#32 tokens →
    s.disk.walk 0#32 tokens = some (d, last) → d = 0#32 := by
  have root := readInode_eq (s := s) (n := 0#32) (by decide)
  induction tokens with
  | nil =>
      intro _ walk
      simp only [Store.walk, Option.some.injEq, Prod.mk.injEq] at walk
      exact walk.1.symm
  | cons token tokens induction =>
      cases tokens with
      | nil =>
          intro _ walk
          simp only [Store.walk, Option.some.injEq, Prod.mk.injEq] at walk
          exact walk.1.symm
      | cons nextToken rest =>
          intro through walk
          obtain ⟨_, through⟩ := through _ root
          rw [Store.walk, root, Option.bind_eq_bind, Option.bind_some] at walk
          obtain ⟨found, scan, walk⟩ := Option.bind_eq_some_iff.mp walk
          cases found with
          | none =>
              obtain ⟨rfl, _⟩ : 0#32 = d ∧ none = last := by simpa using walk
              rfl
          | some found =>
              obtain ⟨i, entries, j⟩ := found
              have through := through i entries j scan
              obtain ⟨holds, rfl⟩ := flat.entry_of_scan scan
              have valid := flat.entries i holds j
              have type := through.type (readInode_eq valid)
              have home : (s.view.volume.block (s.view.volume.ptr (0#32, i))).entryInode j =
                  0#32 := by
                by_contra other
                exact flat.files _ other type
              change s.disk.walk _ _ = some (d, last) at walk
              rw [home] at through walk
              exact induction through walk

end Walk

/-! ## Each call -/

theorem Reads.exec_eq_some {α β : Type} {x : FS α} {next : α → FS β} {f : Store → Option α}
    (reads : Reads x f) {s s' : FileSys} {r : β} (run : exec (x >>= next) s = some (r, s')) :
    ∃ a, f s.disk = some a ∧ exec (next a) s = some (r, s') := by
  rw [reads.exec_then] at run
  exact Option.bind_eq_some_iff.mp run

theorem View.Flat.exec_walk {s s' : FileSys} {α : Type} {r : α} (flat : s.view.Flat) {path : Path}
    (through : s.disk.ThroughDirs 0#32 path.tokens) {chunk : Chunk} {next : DirPos → Inode → FS α}
    (run : exec (do
      let pos ← getDirPos path chunk
      let inode ← getInode pos.curInodeNo
      next pos inode) s = some (r, s')) :
    ∃ last, s.disk.walk 0#32 path.tokens = some (0#32, last) ∧
      exec (next (.ofWalk chunk (0#32, last)) (s.view.volume.inode 0#32)) s = some (r, s') := by
  obtain ⟨pos, walked, run⟩ := (reads_getDirPos path chunk).exec_eq_some run
  obtain ⟨⟨d, last⟩, walk, rfl⟩ := Option.map_eq_some_iff.mp walked
  obtain rfl := flat.volume.walk_root path.tokens through walk
  obtain ⟨inode, read, run⟩ := (reads_getInode _).exec_eq_some run
  have root : (DirPos.ofWalk chunk (0#32, last)).curInodeNo = 0#32 := by cases last <;> rfl
  rw [root, readInode_eq (by decide), Option.some.injEq] at read
  exact ⟨last, walk, read ▸ run⟩

theorem View.Flat.exec_scan {s s' : FileSys} {α : Type} {r : α} (flat : s.view.Flat)
    {test : Block → Fin numOfDirentPerBlock → Option Bool}
    {next : Option (Fin numOfDirectBlockPtr × Block × Fin numOfDirentPerBlock) → FS α}
    (run : exec (scanEntries (s.view.volume.inode 0#32) test >>= next) s = some (r, s')) :
    exec (next none) s = some (r, s') ∨ ∃ i j, s.view.volume.ptr (0#32, i) ≠ 0#32 ∧
      s.disk.scan (s.view.volume.inode 0#32) test =
        some (some (i, s.view.volume.block (s.view.volume.ptr (0#32, i)), j)) ∧
      exec (next (some (i, s.view.volume.block (s.view.volume.ptr (0#32, i)), j))) s =
        some (r, s') := by
  obtain ⟨found, scan, run⟩ := (reads_scanEntries _ _).exec_eq_some run
  cases found with
  | none => exact Or.inl run
  | some found =>
      obtain ⟨i, entries, j⟩ := found
      obtain ⟨holds, rfl⟩ := flat.volume.entry_of_scan scan
      exact Or.inr ⟨i, j, holds, scan, run⟩

section Calls

variable {s s' : FileSys} (flat : s.view.Flat)

include flat

private theorem View.Flat.pop : s.pop.view.Flat := ⟨flat.volume, flat.files⟩

private theorem flat_createFile {path : Path} {r : CInt}
    (through : s.disk.ThroughDirs 0#32 path.tokens)
    (free : s.view.volume.HasFreeInode) (run : exec (createFile path) s = some (r, s')) :
    s'.view.Flat := by
  obtain ⟨valid, unused⟩ := Volume.freeInodeNum_spec free
  obtain ⟨n, number, run⟩ := reads_getFreeInodeNum.exec_eq_some run
  obtain rfl := Option.some.inj
    (number.symm.trans (reads_getFreeInodeNum.value (yields_getFreeInodeNum s.view)))
  obtain ⟨_, _, alloc, run⟩ := exec_bind_eq_some run
  obtain ⟨rfl, rfl⟩ := Prod.mk.inj (Option.some.inj ((exec_malloc s).symm.trans alloc))
  obtain ⟨last, _, run⟩ := flat.pop.exec_walk through run
  rcases flat.pop.exec_scan run with done | ⟨i, j, holds, _, run⟩
  · obtain ⟨_, rfl⟩ := Prod.mk.inj (Option.some.inj done)
    exact flat.pop
  · have other : s.view.volume.freeInodeNum ≠ 0#32 := by
      intro same
      rw [same] at unused
      rcases flat.volume.rootUsed with used | null
      · rw [used] at unused
        cases unused
      · exact holds (null i)
    have data := flat.volume.blocks.dataBlock (n := 0#32) holds
    obtain ⟨_, view⟩ := (yields_addFile data _ valid).unique run
    rw [view]
    refine ⟨(flat.volume.fill _ fun j' => ?_).newFile other, flat.files.openAt valid other⟩
    rw [Block.entryInode_setEntry]
    split_ifs
    · exact valid
    · exact flat.volume.entries i holds j'

private theorem flat_openFile {path : Path} {r : CInt}
    (through : s.disk.ThroughDirs 0#32 path.tokens)
    (noDir : ¬ s.OpensDir path) (run : exec (openFile path) s = some (r, s')) : s'.view.Flat := by
  obtain ⟨_, _, alloc, run⟩ := exec_bind_eq_some run
  obtain ⟨rfl, rfl⟩ := Prod.mk.inj (Option.some.inj ((exec_malloc s).symm.trans alloc))
  obtain ⟨pos, walked, run⟩ := (reads_getDirPos path _).exec_eq_some run
  obtain ⟨⟨d, last⟩, walk, rfl⟩ := Option.map_eq_some_iff.mp walked
  obtain rfl := flat.pop.volume.walk_root path.tokens through walk
  cases last with
  | none =>
      obtain ⟨_, rfl⟩ := Prod.mk.inj (Option.some.inj run)
      exact flat.pop
  | some token =>
      rw [if_neg (result_ofWalk_ne _ _ token)] at run
      obtain ⟨inode, read, run⟩ := (reads_getInode _).exec_eq_some run
      have root : s.disk.readInode 0#32 = some (s.view.volume.inode 0#32) :=
        readInode_eq (by decide)
      obtain rfl := Option.some.inj (root.symm.trans read)
      rcases flat.pop.exec_scan run with done | ⟨i, j, holds, scan, run⟩
      · obtain ⟨_, rfl⟩ := Prod.mk.inj (Option.some.inj done)
        exact flat.pop
      · have valid := flat.volume.entries i holds j
        obtain ⟨_, view⟩ := (yields_openDescriptor _ _).unique run
        rw [view]
        refine ⟨flat.volume, flat.files.openAt valid fun home => noDir ?_⟩
        refine ⟨some token, _, i, _, j, _, ⟨0#32, walk, root⟩, scan, readInode_eq valid, ?_⟩
        rw [home]
        exact flat.volume.root

private theorem flat_removeFile {path : Path} {r : CInt}
    (through : s.disk.ThroughDirs 0#32 path.tokens)
    (run : exec (removeFile path) s = some (r, s')) : s'.view.Flat := by
  obtain ⟨_, _, alloc, run⟩ := exec_bind_eq_some run
  obtain ⟨rfl, rfl⟩ := Prod.mk.inj (Option.some.inj ((exec_malloc s).symm.trans alloc))
  obtain ⟨last, _, run⟩ := flat.pop.exec_walk through run
  rcases flat.pop.exec_scan run with done | ⟨i, j, holds, _, run⟩
  · obtain ⟨_, rfl⟩ := Prod.mk.inj (Option.some.inj done)
    exact flat.pop
  · have valid := flat.volume.entries i holds j
    have data := flat.volume.blocks.dataBlock (n := 0#32) holds
    obtain ⟨_, view⟩ :=
      (yields_dropFile (w := s.pop.view) flat.volume.blocks data _ valid).unique run
    rw [view]
    refine ⟨(flat.volume.fill _ fun j' => ?_).release _, flat.files⟩
    rw [Block.entryInode_clearEntry]
    split_ifs
    · decide
    · exact flat.volume.entries i holds j'

private theorem flat_writeFile {fileDesc length r : CInt} {pBuffer : Chunk}
    (run : exec (writeFile fileDesc pBuffer length) s = some (r, s')) : s'.view.Flat := by
  obtain ⟨i, file, _, opened, same | ⟨ks, offset, view⟩⟩ :=
    writeFile_view run flat.volume.blocks flat.valid
  · rwa [same]
  · obtain ⟨valid, other⟩ := flat.files i file opened
    rw [view]
    exact ⟨flat.volume.write valid other pBuffer ks, flat.files.moveOffset opened offset⟩

private theorem flat_readFile {fileDesc length : CInt} {r : CInt × List Byte}
    (run : exec (readFile fileDesc length) s = some (r, s')) : s'.view.Flat := by
  obtain ⟨_, i, file, _, opened, view⟩ := readFile_moves run flat.valid
  rw [view]
  exact ⟨flat.volume, flat.files.moveOffset opened _⟩

private theorem flat_closeFile {fileDesc : CInt} {r : Unit}
    (run : exec (closeFile fileDesc) s = some (r, s')) : s'.view.Flat := by
  obtain ⟨i, pOpenFile, gone, view⟩ := closeFile_view run
  rw [view]
  exact ⟨flat.volume, flat.files.update fun file same => absurd same (gone file)⟩

end Calls

/-- Every state of a run of calls on files. -/
theorem FileRun.flat {s : FileSys} (run : FileRun s) : s.view.Flat := by
  induction run with
  | @start s heap here =>
      have view := here.view
      refine ⟨?_, fun i file opened => ?_⟩
      · change s.view.volume.Flat
        rw [view]
        exact Volume.flat_formatted
      · change (s.view.pFileDesc i).pOpenFile = .file file at opened
        rw [view] at opened
        cases opened
  | createFile _ through free call flat => exact flat_createFile flat through free call
  | openFile _ through noDir call flat => exact flat_openFile flat through noDir call
  | writeFile _ call flat => exact flat_writeFile flat call
  | readFile _ call flat => exact flat_readFile flat call
  | closeFile _ call flat => exact flat_closeFile flat call
  | removeFile _ through call flat => exact flat_removeFile flat through call

/-- A `WriteFile` through a descriptor changes no inode but the one whose number the descriptor
holds, and no block of another file. -/
theorem writeFile_sameFile {s s' : FileSys} (reached : FileRun s) {fileDesc length r : CInt}
    {pBuffer : Chunk} (run : exec (writeFile fileDesc pBuffer length) s = some (r, s')) :
    ∃ (i : Fin maxFdEntryMax) (file : File), (i : Nat) = fileDesc.toNat ∧ s.view.opened i file ∧
      ∀ m, m ≠ file.inodeNum → s.view.volume.SameFile s'.view.volume m := by
  have flat := reached.flat
  obtain ⟨i, file, index, opened, same | ⟨ks, offset, view⟩⟩ :=
    writeFile_view run flat.volume.blocks flat.valid
  · refine ⟨i, file, index, opened, fun m _ => ?_⟩
    rw [same]
    exact .refl _ m
  · refine ⟨i, file, index, opened, fun m other => ?_⟩
    rw [view]
    exact .write flat.volume.blocks (flat.valid i file opened) other pBuffer ks

/-- Writing to `/a` after it was made. -/
theorem writeFile_sameFile_first : ∃ (s s' : FileSys) (r : CInt), FileRun s ∧
    exec (writeFile 0#32 (fun _ => 0#8) 512#32) s = some (r, s') ∧
    ∃ (i : Fin maxFdEntryMax) (file : File), (i : Nat) = (0#32 : CInt).toNat ∧
      s.view.opened i file ∧ ∀ m, m ≠ file.inodeNum → s.view.volume.SameFile s'.view.volume m := by
  obtain ⟨s₀, here⟩ := exists_formatted
  have sound : s₀.view.Sound fun _ => True := here.view ▸ View.formatted_sound
  have root : s₀.view.volume.IsDir 0#32 := here.view ▸ Volume.formatted_isDir
  have through : s₀.disk.ThroughDirs 0#32 pathA.tokens := by
    rw [tokens_pathA]
    intro inode read
    rw [readInode_eq (sound.consistent.used_valid _ root.1), Option.some.injEq] at read
    rw [← read]
    exact root.2
  have free : s₀.view.volume.HasFreeInode := here.view ▸ Volume.formatted_free
  obtain ⟨n, s₁, run₁, made⟩ := exists_createdA here
  have reached : FileRun s₁ := .createFile (.start here) through free run₁
  have opened : s₁.view.opened 0 ⟨0#32, n⟩ := by
    rw [Memory.opened, made.table, update_self]
  have valid := reached.flat.valid 0 _ opened
  have bound : (0#32 : CInt).toNat < maxFdEntryMax := by decide
  have positive : 1 ≤ (512#32 : CInt).toInt := by decide
  have fits : 0 + blockCount 512#32 ≤ 5 := by decide
  obtain ⟨s₂, run₂, _⟩ := yields_writeFile (c := 0) bound opened valid (fun _ => 0#8)
    (by decide) rfl positive reached.flat.volume.blocks fits s₁ rfl
  exact ⟨s₁, s₂, _, reached, run₂, writeFile_sameFile reached run₂⟩

/-- A descriptor of `/a` writes into `/b`, which was made after `/a` was removed. -/
theorem writeFile_reused_inode : ∃ (s₀ s₁ s₂ s₃ s₄ : FileSys) (fd n : CInt), Formatted s₀ ∧
    exec (createFile pathA) s₀ = some (0#32, s₁) ∧ exec (removeFile pathA) s₁ = some (1, s₂) ∧
    exec (createFile pathB) s₂ = some (fd, s₃) ∧ s₃.view.volume.tree.Refers 0#32 [98#8] n ∧
    exec (writeFile 0#32 (fun _ => 0#8) 512#32) s₃ = some (512, s₄) ∧
    s₄.view.volume.inode n ≠ s₃.view.volume.inode n := by
  obtain ⟨s₀, here⟩ := exists_formatted
  obtain ⟨n, s₁, run₁, made⟩ := exists_createdA here
  -- `/a` is removed while descriptor 0 refers to it
  obtain ⟨e, entry⟩ := made.created.new
  have consistent := made.created.consistent
  obtain ⟨root, holds, _, _⟩ := Volume.slot_eq_some.mp entry
  obtain ⟨apart, _⟩ := consistent.tree.proper_ne entry (by decide) (by decide)
  have file : s₁.view.volume.IsFile n :=
    ((made.sound.descriptors 0).allowed ⟨0#32, n⟩ (by rw [made.table, update_self])).1
  have removed := Volume.removed_release consistent entry (by decide)
    fun entry' => absurd (Volume.slot_eq_some.mp entry').1 file.not_isDir
  have tokensA : pathA.tokens = [] ++ [[97#8]] := tokens_pathA
  have leadsA : s₁.view.volume.tree.Leads 0#32 [] 0#32 := rfl
  obtain ⟨s₂, run₂, view₂⟩ :=
    yields_removeFile consistent.searchable tokensA leadsA root entry s₁ rfl
  -- the number of its inode is free again
  obtain ⟨valid, unused⟩ := Volume.freeInodeNum_spec Volume.formatted_free
  rw [← made.number] at valid unused
  have used : s₂.view.volume.inodeUsed = Volume.formatted.inodeUsed := by
    rw [view₂]
    dsimp only
    rw [removed.used, made.created.used, update_idem, ← unused, update_eq_self]
  have number : s₂.view.volume.freeInodeNum = n :=
    (Volume.freeInodeNum_congr used).trans made.number.symm
  have free : s₂.view.volume.HasFreeInode := ⟨n, valid, by rw [used]; exact unused⟩
  have consistent₂ : s₂.view.volume.Consistent := view₂ ▸ removed.consistent
  have root₂ : s₂.view.volume.IsDir 0#32 := by
    rw [view₂]
    exact (Volume.isDir_release _ _).mpr ⟨apart.symm, root⟩
  have cleared := (s₁.view.volume.block (s₁.view.volume.ptr (0#32, e.1))).entryAt_clearEntry e.2
  have pointers : ∀ m k, s₂.view.volume.ptr (m, k) =
      if m = n then 0#32 else s₁.view.volume.ptr (m, k) := by
    intro m k
    rw [view₂]
    exact Volume.ptr_release n (m, k)
  obtain ⟨slot, found⟩ : ∃ slot, s₂.view.volume.freeSlot 0#32 = some slot := by
    refine Volume.exists_freeSlot ⟨e, by rwa [pointers, if_neg apart.symm], ?_⟩
    rw [view₂]
    dsimp only
    rw [Volume.entry_release apart.symm, Volume.dropEntry,
      Volume.entry_fill consistent.blocks holds cleared, if_pos ⟨rfl, rfl⟩]
  have newB : ∀ m, ¬ s₂.view.volume.tree.Refers 0#32 [98#8] m := by
    rw [view₂]
    intro m refers
    rcases (made.created.refers 0#32 [98#8] m (by decide) (by decide)).mp
      (removed.fewer _ _ _ refers) with same | old
    · exact absurd same.2.1 (by decide)
    · exact Volume.formatted_new (by decide) 0#32 m old
  -- `/b` gets it
  have tokensB : pathB.tokens = [] ++ [[98#8]] := tokens_pathB
  have leadsB : s₂.view.volume.tree.Leads 0#32 [] 0#32 := rfl
  obtain ⟨s₃, run₃, view₃⟩ :=
    yields_createFile consistent₂.searchable tokensB leadsB root₂ found free s₂ rfl
  rw [number] at view₃
  obtain ⟨holds₂, empty₂⟩ := firstSlot_eq_some found
  have good : GoodName [98#8] := ⟨by decide, by decide, by decide, by decide⟩
  have created := Volume.created_newEntry (by rw [used]; exact unused) consistent₂ root₂ holds₂
    (of_decide_eq_true empty₂) valid good newB
  have new : s₃.view.volume.tree.Refers 0#32 [98#8] n := view₃ ▸ created.new
  have consistent₃ : s₃.view.volume.Consistent := view₃ ▸ created.consistent
  -- the descriptor still refers to it
  have opened : s₃.view.opened 0 ⟨0#32, n⟩ := by
    rw [Memory.opened, view₃]
    dsimp only
    rw [openAt_of_used] <;> rw [view₂, made.table, update_self]
  have bound : (0#32 : CInt).toNat < maxFdEntryMax := by decide
  have positive : 1 ≤ (512#32 : CInt).toInt := by decide
  have fits : 0 + blockCount 512#32 ≤ 5 := by decide
  obtain ⟨s₄, run₄, view₄⟩ := yields_writeFile (c := 0) bound opened valid (fun _ => 0#8)
    (by decide) rfl positive consistent₃.blocks fits s₃ rfl
  refine ⟨s₀, s₁, s₂, s₃, s₄, _, n, here, run₁, run₂, run₃, new, run₄, fun same => ?_⟩
  have hole : s₃.view.volume.ptr (n, 0) = 0#32 := by
    rw [view₃]
    change (Volume.newFile _ n).ptr (n, 0) = 0#32
    rw [Volume.ptr_newFile]
    exact (pointers n 0).trans (if_pos rfl)
  have written := Volume.content_write consistent₃.blocks valid (fun _ => 0#8)
    (ptrRange 0 (blockCount 512#32)) 0
  rw [if_pos (by decide)] at written
  have null : s₄.view.volume.ptr (n, 0) = 0#32 := by rw [Volume.ptr, same, ← hole, Volume.ptr]
  rw [view₄] at null
  cases written.symm.trans (Volume.content_eq_none.mpr null)

end KwHomework
