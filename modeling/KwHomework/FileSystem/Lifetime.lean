import KwHomework.FileSystem.Format

/-!
# The life of a file

`CreateFile`, any number of calls of `WriteFile` through the new descriptor, `CloseFile` and
`RemoveFile` leave both bitmaps, the directories and the other inodes as they were: nothing leaks.
-/

namespace KwHomework

open Function FS

/-- `WriteFile` through one descriptor, again and again. -/
def writeAll (fileDesc : CInt) : List (Chunk × CInt) → FS Unit
  | [] => return ()
  | (pBuffer, length) :: writes => do
      let _ ← writeFile fileDesc pBuffer length
      writeAll fileDesc writes

/-- A file is created, written, closed and removed. -/
def lifetime (szFileName : Path) (writes : List (Chunk × CInt)) : FS CInt := do
  let fileDesc ← createFile szFileName
  writeAll fileDesc writes
  closeFile fileDesc
  removeFile szFileName

/-- Everything is as it was but the contents of free blocks and the counters of blocks. -/
structure Restored (w w' : View) : Prop where
  inodeUsed : w'.volume.inodeUsed = w.volume.inodeUsed
  blockUsed : ∀ b : CInt, b.toNat < 512 → w'.volume.blockUsed b = w.volume.blockUsed b
  entries : ∀ d x n, w'.volume.tree.Refers d x n ↔ w.volume.tree.Refers d x n
  inode : ∀ n, w.volume.inodeUsed n = true → w'.volume.inode n = w.volume.inode n
  file : ∀ n, w.volume.IsFile n → Volume.SameFile w.volume w'.volume n
  numAllocInodes : w'.pFileSysInfo.numAllocInodes = w.pFileSysInfo.numAllocInodes
  descriptors : ∀ i, (w'.pFileDesc i).bUsed = (w.pFileDesc i).bUsed
  /-- The inodes that are not in use, the released one among them, hold no blocks. -/
  blank : w'.volume.FreeBlank

/-! ## The writes -/

/-- What the writes through descriptor `i` keep, when it was opened on inode `n`. -/
structure Writing (i : Fin maxFdEntryMax) (n : CInt) (w w' : View) : Prop where
  sound : w'.Sound fun _ => True
  opened : ∃ c ≤ 5, w'.opened i ⟨BitVec.ofNat 32 (512 * c), n⟩
  bUsed : ∀ j, (w'.pFileDesc j).bUsed = (w.pFileDesc j).bUsed
  others : ∀ j, j ≠ i → w'.pFileDesc j = w.pFileDesc j
  inodeUsed : w'.volume.inodeUsed = w.volume.inodeUsed
  tree : w'.volume.tree = w.volume.tree
  same : ∀ m, m ≠ n → Volume.SameFile w.volume w'.volume m
  numAllocInodes : w'.pFileSysInfo.numAllocInodes = w.pFileSysInfo.numAllocInodes

section Writes

variable {i : Fin maxFdEntryMax} {n : CInt} {w w' : View}

theorem Writing.step (writing : Writing i n w w') (pBuffer : Chunk) {length : CInt}
    (positive : 1 ≤ length.toInt) : ∃ r w'',
    Yields (writeFile (BitVec.ofNat 32 i) pBuffer length) w' r w'' ∧ Writing i n w w'' := by
  obtain ⟨bound, here⟩ := descriptor_index i
  obtain ⟨c, inside, opened⟩ := writing.opened
  have sound := writing.sound
  have file := ((sound.descriptors i).allowed _ opened).1
  have valid := sound.valid_opened i _ opened
  have blocks := sound.consistent.blocks
  rw [← here] at opened
  rcases Nat.lt_or_ge 5 (c + blockCount length) with tooLong | fits
  · exact ⟨_, w', yields_writeFile_reject bound opened valid pBuffer inside rfl positive tooLong,
      writing⟩
  · refine ⟨_, _, yields_writeFile bound opened valid pBuffer inside rfl positive blocks fits, ?_⟩
    generalize ptrRange c (blockCount length) = ks
    rw [here] at opened ⊢
    have dirs := Volume.sameDirs_write valid pBuffer blocks file.not_isDir ks
    refine ⟨sound.written opened pBuffer ks trivial, ⟨_, fits, ?_⟩, fun j => ?_, fun j other => ?_,
      ?_, ?_, fun m other => ?_, ?_⟩
    · simp [Memory.opened, View.written, moveOffset]
    · rw [← writing.bUsed j]
      by_cases same : j = i
      · simp [View.written, moveOffset, same]
      · simp [View.written, moveOffset, same]
    · rw [← writing.others j other]
      simp [View.written, moveOffset, other]
    · exact dirs.used.trans writing.inodeUsed
    · exact dirs.tree.trans writing.tree
    · exact (writing.same m other).trans (.write blocks valid other pBuffer ks)
    · exact writing.numAllocInodes

private theorem Writing.run (writes : List (Chunk × CInt))
    (positive : ∀ e ∈ writes, 1 ≤ e.2.toInt) :
    Writing i n w w' →
    ∃ w'', Yields (writeAll (BitVec.ofNat 32 i) writes) w' () w'' ∧ Writing i n w w'' := by
  induction writes generalizing w' with
  | nil => exact fun writing => ⟨w', .pure () w', writing⟩
  | cons write writes induction =>
      intro writing
      obtain ⟨r, w₁, first, writing₁⟩ := writing.step write.1 (positive write (by simp))
      obtain ⟨w₂, rest, writing₂⟩ :=
        induction (fun e member => positive e (by simp [member])) writing₁
      exact ⟨w₂, first.bind rest, writing₂⟩

end Writes

/-! ## The first call and the last two -/

/-- What `CreateFile` does when an inode, a slot and descriptor `i` are free. -/
structure Begun (w : View) (p : CInt) (x : List Byte) (i : Fin maxFdEntryMax) (n : CInt)
    (w' : View) :
    Prop where
  sound : w'.Sound fun _ => True
  unused : w.volume.inodeUsed n = false
  available : (w.pFileDesc i).bUsed = false
  table : w'.pFileDesc = update w.pFileDesc i ⟨true, .file ⟨0#32, n⟩⟩
  numAllocInodes : w'.pFileSysInfo.numAllocInodes = w.pFileSysInfo.numAllocInodes + 1
  inode : ∀ m, m ≠ n → w'.volume.inode m = w.volume.inode m
  tree : ∃ e, w.volume.tree.slot p e = none ∧ w'.volume.tree = w.volume.tree.addFile p e x n
  created : w.volume.Created p x n w'.volume

section Life

variable {w w₁ w₂ : View} {path : Path} {p n : CInt} {x : List Byte} {i : Fin maxFdEntryMax}

theorem begun_createFile (sound : w.Sound fun _ => True) (names : Names w.volume path p x)
    (new : ∀ m, ¬ w.volume.tree.Refers p x m) (free : w.volume.HasFreeInode)
    (descriptor : ∃ i, (w.pFileDesc i).bUsed = false)
    (slot : ∃ e : Slot, w.volume.ptr (p, e.1) ≠ 0#32 ∧ (w.volume.entry p e).name = []) :
    ∃ (i : Fin maxFdEntryMax) (n : CInt) (w₁ : View),
      Yields (createFile path) w (BitVec.ofNat 32 i) w₁ ∧ Begun w p x i n w₁ := by
  obtain ⟨e, found⟩ := Volume.exists_freeSlot slot
  have unused := (Volume.freeInodeNum_spec free).2
  obtain ⟨holds, empty⟩ := firstSlot_eq_some found
  obtain ⟨w₁, create, sound₁, volume, table, count, created⟩ :=
    sound.createFile names new free trivial found
  obtain ⟨i, available, opens⟩ := exists_openAt descriptor w.volume.freeInodeNum
  simp only [opens] at create table
  refine ⟨i, _, w₁, create, sound₁, unused, available, table, count, fun m other => ?_,
    ⟨e, Volume.slot_eq_none (of_decide_eq_true empty), ?_⟩, created⟩
  · rw [volume]
    simp [Volume.newFile, Volume.putEntry, other]
  · rw [volume]
    exact Volume.tree_newEntry sound.consistent.blocks names.dir holds unused names.good.named
      names.good.string names.good.short

/-- The descriptor is open on the new file, and nothing was written. -/
theorem Begun.writing (begun : Begun w p x i n w₁) : Writing i n w₁ w₁ := by
  refine ⟨begun.sound, ⟨0, Nat.zero_le 5, ?_⟩, fun _ => rfl, fun _ _ => rfl, rfl, rfl,
    fun m _ => .refl _ m, rfl⟩
  rw [Memory.opened, begun.table, update_self]

/-- The path still names the file. -/
theorem Begun.names (begun : Begun w p x i n w₁) (writing : Writing i n w₁ w₂)
    (names : Names w.volume path p x) :
    w₂.volume.tree.Refers p x n ∧ Names w₂.volume path p x := by
  refine ⟨?_, (begun.created.names names).of_tree_eq writing.tree⟩
  rw [writing.tree]
  exact begun.created.new

theorem Begun.closed (begun : Begun w p x i n w₁) (writing : Writing i n w₁ w₂)
    (sound : w.Sound fun _ => True) :
    ({ w₂ with pFileDesc := closeAt w₂.pFileDesc i } : View).Closed n := by
  intro j file used opened same
  by_cases last : j = i
  · simp [closeAt, last] at used
  · simp only [closeAt, Memory.opened, update_of_ne last] at opened
    rw [writing.others j last, begun.table, update_of_ne last] at opened
    have old := ((sound.descriptors j).allowed file opened).1.1
    rw [same, begun.unused] at old
    cases old

private theorem refers_restored {v : Volume} {e e' : Slot} (ok : v.Consistent)
    (unused : v.inodeUsed n = false) (empty : v.tree.slot p e = none)
    (new : ∀ m, ¬ v.tree.Refers p x m) (wf : (v.tree.addFile p e x n).WellFormed 0#32 dot dotDot)
    (entry : (v.tree.addFile p e x n).slot p e' = some (x, n)) (d : CInt) (y : List Byte)
    (m : CInt) :
    ((v.tree.addFile p e x n).remove p e' n).Refers d y m ↔ v.tree.Refers d y m := by
  rw [wf.refers_remove entry, DirTree.refers_addFile empty]
  constructor
  · rintro ⟨_, elsewhere, ⟨parent, name, _⟩ | refers⟩
    · exact absurd ⟨parent, name⟩ elsewhere
    · exact refers
  · intro refers
    have fresh : ¬ v.tree.used n := by
      change ¬ v.inodeUsed n = true
      simp [unused]
    obtain ⟨s, old⟩ := refers
    refine ⟨(ok.tree.ne_of_fresh fresh old).1, ?_, Or.inr ⟨s, old⟩⟩
    rintro ⟨rfl, rfl⟩
    exact new m ⟨s, old⟩

theorem Begun.restored (begun : Begun w p x i n w₁) (writing : Writing i n w₁ w₂)
    (sound : w.Sound fun _ => True) (names : Names w.volume path p x)
    (new : ∀ m, ¬ w.volume.tree.Refers p x m) : ∃ w₄,
    Yields (removeFile path) { w₂ with pFileDesc := closeAt w₂.pFileDesc i } 1 w₄ ∧
      Restored w w₄ := by
  have ok := sound.consistent
  obtain ⟨c, _, opened⟩ := writing.opened
  have file := ((writing.sound.descriptors i).allowed _ opened).1
  have sound₃ : ({ w₂ with pFileDesc := closeAt w₂.pFileDesc i } : View).Sound fun _ => True :=
    writing.sound.closed i fun _ same => by cases same
  obtain ⟨refers, names₃⟩ := begun.names writing names
  obtain ⟨w₄, e', remove, sound₄, entry, volume, table, count, removed⟩ :=
    sound₃.removeFile names₃ refers file (begun.closed writing sound)
  have inode : ∀ m, m ≠ n → w₄.volume.inode m = w.volume.inode m := by
    intro m other
    rw [volume, Volume.inode_release_of_ne n other, ← begun.inode m other]
    exact (writing.same m other).inode
  have released : w₄.volume.inodeUsed = w.volume.inodeUsed := by
    rw [removed.used]
    change update w₂.volume.inodeUsed n false = _
    rw [writing.inodeUsed, begun.created.used, update_idem, ← begun.unused, update_eq_self]
  have apart : ∀ m, w.volume.inodeUsed m = true → m ≠ n := by
    rintro m used rfl
    rw [begun.unused] at used
    cases used
  refine ⟨w₄, remove, released, fun b small => ?_, fun d y m => ?_,
    fun m used => inode m (apart m used), fun m regular => ?_, ?_, fun j => ?_, sound₄.freeBlank⟩
  · refine ok.blocks.blockUsed_eq sound₄.consistent.blocks (funext fun ⟨m, k⟩ => ?_) small
    by_cases same : m = n
    · rw [same, sound₄.freeBlank n (by rw [released, begun.unused]) k,
        sound.freeBlank n begun.unused k]
    · rw [Volume.ptr, inode m same, Volume.ptr]
  · obtain ⟨e, empty, tree₁⟩ := begun.tree
    have tree₂ : w₂.volume.tree = w.volume.tree.addFile p e x n := writing.tree.trans tree₁
    obtain ⟨dir, holds, _, _⟩ := Volume.slot_eq_some.mp entry
    have gone : ((w₂.volume.dropEntry p e').release n).tree = w₂.volume.tree.remove p e' n :=
      Volume.tree_remove writing.sound.consistent.blocks dir holds
    have wf := writing.sound.consistent.tree
    change w₂.volume.tree.slot p e' = _ at entry
    rw [volume]
    change ((w₂.volume.dropEntry p e').release n).tree.Refers d y m ↔ _
    rw [tree₂] at gone wf entry
    rw [gone]
    exact refers_restored ok begun.unused empty new wf entry d y m
  · have other := apart m regular.1
    have notParent : m ≠ p := fun same => regular.not_isDir (same ▸ names.dir)
    exact (begun.created.same m notParent other).trans
      ((writing.same m other).trans (removed.same m notParent other))
  · rw [count]
    change w₂.pFileSysInfo.numAllocInodes - 1 = _
    rw [writing.numAllocInodes, begun.numAllocInodes, BitVec.add_sub_cancel]
  · rw [table]
    change (closeAt w₂.pFileDesc i j).bUsed = _
    by_cases same : j = i
    · rw [same, closeAt, update_self, begun.available]
    · rw [closeAt, update_of_ne same, writing.bUsed j, begun.table, update_of_ne same]

end Life

/-! ## The whole life -/

/-- A file that is created, written, closed and removed leaves nothing behind. -/
theorem lifetime_restores {s : FileSys} (reachable : Reachable Formatted Call.Proper s)
    {path : Path} {p : CInt} {x : List Byte} (names : Names s.view.volume path p x)
    (new : ∀ m, ¬ s.view.volume.tree.Refers p x m) (free : s.view.volume.HasFreeInode)
    (descriptor : ∃ i, (s.view.pFileDesc i).bUsed = false)
    (slot : ∃ e : Slot, s.view.volume.ptr (p, e.1) ≠ 0#32 ∧ (s.view.volume.entry p e).name = [])
    (writes : List (Chunk × CInt)) (positive : ∀ e ∈ writes, 1 ≤ e.2.toInt) :
    ∃ r s', exec (lifetime path writes) s = some (r, s') ∧ Restored s.view s'.view := by
  have sound := sound_of_proper reachable
  obtain ⟨i, n, w₁, create, begun⟩ := begun_createFile sound names new free descriptor slot
  obtain ⟨w₂, write, writing⟩ := begun.writing.run writes positive
  obtain ⟨bound, here⟩ := descriptor_index i
  obtain ⟨c, _, opened⟩ := writing.opened
  have close := yields_closeFile (w := w₂) bound (by rwa [here])
  rw [here] at close
  obtain ⟨w₄, remove, restored⟩ := begun.restored writing sound names new
  have life : Yields (lifetime path writes) s.view 1 w₄ := by
    refine create.bind ?_
    refine write.bind ?_
    exact close.bind remove
  obtain ⟨s', run, rfl⟩ := life s rfl
  exact ⟨1, s', run, restored⟩

/-- On a formatted disk the file `/a` is created, written twice and removed. -/
theorem lifetime_restores_formatted : ∃ s, Formatted s ∧
    ∃ r s', exec (lifetime pathA [(fun _ => 120#8, 512), (fun _ => 121#8, 4096)]) s = some (r, s') ∧
      Restored s.view s'.view := by
  obtain ⟨s, here⟩ := exists_formatted
  have names : Names s.view.volume pathA 0#32 [97#8] := by
    rw [here.view]
    exact Volume.names_pathA Volume.formatted_isDir
  refine ⟨s, here, lifetime_restores (.start here) names ?_ ?_ ?_ ?_ _ ?_⟩
  · rw [here.view]
    exact Volume.formatted_new (by decide) 0#32
  · rw [here.view]
    exact Volume.formatted_free
  · rw [here.view]
    exact ⟨0, rfl⟩
  · rw [here.view]
    exact Volume.formatted_room
  · intro e member
    simp only [List.mem_cons, List.not_mem_nil, or_false] at member
    rcases member with rfl | rfl
    · exact show 1 ≤ (512 : CInt).toInt by decide
    · exact show 1 ≤ (4096 : CInt).toInt by decide

end KwHomework
