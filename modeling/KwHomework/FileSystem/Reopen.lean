import KwHomework.FileSystem.Format
import KwHomework.FileSystem.Walk

/-!
# Closing and opening again

Whatever changes `*pFileSysInfo` writes it back at once, so block 0 holds it between any two calls.
`CloseFileSystem` makes the disk agree with the cache, and the bits that `OpenFileSystem` sets are
set already.
-/

namespace KwHomework

open Function FS

/-- Block 0 holds `*pFileSysInfo`. -/
def FileSys.Stored (s : FileSys) : Prop :=
  FileSysInfo.ofBlock (s.disk filesysInfoBlock) = s.pFileSysInfo

/-- The code leaves block 0 and `*pFileSysInfo` in agreement if they were. -/
def KeepsStored {α : Type} (x : FS α) : Prop :=
  ∀ ⦃s r s'⦄, exec x s = some (r, s') → s.Stored → s'.Stored

/-- The code brings block 0 and `*pFileSysInfo` in agreement. -/
def Stores {α : Type} (x : FS α) : Prop :=
  ∀ ⦃s r s'⦄, exec x s = some (r, s') → s'.Stored

section Rules

variable {α β : Type} {x : FS α} {next : α → FS β}

private theorem Stores.keeps (stores : Stores x) : KeepsStored x := fun _ _ _ run _ => stores run

private theorem Stores.bind (stores : Stores x) (keeps : ∀ r, KeepsStored (next r)) :
    Stores (x >>= next) := by
  intro s r s' run
  obtain ⟨value, s₁, first, rest⟩ := exec_bind_eq_some run
  exact keeps value rest (stores first)

private theorem Stores.after (stores : ∀ r, Stores (next r)) : Stores (x >>= next) := by
  intro s r s' run
  obtain ⟨value, s₁, _, rest⟩ := exec_bind_eq_some run
  exact stores value rest

private theorem KeepsStored.bind (first : KeepsStored x) (second : ∀ r, KeepsStored (next r)) :
    KeepsStored (x >>= next) := by
  intro s r s' run stored
  obtain ⟨value, s₁, run₁, run₂⟩ := exec_bind_eq_some run
  exact second value run₂ (first run₁ stored)

private theorem KeepsStored.pure (value : α) : KeepsStored (Pure.pure value : FS α) := by
  intro s r s' run stored
  obtain ⟨_, rfl⟩ : value = r ∧ s = s' := by simpa using run
  exact stored

private theorem KeepsStored.fault : KeepsStored (FS.fault : FS α) := by
  intro s r s' run
  simp at run

private theorem Reads.keepsStored {f : Store → Option α} (reads : Reads x f) : KeepsStored x := by
  intro s r s' run stored
  rw [reads s, Option.map_eq_some_iff] at run
  obtain ⟨value, _, same⟩ := run
  obtain ⟨_, rfl⟩ := Prod.mk.inj same
  exact stored

theorem keepsStored_modify {change : Memory → Memory}
    (same : ∀ mem, (change mem).pFileSysInfo = mem.pFileSysInfo) :
    KeepsStored (modify change : FS PUnit) := by
  intro s r s' run stored
  obtain rfl := congrArg Prod.snd (Option.some.inj run)
  exact stored.trans (same _).symm

private theorem keepsStored_malloc : KeepsStored malloc := by
  intro s r s' run stored
  obtain rfl := congrArg Prod.snd (Option.some.inj run)
  exact stored

private theorem keepsStored_get : KeepsStored (get : FS Memory) := by
  intro s r s' run stored
  obtain rfl := congrArg Prod.snd (Option.some.inj run)
  exact stored

end Rules

theorem FileSysInfo.ofBlock_storeInts (blk : Block) (info : FileSysInfo) :
    FileSysInfo.ofBlock (blk.storeInts 0 10 info.field) = info := by
  have read : ∀ k < 10, (blk.storeInts 0 10 info.field).intAt (4 * k) = info.field k := by
    intro k small
    have field := Block.intAt_storeInts blk info.field (show 0 + 4 * 10 ≤ 512 by decide) small
    rwa [Nat.zero_add] at field
  rw [FileSysInfo.ofBlock]
  cases info
  simp only [FileSysInfo.mk.injEq]
  exact ⟨read 0 (by decide), read 1 (by decide), read 2 (by decide), read 3 (by decide),
    read 4 (by decide), read 5 (by decide), read 6 (by decide), read 7 (by decide),
    read 8 (by decide), read 9 (by decide)⟩

private theorem stores_writeInfo : Stores writeInfo := by
  intro s r s' run
  simp only [writeInfo, exec_bind, exec_malloc, Option.bind_some, exec_get] at run
  rw [exec_bufWrite (by decide)] at run
  obtain rfl := congrArg Prod.snd (Option.some.inj run)
  have written := FileSysInfo.ofBlock_storeInts (blockOf (s.heap 0)) s.pFileSysInfo
  rwa [← update_self (f := s.disk) filesysInfoBlock
    ((blockOf (s.heap 0)).storeInts 0 10 s.pFileSysInfo.field)] at written

/-! ## The calls -/

section Calls

variable (path : Path) (inodeno : CInt) (inode : Inode)

theorem keepsStored_bufWrite {blkno : CInt} (other : blkno ≠ filesysInfoBlock) (pData : Block) :
    KeepsStored (bufWrite blkno pData) := by
  intro s r s' run stored
  by_cases nonneg : 0 ≤ blkno.toInt
  · rw [exec_bufWrite nonneg] at run
    obtain rfl := congrArg Prod.snd (Option.some.inj run)
    have same : update s.disk blkno pData filesysInfoBlock = s.disk filesysInfoBlock :=
      update_of_ne other.symm _ _
    exact (congrArg FileSysInfo.ofBlock same).trans stored
  · rw [exec_bufWrite_of_neg nonneg] at run
    cases run

private theorem keepsStored_openDescriptor : KeepsStored (openDescriptor inodeno) := by
  intro s r s' run stored
  rw [openDescriptor, exec_bind, exec_get, Option.bind_some] at run
  split at run
  · obtain rfl := congrArg Prod.snd (Option.some.inj run)
    exact stored
  · obtain rfl := congrArg Prod.snd (Option.some.inj run)
    exact stored

private theorem keepsStored_lookup {α : Type}
    {test : DirPos → Block → Fin numOfDirentPerBlock → Option Bool} {next : DirPos → Inode →
      Option (Fin numOfDirectBlockPtr × Block × Fin numOfDirentPerBlock) → FS α}
    (missing : ∀ pos inode, KeepsStored (next pos inode none))
    (found : ∀ pos inode i entries j, KeepsStored (next pos inode (some (i, entries, j)))) :
    KeepsStored (do
      let token ← malloc
      let pos ← getDirPos path token
      let inode ← getInode pos.curInodeNo
      let found ← scanEntries inode (test pos)
      next pos inode found) := by
  refine keepsStored_malloc.bind fun token => ?_
  refine (reads_getDirPos path token).keepsStored.bind fun pos => ?_
  refine (reads_getInode _).keepsStored.bind fun inode => ?_
  refine (reads_scanEntries _ _).keepsStored.bind fun place => ?_
  cases place with
  | none => exact missing pos inode
  | some place => exact found pos inode place.1 place.2.1 place.2.2

private theorem keepsStored_createFile : KeepsStored (createFile path) := by
  refine reads_getFreeInodeNum.keepsStored.bind fun inodeNo => ?_
  refine keepsStored_lookup path (fun _ _ => .pure _) fun _ _ i entries j => ?_
  refine Stores.keeps <| .after fun _ => .after fun _ => .after fun _ => .after fun _ =>
    .after fun _ => ?_
  exact stores_writeInfo.bind fun _ => keepsStored_openDescriptor inodeNo

private theorem keepsStored_openFile : KeepsStored (openFile path) := by
  refine keepsStored_malloc.bind fun token => ?_
  refine (reads_getDirPos path token).keepsStored.bind fun pos => ?_
  split_ifs
  · exact .pure _
  · refine (reads_getInode _).keepsStored.bind fun parentInode => ?_
    refine (reads_scanEntries _ _).keepsStored.bind fun found => ?_
    cases found with
    | none => exact .pure _
    | some found => exact keepsStored_openDescriptor _

private theorem stores_releaseInode : Stores (releaseInode inodeno inode) :=
  .after fun _ => .after fun _ => .after fun _ => .after fun _ => stores_writeInfo

private theorem keepsStored_removeFile : KeepsStored (removeFile path) := by
  refine keepsStored_lookup path (fun _ _ => .pure _) fun _ _ i entries j => ?_
  refine Stores.keeps <| .after fun _ => .after fun fileInode => ?_
  exact (stores_releaseInode _ fileInode).bind fun _ => .pure _

private theorem keepsStored_makeDir : KeepsStored (makeDir path) := by
  refine reads_getFreeInodeNum.keepsStored.bind fun inodeNo => ?_
  refine keepsStored_malloc.bind fun token => ?_
  refine (reads_getDirPos path token).keepsStored.bind fun pos => ?_
  refine (reads_getInode _).keepsStored.bind fun curInode => ?_
  refine (reads_scanSlots _).keepsStored.bind fun found => ?_
  cases found with
  | none => exact .pure _
  | some found =>
      obtain ⟨i, slot⟩ := found
      cases slot with
      | some slot =>
          refine Stores.keeps <| .after fun _ => .after fun _ => .after fun _ => .after fun _ =>
            .after fun _ => .after fun _ => .after fun _ => .after fun _ => .after fun _ => ?_
          exact stores_writeInfo.bind fun _ => .pure _
      | none =>
          refine Stores.keeps <| .after fun _ => .after fun _ => .after fun _ => .after fun _ =>
            .after fun _ => .after fun _ => .after fun _ => .after fun _ => .after fun _ =>
            .after fun _ => .after fun _ => .after fun _ => .after fun _ => ?_
          exact stores_writeInfo.bind fun _ => .pure _

private theorem keepsStored_removeDir : KeepsStored (removeDir path) := by
  refine keepsStored_lookup path (fun _ _ => .pure _) fun _ _ i entries j => ?_
  refine (reads_getInode _).keepsStored.bind fun curInode => ?_
  refine (reads_scanEntries _ _).keepsStored.bind fun occupied => ?_
  cases occupied with
  | some _ => exact .pure _
  | none =>
      refine (reads_scanEntries _ _).keepsStored.bind fun named => ?_
      cases named with
      | none => exact .pure _
      | some named =>
          refine Stores.keeps <| .after fun _ => .after fun _ => ?_
          exact (stores_releaseInode _ curInode).bind fun _ => .pure _

private theorem keepsStored_descIndex (fileDesc : CInt) : KeepsStored (descIndex fileDesc) := by
  rw [descIndex]
  split_ifs
  · exact .pure _
  · exact .fault

private theorem keepsStored_openFileOf (i : Fin maxFdEntryMax) : KeepsStored (openFileOf i) := by
  refine keepsStored_get.bind fun mem => ?_
  cases (mem.pFileDesc i).pOpenFile with
  | file file => exact .pure _
  | null => exact .fault
  | freed => exact .fault

private theorem keepsStored_setOffset (i : Fin maxFdEntryMax) (file : File) (fileOffset : CInt) :
    KeepsStored (setOffset i file fileOffset) := keepsStored_modify fun _ => rfl

private theorem keepsStored_writeFile (fileDesc length : CInt) (pBuffer : Chunk) :
    KeepsStored (writeFile fileDesc pBuffer length) := by
  refine (keepsStored_descIndex _).bind fun i => ?_
  refine (keepsStored_openFileOf i).bind fun file => ?_
  refine (reads_getInode _).keepsStored.bind fun pInode => ?_
  dsimp only
  split_ifs
  · exact .pure _
  · refine Stores.keeps <| .after fun _ => .after fun _ => .after fun _ => ?_
    exact stores_writeInfo.bind fun _ => (keepsStored_setOffset i file _).bind fun _ => .pure _

private theorem keepsStored_readFile (fileDesc length : CInt) :
    KeepsStored (readFile fileDesc length) := by
  refine (keepsStored_descIndex _).bind fun i => ?_
  refine (keepsStored_openFileOf i).bind fun file => ?_
  refine (reads_getInode _).keepsStored.bind fun pInode => ?_
  refine KeepsStored.bind ?_ fun k => ?_
  · rw [ptrIndex]
    split_ifs
    · exact .pure _
    · exact .fault
  · refine (reads_bufRead _).keepsStored.bind fun pData => ?_
    refine (keepsStored_setOffset i file _).bind fun _ => ?_
    split_ifs
    · exact .pure _
    · exact .fault

private theorem keepsStored_closeFile (fileDesc : CInt) : KeepsStored (closeFile fileDesc) := by
  intro s r s' run stored
  obtain ⟨i, s₁, index, rest⟩ := exec_bind_eq_some run
  have stored₁ := keepsStored_descIndex fileDesc index stored
  rw [exec_bind, exec_get, Option.bind_some] at rest
  split at rest
  · simp at rest
  · obtain rfl := congrArg Prod.snd (Option.some.inj rest)
    exact stored₁
  · obtain rfl := congrArg Prod.snd (Option.some.inj rest)
    exact stored₁

private theorem keepsStored_enumerateEntries (dirEntrys : CInt) (entries : Block)
    (js : List (Fin numOfDirentPerBlock)) : ∀ listed,
    KeepsStored (enumerateEntries dirEntrys entries listed js) := by
  induction js with
  | nil => exact fun _ => .pure _
  | cons j js induction =>
      intro listed
      rw [enumerateEntries]
      split_ifs
      · refine (reads_getInode _).keepsStored.bind fun tmpNode => ?_
        dsimp only
        split_ifs
        · exact .pure _
        · exact induction _
      · exact induction _

private theorem keepsStored_enumerateBlocks (dirEntrys : CInt)
    (ks : List (Fin numOfDirectBlockPtr)) :
    ∀ listed, KeepsStored (enumerateBlocks dirEntrys inode listed ks) := by
  induction ks with
  | nil => exact fun _ => .pure _
  | cons k ks induction =>
      intro listed
      rw [enumerateBlocks]
      split_ifs
      · refine (reads_bufRead _).keepsStored.bind fun entries => ?_
        refine (keepsStored_enumerateEntries _ _ _ _).bind fun result => ?_
        obtain ⟨full, listed⟩ := result
        cases full with
        | true => exact .pure _
        | false => exact induction _
      · exact induction _

private theorem keepsStored_enumerateDirStatus (dirEntrys : CInt) :
    KeepsStored (enumerateDirStatus path dirEntrys) := by
  refine keepsStored_lookup path (fun _ _ => .pure _) fun _ _ i entries j => ?_
  refine (reads_getInode _).keepsStored.bind fun curInode => ?_
  exact (keepsStored_enumerateBlocks _ _ _ _).bind fun _ => .pure _

private theorem keepsStored_getFileStatus : KeepsStored (getFileStatus path) := by
  refine keepsStored_lookup path (fun _ _ => .pure _) fun _ _ i entries j => ?_
  exact (reads_getInode _).keepsStored.bind fun _ => .pure _

end Calls

theorem keepsStored_call (c : Call) : KeepsStored c.code := by
  have result : ∀ {α : Type} {x : FS α}, KeepsStored x → KeepsStored (effect x) := fun keeps =>
    keeps.bind fun _ => .pure _
  cases c with
  | createFile path => exact result (keepsStored_createFile path)
  | openFile path => exact result (keepsStored_openFile path)
  | writeFile fd pBuffer length => exact result (keepsStored_writeFile fd length pBuffer)
  | readFile fd length => exact result (keepsStored_readFile fd length)
  | closeFile fd => exact keepsStored_closeFile fd
  | removeFile path => exact result (keepsStored_removeFile path)
  | makeDir path => exact result (keepsStored_makeDir path)
  | removeDir path => exact result (keepsStored_removeDir path)
  | enumerateDirStatus path count => exact result (keepsStored_enumerateDirStatus path count)
  | getFileStatus path => exact result (keepsStored_getFileStatus path)
  | sync =>
      intro s r s' run stored
      obtain rfl : s = s' := by simpa [Call.code, FS.sync] using run
      exact stored

theorem stores_setRoot : Stores setRoot := by
  refine .after fun blkNo => .after fun inodeNo => .after fun _ => .after fun _ => .after fun _ =>
    .after fun _ => ?_
  refine stores_writeInfo.bind fun _ => ?_
  refine (reads_getInode _).keepsStored.bind fun _ => ?_
  refine KeepsStored.bind ?_ fun _ => KeepsStored.bind ?_ fun _ => ?_
  · exact (reads_bufRead _).keepsStored.bind fun _ => keepsStored_bufWrite (by decide) _
  · refine (reads_bufRead _).keepsStored.bind fun _ => ?_
    refine (reads_defined _).keepsStored.bind fun _ => ?_
    exact keepsStored_bufWrite (by decide) _
  · refine (reads_bufRead _).keepsStored.bind fun _ => ?_
    refine (reads_defined _).keepsStored.bind fun _ => ?_
    exact keepsStored_bufWrite (by decide) _

private theorem stores_createFileSystem : Stores createFileSystem :=
  .after fun _ => .after fun _ => .after fun _ => .after fun _ => .after fun _ => stores_setRoot

/-- In every state of a run block 0 holds `*pFileSysInfo`. -/
theorem stored_of_run {allowed : View → Call → Prop} {s : FileSys}
    (reachable : Reachable Formatted allowed s) : s.Stored := by
  induction reachable with
  | start here =>
      obtain ⟨s₀, _, _, run⟩ := here
      exact stores_createFileSystem run
  | call _ _ run stored => exact keepsStored_call _ run stored

/-! ## `OpenFileSystem` -/

private theorem toInt_ofNat_nonneg {i : Nat} (small : i < 512) :
    0 ≤ (BitVec.ofNat 32 i).toInt := by
  rw [BitVec.toInt_eq_toNat_of_lt (by rw [BitVec.toNat_ofNat]; omega)]
  omega

private theorem exec_readBlocks (blocks : List Nat) : (∀ i ∈ blocks, i < 512) → ∀ s : FileSys,
    exec (blocks.forM fun i => do
      let _ ← bufRead (BitVec.ofNat 32 i)) s = some ((), s) := by
  induction blocks with
  | nil =>
      intro _ s
      rfl
  | cons i blocks induction =>
      intro small s
      have first := toInt_ofNat_nonneg (small i (by simp))
      rw [List.forM, exec_bind, exec_bind, exec_bufRead first]
      exact induction (fun j member => small j (List.mem_cons_of_mem i member)) s

/-- Marking a used block used changes nothing. -/
theorem exec_setBlockBitmap_of_used {s : FileSys} {b : CInt} (inside : b.toNat < 512)
    (used : s.disk.volume.blockUsed b = true) : exec (setBlockBitmap b) s = some ((), s) := by
  have bit : (s.disk blockBitmapBlockNum).bitAt b.toNat = true := by
    simpa [Store.volume, inside] using used
  rw [exec_setBlockBitmap (Block.setBit_of_bitAt inside bit), update_eq_self]

private theorem exec_markReserved (blocks : List Nat) : (∀ i ∈ blocks, i < 6) → ∀ s : FileSys,
    (∀ b : CInt, b.toNat < 7 → s.disk.volume.blockUsed b = true) →
    exec (blocks.forM fun i => setBlockBitmap (BitVec.ofNat 32 i)) s = some ((), s) := by
  induction blocks with
  | nil =>
      intro _ s _
      rfl
  | cons i blocks induction =>
      intro small s reserved
      have first : (BitVec.ofNat 32 i).toNat < 7 := by
        have := small i (by simp)
        rw [BitVec.toNat_ofNat]
        omega
      rw [List.forM, exec_bind, exec_setBlockBitmap_of_used (by omega) (reserved _ first)]
      exact induction (fun j member => small j (List.mem_cons_of_mem i member)) s reserved

theorem exec_openFileSystem {s : FileSys}
    (reserved : ∀ b : CInt, b.toNat < 7 → s.disk.volume.blockUsed b = true) :
    exec openFileSystem s =
      some ((), { s with pFileSysInfo := .ofBlock (s.disk filesysInfoBlock) }) := by
  rw [openFileSystem, exec_bind, exec_readBlocks _ (fun i member => List.mem_range.mp member),
    Option.bind_some, exec_bind, exec_bufRead (by decide), Option.bind_some, exec_bind,
    exec_modifyInfo, Option.bind_some]
  exact exec_markReserved _ (fun i member => List.mem_range.mp member) _ reserved

/-- Closing writes the logical contents to the disk. -/
theorem run_closeFileSystem {c : BufCache} {s : FileSys} (impl : c.Implements s.disk) :
    ∃ c₁, (closeFileSystem.run s.toMemory).run cacheDevice c = some (((), s.toMemory), c₁) ∧
      c₁.dev.blocks = s.disk := by
  obtain ⟨l, shows, inv, logical⟩ := impl
  obtain ⟨c₁, run, shows₁⟩ := shows.bufSync inv
  refine ⟨c₁, ?_, ?_⟩
  · simp [closeFileSystem, bufSync, StateT.run, DeviceProgram.run, cacheDevice, run]
  · rw [shows₁.dev, inv.blocks_sync, logical]

/-- Opening a disk through an empty buffer cache. -/
theorem run_openFileSystem {fresh : BufCache} {disk : Store} (blocks : fresh.dev.blocks = disk)
    (reserved : ∀ b : CInt, b.toNat < 7 → disk.volume.blockUsed b = true) (mem : Memory) :
    ∃ c₂ c₃, fresh.bufInit = some c₂ ∧
      (openFileSystem.run mem).run cacheDevice c₂ = some (((),
        { mem with pFileSysInfo := .ofBlock (disk filesysInfoBlock) }), c₃) ∧
      c₃.Implements disk := by
  obtain ⟨c₂, init, impl⟩ := BufCache.bufInit_implements fresh
  rw [blocks] at impl
  have run := exec_openFileSystem (s := ⟨mem, disk⟩) reserved
  obtain ⟨c₃, run', impl'⟩ := exec_implemented (s := ⟨mem, disk⟩) impl run
  exact ⟨c₂, c₃, init, run', impl'⟩

/-- Closing the file system and opening it again over an empty buffer cache yields the same
contents of every block and the same `*pFileSysInfo`. -/
theorem reopen_of_run {s : FileSys} (reachable : Reachable Formatted Call.Proper s)
    {c : BufCache} (impl : c.Implements s.disk) :
    ∃ c₁, (closeFileSystem.run s.toMemory).run cacheDevice c = some (((), s.toMemory), c₁) ∧
      ∀ (fresh : BufCache) (mem : Memory), fresh.dev.blocks = c₁.dev.blocks →
        ∃ c₂ mem' c₃, fresh.bufInit = some c₂ ∧
          (openFileSystem.run mem).run cacheDevice c₂ = some (((), mem'), c₃) ∧
          c₃.Implements s.disk ∧ mem'.pFileSysInfo = s.pFileSysInfo := by
  obtain ⟨c₁, close, blocks⟩ := run_closeFileSystem impl
  refine ⟨c₁, close, ?_⟩
  intro fresh mem same
  obtain ⟨c₂, c₃, init, run, impl'⟩ := run_openFileSystem (same.trans blocks)
    (sound_of_proper reachable).consistent.blocks.reserved mem
  exact ⟨c₂, _, c₃, init, run, impl', stored_of_run reachable⟩

/-- A process formats the disk and creates `/a` through the cache, closes what its cache holds by
then, and opens the same device again. -/
theorem reopen_of_run_createFile :
    ∃ (s : FileSys) (mem mem₀ mem' : Memory) (empty formatted c c₁ c₂ c₃ : BufCache),
      Reachable Formatted Call.Proper s ∧ BufCache.blank.bufInit = some empty ∧
      (createFileSystem.run mem).run cacheDevice empty = some (((), mem₀), formatted) ∧
      ((createFile pathA).run mem₀).run cacheDevice formatted = some ((0#32, s.toMemory), c) ∧
      (closeFileSystem.run s.toMemory).run cacheDevice c = some (((), s.toMemory), c₁) ∧
      c₁.bufInit = some c₂ ∧
      (openFileSystem.run s.toMemory).run cacheDevice c₂ = some (((), mem'), c₃) ∧
      mem'.pFileSysInfo = s.pFileSysInfo := by
  let start : FileSys := ⟨⟨fun _ => ⟨false, .null⟩, .zeros, fun _ _ => 0#8⟩,
    BufCache.blank.dev.blocks⟩
  obtain ⟨s₀, format, _⟩ := exec_createFileSystem (s := start) rfl
  have here : Formatted s₀ := ⟨start, rfl, fun _ => rfl, format⟩
  obtain ⟨n, s, create, _⟩ := exists_createdA here
  obtain ⟨empty, init, impl₀⟩ := BufCache.bufInit_implements BufCache.blank
  obtain ⟨formatted, run₀, impl₁⟩ := exec_implemented (s := start) impl₀ format
  obtain ⟨c, run₁, impl⟩ := exec_implemented impl₁ create
  have reachable : Reachable Formatted Call.Proper s :=
    .call (c := .createFile pathA) (.start here) (here.view ▸ wellFormed_pathA.2.1)
      (by rw [Call.code, effect, exec_bind, create]; rfl)
  obtain ⟨c₁, close, again⟩ := reopen_of_run reachable impl
  obtain ⟨c₂, mem', c₃, init', run₂, _, info⟩ := again c₁ s.toMemory rfl
  exact ⟨s, _, _, mem', empty, formatted, c, c₁, c₂, c₃, reachable, init, run₀, run₁, close, init',
    run₂, info⟩

end KwHomework
