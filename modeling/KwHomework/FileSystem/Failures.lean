import KwHomework.FileSystem.Format
import KwHomework.FileSystem.Walk

/-!
# Failures that leave no trace

When a call returns -1 with the disk, the counters and the descriptors as they were, on any disk and
with any uninitialised memory.  Only `OpenFile` looks at what `getDirPos` returns; the other calls
go on with the inode that the walk ended at, and with whatever the buffer of the token holds.
-/

namespace KwHomework

open Function FS

/-- Nothing but uninitialised memory is different. -/
structure Untouched (s s' : FileSys) : Prop where
  disk : s'.disk = s.disk
  pFileSysInfo : s'.pFileSysInfo = s.pFileSysInfo
  pFileDesc : s'.pFileDesc = s.pFileDesc

/-- The call ends with a failure and leaves no trace. -/
def FailsClean {α : Type} (call : FS α) (failure : α → Prop) (s : FileSys) : Prop :=
  ∃ r s', exec call s = some (r, s') ∧ failure r ∧ Untouched s s'

/-- The contents of the buffer `token` after `getDirPos`. -/
def tokenOf (chunk : Chunk) (last : Option (List Byte)) : Chunk := last.elim chunk (sprintf chunk)

/-- The state after the buffer of the token was allocated. -/
abbrev FileSys.pop (s : FileSys) : FileSys := { s with heap := fun n => s.heap (n + 1) }

/-! ## What the calls have in common -/

section FailsClean

variable {α β : Type} {failure : α → Prop} {s : FileSys}

private theorem failsClean_of_exec {x y : FS α} {s₁ : FileSys} (same : exec x s = exec y s₁)
    (disk : s₁.disk = s.disk) (info : s₁.pFileSysInfo = s.pFileSysInfo)
    (fds : s₁.pFileDesc = s.pFileDesc) : FailsClean x failure s ↔ FailsClean y failure s₁ := by
  refine exists₂_congr fun r s' => ?_
  rw [same]
  refine and_congr_right fun _ => and_congr_right fun _ => ?_
  constructor
  · intro untouched
    exact ⟨untouched.disk.trans disk.symm, untouched.pFileSysInfo.trans info.symm,
      untouched.pFileDesc.trans fds.symm⟩
  · intro untouched
    exact ⟨untouched.disk.trans disk, untouched.pFileSysInfo.trans info,
      untouched.pFileDesc.trans fds⟩

private theorem failsClean_pure {r : α} (fails : failure r) : FailsClean (pure r) failure s :=
  ⟨r, s, rfl, fails, rfl, rfl, rfl⟩

theorem Reads.failsClean_iff {x : FS β} {next : β → FS α} {f : Store → Option β}
    (reads : Reads x f) :
    FailsClean (x >>= next) failure s ↔ ∃ b, f s.disk = some b ∧ FailsClean (next b) failure s := by
  cases result : f s.disk with
  | none =>
      refine iff_of_false ?_ (by simp)
      rintro ⟨r, s', run, _⟩
      rw [reads.exec_then, result] at run
      cases run
  | some b =>
      have same : exec (x >>= next) s = exec (next b) s := by
        rw [reads.exec_then, result, Option.bind_some]
      rw [failsClean_of_exec same rfl rfl rfl]
      simp

private theorem failsClean_malloc_iff {next : Chunk → FS α} :
    FailsClean (malloc >>= next) failure s ↔ FailsClean (next (s.heap 0)) failure s.pop :=
  failsClean_of_exec rfl rfl rfl rfl

theorem failsClean_walk_iff {path : Path} {chunk : Chunk} {next : DirPos → Inode → FS α} :
    FailsClean (do
      let pos ← getDirPos path chunk
      let inode ← getInode pos.curInodeNo
      next pos inode) failure s ↔
    ∃ d last inode, s.disk.walk 0#32 path.tokens = some (d, last) ∧
      s.disk.readInode d = some inode ∧
      FailsClean (next (.ofWalk chunk (d, last)) inode) failure s := by
  rw [(reads_getDirPos path chunk).failsClean_iff]
  constructor
  · rintro ⟨pos, walked, clean⟩
    obtain ⟨⟨d, last⟩, walk, rfl⟩ := Option.map_eq_some_iff.mp walked
    obtain ⟨inode, read, clean⟩ := (reads_getInode _).failsClean_iff.mp clean
    refine ⟨d, last, inode, walk, ?_, clean⟩
    cases last <;> exact read
  · rintro ⟨d, last, inode, walk, read, clean⟩
    refine ⟨_, by rw [walk]; rfl, (reads_getInode _).failsClean_iff.mpr ⟨inode, ?_, clean⟩⟩
    cases last <;> exact read

private theorem retToken_ofWalk (chunk : Chunk) (d : CInt) (last : Option (List Byte)) :
    (DirPos.ofWalk chunk (d, last)).retToken = tokenOf chunk last := by
  cases last <;> rfl

/-- A scan that finds nothing, or goes on with what it finds. -/
theorem failsClean_scan_iff {inode : Inode} {test : Block → Fin numOfDirentPerBlock → Option Bool}
    {next : Option (Fin numOfDirectBlockPtr × Block × Fin numOfDirentPerBlock) → FS α} :
    FailsClean (scanEntries inode test >>= next) failure s ↔
      (s.disk.NoEntry inode test ∧ FailsClean (next none) failure s) ∨
      ∃ i entries j, s.disk.scan inode test = some (some (i, entries, j)) ∧
        FailsClean (next (some (i, entries, j))) failure s := by
  rw [(reads_scanEntries inode test).failsClean_iff, ← Store.scan_eq_none_iff]
  constructor
  · rintro ⟨_ | ⟨i, entries, j⟩, found, clean⟩
    · exact Or.inl ⟨found, clean⟩
    · exact Or.inr ⟨i, entries, j, found, clean⟩
  · rintro (⟨found, clean⟩ | ⟨i, entries, j, found, clean⟩)
    · exact ⟨none, found, clean⟩
    · exact ⟨_, found, clean⟩

end FailsClean

/-! ## Code that leaves the counters alone -/

/-- The code leaves `*pFileSysInfo` as it is. -/
def KeepsInfo {α : Type} (x : FS α) : Prop :=
  ∀ s r s', exec x s = some (r, s') → s'.pFileSysInfo = s.pFileSysInfo

namespace KeepsInfo

variable {α β : Type} {x : FS α} {next : α → FS β}

private theorem bind (first : KeepsInfo x) (second : ∀ r, KeepsInfo (next r)) :
    KeepsInfo (x >>= next) := by
  intro s r s' run
  obtain ⟨r₁, s₁, run₁, run₂⟩ := exec_bind_eq_some run
  exact (second r₁ s₁ r s' run₂).trans (first s r₁ s₁ run₁)

end KeepsInfo

private theorem Reads.keepsInfo {α : Type} {x : FS α} {f : Store → Option α} (reads : Reads x f) :
    KeepsInfo x := by
  intro s r s' run
  rw [reads s] at run
  obtain ⟨r', _, same⟩ := Option.map_eq_some_iff.mp run
  rw [← (Prod.mk.inj same).2]

private theorem keepsInfo_bufWrite (blkno : CInt) (pData : Block) :
    KeepsInfo (bufWrite blkno pData) := by
  intro s r s' run
  by_cases nonneg : 0 ≤ blkno.toInt
  · rw [exec_bufWrite nonneg, Option.some.injEq, Prod.mk.injEq] at run
    rw [← run.2]
  · rw [exec_bufWrite_of_neg nonneg] at run
    cases run

private theorem keepsInfo_malloc : KeepsInfo malloc := by
  intro s r s' run
  simp only [exec_malloc, Option.some.injEq, Prod.mk.injEq] at run
  rw [← run.2]

private theorem keepsInfo_get : KeepsInfo (get : FS Memory) := by
  intro s r s' run
  simp only [exec_get, Option.some.injEq, Prod.mk.injEq] at run
  rw [← run.2]

private theorem keepsInfo_writeInfo : KeepsInfo writeInfo :=
  keepsInfo_malloc.bind fun _ => keepsInfo_get.bind fun _ => keepsInfo_bufWrite _ _

private theorem keepsInfo_putInode (inodeno : CInt) (pInode : Inode) :
    KeepsInfo (putInode inodeno pInode) :=
  (reads_bufRead _).keepsInfo.bind fun _ => keepsInfo_bufWrite _ _

private theorem keepsInfo_setInodeBitmap (inodeno : CInt) : KeepsInfo (setInodeBitmap inodeno) :=
  (reads_bufRead _).keepsInfo.bind fun _ => (reads_defined _).keepsInfo.bind fun _ =>
    keepsInfo_bufWrite _ _

/-- A free descriptor is opened, or the result is -1. -/
theorem exec_openDescriptor (inodeNo : CInt) (s : FileSys) :
    exec (openDescriptor inodeNo) s = some
      (match (List.finRange maxFdEntryMax).find? fun i => !(s.pFileDesc i).bUsed with
      | some i => (BitVec.ofNat 32 i, { s with
          pFileDesc := update s.pFileDesc i ⟨true, .file ⟨0#32, inodeNo⟩⟩ })
      | none => (-1, s)) := by
  rw [openDescriptor, exec_bind, exec_get, Option.bind_some]
  dsimp only
  cases (List.finRange maxFdEntryMax).find? fun i => !(s.pFileDesc i).bUsed with
  | none => rfl
  | some i => rfl

private theorem keepsInfo_openDescriptor (inodeNo : CInt) : KeepsInfo (openDescriptor inodeNo) := by
  intro s r s' run
  rw [exec_openDescriptor, Option.some.injEq] at run
  split at run
  · rw [← (Prod.mk.inj run).2]
  · rw [← (Prod.mk.inj run).2]

/-- The code changes `*pFileSysInfo`. -/
def ChangesInfo {α : Type} (x : FS α) : Prop :=
  ∀ s r s', exec x s = some (r, s') → s'.pFileSysInfo ≠ s.pFileSysInfo

namespace ChangesInfo

variable {α β : Type} {x : FS α} {next : α → FS β}

private theorem after (first : KeepsInfo x) (second : ∀ r, ChangesInfo (next r)) :
    ChangesInfo (x >>= next) := by
  intro s r s' run
  obtain ⟨r₁, s₁, run₁, run₂⟩ := exec_bind_eq_some run
  rw [← first s r₁ s₁ run₁]
  exact second r₁ s₁ r s' run₂

private theorem before (first : ChangesInfo x) (second : ∀ r, KeepsInfo (next r)) :
    ChangesInfo (x >>= next) := by
  intro s r s' run
  obtain ⟨r₁, s₁, run₁, run₂⟩ := exec_bind_eq_some run
  rw [second r₁ s₁ r s' run₂]
  exact first s r₁ s₁ run₁

private theorem not_failsClean {failure : α → Prop} {s : FileSys} (changes : ChangesInfo x) :
    ¬ FailsClean x failure s := by
  rintro ⟨r, s', run, _, untouched⟩
  exact changes s r s' run untouched.pFileSysInfo

end ChangesInfo

theorem changesInfo_modifyInfo {change : FileSysInfo → FileSysInfo}
    (counts : ∀ info, (change info).numAllocInodes = info.numAllocInodes + 1) :
    ChangesInfo (modifyInfo change) := by
  intro s r s' run same
  rw [exec_modifyInfo, Option.some.injEq, Prod.mk.injEq] at run
  have count := counts s.pFileSysInfo
  rw [← run.2] at same
  dsimp only at same
  rw [same] at count
  bv_omega

/-! ## Code that never fails -/

/-- The results that the code may end with. -/
def Returns {α : Type} (x : FS α) (result : α → Prop) : Prop :=
  ∀ s r s', exec x s = some (r, s') → result r

namespace Returns

variable {α β : Type} {x : FS α} {next : α → FS β} {result : α → Prop} {result' : β → Prop}

private theorem pure {value : α} (holds : result value) : Returns (Pure.pure value) result := by
  intro s r s' run
  obtain ⟨rfl, rfl⟩ : value = r ∧ s = s' := by simpa using run
  exact holds

private theorem bind (first : Returns x result)
    (second : ∀ r, result r → Returns (next r) result') :
    Returns (x >>= next) result' := by
  intro s r s' run
  obtain ⟨r₁, s₁, run₁, run₂⟩ := exec_bind_eq_some run
  exact second r₁ (first s r₁ s₁ run₁) s₁ r s' run₂

private theorem andThen (second : ∀ r, Returns (next r) result') :
    Returns (x >>= next) result' := by
  intro s r s' run
  obtain ⟨r₁, s₁, _, run₂⟩ := exec_bind_eq_some run
  exact second r₁ s₁ r s' run₂

private theorem not_failsClean {failure : α → Prop} {s : FileSys} (possible : α → Prop)
    (returns : Returns x possible) (never : ∀ r, possible r → ¬ failure r) :
    ¬ FailsClean x failure s := by
  rintro ⟨r, s', run, fails, _⟩
  exact never r (returns s r s' run) fails

end Returns

/-! ## The calls -/

section Calls

variable {s : FileSys} {path : Path}

private theorem failsClean_freeInodeNum_iff {α : Type} {next : CInt → FS α} {failure : α → Prop} :
    FailsClean (getFreeInodeNum >>= next) failure s ↔
      FailsClean (next ((s.disk inodeBitmapBlockNum).firstClear 8)) failure s := by
  rw [reads_getFreeInodeNum.failsClean_iff, Store.readBlock, if_pos (by decide)]
  simp

theorem failsClean_createFile_iff : FailsClean (createFile path) (· = -1) s ↔
    ∃ last inode, s.disk.Ends path last inode ∧ s.disk.NoEntry inode isFree := by
  rw [createFile, failsClean_freeInodeNum_iff, failsClean_malloc_iff, failsClean_walk_iff]
  constructor
  · rintro ⟨d, last, inode, walk, read, clean⟩
    rcases failsClean_scan_iff.mp clean with ⟨none, _⟩ | ⟨i, entries, j, _, clean⟩
    · exact ⟨last, inode, ⟨d, walk, read⟩, none⟩
    · refine absurd clean (ChangesInfo.not_failsClean ?_)
      exact .after (keepsInfo_bufWrite _ _) fun _ => .after (reads_getInode _).keepsInfo fun _ =>
        .after (keepsInfo_putInode _ _) fun _ => .after (keepsInfo_setInodeBitmap _) fun _ =>
        .before (changesInfo_modifyInfo fun _ => rfl) fun _ => keepsInfo_writeInfo.bind fun _ =>
        keepsInfo_openDescriptor _
  · rintro ⟨last, inode, ⟨d, walk, read⟩, none⟩
    exact ⟨d, last, inode, walk, read,
      failsClean_scan_iff.mpr (Or.inl ⟨none, failsClean_pure rfl⟩)⟩

theorem failsClean_makeDir_iff : FailsClean (makeDir path) (· = some (-1)) s ↔
    ∃ last inode, s.disk.Ends path last inode ∧ (∀ k, inode.dirBlockPtr k ≠ 0#32) ∧
      s.disk.NoEntry inode isFree := by
  rw [makeDir, makeDirWith]
  simp only [liftM_eq]
  rw [failsClean_freeInodeNum_iff, failsClean_malloc_iff, failsClean_walk_iff]
  constructor
  · rintro ⟨d, last, inode, walk, read, clean⟩
    obtain ⟨found, scan, clean⟩ := (reads_scanSlots inode).failsClean_iff.mp clean
    cases found with
    | none => exact ⟨last, inode, ⟨d, walk, read⟩, Store.scanRoom_eq_none_iff.mp scan⟩
    | some found =>
        refine absurd clean (Returns.not_failsClean (· = none) ?_ ?_)
        · obtain ⟨i, slot⟩ := found
          cases slot with
          | none =>
              repeat refine .andThen fun _ => ?_
              exact .pure rfl
          | some place =>
              repeat refine .andThen fun _ => ?_
              exact .pure rfl
        · rintro r rfl
          simp
  · rintro ⟨last, inode, ⟨d, walk, read⟩, full⟩
    exact ⟨d, last, inode, walk, read, (reads_scanSlots inode).failsClean_iff.mpr
      ⟨none, Store.scanRoom_eq_none_iff.mpr full, failsClean_pure rfl⟩⟩

section Lookup

variable {α : Type} {failure : α → Prop}
  {next : DirPos → Inode → Option (Fin numOfDirectBlockPtr × Block × Fin numOfDirentPerBlock) →
    FS α}
  (fails : ∀ pos inode, ∃ r, failure r ∧ next pos inode none = pure r)

include fails

theorem failsClean_lookup_iff : FailsClean (do
      let token ← malloc
      let pos ← getDirPos path token
      let inode ← getInode pos.curInodeNo
      let found ← scanEntries inode (nameMatches pos.retToken)
      next pos inode found) failure s ↔
    ∃ d last inode, s.disk.walk 0#32 path.tokens = some (d, last) ∧
      s.disk.readInode d = some inode ∧
      (s.disk.NoEntry inode (nameMatches (tokenOf (s.heap 0) last)) ∨
        ∃ i entries j, s.disk.scan inode (nameMatches (tokenOf (s.heap 0) last)) =
          some (some (i, entries, j)) ∧
          FailsClean (next (.ofWalk (s.heap 0) (d, last)) inode (some (i, entries, j))) failure
            s.pop) := by
  rw [failsClean_malloc_iff, failsClean_walk_iff]
  refine exists₃_congr fun d last inode => and_congr_right fun _ => and_congr_right fun _ => ?_
  rw [failsClean_scan_iff, retToken_ofWalk]
  refine or_congr (and_iff_left ?_) Iff.rfl
  obtain ⟨r, failure, same⟩ := fails (.ofWalk (s.heap 0) (d, last)) inode
  rw [same]
  exact failsClean_pure failure

/-- What goes on with an entry does not fail. -/
theorem failsClean_lookup_iff_noEntry (never : ∀ pos inode i entries j,
      ¬ FailsClean (next pos inode (some (i, entries, j))) failure s.pop) :
    FailsClean (do
      let token ← malloc
      let pos ← getDirPos path token
      let inode ← getInode pos.curInodeNo
      let found ← scanEntries inode (nameMatches pos.retToken)
      next pos inode found) failure s ↔
    ∃ last inode, s.disk.Ends path last inode ∧
      s.disk.NoEntry inode (nameMatches (tokenOf (s.heap 0) last)) := by
  rw [failsClean_lookup_iff fails]
  constructor
  · rintro ⟨d, last, inode, walk, read, none | ⟨i, entries, j, _, clean⟩⟩
    · exact ⟨last, inode, ⟨d, walk, read⟩, none⟩
    · exact absurd clean (never _ inode i entries j)
  · rintro ⟨last, inode, ⟨d, walk, read⟩, none⟩
    exact ⟨d, last, inode, walk, read, Or.inl none⟩

end Lookup

theorem failsClean_removeFile_iff : FailsClean (removeFile path) (· = -1) s ↔
    ∃ last inode, s.disk.Ends path last inode ∧
      s.disk.NoEntry inode (nameMatches (tokenOf (s.heap 0) last)) := by
  refine failsClean_lookup_iff_noEntry (fun _ _ => ⟨-1, rfl, rfl⟩) fun pos inode i entries j => ?_
  refine Returns.not_failsClean (· = 1) ?_ ?_
  · exact .andThen fun _ => .andThen fun _ => .andThen fun _ => .pure rfl
  · rintro r rfl
    decide

private theorem failsClean_getFileStatus_iff :
    FailsClean (getFileStatus path) (fun r => r.1 = some (-1)) s ↔
    ∃ last inode, s.disk.Ends path last inode ∧
      s.disk.NoEntry inode (nameMatches (tokenOf (s.heap 0) last)) := by
  refine failsClean_lookup_iff_noEntry (fun _ _ => ⟨_, rfl, rfl⟩) fun pos inode i entries j => ?_
  refine Returns.not_failsClean (fun r => r.1 = none) ?_ ?_
  · exact .andThen fun _ => .pure rfl
  · rintro ⟨r, status⟩ rfl
    simp

/-- The array never takes more than one entry for each slot. -/
theorem returns_enumerateEntries (dirEntrys : CInt) (entries : Block)
    (rest : List (Fin numOfDirentPerBlock)) : ∀ listed,
    Returns (enumerateEntries dirEntrys entries listed rest) fun r =>
      r.2.length ≤ listed.length + rest.length := by
  induction rest with
  | nil => exact fun listed => .pure (Nat.le_refl _)
  | cons j rest induction =>
      intro listed
      rw [enumerateEntries]
      split_ifs with occupied
      · refine .andThen fun tmpNode => ?_
        dsimp only
        split_ifs with full
        · refine .pure ?_
          simp only [List.length_append, List.length_cons, List.length_nil]
          omega
        · intro s r s' run
          have bound := induction _ s r s' run
          simp only [List.length_append, List.length_cons, List.length_nil] at bound ⊢
          omega
      · intro s r s' run
        have bound := induction listed s r s' run
        rw [List.length_cons]
        omega

private theorem returns_enumerateBlocks (dirEntrys : CInt) (curInode : Inode)
    (rest : List (Fin numOfDirectBlockPtr)) : ∀ listed,
    Returns (enumerateBlocks dirEntrys curInode listed rest) fun r =>
      r.length ≤ listed.length + 32 * rest.length := by
  induction rest with
  | nil => exact fun listed => .pure (Nat.le_refl _)
  | cons i rest induction =>
      intro listed
      rw [enumerateBlocks]
      split_ifs with holds
      · refine .andThen fun entries => (returns_enumerateEntries _ _ _ _).bind ?_
        rintro ⟨full, listed'⟩ bound
        rw [List.length_finRange] at bound
        change listed'.length ≤ listed.length + 32 at bound
        cases full with
        | true =>
            refine .pure ?_
            rw [List.length_cons]
            omega
        | false =>
            intro s r s' run
            have bound' := induction listed' s r s' run
            rw [List.length_cons]
            omega
      · intro s r s' run
        have bound := induction listed s r s' run
        rw [List.length_cons]
        omega

private theorem failsClean_enumerateDirStatus_iff {dirEntrys : CInt} :
    FailsClean (enumerateDirStatus path dirEntrys) (fun r => r.1 = -1) s ↔
    ∃ last inode, s.disk.Ends path last inode ∧
      s.disk.NoEntry inode (nameMatches (tokenOf (s.heap 0) last)) := by
  refine failsClean_lookup_iff_noEntry (fun _ _ => ⟨_, rfl, rfl⟩) fun pos inode i entries j => ?_
  refine Returns.not_failsClean (fun r => ∃ n ≤ 160, r.1 = BitVec.ofNat 32 n) ?_ ?_
  · refine .andThen fun curInode => (returns_enumerateBlocks _ _ _ _).bind fun listed bound => ?_
    exact .pure ⟨listed.length, bound.trans_eq (by rw [List.length_finRange]; rfl), rfl⟩
  · rintro ⟨r, listed⟩ ⟨n, bound, rfl⟩ same
    dsimp only at same
    bv_omega

theorem failsClean_removeDir_iff : FailsClean (removeDir path) (· = some (-1)) s ↔
    ∃ last inode, s.disk.Ends path last inode ∧
      (s.disk.NoEntry inode (nameMatches (tokenOf (s.heap 0) last)) ∨
        ∃ i entries j dir found, s.disk.scan inode (nameMatches (tokenOf (s.heap 0) last)) =
          some (some (i, entries, j)) ∧ s.disk.readInode (entries.entryInode j) = some dir ∧
          s.disk.scan dir isOccupied = some (some found)) := by
  refine Iff.trans (failsClean_lookup_iff ?_) ?_
  · exact fun _ _ => ⟨some (-1), rfl, rfl⟩
  constructor
  · rintro ⟨d, last, inode, walk, read, none | ⟨i, entries, j, entry, clean⟩⟩
    · exact ⟨last, inode, ⟨d, walk, read⟩, Or.inl none⟩
    · refine ⟨last, inode, ⟨d, walk, read⟩, Or.inr ?_⟩
      obtain ⟨dir, readDir, clean⟩ := (reads_getInode _).failsClean_iff.mp clean
      rcases failsClean_scan_iff.mp clean with ⟨_, clean⟩ | ⟨i', entries', j', occupied, _⟩
      · refine absurd clean ?_
        -- the second search finds what the first one found
        rw [failsClean_scan_iff]
        rintro (⟨none, _⟩ | ⟨i', entries', j', _, clean⟩)
        · obtain ⟨holds, _, rfl, _⟩ := Store.scan_eq_some entry
          have other := (none i holds).2 j
          simp [namesInode] at other
        · refine absurd clean (Returns.not_failsClean (· = Option.none) ?_ ?_)
          · exact .andThen fun _ => .andThen fun _ => .andThen fun _ => .pure rfl
          · rintro r rfl
            simp
      · exact ⟨i, entries, j, dir, _, entry, readDir, occupied⟩
  · rintro ⟨last, inode, ⟨d, walk, read⟩,
      none | ⟨i, entries, j, dir, found, entry, readDir, occupied⟩⟩
    · exact ⟨d, last, inode, walk, read, Or.inl none⟩
    · refine ⟨d, last, inode, walk, read, Or.inr ⟨i, entries, j, entry, ?_⟩⟩
      refine (reads_getInode _).failsClean_iff.mpr ⟨dir, readDir, ?_⟩
      obtain ⟨i', entries', j'⟩ := found
      exact failsClean_scan_iff.mpr (Or.inr ⟨i', entries', j', occupied, failsClean_pure rfl⟩)

/-- A descriptor is missing when all of them are used. -/
theorem failsClean_openDescriptor_iff {inodeNo : CInt} :
    FailsClean (openDescriptor inodeNo) (· = -1) s ↔ ∀ i, (s.pFileDesc i).bUsed = true := by
  rw [FailsClean, exec_openDescriptor]
  cases free : (List.finRange maxFdEntryMax).find? fun i => !(s.pFileDesc i).bUsed with
  | none =>
      have used : ∀ i, (s.pFileDesc i).bUsed = true := by simpa using free
      exact iff_of_true ⟨-1, s, rfl, rfl, rfl, rfl, rfl⟩ used
  | some i =>
      refine iff_of_false ?_ fun used => ?_
      · rintro ⟨r, s', run, fails, _⟩
        obtain ⟨rfl, _⟩ := Prod.mk.inj (Option.some.inj run)
        have small : i.val < 64 := i.isLt
        bv_omega
      · have unused := List.find?_some free
        simp [used i] at unused

theorem result_ofWalk_ne (chunk : Chunk) (d : CInt) (token : List Byte) :
    (DirPos.ofWalk chunk (d, some token)).result ≠ -1 := by
  show (1#32 : CInt) ≠ -1
  decide

private theorem failsClean_openFile_iff : FailsClean (openFile path) (· = -1) s ↔
    ∃ d last, s.disk.walk 0#32 path.tokens = some (d, last) ∧
      ∀ token, last = some token → ∃ inode, s.disk.readInode d = some inode ∧
        (s.disk.NoEntry inode (nameMatches (sprintf (s.heap 0) token)) ∨
          (∃ found, s.disk.scan inode (nameMatches (sprintf (s.heap 0) token)) =
            some (some found)) ∧ ∀ i, (s.pFileDesc i).bUsed = true) := by
  rw [openFile, failsClean_malloc_iff, (reads_getDirPos path _).failsClean_iff]
  constructor
  · rintro ⟨pos, walked, clean⟩
    obtain ⟨⟨d, last⟩, walk, rfl⟩ := Option.map_eq_some_iff.mp walked
    refine ⟨d, last, walk, ?_⟩
    rintro token rfl
    rw [if_neg (result_ofWalk_ne _ d token)] at clean
    obtain ⟨inode, read, clean⟩ := (reads_getInode _).failsClean_iff.mp clean
    refine ⟨inode, read, ?_⟩
    rcases failsClean_scan_iff.mp clean with ⟨none, _⟩ | ⟨i, entries, j, entry, clean⟩
    · exact Or.inl none
    · exact Or.inr ⟨⟨_, entry⟩, (failsClean_openDescriptor_iff (s := s.pop)).mp clean⟩
  · rintro ⟨d, last, walk, rest⟩
    refine ⟨_, by rw [walk]; rfl, ?_⟩
    cases last with
    | none => exact failsClean_pure rfl
    | some token =>
        rw [if_neg (result_ofWalk_ne _ d token)]
        obtain ⟨inode, read, rest⟩ := rest token rfl
        refine (reads_getInode _).failsClean_iff.mpr ⟨inode, read, failsClean_scan_iff.mpr ?_⟩
        rcases rest with none | ⟨⟨⟨i, entries, j⟩, entry⟩, used⟩
        · exact Or.inl ⟨none, failsClean_pure rfl⟩
        · exact Or.inr ⟨i, entries, j, entry, (failsClean_openDescriptor_iff (s := s.pop)).mpr used⟩

end Calls

/-! ## Paths that do not resolve -/

/-- A call that takes a path. -/
inductive PathCall where
  | createFile
  | makeDir
  | openFile
  | removeFile
  | removeDir
  | enumerateDirStatus (dirEntrys : CInt)
  | getFileStatus

namespace PathCall

/-- The call returns -1 and leaves no trace. -/
def FailsClean (path : Path) (s : FileSys) : PathCall → Prop
  | createFile => KwHomework.FailsClean (FS.createFile path) (· = -1) s
  | makeDir => KwHomework.FailsClean (FS.makeDir path) (· = some (-1)) s
  | openFile => KwHomework.FailsClean (FS.openFile path) (· = -1) s
  | removeFile => KwHomework.FailsClean (FS.removeFile path) (· = -1) s
  | removeDir => KwHomework.FailsClean (FS.removeDir path) (· = some (-1)) s
  | enumerateDirStatus dirEntrys =>
      KwHomework.FailsClean (FS.enumerateDirStatus path dirEntrys) (fun r => r.1 = -1) s
  | getFileStatus => KwHomework.FailsClean (FS.getFileStatus path) (fun r => r.1 = some (-1)) s

/-- Where the walk ends there is nothing that the call would go on with: no free entry or room for
one, or no entry with the name in the buffer of the token, and for `RemoveDir` no entry of an empty
directory.  `OpenFile` stops when the walk does not reach the last component. -/
def Harmless (path : Path) (s : FileSys) : PathCall → Prop
  | createFile => ∃ last inode, s.disk.Ends path last inode ∧ s.disk.NoEntry inode isFree
  | makeDir => ∃ last inode, s.disk.Ends path last inode ∧ (∀ k, inode.dirBlockPtr k ≠ 0#32) ∧
      s.disk.NoEntry inode isFree
  | openFile => ∃ d last, s.disk.walk 0#32 path.tokens = some (d, last) ∧
      ∀ token, last = some token → ∃ inode, s.disk.readInode d = some inode ∧
        (s.disk.NoEntry inode (nameMatches (sprintf (s.heap 0) token)) ∨
          (∃ found, s.disk.scan inode (nameMatches (sprintf (s.heap 0) token)) =
            some (some found)) ∧ ∀ i, (s.pFileDesc i).bUsed = true)
  | removeDir => ∃ last inode, s.disk.Ends path last inode ∧
      (s.disk.NoEntry inode (nameMatches (tokenOf (s.heap 0) last)) ∨
        ∃ i entries j dir found, s.disk.scan inode (nameMatches (tokenOf (s.heap 0) last)) =
          some (some (i, entries, j)) ∧ s.disk.readInode (entries.entryInode j) = some dir ∧
          s.disk.scan dir isOccupied = some (some found))
  | removeFile | enumerateDirStatus _ | getFileStatus => ∃ last inode, s.disk.Ends path last inode ∧
      s.disk.NoEntry inode (nameMatches (tokenOf (s.heap 0) last))

end PathCall

/-- A call with a path whose parent cannot be resolved returns -1 and leaves no trace exactly when
there is nothing for it where the walk ends. -/
theorem failsClean_unresolved_iff (call : PathCall) (path : Path) (s : FileSys) :
    (¬ s.disk.Resolves 0#32 path.components → call.FailsClean path s) ↔
      (s.disk.Resolves 0#32 path.components ∨ call.Harmless path s) := by
  rw [or_iff_not_imp_left]
  refine imp_congr_right fun _ => ?_
  cases call with
  | createFile => exact failsClean_createFile_iff
  | makeDir => exact failsClean_makeDir_iff
  | openFile => exact failsClean_openFile_iff
  | removeFile => exact failsClean_removeFile_iff
  | removeDir => exact failsClean_removeDir_iff
  | enumerateDirStatus dirEntrys => exact failsClean_enumerateDirStatus_iff
  | getFileStatus => exact failsClean_getFileStatus_iff

/-! ## A missing directory -/

/-- What code that reads yields is what it computes. -/
theorem Reads.value {α : Type} {x : FS α} {f : Store → Option α} {s : FileSys} {r : α} {w : View}
    (reads : Reads x f) (yields : Yields x s.view r w) : f s.disk = some r := by
  obtain ⟨s', run, _⟩ := yields s rfl
  rw [reads s] at run
  obtain ⟨r', computed, same⟩ := Option.map_eq_some_iff.mp run
  rw [computed, (Prod.mk.inj same).1]

/-- A name that is missing in a directory is not found on the disk. -/
theorem View.Sound.missing {offsets : CInt → Prop} {s : FileSys} (sound : s.view.Sound offsets)
    {d : CInt} {x : List Byte} (dir : s.view.volume.IsDir d)
    (new : ∀ m, ¬ s.view.volume.tree.Refers d x m) (named : x ≠ []) (string : 0#8 ∉ x) :
    s.disk.readInode d = some (s.view.volume.inode d) ∧
      s.disk.NoEntry (s.view.volume.inode d) (nameMatches (cString x)) := by
  have find := yields_findName sound.consistent.searchable dir (spells_cString string)
  rw [Volume.lookup_eq_none new dir named] at find
  refine ⟨(reads_getInode d).value
    (yields_getInode s.view (sound.consistent.used_valid d dir.1)), ?_⟩
  exact Store.scan_eq_none_iff.mp ((reads_scanEntries _ _).value find)

/-- A directory has no free entry when its volume has none. -/
theorem noEntry_isFree_iff {s : FileSys} {p : CInt} (blocks : s.view.volume.BlocksOwned) :
    s.disk.NoEntry (s.view.volume.inode p) isFree ↔ s.view.volume.freeSlot p = none := by
  rw [← Store.scan_eq_none_iff, (reads_scanEntries _ _).value (yields_scanFree blocks p)]
  simp

/-- The path `/a/b`. -/
def pathAB : Path := ⟨[47#8, 97#8, 47#8, 98#8], by decide⟩

/-- `CreateFile("/a/b")` on a formatted disk makes a file, although there is no `/a`. -/
theorem createFile_unresolved : ∃ s, Formatted s ∧
    ¬ s.disk.Resolves 0#32 pathAB.components ∧ ¬ PathCall.createFile.FailsClean pathAB s := by
  obtain ⟨s, here⟩ := exists_formatted
  have sound : s.view.Sound fun _ => True := here.view ▸ View.formatted_sound
  have root : s.view.volume.IsDir 0#32 := here.view ▸ Volume.formatted_isDir
  have new : ∀ m, ¬ s.view.volume.tree.Refers 0#32 [97#8] m :=
    here.view ▸ Volume.formatted_new (by decide) 0#32
  obtain ⟨read, missing⟩ := sound.missing root new (by decide) (by decide)
  rw [← Store.scan_eq_none_iff] at missing
  refine ⟨s, here, ?_, fun clean => ?_⟩
  · rw [show pathAB.components = [[97#8], [98#8]] by decide]
    rintro ⟨inode, read', _, i, entries, j, found, _⟩
    obtain rfl := Option.some.inj (read.symm.trans read')
    rw [missing] at found
    cases found
  · obtain ⟨last, inode, ⟨d, walk, read'⟩, full⟩ := failsClean_createFile_iff.mp clean
    rw [show pathAB.tokens = [[97#8], [98#8]] by decide, Store.walk, read] at walk
    simp only [Option.bind_eq_bind, Option.bind_some, missing] at walk
    obtain ⟨rfl, rfl⟩ : 0#32 = d ∧ none = last := by simpa using walk
    obtain rfl := Option.some.inj (read.symm.trans read')
    have none := (noEntry_isFree_iff sound.consistent.blocks).mp full
    obtain ⟨e, found⟩ := Volume.exists_freeSlot Volume.formatted_room
    rw [here.view] at none
    cases found.symm.trans none

end KwHomework
