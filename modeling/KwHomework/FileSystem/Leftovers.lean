import KwHomework.FileSystem.Paired

/-!
# What `malloc` left behind

`InitFileSys` and the directory code write chunks to the disk that they have not filled.  Two runs
that differ in nothing but these chunks give the same results as long as every byte that is read
before it is written was zero.
-/

namespace KwHomework

open Function FS

/-- Nothing that a call looks at is different. -/
def Alike (s t : FileSys) : Prop :=
  ∃ known dirs, 0#32 ∈ known ∧ Paired known dirs known (fun _ => True) s t

/-- The same result in states that are alike. -/
def SameEnd {α : Type} (r r' : α × FileSys) : Prop := r.1 = r'.1 ∧ Alike r.2 r'.2

/-! ## Listing and status -/

section Listing

variable {known dirs : Set CInt} {fresh : (Nat → Chunk) → Prop} {count : CInt}

private theorem steps_enumerateEntries {blk : Block} (entries : ∀ j, blk.entryInode j ∈ known)
    (slots : List (Fin numOfDirentPerBlock)) : ∀ listed : List DirEntryInfo,
    Steps (Paired known dirs known fresh) (enumerateEntries count blk listed slots)
      (enumerateEntries count blk listed slots) fun r r' s t =>
        (r = r' ∧ True) ∧ Paired known dirs known fresh s t := by
  induction slots with
  | nil => exact fun listed => .pure fun _ _ paired => ⟨⟨rfl, trivial⟩, paired⟩
  | cons j slots induction =>
      intro listed
      rw [enumerateEntries]
      split_ifs with live
      · refine .bind_same (steps_getInode (entries j)) fun inode _ => ?_
        dsimp only
        split_ifs with full
        · exact .pure fun _ _ paired => ⟨⟨rfl, trivial⟩, paired⟩
        · exact induction _
      · exact induction listed

private theorem steps_enumerateBlocks {inode : Inode}
    (inside : ∀ k, inode.dirBlockPtr k ≠ 0#32 → inode.dirBlockPtr k ∈ dirs)
    (blocks : List (Fin numOfDirectBlockPtr)) : ∀ listed : List DirEntryInfo,
    Steps (Paired known dirs known fresh) (enumerateBlocks count inode listed blocks)
      (enumerateBlocks count inode listed blocks) fun r r' s t =>
        (r = r' ∧ True) ∧ Paired known dirs known fresh s t := by
  induction blocks with
  | nil => exact fun listed => .pure fun _ _ paired => ⟨⟨rfl, trivial⟩, paired⟩
  | cons k blocks induction =>
      intro listed
      rw [enumerateBlocks]
      split_ifs with holds
      · refine .bind_same (steps_bufRead (inside k holds)) fun blk entries => ?_
        refine .bind_same (steps_enumerateEntries entries _ listed) fun r _ => ?_
        obtain ⟨full, listed⟩ := r
        cases full with
        | true => exact .pure fun _ _ paired => ⟨⟨rfl, trivial⟩, paired⟩
        | false => exact induction listed
      · exact induction listed

end Listing

section Calls

variable {s t : FileSys} {path : Path}

/-- A call that looks a path up and then only reads. -/
theorem Alike.rel_lookup {α : Type} (alike : Alike s t) (clean : s.TokenClean path)
    (clean' : t.TokenClean path)
    {next : Option (Fin numOfDirectBlockPtr × Block × Fin numOfDirentPerBlock) → FS α}
    (rest : ∀ known dirs r, (∀ i entries j, r = some (i, entries, j) →
      ∀ l, entries.entryInode l ∈ known) →
      Steps (Paired known dirs known fun _ => True) (next r) (next r) fun r r' s t =>
        r = r' ∧ Paired known dirs known (fun _ => True) s t) :
    Option.Rel SameEnd
      (exec (do
        let token ← malloc
        let pos ← getDirPos path token
        let inode ← getInode pos.curInodeNo
        let found ← scanEntries inode (nameMatches pos.retToken)
        next found) s)
      (exec (do
        let token ← malloc
        let pos ← getDirPos path token
        let inode ← getInode pos.curInodeNo
        let found ← scanEntries inode (nameMatches pos.retToken)
        next found) t) := by
  obtain ⟨known, dirs, root, paired⟩ := alike
  refine paired.rel_walk root clean clean' fun pos pos' text inode here here' _ => ?_
  have tokens := nameMatches_of_spells here.spells here'.spells
  have lockstep := (steps_scanEntries here.ptr tokens).bind_same fun r found =>
    rest known dirs r fun i entries j same => (found i entries j same).2
  exact rel_mono (lockstep _ _ (paired.pop trivial trivial)) fun r r' same =>
    ⟨same.1, known, dirs, root, same.2⟩

theorem Alike.enumerateDirStatus (alike : Alike s t) (clean : s.TokenClean path)
    (clean' : t.TokenClean path) (count : CInt) : Option.Rel SameEnd
      (exec (enumerateDirStatus path count) s) (exec (enumerateDirStatus path count) t) := by
  refine alike.rel_lookup clean clean' fun known dirs r found => ?_
  cases r with
  | none => exact .pure fun _ _ paired => ⟨rfl, paired⟩
  | some place =>
      obtain ⟨i, entries, j⟩ := place
      refine .bind_same (steps_getInode (found i entries j rfl j)) fun inode inside => ?_
      refine .bind_same (steps_enumerateBlocks inside _ []) fun listed _ => ?_
      exact .pure fun _ _ paired => ⟨rfl, paired⟩

theorem Alike.getFileStatus (alike : Alike s t) (clean : s.TokenClean path)
    (clean' : t.TokenClean path) : Option.Rel SameEnd
      (exec (getFileStatus path) s) (exec (getFileStatus path) t) := by
  refine alike.rel_lookup clean clean' fun known dirs r found => ?_
  cases r with
  | none => exact .pure fun _ _ paired => ⟨rfl, paired⟩
  | some place =>
      obtain ⟨i, entries, j⟩ := place
      refine .bind_same (steps_getInode (found i entries j rfl j)) fun inode _ => ?_
      exact .pure fun _ _ paired => ⟨rfl, paired⟩

end Calls

/-! ## Creating a file -/

/-- The number that `GetFreeInodeNum` returns. -/
def FileSys.freeInode (s : FileSys) : CInt := (s.disk inodeBitmapBlockNum).firstClear 8

/-- The inode has no blocks. -/
def Store.BlankAt (disk : Store) (n : CInt) : Prop := ∀ k, (disk.inodeOf n).dirBlockPtr k = 0#32

/-- The buffer of the token is clean, and so is the inode that the new file gets. -/
structure FileSys.CreateFileClean (s : FileSys) (path : Path) : Prop where
  token : s.TokenClean path
  inode : ∀ last inode place, s.disk.Ends path last inode →
    s.disk.scan inode isFree = some (some place) → s.disk.BlankAt s.freeInode

private theorem exec_freeInode {α : Type} {next : CInt → FS α} (s : FileSys) :
    exec (getFreeInodeNum >>= next) s = exec (next s.freeInode) s := by
  rw [reads_getFreeInodeNum.exec_then, Store.readBlock, if_pos (by decide)]
  rfl

/-- The entry is written, and the clean inode is read: it does not lie in the block of the entry. -/
theorem exec_enterFile {α : Type} {s : FileSys} {n b : CInt} (found : FoundInode n)
    (data : DataBlock b) (blank : s.disk.BlankAt n) (blk : Block) (next : Unit → FS α) :
    exec (do
      bufWrite b blk
      let pInode ← getInode n
      putInode n { pInode with type := fileTypeFile, size := 0#32, allocBlocks := 0#32 } >>=
        next) s =
    exec (putInode n Inode.blank >>= next) { s with disk := update s.disk b blk } := by
  have inode : { s.disk.inodeOf n with type := fileTypeFile, size := 0#32, allocBlocks := 0#32 } =
      Inode.blank := Inode.ext rfl rfl rfl (funext blank)
  rw [exec_bind, exec_bufWrite data.nonneg, Option.bind_some, (reads_getInode n).exec_then,
    Store.readInode_found _ found, s.disk.inodeOf_update found data.noInodes, Option.bind_some,
    inode]

theorem steps_newFile {known dirs : Set CInt} {n : CInt} (found : FoundInode n)
    (change : FileSysInfo → FileSysInfo) :
    Steps (Paired known dirs (insert n known) fun _ => True)
      (do
        putInode n Inode.blank
        setInodeBitmap n
        modifyInfo change
        writeInfo
        openDescriptor n)
      (do
        putInode n Inode.blank
        setInodeBitmap n
        modifyInfo change
        writeInfo
        openDescriptor n)
      fun r r' s t => r = r' ∧ Paired (insert n known) dirs (insert n known)
        (fun _ => True) s t := by
  refine (steps_putInode found fun k holds => absurd rfl holds).bind fun _ _ => ?_
  refine (steps_setInodeBitmap found).bind fun _ _ => ?_
  refine (steps_modifyInfo change).bind fun _ _ => ?_
  refine steps_writeInfo.bind fun _ _ => ?_
  exact steps_openDescriptor n

theorem Alike.createFile {s t : FileSys} {path : Path} (alike : Alike s t)
    (clean : s.CreateFileClean path) (clean' : t.CreateFileClean path) :
    Option.Rel SameEnd (exec (createFile path) s) (exec (createFile path) t) := by
  obtain ⟨known, dirs, root, paired⟩ := alike
  have number : s.freeInode = t.freeInode := paired.disk.freeInode_eq
  have found : FoundInode s.freeInode := foundInode_firstClear _
  have blank := clean'.inode
  rw [← number] at blank
  rw [FS.createFile, exec_freeInode, exec_freeInode, ← number]
  refine paired.rel_walk root clean.token clean'.token fun pos pos' text inode here here' _ => ?_
  obtain ⟨last, ends⟩ := here.ends
  obtain ⟨last', ends'⟩ := here'.ends
  have same := paired.disk.scan_eq here.ptr isFree
  rw [(reads_scanEntries inode isFree).exec_then, (reads_scanEntries inode isFree).exec_then]
  change Option.Rel SameEnd ((s.disk.scan inode isFree).bind _) ((t.disk.scan inode isFree).bind _)
  rw [← same]
  cases search : s.disk.scan inode isFree with
  | none => exact .none
  | some result =>
      cases result with
      | none =>
          exact .some ⟨rfl, known, dirs, root, paired.pop trivial trivial⟩
      | some place =>
          have clear := clean.inode last inode place ends search
          have clear' := blank last' inode place ends' (same.symm.trans search)
          obtain ⟨i, entries, j⟩ := place
          obtain ⟨member, targets⟩ := paired.disk.listed_of_scan here.ptr search
          have data := paired.disk.data _ member
          have entered : ∀ l, (entries.setEntry j s.freeInode pos.retToken).entryInode l ∈
              insert s.freeInode known := by
            intro l
            rw [Block.entryInode_setEntry]
            split_ifs
            · exact Set.mem_insert _ _
            · exact Set.mem_insert_of_mem _ (targets l)
          have tokens := setEntry_of_spells here.spells here'.spells entries j s.freeInode
          have written := (paired.disk.mono (Set.subset_insert s.freeInode known)).writeBlock data
            entered
          rw [Option.bind_some, Option.bind_some]
          dsimp only
          rw [← tokens, exec_enterFile (s := s.pop) found data clear,
            exec_enterFile (s := t.pop) found data clear']
          refine rel_mono (steps_newFile found _ _ _ ((paired.pop trivial trivial).onDisk written))
            fun r r' same => ⟨same.1, _, _, Set.mem_insert_of_mem _ root, same.2⟩

/-! ## Making a directory -/

/-- The chunk is zero where `MakeDir` writes nothing when it makes a new directory in it. -/
def NewDirClean (cData : Chunk) : Prop :=
  ∀ inodeNo curInodeNo, newDirBlock cData inodeNo curInodeNo =
    newDirBlock (fun _ => 0#8) inodeNo curInodeNo

/-- The chunk is zero where `MakeDir` writes nothing when a directory grows by it. -/
def GrownClean (entries : Chunk) : Prop :=
  ∀ inodeNo token, (blockOf entries).setEntry 0 inodeNo token =
    Block.setEntry (fun _ => 0#8) 0 inodeNo token

/-- The buffer of the token is clean, and so are the chunks that become directory blocks. -/
structure FileSys.MakeDirClean (s : FileSys) (path : Path) : Prop where
  token : s.TokenClean path
  found : ∀ last inode i place, s.disk.Ends path last inode →
    s.disk.scanRoom inode = some (some (i, some place)) → NewDirClean (s.heap 1)
  grown : ∀ last inode i, s.disk.Ends path last inode →
    s.disk.scanRoom inode = some (some (i, none)) → GrownClean (s.heap 1) ∧ NewDirClean (s.heap 2)

/-- A new directory has one block. -/
theorem Volume.ptr_dirInode {b : CInt} {k : Fin numOfDirectBlockPtr}
    (holds : (dirInode b).dirBlockPtr k ≠ 0#32) : (dirInode b).dirBlockPtr k = b := by
  simp only [dirInode] at holds ⊢
  by_cases first : k = 0
  · rw [first, update_self]
  · rw [update_of_ne first] at holds
    exact absurd rfl holds

/-- The inode `n` lists `.` and `..` and nothing else. -/
def Store.ListsDots (disk : Store) (n : CInt) : Prop :=
  ∃ p, disk.liveEntries n = [⟨dot, n⟩, ⟨dotDot, p⟩]

private theorem Store.listsDots_of_block {disk : Store} {n b p : CInt} (data : DataBlock b)
    (inode : disk.inodeOf n = Volume.dirInode b) (block : disk b = newDirBlock (fun _ => 0#8) n p) :
    disk.ListsDots n := by
  have notNull : b ≠ 0#32 := by
    rintro rfl
    exact absurd data (by decide)
  have first : disk.liveEntriesIn n 0 = [⟨dot, n⟩, ⟨dotDot, p⟩] := by
    have entries : (fun j => disk.slotEntry n (0, j)) = Volume.newEntryAt n p := by
      funext j
      rw [slotEntry, inode, Volume.dirInode]
      dsimp only
      rw [update_self, block, Volume.entryAt_newDirBlock]
    have rest : ((((List.finRange 30).map Fin.succ).map Fin.succ).map
        (Volume.newEntryAt n p)).filter (fun entry => entry.name ≠ []) = [] := by
      rw [List.filter_eq_nil_iff]
      intro entry member
      rw [List.map_map, List.map_map, List.mem_map] at member
      obtain ⟨j, _, rfl⟩ := member
      change ¬ decide ((Volume.newEntryAt n p j.succ.succ).name ≠ []) = true
      rw [Volume.newEntryAt, if_neg (Fin.succ_ne_zero _), if_neg (Fin.succ_succ_ne_one j)]
      simp
    rw [liveEntriesIn, inode, if_pos (by simpa [Volume.dirInode] using notNull), entries,
      show (List.finRange numOfDirentPerBlock) = 0 :: 1 ::
        ((List.finRange 30).map Fin.succ).map Fin.succ
        from by rw [List.finRange_succ, List.finRange_succ]; rfl,
      List.map_cons, List.map_cons, List.filter_cons_of_pos (by simp [Volume.newEntryAt, dot]),
      List.filter_cons_of_pos (by simp [Volume.newEntryAt, dotDot]), rest]
    rfl
  have others : ∀ k : Fin 4, disk.liveEntriesIn n k.succ = [] := by
    intro k
    rw [liveEntriesIn, inode, if_neg (by simp [Volume.dirInode])]
  refine ⟨p, ?_⟩
  rw [liveEntries, List.finRange_succ, List.flatMap_cons, first, List.flatMap_map,
    List.flatMap_eq_nil_iff.mpr fun k _ => others k]
  rfl

/-- What `MakeDir` does after the new directory is on the disk. -/
def registerDir (blkNo inodeNo : CInt) : FS (Option CInt) := do
  setBlockBitmap blkNo
  setInodeBitmap inodeNo
  modifyInfo fun info => { info with
    numAllocBlocks := info.numAllocBlocks + 1
    numFreeBlocks := info.numFreeBlocks - 1
    numAllocInodes := info.numAllocInodes + 1 }
  writeInfo
  return none

/-- The end of `MakeDir`, after the entry is in the parent. -/
def finishDir (inodeNo curInodeNo : CInt) : FS (Option CInt) := do
  let blkNo ← getFreeBlockNum
  let cData ← malloc
  bufWrite blkNo (newDirBlock cData inodeNo curInodeNo)
  let _ ← getInode inodeNo
  putInode inodeNo (Volume.dirInode blkNo)
  registerDir blkNo inodeNo

section MakeDir

variable {known dirs : Set CInt} {n p : CInt}

private theorem steps_registerDir {b : CInt} (found : FoundInode n) (data : DataBlock b) :
    Steps (Paired known dirs known fun _ => True) (registerDir b n) (registerDir b n)
      fun r r' s t => r = r' ∧ Paired known dirs known (fun _ => True) s t := by
  refine (steps_setBlockBitmap data.2).bind fun _ _ => ?_
  refine (steps_setInodeBitmap found).bind fun _ _ => ?_
  refine (steps_modifyInfo _).bind fun _ _ => ?_
  refine steps_writeInfo.bind fun _ _ => ?_
  exact .pure fun _ _ paired => ⟨rfl, paired⟩

/-- The code leaves the inode `n` and the block `b` as they are. -/
def Spares {α : Type} (n b : CInt) (x : FS α) : Prop :=
  ∀ s r s', exec x s = some (r, s') →
    s'.disk.inodeOf n = s.disk.inodeOf n ∧ s'.disk b = s.disk b

namespace Spares

variable {α β : Type} {b : CInt} {x : FS α} {next : α → FS β}

private theorem of_disk (same : ∀ s r s', exec x s = some (r, s') → s'.disk = s.disk) :
    Spares n b x := by
  intro s r s' run
  rw [same s r s' run]
  exact ⟨rfl, rfl⟩

private theorem bind (first : Spares n b x) (second : ∀ r, Spares n b (next r)) :
    Spares n b (x >>= next) := by
  intro s r s' run
  obtain ⟨r₁, s₁, run₁, run₂⟩ := exec_bind_eq_some run
  obtain ⟨inode, block⟩ := first s r₁ s₁ run₁
  obtain ⟨inode', block'⟩ := second r₁ s₁ r s' run₂
  exact ⟨inode'.trans inode, block'.trans block⟩

private theorem of_reads {f : Store → Option α} (reads : Reads x f) : Spares n b x := by
  refine of_disk fun s r s' run => ?_
  rw [reads s] at run
  obtain ⟨_, _, same⟩ := Option.map_eq_some_iff.mp run
  rw [← (Prod.mk.inj same).2]

private theorem malloc : Spares n b malloc := by
  refine of_disk fun s r s' run => ?_
  rw [exec_malloc, Option.some.injEq, Prod.mk.injEq] at run
  rw [← run.2]

private theorem get : Spares n b (get : FS Memory) := by
  refine of_disk fun s r s' run => ?_
  rw [exec_get, Option.some.injEq, Prod.mk.injEq] at run
  rw [← run.2]

private theorem modifyInfo (change : FileSysInfo → FileSysInfo) :
    Spares n b (modifyInfo change) := by
  refine of_disk fun s r s' run => ?_
  rw [exec_modifyInfo, Option.some.injEq, Prod.mk.injEq] at run
  rw [← run.2]

variable (found : FoundInode n) (data : DataBlock b)

include found data

theorem bufWrite_low {c : CInt} (low : c.toNat < 2) (nonneg : 0 ≤ c.toInt) (blk : Block) :
    Spares n b (bufWrite c blk) := by
  intro s r s' run
  have other : b ≠ c := by
    rintro rfl
    exact absurd data.1 (by omega)
  rw [exec_bufWrite nonneg, Option.some.injEq, Prod.mk.injEq] at run
  rw [← run.2]
  exact ⟨s.disk.inodeOf_update found (Or.inl low) blk, update_of_ne other blk s.disk⟩

private theorem setInodeBitmap (m : CInt) : Spares n b (setInodeBitmap m) :=
  (of_reads (reads_bufRead _)).bind fun _ => (of_reads (reads_defined _)).bind fun _ =>
    bufWrite_low found data (by decide) (by decide) _

private theorem writeInfo : Spares n b writeInfo :=
  malloc.bind fun _ => get.bind fun _ => bufWrite_low found data (by decide) (by decide) _

private theorem setBlockBitmap {c : CInt} (small : c.toNat < 512) :
    Spares n b (setBlockBitmap c) := by
  intro s r s' run
  have other : b ≠ blockBitmapBlockNum := by
    rintro rfl
    exact absurd data (by decide)
  obtain ⟨blk, set, bits⟩ := (s.disk blockBitmapBlockNum).exists_setBit small
  rw [exec_setBlockBitmap set, Option.some.injEq, Prod.mk.injEq] at run
  rw [← run.2]
  refine ⟨s.disk.inodeOf_update_bitmap found fun m high => ?_, update_of_ne other blk s.disk⟩
  rw [bits, if_neg (by omega)]

private theorem registerDir : Spares n b (registerDir b n) :=
  (setBlockBitmap found data data.2).bind fun _ => (setInodeBitmap found data n).bind fun _ =>
    (modifyInfo _).bind fun _ => (writeInfo found data).bind fun _ => of_reads (.pure none)

end Spares

/-- The state after the block and the inode of a new directory were written. -/
def FileSys.storeDir (s : FileSys) (n b p : CInt) : FileSys :=
  let disk := update s.disk b (newDirBlock (fun _ => 0#8) n p)
  { s with
    disk := update disk (inodeBlock n)
      ((disk (inodeBlock n)).storeInode (inodeIndex n) (Volume.dirInode b)) }

private theorem exec_storeDir {α : Type} {b : CInt} (found : FoundInode n) (data : DataBlock b)
    (next : Unit → FS α) (s : FileSys) :
    exec (do
      bufWrite b (newDirBlock (fun _ => 0#8) n p)
      let _ ← getInode n
      putInode n (Volume.dirInode b) >>= next) s = exec (next ()) (s.storeDir n b p) := by
  rw [exec_bind, exec_bufWrite data.nonneg, Option.bind_some, (reads_getInode n).exec_then,
    Store.readInode_found _ found, Option.bind_some, exec_bind, exec_putInode found.nonneg,
    Option.bind_some]
  rfl

theorem steps_finishDir (root : 0#32 ∈ known) (found : FoundInode n) (parent : p ∈ known) :
    Steps (Paired known dirs (insert n known) fun heap => NewDirClean (heap 0) ∧ True)
      (finishDir n p) (finishDir n p)
      fun r r' s t => (r = r' ∧ Alike s t) ∧ s.disk.ListsDots n := by
  refine .bind_same steps_getFreeBlockNum fun b free => ?_
  refine (steps_malloc NewDirClean fun _ => True).bind fun cData cData' => .of_pure ?_
  rintro ⟨clean, clean'⟩
  rw [clean, clean']
  rcases free with rfl | data
  · exact steps_bufWrite_none
  have entries : ∀ j, (newDirBlock (fun _ => 0#8) n p).entryInode j ∈ insert n known := by
    intro j
    rw [show (newDirBlock (fun _ => 0#8) n p).entryInode j = (Volume.newEntryAt n p j).inodeNum from
      congrArg Block.Entry.inodeNum (Volume.entryAt_newDirBlock n p j), Volume.newEntryAt]
    split_ifs
    · exact Set.mem_insert n known
    · exact Set.mem_insert_of_mem n parent
    · exact Set.mem_insert_of_mem n root
  have ptrs : ∀ k, (Volume.dirInode b).dirBlockPtr k ≠ 0#32 →
      (Volume.dirInode b).dirBlockPtr k ∈ insert b dirs := fun k holds =>
    Or.inl (Volume.ptr_dirInode holds)
  intro s t paired
  rw [exec_storeDir found data, exec_storeDir found data]
  have stored := paired.onDisk ((paired.disk.writeBlock data entries).putInode found ptrs)
  have other := (found.inodeBlock_ne data.noInodes).symm
  have lists : ∀ r s', exec (registerDir b n) (s.storeDir n b p) = some (r, s') →
      s'.disk.ListsDots n := by
    intro r s' run
    obtain ⟨inode, block⟩ := Spares.registerDir found data _ _ _ run
    refine Store.listsDots_of_block (p := p) data (inode.trans ?_) (block.trans ?_)
    · exact (Store.inodeOf_storeInode _ found found _).trans (if_pos rfl)
    · exact (update_of_ne other _ _).trans (update_self _ _ _)
  have lockstep := steps_registerDir found data _ _ stored
  refine rel_mono (rel_and_left lockstep fun r run => lists r.1 r.2 run) fun r r' both => ?_
  exact ⟨⟨both.1.1, _, _, Set.mem_insert_of_mem n root, both.1.2⟩, both.2⟩

theorem steps_enterDir (root : 0#32 ∈ known) (found : FoundInode n) (parent : p ∈ known) {b : CInt}
    (data : DataBlock b) {blk : Block} (entered : ∀ l, blk.entryInode l ∈ insert n known) :
    Steps (Paired known dirs known fun heap => NewDirClean (heap 0) ∧ True)
      (do
        bufWrite b blk
        finishDir n p)
      (do
        bufWrite b blk
        finishDir n p)
      fun r r' s t => (r = r' ∧ Alike s t) ∧ s.disk.ListsDots n :=
  (steps_bufWrite data (Set.subset_insert n known) entered).bind fun _ _ =>
    steps_finishDir root found parent

theorem steps_growDir {dirs : Set CInt} (root : 0#32 ∈ known) (found : FoundInode n)
    (foundParent : FoundInode p) (parent : p ∈ known) {inode : Inode}
    (ptrs : ∀ k, inode.dirBlockPtr k ≠ 0#32 → inode.dirBlockPtr k ∈ dirs)
    {token token' : Chunk} {text : List Byte} (spells : Spells token text)
    (spells' : Spells token' text) (i : Fin numOfDirectBlockPtr) (change : CInt → Inode)
    (changed : ∀ b, (change b).dirBlockPtr = update inode.dirBlockPtr i b) :
    Steps (Paired known dirs known fun heap =>
        GrownClean (heap 0) ∧ NewDirClean (heap 1) ∧ True)
      (do
        let tmpBlkNo ← getFreeBlockNum
        let entries ← malloc
        bufWrite tmpBlkNo ((blockOf entries).setEntry 0 n token)
        putInode p (change tmpBlkNo)
        setBlockBitmap tmpBlkNo
        finishDir n p)
      (do
        let tmpBlkNo ← getFreeBlockNum
        let entries ← malloc
        bufWrite tmpBlkNo ((blockOf entries).setEntry 0 n token')
        putInode p (change tmpBlkNo)
        setBlockBitmap tmpBlkNo
        finishDir n p)
      fun r r' s t => (r = r' ∧ Alike s t) ∧ s.disk.ListsDots n := by
  refine .bind_same steps_getFreeBlockNum fun b free => ?_
  refine (steps_malloc GrownClean fun heap => NewDirClean (heap 0) ∧ True).bind
    fun entries entries' => .of_pure ?_
  rintro ⟨clean, clean'⟩
  rw [clean, clean', ← setEntry_of_spells spells spells']
  rcases free with rfl | data
  · exact steps_bufWrite_none
  have targets : ∀ l, (Block.setEntry (fun _ => 0#8) 0 n token).entryInode l ∈ insert n known := by
    intro l
    rw [Block.entryInode_setEntry]
    split_ifs
    · exact Set.mem_insert n known
    · rw [show Block.entryInode (fun _ => 0#8) l = 0#32 from Block.intAt_zero _]
      exact Set.mem_insert_of_mem n root
  have inside : ∀ k, (change b).dirBlockPtr k ≠ 0#32 →
      (change b).dirBlockPtr k ∈ insert b dirs := by
    intro k holds
    rw [changed] at holds ⊢
    by_cases here : k = i
    · rw [here, update_self]
      exact Set.mem_insert b dirs
    · rw [update_of_ne here] at holds ⊢
      exact Set.mem_insert_of_mem b (ptrs k holds)
  refine (steps_bufWrite data (Set.subset_insert n known) targets).bind fun _ _ => ?_
  refine (steps_putInode foundParent inside).bind fun _ _ => ?_
  simp only [Set.insert_eq_of_mem parent]
  refine (steps_setBlockBitmap data.2).bind fun _ _ => ?_
  exact steps_finishDir root found parent

end MakeDir

/-- The new directory, if one was made, lists `.` and `..`. -/
def MadeDir (n : CInt) (r r' : Option CInt × FileSys) : Prop :=
  SameEnd r r' ∧ (r.1 = none → r.2.disk.ListsDots n)

theorem Alike.makeDir {s t : FileSys} {path : Path} (alike : Alike s t)
    (clean : s.MakeDirClean path) (clean' : t.MakeDirClean path) :
    Option.Rel (MadeDir s.freeInode) (exec (makeDir path) s) (exec (makeDir path) t) := by
  obtain ⟨known, dirs, root, paired⟩ := alike
  have number : s.freeInode = t.freeInode := paired.disk.freeInode_eq
  have found : FoundInode s.freeInode := foundInode_firstClear _
  rw [FS.makeDir, makeDirWith]
  simp only [liftM_eq]
  rw [exec_freeInode, exec_freeInode, ← number]
  refine paired.rel_walk root clean.token clean'.token
    fun pos pos' text inode here here' place => ?_
  obtain ⟨last, ends⟩ := here.ends
  obtain ⟨last', ends'⟩ := here'.ends
  have same := paired.disk.scanRoom_eq here.ptr
  have foundParent := paired.disk.found _ here.known
  rw [(reads_scanSlots inode).exec_then, (reads_scanSlots inode).exec_then]
  change Option.Rel _ ((s.disk.scanRoom inode).bind _) ((t.disk.scanRoom inode).bind _)
  rw [← same]
  cases search : s.disk.scanRoom inode with
  | none => exact .none
  | some result =>
      have search' := same.symm.trans search
      cases result with
      | none =>
          exact .some ⟨⟨rfl, known, dirs, root, paired.pop trivial trivial⟩, fun made => by
            cases made⟩
      | some room =>
          obtain ⟨i, slot⟩ := room
          rw [Option.bind_some, Option.bind_some]
          cases slot with
          | none =>
              obtain ⟨grown, fresh⟩ := clean.grown last inode i ends search
              obtain ⟨grown', fresh'⟩ := clean'.grown last' inode i ends' search'
              have lockstep := steps_growDir root found foundParent here.known here.ptr here.spells
                here'.spells i (fun b => { inode with
                  allocBlocks := inode.allocBlocks + 1
                  size := inode.size + 512
                  dirBlockPtr := update inode.dirBlockPtr i b }) fun _ => rfl
              dsimp only
              rw [place]
              exact rel_mono
                (lockstep _ _ (paired.pop ⟨grown, fresh, trivial⟩ ⟨grown', fresh', trivial⟩))
                fun r r' made => ⟨made.1, fun _ => made.2⟩
          | some entry =>
              obtain ⟨entries, j⟩ := entry
              have fresh := clean.found last inode i _ ends search
              have fresh' := clean'.found last' inode i _ ends' search'
              obtain ⟨holds, rfl⟩ := Store.scanRoom_eq_some search
              have member := here.ptr i holds
              have entered : ∀ l, ((s.disk (inode.dirBlockPtr i)).setEntry j s.freeInode
                  pos.retToken).entryInode l ∈ insert s.freeInode known := by
                intro l
                rw [Block.entryInode_setEntry]
                split_ifs
                · exact Set.mem_insert _ _
                · exact Set.mem_insert_of_mem _ (paired.disk.entry _ member l)
              dsimp only
              rw [place, ← setEntry_of_spells here.spells here'.spells]
              have lockstep := steps_enterDir root found here.known (paired.disk.data _ member)
                entered _ _ (paired.pop ⟨fresh, trivial⟩ ⟨fresh', trivial⟩)
              exact rel_mono lockstep fun r r' made => ⟨made.1, fun _ => made.2⟩

end KwHomework
