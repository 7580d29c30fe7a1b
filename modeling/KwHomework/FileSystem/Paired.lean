import KwHomework.Device.Lockstep
import KwHomework.FileSystem.Failures
import KwHomework.FileSystem.Listing
import KwHomework.FileSystem.Matching

/-!
# Two runs on matching disks

Two states are paired when their disks match and the tables in memory are the same.  Each accessor
of `fs_internal.c` runs in lockstep from paired states, whatever lies in the rest of the disk.
-/

namespace KwHomework

open Function FS

/-! ## Tokens -/

/-- `strcmp` does not see what stands behind a string. -/
theorem strcmpEq_of_spells : ∀ {memory : List Byte} {str str' : Nat → Byte} {text : List Byte},
    Spells str text → Spells str' text → strcmpEq memory str = strcmpEq memory str'
  | [], _, _, _, _, _ => rfl
  | byte :: memory, str, str', [], spells, spells' => by
      rw [strcmpEq, strcmpEq, spells.zero_of_nil, spells'.zero_of_nil]
      by_cases zero : byte = 0#8 <;> simp [zero]
  | byte :: memory, str, str', first :: text, spells, spells' => by
      obtain ⟨head, _, rest⟩ := spells.tail
      obtain ⟨head', _, rest'⟩ := spells'.tail
      rw [strcmpEq, strcmpEq, head, head', strcmpEq_of_spells rest rest']

theorem nameMatches_of_spells {token token' : Chunk} {text : List Byte} (spells : Spells token text)
    (spells' : Spells token' text) : nameMatches token = nameMatches token' := by
  funext entries j
  exact strcmpEq_of_spells spells spells'

theorem setEntry_of_spells {token token' : Chunk} {text : List Byte} (spells : Spells token text)
    (spells' : Spells token' text) (blk : Block) (j : Fin numOfDirentPerBlock) (n : CInt) :
    blk.setEntry j n token = blk.setEntry j n token' := by
  rw [Block.setEntry, Block.setEntry, strncpy_of_spells spells, strncpy_of_spells spells']

/-! ## Paired states -/

/-- The tables are the same, the disks match, and both heaps are as `fresh` says. -/
structure Paired (known dirs listed : Set CInt) (fresh : (Nat → Chunk) → Prop) (s t : FileSys) :
    Prop where
  table : s.pFileDesc = t.pFileDesc
  info : s.pFileSysInfo = t.pFileSysInfo
  disk : Store.Matches known dirs listed s.disk t.disk
  left : fresh s.heap
  right : fresh t.heap

/-- File-system code in lockstep. -/
abbrev Steps {α β : Type} (pre : FileSys → FileSys → Prop) (x : FS α) (y : FS β)
    (post : α → β → FileSys → FileSys → Prop) : Prop := Lockstep pre (exec x) (exec y) post

section Rules

variable {α β : Type} {pre : FileSys → FileSys → Prop}

theorem Steps.pure {r r' : α} {post : α → α → FileSys → FileSys → Prop}
    (holds : ∀ s t, pre s t → post r r' s t) : Steps pre (Pure.pure r) (Pure.pure r') post :=
  Lockstep.result holds

theorem Steps.bind {x y : FS α} {next next' : α → FS β} {mid : α → α → FileSys → FileSys → Prop}
    {post : β → β → FileSys → FileSys → Prop} (first : Steps pre x y mid)
    (second : ∀ r r', Steps (mid r r') (next r) (next' r') post) :
    Steps pre (x >>= next) (y >>= next') post := by
  intro s t before
  rw [exec_bind, exec_bind]
  exact Lockstep.bind first second s t before

/-- Both get the same result and go on with it. -/
theorem Steps.bind_same {x y : FS α} {next next' : α → FS β} {holds : α → Prop}
    {mid : FileSys → FileSys → Prop} {post : β → β → FileSys → FileSys → Prop}
    (first : Steps pre x y fun r r' s t => (r = r' ∧ holds r) ∧ mid s t)
    (second : ∀ r, holds r → Steps mid (next r) (next' r) post) :
    Steps pre (x >>= next) (y >>= next') post := by
  refine first.bind fun r r' => .of_pure ?_
  rintro ⟨rfl, here⟩
  exact second r here

end Rules

/-! ## The accessors -/

section Accessors

variable {known dirs listed listed' : Set CInt} {fresh : (Nat → Chunk) → Prop} {n b : CInt}

/-- Code that only writes the disk. -/
theorem Paired.onDisk {known' dirs' : Set CInt} {s t : FileSys} {disk disk' : Store}
    (paired : Paired known dirs listed fresh s t)
    (agree : Store.Matches known' dirs' listed' disk disk') :
    Paired known' dirs' listed' fresh { s with disk := disk } { t with disk := disk' } :=
  ⟨paired.table, paired.info, agree, paired.left, paired.right⟩

theorem Reads.steps {α : Type} {x : FS α} {f : Store → Option α} (reads : Reads x f)
    {result : α → Prop}
    (same : ∀ s t, Paired known dirs listed fresh s t → f s.disk = f t.disk ∧
      ∀ r, f s.disk = some r → result r) :
    Steps (Paired known dirs listed fresh) x x fun r r' s t =>
      (r = r' ∧ result r) ∧ Paired known dirs listed fresh s t := by
  intro s t paired
  obtain ⟨agree, holds⟩ := same s t paired
  rw [reads s, reads t, ← agree]
  cases read : f s.disk with
  | none => exact .none
  | some r => exact .some ⟨⟨rfl, holds r read⟩, paired⟩

theorem steps_getInode (member : n ∈ known) :
    Steps (Paired known dirs listed fresh) (getInode n) (getInode n) fun r r' s t =>
      (r = r' ∧ ∀ k, r.dirBlockPtr k ≠ 0#32 → r.dirBlockPtr k ∈ dirs) ∧
        Paired known dirs listed fresh s t := by
  refine (reads_getInode n).steps fun s t paired => ?_
  have found := paired.disk.found n member
  rw [Store.readInode_found s.disk found, Store.readInode_found t.disk found,
    paired.disk.inode n member]
  refine ⟨rfl, fun r read => ?_⟩
  obtain rfl := Option.some.inj read
  rw [← paired.disk.inode n member]
  exact paired.disk.ptr n member

theorem steps_bufRead (member : b ∈ dirs) :
    Steps (Paired known dirs listed fresh) (bufRead b) (bufRead b) fun r r' s t =>
      (r = r' ∧ ∀ j, r.entryInode j ∈ listed) ∧ Paired known dirs listed fresh s t := by
  refine (reads_bufRead b).steps fun s t paired => ?_
  have nonneg := (paired.disk.data b member).nonneg
  rw [Store.readBlock, Store.readBlock, if_pos nonneg, if_pos nonneg, paired.disk.block b member]
  refine ⟨rfl, fun r read => ?_⟩
  obtain rfl := Option.some.inj read
  rw [← paired.disk.block b member]
  exact paired.disk.entry b member

/-- The search for a free block returns a data block, or -1. -/
theorem steps_getFreeBlockNum :
    Steps (Paired known dirs listed fresh) getFreeBlockNum getFreeBlockNum fun r r' s t =>
      (r = r' ∧ (r = -1 ∨ DataBlock r)) ∧ Paired known dirs listed fresh s t := by
  have reads : Reads getFreeBlockNum fun disk =>
      (disk.readBlock blockBitmapBlockNum).bind fun pData => some (pData.firstClear 64) :=
    (reads_bufRead _).bind fun _ => .pure _
  refine reads.steps fun s t paired => ?_
  rw [Store.readBlock, Store.readBlock, if_pos (by decide), Option.bind_some, if_pos (by decide),
    Option.bind_some, paired.disk.freeBlock_eq]
  refine ⟨rfl, fun r read => ?_⟩
  obtain rfl := Option.some.inj read
  rw [← paired.disk.freeBlock_eq]
  exact paired.disk.freeBlock_spec

theorem steps_scanEntries {inode : Inode}
    (inside : ∀ k, inode.dirBlockPtr k ≠ 0#32 → inode.dirBlockPtr k ∈ dirs)
    {test test' : Block → Fin numOfDirentPerBlock → Option Bool} (same : test = test') :
    Steps (Paired known dirs listed fresh) (scanEntries inode test) (scanEntries inode test')
      fun r r' s t => (r = r' ∧ ∀ i entries j, r = some (i, entries, j) →
        inode.dirBlockPtr i ∈ dirs ∧ ∀ l, entries.entryInode l ∈ listed) ∧
        Paired known dirs listed fresh s t := by
  rw [← same]
  refine (reads_scanEntries inode test).steps fun s t paired => ?_
  refine ⟨paired.disk.scan_eq inside test, fun r search i entries j found => ?_⟩
  exact paired.disk.listed_of_scan inside (found ▸ search)

/-- The entries of the block that is written may name an inode that is stored later. -/
theorem steps_bufWrite (data : DataBlock b) (more : listed ⊆ listed') {blk : Block}
    (entries : ∀ j, blk.entryInode j ∈ listed') :
    Steps (Paired known dirs listed fresh) (bufWrite b blk) (bufWrite b blk) fun _ _ s t =>
      Paired known (insert b dirs) listed' fresh s t := by
  intro s t paired
  rw [exec_bufWrite data.nonneg, exec_bufWrite data.nonneg]
  exact .some (paired.onDisk ((paired.disk.mono more).writeBlock data entries))

/-- The block -1 does not exist. -/
theorem steps_bufWrite_none {α : Type} {blk blk' : Block} {next next' : Unit → FS α}
    {pre : FileSys → FileSys → Prop} {post : α → α → FileSys → FileSys → Prop} :
    Steps pre (bufWrite (-1) blk >>= next) (bufWrite (-1) blk' >>= next') post := by
  intro s t _
  rw [exec_bind, exec_bufWrite_of_neg (by decide), exec_bind, exec_bufWrite_of_neg (by decide)]
  exact .none

theorem steps_putInode (found : FoundInode n) {inode : Inode}
    (ptrs : ∀ k, inode.dirBlockPtr k ≠ 0#32 → inode.dirBlockPtr k ∈ dirs) :
    Steps (Paired known dirs listed fresh) (putInode n inode) (putInode n inode) fun _ _ s t =>
      Paired (insert n known) dirs listed fresh s t := by
  intro s t paired
  rw [exec_putInode found.nonneg, exec_putInode found.nonneg]
  exact .some (paired.onDisk (paired.disk.putInode found ptrs))

/-- The bit that is set, if the number is not -1. -/
theorem exists_setBit_found (found : FoundInode n) (blk : Block) :
    ∃ blk', blk.setBit n = some blk' ∧
    ∀ m < 64, blk'.bitAt m = (blk.bitAt m || decide (m = n.toNat)) := by
  rcases found with valid | rfl
  · have small : n.toNat < 512 := Nat.lt_trans valid (by decide)
    obtain ⟨blk', set, bits⟩ := blk.exists_setBit small
    refine ⟨blk', set, fun m _ => ?_⟩
    by_cases same : m = n.toNat <;> simp [bits, same]
  · refine ⟨blk, blk.setBit_lost, fun m small => ?_⟩
    have other : m ≠ (-1 : CInt).toNat := by
      change m ≠ 4294967295
      omega
    rw [decide_eq_false other, Bool.or_false]

theorem steps_setInodeBitmap (found : FoundInode n) :
    Steps (Paired known dirs listed fresh) (setInodeBitmap n) (setInodeBitmap n) fun _ _ s t =>
      Paired known dirs listed fresh s t := by
  intro s t paired
  obtain ⟨blk, set, bits⟩ := exists_setBit_found found (s.disk inodeBitmapBlockNum)
  obtain ⟨blk', set', bits'⟩ := exists_setBit_found found (t.disk inodeBitmapBlockNum)
  rw [exec_setInodeBitmap set, exec_setInodeBitmap set']
  refine .some (paired.onDisk (paired.disk.writeInodeBitmap fun m small => ?_))
  rw [bits m small, bits' m small, paired.disk.inodeBit m small]

theorem steps_setBlockBitmap (small : b.toNat < 512) :
    Steps (Paired known dirs listed fresh) (setBlockBitmap b) (setBlockBitmap b) fun _ _ s t =>
      Paired known dirs listed fresh s t := by
  intro s t paired
  obtain ⟨blk, set, bits⟩ := (s.disk blockBitmapBlockNum).exists_setBit small
  obtain ⟨blk', set', bits'⟩ := (t.disk blockBitmapBlockNum).exists_setBit small
  rw [exec_setBlockBitmap set, exec_setBlockBitmap set']
  exact .some (paired.onDisk (paired.disk.setBlockBit small bits bits'))

theorem steps_modifyInfo (change : FileSysInfo → FileSysInfo) :
    Steps (Paired known dirs listed fresh) (modifyInfo change) (modifyInfo change) fun _ _ s t =>
      Paired known dirs listed fresh s t := fun _ _ paired =>
  .some ⟨paired.table, congrArg change paired.info, paired.disk, paired.left, paired.right⟩

/-- One chunk is drawn from each heap. -/
theorem steps_malloc (first : Chunk → Prop) (fresh : (Nat → Chunk) → Prop) :
    Steps (Paired known dirs listed fun heap => first (heap 0) ∧
      fresh fun n => heap (n + 1)) malloc malloc
      fun r r' s t => (first r ∧ first r') ∧ Paired known dirs listed fresh s t := fun _ _ paired =>
  .some ⟨⟨paired.left.1, paired.right.1⟩, paired.table, paired.info, paired.disk, paired.left.2,
    paired.right.2⟩

/-- What stands behind the info in memory gets to the disk, but is not read. -/
theorem steps_writeInfo :
    Steps (Paired known dirs listed fresh) writeInfo writeInfo fun _ _ s t =>
      Paired known dirs listed (fun _ => True) s t := by
  intro s t paired
  have nonneg : 0 ≤ (filesysInfoBlock).toInt := by decide
  rw [writeInfo, exec_bind, exec_malloc, Option.bind_some, exec_bind, exec_get, Option.bind_some,
    exec_bufWrite nonneg, exec_bind, exec_malloc, Option.bind_some, exec_bind, exec_get,
    Option.bind_some, exec_bufWrite nonneg]
  exact .some ⟨paired.table, paired.info, paired.disk.writeInfo _ _, trivial, trivial⟩

theorem steps_openDescriptor (n : CInt) :
    Steps (Paired known dirs listed fresh) (openDescriptor n) (openDescriptor n) fun r r' s t =>
      r = r' ∧ Paired known dirs listed fresh s t := by
  intro s t paired
  rw [exec_openDescriptor, exec_openDescriptor, paired.table]
  cases (List.finRange maxFdEntryMax).find? fun i => !(t.pFileDesc i).bUsed with
  | none => exact .some ⟨rfl, paired⟩
  | some i => exact .some ⟨rfl, rfl, paired.info, paired.disk, paired.left, paired.right⟩

end Accessors

/-! ## Walking a path -/

/-- The buffer of the token, which nothing is written to when the walk does not reach a last
component, then holds the empty string. -/
def FileSys.TokenClean (s : FileSys) (path : Path) : Prop :=
  ∀ d, s.disk.walk 0#32 path.tokens = some (d, none) → s.heap 0 0 = 0#8

/-- `getDirPos` ends at a known inode, with the string `text` in its buffer. -/
structure Arrives (known dirs : Set CInt) (path : Path) (s : FileSys) (pos : DirPos)
    (text : List Byte) (inode : Inode) : Prop where
  known : pos.curInodeNo ∈ known
  ends : ∃ last, s.disk.Ends path last inode
  ptr : ∀ k, inode.dirBlockPtr k ≠ 0#32 → inode.dirBlockPtr k ∈ dirs
  spells : Spells pos.retToken text

section Walking

variable {known dirs : Set CInt} {fresh : (Nat → Chunk) → Prop} {s t : FileSys} {path : Path}

theorem exec_walk {α : Type} {next : DirPos → Inode → FS α} (path : Path) (s : FileSys) :
    exec (do
      let token ← malloc
      let pos ← getDirPos path token
      let inode ← getInode pos.curInodeNo
      next pos inode) s =
    (s.disk.walk 0#32 path.tokens).bind fun w => (s.disk.readInode w.1).bind fun inode =>
      exec (next (.ofWalk (s.heap 0) w) inode) s.pop := by
  rw [exec_bind, exec_malloc, Option.bind_some, (reads_getDirPos path _).exec_then, Option.bind_map]
  refine congrArg (Option.bind _) (funext fun w => ?_)
  obtain ⟨d, last⟩ := w
  rw [Function.comp_apply, (reads_getInode _).exec_then]
  cases last <;> rfl

theorem FileSys.TokenClean.spells (clean : s.TokenClean path) {d : CInt} {last : Option (List Byte)}
    (walked : s.disk.walk 0#32 path.tokens = some (d, last)) :
    Spells (DirPos.ofWalk (s.heap 0) (d, last)).retToken (last.getD []) := by
  cases last with
  | none =>
      refine ⟨List.not_mem_nil, fun i inside => ?_⟩
      obtain rfl := Nat.le_zero.mp inside
      exact clean d walked
  | some text => exact spells_sprintf _ (path.tokens_spec text (Store.mem_of_walk _ walked)).2

/-- On matching disks a walk ends at the same place. -/
theorem Paired.rel_walk {α : Type} {R : α × FileSys → α × FileSys → Prop}
    (paired : Paired known dirs known fresh s t) (root : 0#32 ∈ known) (clean : s.TokenClean path)
    (clean' : t.TokenClean path) {next next' : DirPos → Inode → FS α}
    (rest : ∀ pos pos' text inode, Arrives known dirs path s pos text inode →
      Arrives known dirs path t pos' text inode → pos'.curInodeNo = pos.curInodeNo →
      Option.Rel R (exec (next pos inode) s.pop) (exec (next' pos' inode) t.pop)) :
    Option.Rel R
      (exec (do
        let token ← malloc
        let pos ← getDirPos path token
        let inode ← getInode pos.curInodeNo
        next pos inode) s)
      (exec (do
        let token ← malloc
        let pos ← getDirPos path token
        let inode ← getInode pos.curInodeNo
        next' pos inode) t) := by
  obtain ⟨same, inside⟩ := paired.disk.walk_eq path.tokens root
  rw [exec_walk, exec_walk, ← same]
  cases walked : s.disk.walk 0#32 path.tokens with
  | none => exact .none
  | some w =>
      obtain ⟨d, last⟩ := w
      have walked' := same.symm.trans walked
      have member := inside d last walked
      have found := paired.disk.found d member
      have number : ∀ chunk, (DirPos.ofWalk chunk (d, last)).curInodeNo = d := by
        intro chunk
        cases last <;> rfl
      have read := Store.readInode_found s.disk found
      have read' := Store.readInode_found t.disk found
      rw [← paired.disk.inode d member] at read'
      rw [Option.bind_some, Option.bind_some, read, read', Option.bind_some, Option.bind_some]
      have known : ∀ chunk, (DirPos.ofWalk chunk (d, last)).curInodeNo ∈ known := fun chunk =>
        (number chunk).symm ▸ member
      exact rest _ _ (last.getD []) (s.disk.inodeOf d)
        ⟨known _, ⟨last, d, walked, read⟩, paired.disk.ptr d member, clean.spells walked⟩
        ⟨known _, ⟨last, d, walked', read'⟩, paired.disk.ptr d member, clean'.spells walked'⟩
        ((number _).trans (number _).symm)

theorem Paired.pop {listed : Set CInt} {fresh' : (Nat → Chunk) → Prop}
    (paired : Paired known dirs listed fresh s t) (left : fresh' s.pop.heap)
    (right : fresh' t.pop.heap) : Paired known dirs listed fresh' s.pop t.pop :=
  ⟨paired.table, paired.info, paired.disk, left, right⟩

end Walking
end KwHomework
