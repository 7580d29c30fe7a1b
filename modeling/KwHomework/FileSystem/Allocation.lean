import KwHomework.FileSystem.Operations
import KwHomework.FileSystem.Lookup
import Mathlib.Data.Fintype.Sum

/-!
# Allocation inside a call

`WriteFile` and `MakeDir` use the answer of `GetFreeBlockNum` without a test.  The watched code is
the same code with a test behind every answer, which stops at a number that is no data block, that
was in use when the call started, or that the same call got before.
-/

namespace KwHomework

open Function FS

/-! ## Watched code -/

/-- Code that lists the blocks it allocates and may stop at one of them. -/
abbrev Watched := ExceptT CInt (StateT (List CInt) FS)

namespace Watched

/-- `GetFreeBlockNum` and the test of its answer. -/
def getFreeBlockNum (inUse : CInt → Bool) : Watched CInt := do
  let blkno ← FS.getFreeBlockNum
  let earlier ← getThe (List CInt)
  if DataBlock blkno ∧ inUse blkno = false ∧ blkno ∉ earlier then
    set (earlier ++ [blkno])
    return blkno
  else
    throw blkno

/-- `WriteFile` with watched allocations. -/
def writeFile (inUse : CInt → Bool) (fileDesc : CInt) (pBuffer : Chunk) (length : CInt) :
    Watched CInt :=
  writeFileWith (getFreeBlockNum inUse) fileDesc pBuffer length

/-- `MakeDir` with watched allocations. -/
def makeDir (inUse : CInt → Bool) (szDirName : Path) : Watched (Option CInt) :=
  makeDirWith (getFreeBlockNum inUse) szDirName

/-- Run watched code that has allocated `log`. -/
def exec {α : Type} (x : Watched α) (log : List CInt) (s : FileSys) :
    Option ((Except CInt α × List CInt) × FileSys) :=
  FS.exec (x.run.run log) s

/-! ## Watched code and the code it watches -/

/-- Where the precondition holds, the watched code does what the code does, is not stopped, and
leaves the postcondition behind. -/
def Follows {α : Type} (x : Watched α) (y : FS α) (pre : List CInt → FileSys → Prop)
    (post : α → List CInt → FileSys → Prop) : Prop :=
  ∀ log s, pre log s → (FS.exec y s = none ∧ x.exec log s = none) ∨
    ∃ r log' s', FS.exec y s = some (r, s') ∧ x.exec log s = some ((.ok r, log'), s') ∧
      post r log' s'

section Rules

variable {α β : Type} {x : Watched α} {y : FS α} {next : α → Watched β} {next' : α → FS β}
  {pre : List CInt → FileSys → Prop} {mid : α → List CInt → FileSys → Prop}
  {post : β → List CInt → FileSys → Prop}

private theorem exec_bind (log : List CInt) (s : FileSys) :
    (x >>= next).exec log s = (x.exec log s).bind fun r =>
      match r.1.1 with
      | .ok value => (next value).exec r.1.2 r.2
      | .error stop => some ((.error stop, r.1.2), r.2) := by
  change FS.exec (x.run.run log >>= fun p => (ExceptT.bindCont next p.1) p.2) s = _
  rw [FS.exec_bind]
  refine congrArg (Option.bind _) (funext fun r => ?_)
  cases r.1.1 with
  | ok value => rfl
  | error stop => rfl

private theorem exec_lift (log : List CInt) (s : FileSys) : (liftM y : Watched α).exec log s =
    (FS.exec y s).map fun r => ((.ok r.1, log), r.2) := by
  change FS.exec ((y >>= fun r => Pure.pure (r, log)) >>= fun p =>
    Pure.pure (Except.ok p.1, p.2)) s = _
  rw [FS.exec_bind, FS.exec_bind]
  cases FS.exec y s with
  | none => rfl
  | some r => rfl

@[simp] theorem exec_get (log : List CInt) (s : FileSys) :
    exec (getThe (List CInt)) log s = some ((.ok log, log), s) := rfl

@[simp] theorem exec_set (log log' : List CInt) (s : FileSys) :
    exec (set log') log s = some ((.ok (), log'), s) := rfl

private theorem Follows.pure {pre : List CInt → FileSys → Prop} (value : α)
    {post : α → List CInt → FileSys → Prop} (holds : ∀ log s, pre log s → post value log s) :
    Follows (Pure.pure value) (Pure.pure value) pre post :=
  fun log s before => .inr ⟨value, log, s, rfl, rfl, holds log s before⟩

private theorem Follows.bind (first : Follows x y pre mid)
    (second : ∀ r, Follows (next r) (next' r) (mid r) post) :
    Follows (x >>= next) (y >>= next') pre post := by
  intro log s before
  rw [exec_bind, FS.exec_bind]
  rcases first log s before with ⟨fault, fault'⟩ | ⟨r, log', s', run, run', middle⟩
  · rw [fault, fault']
    exact .inl ⟨rfl, rfl⟩
  · rw [run, run']
    exact second r log' s' middle

/-- Code without allocations. -/
theorem Follows.lift {q : α → List CInt → FileSys → Prop}
    (keeps : ∀ log s r s', pre log s → FS.exec y s = some (r, s') → q r log s') :
    Follows (liftM y) y pre q := by
  intro log s before
  have lifted : exec (liftM y : Watched α) log s = _ := exec_lift log s
  cases run : FS.exec y s with
  | none => exact .inl ⟨rfl, by rw [lifted, run]; rfl⟩
  | some r => exact .inr ⟨r.1, log, r.2, rfl, by rw [lifted, run]; rfl,
      keeps log s r.1 r.2 before run⟩

/-- The watched code is allowed to be stopped nowhere, so it gives what the code gives. -/
theorem Follows.exec_eq {mid : α → List CInt → FileSys → Prop} (follows : Follows x y pre mid)
    {s : FileSys} (before : pre [] s) :
    (x.exec [] s).map (fun r => (r.1.1, r.2)) = (FS.exec y s).map fun r => (.ok r.1, r.2) := by
  rcases follows [] s before with ⟨fault, fault'⟩ | ⟨r, log', s', run, run', _⟩
  · rw [fault, fault']
    rfl
  · rw [run, run']
    rfl

end Rules
end Watched

/-! ## The block bitmap -/

/-- The metadata blocks are marked, and the marked data blocks are the nonzero pointers of the
allocated inodes. -/
structure Volume.BitmapExact (v : Volume) : Prop where
  reserved : ∀ b : CInt, b.toNat < 7 → v.blockUsed b = true
  dataBlock : ∀ n k, v.inodeUsed n = true → v.ptr (n, k) ≠ 0#32 → DataBlock (v.ptr (n, k))
  marked_iff : ∀ b, DataBlock b →
    (v.blockUsed b = true ↔ ∃ n k, v.inodeUsed n = true ∧ v.ptr (n, k) = b)

private theorem Store.validInode_of_used {disk : Store} {n : CInt}
    (used : disk.volume.inodeUsed n = true) :
    ValidInode n := by
  simp only [Store.volume, Bool.and_eq_true, decide_eq_true_eq] at used
  exact used.1

/-- However a few more blocks are marked, some data block is free: 64 inodes hold at most 320. -/
theorem Volume.BitmapExact.exists_free {disk : Store} (bitmap : disk.volume.BitmapExact)
    {log : List CInt} (few : log.length < 185) : ∃ n, 7 ≤ n ∧ n < 512 ∧
      disk.volume.blockUsed (BitVec.ofNat 32 n) = false ∧ BitVec.ofNat 32 n ∉ log := by
  have value : ∀ c : Fin 505, (BitVec.ofNat 32 (7 + c)).toNat = 7 + c := fun c => by
    rw [BitVec.toNat_ofNat]
    omega
  have injective : Injective fun c : Fin 505 => BitVec.ofNat 32 (7 + c) := by
    intro c c' same
    have equal := congrArg BitVec.toNat same
    simp only [value] at equal
    exact Fin.ext (by omega)
  have data : ∀ c : Fin 505, DataBlock (BitVec.ofNat 32 (7 + c)) := fun c => by
    rw [DataBlock, value]
    omega
  let used : CInt → Bool := fun b => disk.volume.blockUsed b || decide (b ∈ log)
  let taken : (Fin 64 × Fin numOfDirectBlockPtr) ⊕ Fin log.length → CInt :=
    Sum.elim (fun owner => disk.volume.ptr (BitVec.ofNat 32 owner.1, owner.2)) log.get
  have taker : ∀ c : Fin 505, used (BitVec.ofNat 32 (7 + c)) = true →
      ∃ o, taken o = BitVec.ofNat 32 (7 + c) := by
    intro c marked
    rcases Bool.or_eq_true_iff.mp marked with old | new
    · obtain ⟨n, k, allocated, same⟩ := (bitmap.marked_iff _ (data c)).mp old
      have small : n.toNat < 64 := Store.validInode_of_used allocated
      exact ⟨.inl (⟨n.toNat, small⟩, k), by simpa [taken] using same⟩
    · obtain ⟨o, same⟩ := List.mem_iff_get.mp (of_decide_eq_true new)
      exact ⟨.inr o, same⟩
  have fewer : Fintype.card ((Fin 64 × Fin numOfDirectBlockPtr) ⊕ Fin log.length) <
      Fintype.card (Fin 505) := by
    rw [Fintype.card_sum, Fintype.card_prod, Fintype.card_fin, Fintype.card_fin, Fintype.card_fin,
      Fintype.card_fin, show 64 * numOfDirectBlockPtr = 320 from rfl]
    omega
  obtain ⟨c, unused⟩ := exists_unmarked injective taker fewer
  obtain ⟨old, new⟩ := Bool.or_eq_false_iff.mp unused
  exact ⟨7 + c, by omega, by omega, old, of_decide_eq_false new⟩

/-- The blocks marked since the volume `v` are `marked`, at most `n` of them. -/
def MarkedSince (v : Volume) (n : Nat) (marked : List CInt) (s : FileSys) : Prop :=
  (∀ b, s.disk.volume.blockUsed b = (v.blockUsed b || decide (b ∈ marked))) ∧ marked.length ≤ n

private theorem MarkedSince.congr {v : Volume} {n : Nat} {marked : List CInt} {s s' : FileSys}
    (since : MarkedSince v n marked s) (same : s'.disk.volume.blockUsed = s.disk.volume.blockUsed) :
    MarkedSince v n marked s' :=
  ⟨fun b => by rw [same, since.1], since.2⟩

private theorem MarkedSince.refl (s : FileSys) : MarkedSince s.disk.volume 0 [] s :=
  ⟨fun b => by simp, le_rfl⟩

/-- The data block `b` was given last and is not marked yet. -/
def Pending (v : Volume) (n : Nat) (b : CInt) (log : List CInt) (s : FileSys) : Prop :=
  DataBlock b ∧ ∃ earlier, log = earlier ++ [b] ∧ MarkedSince v n earlier s

private theorem Pending.congr {v : Volume} {n : Nat} {b : CInt} {log : List CInt} {s s' : FileSys}
    (pending : Pending v n b log s)
    (same : s'.disk.volume.blockUsed = s.disk.volume.blockUsed) : Pending v n b log s' := by
  obtain ⟨data, earlier, last, since⟩ := pending
  exact ⟨data, earlier, last, since.congr same⟩

/-- The allocator returns a data block that is marked neither at the start nor since. -/
theorem MarkedSince.freeBlockNum {disk : Store} (bitmap : disk.volume.BitmapExact) {n : Nat}
    (few : n < 185) {marked : List CInt} {s : FileSys}
    (since : MarkedSince disk.volume n marked s) :
    DataBlock s.disk.volume.freeBlockNum ∧
      disk.volume.blockUsed s.disk.volume.freeBlockNum = false ∧
      s.disk.volume.freeBlockNum ∉ marked := by
  obtain ⟨c, _, small, old, new⟩ := bitmap.exists_free (since.2.trans_lt few)
  have free : ∃ n < 512, s.disk.volume.blockUsed (BitVec.ofNat 32 n) = false :=
    ⟨c, small, by rw [since.1, old, decide_eq_false new]; rfl⟩
  obtain ⟨m, bound, number, unused⟩ := Volume.exists_freeBlockNum free
  rw [since.1] at unused
  obtain ⟨old', new'⟩ := Bool.or_eq_false_iff.mp unused
  have value : (BitVec.ofNat 32 m).toNat = m := by
    rw [BitVec.toNat_ofNat]
    omega
  rw [number]
  refine ⟨?_, old', of_decide_eq_false new'⟩
  rw [DataBlock, value]
  refine ⟨?_, bound⟩
  by_contra low
  rw [bitmap.reserved _ (by rw [value]; omega)] at old'
  cases old'

namespace Watched

section Steps

variable {disk : Store} {n : Nat}

/-- An allocation is not stopped. -/
theorem follows_getFreeBlockNum (bitmap : disk.volume.BitmapExact) (few : n < 185) :
    Follows (getFreeBlockNum disk.volume.blockUsed) FS.getFreeBlockNum
      (MarkedSince disk.volume n) (Pending disk.volume n) := by
  intro log s since
  obtain ⟨data, unused, fresh⟩ := since.freeBlockNum bitmap few
  obtain ⟨s', run, view⟩ := yields_getFreeBlockNum s.view s rfl
  refine .inr ⟨_, _, s', run, ?_, data, log, rfl, since.congr (congrArg (·.volume.blockUsed) view)⟩
  rw [getFreeBlockNum, exec_bind, exec_lift, run, Option.map_some, Option.bind_some]
  dsimp only
  rw [exec_bind, exec_get, Option.bind_some]
  dsimp only
  rw [if_pos ⟨data, unused, fresh⟩, exec_bind, exec_set, Option.bind_some]
  rfl

theorem follows_setBlockBitmap {b : CInt} :
    Follows (liftM (setBlockBitmap b)) (setBlockBitmap b) (Pending disk.volume n b)
      fun _ => MarkedSince disk.volume (n + 1) := by
  refine .lift fun log s r s' before run => ?_
  obtain ⟨data, earlier, rfl, since⟩ := before
  have view := ((yields_setBlockBitmap s.view data.2).unique run).2
  refine ⟨fun c => ?_, ?_⟩
  · have marked := congrFun (congrArg (·.volume.blockUsed) view) c
    by_cases same : c = b
    · simpa [same, FileSys.view] using marked
    · simpa [same, FileSys.view, since.1] using marked
  · rw [List.length_append, List.length_singleton]
    exact Nat.succ_le_succ since.2

theorem Follows.keeps {α : Type} {y : FS α} {pre : List CInt → FileSys → Prop}
    (bitmapOnly : ∀ log s s', pre log s → s'.disk.volume.blockUsed = s.disk.volume.blockUsed →
      pre log s')
    (same : ∀ s r s', FS.exec y s = some (r, s') →
      s'.disk.volume.blockUsed = s.disk.volume.blockUsed) :
    Follows (liftM y) y pre fun _ => pre :=
  .lift fun log s r s' before run => bitmapOnly log s s' before (same s r s' run)

private theorem bufWrite_keeps {b : CInt} (data : DataBlock b) (contents : Block) (s : FileSys)
    (r : Unit) (s' : FileSys) (run : FS.exec (bufWrite b contents) s = some (r, s')) :
    s'.disk.volume.blockUsed = s.disk.volume.blockUsed :=
  congrArg (·.volume.blockUsed) ((yields_bufWrite data contents s.view).unique run).2

private theorem putInode_keeps {p : CInt} (valid : ValidInode p) (inode : Inode) (s : FileSys)
    (r : Unit) (s' : FileSys) (run : FS.exec (putInode p inode) s = some (r, s')) :
    s'.disk.volume.blockUsed = s.disk.volume.blockUsed :=
  congrArg (fun w : View => w.volume.blockUsed) ((yields_putInode s.view valid inode).unique run).2

private theorem malloc_keeps (s : FileSys) (r : Chunk) (s' : FileSys)
    (run : FS.exec malloc s = some (r, s')) :
    s'.disk.volume.blockUsed = s.disk.volume.blockUsed := by
  obtain ⟨_, rfl⟩ := Prod.mk.inj (Option.some.inj run)
  rfl

/-- The pointers of an inode are null or lead to data blocks. -/
def InRegion (inode : Inode) : Prop :=
  ∀ k, inode.dirBlockPtr k ≠ 0#32 → DataBlock (inode.dirBlockPtr k)

private theorem inRegion_update {inode : Inode} (region : InRegion inode) (allocBlocks size : CInt)
    (k : Fin numOfDirectBlockPtr) {b : CInt} (data : DataBlock b) :
    InRegion ⟨allocBlocks, size, inode.type, update inode.dirBlockPtr k b⟩ := by
  intro l holds
  by_cases same : l = k
  · simpa [same] using data
  · simpa [same] using region l (by simpa [same] using holds)

/-- The precondition of code that only reads holds afterwards, and says what was read. -/
theorem Follows.reads {α : Type} {y : FS α} {f : Store → Option α} (reads : Reads y f)
    {pre : List CInt → FileSys → Prop} :
    Follows (liftM y) y pre fun r log s => pre log s ∧ f s.disk = some r := by
  refine .lift fun log s r s' before run => ?_
  rw [reads s] at run
  obtain ⟨r', found, same⟩ := Option.map_eq_some_iff.mp run
  obtain ⟨rfl, rfl⟩ := Prod.mk.inj same
  exact ⟨before, found⟩

theorem Follows.assume {α : Type} {x : Watched α} {y : FS α} {pre : List CInt → FileSys → Prop}
    {post : α → List CInt → FileSys → Prop} {p : Prop} (implied : ∀ log s, pre log s → p)
    (follows : p → Follows x y pre post) : Follows x y pre post :=
  fun log s before => follows (implied log s before) log s before

private theorem Follows.weaken {α : Type} {x : Watched α} {y : FS α}
    {pre pre' : List CInt → FileSys → Prop} {post post' : α → List CInt → FileSys → Prop}
    (follows : Follows x y pre post)
    (before : ∀ log s, pre' log s → pre log s) (after : ∀ r log s, post r log s → post' r log s) :
    Follows x y pre' post' := by
  intro log s holds
  rcases follows log s (before log s holds) with fault | ⟨r, log', s', run, run', holds'⟩
  · exact .inl fault
  · exact .inr ⟨r, log', s', run, run', after r log' s' holds'⟩

theorem follows_allocBlock (bitmap : disk.volume.BitmapExact) (few : n < 185) {inode : Inode}
    (region : InRegion inode) (k : Fin numOfDirectBlockPtr) :
    Follows (allocBlockWith (getFreeBlockNum disk.volume.blockUsed) inode k) (FS.allocBlock inode k)
      (MarkedSince disk.volume n)
      fun inode' log s => (InRegion inode' ∧ DataBlock (inode'.dirBlockPtr k)) ∧
        MarkedSince disk.volume (n + 1) log s := by
  refine (follows_getFreeBlockNum bitmap few).bind fun b => ?_
  refine Follows.assume (fun log s before => before.1) fun data => ?_
  refine follows_setBlockBitmap.bind fun _ => .pure _ fun log s since => ⟨⟨?_, ?_⟩, since⟩
  · exact inRegion_update region _ _ k data
  · simpa using data

theorem follows_writeBlock (bitmap : disk.volume.BitmapExact) (few : n < 185) (pBuffer : Chunk)
    {acc : Inode × CInt} (region : InRegion acc.1) (i : Int) :
    Follows (writeBlockWith (getFreeBlockNum disk.volume.blockUsed) pBuffer acc i)
      (FS.writeBlock pBuffer acc i) (MarkedSince disk.volume n)
      fun acc' log s => InRegion acc'.1 ∧ MarkedSince disk.volume (n + 1) log s := by
  have index : Reads (ptrIndex i) fun _ => if bound : 0 ≤ i ∧ i < numOfDirectBlockPtr then
      some ⟨i.toNat, by omega⟩ else none := by
    intro s
    rw [ptrIndex]
    split_ifs <;> rfl
  refine (Follows.reads index).bind fun k => ?_
  -- behind the allocation, if there is one, the pointer leads to a data block
  have rest (acc' : Inode × CInt) (facts : InRegion acc'.1 ∧ DataBlock (acc'.1.dirBlockPtr k)) :
      Follows (do
          liftM (bufWrite (acc'.1.dirBlockPtr k) (blockOf fun m => pBuffer (512 * k + m)))
          Pure.pure acc')
        (do
          bufWrite (acc'.1.dirBlockPtr k) (blockOf fun m => pBuffer (512 * k + m))
          Pure.pure acc')
        (MarkedSince disk.volume (n + 1))
        fun acc' log s => InRegion acc'.1 ∧ MarkedSince disk.volume (n + 1) log s :=
    (Follows.keeps (fun _ _ _ since same => since.congr same)
    (bufWrite_keeps facts.2 _)).bind fun _ =>
      .pure _ fun _ _ since => ⟨facts.1, since⟩
  refine Follows.weaken (show Follows _ _ (MarkedSince disk.volume n) _ from ?_)
    (fun _ _ before => before.1) fun _ _ _ => id
  dsimp only
  split_ifs with empty
  · refine (follows_allocBlock bitmap few region k).bind fun inode => ?_
    refine Follows.assume (fun log s before => before.1) fun facts => ?_
    exact (rest (inode, acc.2 + 1) facts).weaken (fun _ _ before => before.2) fun _ _ _ => id
  · exact (rest acc ⟨region, region k empty⟩).weaken
      (fun _ _ since => ⟨since.1, since.2.trans n.le_succ⟩) fun _ _ _ => id

theorem follows_writeBlocks (bitmap : disk.volume.BitmapExact) (pBuffer : Chunk) :
    ∀ (indexes : List Int) (n : Nat) (acc : Inode × CInt), n + indexes.length < 186 →
      InRegion acc.1 →
      Follows (indexes.foldlM (writeBlockWith (getFreeBlockNum disk.volume.blockUsed) pBuffer) acc)
        (indexes.foldlM (FS.writeBlock pBuffer) acc) (MarkedSince disk.volume n)
        fun _ _ _ => True
  | [], n, acc, _, _ => .pure acc fun _ _ _ => trivial
  | i :: indexes, n, acc, few, region => by
      rw [List.length_cons] at few
      rw [List.foldlM_cons, List.foldlM_cons]
      refine (follows_writeBlock bitmap (by omega) pBuffer region i).bind fun acc' => ?_
      refine Follows.assume (fun log s before => before.1) fun region' => ?_
      exact (follows_writeBlocks bitmap pBuffer indexes (n + 1) acc' (by omega) region').weaken
        (fun _ _ before => before.2) fun _ _ _ => id

private theorem follows_openFileOf {s : FileSys} (i : Fin maxFdEntryMax) :
    Follows (liftM (openFileOf i)) (openFileOf i) (fun log s' => log = [] ∧ s' = s)
      fun file log s' => (log = [] ∧ s' = s) ∧ (s.pFileDesc i).pOpenFile = .file file := by
  refine .lift fun log s' r s'' before run => ?_
  obtain ⟨rfl, rfl⟩ := before
  rw [openFileOf, FS.exec_bind, FS.exec_get, Option.bind_some] at run
  cases pointer : (s'.pFileDesc i).pOpenFile with
  | null => simp [pointer] at run
  | freed => simp [pointer] at run
  | file file =>
      simp only [pointer, FS.exec_pure, Option.some.injEq, Prod.mk.injEq] at run
      obtain ⟨rfl, rfl⟩ := run
      exact ⟨⟨rfl, rfl⟩, rfl⟩

/-- Behind the last allocation nothing has to be known of the state. -/
def Trails {α : Type} (x : Watched α) (y : FS α) : Prop :=
  Follows x y (fun _ _ => True) fun _ _ _ => True

private theorem Trails.pure {α : Type} (value : α) : Trails (Pure.pure value) (Pure.pure value) :=
  Follows.pure value fun _ _ _ => trivial

private theorem Trails.step {α β : Type} {y : FS α} {next : α → Watched β} {next' : α → FS β}
    (rest : ∀ r, Trails (next r) (next' r)) : Trails (liftM y >>= next) (y >>= next') :=
  Follows.bind (Follows.lift (q := fun _ _ _ => True) fun _ _ _ _ _ _ => trivial) rest

private theorem Trails.follows {α : Type} {x : Watched α} {y : FS α} (trails : Trails x y)
    {pre : List CInt → FileSys → Prop} : Follows x y pre fun _ _ _ => True :=
  Follows.weaken trails (fun _ _ _ => trivial) fun _ _ _ => id

end Steps
end Watched

/-! ## The calls -/

section Calls

variable {s : FileSys} (bitmap : s.disk.volume.BitmapExact)
include bitmap

private theorem watched_writeFile {fileDesc : CInt} (pBuffer : Chunk) (length : CInt)
    (opened : ∀ (i : Fin maxFdEntryMax) file, fileDesc.toNat = i →
      (s.pFileDesc i).pOpenFile = .file file → 0 ≤ file.fileOffset.toInt ∧
      ∀ inode, s.disk.readInode file.inodeNum = some inode → Watched.InRegion inode) :
    ((Watched.writeFile s.disk.volume.blockUsed fileDesc pBuffer length).exec [] s).map
        (fun r => (r.1.1, r.2)) =
      (exec (writeFile fileDesc pBuffer length) s).map fun r => (.ok r.1, r.2) := by
  have follows : Watched.Follows (Watched.writeFile s.disk.volume.blockUsed fileDesc pBuffer length)
      (writeFile fileDesc pBuffer length) (fun log s' => log = [] ∧ s' = s) fun _ _ _ => True := by
    have index : Reads (descIndex fileDesc) fun _ =>
        if bound : fileDesc.toNat < maxFdEntryMax then some ⟨fileDesc.toNat, bound⟩ else none := by
      intro s
      rw [descIndex]
      split_ifs <;> rfl
    refine (Watched.Follows.reads index).bind fun i => ?_
    refine Watched.Follows.assume (p := fileDesc.toNat = i) ?_ fun number => ?_
    · rintro log s' ⟨_, found⟩
      split_ifs at found
      rw [← Option.some.inj found]
    refine ((Watched.follows_openFileOf i).weaken (fun _ _ before => before.1)
      fun _ _ _ => id).bind fun file => ?_
    refine Watched.Follows.assume (fun log s' before => before.2) fun pointer => ?_
    obtain ⟨offset, region⟩ := opened i file number pointer
    refine (Watched.Follows.reads (reads_getInode file.inodeNum)).bind fun pInode => ?_
    refine Watched.Follows.assume (fun log s' before => region pInode (before.1.1.2 ▸ before.2)) fun
      inside => ?_
    dsimp only
    split_ifs with refused
    · exact .pure _ fun _ _ _ => trivial
    · have start : 0 ≤ (file.fileOffset.sdiv 512).toInt := by
        rw [BitVec.toInt_sdiv_of_ne_or_ne _ _ (.inr (by decide))]
        exact Int.tdiv_nonneg offset (by decide)
      have fits : (file.fileOffset.sdiv 512 + ((length - 1).sdiv 512 + 1)).toInt ≤ 5 :=
        not_lt.mp refused
      refine Watched.Follows.bind (Watched.Follows.weaken
        (Watched.follows_writeBlocks bitmap pBuffer _ 0 (pInode, 0#32) ?_ inside) ?_
        fun _ _ _ => id) fun acc => Watched.Trails.follows ?_
      · rw [List.length_map, List.length_range]
        omega
      · rintro log s' ⟨⟨⟨rfl, rfl⟩, _⟩, _⟩
        exact MarkedSince.refl s'
      · repeat refine .step fun _ => ?_
        exact .pure _
  exact follows.exec_eq ⟨rfl, rfl⟩

private theorem watched_makeDir (szDirName : Path)
    (parent : ∀ p last, s.disk.walk 0#32 szDirName.tokens = some (p, last) →
      ValidInode p ∧ ∀ inode, s.disk.readInode p = some inode → Watched.InRegion inode) :
    ((Watched.makeDir s.disk.volume.blockUsed szDirName).exec [] s).map (fun r => (r.1.1, r.2)) =
      (exec (makeDir szDirName) s).map fun r => (.ok r.1, r.2) := by
  have follows : Watched.Follows (Watched.makeDir s.disk.volume.blockUsed szDirName)
      (makeDir szDirName) (fun log s' => log = [] ∧ s'.disk = s.disk) fun _ _ _ => True := by
    refine (Watched.Follows.reads reads_getFreeInodeNum).bind fun inodeNo => ?_
    have token : Watched.Follows (liftM malloc) malloc
        (fun log s' => (log = [] ∧ s'.disk = s.disk) ∧
          ((s'.disk.readBlock inodeBitmapBlockNum).bind fun pData => some (pData.firstClear 8)) =
            some inodeNo)
        fun _ log s' => log = [] ∧ s'.disk = s.disk := by
      refine .lift fun log s' r s'' before run => ?_
      obtain ⟨_, rfl⟩ := Prod.mk.inj (Option.some.inj run)
      exact before.1
    refine token.bind fun token => ?_
    refine (Watched.Follows.reads (reads_getDirPos szDirName token)).bind fun pos => ?_
    refine (Watched.Follows.reads (reads_getInode pos.curInodeNo)).bind fun curInode => ?_
    refine Watched.Follows.assume (p := ValidInode pos.curInodeNo ∧ Watched.InRegion curInode)
      ?_ fun inside => ?_
    · rintro log s' ⟨⟨⟨_, same⟩, position⟩, read⟩
      rw [same] at position read
      obtain ⟨⟨p, last⟩, walked, rfl⟩ := Option.map_eq_some_iff.mp position
      obtain ⟨valid, region⟩ := parent p last walked
      cases last with
      | none => exact ⟨valid, region curInode read⟩
      | some name => exact ⟨valid, region curInode read⟩
    refine (Watched.Follows.reads (reads_scanSlots curInode)).bind fun found => ?_
    cases found with
    | none => exact .pure _ fun _ _ _ => trivial
    | some found =>
        obtain ⟨i, slot⟩ := found
        -- the allocation for the new directory, behind at most one for its parent
        have second := Watched.follows_getFreeBlockNum bitmap (show 1 < 185 by decide)
        cases slot with
        | some entry =>
            refine Watched.Follows.assume (p := curInode.dirBlockPtr i ≠ 0#32)
              (fun log s' before => (Store.scanRoom_eq_some before.2).1) fun holds => ?_
            have written := Watched.Follows.keeps
              (fun log _ _ (since : MarkedSince s.disk.volume 1 log _) same => since.congr same)
              (Watched.bufWrite_keeps (inside.2 i holds)
                (entry.1.setEntry entry.2 inodeNo pos.retToken))
            refine Watched.Follows.bind (written.weaken ?_ fun _ _ _ => id) fun _ =>
              second.bind fun _ => Watched.Trails.follows ?_
            · rintro log s' ⟨⟨⟨⟨rfl, same⟩, _⟩, _⟩, _⟩
              exact ⟨fun b => by rw [same]; simp, Nat.zero_le _⟩
            · repeat refine .step fun _ => ?_
              exact .pure none
        | none =>
            have first := Watched.follows_getFreeBlockNum bitmap (show 0 < 185 by decide)
            refine Watched.Follows.bind (first.weaken ?_ fun _ _ _ => id) fun tmpBlkNo => ?_
            · rintro log s' ⟨⟨⟨⟨rfl, same⟩, _⟩, _⟩, _⟩
              exact ⟨fun b => by rw [same]; simp, le_rfl⟩
            refine Watched.Follows.assume (fun log s' before => before.1) fun data => ?_
            -- the block is allocated but not yet marked
            have unmarked : ∀ log s' (s'' : FileSys), Pending s.disk.volume 0 tmpBlkNo log s' →
                s''.disk.volume.blockUsed = s'.disk.volume.blockUsed →
                Pending s.disk.volume 0 tmpBlkNo log s'' := fun _ _ _ pending => pending.congr
            refine (Watched.Follows.keeps unmarked Watched.malloc_keeps).bind fun entries => ?_
            refine (Watched.Follows.keeps unmarked (Watched.bufWrite_keeps data _)).bind fun _ => ?_
            refine (Watched.Follows.keeps unmarked (Watched.putInode_keeps inside.1 _)).bind
              fun _ => ?_
            refine Watched.follows_setBlockBitmap.bind fun _ => ?_
            refine second.bind fun _ => Watched.Trails.follows ?_
            repeat refine .step fun _ => ?_
            exact .pure none
  exact follows.exec_eq ⟨rfl, rfl⟩

end Calls

/-- The allocator and the allocations inside `WriteFile` and `MakeDir` give data blocks that are
free and were not given before, as long as the inode that the call extends has no pointer out of
the data region. -/
theorem allocations_fresh (s : FileSys) (bitmap : s.disk.volume.BitmapExact) :
    (∃ b s', exec getFreeBlockNum s = some (b, s') ∧ DataBlock b ∧
      s.disk.volume.blockUsed b = false) ∧
    (∀ fileDesc pBuffer length,
      (∀ (i : Fin maxFdEntryMax) file, BitVec.toNat fileDesc = (i : Nat) →
        (s.pFileDesc i).pOpenFile = .file file → 0 ≤ file.fileOffset.toInt ∧
        ∀ inode, s.disk.readInode file.inodeNum = some inode → Watched.InRegion inode) →
      ((Watched.writeFile s.disk.volume.blockUsed fileDesc pBuffer length).exec [] s).map
          (fun r => (r.1.1, r.2)) =
        (exec (writeFile fileDesc pBuffer length) s).map fun r => (.ok r.1, r.2)) ∧
    ∀ szDirName : Path,
      (∀ p last, s.disk.walk 0#32 szDirName.tokens = some (p, last) →
        ValidInode p ∧ ∀ inode, s.disk.readInode p = some inode → Watched.InRegion inode) →
      ((Watched.makeDir s.disk.volume.blockUsed szDirName).exec [] s).map (fun r => (r.1.1, r.2)) =
        (exec (makeDir szDirName) s).map fun r => (.ok r.1, r.2) := by
  obtain ⟨data, unused, _⟩ := (MarkedSince.refl s).freeBlockNum bitmap (by decide)
  obtain ⟨s', run, _⟩ := yields_getFreeBlockNum s.view s rfl
  exact ⟨⟨_, s', run, data, unused⟩,
    fun fileDesc pBuffer length => watched_writeFile bitmap pBuffer length,
    fun szDirName => watched_makeDir bitmap szDirName⟩

/-! ## Inode numbers that lead elsewhere -/

/-- A disk on which the end of the data block 8, where inode 95 would lie, looks like an inode
whose first block is the block bitmap, and on which the root has an entry `a` for inode -16, which
would lie at the start of the block bitmap. -/
def strayDisk : Store := fun blkno =>
  if blkno = inodeBitmapBlockNum then
    update (fun _ => 0#8) 0 0xC0#8
  else if blkno = blockBitmapBlockNum then
    update (update (fun _ => 0#8) 0 0xFF#8) 1 0x80#8
  else if blkno = 3#32 then
    (Block.storeInode (fun _ => 0#8) (inodeIndex 0#32)
      ⟨1#32, 512#32, fileTypeDir, update (fun _ => 0#32) 0 7#32⟩).storeInode (inodeIndex 1#32)
      ⟨1#32, 512#32, fileTypeFile, update (fun _ => 0#32) 0 8#32⟩
  else if blkno = 7#32 then
    (Block.setEntry (fun _ => 0#8) 0 0#32 (cString dot)).setEntry 1 (-16#32) (cString [97#8])
  else if blkno = 8#32 then
    Block.storeInode (fun _ => 0#8) (inodeIndex 15#32)
      ⟨1#32, 512#32, fileTypeFile, update (fun _ => 0#32) 0 2#32⟩
  else fun _ => 0#8

/-- That disk with descriptor 0 for inode 95 and the others for inode 1. -/
def stray : FileSys :=
  ⟨⟨fun i => ⟨true, .file ⟨0#32, if i.val = 0 then 95#32 else 1#32⟩⟩,
    ⟨512, 0, 262144, 2, 503, 2, 2, 1, 3, 7⟩, fun _ _ => 0#8⟩, strayDisk⟩

private theorem bitmapExact_strayDisk : strayDisk.volume.BitmapExact := by
  have inodes : ∀ n : Fin 64, strayDisk.volume.inodeUsed (BitVec.ofNat 32 n) =
      decide (n.val < 2) := by
    decide +kernel
  have blocks : ∀ b : Fin 512, strayDisk.volume.blockUsed (BitVec.ofNat 32 b) =
      decide (b.val < 9) := by
    decide +kernel
  have pointers : ∀ (n : Fin 2) k, strayDisk.volume.ptr (BitVec.ofNat 32 n, k) =
      if k.val = 0 then BitVec.ofNat 32 (n + 7) else 0#32 := by
    decide +kernel
  have small : ∀ n, strayDisk.volume.inodeUsed n = true → ∃ m : Fin 2, n = BitVec.ofNat 32 m := by
    intro n used
    have bound : n.toNat < 64 := Store.validInode_of_used used
    have read := inodes ⟨n.toNat, bound⟩
    rw [BitVec.ofNat_toNat, BitVec.setWidth_eq, used] at read
    exact ⟨⟨n.toNat, of_decide_eq_true read.symm⟩, by simp⟩
  have marked : ∀ b : CInt, b.toNat < 512 →
      (strayDisk.volume.blockUsed b = true ↔ b.toNat < 9) := by
    intro b bound
    have read := blocks ⟨b.toNat, bound⟩
    rw [BitVec.ofNat_toNat, BitVec.setWidth_eq] at read
    rw [read, decide_eq_true_eq]
  refine ⟨fun b low => ?_, fun n k used holds => ?_, fun b data => ?_⟩
  · exact (marked b (by omega)).mpr (by omega)
  · obtain ⟨m, rfl⟩ := small n used
    rw [pointers] at holds ⊢
    split_ifs at holds ⊢
    · revert m
      decide
    · exact absurd rfl holds
  · rw [marked b data.2]
    constructor
    · intro low
      obtain ⟨n, rfl⟩ : ∃ n : Fin 2, b = BitVec.ofNat 32 (n + 7) :=
        ⟨⟨b.toNat - 7, by omega⟩, by
          have high := data.1
          rw [Nat.sub_add_cancel high]
          simp⟩
      refine ⟨BitVec.ofNat 32 n, ⟨0, by decide⟩, ?_, by rw [pointers, if_pos rfl]⟩
      revert n
      decide +kernel
    · rintro ⟨n, k, used, rfl⟩
      obtain ⟨m, rfl⟩ := small n used
      rw [pointers] at data ⊢
      split_ifs at data ⊢
      · revert m
        decide
      · exact absurd data.1 (by decide)

/-- `WriteFile` on that descriptor overwrites the block bitmap, and its next allocation fails.
`MakeDir` counts a block of inode -16, which clears the first marks, and gets block 0 next. -/
theorem allocations_stray : stray.disk.volume.BitmapExact ∧
    ((Watched.writeFile stray.disk.volume.blockUsed 0#32 (fun _ => 0xFF#8) 1024#32).exec []
      stray).map (fun r => r.1.1) = some (.error (-1#32)) ∧
    ((Watched.makeDir stray.disk.volume.blockUsed pathThroughA).exec [] stray).map
      (fun r => r.1.1) = some (.error 0#32) := by
  refine ⟨bitmapExact_strayDisk, ?_, ?_⟩
  · decide +kernel
  · decide +kernel

/-- Inode 1 and the root have blocks in the data region. -/
theorem allocations_fresh_stray :
    ((Watched.writeFile stray.disk.volume.blockUsed 1#32 (fun _ => 0xFF#8) 1024#32).exec []
        stray).map (fun r => (r.1.1, r.2)) =
      (exec (writeFile 1#32 (fun _ => 0xFF#8) 1024#32) stray).map (fun r => (.ok r.1, r.2)) ∧
    ((Watched.makeDir stray.disk.volume.blockUsed ⟨[98#8], by decide⟩).exec [] stray).map
        (fun r => (r.1.1, r.2)) =
      (exec (makeDir ⟨[98#8], by decide⟩) stray).map fun r => (.ok r.1, r.2) := by
  obtain ⟨_, written, made⟩ := allocations_fresh stray bitmapExact_strayDisk
  have root : ∀ inode, stray.disk.readInode 0#32 = some inode → Watched.InRegion inode := by
    intro inode read
    have region : ∀ k, inode.dirBlockPtr k = if k.val = 0 then 7#32 else 0#32 := by
      obtain rfl := Option.some.inj read
      decide +kernel
    intro k
    rw [region]
    revert k
    decide
  have first : ∀ inode, stray.disk.readInode 1#32 = some inode → Watched.InRegion inode := by
    intro inode read
    have region : ∀ k, inode.dirBlockPtr k = if k.val = 0 then 8#32 else 0#32 := by
      obtain rfl := Option.some.inj read
      decide +kernel
    intro k
    rw [region]
    revert k
    decide
  refine ⟨written _ _ _ fun i file here opened => ?_, made _ fun p last walked => ?_⟩
  · have second : i.val ≠ 0 := fun zero => by
      rw [zero] at here
      cases here
    simp only [stray, if_neg second] at opened
    obtain rfl := FilePtr.file.inj opened
    exact ⟨by decide, first⟩
  · obtain ⟨rfl, rfl⟩ : 0#32 = p ∧ some [98#8] = last := by
      simpa [Path.tokens, strtokFrom, Store.walk] using walked
    exact ⟨by decide, root⟩

end KwHomework
