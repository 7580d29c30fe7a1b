import KwHomework.FileSystem.BufferCache
import KwHomework.FileSystem.FileSys

/-!
# Running the file system

`exec` runs file-system code over the flat store of block contents.  The buffer cache implements
that store, so the same code run through `BufRead`, `BufWrite` and `BufSync` gives the same results.
-/

namespace KwHomework

open Function

/-- The logical contents of the disk. -/
abbrev Store := CInt → Block

/-- The memory of the file system and the logical contents of the disk. -/
structure FileSys extends Memory where
  disk : Store

/-- `BufRead` and `BufWrite` take block numbers that are not negative. -/
def flatDevice : Backend CInt Block Store := .flat CInt Block fun blkno => 0 ≤ blkno.toInt

/-- The buffer cache as a device. -/
def cacheDevice : Backend CInt Block BufCache where
  read c blkno := c.bufRead blkno
  write c blkno pData := c.bufWrite blkno pData
  flush c := c.bufSync

private theorem cacheDevice_simulates : cacheDevice.Simulates flatDevice BufCache.Implements where
  read := by
    rintro c store blkno data store' ⟨l, shows, inv, logical⟩ step
    by_cases nonneg : 0 ≤ blkno.toInt
    · simp only [flatDevice, Backend.flat, if_pos nonneg, Option.some.injEq, Prod.mk.injEq] at step
      obtain ⟨rfl, rfl⟩ := step
      obtain ⟨c', run, shows'⟩ := shows.bufRead inv nonneg
      obtain ⟨inv', data, logical'⟩ := inv.read nonneg
      rw [data, logical] at run
      exact ⟨c', run, _, shows', inv', logical'.trans logical⟩
    · simp [flatDevice, Backend.flat, nonneg] at step
  write := by
    rintro c store blkno data store' ⟨l, shows, inv, logical⟩ step
    by_cases nonneg : 0 ≤ blkno.toInt
    · simp only [flatDevice, Backend.flat, if_pos nonneg, Option.some.injEq] at step
      obtain ⟨c', run, shows'⟩ := shows.bufWrite inv nonneg data
      obtain ⟨inv', logical'⟩ := inv.write nonneg data
      exact ⟨c', run, _, shows', inv', by rw [logical', logical, step]⟩
    · simp [flatDevice, Backend.flat, nonneg] at step
  flush := by
    rintro c store store' ⟨l, shows, inv, logical⟩ step
    obtain ⟨c', run, shows'⟩ := shows.bufSync inv
    refine ⟨c', run, _, shows', inv.sync.1, ?_⟩
    rw [inv.sync.2, logical]
    exact Option.some.inj step

namespace FS

variable {α β : Type}

/-- Run file-system code on the flat store. -/
def exec (x : FS α) (s : FileSys) : Option (α × FileSys) :=
  ((x.run s.toMemory).run flatDevice s.disk).map fun r => (r.1.1, ⟨r.1.2, r.2⟩)

/-- Code that succeeds on the flat store gives the same result and memory through the buffer
cache, which again implements the store left behind. -/
theorem exec_implemented {x : FS α} {s s' : FileSys} {result : α} {c : BufCache}
    (impl : c.Implements s.disk) (success : exec x s = some (result, s')) :
    ∃ c', (x.run s.toMemory).run cacheDevice c = some ((result, s'.toMemory), c') ∧
      c'.Implements s'.disk := by
  obtain ⟨⟨⟨value, mem⟩, disk⟩, run, same⟩ := Option.map_eq_some_iff.mp success
  obtain ⟨rfl, rfl⟩ := Prod.mk.inj same
  exact cacheDevice_simulates.run _ impl run

@[simp] theorem exec_pure (value : α) (s : FileSys) :
    exec (pure value) s = some (value, s) := rfl

@[simp] theorem exec_bind (x : FS α) (next : α → FS β) (s : FileSys) :
    exec (x >>= next) s = (exec x s).bind fun r => exec (next r.1) r.2 := by
  simp only [exec, StateT.run_bind, DeviceProgram.run_bind]
  cases (x.run s.toMemory).run flatDevice s.disk with
  | none => rfl
  | some r => rfl

/-- Invert one step of a `do` block. -/
theorem exec_bind_eq_some {x : FS α} {next : α → FS β} {s s' : FileSys} {result : β}
    (success : exec (x >>= next) s = some (result, s')) :
    ∃ value s₁, exec x s = some (value, s₁) ∧ exec (next value) s₁ = some (result, s') := by
  rw [exec_bind] at success
  obtain ⟨⟨value, s₁⟩, first, rest⟩ := Option.bind_eq_some_iff.mp success
  exact ⟨value, s₁, first, rest⟩

@[simp] theorem exec_fault (s : FileSys) : exec (fault : FS α) s = none := rfl

@[simp] theorem exec_defined_some (value : α) (s : FileSys) :
    exec (defined (some value)) s = some (value, s) := rfl

@[simp] theorem exec_defined_none (s : FileSys) : exec (defined (none : Option α)) s = none := rfl

@[simp] theorem exec_get (s : FileSys) : exec get s = some (s.toMemory, s) := rfl

@[simp] theorem exec_set (mem : Memory) (s : FileSys) :
    exec (set mem) s = some ((), { s with toMemory := mem }) := rfl

@[simp] theorem exec_modify (change : Memory → Memory) (s : FileSys) :
    exec (modify change) s = some ((), { s with toMemory := change s.toMemory }) := rfl

@[simp] theorem exec_malloc (s : FileSys) :
    exec malloc s = some (s.heap 0, { s with heap := fun n => s.heap (n + 1) }) := rfl

@[simp] theorem exec_bufSync (s : FileSys) : exec bufSync s = some ((), s) := rfl

theorem exec_bufRead {blkno : CInt} (nonneg : 0 ≤ blkno.toInt) (s : FileSys) :
    exec (bufRead blkno) s = some (s.disk blkno, s) := by
  simp [exec, bufRead, StateT.run, DeviceProgram.run, flatDevice, Backend.flat, nonneg]

theorem exec_bufRead_of_neg {blkno : CInt} (negative : ¬ 0 ≤ blkno.toInt) (s : FileSys) :
    exec (bufRead blkno) s = none := by
  simp [exec, bufRead, StateT.run, DeviceProgram.run, flatDevice, Backend.flat, negative]

theorem exec_bufWrite {blkno : CInt} (nonneg : 0 ≤ blkno.toInt) (pData : Block) (s : FileSys) :
    exec (bufWrite blkno pData) s = some ((), { s with disk := update s.disk blkno pData }) := by
  simp [exec, bufWrite, StateT.run, DeviceProgram.run, flatDevice, Backend.flat, nonneg]

theorem exec_bufWrite_of_neg {blkno : CInt} (negative : ¬ 0 ≤ blkno.toInt) (pData : Block)
    (s : FileSys) : exec (bufWrite blkno pData) s = none := by
  simp [exec, bufWrite, StateT.run, DeviceProgram.run, flatDevice, Backend.flat, negative]

@[simp] theorem exec_modifyInfo (change : FileSysInfo → FileSysInfo) (s : FileSys) :
    exec (modifyInfo change) s =
      some ((), { s with pFileSysInfo := change s.pFileSysInfo }) := rfl

/-! ## The accessors of `fs_internal.c` -/

variable {s : FileSys} {n b : CInt} {blk : Block}

private theorem exec_changeBlock {change : Block → Option Block} (nonneg : 0 ≤ b.toInt)
    (changed : change (s.disk b) = some blk) :
    exec (do
      let pData ← bufRead b
      let pData ← defined (change pData)
      bufWrite b pData) s = some ((), { s with disk := update s.disk b blk }) := by
  rw [exec_bind, exec_bufRead nonneg, Option.bind_some, exec_bind, changed, exec_defined_some,
    Option.bind_some, exec_bufWrite nonneg]

theorem exec_setInodeBitmap (set : (s.disk inodeBitmapBlockNum).setBit n = some blk) :
    exec (setInodeBitmap n) s = some ((),
      { s with disk := update s.disk inodeBitmapBlockNum blk }) :=
  exec_changeBlock (by decide) set

theorem exec_resetInodeBitmap (reset : (s.disk inodeBitmapBlockNum).resetBit n = some blk) :
    exec (resetInodeBitmap n) s =
      some ((), { s with disk := update s.disk inodeBitmapBlockNum blk }) :=
  exec_changeBlock (by decide) reset

theorem exec_setBlockBitmap (set : (s.disk blockBitmapBlockNum).setBit b = some blk) :
    exec (setBlockBitmap b) s = some ((),
      { s with disk := update s.disk blockBitmapBlockNum blk }) :=
  exec_changeBlock (by decide) set

theorem exec_resetBlockBitmap (reset : (s.disk blockBitmapBlockNum).resetBit b = some blk) :
    exec (resetBlockBitmap b) s =
      some ((), { s with disk := update s.disk blockBitmapBlockNum blk }) :=
  exec_changeBlock (by decide) reset

theorem exec_putInode (nonneg : 0 ≤ (inodeBlock n).toInt) (inode : Inode) (s : FileSys) :
    exec (putInode n inode) s = some ((), { s with
      disk := update s.disk (inodeBlock n)
        ((s.disk (inodeBlock n)).storeInode (inodeIndex n) inode) }) := by
  rw [putInode, exec_bind, exec_bufRead nonneg, Option.bind_some, exec_bufWrite nonneg]

theorem exec_getFreeInodeNum (s : FileSys) :
    exec getFreeInodeNum s = some ((s.disk inodeBitmapBlockNum).firstClear 8, s) := by
  rw [getFreeInodeNum, exec_bind, exec_bufRead (by decide), Option.bind_some, exec_pure]

theorem exec_getFreeBlockNum (s : FileSys) :
    exec getFreeBlockNum s = some ((s.disk blockBitmapBlockNum).firstClear 64, s) := by
  rw [getFreeBlockNum, exec_bind, exec_bufRead (by decide), Option.bind_some, exec_pure]

end FS
end KwHomework
