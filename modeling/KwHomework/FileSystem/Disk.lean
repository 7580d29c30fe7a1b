import KwHomework.Memory.CMemory
import Mathlib.Logic.Function.Basic

/-!
# The disk

The device of `disk.c`: one 512-byte block for every C `int`.  `DevReadBlock` and `DevWriteBlock`
transfer whole blocks, and the two access counters are kept beside the blocks, with a record of the
blocks that were written.
-/

namespace KwHomework

open Function

/-- `BLOCK_SIZE`. -/
abbrev blockSize : Nat := 512

/-- The contents of one block. -/
abbrev Block := Fin blockSize → Byte

/-- The disk file and the two access counters. -/
structure Device where
  /-- Contents of every block. -/
  blocks : CInt → Block
  /-- Number of `DevReadBlock` calls. -/
  diskReadCount : Nat
  /-- Number of `DevWriteBlock` calls. -/
  diskWriteCount : Nat
  /-- The blocks of the `DevWriteBlock` calls so far, in order. -/
  written : List CInt

namespace Device

/-- `DevResetDiskAccessCount`. -/
def devResetDiskAccessCount (dev : Device) : Device :=
  { dev with diskReadCount := 0, diskWriteCount := 0 }

/-- `DevReadBlock`. -/
def devReadBlock (dev : Device) (blkno : CInt) : Block × Device :=
  (dev.blocks blkno, { dev with diskReadCount := dev.diskReadCount + 1 })

/-- `DevWriteBlock`. -/
def devWriteBlock (dev : Device) (blkno : CInt) (data : Block) : Device :=
  { dev with
    blocks := update dev.blocks blkno data
    diskWriteCount := dev.diskWriteCount + 1
    written := dev.written ++ [blkno] }

@[simp] theorem blocks_devReadBlock (dev : Device) (blkno : CInt) :
    (dev.devReadBlock blkno).2.blocks = dev.blocks := rfl

@[simp] theorem fst_devReadBlock (dev : Device) (blkno : CInt) :
    (dev.devReadBlock blkno).1 = dev.blocks blkno := rfl

@[simp] theorem blocks_devWriteBlock (dev : Device) (blkno : CInt) (data : Block) :
    (dev.devWriteBlock blkno data).blocks = update dev.blocks blkno data := rfl

end Device
end KwHomework
