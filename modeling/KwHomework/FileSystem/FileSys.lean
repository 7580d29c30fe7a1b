import KwHomework.Device.DeviceProgram
import KwHomework.FileSystem.Layout

/-!
# The file system

The functions of `fs_internal.c` and `fs.c` as programs over the block device that `BufRead`,
`BufWrite` and `BufSync` make up.  Besides the disk they use the descriptor table, the struct
`*pFileSysInfo` and the heap.  The heap is the sequence of chunks that `malloc` will return, each
an unbounded memory: bytes past the requested size are whatever lies there.  A chunk is drawn only
where its initial contents can be read, and an overrun of a scratch chunk is given the room it
takes.  A fault is an access outside an array or through a pointer that is null or was freed.
-/

namespace KwHomework

open Function

/-- `FILE_TYPE_FILE`. -/
abbrev fileTypeFile : CInt := 0#32

/-- `FILE_TYPE_DIR`. -/
abbrev fileTypeDir : CInt := 1#32

/-- `MAX_FD_ENTRY_MAX`. -/
abbrev maxFdEntryMax : Nat := 64

/-- `FILESYS_INFO_BLOCK`. -/
abbrev filesysInfoBlock : CInt := 0#32

/-- `INODE_BITMAP_BLOCK_NUM`. -/
abbrev inodeBitmapBlockNum : CInt := 1#32

/-- `BLOCK_BITMAP_BLOCK_NUM`. -/
abbrev blockBitmapBlockNum : CInt := 2#32

/-- `File`. -/
structure File where
  fileOffset : CInt
  inodeNum : CInt

/-- What a `pOpenFile` points to. -/
inductive FilePtr where
  | null
  | freed
  | file (file : File)

/-- `FileDesc`. -/
structure FileDesc where
  bUsed : Bool
  pOpenFile : FilePtr

/-- `FileSysInfo`. -/
structure FileSysInfo where
  blocks : CInt
  rootInodeNum : CInt
  diskCapacity : CInt
  numAllocBlocks : CInt
  numFreeBlocks : CInt
  numAllocInodes : CInt
  blockBitmapBlock : CInt
  inodeBitmapBlock : CInt
  inodeListBlock : CInt
  dataRegionBlock : CInt

/-- The fields in memory order. -/
def FileSysInfo.field (info : FileSysInfo) : Nat → CInt
  | 0 => info.blocks
  | 1 => info.rootInodeNum
  | 2 => info.diskCapacity
  | 3 => info.numAllocBlocks
  | 4 => info.numFreeBlocks
  | 5 => info.numAllocInodes
  | 6 => info.blockBitmapBlock
  | 7 => info.inodeBitmapBlock
  | 8 => info.inodeListBlock
  | _ => info.dataRegionBlock

/-- The struct at the start of a block-sized piece of memory. -/
def FileSysInfo.ofBlock (blk : Block) : FileSysInfo where
  blocks := blk.intAt 0
  rootInodeNum := blk.intAt 4
  diskCapacity := blk.intAt 8
  numAllocBlocks := blk.intAt 12
  numFreeBlocks := blk.intAt 16
  numAllocInodes := blk.intAt 20
  blockBitmapBlock := blk.intAt 24
  inodeBitmapBlock := blk.intAt 28
  inodeListBlock := blk.intAt 32
  dataRegionBlock := blk.intAt 36

/-- A chunk of the heap. -/
abbrev Chunk := Nat → Byte

/-- The memory of the file system. -/
structure Memory where
  pFileDesc : Fin maxFdEntryMax → FileDesc
  /-- The struct `pFileSysInfo` points to. -/
  pFileSysInfo : FileSysInfo
  /-- The chunks that the next calls of `malloc` return. -/
  heap : Nat → Chunk

/-- A path argument: its bytes up to the terminating zero. -/
structure Path where
  bytes : List Byte
  nonzero : 0#8 ∉ bytes

/-- The tokens of `strtok` with the delimiter `/`, behind the current token. -/
def strtokFrom : List Byte → List Byte → List (List Byte)
  | token, [] => if token = [] then [] else [token]
  | token, byte :: rest =>
      if byte = 47#8 then
        if token = [] then strtokFrom [] rest else token :: strtokFrom [] rest
      else
        strtokFrom (token ++ [byte]) rest

/-- The tokens that `getDirPos` sees: `path` holds the first 99 bytes. -/
def Path.tokens (szDirName : Path) : List (List Byte) :=
  strtokFrom [] (szDirName.bytes.take 99)

/-- File-system code. -/
abbrev FS := StateT Memory (DeviceProgram CInt Block)

namespace FS

/-! ## The environment -/

/-- Undefined behaviour. -/
def fault {α : Type} : FS α := fun _ => .fault

/-- A value that may be missing because of undefined behaviour. -/
def defined {α : Type} : Option α → FS α
  | some value => pure value
  | none => fault

/-- `BufRead`. -/
def bufRead (blkno : CInt) : FS Block := fun mem => .read blkno fun data => .done (data, mem)

/-- `BufWrite`. -/
def bufWrite (blkno : CInt) (pData : Block) : FS Unit :=
  fun mem => .write blkno pData (.done ((), mem))

/-- `BufSync`. -/
def bufSync : FS Unit := fun mem => .flush (.done ((), mem))

/-- `malloc`. -/
def malloc : FS Chunk := fun mem =>
  .done (mem.heap 0, { mem with heap := fun n => mem.heap (n + 1) })

/-- The bytes that `BufWrite` copies from a chunk. -/
def blockOf (chunk : Chunk) : Block := fun i => chunk i

/-- Assign fields of `*pFileSysInfo`. -/
def modifyInfo (change : FileSysInfo → FileSysInfo) : FS Unit :=
  modify fun mem => { mem with pFileSysInfo := change mem.pFileSysInfo }

/-- `BufWrite(FILESYS_INFO_BLOCK, pFileSysInfo)`, which copies past the end of the struct. -/
def writeInfo : FS Unit := do
  let beyond ← malloc
  let mem ← get
  bufWrite filesysInfoBlock ((blockOf beyond).storeInts 0 10 mem.pFileSysInfo.field)

/-! ## `fs_internal.c` -/

/-- `SetInodeBitmap`. -/
def setInodeBitmap (inodeno : CInt) : FS Unit := do
  let pData ← bufRead inodeBitmapBlockNum
  let pData ← defined (pData.setBit inodeno)
  bufWrite inodeBitmapBlockNum pData

/-- `ResetInodeBitmap`. -/
def resetInodeBitmap (inodeno : CInt) : FS Unit := do
  let pData ← bufRead inodeBitmapBlockNum
  let pData ← defined (pData.resetBit inodeno)
  bufWrite inodeBitmapBlockNum pData

/-- `SetBlockBitmap`. -/
def setBlockBitmap (blkno : CInt) : FS Unit := do
  let pData ← bufRead blockBitmapBlockNum
  let pData ← defined (pData.setBit blkno)
  bufWrite blockBitmapBlockNum pData

/-- `ResetBlockBitmap`. -/
def resetBlockBitmap (blkno : CInt) : FS Unit := do
  let pData ← bufRead blockBitmapBlockNum
  let pData ← defined (pData.resetBit blkno)
  bufWrite blockBitmapBlockNum pData

/-- `(inodeno / NUM_OF_INODE_PER_BLOCK) + INODELIST_BLOCK_FIRST`, where the divisor is a
`size_t`. -/
def inodeBlock (inodeno : CInt) : CInt := (inodeno.signExtend 64 / 16#64 + 3#64).setWidth 32

/-- `inodeno % NUM_OF_INODE_PER_BLOCK`. -/
def inodeIndex (inodeno : CInt) : Fin 16 :=
  ⟨(inodeno.signExtend 64 % 16#64).toNat, by
    rw [BitVec.toNat_umod]
    exact Nat.mod_lt _ (by decide)⟩

/-- `PutInode`. -/
def putInode (inodeno : CInt) (pInode : Inode) : FS Unit := do
  let pData ← bufRead (inodeBlock inodeno)
  bufWrite (inodeBlock inodeno) (pData.storeInode (inodeIndex inodeno) pInode)

/-- `GetInode`. -/
def getInode (inodeno : CInt) : FS Inode := do
  let pData ← bufRead (inodeBlock inodeno)
  return pData.inodeAt (inodeIndex inodeno)

/-- `GetFreeInodeNum`. -/
def getFreeInodeNum : FS CInt := do
  let pData ← bufRead inodeBitmapBlockNum
  return pData.firstClear 8

/-- `GetFreeBlockNum`. -/
def getFreeBlockNum : FS CInt := do
  let pData ← bufRead blockBitmapBlockNum
  return pData.firstClear 64

/-! ## Paths -/

/-- Two nested loops over the blocks of a directory and their entries, left at the first entry
that passes the test. -/
def scanEntries (inode : Inode) (test : Block → Fin numOfDirentPerBlock → Option Bool) :
    FS (Option (Fin numOfDirectBlockPtr × Block × Fin numOfDirentPerBlock)) :=
  (List.finRange numOfDirectBlockPtr).findSomeM? fun i =>
    if inode.dirBlockPtr i ≠ 0#32 then do
      let entries ← bufRead (inode.dirBlockPtr i)
      let found ← defined ((List.finRange numOfDirentPerBlock).findM? (test entries))
      return found.map fun j => (i, entries, j)
    else
      return none

/-- `strcmp(entries[j].name, token) == 0`. -/
def nameMatches (token : Chunk) (entries : Block) (j : Fin numOfDirentPerBlock) : Option Bool :=
  strcmpEq (entries.nameMemory j) token

/-- `entries[j].name[0] == '\0'`. -/
def isFree (entries : Block) (j : Fin numOfDirentPerBlock) : Option Bool :=
  some (entries.nameByte j 0 = 0#8)

/-- `!(entries[j].name[0] == '.' || entries[j].name[0] == '\0')`. -/
def isOccupied (entries : Block) (j : Fin numOfDirentPerBlock) : Option Bool :=
  some (!(entries.nameByte j 0 = 46#8 || entries.nameByte j 0 = 0#8))

/-- `entries[j].inodeNum == inodeno`. -/
def namesInode (inodeno : CInt) (entries : Block) (j : Fin numOfDirentPerBlock) : Option Bool :=
  some (entries.entryInode j = inodeno)

/-- What `getDirPos` returns and leaves behind its pointers. -/
structure DirPos where
  result : CInt
  curInodeNo : CInt
  retToken : Chunk

/-- The loop of `getDirPos`, which is one token ahead. -/
def getDirPosFrom (curInodeNo : CInt) (retToken : Chunk) : List (List Byte) → FS DirPos
  | [] => return ⟨-1, curInodeNo, retToken⟩
  | [token] => return ⟨1, curInodeNo, sprintf retToken token⟩
  | token :: nextToken :: rest => do
      let curInode ← getInode curInodeNo
      match ← scanEntries curInode (nameMatches (cString token)) with
      | none => return ⟨-1, curInodeNo, retToken⟩
      | some (_, entries, j) => getDirPosFrom (entries.entryInode j) retToken (nextToken :: rest)

/-- `getDirPos`.  The callers never use what it leaves in `*curInode`. -/
def getDirPos (szDirName : Path) (retToken : Chunk) : FS DirPos :=
  getDirPosFrom 0#32 retToken szDirName.tokens

/-! ## Files -/

/-- The first unused descriptor is opened on an inode. -/
def openDescriptor (inodeNo : CInt) : FS CInt := do
  let mem ← get
  match (List.finRange maxFdEntryMax).find? fun i => !(mem.pFileDesc i).bUsed with
  | some i =>
      set { mem with pFileDesc := update mem.pFileDesc i ⟨true, .file ⟨0#32, inodeNo⟩⟩ }
      return BitVec.ofNat 32 i
  | none => return -1

/-- `CreateFile`. -/
def createFile (szFileName : Path) : FS CInt := do
  let inodeNo ← getFreeInodeNum
  let token ← malloc
  let pos ← getDirPos szFileName token
  let parentInode ← getInode pos.curInodeNo
  match ← scanEntries parentInode isFree with
  | none => return -1
  | some (i, entries, j) =>
      bufWrite (parentInode.dirBlockPtr i) (entries.setEntry j inodeNo pos.retToken)
      let pInode ← getInode inodeNo
      putInode inodeNo { pInode with type := fileTypeFile, size := 0#32, allocBlocks := 0#32 }
      setInodeBitmap inodeNo
      modifyInfo fun info => { info with numAllocInodes := info.numAllocInodes + 1 }
      writeInfo
      openDescriptor inodeNo

/-- `OpenFile`. -/
def openFile (szFileName : Path) : FS CInt := do
  let token ← malloc
  let pos ← getDirPos szFileName token
  if pos.result = -1 then
    return -1
  else
    let parentInode ← getInode pos.curInodeNo
    match ← scanEntries parentInode (nameMatches pos.retToken) with
    | none => return -1
    | some (_, entries, j) => openDescriptor (entries.entryInode j)

/-- `fileDesc` as an index of `pFileDesc`. -/
def descIndex (fileDesc : CInt) : FS (Fin maxFdEntryMax) :=
  if bound : fileDesc.toNat < maxFdEntryMax then return ⟨fileDesc.toNat, bound⟩ else fault

/-- `*pFileDesc[i].pOpenFile`. -/
def openFileOf (i : Fin maxFdEntryMax) : FS File := do
  let mem ← get
  match (mem.pFileDesc i).pOpenFile with
  | .file file => return file
  | .null | .freed => fault

/-- Assign `pFileDesc[i].pOpenFile->fileOffset`. -/
def setOffset (i : Fin maxFdEntryMax) (file : File) (fileOffset : CInt) : FS Unit :=
  modify fun mem => { mem with
    pFileDesc := update mem.pFileDesc i
      { mem.pFileDesc i with pOpenFile := .file { file with fileOffset := fileOffset } } }

/-- `dirBlockPtr[i]` is inside the array. -/
def ptrIndex (i : Int) : FS (Fin numOfDirectBlockPtr) :=
  if bound : 0 ≤ i ∧ i < numOfDirectBlockPtr then return ⟨i.toNat, by omega⟩ else fault

section Allocator

/-! The loop of `WriteFile`, with `GetFreeBlockNum` as a parameter. -/

variable {m : Type → Type} [Monad m] [MonadLiftT FS m] (getFreeBlockNum : m CInt)

/-- The allocation. -/
def allocBlockWith (pInode : Inode) (k : Fin numOfDirectBlockPtr) : m Inode := do
  let curBlkNo ← getFreeBlockNum
  setBlockBitmap curBlkNo
  return { pInode with
    allocBlocks := pInode.allocBlocks + 1
    size := pInode.size + 512
    dirBlockPtr := update pInode.dirBlockPtr k curBlkNo }

/-- The body of the loop, on the inode and `needBlockCount`. -/
def writeBlockWith (pBuffer : Chunk) (acc : Inode × CInt) (i : Int) : m (Inode × CInt) := do
  let k ← ptrIndex i
  let acc ←
    if acc.1.dirBlockPtr k = 0#32 then do
      let pInode ← allocBlockWith getFreeBlockNum acc.1 k
      pure (pInode, acc.2 + 1)
    else
      pure acc
  bufWrite (acc.1.dirBlockPtr k) (blockOf fun n => pBuffer (512 * k + n))
  return acc

/-- The body of `WriteFile`. -/
def writeFileWith (fileDesc : CInt) (pBuffer : Chunk) (length : CInt) : m CInt := do
  let i ← descIndex fileDesc
  let file ← openFileOf i
  let pInode ← getInode file.inodeNum
  let totalAllocCount := (length - 1).sdiv 512 + 1
  let curIdx := file.fileOffset.sdiv 512
  if (numOfDirectBlockPtr : Int) < (curIdx + totalAllocCount).toInt then
    return -1
  else
    let indexes := (List.range ((curIdx + totalAllocCount).toInt - curIdx.toInt).toNat).map
      fun n : Nat => curIdx.toInt + n
    let (pInode, needBlockCount) ← indexes.foldlM (writeBlockWith getFreeBlockNum pBuffer)
      (pInode, 0#32)
    putInode file.inodeNum pInode
    modifyInfo fun info => { info with
      numAllocBlocks := info.numAllocBlocks + needBlockCount
      numFreeBlocks := info.numFreeBlocks - needBlockCount }
    writeInfo
    setOffset i file (file.fileOffset + 512 * totalAllocCount)
    return 512 * totalAllocCount

end Allocator

@[simp] theorem liftM_eq {α : Type} (x : FS α) : (liftM x : FS α) = x := rfl

/-- The allocation in the loop of `WriteFile`. -/
def allocBlock (pInode : Inode) (k : Fin numOfDirectBlockPtr) : FS Inode :=
  allocBlockWith getFreeBlockNum pInode k

/-- The body of the loop of `WriteFile`. -/
def writeBlock (pBuffer : Chunk) (acc : Inode × CInt) (i : Int) : FS (Inode × CInt) :=
  writeBlockWith getFreeBlockNum pBuffer acc i

/-- `WriteFile`. -/
def writeFile (fileDesc : CInt) (pBuffer : Chunk) (length : CInt) : FS CInt :=
  writeFileWith getFreeBlockNum fileDesc pBuffer length

/-- `ReadFile`; the second value is what is copied to `pBuffer`. -/
def readFile (fileDesc : CInt) (length : CInt) : FS (CInt × List Byte) := do
  let i ← descIndex fileDesc
  let file ← openFileOf i
  let pInode ← getInode file.inodeNum
  let logicalBlkNo := file.fileOffset.sdiv 512
  let k ← ptrIndex logicalBlkNo.toInt
  let pData ← bufRead (pInode.dirBlockPtr k)
  setOffset i file (file.fileOffset + 512)
  if length.toNat ≤ blockSize then
    return (512, (List.range length.toNat).map pData.byteAt)
  else
    fault

/-- `CloseFile`, which falls off its end. -/
def closeFile (fileDesc : CInt) : FS Unit := do
  let i ← descIndex fileDesc
  let mem ← get
  match (mem.pFileDesc i).pOpenFile with
  | .freed => fault
  | .null => set { mem with pFileDesc := update mem.pFileDesc i ⟨false, .null⟩ }
  | .file _ => set { mem with pFileDesc := update mem.pFileDesc i ⟨false, .freed⟩ }

/-- The loop of `RemoveFile` and `RemoveDir` that frees the blocks of an inode. -/
def releaseBlocks (inode : Inode) : FS Inode :=
  (List.finRange numOfDirectBlockPtr).foldlM (fun inode i =>
    if inode.dirBlockPtr i ≠ 0#32 then do
      resetBlockBitmap (inode.dirBlockPtr i)
      return { inode with dirBlockPtr := update inode.dirBlockPtr i 0#32 }
    else
      return inode) inode

/-- The common end of `RemoveFile` and `RemoveDir`: free the inode and its blocks. -/
def releaseInode (inodeno : CInt) (inode : Inode) : FS Unit := do
  let inode ← releaseBlocks inode
  let inode := { inode with allocBlocks := 0#32, size := 0#32 }
  putInode inodeno inode
  resetInodeBitmap inodeno
  modifyInfo fun info => { info with
    numAllocInodes := info.numAllocInodes - 1
    numAllocBlocks := info.numAllocBlocks - inode.allocBlocks
    numFreeBlocks := info.numFreeBlocks + inode.allocBlocks }
  writeInfo

/-- `RemoveFile`. -/
def removeFile (szFileName : Path) : FS CInt := do
  let token ← malloc
  let pos ← getDirPos szFileName token
  let parentInode ← getInode pos.curInodeNo
  match ← scanEntries parentInode (nameMatches pos.retToken) with
  | none => return -1
  | some (i, entries, j) =>
      let fileInodeNo := entries.entryInode j
      bufWrite (parentInode.dirBlockPtr i) (entries.clearEntry j)
      let fileInode ← getInode fileInodeNo
      releaseInode fileInodeNo fileInode
      return 1

/-! ## Directories

`MakeDir`, `RemoveDir` and `GetFileStatus` return a value only on failure: they fall off their end
otherwise, and `none` stands for the missing value. -/

/-- The first loop of `MakeDir`, left at the first free entry or at the first null pointer. -/
def scanSlots (inode : Inode) :
    FS (Option (Fin numOfDirectBlockPtr × Option (Block × Fin numOfDirentPerBlock))) :=
  (List.finRange numOfDirectBlockPtr).findSomeM? fun i =>
    if inode.dirBlockPtr i ≠ 0#32 then do
      let entries ← bufRead (inode.dirBlockPtr i)
      let found ← defined ((List.finRange numOfDirentPerBlock).findM? (isFree entries))
      return found.map fun j => (i, some (entries, j))
    else
      return some (i, none)

/-- The bytes of `"."` and `".."`. -/
def dot : List Byte := [46#8]

/-- The name of the parent. -/
def dotDot : List Byte := [46#8, 46#8]

/-- The block that `MakeDir` gives a new directory. -/
def newDirBlock (cData : Chunk) (inodeNo curInodeNo : CInt) : Block :=
  ((((blockOf cData).setEntryInode 0 inodeNo).setName 0 2 (cString dot)).setEntryInode 1
    curInodeNo).setName 1 3 (cString dotDot)

section Allocator

variable {m : Type → Type} [Monad m] [MonadLiftT FS m] (getFreeBlockNum : m CInt)

/-- `MakeDir` with `GetFreeBlockNum` as a parameter. -/
def makeDirWith (szDirName : Path) : m (Option CInt) := do
  let inodeNo ← getFreeInodeNum
  let token ← malloc
  let pos ← getDirPos szDirName token
  let curInode ← getInode pos.curInodeNo
  match ← scanSlots curInode with
  | none => return some (-1)
  | some (i, slot) =>
      match slot with
      | some (entries, j) =>
          bufWrite (curInode.dirBlockPtr i) (entries.setEntry j inodeNo pos.retToken)
      | none =>
          let tmpBlkNo ← getFreeBlockNum
          let entries ← malloc
          bufWrite tmpBlkNo ((blockOf entries).setEntry 0 inodeNo pos.retToken)
          putInode pos.curInodeNo { curInode with
            allocBlocks := curInode.allocBlocks + 1
            size := curInode.size + 512
            dirBlockPtr := update curInode.dirBlockPtr i tmpBlkNo }
          setBlockBitmap tmpBlkNo
      let blkNo ← getFreeBlockNum
      let cData ← malloc
      bufWrite blkNo (newDirBlock cData inodeNo pos.curInodeNo)
      let _ ← getInode inodeNo
      putInode inodeNo {
        dirBlockPtr := update (fun _ => 0#32) 0 blkNo
        type := fileTypeDir
        size := 512
        allocBlocks := 1 }
      setBlockBitmap blkNo
      setInodeBitmap inodeNo
      modifyInfo fun info => { info with
        numAllocBlocks := info.numAllocBlocks + 1
        numFreeBlocks := info.numFreeBlocks - 1
        numAllocInodes := info.numAllocInodes + 1 }
      writeInfo
      return none

end Allocator

/-- `MakeDir`. -/
def makeDir (szDirName : Path) : FS (Option CInt) := makeDirWith getFreeBlockNum szDirName

/-- The release of a parent block all of whose entries have inode number 0. -/
def shrinkParent (parentInodeNo : CInt) (parentInode : Inode) (i : Fin numOfDirectBlockPtr)
    (entries : Block) : FS Unit :=
  if ∀ k, entries.entryInode k = 0#32 then do
    resetBlockBitmap (parentInode.dirBlockPtr i)
    putInode parentInodeNo { parentInode with
      dirBlockPtr := update parentInode.dirBlockPtr i 0#32
      size := parentInode.size - 512
      allocBlocks := parentInode.allocBlocks - 1 }
  else
    return ()

/-- `RemoveDir`. -/
def removeDir (szDirName : Path) : FS (Option CInt) := do
  let token ← malloc
  let pos ← getDirPos szDirName token
  let parentInode ← getInode pos.curInodeNo
  match ← scanEntries parentInode (nameMatches pos.retToken) with
  | none => return some (-1)
  | some (_, entries, j) =>
      let curInodeNo := entries.entryInode j
      let curInode ← getInode curInodeNo
      match ← scanEntries curInode isOccupied with
      | some _ => return some (-1)
      | none =>
          match ← scanEntries parentInode (namesInode curInodeNo) with
          | none => return some (-1)
          | some (i, entries, j) =>
              bufWrite (parentInode.dirBlockPtr i) (entries.clearEntry j)
              shrinkParent pos.curInodeNo parentInode i (entries.clearEntry j)
              releaseInode curInodeNo curInode
              return none

/-- `DirEntryInfo`. -/
structure DirEntryInfo where
  name : List Byte
  inodeNum : CInt
  type : CInt

/-- The inner loop that lists the entries of one block, and whether the array is full. -/
def enumerateEntries (dirEntrys : CInt) (entries : Block) :
    List DirEntryInfo → List (Fin numOfDirentPerBlock) → FS (Bool × List DirEntryInfo)
  | listed, [] => return (false, listed)
  | listed, j :: rest => do
      if entries.nameByte j 0 ≠ 0#8 then
        let tmpNode ← getInode (entries.entryInode j)
        let listed := listed ++ [{
          name := (List.range maxNameLen).map (strncpy (entries.nameByte j))
          inodeNum := entries.entryInode j
          type := tmpNode.type }]
        if BitVec.ofNat 32 listed.length = dirEntrys then
          return (true, listed)
        else
          enumerateEntries dirEntrys entries listed rest
      else
        enumerateEntries dirEntrys entries listed rest

/-- The outer loop. -/
def enumerateBlocks (dirEntrys : CInt) (curInode : Inode) :
    List DirEntryInfo → List (Fin numOfDirectBlockPtr) → FS (List DirEntryInfo)
  | listed, [] => return listed
  | listed, i :: rest => do
      if curInode.dirBlockPtr i ≠ 0#32 then
        let entries ← bufRead (curInode.dirBlockPtr i)
        match ← enumerateEntries dirEntrys entries listed (List.finRange numOfDirentPerBlock) with
        | (true, listed) => return listed
        | (false, listed) => enumerateBlocks dirEntrys curInode listed rest
      else
        enumerateBlocks dirEntrys curInode listed rest

/-- `EnumerateDirStatus`; the second value is what is stored in `pDirEntry`. -/
def enumerateDirStatus (szDirName : Path) (dirEntrys : CInt) : FS (CInt × List DirEntryInfo) := do
  let token ← malloc
  let pos ← getDirPos szDirName token
  let curInode ← getInode pos.curInodeNo
  match ← scanEntries curInode (nameMatches pos.retToken) with
  | none => return (-1, [])
  | some (_, entries, j) =>
      let curInode ← getInode (entries.entryInode j)
      let listed ← enumerateBlocks dirEntrys curInode [] (List.finRange numOfDirectBlockPtr)
      return (BitVec.ofNat 32 listed.length, listed)

/-- `GetFileStatus`; the second value is what is stored in `*pStatus`, a copy of an inode. -/
def getFileStatus (szPathName : Path) : FS (Option CInt × Option Inode) := do
  let token ← malloc
  let pos ← getDirPos szPathName token
  let curInode ← getInode pos.curInodeNo
  match ← scanEntries curInode (nameMatches pos.retToken) with
  | none => return (some (-1), none)
  | some (_, entries, j) =>
      let retInode ← getInode (entries.entryInode j)
      return (none, some retInode)

/-! ## Mounting

`CreateFileSystem` and `OpenFileSystem` are the code behind `BufInit`. -/

/-- `InitFileSys`, which copies each block from a chunk of four bytes. -/
def initFileSys : FS Unit :=
  (List.range 512).forM fun i => do
    let pData ← malloc
    bufWrite (BitVec.ofNat 32 i) (blockOf pData)

/-- `setRoot`. -/
def setRoot : FS Unit := do
  let blkNo ← getFreeBlockNum
  let inodeNo ← getFreeInodeNum
  let pData ← malloc
  bufWrite blkNo (((blockOf pData).setEntryInode 0 inodeNo).setName 0 2 (cString dot))
  let info ← malloc
  modifyInfo fun _ =>
    let info := FileSysInfo.ofBlock (blockOf info)
    { info with
      numAllocBlocks := info.numAllocBlocks + 1
      numFreeBlocks := info.numFreeBlocks - 1
      numAllocInodes := info.numAllocInodes + 1 }
  writeInfo
  let _ ← getInode 0#32
  putInode 0#32 {
    dirBlockPtr := update (fun _ => 0#32) 0 blkNo
    type := fileTypeDir
    size := 512
    allocBlocks := 1 }
  setBlockBitmap blkNo
  setInodeBitmap inodeNo

/-- `CreateFileSystem`.  The two bitmap blocks are read into a buffer that is cleared and
dropped. -/
def createFileSystem : FS Unit := do
  initFileSys
  let _ ← bufRead blockBitmapBlockNum
  let _ ← bufRead inodeBitmapBlockNum
  (List.range 7).forM fun i => setBlockBitmap (BitVec.ofNat 32 i)
  (List.range' 7 505).forM fun i => resetBlockBitmap (BitVec.ofNat 32 i)
  setRoot

/-- `OpenFileSystem`. -/
def openFileSystem : FS Unit := do
  (List.range 512).forM fun i => do
    let _ ← bufRead (BitVec.ofNat 32 i)
  let info ← bufRead filesysInfoBlock
  modifyInfo fun _ => FileSysInfo.ofBlock info
  (List.range 6).forM fun i => setBlockBitmap (BitVec.ofNat 32 i)

/-- `CloseFileSystem`. -/
def closeFileSystem : FS Unit := bufSync

/-- `Sync`. -/
def sync : FS Unit := bufSync

end FS
end KwHomework
