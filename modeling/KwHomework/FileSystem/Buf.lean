import KwHomework.FileSystem.Disk
import KwHomework.Queue.CircleQueue

/-!
# The buffer cache

The functions of `buf.c` on the sixteen buffers that `BufInit` allocates.  A `none` is a wild
memory access: an index outside `bufList`, a null buffer, or a queue head used as a buffer.
-/

namespace KwHomework

open Function

/-- `MAX_BUF_NUM`. -/
abbrev maxBufNum : Nat := 16

/-- `MAX_BUFLIST_NUM`. -/
abbrev maxBufListNum : Nat := 4

/-- One of the buffers allocated by `BufInit`. -/
abbrev BufId := Fin maxBufNum

/-- `BufState`. -/
inductive BufState where
  | clean
  | dirty
  deriving DecidableEq

/-- `BufStateList`: the index of a state list. -/
inductive BufStateList where
  | cleanList
  | dirtyList
  deriving DecidableEq

/-- The fields of a `Buf` other than its four link fields. -/
structure Buf where
  /-- Block held by the buffer. -/
  blkno : CInt
  /-- `BUF_STATE_CLEAN` or `BUF_STATE_DIRTY`. -/
  state : BufState
  /-- The memory `pMem` points to. -/
  pMem : Block

/-- The global variables of `buf.c` and the device below them. -/
structure BufCache where
  /-- The sixteen buffers. -/
  buf : BufId → Buf
  /-- `bufList`, threaded through `blist`. -/
  bufList : CircleQueue (Fin maxBufListNum) BufId
  /-- `stateList`, threaded through `slist`. -/
  stateList : CircleQueue BufStateList BufId
  /-- `lruListHead`, threaded through `llist`. -/
  lruList : CircleQueue Unit BufId
  /-- `freeListHead`, threaded through `flist`. -/
  freeList : CircleQueue Unit BufId
  /-- The disk. -/
  dev : Device

/-- `blkno % MAX_BUFLIST_NUM` as an index of `bufList`. -/
def hashIndex (blkno : CInt) : Option (Fin maxBufListNum) :=
  if nonneg : 0 ≤ blkno.toInt.tmod maxBufListNum then
    some ⟨(blkno.toInt.tmod maxBufListNum).toNat, by
      have := Int.tmod_lt_of_pos blkno.toInt (show (0 : Int) < maxBufListNum by decide)
      omega⟩
  else
    none

namespace BufCache

/-- Steps that every traversal of a queue of the sixteen buffers needs at most. -/
abbrev walkFuel : Nat := maxBufNum + 1

/-- Assign fields of one buffer. -/
def setBuf (c : BufCache) (buf : BufId) (fields : Buf) : BufCache :=
  { c with buf := update c.buf buf fields }

/-- `CIRCLEQ_INIT` of every head. -/
def initLists (c : BufCache) : BufCache :=
  { c with
    bufList := (List.finRange maxBufListNum).foldl (·.init ·) c.bufList
    stateList := (c.stateList.init .cleanList).init .dirtyList
    freeList := c.freeList.init ()
    lruList := c.lruList.init () }

/-- `CIRCLEQ_INSERT_TAIL(&freeListHead, buf, flist)`. -/
def freeInsertTail (c : BufCache) (buf : BufId) : Option BufCache := do
  return { c with freeList := ← c.freeList.insertTail () buf }

/-- `CIRCLEQ_INSERT_TAIL(&lruListHead, buf, llist)`. -/
def lruInsertTail (c : BufCache) (buf : BufId) : Option BufCache := do
  return { c with lruList := ← c.lruList.insertTail () buf }

/-- `CIRCLEQ_REMOVE(&lruListHead, buf, llist)`. -/
def lruRemove (c : BufCache) (buf : BufId) : Option BufCache := do
  return { c with lruList := ← c.lruList.remove () buf }

/-- `CIRCLEQ_INSERT_TAIL(&stateList[listNum], buf, slist)`. -/
def stateInsertTail (c : BufCache) (listNum : BufStateList) (buf : BufId) : Option BufCache := do
  return { c with stateList := ← c.stateList.insertTail listNum buf }

/-- `CIRCLEQ_REMOVE(&stateList[listNum], buf, slist)`. -/
def stateRemove (c : BufCache) (listNum : BufStateList) (buf : BufId) : Option BufCache := do
  return { c with stateList := ← c.stateList.remove listNum buf }

/-- `BufInit`.  The links, `state` and `pMem` of the new buffers are what `c` happens to hold. -/
def bufInit (c : BufCache) : Option BufCache :=
  (List.finRange maxBufNum).foldlM
    (fun c i => (c.setBuf i { c.buf i with blkno := BitVec.ofNat 32 i }).freeInsertTail i)
    c.initLists

/-- `BufFind`. -/
def bufFind (c : BufCache) (blkno : CInt) : Option (Option BufId) := do
  let bufNum ← hashIndex blkno
  c.bufList.search bufNum (fun buf => (c.buf buf).blkno = blkno) walkFuel

/-- `findBufInLruList`. -/
def findBufInLruList (c : BufCache) (blkno : CInt) : Option (Option BufId) :=
  c.lruList.search () (fun buf => (c.buf buf).blkno = blkno) walkFuel

/-- `findBufInStateList`, which compares block numbers. -/
def findBufInStateList (c : BufCache) (listNum : BufStateList) (buf : BufId) : Option Bool := do
  let found ← c.stateList.search listNum (fun iter => (c.buf iter).blkno = (c.buf buf).blkno)
    walkFuel
  return found.isSome

/-- `BufInsertToHead`. -/
def bufInsertToHead (c : BufCache) (buf : BufId) (blkno : CInt) (listNum : BufStateList) :
    Option BufCache := do
  let c := c.setBuf buf { c.buf buf with blkno := blkno }
  let idx ← hashIndex blkno
  let c := { c with bufList := ← c.bufList.insertHead idx buf }
  c.stateInsertTail listNum buf

/-- `BufGetNewBuffer`. -/
def bufGetNewBuffer (c : BufCache) : Option (BufId × BufCache) :=
  match c.freeList.first () with
  | .head _ => none
  | .elem buf => do return (buf, { c with freeList := ← c.freeList.remove () buf })

/-- `BufDelete`. -/
def bufDelete (c : BufCache) (pBuf : BufId) : Option (Bool × BufCache) := do
  let idx ← hashIndex (c.buf pBuf).blkno
  match ← c.bufList.search idx (fun iter => (c.buf iter).blkno = (c.buf pBuf).blkno) walkFuel with
  | some iter =>
      let c := { c with bufList := ← c.bufList.remove idx iter }
      return (true, ← c.freeInsertTail iter)
  | none => return (false, c)

/-- `GetBufCount`. -/
def getBufCount (c : BufCache) : Option Nat :=
  c.freeList.fold () (fun cnt _ => cnt + 1) walkFuel 0

/-- `processLruListHead`. -/
def processLruListHead (c : BufCache) : Option BufCache :=
  match c.lruList.first () with
  | .head _ => none
  | .elem iter => do
      let c ← c.lruRemove iter
      let (_, c) ← c.bufDelete iter
      match (c.buf iter).state with
      | .clean => c.stateRemove .cleanList iter
      | .dirty =>
          let c ← c.stateRemove .dirtyList iter
          return { c with dev := c.dev.devWriteBlock (c.buf iter).blkno (c.buf iter).pMem }

/-- The common end of `BufRead` and `BufWrite`: move the buffer to the tail of the LRU list. -/
def touchLru (c : BufCache) (blkno : CInt) (buf : BufId) : Option BufCache := do
  let bufInLruList ← c.findBufInLruList blkno
  let c ← if bufInLruList.isSome then c.lruRemove buf else some c
  c.lruInsertTail buf

/-- A buffer for a block that is not cached, after an eviction when no buffer is free. -/
def acquire (c : BufCache) : Option (BufId × BufCache) := do
  let count ← c.getBufCount
  let c ← if count ≤ 0 then c.processLruListHead else some c
  c.bufGetNewBuffer

/-- `BufRead`. -/
def bufRead (c : BufCache) (blkno : CInt) : Option (Block × BufCache) := do
  match ← c.bufFind blkno with
  | some buf =>
      let data := (c.buf buf).pMem
      return (data, ← c.touchLru blkno buf)
  | none =>
      let (buf, c) ← c.acquire
      let (pMem, dev) := c.dev.devReadBlock blkno
      let c := { c with dev := dev }
      let c := c.setBuf buf { blkno := blkno, state := .clean, pMem := pMem }
      let c ← c.bufInsertToHead buf blkno .cleanList
      let data := (c.buf buf).pMem
      return (data, ← c.touchLru blkno buf)

/-- `BufWrite`. -/
def bufWrite (c : BufCache) (blkno : CInt) (pData : Block) : Option BufCache := do
  match ← c.bufFind blkno with
  | some buf =>
      let c ←
        if ← c.findBufInStateList .cleanList buf then do
          let c := c.setBuf buf { c.buf buf with pMem := pData }
          let c ← c.stateRemove .cleanList buf
          let c ← c.stateInsertTail .dirtyList buf
          some (c.setBuf buf { c.buf buf with state := .dirty })
        else if ← c.findBufInStateList .dirtyList buf then
          some (c.setBuf buf { c.buf buf with pMem := pData })
        else
          some c
      c.touchLru blkno buf
  | none =>
      let (buf, c) ← c.acquire
      let c := c.setBuf buf { c.buf buf with blkno := blkno, state := .dirty }
      let c ← c.bufInsertToHead buf blkno .dirtyList
      let c := c.setBuf buf { c.buf buf with pMem := pData }
      c.touchLru blkno buf

/-- Write one dirty buffer back and move it to the clean list. -/
def writeBack (c : BufCache) (iter : BufId) : Option BufCache := do
  let c := { c with dev := c.dev.devWriteBlock (c.buf iter).blkno (c.buf iter).pMem }
  let c ← c.stateRemove .dirtyList iter
  let c ← c.stateInsertTail .cleanList iter
  return c.setBuf iter { c.buf iter with state := .clean }

/-- The loop of `BufSync`, which reads the successor before the buffer is moved. -/
def bufSyncFrom (c : BufCache) : Nat → Link BufStateList BufId → Option BufCache
  | 0, _ => none
  | _ + 1, .head listNum => if listNum = .dirtyList then some c else none
  | fuel + 1, .elem iter => do
      let next := c.stateList.next iter
      let c ← c.writeBack iter
      c.bufSyncFrom fuel next

/-- `BufSync`. -/
def bufSync (c : BufCache) : Option BufCache :=
  c.bufSyncFrom walkFuel (c.stateList.first .dirtyList)

/-- `BufSyncBlock`, which dereferences the answer of `BufFind`. -/
def bufSyncBlock (c : BufCache) (blkno : CInt) : Option BufCache := do
  match ← c.bufFind blkno with
  | none => none
  | some buf =>
      match (c.buf buf).state with
      | .clean => some c
      | .dirty => do
          let c ← c.stateRemove .dirtyList buf
          let c := { c with dev := c.dev.devWriteBlock (c.buf buf).blkno (c.buf buf).pMem }
          let c ← c.stateInsertTail .cleanList buf
          return c.setBuf buf { c.buf buf with state := .clean }

/-- The buffers that `GetBufInfoInStateList` lists into a large enough array. -/
def getBufInfoInStateList (c : BufCache) (listNum : BufStateList) : Option (List BufId) :=
  c.stateList.fold listNum (fun retBufs iter => retBufs ++ [iter]) walkFuel []

/-- The buffers that `GetBufInfoInLruList` lists into a large enough array. -/
def getBufInfoInLruList (c : BufCache) : Option (List BufId) :=
  c.lruList.fold () (fun retBufs iter => retBufs ++ [iter]) walkFuel []

/-- The buffers that `GetBufInfoInBufferList` lists into a large enough array. -/
def getBufInfoInBufferList (c : BufCache) (index : Fin maxBufListNum) : Option (List BufId) :=
  c.bufList.fold index (fun retBufs iter => retBufs ++ [iter]) walkFuel []

/-- The free list, walked as `GetBufCount` walks it. -/
def freeBufs (c : BufCache) : Option (List BufId) :=
  c.freeList.fold () (fun retBufs iter => retBufs ++ [iter]) walkFuel []

end BufCache
end KwHomework
