import KwHomework.FileSystem.Responses
import KwHomework.FileSystem.Contents
import KwHomework.FileSystem.Sizes
import KwHomework.Volume.PathStore

/-!
# Files under paths

What the file system is to its users: files and directories under paths, and 64 descriptors.
`Files.Step` says what each call returns and changes in these terms, without inodes, blocks and
bitmaps.  A session of well-formed calls is a run of it with the same responses.
-/

namespace KwHomework

open Function FS

/-! ## The abstract file system -/

/-- The five blocks of a file; `none` is a hole. -/
abbrev FileContent := Fin numOfDirectBlockPtr → Option Block

/-- Files and directories under paths in normal form, and positions counted in blocks. -/
abbrev Files := PathStore (List Byte) FileContent (Fin maxFdEntryMax)

/-- The path without `.` and `..`. -/
def Path.normal (path : Path) : List (List Byte) := DirTree.normal dot dotDot path.tokens

/-- The type that is told about an entry. -/
def PathEntry.fileType : PathEntry FileContent → CInt
  | .dir => fileTypeDir
  | .file _ => fileTypeFile

namespace FileContent

/-- A file without blocks. -/
def empty : FileContent := fun _ => none

/-- `count` blocks from `pos` on are replaced by the blocks of a buffer with the same numbers. -/
def write (c : FileContent) (pBuffer : Chunk) (pos count : Nat) : FileContent := fun k =>
  if pos ≤ k ∧ k < pos + count then some (bufferBlock pBuffer k) else c k

/-- The bytes in the blocks of a file. -/
def size (c : FileContent) : Nat := 512 * (Finset.univ.filter fun k => (c k).isSome).card

end FileContent

/-- The field of a record that holds a name. -/
def nameField (x : List Byte) : List Byte := (List.range maxNameLen).map (cString x)

namespace Files

variable (a : Files)

/-- The least descriptor that is not open. -/
def Lowest (i : Fin maxFdEntryMax) : Prop := a.opened i = none ∧ ∀ j < i, a.opened j ≠ none

/-- A file is opened, if there is a descriptor. -/
inductive Opens (path : List (List Byte)) : CInt → Files → Prop
  | opened {i : Fin maxFdEntryMax} : a.Lowest i → Opens path (BitVec.ofNat 32 i) (a.seek i path 0)
  | noDescriptor : (∀ i, a.opened i ≠ none) → Opens path (-1) a

/-- The root may have no block, and another directory has one at least, with 30 entries besides `.`
and `..`. -/
def MayBeFull (dir : List (List Byte)) : Prop :=
  dir = [] ∨ ∃ names : Finset (List Byte), 30 ≤ names.card ∧
    ∀ y ∈ names, a.entry (dir ++ [y]) ≠ none

/-- The records of a directory: one for each entry, `.` and `..` possibly among them. -/
structure Lists (dir : List (List Byte)) (dirEntrys r : CInt) (listed : List DirEntryInfo) :
    Prop where
  count : r = BitVec.ofNat 32 listed.length
  inside : (listed.length : Int) ≤ dirEntrys.toInt
  distinct : (listed.map DirEntryInfo.name).Nodup
  child : ∀ record ∈ listed, ∃ x, record.name = nameField x ∧ (x = dot ∨ x = dotDot ∨
    ∃ e, a.entry (dir ++ [x]) = some e ∧ record.type = e.fileType)
  complete : (listed.length : Int) < dirEntrys.toInt → ∀ x, a.entry (dir ++ [x]) ≠ none →
    ∃ record ∈ listed, record.name = nameField x

/-- What a call returns and changes. -/
inductive Step : Call → Response → Files → Prop
  | created {path : Path} {dir : List (List Byte)} {x : List Byte} {r : CInt} {a' : Files} :
      path.normal = dir ++ [x] → a.entry dir = some .dir → a.entry path.normal = none →
      Opens (a.put path.normal (.file .empty)) path.normal r a' →
      Step (.createFile path) (.value r) a'
  | notCreated {path : Path} {dir : List (List Byte)} {x : List Byte} :
      path.normal = dir ++ [x] → a.MayBeFull dir → Step (.createFile path) (.value (-1)) a
  | made {path : Path} {dir : List (List Byte)} {x : List Byte} :
      path.normal = dir ++ [x] → a.entry dir = some .dir → a.entry path.normal = none →
      Step (.makeDir path) (.returned none) (a.put path.normal .dir)
  | opened {path : Path} {c : FileContent} {r : CInt} {a' : Files} :
      a.entry path.normal = some (.file c) → Opens a path.normal r a' →
      Step (.openFile path) (.value r) a'
  | written {fd length : CInt} {pBuffer : Chunk} {i : Fin maxFdEntryMax} {path : List (List Byte)}
      {pos : Nat} {c : FileContent} :
      (i : Nat) = fd.toNat → a.opened i = some (path, pos) → a.entry path = some (.file c) →
      pos + blockCount length ≤ 5 →
      Step (.writeFile fd pBuffer length) (.value (512 * BitVec.ofNat 32 (blockCount length)))
        ((a.put path (.file (c.write pBuffer pos (blockCount length)))).seek i path
          (pos + blockCount length))
  | notWritten {fd length : CInt} {pBuffer : Chunk} {i : Fin maxFdEntryMax}
      {path : List (List Byte)} {pos : Nat} :
      (i : Nat) = fd.toNat → a.opened i = some (path, pos) → 5 < pos + blockCount length →
      Step (.writeFile fd pBuffer length) (.value (-1)) a
  | read {fd length : CInt} {data : List Byte} {i : Fin maxFdEntryMax} {path : List (List Byte)}
      {k : Fin numOfDirectBlockPtr} {c : FileContent} :
      (i : Nat) = fd.toNat → a.opened i = some (path, (k : Nat)) → a.entry path = some (.file c) →
      data.length = length.toNat →
      (∀ blk, c k = some blk → data = (List.range length.toNat).map blk.byteAt) →
      Step (.readFile fd length) (.data 512 data) (a.seek i path (k + 1))
  | closed {fd : CInt} {i : Fin maxFdEntryMax} : (i : Nat) = fd.toNat → a.opened i ≠ none →
      Step (.closeFile fd) (.returned none) (a.close i)
  | removed {path : Path} {c : FileContent} : a.entry path.normal = some (.file c) →
      (∀ i pos, a.opened i ≠ some (path.normal, pos)) →
      Step (.removeFile path) (.value 1) (a.erase path.normal)
  | dirRemoved {path : Path} : a.entry path.normal = some .dir →
      (∀ x, a.entry (path.normal ++ [x]) = none) →
      Step (.removeDir path) (.returned none) (a.erase path.normal)
  | listed {path : Path} {dirEntrys r : CInt} {listed : List DirEntryInfo} :
      a.entry path.normal = some .dir →
      (1 ≤ dirEntrys.toInt → a.Lists path.normal dirEntrys r listed) →
      Step (.enumerateDirStatus path dirEntrys) (.listing r listed) a
  | status {path : Path} {inode : Inode} {e : PathEntry FileContent} :
      a.entry path.normal = some e → inode.type = e.fileType →
      (∀ c, e = .file c → inode.size = BitVec.ofNat 32 c.size) →
      Step (.getFileStatus path) (.status none (some inode)) a
  /-- `.` and `..` may be missing in the root. -/
  | noStatus {path : Path} {dirs : List (List Byte)} {x : List Byte} :
      path.tokens = dirs ++ [x] → a.entry path.normal = none ∨ x = dot ∨ x = dotDot →
      Step (.getFileStatus path) (.status (some (-1)) none) a
  | synced : Step .sync (.returned none) a

/-- The calls and responses from one state to another. -/
abbrev Session : Files → List (Call × Response) → Files → Prop :=
  Trace fun a event a' => Step a event.1 event.2 a'

/-- The root directory and no open file. -/
def initial : Files where
  entry path := if path = [] then some .dir else none
  opened _ := none

end Files

/-! ## What a view shows -/

/-- The position of an open file, in blocks. -/
def FilePtr.held : FilePtr → Option (CInt × Nat)
  | .file opened => some (opened.inodeNum, opened.fileOffset.toNat / 512)
  | .null | .freed => none

/-- The tree, the contents of the files and the positions of the open ones. -/
def View.nodes (w : View) : NodeStore CInt (List Byte) Slot FileContent (Fin maxFdEntryMax) where
  tree := w.volume.tree
  content := w.volume.content
  held i := (w.pFileDesc i).pOpenFile.held

/-- The store is what can be seen of a view between two calls. -/
structure Models (w : View) (a : Files) : Prop where
  sound : w.Sound AtBlock
  sized : w.volume.Sized
  ok : w.nodes.Ok 0#32 dot dotDot
  shows : a.Shows w.nodes 0#32 dot dotDot

section Positions

theorem held_of_atBlock {file : File} {c : Nat} (inside : c ≤ 5)
    (offset : file.fileOffset = BitVec.ofNat 32 (512 * c)) :
    (FilePtr.file file).held = some (file.inodeNum, c) := by
  have value : file.fileOffset.toNat / 512 = c := by
    rw [offset, BitVec.toNat_ofNat]
    omega
  rw [FilePtr.held, value]

variable {w : View} {i : Fin maxFdEntryMax}

theorem exists_opened_of_held {n : CInt} {pos : Nat} (held : w.nodes.held i = some (n, pos)) :
    ∃ file, w.opened i file ∧ file.inodeNum = n := by
  simp only [View.nodes] at held
  cases pointer : (w.pFileDesc i).pOpenFile with
  | file file =>
      rw [pointer, FilePtr.held, Option.some.injEq, Prod.mk.injEq] at held
      exact ⟨file, pointer, held.1⟩
  | null => simp [pointer, FilePtr.held] at held
  | freed => simp [pointer, FilePtr.held] at held

/-- A descriptor is in use when it holds an inode. -/
theorem held_eq_none_iff {offsets : CInt → Prop} (sound : w.Sound offsets) :
    w.nodes.held i = none ↔ (w.pFileDesc i).bUsed = false := by
  have used := (sound.descriptors i).used_iff
  cases pointer : (w.pFileDesc i).pOpenFile with
  | file file => simp_all [View.nodes, FilePtr.held]
  | null => simp_all [View.nodes, FilePtr.held]
  | freed => simp_all [View.nodes, FilePtr.held]

end Positions

end KwHomework
