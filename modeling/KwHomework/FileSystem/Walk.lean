import KwHomework.FileSystem.Exec
import Mathlib.Data.List.Basic

/-!
# Reading a disk

What the reading parts of the calls compute, as functions of the disk, whatever its blocks hold.
`none` stands for undefined behaviour.
-/

namespace KwHomework

open Function FS

/-- The code changes nothing and computes a function of the disk. -/
def Reads {α : Type} (x : FS α) (f : Store → Option α) : Prop :=
  ∀ s, exec x s = (f s.disk).map fun r => (r, s)

namespace Reads

variable {α β : Type} {x : FS α} {next : α → FS β} {f : Store → Option α}
  {g : α → Store → Option β}

theorem pure (value : α) : Reads (Pure.pure value) fun _ => some value := fun _ => rfl

theorem bind (first : Reads x f) (second : ∀ r, Reads (next r) (g r)) :
    Reads (x >>= next) fun disk => (f disk).bind fun r => g r disk := by
  intro s
  rw [exec_bind, first s, Option.bind_map]
  dsimp only
  cases f s.disk with
  | none => rfl
  | some r => exact second r s

/-- Code that reads first and then goes on. -/
theorem exec_then (first : Reads x f) (s : FileSys) :
    exec (x >>= next) s = (f s.disk).bind fun r => exec (next r) s := by
  rw [exec_bind, first s, Option.bind_map]
  rfl

end Reads

theorem reads_defined {α : Type} (value : Option α) : Reads (defined value) fun _ => value := by
  intro s
  cases value with
  | none => rfl
  | some value => rfl

/-- All the components of a path; `tokens` are those of its first 99 bytes. -/
def Path.components (szDirName : Path) : List (List Byte) := strtokFrom [] szDirName.bytes

/-! ## Blocks, inodes and entries -/

namespace Store

variable (disk : Store)

/-- The block, unless its number is negative. -/
def readBlock (blkno : CInt) : Option Block :=
  if 0 ≤ blkno.toInt then some (disk blkno) else none

/-- The inode, unless its block number is negative. -/
def readInode (inodeno : CInt) : Option Inode :=
  (disk.readBlock (inodeBlock inodeno)).map fun pData => pData.inodeAt (inodeIndex inodeno)

/-- The first entry that passes a test. -/
def scan (inode : Inode) (test : Block → Fin numOfDirentPerBlock → Option Bool) :
    Option (Option (Fin numOfDirectBlockPtr × Block × Fin numOfDirentPerBlock)) :=
  (List.finRange numOfDirectBlockPtr).findSomeM? fun i =>
    if inode.dirBlockPtr i ≠ 0#32 then do
      let entries ← disk.readBlock (inode.dirBlockPtr i)
      let found ← (List.finRange numOfDirentPerBlock).findM? (test entries)
      return found.map fun j => (i, entries, j)
    else
      return none

/-- The first free entry or null pointer. -/
def scanRoom (inode : Inode) :
    Option (Option (Fin numOfDirectBlockPtr × Option (Block × Fin numOfDirentPerBlock))) :=
  (List.finRange numOfDirectBlockPtr).findSomeM? fun i =>
    if inode.dirBlockPtr i ≠ 0#32 then do
      let entries ← disk.readBlock (inode.dirBlockPtr i)
      let found ← (List.finRange numOfDirentPerBlock).findM? (isFree entries)
      return found.map fun j => (i, some (entries, j))
    else
      return some (i, none)

/-- No entry passes the test, and every test has an answer. -/
def NoEntry (inode : Inode) (test : Block → Fin numOfDirentPerBlock → Option Bool) : Prop :=
  ∀ k, inode.dirBlockPtr k ≠ 0#32 → 0 ≤ (inode.dirBlockPtr k).toInt ∧
    ∀ j, test (disk (inode.dirBlockPtr k)) j = some false

/-- Where the components of a path lead, and the last one if the walk gets there. -/
def walk : CInt → List (List Byte) → Option (CInt × Option (List Byte))
  | cur, [] => some (cur, none)
  | cur, [token] => some (cur, some token)
  | cur, token :: nextToken :: rest => do
      let inode ← disk.readInode cur
      match ← disk.scan inode (nameMatches (cString token)) with
      | none => return (cur, none)
      | some (_, entries, j) => walk (entries.entryInode j) (nextToken :: rest)

/-- The components before the last one lead from a directory through directories. -/
def Resolves : CInt → List (List Byte) → Prop
  | _, [] => False
  | cur, [_] => ∃ inode, disk.readInode cur = some inode ∧ inode.type = fileTypeDir
  | cur, token :: nextToken :: rest => ∃ inode, disk.readInode cur = some inode ∧
      inode.type = fileTypeDir ∧ ∃ i entries j,
        disk.scan inode (nameMatches (cString token)) = some (some (i, entries, j)) ∧
        Resolves (entries.entryInode j) (nextToken :: rest)

/-- The walk along the path ends at an inode; `last` is the last component if it got there. -/
def Ends (path : Path) (last : Option (List Byte)) (inode : Inode) : Prop :=
  ∃ d, disk.walk 0#32 path.tokens = some (d, last) ∧ disk.readInode d = some inode

variable {disk}

/-- A walk ends in one way. -/
theorem Ends.unique {path : Path} {last last' : Option (List Byte)} {inode inode' : Inode}
    (ends : disk.Ends path last inode) (ends' : disk.Ends path last' inode') :
    last = last' ∧ inode = inode' := by
  obtain ⟨d, walk, read⟩ := ends
  obtain ⟨d', walk', read'⟩ := ends'
  rw [walk, Option.some.injEq, Prod.mk.injEq] at walk'
  obtain ⟨rfl, same⟩ := walk'
  exact ⟨same, Option.some.inj (read.symm.trans read')⟩

/-- The last component is one of the components. -/
theorem mem_of_walk (tokens : List (List Byte)) : ∀ {cur d : CInt} {token : List Byte},
    disk.walk cur tokens = some (d, some token) → token ∈ tokens := by
  induction tokens with
  | nil =>
      intro cur d token walked
      cases walked
  | cons first rest induction =>
      intro cur d token walked
      cases rest with
      | nil =>
          obtain ⟨_, rfl⟩ : cur = d ∧ first = token := by simpa [walk] using walked
          exact List.mem_singleton_self first
      | cons second rest =>
          rw [walk] at walked
          obtain ⟨inode, _, walked⟩ := Option.bind_eq_some_iff.mp walked
          obtain ⟨found, _, walked⟩ := Option.bind_eq_some_iff.mp walked
          cases found with
          | none => simp at walked
          | some found => exact List.mem_cons_of_mem _ (induction walked)

end Store

/-! ## What a scan finds -/

section Scans

variable {α β : Type}

private theorem findSomeM?_eq_none_iff {f : α → Option (Option β)} {items : List α} :
    items.findSomeM? f = some none ↔ ∀ a ∈ items, f a = some none := by
  induction items with
  | nil => simp [List.findSomeM?]
  | cons a items induction =>
      rw [List.findSomeM?_cons, List.forall_mem_cons, ← induction]
      cases f a with
      | none => simp
      | some found => cases found <;> simp

private theorem findSomeM?_eq_some {f : α → Option (Option β)} {items : List α} {b : β}
    (found : items.findSomeM? f = some (some b)) : ∃ a ∈ items, f a = some (some b) := by
  induction items with
  | nil => simp [List.findSomeM?] at found
  | cons a items induction =>
      rw [List.findSomeM?_cons] at found
      cases here : f a with
      | none => simp [here] at found
      | some result =>
          cases result with
          | none =>
              obtain ⟨a', member, same⟩ := induction (by simpa [here] using found)
              exact ⟨a', List.mem_cons_of_mem a member, same⟩
          | some b' => exact ⟨a, by simp, by simpa [here] using found⟩

private theorem findM?_eq_none_iff {f : α → Option Bool} {items : List α} :
    items.findM? f = some none ↔ ∀ a ∈ items, f a = some false := by
  rw [List.findM?_eq_findSomeM?, findSomeM?_eq_none_iff]
  refine forall₂_congr fun a _ => ?_
  cases f a with
  | none => simp
  | some passes => cases passes <;> simp

private theorem findM?_eq_some {f : α → Option Bool} {items : List α} {a : α}
    (found : items.findM? f = some (some a)) : f a = some true := by
  rw [List.findM?_eq_findSomeM?] at found
  obtain ⟨a', _, here⟩ := findSomeM?_eq_some found
  cases result : f a' with
  | none => simp [result] at here
  | some passes =>
      cases passes with
      | false => simp [result] at here
      | true =>
          obtain rfl : a' = a := by simpa [result] using here
          exact result

private theorem exists_findSomeM?_iff {f : α → Option (Option β)} {items : List α} :
    (∃ b, items.findSomeM? f = some (some b)) ↔ ∃ before a after, items = before ++ a :: after ∧
      (∀ a' ∈ before, f a' ≠ none) ∧ ∃ b, f a = some (some b) := by
  induction items with
  | nil => simp [List.findSomeM?]
  | cons first items induction =>
      rw [List.findSomeM?_cons]
      constructor
      · rintro ⟨b, found⟩
        cases here : f first with
        | none => simp [here] at found
        | some result =>
            cases result with
            | some b' => exact ⟨[], first, items, rfl, by simp, b', here⟩
            | none =>
                obtain ⟨before, a, after, rfl, readable, found⟩ :=
                  induction.mp ⟨b, by simpa [here] using found⟩
                refine ⟨first :: before, a, after, rfl, ?_, found⟩
                rw [List.forall_mem_cons, here]
                exact ⟨by simp, readable⟩
      · rintro ⟨before, a, after, split, readable, b, found⟩
        cases before with
        | nil =>
            obtain ⟨rfl, rfl⟩ := List.cons.inj split
            exact ⟨b, by simp [found]⟩
        | cons first' before =>
            obtain ⟨rfl, rest⟩ := List.cons.inj split
            rw [List.forall_mem_cons] at readable
            cases here : f first with
            | none => exact absurd here readable.1
            | some result =>
                cases result with
                | some b' => exact ⟨b', by simp⟩
                | none =>
                    simpa using induction.mpr ⟨before, a, after, rest, readable.2, b, found⟩

private theorem mem_before_iff {n : Nat} {before after : List (Fin n)} {k l : Fin n}
    (split : List.finRange n = before ++ k :: after) : l ∈ before ↔ l < k := by
  have sorted := List.pairwise_lt_finRange n
  rw [split, List.pairwise_append, List.pairwise_cons] at sorted
  obtain ⟨_, ⟨larger, _⟩, smaller⟩ := sorted
  constructor
  · exact fun member => smaller l member k (by simp)
  · intro lower
    have member := List.mem_finRange l
    rw [split, List.mem_append, List.mem_cons] at member
    rcases member with member | rfl | member
    · exact member
    · exact absurd lower (lt_irrefl l)
    · exact absurd (lower.trans (larger l member)) (lt_irrefl l)

private theorem findM?_ne_none {f : α → Option Bool} {items : List α}
    (total : ∀ a ∈ items, f a ≠ none) : items.findM? f ≠ none := by
  induction items with
  | nil => simp [List.findM?]
  | cons a items induction =>
      rw [List.forall_mem_cons] at total
      cases here : f a with
      | none => exact absurd here total.1
      | some passes => cases passes <;> simp [List.findM?, here, induction total.2]

namespace Store

variable {disk : Store} {inode : Inode} {test : Block → Fin numOfDirentPerBlock → Option Bool}

private theorem readBlock_eq_some_iff {blkno : CInt} {blk : Block} :
    disk.readBlock blkno = some blk ↔ 0 ≤ blkno.toInt ∧ disk blkno = blk := by
  rw [readBlock]
  split_ifs with nonneg <;> simp [nonneg]

private theorem search_eq_none_iff {γ : Type} {blkno : CInt}
    {entry : Block → Fin numOfDirentPerBlock → γ} :
    ((do
      let entries ← disk.readBlock blkno
      let found ← (List.finRange numOfDirentPerBlock).findM? (test entries)
      return found.map (entry entries)) : Option (Option γ)) = some none ↔
      0 ≤ blkno.toInt ∧ ∀ j, test (disk blkno) j = some false := by
  constructor
  · intro none
    obtain ⟨entries, read, rest⟩ := Option.bind_eq_some_iff.mp none
    obtain ⟨nonneg, rfl⟩ := readBlock_eq_some_iff.mp read
    obtain ⟨found, search, last⟩ := Option.bind_eq_some_iff.mp rest
    obtain rfl : found = Option.none := by simpa using last
    exact ⟨nonneg, fun j => findM?_eq_none_iff.mp search j (List.mem_finRange j)⟩
  · rintro ⟨nonneg, fails⟩
    rw [readBlock, if_pos nonneg, Option.bind_eq_bind, Option.bind_some,
      findM?_eq_none_iff.mpr fun j _ => fails j]
    rfl

theorem scan_eq_none_iff : disk.scan inode test = some none ↔ disk.NoEntry inode test := by
  rw [scan, findSomeM?_eq_none_iff]
  refine ⟨fun none k holds => ?_, fun none k _ => ?_⟩
  · have inner := none k (List.mem_finRange k)
    rw [if_pos holds] at inner
    exact search_eq_none_iff.mp inner
  · split_ifs with holds
    · exact search_eq_none_iff.mpr (none k holds)
    · rfl

theorem scanRoom_eq_none_iff : disk.scanRoom inode = some none ↔
    (∀ k, inode.dirBlockPtr k ≠ 0#32) ∧ disk.NoEntry inode isFree := by
  rw [scanRoom, findSomeM?_eq_none_iff]
  constructor
  · intro none
    have holds : ∀ k, inode.dirBlockPtr k ≠ 0#32 := by
      intro k null
      have inner := none k (List.mem_finRange k)
      simp [null] at inner
    refine ⟨holds, fun k _ => ?_⟩
    have inner := none k (List.mem_finRange k)
    rw [if_pos (holds k)] at inner
    exact search_eq_none_iff.mp inner
  · rintro ⟨holds, none⟩ k _
    rw [if_pos (holds k)]
    exact search_eq_none_iff.mpr (none k (holds k))

theorem scanRoom_eq_some {i : Fin numOfDirectBlockPtr} {entry : Block × Fin numOfDirentPerBlock}
    (found : disk.scanRoom inode = some (some (i, some entry))) :
    inode.dirBlockPtr i ≠ 0#32 ∧ disk (inode.dirBlockPtr i) = entry.1 := by
  obtain ⟨k, _, inner⟩ := findSomeM?_eq_some found
  split_ifs at inner with holds
  · obtain ⟨entries, read, rest⟩ := Option.bind_eq_some_iff.mp inner
    obtain ⟨_, rfl⟩ := readBlock_eq_some_iff.mp read
    obtain ⟨j, _, last⟩ := Option.bind_eq_some_iff.mp rest
    obtain ⟨j', _, same⟩ : ∃ j', j = some j' ∧
        (k, some (disk (inode.dirBlockPtr k), j')) = (i, some entry) := by simpa using last
    obtain ⟨rfl, here⟩ := Prod.mk.inj same
    exact ⟨holds, congrArg Prod.fst (Option.some.inj here)⟩
  · simp at inner

/-- A scan whose test always has an answer finds something when the blocks up to it can be read. -/
theorem exists_scan_iff (total : ∀ blk j, test blk j ≠ none) :
    (∃ found, disk.scan inode test = some (some found)) ↔ ∃ k, inode.dirBlockPtr k ≠ 0#32 ∧
      (∃ j, test (disk (inode.dirBlockPtr k)) j = some true) ∧
      ∀ l ≤ k, inode.dirBlockPtr l ≠ 0#32 → 0 ≤ (inode.dirBlockPtr l).toInt := by
  have answers : ∀ blk, (List.finRange numOfDirentPerBlock).findM? (test blk) ≠ none := by
    intro blk
    exact findM?_ne_none fun j _ => total blk j
  rw [scan, exists_findSomeM?_iff]
  constructor
  · rintro ⟨before, k, after, split, readable, found, inner⟩
    split_ifs at inner with holds
    · obtain ⟨entries, read, rest⟩ := Option.bind_eq_some_iff.mp inner
      obtain ⟨nonneg, rfl⟩ := readBlock_eq_some_iff.mp read
      obtain ⟨found', search, last⟩ := Option.bind_eq_some_iff.mp rest
      obtain ⟨j, rfl, _⟩ : ∃ j, found' = some j ∧ (k, disk (inode.dirBlockPtr k), j) = found := by
        simpa using last
      refine ⟨k, holds, ⟨j, findM?_eq_some search⟩, fun l le holds' => ?_⟩
      rcases le.lt_or_eq with lower | rfl
      · have first := readable l ((mem_before_iff split).mpr lower)
        rw [if_pos holds'] at first
        by_contra negative
        rw [readBlock, if_neg negative] at first
        exact first rfl
      · exact nonneg
    · simp at inner
  · rintro ⟨k, holds, ⟨j, passes⟩, nonneg⟩
    obtain ⟨before, after, split⟩ := List.append_of_mem (List.mem_finRange k)
    refine ⟨before, k, after, split, fun l member => ?_, ?_⟩
    · split_ifs with holds'
      · have lower := (mem_before_iff split).mp member
        rw [readBlock, if_pos (nonneg l lower.le holds')]
        obtain ⟨found, search⟩ := Option.ne_none_iff_exists'.mp
          (answers (disk (inode.dirBlockPtr l)))
        simp [search]
      · simp
    · rw [if_pos holds, readBlock, if_pos (nonneg k le_rfl holds)]
      obtain ⟨found, search⟩ := Option.ne_none_iff_exists'.mp (answers (disk (inode.dirBlockPtr k)))
      cases found with
      | none =>
          have fails := findM?_eq_none_iff.mp search j (List.mem_finRange j)
          rw [passes] at fails
          cases fails
      | some j' => exact ⟨(k, disk (inode.dirBlockPtr k), j'), by simp [search]⟩

theorem scan_eq_some {i : Fin numOfDirectBlockPtr} {entries : Block} {j : Fin numOfDirentPerBlock}
    (found : disk.scan inode test = some (some (i, entries, j))) : inode.dirBlockPtr i ≠ 0#32 ∧
      0 ≤ (inode.dirBlockPtr i).toInt ∧ entries = disk (inode.dirBlockPtr i) ∧
      test entries j = some true := by
  obtain ⟨k, _, inner⟩ := findSomeM?_eq_some found
  split_ifs at inner with holds
  · obtain ⟨blk, read, rest⟩ := Option.bind_eq_some_iff.mp inner
    obtain ⟨nonneg, rfl⟩ := readBlock_eq_some_iff.mp read
    obtain ⟨found', search, last⟩ := Option.bind_eq_some_iff.mp rest
    obtain ⟨j', rfl, same⟩ : ∃ j', found' = some j' ∧ (k, disk (inode.dirBlockPtr k), j') =
        (i, entries, j) := by simpa using last
    obtain ⟨rfl, rfl, rfl⟩ : k = i ∧ disk (inode.dirBlockPtr k) = entries ∧ j' = j := by
      simpa using same
    exact ⟨holds, nonneg, rfl, findM?_eq_some search⟩
  · simp at inner

end Store
end Scans

/-! ## Code that reads -/

theorem reads_bufRead (blkno : CInt) : Reads (bufRead blkno) fun disk => disk.readBlock blkno := by
  intro s
  dsimp only
  by_cases nonneg : 0 ≤ blkno.toInt
  · rw [exec_bufRead nonneg, Store.readBlock, if_pos nonneg]
    rfl
  · rw [exec_bufRead_of_neg nonneg, Store.readBlock, if_neg nonneg]
    rfl

theorem reads_getInode (inodeno : CInt) :
    Reads (getInode inodeno) fun disk => disk.readInode inodeno := by
  intro s
  dsimp only
  rw [getInode, (reads_bufRead _).exec_then, Store.readInode]
  cases s.disk.readBlock (inodeBlock inodeno) with
  | none => rfl
  | some pData => rfl

theorem reads_getFreeInodeNum : Reads getFreeInodeNum fun disk =>
    (disk.readBlock inodeBitmapBlockNum).bind fun pData => some (pData.firstClear 8) :=
  (reads_bufRead _).bind fun _ => .pure _

private theorem reads_findSomeM? {α β : Type} {x : α → FS (Option β)}
    {f : α → Store → Option (Option β)} (step : ∀ a, Reads (x a) (f a)) (items : List α) :
    Reads (items.findSomeM? x) fun disk => items.findSomeM? fun a => f a disk := by
  induction items with
  | nil => exact .pure none
  | cons a items induction =>
      simp only [List.findSomeM?_cons]
      refine (step a).bind fun r => ?_
      cases r with
      | none => exact induction
      | some b => exact .pure _

theorem reads_scanEntries (inode : Inode)
    (test : Block → Fin numOfDirentPerBlock → Option Bool) :
    Reads (scanEntries inode test) fun disk => disk.scan inode test := by
  refine reads_findSomeM? (fun i => ?_) _
  by_cases holds : inode.dirBlockPtr i ≠ 0#32
  · simp only [if_pos holds]
    exact (reads_bufRead _).bind fun entries => (reads_defined _).bind fun found => .pure _
  · simp only [if_neg holds]
    exact .pure none

theorem reads_scanSlots (inode : Inode) :
    Reads (scanSlots inode) fun disk => disk.scanRoom inode := by
  refine reads_findSomeM? (fun i => ?_) _
  by_cases holds : inode.dirBlockPtr i ≠ 0#32
  · simp only [if_pos holds]
    exact (reads_bufRead _).bind fun entries => (reads_defined _).bind fun found => .pure _
  · simp only [if_neg holds]
    exact .pure _

/-- What `getDirPos` returns and leaves behind its pointers after a walk. -/
def FS.DirPos.ofWalk (retToken : Chunk) : CInt × Option (List Byte) → DirPos
  | (cur, none) => ⟨-1, cur, retToken⟩
  | (cur, some token) => ⟨1, cur, sprintf retToken token⟩

private theorem reads_getDirPosFrom (retToken : Chunk) (tokens : List (List Byte)) : ∀ cur,
    Reads (getDirPosFrom cur retToken tokens) fun disk =>
      (disk.walk cur tokens).map (.ofWalk retToken) := by
  induction tokens with
  | nil => exact fun cur => .pure _
  | cons token tokens induction =>
      intro cur s
      cases tokens with
      | nil => rfl
      | cons nextToken rest =>
          dsimp only
          rw [getDirPosFrom, (reads_getInode cur).exec_then, Store.walk]
          cases s.disk.readInode cur with
          | none => rfl
          | some inode =>
              simp only [Option.bind_some, Option.bind_eq_bind]
              rw [(reads_scanEntries inode _).exec_then]
              cases s.disk.scan inode (nameMatches (cString token)) with
              | none => rfl
              | some found =>
                  cases found with
                  | none => rfl
                  | some found => exact induction _ s

theorem reads_getDirPos (szDirName : Path) (retToken : Chunk) :
    Reads (getDirPos szDirName retToken) fun disk =>
      (disk.walk 0#32 szDirName.tokens).map (.ofWalk retToken) :=
  reads_getDirPosFrom retToken szDirName.tokens 0#32

end KwHomework
