import KwHomework.FileSystem.Directory
import KwHomework.FileSystem.Walk

/-!
# Path lookup on any disk

What `getDirPos` computes when the directories on its way can be searched: the components of a path
are the runs between its slashes, and all of them but the last one are looked up from the root.
Nothing is assumed about the rest of the disk.
-/

namespace KwHomework

open Function FS

/-! ## Components -/

/-- The maximal runs of bytes other than `/`. -/
def Path.names (path : Path) : List (List Byte) := (path.bytes.splitOn 47#8).filter (· ≠ [])

theorem strtokFrom_eq : ∀ token bytes : List Byte,
    strtokFrom token bytes = ((bytes.splitOn 47#8).modifyHead (token ++ ·)).filter (· ≠ [])
  | token, [] => by
      by_cases empty : token = [] <;> simp [strtokFrom, empty]
  | token, byte :: rest => by
      obtain ⟨first, others, split⟩ := List.exists_cons_of_ne_nil
        (List.splitOnP_ne_nil (· == 47#8) rest)
      rw [← List.splitOn_eq_splitOnP] at split
      rw [strtokFrom, List.splitOn_cons_eq_if_modifyHead, strtokFrom_eq [] rest,
        strtokFrom_eq (token ++ [byte]) rest, split]
      by_cases slash : byte = 47#8
      · by_cases empty : token = [] <;> simp [slash, empty]
      · simp [slash]

private theorem Path.tokens_eq_names {path : Path} (short : path.bytes.length < 100) :
    path.tokens = path.names := by
  rw [Path.tokens, List.take_of_length_le (by omega), strtokFrom_eq, Path.names]
  cases path.bytes.splitOn 47#8 <;> simp

/-! ## Lookup -/

namespace Store

variable (disk : Store)

/-- An entry of the inode table. -/
def inodeOf (n : CInt) : Inode := (disk (inodeBlock n)).inodeAt (inodeIndex n)

/-- The entry in a slot of an inode. -/
def slotEntry (n : CInt) (s : Slot) : Block.Entry :=
  (disk ((disk.inodeOf n).dirBlockPtr s.1)).entryAt s.2

/-- The inode can be searched as a directory. -/
structure Legible (n : CInt) : Prop where
  nonneg : ∀ k, (disk.inodeOf n).dirBlockPtr k ≠ 0#32 → 0 ≤ ((disk.inodeOf n).dirBlockPtr k).toInt
  terminated : ∀ s : Slot, (disk.inodeOf n).dirBlockPtr s.1 ≠ 0#32 →
    (disk.slotEntry n s).name.length < 12
  target : ∀ s : Slot, (disk.inodeOf n).dirBlockPtr s.1 ≠ 0#32 → (disk.slotEntry n s).name ≠ [] →
    ValidInode (disk.slotEntry n s).inodeNum

/-- The inode number in the first slot that holds a name. -/
def lookupName (n : CInt) (name : List Byte) : Option CInt :=
  (firstSlot (disk.inodeOf n) fun s => (disk.slotEntry n s).name = name).map fun s =>
    (disk.slotEntry n s).inodeNum

/-- Look names up successively. -/
def resolve (n : CInt) (names : List (List Byte)) : Option CInt := names.foldlM disk.lookupName n

/-- Every inode in which a component before the last one is looked up can be searched. -/
def LegibleAlong (n : CInt) (names : List (List Byte)) : Prop :=
  ∀ before after, names = before ++ after → 2 ≤ after.length →
    ∀ d, disk.resolve n before = some d → disk.Legible d

variable {disk}

theorem readInode_eq {n : CInt} (valid : ValidInode n) :
    disk.readInode n = some (disk.inodeOf n) := by
  rw [readInode, readBlock, if_pos (inodeBlock_nonneg valid)]
  rfl

theorem scan_eq {inode : Inode} {test : Block → Fin numOfDirentPerBlock → Option Bool}
    {passes : Slot → Bool}
    (nonneg : ∀ k, inode.dirBlockPtr k ≠ 0#32 → 0 ≤ (inode.dirBlockPtr k).toInt)
    (total : ∀ k j, inode.dirBlockPtr k ≠ 0#32 →
      test (disk (inode.dirBlockPtr k)) j = some (passes (k, j))) :
    disk.scan inode test = some ((firstSlot inode passes).map fun s =>
      (s.1, disk (inode.dirBlockPtr s.1), s.2)) := by
  have step : ∀ k : Fin numOfDirectBlockPtr,
      (if inode.dirBlockPtr k ≠ 0#32 then do
        let entries ← disk.readBlock (inode.dirBlockPtr k)
        let found ← (List.finRange numOfDirentPerBlock).findM? (test entries)
        return found.map fun j => (k, entries, j)
      else return none : Option (Option
      (Fin numOfDirectBlockPtr × Block × Fin numOfDirentPerBlock))) =
        pure (((if inode.dirBlockPtr k ≠ 0#32 then
            ((List.finRange numOfDirentPerBlock).find? fun j => passes (k, j)).map fun j => (k, j)
          else none) : Option Slot).map fun s => (s.1, disk (inode.dirBlockPtr s.1), s.2)) := by
    intro k
    split_ifs with holds
    · have inner : test (disk (inode.dirBlockPtr k)) = fun j => pure (passes (k, j)) :=
        funext fun j => total k j holds
      rw [readBlock, if_pos (nonneg k holds), Option.bind_eq_bind, Option.bind_some, inner,
        List.findM?_pure, Option.map_map]
      rfl
    · rfl
  rw [scan, funext step, List.findSomeM?_pure, firstSlot, List.map_findSome?]
  rfl

theorem scan_nameMatches {n : CInt} (legible : disk.Legible n) {token : Nat → Byte}
    {text : List Byte} (spells : Spells token text) :
    disk.scan (disk.inodeOf n) (nameMatches token) =
      some ((firstSlot (disk.inodeOf n) fun s => (disk.slotEntry n s).name = text).map fun s =>
        (s.1, disk ((disk.inodeOf n).dirBlockPtr s.1), s.2)) :=
  scan_eq legible.nonneg fun k j holds =>
    Block.strcmpEq_nameMemory _ j (legible.terminated (k, j) holds) spells

/-- An entry that a lookup finds is live, so its inode number is in the table. -/
theorem Legible.lookup_valid {n m : CInt} (legible : disk.Legible n) {name : List Byte}
    (named : name ≠ []) (found : disk.lookupName n name = some m) : ValidInode m := by
  obtain ⟨s, first, rfl⟩ := Option.map_eq_some_iff.mp found
  obtain ⟨holds, same⟩ := firstSlot_eq_some first
  exact legible.target s holds (of_decide_eq_true same ▸ named)

private theorem resolve_cons (n : CInt) (name : List Byte) (names : List (List Byte)) :
    disk.resolve n (name :: names) = (disk.lookupName n name).bind fun m => disk.resolve m names :=
  rfl

private theorem LegibleAlong.head {n : CInt} {name next : List Byte} {names : List (List Byte)}
    (along : disk.LegibleAlong n (name :: next :: names)) : disk.Legible n :=
  along [] _ rfl (by simp) n rfl

private theorem LegibleAlong.tail {n m : CInt} {name : List Byte} {names : List (List Byte)}
    (along : disk.LegibleAlong n (name :: names)) (found : disk.lookupName n name = some m) :
    disk.LegibleAlong m names := by
  intro before after split long d resolved
  refine along (name :: before) after (by rw [split, List.cons_append]) long d ?_
  rw [resolve_cons, found]
  exact resolved

theorem walk_cons {n : CInt} (valid : ValidInode n) (legible : disk.Legible n)
    {name next : List Byte} {names : List (List Byte)} (string : 0#8 ∉ name) :
    disk.walk n (name :: next :: names) =
      match disk.lookupName n name with
      | none => some (n, none)
      | some m => disk.walk m (next :: names) := by
  rw [walk, readInode_eq valid, Option.bind_eq_bind, Option.bind_some,
    scan_nameMatches legible (spells_cString string), Option.bind_eq_bind, Option.bind_some,
    lookupName]
  cases firstSlot (disk.inodeOf n) fun s => (disk.slotEntry n s).name = name with
  | none => rfl
  | some s => rfl

/-- Where every component before the last one is found, the walk ends at the last directory, which
is in the inode table. -/
theorem walk_of_resolve {last : List Byte} : ∀ {dirs : List (List Byte)} {n m : CInt},
    (∀ name ∈ dirs, name ≠ [] ∧ 0#8 ∉ name) → ValidInode n →
    disk.LegibleAlong n (dirs ++ [last]) → disk.resolve n dirs = some m →
    ValidInode m ∧ disk.walk n (dirs ++ [last]) = some (m, some last)
  | [], n, m, _, valid, _, resolved => by
      obtain rfl : n = m := by simpa [resolve] using resolved
      exact ⟨valid, rfl⟩
  | name :: dirs, n, m, strings, valid, along, resolved => by
      obtain ⟨next, names, rest⟩ := List.exists_cons_of_ne_nil
        (List.append_ne_nil_of_right_ne_nil dirs (List.cons_ne_nil last []))
      obtain ⟨named, string⟩ := strings name (by simp)
      rw [List.cons_append, rest] at along
      rw [resolve_cons] at resolved
      obtain ⟨m', found, resolved'⟩ := Option.bind_eq_some_iff.mp resolved
      rw [List.cons_append, rest, walk_cons valid along.head string, found]
      dsimp only
      rw [← rest]
      exact walk_of_resolve (fun other member => strings other (List.mem_cons_of_mem name member))
        (along.head.lookup_valid named found) (rest ▸ along.tail found) resolved'

/-- Where one of them is not found, the walk ends at the longest prefix that is. -/
theorem walk_of_unresolved {last : List Byte} : ∀ {dirs : List (List Byte)} {n : CInt},
    (∀ name ∈ dirs, name ≠ [] ∧ 0#8 ∉ name) → ValidInode n →
    disk.LegibleAlong n (dirs ++ [last]) → disk.resolve n dirs = none →
    ∃ found m, found <+: dirs ∧ disk.resolve n found = some m ∧
      (∀ other, other <+: dirs → disk.resolve n other ≠ none → other.length ≤ found.length) ∧
      disk.walk n (dirs ++ [last]) = some (m, none)
  | [], n, _, _, _, unresolved => by simp [resolve] at unresolved
  | name :: dirs, n, strings, valid, along, unresolved => by
      obtain ⟨next, names, rest⟩ := List.exists_cons_of_ne_nil
        (List.append_ne_nil_of_right_ne_nil dirs (List.cons_ne_nil last []))
      obtain ⟨named, string⟩ := strings name (by simp)
      rw [List.cons_append, rest] at along
      rw [List.cons_append, rest, walk_cons valid along.head string]
      rw [resolve_cons] at unresolved
      cases found : disk.lookupName n name with
      | none =>
          refine ⟨[], n, List.nil_prefix, rfl, ?_, rfl⟩
          intro other initial resolved
          cases other with
          | nil => rfl
          | cons first others =>
              obtain ⟨rfl, _⟩ := List.cons_prefix_cons.mp initial
              rw [resolve_cons, found] at resolved
              exact absurd rfl resolved
      | some m' =>
          rw [found, Option.bind_some] at unresolved
          obtain ⟨longest, m, initial, resolved, maximal, walked⟩ := walk_of_unresolved
            (fun other member => strings other (List.mem_cons_of_mem name member))
            (along.head.lookup_valid named found) (rest ▸ along.tail found) unresolved
          refine ⟨name :: longest, m, List.cons_prefix_cons.mpr ⟨rfl, initial⟩, ?_, ?_, ?_⟩
          · rw [resolve_cons, found]
            exact resolved
          · intro other prefix' resolved'
            cases other with
            | nil => exact Nat.zero_le _
            | cons first others =>
                obtain ⟨rfl, initial'⟩ := List.cons_prefix_cons.mp prefix'
                rw [resolve_cons, found] at resolved'
                exact Nat.succ_le_succ (maximal others initial' resolved')
          · dsimp only
            rw [← rest]
            exact walked

end Store

/-! ## `getDirPos` -/

private theorem exec_getDirPos (s : FileSys) {szDirName : Path} (retToken : Chunk)
    (short : szDirName.bytes.length < 100) : exec (getDirPos szDirName retToken) s =
      ((s.disk.walk 0#32 szDirName.names).map (.ofWalk retToken)).map fun pos => (pos, s) :=
  Path.tokens_eq_names short ▸ reads_getDirPos szDirName retToken s

theorem Path.names_spec {path : Path} (short : path.bytes.length < 100) :
    ∀ name ∈ path.names, name ≠ [] ∧ 0#8 ∉ name :=
  tokens_eq_names short ▸ path.tokens_spec

/-- Where the last directory is found, `getDirPos` stops in front of the last component. -/
theorem exec_getDirPos_found {s : FileSys} {szDirName : Path} (retToken : Chunk)
    (short : szDirName.bytes.length < 100) {dirs : List (List Byte)} {last : List Byte}
    (names : szDirName.names = dirs ++ [last]) (along : s.disk.LegibleAlong 0#32 szDirName.names)
    {p : CInt} (resolved : s.disk.resolve 0#32 dirs = some p) : ValidInode p ∧
      exec (getDirPos szDirName retToken) s = some (⟨1, p, sprintf retToken last⟩, s) := by
  have strings := Path.names_spec short
  have valid : ValidInode 0#32 := by decide
  rw [names] at strings along
  have earlier : ∀ name ∈ dirs, name ≠ [] ∧ 0#8 ∉ name := fun name member =>
    strings name (List.mem_append_left _ member)
  obtain ⟨valid_p, walked⟩ := Store.walk_of_resolve earlier valid along resolved
  rw [exec_getDirPos s retToken short, names, walked]
  exact ⟨valid_p, rfl⟩

/-- What `getDirPos` returns and leaves behind its pointers, on any disk whose directories along
the path can be searched. -/
theorem getDirPos_resolves (s : FileSys) (szDirName : Path) (retToken : Chunk)
    (short : szDirName.bytes.length < 100) (along : s.disk.LegibleAlong 0#32 szDirName.names) :
    ∃ pos, exec (getDirPos szDirName retToken) s = some (pos, s) ∧
      (szDirName.names = [] → pos.result = -1) ∧
      ∀ dirs last, szDirName.names = dirs ++ [last] →
        (∀ n, s.disk.resolve 0#32 dirs = some n →
          pos.result = 1 ∧ pos.curInodeNo = n ∧ Spells pos.retToken last) ∧
        (s.disk.resolve 0#32 dirs = none → pos.result = -1 ∧ ∃ found, found <+: dirs ∧
          s.disk.resolve 0#32 found = some pos.curInodeNo ∧
          ∀ other, other <+: dirs → s.disk.resolve 0#32 other ≠ none →
            other.length ≤ found.length) := by
  have read := exec_getDirPos s retToken short
  have strings := Path.names_spec short
  have valid : ValidInode 0#32 := by decide
  rcases List.eq_nil_or_concat szDirName.names with none | ⟨dirs, last, names⟩
  · rw [none] at read
    refine ⟨_, read, fun _ => rfl, fun dirs last names => ?_⟩
    rw [none] at names
    exact absurd names (by simp)
  · rw [List.concat_eq_append] at names
    have at_last := fun n => exec_getDirPos_found (p := n) retToken short names along
    rw [names] at read along strings
    have earlier : ∀ name ∈ dirs, name ≠ [] ∧ 0#8 ∉ name := fun name member =>
      strings name (List.mem_append_left _ member)
    have only : ∀ dirs' last', dirs ++ [last] = dirs' ++ [last'] → dirs' = dirs ∧ last' = last := by
      intro dirs' last' same
      obtain ⟨rfl, single⟩ := List.append_inj' same rfl
      exact ⟨rfl, (List.singleton_inj.mp single).symm⟩
    cases resolved : s.disk.resolve 0#32 dirs with
    | some n =>
        refine ⟨_, (at_last n resolved).2, by simp [names], fun dirs' last' names' => ?_⟩
        obtain ⟨rfl, rfl⟩ := only dirs' last' (names ▸ names')
        refine ⟨fun m resolved' => ⟨rfl, ?_, spells_sprintf _ (strings last' (by simp)).2⟩, ?_⟩
        · exact Option.some.inj (resolved.symm.trans resolved')
        · intro unresolved
          rw [resolved] at unresolved
          cases unresolved
    | none =>
        obtain ⟨found, m, initial, resolved', maximal, walked⟩ :=
          Store.walk_of_unresolved earlier valid along resolved
        rw [walked] at read
        refine ⟨_, read, by simp [names], fun dirs' last' names' => ?_⟩
        obtain ⟨rfl, rfl⟩ := only dirs' last' (names ▸ names')
        refine ⟨fun m resolved' => ?_, fun _ => ⟨rfl, found, initial, resolved', maximal⟩⟩
        rw [resolved] at resolved'
        cases resolved'

/-- A disk on which the root, with its block 7, holds the directory `a` with its block 8. -/
def oneDirDisk : Store := fun blkno =>
  if blkno = 3#32 then
    (Block.storeInode (fun _ => 0#8) (inodeIndex 0#32)
      ⟨1#32, 512#32, fileTypeDir, update (fun _ => 0#32) 0 7#32⟩).storeInode (inodeIndex 1#32)
      ⟨1#32, 512#32, fileTypeDir, update (fun _ => 0#32) 0 8#32⟩
  else if blkno = 7#32 then
    (Block.setEntry (fun _ => 0#8) 0 0#32 (cString dot)).setEntry 1 1#32 (cString [97#8])
  else if blkno = 8#32 then
    (Block.setEntry (fun _ => 0#8) 0 1#32 (cString dot)).setEntry 1 0#32 (cString dotDot)
  else fun _ => 0#8

/-- Both directories can be searched. -/
theorem legible_oneDirDisk : oneDirDisk.Legible 0#32 ∧ oneDirDisk.Legible 1#32 := by
  refine ⟨⟨?_, ?_, ?_⟩, ?_, ?_, ?_⟩ <;> decide +kernel

/-- That disk before any call. -/
def oneDir : FileSys :=
  ⟨⟨fun _ => ⟨false, .null⟩, ⟨0, 0, 0, 0, 0, 0, 0, 0, 0, 0⟩, fun _ _ => 0#8⟩, oneDirDisk⟩

private theorem nonzero_pathThroughA : 0#8 ∉ [47#8, 97#8, 47#8, 98#8] := by decide

/-- The path `/a/b`. -/
def pathThroughA : Path := ⟨[47#8, 97#8, 47#8, 98#8], nonzero_pathThroughA⟩

/-- The path `/a/b` leads to `b` in the directory `a`. -/
theorem getDirPos_resolves_oneDir : ∃ pos,
    exec (getDirPos pathThroughA fun _ => 0#8) oneDir = some (pos, oneDir) ∧ pos.result = 1 ∧
      pos.curInodeNo = 1#32 ∧ Spells pos.retToken [98#8] := by
  have along : oneDirDisk.LegibleAlong 0#32 pathThroughA.names := by
    intro before after split long d resolved
    have names : pathThroughA.names = [[97#8], [98#8]] := by decide
    have first : before = [] := by
      have length := congrArg List.length (names.symm.trans split)
      rw [List.length_append] at length
      exact List.eq_nil_of_length_eq_zero (by simp at length; omega)
    subst first
    obtain rfl : 0#32 = d := by simpa [Store.resolve] using resolved
    exact legible_oneDirDisk.1
  obtain ⟨pos, run, _, found⟩ :=
    getDirPos_resolves oneDir pathThroughA (fun _ => 0#8) (by decide) along
  have resolved : oneDirDisk.resolve 0#32 [[97#8]] = some 1#32 := by decide +kernel
  exact ⟨pos, run, (found [[97#8]] [98#8] (by decide)).1 1#32 resolved⟩

end KwHomework
