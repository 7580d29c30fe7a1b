import KwHomework.FileSystem.Lookup

/-!
# Listing a directory

`EnumerateDirStatus` on any disk: it finds the directory by its path and copies its live entries
until the array of the caller is full.
-/

namespace KwHomework

open Function FS

/-! ## The listing -/

namespace Store

variable (disk : Store)

/-- The named entries of one block of an inode, in slot order. -/
def liveEntriesIn (n : CInt) (k : Fin numOfDirectBlockPtr) : List Block.Entry :=
  if (disk.inodeOf n).dirBlockPtr k ≠ 0#32 then
    ((List.finRange numOfDirentPerBlock).map fun j => disk.slotEntry n (k, j)).filter fun entry =>
      entry.name ≠ []
  else
    []

/-- The named entries in the blocks of an inode, in pointer and then in slot order. -/
def liveEntries (n : CInt) : List Block.Entry :=
  (List.finRange numOfDirectBlockPtr).flatMap (disk.liveEntriesIn n)

/-- What is told about an entry. -/
def record (entry : Block.Entry) : DirEntryInfo where
  name := (List.range maxNameLen).map (cString entry.name)
  inodeNum := entry.inodeNum
  type := (disk.inodeOf entry.inodeNum).type

theorem length_liveEntriesIn (n : CInt) (k : Fin numOfDirectBlockPtr) :
    (disk.liveEntriesIn n k).length ≤ numOfDirentPerBlock := by
  rw [liveEntriesIn]
  split_ifs
  · refine (List.length_filter_le _ _).trans ?_
    rw [List.length_map, List.length_finRange]
  · exact Nat.zero_le _

private theorem length_liveEntries (n : CInt) : (disk.liveEntries n).length ≤ 160 := by
  have blocks : ∀ ks : List (Fin numOfDirectBlockPtr),
      (ks.flatMap (disk.liveEntriesIn n)).length ≤ numOfDirentPerBlock * ks.length := by
    intro ks
    induction ks with
    | nil => exact le_rfl
    | cons k ks induction =>
        have here := disk.length_liveEntriesIn n k
        rw [List.flatMap_cons, List.length_append, List.length_cons, Nat.mul_succ]
        omega
  exact blocks (List.finRange numOfDirectBlockPtr)

end Store

/-! ## Names -/

/-- `strncpy` copies a string. -/
theorem strncpy_of_spells {src : Nat → Byte} {text : List Byte} (spells : Spells src text) :
    strncpy src = cString text := by
  funext k
  rcases Nat.lt_or_ge text.length k with outside | inside
  · have zero : src text.length = 0#8 := by simpa using spells.2 text.length le_rfl
    rw [strncpy, if_neg fun all => all text.length outside.le zero, cString,
      List.getD_eq_default _ _ outside.le]
  · exact (spells_strncpy spells).2 k inside

/-- A terminated name field spells the name. -/
theorem Block.spells_nameByte {blk : Block} {j : Fin numOfDirentPerBlock}
    (terminated : (blk.nameOf j).length < 12) : Spells (blk.nameByte j) (blk.nameOf j) := by
  -- the field is the name and what stands behind it, which starts with the zero
  obtain ⟨behind, split, stop⟩ : ∃ behind,
      (List.range maxNameLen).map (blk.nameByte j) = blk.nameOf j ++ behind ∧
      ∀ byte, behind.head? = some byte → byte = 0#8 := by
    refine ⟨_, List.takeWhile_append_dropWhile.symm, fun byte first => ?_⟩
    have stop := List.head?_dropWhile_not (fun byte => decide (byte ≠ 0#8))
      ((List.range maxNameLen).map (blk.nameByte j))
    rw [first] at stop
    simpa using stop
  have length : 12 = (blk.nameOf j).length + behind.length := by
    simpa using congrArg List.length split
  obtain ⟨last, others, rfl⟩ := List.exists_cons_of_length_pos (l := behind) (by omega)
  have byte : ∀ i < maxNameLen, some (blk.nameByte j i) = (blk.nameOf j ++ last :: others)[i]? := by
    intro i bound
    rw [← split, List.getElem?_map, List.getElem?_range bound]
    rfl
  refine ⟨fun zero => by simpa using List.mem_takeWhile_imp zero, fun i bound => ?_⟩
  rw [List.getD_eq_getElem?_getD]
  rcases bound.lt_or_eq with inside | rfl
  · rw [← Option.some_inj, byte i (inside.trans terminated), List.getElem?_append_left inside,
      List.getElem?_eq_getElem inside, Option.getD_some]
  · have here := byte (blk.nameOf j).length terminated
    rw [List.getElem?_append_right le_rfl, Nat.sub_self, List.getElem?_cons_zero,
      Option.some_inj] at here
    rw [here, stop last rfl, List.getElem?_eq_none le_rfl, Option.getD_none]

/-! ## The loops -/

section Loops

variable {s : FileSys} {dirEntrys : CInt}

/-- The entries of a block that have a name. -/
def Block.named (blk : Block) (slots : List (Fin numOfDirentPerBlock)) : List Block.Entry :=
  (slots.map blk.entryAt).filter fun entry => entry.name ≠ []

theorem exec_enumerateEntries {blk : Block} : ∀ {slots : List (Fin numOfDirentPerBlock)}
    {listed : List DirEntryInfo},
    (∀ j ∈ slots, (blk.nameOf j).length < 12 ∧
      (blk.nameOf j ≠ [] → ValidInode (blk.entryInode j))) →
    listed.length < dirEntrys.toNat → listed.length + slots.length < 2 ^ 32 →
    exec (enumerateEntries dirEntrys blk listed slots) s =
      some ((decide (dirEntrys.toNat ≤ (listed ++ (blk.named slots).map s.disk.record).length),
        (listed ++ (blk.named slots).map s.disk.record).take dirEntrys.toNat), s) := by
  intro slots
  induction slots with
  | nil =>
      intro listed _ room _
      have short : ¬ dirEntrys.toNat ≤ listed.length := by omega
      simp [enumerateEntries, Block.named, short, List.take_of_length_le room.le]
  | cons j slots induction =>
      intro listed legible room small
      obtain ⟨terminated, target⟩ := legible j (by simp)
      have rest := fun listed => @induction listed fun other member =>
        legible other (List.mem_cons_of_mem j member)
      rw [List.length_cons] at small
      rw [enumerateEntries]
      by_cases live : blk.nameOf j = []
      · have skip : blk.nameByte j 0 = 0#8 := (blk.nameOf_eq_nil_iff j).mp live
        have unnamed : blk.named (j :: slots) = blk.named slots := by
          simp [Block.named, Block.entryAt, live]
        rw [if_neg (not_not.mpr skip), rest listed room (by omega), unnamed]
      · have first : blk.nameByte j 0 ≠ 0#8 := fun zero => live ((blk.nameOf_eq_nil_iff j).mpr zero)
        have named : blk.named (j :: slots) = blk.entryAt j :: blk.named slots := by
          simp [Block.named, Block.entryAt, live]
        have name : (List.range maxNameLen).map (strncpy (blk.nameByte j)) =
            (s.disk.record (blk.entryAt j)).name := by
          rw [strncpy_of_spells (Block.spells_nameByte terminated)]
          rfl
        rw [if_pos first, (reads_getInode _).exec_then, Store.readInode_eq (target live),
          Option.bind_some, name]
        set entry := blk.entryAt j with entry_eq
        have entered : listed ++ (blk.named (j :: slots)).map s.disk.record =
            (listed ++ [s.disk.record entry]) ++ (blk.named slots).map s.disk.record := by
          rw [named, List.map_cons, List.append_cons]
        have length : (listed ++ [s.disk.record entry]).length = listed.length + 1 := by simp
        rw [entered]
        have count : BitVec.ofNat 32 (listed ++ [s.disk.record entry]).length = dirEntrys ↔
            listed.length + 1 = dirEntrys.toNat := by
          rw [length, ← BitVec.toNat_inj, BitVec.toNat_ofNat, Nat.mod_eq_of_lt (by omega)]
        change exec (if BitVec.ofNat 32 (listed ++ [s.disk.record entry]).length = dirEntrys then
            pure (true, listed ++ [s.disk.record entry])
          else enumerateEntries dirEntrys blk (listed ++ [s.disk.record entry]) slots) s = _
        by_cases full : listed.length + 1 = dirEntrys.toNat
        · -- the array is full, and what follows is left out
          have whole : dirEntrys.toNat = (listed ++ [s.disk.record entry]).length := by
            rw [length, full]
          have enough : dirEntrys.toNat ≤ ((listed ++ [s.disk.record entry]) ++
              (blk.named slots).map s.disk.record).length :=
            whole.trans_le (List.prefix_append _ _).length_le
          rw [if_pos (count.mpr full), exec_pure, decide_eq_true enough, whole, List.take_left]
        · rw [if_neg (mt count.mp full), rest _ (by omega) (by omega)]

/-- The listing of the blocks stops where the array is full. -/
theorem exec_enumerateBlocks {n : CInt} (legible : s.disk.Legible n) :
    ∀ {blocks : List (Fin numOfDirectBlockPtr)} {listed : List DirEntryInfo},
    listed.length < dirEntrys.toNat →
    listed.length + numOfDirentPerBlock * blocks.length < 2 ^ 32 →
    exec (enumerateBlocks dirEntrys (s.disk.inodeOf n) listed blocks) s =
      some ((listed ++ (blocks.flatMap (s.disk.liveEntriesIn n)).map s.disk.record).take
        dirEntrys.toNat, s) := by
  intro blocks
  induction blocks with
  | nil =>
      intro listed room _
      simp [enumerateBlocks, List.take_of_length_le room.le]
  | cons k blocks induction =>
      intro listed room small
      rw [List.length_cons, Nat.mul_succ] at small
      rw [enumerateBlocks, List.flatMap_cons, List.map_append]
      by_cases holds : (s.disk.inodeOf n).dirBlockPtr k ≠ 0#32
      · have here : s.disk.liveEntriesIn n k =
            (s.disk ((s.disk.inodeOf n).dirBlockPtr k)).named (List.finRange numOfDirentPerBlock) :=
          if_pos holds
        have most := s.disk.length_liveEntriesIn n k
        have readable : ∀ j ∈ List.finRange numOfDirentPerBlock,
            ((s.disk ((s.disk.inodeOf n).dirBlockPtr k)).nameOf j).length < 12 ∧
            ((s.disk ((s.disk.inodeOf n).dirBlockPtr k)).nameOf j ≠ [] →
              ValidInode ((s.disk ((s.disk.inodeOf n).dirBlockPtr k)).entryInode j)) :=
          fun j _ => ⟨legible.terminated (k, j) holds, legible.target (k, j) holds⟩
        rw [if_pos holds, (reads_bufRead _).exec_then, Store.readBlock,
          if_pos (legible.nonneg k holds), Option.bind_some, exec_bind,
          exec_enumerateEntries readable room (by rw [List.length_finRange]; omega), ← here,
          Option.bind_some]
        by_cases full : dirEntrys.toNat ≤
            (listed ++ (s.disk.liveEntriesIn n k).map s.disk.record).length
        · rw [decide_eq_true full]
          dsimp only
          rw [exec_pure, ← List.append_assoc, List.take_append_of_le_length full]
        · rw [decide_eq_false full]
          dsimp only
          rw [List.take_of_length_le (by omega), ← List.append_assoc]
          refine induction (by omega) ?_
          rw [List.length_append, List.length_map]
          omega
      · rw [if_neg holds, induction room (by omega), Store.liveEntriesIn, if_neg holds]
        rfl

end Loops

/-! ## `EnumerateDirStatus` -/

/-- The listing of a directory that a path leads to, in an array of `dirEntrys` records. -/
theorem enumerateDirStatus_lists (s : FileSys) {szDirName : Path} {dirEntrys : CInt}
    {dirs : List (List Byte)} {last : List Byte} {p d : CInt}
    (short : szDirName.bytes.length < 100) (names : szDirName.names = dirs ++ [last])
    (along : s.disk.LegibleAlong 0#32 szDirName.names)
    (parent : s.disk.resolve 0#32 dirs = some p) (parent_legible : s.disk.Legible p)
    (entry : s.disk.lookupName p last = some d) (legible : s.disk.Legible d)
    (capacity : 1 ≤ dirEntrys.toInt) :
    ∃ r listed s', exec (enumerateDirStatus szDirName dirEntrys) s = some ((r, listed), s') ∧
      r.toInt = min dirEntrys.toInt (s.disk.liveEntries d).length ∧
      listed = ((s.disk.liveEntries d).take dirEntrys.toNat).map s.disk.record ∧
      listed.length ≤ dirEntrys.toInt ∧ s'.disk = s.disk := by
  obtain ⟨named, string⟩ := Path.names_spec short last (by simp [names])
  have spells : Spells (sprintf (s.heap 0) last) last := spells_sprintf (s.heap 0) string
  obtain ⟨slot, first, target⟩ := Option.map_eq_some_iff.mp entry
  have valid := parent_legible.lookup_valid named entry
  have signed : dirEntrys.toInt = dirEntrys.toNat := toInt_eq_toNat (by omega)
  have room : ([] : List DirEntryInfo).length < dirEntrys.toNat := by
    rw [List.length_nil]
    omega
  have few := s.disk.length_liveEntries d
  -- after `malloc` the disk is as before
  let s' : FileSys := { s with heap := fun n => s.heap (n + 1) }
  obtain ⟨valid_p, found⟩ := exec_getDirPos_found (s := s') (s.heap 0) short names along parent
  have whole : ([] : List DirEntryInfo).length +
      numOfDirentPerBlock * (List.finRange numOfDirectBlockPtr).length < 2 ^ 32 := by decide
  have listing := exec_enumerateBlocks (s := s') legible room whole
  set listed := ((s.disk.liveEntries d).take dirEntrys.toNat).map s.disk.record with listed_eq
  have length : listed.length = min dirEntrys.toNat (s.disk.liveEntries d).length := by
    rw [listed_eq, List.length_map, List.length_take]
  have same : ([] ++ ((List.finRange numOfDirectBlockPtr).flatMap (s'.disk.liveEntriesIn d)).map
      s'.disk.record).take dirEntrys.toNat = listed := by
    rw [List.nil_append, ← List.map_take]
    rfl
  rw [same] at listing
  refine ⟨BitVec.ofNat 32 listed.length, listed, s', ?_, ?_, rfl, ?_, rfl⟩
  · rw [enumerateDirStatus, exec_bind, exec_malloc, Option.bind_some, exec_bind, found,
      Option.bind_some, (reads_getInode p).exec_then, Store.readInode_eq valid_p, Option.bind_some,
      (reads_scanEntries _ _).exec_then, Store.scan_nameMatches parent_legible spells, first,
      Option.map_some, Option.bind_some]
    change exec (getInode (s.disk.slotEntry p slot).inodeNum >>= _) s' = _
    rw [target, (reads_getInode d).exec_then, Store.readInode_eq valid, Option.bind_some, exec_bind,
      listing]
    rfl
  · have value : (BitVec.ofNat 32 listed.length).toNat = listed.length := by
      rw [BitVec.toNat_ofNat]
      omega
    rw [BitVec.toInt_eq_toNat_of_lt (by omega), value, length, signed]
    omega
  · rw [signed, length]
    omega

/-- An array of one record for the directory `/a` gets the entry `.`. -/
theorem enumerateDirStatus_lists_oneDir : ∃ r listed s',
    exec (enumerateDirStatus ⟨[47#8, 97#8], by decide⟩ 1#32) oneDir = some ((r, listed), s') ∧
      r.toInt = 1 ∧ listed = [oneDirDisk.record ⟨dot, 1#32⟩] := by
  have names : (⟨[47#8, 97#8], by decide⟩ : Path).names = [] ++ [[97#8]] := by decide
  have along : oneDirDisk.LegibleAlong 0#32 (⟨[47#8, 97#8], by decide⟩ : Path).names := by
    intro before after split long
    have length := congrArg List.length (names.symm.trans split)
    rw [List.length_append, List.length_append, List.length_nil, List.length_singleton] at length
    omega
  have entry : oneDirDisk.lookupName 0#32 [97#8] = some 1#32 := by decide +kernel
  have entries : oneDirDisk.liveEntries 1#32 = [⟨dot, 1#32⟩, ⟨dotDot, 0#32⟩] := by decide +kernel
  have capacity : 1 ≤ (1#32 : CInt).toInt := by decide
  obtain ⟨r, listed, s', run, count, records, _⟩ :=
    enumerateDirStatus_lists oneDir (by decide) names
    along rfl legible_oneDirDisk.1 entry legible_oneDirDisk.2 capacity
  have live : oneDir.disk.liveEntries 1#32 = [⟨dot, 1#32⟩, ⟨dotDot, 0#32⟩] := entries
  rw [live] at count records
  exact ⟨r, listed, s', run, count, records⟩

end KwHomework
