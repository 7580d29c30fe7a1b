import KwHomework.FileSystem.Counters

/-!
# Growing directories

A directory has room for 160 entries in five blocks.  `MakeDir` adds a block when the blocks that
are there are full; the search in `CreateFile` looks at the blocks that are there and no further.
-/

namespace KwHomework

open Function FS

namespace Volume

/-- The slots of a directory with a live entry. -/
def liveSlots (v : Volume) (p : CInt) : Finset Slot :=
  Finset.univ.filter fun s => v.ptr (p, s.1) ≠ 0#32 ∧ (v.entry p s).name ≠ []

/-- The number of live entries of a directory. -/
def liveCount (v : Volume) (p : CInt) : Nat := (v.liveSlots p).card

/-- The path leads to an entry for the inode. -/
def LeadsTo (v : Volume) (path : Path) (n : CInt) : Prop :=
  ∃ dirs x p, path.tokens = dirs ++ [x] ∧ v.tree.Leads 0#32 dirs p ∧ v.tree.Refers p x n

variable {v : Volume} {p n : CInt} {x : List Byte}

private theorem mem_liveSlots {s : Slot} :
    s ∈ v.liveSlots p ↔ v.ptr (p, s.1) ≠ 0#32 ∧ (v.entry p s).name ≠ [] := by
  rw [liveSlots, Finset.mem_filter]
  exact and_iff_right (Finset.mem_univ s)

theorem exists_slot_of_few (few : v.liveCount p < 160) :
    ∃ e : Slot, v.ptr (p, e.1) = 0#32 ∨ (v.entry p e).name = [] := by
  by_contra! full
  have all : v.liveSlots p = Finset.univ :=
    Finset.eq_univ_of_forall fun s => mem_liveSlots.mpr (full s)
  have count : v.liveCount p = 160 := by
    rw [liveCount, all, Finset.card_univ, Fintype.card_prod, Fintype.card_fin, Fintype.card_fin]
    rfl
  omega

private theorem Entered.leadsTo {v' : Volume} (entered : v.Entered p x n v') {path : Path}
    {dirs : List (List Byte)} (tokens : path.tokens = dirs ++ [x])
    (leads : v.tree.Leads 0#32 dirs p) :
    v'.LeadsTo path n :=
  ⟨dirs, x, p, tokens, leads.mono entered.kept, entered.new⟩

end Volume

/-! ## Both calls -/

section Grows

variable {w : View} (sound : w.Sound fun _ => True) {path : Path} {p : CInt} {x : List Byte}
  (name : NewName w.volume path p x)

include sound name

/-- `MakeDir` makes the directory as long as there is room. -/
theorem View.Sound.makeDir_grows (few : w.volume.liveCount p < 160) :
    ∃ w' n, Yields (FS.makeDir path) w none w' ∧ w'.volume.LeadsTo path n := by
  obtain ⟨dirs, tokens, leads⟩ := name.parent
  obtain ⟨named, string, short⟩ := name.spec
  obtain ⟨r, room⟩ := Volume.exists_room (Volume.exists_slot_of_few few)
  have entered := Volume.entered_makeDir sound.consistent.searchable sound.freeBlank name.dir room
    name.free named string short name.new
  exact ⟨_, _, yields_makeDir sound.consistent.searchable tokens leads name.dir sound.zero room
    name.free, entered.leadsTo tokens leads⟩

theorem View.Sound.createFile_finds (unused : ∃ i, (w.pFileDesc i).bUsed = false)
    (empty : ∃ e : Slot, w.volume.ptr (p, e.1) ≠ 0#32 ∧ (w.volume.entry p e).name = []) :
    ∃ r w' n, Yields (FS.createFile path) w r w' ∧ r ≠ -1 ∧ w'.Starts r n ∧
      w'.volume.LeadsTo path n := by
  obtain ⟨dirs, tokens, leads⟩ := name.parent
  obtain ⟨named, string, short⟩ := name.spec
  obtain ⟨valid, free⟩ := Volume.freeInodeNum_spec name.free
  obtain ⟨e, slot⟩ := Volume.exists_freeSlot empty
  obtain ⟨holds, clear⟩ := firstSlot_eq_some slot
  have entered := Volume.entered_newEntry sound.consistent.searchable sound.freeBlank name.dir holds
    (of_decide_eq_true clear) valid free named string short name.new
  have yields := yields_createFile sound.consistent.searchable tokens leads name.dir slot name.free
  obtain ⟨i, _, opens⟩ := exists_openAt unused w.volume.freeInodeNum
  rw [opens] at yields
  obtain ⟨bound, here⟩ := descriptor_index i
  refine ⟨_, _, w.volume.freeInodeNum, yields, fun failed => ?_, ⟨bound, ?_⟩,
    entered.leadsTo tokens leads⟩
  · change BitVec.ofNat 32 (i : Nat) = -1 at failed
    rw [failed] at bound
    exact absurd bound (by decide)
  · rw [here, Memory.opened]
    simp only [update_self]

theorem View.Sound.createFile_gives_up
    (full : ¬ ∃ e : Slot, w.volume.ptr (p, e.1) ≠ 0#32 ∧ (w.volume.entry p e).name = []) :
    ∃ w', Yields (FS.createFile path) w (-1) w' := by
  obtain ⟨dirs, tokens, leads⟩ := name.parent
  have none : w.volume.freeSlot p = none := by
    refine firstSlot_eq_none_iff.mpr fun e holds => ?_
    exact decide_eq_false fun clear => full ⟨e, holds, clear⟩
  exact ⟨_, yields_createFile_full sound.consistent.searchable tokens leads name.dir none⟩

end Grows

/-- In a directory with fewer than 160 live entries `MakeDir` makes a new directory, and
`CreateFile` makes a new file exactly when a block that the directory has already has an empty
slot. -/
theorem createFile_grows_iff {s : FileSys} (reachable : Reachable Formatted Call.Proper s)
    {path : Path} {p : CInt} {x : List Byte} (name : NewName s.view.volume path p x)
    (unused : ∃ i, (s.pFileDesc i).bUsed = false) (few : s.view.volume.liveCount p < 160) :
    (∃ s' n, exec (makeDir path) s = some (none, s') ∧ s'.view.volume.LeadsTo path n) ∧
    ((∃ r s' n, exec (createFile path) s = some (r, s') ∧ r ≠ -1 ∧ s'.view.Starts r n ∧
        s'.view.volume.LeadsTo path n) ↔
      ∃ e : Slot, s.view.volume.ptr (p, e.1) ≠ 0#32 ∧ (s.view.volume.entry p e).name = []) := by
  have sound := sound_of_proper reachable
  refine ⟨?_, ?_, fun empty => ?_⟩
  · obtain ⟨w', n, yields, leads⟩ := sound.makeDir_grows name few
    obtain ⟨s', run, rfl⟩ := yields s rfl
    exact ⟨s', n, run, leads⟩
  · rintro ⟨r, s', n, run, done, _⟩
    by_contra full
    obtain ⟨w', yields⟩ := sound.createFile_gives_up name full
    exact done (yields.unique run).1
  · obtain ⟨r, w', n, yields, done, starts, leads⟩ := sound.createFile_finds name unused empty
    obtain ⟨s', run, rfl⟩ := yields s rfl
    exact ⟨r, s', n, run, done, starts, leads⟩

/-! ## A full block -/

/-- The path of one letter, of which there are 32. -/
def letterPath (k : Fin 32) : Path := ⟨[47#8, BitVec.ofNat 8 (65 + k)], by revert k; decide⟩

private theorem tokens_letterPath (k : Fin 32) :
    (letterPath k).tokens = [[BitVec.ofNat 8 (65 + (k : Nat))]] := by
  revert k
  decide

/-- The first `k` letters were made in the root of a formatted disk, each as a file. -/
structure Letters (k : Nat) (s : FileSys) : Prop where
  reachable : Reachable Formatted Call.Proper s
  root : s.view.volume.IsDir 0#32
  block : ∀ i, s.view.volume.ptr (0#32, i) ≠ 0#32 ↔ i.val = 0
  blocks : s.view.volume.blockUsed = Volume.formatted.blockUsed
  live : s.view.volume.liveCount 0#32 = k + 1
  inodes : s.view.volume.numUsedInodes = k + 1
  descriptors : s.view.usedCount = k
  names : ∀ y m, s.view.volume.tree.Refers 0#32 y m → y ≠ dot → y ≠ dotDot →
    ∃ j < k, y = [BitVec.ofNat 8 (65 + j)]

/-- A formatted root holds nothing but its own entry. -/
theorem Volume.liveCount_formatted : formatted.liveCount 0#32 = 1 := by
  have only : formatted.liveSlots 0#32 = {(0, 0)} := by
    ext s
    rw [mem_liveSlots, Finset.mem_singleton]
    constructor
    · rintro ⟨holds, live⟩
      have entry : formatted.tree.slot 0#32 s = some (_, _) :=
        slot_eq_some.mpr ⟨formatted_isDir, holds, live, rfl⟩
      exact (slot_formatted.mp entry).2.1
    · rintro rfl
      rw [ptr_formatted, entry_formatted]
      decide
  rw [liveCount, only, Finset.card_singleton]

private theorem exists_letters_zero : ∃ s, Letters 0 s := by
  obtain ⟨s, here⟩ := exists_formatted
  have view := here.view
  refine ⟨s, .start here, view ▸ Volume.formatted_isDir, fun i => ?_, ?_,
    view ▸ Volume.liveCount_formatted, ?_, ?_, fun y m refers proper _ => ?_⟩
  · rw [view]
    change Volume.formatted.ptr (0#32, i) ≠ 0#32 ↔ _
    rw [Volume.ptr_formatted]
    revert i
    decide
  · rw [view]
    rfl
  · rw [view]
    decide +kernel
  · rw [view]
    decide +kernel
  · rw [view] at refers
    exact absurd refers (Volume.formatted_new proper 0#32 m)

theorem Volume.liveSlots_newEntry {v : Volume} {p n : CInt} {x : List Byte} {e : Slot}
    (blocks : v.BlocksOwned) (holds : v.ptr (p, e.1) ≠ 0#32) (named : x ≠ []) (string : 0#8 ∉ x)
    (short : x.length < 12) :
    ((v.putEntry p e n x).newFile n).liveSlots p = insert e (v.liveSlots p) := by
  have placed := (v.block (v.ptr (p, e.1))).entryAt_setEntry e.2 n (spells_cString string) short
  ext s
  rw [mem_liveSlots, Finset.mem_insert, mem_liveSlots, entry_newFile, ptr_newFile, putEntry,
    entry_fill blocks holds placed, ptr_fill]
  by_cases same : s = e
  · subst same
    simpa [named] using holds
  · simp [same]

private theorem letter_inj {j k : Nat} (small : j < 31) (small' : k < 31)
    (same : BitVec.ofNat 8 (65 + j) = BitVec.ofNat 8 (65 + k)) : j = k := by
  have equal := congrArg BitVec.toNat same
  rw [BitVec.toNat_ofNat, BitVec.toNat_ofNat] at equal
  omega

private theorem letter_ne_dot {k : Nat} (small : k < 31) : BitVec.ofNat 8 (65 + k) ≠ 46#8 := by
  intro same
  have equal := congrArg BitVec.toNat same
  rw [BitVec.toNat_ofNat, BitVec.toNat_ofNat] at equal
  omega

/-- The slots of the first block. -/
def firstBlock : Finset Slot := Finset.univ.image fun j => (⟨0, Nat.succ_pos 4⟩, j)

private theorem card_firstBlock : firstBlock.card = 32 := by
  rw [firstBlock, Finset.card_image_of_injective _ fun j j' same => (Prod.mk.inj same).2,
    Finset.card_univ, Fintype.card_fin]

private theorem mem_firstBlock {e : Slot} : e ∈ firstBlock ↔ e.1.val = 0 := by
  rw [firstBlock, Finset.mem_image]
  constructor
  · rintro ⟨j, _, rfl⟩
    rfl
  · intro zero
    exact ⟨e.2, Finset.mem_univ _, Prod.ext (Fin.ext zero.symm) rfl⟩

private theorem Letters.liveSlots_subset {k : Nat} {s : FileSys} (letters : Letters k s) :
    s.view.volume.liveSlots 0#32 ⊆ firstBlock :=
  fun _ member => mem_firstBlock.mpr ((letters.block _).mp (Volume.mem_liveSlots.mp member).1)

/-- The block is not full before 32 entries. -/
theorem Letters.exists_freeSlot {k : Nat} {s : FileSys} (letters : Letters k s) (more : k < 31) :
    ∃ e, s.view.volume.freeSlot 0#32 = some e := by
  apply Volume.exists_freeSlot
  by_contra! full
  have inside : firstBlock ⊆ s.view.volume.liveSlots 0#32 := by
    intro e member
    have holds := (letters.block e.1).mpr (mem_firstBlock.mp member)
    exact Volume.mem_liveSlots.mpr ⟨holds, full e holds⟩
  have count := Finset.card_le_card inside
  have live : (s.view.volume.liveSlots 0#32).card = k + 1 := letters.live
  rw [card_firstBlock, live] at count
  omega

theorem Letters.full {s : FileSys} (letters : Letters 31 s) : ¬ ∃ e : Slot,
    s.view.volume.ptr (0#32, e.1) ≠ 0#32 ∧ (s.view.volume.entry 0#32 e).name = [] := by
  rintro ⟨e, holds, clear⟩
  have all : s.view.volume.liveSlots 0#32 = firstBlock :=
    Finset.eq_of_subset_of_card_le letters.liveSlots_subset (by
      rw [card_firstBlock]
      exact letters.live.ge)
  have live : e ∈ s.view.volume.liveSlots 0#32 := by
    rw [all]
    exact mem_firstBlock.mpr ((letters.block e.1).mp holds)
  exact (Volume.mem_liveSlots.mp live).2 clear

private theorem Letters.hasFreeInode {k : Nat} {s : FileSys} (letters : Letters k s)
    (few : k ≤ 31) :
    s.view.volume.HasFreeInode := by
  by_contra! none
  have all : s.view.volume.numUsedInodes = Volume.inodeNums.length :=
    List.countP_eq_length.mpr fun n member => by
      have used := mt (fun unused => (⟨n, Volume.mem_inodeNums.mp member, unused⟩ :
        s.view.volume.HasFreeInode)) none
      simpa using used
  rw [letters.inodes, show Volume.inodeNums.length = 64 from rfl] at all
  omega

theorem Letters.next {k : Nat} {s : FileSys} (letters : Letters k s) (more : k < 31) :
    ∃ s', Letters (k + 1) s' := by
  have sound := sound_of_proper letters.reachable
  have free := letters.hasFreeInode (by omega)
  have undotted : [BitVec.ofNat 8 (65 + k)].head? ≠ some 46#8 :=
    fun same => letter_ne_dot more (Option.some.inj same)
  have names : Names s.view.volume (letterPath ⟨k, by omega⟩) 0#32 [BitVec.ofNat 8 (65 + k)] :=
    ⟨⟨[], tokens_letterPath _, rfl⟩, letters.root, Nat.succ_le_succ (Nat.zero_le 10), undotted⟩
  have proper := names.good.proper
  have new : ∀ m, ¬ s.view.volume.tree.Refers 0#32 [BitVec.ofNat 8 (65 + k)] m := by
    intro m refers
    obtain ⟨j, earlier, same⟩ := letters.names _ m refers proper.1 proper.2
    have equal := letter_inj more (by omega) (List.head_eq_of_cons_eq same)
    omega
  obtain ⟨e, slot⟩ := letters.exists_freeSlot more
  obtain ⟨holds, clear⟩ := firstSlot_eq_some slot
  obtain ⟨valid, unused⟩ := Volume.freeInodeNum_spec free
  obtain ⟨w', yields, sound', volume, table, _, created⟩ :=
    sound.createFile names new free trivial slot
  obtain ⟨s', run, rfl⟩ := yields s rfl
  refine ⟨s', letters.reachable.call (c := .createFile (letterPath ⟨k, by omega⟩))
    ⟨0#32, _, names, new, free⟩ ?_, (created.names names).dir, fun i => ?_, ?_, ?_, ?_,
    ?_, fun y m refers one two => ?_⟩
  · rw [Call.code, effect, exec_bind, run]
    rfl
  · rw [volume, Volume.ptr_newFile]
    exact letters.block i
  · rw [volume, ← letters.blocks]
    rfl
  · have taken : e ∉ s.view.volume.liveSlots 0#32 := fun member =>
      (Volume.mem_liveSlots.mp member).2 (of_decide_eq_true clear)
    have inside : s.view.volume.ptr (0#32, e.1) ≠ 0#32 := holds
    rw [volume, Volume.liveCount, Volume.liveSlots_newEntry sound.consistent.blocks inside
      names.good.named names.good.string names.good.short, Finset.card_insert_of_notMem taken]
    exact congrArg (· + 1) letters.live
  · rw [Volume.numUsedInodes_mark valid unused created.used, letters.inodes]
  · rcases s.view.usedCount_openAt s.view.volume.freeInodeNum with full | taken
    · rw [letters.descriptors] at full
      omega
    · rw [← letters.descriptors, ← taken]
      simp only [View.usedCount, table]
  · rcases (created.refers 0#32 y m one two).mp refers with ⟨_, rfl, _⟩ | old
    · exact ⟨k, k.lt_succ_self, rfl⟩
    · obtain ⟨j, earlier, same⟩ := letters.names y m old one two
      exact ⟨j, by omega, same⟩

private theorem exists_letters : ∀ {k : Nat}, k ≤ 31 → ∃ s, Letters k s
  | 0, _ => exists_letters_zero
  | k + 1, more => by
      obtain ⟨s, letters⟩ := exists_letters (Nat.le_of_succ_le more)
      exact letters.next more

/-- With 31 files and its own entry in its only block the root holds a new name, but `CreateFile`
fails. -/
theorem createFile_full_block : ∃ s, Reachable Formatted Call.Proper s ∧
    NewName s.view.volume pathB 0#32 [98#8] ∧ (∃ i, (s.pFileDesc i).bUsed = false) ∧
    (∀ b : CInt, 8 ≤ b.toNat → s.view.volume.blockUsed b = false) ∧
    s.view.volume.liveCount 0#32 = 32 ∧ ∃ s', exec (createFile pathB) s = some (-1, s') := by
  obtain ⟨s, letters⟩ := exists_letters le_rfl
  have name : NewName s.view.volume pathB 0#32 [98#8] := by
    refine ⟨⟨[], tokens_pathB, rfl⟩, letters.root, by decide, fun m refers => ?_,
      letters.hasFreeInode le_rfl⟩
    obtain ⟨j, small, same⟩ := letters.names _ m refers (by decide) (by decide)
    have equal := congrArg BitVec.toNat (List.head_eq_of_cons_eq same)
    rw [BitVec.toNat_ofNat, BitVec.toNat_ofNat] at equal
    omega
  have unused : ∃ i, (s.view.pFileDesc i).bUsed = false := by
    by_contra! used
    have all : s.view.usedCount = 64 := by
      rw [View.usedCount, Finset.filter_true_of_mem fun i _ => by simpa using used i,
        Finset.card_univ, Fintype.card_fin]
    rw [letters.descriptors] at all
    cases all
  obtain ⟨w', yields⟩ := (sound_of_proper letters.reachable).createFile_gives_up name letters.full
  obtain ⟨s', run, _⟩ := yields s rfl
  refine ⟨s, letters.reachable, name, unused, fun b high => ?_, letters.live, s', run⟩
  have other : b ≠ 7#32 := by
    rintro rfl
    exact absurd high (by decide)
  rw [letters.blocks]
  simp only [Volume.formatted, update_of_ne other]
  exact decide_eq_false (by omega)

/-- The first file on a formatted disk finds a slot. -/
theorem createFile_grows_iff_first : ∃ s, Reachable Formatted Call.Proper s ∧
    ((∃ r s' n, exec (createFile pathA) s = some (r, s') ∧ r ≠ -1 ∧ s'.view.Starts r n ∧
        s'.view.volume.LeadsTo pathA n) ↔
      ∃ e : Slot, s.view.volume.ptr (0#32, e.1) ≠ 0#32 ∧
        (s.view.volume.entry 0#32 e).name = []) := by
  obtain ⟨s, here⟩ := exists_formatted
  have view := here.view
  have name : NewName s.view.volume pathA 0#32 [97#8] := by
    rw [view]
    exact ⟨⟨[], tokens_pathA, rfl⟩, Volume.formatted_isDir, by decide,
      Volume.formatted_new (by decide) 0#32, Volume.formatted_free⟩
  have unused : (s.view.pFileDesc ⟨0, Nat.succ_pos 63⟩).bUsed = false := by
    rw [view]
    rfl
  have few : s.view.volume.liveCount 0#32 < 160 := by
    rw [view]
    change Volume.formatted.liveCount 0#32 < 160
    rw [Volume.liveCount_formatted]
    decide
  exact ⟨s, .start here, (createFile_grows_iff (.start here) name ⟨_, unused⟩ few).2⟩

end KwHomework
