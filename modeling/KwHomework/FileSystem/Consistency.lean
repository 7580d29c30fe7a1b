import KwHomework.FileSystem.DirOperations

/-!
# The operations keep the volume consistent

Each operation on volumes does one operation of `DirTree` to the tree of the directories, and moves
blocks in and out of use through `assign` and `unassign` only.
-/

namespace KwHomework

open Function FS

/-- A name as the calls use it. -/
structure GoodName (x : List Byte) : Prop where
  named : x ≠ []
  string : 0#8 ∉ x
  short : x.length < 12
  undotted : x.head? ≠ some 46#8

theorem GoodName.proper {x : List Byte} (good : GoodName x) : x ≠ dot ∧ x ≠ dotDot := by
  constructor
  · rintro rfl
    exact good.undotted rfl
  · rintro rfl
    exact good.undotted rfl

namespace Volume

variable {v : Volume}

private theorem tree_eq {v : Volume} {t : DirTree CInt (List Byte) Slot}
    (used : ∀ n, v.inodeUsed n = true ↔ t.used n) (dir : ∀ n, v.IsDir n ↔ t.dir n)
    (slot : ∀ d s x n, v.tree.slot d s = some (x, n) ↔ t.slot d s = some (x, n)) : v.tree = t := by
  obtain ⟨used', dir', slot'⟩ := t
  have slots : v.tree.slot = slot' := by
    funext d s
    exact Option.ext fun ⟨x, n⟩ => slot d s x n
  have useds : v.tree.used = used' := funext fun n => propext (used n)
  have dirs : v.tree.dir = dir' := funext fun n => propext (dir n)
  rw [← slots, ← useds, ← dirs]

/-! ## Entries -/

/-- Writing a block changes the entries of the directory that owns it only. -/
theorem entry_fill (blocks : v.BlocksOwned) {p : CInt} {s : Slot} (holds : v.ptr (p, s.1) ≠ 0#32)
    {contents : Block} {e : Block.Entry}
    (only : ∀ j, contents.entryAt j =
      if j = s.2 then e else (v.block (v.ptr (p, s.1))).entryAt j)
    {d : CInt} {s' : Slot} : (v.fill (v.ptr (p, s.1)) contents).entry d s' =
      if d = p ∧ s' = s then e else v.entry d s' := by
  rw [entry, ptr_fill, block_fill]
  by_cases same : v.ptr (d, s'.1) = v.ptr (p, s.1)
  · obtain ⟨rfl, index⟩ := blocks.ptr_injective (same ▸ holds) same
    rw [same, update_self, only, entry, index]
    have iff : s'.2 = s.2 ↔ d = d ∧ s' = s :=
      ⟨fun inner => ⟨rfl, Prod.ext index inner⟩, fun both => both.2 ▸ rfl⟩
    exact if_congr iff rfl rfl
  · rw [update_of_ne same, if_neg, entry]
    rintro ⟨rfl, rfl⟩
    exact same rfl

private theorem tree_fill (blocks : v.BlocksOwned) {p : CInt} {s : Slot}
    (holds : v.ptr (p, s.1) ≠ 0#32) (dir : v.IsDir p) {contents : Block} {e : Block.Entry}
    (only : ∀ j, contents.entryAt j =
      if j = s.2 then e else (v.block (v.ptr (p, s.1))).entryAt j) :
    (v.fill (v.ptr (p, s.1)) contents).tree =
      v.tree.setSlot p s (if e.name = [] then none else some (e.name, e.inodeNum)) := by
  refine tree_eq (fun _ => Iff.rfl) (fun _ => Iff.rfl) fun d s' x n => ?_
  rw [DirTree.slot_setSlot, slot_eq_some, entry_fill blocks holds only, ptr_fill]
  change v.IsDir d ∧ _ ↔ _
  by_cases here : d = p ∧ s' = s
  · obtain ⟨rfl, rfl⟩ := here
    rw [if_pos ⟨rfl, rfl⟩, if_pos ⟨rfl, rfl⟩]
    by_cases empty : e.name = []
    · rw [if_pos empty]
      refine ⟨fun found => absurd ?_ found.2.2.1, fun none => by cases none⟩
      rw [← empty, found.2.2.2]
    · rw [if_neg empty, Option.some.injEq, Prod.mk.injEq]
      constructor
      · rintro ⟨_, _, _, rfl⟩
        exact ⟨rfl, rfl⟩
      · rintro ⟨rfl, rfl⟩
        exact ⟨dir, holds, empty, rfl⟩
  · rw [if_neg here, if_neg here, slot_eq_some]

private theorem namesOk_fill (names : v.NamesOk) (blocks : v.BlocksOwned) {p : CInt} {s : Slot}
    (holds : v.ptr (p, s.1) ≠ 0#32) {contents : Block} {e : Block.Entry}
    (only : ∀ j, contents.entryAt j =
      if j = s.2 then e else (v.block (v.ptr (p, s.1))).entryAt j)
    (short : e.name.length < 12) (clear : e.name = [] → e.inodeNum = 0#32) :
    (v.fill (v.ptr (p, s.1)) contents).NamesOk := by
  intro d s' dir holds'
  rw [entry_fill blocks holds only]
  split_ifs
  · exact ⟨short, clear⟩
  · exact names d s' dir holds'

/-! ## Creating a file -/

private theorem isDir_newFile {n : CInt} (unused : v.inodeUsed n = false) (d : CInt) :
    (v.newFile n).IsDir d ↔ v.IsDir d := by
  by_cases same : d = n
  · subst same
    simp [IsDir, newFile, unused]
  · simp [IsDir, newFile, same]

theorem ptr_newFile (v : Volume) (n : CInt) : (v.newFile n).ptr = v.ptr := by
  funext ⟨m, k⟩
  rw [newFile, ptr_markInode, ptr_setInode]
  split_ifs with same
  · rw [show m = n from same]
    rfl
  · rfl

/-- The entries are where they were. -/
theorem entry_newFile (v : Volume) (n d : CInt) (s : Slot) :
    (v.newFile n).entry d s = v.entry d s := by
  rw [entry, ptr_newFile]
  rfl

theorem BlocksOwned.newFile (blocks : v.BlocksOwned) (n : CInt) : (v.newFile n).BlocksOwned := by
  have same : ({ v.inode n with
      type := fileTypeFile
      size := 0#32
      allocBlocks := 0#32 } : Inode).dirBlockPtr = (v.inode n).dirBlockPtr := rfl
  exact (blocks.setInode same).markInode n true

section NewEntry

variable {p : CInt} {s : Slot} {n : CInt} {x : List Byte}

/-- What `CreateFile` adds to the tree. -/
theorem tree_newEntry (blocks : v.BlocksOwned) (dir : v.IsDir p) (holds : v.ptr (p, s.1) ≠ 0#32)
    (unused : v.inodeUsed n = false) (named : x ≠ []) (string : 0#8 ∉ x) (short : x.length < 12) :
    ((v.putEntry p s n x).newFile n).tree = v.tree.addFile p s x n := by
  have only := (v.block (v.ptr (p, s.1))).entryAt_setEntry s.2 n (spells_cString string) short
  have placed := tree_fill blocks holds dir only
  rw [if_neg named] at placed
  change (v.putEntry p s n x).tree = _ at placed
  refine tree_eq (fun m => ?_) (fun d => ?_) fun d s' y m => ?_
  · change update v.inodeUsed n true m = true ↔ m = n ∨ v.inodeUsed m = true
    by_cases same : m = n <;> simp [same]
  · exact isDir_newFile unused d
  · rw [show (v.tree.addFile p s x n).slot = (v.putEntry p s n x).tree.slot by rw [placed]; rfl,
      slot_eq_some, slot_eq_some, isDir_newFile (v := v.putEntry p s n x) unused, ptr_newFile,
      entry_newFile]

/-- A new name in an existing slot keeps a volume searchable. -/
theorem Searchable.newEntry (ok : v.Searchable) (dir : v.IsDir p) (holds : v.ptr (p, s.1) ≠ 0#32)
    (valid : ValidInode n) (unused : v.inodeUsed n = false) (named : x ≠ []) (string : 0#8 ∉ x)
    (short : x.length < 12) (new : ∀ m, ¬ v.tree.Refers p x m) :
    ((v.putEntry p s n x).newFile n).Searchable := by
  have only := (v.block (v.ptr (p, s.1))).entryAt_setEntry s.2 n (spells_cString string) short
  have tree := tree_newEntry ok.blocks dir holds unused named string short
  refine ⟨?_, fun m used => ?_, ?_, fun added => ?_, ?_⟩
  · exact BlocksOwned.newFile (v := v.putEntry p s n x) (ok.blocks.fill _ _) n
  · by_cases same : m = n
    · exact same ▸ valid
    · exact ok.used_valid m (by simpa [newFile, putEntry, same] using used)
  · intro d s' dir' holds'
    rw [isDir_newFile (v := v.putEntry p s n x) unused] at dir'
    rw [ptr_newFile] at holds'
    rw [entry_newFile]
    exact namesOk_fill ok.names ok.blocks holds only short (fun empty => absurd empty named)
      d s' dir' holds'
  · rw [tree] at added
    rw [show ((v.putEntry p s n x).newFile n).inodeUsed = update v.inodeUsed n true from rfl]
    obtain ⟨_, _, _, rfl⟩ | ⟨_, entry⟩ := DirTree.slot_addFile.mp added
    · exact update_self _ _ _
    · rw [update_of_ne, ok.used_target entry]
      rintro rfl
      rw [ok.used_target entry] at unused
      cases unused
  · rw [tree]
    exact DirTree.distinct_addFile ok.distinct new

/-- A new file in an existing slot. -/
theorem Consistent.newEntry (ok : v.Consistent) (dir : v.IsDir p) (holds : v.ptr (p, s.1) ≠ 0#32)
    (empty : (v.entry p s).name = []) (valid : ValidInode n) (unused : v.inodeUsed n = false)
    (good : GoodName x) (new : ∀ m, ¬ v.tree.Refers p x m) :
    ((v.putEntry p s n x).newFile n).Consistent := by
  have searchable := ok.searchable.newEntry dir holds valid unused good.named good.string good.short
    new
  have tree := tree_newEntry ok.blocks dir holds unused good.named good.string good.short
  have free : v.tree.slot p s = none := slot_eq_none empty
  refine ⟨searchable.blocks, searchable.used_valid, fun m used => ?_, searchable.names, ?_, ?_,
    fun d dir' notRoot => ?_⟩
  · by_cases same : m = n
    · left
      simp [IsFile, newFile, same]
    · have kind := ok.kinds m (by simpa [newFile, putEntry, same] using used)
      simpa [IsFile, IsDir, newFile, putEntry, same] using kind
  · rw [tree]
    refine ok.tree.addFile dir free ?_ good.proper new
    change ¬ v.inodeUsed n = true
    simp [unused]
  · intro d s' y m entry dotted
    rw [tree] at entry
    obtain ⟨_, _, rfl, _⟩ | ⟨_, entry⟩ := DirTree.slot_addFile.mp entry
    · exact absurd dotted good.undotted
    · exact ok.dots entry dotted
  · rw [isDir_newFile (v := v.putEntry p s n x) unused] at dir'
    have kept : ∀ {s' y m}, v.tree.slot d s' = some (y, m) →
        ((v.putEntry p s n x).newFile n).tree.slot d s' = some (y, m) := by
      intro s' y m entry
      rw [tree]
      refine DirTree.slot_addFile.mpr (Or.inr ⟨?_, entry⟩)
      rintro ⟨rfl, rfl⟩
      rw [free] at entry
      cases entry
    obtain ⟨self, q, parent⟩ := ok.home d dir' notRoot
    exact ⟨kept self, q, kept parent⟩

end NewEntry

/-! ## Removing a file or an empty directory -/

theorem isDir_release (n d : CInt) : (v.release n).IsDir d ↔ d ≠ n ∧ v.IsDir d := by
  by_cases same : d = n
  · simp [IsDir, same]
  · simp [IsDir, same, inode_release_of_ne n same]

private theorem isFile_release (n d : CInt) : (v.release n).IsFile d ↔ d ≠ n ∧ v.IsFile d := by
  by_cases same : d = n
  · simp [IsFile, same]
  · simp [IsFile, same, inode_release_of_ne n same]

theorem entry_release {n d : CInt} (other : d ≠ n) (s : Slot) :
    (v.release n).entry d s = v.entry d s := by
  rw [entry, ptr_release, if_neg other, block_release, entry]

section Remove

variable {p : CInt} {s : Slot} {n : CInt} {x : List Byte}

private theorem tree_dropEntry (blocks : v.BlocksOwned) (dir : v.IsDir p)
    (holds : v.ptr (p, s.1) ≠ 0#32) :
    (v.dropEntry p s).tree = v.tree.setSlot p s none :=
  tree_fill blocks holds dir ((v.block (v.ptr (p, s.1))).entryAt_clearEntry s.2)

/-- What `RemoveFile` takes from the tree. -/
theorem tree_remove (blocks : v.BlocksOwned) (dir : v.IsDir p) (holds : v.ptr (p, s.1) ≠ 0#32) :
    ((v.dropEntry p s).release n).tree = v.tree.remove p s n := by
  refine tree_eq (fun m => ?_) (fun d => isDir_release n d) fun d s' y m => ?_
  · rw [inodeUsed_release]
    by_cases same : m = n
    · simp [same, DirTree.remove]
    · simp [same, DirTree.remove, tree, dropEntry]
  · rw [DirTree.slot_remove, slot_eq_some, isDir_release]
    by_cases same : d = n
    · simp [same]
    · have dropped : (v.tree.setSlot p s none).slot d s' = some (y, m) ↔
          ¬ (d = p ∧ s' = s) ∧ v.tree.slot d s' = some (y, m) := by
        rw [DirTree.slot_setSlot]
        split_ifs with here <;> simp [here]
      rw [ptr_release, if_neg same, entry_release same, ← dropped,
        ← tree_dropEntry blocks dir holds, slot_eq_some]
      simp [same]

theorem Consistent.remove (ok : v.Consistent) (entry : v.tree.slot p s = some (x, n))
    (proper : x ≠ dot ∧ x ≠ dotDot)
    (empty : ∀ {s y m}, v.tree.slot n s = some (y, m) → y = dot ∨ y = dotDot) :
    ((v.dropEntry p s).release n).Consistent := by
  obtain ⟨dir, holds, _, _⟩ := slot_eq_some.mp entry
  have only := (v.block (v.ptr (p, s.1))).entryAt_clearEntry s.2
  have tree := tree_remove (n := n) ok.blocks dir holds
  have used_iff : ∀ m, ((v.dropEntry p s).release n).inodeUsed m = true ↔
      m ≠ n ∧ v.inodeUsed m = true := by
    intro m
    by_cases same : m = n
    · simp [same]
    · simp [same, dropEntry]
  refine ⟨?_, fun m used => ?_, fun m used => ?_, ?_, ?_, ?_, fun d dir' notRoot => ?_⟩
  · exact BlocksOwned.release n (v := v.dropEntry p s) (ok.blocks.fill _ _)
  · exact ok.used_valid m ((used_iff m).mp used).2
  · obtain ⟨other, used⟩ := (used_iff m).mp used
    rw [isFile_release, isDir_release]
    exact (ok.kinds m used).imp (⟨other, ·⟩) (⟨other, ·⟩)
  · intro d s' dir' holds'
    obtain ⟨other, dir'⟩ := (isDir_release n d).mp dir'
    rw [ptr_release, if_neg other] at holds'
    rw [entry_release other]
    exact namesOk_fill ok.names ok.blocks holds only (by simp) (fun _ => rfl) d s' dir' holds'
  · rw [tree]
    exact ok.tree.remove entry proper empty
  · intro d s' y m left dotted
    rw [tree] at left
    exact ok.dots (DirTree.slot_remove.mp left).2.2 dotted
  · obtain ⟨other, dir'⟩ := (isDir_release n d).mp dir'
    have kept : ∀ {s' y m}, v.tree.slot d s' = some (y, m) → y ≠ x →
        ((v.dropEntry p s).release n).tree.slot d s' = some (y, m) := by
      intro s' y m entry' ne
      rw [tree]
      refine DirTree.slot_remove.mpr ⟨other, ?_, entry'⟩
      rintro ⟨rfl, rfl⟩
      rw [entry, Option.some.injEq, Prod.mk.injEq] at entry'
      exact ne entry'.1.symm
    obtain ⟨self, q, parent⟩ := ok.home d dir' notRoot
    exact ⟨kept self proper.1.symm, q, kept parent proper.2.symm⟩

end Remove

/-! ## Growing and shrinking a directory -/

section Resize

variable {p : CInt} {k : Fin numOfDirectBlockPtr}

private theorem isDir_assign (n b d : CInt) : (v.assign n k b).IsDir d ↔ v.IsDir d := by
  by_cases same : d = n
  · subst same
    simp [IsDir, assign, Inode.withBlock]
  · simp [IsDir, assign, same]

private theorem isFile_assign (n b d : CInt) : (v.assign n k b).IsFile d ↔ v.IsFile d := by
  by_cases same : d = n
  · subst same
    simp [IsFile, assign, Inode.withBlock]
  · simp [IsFile, assign, same]

theorem entryAt_zero (j : Fin numOfDirentPerBlock) :
    Block.entryAt (fun _ => 0#8) j = ⟨[], 0#32⟩ := by
  have zero : ∀ i, Block.byteAt (fun _ => 0#8) i = 0#8 := fun i => by simp [Block.byteAt]
  have name : Block.nameOf (fun _ => 0#8) j = [] :=
    (Block.nameOf_eq_nil_iff _ j).mpr (zero _)
  have number : Block.entryInode (fun _ => 0#8) j = 0#32 := Block.intAt_zero _
  rw [Block.entryAt, name, number]

theorem isDir_grow (d : CInt) : (v.grow p k).IsDir d ↔ v.IsDir d :=
  isDir_assign (v := v) (k := k) p v.freeBlockNum d

theorem ptr_grow (v : Volume) (p : CInt) (k : Fin numOfDirectBlockPtr) :
    (v.grow p k).ptr = update v.ptr (p, k) v.freeBlockNum := by
  rw [grow, ptr_fill, ptr_assign]

/-- The new block has no entries. -/
theorem entry_grow (blocks : v.BlocksOwned) {d : CInt} {s : Slot} : (v.grow p k).entry d s =
    if (d, s.1) = (p, k) then ⟨[], 0#32⟩ else v.entry d s := by
  obtain ⟨data, unused⟩ := blocks.freeBlockNum
  rw [entry, ptr_grow]
  split_ifs with here
  · rw [here, update_self, grow, block_fill, update_self]
    exact entryAt_zero s.2
  · rw [update_of_ne here, grow, block_fill,
      update_of_ne (blocks.owned.ptr_ne_of_unused data unused _)]
    rfl

theorem tree_grow (blocks : v.BlocksOwned) (empty : v.ptr (p, k) = 0#32) :
    (v.grow p k).tree = v.tree := by
  refine tree_eq (fun m => Iff.rfl) isDir_grow fun d s y m => ?_
  rw [slot_eq_some, slot_eq_some, isDir_grow]
  by_cases here : (d, s.1) = (p, k)
  · have old : v.ptr (d, s.1) = 0#32 := here ▸ empty
    constructor
    · rintro ⟨_, _, live, same⟩
      rw [entry_grow blocks, if_pos here, Block.Entry.mk.injEq] at same
      exact absurd same.1.symm live
    · rintro ⟨_, holds, _⟩
      exact absurd old holds
  · have pointer : (v.grow p k).ptr (d, s.1) = v.ptr (d, s.1) := by
      rw [ptr_grow, update_of_ne here]
    rw [pointer]
    rw [entry_grow blocks, if_neg here]

/-- A block without entries keeps a volume searchable. -/
theorem Searchable.grow (ok : v.Searchable) (dir : v.IsDir p) (empty : v.ptr (p, k) = 0#32) :
    (v.grow p k).Searchable := by
  obtain ⟨data, unused⟩ := ok.blocks.freeBlockNum
  have tree := tree_grow ok.blocks empty
  refine ⟨?_, ok.used_valid, ?_, fun entry => ?_, ?_⟩
  · exact (ok.blocks.assign (ok.used_valid p dir.1) data unused empty).fill _ _
  · intro d s dir' holds
    rw [entry_grow ok.blocks]
    rw [ptr_grow] at holds
    split_ifs with here
    · simp
    · rw [update_of_ne here] at holds
      exact ok.names d s ((isDir_grow d).mp dir') holds
  · rw [tree] at entry
    exact ok.used_target entry
  · rw [tree]
    exact ok.distinct

theorem Consistent.grow (ok : v.Consistent) (dir : v.IsDir p) (empty : v.ptr (p, k) = 0#32) :
    (v.grow p k).Consistent := by
  have searchable := ok.searchable.grow dir empty
  have tree := tree_grow ok.blocks empty
  refine ⟨searchable.blocks, searchable.used_valid, fun m used => ?_, searchable.names, ?_, ?_,
    fun d dir' notRoot => ?_⟩
  · exact (ok.kinds m used).imp (isFile_assign p _ m).mpr (isDir_grow m).mpr
  · rw [tree]
    exact ok.tree
  · intro d s y m entry
    rw [tree] at entry
    exact ok.dots entry
  · rw [tree]
    exact ok.home d ((isDir_grow d).mp dir') notRoot

private theorem isDir_unassign (n d : CInt) : (v.unassign n k).IsDir d ↔ v.IsDir d := by
  by_cases same : d = n
  · subst same
    simp [IsDir, unassign, Inode.withoutBlock]
  · simp [IsDir, unassign, same]

private theorem isFile_unassign (n d : CInt) : (v.unassign n k).IsFile d ↔ v.IsFile d := by
  by_cases same : d = n
  · subst same
    simp [IsFile, unassign, Inode.withoutBlock]
  · simp [IsFile, unassign, same]

private theorem entry_unassign {d : CInt} {s : Slot} (other : (d, s.1) ≠ (p, k)) :
    (v.unassign p k).entry d s = v.entry d s := by
  rw [entry, ptr_unassign, update_of_ne other]
  rfl

theorem slot_unassign {d : CInt} {s : Slot} {e : List Byte × CInt} :
    (v.unassign p k).tree.slot d s = some e ↔
      (d, s.1) ≠ (p, k) ∧ v.tree.slot d s = some e := by
  obtain ⟨y, m⟩ := e
  rw [slot_eq_some, slot_eq_some, isDir_unassign, ptr_unassign]
  by_cases here : (d, s.1) = (p, k)
  · simp [here]
  · rw [update_of_ne here, entry_unassign here]
    simp [here]

/-- In a block whose inode numbers are all 0 only the root's reference to itself can be live. -/
theorem eq_dot_of_zero (ok : v.Consistent)
    (zeros : ∀ j, (v.entry p (k, j)).inodeNum = 0#32) {j : Fin numOfDirentPerBlock} {y : List Byte}
    {m : CInt} (entry : v.tree.slot p (k, j) = some (y, m)) : y = dot ∧ p = 0#32 := by
  have target : m = 0#32 := by
    rw [← zeros j, (slot_eq_some.mp entry).2.2.2]
  subst target
  by_cases isDot : y = dot
  · exact ⟨isDot, (ok.tree.dot_self (isDot ▸ entry)).symm⟩
  · by_cases isDotDot : y = dotDot
    · subst isDotDot
      by_cases isRoot : p = 0#32
      · obtain ⟨z, ne, ne', s', refers⟩ := ok.tree.dotDot_parent entry
        exact absurd isRoot (ok.tree.proper_ne refers ne ne').1
      · -- the special entries of another directory share a block, and `.` is not 0
        obtain ⟨self, q, parent⟩ := ok.home p (slot_eq_some.mp entry).1 isRoot
        have index := congrArg Prod.fst (ok.tree.distinct entry parent)
        have first : (v.entry p (k, 0)).inodeNum = p := by
          rw [show (k, (0 : Fin numOfDirentPerBlock)) = (0, 0) by rw [show k = 0 from index],
            (slot_eq_some.mp self).2.2.2]
        exact absurd (first.symm.trans (zeros 0)) isRoot
    · exact absurd rfl (ok.tree.proper_ne entry isDot isDotDot).1

private theorem Consistent.unassign (ok : v.Consistent) (holds : v.ptr (p, k) ≠ 0#32)
    (zeros : ∀ j, (v.entry p (k, j)).inodeNum = 0#32) : (v.unassign p k).Consistent := by
  refine ⟨ok.blocks.unassign holds, ok.used_valid, fun m used => ?_, ?_, ?_, ?_,
    fun d dir' notRoot => ?_⟩
  · exact (ok.kinds m used).imp (isFile_unassign p m).mpr (isDir_unassign p m).mpr
  · intro d s dir' holds'
    have other : (d, s.1) ≠ (p, k) := by
      intro here
      rw [ptr_unassign, here, update_self] at holds'
      exact holds' rfl
    rw [ptr_unassign, update_of_ne other] at holds'
    rw [entry_unassign other]
    exact ok.names d s ((isDir_unassign p d).mp dir') holds'
  · by_cases live : ∃ j m, v.tree.slot p (k, j) = some (dot, m)
    · obtain ⟨j, m, entry⟩ := live
      rw [show (v.unassign p k).tree = v.tree.setSlot p (k, j) none from ?_]
      · exact ok.tree.dropDot entry
      · refine tree_eq (fun _ => Iff.rfl) (isDir_unassign p) fun d s y m' => ?_
        rw [slot_unassign, DirTree.slot_setSlot]
        by_cases here : d = p ∧ s = (k, j)
        · obtain ⟨rfl, rfl⟩ := here
          simp
        · rw [if_neg here]
          refine and_iff_right_of_imp fun entry' same => here ?_
          obtain ⟨rfl, rfl⟩ := Prod.mk.inj same
          obtain ⟨rfl, _⟩ := eq_dot_of_zero ok zeros (j := s.2) entry'
          exact ⟨rfl, ok.tree.distinct entry' entry⟩
    · rw [show (v.unassign p k).tree = v.tree from ?_]
      · exact ok.tree
      · refine tree_eq (fun _ => Iff.rfl) (isDir_unassign p) fun d s y m => ?_
        rw [slot_unassign]
        refine and_iff_right_of_imp fun entry same => live ?_
        obtain ⟨rfl, rfl⟩ := Prod.mk.inj same
        obtain ⟨rfl, _⟩ := eq_dot_of_zero ok zeros (j := s.2) entry
        exact ⟨s.2, m, entry⟩
  · intro d s y m entry
    exact ok.dots (slot_unassign.mp entry).2
  · obtain ⟨self, q, parent⟩ := ok.home d ((isDir_unassign p d).mp dir') notRoot
    have other : (d, (0 : Fin numOfDirectBlockPtr)) ≠ (p, k) := by
      intro same
      obtain ⟨rfl, rfl⟩ := Prod.mk.inj same
      exact notRoot (eq_dot_of_zero ok zeros self).2
    exact ⟨slot_unassign.mpr ⟨other, self⟩, q, slot_unassign.mpr ⟨other, parent⟩⟩

theorem Consistent.shrink (ok : v.Consistent) (holds : v.ptr (p, k) ≠ 0#32) :
    (v.shrink p k).Consistent := by
  rw [Volume.shrink]
  split_ifs with zeros
  · exact ok.unassign holds zeros
  · exact ok

end Resize

/-! ## Turning a file into a directory -/

section ToDir

variable {n p : CInt}

private theorem toDir_eq (v : Volume) (n p : CInt) : v.toDir n p =
    ((v.assign n 0 v.freeBlockNum).setInode n (dirInode v.freeBlockNum)).fill v.freeBlockNum
      (newDirBlock (fun _ => 0#8) n p) := by
  simp only [toDir, assign, setInode, markBlock, update_idem]

theorem ptr_toDir (blank : ∀ k, v.ptr (n, k) = 0#32) :
    (v.toDir n p).ptr = update v.ptr (n, 0) v.freeBlockNum := by
  funext ⟨m, k⟩
  rw [toDir, ptr_fill, ptr_markBlock, ptr_setInode]
  by_cases same : m = n
  · subst same
    by_cases first : k = 0 <;> simp [first, dirInode, blank]
  · simp [same]

private theorem isDir_toDir (used : v.inodeUsed n = true) (d : CInt) :
    (v.toDir n p).IsDir d ↔ d = n ∨ v.IsDir d := by
  by_cases same : d = n
  · subst same
    simp [IsDir, toDir, dirInode, used]
  · simp [IsDir, toDir, same]

/-- The entries of a new directory. -/
def newEntryAt (n p : CInt) (j : Fin numOfDirentPerBlock) : Block.Entry :=
  if j = 0 then ⟨dot, n⟩ else if j = 1 then ⟨dotDot, p⟩ else ⟨[], 0#32⟩

theorem entryAt_newDirBlock (n p : CInt) (j : Fin numOfDirentPerBlock) :
    (newDirBlock (fun _ => 0#8) n p).entryAt j = newEntryAt n p j := by
  have one : Spells (cString dot) dot := spells_cString (by decide)
  have two : Spells (cString dotDot) dotDot := spells_cString (by decide)
  rw [Block.entryAt, newEntryAt, newDirBlock, Block.entryInode_setName _ _ _ (by omega),
    Block.entryInode_setEntryInode, Block.entryInode_setName _ _ _ (by omega),
    Block.entryInode_setEntryInode]
  split_ifs with second first first
  · exact absurd (second.symm.trans first) (by decide)
  · rw [second, Block.nameOf_setName_self _ _ two (by omega) (by decide)]
  · rw [first, Block.nameOf_setName_of_ne _ _ _ (by omega) (by decide),
      Block.nameOf_setEntryInode, Block.nameOf_setName_self _ _ one (by omega) (by decide)]
  · rw [Block.nameOf_setName_of_ne _ _ _ (by omega) second, Block.nameOf_setEntryInode,
      Block.nameOf_setName_of_ne _ _ _ (by omega) first, Block.nameOf_setEntryInode]
    exact entryAt_zero j

theorem entry_toDir (blocks : v.BlocksOwned) (blank : ∀ k, v.ptr (n, k) = 0#32) {d : CInt}
    {s : Slot} (holds : (v.toDir n p).ptr (d, s.1) ≠ 0#32) : (v.toDir n p).entry d s =
      if d = n then newEntryAt n p s.2 else v.entry d s := by
  obtain ⟨data, unused⟩ := blocks.freeBlockNum
  rw [ptr_toDir blank] at holds
  rw [entry, ptr_toDir blank]
  by_cases here : (d, s.1) = (n, 0)
  · rw [here, update_self, toDir, block_fill, update_self, entryAt_newDirBlock,
      if_pos (Prod.mk.inj here).1]
  · rw [update_of_ne here] at holds ⊢
    have other : d ≠ n := by
      rintro rfl
      exact holds (blank s.1)
    rw [if_neg other, toDir, block_fill,
      update_of_ne (blocks.owned.ptr_ne_of_unused data unused _)]
    rfl

/-- The slots of a new directory. -/
def newSlots (n p : CInt) (s : Slot) : Option (List Byte × CInt) :=
  if s.1 = 0 ∧ (newEntryAt n p s.2).name ≠ [] then
    some ((newEntryAt n p s.2).name, (newEntryAt n p s.2).inodeNum)
  else
    none

private theorem newSlots_eq_some {s : Slot} {y : List Byte} {m : CInt} :
    newSlots n p s = some (y, m) ↔ s.1 = 0 ∧ y ≠ [] ∧ newEntryAt n p s.2 = ⟨y, m⟩ := by
  rw [newSlots]
  constructor
  · intro found
    split_ifs at found with live
    simp only [Option.some.injEq, Prod.mk.injEq] at found
    obtain ⟨rfl, rfl⟩ := found
    exact ⟨live.1, live.2, rfl⟩
  · rintro ⟨first, live, same⟩
    rw [same, if_pos ⟨first, live⟩]

/-- A new directory holds its special entries only. -/
theorem newSlots_special {s : Slot} {y : List Byte} {m : CInt}
    (entry : newSlots n p s = some (y, m)) :
    (s = (0, 0) ∧ y = dot ∧ m = n) ∨ (s = (0, 1) ∧ y = dotDot ∧ m = p) := by
  obtain ⟨first, live, same⟩ := newSlots_eq_some.mp entry
  rw [newEntryAt] at same
  split_ifs at same with zero one
  · obtain ⟨rfl, rfl⟩ := Block.Entry.mk.inj same
    exact Or.inl ⟨Prod.ext first zero, rfl, rfl⟩
  · obtain ⟨rfl, rfl⟩ := Block.Entry.mk.inj same
    exact Or.inr ⟨Prod.ext first one, rfl, rfl⟩
  · exact absurd (Block.Entry.mk.inj same).1.symm live

theorem tree_toDir (blocks : v.BlocksOwned) (used : v.inodeUsed n = true)
    (blank : ∀ k, v.ptr (n, k) = 0#32) : (v.toDir n p).tree = v.tree.toDir n (newSlots n p) := by
  have data := blocks.freeBlockNum.1
  refine tree_eq (fun _ => Iff.rfl) (isDir_toDir used) fun d s y m => ?_
  rw [slot_eq_some, isDir_toDir used]
  by_cases same : d = n
  · subst same
    rw [DirTree.slot_toDir_self, newSlots_eq_some]
    by_cases first : s.1 = 0
    · have holds : (v.toDir d p).ptr (d, s.1) ≠ 0#32 := by
        rw [ptr_toDir blank, first, update_self]
        exact fun null => zero_notMem_pool (null ▸ data)
      rw [entry_toDir blocks blank holds, if_pos rfl]
      exact ⟨fun found => ⟨first, found.2.2⟩, fun found => ⟨Or.inl rfl, holds, found.2⟩⟩
    · have null : (v.toDir d p).ptr (d, s.1) = 0#32 := by
        rw [ptr_toDir blank, update_of_ne (by simp [first])]
        exact blank s.1
      simp [null, first]
  · have pointer : (v.toDir n p).ptr (d, s.1) = v.ptr (d, s.1) := by
      rw [ptr_toDir blank, update_of_ne (by simp [same])]
    rw [DirTree.slot_toDir_of_ne same, slot_eq_some, or_iff_right same, pointer]
    refine and_congr_right fun _ => and_congr_right fun holds => and_congr_right fun _ => ?_
    rw [entry_toDir blocks blank (pointer ▸ holds), if_neg same]

theorem newSlots_distinct {s₁ s₂ : Slot} {y : List Byte} {m m' : CInt}
    (entry : newSlots n p s₁ = some (y, m)) (entry' : newSlots n p s₂ = some (y, m')) :
      s₁ = s₂ := by
  obtain ⟨rfl, rfl, rfl⟩ | ⟨rfl, rfl, rfl⟩ := newSlots_special entry
  · obtain ⟨rfl, _, _⟩ | ⟨_, same, _⟩ := newSlots_special entry'
    · rfl
    · exact absurd same (by decide)
  · obtain ⟨_, same, _⟩ | ⟨rfl, _, _⟩ := newSlots_special entry'
    · exact absurd same (by decide)
    · rfl

/-- A new directory keeps a volume searchable. -/
theorem Searchable.toDir (ok : v.Searchable) (used : v.inodeUsed n = true)
    (blank : ∀ k, v.ptr (n, k) = 0#32) (parent : v.inodeUsed p = true) :
    (v.toDir n p).Searchable := by
  obtain ⟨data, unused⟩ := ok.blocks.freeBlockNum
  have tree := tree_toDir (p := p) ok.blocks used blank
  refine ⟨?_, ok.used_valid, ?_, fun {d _ _ _} entry => ?_, ?_⟩
  · rw [toDir_eq]
    refine ((ok.blocks.assign (ok.used_valid n used) data unused (blank 0)).setInode ?_).fill _ _
    have pointers : (v.inode n).dirBlockPtr = fun _ => 0#32 := funext blank
    simp [assign, Inode.withBlock, pointers, dirInode]
  · intro d s dir' holds
    rw [entry_toDir ok.blocks blank holds]
    split_ifs with same
    · rw [newEntryAt]
      split_ifs <;> simp [dot, dotDot]
    · rw [ptr_toDir blank, update_of_ne (by simp [same])] at holds
      exact ok.names d s (((isDir_toDir used d).mp dir').resolve_left same) holds
  · change v.inodeUsed _ = true
    rw [tree] at entry
    by_cases same : d = n
    · subst same
      rw [DirTree.slot_toDir_self] at entry
      obtain ⟨_, _, rfl⟩ | ⟨_, _, rfl⟩ := newSlots_special entry
      · exact used
      · exact parent
    · rw [DirTree.slot_toDir_of_ne same] at entry
      exact ok.used_target entry
  · rw [tree]
    exact DirTree.distinct_toDir ok.distinct newSlots_distinct

theorem Consistent.toDir (ok : v.Consistent) (file : v.IsFile n)
    (blank : ∀ k, v.ptr (n, k) = 0#32) {x : List Byte} (parent : v.tree.Refers p x n)
    (proper : x ≠ dot ∧ x ≠ dotDot) : (v.toDir n p).Consistent := by
  have dir : v.IsDir p := by
    obtain ⟨s, entry⟩ := parent
    exact ok.tree.slot_dir entry
  have searchable := ok.searchable.toDir file.1 blank dir.1
  have tree := tree_toDir (p := p) ok.blocks file.1 blank
  have notDir : ¬ v.IsDir n := fun dir => absurd (file.2.symm.trans dir.2) (by decide)
  refine ⟨searchable.blocks, searchable.used_valid, fun m used => ?_, searchable.names, ?_, ?_,
    fun d dir' notRoot => ?_⟩
  · by_cases same : m = n
    · exact Or.inr ((isDir_toDir file.1 m).mpr (Or.inl same))
    · refine (ok.kinds m used).imp (fun kind => ?_) fun kind =>
        (isDir_toDir file.1 m).mpr (Or.inr kind)
      simpa [IsFile, Volume.toDir, same] using kind
  · rw [tree]
    refine ok.tree.toDir file.1 notDir parent proper (fun entry => ?_) newSlots_distinct (by decide)
    exact (newSlots_special entry).imp And.right And.right
  · intro d s y m entry dotted
    rw [tree] at entry
    by_cases same : d = n
    · subst same
      rw [DirTree.slot_toDir_self] at entry
      exact (newSlots_special entry).imp (·.2.1) (·.2.1)
    · rw [DirTree.slot_toDir_of_ne same] at entry
      exact ok.dots entry dotted
  · rw [tree]
    by_cases same : d = n
    · subst same
      rw [DirTree.slot_toDir_self]
      exact ⟨rfl, p, rfl⟩
    · rw [DirTree.slot_toDir_of_ne same]
      exact ok.home d (((isDir_toDir file.1 d).mp dir').resolve_left same) notRoot

end ToDir

/-! ## Writing a file -/

/-- The directories and their entries are the same. -/
structure SameDirs (v v' : Volume) : Prop where
  used : v'.inodeUsed = v.inodeUsed
  type : ∀ n, (v'.inode n).type = (v.inode n).type
  ptr : ∀ d k, v.IsDir d → v'.ptr (d, k) = v.ptr (d, k)
  entry : ∀ d s, v.IsDir d → v.ptr (d, s.1) ≠ 0#32 → v'.entry d s = v.entry d s

namespace SameDirs

variable {v v' v'' : Volume}

private theorem refl (v : Volume) : SameDirs v v :=
  ⟨rfl, fun _ => rfl, fun _ _ _ => rfl, fun _ _ _ _ => rfl⟩

theorem isDir (same : SameDirs v v') (d : CInt) : v'.IsDir d ↔ v.IsDir d := by
  rw [IsDir, IsDir, same.used, same.type]

theorem isFile (same : SameDirs v v') (d : CInt) : v'.IsFile d ↔ v.IsFile d := by
  rw [IsFile, IsFile, same.used, same.type]

private theorem trans (first : SameDirs v v') (second : SameDirs v' v'') : SameDirs v v'' where
  used := second.used.trans first.used
  type n := (second.type n).trans (first.type n)
  ptr d k dir := (second.ptr d k ((first.isDir d).mpr dir)).trans (first.ptr d k dir)
  entry d s dir holds := by
    have dir' := (first.isDir d).mpr dir
    have holds' : v'.ptr (d, s.1) ≠ 0#32 := by rwa [first.ptr d s.1 dir]
    exact (second.entry d s dir' holds').trans (first.entry d s dir holds)

theorem tree (same : SameDirs v v') : v'.tree = v.tree := by
  refine tree_eq (fun n => by rw [same.used]; rfl) same.isDir fun d s y m => ?_
  rw [slot_eq_some, slot_eq_some, same.isDir]
  refine and_congr_right fun dir => ?_
  rw [same.ptr d s.1 dir]
  exact and_congr_right fun holds => by rw [same.entry d s dir holds]

end SameDirs

private theorem Consistent.of_sameDirs {v' : Volume} (ok : v.Consistent) (blocks : v'.BlocksOwned)
    (same : SameDirs v v') : v'.Consistent := by
  have tree := same.tree
  refine ⟨blocks, fun n used => ok.used_valid n (same.used ▸ used), fun n used => ?_, ?_, ?_, ?_,
    fun d dir => ?_⟩
  · rw [same.isFile, same.isDir]
    exact ok.kinds n (same.used ▸ used)
  · intro d s dir holds
    have dir := (same.isDir d).mp dir
    rw [same.ptr d s.1 dir] at holds
    rw [same.entry d s dir holds]
    exact ok.names d s dir holds
  · rw [tree]
    exact ok.tree
  · rw [tree]
    exact ok.dots
  · rw [tree]
    exact ok.home d ((same.isDir d).mp dir)

section Write

variable {n : CInt}

private theorem sameDirs_assign (notDir : ¬ v.IsDir n) (k : Fin numOfDirectBlockPtr) (b : CInt) :
    SameDirs v (v.assign n k b) := by
  have pointer : ∀ d l, v.IsDir d → (v.assign n k b).ptr (d, l) = v.ptr (d, l) := by
    intro d l dir
    have other : d ≠ n := fun same => notDir (same ▸ dir)
    rw [ptr_assign, update_of_ne (by simp [other])]
  refine ⟨rfl, fun m => ?_, pointer, fun d s dir _ => ?_⟩
  · by_cases same : m = n
    · subst same
      simp [assign, Inode.withBlock]
    · simp [assign, same]
  · rw [entry, pointer d s.1 dir]
    rfl

private theorem sameDirs_fill (blocks : v.BlocksOwned) (notDir : ¬ v.IsDir n)
    (k : Fin numOfDirectBlockPtr) (contents : Block) :
    SameDirs v (v.fill (v.ptr (n, k)) contents) := by
  refine ⟨rfl, fun _ => rfl, fun _ _ _ => rfl, fun d s dir holds => ?_⟩
  have apart : v.ptr (d, s.1) ≠ v.ptr (n, k) := fun same =>
    notDir ((blocks.ptr_injective holds same).1 ▸ dir)
  rw [entry, ptr_fill, block_fill, update_of_ne apart, entry]

private theorem sameDirs_writeStep {acc : Volume × CInt} (valid : ValidInode n)
    (blocks : acc.1.BlocksOwned) (notDir : ¬ acc.1.IsDir n) (pBuffer : Chunk)
    (k : Fin numOfDirectBlockPtr) : SameDirs acc.1 (writeStep n pBuffer acc k).1 := by
  rw [writeStep]
  split_ifs with empty
  · obtain ⟨data, unused⟩ := blocks.freeBlockNum
    have assigned := sameDirs_assign notDir k acc.1.freeBlockNum
    exact assigned.trans (sameDirs_fill (blocks.assign valid data unused empty)
      (fun dir => notDir ((assigned.isDir n).mp dir)) k _)
  · exact sameDirs_fill blocks notDir k _

/-- `WriteFile` leaves the directories alone. -/
theorem sameDirs_write (valid : ValidInode n) (pBuffer : Chunk) (blocks : v.BlocksOwned)
    (notDir : ¬ v.IsDir n) (ks : List (Fin numOfDirectBlockPtr)) :
    SameDirs v (v.write n pBuffer ks).1 := by
  suffices steps : ∀ (acc : Volume × CInt), acc.1.BlocksOwned → ¬ acc.1.IsDir n →
      SameDirs acc.1 (ks.foldl (writeStep n pBuffer) acc).1 from steps (v, 0#32) blocks notDir
  induction ks with
  | nil => exact fun acc _ _ => .refl acc.1
  | cons k ks induction =>
      intro acc blocks notDir
      have step := sameDirs_writeStep valid blocks notDir pBuffer k
      exact step.trans (induction _ (blocks.writeStep valid pBuffer k)
        fun dir => notDir ((step.isDir n).mp dir))

theorem Consistent.write (ok : v.Consistent) (valid : ValidInode n) (notDir : ¬ v.IsDir n)
    (pBuffer : Chunk) (ks : List (Fin numOfDirectBlockPtr)) :
    (v.write n pBuffer ks).1.Consistent :=
  ok.of_sameDirs (BlocksOwned.writeSteps valid pBuffer ks ok.blocks)
    (sameDirs_write valid pBuffer ok.blocks notDir ks)

end Write

end Volume
end KwHomework
