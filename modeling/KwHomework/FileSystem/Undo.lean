import KwHomework.FileSystem.Format

/-!
# `MakeDir` and back

`RemoveDir` is meant to be the inverse of `MakeDir`.  It is when the block that the parent took for
the entry is the block that it gives back: when `MakeDir` added the block, or when the block holds
an inode number other than 0.
-/

namespace KwHomework

open Function FS

/-- `MakeDir` and then `RemoveDir` of one path. -/
def makeAndRemoveDir (szDirName : Path) : FS (Option CInt) := do
  let _ ← makeDir szDirName
  removeDir szDirName

namespace Volume

/-- The bitmaps, the directory `p` with its live entries, and the other allocated inodes are as
they were. -/
structure Undone (v v' : Volume) (p : CInt) : Prop where
  inodeUsed : v'.inodeUsed = v.inodeUsed
  blockUsed : ∀ b : CInt, b.toNat < 512 → v'.blockUsed b = v.blockUsed b
  dirBlockPtr : (v'.inode p).dirBlockPtr = (v.inode p).dirBlockPtr
  size : (v'.inode p).size = (v.inode p).size
  allocBlocks : (v'.inode p).allocBlocks = (v.inode p).allocBlocks
  entries : ∀ x n, v'.tree.Refers p x n ↔ v.tree.Refers p x n
  inode : ∀ m, m ≠ p → v.inodeUsed m = true → v'.inode m = v.inode m

/-- The first of the pointers of `p` that is null or leads to a block with a free slot is null, or
its block holds an inode number other than 0. -/
def KeepsBlocks (v : Volume) (p : CInt) : Prop :=
  ∃ k, (∀ l < k, v.ptr (p, l) ≠ 0#32 ∧ ∀ j, (v.entry p (l, j)).name ≠ []) ∧
    (v.ptr (p, k) = 0#32 ∨ ((∃ j, (v.entry p (k, j)).name = []) ∧
      ∃ j, (v.entry p (k, j)).inodeNum ≠ 0#32))

section Room

variable {v : Volume} {p : CInt} {k : Fin numOfDirectBlockPtr}

/-- Where the room is decides whether the blocks are kept. -/
theorem keepsBlocks_grow (room : v.room p = some (k, none)) : v.KeepsBlocks p := by
  refine ⟨k, fun l before => ?_, Or.inl (firstRoom_grow room)⟩
  obtain ⟨holds, full⟩ := firstRoom_first room before
  exact ⟨holds, fun j => of_decide_eq_false (full j)⟩

private theorem keepsBlocks_slot {j : Fin numOfDirentPerBlock}
    (room : v.room p = some (k, some j)) :
    v.KeepsBlocks p ↔ ∃ j', (v.entry p (k, j')).inodeNum ≠ 0#32 := by
  obtain ⟨holds, empty⟩ := firstRoom_slot room
  constructor
  · rintro ⟨k', first, last⟩
    have same : k' = k := by
      rcases lt_trichotomy k' k with before | same | after
      · obtain ⟨holds', full⟩ := firstRoom_first room before
        rcases last with null | ⟨⟨j', empty'⟩, _⟩
        · exact absurd null holds'
        · exact absurd empty' (of_decide_eq_false (full j'))
      · exact same
      · exact absurd (of_decide_eq_true empty) ((first k after).2 j)
    subst same
    rcases last with null | ⟨_, nonzero⟩
    · exact absurd null holds
    · exact nonzero
  · intro nonzero
    refine ⟨k, fun l before => ?_, Or.inr ⟨⟨j, of_decide_eq_true empty⟩, nonzero⟩⟩
    obtain ⟨holds', full⟩ := firstRoom_first room before
    exact ⟨holds', fun j' => of_decide_eq_false (full j')⟩

end Room

/-! ## After both calls, before a block is given back -/

/-- The volume between the two calls. -/
def made (v : Volume) (p : CInt) (e : Slot) (n : CInt) (x : List Byte) : Volume :=
  ((v.putEntry p e n x).newFile n).toDir n p

/-- The entry is cleared again, and its directory is released. -/
def cleared (v : Volume) (p : CInt) (e : Slot) (n : CInt) (x : List Byte) : Volume :=
  ((v.made p e n x).dropEntry p e).release n

private theorem inode_cleared (v : Volume) (p : CInt) (e : Slot) {n m : CInt} (x : List Byte)
    (other : m ≠ n) : (v.cleared p e n x).inode m = v.inode m := by
  rw [cleared, inode_release_of_ne n other]
  simp [dropEntry, made, toDir, newFile, putEntry, other]

section Cleared

variable {v g : Volume} {p n : CInt} {e : Slot} {x : List Byte} (hasRoom : HasRoom v p g e)
  (blank : v.FreeBlank) (dirMade : DirMade v p e x n (g.made p e n x)) (dir : v.IsDir p)
  (unused : v.inodeUsed n = false)

include hasRoom blank dirMade dir unused

theorem entry_cleared (good : GoodName x) {s : Slot} (holds : g.ptr (p, s.1) ≠ 0#32) :
    (g.cleared p e n x).entry p s = if s = e then ⟨[], 0#32⟩ else g.entry p s := by
  have apart : p ≠ n := by
    rintro rfl
    rw [dir.1] at unused
    cases unused
  have none : ∀ k, ((g.putEntry p e n x).newFile n).ptr (n, k) = 0#32 := by
    intro k
    rw [ptr_newFile]
    exact hasRoom.freeBlank blank dir n (by rwa [hasRoom.used]) k
  have pointer : ∀ l, (g.made p e n x).ptr (p, l) = g.ptr (p, l) := by
    intro l
    rw [made, ptr_toDir none, update_of_ne (by simp [apart]), ptr_newFile]
    rfl
  have blocks : ((g.putEntry p e n x).newFile n).BlocksOwned :=
    .newFile (hasRoom.consistent.blocks.fill _ _) n
  have placed := (g.block (g.ptr (p, e.1))).entryAt_setEntry e.2 n (spells_cString good.string)
    good.short
  have gone := ((g.made p e n x).block ((g.made p e n x).ptr (p, e.1))).entryAt_clearEntry e.2
  rw [cleared, entry_release apart, dropEntry,
    entry_fill dirMade.consistent.blocks (by rw [pointer]; exact hasRoom.holds) gone]
  simp only [true_and]
  split_ifs with here
  · rfl
  · rw [made, entry_toDir blocks none (by rw [← made, pointer]; exact holds), if_neg apart,
      entry_newFile, putEntry, entry_fill hasRoom.consistent.blocks hasRoom.holds placed,
      if_neg fun both => here both.2]

omit blank in
theorem slot_cleared : (g.cleared p e n x).tree.slot = v.tree.slot := by
  have empty : v.tree.slot p e = none := by
    rw [← hasRoom.tree]
    exact slot_eq_none hasRoom.empty
  have apart : ∀ {d s y m}, v.tree.slot d s = some (y, m) → d ≠ n := by
    rintro d s y m entry rfl
    rw [(slot_eq_some.mp entry).1.1] at unused
    cases unused
  have parent : p ≠ n := by
    rintro rfl
    rw [dir.1] at unused
    cases unused
  have between : (g.made p e n x).tree.slot p e = some (x, n) := by
    rw [dirMade.tree, DirTree.slot_toDir_of_ne parent]
    exact DirTree.slot_addFile.mpr (Or.inl ⟨rfl, rfl, rfl, rfl⟩)
  obtain ⟨dir', holds, _, _⟩ := slot_eq_some.mp between
  have tree : (g.cleared p e n x).tree = _ := tree_remove dirMade.consistent.blocks dir' holds
  rw [tree]
  funext d s
  refine Option.ext fun ⟨y, m⟩ => ?_
  rw [DirTree.slot_remove, dirMade.tree]
  constructor
  · rintro ⟨other, elsewhere, entry⟩
    rw [DirTree.slot_toDir_of_ne other] at entry
    obtain ⟨here, same, _⟩ | ⟨_, old⟩ := DirTree.slot_addFile.mp entry
    · exact absurd ⟨here, same⟩ elsewhere
    · exact old
  · intro old
    have elsewhere : ¬ (d = p ∧ s = e) := by
      rintro ⟨rfl, rfl⟩
      rw [empty] at old
      cases old
    refine ⟨apart old, elsewhere, ?_⟩
    rw [DirTree.slot_toDir_of_ne (apart old)]
    exact DirTree.slot_addFile.mpr (Or.inr ⟨elsewhere, old⟩)

omit blank dirMade dir unused in
private theorem clear_slot : (g.entry p e).inodeNum = 0#32 :=
  (hasRoom.consistent.names p e hasRoom.dir hasRoom.holds).2 hasRoom.empty

theorem zeros_cleared (good : GoodName x) :
    (∀ j, ((g.cleared p e n x).entry p (e.1, j)).inodeNum = 0#32) ↔
      ∀ j, (g.entry p (e.1, j)).inodeNum = 0#32 := by
  refine forall_congr' fun j => ?_
  rw [entry_cleared (s := (e.1, j)) hasRoom blank dirMade dir unused good hasRoom.holds]
  split_ifs with here
  · rw [here, clear_slot hasRoom]
  · rfl

end Cleared

/-! ## The block is given back or not -/

private theorem shrink_eq (v : Volume) (p : CInt) (k : Fin numOfDirectBlockPtr) : v.shrink p k =
    if ∀ j, (v.entry p (k, j)).inodeNum = 0#32 then v.unassign p k else v := rfl

theorem undone_of_inodes {v v' : Volume} {p n : CInt} (ok : v.Consistent) (blank : v.FreeBlank)
    (dir : v.IsDir p) (unused : v.inodeUsed n = false) (ok' : v'.Consistent) (blank' : v'.FreeBlank)
    (used : v'.inodeUsed = v.inodeUsed) (inode : ∀ m, m ≠ n → v'.inode m = v.inode m)
    (entries : ∀ y m, v'.tree.Refers p y m ↔ v.tree.Refers p y m) : Undone v v' p := by
  have apart : ∀ m, v.inodeUsed m = true → m ≠ n := by
    rintro m here rfl
    rw [unused] at here
    cases here
  have parent := inode p (apart p dir.1)
  refine ⟨used, fun b small => ?_, ?_, ?_, ?_, entries, fun m _ here => inode m (apart m here)⟩
  · refine ok.blocks.blockUsed_eq ok'.blocks (funext fun ⟨m, k⟩ => ?_) small
    by_cases same : m = n
    · rw [same, blank' n (by rw [used, unused]) k, blank n unused k]
    · rw [ptr, inode m same, ptr]
  all_goals rw [parent]

private theorem inode_unassign_grow {v u : Volume} {p n m : CInt} {k : Fin numOfDirectBlockPtr}
    (null : v.ptr (p, k) = 0#32) (same : ∀ m, m ≠ n → u.inode m = (v.grow p k).inode m)
    (parent : p ≠ n) (other : m ≠ n) : (u.unassign p k).inode m = v.inode m := by
  simp only [unassign, inode_markBlock, inode_setInode]
  by_cases here : m = p
  · rw [here, update_self, same p parent]
    simp only [grow, assign, inode_fill, inode_markBlock, inode_setInode, update_self]
    exact Inode.withoutBlock_withBlock _ _ null
  · rw [update_of_ne here, same m other]
    simp [grow, assign, here]

section Undo

variable {v v' : Volume} {p n : CInt} {x : List Byte} {k : Fin numOfDirectBlockPtr}
  (ok : v.Consistent) (blank : v.FreeBlank) (dir : v.IsDir p) (unused : v.inodeUsed n = false)
  (good : GoodName x) (ok' : v'.Consistent) (blank' : v'.FreeBlank)
  (used : v'.inodeUsed = v.inodeUsed)

include ok blank dir unused good ok' blank' used

theorem undone_grow (hasRoom : HasRoom v p (v.grow p k) (k, 0))
    (dirMade : DirMade v p (k, 0) x n ((v.grow p k).made p (k, 0) n x)) (null : v.ptr (p, k) = 0#32)
    (last : v' = ((v.grow p k).cleared p (k, 0) n x).shrink p k) : Undone v v' p := by
  have parent : p ≠ n := by
    rintro rfl
    rw [dir.1] at unused
    cases unused
  have zeros : ∀ j, ((v.grow p k).entry p (k, j)).inodeNum = 0#32 := by
    intro j
    rw [entry_grow ok.blocks, if_pos rfl]
  have slot := slot_cleared hasRoom dirMade dir unused
  rw [shrink_eq, if_pos ((zeros_cleared hasRoom blank dirMade dir unused good).mpr zeros)] at last
  subst last
  refine undone_of_inodes ok blank dir unused ok' blank' used ?_ ?_
  · intro m other
    exact inode_unassign_grow null (fun m other => inode_cleared _ p _ x other) parent other
  · intro y m
    refine exists_congr fun s => ?_
    rw [slot_unassign, slot]
    refine and_iff_right_of_imp fun entry same => ?_
    rw [Prod.mk.injEq] at same
    obtain ⟨_, holds, _⟩ := slot_eq_some.mp entry
    rw [same.2] at holds
    exact holds null

/-- The entry went into a block that was there; the block is given back when it holds no inode
number but 0. -/
theorem undone_slot_iff {j : Fin numOfDirentPerBlock} (hasRoom : HasRoom v p v (k, j))
    (dirMade : DirMade v p (k, j) x n (v.made p (k, j) n x))
    (last : v' = (v.cleared p (k, j) n x).shrink p k) :
    Undone v v' p ↔ ∃ j', (v.entry p (k, j')).inodeNum ≠ 0#32 := by
  have zeros := zeros_cleared hasRoom blank dirMade dir unused good
  have slot := slot_cleared hasRoom dirMade dir unused
  rw [shrink_eq] at last
  by_cases given : ∀ j', (v.entry p (k, j')).inodeNum = 0#32
  · rw [if_pos (zeros.mpr given)] at last
    refine iff_of_false (fun undone => hasRoom.holds ?_) (by simpa using given)
    have pointer := congrFun undone.dirBlockPtr k
    rw [last] at pointer
    change (unassign _ p k).ptr (p, k) = v.ptr (p, k) at pointer
    rw [← pointer, ptr_unassign, update_self]
  · rw [if_neg (mt zeros.mp given)] at last
    subst last
    refine iff_of_true (undone_of_inodes ok blank dir unused ok' blank' used ?_ ?_)
      (by simpa using given)
    · intro m other
      exact inode_cleared _ p _ x other
    · intro y m
      rw [DirTree.Refers, slot, DirTree.Refers]

end Undo

/-- `MakeDir` is undone exactly when the parent keeps its blocks. -/
theorem undone_iff {v v' : Volume} {p : CInt} {x : List Byte}
    {r : Fin numOfDirectBlockPtr × Option (Fin numOfDirentPerBlock)} (ok : v.Consistent)
    (blank : v.FreeBlank) (dir : v.IsDir p) (room : v.room p = some r) (free : v.HasFreeInode)
    (good : GoodName x) (new : ∀ m, ¬ v.tree.Refers p x m)
    (last : v' = (v.makeDir p x r).removeDir p (v.makeRoom p r).2 v.freeInodeNum)
    (ok' : v'.Consistent) (blank' : v'.FreeBlank) (used : v'.inodeUsed = v.inodeUsed) :
    Undone v v' p ↔ v.KeepsBlocks p := by
  have hasRoom := hasRoom_makeRoom ok dir room
  have dirMade := dirMade_makeDir ok blank dir room free good new
  obtain ⟨_, unused⟩ := freeInodeNum_spec free
  have apart : v.freeInodeNum ≠ p := by
    intro same
    rw [same, dir.1] at unused
    cases unused
  rw [removeDir, release_shrink apart] at last
  obtain ⟨k, _ | j⟩ := r
  · exact iff_of_true (undone_grow ok blank dir unused good ok' blank' used hasRoom dirMade
      (firstRoom_grow room) last) (keepsBlocks_grow room)
  · rw [keepsBlocks_slot room]
    exact undone_slot_iff ok blank dir unused good ok' blank' used hasRoom dirMade last

end Volume

/-! ## Both calls -/

/-- The two calls succeed, and undo one another exactly when the parent keeps its blocks. -/
theorem View.Sound.makeAndRemoveDir {w : View} (sound : w.Sound fun _ => True) {path : Path}
    {p : CInt} {x : List Byte} (names : Names w.volume path p x)
    (new : ∀ m, ¬ w.volume.tree.Refers p x m) (free : w.volume.HasFreeInode)
    {r : Fin numOfDirectBlockPtr × Option (Fin numOfDirentPerBlock)}
    (room : w.volume.room p = some r) : ∃ w', Yields (makeAndRemoveDir path) w none w' ∧
      (w.volume.Undone w'.volume p ↔ w.volume.KeepsBlocks p) := by
  obtain ⟨w₁, make, sound₁, volume₁, _, created⟩ := sound.makeDir names new free room
  have dirMade := Volume.dirMade_makeDir sound.consistent sound.freeBlank names.dir room free
    names.good new
  have unused := (Volume.freeInodeNum_spec free).2
  have parent : p ≠ w.volume.freeInodeNum := by
    intro same
    rw [← same, names.dir.1] at unused
    cases unused
  rw [← volume₁] at dirMade
  have dir : w₁.volume.tree.dir w.volume.freeInodeNum := by
    rw [dirMade.tree]
    exact Or.inl rfl
  have special : ∀ y m, w₁.volume.tree.Refers w.volume.freeInodeNum y m → y = dot ∨ y = dotDot := by
    intro y m refers
    rw [dirMade.tree, DirTree.refers_toDir_self] at refers
    obtain ⟨s, entry⟩ := refers
    exact (Volume.newSlots_special entry).imp (·.2.1) (·.2.1)
  obtain ⟨w₂, e, remove, sound₂, entry, volume₂, _, removed⟩ :=
    sound₁.removeDir (created.names names) created.new dir special
  -- the entry is found where it was made
  have made : w₁.volume.tree.slot p (w.volume.makeRoom p r).2 =
      some (x, w.volume.freeInodeNum) := by
    rw [dirMade.tree, DirTree.slot_toDir_of_ne parent]
    exact DirTree.slot_addFile.mpr (Or.inl ⟨rfl, rfl, rfl, rfl⟩)
  obtain rfl := sound₁.consistent.tree.distinct entry made
  refine ⟨w₂, make.bind remove,
    Volume.undone_iff sound.consistent sound.freeBlank names.dir room free
    names.good new (volume₂.trans (by rw [volume₁])) sound₂.consistent sound₂.freeBlank ?_⟩
  rw [removed.used, dirMade.used, update_idem, ← unused, update_eq_self]

/-- The block of the root holds only its reference to itself, under the number 0. -/
theorem Volume.formatted_not_keepsBlocks : ¬ formatted.KeepsBlocks 0#32 := by
  rintro ⟨k, first, last⟩
  have zero : k = 0 := by
    by_contra other
    refine (first 0 (Fin.pos_of_ne_zero other)).2 1 ?_
    rw [entry_formatted, if_neg (by decide)]
  rw [zero, ptr_formatted, update_self] at last
  rcases last with null | ⟨_, j, nonzero⟩
  · exact absurd null (by decide)
  · rw [entry_formatted] at nonzero
    split_ifs at nonzero <;> exact nonzero rfl

end KwHomework
