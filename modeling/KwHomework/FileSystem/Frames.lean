import KwHomework.FileSystem.Consistency

/-!
# What an operation leaves alone

`SameFile v v' m` says that inode `m` and the bytes of its blocks are the same.  The operations are
put together here from their steps: each keeps the volume consistent and leaves the other files
alone.
-/

namespace KwHomework

open Function FS

namespace Volume

variable {v v' v'' : Volume}

/-- Inode `m` and the contents of its blocks are the same. -/
structure SameFile (v v' : Volume) (m : CInt) : Prop where
  inode : v'.inode m = v.inode m
  block : ∀ k, v.ptr (m, k) ≠ 0#32 → v'.block (v.ptr (m, k)) = v.block (v.ptr (m, k))

namespace SameFile

variable {m : CInt}

theorem refl (v : Volume) (m : CInt) : SameFile v v m := ⟨rfl, fun _ _ => rfl⟩

theorem ptr (same : SameFile v v' m) (k : Fin numOfDirectBlockPtr) :
    v'.ptr (m, k) = v.ptr (m, k) := by
  rw [Volume.ptr, same.inode, Volume.ptr]

theorem trans (first : SameFile v v' m) (second : SameFile v' v'' m) : SameFile v v'' m where
  inode := second.inode.trans first.inode
  block k holds := by
    have next := second.block k (by rwa [first.ptr k])
    rw [first.ptr k] at next
    exact next.trans (first.block k holds)

theorem fill (blocks : v.BlocksOwned) {n : CInt} (other : m ≠ n) (k : Fin numOfDirectBlockPtr)
    (contents : Block) : SameFile v (v.fill (v.ptr (n, k)) contents) m where
  inode := rfl
  block l holds := by
    have apart : v.ptr (m, l) ≠ v.ptr (n, k) := fun same =>
      other (blocks.ptr_injective holds same).1
    rw [block_fill, update_of_ne apart]

private theorem setInode {n : CInt} (other : m ≠ n) (inode : Inode) :
    SameFile v (v.setInode n inode) m where
  inode := by rw [inode_setInode, update_of_ne other]
  block _ _ := rfl

private theorem markInode (n : CInt) (used : Bool) : SameFile v (v.markInode n used) m :=
  ⟨rfl, fun _ _ => rfl⟩

private theorem markBlock (b : CInt) (used : Bool) : SameFile v (v.markBlock b used) m :=
  ⟨rfl, fun _ _ => rfl⟩

private theorem unassign {n : CInt} (other : m ≠ n) (k : Fin numOfDirectBlockPtr) :
    SameFile v (v.unassign n k) m :=
  (setInode other _).trans (markBlock _ false)

private theorem newFile {n : CInt} (other : m ≠ n) : SameFile v (v.newFile n) m :=
  (setInode other _).trans (markInode n true)

private theorem release {n : CInt} (other : m ≠ n) : SameFile v (v.release n) m where
  inode := inode_release_of_ne n other
  block k _ := by rw [block_release]

private theorem shrink {n : CInt} (other : m ≠ n) (k : Fin numOfDirectBlockPtr) :
    SameFile v (v.shrink n k) m := by
  rw [Volume.shrink]
  split_ifs
  · exact unassign other k
  · exact refl v m

private theorem grow (blocks : v.BlocksOwned) {n : CInt} (other : m ≠ n)
    (k : Fin numOfDirectBlockPtr) :
    SameFile v (v.grow n k) m := by
  obtain ⟨data, unused⟩ := blocks.freeBlockNum
  refine ⟨by simp [Volume.grow, Volume.assign, other], fun l _ => ?_⟩
  rw [Volume.grow, block_fill, update_of_ne (blocks.owned.ptr_ne_of_unused data unused (m, l))]
  rfl

private theorem toDir (blocks : v.BlocksOwned) {n : CInt} (other : m ≠ n) (p : CInt) :
    SameFile v (v.toDir n p) m := by
  obtain ⟨data, unused⟩ := blocks.freeBlockNum
  refine ⟨by simp [Volume.toDir, other], fun l _ => ?_⟩
  rw [Volume.toDir, block_fill, update_of_ne (blocks.owned.ptr_ne_of_unused data unused (m, l))]
  rfl

private theorem writeStep {acc : Volume × CInt} (blocks : acc.1.BlocksOwned) {n : CInt}
    (other : m ≠ n) (pBuffer : Chunk) (k : Fin numOfDirectBlockPtr) :
    SameFile acc.1 (Volume.writeStep n pBuffer acc k).1 m := by
  rw [Volume.writeStep]
  split_ifs with empty
  · obtain ⟨data, unused⟩ := blocks.freeBlockNum
    have pointer : (acc.1.assign n k acc.1.freeBlockNum).ptr (n, k) = acc.1.freeBlockNum := by
      rw [ptr_assign, update_self]
    simp only [pointer]
    refine ⟨by simp [Volume.assign, other], fun l _ => ?_⟩
    rw [block_fill, update_of_ne (blocks.owned.ptr_ne_of_unused data unused (m, l))]
    rfl
  · exact fill blocks other k _

/-- `WriteFile` leaves every other inode and its blocks alone. -/
theorem write (blocks : v.BlocksOwned) {n : CInt} (valid : ValidInode n) (other : m ≠ n)
    (pBuffer : Chunk) (ks : List (Fin numOfDirectBlockPtr)) :
    SameFile v (v.write n pBuffer ks).1 m := by
  suffices steps : ∀ (acc : Volume × CInt), acc.1.BlocksOwned →
      SameFile acc.1 (ks.foldl (Volume.writeStep n pBuffer) acc).1 m from steps (v, 0#32) blocks
  induction ks with
  | nil => exact fun acc _ => refl acc.1 m
  | cons k ks induction =>
      intro acc blocks
      exact (writeStep blocks other pBuffer k).trans
        (induction _ (blocks.writeStep valid pBuffer k))

end SameFile

/-! ## Free inodes stay blank -/

namespace FreeBlank

theorem newFile (blank : v.FreeBlank) (n : CInt) : (v.newFile n).FreeBlank := by
  intro m unused k
  rw [ptr_newFile]
  refine blank m ?_ k
  by_cases same : m = n
  · simp [Volume.newFile, same] at unused
  · simpa [Volume.newFile, same] using unused

theorem grow (blank : v.FreeBlank) {p : CInt} (used : v.inodeUsed p = true)
    (k : Fin numOfDirectBlockPtr) : (v.grow p k).FreeBlank := by
  intro m unused l
  have other : (m, l) ≠ (p, k) := by
    rintro same
    obtain ⟨rfl, rfl⟩ := Prod.mk.inj same
    rw [show v.inodeUsed m = false from unused] at used
    cases used
  rw [ptr_grow, update_of_ne other]
  exact blank m unused l

theorem toDir (blank : v.FreeBlank) {n : CInt} (used : v.inodeUsed n = true)
    (empty : ∀ k, v.ptr (n, k) = 0#32) (p : CInt) : (v.toDir n p).FreeBlank := by
  intro m unused l
  have other : (m, l) ≠ (n, 0) := by
    rintro same
    obtain ⟨rfl, rfl⟩ := Prod.mk.inj same
    rw [show v.inodeUsed m = false from unused] at used
    cases used
  rw [ptr_toDir empty, update_of_ne other]
  exact blank m unused l

private theorem release (blank : v.FreeBlank) (n : CInt) : (v.release n).FreeBlank := by
  intro m unused k
  rw [ptr_release]
  split_ifs with same
  · rfl
  · refine blank m ?_ k
    simpa [show m ≠ n from same] using unused

private theorem shrink (blank : v.FreeBlank) (p : CInt) (k : Fin numOfDirectBlockPtr) :
    (v.shrink p k).FreeBlank := by
  rw [Volume.shrink]
  split_ifs
  · intro m unused l
    rw [ptr_unassign]
    by_cases same : (m, l) = (p, k)
    · rw [same, update_self]
    · rw [update_of_ne same]
      exact blank m unused l
  · exact blank

theorem write (blank : v.FreeBlank) {n : CInt} (used : v.inodeUsed n = true) (pBuffer : Chunk)
    (ks : List (Fin numOfDirectBlockPtr)) : (v.write n pBuffer ks).1.FreeBlank := by
  obtain ⟨same, inode⟩ := writeSteps_frame n pBuffer ks (v, 0#32)
  intro m unused k
  rw [Volume.write, same] at unused
  have other : m ≠ n := by
    rintro rfl
    rw [unused] at used
    cases used
  rw [Volume.write, ptr, inode m other]
  exact blank m unused k

end FreeBlank

/-! ## `MakeDir` -/

/-- A directory with a free slot, and otherwise the same tree. -/
structure HasRoom (v : Volume) (p : CInt) (v' : Volume) (s : Slot) : Prop where
  consistent : v'.Consistent
  tree : v'.tree = v.tree
  used : v'.inodeUsed = v.inodeUsed
  dir : v'.IsDir p
  holds : v'.ptr (p, s.1) ≠ 0#32
  empty : (v'.entry p s).name = []
  same : ∀ m, m ≠ p → SameFile v v' m

section MakeDir

variable {p : CInt} {x : List Byte}
  {r : Fin numOfDirectBlockPtr × Option (Fin numOfDirentPerBlock)}

theorem hasRoom_makeRoom (ok : v.Consistent) (dir : v.IsDir p) (room : v.room p = some r) :
    HasRoom v p (v.makeRoom p r).1 (v.makeRoom p r).2 := by
  obtain ⟨k, _ | j⟩ := r
  · have empty : v.ptr (p, k) = 0#32 := firstRoom_grow room
    refine ⟨ok.grow dir empty, tree_grow ok.blocks empty, rfl, (isDir_grow p).mpr dir, ?_, ?_,
      fun m other => .grow ok.blocks other k⟩
    · rw [makeRoom, ptr_grow, update_self]
      exact fun null => zero_notMem_pool (null ▸ ok.blocks.freeBlockNum.1)
    · rw [makeRoom, entry_grow ok.blocks, if_pos rfl]
  · obtain ⟨holds, empty⟩ := firstRoom_slot room
    exact ⟨ok, rfl, rfl, dir, holds, of_decide_eq_true empty, fun m _ => .refl v m⟩

theorem HasRoom.freeBlank {v₁ : Volume} {s : Slot} (hasRoom : HasRoom v p v₁ s)
    (blank : v.FreeBlank) (dir : v.IsDir p) : v₁.FreeBlank := by
  intro m unused k
  rw [hasRoom.used] at unused
  have other : m ≠ p := by
    rintro rfl
    rw [dir.1] at unused
    cases unused
  rw [(hasRoom.same m other).ptr k]
  exact blank m unused k

/-- What `MakeDir` does to a volume. -/
structure DirMade (v : Volume) (p : CInt) (s : Slot) (x : List Byte) (n : CInt) (v' : Volume) :
    Prop where
  consistent : v'.Consistent
  freeBlank : v'.FreeBlank
  tree : v'.tree = (v.tree.addFile p s x n).toDir n (newSlots n p)
  used : v'.inodeUsed = update v.inodeUsed n true
  same : ∀ m, m ≠ p → m ≠ n → SameFile v v' m

private theorem dirMade_of_hasRoom {v₁ : Volume} {s : Slot} {n : CInt} (hasRoom : HasRoom v p v₁ s)
    (blank : v.FreeBlank) (dir : v.IsDir p) (valid : ValidInode n) (unused : v.inodeUsed n = false)
    (good : GoodName x) (new : ∀ m, ¬ v.tree.Refers p x m) :
    DirMade v p s x n (((v₁.putEntry p s n x).newFile n).toDir n p) := by
  have unused₁ : v₁.inodeUsed n = false := by rwa [hasRoom.used]
  have new₁ : ∀ m, ¬ v₁.tree.Refers p x m := by rwa [hasRoom.tree]
  have blank₁ := hasRoom.freeBlank blank dir
  have ok₂ := hasRoom.consistent.newEntry hasRoom.dir hasRoom.holds hasRoom.empty valid unused₁ good
    new₁
  have tree₂ := tree_newEntry hasRoom.consistent.blocks hasRoom.dir hasRoom.holds unused₁ good.named
    good.string good.short
  have blank₂ : ((v₁.putEntry p s n x).newFile n).FreeBlank :=
    FreeBlank.newFile (v := v₁.putEntry p s n x) blank₁ n
  have file : ((v₁.putEntry p s n x).newFile n).IsFile n := by simp [IsFile, newFile]
  have empty : ∀ k, ((v₁.putEntry p s n x).newFile n).ptr (n, k) = 0#32 := by
    intro k
    rw [ptr_newFile]
    exact blank₁ n unused₁ k
  have parent : ((v₁.putEntry p s n x).newFile n).tree.Refers p x n := by
    rw [tree₂]
    exact ⟨s, DirTree.slot_addFile.mpr (Or.inl ⟨rfl, rfl, rfl, rfl⟩)⟩
  refine ⟨ok₂.toDir file empty parent good.proper, blank₂.toDir file.1 empty p, ?_, ?_,
    fun m notParent other => ?_⟩
  · rw [tree_toDir ok₂.blocks file.1 empty, tree₂, hasRoom.tree]
  · change update v₁.inodeUsed n true = _
    rw [hasRoom.used]
  · have placed : SameFile v₁ (v₁.putEntry p s n x) m :=
      .fill hasRoom.consistent.blocks notParent s.1 _
    exact (hasRoom.same m notParent).trans
      (placed.trans ((SameFile.newFile other).trans (.toDir ok₂.blocks other p)))

theorem dirMade_makeDir (ok : v.Consistent) (blank : v.FreeBlank) (dir : v.IsDir p)
    (room : v.room p = some r) (free : ∃ n, ValidInode n ∧ v.inodeUsed n = false)
    (good : GoodName x) (new : ∀ m, ¬ v.tree.Refers p x m) :
    DirMade v p (v.makeRoom p r).2 x v.freeInodeNum (v.makeDir p x r) := by
  obtain ⟨valid, unused⟩ := freeInodeNum_spec free
  exact dirMade_of_hasRoom (hasRoom_makeRoom ok dir room) blank dir valid unused good new

end MakeDir

/-! ## Creation -/

/-- What `CreateFile` and `MakeDir` do to a volume. -/
structure Created (v : Volume) (p : CInt) (x : List Byte) (n : CInt) (v' : Volume) : Prop where
  consistent : v'.Consistent
  freeBlank : v.FreeBlank → v'.FreeBlank
  refers : ∀ d y m, y ≠ dot → y ≠ dotDot →
    (v'.tree.Refers d y m ↔ (d = p ∧ y = x ∧ m = n) ∨ v.tree.Refers d y m)
  kept : ∀ d y m, v.tree.Refers d y m → v'.tree.Refers d y m
  new : v'.tree.Refers p x n
  used : v'.inodeUsed = update v.inodeUsed n true
  same : ∀ m, m ≠ p → m ≠ n → SameFile v v' m

section Created

variable {p n : CInt} {s : Slot} {x : List Byte} (unused : v.inodeUsed n = false)

include unused

private theorem not_holds (d : CInt) (y : List Byte) (m : CInt) (refers : v.tree.Refers d y m) :
    d ≠ n := by
  rintro rfl
  obtain ⟨s, entry⟩ := refers
  rw [(slot_eq_some.mp entry).1.1] at unused
  cases unused

theorem created_newEntry (ok : v.Consistent) (dir : v.IsDir p) (holds : v.ptr (p, s.1) ≠ 0#32)
    (empty : (v.entry p s).name = []) (valid : ValidInode n) (good : GoodName x)
    (new : ∀ m, ¬ v.tree.Refers p x m) : Created v p x n ((v.putEntry p s n x).newFile n) := by
  have tree := tree_newEntry ok.blocks dir holds unused good.named good.string good.short
  have free : v.tree.slot p s = none := slot_eq_none empty
  have refers := DirTree.refers_addFile (x := x) (n := n) free
  refine ⟨ok.newEntry dir holds empty valid unused good new, fun blank => ?_, fun d y m _ _ => ?_,
    fun d y m old => ?_, ?_, rfl, fun m notParent other => ?_⟩
  · exact FreeBlank.newFile (v := v.putEntry p s n x) blank n
  · rw [tree]
    exact refers d y m
  · rw [tree]
    exact (refers d y m).mpr (Or.inr old)
  · rw [tree]
    exact (refers p x n).mpr (Or.inl ⟨rfl, rfl, rfl⟩)
  · have placed : SameFile v (v.putEntry p s n x) m := .fill ok.blocks notParent s.1 _
    exact placed.trans (.newFile other)

theorem DirMade.created (made : DirMade v p s x n v') (dir : v.IsDir p)
    (free : v.tree.slot p s = none) : Created v p x n v' := by
  have apart : p ≠ n := by
    rintro rfl
    rw [dir.1] at unused
    cases unused
  have refers := DirTree.refers_addFile (x := x) (n := n) free
  have elsewhere : ∀ {d}, d ≠ n → ∀ y m, v'.tree.Refers d y m ↔
      (d = p ∧ y = x ∧ m = n) ∨ v.tree.Refers d y m := by
    intro d other y m
    rw [made.tree, DirTree.refers_toDir_of_ne other]
    exact refers d y m
  refine ⟨made.consistent, fun _ => made.freeBlank, fun d y m ne ne' => ?_, fun d y m old => ?_, ?_,
    made.used, made.same⟩
  · by_cases here : d = n
    · subst here
      rw [made.tree, DirTree.refers_toDir_self]
      refine ⟨?_, ?_⟩
      · rintro ⟨s', entry⟩
        obtain ⟨_, same, _⟩ | ⟨_, same, _⟩ := newSlots_special entry
        · exact absurd same ne
        · exact absurd same ne'
      · rintro (⟨same, _⟩ | old)
        · exact absurd same.symm apart
        · exact absurd rfl (not_holds unused d y m old)
    · exact elsewhere here y m
  · exact (elsewhere (not_holds unused d y m old) y m).mpr (Or.inr old)
  · exact (elsewhere apart x n).mpr (Or.inl ⟨rfl, rfl, rfl⟩)

omit unused in
theorem created_makeDir {r : Fin numOfDirectBlockPtr × Option (Fin numOfDirentPerBlock)}
    (ok : v.Consistent) (blank : v.FreeBlank) (dir : v.IsDir p) (room : v.room p = some r)
    (free : ∃ n, ValidInode n ∧ v.inodeUsed n = false) (good : GoodName x)
    (new : ∀ m, ¬ v.tree.Refers p x m) : Created v p x v.freeInodeNum (v.makeDir p x r) := by
  have made := dirMade_makeDir ok blank dir room free good new
  refine made.created (freeInodeNum_spec free).2 dir ?_
  have hasRoom := hasRoom_makeRoom ok dir room
  rw [← hasRoom.tree]
  exact slot_eq_none hasRoom.empty

end Created

/-! ## `RemoveDir` -/

section RemoveDir

variable {p n : CInt} {s : Slot} {x : List Byte}

/-- The two releases of `RemoveDir` may be swapped. -/
theorem release_shrink (apart : n ≠ p) (k : Fin numOfDirectBlockPtr) :
    (v.shrink p k).release n = (v.release n).shrink p k := by
  have pointer : (v.release n).ptr (p, k) = v.ptr (p, k) := by
    rw [ptr_release, if_neg (Ne.symm apart)]
  rw [shrink, shrink, pointer, block_release]
  split_ifs
  · refine Volume.ext ?_ ?_ ?_ ?_
    · simp [unassign]
    · funext b
      rw [blockUsed_release, unassign, unassign, pointer, blockUsed_markBlock, blockUsed_markBlock]
      have kept : ∀ l, (((v.setInode p ((v.inode p).withoutBlock k)).markBlock
          (v.ptr (p, k)) false).ptr (n, l)) = v.ptr (n, l) := by
        intro l
        rw [ptr_markBlock, ptr_setInode, if_neg apart]
      simp only [kept]
      by_cases here : b = v.ptr (p, k)
      · simp [here]
      · simp [here, blockUsed_release]
    · funext m
      by_cases same : m = n
      · subst same
        simp [inode_release_self, unassign, apart]
      · by_cases parent : m = p
        · subst parent
          simp [inode_release_of_ne n same, unassign]
        · simp [inode_release_of_ne n same, unassign, parent]
    · simp [unassign]
  · rfl

theorem refers_shrink (ok : v.Consistent) {k : Fin numOfDirectBlockPtr} {d : CInt}
    {y : List Byte} (ne : y ≠ dot) (m : CInt) :
    (v.shrink p k).tree.Refers d y m ↔ v.tree.Refers d y m := by
  rw [shrink]
  split_ifs with zeros
  · refine exists_congr fun s => ?_
    rw [slot_unassign]
    refine and_iff_right_of_imp fun entry same => ne ?_
    obtain ⟨rfl, rfl⟩ := Prod.mk.inj same
    exact (eq_dot_of_zero ok zeros (j := s.2) entry).1
  · rfl

private theorem refers_of_shrink {k : Fin numOfDirectBlockPtr} {d : CInt} {y : List Byte} {m : CInt}
    (left : (v.shrink p k).tree.Refers d y m) : v.tree.Refers d y m := by
  rw [shrink] at left
  split_ifs at left with zeros
  · obtain ⟨s, entry⟩ := left
    exact ⟨s, (slot_unassign.mp entry).2⟩
  · exact left

/-- What `RemoveFile` and `RemoveDir` do to a volume. -/
structure Removed (v : Volume) (p : CInt) (x : List Byte) (n : CInt) (v' : Volume) : Prop where
  consistent : v'.Consistent
  freeBlank : v.FreeBlank → v'.FreeBlank
  refers : ∀ d y m, y ≠ dot → y ≠ dotDot →
    (v'.tree.Refers d y m ↔ ¬ (d = p ∧ y = x) ∧ v.tree.Refers d y m)
  fewer : ∀ d y m, v'.tree.Refers d y m → v.tree.Refers d y m
  used : v'.inodeUsed = update v.inodeUsed n false
  same : ∀ m, m ≠ p → m ≠ n → SameFile v v' m

variable (ok : v.Consistent) (entry : v.tree.slot p s = some (x, n))
  (proper : x ≠ dot ∧ x ≠ dotDot)
  (empty : ∀ {s y m}, v.tree.slot n s = some (y, m) → y = dot ∨ y = dotDot)

include ok entry proper empty

theorem removed_release : Removed v p x n ((v.dropEntry p s).release n) := by
  obtain ⟨dir, holds, _, _⟩ := slot_eq_some.mp entry
  have refers := ok.tree.refers_remove entry
  rw [← tree_remove ok.blocks dir holds] at refers
  refine ⟨ok.remove entry proper empty, fun blank => ?_, fun d y m ne ne' => ?_,
    fun d y m left => ((refers d y m).mp left).2.2, ?_, fun m notParent other => ?_⟩
  · exact FreeBlank.release (v := v.dropEntry p s) blank n
  · rw [refers d y m]
    refine and_iff_right_of_imp ?_
    rintro ⟨_, s', entry'⟩ rfl
    exact (empty entry').elim ne ne'
  · rw [inodeUsed_release]
    rfl
  · have dropped : SameFile v (v.dropEntry p s) m := .fill ok.blocks notParent s.1 _
    exact dropped.trans (.release other)

theorem removed_removeDir : Removed v p x n (v.removeDir p s n) := by
  obtain ⟨dir, holds, _, _⟩ := slot_eq_some.mp entry
  have apart := (ok.tree.proper_ne entry proper.1 proper.2).2
  have removed := removed_release ok entry proper empty
  have holds' : ((v.dropEntry p s).release n).ptr (p, s.1) ≠ 0#32 := by
    rw [ptr_release, if_neg (Ne.symm apart)]
    exact holds
  rw [removeDir, release_shrink apart]
  refine ⟨removed.consistent.shrink holds', fun blank => (removed.freeBlank blank).shrink p s.1,
    fun d y m ne ne' => ?_, fun d y m left => ?_, ?_, fun m notParent other => ?_⟩
  · rw [refers_shrink removed.consistent ne, removed.refers d y m ne ne']
  · exact removed.fewer d y m (refers_of_shrink left)
  · rw [← removed.used]
    rw [shrink]
    split_ifs <;> rfl
  · exact (removed.same m notParent other).trans (.shrink notParent s.1)

end RemoveDir

end Volume
end KwHomework
