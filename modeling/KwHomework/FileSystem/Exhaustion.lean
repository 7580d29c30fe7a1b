import KwHomework.FileSystem.Failures
import Mathlib.Data.Fintype.Card

/-!
# Running out

`CreateFile` and `MakeDir` write nothing before they have a slot for the entry.  What else they need
they take afterwards, and they do not look whether they got it.
-/

namespace KwHomework

open Function FS

/-- A call that makes a new entry. -/
inductive NewCall where
  | createFile
  | makeDir

/-- The path names a new entry of the directory `inode`, under a proper name.  The components are
those that the code sees. -/
structure NamesNew (s : FileSys) (path : Path) (inode : Inode) : Prop where
  resolves : s.disk.Resolves 0#32 path.tokens
  ends : ∃ token, s.disk.Ends path (some token) inode ∧ token.length ≤ 11 ∧
    token.head? ≠ some 46#8 ∧ s.disk.NoEntry inode (nameMatches (cString token))

namespace NewCall

/-- The call returns -1 and leaves no trace. -/
def FailsClean (path : Path) (s : FileSys) : NewCall → Prop
  | createFile => KwHomework.FailsClean (FS.createFile path) (· = -1) s
  | makeDir => KwHomework.FailsClean (FS.makeDir path) (· = some (-1)) s

/-- The directory has no slot left: no free entry, and for `MakeDir` no null pointer. -/
def NoSlot (s : FileSys) (inode : Inode) : NewCall → Prop
  | createFile => s.disk.NoEntry inode isFree
  | makeDir => (∀ k, inode.dirBlockPtr k ≠ 0#32) ∧ s.disk.NoEntry inode isFree

/-- No inode is free, no slot can be found or added, or no descriptor is left for the file. -/
def Exhausted (s : FileSys) (inode : Inode) : NewCall → Prop
  | createFile => ¬ s.view.volume.HasFreeInode ∨ s.disk.NoEntry inode isFree ∨
      ∀ i, (s.pFileDesc i).bUsed = true
  | makeDir => ¬ s.view.volume.HasFreeInode ∨ s.disk.NoEntry inode isFree ∧
      ((∀ k, inode.dirBlockPtr k ≠ 0#32) ∨
        ∀ b : CInt, b.toNat < 512 → s.view.volume.blockUsed b = true)

end NewCall

private theorem NewCall.failsClean_iff {call : NewCall} {path : Path} {s : FileSys} :
    call.FailsClean path s ↔
      ∃ last inode, s.disk.Ends path last inode ∧ call.NoSlot s inode := by
  cases call with
  | createFile => exact failsClean_createFile_iff
  | makeDir => exact failsClean_makeDir_iff

private theorem NamesNew.failsClean_iff {call : NewCall} {path : Path} {s : FileSys} {inode : Inode}
    (names : NamesNew s path inode) : call.FailsClean path s ↔ call.NoSlot s inode := by
  obtain ⟨token, ends, _⟩ := names.ends
  rw [NewCall.failsClean_iff]
  constructor
  · rintro ⟨last, inode', ends', full⟩
    rwa [(ends.unique ends').2]
  · intro full
    exact ⟨some token, inode, ends, full⟩

/-- When something has run out, the call returns -1 and leaves no trace exactly when it is a slot
that has run out. -/
theorem failsClean_exhausted_iff (call : NewCall) (path : Path) (s : FileSys) :
    (∀ inode, NamesNew s path inode → call.Exhausted s inode → call.FailsClean path s) ↔
      ∀ inode, NamesNew s path inode → call.Exhausted s inode → call.NoSlot s inode :=
  forall_congr' fun _ => imp_congr_right fun names => imp_congr_right fun _ => names.failsClean_iff

/-! ## All descriptors in use -/

/-- The number of descriptors in use. -/
def View.usedCount (w : View) : Nat :=
  (Finset.univ.filter fun i => (w.pFileDesc i).bUsed = true).card

/-- When all 64 are counted, all are used. -/
theorem View.used_of_count {w : View} (all : 64 ≤ w.usedCount) (i : Fin maxFdEntryMax) :
    (w.pFileDesc i).bUsed = true := by
  have full : Finset.univ.filter (fun i => (w.pFileDesc i).bUsed = true) = Finset.univ :=
    Finset.eq_univ_of_card _ (Nat.le_antisymm (Finset.card_le_univ _)
      (by rw [Fintype.card_fin]; exact all))
  have member : i ∈ Finset.univ.filter fun i => (w.pFileDesc i).bUsed = true := by
    rw [full]
    exact Finset.mem_univ i
  exact (Finset.mem_filter.mp member).2

/-- Opening an inode takes one more descriptor, as long as there is one. -/
theorem View.usedCount_openAt (w : View) (n : CInt) :
    64 ≤ w.usedCount ∨
      ({ w with pFileDesc := (openAt w.pFileDesc n).2 } : View).usedCount = w.usedCount + 1 := by
  cases free : firstUnused w.pFileDesc with
  | none =>
      have used : ∀ i, (w.pFileDesc i).bUsed = true := by simpa [firstUnused] using free
      refine Or.inl ?_
      rw [usedCount, Finset.filter_true_of_mem fun i _ => used i, Finset.card_univ,
        Fintype.card_fin]
  | some j =>
      have unused : (w.pFileDesc j).bUsed = false := by simpa using List.find?_some free
      refine Or.inr ?_
      have insert : Finset.univ.filter (fun i =>
          (((openAt w.pFileDesc n).2) i).bUsed = true) =
          insert j (Finset.univ.filter fun i => (w.pFileDesc i).bUsed = true) := by
        ext i
        rw [openAt, free]
        by_cases same : i = j
        · simp [same]
        · simp [same]
      rw [usedCount, insert, Finset.card_insert_of_notMem (by simp [unused]), usedCount]

theorem Reachable.exists_allUsed {s : FileSys} (reachable : Reachable Formatted Call.Proper s)
    {path : Path} {p n : CInt} {x : List Byte} (names : Names s.view.volume path p x)
    (refers : s.view.volume.tree.Refers p x n) (file : s.view.volume.IsFile n) :
    ∃ s', Reachable Formatted Call.Proper s' ∧ s'.view.volume = s.view.volume ∧
      ∀ i, (s'.pFileDesc i).bUsed = true := by
  have opens : ∀ k, ∃ s', Reachable Formatted Call.Proper s' ∧ s'.view.volume = s.view.volume ∧
      (64 ≤ s'.view.usedCount ∨ k ≤ s'.view.usedCount) := by
    intro k
    induction k with
    | zero => exact ⟨s, reachable, rfl, Or.inr (Nat.zero_le _)⟩
    | succ k induction =>
        obtain ⟨s', reachable', volume, full | count⟩ := induction
        · exact ⟨s', reachable', volume, Or.inl full⟩
        · rw [← volume] at names refers file
          obtain ⟨yields, _⟩ :=
            (sound_of_proper reachable').openFile names refers trivial file
          obtain ⟨s'', run, view⟩ := yields.effect s' rfl
          rcases s'.view.usedCount_openAt n with full | more
          · exact ⟨s', reachable', volume, Or.inl full⟩
          · refine ⟨s'', reachable'.call (c := .openFile path) ⟨p, x, n, names, refers, file⟩ run,
              ?_, Or.inr ?_⟩
            · rw [view, volume]
            · rw [view, more]
              omega
  obtain ⟨s', reachable', volume, full⟩ := opens 64
  exact ⟨s', reachable', volume, View.used_of_count (full.elim id id)⟩

theorem namesNew_pathB {s : FileSys} (sound : s.view.Sound fun _ => True)
    (root : s.view.volume.IsDir 0#32) (new : ∀ m, ¬ s.view.volume.tree.Refers 0#32 [98#8] m) :
    NamesNew s pathB (s.view.volume.inode 0#32) := by
  obtain ⟨read, missing⟩ := sound.missing root new (by decide) (by decide)
  constructor
  · rw [tokens_pathB]
    exact ⟨_, read, root.2⟩
  · refine ⟨[98#8], ⟨0#32, ?_, read⟩, by decide, by decide, missing⟩
    rw [tokens_pathB]
    rfl

/-- After `/a` was made on a formatted disk, the root still has a free slot. -/
theorem Volume.formatted_moreRoom {s : Slot} (slot : formatted.freeSlot 0#32 = some s) (n : CInt) :
    ((formatted.putEntry 0#32 s n [97#8]).newFile n).freeSlot 0#32 ≠ none := by
  have holds : formatted.ptr (0#32, s.1) ≠ 0#32 := (firstSlot_eq_some slot).1
  obtain ⟨e, other, same⟩ : ∃ e : Slot, e ≠ s ∧ (e = (0, 1) ∨ e = (0, 2)) := by
    by_cases first : s = (0, 1)
    · exact ⟨(0, 2), by rw [first]; decide, Or.inr rfl⟩
    · exact ⟨(0, 1), fun same => first same.symm, Or.inl rfl⟩
  have blocks := consistent_formatted.blocks
  have pointer : formatted.ptr (0#32, e.1) = 7#32 := by
    rw [ptr_formatted]
    rcases same with rfl | rfl <;> exact update_self _ _ _
  have empty : (formatted.entry 0#32 e).name = [] := by
    rcases same with rfl | rfl <;> rw [entry_formatted, if_neg (by decide)]
  have spells : Spells (cString [97#8]) [97#8] := spells_cString (by decide)
  have placed := (formatted.block (formatted.ptr (0#32, s.1))).entryAt_setEntry s.2 n spells
    (by decide)
  intro full
  have taken := firstSlot_eq_none_iff.mp full e ?_
  · rw [entry_newFile, putEntry, entry_fill blocks holds placed,
      if_neg fun both => other both.2] at taken
    exact of_decide_eq_false taken empty
  · change ((formatted.putEntry 0#32 s n [97#8]).newFile n).ptr (0#32, e.1) ≠ 0#32
    rw [ptr_newFile]
    change formatted.ptr (0#32, e.1) ≠ 0#32
    rw [pointer]
    decide

/-- `CreateFile("/b")` with all descriptors in use makes the file and fails. -/
theorem createFile_no_descriptor : ∃ s, Reachable Formatted Call.Proper s ∧ ∃ inode,
    NamesNew s pathB inode ∧ NewCall.createFile.Exhausted s inode ∧
      ¬ NewCall.createFile.FailsClean pathB s := by
  obtain ⟨s₀, here⟩ := exists_formatted
  have start : Reachable Formatted Call.Proper s₀ := .start here
  obtain ⟨n, s₁, run₁, made⟩ := exists_createdA here
  obtain ⟨e, slot, volume₁⟩ := made.volume
  have names : Names s₁.view.volume pathA 0#32 [97#8] :=
    made.created.names (Volume.names_pathA Volume.formatted_isDir)
  have reachable₁ := start.call (c := .createFile pathA) (here.view ▸ wellFormed_pathA.2.1)
    (by rw [Call.code, effect, exec_bind, run₁]; rfl)
  have file : s₁.view.volume.IsFile n := by
    rw [volume₁]
    simp [Volume.IsFile, Volume.newFile]
  obtain ⟨s, reachable, volume, used⟩ := reachable₁.exists_allUsed names made.created.new file
  have sound := sound_of_proper reachable
  have root : s.view.volume.IsDir 0#32 := volume ▸ names.dir
  have newB : ∀ m, ¬ s.view.volume.tree.Refers 0#32 [98#8] m := by
    rw [volume]
    intro m refers
    rcases (made.created.refers 0#32 [98#8] m (by decide) (by decide)).mp refers with same | old
    · exact absurd same.2.1 (by decide)
    · exact Volume.formatted_new (by decide) 0#32 m old
  have namesB := namesNew_pathB sound root newB
  refine ⟨s, reachable, _, namesB, Or.inr (Or.inr used), fun clean => ?_⟩
  have full := (noEntry_isFree_iff sound.consistent.blocks).mp (namesB.failsClean_iff.mp clean)
  rw [volume, volume₁] at full
  exact Volume.formatted_moreRoom slot _ full

end KwHomework
