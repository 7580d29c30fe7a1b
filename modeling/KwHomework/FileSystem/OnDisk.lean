import KwHomework.FileSystem.Format

/-!
# What the disk says between calls

In every state of a run of well-formed calls the two bitmaps, the inode table and the directories
agree with one another.
-/

namespace KwHomework

open Function FS

namespace Volume

/-- A slot of an allocated directory holds an entry other than `.` and `..`, for inode `n`. -/
def Live (v : Volume) (d : CInt) (s : Slot) (n : CInt) : Prop :=
  v.Occupied d s ∧ (v.entry d s).name ≠ dot ∧ (v.entry d s).name ≠ dotDot ∧
    (v.entry d s).inodeNum = n

/-- The metadata on the disk agrees with itself. -/
structure OnDisk (v : Volume) : Prop where
  reserved : ∀ b : CInt, b.toNat < 7 → v.blockUsed b = true
  block_iff : ∀ b, DataBlock b → (v.blockUsed b = true ↔
    ∃! o : CInt × Fin numOfDirectBlockPtr, v.inodeUsed o.1 = true ∧ v.ptr o = b)
  ptr_data : ∀ n k, v.inodeUsed n = true → v.ptr (n, k) ≠ 0#32 → DataBlock (v.ptr (n, k))
  free_blank : ∀ n, v.inodeUsed n = false → ∀ k, v.ptr (n, k) = 0#32
  inode_iff : ∀ n, n ≠ 0#32 → (v.inodeUsed n = true ↔ ∃! o : CInt × Slot, v.Live o.1 o.2 n)
  root : v.IsDir 0#32
  /-- `.` names the directory itself, and `..` the directory that holds it. -/
  special : ∀ d, v.IsDir d → d ≠ 0#32 → v.entry d (0, 0) = ⟨dot, d⟩ ∧
    ∃ p s, v.entry d (0, 1) = ⟨dotDot, p⟩ ∧ v.Live p s d

theorem live_iff {v : Volume} {d n : CInt} {s : Slot} :
    v.Live d s n ↔ ∃ x, x ≠ dot ∧ x ≠ dotDot ∧ v.tree.slot d s = some (x, n) := by
  constructor
  · rintro ⟨⟨dir, holds, live⟩, notDot, notDotDot, rfl⟩
    exact ⟨_, notDot, notDotDot, slot_eq_some.mpr ⟨dir, holds, live, rfl⟩⟩
  · rintro ⟨x, notDot, notDotDot, entry⟩
    obtain ⟨dir, holds, live, same⟩ := slot_eq_some.mp entry
    refine ⟨⟨dir, holds, ?_⟩, ?_, ?_, ?_⟩ <;> rw [same] <;> assumption

private theorem Consistent.onDisk {v : Volume} (ok : v.Consistent) (blank : v.FreeBlank) :
    v.OnDisk := by
  have owner_used : ∀ o : CInt × Fin numOfDirectBlockPtr, v.ptr o ≠ 0#32 →
      v.inodeUsed o.1 = true := by
    rintro ⟨n, k⟩ holds
    by_contra unused
    exact holds (blank n (by simpa using unused) k)
  refine ⟨ok.blocks.reserved, fun b data => ?_, fun n k _ holds => ok.blocks.dataBlock holds, blank,
    fun n notRoot => ?_, ok.tree.root_dir, fun d dir notRoot => ?_⟩
  · have notNull : b ≠ 0#32 := fun null => zero_notMem_pool (null ▸ data)
    rw [ok.blocks.owned.used_iff b data]
    constructor
    · rintro ⟨o, same⟩
      refine ⟨o, ⟨owner_used o (same ▸ notNull), same⟩, fun o' here => ?_⟩
      exact ok.blocks.owned.injective o' o (here.2 ▸ notNull) (here.2.trans same.symm)
    · rintro ⟨o, ⟨_, same⟩, _⟩
      exact ⟨o, same⟩
  · constructor
    · intro used
      obtain ⟨d, x, notDot, notDotDot, s, entry⟩ := ok.tree.named used notRoot
      refine ⟨(d, s), live_iff.mpr ⟨x, notDot, notDotDot, entry⟩, ?_⟩
      rintro ⟨d', s'⟩ live
      obtain ⟨x', notDot', notDotDot', entry'⟩ := live_iff.mp live
      obtain ⟨rfl, rfl⟩ := ok.tree.unique entry' notDot' notDotDot' entry notDot notDotDot
      rfl
    · rintro ⟨⟨d, s⟩, live, _⟩
      obtain ⟨x, _, _, entry⟩ := live_iff.mp live
      exact ok.tree.used_target entry
  · obtain ⟨self, p, parent⟩ := ok.home d dir notRoot
    obtain ⟨x, notDot, notDotDot, s, refers⟩ := ok.tree.dotDot_parent parent
    exact ⟨(slot_eq_some.mp self).2.2.2, p, s, (slot_eq_some.mp parent).2.2.2,
      live_iff.mpr ⟨x, notDot, notDotDot, refers⟩⟩

end Volume

/-- In every state of a run of well-formed calls on a formatted disk the metadata agrees. -/
theorem onDisk_of_run {s : FileSys} (reachable : Reachable Formatted Call.WellFormed s) :
    s.view.volume.OnDisk :=
  (sound_of_wellFormed reachable).consistent.onDisk (sound_of_wellFormed reachable).freeBlank

/-- A run that makes the directory `/a`. -/
theorem onDisk_of_run_makeDir : ∃ s, Reachable Formatted Call.WellFormed s ∧
    s.view.volume.OnDisk := by
  obtain ⟨s, here⟩ := exists_formatted
  have fine : (Call.makeDir pathA).WellFormed s.view := here.view ▸ wellFormed_pathA.1
  obtain ⟨w', yields, _⟩ := (sound_of_wellFormed (.start here)).step fine
  obtain ⟨s', run, _⟩ := yields s rfl
  have reachable : Reachable Formatted Call.WellFormed s' := .call (.start here) fine run
  exact ⟨s', reachable, onDisk_of_run reachable⟩

end KwHomework
