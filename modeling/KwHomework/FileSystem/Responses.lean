import KwHomework.FileSystem.Listing
import KwHomework.FileSystem.Failures
import KwHomework.FileSystem.OnDisk
import KwHomework.Simulation.Trace

/-!
# The responses of the calls

A session is a run of well-formed calls with what each of them returns and stores for its caller.
What `EnumerateDirStatus` and `GetFileStatus` return is read off the tree here.
-/

namespace KwHomework

open Function FS

/-- What a call returns and stores for its caller. -/
inductive Response where
  | value (r : CInt)
  /-- `none` stands for the value of a function that falls off its end. -/
  | returned (r : Option CInt)
  | data (r : CInt) (pBuffer : List Byte)
  | listing (r : CInt) (pDirEntry : List DirEntryInfo)
  | status (r : Option CInt) (pStatus : Option Inode)

/-- The call with its response. -/
def Call.respond : Call → FS Response
  | .createFile path => do return .value (← FS.createFile path)
  | .openFile path => do return .value (← FS.openFile path)
  | .writeFile fd buffer length => do return .value (← FS.writeFile fd buffer length)
  | .readFile fd length => do
      let r ← FS.readFile fd length
      return .data r.1 r.2
  | .closeFile fd => do
      FS.closeFile fd
      return .returned none
  | .removeFile path => do return .value (← FS.removeFile path)
  | .makeDir path => do return .returned (← FS.makeDir path)
  | .removeDir path => do return .returned (← FS.removeDir path)
  | .enumerateDirStatus path count => do
      let r ← FS.enumerateDirStatus path count
      return .listing r.1 r.2
  | .getFileStatus path => do
      let r ← FS.getFileStatus path
      return .status r.1 r.2
  | .sync => do
      FS.sync
      return .returned none

theorem exists_response {c : Call} {s s' : FileSys} (run : exec c.code s = some ((), s')) :
    ∃ r, exec c.respond s = some (r, s') := by
  cases c with
  | closeFile fd => exact ⟨_, by
    rw [Call.respond, exec_bind, show exec (FS.closeFile fd) s = _ from run]; rfl⟩
  | sync => exact ⟨_, by rw [Call.respond, exec_bind, show exec FS.sync s = _ from run]; rfl⟩
  | _ =>
      obtain ⟨r, first⟩ := exec_of_effect run
      exact ⟨_, by rw [Call.respond, exec_bind, first]; rfl⟩

/-- A well-formed call and its response. -/
def Serves (s : FileSys) (event : Call × Response) (s' : FileSys) : Prop :=
  event.1.WellFormed s.view ∧ exec event.1.respond s = some (event.2, s')

/-! ## Reading the metadata -/

section Status

variable {offsets : CInt → Prop} {w : View} (sound : w.Sound offsets) {path : Path} {p : CInt}
  {x : List Byte} {dirs : List (List Byte)} (tokens : path.tokens = dirs ++ [x])
  (leads : w.volume.tree.Leads 0#32 dirs p) (dir : w.volume.IsDir p)

include sound tokens leads dir

/-- `GetFileStatus` copies the inode of the entry, if there is one. -/
theorem View.Sound.yields_getFileStatus : Yields (FS.getFileStatus path) w
    ((w.volume.lookup p x).elim (some (-1), none) fun s =>
      (none, some (w.volume.inode (w.volume.entry p s).inodeNum))) w := by
  obtain ⟨named, string⟩ := path.tokens_spec x (by simp [tokens])
  have popped : w.pop = w := drop_of_zero sound.zero 1
  have find := yields_findName sound.consistent.searchable dir (spells_sprintf (w.heap 0) string)
  have malloc := KwHomework.yields_malloc w
  rw [popped] at malloc
  refine malloc.bind ?_
  refine (yields_getDirPos sound.consistent.searchable tokens leads _).bind ?_
  refine (yields_getInode w (sound.consistent.used_valid p dir.1)).bind ?_
  refine find.bind ?_
  cases found : w.volume.lookup p x with
  | none => exact .pure _ w
  | some s =>
      have entry := Volume.slot_of_lookup dir named found
      have valid := sound.consistent.used_valid _ (sound.consistent.tree.used_target entry)
      exact (yields_getInode w valid).bind (.pure _ w)

end Status

namespace Store

variable {disk : Store}

theorem inodeOf_eq {n : CInt} (valid : ValidInode n) : disk.inodeOf n = disk.volume.inode n :=
  (if_pos valid).symm

theorem slotEntry_eq (ok : disk.volume.Consistent) {n : CInt} (valid : ValidInode n) {s : Slot}
    (holds : (disk.inodeOf n).dirBlockPtr s.1 ≠ 0#32) :
    disk.slotEntry n s = disk.volume.entry n s := by
  have pointer : (disk.inodeOf n).dirBlockPtr s.1 = disk.volume.ptr (n, s.1) := by
    rw [inodeOf_eq valid]
    rfl
  rw [pointer] at holds
  have block : disk.volume.block (disk.volume.ptr (n, s.1)) = disk (disk.volume.ptr (n, s.1)) :=
    if_pos (ok.blocks.dataBlock holds)
  rw [slotEntry, pointer, Volume.entry, block]

theorem legible_of_isDir (ok : disk.volume.Consistent) {n : CInt} (dir : disk.volume.IsDir n) :
    disk.Legible n := by
  have valid := ok.used_valid n dir.1
  have pointer : ∀ k, (disk.inodeOf n).dirBlockPtr k = disk.volume.ptr (n, k) := fun k => by
    rw [inodeOf_eq valid]
    rfl
  refine ⟨fun k holds => ?_, fun s holds => ?_, fun s holds live => ?_⟩
  · rw [pointer] at holds ⊢
    exact (ok.blocks.dataBlock holds).nonneg
  · rw [slotEntry_eq ok valid holds]
    exact (ok.names n s dir (pointer s.1 ▸ holds)).1
  · rw [slotEntry_eq ok valid holds] at live ⊢
    have entry : disk.volume.tree.slot n s = some ((disk.volume.entry n s).name,
        (disk.volume.entry n s).inodeNum) :=
      Volume.slot_eq_some.mpr ⟨dir, pointer s.1 ▸ holds, live, rfl⟩
    exact ok.used_valid _ (ok.tree.used_target entry)

/-- The live entries are the references that the directory holds. -/
theorem mem_liveEntries_iff (ok : disk.volume.Consistent) {n : CInt} (dir : disk.volume.IsDir n)
    {e : Block.Entry} :
    e ∈ disk.liveEntries n ↔ disk.volume.tree.Refers n e.name e.inodeNum := by
  have valid := ok.used_valid n dir.1
  have pointer : ∀ k, (disk.inodeOf n).dirBlockPtr k = disk.volume.ptr (n, k) := fun k => by
    rw [inodeOf_eq valid]
    rfl
  simp only [liveEntries, List.mem_flatMap, List.mem_finRange, true_and, liveEntriesIn]
  constructor
  · rintro ⟨k, member⟩
    split_ifs at member with holds
    · obtain ⟨listed, live⟩ := List.mem_filter.mp member
      obtain ⟨j, _, rfl⟩ := List.mem_map.mp listed
      rw [slotEntry_eq ok valid (s := (k, j)) holds] at live ⊢
      exact ⟨(k, j), Volume.slot_eq_some.mpr ⟨dir, pointer k ▸ holds, of_decide_eq_true live, rfl⟩⟩
    · cases member
  · rintro ⟨s, entry⟩
    obtain ⟨_, holds, live, same⟩ := Volume.slot_eq_some.mp entry
    have holds' : (disk.inodeOf n).dirBlockPtr s.1 ≠ 0#32 := by rwa [pointer]
    refine ⟨s.1, ?_⟩
    rw [if_pos holds']
    refine List.mem_filter.mpr ⟨List.mem_map.mpr ⟨s.2, List.mem_finRange _, ?_⟩, by
      simpa using live⟩
    rw [slotEntry_eq ok valid (s := (s.1, s.2)) holds']
    exact same

/-- Two live entries of a directory have different names. -/
theorem pairwise_liveEntries (ok : disk.volume.Consistent) {n : CInt} (dir : disk.volume.IsDir n) :
    (disk.liveEntries n).Pairwise fun e e' => e.name ≠ e'.name := by
  have valid := ok.used_valid n dir.1
  have apart : ∀ s s' : Slot, s ≠ s' → (disk.inodeOf n).dirBlockPtr s.1 ≠ 0#32 →
      (disk.inodeOf n).dirBlockPtr s'.1 ≠ 0#32 → (disk.slotEntry n s).name ≠ [] →
      (disk.slotEntry n s).name ≠ (disk.slotEntry n s').name := by
    intro s s' other holds holds' live same
    have pointer : ∀ k, (disk.inodeOf n).dirBlockPtr k = disk.volume.ptr (n, k) := fun k => by
      rw [inodeOf_eq valid]
      rfl
    rw [slotEntry_eq ok valid holds] at live same
    rw [slotEntry_eq ok valid holds'] at same
    have entry : disk.volume.tree.slot n s = some ((disk.volume.entry n s).name,
        (disk.volume.entry n s).inodeNum) :=
      Volume.slot_eq_some.mpr ⟨dir, pointer s.1 ▸ holds, live, rfl⟩
    have entry' : disk.volume.tree.slot n s' = some ((disk.volume.entry n s).name,
        (disk.volume.entry n s').inodeNum) :=
      Volume.slot_eq_some.mpr ⟨dir, pointer s'.1 ▸ holds', live, by rw [same]⟩
    exact other (ok.tree.distinct entry entry')
  rw [liveEntries, List.pairwise_flatMap]
  constructor
  · intro k _
    rw [liveEntriesIn]
    split_ifs with holds
    · rw [List.pairwise_filter, List.pairwise_map]
      refine (List.nodup_finRange numOfDirentPerBlock).imp fun {j j'} other live _ => ?_
      exact apart (k, j) (k, j') (fun same => other (Prod.mk.inj same).2) holds holds
        (of_decide_eq_true live)
    · exact .nil
  · refine (List.nodup_finRange numOfDirectBlockPtr).imp fun {k k'} other e member e' member' => ?_
    rw [liveEntriesIn] at member member'
    split_ifs at member with holds
    · split_ifs at member' with holds'
      · obtain ⟨listed, live⟩ := List.mem_filter.mp member
        obtain ⟨j, _, rfl⟩ := List.mem_map.mp listed
        obtain ⟨j', _, rfl⟩ := List.mem_map.mp (List.mem_filter.mp member').1
        exact apart (k, j) (k', j') (fun same => other (Prod.mk.inj same).1) holds holds'
          (of_decide_eq_true live)
      · cases member'
    · cases member

end Store

section Listing

variable {offsets : CInt → Prop} {s : FileSys} (sound : s.view.Sound offsets) {path : Path}
  {p n : CInt} {x : List Byte} {dirs : List (List Byte)} (tokens : path.tokens = dirs ++ [x])
  (leads : s.view.volume.tree.Leads 0#32 dirs p) (refers : s.view.volume.tree.Refers p x n)
  (dir : s.view.volume.IsDir n)

include sound tokens leads refers dir

/-- `EnumerateDirStatus` lists the live entries until the array is full. -/
theorem View.Sound.exec_enumerateDirStatus {dirEntrys : CInt} (capacity : dirEntrys ≠ 0#32) :
    ∃ listed s', exec (FS.enumerateDirStatus path dirEntrys) s =
        some ((BitVec.ofNat 32 listed.length, listed), s') ∧ s'.view = s.view ∧
      listed = ((s.disk.liveEntries n).take dirEntrys.toNat).map s.disk.record := by
  obtain ⟨slot, entry⟩ := refers
  obtain ⟨parent, _, _, same⟩ := Volume.slot_eq_some.mp entry
  have ok := sound.consistent
  have string := (path.tokens_spec x (by simp [tokens])).2
  have target : (s.view.volume.block (s.view.volume.ptr (p, slot.1))).entryInode slot.2 = n :=
    congrArg Block.Entry.inodeNum same
  -- after `malloc` the view is as before, and what follows only reads
  let s' : FileSys := { s with heap := fun n => s.heap (n + 1) }
  have view' : s'.view = s.view := View.drop_of_zero sound.zero 1
  have walk := (reads_getDirPos path (s.heap 0)).value (s := s')
    (view' ▸ yields_getDirPos ok.searchable tokens leads _)
  have parentInode := (reads_getInode p).value (s := s')
    (view' ▸ yields_getInode s.view (ok.used_valid p parent.1))
  have find := (reads_scanEntries _ _).value (s := s')
    (view' ▸ yields_findName ok.searchable parent (spells_sprintf (s.heap 0) string))
  rw [view'] at parentInode find
  have curInode : s'.disk.readInode n = some (s'.disk.inodeOf n) :=
    Store.readInode_eq (ok.used_valid n dir.1)
  have room : ([] : List DirEntryInfo).length < dirEntrys.toNat :=
    Nat.pos_of_ne_zero fun zero => capacity (BitVec.eq_of_toNat_eq zero)
  have whole : ([] : List DirEntryInfo).length +
      numOfDirentPerBlock * (List.finRange numOfDirectBlockPtr).length < 2 ^ 32 := by decide
  have listing := exec_enumerateBlocks (s := s') (Store.legible_of_isDir ok dir) room whole
  rw [List.nil_append, ← List.map_take] at listing
  refine ⟨_, s', ?_, view', rfl⟩
  rw [FS.enumerateDirStatus, exec_bind, exec_malloc, Option.bind_some,
    (reads_getDirPos path _).exec_then, walk, Option.bind_some, (reads_getInode p).exec_then,
    parentInode, Option.bind_some, (reads_scanEntries _ _).exec_then, find,
    ok.searchable.lookup_of_slot entry]
  simp only [Option.map_some, Option.bind_some, target]
  rw [(reads_getInode n).exec_then, curInode, Option.bind_some, exec_bind, listing]
  rfl

end Listing
end KwHomework
