import KwHomework.FileSystem.Exhaustion
import KwHomework.FileSystem.OnDisk
import KwHomework.FileSystem.Undo

/-!
# Removing the wrong thing

`RemoveFile` never looks at the type of what it removes.  `RemoveDir` does not either, and takes a
directory for empty when the names of its entries start with a dot.
-/

namespace KwHomework

open Function FS

/-- The path leads through directories to an entry, and the entry to an inode. -/
structure NamesEntry (s : FileSys) (path : Path) (n : CInt) (target : Inode) : Prop where
  resolves : s.disk.Resolves 0#32 path.tokens
  entry : ∃ token inode i entries j, s.disk.Ends path (some token) inode ∧
    s.disk.scan inode (nameMatches (cString token)) = some (some (i, entries, j)) ∧
    entries.entryInode j = n
  target : s.disk.readInode n = some target

namespace Store

/-- Every slot of the directory is free or holds `.` or `..`. -/
def OnlyDots (disk : Store) (inode : Inode) : Prop :=
  ∀ k, inode.dirBlockPtr k ≠ 0#32 → ∀ j, (disk (inode.dirBlockPtr k)).nameOf j = [] ∨
    (disk (inode.dirBlockPtr k)).nameOf j = dot ∨ (disk (inode.dirBlockPtr k)).nameOf j = dotDot

/-- Some entry has a name that does not start with a dot, and no block up to it has a negative
number. -/
def ShowsEntry (disk : Store) (inode : Inode) : Prop :=
  ∃ k, inode.dirBlockPtr k ≠ 0#32 ∧
    (∃ j, isOccupied (disk (inode.dirBlockPtr k)) j = some true) ∧
    ∀ l ≤ k, inode.dirBlockPtr l ≠ 0#32 → 0 ≤ (inode.dirBlockPtr l).toInt

end Store

/-- `RemoveFile` removes the target only if it is a regular file. -/
def RemovesOnlyFiles (path : Path) (target : Inode) (s : FileSys) : Prop :=
  target.type = fileTypeFile ∨ FailsClean (removeFile path) (· = -1) s

/-- `RemoveDir` removes the target only if it is a directory without proper entries. -/
def RemovesOnlyEmptyDirs (path : Path) (target : Inode) (s : FileSys) : Prop :=
  (target.type = fileTypeDir ∧ s.disk.OnlyDots target) ∨
    FailsClean (removeDir path) (· = some (-1)) s

section Removal

variable {s : FileSys} {path : Path} {n : CInt} {target : Inode}

theorem strcmpEq_congr (memory : List Byte) : ∀ {str str' : Nat → Byte} {text : List Byte},
    Spells str text → Spells str' text → strcmpEq memory str = strcmpEq memory str' := by
  induction memory with
  | nil => exact fun _ _ => rfl
  | cons byte memory induction =>
      intro str str' text spells spells'
      have first : str 0 = str' 0 := (spells.2 0 (Nat.zero_le _)).trans
        (spells'.2 0 (Nat.zero_le _)).symm
      rw [strcmpEq, strcmpEq, first]
      by_cases same : byte = str' 0
      · by_cases zero : byte = 0#8
        · simp [zero]
        · cases text with
          | nil => exact absurd (same.trans spells'.zero_of_nil) zero
          | cons head text =>
              simp only [induction spells.tail.2.2 spells'.tail.2.2]
      · simp [same]

private theorem nameMatches_sprintf (chunk : Chunk) {token : List Byte} (string : 0#8 ∉ token) :
    nameMatches (sprintf chunk token) = nameMatches (cString token) := by
  funext entries j
  exact strcmpEq_congr _ (spells_sprintf chunk string) (spells_cString string)

theorem NamesEntry.found (names : NamesEntry s path n target) {last : Option (List Byte)}
    {inode : Inode} (ends : s.disk.Ends path last inode) (chunk : Chunk) :
    ∃ i entries j, s.disk.scan inode (nameMatches (tokenOf chunk last)) =
      some (some (i, entries, j)) ∧ entries.entryInode j = n := by
  obtain ⟨token, inode', i, entries, j, ends', scan, number⟩ := names.entry
  obtain ⟨rfl, rfl⟩ := ends.unique ends'
  obtain ⟨d, walk, _⟩ := ends
  have string := (path.tokens_spec token (Store.mem_of_walk _ walk)).2
  refine ⟨i, entries, j, ?_, number⟩
  rw [tokenOf, Option.elim_some, nameMatches_sprintf chunk string, scan]

private theorem NamesEntry.not_failsClean_removeFile (names : NamesEntry s path n target) :
    ¬ FailsClean (removeFile path) (· = -1) s := by
  rw [failsClean_removeFile_iff]
  rintro ⟨last, inode, ends, missing⟩
  obtain ⟨i, entries, j, scan, _⟩ := names.found ends (s.heap 0)
  rw [Store.scan_eq_none_iff.mpr missing] at scan
  cases scan

private theorem isOccupied_ne_none (blk : Block) (j : Fin numOfDirentPerBlock) :
    isOccupied blk j ≠ none :=
  Option.some_ne_none _

private theorem NamesEntry.failsClean_removeDir_iff (names : NamesEntry s path n target) :
    FailsClean (removeDir path) (· = some (-1)) s ↔ s.disk.ShowsEntry target := by
  rw [KwHomework.failsClean_removeDir_iff, Store.ShowsEntry,
    ← Store.exists_scan_iff isOccupied_ne_none]
  constructor
  · rintro ⟨last, inode, ends, missing | ⟨i, entries, j, dir, found, scan, read, occupied⟩⟩
    · obtain ⟨i, entries, j, scan, _⟩ := names.found ends (s.heap 0)
      rw [Store.scan_eq_none_iff.mpr missing] at scan
      cases scan
    · obtain ⟨i', entries', j', scan', number⟩ := names.found ends (s.heap 0)
      obtain ⟨rfl, rfl, rfl⟩ : i = i' ∧ entries = entries' ∧ j = j' := by
        simpa using scan.symm.trans scan'
      rw [number, names.target, Option.some.injEq] at read
      exact ⟨found, by rw [read]; exact occupied⟩
  · rintro ⟨found, occupied⟩
    obtain ⟨token, inode, _, _, _, ends, _⟩ := names.entry
    obtain ⟨i, entries, j, scan, number⟩ := names.found ends (s.heap 0)
    exact ⟨some token, inode, ends, Or.inr ⟨i, entries, j, target, found, scan,
      by rw [number]; exact names.target, occupied⟩⟩

private theorem NamesEntry.removesOnlyFiles_iff (names : NamesEntry s path n target) :
    RemovesOnlyFiles path target s ↔ target.type = fileTypeFile :=
  or_iff_left names.not_failsClean_removeFile

private theorem NamesEntry.removesOnlyEmptyDirs_iff (names : NamesEntry s path n target) :
    RemovesOnlyEmptyDirs path target s ↔
      (target.type = fileTypeDir ∧ s.disk.OnlyDots target) ∨ s.disk.ShowsEntry target :=
  or_congr Iff.rfl names.failsClean_removeDir_iff

end Removal

/-! ## Orphans -/

/-- Every allocated inode other than the root is named by an entry other than `.` and `..`. -/
def Volume.NoOrphans (v : Volume) : Prop :=
  ∀ n, v.inodeUsed n = true → n ≠ 0#32 → ∃ d s, v.Live d s n

private theorem Volume.Consistent.noOrphans {v : Volume} (ok : v.Consistent) : v.NoOrphans := by
  intro n used notRoot
  obtain ⟨d, x, notDot, notDotDot, s, entry⟩ := ok.tree.named used notRoot
  exact ⟨d, s, Volume.live_iff.mpr ⟨x, notDot, notDotDot, entry⟩⟩

section Orphans

variable {s : FileSys}

theorem View.Sound.resolved {offsets : CInt → Prop} (sound : s.view.Sound offsets)
    (tokens : List (List Byte)) : (∀ token ∈ tokens, token ≠ [] ∧ 0#8 ∉ token) → ∀ {cur : CInt},
    s.view.volume.inodeUsed cur = true → s.disk.Resolves cur tokens →
    ∃ dirs x p, tokens = dirs ++ [x] ∧ s.view.volume.tree.Leads cur dirs p ∧
      s.view.volume.IsDir p ∧ s.disk.walk cur tokens = some (p, some x) := by
  have ok := sound.consistent
  have reads : ∀ {cur : CInt}, s.view.volume.inodeUsed cur = true →
      s.disk.readInode cur = some (s.view.volume.inode cur) := fun used =>
    (reads_getInode _).value (yields_getInode s.view (ok.used_valid _ used))
  induction tokens with
  | nil => exact fun _ _ _ resolves => resolves.elim
  | cons token tokens induction =>
      intro proper cur used resolves
      cases tokens with
      | nil =>
          obtain ⟨inode, read, type⟩ := resolves
          obtain rfl := Option.some.inj ((reads used).symm.trans read)
          exact ⟨[], token, cur, rfl, rfl, ⟨used, type⟩, rfl⟩
      | cons nextToken rest =>
          obtain ⟨inode, read, type, i, entries, j, scan, resolves⟩ := resolves
          obtain rfl := Option.some.inj ((reads used).symm.trans read)
          have dir : s.view.volume.IsDir cur := ⟨used, type⟩
          obtain ⟨named, string⟩ := proper token (by simp)
          have find := (reads_scanEntries _ _).value
            (yields_findName ok.searchable dir (spells_cString string))
          rw [scan, Option.some.injEq, eq_comm, Option.map_eq_some_iff] at find
          obtain ⟨e, found, same⟩ := find
          obtain ⟨rfl, rfl, rfl⟩ : e.1 = i ∧ _ = entries ∧ e.2 = j := by simpa using same
          have entry := Volume.slot_of_lookup dir named found
          obtain ⟨dirs, x, p, split, leads, dir', walk⟩ :=
            induction (fun token' member => proper token' (List.mem_cons_of_mem _ member))
              (ok.tree.used_target entry) resolves
          refine ⟨token :: dirs, x, p, by rw [split, List.cons_append], ⟨_, ⟨e, entry⟩, leads⟩,
            dir', ?_⟩
          rw [Store.walk, read]
          simp only [Option.bind_eq_bind, Option.bind_some, scan]
          exact walk

theorem NamesEntry.refers {offsets : CInt → Prop} {path : Path} {n : CInt} {target : Inode}
    (names : NamesEntry s path n target) (sound : s.view.Sound offsets) : ∃ dirs x p,
    path.tokens = dirs ++ [x] ∧ s.view.volume.tree.Leads 0#32 dirs p ∧ s.view.volume.IsDir p ∧
      s.view.volume.tree.Refers p x n ∧ target = s.view.volume.inode n := by
  have ok := sound.consistent
  obtain ⟨dirs, x, p, tokens, leads, dir, walk⟩ :=
    sound.resolved path.tokens path.tokens_spec ok.tree.root_dir.1 names.resolves
  obtain ⟨token, inode, i, entries, j, ⟨d, walk', read⟩, scan, number⟩ := names.entry
  obtain ⟨rfl, rfl⟩ : d = p ∧ token = x := by simpa using walk'.symm.trans walk
  have read' := (reads_getInode d).value (yields_getInode s.view (ok.used_valid d dir.1))
  obtain rfl := Option.some.inj (read'.symm.trans read)
  obtain ⟨named, string⟩ := path.tokens_spec token (by simp [tokens])
  have find := (reads_scanEntries _ _).value
    (yields_findName ok.searchable dir (spells_cString string))
  rw [scan, Option.some.injEq, eq_comm, Option.map_eq_some_iff] at find
  obtain ⟨e, found, same⟩ := find
  obtain ⟨rfl, rfl, rfl⟩ : e.1 = i ∧ _ = entries ∧ e.2 = j := by simpa using same
  have entry := Volume.slot_of_lookup dir named found
  have number' : (s.view.volume.entry d e).inodeNum = n := number
  rw [number'] at entry
  have target' := (reads_getInode n).value
    (yields_getInode s.view (ok.used_valid n (ok.tree.used_target entry)))
  refine ⟨dirs, token, d, tokens, leads, dir, ⟨e, entry⟩, ?_⟩
  exact Option.some.inj (names.target.symm.trans target')

theorem NamesEntry.noOrphans_removeFile {offsets : CInt → Prop} {path : Path} {n : CInt}
    {target : Inode} (names : NamesEntry s path n target) (sound : s.view.Sound offsets)
    (type : target.type = fileTypeFile) {r : CInt} {s' : FileSys}
    (run : exec (removeFile path) s = some (r, s')) : s'.view.volume.NoOrphans := by
  have ok := sound.consistent
  obtain ⟨dirs, x, p, tokens, leads, dir, ⟨e, entry⟩, rfl⟩ := names.refers sound
  have file : s.view.volume.IsFile n := ⟨ok.tree.used_target entry, type⟩
  have proper : x ≠ dot ∧ x ≠ dotDot := by
    constructor
    · rintro rfl
      exact file.not_isDir (ok.tree.dot_self entry ▸ dir)
    · rintro rfl
      obtain ⟨_, _, _, _, entry'⟩ := ok.tree.dotDot_parent entry
      exact file.not_isDir (ok.tree.slot_dir entry')
  have removed := Volume.removed_release ok entry proper
    fun entry' => absurd (Volume.slot_eq_some.mp entry').1 file.not_isDir
  rw [((yields_removeFile ok.searchable tokens leads dir entry).unique run).2]
  exact removed.consistent.noOrphans

/-- Freeing the blocks of an inode clears bits of the block bitmap only. -/
theorem exists_releaseBlocks (ks : List (Fin numOfDirectBlockPtr)) : ∀ {w : View} {inode : Inode},
    (∀ k, (inode.dirBlockPtr k).toNat < 512) → ∃ inode' used,
    Yields (ks.foldlM (fun inode i =>
      if inode.dirBlockPtr i ≠ 0#32 then do
        resetBlockBitmap (inode.dirBlockPtr i)
        return { inode with dirBlockPtr := update inode.dirBlockPtr i 0#32 }
      else
        return inode) inode) w inode'
      { w with volume := { w.volume with blockUsed := used } } ∧
    (∀ b, used b = true → w.volume.blockUsed b = true) ∧
    ∀ k ∈ ks, inode.dirBlockPtr k ≠ 0#32 → used (inode.dirBlockPtr k) = false := by
  induction ks with
  | nil => exact fun _ => ⟨_, _, .pure _ _, fun _ => id, fun _ member => by cases member⟩
  | cons k ks induction =>
      intro w inode small
      rw [List.foldlM_cons]
      by_cases holds : inode.dirBlockPtr k ≠ 0#32
      · have small' : ∀ l, (update inode.dirBlockPtr k 0#32 l).toNat < 512 := by
          intro l
          by_cases same : l = k
          · rw [same, update_self]
            decide
          · rw [update_of_ne same]
            exact small l
        obtain ⟨inode', used, rest, fewer, cleared⟩ := @induction
          { w with volume := { w.volume with
            blockUsed := update w.volume.blockUsed (inode.dirBlockPtr k) false } }
          { inode with dirBlockPtr := update inode.dirBlockPtr k 0#32 } small'
        have first : used (inode.dirBlockPtr k) = false := by
          by_contra marked
          have before := fewer _ (Bool.eq_true_of_not_eq_false marked)
          simp at before
        refine ⟨inode', used, ?_, fun b marked => ?_, fun l member holds' => ?_⟩
        · rw [if_pos holds]
          refine Yields.bind ?_ rest
          exact (yields_resetBlockBitmap w (small k)).bind (.pure _ _)
        · have before := fewer b marked
          by_cases same : b = inode.dirBlockPtr k
          · rw [same, first] at marked
            cases marked
          · exact (update_of_ne same _ _).symm.trans before
        · by_cases same : l = k
          · rw [same, first]
          · have later := cleared l ((List.mem_cons.mp member).resolve_left same)
            simp only [update_of_ne same] at later
            exact later holds'
      · obtain ⟨inode', used, rest, fewer, cleared⟩ := induction (w := w) small
        rw [if_neg holds]
        refine ⟨inode', used, (Yields.pure _ w).bind rest, fewer, fun l member holds' => ?_⟩
        rcases List.mem_cons.mp member with rfl | later
        · exact absurd holds' holds
        · exact cleared l later holds'

theorem exists_releaseInode {w : View} {n : CInt} (valid : ValidInode n) {inode : Inode}
    (small : ∀ k, (inode.dirBlockPtr k).toNat < 512) : ∃ w', Yields (releaseInode n inode) w () w' ∧
    w'.volume.inodeUsed = update w.volume.inodeUsed n false ∧
    w'.volume.block = w.volume.block ∧ (∀ m, m ≠ n → w'.volume.inode m = w.volume.inode m) ∧
    w'.pFileSysInfo = w.pFileSysInfo.released ∧
    (∀ b, w'.volume.blockUsed b = true → w.volume.blockUsed b = true) ∧
    ∀ k, inode.dirBlockPtr k ≠ 0#32 → w'.volume.blockUsed (inode.dirBlockPtr k) = false := by
  obtain ⟨inode', used, loop, fewer, cleared⟩ :=
    exists_releaseBlocks (List.finRange numOfDirectBlockPtr) (w := w) small
  exact ⟨_, loop.bind <| (yields_putInode _ valid _).bind <|
    (yields_resetInodeBitmap _ valid).bind <| (yields_modifyInfo _ _).bind <| yields_writeInfo _,
    rfl, rfl, fun m other => update_of_ne other _ _, rfl, fewer,
    fun k => cleared k (List.mem_finRange k)⟩

/-- `RemoveDir` of `.` clears a slot of the directory and frees the directory. -/
theorem exists_removeDir_self {w : View} (ok : w.volume.Consistent) {path : Path}
    {dirs : List (List Byte)} {p : CInt} (tokens : path.tokens = dirs ++ [dot])
    (leads : w.volume.tree.Leads 0#32 dirs p) (dir : w.volume.IsDir p) {e : Slot}
    (entry : w.volume.tree.slot p e = some (dot, p))
    (special : ∀ {e y m}, w.volume.tree.slot p e = some (y, m) → y = dot ∨ y = dotDot) :
    ∃ w' k, Yields (removeDir path) w none w' ∧
      w'.volume.inodeUsed = update w.volume.inodeUsed p false ∧
      (∀ m, m ≠ p → w'.volume.inode m = w.volume.inode m) ∧ w.volume.ptr (p, k) ≠ 0#32 ∧
      (∀ b, b ≠ w.volume.ptr (p, k) → w'.volume.block b = w.volume.block b) ∧
      w'.pFileSysInfo = w.pFileSysInfo.released ∧
      (∀ b, w'.volume.blockUsed b = true → w.volume.blockUsed b = true) ∧
      ∀ l, w.volume.ptr (p, l) ≠ 0#32 → w'.volume.blockUsed (w.volume.ptr (p, l)) = false := by
  have valid := ok.used_valid p dir.1
  have small : ∀ k, ((w.volume.inode p).dirBlockPtr k).toNat < 512 := by
    intro k
    by_cases null : w.volume.ptr (p, k) = 0#32
    · rw [show (w.volume.inode p).dirBlockPtr k = 0#32 from null]
      decide
    · exact (ok.blocks.dataBlock null).2
  obtain ⟨_, holds, _, same⟩ := Volume.slot_eq_some.mp entry
  have target : (w.volume.block (w.volume.ptr (p, e.1))).entryInode e.2 = p :=
    congrArg Block.Entry.inodeNum same
  have spells := fun dst => spells_sprintf dst (path.tokens_spec dot (by simp [tokens])).2
  -- the slot that is cleared holds the number of the directory, but maybe not its entry
  have scan := @yields_scanEntries (w.volume.inode p) w.pop (namesInode p)
    (fun s => decide ((w.volume.entry p s).inodeNum = p))
    (fun _ holds => ok.blocks.dataBlock holds) fun _ _ _ => rfl
  obtain ⟨e', found⟩ : ∃ e', firstSlot (w.volume.inode p)
      (fun s => decide ((w.volume.entry p s).inodeNum = p)) = some e' := by
    rw [← Option.ne_none_iff_exists']
    intro none
    have other := firstSlot_eq_none_iff.mp none e holds
    simp [same] at other
  have holds' : w.volume.ptr (p, e'.1) ≠ 0#32 := (firstSlot_eq_some found).1
  rw [found, Option.map_some] at scan
  have data := ok.blocks.dataBlock holds'
  let contents := (w.volume.block (w.volume.ptr (p, e'.1))).clearEntry e'.2
  let cleared : View := { w.pop with volume := w.volume.fill (w.volume.ptr (p, e'.1)) contents }
  obtain ⟨shrunk, shrink, used, block, inode, info, fewer⟩ : ∃ shrunk : View,
      Yields (shrinkParent p (w.volume.inode p) e'.1 contents) cleared () shrunk ∧
      shrunk.volume.inodeUsed = w.volume.inodeUsed ∧ shrunk.volume.block = cleared.volume.block ∧
      (∀ m, m ≠ p → shrunk.volume.inode m = w.volume.inode m) ∧
      shrunk.pFileSysInfo = w.pFileSysInfo ∧
      ∀ b, shrunk.volume.blockUsed b = true → w.volume.blockUsed b = true := by
    rw [shrinkParent]
    split_ifs
    · refine ⟨_, (yields_resetBlockBitmap _ data.2).bind (yields_putInode _ valid _), rfl, rfl,
        fun m other => update_of_ne other _ _, rfl, fun b marked => ?_⟩
      by_cases same : b = w.volume.ptr (p, e'.1)
      · simp [same] at marked
      · exact (update_of_ne same _ _).symm.trans marked
    · exact ⟨cleared, .pure _ _, rfl, rfl, fun _ _ => rfl, rfl, fun _ => id⟩
  obtain ⟨w', release, used', block', inode', info', fewer', cleared'⟩ :=
    exists_releaseInode (w := shrunk) valid small
  refine ⟨w', e'.1, ?_, by rw [used', used], fun m other => (inode' m other).trans (inode m other),
    holds', fun b other => ?_, by rw [info', info], fun b => fewer b ∘ fewer' b, cleared'⟩
  · refine (yields_malloc w).bind ?_
    refine (yields_getDirPos (w := w.pop) ok.searchable tokens leads _).bind ?_
    refine (yields_getInode _ valid).bind ?_
    refine (yields_findName (w := w.pop) ok.searchable dir (spells _)).bind ?_
    simp only [ok.searchable.lookup_of_slot entry, Option.map_some, target]
    refine (yields_getInode _ valid).bind ?_
    refine (yields_scanOccupied (w := w.pop) ok.blocks dir special).bind ?_
    refine scan.bind ?_
    refine (yields_bufWrite data _ _).bind ?_
    refine Yields.bind shrink ?_
    exact release.bind (.pure _ _)
  · rw [block', block]
    exact update_of_ne other _ _

/-- `RemoveDir` of a directory without proper entries, or one that it takes for full, leaves no
orphan. -/
theorem NamesEntry.noOrphans_removeDir {offsets : CInt → Prop} {path : Path} {n : CInt}
    {target : Inode} (names : NamesEntry s path n target) (sound : s.view.Sound offsets)
    (right : (target.type = fileTypeDir ∧ s.disk.OnlyDots target) ∨ s.disk.ShowsEntry target)
    {r : Option CInt} {s' : FileSys} (run : exec (removeDir path) s = some (r, s')) :
    s'.view.volume.NoOrphans := by
  have ok := sound.consistent
  obtain ⟨dirs, x, p, tokens, leads, dir, ⟨e, entry⟩, rfl⟩ := names.refers sound
  rcases right with ⟨type, dots⟩ | shows
  · have dir' : s.view.volume.IsDir n := ⟨ok.tree.used_target entry, type⟩
    have special : ∀ {e y m}, s.view.volume.tree.slot n e = some (y, m) → y = dot ∨ y = dotDot := by
      intro e y m entry'
      obtain ⟨_, holds, named, same⟩ := Volume.slot_eq_some.mp entry'
      have shown : s.view.volume.block (s.view.volume.ptr (n, e.1)) =
          s.disk (s.view.volume.ptr (n, e.1)) := if_pos (ok.blocks.dataBlock holds)
      have name : (s.disk (s.view.volume.ptr (n, e.1))).nameOf e.2 = y := by
        rw [← shown]
        exact congrArg Block.Entry.name same
      rcases dots e.1 holds e.2 with empty | special
      · exact absurd (name.symm.trans empty) named
      · exact special.imp name.symm.trans name.symm.trans
    by_cases self : x = dot
    · subst self
      obtain rfl := ok.tree.dot_self entry
      obtain ⟨w', k, yields, used, inode, holds, block, _⟩ :=
        exists_removeDir_self ok tokens leads dir entry special
      rw [(yields.unique run).2]
      intro m used' notRoot
      rw [used] at used'
      have other : m ≠ n := by
        rintro rfl
        simp at used'
      rw [update_of_ne other] at used'
      obtain ⟨d, y, notDot, notDotDot, e', entry'⟩ := ok.tree.named used' notRoot
      have outside : d ≠ n := by
        rintro rfl
        exact (special entry').elim notDot notDotDot
      obtain ⟨dir'', holds', named, same⟩ := Volume.slot_eq_some.mp entry'
      have ptr : w'.volume.ptr (d, e'.1) = s.view.volume.ptr (d, e'.1) := by
        rw [Volume.ptr, Volume.ptr, inode d outside]
      have apart : s.view.volume.ptr (d, e'.1) ≠ s.view.volume.ptr (n, k) := fun same =>
        outside (ok.blocks.ptr_injective holds' same).1
      refine ⟨d, e', Volume.live_iff.mpr ⟨y, notDot, notDotDot, Volume.slot_eq_some.mpr
        ⟨⟨?_, ?_⟩, by rwa [ptr], named, ?_⟩⟩⟩
      · rw [used, update_of_ne outside]
        exact dir''.1
      · rw [inode d outside]
        exact dir''.2
      · rw [Volume.entry, ptr, block _ apart]
        exact same
    · by_cases parent : x = dotDot
      · subst parent
        obtain ⟨y, notDot, notDotDot, e', entry'⟩ := ok.tree.dotDot_parent entry
        exact ((special entry').elim notDot notDotDot).elim
      · have removed := Volume.removed_removeDir ok entry ⟨self, parent⟩ special
        have yields := yields_removeDir ok tokens leads dir entry ⟨self, parent⟩ dir' special
        rw [(yields.unique run).2]
        exact removed.consistent.noOrphans
  · obtain ⟨r', s'', run', _, untouched⟩ := names.failsClean_removeDir_iff.mpr shows
    obtain ⟨_, rfl⟩ : r = r' ∧ s' = s'' := by simpa using run.symm.trans run'
    rw [FileSys.view, untouched.disk]
    exact ok.noOrphans

end Orphans

/-! ## The result -/

/-- When `RemoveFile` and `RemoveDir` remove only what they should, in any state; and from a state
of a run of proper calls they then leave no orphan. -/
theorem removal_iff {s : FileSys} {path : Path} {n : CInt} {target : Inode}
    (names : NamesEntry s path n target) :
    (RemovesOnlyFiles path target s ↔ target.type = fileTypeFile) ∧
    (RemovesOnlyEmptyDirs path target s ↔
      (target.type = fileTypeDir ∧ s.disk.OnlyDots target) ∨ s.disk.ShowsEntry target) ∧
    (Reachable Formatted Call.Proper s →
      (target.type = fileTypeFile → ∀ r s', exec (removeFile path) s = some (r, s') →
        s'.view.volume.NoOrphans) ∧
      ((target.type = fileTypeDir ∧ s.disk.OnlyDots target) ∨ s.disk.ShowsEntry target →
        ∀ r s', exec (removeDir path) s = some (r, s') → s'.view.volume.NoOrphans)) := by
  refine ⟨names.removesOnlyFiles_iff, names.removesOnlyEmptyDirs_iff, fun reachable => ?_⟩
  have sound := sound_of_proper reachable
  exact ⟨fun type r s' run => names.noOrphans_removeFile sound type run,
    fun right r s' run => names.noOrphans_removeDir sound right run⟩

theorem View.Sound.namesEntry {offsets : CInt → Prop} {s : FileSys} (sound : s.view.Sound offsets)
    {path : Path} {x : List Byte} {n : CInt} (tokens : path.tokens = [x])
    (refers : s.view.volume.tree.Refers 0#32 x n) :
    NamesEntry s path n (s.view.volume.inode n) := by
  have ok := sound.consistent
  have root := ok.tree.root_dir
  have reads : ∀ {m : CInt}, s.view.volume.inodeUsed m = true →
      s.disk.readInode m = some (s.view.volume.inode m) := fun used =>
    (reads_getInode _).value (yields_getInode s.view (ok.used_valid _ used))
  obtain ⟨e, entry⟩ := refers
  have string := (path.tokens_spec x (by simp [tokens])).2
  have find := (reads_scanEntries _ _).value
    (yields_findName ok.searchable root (spells_cString string))
  rw [ok.searchable.lookup_of_slot entry, Option.map_some] at find
  refine ⟨?_, ⟨x, _, _, _, _, ⟨0#32, by rw [tokens]; rfl, reads root.1⟩, find, ?_⟩,
    reads (ok.tree.used_target entry)⟩
  · rw [tokens]
    exact ⟨_, reads root.1, root.2⟩
  · exact congrArg Block.Entry.inodeNum (Volume.slot_eq_some.mp entry).2.2.2

/-- The root of a formatted disk is found under the name `.`. -/
theorem removal_iff_root : ∃ s path target, Formatted s ∧ NamesEntry s path 0#32 target ∧
    (RemovesOnlyFiles path target s ↔ target.type = fileTypeFile) ∧
    (RemovesOnlyEmptyDirs path target s ↔
      (target.type = fileTypeDir ∧ s.disk.OnlyDots target) ∨ s.disk.ShowsEntry target) ∧
    (Reachable Formatted Call.Proper s →
      (target.type = fileTypeFile → ∀ r s', exec (removeFile path) s = some (r, s') →
        s'.view.volume.NoOrphans) ∧
      ((target.type = fileTypeDir ∧ s.disk.OnlyDots target) ∨ s.disk.ShowsEntry target →
        ∀ r s', exec (removeDir path) s = some (r, s') → s'.view.volume.NoOrphans)) := by
  obtain ⟨s, here⟩ := exists_formatted
  have sound : s.view.Sound fun _ => True := here.view ▸ View.formatted_sound
  have refers : s.view.volume.tree.Refers 0#32 dot 0#32 := by
    rw [here.view]
    exact ⟨(0, 0), Volume.slot_formatted.mpr ⟨rfl, rfl, rfl, rfl⟩⟩
  let path : Path := ⟨[47#8, 46#8], by decide⟩
  have names := sound.namesEntry (show path.tokens = [dot] by decide) refers
  exact ⟨s, path, _, here, names, removal_iff names⟩

/-- An empty directory `/a` made on a formatted disk. -/
theorem exists_dirA : ∃ s n, Reachable Formatted Call.Proper s ∧
    Names s.view.volume pathA 0#32 [97#8] ∧ s.view.volume.tree.Refers 0#32 [97#8] n ∧
    s.view.volume.IsDir n ∧ n ≠ 0#32 ∧
    ∀ y m, s.view.volume.tree.Refers n y m → y = dot ∨ y = dotDot := by
  obtain ⟨s, here⟩ := exists_formatted
  have proper : (Call.makeDir pathA).Proper s.view := here.view ▸ wellFormed_pathA.1.1
  have names : Names s.view.volume pathA 0#32 [97#8] :=
    here.view ▸ Volume.names_pathA Volume.formatted_isDir
  have new : ∀ m, ¬ s.view.volume.tree.Refers 0#32 [97#8] m :=
    here.view ▸ Volume.formatted_new (by decide) 0#32
  have free : s.view.volume.HasFreeInode := here.view ▸ Volume.formatted_free
  have sound := sound_of_proper (.start here)
  obtain ⟨r, room⟩ : ∃ r, s.view.volume.room 0#32 = some r := by
    obtain ⟨e, _, empty⟩ := Volume.formatted_room
    rw [here.view]
    exact Volume.exists_room ⟨e, Or.inr empty⟩
  obtain ⟨w', make, _, volume, _, created⟩ := sound.makeDir names new free room
  have dirMade := Volume.dirMade_makeDir sound.consistent sound.freeBlank names.dir room free
    names.good new
  rw [← volume] at dirMade
  obtain ⟨s', run, rfl⟩ := make s rfl
  have reachable : Reachable Formatted Call.Proper s' := by
    refine .call (.start here) proper ?_
    rw [Call.code, effect, exec_bind, run]
    rfl
  have dir : s'.view.volume.tree.dir s.view.volume.freeInodeNum := by
    rw [dirMade.tree]
    exact Or.inl rfl
  obtain ⟨e, entry⟩ := created.new
  refine ⟨s', _, reachable, created.names names, ⟨e, entry⟩, dir, ?_, fun y m refers => ?_⟩
  · exact ((sound_of_proper reachable).consistent.tree.proper_ne entry (by decide) (by decide)).1
  · obtain ⟨e', special⟩ := refers
    rw [dirMade.tree, DirTree.slot_toDir_self] at special
    exact (Volume.newSlots_special special).imp (·.2.1) (·.2.1)

/-- `RemoveFile` removes the directory `/a`. -/
theorem removeFile_removes_dir : ∃ s, Reachable Formatted Call.Proper s ∧
    ∃ n target, NamesEntry s pathA n target ∧ target.type ≠ fileTypeFile ∧
      ¬ RemovesOnlyFiles pathA target s := by
  obtain ⟨s, n, reachable, _, refers, dir, _⟩ := exists_dirA
  have entry := (sound_of_proper reachable).namesEntry tokens_pathA refers
  have other : (s.view.volume.inode n).type ≠ fileTypeFile := by
    rw [dir.2]
    decide
  exact ⟨s, reachable, _, _, entry, other, fun right => other (entry.removesOnlyFiles_iff.mp right)⟩

end KwHomework
