import KwHomework.FileSystem.PathSessions

/-!
# Paths with one meaning

A path may be spelt with `.`, with `..` and with more slashes than it needs.  Two spellings whose
directories have the same normal form lead to the same directory, and every call does the same on
both.
-/

namespace KwHomework

open Function FS

/-- The call of a function with a path. -/
def PathCall.on (path : Path) : PathCall → Call
  | createFile => .createFile path
  | makeDir => .makeDir path
  | openFile => .openFile path
  | removeFile => .removeFile path
  | removeDir => .removeDir path
  | enumerateDirStatus dirEntrys => .enumerateDirStatus path dirEntrys
  | getFileStatus => .getFileStatus path

section Walks

variable {s : FileSys} {path path' : Path}

private theorem exec_bind_congr {α β : Type} {x x' : FS α} (same : exec x s = exec x' s)
    (next : α → FS β) :
    exec (x >>= next) s = exec (x' >>= next) s := by
  rw [exec_bind, exec_bind, same]

theorem exec_walk_congr {α : Type}
    (same : s.disk.walk 0#32 path.tokens = s.disk.walk 0#32 path'.tokens)
    (next : DirPos → FS α) :
    exec (malloc >>= fun token => getDirPos path token >>= next) s =
      exec (malloc >>= fun token => getDirPos path' token >>= next) s := by
  rw [exec_bind, exec_bind, exec_malloc, Option.bind_some, Option.bind_some]
  refine exec_bind_congr ?_ next
  rw [reads_getDirPos path, reads_getDirPos path']
  change ((s.disk.walk 0#32 path.tokens).map _).map _ =
    ((s.disk.walk 0#32 path'.tokens).map _).map _
  rw [same]

theorem exec_respond_congr (same : s.disk.walk 0#32 path.tokens = s.disk.walk 0#32 path'.tokens)
    (call : PathCall) : exec (call.on path).respond s = exec (call.on path').respond s := by
  cases call with
  | createFile =>
      refine exec_bind_congr ?_ _
      rw [FS.createFile, FS.createFile, exec_bind, exec_bind, exec_getFreeInodeNum,
        Option.bind_some, Option.bind_some]
      exact exec_walk_congr same _
  | makeDir =>
      refine exec_bind_congr ?_ _
      rw [FS.makeDir, FS.makeDir, makeDirWith, makeDirWith]
      simp only [liftM_eq]
      rw [exec_bind, exec_bind, exec_getFreeInodeNum, Option.bind_some, Option.bind_some]
      exact exec_walk_congr same _
  | openFile => exact exec_bind_congr (exec_walk_congr same _) _
  | removeFile => exact exec_bind_congr (exec_walk_congr same _) _
  | removeDir => exact exec_bind_congr (exec_walk_congr same _) _
  | enumerateDirStatus dirEntrys => exact exec_bind_congr (exec_walk_congr same _) _
  | getFileStatus => exact exec_bind_congr (exec_walk_congr same _) _

end Walks

theorem View.Sound.walk_of_leads {offsets : CInt → Prop} {s : FileSys}
    (sound : s.view.Sound offsets) {x : List Byte} :
    ∀ {dirs : List (List Byte)} {cur p : CInt}, (∀ text ∈ dirs, 0#8 ∉ text) →
    s.view.volume.tree.Leads cur dirs p → s.disk.walk cur (dirs ++ [x]) = some (p, some x)
  | [], cur, p, _, leads => by
      obtain rfl : cur = p := leads
      rfl
  | text :: dirs, cur, p, strings, leads => by
      obtain ⟨m, ⟨e, entry⟩, leads⟩ := leads
      have induction := sound.walk_of_leads (x := x)
        (fun text' member => strings text' (List.mem_cons_of_mem _ member)) leads
      have ok := sound.consistent.searchable
      obtain ⟨dir, _, _, same⟩ := Volume.slot_eq_some.mp entry
      have target : (s.view.volume.block (s.view.volume.ptr (cur, e.1))).entryInode e.2 = m :=
        congrArg Block.Entry.inodeNum same
      have read := (reads_getInode cur).value (yields_getInode s.view (ok.used_valid cur dir.1))
      have found := (reads_scanEntries _ _).value
        (yields_findName ok dir (spells_cString (strings text List.mem_cons_self)))
      rw [ok.lookup_of_slot entry] at found
      obtain ⟨next, rest, split⟩ : ∃ next rest, dirs ++ [x] = next :: rest :=
        List.exists_cons_of_ne_nil (by simp)
      rw [List.cons_append, split, Store.walk, read]
      simp only [Option.bind_eq_bind, Option.bind_some, found, Option.map_some, target]
      rw [← split]
      exact induction

private theorem View.Sound.walk_eq {offsets : CInt → Prop} {s : FileSys}
    (sound : s.view.Sound offsets) {path : Path} {dirs : List (List Byte)} {x : List Byte}
    {p : CInt}
    (tokens : path.tokens = dirs ++ [x]) (leads : s.view.volume.tree.Leads 0#32 dirs p) :
    s.disk.walk 0#32 path.tokens = some (p, some x) := by
  rw [tokens]
  exact sound.walk_of_leads
    (fun text member => (path.tokens_spec text (by simp [tokens, member])).2) leads

/-- Where the directories of two paths have one normal form, the calls do the same on both. -/
theorem exec_respond_of_normal {s : FileSys} (reachable : Reachable Formatted Call.WellFormed s)
    {path path' : Path} {dirs dirs' : List (List Byte)} {x : List Byte} {p p' : CInt}
    (tokens : path.tokens = dirs ++ [x]) (tokens' : path'.tokens = dirs' ++ [x])
    (leads : s.view.volume.tree.Leads 0#32 dirs p) (leads' : s.view.volume.tree.Leads 0#32 dirs' p')
    (same : DirTree.normal dot dotDot dirs = DirTree.normal dot dotDot dirs') (call : PathCall) :
    exec (call.on path).respond s = exec (call.on path').respond s := by
  have sound := sound_of_wellFormed reachable
  have tree := sound.consistent.tree
  have there := tree.leads_normal leads
  rw [same] at there
  obtain rfl := tree.leads_unique there (tree.leads_normal leads')
  refine exec_respond_congr ?_ call
  rw [sound.walk_eq tokens leads, sound.walk_eq tokens' leads']

/-- The path `/.//a`. -/
def pathDotA : Path := ⟨[47#8, 46#8, 47#8, 47#8, 97#8], by decide⟩

/-- `/.//a` and `/a` are the same to every call on a formatted disk. -/
theorem exec_respond_of_normal_formatted : ∃ s, Formatted s ∧ ∀ call : PathCall,
    exec (call.on pathDotA).respond s = exec (call.on pathA).respond s := by
  obtain ⟨s, here⟩ := exists_formatted
  have root : s.view.volume.tree.Refers 0#32 dot 0#32 := by
    rw [here.view]
    exact ⟨(0, 0), Volume.slot_formatted.mpr ⟨rfl, rfl, rfl, rfl⟩⟩
  have tokens : pathDotA.tokens = [dot] ++ [[97#8]] := by decide
  have tokens' : pathA.tokens = [] ++ [[97#8]] := by decide
  exact ⟨s, here, exec_respond_of_normal (.start here) tokens tokens' ⟨0#32, root, rfl⟩ rfl
    (by decide)⟩

end KwHomework
