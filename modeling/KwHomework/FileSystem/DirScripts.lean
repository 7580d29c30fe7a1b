import KwHomework.FileSystem.Bitmaps
import KwHomework.FileSystem.DirContents
import KwHomework.Simulation.Scripts

/-!
# Scripts over directories

The calls of `testcase.c` that make, list and remove directories, on a file system that holds
nothing but directories.  Such a file system is a finite set of paths, and every call adds a path to
it, takes one away, or tells what is under one.
-/

namespace KwHomework

open Function FS Scripts

/-- Directories under these paths, and no open file. -/
def Files.ofDirs (paths : Finset (List (List Byte))) : Files where
  entry path := if path ∈ paths then some .dir else none
  opened _ := none

namespace Files

variable {paths : Finset (List (List Byte))} {path : List (List Byte)}

theorem ofDirs_root : ofDirs {[]} = initial := by
  simp only [ofDirs, initial, Finset.mem_singleton]

private theorem put_ofDirs : (ofDirs paths).put path .dir = ofDirs (insert path paths) := by
  refine congrArg (PathStore.mk · _) (funext fun path' => ?_)
  rw [update_apply]
  by_cases same : path' = path <;> simp [ofDirs, same]

private theorem erase_ofDirs : (ofDirs paths).erase path = ofDirs (paths.erase path) := by
  refine congrArg (PathStore.mk · _) (funext fun path' => ?_)
  rw [update_apply]
  by_cases same : path' = path <;> simp [ofDirs, same]

theorem entry_ofDirs_ne_none : (ofDirs paths).entry path ≠ none ↔ path ∈ paths := by
  simp only [ofDirs]
  split_ifs with member <;> simp [member]

end Files

/-- The file system holds the directories under these paths, none of which has a slash in it. -/
structure Dirs (s : FileSys) (paths : Finset (List (List Byte))) : Prop where
  models : Models s.view (.ofDirs paths)
  slashless : (Files.ofDirs paths).Slashless

/-- Running on the flat store. -/
def flat : Interpreter FS FileSys where
  run := exec
  run_pure := exec_pure
  run_bind := exec_bind

/-- A line for each of these names and for `.` and `..`, all of them directories. -/
structure ListsDirs (lines : List ContentsLine) (names : List (List Byte)) : Prop where
  names : (lines.map ContentsLine.name).Perm (dot :: dotDot :: names)
  dirs : ∀ line ∈ lines, line.type = fileTypeDir

/-- A path to a name that is good for a new entry. -/
structure PathTo (path : Path) (dirs : List (List Byte)) (x : List Byte) : Prop where
  tokens : path.tokens = dirs ++ [x]
  length : x.length ≤ 11
  undotted : x.head? ≠ some 46#8

private theorem PathTo.proper {path : Path} {dirs : List (List Byte)} {x : List Byte}
    (leadsTo : PathTo path dirs x) :
    x ≠ dot ∧ x ≠ dotDot := by
  constructor <;>
    · rintro rfl
      exact leadsTo.undotted rfl

namespace Dirs

variable {s : FileSys} {paths : Finset (List (List Byte))} {path : Path} {dirs : List (List Byte)}
  {x y : List Byte} {p n m : CInt}

section Look

variable (here : Dirs s paths)

include here

private theorem exists_dir (member : dirs ∈ paths) : DirTree.Proper dot dotDot dirs ∧
    ∃ n, s.view.volume.tree.Leads 0#32 dirs n ∧ s.view.volume.IsDir n := by
  have entry : (Files.ofDirs paths).entry dirs = some .dir := if_pos member
  obtain ⟨proper, n, leads, described⟩ := (here.models.shows.entry ..).mp entry
  exact ⟨proper, n, leads, NodeStore.describe_eq_dir_iff.mp described⟩

theorem mem_of_leads (proper : DirTree.Proper dot dotDot dirs)
    (leads : s.view.volume.tree.Leads 0#32 dirs n) : dirs ∈ paths ∧ s.view.volume.IsDir n := by
  have entry := here.models.shows.entry_of_leads proper leads
  have member : dirs ∈ paths :=
    Files.entry_ofDirs_ne_none.mp (Option.ne_none_iff_exists'.mpr ⟨_, entry⟩)
  obtain ⟨_, n', leads', dir⟩ := here.exists_dir member
  obtain rfl := here.models.ok.tree.leads_unique leads' leads
  exact ⟨member, dir⟩

theorem refers_iff (proper : DirTree.Proper dot dotDot dirs)
    (leads : s.view.volume.tree.Leads 0#32 dirs p) (proper' : y ≠ dot ∧ y ≠ dotDot) :
    (∃ m, s.view.volume.tree.Refers p y m) ↔ dirs ++ [y] ∈ paths := by
  constructor
  · rintro ⟨m, refers⟩
    exact (here.mem_of_leads
      (DirTree.proper_append.mpr ⟨proper, DirTree.proper_singleton.mpr proper'⟩)
      ((DirTree.leads_concat ..).mpr ⟨p, leads, refers⟩)).1
  · intro member
    obtain ⟨_, m, leads', _⟩ := here.exists_dir member
    obtain ⟨d, leads', refers⟩ := (DirTree.leads_concat ..).mp leads'
    obtain rfl := here.models.ok.tree.leads_unique leads' leads
    exact ⟨m, refers⟩

/-- An inode is free if there are less than 64 directories. -/
theorem hasFreeInode (few : paths.card < 64) : s.view.volume.HasFreeInode := by
  have count : s.view.volume.numUsedInodes = paths.card := by
    rw [here.models.numUsedInodes_eq, show {dirs | (Files.ofDirs paths).entry dirs ≠ none} =
      ↑paths from Set.ext fun _ => Files.entry_ofDirs_ne_none, Set.ncard_coe_finset]
  by_contra full
  have all : Volume.inodeNums.countP s.view.volume.inodeUsed = Volume.inodeNums.length := by
    refine List.countP_eq_length.mpr fun n member => ?_
    by_contra unused
    exact full ⟨n, Volume.mem_inodeNums.mp member, by simpa using unused⟩
  rw [Volume.numUsedInodes, all] at count
  have length : Volume.inodeNums.length = 64 := rfl
  omega

theorem exists_names (leadsTo : PathTo path dirs x) (parent : dirs ∈ paths) :
    path.normal = dirs ++ [x] ∧ ∃ p, s.view.volume.tree.Leads 0#32 dirs p ∧
      Names s.view.volume path p x ∧
      ((∃ m, s.view.volume.tree.Refers p x m) ↔ dirs ++ [x] ∈ paths) := by
  obtain ⟨proper, p, leads, dir⟩ := here.exists_dir parent
  refine ⟨?_, p, leads, ⟨⟨dirs, leadsTo.tokens, leads⟩, dir, leadsTo.length, leadsTo.undotted⟩,
    here.refers_iff proper leads leadsTo.proper⟩
  rw [Path.normal, leadsTo.tokens, DirTree.normal_concat_proper leadsTo.proper,
    DirTree.normal_of_proper proper]

theorem isDir_of_refers (proper : DirTree.Proper dot dotDot dirs)
    (leads : s.view.volume.tree.Leads 0#32 dirs p) (refers : s.view.volume.tree.Refers p y m) :
    s.view.volume.IsDir m := by
  have tree := here.models.sound.consistent.tree
  obtain ⟨slot, entry⟩ := refers
  by_cases special : y = dot ∨ y = dotDot
  · rcases special with rfl | rfl
    · rw [tree.dot_self entry]
      exact tree.slot_dir entry
    · obtain ⟨_, _, _, _, back⟩ := tree.dotDot_parent entry
      exact tree.slot_dir back
  · have whole : DirTree.Proper dot dotDot (dirs ++ [y]) :=
      DirTree.proper_append.mpr ⟨proper, DirTree.proper_singleton.mpr (not_or.mp special)⟩
    exact (here.mem_of_leads whole ((DirTree.leads_concat ..).mpr ⟨p, leads, slot, entry⟩)).2

theorem mem_names_iff (proper : DirTree.Proper dot dotDot dirs)
    (leads : s.view.volume.tree.Leads 0#32 dirs n) (dir : s.view.volume.IsDir n)
    (notRoot : n ≠ 0#32) :
    y ∈ (s.disk.liveEntries n).map Block.Entry.name ↔ y = dot ∨ y = dotDot ∨
      dirs ++ [y] ∈ paths := by
  have ok : s.disk.volume.Consistent := here.models.sound.consistent
  have member : y ∈ (s.disk.liveEntries n).map Block.Entry.name ↔
      ∃ m, s.view.volume.tree.Refers n y m := by
    rw [List.mem_map]
    constructor
    · rintro ⟨e, live, rfl⟩
      exact ⟨e.inodeNum, (Store.mem_liveEntries_iff ok dir).mp live⟩
    · rintro ⟨m, refers⟩
      exact ⟨⟨y, m⟩, (Store.mem_liveEntries_iff ok dir).mpr refers, rfl⟩
  rw [member, ← or_assoc]
  obtain ⟨self, parent, up⟩ := ok.home n dir notRoot
  by_cases special : y = dot ∨ y = dotDot
  · rw [iff_true_right (Or.inl special)]
    rcases special with rfl | rfl
    · exact ⟨n, _, self⟩
    · exact ⟨parent, _, up⟩
  · rw [or_iff_right special, here.refers_iff proper leads (not_or.mp special)]

end Look

/-! ## The rules -/

/-- `MakeDir` adds a path, as long as there are inodes. -/
theorem makeDir (leadsTo : PathTo path dirs x) (parent : dirs ∈ paths) (new : dirs ++ [x] ∉ paths)
    (few : paths.card < 64) :
    flat.Does Dirs (FS.makeDir path) paths fun _ paths' => paths' = insert (dirs ++ [x]) paths := by
  intro s here
  obtain ⟨normal, p, _, names, refers⟩ := here.exists_names leadsTo parent
  obtain ⟨r, s', a', run, step, models⟩ := here.models.makeDir names
    (fun m there => new (refers.mp ⟨m, there⟩)) (here.hasFreeInode few)
  obtain ⟨value, s₁, first, rest⟩ := exec_bind_eq_some run
  obtain ⟨_, rfl⟩ := Prod.mk.inj (Option.some.inj rest)
  have slashless := step.slashless here.slashless
  cases step with
  | made =>
      rw [normal, Files.put_ofDirs] at models slashless
      exact ⟨value, s₁, _, first, ⟨models, slashless⟩, rfl⟩

/-- `RemoveDir` takes a path away, as long as nothing is below it. -/
theorem removeDir (leadsTo : PathTo path dirs x) (parent : dirs ∈ paths) (old : dirs ++ [x] ∈ paths)
    (empty : ∀ y, dirs ++ [x] ++ [y] ∉ paths) :
    flat.Does Dirs (FS.removeDir path) paths fun _ paths' =>
      paths' = paths.erase (dirs ++ [x]) := by
  intro s here
  obtain ⟨normal, p, leads, names, refers⟩ := here.exists_names leadsTo parent
  obtain ⟨n, there⟩ := refers.mpr old
  obtain ⟨proper, n', leads', dir⟩ := here.exists_dir old
  obtain rfl := here.models.ok.tree.leads_unique
    ((DirTree.leads_concat ..).mpr ⟨p, leads, there⟩) leads'
  obtain ⟨r, s', a', run, step, models⟩ := here.models.removeDir names there dir fun y m below => by
    by_contra special
    exact empty y ((here.refers_iff proper leads' (not_or.mp special)).mp ⟨m, below⟩)
  obtain ⟨value, s₁, first, rest⟩ := exec_bind_eq_some run
  obtain ⟨_, rfl⟩ := Prod.mk.inj (Option.some.inj rest)
  have slashless := step.slashless here.slashless
  cases step with
  | dirRemoved =>
      rw [normal, Files.erase_ofDirs] at models slashless
      exact ⟨value, s₁, _, first, ⟨models, slashless⟩, rfl⟩

/-- `ListDirContents` tells what is below a path. -/
theorem listDirContents (leadsTo : PathTo path dirs x) (old : dirs ++ [x] ∈ paths)
    (short : path.bytes.length < 88) {names : List (List Byte)} (nodup : names.Nodup)
    (below : ∀ y, y ∈ names ↔ dirs ++ [x] ++ [y] ∈ paths) :
    flat.Does Dirs (FS.listDirContents path) paths fun lines paths' =>
      ListsDirs lines names ∧ paths' = paths := by
  intro s here
  have ok : s.disk.volume.Consistent := here.models.sound.consistent
  obtain ⟨proper, n, leads, dir⟩ := here.exists_dir old
  obtain ⟨p, leads', refers⟩ := (DirTree.leads_concat ..).mp leads
  obtain ⟨slot, entry⟩ := refers
  have notRoot := (ok.tree.proper_ne entry leadsTo.proper.1 leadsTo.proper.2).1
  obtain ⟨s', run, view'⟩ := here.models.exec_listDirContents here.slashless leadsTo.tokens leads'
    ⟨slot, entry⟩ dir short
  refine ⟨_, s', paths, run, ⟨view' ▸ here.models, here.slashless⟩, ⟨?_, fun line member => ?_⟩,
    rfl⟩
  · have apart : (dot :: dotDot :: names).Nodup := by
      have proper' : ∀ y ∈ names, y ≠ dot ∧ y ≠ dotDot := fun y member =>
        DirTree.proper_singleton.mp
          (DirTree.proper_append.mp (here.exists_dir ((below y).mp member)).1).2
      refine List.nodup_cons.mpr ⟨fun member => ?_, List.nodup_cons.mpr
        ⟨fun member => (proper' _ member).2 rfl, nodup⟩⟩
      rcases List.mem_cons.mp member with same | member
      · exact absurd same (by decide)
      · exact (proper' _ member).1 rfl
    rw [List.map_map]
    refine (List.perm_ext_iff_of_nodup (List.pairwise_map.mpr (Store.pairwise_liveEntries ok dir))
      apart).mpr fun y => ?_
    rw [List.mem_cons, List.mem_cons, below]
    exact here.mem_names_iff proper leads dir notRoot
  · obtain ⟨e, live, rfl⟩ := List.mem_map.mp member
    have target := here.isDir_of_refers proper leads ((Store.mem_liveEntries_iff ok dir).mp live)
    change (s.disk.inodeOf e.inodeNum).type = fileTypeDir
    rw [Store.inodeOf_eq (ok.used_valid _ target.1)]
    exact target.2

end Dirs
end KwHomework
