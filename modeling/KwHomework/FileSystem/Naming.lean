import KwHomework.FileSystem.Exhaustion

/-!
# Names

Neither `CreateFile` nor `MakeDir` looks whether the name is there already.  As long as the caller
takes care of that, names of at most 11 bytes stay distinct, whatever they start with, and a file is
found again under its path.
-/

namespace KwHomework

open Function FS

/-- The path leads through directories to a name that is not there yet, and an inode is free. -/
structure NewName (v : Volume) (path : Path) (p : CInt) (x : List Byte) : Prop where
  parent : ∃ dirs, path.tokens = dirs ++ [x] ∧ v.tree.Leads 0#32 dirs p
  dir : v.IsDir p
  short : x.length ≤ 11
  new : ∀ m, ¬ v.tree.Refers p x m
  free : v.HasFreeInode

/-- Files and directories are made under new names. -/
def Call.MakesNew (w : View) : Call → Prop
  | .createFile path | .makeDir path => ∃ p x, NewName w.volume path p x
  | _ => False

/-- The descriptor is open at the start of an inode. -/
def View.Starts (w : View) (fileDesc n : CInt) : Prop :=
  ∃ bound : fileDesc.toNat < maxFdEntryMax, w.opened ⟨fileDesc.toNat, bound⟩ ⟨0#32, n⟩

/-- What holds between the calls. -/
structure View.Making (w : View) : Prop where
  searchable : w.volume.Searchable
  freeBlank : w.volume.FreeBlank
  zero : w.heap = fun _ _ => 0#8

/-- A new entry, beside the old ones. -/
structure Volume.Entered (v : Volume) (p : CInt) (x : List Byte) (n : CInt) (v' : Volume) :
    Prop where
  searchable : v'.Searchable
  freeBlank : v'.FreeBlank
  kept : ∀ d y m, v.tree.Refers d y m → v'.tree.Refers d y m
  new : v'.tree.Refers p x n

namespace Volume

variable {v v₁ : Volume} {p n : CInt} {x : List Byte} {s : Slot}

/-- `CreateFile` enters a name. -/
theorem entered_newEntry (ok : v.Searchable) (blank : v.FreeBlank) (dir : v.IsDir p)
    (holds : v.ptr (p, s.1) ≠ 0#32) (empty : (v.entry p s).name = []) (valid : ValidInode n)
    (unused : v.inodeUsed n = false) (named : x ≠ []) (string : 0#8 ∉ x) (short : x.length < 12)
    (new : ∀ m, ¬ v.tree.Refers p x m) : v.Entered p x n ((v.putEntry p s n x).newFile n) := by
  have tree := tree_newEntry ok.blocks dir holds unused named string short
  have refers := DirTree.refers_addFile (x := x) (n := n)
    (slot_eq_none empty : v.tree.slot p s = none)
  rw [← tree] at refers
  refine ⟨ok.newEntry dir holds valid unused named string short new,
    FreeBlank.newFile (v := v.putEntry p s n x) blank n, fun d y m old => ?_, ?_⟩
  · exact (refers d y m).mpr (Or.inr old)
  · exact (refers p x n).mpr (Or.inl ⟨rfl, rfl, rfl⟩)

theorem Entered.toDir (entered : v.Entered p x n v₁) (used : v₁.inodeUsed n = true)
    (empty : ∀ k, v₁.ptr (n, k) = 0#32) (parent : v₁.inodeUsed p = true)
    (notDir : ¬ v₁.IsDir n) : v.Entered p x n (v₁.toDir n p) := by
  have ok := entered.searchable
  have kept : ∀ d y m, v₁.tree.Refers d y m → (v₁.toDir n p).tree.Refers d y m := by
    intro d y m refers
    have other : d ≠ n := by
      rintro rfl
      obtain ⟨s, entry⟩ := refers
      exact notDir (slot_eq_some.mp entry).1
    rw [tree_toDir ok.blocks used empty]
    exact (DirTree.refers_toDir_of_ne other y m).mpr refers
  exact ⟨ok.toDir used empty parent, entered.freeBlank.toDir used empty p,
    fun d y m old => kept d y m (entered.kept d y m old), kept p x n entered.new⟩

/-- `MakeDir` enters a name. -/
theorem entered_makeDir {r : Fin numOfDirectBlockPtr × Option (Fin numOfDirentPerBlock)}
    (ok : v.Searchable) (blank : v.FreeBlank) (dir : v.IsDir p) (room : v.room p = some r)
    (free : v.HasFreeInode) (named : x ≠ []) (string : 0#8 ∉ x) (short : x.length < 12)
    (new : ∀ m, ¬ v.tree.Refers p x m) : v.Entered p x v.freeInodeNum (v.makeDir p x r) := by
  obtain ⟨valid, unused⟩ := freeInodeNum_spec free
  rw [makeDir]
  generalize v.freeInodeNum = n at valid unused
  -- the volume with room, which has the same tree
  obtain ⟨ok₁, blank₁, tree₁, used₁, dir₁, holds, empty⟩ :
      (v.makeRoom p r).1.Searchable ∧ (v.makeRoom p r).1.FreeBlank ∧
      (v.makeRoom p r).1.tree = v.tree ∧ (v.makeRoom p r).1.inodeUsed = v.inodeUsed ∧
      (v.makeRoom p r).1.IsDir p ∧ (v.makeRoom p r).1.ptr (p, (v.makeRoom p r).2.1) ≠ 0#32 ∧
      ((v.makeRoom p r).1.entry p (v.makeRoom p r).2).name = [] := by
    obtain ⟨k, _ | j⟩ := r
    · have null : v.ptr (p, k) = 0#32 := firstRoom_grow room
      refine ⟨ok.grow dir null, blank.grow dir.1 k, tree_grow ok.blocks null, rfl,
        (isDir_grow p).mpr dir, ?_, ?_⟩
      · rw [makeRoom, ptr_grow, update_self]
        exact fun same => zero_notMem_pool (same ▸ ok.blocks.freeBlockNum.1)
      · rw [makeRoom, entry_grow ok.blocks, if_pos rfl]
    · obtain ⟨holds, empty⟩ := firstRoom_slot room
      exact ⟨ok, blank, rfl, rfl, dir, holds, of_decide_eq_true empty⟩
  have unused₁ : (v.makeRoom p r).1.inodeUsed n = false := by rwa [used₁]
  have file := entered_newEntry ok₁ blank₁ dir₁ holds empty valid unused₁ named string short
    (by rwa [tree₁])
  have entered : v.Entered p x n
      (((v.makeRoom p r).1.putEntry p (v.makeRoom p r).2 n x).newFile n) := by
    refine ⟨file.searchable, file.freeBlank, fun d y m old => file.kept d y m ?_, file.new⟩
    rwa [tree₁]
  refine entered.toDir (by simp [newFile]) (fun k => ?_) ?_ ?_
  · rw [ptr_newFile]
    exact blank₁ n unused₁ k
  · obtain ⟨s, entry⟩ := file.new
    exact (slot_eq_some.mp entry).1.1
  · simp [IsDir, newFile]

end Volume

/-! ## The calls -/

section Making

variable {w : View} {path : Path} {p : CInt} {x : List Byte}

theorem NewName.spec {v : Volume} (name : NewName v path p x) : x ≠ [] ∧ 0#8 ∉ x ∧
    x.length < 12 := by
  obtain ⟨dirs, tokens, _⟩ := name.parent
  obtain ⟨named, string⟩ := path.tokens_spec x (by simp [tokens])
  exact ⟨named, string, Nat.lt_succ_of_le name.short⟩

private theorem View.Making.createFile (making : w.Making) (name : NewName w.volume path p x) :
    ∃ r w', Yields (createFile path) w r w' ∧ w'.Making ∧
      (∀ d y m, w.volume.tree.Refers d y m → w'.volume.tree.Refers d y m) ∧
      (r ≠ -1 → ∃ n, w'.Starts r n ∧ w'.volume.tree.Refers p x n) := by
  obtain ⟨dirs, tokens, leads⟩ := name.parent
  obtain ⟨named, string, short⟩ := name.spec
  have zero : ∀ count, (fun n => w.heap (n + count)) = fun _ _ => 0#8 := fun count => by
    rw [making.zero]
  cases slot : w.volume.freeSlot p with
  | none =>
      refine ⟨-1, _, yields_createFile_full making.searchable tokens leads name.dir slot,
        ⟨making.searchable, making.freeBlank, zero 1⟩, fun _ _ _ => id, fun ne => absurd rfl ne⟩
  | some s =>
      obtain ⟨valid, unused⟩ := Volume.freeInodeNum_spec name.free
      obtain ⟨holds, empty⟩ := firstSlot_eq_some slot
      have entered := Volume.entered_newEntry making.searchable making.freeBlank name.dir holds
        (of_decide_eq_true empty) valid unused named string short name.new
      refine ⟨_, _, yields_createFile making.searchable tokens leads name.dir slot name.free,
        ⟨entered.searchable, entered.freeBlank, zero 2⟩, entered.kept, fun ne =>
        ⟨w.volume.freeInodeNum, ?_, entered.new⟩⟩
      cases free : firstUnused w.pFileDesc with
      | none =>
          rw [openAt, free] at ne
          exact absurd rfl ne
      | some i =>
          obtain ⟨bound, here⟩ := descriptor_index i
          simp only [openAt, free]
          refine ⟨bound, ?_⟩
          rw [here, Memory.opened]
          simp only [update_self]

private theorem View.Making.makeDir (making : w.Making) (name : NewName w.volume path p x) :
    ∃ r w', Yields (makeDir path) w r w' ∧ w'.Making ∧
      ∀ d y m, w.volume.tree.Refers d y m → w'.volume.tree.Refers d y m := by
  obtain ⟨dirs, tokens, leads⟩ := name.parent
  obtain ⟨named, string, short⟩ := name.spec
  cases room : w.volume.room p with
  | none =>
      have zero : (fun n => w.heap (n + 1)) = fun _ _ => 0#8 := by rw [making.zero]
      exact ⟨_, _, yields_makeDir_full making.searchable tokens leads name.dir room,
        ⟨making.searchable, making.freeBlank, zero⟩, fun _ _ _ => id⟩
  | some r =>
      have entered := Volume.entered_makeDir making.searchable making.freeBlank name.dir room
        name.free named string short name.new
      exact ⟨_, _, yields_makeDir making.searchable tokens leads name.dir making.zero room
        name.free, ⟨entered.searchable, entered.freeBlank, making.zero⟩, entered.kept⟩

theorem View.Making.openFile (making : w.Making) {dirs : List (List Byte)} {n : CInt}
    (tokens : path.tokens = dirs ++ [x]) (leads : w.volume.tree.Leads 0#32 dirs p)
    (refers : w.volume.tree.Refers p x n) (unused : ∃ i, (w.pFileDesc i).bUsed = false) :
    ∃ r w', Yields (openFile path) w r w' ∧ w'.Starts r n := by
  obtain ⟨s, entry⟩ := refers
  obtain ⟨dir, _⟩ := Volume.slot_eq_some.mp entry
  obtain ⟨i, _, opens⟩ := exists_openAt unused n
  obtain ⟨bound, here⟩ := descriptor_index i
  have run := yields_openFile making.searchable tokens leads dir entry
  rw [opens] at run
  refine ⟨_, _, run, bound, ?_⟩
  rw [here, Memory.opened]
  simp only [update_self]

end Making

/-! ## Runs -/

theorem making_call {s s' : FileSys} {c : Call} (making : s.view.Making) (fine : c.MakesNew s.view)
    (run : exec c.code s = some ((), s')) : s'.view.Making ∧
      ∀ d y m, s.view.volume.tree.Refers d y m → s'.view.volume.tree.Refers d y m := by
  cases c with
  | createFile path =>
      obtain ⟨p, x, name⟩ := fine
      obtain ⟨r, w', yields, making', kept, _⟩ := making.createFile name
      rw [yields.view_of_effect run]
      exact ⟨making', kept⟩
  | makeDir path =>
      obtain ⟨p, x, name⟩ := fine
      obtain ⟨r, w', yields, making', kept⟩ := making.makeDir name
      rw [yields.view_of_effect run]
      exact ⟨making', kept⟩
  | openFile | writeFile | readFile | closeFile | removeFile | removeDir | enumerateDirStatus
  | getFileStatus | sync => exact fine.elim

private theorem View.formatted_making : View.formatted.Making :=
  ⟨Volume.consistent_formatted.searchable, Volume.freeBlank_formatted, rfl⟩

private theorem making_of_reachable {s : FileSys}
    (reachable : Reachable Formatted Call.MakesNew s) :
    s.view.Making :=
  reachable.invariant (fun _ here => here.view ▸ View.formatted_making)
    fun _ _ _ making fine run => (making_call making fine run).1

theorem kept_of_reachable {s s' : FileSys} (making : s.view.Making)
    (reachable : Reachable (· = s) Call.MakesNew s') : s'.view.Making ∧
      ∀ d y m, s.view.volume.tree.Refers d y m → s'.view.volume.tree.Refers d y m := by
  let good : View → Prop := fun w =>
    w.Making ∧ ∀ d y m, s.view.volume.tree.Refers d y m → w.volume.tree.Refers d y m
  change good s'.view
  refine reachable.invariant (fun t same => ?_) fun t t' c good fine run => ?_
  · rw [same]
    exact ⟨making, fun _ _ _ => id⟩
  · obtain ⟨making', kept⟩ := making_call good.1 fine run
    exact ⟨making', fun d y m old => kept d y m (good.2 d y m old)⟩

/-- When files and directories are made under new names of at most 11 bytes, the names in a
directory are distinct, and a file that was made is opened under its path from then on. -/
theorem names_of_run {s : FileSys} (reachable : Reachable Formatted Call.MakesNew s) :
    (∀ d e e', s.view.volume.Occupied d e → s.view.volume.Occupied d e' →
      (s.view.volume.entry d e).name = (s.view.volume.entry d e').name → e = e') ∧
    ∀ path fileDesc s₁, (Call.createFile path).MakesNew s.view →
      exec (createFile path) s = some (fileDesc, s₁) → fileDesc ≠ -1 →
      ∃ n, s₁.view.Starts fileDesc n ∧ ∀ s₂, Reachable (· = s₁) Call.MakesNew s₂ →
        (∃ i, (s₂.pFileDesc i).bUsed = false) → ∃ fileDesc' s₃,
          exec (openFile path) s₂ = some (fileDesc', s₃) ∧ s₃.view.Starts fileDesc' n := by
  have making := making_of_reachable reachable
  constructor
  · rintro d e e' ⟨dir, holds, live⟩ ⟨_, holds', _⟩ same
    have entry : s.view.volume.tree.slot d e =
        some ((s.view.volume.entry d e).name, (s.view.volume.entry d e).inodeNum) :=
      Volume.slot_eq_some.mpr ⟨dir, holds, live, rfl⟩
    have entry' : s.view.volume.tree.slot d e' =
        some ((s.view.volume.entry d e).name, (s.view.volume.entry d e').inodeNum) :=
      Volume.slot_eq_some.mpr ⟨dir, holds', live, by rw [same]⟩
    exact making.searchable.distinct entry entry'
  · rintro path fileDesc s₁ ⟨p, x, name⟩ run opened
    obtain ⟨dirs, tokens, leads⟩ := name.parent
    obtain ⟨r, w', yields, making₁, kept, found⟩ := making.createFile name
    obtain ⟨rfl, rfl⟩ := yields.unique run
    obtain ⟨n, starts, refers⟩ := found opened
    refine ⟨n, starts, fun s₂ later unused => ?_⟩
    obtain ⟨making₂, kept₂⟩ := kept_of_reachable making₁ later
    have leads₂ : s₂.view.volume.tree.Leads _ _ _ :=
      leads.mono fun d y m old => kept₂ d y m (kept d y m old)
    obtain ⟨fileDesc', w₃, yields₃, starts₃⟩ :=
      making₂.openFile tokens leads₂ (kept₂ p x n refers) unused
    obtain ⟨s₃, run₃, rfl⟩ := yields₃ s₂ rfl
    exact ⟨fileDesc', s₃, run₃, starts₃⟩

/-- `/a` on a formatted disk is a new name. -/
theorem makesNew_pathA {s : FileSys} (here : Formatted s) :
    (Call.createFile pathA).MakesNew s.view := by
  rw [here.view]
  exact ⟨0#32, [97#8], ⟨[], by rw [tokens_pathA]; rfl, rfl⟩, Volume.formatted_isDir, by decide,
    Volume.formatted_new (by decide) 0#32, Volume.formatted_free⟩

/-- The file `/a` of a formatted disk is found again. -/
theorem names_of_run_first : ∃ s s₁ n, Formatted s ∧ exec (createFile pathA) s = some (0#32, s₁) ∧
    s₁.view.Starts 0#32 n ∧
    (∀ d e e', s₁.view.volume.Occupied d e → s₁.view.volume.Occupied d e' →
      (s₁.view.volume.entry d e).name = (s₁.view.volume.entry d e').name → e = e') ∧
    ∀ s₂, Reachable (· = s₁) Call.MakesNew s₂ → (∃ i, (s₂.pFileDesc i).bUsed = false) →
      ∃ fileDesc s₃, exec (openFile pathA) s₂ = some (fileDesc, s₃) ∧
        s₃.view.Starts fileDesc n := by
  obtain ⟨s, here⟩ := exists_formatted
  obtain ⟨_, s₁, run, _⟩ := exists_createdA here
  have new := makesNew_pathA here
  have next : Reachable Formatted Call.MakesNew s₁ :=
    .call (.start here) new (by rw [Call.code, effect, exec_bind, run]; rfl)
  obtain ⟨n, starts, found⟩ := (names_of_run (.start here)).2 pathA 0#32 s₁ new run (by decide)
  exact ⟨s, s₁, n, here, run, starts, (names_of_run next).1, found⟩

/-- `CreateFile("/a")` twice makes two entries of the same name. -/
theorem createFile_same_name : ∃ s r r' s₁ s₂, Formatted s ∧
    exec (createFile pathA) s = some (r, s₁) ∧ exec (createFile pathA) s₁ = some (r', s₂) ∧
    ∃ d e e', e ≠ e' ∧ s₂.view.volume.Occupied d e ∧ s₂.view.volume.Occupied d e' ∧
      (s₂.view.volume.entry d e).name = (s₂.view.volume.entry d e').name := by
  obtain ⟨s, here⟩ := exists_formatted
  obtain ⟨n, s₁, run, made⟩ := exists_createdA here
  obtain ⟨e, slot, volume⟩ := made.volume
  obtain ⟨e', slot'⟩ := Option.ne_none_iff_exists'.mp (Volume.formatted_moreRoom slot n)
  rw [← volume] at slot'
  have names : Names s₁.view.volume pathA 0#32 [97#8] :=
    made.created.names (Volume.names_pathA Volume.formatted_isDir)
  have searchable := made.sound.consistent.searchable
  obtain ⟨holds, empty⟩ := firstSlot_eq_some slot'
  have free : s₁.view.volume.HasFreeInode := by
    by_cases one : n = 1#32
    · refine ⟨2#32, by decide, ?_⟩
      rw [made.created.used, update_of_ne (by rw [one]; decide)]
      decide
    · refine ⟨1#32, by decide, ?_⟩
      rw [made.created.used, update_of_ne (Ne.symm one)]
      decide
  obtain ⟨dirs, tokens, leads⟩ := names.parent
  obtain ⟨s₂, run', view⟩ := yields_createFile searchable tokens leads names.dir slot' free s₁ rfl
  -- the tree with the second entry, which is beside the first one
  have tree : s₂.view.volume.tree =
      s₁.view.volume.tree.addFile 0#32 e' [97#8] s₁.view.volume.freeInodeNum := by
    rw [view]
    exact Volume.tree_newEntry searchable.blocks names.dir holds (Volume.freeInodeNum_spec free).2
      (by decide) (by decide) (by decide)
  obtain ⟨e₁, old⟩ := made.created.new
  have apart : e₁ ≠ e' := by
    rintro rfl
    obtain ⟨_, _, live, same⟩ := Volume.slot_eq_some.mp old
    have name := of_decide_eq_true empty
    rw [same] at name
    exact live name
  have first : s₂.view.volume.tree.slot 0#32 e₁ = some ([97#8], n) := by
    rw [tree, DirTree.slot_addFile]
    exact Or.inr ⟨fun both => apart both.2, old⟩
  have last : s₂.view.volume.tree.slot 0#32 e' =
      some ([97#8], s₁.view.volume.freeInodeNum) := by
    rw [tree, DirTree.slot_addFile]
    exact Or.inl ⟨rfl, rfl, rfl, rfl⟩
  obtain ⟨dir, holds₁, live₁, same₁⟩ := Volume.slot_eq_some.mp first
  obtain ⟨_, holds₂, live₂, same₂⟩ := Volume.slot_eq_some.mp last
  refine ⟨s, _, _, s₁, s₂, here, run, run', 0#32, e₁, e', apart, ⟨dir, holds₁, ?_⟩,
    ⟨dir, holds₂, ?_⟩, ?_⟩
  · rw [same₁]
    exact live₁
  · rw [same₂]
    exact live₂
  · rw [same₁, same₂]

end KwHomework
