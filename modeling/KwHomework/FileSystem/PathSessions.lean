import KwHomework.FileSystem.PathRefinement

/-!
# Sessions under paths

Every session of well-formed calls after `CreateFileSystem` is a session of the files under paths,
response by response, and every well-formed call gets a response.
-/

namespace KwHomework

open Function FS

/-- A call is answered, and the step is one of the store. -/
def Matched (s : FileSys) (a : Files) (c : Call) : Prop :=
  ∃ r s' a', exec c.respond s = some (r, s') ∧ Files.Step a c r a' ∧ Models s'.view a'

private theorem matched_of_yields {s : FileSys} {a a' : Files} {c : Call} {r : Response} {w' : View}
    (run : Yields c.respond s.view r w') (step : Files.Step a c r a') (models : Models w' a') :
    Matched s a c := by
  obtain ⟨s', answered, rfl⟩ := run s rfl
  exact ⟨r, s', a', answered, step, models⟩

section Calls

variable {s : FileSys} {a : Files} (models : Models s.view a) {path : Path} {p n : CInt}
  {x : List Byte}

include models

section Create

variable (names : Names s.view.volume path p x) (new : ∀ m, ¬ s.view.volume.tree.Refers p x m)
  (free : s.view.volume.HasFreeInode)

include names new

theorem Models.entry_eq_none : a.entry path.normal = none := by
  obtain ⟨dir, normal, _, leads⟩ := names.normal models.ok
  refine models.shows.entry_eq_none fun m leads' => ?_
  rw [normal] at leads'
  obtain ⟨d, leads', refers⟩ := (DirTree.leads_concat ..).mp leads'
  obtain rfl := models.ok.tree.leads_unique leads' leads
  exact new m refers

omit new in
theorem Models.entry_parent : ∃ dir, path.normal = dir ++ [x] ∧ a.entry dir = some .dir ∧
    s.view.nodes.tree.Leads 0#32 dir p := by
  obtain ⟨dir, normal, proper, leads⟩ := names.normal models.ok
  refine ⟨dir, normal, ?_, leads⟩
  rw [models.shows.entry_of_leads proper leads, NodeStore.describe_dir
    (s := s.view.nodes) names.dir]

omit new in
/-- A directory without a free slot has many entries, unless it is the root. -/
theorem Models.mayBeFull (full : s.view.volume.freeSlot p = none) :
    ∃ dir, path.normal = dir ++ [x] ∧ a.MayBeFull dir := by
  obtain ⟨dir, normal, proper, leads⟩ := names.normal models.ok
  refine ⟨dir, normal, ?_⟩
  obtain rfl | ⟨found, many, each⟩ := models.sound.consistent.names_of_full names.dir full
  · have root : s.view.nodes.tree.Leads 0#32 [] 0#32 := rfl
    exact Or.inl (models.ok.tree.path_unique proper (fun _ member => by cases member) leads root)
  · refine Or.inr ⟨found, many, fun y member => ?_⟩
    obtain ⟨ne, ne', m, refers⟩ := each y member
    rw [models.shows.entry_of_leads (DirTree.proper_append.mpr
      ⟨proper, DirTree.proper_singleton.mpr ⟨ne, ne'⟩⟩)
      ((DirTree.leads_concat ..).mpr ⟨p, leads, refers⟩)]
    exact Option.some_ne_none _

include free

private theorem Models.createFile : Matched s a (.createFile path) := by
  obtain ⟨dir, normal, parent, _⟩ := models.entry_parent names
  have sound := models.sound
  cases slot : s.view.volume.freeSlot p with
  | none =>
      obtain ⟨dir', normal', full⟩ := models.mayBeFull names slot
      exact matched_of_yields ((sound.createFile_full names slot).bind (.pure _ _))
        (.notCreated normal' full)
        models
  | some e =>
      obtain ⟨w', run, sound', volume, fds, _, created⟩ :=
        sound.createFile names new free atBlock_zero slot
      obtain ⟨_, unused⟩ := Volume.freeInodeNum_spec free
      -- the inode is made, but not yet opened
      let w₁ : View := { w' with pFileDesc := s.view.pFileDesc }
      have file : w₁.volume.IsFile s.view.volume.freeInodeNum := by
        change w'.volume.IsFile _
        simp [volume, Volume.IsFile, Volume.newFile]
      have sound₁ : w₁.Sound AtBlock := ⟨sound'.consistent, sound'.freeBlank, sound'.zero, fun i =>
        (sound.descriptors i).mono fun m _ both =>
          ⟨created.isFile names.dir unused both.1, both.2⟩⟩
      have sized₁ : w₁.volume.Sized := by
        change w'.volume.Sized
        rw [volume]
        exact (models.sized.fill _ _).newFile (sound.freeBlank _ unused)
      obtain ⟨shows, ok, leads⟩ := models.create names new unused
        (show s.view.volume.Created p x s.view.volume.freeInodeNum w₁.volume from created) rfl
      have empty : w₁.nodes.describe s.view.volume.freeInodeNum = .file .empty := by
        rw [NodeStore.describe_file (s := w₁.nodes) file.not_isDir]
        refine congrArg PathEntry.file (funext fun k => Volume.content_eq_none.mpr ?_)
        change w'.volume.ptr _ = _
        rw [volume, Volume.ptr_newFile]
        exact sound.freeBlank _ unused k
      rw [empty] at shows
      obtain ⟨a', opens, models'⟩ := Models.opens ⟨sound₁, sized₁, ok, shows⟩
        (DirTree.proper_normal _) leads file
      refine matched_of_yields (run.bind (.pure _ _))
        (.created normal parent (models.entry_eq_none names new) opens) ?_
      rwa [show w' = { w₁ with
        pFileDesc := (openAt s.view.pFileDesc s.view.volume.freeInodeNum).2 } by rw [← fds]]

theorem Models.makeDir : Matched s a (.makeDir path) := by
  obtain ⟨dir, normal, parent, _⟩ := models.entry_parent names
  have sound := models.sound
  obtain ⟨r, room⟩ := Option.ne_none_iff_exists'.mp (sound.consistent.room_ne_none names.dir)
  obtain ⟨w', run, sound', volume, fds, created⟩ := sound.makeDir names new free room
  have made :=
    Volume.dirMade_makeDir sound.consistent sound.freeBlank names.dir room free names.good new
  obtain ⟨shows, ok, _⟩ := models.create names new (Volume.freeInodeNum_spec free).2 created fds
  have dir : w'.nodes.tree.dir s.view.volume.freeInodeNum := by
    change w'.volume.tree.dir _
    rw [volume, made.tree]
    exact Or.inl rfl
  rw [NodeStore.describe_dir dir] at shows
  refine matched_of_yields (run.bind (.pure _ _))
    (.made normal parent (models.entry_eq_none names new))
    ⟨sound', ?_, ok, shows⟩
  rw [volume]
  exact models.sized.makeDir sound.consistent sound.freeBlank names.dir room free x

end Create

section Existing

variable (names : Names s.view.volume path p x) (refers : s.view.volume.tree.Refers p x n)

include names refers

theorem Models.entry_names : s.view.nodes.tree.Leads 0#32 path.normal n ∧
    a.entry path.normal = some (s.view.nodes.describe n) := by
  obtain ⟨dirs, tokens, leads⟩ := names.parent
  have leads' := models.leads_normal tokens leads refers
  exact ⟨leads', models.shows.entry_of_leads (DirTree.proper_normal _) leads'⟩

private theorem Models.openFile (file : s.view.volume.IsFile n) : Matched s a (.openFile path) := by
  obtain ⟨leads, entry⟩ := models.entry_names names refers
  rw [NodeStore.describe_file (s := s.view.nodes) file.not_isDir] at entry
  obtain ⟨run, _⟩ := models.sound.openFile names refers atBlock_zero file
  obtain ⟨a', opens, models'⟩ := models.opens (DirTree.proper_normal _) leads file
  exact matched_of_yields (run.bind (.pure _ _)) (.opened entry opens) models'

private theorem Models.removeFile (file : s.view.volume.IsFile n) (closed : s.view.Closed n) :
    Matched s a (.removeFile path) := by
  obtain ⟨leads, entry⟩ := models.entry_names names refers
  rw [NodeStore.describe_file (s := s.view.nodes) file.not_isDir] at entry
  obtain ⟨w', e, run, sound', slot, volume, fds, _, removed⟩ :=
    models.sound.removeFile names refers file closed
  have dir : ∀ d, w'.volume.IsDir d ↔ d ≠ n ∧ s.view.volume.IsDir d := by
    intro d
    rw [volume, Volume.isDir_release]
    rfl
  have unheld : ∀ d pos, s.view.nodes.held d ≠ some (n, pos) := by
    intro d pos held
    obtain ⟨file, opened, same⟩ := exists_opened_of_held held
    exact closed d file ((models.sound.descriptors d).used_iff.mpr ⟨file, opened⟩) opened same
  have empty : ∀ y m, s.view.volume.tree.Refers n y m → y = dot ∨ y = dotDot :=
    fun y m ⟨_, slot⟩ => absurd (Volume.slot_eq_some.mp slot).1 file.not_isDir
  obtain ⟨shows, ok⟩ := models.remove names refers empty removed dir fds unheld
  refine matched_of_yields (run.bind (.pure _ _))
    (.removed entry fun i pos opened => ?_) ⟨sound', ?_, ok, shows⟩
  · obtain ⟨_, m, leads', held⟩ := (models.shows.opened ..).mp opened
    obtain rfl := models.ok.tree.leads_unique leads' leads
    exact unheld i pos held
  · rw [volume]
    exact Volume.Sized.release (v := s.view.volume.dropEntry p e) models.sized n

theorem Models.removeDir (dir : s.view.volume.IsDir n)
    (empty : ∀ y m, s.view.volume.tree.Refers n y m → y = dot ∨ y = dotDot) :
    Matched s a (.removeDir path) := by
  obtain ⟨leads, entry⟩ := models.entry_names names refers
  rw [NodeStore.describe_dir (s := s.view.nodes) dir] at entry
  obtain ⟨w', e, run, sound', slot, volume, fds, removed⟩ :=
    models.sound.removeDir names refers dir empty
  have dirs : ∀ d, w'.volume.IsDir d ↔ d ≠ n ∧ s.view.volume.IsDir d :=
    fun d => volume ▸ Volume.isDir_removeDir s.view.volume p e n d
  have unheld : ∀ d pos, s.view.nodes.held d ≠ some (n, pos) := fun d pos held =>
    (models.ok.held held).2 dir
  obtain ⟨shows, ok⟩ := models.remove names refers empty removed dirs fds unheld
  refine matched_of_yields (run.bind (.pure _ _))
    (.dirRemoved entry (models.entry_below_eq_none leads empty)) ⟨sound', ?_, ok, shows⟩
  obtain ⟨parent, holds, _⟩ := Volume.slot_eq_some.mp slot
  rw [volume, Volume.removeDir]
  exact (Volume.Sized.shrink (v := s.view.volume.dropEntry p e) models.sized parent.1
    holds).release n

end Existing

section Descriptors

variable {fileDesc length : CInt} (used : s.view.Opened fileDesc)

include used

private theorem Models.writeFile (positive : 1 ≤ length.toInt) (pBuffer : Chunk) :
    Matched s a (.writeFile fileDesc pBuffer length) := by
  obtain ⟨bound, file, c, opened, _, inside, offset, ⟨tooLong, run⟩ | ⟨fits, run⟩⟩ :=
    models.sound.writeFile used positive pBuffer
  · obtain ⟨normal, _, _, position, _⟩ := models.exists_path opened inside offset
    exact matched_of_yields (run.bind (.pure _ _)) (.notWritten rfl position tooLong) models
  · obtain ⟨normal, proper, leads, position, entry⟩ := models.exists_path opened inside offset
    exact matched_of_yields (run.bind (.pure _ _)) (.written rfl position entry fits)
      (models.written opened proper leads pBuffer fits)

private theorem Models.closeFile : Matched s a (.closeFile fileDesc) := by
  obtain ⟨bound, file, opened, _⟩ := models.sound.exists_file used
  have closed : ∀ opened, FilePtr.freed ≠ .file opened := fun _ same => by cases same
  refine matched_of_yields ((yields_closeFile bound opened).bind (.pure _ _))
    (.closed (i := ⟨fileDesc.toNat, bound⟩) rfl ?_)
    ⟨models.sound.closed _ closed, models.sized, ?_, ?_⟩
  · rw [ne_eq, models.shows.opened_eq_none_iff models.ok, held_eq_none_iff models.sound,
      (models.sound.descriptors _).used_iff.mpr ⟨file, opened⟩]
    exact Bool.noConfusion
  · rw [closeAt, View.nodes_update]
    exact models.ok.hold _ fun _ _ same => by cases same
  · rw [closeAt, View.nodes_update]
    exact models.shows.close _

private theorem Models.readFile (nonneg : 0 ≤ length.toInt) (small : length.toInt ≤ 512)
    (before : ∀ (i : Fin maxFdEntryMax) file, (i : Nat) = fileDesc.toNat → s.view.opened i file →
      file.fileOffset.toInt < 2560) :
    Matched s a (.readFile fileDesc length) := by
  have sound := models.sound
  obtain ⟨bound, file, opened, _, c, inside, offset⟩ := sound.exists_file used
  have last := before _ file rfl opened
  have next : c < 5 := by
    by_contra full
    rw [offset, show c = 5 by omega] at last
    exact absurd last (by decide)
  have count : length.toNat ≤ 512 := by
    rw [toInt_eq_toNat nonneg] at small
    omega
  obtain ⟨normal, proper, leads, position, entry⟩ := models.exists_path opened inside offset
  obtain ⟨data, s', run, view', stored⟩ := readFile_view bound opened sound.consistent.blocks
    (sound.valid_opened _ file opened) ⟨c, next⟩ offset count rfl
  refine ⟨_, s', _, by rw [Call.respond, exec_bind, run]; rfl,
    .read (k := ⟨c, next⟩) rfl position entry (by simp) fun blk holds => ?_, ?_⟩
  · rw [Volume.content] at holds
    split_ifs at holds with null
    rw [stored null, Option.some.inj holds]
  · rw [view']
    exact models.moved opened proper leads next

end Descriptors

section Metadata

variable {dirs : List (List Byte)} (tokens : path.tokens = dirs ++ [x])
  (leads : s.view.volume.tree.Leads 0#32 dirs p)

include tokens leads

private theorem Models.getFileStatus (dir : s.view.volume.IsDir p) :
    Matched s a (.getFileStatus path) := by
  obtain ⟨r, run, step⟩ := models.status tokens leads dir
  exact matched_of_yields run step models

/-- Without room in the array one entry is listed all the same. -/
theorem Models.enumerateDirStatus (refers : s.view.volume.tree.Refers p x n)
    (dir : s.view.volume.IsDir n) (dirEntrys : CInt) :
    Matched s a (.enumerateDirStatus path dirEntrys) := by
  have entry := models.shows.entry_of_leads (DirTree.proper_normal _)
    (models.leads_normal tokens leads refers)
  rw [NodeStore.describe_dir (s := s.view.nodes) dir] at entry
  by_cases capacity : 1 ≤ dirEntrys.toInt
  · have nonzero : dirEntrys ≠ 0#32 := by
      rintro rfl
      exact absurd capacity (by decide)
    obtain ⟨listed, s', run, view', rfl⟩ :=
      models.sound.exec_enumerateDirStatus tokens leads refers dir nonzero
    have lists := models.lists tokens leads refers dir capacity
    exact ⟨_, s', a, by rw [Call.respond, exec_bind, run]; rfl, .listed entry fun _ => lists,
      view' ▸ models⟩
  · obtain ⟨r, run⟩ := models.sound.enumerateDirStatus tokens leads refers dir dirEntrys
    exact matched_of_yields (run.bind (.pure _ _))
      (.listed entry fun room => absurd room capacity) models

end Metadata

/-- Every well-formed call is answered, as one step of the files under paths. -/
theorem Models.call {c : Call} (fine : c.WellFormed s.view) : Matched s a c := by
  obtain ⟨proper, bounds⟩ := fine
  cases c with
  | createFile path =>
      obtain ⟨p, x, names, new, free⟩ := proper
      exact models.createFile names new free
  | openFile path =>
      obtain ⟨p, x, n, names, refers, file⟩ := proper
      exact models.openFile names refers file
  | writeFile fd buffer length => exact models.writeFile bounds.1 bounds.2 buffer
  | readFile fd length =>
      obtain ⟨used, nonneg, small, before⟩ := bounds
      exact models.readFile used nonneg small before
  | closeFile fd => exact models.closeFile bounds
  | removeFile path =>
      obtain ⟨p, x, n, names, refers, file, closed⟩ := proper
      exact models.removeFile names refers file closed
  | makeDir path =>
      obtain ⟨p, x, names, new, free⟩ := proper
      exact models.makeDir names new free
  | removeDir path =>
      obtain ⟨p, x, n, names, refers, dir, empty⟩ := proper
      exact models.removeDir names refers dir empty
  | enumerateDirStatus path count =>
      obtain ⟨dirs, x, p, n, tokens, leads, refers, dir⟩ := proper
      exact models.enumerateDirStatus tokens leads refers dir count
  | getFileStatus path =>
      obtain ⟨dirs, x, p, tokens, leads, dir⟩ := proper
      exact models.getFileStatus tokens leads dir
  | sync => exact ⟨_, s, a, by rw [Call.respond, exec_bind, FS.sync, exec_bufSync]; rfl, .synced,
      models⟩

end Calls

/-! ## Sessions -/

/-- A formatted disk shows the root directory. -/
theorem models_formatted : Models .formatted .initial := by
  have root : ∀ {n}, Volume.formatted.inodeUsed n = true → n = 0#32 := by
    intro n used
    by_contra other
    simp [Volume.formatted, update_of_ne other] at used
  have here : View.formatted.nodes.tree.Leads 0#32 [] 0#32 := rfl
  have described : View.formatted.nodes.describe 0#32 = .dir :=
    NodeStore.describe_dir (s := View.formatted.nodes) Volume.formatted_isDir
  -- the only entry is a special one
  have leads : ∀ {path n}, DirTree.Proper dot dotDot path →
      View.formatted.nodes.tree.Leads 0#32 path n → path = [] ∧ n = 0#32 := by
    intro path n proper leads
    cases path with
    | nil => exact ⟨rfl, leads.symm⟩
    | cons x path =>
        obtain ⟨m, ⟨e, entry⟩, _⟩ := leads
        obtain ⟨_, _, same, _⟩ := Volume.slot_formatted.mp entry
        exact absurd same (proper x List.mem_cons_self).1
  have closed : ∀ {i : Fin maxFdEntryMax} {m pos}, View.formatted.nodes.held i ≠ some (m, pos) := by
    intro i m pos held
    cases held
  refine ⟨View.formatted_sound, Volume.sized_formatted, ⟨Volume.consistent_formatted.tree,
    fun n used => ?_, fun held => (closed held).elim⟩, fun path e => ?_, fun d path pos => ?_⟩
  · obtain rfl := root used
    exact ⟨[], fun _ member => (by cases member), here⟩
  · change (if path = [] then some PathEntry.dir else none) = some e ↔ _
    by_cases same : path = []
    · subst same
      rw [if_pos rfl]
      constructor
      · rintro ⟨rfl⟩
        exact ⟨fun _ member => (by cases member), 0#32, here, described⟩
      · rintro ⟨proper, n, there, rfl⟩
        rw [(leads proper there).2, described]
    · rw [if_neg same]
      apply iff_of_false (Option.some_ne_none _).symm
      rintro ⟨proper, n, there, _⟩
      exact same (leads proper there).1
  · apply iff_of_false (Option.some_ne_none _).symm
    rintro ⟨_, _, _, held⟩
    exact closed held

theorem models_of_session {s₀ s : FileSys} {events : List (Call × Response)}
    (formatted : Formatted s₀) (session : Trace Serves s₀ events s) :
    ∃ a, Files.Session .initial events a ∧ Models s.view a := by
  refine session.simulates (R := fun s a => Models s.view a) (fun s a event s' models serves => ?_)
    (formatted.view ▸ models_formatted)
  obtain ⟨r, s'', a', run, step, models'⟩ := models.call serves.1
  obtain ⟨rfl, rfl⟩ := Prod.mk.inj (Option.some.inj (run.symm.trans serves.2))
  exact ⟨a', step, models'⟩

/-- Every session is one of the files under paths, which are what is seen of the volume in the end,
and every well-formed call is answered as one of their steps. -/
theorem session_under_paths {s₀ s : FileSys} {events : List (Call × Response)}
    (formatted : Formatted s₀) (session : Trace Serves s₀ events s) :
    ∃ a, Files.Session .initial events a ∧ a.WellFormed ∧ a.Shows s.view.nodes 0#32 dot dotDot ∧
      ∀ c, c.WellFormed s.view → ∃ r s' a', Serves s (c, r) s' ∧ Files.Step a c r a' := by
  obtain ⟨a, run, models⟩ := models_of_session formatted session
  refine ⟨a, run, models.shows.wellFormed models.ok, models.shows, fun c fine => ?_⟩
  obtain ⟨r, s', a', answered, step, _⟩ := models.call fine
  exact ⟨r, s', a', ⟨fine, answered⟩, step⟩

/-- A session that creates `/a`. -/
theorem session_under_paths_createFile : ∃ s₀ r s, Formatted s₀ ∧
    Trace Serves s₀ [(.createFile pathA, r)] s ∧
    ∃ a, Files.Session .initial [(.createFile pathA, r)] a ∧ a.WellFormed ∧
      a.Shows s.view.nodes 0#32 dot dotDot ∧
      ∀ c, c.WellFormed s.view → ∃ r' s' a', Serves s (c, r') s' ∧ Files.Step a c r' a' := by
  obtain ⟨s₀, formatted⟩ := exists_formatted
  have models : Models s₀.view .initial := formatted.view ▸ models_formatted
  have fine : (Call.createFile pathA).WellFormed s₀.view := formatted.view ▸ wellFormed_pathA.2
  obtain ⟨r, s, _, answered, _⟩ := models.call fine
  have session : Trace Serves s₀ [(.createFile pathA, r)] s := (Trace.nil s₀).snoc ⟨fine, answered⟩
  exact ⟨s₀, r, s, formatted, session, session_under_paths formatted session⟩

/-! ## Runs -/

/-- Every state of a run shows files under paths, which a session leads to. -/
theorem models_of_run {s : FileSys} (reachable : Reachable Formatted Call.WellFormed s) :
    ∃ events a, Files.Session .initial events a ∧ Models s.view a := by
  induction reachable with
  | start formatted => exact ⟨_, _, .nil _, formatted.view ▸ models_formatted⟩
  | @call s s' c _ fine run induction =>
      obtain ⟨events, a, session, models⟩ := induction
      obtain ⟨r, answered⟩ := exists_response run
      obtain ⟨r', s'', a', answered', step, models'⟩ := models.call fine
      obtain ⟨rfl, rfl⟩ := Prod.mk.inj (Option.some.inj (answered.symm.trans answered'))
      exact ⟨events ++ [(c, r)], a', session.snoc step, models'⟩

/-- An inode is in use when one path leads to it, and no other path does. -/
theorem used_iff_existsUnique_path {s : FileSys} (reachable : Reachable Formatted Call.WellFormed s)
    (n : CInt) : s.view.volume.inodeUsed n = true ↔
      ∃! path, DirTree.Proper dot dotDot path ∧ s.view.volume.tree.Leads 0#32 path n := by
  obtain ⟨_, a, _, models⟩ := models_of_run reachable
  constructor
  · intro used
    obtain ⟨path, proper, leads⟩ := models.ok.reached n used
    exact ⟨path, ⟨proper, leads⟩, fun path' both =>
      models.ok.tree.path_unique both.1 proper both.2 leads⟩
  · rintro ⟨path, ⟨_, leads⟩, _⟩
    exact models.ok.tree.used_of_leads leads

/-- Behind the creation of `/a`, its inode and the root are in use. -/
theorem used_iff_existsUnique_path_createFile : ∃ n s, Reachable Formatted Call.WellFormed s ∧
    n ≠ 0#32 ∧ s.view.volume.IsFile n ∧ s.view.volume.tree.Leads 0#32 pathA.tokens n ∧
    ∀ m, s.view.volume.inodeUsed m = true ↔
      ∃! path, DirTree.Proper dot dotDot path ∧ s.view.volume.tree.Leads 0#32 path m := by
  obtain ⟨n, s, reachable, made⟩ := exists_reachableA
  have other : n ≠ 0#32 := fun same => made.isFile.not_isDir (same ▸ made.isDir_root)
  exact ⟨n, s, reachable, other, made.isFile, ⟨n, made.created.new, rfl⟩,
    used_iff_existsUnique_path reachable⟩

end KwHomework
