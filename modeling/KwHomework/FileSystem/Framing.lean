import KwHomework.FileSystem.Format

/-!
# What a call leaves alone

A call changes one directory and the file it names.  Every other file keeps its inode and its
bytes, and every path that does not pass the changed entry still leads where it led.
-/

namespace KwHomework

open Function FS

/-- `.` and `..` do not occur in the path. -/
def ProperPath (path : List (List Byte)) : Prop := ∀ y ∈ path, y ≠ dot ∧ y ≠ dotDot

/-- The regular files but the concerned ones keep their inode and the bytes of their blocks, and
the proper paths but the touched ones lead where they led. -/
structure Framed (v v' : Volume) (concerned : CInt → Prop) (touched : List (List Byte) → Prop) :
    Prop where
  file : ∀ m, v.IsFile m → ¬ concerned m → v'.IsFile m ∧ Volume.SameFile v v' m
  path : ∀ path, ProperPath path → ¬ touched path → ∀ n,
    v'.tree.Leads 0#32 path n ↔ v.tree.Leads 0#32 path n

private theorem Framed.refl (v : Volume) (concerned : CInt → Prop)
    (touched : List (List Byte) → Prop) :
    Framed v v concerned touched :=
  ⟨fun m file _ => ⟨file, .refl v m⟩, fun _ _ _ _ => Iff.rfl⟩

/-- The path leads to an inode that the call took. -/
def Allocated (v v' : Volume) (path : Path) : Prop :=
  ∃ n, v.inodeUsed n = false ∧ v'.inodeUsed n = true ∧ v'.tree.Leads 0#32 path.tokens n

section Effects

variable {v v' : Volume} {path : Path} {p n : CInt} {x : List Byte}

namespace Volume

/-- Creation changes no file, and no path but those through the new entry. -/
theorem Created.framed (created : Created v p x n v') (dir : v.IsDir p)
    (unused : v.inodeUsed n = false) :
    Framed v v' (fun _ => False) (v.tree.Passes 0#32 p x) := by
  constructor
  · intro m file _
    have notParent : m ≠ p := fun same => file.not_isDir (same ▸ dir)
    have other : m ≠ n := by
      rintro rfl
      rw [file.1] at unused
      cases unused
    exact ⟨created.isFile dir unused file, created.same m notParent other⟩
  · intro path proper apart k
    apply DirTree.leads_iff _ proper apart
    intro d y m ne ne' elsewhere
    rw [created.refers d y m ne ne', or_iff_right]
    exact fun ⟨parent, name, _⟩ => elsewhere ⟨parent, name⟩

theorem Created.allocated (created : Created v p x n v') (unused : v.inodeUsed n = false)
    (names : Names v path p x) : Allocated v v' path := by
  obtain ⟨dirs, tokens, leads⟩ := names.parent
  refine ⟨n, unused, by rw [created.used, update_self], ?_⟩
  rw [tokens, DirTree.leads_concat]
  exact ⟨p, leads.mono created.kept, created.new⟩

/-- Removal changes no other file, and no path but those through the old entry. -/
theorem Removed.framed (removed : Removed v p x n v') (dir : v.IsDir p) :
    Framed v v' (· = n) (v.tree.Passes 0#32 p x) := by
  constructor
  · intro m file other
    have notParent : m ≠ p := fun same => file.not_isDir (same ▸ dir)
    exact ⟨removed.isFile dir other file, removed.same m notParent other⟩
  · intro path proper apart k
    apply DirTree.leads_iff _ proper apart
    intro d y m ne ne' elsewhere
    rw [removed.refers d y m ne ne', and_iff_right elsewhere]

theorem Removed.gone (removed : Removed v p x n v') (ok : v.Consistent) (names : Names v path p x)
    (k : CInt) : ¬ v'.tree.Leads 0#32 path.tokens k := by
  obtain ⟨dirs, tokens, leads⟩ := names.parent
  rw [tokens, DirTree.leads_concat]
  rintro ⟨p', leads', refers⟩
  obtain rfl : p' = p := ok.tree.leads_unique (leads'.mono removed.fewer) leads
  obtain ⟨notDot, notDotDot⟩ := names.good.proper
  exact ((removed.refers p' x k notDot notDotDot).mp refers).1 ⟨rfl, rfl⟩

end Volume

theorem framed_write (blocks : v.BlocksOwned) (valid : ValidInode n) (file : v.IsFile n)
    (pBuffer : Chunk) (ks : List (Fin numOfDirectBlockPtr)) :
    Framed v (v.write n pBuffer ks).1 (· = n) fun _ => False := by
  have dirs := Volume.sameDirs_write valid pBuffer blocks file.not_isDir ks
  constructor
  · intro m file other
    exact ⟨(dirs.isFile m).mpr file, .write blocks valid other pBuffer ks⟩
  · intro path _ _ k
    rw [dirs.tree]

end Effects

theorem Names.unique {v : Volume} {path : Path} {p p' : CInt} {x x' : List Byte}
    (ok : v.Consistent) (names : Names v path p x) (names' : Names v path p' x') :
    p' = p ∧ x' = x := by
  obtain ⟨dirs, tokens, leads⟩ := names.parent
  obtain ⟨dirs', tokens', leads'⟩ := names'.parent
  obtain ⟨rfl, same⟩ := List.append_inj' (tokens'.symm.trans tokens) rfl
  exact ⟨ok.tree.leads_unique leads' leads, List.singleton_inj.mp same⟩

/-- What each call that changes the disk does to the files and paths it does not name. -/
structure Framing (s : FileSys) : Prop where
  createFile : ∀ path p x, (Call.createFile path).WellFormed s.view →
    Names s.view.volume path p x → ∃ r s', exec (createFile path) s = some (r, s') ∧
      Framed s.view.volume s'.view.volume (fun _ => False) (s.view.volume.tree.Passes 0#32 p x) ∧
      (r ≠ -1 → Allocated s.view.volume s'.view.volume path)
  makeDir : ∀ path p x, (Call.makeDir path).WellFormed s.view →
    Names s.view.volume path p x → ∃ r s', exec (makeDir path) s = some (r, s') ∧
      Framed s.view.volume s'.view.volume (fun _ => False) (s.view.volume.tree.Passes 0#32 p x) ∧
      (r ≠ some (-1) → Allocated s.view.volume s'.view.volume path)
  writeFile : ∀ fd buffer length, (Call.writeFile fd buffer length).WellFormed s.view →
    ∃ r s', exec (writeFile fd buffer length) s = some (r, s') ∧
      ∃ (i : Fin maxFdEntryMax) (file : File), (i : Nat) = fd.toNat ∧ s.view.opened i file ∧
      Framed s.view.volume s'.view.volume (· = file.inodeNum) fun _ => False
  removeFile : ∀ path p x n, (Call.removeFile path).WellFormed s.view →
    Names s.view.volume path p x → s.view.volume.tree.Refers p x n →
    ∃ r s', exec (removeFile path) s = some (r, s') ∧
      Framed s.view.volume s'.view.volume (· = n) (s.view.volume.tree.Passes 0#32 p x) ∧
      ∀ k, ¬ s'.view.volume.tree.Leads 0#32 path.tokens k
  removeDir : ∀ path p x, (Call.removeDir path).WellFormed s.view →
    Names s.view.volume path p x → ∃ r s', exec (removeDir path) s = some (r, s') ∧
      Framed s.view.volume s'.view.volume (fun _ => False) (s.view.volume.tree.Passes 0#32 p x) ∧
      ∀ k, ¬ s'.view.volume.tree.Leads 0#32 path.tokens k

/-- In every state of a run of well-formed calls. -/
theorem framing_of_run {s : FileSys} (reachable : Reachable Formatted Call.WellFormed s) :
    Framing s := by
  have sound := sound_of_wellFormed reachable
  constructor
  · intro path p x fine names
    obtain ⟨⟨p', x', names', new, free⟩, _⟩ := fine
    obtain ⟨rfl, rfl⟩ := names.unique sound.consistent names'
    have unused := (Volume.freeInodeNum_spec free).2
    cases slot : s.view.volume.freeSlot p' with
    | none =>
        obtain ⟨s', run, view⟩ := sound.createFile_full names slot s rfl
        refine ⟨_, s', run, ?_, fun ne => absurd rfl ne⟩
        rw [view]
        exact .refl ..
    | some _ =>
        obtain ⟨w', yields, _, _, _, _, created⟩ :=
          sound.createFile names new free atBlock_zero slot
        obtain ⟨s', run, rfl⟩ := yields s rfl
        exact ⟨_, s', run, created.framed names.dir unused, fun _ => created.allocated unused names⟩
  · intro path p x fine names
    obtain ⟨⟨p', x', names', new, free⟩, _⟩ := fine
    obtain ⟨rfl, rfl⟩ := names.unique sound.consistent names'
    have unused := (Volume.freeInodeNum_spec free).2
    cases room : s.view.volume.room p' with
    | none =>
        obtain ⟨s', run, view⟩ := sound.makeDir_full names room s rfl
        refine ⟨_, s', run, ?_, fun ne => absurd rfl ne⟩
        rw [view]
        exact .refl ..
    | some _ =>
        obtain ⟨w', yields, _, _, _, created⟩ := sound.makeDir names new free room
        obtain ⟨s', run, rfl⟩ := yields s rfl
        exact ⟨_, s', run, created.framed names.dir unused, fun _ => created.allocated unused names⟩
  · intro fd buffer length fine
    obtain ⟨_, used, positive⟩ := fine
    obtain ⟨bound, file, c, opened, inode, _, _, ⟨_, yields⟩ | ⟨_, yields⟩⟩ :=
      sound.writeFile used positive buffer
    · obtain ⟨s', run, view⟩ := yields s rfl
      refine ⟨_, s', run, _, file, rfl, opened, ?_⟩
      rw [view]
      exact .refl ..
    · obtain ⟨s', run, view⟩ := yields s rfl
      refine ⟨_, s', run, _, file, rfl, opened, ?_⟩
      rw [view]
      exact framed_write sound.consistent.blocks (sound.valid_opened _ file opened) inode buffer _
  · intro path p x n fine names refers
    obtain ⟨⟨p', x', n', names', refers', file, closed⟩, _⟩ := fine
    obtain ⟨rfl, rfl⟩ := names.unique sound.consistent names'
    obtain rfl := sound.consistent.tree.refers_unique refers refers'
    obtain ⟨w', _, yields, _, _, _, _, _, removed⟩ := sound.removeFile names refers file closed
    obtain ⟨s', run, rfl⟩ := yields s rfl
    exact ⟨_, s', run, removed.framed names.dir, removed.gone sound.consistent names⟩
  · intro path p x fine names
    obtain ⟨⟨p', x', n, names', refers, dir, empty⟩, _⟩ := fine
    obtain ⟨rfl, rfl⟩ := names.unique sound.consistent names'
    obtain ⟨w', _, yields, _, _, _, _, removed⟩ := sound.removeDir names refers dir empty
    obtain ⟨s', run, rfl⟩ := yields s rfl
    obtain ⟨files, paths⟩ := removed.framed names.dir
    refine ⟨_, s', run, ⟨fun m file _ => files m file ?_, paths⟩,
      removed.gone sound.consistent names⟩
    exact fun same => file.not_isDir (same ▸ dir)

/-- While `/b` is made, the file `/a` and its path stay. -/
theorem framing_of_run_second : ∃ n s, Reachable Formatted Call.WellFormed s ∧
    s.view.volume.IsFile n ∧ s.view.volume.tree.Leads 0#32 pathA.tokens n ∧
    ∃ r s', exec (makeDir pathB) s = some (r, s') ∧ s'.view.volume.IsFile n ∧
      Volume.SameFile s.view.volume s'.view.volume n ∧
      s'.view.volume.tree.Leads 0#32 pathA.tokens n ∧
      (r ≠ some (-1) → Allocated s.view.volume s'.view.volume pathB) := by
  obtain ⟨n, s, reachable, made⟩ := exists_reachableA
  obtain ⟨fine, names⟩ := made.wellFormed_makeDirB
  obtain ⟨r, s', run, framed, allocated⟩ := (framing_of_run reachable).makeDir pathB _ _ fine names
  obtain ⟨file, same⟩ := framed.file n made.isFile id
  have leads : s.view.volume.tree.Leads 0#32 pathA.tokens n := ⟨n, made.created.new, rfl⟩
  have proper : ProperPath pathA.tokens := by
    simp [tokens_pathA, ProperPath, dot, dotDot]
  have apart : ¬ s.view.volume.tree.Passes 0#32 0#32 [98#8] pathA.tokens := by
    rintro ⟨dirs, _, rest, whole⟩
    have inside : [98#8] ∈ pathA.tokens := by simp [← whole]
    exact absurd inside (by decide)
  exact ⟨n, s, reachable, made.isFile, leads, r, s', run, file, same,
    (framed.path _ proper apart n).mpr leads, allocated⟩

end KwHomework
