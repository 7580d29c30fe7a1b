import KwHomework.FileSystem.PathSessions

/-!
# `ListDirContents`

The listing of `testcase.c` asks for the entries of a directory, for the inode of each of them, and
then once more for the status of the path that is made of the directory and the name.  It never runs
into its assertion, and the status that it prints is the one of the inode.
-/

namespace KwHomework

open Function

/-- What is printed about an entry. -/
structure ContentsLine where
  name : List Byte
  inodeNum : CInt
  type : CInt
  size : CInt
  allocBlocks : CInt
  status : Inode

namespace FS

/-- The size of `pDirEntry`. -/
def dirNumMax : CInt := 100

/-- The string in an array of characters; without a zero it has no end. -/
def textOf (field : List Byte) : Option (List Byte) :=
  if 0#8 ∈ field then some (field.takeWhile (· ≠ 0#8)) else none

/-- The path that `sprintf` makes of a text in an array of characters that has room for it. -/
def sprintfPath (room : Nat) (text : List Byte) : Option Path :=
  if bound : 0#8 ∉ text ∧ text.length < room then some ⟨text, bound.1⟩ else none

/-- `sprintf(outputName, "%s/%s", ...)` with 100 bytes for `outputName`. -/
def outputName (dirName : Path) (name : List Byte) : Option Path :=
  sprintfPath 100 (dirName.bytes ++ 47#8 :: name)

/-- The body of the loop of `ListDirContents`; `status` is not set before the first call of
`GetFileStatus` that finds its entry. -/
def listEntry (dirName : Path) (acc : List ContentsLine × Option Inode) (e : DirEntryInfo) :
    FS (List ContentsLine × Option Inode) := do
  let pInode ← getInode e.inodeNum
  if e.type = fileTypeFile ∨ e.type = fileTypeDir then
    let name ← defined (textOf e.name)
    let path ← defined (outputName dirName name)
    let r ← getFileStatus path
    let status ← defined (r.2 <|> acc.2)
    return (acc.1 ++ [⟨name, e.inodeNum, e.type, pInode.size, pInode.allocBlocks, status⟩],
      some status)
  else
    -- `assert(0)`
    fault

/-- `ListDirContents`, and what it prints. -/
def listDirContents (dirName : Path) : FS (List ContentsLine) := do
  let (count, pDirEntry) ← enumerateDirStatus dirName dirNumMax
  let (lines, _) ← (List.range count.toInt.toNat).foldlM (fun acc i => do
    let e ← defined pDirEntry[i]?
    listEntry dirName acc e) ([], none)
  return lines

end FS

open FS

/-! ## Names without slashes -/

private theorem strtokFrom_slashless : ∀ {token bytes : List Byte}, 47#8 ∉ token →
    ∀ text ∈ strtokFrom token bytes, 47#8 ∉ text
  | token, [], free, text, member => by
      rw [strtokFrom] at member
      split_ifs at member
      · cases member
      · rwa [List.mem_singleton.mp member]
  | token, byte :: rest, free, text, member => by
      rw [strtokFrom] at member
      split_ifs at member with slash
      · exact strtokFrom_slashless (by simp) text member
      · rcases List.mem_cons.mp member with rfl | later
        · exact free
        · exact strtokFrom_slashless (by simp) text later
      · refine strtokFrom_slashless (fun inside => ?_) text member
        rcases List.mem_append.mp inside with before | last
        · exact free before
        · exact slash (List.mem_singleton.mp last).symm

/-- The components behind a slash come after the ones before it. -/
theorem strtokFrom_append (rest : List Byte) : ∀ token bytes : List Byte,
    strtokFrom token (bytes ++ 47#8 :: rest) = strtokFrom token bytes ++ strtokFrom [] rest
  | token, [] => by
      rw [List.nil_append, strtokFrom, strtokFrom, if_pos rfl]
      split_ifs <;> rfl
  | token, byte :: bytes => by
      rw [List.cons_append, strtokFrom, strtokFrom]
      split_ifs
      · exact strtokFrom_append rest [] bytes
      · rw [List.cons_append, strtokFrom_append rest [] bytes]
      · exact strtokFrom_append rest _ bytes

theorem strtokFrom_name : ∀ {token name : List Byte}, 47#8 ∉ name → token ++ name ≠ [] →
    strtokFrom token name = [token ++ name]
  | token, [], _, named => by
      rw [strtokFrom, if_neg (by simpa using named), List.append_nil]
  | token, byte :: name, free, _ => by
      obtain ⟨first, later⟩ := not_or.mp (mt List.mem_cons.mpr free)
      rw [strtokFrom, if_neg (Ne.symm first), strtokFrom_name later (by simp)]
      simp

private theorem DirTree.mem_of_mem_normal {Name : Type*} [DecidableEq Name] {dot dotDot x : Name} :
    ∀ {path : List Name}, x ∈ normal dot dotDot path → x ∈ path := by
  intro path
  induction path using List.reverseRecOn with
  | nil => exact id
  | append_singleton path y induction =>
      rw [normal_concat, follow]
      split_ifs
      · exact fun member => List.mem_append_left _ (induction member)
      · exact fun member => List.mem_append_left _ (induction (List.mem_of_mem_dropLast member))
      · intro member
        rcases List.mem_append.mp member with before | last
        · exact List.mem_append_left _ (induction before)
        · exact List.mem_append_right _ last

/-- No name has a slash. -/
def Files.Slashless (a : Files) : Prop :=
  ∀ path, a.entry path ≠ none → ∀ x ∈ path, 47#8 ∉ x

private theorem Path.slashless (path : Path) : ∀ x ∈ path.normal, 47#8 ∉ x := fun x member =>
  strtokFrom_slashless (by simp) x (DirTree.mem_of_mem_normal member)

namespace Files

variable {a a' : Files}

private theorem slashless_put (free : a.Slashless) {path : List (List Byte)}
    (e : PathEntry FileContent) (free' : ∀ x ∈ path, 47#8 ∉ x) : Slashless (a.put path e) := by
  intro path' found
  rw [PathStore.entry_put] at found
  split_ifs at found with same
  · rwa [same]
  · exact free path' found

private theorem slashless_erase (free : a.Slashless) (path : List (List Byte)) :
    Slashless (a.erase path) := by
  intro path' found
  rw [PathStore.entry_erase] at found
  split_ifs at found
  · exact absurd rfl found
  · exact free path' found

private theorem Opens.slashless {path : List (List Byte)} {r : CInt} (free : a.Slashless)
    (opens : Opens a path r a') : a'.Slashless := by
  cases opens with
  | opened _ => exact free
  | noDescriptor _ => exact free

/-- The only names that calls add are components of paths. -/
theorem Step.slashless {c : Call} {r : Response} (free : a.Slashless) (step : Step a c r a') :
    a'.Slashless := by
  cases step with
  | created _ _ _ opens => exact opens.slashless (slashless_put free _ (Path.slashless _))
  | notCreated | notWritten | listed | status | noStatus | synced => exact free
  | made => exact slashless_put free _ (Path.slashless _)
  | opened _ opens => exact opens.slashless free
  | written _ _ entry _ =>
      exact slashless_put free _ (free _ (Option.ne_none_iff_exists'.mpr ⟨_, entry⟩))
  | read => exact free
  | closed => exact free
  | removed => exact slashless_erase free _
  | dirRemoved => exact slashless_erase free _

theorem Session.slashless {events : List (Call × Response)} (session : Session .initial events a) :
    a.Slashless := by
  refine session.invariant (fun _ _ _ (free : Slashless _) step => step.slashless free) ?_
  intro path found x member
  have root : path = [] := by
    by_contra other
    exact found (if_neg other)
  rw [root] at member
  cases member

end Files

/-! ## Fields and paths -/

theorem textOf_nameField {x : List Byte} (string : 0#8 ∉ x) (short : x.length < 12) :
    textOf (nameField x) = some x := by
  have field : nameField x = x ++ List.replicate (12 - x.length) 0#8 := by
    refine List.ext_getElem (by simp [nameField, maxNameLen]; omega) fun i inside _ => ?_
    simp only [nameField, List.getElem_map, List.getElem_range, cString]
    rcases Nat.lt_or_ge i x.length with before | behind
    · rw [List.getD_eq_getElem _ _ before, List.getElem_append_left before]
    · rw [List.getD_eq_default _ _ behind, List.getElem_append_right behind, List.getElem_replicate]
  have zero : 0#8 ∈ nameField x := by
    rw [field]
    exact List.mem_append_right _ (List.mem_replicate.mpr ⟨by omega, rfl⟩)
  rw [textOf, if_pos zero, field, List.takeWhile_append_of_pos, List.takeWhile_replicate]
  · simp
  · intro byte member
    exact decide_eq_true fun null => string (null ▸ member)

theorem exists_outputName {path : Path} {x : List Byte} (string : 0#8 ∉ x) (named : x ≠ [])
    (slashless : 47#8 ∉ x) (short : path.bytes.length + x.length < 99) :
    ∃ path', outputName path x = some path' ∧ path'.tokens = path.tokens ++ [x] := by
  have bound : 0#8 ∉ path.bytes ++ 47#8 :: x ∧ (path.bytes ++ 47#8 :: x).length < 100 := by
    refine ⟨fun zero => ?_, by rw [List.length_append, List.length_cons]; omega⟩
    rcases List.mem_append.mp zero with before | behind
    · exact path.nonzero before
    · exact string ((List.mem_cons.mp behind).resolve_left (by decide))
  refine ⟨_, dif_pos bound, ?_⟩
  rw [Path.tokens, Path.tokens, List.take_of_length_le (Nat.le_of_lt_succ bound.2),
    List.take_of_length_le (show path.bytes.length ≤ 99 by omega), strtokFrom_append,
    strtokFrom_name slashless (by simpa using named), List.nil_append]

namespace Store

variable {disk : Store}

/-- What is printed about an entry of a directory. -/
def contentsLine (disk : Store) (e : Block.Entry) : ContentsLine :=
  let inode := disk.inodeOf e.inodeNum
  ⟨e.name, e.inodeNum, inode.type, inode.size, inode.allocBlocks, inode⟩

/-- There are not many more entries than inodes, so `pDirEntry` is large enough. -/
theorem length_liveEntries_le (ok : disk.volume.Consistent) {n : CInt} (dir : disk.volume.IsDir n) :
    (disk.liveEntries n).length ≤ 66 := by
  have refers : ∀ i : Fin (disk.liveEntries n).length, disk.volume.tree.Refers n
      ((disk.liveEntries n).get i).name ((disk.liveEntries n).get i).inodeNum := fun i =>
    (mem_liveEntries_iff ok dir).mp (List.get_mem ..)
  choose slot entry using refers
  have names : ((disk.liveEntries n).map Block.Entry.name).Nodup :=
    List.pairwise_map.mpr (pairwise_liveEntries ok dir)
  have injective : Injective slot := by
    intro i j same
    have both := (entry i).symm.trans (same ▸ entry j)
    rw [Option.some.injEq, Prod.mk.injEq] at both
    exact List.nodup_iff_injective_get.mp names.of_map
      (List.inj_on_of_nodup_map names (List.get_mem ..) (List.get_mem ..) both.1)
  have taken : ∀ e ∈ Finset.univ.map ⟨slot, injective⟩, disk.volume.tree.slot n e ≠ none := by
    intro e member
    obtain ⟨i, _, rfl⟩ := Finset.mem_map.mp member
    exact Option.ne_none_iff_exists'.mpr ⟨_, entry i⟩
  have few := ok.tree.card_taken_le taken fun m used =>
    List.mem_toFinset.mpr (Volume.mem_inodeNums.mpr (ok.used_valid m used))
  have nodes : Volume.inodeNums.toFinset.card ≤ 64 := List.toFinset_card_le _
  rw [Finset.card_map, Finset.card_univ, Fintype.card_fin] at few
  omega

end Store

/-! ## The listing -/

theorem Models.slashless {w : View} {a : Files} (models : Models w a) (free : a.Slashless)
    {d n : CInt} {x : List Byte} (refers : w.volume.tree.Refers d x n) : 47#8 ∉ x := by
  by_cases special : x = dot ∨ x = dotDot
  · obtain rfl | rfl := special <;> decide
  · obtain ⟨s, entry⟩ := refers
    obtain ⟨path, proper, leads⟩ :=
      models.ok.reached d (models.ok.tree.dir_used d (models.ok.tree.slot_dir entry))
    have shown := models.shows.entry_of_leads
      (DirTree.proper_append.mpr ⟨proper, DirTree.proper_singleton.mpr (not_or.mp special)⟩)
      ((DirTree.leads_concat ..).mpr ⟨d, leads, s, entry⟩)
    exact free _ (Option.ne_none_iff_exists'.mpr ⟨_, shown⟩) x (by simp)

section Listing

variable {s : FileSys} {a : Files} (models : Models s.view a) (free : a.Slashless) {path : Path}
  {p n : CInt} {x : List Byte} {dirs : List (List Byte)} (tokens : path.tokens = dirs ++ [x])
  (leads : s.view.volume.tree.Leads 0#32 dirs p) (refers : s.view.volume.tree.Refers p x n)
  (dir : s.view.volume.IsDir n) (short : path.bytes.length < 88)

include models free tokens leads refers dir short

theorem yields_listEntry {e : Block.Entry} (live : e ∈ s.disk.liveEntries n)
    (acc : List ContentsLine × Option Inode) :
    Yields (listEntry path acc (s.disk.record e)) s.view
      (acc.1 ++ [s.disk.contentsLine e], some (s.disk.inodeOf e.inodeNum)) s.view := by
  have ok := models.sound.consistent
  have refers' : s.view.volume.tree.Refers n e.name e.inodeNum :=
    (Store.mem_liveEntries_iff ok dir).mp live
  obtain ⟨slot, entry⟩ := refers'
  obtain ⟨_, _, named, same⟩ := Volume.slot_eq_some.mp entry
  have used : s.view.volume.inodeUsed e.inodeNum = true := ok.tree.used_target entry
  have valid := ok.used_valid _ used
  have inode : s.disk.inodeOf e.inodeNum = s.view.volume.inode e.inodeNum := Store.inodeOf_eq valid
  obtain ⟨string, short'⟩ := models.name_spec ⟨slot, entry⟩
  obtain ⟨path', output, tokens'⟩ := exists_outputName string named
    (models.slashless free ⟨slot, entry⟩) (show path.bytes.length + e.name.length < 99 by omega)
  have kind : (s.disk.record e).type = fileTypeFile ∨ (s.disk.record e).type = fileTypeDir := by
    change (s.disk.inodeOf e.inodeNum).type = _ ∨ (s.disk.inodeOf e.inodeNum).type = _
    rw [inode]
    exact (ok.kinds _ used).imp And.right And.right
  have whole : s.view.volume.tree.Leads 0#32 (dirs ++ [x]) n :=
    (DirTree.leads_concat ..).mpr ⟨p, leads, refers⟩
  have status := models.sound.yields_getFileStatus (tokens'.trans (by rw [tokens])) whole dir
  rw [ok.searchable.lookup_of_slot entry] at status
  have target : (s.view.volume.entry n slot).inodeNum = e.inodeNum :=
    congrArg Block.Entry.inodeNum same
  simp only [Option.elim_some, target] at status
  rw [listEntry]
  refine (yields_getInode s.view valid).bind ?_
  rw [if_pos kind, show textOf (s.disk.record e).name = some e.name from
    textOf_nameField string short']
  refine (Yields.pure e.name s.view).bind ?_
  rw [output]
  refine (Yields.pure path' s.view).bind ?_
  refine status.bind ?_
  refine (Yields.pure (s.view.volume.inode e.inodeNum) s.view).bind ?_
  rw [Store.record, Store.contentsLine, inode]
  exact .pure _ s.view

theorem yields_listEntries : ∀ count k (acc : List ContentsLine × Option Inode),
    k + count ≤ (s.disk.liveEntries n).length → ∃ status,
    Yields ((List.range' k count).foldlM (fun acc i => do
      let e ← defined ((s.disk.liveEntries n).map s.disk.record)[i]?
      listEntry path acc e) acc) s.view
      (acc.1 ++ (((s.disk.liveEntries n).drop k).take count).map s.disk.contentsLine,
        status) s.view := by
  intro count
  induction count with
  | zero =>
      intro k acc _
      rw [List.take_zero, List.map_nil, List.append_nil]
      exact ⟨acc.2, .pure acc s.view⟩
  | succ count induction =>
      intro k acc inside
      have here : k < (s.disk.liveEntries n).length := by omega
      have line := yields_listEntry models free tokens leads refers dir short
        (List.getElem_mem here) acc
      obtain ⟨status, rest⟩ := induction (k + 1)
        (acc.1 ++ [s.disk.contentsLine (s.disk.liveEntries n)[k]],
        some (s.disk.inodeOf (s.disk.liveEntries n)[k].inodeNum)) (by omega)
      refine ⟨status, ?_⟩
      rw [List.range'_succ, List.foldlM_cons, List.getElem?_map, List.getElem?_eq_getElem here,
        List.drop_eq_getElem_cons here, List.take_succ_cons, List.map_cons, List.append_cons]
      exact (Yields.bind (.pure _ s.view) line).bind rest

/-- The listing prints one line for each entry. -/
theorem Models.exec_listDirContents : ∃ s',
    exec (listDirContents path) s = some ((s.disk.liveEntries n).map s.disk.contentsLine, s') ∧
      s'.view = s.view := by
  have few := Store.length_liveEntries_le models.sound.consistent dir
  have capacity : dirNumMax ≠ 0#32 := by decide
  obtain ⟨listed, s₁, enumerated, view₁, rfl⟩ :=
    models.sound.exec_enumerateDirStatus tokens leads refers dir capacity
  have all : (s.disk.liveEntries n).take dirNumMax.toNat = s.disk.liveEntries n :=
    List.take_of_length_le (by rw [show dirNumMax.toNat = 100 from rfl]; omega)
  rw [all] at enumerated
  obtain ⟨status, loop⟩ := yields_listEntries models free tokens leads refers dir short
    (s.disk.liveEntries n).length 0 ([], none) (by omega)
  obtain ⟨s', run, view'⟩ := loop s₁ view₁
  have count : (BitVec.ofNat 32 ((s.disk.liveEntries n).map s.disk.record).length).toInt.toNat =
      (s.disk.liveEntries n).length := by
    rw [List.length_map, toInt_ofNat_of_lt (by omega), Int.toNat_natCast]
  refine ⟨s', ?_, view'⟩
  rw [listDirContents, exec_bind, enumerated, Option.bind_some]
  dsimp only
  rw [count, List.range_eq_range', exec_bind, run, Option.bind_some, List.drop_zero,
    List.take_length]
  rfl

end Listing

/-- `ListDirContents` prints a line for each entry of the directory, twice from the same inode, and
never asserts. -/
theorem listDirContents_lists {s : FileSys} (reachable : Reachable Formatted Call.WellFormed s)
    {path : Path} {p n : CInt} {x : List Byte} {dirs : List (List Byte)}
    (tokens : path.tokens = dirs ++ [x]) (leads : s.view.volume.tree.Leads 0#32 dirs p)
    (refers : s.view.volume.tree.Refers p x n) (dir : s.view.volume.IsDir n)
    (short : path.bytes.length < 88) : ∃ s',
    exec (listDirContents path) s = some ((s.disk.liveEntries n).map s.disk.contentsLine, s') ∧
      s'.view = s.view ∧
      ∀ line ∈ (s.disk.liveEntries n).map s.disk.contentsLine, line.status.Sized ∧
        line.size = line.status.size ∧ line.allocBlocks = line.status.allocBlocks := by
  obtain ⟨_, a, session, models⟩ := models_of_run reachable
  have ok : s.disk.volume.Consistent := models.sound.consistent
  obtain ⟨s', run, view'⟩ :=
    models.exec_listDirContents session.slashless tokens leads refers dir short
  refine ⟨s', run, view', fun line member => ?_⟩
  obtain ⟨e, live, rfl⟩ := List.mem_map.mp member
  obtain ⟨slot, entry⟩ := (Store.mem_liveEntries_iff ok dir).mp live
  have used := ok.tree.used_target entry
  refine ⟨?_, rfl, rfl⟩
  change (s.disk.inodeOf e.inodeNum).Sized
  rw [Store.inodeOf_eq (ok.used_valid _ used)]
  exact models.sized _ used

/-- The directory `/a`. -/
theorem listDirContents_lists_dir : ∃ n s, Reachable Formatted Call.WellFormed s ∧
    s.view.volume.IsDir n ∧ ∃ s',
      exec (listDirContents pathA) s = some ((s.disk.liveEntries n).map s.disk.contentsLine, s') ∧
      s'.view = s.view ∧
      ∀ line ∈ (s.disk.liveEntries n).map s.disk.contentsLine, line.status.Sized ∧
        line.size = line.status.size ∧ line.allocBlocks = line.status.allocBlocks := by
  obtain ⟨n, s, reachable, refers, dir⟩ := exists_reachableDirA
  have tokens : pathA.tokens = [] ++ [[97#8]] := tokens_pathA
  exact ⟨n, s, reachable, dir, listDirContents_lists reachable tokens rfl refers dir (by decide)⟩

end KwHomework
