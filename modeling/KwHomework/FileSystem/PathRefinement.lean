import KwHomework.FileSystem.PathFiles
import KwHomework.FileSystem.ReadBack

/-!
# The file system refines files under paths

Each well-formed call does one step of the abstract file system: creation and removal add and take
away one path, a transfer changes the contents under one path and moves one descriptor, and the
calls that look at the metadata tell what is under a path.
-/

namespace KwHomework

open Function FS

/-! ## Nodes before and after -/

section Nodes

variable {w w' : View} {p n m : CInt} {x : List Byte}

theorem View.nodes_update (w : View) (i : Fin maxFdEntryMax) (used : Bool) (pOpenFile : FilePtr) :
    ({ w with pFileDesc := update w.pFileDesc i ⟨used, pOpenFile⟩ } : View).nodes =
      w.nodes.hold i pOpenFile.held := by
  simp only [View.nodes, NodeStore.hold, NodeStore.mk.injEq, true_and]
  funext j
  by_cases same : j = i <;> simp [same]

theorem Volume.Created.describe (created : w.volume.Created p x n w'.volume)
    (dir : w.volume.IsDir p) (unused : w.volume.inodeUsed n = false)
    (used : w.volume.inodeUsed m = true) : w'.nodes.describe m = w.nodes.describe m := by
  have other : m ≠ n := by
    rintro rfl
    rw [used] at unused
    cases unused
  by_cases parent : m = p
  · subst parent
    obtain ⟨_, entry⟩ := created.new
    have dir' : w'.volume.IsDir m := created.consistent.tree.slot_dir entry
    rw [NodeStore.describe_dir (s := w'.nodes) dir', NodeStore.describe_dir (s := w.nodes) dir]
  · have same := created.same m parent other
    refine NodeStore.describe_congr ?_ same.content
    change w'.volume.IsDir m ↔ w.volume.IsDir m
    rw [Volume.IsDir, Volume.IsDir, same.inode, created.used, update_of_ne other]

theorem Volume.Removed.describe (removed : w.volume.Removed p x n w'.volume)
    (dir : ∀ d, w'.volume.IsDir d ↔ d ≠ n ∧ w.volume.IsDir d) (parent : w.volume.IsDir p)
    (other : m ≠ n) : w'.nodes.describe m = w.nodes.describe m := by
  by_cases here : m = p
  · subst here
    have dir' : w'.volume.IsDir m := (dir m).mpr ⟨other, parent⟩
    rw [NodeStore.describe_dir (s := w'.nodes) dir', NodeStore.describe_dir (s := w.nodes) parent]
  · refine NodeStore.describe_congr ?_ (removed.same m here other).content
    exact (dir m).trans (and_iff_right other)

theorem Volume.isDir_removeDir (v : Volume) (p : CInt) (s : Slot) (n d : CInt) :
    (v.removeDir p s n).IsDir d ↔ d ≠ n ∧ v.IsDir d := by
  rw [Volume.removeDir, isDir_release]
  refine and_congr_right fun _ => ?_
  rw [Volume.shrink]
  split_ifs
  · by_cases same : d = p
    · subst same
      simp [IsDir, unassign, Inode.withoutBlock, dropEntry]
    · simp [IsDir, unassign, dropEntry, same]
  · rfl

end Nodes

/-- The path of a call is a path in normal form to the parent, and a name. -/
theorem Names.normal {w : View} {path : Path} {p : CInt} {x : List Byte}
    (names : Names w.volume path p x) (ok : w.nodes.Ok 0#32 dot dotDot) :
    ∃ dir, path.normal = dir ++ [x] ∧ DirTree.Proper dot dotDot dir ∧
      w.nodes.tree.Leads 0#32 dir p := by
  obtain ⟨dirs, tokens, leads⟩ := names.parent
  refine ⟨DirTree.normal dot dotDot dirs, ?_, DirTree.proper_normal dirs,
    ok.tree.leads_normal leads⟩
  rw [Path.normal, tokens, DirTree.normal_concat_proper names.good.proper]

/-! ## Creation -/

section Creation

variable {w w' : View} {a : Files} {path : Path} {p n : CInt} {x : List Byte}

/-- A new node is shown under the new path. -/
theorem Models.create (models : Models w a) (names : Names w.volume path p x)
    (new : ∀ m, ¬ w.volume.tree.Refers p x m) (unused : w.volume.inodeUsed n = false)
    (created : w.volume.Created p x n w'.volume) (same : w'.pFileDesc = w.pFileDesc) :
    (a.put path.normal (w'.nodes.describe n)).Shows w'.nodes 0#32 dot dotDot ∧
      w'.nodes.Ok 0#32 dot dotDot ∧ w'.nodes.tree.Leads 0#32 path.normal n := by
  obtain ⟨dir, normal, proper, leads⟩ := names.normal models.ok
  have fresh : ¬ w.nodes.tree.used n := by
    change ¬ w.volume.inodeUsed n = true
    rw [unused]
    exact Bool.false_ne_true
  have held : w'.nodes.held = w.nodes.held := by simp only [View.nodes, same]
  have used : ∀ m, w'.volume.inodeUsed m = true → m = n ∨ w.volume.inodeUsed m = true := by
    intro m used
    by_cases here : m = n
    · exact Or.inl here
    · rw [created.used, update_of_ne here] at used
      exact Or.inr used
  have describe := fun m => created.describe (m := m) names.dir unused
  have proper' : DirTree.Proper dot dotDot (dir ++ [x]) :=
    DirTree.proper_append.mpr ⟨proper, DirTree.proper_singleton.mpr names.good.proper⟩
  rw [normal]
  refine ⟨models.shows.add models.ok leads proper names.good.proper new fresh created.refers
    describe held, ⟨created.consistent.tree,
    models.ok.reached_add leads proper names.good.proper fresh created.refers used, ?_⟩,
    (models.ok.tree.leads_added leads proper fresh created.refers proper' n).mpr
    (Or.inl ⟨rfl, rfl⟩)⟩
  intro d m pos open_
  rw [held] at open_
  obtain ⟨old, file⟩ := models.ok.held open_
  refine ⟨?_, fun dir' => file ?_⟩
  · change w'.volume.inodeUsed m = true
    rw [created.used]
    by_cases here : m = n
    · rw [here, update_self]
    · rwa [update_of_ne here]
  · rw [← NodeStore.describe_eq_dir_iff, ← describe m old]
    exact NodeStore.describe_dir dir'

/-- Opening a file takes the least descriptor that is not in use. -/
theorem Models.opens (models : Models w a) {normal : List (List Byte)}
    (proper : DirTree.Proper dot dotDot normal) (leads : w.nodes.tree.Leads 0#32 normal n)
    (file : w.volume.IsFile n) :
    ∃ a', a.Opens normal (openAt w.pFileDesc n).1 a' ∧
      Models { w with pFileDesc := (openAt w.pFileDesc n).2 } a' := by
  obtain ⟨sound, sized, ok, shows⟩ := models
  have sound' : ({ w with pFileDesc := (openAt w.pFileDesc n).2 } : View).Sound AtBlock :=
    ⟨sound.consistent, sound.freeBlank, sound.zero,
    sound_openAt sound.descriptors ⟨file, atBlock_zero⟩⟩
  have closed : ∀ i, a.opened i = none ↔ (w.pFileDesc i).bUsed = false := fun i =>
    (shows.opened_eq_none_iff ok).trans (held_eq_none_iff sound)
  rw [openAt] at sound' ⊢
  cases found : firstUnused w.pFileDesc with
  | none =>
      simp only [found] at sound' ⊢
      refine ⟨a, .noDescriptor fun i none => ?_, sound', sized, ok, shows⟩
      have used := List.find?_eq_none.mp found i (List.mem_finRange i)
      simp [(closed i).mp none] at used
  | some i =>
      simp only [found] at sound' ⊢
      have lowest : a.Lowest i := by
        refine ⟨(closed i).mpr (by simpa using List.find?_some found), fun j before none => ?_⟩
        have first := (List.find?_eq_some_iff_getElem.mp found).2
        obtain ⟨k, bound, here, earlier⟩ := first
        have index : k = (i : Nat) := by
          rw [← here]
          simp
        have unused := earlier j (by omega)
        simp [(closed j).mp none] at unused
      refine ⟨_, .opened lowest, sound', sized, ?_, ?_⟩
      · rw [View.nodes_update]
        refine ok.hold i fun m pos same => ?_
        simp only [FilePtr.held, Option.some.injEq, Prod.mk.injEq] at same
        rw [← same.1]
        exact ⟨file.1, file.not_isDir⟩
      · rw [View.nodes_update, held_of_atBlock (Nat.zero_le 5) rfl]
        exact shows.seek ok proper leads i 0

end Creation

/-! ## Removal -/

section Removal

variable {w w' : View} {a : Files} {path : Path} {p n : CInt} {x : List Byte}

/-- A node without proper entries is no longer shown. -/
theorem Models.remove (models : Models w a) (names : Names w.volume path p x)
    (refers : w.volume.tree.Refers p x n)
    (empty : ∀ y m, w.volume.tree.Refers n y m → y = dot ∨ y = dotDot)
    (removed : w.volume.Removed p x n w'.volume)
    (dir : ∀ d, w'.volume.IsDir d ↔ d ≠ n ∧ w.volume.IsDir d) (same : w'.pFileDesc = w.pFileDesc)
    (closed : ∀ d pos, w.nodes.held d ≠ some (n, pos)) :
    (a.erase path.normal).Shows w'.nodes 0#32 dot dotDot ∧ w'.nodes.Ok 0#32 dot dotDot := by
  obtain ⟨before, normal, proper, leads⟩ := names.normal models.ok
  have held : w'.nodes.held = w.nodes.held := by simp only [View.nodes, same]
  have used : ∀ m, w'.volume.inodeUsed m = true → m ≠ n ∧ w.volume.inodeUsed m = true := by
    intro m used
    by_cases here : m = n
    · rw [removed.used, here, update_self] at used
      cases used
    · rw [removed.used, update_of_ne here] at used
      exact ⟨here, used⟩
  have describe := fun m other => removed.describe (m := m) dir names.dir other
  rw [normal]
  refine ⟨models.shows.remove models.ok leads proper refers names.good.proper empty removed.refers
    (fun m other _ => describe m other) held closed, removed.consistent.tree,
    models.ok.reached_remove leads proper refers names.good.proper empty removed.refers used, ?_⟩
  intro d m pos open_
  rw [held] at open_
  have other : m ≠ n := fun here => closed d pos (here ▸ open_)
  obtain ⟨old, file⟩ := models.ok.held open_
  refine ⟨?_, fun dir' => file ((dir m).mp dir').2⟩
  change w'.volume.inodeUsed m = true
  rw [removed.used, update_of_ne other]
  exact old

/-- What is shown of a directory without proper entries. -/
theorem Models.entry_below_eq_none (models : Models w a) {normal : List (List Byte)}
    (leads : w.nodes.tree.Leads 0#32 normal n)
    (empty : ∀ y m, w.volume.tree.Refers n y m → y = dot ∨ y = dotDot) (y : List Byte) :
    a.entry (normal ++ [y]) = none := by
  refine Option.eq_none_iff_forall_ne_some.mpr fun e found => ?_
  obtain ⟨proper', m, leads', _⟩ := (models.shows.entry ..).mp found
  obtain ⟨d, leads', refers⟩ := (DirTree.leads_concat ..).mp leads'
  obtain rfl := models.ok.tree.leads_unique leads' leads
  obtain ⟨ne, ne'⟩ := DirTree.proper_singleton.mp (DirTree.proper_append.mp proper').2
  exact (empty y m refers).elim ne ne'

end Removal

/-! ## Transfers -/

section Transfers

variable {w : View} {a : Files} {i : Fin maxFdEntryMax} {file : File} {c : Nat}

/-- The file behind a descriptor, and its path. -/
theorem Models.exists_path (models : Models w a) (opened : w.opened i file) (inside : c ≤ 5)
    (offset : file.fileOffset = BitVec.ofNat 32 (512 * c)) : ∃ normal,
    DirTree.Proper dot dotDot normal ∧ w.nodes.tree.Leads 0#32 normal file.inodeNum ∧
      a.opened i = some (normal, c) ∧
      a.entry normal = some (.file (w.volume.content file.inodeNum)) := by
  have held : w.nodes.held i = some (file.inodeNum, c) := by
    simp only [View.nodes]
    rw [show (w.pFileDesc i).pOpenFile = .file file from opened]
    exact held_of_atBlock inside offset
  obtain ⟨used, notDir⟩ := models.ok.held held
  obtain ⟨normal, proper, leads⟩ := models.ok.reached _ used
  refine ⟨normal, proper, leads, models.shows.opened_of_leads proper leads held, ?_⟩
  rw [models.shows.entry_of_leads proper leads, NodeStore.describe_file notDir]
  rfl

/-- The descriptor of a file is moved. -/
theorem Models.moved (models : Models w a) (opened : w.opened i file) {normal : List (List Byte)}
    (proper : DirTree.Proper dot dotDot normal)
    (leads : w.nodes.tree.Leads 0#32 normal file.inodeNum) (inside : c ≤ 5) :
    Models { w with pFileDesc := moveOffset w.pFileDesc i file (BitVec.ofNat 32 (512 * c)) }
      (a.seek i normal c) := by
  have regular := ((models.sound.descriptors i).allowed file opened).1
  have nodes : ({ w with
      pFileDesc := moveOffset w.pFileDesc i file (BitVec.ofNat 32 (512 * c)) } : View).nodes =
      w.nodes.hold i (some (file.inodeNum, c)) := by
    rw [moveOffset, View.nodes_update, held_of_atBlock inside rfl]
  refine ⟨models.sound.moved opened ⟨c, inside, rfl⟩, models.sized, ?_, ?_⟩
  · rw [nodes]
    refine models.ok.hold i fun m pos same => ?_
    obtain ⟨rfl, _⟩ := Prod.mk.inj (Option.some.inj same)
    exact ⟨regular.1, regular.not_isDir⟩
  · rw [nodes]
    exact models.shows.seek models.ok proper leads i c

/-- The contents of a file are written. -/
theorem Models.written (models : Models w a) (opened : w.opened i file) {normal : List (List Byte)}
    (proper : DirTree.Proper dot dotDot normal)
    (leads : w.nodes.tree.Leads 0#32 normal file.inodeNum) (pBuffer : Chunk) {count : Nat}
    (inside : c + count ≤ 5) :
    Models (w.written i file pBuffer (ptrRange c count) (BitVec.ofNat 32 (512 * (c + count))))
      ((a.put normal
        (.file (FileContent.write (w.volume.content file.inodeNum) pBuffer c count))).seek i normal
        (c + count)) := by
  have sound := models.sound
  have regular := ((sound.descriptors i).allowed file opened).1
  have valid := sound.valid_opened i file opened
  have blocks := sound.consistent.blocks
  have dirs := Volume.sameDirs_write valid pBuffer blocks regular.not_isDir (ptrRange c count)
  let volume := (w.volume.write file.inodeNum pBuffer (ptrRange c count)).1
  -- the descriptor is not moved yet
  let w₁ : View :=
    { w.written i file pBuffer (ptrRange c count) (BitVec.ofNat 32 (512 * (c + count)))
    with pFileDesc := w.pFileDesc }
  have content : volume.content file.inodeNum =
      FileContent.write (w.volume.content file.inodeNum) pBuffer c count := by
    funext k
    rw [Volume.content_write blocks valid]
    exact if_congr mem_ptrRange rfl rfl
  have describe : w₁.nodes.describe file.inodeNum =
      .file (FileContent.write (w.volume.content file.inodeNum) pBuffer c count) := by
    have notDir : ¬ w₁.nodes.tree.dir file.inodeNum :=
      fun dir => regular.not_isDir ((dirs.isDir file.inodeNum).mp dir)
    rw [NodeStore.describe_file notDir, ← content]
    rfl
  have same : ∀ m, m ≠ file.inodeNum → w.nodes.tree.used m →
      w₁.nodes.describe m = w.nodes.describe m := fun m other _ =>
    NodeStore.describe_congr (dirs.isDir m)
      (Volume.SameFile.write blocks valid other pBuffer _).content
  have tree : w₁.nodes.tree = w.nodes.tree := dirs.tree
  have sound₁ : w₁.Sound AtBlock := by
    have full := sound.written opened pBuffer (ptrRange c count) atBlock_zero
    refine ⟨full.consistent, full.freeBlank, full.zero, fun j => ?_⟩
    exact (sound.descriptors j).mono fun m _ both => ⟨(dirs.isFile m).mpr both.1, both.2⟩
  have sized₁ : w₁.volume.Sized := models.sized.write valid blocks regular.1 pBuffer _
  have shows₁ : (a.put normal (w₁.nodes.describe file.inodeNum)).Shows w₁.nodes 0#32 dot dotDot :=
    models.shows.rewrite models.ok proper leads tree same rfl
  have ok₁ : w₁.nodes.Ok 0#32 dot dotDot := by
    refine ⟨tree ▸ models.ok.tree, fun m used => ?_, fun {d m pos} held => ?_⟩
    · rw [tree] at used ⊢
      exact models.ok.reached m used
    · rw [tree]
      exact models.ok.held (show w.nodes.held d = some (m, pos) from held)
  rw [describe] at shows₁
  exact Models.moved (w := w₁) ⟨sound₁, sized₁, ok₁, shows₁⟩ opened proper (tree ▸ leads) inside

end Transfers

/-! ## Metadata -/

private theorem cString_eq_zero {x : List Byte} (string : 0#8 ∉ x) {i : Nat} :
    cString x i = 0#8 ↔ x.length ≤ i := by
  rw [cString, List.getD_eq_getElem?_getD]
  rcases Nat.lt_or_ge i x.length with inside | outside
  · rw [List.getElem?_eq_getElem inside, Option.getD_some]
    refine ⟨fun zero => absurd (zero ▸ List.getElem_mem inside) string, fun outside => ?_⟩
    omega
  · simp [outside]

theorem nameField_injective {x y : List Byte} (string : 0#8 ∉ x) (string' : 0#8 ∉ y)
    (short : x.length < 12) (short' : y.length < 12) (same : nameField x = nameField y) :
      x = y := by
  have bytes : ∀ i < 12, cString x i = cString y i := fun i inside =>
    List.map_inj_left.mp same i (List.mem_range.mpr inside)
  have length : x.length = y.length := by
    have first := (cString_eq_zero string').mp ((bytes _ short).symm.trans
      ((cString_eq_zero string).mpr le_rfl))
    have second := (cString_eq_zero string).mp ((bytes _ short').trans
      ((cString_eq_zero string').mpr le_rfl))
    omega
  refine List.ext_getElem length fun i inside inside' => ?_
  have here := bytes i (by omega)
  rwa [cString, cString, List.getD_eq_getElem _ _ inside, List.getD_eq_getElem _ _ inside'] at here

section Metadata

variable {s : FileSys} {a : Files} {path : Path} {p n : CInt} {x : List Byte}
  {dirs : List (List Byte)}

/-- The path of a call leads where its normal form leads. -/
theorem Models.leads_normal {w : View} (models : Models w a) (tokens : path.tokens = dirs ++ [x])
    (leads : w.volume.tree.Leads 0#32 dirs p) (refers : w.volume.tree.Refers p x n) :
    w.nodes.tree.Leads 0#32 path.normal n := by
  refine models.ok.tree.leads_normal ?_
  rw [tokens]
  exact (DirTree.leads_concat ..).mpr ⟨p, leads, refers⟩

/-- A name that a directory holds is a string and fits the field. -/
theorem Models.name_spec {w : View} (models : Models w a) {d : CInt} {y : List Byte} {m : CInt}
    (refers : w.volume.tree.Refers d y m) : 0#8 ∉ y ∧ y.length < 12 := by
  obtain ⟨slot, entry⟩ := refers
  obtain ⟨dir, holds, _, same⟩ := Volume.slot_eq_some.mp entry
  have short := (models.sound.consistent.names d slot dir holds).1
  have name : (w.volume.block (w.volume.ptr (d, slot.1))).nameOf slot.2 = y :=
    congrArg Block.Entry.name same
  have string : 0#8 ∉ (w.volume.block (w.volume.ptr (d, slot.1))).nameOf slot.2 :=
    (Block.spells_nameByte short).1
  rw [same] at short
  exact ⟨name ▸ string, short⟩

theorem Models.fileType_describe {w : View} (models : Models w a)
    (used : w.volume.inodeUsed n = true) :
    (w.volume.inode n).type = (w.nodes.describe n).fileType := by
  rcases models.sound.consistent.kinds n used with file | dir
  · rw [NodeStore.describe_file (s := w.nodes) file.not_isDir]
    exact file.2
  · rw [NodeStore.describe_dir (s := w.nodes) dir]
    exact dir.2

/-- The records are the entries below the path. -/
theorem Models.lists (models : Models s.view a) (tokens : path.tokens = dirs ++ [x])
    (leads : s.view.volume.tree.Leads 0#32 dirs p) (refers : s.view.volume.tree.Refers p x n)
    (dir : s.view.volume.IsDir n) {dirEntrys : CInt} (capacity : 1 ≤ dirEntrys.toInt) :
    a.Lists path.normal dirEntrys
      (BitVec.ofNat 32
        (((s.disk.liveEntries n).take dirEntrys.toNat).map s.disk.record).length)
      (((s.disk.liveEntries n).take dirEntrys.toNat).map s.disk.record) := by
  have ok : s.disk.volume.Consistent := models.sound.consistent
  have leads' := models.leads_normal tokens leads refers
  have signed : dirEntrys.toInt = dirEntrys.toNat := toInt_eq_toNat (by omega)
  have live : ∀ e ∈ s.disk.liveEntries n, s.view.volume.tree.Refers n e.name e.inodeNum :=
    fun e member => (Store.mem_liveEntries_iff ok dir).mp member
  refine ⟨rfl, ?_, ?_, fun record listed => ?_, fun room y found => ?_⟩
  · rw [List.length_map, List.length_take, signed]
    omega
  · rw [List.map_map, List.Nodup, List.pairwise_map]
    have apart := (Store.pairwise_liveEntries ok dir).sublist
      (List.take_sublist dirEntrys.toNat (s.disk.liveEntries n))
    refine apart.imp_of_mem fun {e e'} member member' other same => other ?_
    obtain ⟨string, short⟩ := models.name_spec (live e (List.mem_of_mem_take member))
    obtain ⟨string', short'⟩ := models.name_spec (live e' (List.mem_of_mem_take member'))
    exact nameField_injective string string' short short' same
  · obtain ⟨e, member, rfl⟩ := List.mem_map.mp listed
    have refers' := live e (List.mem_of_mem_take member)
    obtain ⟨_, entry⟩ := refers'
    have used : s.view.volume.inodeUsed e.inodeNum = true := ok.tree.used_target entry
    refine ⟨e.name, rfl, ?_⟩
    rw [← or_assoc, or_iff_not_imp_left, not_or]
    rintro ⟨ne, ne'⟩
    have proper : DirTree.Proper dot dotDot (path.normal ++ [e.name]) :=
      DirTree.proper_append.mpr ⟨DirTree.proper_normal _, DirTree.proper_singleton.mpr ⟨ne, ne'⟩⟩
    have whole : s.view.nodes.tree.Leads 0#32 (path.normal ++ [e.name]) e.inodeNum :=
      (DirTree.leads_concat ..).mpr ⟨n, leads', _, entry⟩
    refine ⟨_, models.shows.entry_of_leads proper whole, ?_⟩
    rw [← models.fileType_describe used]
    change (s.disk.inodeOf e.inodeNum).type = _
    rw [Store.inodeOf_eq (ok.used_valid _ used)]
    rfl
  · -- the array has room left, so no entry was left out
    rw [List.length_map, List.length_take, signed] at room
    have all : (s.disk.liveEntries n).take dirEntrys.toNat = s.disk.liveEntries n :=
      List.take_of_length_le (by omega)
    rw [all]
    obtain ⟨e, found⟩ := Option.ne_none_iff_exists'.mp found
    obtain ⟨_, m, leads'', _⟩ := (models.shows.entry ..).mp found
    obtain ⟨d, leads'', refers'⟩ := (DirTree.leads_concat ..).mp leads''
    obtain rfl := models.ok.tree.leads_unique leads'' leads'
    have member := (Store.mem_liveEntries_iff ok dir (e := ⟨y, m⟩)).mpr refers'
    exact ⟨_, List.mem_map_of_mem member, rfl⟩

theorem Models.size_content {w : View} (models : Models w a) (used : w.volume.inodeUsed n = true) :
    (w.volume.inode n).size = BitVec.ofNat 32 (FileContent.size (w.volume.content n)) := by
  have blocks : (Finset.univ.filter fun k => (w.volume.content n k).isSome) =
      (w.volume.inode n).pointers := by
    ext k
    rw [Finset.mem_filter_univ, Inode.mem_pointers, Option.isSome_iff_ne_none, ne_eq,
      Volume.content_eq_none]
    rfl
  rw [(models.sized n used).size, FileContent.size, blocks]

/-- `GetFileStatus` tells what is under the path. -/
theorem Models.status {w : View} (models : Models w a) (tokens : path.tokens = dirs ++ [x])
    (leads : w.volume.tree.Leads 0#32 dirs p) (dir : w.volume.IsDir p) :
    ∃ r, Yields (Call.getFileStatus path).respond w r w ∧
      Files.Step a (.getFileStatus path) r a := by
  have run := models.sound.yields_getFileStatus tokens leads dir
  obtain ⟨named, _⟩ := path.tokens_spec x (by simp [tokens])
  cases found : w.volume.lookup p x with
  | some s =>
      rw [found] at run
      have entry := Volume.slot_of_lookup dir named found
      have leads' := models.leads_normal tokens leads ⟨s, entry⟩
      have used := models.sound.consistent.tree.used_target entry
      refine ⟨_, run.bind (.pure _ w), .status (models.shows.entry_of_leads
        (DirTree.proper_normal _) leads') (models.fileType_describe used) fun c file => ?_⟩
      rw [← (NodeStore.describe_eq_file_iff.mp file).2]
      exact models.size_content used
  | none =>
      rw [found] at run
      refine ⟨_, run.bind (.pure _ w), .noStatus tokens ?_⟩
      rw [or_iff_not_imp_right, not_or]
      intro proper
      refine models.shows.entry_eq_none fun m leads' => ?_
      rw [Path.normal, tokens, DirTree.normal_concat_proper proper] at leads'
      obtain ⟨d, leads', s, entry⟩ := (DirTree.leads_concat ..).mp leads'
      obtain rfl := models.ok.tree.leads_unique leads' (models.ok.tree.leads_normal leads)
      rw [models.sound.consistent.searchable.lookup_of_slot entry] at found
      cases found

end Metadata

end KwHomework
