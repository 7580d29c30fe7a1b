import KwHomework.Volume.Paths

/-!
# Stores of files under paths

To its users a file system is a map from paths to directories and to the contents of files, with
positions in the files that are open.  `Shows` says when such a store is what can be seen of a tree
of nodes, and each operation on the nodes is matched here by one on the paths.
-/

namespace KwHomework

open Function

/-- What a path leads to. -/
inductive PathEntry (Content : Type*) where
  | dir
  | file (content : Content)

/-- Directories and files under paths, and positions in open files. -/
structure PathStore (Name Content Desc : Type*) where
  entry : List Name → Option (PathEntry Content)
  opened : Desc → Option (List Name × Nat)

/-- A tree of nodes with the contents of its files, and positions in nodes that are open. -/
structure NodeStore (Node Name Slot Content Desc : Type*) where
  tree : DirTree Node Name Slot
  content : Node → Content
  held : Desc → Option (Node × Nat)

namespace PathStore

variable {Name Content Desc : Type*}

section Operations

variable [DecidableEq Name] [DecidableEq Desc]

/-- A directory or a file is put under a path. -/
def put (a : PathStore Name Content Desc) (path : List Name) (e : PathEntry Content) :
    PathStore Name Content Desc :=
  { a with entry := update a.entry path (some e) }

omit [DecidableEq Desc] in
theorem entry_put (a : PathStore Name Content Desc) (path path' : List Name)
    (e : PathEntry Content) :
    (a.put path e).entry path' = if path' = path then some e else a.entry path' :=
  update_apply ..

/-- What is under a path is taken away. -/
def erase (a : PathStore Name Content Desc) (path : List Name) : PathStore Name Content Desc :=
  { a with entry := update a.entry path none }

omit [DecidableEq Desc] in
theorem entry_erase (a : PathStore Name Content Desc) (path path' : List Name) :
    (a.erase path).entry path' = if path' = path then none else a.entry path' :=
  update_apply ..

/-- A descriptor gets a position in the file under a path. -/
def seek (a : PathStore Name Content Desc) (d : Desc) (path : List Name) (pos : Nat) :
    PathStore Name Content Desc :=
  { a with opened := update a.opened d (some (path, pos)) }

/-- A descriptor is closed. -/
def close (a : PathStore Name Content Desc) (d : Desc) : PathStore Name Content Desc :=
  { a with opened := update a.opened d none }

end Operations

/-- What is under a path lies in a directory, and descriptors are open on files. -/
structure WellFormed (a : PathStore Name Content Desc) : Prop where
  root : a.entry [] = some .dir
  parent : ∀ {path x e}, a.entry (path ++ [x]) = some e → a.entry path = some .dir
  opened : ∀ {d path pos}, a.opened d = some (path, pos) → ∃ c, a.entry path = some (.file c)

end PathStore

namespace NodeStore

variable {Node Name Slot Content Desc : Type*}

open Classical in
/-- What a node is. -/
noncomputable def describe (s : NodeStore Node Name Slot Content Desc) (n : Node) :
    PathEntry Content :=
  if s.tree.dir n then .dir else .file (s.content n)

/-- A descriptor gets a position in a node, or is closed. -/
def hold [DecidableEq Desc] (s : NodeStore Node Name Slot Content Desc) (d : Desc)
    (position : Option (Node × Nat)) : NodeStore Node Name Slot Content Desc :=
  { s with held := update s.held d position }

section Describe

variable {s s' : NodeStore Node Name Slot Content Desc} {n : Node}

theorem describe_dir (dir : s.tree.dir n) : s.describe n = .dir := if_pos dir

theorem describe_file (file : ¬ s.tree.dir n) : s.describe n = .file (s.content n) := if_neg file

theorem describe_eq_dir_iff : s.describe n = .dir ↔ s.tree.dir n := by
  rw [describe]
  split_ifs with dir <;> simp [dir]

theorem describe_eq_file_iff {c : Content} :
    s.describe n = .file c ↔ ¬ s.tree.dir n ∧ s.content n = c := by
  rw [describe]
  split_ifs with dir <;> simp [dir]

theorem describe_congr (dir : s'.tree.dir n ↔ s.tree.dir n) (content : s'.content n = s.content n) :
    s'.describe n = s.describe n := by
  by_cases here : s.tree.dir n
  · rw [describe_dir here, describe_dir (dir.mpr here)]
  · rw [describe_file here, describe_file fun there => here (dir.mp there), content]

end Describe

/-- The tree is well-formed, every node in use is reached on a proper path, and the nodes that are
open are files in use. -/
structure Ok (s : NodeStore Node Name Slot Content Desc) (root : Node) (dot dotDot : Name) :
    Prop where
  tree : s.tree.WellFormed root dot dotDot
  reached : ∀ n, s.tree.used n → ∃ path, DirTree.Proper dot dotDot path ∧ s.tree.Leads root path n
  held : ∀ {d n pos}, s.held d = some (n, pos) → s.tree.used n ∧ ¬ s.tree.dir n

end NodeStore

namespace PathStore

variable {Node Name Slot Content Desc : Type*}

/-- The store is what the nodes show on proper paths. -/
structure Shows (a : PathStore Name Content Desc) (s : NodeStore Node Name Slot Content Desc)
    (root : Node) (dot dotDot : Name) : Prop where
  entry : ∀ path e, a.entry path = some e ↔ DirTree.Proper dot dotDot path ∧
    ∃ n, s.tree.Leads root path n ∧ s.describe n = e
  opened : ∀ d path pos, a.opened d = some (path, pos) ↔ DirTree.Proper dot dotDot path ∧
    ∃ n, s.tree.Leads root path n ∧ s.held d = some (n, pos)

namespace Shows

variable {a : PathStore Name Content Desc} {s s' : NodeStore Node Name Slot Content Desc}
  {root p n : Node} {dot dotDot x : Name} {dirs path : List Name} {d : Desc} {pos : Nat}

section Read

variable (shows : a.Shows s root dot dotDot)

include shows

theorem entry_of_leads (proper : DirTree.Proper dot dotDot path)
    (leads : s.tree.Leads root path n) :
    a.entry path = some (s.describe n) :=
  (shows.entry ..).mpr ⟨proper, n, leads, rfl⟩

theorem entry_eq_none (missing : ∀ m, ¬ s.tree.Leads root path m) : a.entry path = none := by
  refine Option.eq_none_iff_forall_ne_some.mpr fun e found => ?_
  obtain ⟨_, m, leads, _⟩ := (shows.entry ..).mp found
  exact missing m leads

theorem opened_of_leads (proper : DirTree.Proper dot dotDot path) (leads : s.tree.Leads root path n)
    (held : s.held d = some (n, pos)) : a.opened d = some (path, pos) :=
  (shows.opened ..).mpr ⟨proper, n, leads, held⟩

/-- A descriptor of the store is open when the one of the nodes is. -/
theorem opened_eq_none_iff (ok : s.Ok root dot dotDot) : a.opened d = none ↔ s.held d = none := by
  constructor
  · intro closed
    refine Option.eq_none_iff_forall_ne_some.mpr fun ⟨n, pos⟩ held => ?_
    obtain ⟨path, proper, leads⟩ := ok.reached n (ok.held held).1
    rw [shows.opened_of_leads proper leads held] at closed
    cases closed
  · intro closed
    refine Option.eq_none_iff_forall_ne_some.mpr fun ⟨path, pos⟩ opened => ?_
    obtain ⟨_, n, _, held⟩ := (shows.opened ..).mp opened
    rw [closed] at held
    cases held

/-- What a tree shows is well-formed. -/
theorem wellFormed (ok : s.Ok root dot dotDot) : a.WellFormed where
  root := by
    have here : s.tree.Leads root [] root := rfl
    rw [shows.entry_of_leads (fun x member => by cases member) here,
      NodeStore.describe_dir ok.tree.root_dir]
  parent := by
    intro path x e found
    obtain ⟨proper, n, leads, _⟩ := (shows.entry ..).mp found
    obtain ⟨m, leads, _, entry⟩ := (DirTree.leads_concat ..).mp leads
    rw [shows.entry_of_leads (DirTree.proper_append.mp proper).1 leads,
      NodeStore.describe_dir (ok.tree.slot_dir entry)]
  opened := by
    intro d path pos opened
    obtain ⟨proper, n, leads, held⟩ := (shows.opened ..).mp opened
    exact ⟨s.content n, by
      rw [shows.entry_of_leads proper leads, NodeStore.describe_file (ok.held held).2]⟩

end Read

/-! ## Operations -/

section Steps

variable [DecidableEq Name] (shows : a.Shows s root dot dotDot) (ok : s.Ok root dot dotDot)

include shows ok

/-- A new node under a new path. -/
theorem add (parent : s.tree.Leads root dirs p) (proper : DirTree.Proper dot dotDot dirs)
    (named : x ≠ dot ∧ x ≠ dotDot) (new : ∀ m, ¬ s.tree.Refers p x m) (fresh : ¬ s.tree.used n)
    (refers : ∀ d y m, y ≠ dot → y ≠ dotDot →
      (s'.tree.Refers d y m ↔ (d = p ∧ y = x ∧ m = n) ∨ s.tree.Refers d y m))
    (same : ∀ m, s.tree.used m → s'.describe m = s.describe m) (held : s'.held = s.held) :
    (a.put (dirs ++ [x]) (s'.describe n)).Shows s' root dot dotDot := by
  have proper' : DirTree.Proper dot dotDot (dirs ++ [x]) :=
    DirTree.proper_append.mpr ⟨proper, DirTree.proper_singleton.mpr named⟩
  have leads := fun {path} (proper'' : DirTree.Proper dot dotDot path) m =>
    ok.tree.leads_added parent proper fresh refers proper'' m
  constructor
  · intro path e
    rw [entry_put]
    split_ifs with here
    · subst here
      have unique : ∀ m, s'.tree.Leads root (dirs ++ [x]) m ↔ m = n := by
        intro m
        rw [leads proper']
        refine ⟨?_, fun same => Or.inl ⟨rfl, same⟩⟩
        rintro (⟨_, same⟩ | old)
        · exact same
        · obtain ⟨p', leads', refers'⟩ := (DirTree.leads_concat ..).mp old
          obtain rfl := ok.tree.leads_unique leads' parent
          exact absurd refers' (new m)
      simp [unique, proper']
    · rw [shows.entry]
      refine and_congr_right fun proper'' => exists_congr fun m => ?_
      rw [leads proper'', or_iff_right fun both => here both.1]
      exact and_congr_right fun old => by rw [same m (ok.tree.used_of_leads old)]
  · intro d path pos
    change a.opened d = _ ↔ _
    rw [shows.opened, held]
    refine and_congr_right fun proper'' => exists_congr fun m => and_congr_left fun open_ => ?_
    rw [leads proper'', or_iff_right]
    rintro ⟨_, rfl⟩
    exact fresh (ok.held open_).1

/-- A node without proper references goes away. -/
theorem remove (parent : s.tree.Leads root dirs p) (proper : DirTree.Proper dot dotDot dirs)
    (target : s.tree.Refers p x n) (named : x ≠ dot ∧ x ≠ dotDot)
    (empty : ∀ y m, s.tree.Refers n y m → y = dot ∨ y = dotDot)
    (refers : ∀ d y m, y ≠ dot → y ≠ dotDot →
      (s'.tree.Refers d y m ↔ ¬ (d = p ∧ y = x) ∧ s.tree.Refers d y m))
    (same : ∀ m, m ≠ n → s.tree.used m → s'.describe m = s.describe m) (held : s'.held = s.held)
    (closed : ∀ d pos, s.held d ≠ some (n, pos)) :
    (a.erase (dirs ++ [x])).Shows s' root dot dotDot := by
  have whole : s.tree.Leads root (dirs ++ [x]) n :=
    (DirTree.leads_concat ..).mpr ⟨p, parent, target⟩
  have proper' : DirTree.Proper dot dotDot (dirs ++ [x]) :=
    DirTree.proper_append.mpr ⟨proper, DirTree.proper_singleton.mpr named⟩
  have leads := fun {path} (proper'' : DirTree.Proper dot dotDot path) m =>
    ok.tree.leads_removed parent proper target named empty refers proper'' m
  have apart : ∀ {path m}, DirTree.Proper dot dotDot path → path ≠ dirs ++ [x] →
      s.tree.Leads root path m → m ≠ n := by
    rintro path m proper'' other old rfl
    exact other (ok.tree.path_unique proper'' proper' old whole)
  constructor
  · intro path e
    rw [entry_erase]
    split_ifs with here
    · subst here
      simp [leads proper']
    · rw [shows.entry]
      refine and_congr_right fun proper'' => exists_congr fun m => ?_
      rw [leads proper'', and_iff_right here]
      exact and_congr_right fun old => by
        rw [same m (apart proper'' here old) (ok.tree.used_of_leads old)]
  · intro d path pos
    change a.opened d = _ ↔ _
    rw [shows.opened, held]
    refine and_congr_right fun proper'' => exists_congr fun m => and_congr_left fun open_ => ?_
    rw [leads proper'', and_iff_right_of_imp]
    rintro old rfl
    obtain rfl := ok.tree.leads_unique old whole
    exact closed d pos open_

/-- The contents of one node change. -/
theorem rewrite (proper : DirTree.Proper dot dotDot path) (leads : s.tree.Leads root path n)
    (refers : s'.tree = s.tree) (same : ∀ m, m ≠ n → s.tree.used m → s'.describe m = s.describe m)
    (held : s'.held = s.held) : (a.put path (s'.describe n)).Shows s' root dot dotDot := by
  constructor
  · intro path' e
    rw [entry_put, refers]
    split_ifs with here
    · subst here
      have unique : ∀ m, s.tree.Leads root path' m ↔ m = n :=
        fun m => ⟨fun old => ok.tree.leads_unique old leads, fun same => same ▸ leads⟩
      simp [unique, proper]
    · rw [shows.entry]
      refine and_congr_right fun proper' => exists_congr fun m => and_congr_right fun old => ?_
      rw [same m ?_ (ok.tree.used_of_leads old)]
      rintro rfl
      exact here (ok.tree.path_unique proper' proper old leads)
  · intro d path' pos
    rw [refers, held]
    exact shows.opened d path' pos

end Steps

section Descriptors

variable [DecidableEq Desc] (shows : a.Shows s root dot dotDot)

include shows

/-- A descriptor gets a position in a node. -/
theorem seek (ok : s.Ok root dot dotDot) (proper : DirTree.Proper dot dotDot path)
    (leads : s.tree.Leads root path n) (d : Desc) (pos : Nat) :
    (a.seek d path pos).Shows (s.hold d (some (n, pos))) root dot dotDot := by
  refine ⟨shows.entry, fun d' path' pos' => ?_⟩
  change update a.opened d _ d' = _ ↔ _
  by_cases here : d' = d
  · subst here
    simp only [NodeStore.hold, update_self, Option.some.injEq, Prod.mk.injEq]
    constructor
    · rintro ⟨rfl, rfl⟩
      exact ⟨proper, n, leads, rfl, rfl⟩
    · rintro ⟨proper', m, leads', rfl, same⟩
      exact ⟨ok.tree.path_unique proper proper' leads leads', same⟩
  · simp only [NodeStore.hold, update_of_ne here]
    exact shows.opened d' path' pos'

/-- A descriptor is closed. -/
theorem close (d : Desc) : (a.close d).Shows (s.hold d none) root dot dotDot := by
  refine ⟨shows.entry, fun d' path' pos' => ?_⟩
  change update a.opened d none d' = _ ↔ _
  by_cases here : d' = d
  · subst here
    simp [NodeStore.hold]
  · simp only [NodeStore.hold, update_of_ne here]
    exact shows.opened d' path' pos'

end Descriptors

end Shows
end PathStore

/-! ## Every node stays reached -/

namespace NodeStore.Ok

variable {Node Name Slot Content Desc : Type*} {s s' : NodeStore Node Name Slot Content Desc}
  {root p n : Node} {dot dotDot x : Name} {dirs : List Name} (ok : s.Ok root dot dotDot)

include ok

/-- Nodes stay reached when one is added. -/
theorem reached_add (parent : s.tree.Leads root dirs p) (proper : DirTree.Proper dot dotDot dirs)
    (named : x ≠ dot ∧ x ≠ dotDot) (fresh : ¬ s.tree.used n)
    (refers : ∀ d y m, y ≠ dot → y ≠ dotDot →
      (s'.tree.Refers d y m ↔ (d = p ∧ y = x ∧ m = n) ∨ s.tree.Refers d y m))
    (used : ∀ m, s'.tree.used m → m = n ∨ s.tree.used m) (m : Node) (used' : s'.tree.used m) :
    ∃ path, DirTree.Proper dot dotDot path ∧ s'.tree.Leads root path m := by
  obtain rfl | old := used m used'
  · have proper' : DirTree.Proper dot dotDot (dirs ++ [x]) :=
      DirTree.proper_append.mpr ⟨proper, DirTree.proper_singleton.mpr named⟩
    exact ⟨dirs ++ [x], proper',
      (ok.tree.leads_added parent proper fresh refers proper' m).mpr (Or.inl ⟨rfl, rfl⟩)⟩
  · obtain ⟨path, proper', leads⟩ := ok.reached m old
    exact ⟨path, proper',
      (ok.tree.leads_added parent proper fresh refers proper' m).mpr (Or.inr leads)⟩

/-- Nodes stay reached when one without proper references is removed. -/
theorem reached_remove (parent : s.tree.Leads root dirs p) (proper : DirTree.Proper dot dotDot dirs)
    (target : s.tree.Refers p x n) (named : x ≠ dot ∧ x ≠ dotDot)
    (empty : ∀ y m, s.tree.Refers n y m → y = dot ∨ y = dotDot)
    (refers : ∀ d y m, y ≠ dot → y ≠ dotDot →
      (s'.tree.Refers d y m ↔ ¬ (d = p ∧ y = x) ∧ s.tree.Refers d y m))
    (used : ∀ m, s'.tree.used m → m ≠ n ∧ s.tree.used m) (m : Node) (used' : s'.tree.used m) :
    ∃ path, DirTree.Proper dot dotDot path ∧ s'.tree.Leads root path m := by
  obtain ⟨other, old⟩ := used m used'
  obtain ⟨path, proper', leads⟩ := ok.reached m old
  refine ⟨path, proper',
    (ok.tree.leads_removed parent proper target named empty refers proper' m).mpr ⟨?_, leads⟩⟩
  rintro rfl
  have whole : s.tree.Leads root (dirs ++ [x]) n :=
    (DirTree.leads_concat ..).mpr ⟨p, parent, target⟩
  exact other (ok.tree.leads_unique leads whole)

/-- Descriptors are moved on files in use. -/
theorem hold [DecidableEq Desc] (d : Desc) {position : Option (Node × Nat)}
    (file : ∀ n pos, position = some (n, pos) → s.tree.used n ∧ ¬ s.tree.dir n) :
    (s.hold d position).Ok root dot dotDot := by
  refine ⟨ok.tree, ok.reached, fun {d' n pos} held => ?_⟩
  simp only [NodeStore.hold] at held
  by_cases here : d' = d
  · rw [here, update_self] at held
    exact file n pos held
  · rw [update_of_ne here] at held
    exact ok.held held

end NodeStore.Ok
end KwHomework
