import KwHomework.FileSystem.Blocks
import KwHomework.Volume.DirTree

/-!
# Directories

The directory blocks of a volume make up a tree of named references.  The scans of the code find
the first slot that passes their test, and `getDirPos` follows the references of the tree.
-/

namespace KwHomework

open Function FS

/-- A slot of a directory: the index of its block and its index in the block. -/
abbrev Slot := Fin numOfDirectBlockPtr × Fin numOfDirentPerBlock

namespace Volume

/-- An allocated directory. -/
def IsDir (v : Volume) (n : CInt) : Prop := v.inodeUsed n = true ∧ (v.inode n).type = fileTypeDir

/-- An allocated regular file. -/
def IsFile (v : Volume) (n : CInt) : Prop := v.inodeUsed n = true ∧ (v.inode n).type = fileTypeFile

/-- The entry in a slot. -/
def entry (v : Volume) (d : CInt) (s : Slot) : Block.Entry :=
  (v.block (v.ptr (d, s.1))).entryAt s.2

/-- The slot of a directory holds an entry. -/
def Occupied (v : Volume) (d : CInt) (s : Slot) : Prop :=
  v.IsDir d ∧ v.ptr (d, s.1) ≠ 0#32 ∧ (v.entry d s).name ≠ []

instance (v : Volume) (n : CInt) : Decidable (v.IsDir n) := inferInstanceAs (Decidable (_ ∧ _))

instance (v : Volume) (d : CInt) (s : Slot) : Decidable (v.Occupied d s) :=
  inferInstanceAs (Decidable (_ ∧ _ ∧ _))

/-- The tree of the directories. -/
def tree (v : Volume) : DirTree CInt (List Byte) Slot where
  used n := v.inodeUsed n = true
  dir := v.IsDir
  slot d s :=
    if v.Occupied d s then some ((v.entry d s).name, (v.entry d s).inodeNum) else none

theorem slot_eq_some {v : Volume} {d : CInt} {s : Slot} {x : List Byte} {n : CInt} :
    v.tree.slot d s = some (x, n) ↔
      v.IsDir d ∧ v.ptr (d, s.1) ≠ 0#32 ∧ x ≠ [] ∧ v.entry d s = ⟨x, n⟩ := by
  simp only [tree]
  constructor
  · intro found
    split_ifs at found with occupied
    obtain ⟨dir, holds, live⟩ := occupied
    simp only [Option.some.injEq, Prod.mk.injEq] at found
    obtain ⟨rfl, rfl⟩ := found
    exact ⟨dir, holds, live, rfl⟩
  · rintro ⟨dir, holds, live, same⟩
    rw [if_pos ⟨dir, holds, by rwa [same]⟩, same]

/-- A slot whose name is empty holds no entry. -/
theorem slot_eq_none {v : Volume} {d : CInt} {s : Slot} (empty : (v.entry d s).name = []) :
    v.tree.slot d s = none := by
  refine Option.eq_none_iff_forall_ne_some.mpr fun ⟨x, n⟩ entry => ?_
  obtain ⟨_, _, live, same⟩ := slot_eq_some.mp entry
  rw [same] at empty
  exact live empty

/-- Every name in a directory is terminated, and a slot without a name is clear. -/
def NamesOk (v : Volume) : Prop :=
  ∀ d s, v.IsDir d → v.ptr (d, s.1) ≠ 0#32 →
    (v.entry d s).name.length < 12 ∧ ((v.entry d s).name = [] → (v.entry d s).inodeNum = 0#32)

end Volume

/-- What the code needs to walk along a path and to find an entry by its name. -/
structure Volume.Searchable (v : Volume) : Prop where
  blocks : v.BlocksOwned
  used_valid : ∀ n, v.inodeUsed n = true → ValidInode n
  names : v.NamesOk
  used_target : ∀ {d s x n}, v.tree.slot d s = some (x, n) → v.inodeUsed n = true
  distinct : ∀ {d s s' x n n'}, v.tree.slot d s = some (x, n) → v.tree.slot d s' = some (x, n') →
    s = s'

/-- What holds of the volume between any two calls. -/
structure Volume.Consistent (v : Volume) : Prop where
  blocks : v.BlocksOwned
  used_valid : ∀ n, v.inodeUsed n = true → ValidInode n
  kinds : ∀ n, v.inodeUsed n = true → v.IsFile n ∨ v.IsDir n
  names : v.NamesOk
  tree : v.tree.WellFormed 0#32 dot dotDot
  /-- Only the two special names start with a dot. -/
  dots : ∀ {d s x n}, v.tree.slot d s = some (x, n) → x.head? = some 46#8 → x = dot ∨ x = dotDot
  /-- The special entries come first in a directory other than the root. -/
  home : ∀ d, v.IsDir d → d ≠ 0#32 →
    v.tree.slot d (0, 0) = some (dot, d) ∧ ∃ p, v.tree.slot d (0, 1) = some (dotDot, p)

theorem Volume.Consistent.searchable {v : Volume} (ok : v.Consistent) : v.Searchable :=
  ⟨ok.blocks, ok.used_valid, ok.names, ok.tree.used_target, ok.tree.distinct⟩

/-- Free inodes have no blocks. -/
def Volume.FreeBlank (v : Volume) : Prop := ∀ n, v.inodeUsed n = false → ∀ k, v.ptr (n, k) = 0#32

/-! ## Scans -/

/-- The first slot that passes a test, in pointer order and then in slot order. -/
def firstSlot (inode : Inode) (test : Slot → Bool) : Option Slot :=
  (List.finRange numOfDirectBlockPtr).findSome? fun k =>
    if inode.dirBlockPtr k ≠ 0#32 then
      ((List.finRange numOfDirentPerBlock).find? fun j => test (k, j)).map fun j => (k, j)
    else
      none

theorem firstSlot_eq_some {inode : Inode} {test : Slot → Bool} {s : Slot}
    (found : firstSlot inode test = some s) : inode.dirBlockPtr s.1 ≠ 0#32 ∧ test s = true := by
  obtain ⟨k, _, inner⟩ := List.exists_of_findSome?_eq_some found
  split_ifs at inner with holds
  obtain ⟨j, scan, rfl⟩ := Option.map_eq_some_iff.mp inner
  have passes := List.find?_some scan
  exact ⟨holds, passes⟩

theorem firstSlot_eq_none_iff {inode : Inode} {test : Slot → Bool} :
    firstSlot inode test = none ↔
      ∀ s : Slot, inode.dirBlockPtr s.1 ≠ 0#32 → test s = false := by
  rw [firstSlot, List.findSome?_eq_none_iff]
  constructor
  · rintro none ⟨k, j⟩ holds
    have inner := none k (List.mem_finRange k)
    rw [if_pos holds, Option.map_eq_none_iff, List.find?_eq_none] at inner
    simpa using inner j (List.mem_finRange j)
  · intro none k _
    split_ifs with holds
    · rw [Option.map_eq_none_iff, List.find?_eq_none]
      exact fun j _ => by simp [none (k, j) holds]
    · rfl

/-- The only slot that passes is the first one. -/
theorem firstSlot_eq_of_unique {inode : Inode} {test : Slot → Bool} {s : Slot}
    (holds : inode.dirBlockPtr s.1 ≠ 0#32) (passes : test s = true)
    (unique : ∀ s', inode.dirBlockPtr s'.1 ≠ 0#32 → test s' = true → s' = s) :
    firstSlot inode test = some s := by
  cases found : firstSlot inode test with
  | none =>
      rw [firstSlot_eq_none_iff.mp found s holds] at passes
      exact Bool.noConfusion passes
  | some s' =>
      obtain ⟨holds', passes'⟩ := firstSlot_eq_some found
      rw [unique s' holds' passes']

theorem yields_findSomeM? {α β : Type} {f : α → FS (Option β)} {g : α → Option β} {w : View}
    {items : List α} (step : ∀ a ∈ items, Yields (f a) w (g a) w) :
    Yields (items.findSomeM? f) w (items.findSome? g) w := by
  induction items with
  | nil => exact .pure none w
  | cons a items induction =>
      rw [List.findSomeM?_cons, List.findSome?_cons]
      refine (step a (by simp)).bind ?_
      cases g a with
      | some b => exact .pure _ w
      | none => exact induction fun b member => step b (by simp [member])

/-- The scan of the entries of an inode whose blocks are data blocks. -/
theorem yields_scanEntries {inode : Inode} {w : View}
    {test : Block → Fin numOfDirentPerBlock → Option Bool} {passes : Slot → Bool}
    (data : ∀ k, inode.dirBlockPtr k ≠ 0#32 → DataBlock (inode.dirBlockPtr k))
    (total : ∀ k j, inode.dirBlockPtr k ≠ 0#32 →
      test (w.volume.block (inode.dirBlockPtr k)) j = some (passes (k, j))) :
    Yields (scanEntries inode test) w ((firstSlot inode passes).map fun s =>
      (s.1, w.volume.block (inode.dirBlockPtr s.1), s.2)) w := by
  have outer : (firstSlot inode passes).map (fun s =>
      (s.1, w.volume.block (inode.dirBlockPtr s.1), s.2)) =
      (List.finRange numOfDirectBlockPtr).findSome? fun k =>
        if inode.dirBlockPtr k ≠ 0#32 then
          ((List.finRange numOfDirentPerBlock).find? fun j => passes (k, j)).map fun j =>
            (k, w.volume.block (inode.dirBlockPtr k), j)
        else
          none := by
    rw [firstSlot, List.map_findSome?]
    congr 1
    funext k
    simp only [comp_apply, apply_ite (Option.map _), Option.map_none, Option.map_map]
    rfl
  rw [outer]
  refine yields_findSomeM? fun k _ => ?_
  by_cases holds : inode.dirBlockPtr k ≠ 0#32
  · rw [if_pos holds, if_pos holds]
    refine (yields_bufRead (data k holds) w).bind ?_
    have inner : test (w.volume.block (inode.dirBlockPtr k)) = fun j => pure (passes (k, j)) :=
      funext fun j => total k j holds
    rw [inner, List.findM?_pure]
    exact (yields_defined _ w).bind (.pure _ w)
  · rw [if_neg holds, if_neg holds]
    exact .pure none w

/-! ## Lookup by name -/

/-- The first slot of an inode that holds a name. -/
def Volume.lookup (v : Volume) (d : CInt) (text : List Byte) : Option Slot :=
  firstSlot (v.inode d) fun s => (v.entry d s).name = text

section Lookup

variable {v : Volume} {d n : CInt} {text : List Byte} {s : Slot}

theorem Volume.slot_of_lookup (dir : v.IsDir d) (named : text ≠ [])
    (found : v.lookup d text = some s) :
    v.tree.slot d s = some (text, (v.entry d s).inodeNum) := by
  obtain ⟨holds, same⟩ := firstSlot_eq_some found
  have name : (v.entry d s).name = text := by simpa using same
  exact slot_eq_some.mpr ⟨dir, holds, named, by rw [← name]⟩

theorem Volume.Searchable.lookup_of_slot (ok : v.Searchable)
    (entry : v.tree.slot d s = some (text, n)) : v.lookup d text = some s := by
  obtain ⟨dir, holds, named, same⟩ := slot_eq_some.mp entry
  refine firstSlot_eq_of_unique holds (by simp [same]) fun s' holds' passes => ?_
  have name : (v.entry d s').name = text := by simpa using passes
  have entry' : v.tree.slot d s' = some (text, (v.entry d s').inodeNum) :=
    slot_eq_some.mpr ⟨dir, holds', named, by rw [← name]⟩
  exact ok.distinct entry' entry

theorem Volume.lookup_eq_none (missing : ∀ n, ¬ v.tree.Refers d text n) (dir : v.IsDir d)
    (named : text ≠ []) : v.lookup d text = none := by
  cases found : v.lookup d text with
  | none => rfl
  | some s => exact absurd ⟨s, slot_of_lookup dir named found⟩ (missing _)

end Lookup

theorem yields_findName {w : View} (ok : w.volume.Searchable) {d : CInt} (dir : w.volume.IsDir d)
    {token : Chunk} {text : List Byte} (spells : Spells token text) :
    Yields (scanEntries (w.volume.inode d) (nameMatches token)) w
      ((w.volume.lookup d text).map fun s =>
        (s.1, w.volume.block (w.volume.ptr (d, s.1)), s.2)) w :=
  yields_scanEntries (fun _ holds => ok.blocks.dataBlock holds) fun k j holds =>
    Block.strcmpEq_nameMemory _ j (ok.names d (k, j) dir holds).1 spells

/-! ## Paths -/

private theorem strtokFrom_spec : ∀ {token bytes : List Byte}, 0#8 ∉ token → 0#8 ∉ bytes →
    ∀ text ∈ strtokFrom token bytes, text ≠ [] ∧ 0#8 ∉ text
  | token, [], nonzero, _, text, member => by
      rw [strtokFrom] at member
      split_ifs at member with empty
      · cases member
      · rw [List.mem_singleton.mp member]
        exact ⟨empty, nonzero⟩
  | token, byte :: rest, nonzero, nonzero', text, member => by
      have behind : 0#8 ∉ rest := fun zero => nonzero' (List.mem_cons_of_mem _ zero)
      rw [strtokFrom] at member
      split_ifs at member with slash empty
      · exact strtokFrom_spec (by simp) behind text member
      · rcases List.mem_cons.mp member with rfl | later
        · exact ⟨empty, nonzero⟩
        · exact strtokFrom_spec (by simp) behind text later
      · refine strtokFrom_spec (fun zero => ?_) behind text member
        rcases List.mem_append.mp zero with inside | last
        · exact nonzero inside
        · exact nonzero' (by simp [List.mem_singleton.mp last])

/-- The components of a path are strings, and not empty. -/
theorem Path.tokens_spec (path : Path) : ∀ text ∈ path.tokens, text ≠ [] ∧ 0#8 ∉ text :=
  strtokFrom_spec (by simp) fun zero => path.nonzero (List.mem_of_mem_take zero)

private theorem yields_getDirPosFrom {w : View} (ok : w.volume.Searchable) (retToken : Chunk)
    {x : List Byte} : ∀ {dirs : List (List Byte)} {cur p : CInt},
    (∀ text ∈ dirs, 0#8 ∉ text) → w.volume.tree.Leads cur dirs p →
    Yields (getDirPosFrom cur retToken (dirs ++ [x])) w ⟨1, p, sprintf retToken x⟩ w
  | [], cur, p, _, leads => by
      obtain rfl : cur = p := leads
      exact .pure _ w
  | text :: dirs, cur, p, strings, leads => by
      obtain ⟨m, ⟨s, entry⟩, leads⟩ := leads
      have induction := yields_getDirPosFrom ok retToken (x := x)
        (fun text' member => strings text' (List.mem_cons_of_mem _ member)) leads
      obtain ⟨dir, _, _, same⟩ := Volume.slot_eq_some.mp entry
      have spells := spells_cString (strings text (by simp))
      have target : (w.volume.block (w.volume.ptr (cur, s.1))).entryInode s.2 = m :=
        congrArg Block.Entry.inodeNum same
      obtain ⟨next, rest, split⟩ : ∃ next rest, dirs ++ [x] = next :: rest :=
        List.exists_cons_of_ne_nil (by simp)
      rw [List.cons_append, split, getDirPosFrom]
      refine (yields_getInode w (ok.used_valid cur dir.1)).bind ?_
      refine (yields_findName ok dir spells).bind ?_
      rw [ok.lookup_of_slot entry, ← split]
      simp only [Option.map_some, target]
      exact induction

/-- `getDirPos` finds the directory that holds the last component. -/
theorem yields_getDirPos {w : View} (ok : w.volume.Searchable) {szDirName : Path}
    {dirs : List (List Byte)} {x : List Byte} {p : CInt} (tokens : szDirName.tokens = dirs ++ [x])
    (leads : w.volume.tree.Leads 0#32 dirs p) (retToken : Chunk) :
    Yields (getDirPos szDirName retToken) w ⟨1, p, sprintf retToken x⟩ w := by
  rw [getDirPos, tokens]
  refine yields_getDirPosFrom ok retToken (fun text member => ?_) leads
  exact (szDirName.tokens_spec text (by simp [tokens, member])).2

end KwHomework
