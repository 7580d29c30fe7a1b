import Mathlib.Data.Finset.Card
import Mathlib.Data.List.Basic
import Mathlib.Data.List.Infix
import Mathlib.Logic.Function.Basic
import Mathlib.Tactic.Common

/-!
# Trees of directories

A directory is a node whose slots hold named references to nodes.  `WellFormed` says that the
proper references make up a tree, next to which every directory refers to itself and to its parent
under two special names.  Creating and removing files and directories keeps it, and a path of
proper names that does not pass the changed reference still leads to the same node.
-/

namespace KwHomework

open Function

/-- Nodes in use, directories among them, and the references they hold. -/
structure DirTree (Node Name Slot : Type*) where
  used : Node → Prop
  dir : Node → Prop
  slot : Node → Slot → Option (Name × Node)

namespace DirTree

variable {Node Name Slot : Type*}

/-- A directory holds a reference under a name. -/
def Refers (t : DirTree Node Name Slot) (d : Node) (x : Name) (n : Node) : Prop :=
  ∃ s, t.slot d s = some (x, n)

/-- A path of names leads from one node to another. -/
def Leads (t : DirTree Node Name Slot) : Node → List Name → Node → Prop
  | d, [], n => d = n
  | d, x :: path, n => ∃ m, t.Refers d x m ∧ t.Leads m path n

/-- The references of proper name form a tree below the root. -/
structure WellFormed (t : DirTree Node Name Slot) (root : Node) (dot dotDot : Name) : Prop where
  root_dir : t.dir root
  dir_used : ∀ d, t.dir d → t.used d
  slot_dir : ∀ {d s e}, t.slot d s = some e → t.dir d
  used_target : ∀ {d s x n}, t.slot d s = some (x, n) → t.used n
  distinct : ∀ {d s s' x n n'}, t.slot d s = some (x, n) → t.slot d s' = some (x, n') → s = s'
  dot_self : ∀ {d s n}, t.slot d s = some (dot, n) → n = d
  dotDot_parent : ∀ {d s n}, t.slot d s = some (dotDot, n) →
    ∃ x, x ≠ dot ∧ x ≠ dotDot ∧ t.Refers n x d
  proper_ne : ∀ {d s x n}, t.slot d s = some (x, n) → x ≠ dot → x ≠ dotDot → n ≠ root ∧ n ≠ d
  unique : ∀ {d d' s s' x x' n}, t.slot d s = some (x, n) → x ≠ dot → x ≠ dotDot →
    t.slot d' s' = some (x', n) → x' ≠ dot → x' ≠ dotDot → d = d' ∧ s = s'
  named : ∀ {n}, t.used n → n ≠ root → ∃ d x, x ≠ dot ∧ x ≠ dotDot ∧ t.Refers d x n

section Paths

variable {t : DirTree Node Name Slot} {root : Node} {dot dotDot : Name}

/-- At most one node is referred to under a name. -/
theorem WellFormed.refers_unique (wf : t.WellFormed root dot dotDot) {d n n' : Node} {x : Name}
    (first : t.Refers d x n) (second : t.Refers d x n') : n = n' := by
  obtain ⟨s, first⟩ := first
  obtain ⟨s', second⟩ := second
  obtain rfl := wf.distinct first second
  simpa using first.symm.trans second

theorem leads_append (d : Node) (path path' : List Name) (n : Node) :
    t.Leads d (path ++ path') n ↔ ∃ m, t.Leads d path m ∧ t.Leads m path' n := by
  induction path generalizing d with
  | nil => simp [Leads]
  | cons x path induction =>
      simp only [List.cons_append, Leads, induction]
      constructor
      · rintro ⟨m, refers, m', leads, rest⟩
        exact ⟨m', ⟨m, refers, leads⟩, rest⟩
      · rintro ⟨m', ⟨m, refers, leads⟩, rest⟩
        exact ⟨m, refers, m', leads, rest⟩

theorem leads_concat (d : Node) (path : List Name) (x : Name) (n : Node) :
    t.Leads d (path ++ [x]) n ↔ ∃ m, t.Leads d path m ∧ t.Refers m x n := by
  rw [leads_append]
  simp [Leads]

/-- A path survives when no reference goes away. -/
theorem Leads.mono {t' : DirTree Node Name Slot} (kept : ∀ d x n, t.Refers d x n → t'.Refers d x n)
    {d : Node} {path : List Name} {n : Node} (leads : t.Leads d path n) : t'.Leads d path n := by
  induction path generalizing d with
  | nil => exact leads
  | cons x path induction =>
      obtain ⟨m, refers, rest⟩ := leads
      exact ⟨m, kept d x m refers, induction rest⟩

/-- A path leads to at most one node. -/
theorem WellFormed.leads_unique (wf : t.WellFormed root dot dotDot) {d : Node} {path : List Name}
    {n n' : Node} (first : t.Leads d path n) (second : t.Leads d path n') : n = n' := by
  induction path generalizing d with
  | nil => exact first.symm.trans second
  | cons x path induction =>
      obtain ⟨m, refers, leads⟩ := first
      obtain ⟨m', refers', leads'⟩ := second
      obtain rfl := wf.refers_unique refers refers'
      exact induction leads leads'

/-- Two proper paths from the root to one node are the same path. -/
theorem WellFormed.path_unique (wf : t.WellFormed root dot dotDot) {path path' : List Name}
    {n : Node} (proper : ∀ x ∈ path, x ≠ dot ∧ x ≠ dotDot)
    (proper' : ∀ x ∈ path', x ≠ dot ∧ x ≠ dotDot) (leads : t.Leads root path n)
    (leads' : t.Leads root path' n) : path = path' := by
  induction path using List.reverseRecOn generalizing path' n with
  | nil =>
      rcases List.eq_nil_or_concat' path' with rfl | ⟨path', x', rfl⟩
      · rfl
      · obtain ⟨m, _, s, refers⟩ := (leads_concat ..).mp leads'
        obtain ⟨ne, ne'⟩ := proper' x' (by simp)
        exact absurd leads.symm (wf.proper_ne refers ne ne').1
  | append_singleton path x induction =>
      obtain ⟨m, leads, s, refers⟩ := (leads_concat ..).mp leads
      obtain ⟨ne, ne'⟩ := proper x (by simp)
      rcases List.eq_nil_or_concat' path' with rfl | ⟨path', x', rfl⟩
      · exact absurd leads'.symm (wf.proper_ne refers ne ne').1
      · obtain ⟨m', leads', s', refers'⟩ := (leads_concat ..).mp leads'
        obtain ⟨ne₂, ne₂'⟩ := proper' x' (by simp)
        obtain ⟨rfl, rfl⟩ := wf.unique refers ne ne' refers' ne₂ ne₂'
        have same : x = x' := by simpa using refers.symm.trans refers'
        have earlier : path = path' := induction (fun y member => proper y (by simp [member]))
          (fun y member => proper' y (by simp [member])) leads leads'
        rw [same, earlier]

/-- A path that reaches or passes the reference of `p` under the name `x`. -/
def Passes (t : DirTree Node Name Slot) (root p : Node) (x : Name) (path : List Name) : Prop :=
  ∃ dirs, t.Leads root dirs p ∧ dirs ++ [x] <+: path

/-- When only the references of `p` under the name `x` change, a path that does not pass them still
leads where it led. -/
theorem leads_iff {t t' : DirTree Node Name Slot} {p : Node} {x : Name}
    (same : ∀ d y m, y ≠ dot → y ≠ dotDot → ¬ (d = p ∧ y = x) →
      (t'.Refers d y m ↔ t.Refers d y m)) {path : List Name}
    (proper : ∀ y ∈ path, y ≠ dot ∧ y ≠ dotDot) (apart : ¬ t.Passes root p x path) (n : Node) :
    t'.Leads root path n ↔ t.Leads root path n := by
  induction path using List.reverseRecOn generalizing n with
  | nil => rfl
  | append_singleton path y induction =>
      have before : ∀ z ∈ path, z ≠ dot ∧ z ≠ dotDot := fun z member => proper z (by simp [member])
      have apart' : ¬ t.Passes root p x path := fun ⟨dirs, parent, below⟩ =>
        apart ⟨dirs, parent, below.trans (List.prefix_append path [y])⟩
      simp only [leads_concat, induction before apart']
      refine exists_congr fun d => and_congr_right fun leads => ?_
      obtain ⟨ne, ne'⟩ := proper y (by simp)
      refine same d y n ne ne' ?_
      rintro ⟨rfl, rfl⟩
      exact apart ⟨path, leads, List.prefix_refl _⟩

end Paths

/-! ## Creation and removal -/

section Operations

variable {t : DirTree Node Name Slot} {root p n : Node} {dot dotDot x : Name} {s : Slot}

/-- A fresh node holds no reference and is referred to nowhere. -/
theorem WellFormed.ne_of_fresh (wf : t.WellFormed root dot dotDot) (fresh : ¬ t.used n) {d : Node}
    {s : Slot} {y : Name} {m : Node} (entry : t.slot d s = some (y, m)) : d ≠ n ∧ m ≠ n := by
  constructor
  · rintro rfl
    exact fresh (wf.dir_used d (wf.slot_dir entry))
  · rintro rfl
    exact fresh (wf.used_target entry)

variable [DecidableEq Node] [DecidableEq Slot]

/-- Assign one slot of a directory. -/
def setSlot (t : DirTree Node Name Slot) (p : Node) (s : Slot) (e : Option (Name × Node)) :
    DirTree Node Name Slot :=
  { t with slot := update t.slot p (update (t.slot p) s e) }

/-- A new file and its reference. -/
def addFile (t : DirTree Node Name Slot) (p : Node) (s : Slot) (x : Name) (n : Node) :
    DirTree Node Name Slot :=
  { t.setSlot p s (some (x, n)) with used := fun m => m = n ∨ t.used m }

/-- A node becomes a directory with the slots `own`. -/
def toDir (t : DirTree Node Name Slot) (n : Node) (own : Slot → Option (Name × Node)) :
    DirTree Node Name Slot :=
  { t with dir := fun m => m = n ∨ t.dir m, slot := update t.slot n own }

/-- A reference and its target are removed. -/
def remove (t : DirTree Node Name Slot) (p : Node) (s : Slot) (n : Node) :
    DirTree Node Name Slot where
  used m := m ≠ n ∧ t.used m
  dir m := m ≠ n ∧ t.dir m
  slot := update (t.setSlot p s none).slot n fun _ => none

theorem slot_setSlot (t : DirTree Node Name Slot) (p d : Node) (s s' : Slot)
    (e : Option (Name × Node)) :
    (t.setSlot p s e).slot d s' = if d = p ∧ s' = s then e else t.slot d s' := by
  by_cases node : d = p
  · subst node
    by_cases same : s' = s
    · simp [setSlot, same]
    · simp [setSlot, same]
  · simp [setSlot, node]

omit [DecidableEq Slot] in
@[simp] theorem slot_toDir_self (own : Slot → Option (Name × Node)) :
    (t.toDir n own).slot n = own := by
  simp [toDir]

omit [DecidableEq Slot] in
theorem slot_toDir_of_ne {own : Slot → Option (Name × Node)} {d : Node} (other : d ≠ n) :
    (t.toDir n own).slot d = t.slot d := by
  simp [toDir, other]

theorem slot_addFile {d : Node} {s' : Slot} {y : Name} {m : Node} :
    (t.addFile p s x n).slot d s' = some (y, m) ↔
      (d = p ∧ s' = s ∧ y = x ∧ m = n) ∨ (¬ (d = p ∧ s' = s) ∧ t.slot d s' = some (y, m)) := by
  rw [show (t.addFile p s x n).slot = (t.setSlot p s (some (x, n))).slot from rfl, slot_setSlot]
  split_ifs with here
  · simp [here, eq_comm]
  · simp [here]
    tauto

/-- A new name leaves the names of a directory distinct. -/
theorem distinct_addFile (distinct : ∀ {d s₁ s₂ y m m'}, t.slot d s₁ = some (y, m) →
      t.slot d s₂ = some (y, m') → s₁ = s₂)
    (new : ∀ m, ¬ t.Refers p x m) {d : Node} {s₁ s₂ : Slot} {y : Name} {m m' : Node}
    (added : (t.addFile p s x n).slot d s₁ = some (y, m))
    (added' : (t.addFile p s x n).slot d s₂ = some (y, m')) : s₁ = s₂ := by
  obtain ⟨rfl, rfl, rfl, rfl⟩ | ⟨other, entry⟩ := slot_addFile.mp added
  · obtain ⟨_, rfl, _⟩ | ⟨_, entry'⟩ := slot_addFile.mp added'
    · rfl
    · exact absurd ⟨_, entry'⟩ (new _)
  · obtain ⟨rfl, rfl, rfl, rfl⟩ | ⟨_, entry'⟩ := slot_addFile.mp added'
    · exact absurd ⟨_, entry⟩ (new _)
    · exact distinct entry entry'

omit [DecidableEq Slot] in
/-- The slots of a new directory with distinct names. -/
theorem distinct_toDir {own : Slot → Option (Name × Node)}
    (distinct : ∀ {d s₁ s₂ y m m'}, t.slot d s₁ = some (y, m) → t.slot d s₂ = some (y, m') →
      s₁ = s₂)
    (special : ∀ {s₁ s₂ y m m'}, own s₁ = some (y, m) → own s₂ = some (y, m') → s₁ = s₂)
    {d : Node} {s₁ s₂ : Slot} {y : Name} {m m' : Node}
    (added : (t.toDir n own).slot d s₁ = some (y, m))
    (added' : (t.toDir n own).slot d s₂ = some (y, m')) : s₁ = s₂ := by
  by_cases same : d = n
  · subst same
    rw [slot_toDir_self] at added added'
    exact special added added'
  · rw [slot_toDir_of_ne same] at added added'
    exact distinct added added'

/-- Creating a file. -/
theorem WellFormed.addFile (wf : t.WellFormed root dot dotDot) (parent : t.dir p)
    (empty : t.slot p s = none) (fresh : ¬ t.used n) (proper : x ≠ dot ∧ x ≠ dotDot)
    (new : ∀ m, ¬ t.Refers p x m) : (t.addFile p s x n).WellFormed root dot dotDot := by
  have apart : n ≠ p := by
    rintro rfl
    exact fresh (wf.dir_used _ parent)
  have kept : ∀ {d s' y m}, t.slot d s' = some (y, m) →
      (t.addFile p s x n).slot d s' = some (y, m) := by
    intro d s' y m entry
    refine slot_addFile.mpr (Or.inr ⟨?_, entry⟩)
    rintro ⟨rfl, rfl⟩
    rw [empty] at entry
    cases entry
  refine ⟨wf.root_dir, fun d dir => Or.inr (wf.dir_used d dir), ?_, ?_, ?_, ?_, ?_, ?_, ?_, ?_⟩
  · rintro d s' ⟨y, m⟩ added
    obtain ⟨rfl, _⟩ | ⟨_, entry⟩ := slot_addFile.mp added
    · exact parent
    · exact wf.slot_dir entry
  · intro d s' y m added
    obtain ⟨_, _, _, rfl⟩ | ⟨_, entry⟩ := slot_addFile.mp added
    · exact Or.inl rfl
    · exact Or.inr (wf.used_target entry)
  · exact distinct_addFile wf.distinct new
  · intro d s' m added
    obtain ⟨_, _, rfl, _⟩ | ⟨_, entry⟩ := slot_addFile.mp added
    · exact absurd rfl proper.1
    · exact wf.dot_self entry
  · intro d s' m added
    obtain ⟨_, _, rfl, _⟩ | ⟨_, entry⟩ := slot_addFile.mp added
    · exact absurd rfl proper.2
    · obtain ⟨y, ne, ne', s'', refers⟩ := wf.dotDot_parent entry
      exact ⟨y, ne, ne', s'', kept refers⟩
  · intro d s' y m added ne ne'
    obtain ⟨rfl, _, _, rfl⟩ | ⟨_, entry⟩ := slot_addFile.mp added
    · refine ⟨?_, apart⟩
      rintro rfl
      exact fresh (wf.dir_used _ wf.root_dir)
    · exact wf.proper_ne entry ne ne'
  · intro d d' s₁ s₂ y y' m added ne ne' added' ne₂ ne₂'
    obtain ⟨rfl, rfl, rfl, rfl⟩ | ⟨_, entry⟩ := slot_addFile.mp added
    · obtain ⟨rfl, rfl, _⟩ | ⟨_, entry'⟩ := slot_addFile.mp added'
      · exact ⟨rfl, rfl⟩
      · exact absurd rfl (wf.ne_of_fresh fresh entry').2
    · obtain ⟨rfl, rfl, rfl, rfl⟩ | ⟨_, entry'⟩ := slot_addFile.mp added'
      · exact absurd rfl (wf.ne_of_fresh fresh entry).2
      · exact wf.unique entry ne ne' entry' ne₂ ne₂'
  · rintro m (rfl | used) ne
    · exact ⟨p, x, proper.1, proper.2, s, slot_addFile.mpr (Or.inl ⟨rfl, rfl, rfl, rfl⟩)⟩
    · obtain ⟨d, y, ne₁, ne₂, s', refers⟩ := wf.named used ne
      exact ⟨d, y, ne₁, ne₂, s', kept refers⟩

omit [DecidableEq Slot] in
/-- A file turns into a directory that refers to itself and to its parent only. -/
theorem WellFormed.toDir (wf : t.WellFormed root dot dotDot) {own : Slot → Option (Name × Node)}
    (used : t.used n) (file : ¬ t.dir n) (parent : t.Refers p x n) (proper : x ≠ dot ∧ x ≠ dotDot)
    (special : ∀ {s y m}, own s = some (y, m) → (y = dot ∧ m = n) ∨ (y = dotDot ∧ m = p))
    (distinct : ∀ {s s' y m m'}, own s = some (y, m) → own s' = some (y, m') → s = s')
    (different : dot ≠ dotDot) : (t.toDir n own).WellFormed root dot dotDot := by
  have outside : ∀ {d s e}, t.slot d s = some e → d ≠ n := by
    rintro d s e entry rfl
    exact file (wf.slot_dir entry)
  have split : ∀ {d s e}, (t.toDir n own).slot d s = some e →
      (d = n ∧ own s = some e) ∨ (d ≠ n ∧ t.slot d s = some e) := by
    intro d s e entry
    by_cases same : d = n
    · exact Or.inl ⟨same, by simpa [DirTree.toDir, same] using entry⟩
    · exact Or.inr ⟨same, by simpa [DirTree.toDir, same] using entry⟩
  have kept : ∀ {d s e}, t.slot d s = some e → (t.toDir n own).slot d s = some e := by
    intro d s e entry
    simpa [DirTree.toDir, outside entry] using entry
  have not_proper : ∀ {s y m}, own s = some (y, m) → y ≠ dot → y = dotDot := by
    intro s y m entry ne
    obtain ⟨same, _⟩ | ⟨same, _⟩ := special entry
    · exact absurd same ne
    · exact same
  refine ⟨Or.inr wf.root_dir, ?_, ?_, ?_, ?_, ?_, ?_, ?_, ?_, ?_⟩
  · rintro d (rfl | dir)
    · exact used
    · exact wf.dir_used d dir
  · intro d s e added
    obtain ⟨same, _⟩ | ⟨_, entry⟩ := split added
    · exact Or.inl same
    · exact Or.inr (wf.slot_dir entry)
  · intro d s y m added
    obtain ⟨_, entry⟩ | ⟨_, entry⟩ := split added
    · obtain ⟨_, rfl⟩ | ⟨_, rfl⟩ := special entry
      · exact used
      · obtain ⟨s', refers⟩ := parent
        exact wf.dir_used _ (wf.slot_dir refers)
    · exact wf.used_target entry
  · exact distinct_toDir wf.distinct distinct
  · intro d s m added
    obtain ⟨rfl, entry⟩ | ⟨_, entry⟩ := split added
    · obtain ⟨_, same⟩ | ⟨same, _⟩ := special entry
      · exact same
      · exact absurd same different
    · exact wf.dot_self entry
  · intro d s m added
    obtain ⟨rfl, entry⟩ | ⟨_, entry⟩ := split added
    · obtain ⟨same, _⟩ | ⟨_, rfl⟩ := special entry
      · exact absurd same.symm different
      · obtain ⟨s', refers⟩ := parent
        exact ⟨x, proper.1, proper.2, s', kept refers⟩
    · obtain ⟨y, ne, ne', s', refers⟩ := wf.dotDot_parent entry
      exact ⟨y, ne, ne', s', kept refers⟩
  · intro d s y m added ne ne'
    obtain ⟨_, entry⟩ | ⟨_, entry⟩ := split added
    · exact absurd (not_proper entry ne) ne'
    · exact wf.proper_ne entry ne ne'
  · intro d d' s₁ s₂ y y' m added ne ne' added' ne₂ ne₂'
    obtain ⟨_, entry⟩ | ⟨_, entry⟩ := split added
    · exact absurd (not_proper entry ne) ne'
    · obtain ⟨_, entry'⟩ | ⟨_, entry'⟩ := split added'
      · exact absurd (not_proper entry' ne₂) ne₂'
      · exact wf.unique entry ne ne' entry' ne₂ ne₂'
  · intro m used' ne
    obtain ⟨d, y, ne₁, ne₂, s', refers⟩ := wf.named used' ne
    exact ⟨d, y, ne₁, ne₂, s', kept refers⟩

theorem slot_remove {d : Node} {s' : Slot} {e : Name × Node} :
    (t.remove p s n).slot d s' = some e ↔
      d ≠ n ∧ ¬ (d = p ∧ s' = s) ∧ t.slot d s' = some e := by
  by_cases same : d = n
  · simp [DirTree.remove, same]
  · rw [show (t.remove p s n).slot d s' = (t.setSlot p s none).slot d s' by
      simp [DirTree.remove, same], slot_setSlot]
    split_ifs with here
    · simp [here]
    · simp [here, same]

/-- Removing a file, or a directory without proper references. -/
theorem WellFormed.remove (wf : t.WellFormed root dot dotDot) (entry : t.slot p s = some (x, n))
    (proper : x ≠ dot ∧ x ≠ dotDot)
    (empty : ∀ {s y m}, t.slot n s = some (y, m) → y = dot ∨ y = dotDot) :
    (t.remove p s n).WellFormed root dot dotDot := by
  have holder : ∀ {d s' y m}, t.slot d s' = some (y, m) → y ≠ dot → y ≠ dotDot → d ≠ n := by
    rintro d s' y m entry' ne ne' rfl
    exact (empty entry').elim ne ne'
  have kept : ∀ {d s' y m}, t.slot d s' = some (y, m) → y ≠ dot → y ≠ dotDot → m ≠ n →
      (t.remove p s n).slot d s' = some (y, m) := by
    intro d s' y m entry' ne ne' other
    refine slot_remove.mpr ⟨holder entry' ne ne', ?_, entry'⟩
    rintro ⟨rfl, rfl⟩
    rw [entry] at entry'
    exact other (show y = x ∧ m = n by simpa using entry'.symm).2
  refine ⟨⟨(wf.proper_ne entry proper.1 proper.2).1.symm, wf.root_dir⟩,
    fun d dir => ⟨dir.1, wf.dir_used d dir.2⟩, ?_, ?_, ?_, ?_, ?_, ?_, ?_, ?_⟩
  · intro d s' e left
    obtain ⟨other, _, entry'⟩ := slot_remove.mp left
    exact ⟨other, wf.slot_dir entry'⟩
  · intro d s' y m left
    obtain ⟨other, elsewhere, entry'⟩ := slot_remove.mp left
    refine ⟨?_, wf.used_target entry'⟩
    rintro rfl
    -- no reference but the removed one leads to the removed node
    by_cases isDot : y = dot
    · exact other (wf.dot_self (isDot ▸ entry')).symm
    · by_cases isDotDot : y = dotDot
      · obtain ⟨z, ne, ne', s'', refers⟩ := wf.dotDot_parent (isDotDot ▸ entry')
        exact (empty refers).elim ne ne'
      · exact elsewhere (wf.unique entry' isDot isDotDot entry proper.1 proper.2)
  · intro d s₁ s₂ y m m' left left'
    exact wf.distinct (slot_remove.mp left).2.2 (slot_remove.mp left').2.2
  · intro d s' m left
    exact wf.dot_self (slot_remove.mp left).2.2
  · intro d s' m left
    obtain ⟨other, _, entry'⟩ := slot_remove.mp left
    obtain ⟨y, ne, ne', s'', refers⟩ := wf.dotDot_parent entry'
    exact ⟨y, ne, ne', s'', kept refers ne ne' other⟩
  · intro d s' y m left ne ne'
    exact wf.proper_ne (slot_remove.mp left).2.2 ne ne'
  · intro d d' s₁ s₂ y y' m left ne ne' left' ne₂ ne₂'
    exact wf.unique (slot_remove.mp left).2.2 ne ne' (slot_remove.mp left').2.2 ne₂ ne₂'
  · rintro m ⟨other, used⟩ ne
    obtain ⟨d, y, ne₁, ne₂, s', refers⟩ := wf.named used ne
    exact ⟨d, y, ne₁, ne₂, s', kept refers ne₁ ne₂ other⟩

/-- The root may lose its reference to itself. -/
theorem WellFormed.dropDot (wf : t.WellFormed root dot dotDot) {s : Slot} {m : Node}
    (entry : t.slot p s = some (dot, m)) : (t.setSlot p s none).WellFormed root dot dotDot := by
  have split : ∀ {d s' e}, (t.setSlot p s none).slot d s' = some e → t.slot d s' = some e := by
    intro d s' e left
    rw [slot_setSlot] at left
    split_ifs at left
    exact left
  have kept : ∀ {d s' y m}, t.slot d s' = some (y, m) → y ≠ dot →
      (t.setSlot p s none).slot d s' = some (y, m) := by
    intro d s' y m entry' ne
    rw [slot_setSlot, if_neg, entry']
    rintro ⟨rfl, rfl⟩
    rw [entry] at entry'
    simp only [Option.some.injEq, Prod.mk.injEq] at entry'
    exact ne entry'.1.symm
  refine ⟨wf.root_dir, wf.dir_used, fun left => wf.slot_dir (split left),
    fun left => wf.used_target (split left), fun left left' =>
    wf.distinct (split left) (split left'),
    fun left => wf.dot_self (split left), ?_, fun left => wf.proper_ne (split left),
    fun left ne ne' left' => wf.unique (split left) ne ne' (split left'), ?_⟩
  · intro d s' m left
    obtain ⟨y, ne, ne', s'', refers⟩ := wf.dotDot_parent (split left)
    exact ⟨y, ne, ne', s'', kept refers ne⟩
  · intro m used ne
    obtain ⟨d, y, ne₁, ne₂, s', refers⟩ := wf.named used ne
    exact ⟨d, y, ne₁, ne₂, s', kept refers ne₁⟩

/-! ## References after an operation -/

theorem refers_addFile (empty : t.slot p s = none) (d : Node) (y : Name) (m : Node) :
    (t.addFile p s x n).Refers d y m ↔ (d = p ∧ y = x ∧ m = n) ∨ t.Refers d y m := by
  constructor
  · rintro ⟨s', added⟩
    obtain ⟨here, _, name, target⟩ | ⟨_, entry⟩ := slot_addFile.mp added
    · exact Or.inl ⟨here, name, target⟩
    · exact Or.inr ⟨s', entry⟩
  · rintro (⟨rfl, rfl, rfl⟩ | ⟨s', entry⟩)
    · exact ⟨s, slot_addFile.mpr (Or.inl ⟨rfl, rfl, rfl, rfl⟩)⟩
    · refine ⟨s', slot_addFile.mpr (Or.inr ⟨?_, entry⟩)⟩
      rintro ⟨rfl, rfl⟩
      rw [empty] at entry
      cases entry

omit [DecidableEq Slot] in
theorem refers_toDir_of_ne {own : Slot → Option (Name × Node)} {d : Node} (other : d ≠ n) (y : Name)
    (m : Node) : (t.toDir n own).Refers d y m ↔ t.Refers d y m := by
  simp [Refers, DirTree.toDir, other]

omit [DecidableEq Slot] in
theorem refers_toDir_self {own : Slot → Option (Name × Node)} (y : Name) (m : Node) :
    (t.toDir n own).Refers n y m ↔ ∃ s, own s = some (y, m) := by
  simp [Refers, DirTree.toDir]

theorem WellFormed.refers_remove (wf : t.WellFormed root dot dotDot)
    (entry : t.slot p s = some (x, n)) (d : Node) (y : Name) (m : Node) :
    (t.remove p s n).Refers d y m ↔ d ≠ n ∧ ¬ (d = p ∧ y = x) ∧ t.Refers d y m := by
  constructor
  · rintro ⟨s', left⟩
    obtain ⟨other, elsewhere, entry'⟩ := slot_remove.mp left
    refine ⟨other, ?_, s', entry'⟩
    rintro ⟨rfl, rfl⟩
    exact elsewhere ⟨rfl, wf.distinct entry' entry⟩
  · rintro ⟨other, elsewhere, s', entry'⟩
    refine ⟨s', slot_remove.mpr ⟨other, ?_, entry'⟩⟩
    rintro ⟨rfl, rfl⟩
    rw [entry, Option.some.injEq, Prod.mk.injEq] at entry'
    exact elsewhere ⟨rfl, entry'.1.symm⟩

end Operations

/-! ## Counting references -/

section Counting

variable {t : DirTree Node Name Slot} {root d : Node} {dot dotDot : Name}

/-- All slots of a directory that are taken, but for the two special ones, hold different proper
names. -/
theorem WellFormed.exists_names (wf : t.WellFormed root dot dotDot) {slots : Finset Slot}
    (taken : ∀ s ∈ slots, t.slot d s ≠ none) : ∃ names : Finset Name,
    slots.card ≤ names.card + 2 ∧ ∀ y ∈ names, y ≠ dot ∧ y ≠ dotDot ∧ ∃ n, t.Refers d y n := by
  classical
  have entries : ∀ s : slots, ∃ e : Name × Node, t.slot d s = some e := fun s =>
    Option.ne_none_iff_exists'.mp (taken s s.2)
  choose e entry using entries
  have injective : Function.Injective fun s => (e s).1 := by
    intro s s' same
    have entry' : t.slot d s' = some ((e s).1, (e s').2) := by
      rw [show (e s).1 = (e s').1 from same, entry s']
    exact Subtype.ext (wf.distinct (entry s) entry')
  refine ⟨(slots.attach.image fun s => (e s).1) \ {dot, dotDot}, ?_, fun y member => ?_⟩
  · have few := Finset.le_card_sdiff {dot, dotDot} (slots.attach.image fun s => (e s).1)
    have two : Finset.card {dot, dotDot} ≤ 2 := Finset.card_le_two
    rw [Finset.card_image_of_injective _ injective, Finset.card_attach] at few
    omega
  · obtain ⟨listed, proper⟩ := Finset.mem_sdiff.mp member
    obtain ⟨s, _, rfl⟩ := Finset.mem_image.mp listed
    rw [Finset.mem_insert, Finset.mem_singleton, not_or] at proper
    exact ⟨proper.1, proper.2, (e s).2, s, entry s⟩

/-- A directory does not hold more references than there are nodes, but for the two special ones. -/
theorem WellFormed.card_taken_le (wf : t.WellFormed root dot dotDot) {slots : Finset Slot}
    (taken : ∀ s ∈ slots, t.slot d s ≠ none) {nodes : Finset Node}
    (used : ∀ n, t.used n → n ∈ nodes) : slots.card ≤ nodes.card + 2 := by
  obtain ⟨names, many, proper⟩ := wf.exists_names taken
  have targets : ∀ y : names, ∃ n, t.Refers d y n := fun y => (proper y y.2).2.2
  choose target refers using targets
  have fewer : names.attach.card ≤ nodes.card := by
    refine Finset.card_le_card_of_injOn target (fun y _ => ?_) fun y _ y' _ same => ?_
    · obtain ⟨s, entry⟩ := refers y
      exact used _ (wf.used_target entry)
    · obtain ⟨s, entry⟩ := refers y
      obtain ⟨s', entry'⟩ := refers y'
      obtain ⟨ne, ne', _⟩ := proper y y.2
      obtain ⟨ne₂, ne₂', _⟩ := proper y' y'.2
      obtain ⟨_, rfl⟩ := wf.unique entry ne ne' (same ▸ entry') ne₂ ne₂'
      rw [entry, Option.some.injEq, Prod.mk.injEq] at entry'
      exact Subtype.ext entry'.1
  rw [Finset.card_attach] at fewer
  omega

end Counting

end DirTree
end KwHomework
