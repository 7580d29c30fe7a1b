import KwHomework.Volume.DirTree

/-!
# Paths in a tree of directories

A path that goes through the two special names leads where its normal form leads, in which `dot` is
left out and `dotDot` takes the name before it away.  For paths in normal form, which pass proper
names only, it is said here what the addition and the removal of one reference do.
-/

namespace KwHomework
namespace DirTree

variable {Node Name Slot : Type*}

/-- The names of a path are not special. -/
def Proper (dot dotDot : Name) (path : List Name) : Prop := ∀ x ∈ path, x ≠ dot ∧ x ≠ dotDot

theorem proper_append {dot dotDot : Name} {path path' : List Name} :
    Proper dot dotDot (path ++ path') ↔ Proper dot dotDot path ∧ Proper dot dotDot path' :=
  List.forall_mem_append

theorem proper_singleton {dot dotDot x : Name} :
    Proper dot dotDot [x] ↔ x ≠ dot ∧ x ≠ dotDot := by
  simp [Proper]

/-! ## The normal form -/

section Normal

variable [DecidableEq Name] (dot dotDot : Name)

/-- One more name behind a path in normal form. -/
def follow (path : List Name) (x : Name) : List Name :=
  if x = dot then path else if x = dotDot then path.dropLast else path ++ [x]

/-- The normal form of a path. -/
def normal (path : List Name) : List Name := path.foldl (follow dot dotDot) []

theorem normal_concat (path : List Name) (x : Name) :
    normal dot dotDot (path ++ [x]) = follow dot dotDot (normal dot dotDot path) x := by
  rw [normal, List.foldl_append]
  rfl

variable {dot dotDot}

theorem normal_concat_proper {x : Name} (proper : x ≠ dot ∧ x ≠ dotDot) (path : List Name) :
    normal dot dotDot (path ++ [x]) = normal dot dotDot path ++ [x] := by
  rw [normal_concat, follow, if_neg proper.1, if_neg proper.2]

theorem proper_normal (path : List Name) : Proper dot dotDot (normal dot dotDot path) := by
  induction path using List.reverseRecOn with
  | nil => exact fun x member => by cases member
  | append_singleton path x induction =>
      rw [normal_concat, follow]
      split_ifs with isDot isDotDot
      · exact induction
      · exact fun y member => induction y (List.mem_of_mem_dropLast member)
      · exact proper_append.mpr ⟨induction, proper_singleton.mpr ⟨isDot, isDotDot⟩⟩

/-- A path without special names is in normal form. -/
theorem normal_of_proper {path : List Name} (proper : Proper dot dotDot path) :
    normal dot dotDot path = path := by
  induction path using List.reverseRecOn with
  | nil => rfl
  | append_singleton path x induction =>
      obtain ⟨before, last⟩ := proper_append.mp proper
      rw [normal_concat_proper (proper_singleton.mp last), induction before]

variable {t : DirTree Node Name Slot} {root : Node}

/-- A path leads where its normal form leads. -/
theorem WellFormed.leads_normal (wf : t.WellFormed root dot dotDot) {path : List Name} {n : Node}
    (leads : t.Leads root path n) : t.Leads root (normal dot dotDot path) n := by
  induction path using List.reverseRecOn generalizing n with
  | nil => exact leads
  | append_singleton path x induction =>
      obtain ⟨m, leads, s, entry⟩ := (leads_concat ..).mp leads
      have before := induction leads
      rw [normal_concat, follow]
      split_ifs with isDot isDotDot
      · subst isDot
        rwa [wf.dot_self entry]
      · subst isDotDot
        -- the parent refers to `m` under a proper name, which is the last one of the normal form
        obtain ⟨y, ne, ne', s', refers⟩ := wf.dotDot_parent entry
        rcases List.eq_nil_or_concat' (normal dot x path) with empty | ⟨dirs, z, split⟩
        · rw [empty] at before
          exact absurd before.symm (wf.proper_ne refers ne ne').1
        · obtain ⟨ne₂, ne₂'⟩ := proper_normal path z (show z ∈ normal dot x path by simp [split])
          rw [split] at before ⊢
          obtain ⟨p, leads', s'', refers'⟩ := (leads_concat ..).mp before
          obtain ⟨rfl, _⟩ := wf.unique refers' ne₂ ne₂' refers ne ne'
          rwa [List.dropLast_concat]
      · exact (leads_concat ..).mpr ⟨m, before, s, entry⟩

end Normal

/-! ## One reference more or less -/

section Changes

variable {t t' : DirTree Node Name Slot} {root p n : Node} {dot dotDot x : Name}
  {dirs : List Name}

/-- A path leads to a node in use. -/
theorem WellFormed.used_of_leads (wf : t.WellFormed root dot dotDot) {path : List Name} {m : Node}
    (leads : t.Leads root path m) : t.used m := by
  rcases List.eq_nil_or_concat' path with rfl | ⟨dirs, y, rfl⟩
  · rw [← show root = m from leads]
    exact wf.dir_used root wf.root_dir
  · obtain ⟨_, _, _, entry⟩ := (leads_concat ..).mp leads
    exact wf.used_target entry

/-- A new node is reached by the new path only. -/
theorem WellFormed.leads_added (wf : t.WellFormed root dot dotDot) (parent : t.Leads root dirs p)
    (proper : Proper dot dotDot dirs) (fresh : ¬ t.used n)
    (refers : ∀ d y m, y ≠ dot → y ≠ dotDot →
      (t'.Refers d y m ↔ (d = p ∧ y = x ∧ m = n) ∨ t.Refers d y m))
    {path : List Name} (proper' : Proper dot dotDot path) (m : Node) :
    t'.Leads root path m ↔ (path = dirs ++ [x] ∧ m = n) ∨ t.Leads root path m := by
  induction path using List.reverseRecOn generalizing m with
  | nil => simp [Leads]
  | append_singleton path y induction =>
      obtain ⟨before, last⟩ := proper_append.mp proper'
      obtain ⟨ne, ne'⟩ := proper_singleton.mp last
      rw [leads_concat, leads_concat]
      simp only [induction before, refers _ y m ne ne']
      constructor
      · rintro ⟨d, ⟨_, rfl⟩ | leads, ⟨rfl, rfl, rfl⟩ | ⟨s, entry⟩⟩
        · exact absurd (wf.used_of_leads parent) fresh
        · exact absurd (wf.dir_used _ (wf.slot_dir entry)) fresh
        · rw [wf.path_unique before proper leads parent]
          exact Or.inl ⟨rfl, rfl⟩
        · exact Or.inr ⟨d, leads, s, entry⟩
      · rintro (⟨same, rfl⟩ | ⟨d, leads, old⟩)
        · obtain ⟨rfl, last⟩ := List.append_inj' same rfl
          exact ⟨p, Or.inr parent, Or.inl ⟨rfl, List.singleton_inj.mp last, rfl⟩⟩
        · exact ⟨d, Or.inr leads, Or.inr old⟩

/-- A node without proper references is no longer reached, and all others are. -/
theorem WellFormed.leads_removed (wf : t.WellFormed root dot dotDot) (parent : t.Leads root dirs p)
    (proper : Proper dot dotDot dirs) (target : t.Refers p x n) (named : x ≠ dot ∧ x ≠ dotDot)
    (empty : ∀ y m, t.Refers n y m → y = dot ∨ y = dotDot)
    (refers : ∀ d y m, y ≠ dot → y ≠ dotDot →
      (t'.Refers d y m ↔ ¬ (d = p ∧ y = x) ∧ t.Refers d y m))
    {path : List Name} (proper' : Proper dot dotDot path) (m : Node) :
    t'.Leads root path m ↔ path ≠ dirs ++ [x] ∧ t.Leads root path m := by
  induction path using List.reverseRecOn generalizing m with
  | nil => simp [Leads]
  | append_singleton path y induction =>
      obtain ⟨before, last⟩ := proper_append.mp proper'
      obtain ⟨ne, ne'⟩ := proper_singleton.mp last
      rw [leads_concat, leads_concat]
      simp only [induction before, refers _ y m ne ne']
      constructor
      · rintro ⟨d, ⟨_, leads⟩, elsewhere, refers'⟩
        refine ⟨fun same => elsewhere ?_, d, leads, refers'⟩
        obtain ⟨rfl, last⟩ := List.append_inj' same rfl
        exact ⟨wf.leads_unique leads parent, List.singleton_inj.mp last⟩
      · rintro ⟨other, d, leads, refers'⟩
        refine ⟨d, ⟨?_, leads⟩, ?_, refers'⟩
        · rintro rfl
          -- the path would pass the removed node
          have whole : t.Leads root (dirs ++ [x]) n := (leads_concat ..).mpr ⟨p, parent, target⟩
          obtain rfl := wf.leads_unique leads whole
          exact (empty y m refers').elim ne ne'
        · rintro ⟨rfl, rfl⟩
          rw [wf.path_unique before proper leads parent] at other
          exact other rfl

end Changes

end DirTree
end KwHomework
