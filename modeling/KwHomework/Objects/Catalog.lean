import KwHomework.Objects.ObjectStore

/-!
# Catalogs

What the object store is for: a map from numbers to objects and their lists, the order of every
list, and the order of the buckets that index the objects of two of the lists.
-/

namespace KwHomework

open Function

/-- The end of a list at which an object is inserted. -/
inductive ListEnd where
  | head
  | tail
  deriving DecidableEq

/-- A map from numbers to objects, and the objects in order. -/
structure Catalog (α : Type) where
  stored : CInt → Option (α × ListNum)
  lists : ListNum → List α
  buckets : Fin hashTblSize → List α

/-- A call of the store. -/
inductive Operation (α : Type) where
  | insert (place : ListEnd) (pObj : α) (objNum : CInt) (listNum : ListNum)
  | find (objNum : CInt)
  | delete (pObj : α)
  | deleteByNum (objNum : CInt)

/-- What a call returns. -/
inductive Answer (α : Type) where
  | void
  | object (found : Option α)
  | bool (deleted : Bool)
  deriving DecidableEq

namespace Catalog

variable {α : Type} [DecidableEq α] {c : Catalog α} {o o' : α} {n n' : CInt} {l l' : ListNum}

/-- The empty catalog. -/
def empty : Catalog α := ⟨fun _ => none, fun _ => [], fun _ => []⟩

/-- The bucket of a number. -/
def bucketOf (n : CInt) : Fin hashTblSize := ⟨n.toNat % hashTblSize, Nat.mod_lt _ (by decide)⟩

/-- Put an object at an end of a sequence. -/
def putAt (place : ListEnd) (o : α) (objects : List α) : List α :=
  match place with
  | .head => o :: objects
  | .tail => objects ++ [o]

/-- A new object goes to the end of its list, and on `LIST3` and its bucket to either end. -/
def insert (c : Catalog α) (place : ListEnd) (o : α) (n : CInt) (l : ListNum) : Catalog α where
  stored := update c.stored n (some (o, l))
  lists := update c.lists l (putAt (if l = .list3 then place else .tail) o (c.lists l))
  buckets :=
    if l = .list3 then c.buckets
    else update c.buckets (bucketOf n) (putAt place o (c.buckets (bucketOf n)))

/-- Take an object out and leave the order of the others. -/
def remove (c : Catalog α) (o : α) : Catalog α where
  stored n := if (c.stored n).map Prod.fst = some o then none else c.stored n
  lists l := (c.lists l).erase o
  buckets h := (c.buckets h).erase o

/-- The object is stored under some number. -/
def Holds (c : Catalog α) (o : α) : Prop := ∃ n l, c.stored n = some (o, l)

/-- The answer of a call and the catalog after it. -/
def apply (c : Catalog α) : Operation α → Answer α × Catalog α
  | .insert place o n l => (.void, c.insert place o n l)
  | .find n => (.object ((c.stored n).map Prod.fst), c)
  | .delete o => (.bool true, c.remove o)
  | .deleteByNum n =>
      match c.stored n with
      | some (o, _) => (.bool true, c.remove o)
      | none => (.bool false, c)

/-- New objects are inserted under new numbers that are not negative, and stored objects are
deleted. -/
def Allows (c : Catalog α) : Operation α → Prop
  | .insert _ o n _ => 0 ≤ n.toInt ∧ c.stored n = none ∧ ¬ c.Holds o
  | .delete o => c.Holds o
  | .find _ | .deleteByNum _ => True

/-- The lists and the buckets hold what the map says. -/
structure Consistent (c : Catalog α) : Prop where
  nonneg : ∀ {n o l}, c.stored n = some (o, l) → 0 ≤ n.toInt
  unique : ∀ {n n' o l l'}, c.stored n = some (o, l) → c.stored n' = some (o, l') → n = n'
  mem_lists : ∀ {l o}, o ∈ c.lists l ↔ ∃ n, c.stored n = some (o, l)
  mem_buckets : ∀ {h o}, o ∈ c.buckets h ↔
    ∃ n l, c.stored n = some (o, l) ∧ l ≠ .list3 ∧ bucketOf n = h
  nodup_lists : ∀ l, (c.lists l).Nodup
  nodup_buckets : ∀ h, (c.buckets h).Nodup

omit [DecidableEq α] in
theorem consistent_empty : (empty : Catalog α).Consistent where
  nonneg := by simp [empty]
  unique := by simp [empty]
  mem_lists := by simp [empty]
  mem_buckets := by simp [empty]
  nodup_lists _ := List.nodup_nil
  nodup_buckets _ := List.nodup_nil

omit [DecidableEq α] in
theorem mem_putAt {place : ListEnd} {objects : List α} :
    o' ∈ putAt place o objects ↔ o' = o ∨ o' ∈ objects := by
  cases place with
  | head => exact List.mem_cons
  | tail => rw [putAt, List.mem_append, List.mem_singleton, or_comm]

omit [DecidableEq α] in
private theorem nodup_putAt {place : ListEnd} {objects : List α} (fresh : o ∉ objects)
    (nodup : objects.Nodup) : (putAt place o objects).Nodup := by
  cases place with
  | head => exact List.nodup_cons.mpr ⟨fresh, nodup⟩
  | tail =>
      refine List.nodup_append.mpr ⟨nodup, List.nodup_singleton o, fun a member b same => ?_⟩
      rintro rfl
      exact fresh (List.mem_singleton.mp same ▸ member)

omit [DecidableEq α] in
/-- What the map holds after an insertion under a new number. -/
theorem stored_insert (new : c.stored n = none) {place : ListEnd} :
    (c.insert place o n l).stored n' = some (o', l') ↔
      (n' = n ∧ o' = o ∧ l' = l) ∨ c.stored n' = some (o', l') := by
  by_cases same : n' = n
  · subst same
    simp [insert, new, eq_comm]
  · simp [insert, same]

omit [DecidableEq α] in
theorem Consistent.insert (consistent : c.Consistent) (place : ListEnd) (nonneg : 0 ≤ n.toInt)
    (new : c.stored n = none) (fresh : ¬ c.Holds o) : (c.insert place o n l).Consistent where
  nonneg found := by
    rcases (stored_insert new).mp found with ⟨rfl, _⟩ | old
    · exact nonneg
    · exact consistent.nonneg old
  unique found found' := by
    rcases (stored_insert new).mp found with ⟨rfl, rfl, rfl⟩ | old
    · rcases (stored_insert new).mp found' with ⟨rfl, _⟩ | old'
      · rfl
      · exact absurd ⟨_, _, old'⟩ fresh
    · rcases (stored_insert new).mp found' with ⟨rfl, rfl, rfl⟩ | old'
      · exact absurd ⟨_, _, old⟩ fresh
      · exact consistent.unique old old'
  mem_lists {l'} {o'} := by
    simp only [stored_insert new]
    by_cases same : l' = l
    · subst same
      simp only [Catalog.insert, update_self, mem_putAt, consistent.mem_lists]
      grind
    · simp only [Catalog.insert, update_of_ne same, consistent.mem_lists]
      grind
  mem_buckets {h} {o'} := by
    simp only [stored_insert new]
    by_cases last : l = .list3
    · simp only [Catalog.insert, if_pos last, consistent.mem_buckets]
      grind
    · by_cases same : h = bucketOf n
      · subst same
        simp only [Catalog.insert, if_neg last, update_self, mem_putAt, consistent.mem_buckets]
        constructor
        · rintro (rfl | ⟨n', l', found⟩)
          · exact ⟨n, l, .inl ⟨rfl, rfl, rfl⟩, last, rfl⟩
          · exact ⟨n', l', .inr found.1, found.2⟩
        · rintro ⟨n', l', ⟨_, rfl, _⟩ | found, others⟩
          · exact .inl rfl
          · exact .inr ⟨n', l', found, others⟩
      · simp only [Catalog.insert, if_neg last, update_of_ne same, consistent.mem_buckets]
        grind
  nodup_lists l' := by
    by_cases same : l' = l
    · subst same
      simp only [Catalog.insert, update_self]
      refine nodup_putAt (fun member => fresh ?_) (consistent.nodup_lists l')
      obtain ⟨n, found⟩ := consistent.mem_lists.mp member
      exact ⟨n, _, found⟩
    · simp only [Catalog.insert, update_of_ne same]
      exact consistent.nodup_lists l'
  nodup_buckets h := by
    by_cases last : l = .list3
    · simp only [Catalog.insert, if_pos last]
      exact consistent.nodup_buckets h
    · by_cases same : h = bucketOf n
      · subst same
        simp only [Catalog.insert, if_neg last, update_self]
        refine nodup_putAt (fun member => fresh ?_) (consistent.nodup_buckets _)
        obtain ⟨n, l, found, _⟩ := consistent.mem_buckets.mp member
        exact ⟨n, l, found⟩
      · simp only [Catalog.insert, if_neg last, update_of_ne same]
        exact consistent.nodup_buckets h

/-- What the map holds after an object was taken out. -/
theorem stored_remove : (c.remove o).stored n = some (o', l) ↔ c.stored n = some (o', l) ∧
    o' ≠ o := by
  simp only [remove]
  split_ifs with same
  · obtain ⟨⟨_, _⟩, found, rfl⟩ := Option.map_eq_some_iff.mp same
    simp only [found, Option.some.injEq, Prod.mk.injEq, false_iff]
    rintro ⟨⟨rfl, _⟩, other⟩
    exact other rfl
  · refine ⟨fun found => ⟨found, ?_⟩, And.left⟩
    rintro rfl
    exact same (by rw [found]; rfl)

theorem Consistent.remove (consistent : c.Consistent) (o : α) : (c.remove o).Consistent where
  nonneg found := consistent.nonneg (stored_remove.mp found).1
  unique found found' := consistent.unique (stored_remove.mp found).1 (stored_remove.mp found').1
  mem_lists {l} {o'} := by
    have listed : (c.remove o).lists l = (c.lists l).erase o := rfl
    rw [listed, (consistent.nodup_lists l).mem_erase_iff, consistent.mem_lists]
    simp only [stored_remove]
    grind
  mem_buckets {h} {o'} := by
    have indexed : (c.remove o).buckets h = (c.buckets h).erase o := rfl
    rw [indexed, (consistent.nodup_buckets h).mem_erase_iff, consistent.mem_buckets]
    simp only [stored_remove]
    grind
  nodup_lists l := (consistent.nodup_lists l).erase o
  nodup_buckets h := (consistent.nodup_buckets h).erase o

/-! ## Runs -/

/-- The calls of a program in order, with their answers. -/
def run (c : Catalog α) : List (Operation α) → List (Answer α) × Catalog α
  | [] => ([], c)
  | op :: ops => ((c.apply op).1 :: ((c.apply op).2.run ops).1, ((c.apply op).2.run ops).2)

/-- Every call of a program is allowed when it is made. -/
def AllowsAll (c : Catalog α) : List (Operation α) → Prop
  | [] => True
  | op :: ops => c.Allows op ∧ (c.apply op).2.AllowsAll ops

/-- A bound on the lists and the buckets. -/
def AtMost (c : Catalog α) (size : Nat) : Prop :=
  (∀ l, (c.lists l).length ≤ size) ∧ ∀ h, (c.buckets h).length ≤ size

omit [DecidableEq α] in
private theorem length_putAt {place : ListEnd} {objects : List α} :
    (putAt place o objects).length = objects.length + 1 := by
  cases place with
  | head => rfl
  | tail => exact List.length_append

omit [DecidableEq α] in
/-- An insertion adds at most one object to a list. -/
theorem length_update_putAt {ι : Type*} [DecidableEq ι] {lists : ι → List α} {size : Nat}
    (small : ∀ h, (lists h).length ≤ size) (place : ListEnd) (h h' : ι) :
    (update lists h (putAt place o (lists h)) h').length ≤ size + 1 := by
  by_cases same : h' = h
  · rw [same, update_self, length_putAt]
    exact Nat.succ_le_succ (small h)
  · rw [update_of_ne same]
    exact Nat.le_succ_of_le (small h')

private theorem AtMost.remove {size : Nat} (small : c.AtMost size) (o : α) :
    (c.remove o).AtMost (size + 1) :=
  ⟨fun l => (List.length_erase_le).trans (Nat.le_succ_of_le (small.1 l)),
    fun h => (List.length_erase_le).trans (Nat.le_succ_of_le (small.2 h))⟩

theorem AtMost.apply {size : Nat} (small : c.AtMost size) (op : Operation α) :
    (c.apply op).2.AtMost (size + 1) := by
  cases op with
  | insert place o n l =>
      refine ⟨length_update_putAt small.1 _ l, fun h => ?_⟩
      simp only [Catalog.apply, Catalog.insert]
      split_ifs
      · exact Nat.le_succ_of_le (small.2 h)
      · exact length_update_putAt small.2 place _ h
  | find n => exact ⟨fun l => Nat.le_succ_of_le (small.1 l), fun h => Nat.le_succ_of_le (small.2 h)⟩
  | delete o => exact small.remove o
  | deleteByNum n =>
      rw [Catalog.apply]
      split
      · exact small.remove _
      · exact ⟨fun l => Nat.le_succ_of_le (small.1 l), fun h => Nat.le_succ_of_le (small.2 h)⟩

theorem AtMost.run : ∀ {ops : List (Operation α)} {c : Catalog α} {size : Nat},
    c.AtMost size → (c.run ops).2.AtMost (size + ops.length)
  | [], _, _, small => small
  | op :: ops, _, size, small => by
      rw [List.length_cons, Nat.add_comm ops.length, ← Nat.add_assoc]
      exact (small.apply op).run

end Catalog
end KwHomework
