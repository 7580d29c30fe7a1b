import KwHomework.Objects.Refinement

/-!
# Objects with one number

No insertion asks whether its number is in use.  The delete functions look for the first object with
the number, and for the last list that has one: they take the object off that list, through the head
of that list.  With a number that is used once these are the object and its list.
-/

namespace KwHomework

open Function

/-- The objects on the lists and in the buckets, in order. -/
structure Shelves (α : Type) where
  lists : ListNum → List α
  buckets : Fin hashTblSize → List α

/-- One insertion. -/
structure Insertion (α : Type) where
  place : ListEnd
  pObj : α
  objNum : CInt
  listNum : ListNum

/-- The position of a list in the order in which the lists are searched. -/
def ListNum.position : ListNum → Nat
  | .list1 => 0
  | .list2 => 1
  | .list3 => 2

namespace Shelves

variable {α : Type} {c : Shelves α}

/-- Nothing is inserted yet. -/
def empty : Shelves α := ⟨fun _ => [], fun _ => []⟩

/-- A new object goes to the end of its list, and on `LIST3` and its bucket to either end. -/
def insert (c : Shelves α) (i : Insertion α) : Shelves α where
  lists := update c.lists i.listNum
    (Catalog.putAt (if i.listNum = .list3 then i.place else .tail) i.pObj (c.lists i.listNum))
  buckets :=
    if i.listNum = .list3 then c.buckets
    else update c.buckets (Catalog.bucketOf i.objNum)
      (Catalog.putAt i.place i.pObj (c.buckets (Catalog.bucketOf i.objNum)))

/-- The objects after some insertions. -/
def ofInsertions (insertions : List (Insertion α)) : Shelves α := insertions.foldl insert empty

/-- Take an object out and leave the order of the others. -/
def remove [DecidableEq α] (c : Shelves α) (o : α) : Shelves α :=
  ⟨fun l => (c.lists l).erase o, fun h => (c.buckets h).erase o⟩

/-- The first object on the lists that passes a test. -/
def first (c : Shelves α) (p : α → Bool) : Option α :=
  ObjectStore.listNums.findSome? fun l => (c.lists l).find? p

/-- The last list with an object that passes a test. -/
def lastList (c : Shelves α) (p : α → Bool) : Option ListNum :=
  ObjectStore.listNums.foldl (fun listNum l => if (c.lists l).any p then some l else listNum) none

/-- The object is the first one on the lists that passes the test; it is on the list `l`, behind the
objects of `front`. -/
structure FirstOn (c : Shelves α) (p : α → Bool) (o : α) (l : ListNum) (front back : List α) :
    Prop where
  passes : p o = true
  split : c.lists l = front ++ o :: back
  front : ∀ x ∈ front, p x = false
  earlier : ∀ l', l'.position < l.position → ∀ x ∈ c.lists l', p x = false

variable {p : α → Bool} {o x : α} {l l' : ListNum} {front back : List α}

private theorem FirstOn.mem (first : c.FirstOn p o l front back) : o ∈ c.lists l :=
  by simp [first.split]

private theorem first_eq (c : Shelves α) (p : α → Bool) : c.first p =
    ((c.lists .list1).find? p).or (((c.lists .list2).find? p).or ((c.lists .list3).find? p)) := by
  rw [first, List.findSome?, List.findSome?, List.findSome?, List.findSome?]
  cases (c.lists .list1).find? p <;> cases (c.lists .list2).find? p <;>
    cases (c.lists .list3).find? p <;> rfl

private theorem lastList_eq (c : Shelves α) (p : α → Bool) : c.lastList p =
    if (c.lists .list3).any p then some .list3
    else if (c.lists .list2).any p then some .list2
    else if (c.lists .list1).any p then some .list1
    else none := rfl

theorem exists_first (passes : p x = true) (member : x ∈ c.lists l) :
    ∃ o l front back, c.FirstOn p o l front back := by
  induction place : l.position using Nat.strong_induction_on generalizing l x with
  | h place induction =>
    by_cases earlier : ∃ l', l'.position < l.position ∧ ∃ y ∈ c.lists l', p y = true
    · obtain ⟨l', before, y, member', passes'⟩ := earlier
      exact induction _ (place ▸ before) passes' member' rfl
    · obtain ⟨o, found⟩ := Option.isSome_iff_exists.mp (List.find?_isSome.mpr ⟨x, member, passes⟩)
      obtain ⟨passes', front, back, split, others⟩ := List.find?_eq_some_iff_append.mp found
      exact ⟨o, l, front, back, passes', split, by simpa using others, by simpa using earlier⟩

private theorem FirstOn.first_eq (first : c.FirstOn p o l front back) : c.first p = some o := by
  have here : (c.lists l).find? p = some o := List.find?_eq_some_iff_append.mpr
    ⟨first.passes, front, back, first.split, by simpa using first.front⟩
  have earlier : ∀ l', l'.position < l.position → (c.lists l').find? p = none :=
    fun l' before => List.find?_eq_none.mpr fun x member => by
      simp [first.earlier l' before x member]
  rw [Shelves.first_eq]
  cases l with
  | list1 => rw [here, Option.some_or]
  | list2 => rw [earlier .list1 (by decide), here, Option.none_or, Option.some_or]
  | list3 =>
      rw [earlier .list1 (by decide), earlier .list2 (by decide), here, Option.none_or,
        Option.none_or]

private theorem lastList_eq_some (hit : ∃ y ∈ c.lists l, p y = true)
    (later : ∀ l', l.position < l'.position → ∀ y ∈ c.lists l', p y = false) :
    c.lastList p = some l := by
  have here : (c.lists l).any p = true := List.any_eq_true.mpr hit
  have behind : ∀ l', l.position < l'.position → (c.lists l').any p = false :=
    fun l' after => by simpa using later l' after
  rw [lastList_eq]
  cases l with
  | list1 => simp [here, behind .list2 (by decide), behind .list3 (by decide)]
  | list2 => simp [here, behind .list3 (by decide)]
  | list3 => simp [here]

/-- If some object passes the test, there is a last list with one, and none is behind it. -/
theorem exists_lastList (passes : p x = true) (member : x ∈ c.lists l) :
    ∃ k, c.lastList p = some k ∧ l.position ≤ k.position ∧ (∃ y ∈ c.lists k, p y = true) ∧
      ∀ l', k.position < l'.position → ∀ y ∈ c.lists l', p y = false := by
  induction place : 2 - l.position using Nat.strong_induction_on generalizing l x with
  | h place induction =>
    by_cases behind : ∃ l', l.position < l'.position ∧ ∃ y ∈ c.lists l', p y = true
    · obtain ⟨l', after, y, member', passes'⟩ := behind
      have last : l'.position ≤ 2 := by cases l' <;> decide
      obtain ⟨k, found, order, others⟩ := induction _ (by omega) passes' member' rfl
      exact ⟨k, found, after.le.trans order, others⟩
    · have later : ∀ l', l.position < l'.position → ∀ y ∈ c.lists l', p y = false := by
        simpa using behind
      exact ⟨l, lastList_eq_some ⟨x, member, passes⟩ later, Nat.le_refl _, ⟨x, member, passes⟩,
        later⟩

/-- The object is the first one with its number, and no later list has the number; or the number is
on `LIST2` as well but not on `LIST3`, and the object is neither the first nor the last on
`LIST1`. -/
def Deletable (c : Shelves α) (number : α → CInt) (o : α) : Prop :=
  ∃ l front back, c.FirstOn (fun x => number x = number o) o l front back ∧
    ((∀ l', l.position < l'.position → ∀ x ∈ c.lists l', number x ≠ number o) ∨
      (l = .list1 ∧ front ≠ [] ∧ back ≠ [] ∧ ∀ x ∈ c.lists .list3, number x ≠ number o))

end Shelves

namespace ObjectStore

variable {α : Type} [DecidableEq α] {s s' : ObjectStore α} {c : Shelves α} {o x : α}
  {l k : ListNum} {front back : List α} {fuel : Nat}

/-- The queues of a store spell the shelves, and the buckets hold the objects of `LIST1` and `LIST2`
by their numbers. -/
structure Stocks (s : ObjectStore α) (c : Shelves α) : Prop where
  link : s.ppListHead.Represents c.lists
  hash : s.ppHashTable.Represents c.buckets
  nonneg : ∀ l, ∀ o ∈ c.lists l, 0 ≤ (s.objnum o).toInt
  indexed : ∀ h o, o ∈ c.buckets h ↔
    (o ∈ c.lists .list1 ∨ o ∈ c.lists .list2) ∧ Catalog.bucketOf (s.objnum o) = h

namespace Stocks

omit [DecidableEq α] in
private theorem only (stocks : s.Stocks c) (member : o ∈ c.lists l) (member' : o ∈ c.lists k) :
    k = l := by
  by_contra other
  exact stocks.link.disjoint k l other member' member

omit [DecidableEq α] in
/-- An object is in a bucket exactly if it is not on `LIST3`. -/
theorem mem_bucket (stocks : s.Stocks c) (member : o ∈ c.lists l) {h : Fin hashTblSize} :
    o ∈ c.buckets h ↔ l ≠ .list3 ∧ Catalog.bucketOf (s.objnum o) = h := by
  rw [stocks.indexed]
  refine and_congr_left fun _ => ⟨?_, fun early => ?_⟩
  · rintro (one | two) rfl
    · cases stocks.only member one
    · cases stocks.only member two
  · cases l with
    | list1 => exact .inl member
    | list2 => exact .inr member
    | list3 => exact absurd rfl early

/-! ## Searches -/

omit [DecidableEq α] in
private theorem findObjectByNum_eq (stocks : s.Stocks c) (enough : ∀ l, (c.lists l).length < fuel)
    (n : CInt) : s.findObjectByNum fuel n = some (c.first fun x => s.objnum x = n) := by
  simp only [findObjectByNum, List.findSomeM?, stocks.link.search _ _ (enough _), Shelves.first_eq]
  cases (c.lists .list1).find? _ <;> cases (c.lists .list2).find? _ <;>
    cases (c.lists .list3).find? _ <;> rfl

omit [DecidableEq α] in
private theorem findListNum_eq (stocks : s.Stocks c) (enough : ∀ l, (c.lists l).length < fuel)
    (n : CInt) : s.findListNum fuel n = some (c.lastList fun x => s.objnum x = n) := by
  simp only [findListNum, List.foldlM, stocks.link.fold _ _ _ (enough _), foldl_assign]
  rfl

/-! ## Removal -/

theorem remove (stocks : s.Stocks c) (o : α) (link : s'.ppListHead.Represents (c.remove o).lists)
    (hash : s'.ppHashTable.Represents (c.remove o).buckets) (number : s'.objnum = s.objnum) :
    s'.Stocks (c.remove o) := by
  have gone : ∀ l x, x ∈ (c.remove o).lists l ↔ x ≠ o ∧ x ∈ c.lists l := fun l x =>
    (stocks.link.nodup l).mem_erase_iff
  refine ⟨link, hash, fun l x member => ?_, fun h x => ?_⟩
  · rw [number]
    exact stocks.nonneg l x ((gone l x).mp member).2
  · have gone' : x ∈ (c.remove o).buckets h ↔ x ≠ o ∧ x ∈ c.buckets h :=
      (stocks.hash.nodup h).mem_erase_iff
    rw [gone', stocks.indexed, gone, gone, number]
    tauto

theorem remove_hash (stocks : s.Stocks c) (member : o ∈ c.lists l) (early : l ≠ .list3) :
    ∃ hash, s.ppHashTable.remove (Catalog.bucketOf (s.objnum o)) o = some hash ∧
      hash.Represents (c.remove o).buckets := by
  obtain ⟨hash, unhashed, rep⟩ := stocks.hash.remove ((stocks.mem_bucket member).mpr ⟨early, rfl⟩)
  rw [update_erase fun h member' => ((stocks.mem_bucket member).mp member').2.symm] at rep
  exact ⟨hash, unhashed, rep⟩

theorem exists_unlink (stocks : s.Stocks c) (split : c.lists l = front ++ o :: back)
    (inner : k = l ∨ front ≠ [] ∧ back ≠ []) :
    ∃ link, s.ppListHead.remove k o = some link ∧ link.Represents (c.remove o).lists := by
  have member : o ∈ c.lists l := by simp [split]
  obtain ⟨link, unlinked, rep⟩ := stocks.link.remove member
  rw [update_erase fun l' member' => stocks.only member member'] at rep
  refine ⟨link, ?_, rep⟩
  by_cases same : k = l
  · rwa [same]
  · obtain ⟨behind, before⟩ := inner.resolve_left same
    rwa [stocks.link.remove_other (Ne.symm same) split, if_neg (not_or.mpr ⟨behind, before⟩)]

/-- At an end of its list an object is not taken off with another head. -/
theorem unlink_eq_none (stocks : s.Stocks c) (split : c.lists l = front ++ o :: back)
    (outer : ¬ (k = l ∨ front ≠ [] ∧ back ≠ [])) : s.ppListHead.remove k o = none := by
  obtain ⟨other, ends⟩ := not_or.mp outer
  rw [stocks.link.remove_other (Ne.symm other) split, if_pos]
  by_contra inner
  exact ends (not_or.mp inner)

/-- The delete functions succeed if the object can be unlinked with the head that they use, and they
take it off its bucket unless this head is that of `LIST3`. -/
theorem removeObject (stocks : s.Stocks c) (member : o ∈ c.lists l)
    {link : CircleQueue ListNum α} (unlinked : s.ppListHead.remove k o = some link)
    (rep : link.Represents (c.remove o).lists) (same : k = .list3 ↔ l = .list3) :
    ∃ s', s.removeObject k o (s.objnum o) = some s' ∧ s'.objnum = s.objnum ∧
      s'.Stocks (c.remove o) := by
  by_cases last : k = .list3
  · have unindexed : (c.remove o).buckets = c.buckets := funext fun h =>
      List.erase_of_not_mem fun inside => ((stocks.mem_bucket member).mp inside).1 (same.mp last)
    refine ⟨⟨s.objnum, s.ppHashTable, link⟩, ?_, rfl, stocks.remove o rep ?_ rfl⟩
    · rw [ObjectStore.removeObject, unlinked]
      subst last
      rfl
    · rw [unindexed]
      exact stocks.hash
  · obtain ⟨hash, unhashed, hashRep⟩ := stocks.remove_hash member (mt same.mpr last)
    refine ⟨⟨s.objnum, hash, link⟩, ?_, rfl, stocks.remove o rep hashRep rfl⟩
    rw [ObjectStore.removeObject, unlinked]
    dsimp only [Option.bind_eq_bind, Option.bind_some]
    rw [if_pos last, tableIndex_eq (stocks.nonneg l o member)]
    dsimp only [Option.bind_some]
    rw [unhashed]
    rfl

end Stocks

/-! ## When an object is deleted -/

/-- `DeleteObject` returns true and takes the object off its list and its bucket, and nothing
else. -/
def DeletesOnly (s : ObjectStore α) (fuel : Nat) (c : Shelves α) (pObj : α) : Prop :=
  ∃ s', s.deleteObject fuel pObj = some (true, s') ∧ s'.objnum = s.objnum ∧
    s'.Stocks (c.remove pObj)

/-- The delete functions leave the hash table alone if they use the head of `LIST3`. -/
theorem removed_eq {n : CInt} (removed : s.removeObject k o n = some s') :
    s.ppListHead.remove k o = some s'.ppListHead ∧
      (k = .list3 → s'.ppHashTable = s.ppHashTable) := by
  obtain ⟨link, unlinked, rest⟩ := Option.bind_eq_some_iff.mp removed
  by_cases last : k = .list3
  · rw [if_neg (not_not.mpr last)] at rest
    obtain rfl := Option.some.inj rest
    exact ⟨unlinked, fun _ => rfl⟩
  · rw [if_pos last] at rest
    obtain ⟨idx, _, rest⟩ := Option.bind_eq_some_iff.mp rest
    obtain ⟨hash, _, rest⟩ := Option.bind_eq_some_iff.mp rest
    obtain rfl := Option.some.inj rest
    exact ⟨unlinked, fun same => absurd same last⟩

theorem eq_of_remove_lists {c : Shelves α} (nodup : (c.lists l).Nodup) (member : x ∈ c.lists l)
    (same : (c.remove x).lists = (c.remove o).lists) : x = o := by
  by_contra other
  have kept : x ∈ (c.remove o).lists l := (List.mem_erase_of_ne other).mpr member
  rw [← same] at kept
  exact nodup.not_mem_erase kept

namespace Stocks

private theorem deleteObject_eq (stocks : s.Stocks c) (enough : ∀ l, (c.lists l).length < fuel)
    (found : (c.first fun y => s.objnum y = s.objnum o) = some x)
    (last : (c.lastList fun y => s.objnum y = s.objnum o) = some k) :
    s.deleteObject fuel o = (s.removeObject k x (s.objnum x)).map fun s => (true, s) := by
  rw [ObjectStore.deleteObject, stocks.findObjectByNum_eq enough, stocks.findListNum_eq enough,
    found, last, Option.map_eq_bind]
  rfl

/-- If `DeleteObject` works, it finds the object itself, and a list whose head unlinks it and that
has a bucket if its list has one. -/
theorem found_of_deletesOnly (stocks : s.Stocks c) (enough : ∀ l, (c.lists l).length < fuel)
    (first : c.FirstOn (fun y => s.objnum y = s.objnum o) x l front back)
    (last : c.lastList (fun y => s.objnum y = s.objnum o) = some k)
    (deletes : s.DeletesOnly fuel c o) :
    x = o ∧ (k = l ∨ front ≠ [] ∧ back ≠ []) ∧ (k = .list3 → l = .list3) := by
  obtain ⟨s', deleted, number, stocks'⟩ := deletes
  rw [stocks.deleteObject_eq enough first.first_eq last] at deleted
  obtain ⟨s'', removed, same⟩ := Option.map_eq_some_iff.mp deleted
  obtain rfl := (Prod.mk.inj same).2
  obtain ⟨unlinked, kept⟩ := removed_eq removed
  have inner : k = l ∨ front ≠ [] ∧ back ≠ [] := by
    by_contra outer
    rw [stocks.unlink_eq_none first.split outer] at unlinked
    cases unlinked
  obtain ⟨link, unlinked', rep⟩ := stocks.exists_unlink first.split inner
  obtain rfl := Option.some.inj (unlinked.symm.trans unlinked')
  obtain rfl := eq_of_remove_lists (stocks.link.nodup l) first.mem (rep.unique stocks'.link)
  refine ⟨rfl, inner, fun third => ?_⟩
  -- an object that stays in its bucket was on `LIST3`
  by_contra early
  have bucket := (stocks.mem_bucket first.mem).mpr ⟨early, rfl⟩
  have hash := stocks'.hash
  rw [kept third] at hash
  rw [stocks.hash.unique hash] at bucket
  exact (stocks.hash.nodup _).not_mem_erase bucket

private theorem deletesOnly_of_found (stocks : s.Stocks c) (enough : ∀ l, (c.lists l).length < fuel)
    (first : c.FirstOn (fun y => s.objnum y = s.objnum o) o l front back)
    (last : c.lastList (fun y => s.objnum y = s.objnum o) = some k)
    (inner : k = l ∨ front ≠ [] ∧ back ≠ []) (same : k = .list3 ↔ l = .list3) :
    s.DeletesOnly fuel c o := by
  obtain ⟨link, unlinked, rep⟩ := stocks.exists_unlink first.split inner
  obtain ⟨s', removed, number, stocks'⟩ := stocks.removeObject first.mem unlinked rep same
  refine ⟨s', ?_, number, stocks'⟩
  rw [stocks.deleteObject_eq enough first.first_eq last, removed]
  rfl

/-- `DeleteObject` works exactly on a deletable object. -/
theorem deletesOnly_iff (stocks : s.Stocks c) (enough : ∀ l, (c.lists l).length < fuel)
    (member : o ∈ c.lists l) : s.DeletesOnly fuel c o ↔ c.Deletable s.objnum o := by
  have itself : decide (s.objnum o = s.objnum o) = true := decide_eq_true rfl
  constructor
  · intro deletes
    obtain ⟨x, j, front, back, first⟩ :=
      Shelves.exists_first (p := fun y => s.objnum y = s.objnum o) itself member
    obtain ⟨k, last, order, _, later⟩ :=
      Shelves.exists_lastList (p := fun y => s.objnum y = s.objnum o) first.passes first.mem
    obtain ⟨rfl, inner, third⟩ := stocks.found_of_deletesOnly enough first last deletes
    refine ⟨j, front, back, first, ?_⟩
    by_cases right : k = j
    · exact .inl (by simpa [right] using later)
    · obtain ⟨rfl, rfl⟩ : j = .list1 ∧ k = .list2 := by
        cases j <;> cases k <;> simp [ListNum.position] at order right third ⊢
      exact .inr ⟨rfl, (inner.resolve_left right).1, (inner.resolve_left right).2,
        by simpa using later .list3 (by decide)⟩
  · rintro ⟨j, front, back, first, cond⟩
    obtain ⟨k, last, order, ⟨y, here, numbered⟩, _⟩ :=
      Shelves.exists_lastList (p := fun y => s.objnum y = s.objnum o) first.passes first.mem
    have numbered : s.objnum y = s.objnum o := of_decide_eq_true numbered
    rcases cond with alone | ⟨rfl, behind, before, third⟩
    · obtain rfl : k = j := by
        by_contra other
        refine alone k (Nat.lt_of_le_of_ne order fun same => other ?_) y here numbered
        cases k <;> cases j <;> simp [ListNum.position] at same ⊢
      exact stocks.deletesOnly_of_found enough first last (.inl rfl) Iff.rfl
    · refine stocks.deletesOnly_of_found enough first last (.inr ⟨behind, before⟩)
        (iff_of_false ?_ (by decide))
      rintro rfl
      exact third y here numbered

end Stocks

/-! ## Insertions -/

/-- An insertion. -/
def perform (s : ObjectStore α) (i : Insertion α) : Option (ObjectStore α) :=
  match i.place with
  | .head => s.insertObjectToHead i.pObj i.objNum i.listNum
  | .tail => s.insertObjectToTail i.pObj i.objNum i.listNum

/-- Some insertions in order. -/
def insertAll (s : ObjectStore α) (insertions : List (Insertion α)) : Option (ObjectStore α) :=
  insertions.foldlM perform s

private theorem perform_eq (s : ObjectStore α) (i : Insertion α) :
    s.perform i = s.insertObject i.place i.pObj i.objNum i.listNum := by
  rw [perform]
  cases i.place with
  | head => exact s.insertObjectToHead_eq _ _ _
  | tail => exact s.insertObjectToTail_eq _ _ _

omit [DecidableEq α] in
private theorem mem_insert_lists {i : Insertion α} :
    x ∈ (c.insert i).lists l ↔ (x = i.pObj ∧ l = i.listNum) ∨ x ∈ c.lists l := by
  by_cases same : l = i.listNum
  · simp [Shelves.insert, same, Catalog.mem_putAt]
  · simp [Shelves.insert, same]

omit [DecidableEq α] in
private theorem mem_insert_buckets {i : Insertion α} {h : Fin hashTblSize} :
    x ∈ (c.insert i).buckets h ↔
      (x = i.pObj ∧ i.listNum ≠ .list3 ∧ Catalog.bucketOf i.objNum = h) ∨ x ∈ c.buckets h := by
  by_cases last : i.listNum = .list3
  · simp [Shelves.insert, last]
  · by_cases same : h = Catalog.bucketOf i.objNum
    · simp [Shelves.insert, last, same, Catalog.mem_putAt]
    · simp [Shelves.insert, last, same, Ne.symm same]

theorem Stocks.insert (stocks : s.Stocks c) {i : Insertion α} (nonneg : 0 ≤ i.objNum.toInt)
    (fresh : ∀ l, i.pObj ∉ c.lists l) : ∃ s', s.perform i = some s' ∧ s'.Stocks (c.insert i) := by
  have unindexed : ∀ h, i.pObj ∉ c.buckets h := fun h member =>
    ((stocks.indexed h _).mp member).1.elim (fresh _) (fresh _)
  obtain ⟨link, linked, linkRep⟩ := insertAt_represents stocks.link
    (if i.listNum = .list3 then i.place else .tail) i.listNum fresh
  obtain ⟨hash, hashed, hashRep⟩ : ∃ hash,
      s.insertHash i.place i.pObj i.objNum i.listNum = some hash ∧
        hash.Represents (c.insert i).buckets := by
    rw [insertHash, Shelves.insert]
    dsimp only
    by_cases last : i.listNum = .list3
    · rw [if_pos last, if_pos last]
      exact ⟨_, rfl, stocks.hash⟩
    · rw [if_neg last, if_neg last, tableIndex_eq nonneg]
      exact insertAt_represents stocks.hash i.place _ unindexed
  refine ⟨⟨update s.objnum i.pObj i.objNum, hash, link⟩, ?_, linkRep, hashRep, fun l x member => ?_,
    fun h x => ?_⟩
  · rw [perform_eq, insertObject, hashed]
    dsimp only [Option.bind_eq_bind, Option.bind_some]
    rw [linked]
    rfl
  · by_cases same : x = i.pObj
    · simpa [same] using nonneg
    · simpa [same] using stocks.nonneg l x (by simpa [mem_insert_lists, same] using member)
  · rw [mem_insert_buckets, mem_insert_lists, mem_insert_lists, stocks.indexed]
    by_cases same : x = i.pObj
    · subst same
      have listed : .list1 = i.listNum ∨ .list2 = i.listNum ↔ i.listNum ≠ .list3 := by
        cases i.listNum <;> simp
      simp [fresh, ← listed]
    · simp [same]

theorem Stocks.insertAll : ∀ {insertions : List (Insertion α)} {s : ObjectStore α} {c : Shelves α},
    s.Stocks c → (insertions.map Insertion.pObj).Nodup → (∀ i ∈ insertions, 0 ≤ i.objNum.toInt) →
    (∀ i ∈ insertions, ∀ l, i.pObj ∉ c.lists l) →
    ∃ s', s.insertAll insertions = some s' ∧ s'.Stocks (insertions.foldl Shelves.insert c)
  | [], s, _, stocks, _, _, _ => ⟨s, rfl, stocks⟩
  | i :: insertions, s, c, stocks, distinct, nonneg, fresh => by
      obtain ⟨new, distinct⟩ := List.nodup_cons.mp distinct
      obtain ⟨s₁, performed, stocks₁⟩ := stocks.insert (nonneg i List.mem_cons_self)
        (fresh i List.mem_cons_self)
      obtain ⟨s', rest, stocks'⟩ := Stocks.insertAll stocks₁ distinct
        (fun j later => nonneg j (List.mem_cons_of_mem i later)) fun j later l member => by
          rcases mem_insert_lists.mp member with ⟨same, _⟩ | old
          · exact new (same ▸ List.mem_map_of_mem later)
          · exact fresh j (List.mem_cons_of_mem i later) l old
      refine ⟨s', ?_, stocks'⟩
      rw [ObjectStore.insertAll, List.foldlM_cons, performed]
      exact rest

omit [DecidableEq α] in
private theorem mem_foldl_insert : ∀ {insertions : List (Insertion α)} {c : Shelves α},
    x ∈ insertions.map Insertion.pObj ∨ (∃ l, x ∈ c.lists l) →
    ∃ l, x ∈ (insertions.foldl Shelves.insert c).lists l
  | [], _, here => here.elim (fun member => nomatch member) id
  | i :: insertions, c, here => by
      have inserted : x ∈ insertions.map Insertion.pObj ∨ ∃ l, x ∈ (c.insert i).lists l := by
        rcases here with new | ⟨l, old⟩
        · rcases List.mem_cons.mp new with rfl | later
          · exact .inr ⟨i.listNum, mem_insert_lists.mpr (.inl ⟨rfl, rfl⟩)⟩
          · exact .inl later
        · exact .inr ⟨l, mem_insert_lists.mpr (.inr old)⟩
      have found := mem_foldl_insert inserted
      exact found

omit [DecidableEq α] in
private theorem length_foldl_insert : ∀ {insertions : List (Insertion α)} {c : Shelves α}
    {size : Nat}, (∀ l, (c.lists l).length ≤ size) → ∀ l,
    ((insertions.foldl Shelves.insert c).lists l).length ≤ size + insertions.length
  | [], _, _, small, l => small l
  | i :: insertions, c, size, small, l => by
      have longer := Catalog.length_update_putAt (o := i.pObj) small
        (if i.listNum = .list3 then i.place else .tail) i.listNum
      rw [List.foldl_cons, List.length_cons, Nat.add_comm insertions.length, ← Nat.add_assoc]
      exact length_foldl_insert longer l

omit [DecidableEq α] in
private theorem init_stocks (s : ObjectStore α) : s.init.Stocks .empty where
  link := (init_agrees s).link
  hash := (init_agrees s).hash
  nonneg := by simp [Shelves.empty]
  indexed := by simp [Shelves.empty]

/-- Behind the insertions of distinct objects, `DeleteObject` takes an object off its list and its
bucket, and nothing else, if and only if the object is deletable. -/
theorem deleteObject_iff (s₀ : ObjectStore α) (insertions : List (Insertion α))
    (distinct : (insertions.map Insertion.pObj).Nodup)
    (nonneg : ∀ i ∈ insertions, 0 ≤ i.objNum.toInt) (fuel : Nat)
    (enough : insertions.length < fuel) :
    ∃ s, s₀.init.insertAll insertions = some s ∧ s.Stocks (.ofInsertions insertions) ∧
      ∀ pObj ∈ insertions.map Insertion.pObj,
        (s.DeletesOnly fuel (.ofInsertions insertions) pObj ↔
          (Shelves.ofInsertions insertions).Deletable s.objnum pObj) := by
  obtain ⟨s, inserted, stocks⟩ :=
    (init_stocks s₀).insertAll distinct nonneg fun _ _ _ => List.not_mem_nil
  have nothing : ∀ l, ((Shelves.empty : Shelves α).lists l).length ≤ 0 := fun _ => Nat.le_refl 0
  have short : ∀ l, ((Shelves.ofInsertions insertions).lists l).length < fuel := fun l =>
    Nat.lt_of_le_of_lt (length_foldl_insert nothing l) (by omega)
  refine ⟨s, inserted, stocks, fun pObj member => ?_⟩
  obtain ⟨l, listed⟩ := mem_foldl_insert (c := Shelves.empty) (.inl member)
  exact stocks.deletesOnly_iff short listed

/-- Three objects on `LIST1`, the middle one of which shares its number with one on `LIST2`. -/
def shared : List (Insertion Nat) :=
  [⟨.tail, 0, 1#32, .list1⟩, ⟨.tail, 1, 3#32, .list1⟩, ⟨.tail, 2, 2#32, .list1⟩,
    ⟨.tail, 3, 3#32, .list2⟩]

/-- The middle one is deleted, with the head of `LIST2`. -/
theorem deleteObject_iff_shared : ∃ s, wild.init.insertAll shared = some s ∧
    s.DeletesOnly 5 (.ofInsertions shared) 1 := by
  obtain ⟨s, inserted, _, deletes⟩ := deleteObject_iff wild shared (by decide) (by decide) 5
    (by decide)
  have number : s = (wild.init.insertAll shared).getD wild := by rw [inserted]; rfl
  refine ⟨s, inserted, (deletes 1 (by decide)).mpr ?_⟩
  subst number
  exact ⟨.list1, [0], [2], ⟨rfl, rfl, by decide, fun _ before => absurd before (Nat.not_lt_zero _)⟩,
    .inr ⟨rfl, by decide, by decide, by decide⟩⟩

/-- Of two objects with the number 3 the first one is deleted for the second one; and a number on
`LIST1` and `LIST2` leads to a write through the head of `LIST1`. -/
theorem deleteObject_repeated :
    (∃ s s', wild.init.insertAll [⟨.tail, 0, 3#32, .list1⟩, ⟨.tail, 1, 3#32, .list1⟩] = some s ∧
      s.deleteObject 3 1 = some (true, s') ∧ s'.enumberateObjectsByListNum 3 .list1 = some [1]) ∧
    ∃ s, wild.init.insertAll [⟨.tail, 0, 3#32, .list1⟩, ⟨.tail, 1, 3#32, .list2⟩] = some s ∧
      s.deleteObject 3 0 = none :=
  ⟨⟨_, _, rfl, rfl, rfl⟩, ⟨_, rfl, rfl⟩⟩

end ObjectStore
end KwHomework
