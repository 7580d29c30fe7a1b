import KwHomework.Objects.Catalog

/-!
# The store refines its catalog

`Agrees` says that the two families of queues spell the lists and the buckets of a catalog.  The two
searches of a store then answer from the map of the catalog, and every call keeps the agreement.
-/

namespace KwHomework

open Function

namespace ObjectStore

variable {α : Type} [DecidableEq α] {s : ObjectStore α} {c : Catalog α} {fuel : Nat}

/-- The queues of a store spell a consistent catalog, and stored objects carry their numbers. -/
structure Agrees (s : ObjectStore α) (c : Catalog α) : Prop where
  link : s.ppListHead.Represents c.lists
  hash : s.ppHashTable.Represents c.buckets
  number : ∀ {n o l}, c.stored n = some (o, l) → s.objnum o = n
  consistent : c.Consistent

/-! ## The empty store -/

theorem foldl_init {ι β : Type*} [DecidableEq ι] {h : ι} :
    ∀ (heads : List ι) (q : CircleQueue ι β),
      (heads.foldl (·.init ·) q).first h = (if h ∈ heads then .head h else q.first h) ∧
        (heads.foldl (·.init ·) q).last h = (if h ∈ heads then .head h else q.last h)
  | [], q => ⟨rfl, rfl⟩
  | head :: heads, q => by
      rw [List.foldl_cons, (foldl_init heads _).1, (foldl_init heads _).2]
      by_cases later : h ∈ heads
      · simp [later]
      · by_cases same : h = head
        · subst same
          simp [later, CircleQueue.init, CircleQueue.setFirst, CircleQueue.setLast]
        · simp [later, same, CircleQueue.init, CircleQueue.setFirst, CircleQueue.setLast]

omit [DecidableEq α] in
theorem init_agrees (s : ObjectStore α) : s.init.Agrees .empty where
  link := by
    refine CircleQueue.represents_empty (fun h => ?_) fun h => ?_
    · rw [init, (foldl_init listNums _).1, if_pos (by cases h <;> decide)]
    · rw [init, (foldl_init listNums _).2, if_pos (by cases h <;> decide)]
  hash := by
    refine CircleQueue.represents_empty (fun h => ?_) fun h => ?_
    · rw [init, (foldl_init (List.finRange hashTblSize) _).1, if_pos (List.mem_finRange h)]
    · rw [init, (foldl_init (List.finRange hashTblSize) _).2, if_pos (List.mem_finRange h)]
  number := by simp [Catalog.empty]
  consistent := Catalog.consistent_empty

/-! ## The searches -/

omit [DecidableEq α] in
/-- An object with the number is on a list exactly if the number is stored there. -/
theorem Agrees.numbered (agrees : s.Agrees c) {l : ListNum} {n : CInt} {o : α} :
    o ∈ c.lists l ∧ s.objnum o = n ↔ c.stored n = some (o, l) := by
  rw [agrees.consistent.mem_lists]
  constructor
  · rintro ⟨⟨n', found⟩, rfl⟩
    rwa [agrees.number found]
  · intro found
    exact ⟨⟨n, found⟩, agrees.number found⟩

omit [DecidableEq α] in
private theorem Agrees.find?_lists (agrees : s.Agrees c) (l : ListNum) (n : CInt) :
    (c.lists l).find? (fun iter => s.objnum iter = n) =
      if (c.stored n).map Prod.snd = some l then (c.stored n).map Prod.fst else none := by
  cases result : (c.lists l).find? (fun iter => s.objnum iter = n) with
  | none =>
      rw [List.find?_eq_none] at result
      split_ifs with listed
      · obtain ⟨⟨o, _⟩, found, rfl⟩ := Option.map_eq_some_iff.mp listed
        obtain ⟨member, numbered⟩ := agrees.numbered.mpr found
        exact absurd (decide_eq_true numbered) (result o member)
      · rfl
  | some o =>
      have numbered : s.objnum o = n := by simpa using List.find?_some result
      rw [agrees.numbered.mp ⟨List.mem_of_find?_eq_some result, numbered⟩]
      exact (if_pos rfl).symm

omit [DecidableEq α] in
/-- `FindObjectByNum` returns the object stored under the number. -/
theorem Agrees.findObjectByNum_eq (agrees : s.Agrees c) (enough : ∀ l, (c.lists l).length < fuel)
    (n : CInt) : s.findObjectByNum fuel n = some ((c.stored n).map Prod.fst) := by
  simp only [findObjectByNum, List.findSomeM?, agrees.link.search _ _ (enough _),
    agrees.find?_lists]
  cases c.stored n with
  | none => rfl
  | some entry => obtain ⟨o, l⟩ := entry; cases l <;> rfl

/-- A loop that assigns the same value at every match. -/
theorem foldl_assign {β σ : Type*} {p : β → Prop} [DecidablePred p] {value : σ} :
    ∀ (xs : List β) (acc : σ),
      xs.foldl (fun acc x => if p x then value else acc) acc =
        if xs.any fun x => p x then value else acc
  | [], acc => rfl
  | x :: xs, acc => by
      rw [List.foldl_cons, foldl_assign xs, List.any_cons]
      by_cases match_ : p x <;> simp [match_]

omit [DecidableEq α] in
private theorem Agrees.any_lists (agrees : s.Agrees c) (l : ListNum) (n : CInt) :
    ((c.lists l).any fun iter => s.objnum iter = n) =
      decide ((c.stored n).map Prod.snd = some l) := by
  rw [Bool.eq_iff_iff, List.any_eq_true, decide_eq_true_iff]
  constructor
  · rintro ⟨o, member, numbered⟩
    rw [agrees.numbered.mp ⟨member, of_decide_eq_true numbered⟩]
    rfl
  · intro listed
    obtain ⟨⟨o, _⟩, found, rfl⟩ := Option.map_eq_some_iff.mp listed
    obtain ⟨member, numbered⟩ := agrees.numbered.mpr found
    exact ⟨o, member, decide_eq_true numbered⟩

omit [DecidableEq α] in
/-- The loops of the delete functions find the list of the number. -/
theorem Agrees.findListNum_eq (agrees : s.Agrees c) (enough : ∀ l, (c.lists l).length < fuel)
    (n : CInt) : s.findListNum fuel n = some ((c.stored n).map Prod.snd) := by
  simp only [findListNum, List.foldlM, agrees.link.fold _ _ _ (enough _), foldl_assign,
    agrees.any_lists]
  cases c.stored n with
  | none => rfl
  | some entry => obtain ⟨o, l⟩ := entry; cases l <;> rfl

/-! ## Insertion -/

/-- `CIRCLEQ_INSERT_HEAD` or `CIRCLEQ_INSERT_TAIL`. -/
def insertAt {ι : Type*} [DecidableEq ι] (q : CircleQueue ι α) (place : ListEnd) (h : ι)
    (node : α) : Option (CircleQueue ι α) :=
  match place with
  | .head => q.insertHead h node
  | .tail => q.insertTail h node

theorem insertAt_represents {ι : Type*} [DecidableEq ι] {q : CircleQueue ι α} {lists : ι → List α}
    (rep : q.Represents lists) (place : ListEnd) (h : ι) {node : α}
    (fresh : ∀ h', node ∉ lists h') :
    ∃ q', insertAt q place h node = some q' ∧
      q'.Represents (update lists h (Catalog.putAt place node (lists h))) := by
  cases place with
  | head => exact rep.insertHead h fresh
  | tail => exact rep.insertTail h fresh

/-- The hash table after an insertion. -/
def insertHash (s : ObjectStore α) (place : ListEnd) (pObj : α) (objNum : CInt)
    (listNum : ListNum) : Option (CircleQueue (Fin hashTblSize) α) :=
  if listNum = .list3 then some s.ppHashTable
  else do
    let idx ← tableIndex objNum
    insertAt s.ppHashTable place idx pObj

/-- The two insertions, which differ in the end of the bucket and of `LIST3`. -/
def insertObject (s : ObjectStore α) (place : ListEnd) (pObj : α) (objNum : CInt)
    (listNum : ListNum) : Option (ObjectStore α) := do
  let ppHashTable ← s.insertHash place pObj objNum listNum
  let ppListHead ←
    insertAt s.ppListHead (if listNum = .list3 then place else .tail) listNum pObj
  return ⟨update s.objnum pObj objNum, ppHashTable, ppListHead⟩

theorem insertObjectToTail_eq (s : ObjectStore α) (o : α) (n : CInt) (l : ListNum) :
    s.insertObjectToTail o n l = s.insertObject .tail o n l := by
  cases l with
  | list1 | list2 =>
      rw [insertObjectToTail, insertObject, insertHash]
      cases tableIndex n with
      | none => rfl
      | some idx => exact congrArg _ (by cases s.ppHashTable.insertTail idx o <;> rfl)
  | list3 => rfl

theorem insertObjectToHead_eq (s : ObjectStore α) (o : α) (n : CInt) (l : ListNum) :
    s.insertObjectToHead o n l = s.insertObject .head o n l := by
  cases l with
  | list1 | list2 =>
      rw [insertObjectToHead, insertObject, insertHash]
      cases tableIndex n with
      | none => rfl
      | some idx => exact congrArg _ (by cases s.ppHashTable.insertHead idx o <;> rfl)
  | list3 => rfl

theorem tableIndex_eq {n : CInt} (nonneg : 0 ≤ n.toInt) :
    tableIndex n = some (Catalog.bucketOf n) := by
  simp only [tableIndex, Catalog.bucketOf, tmod_eq_mod nonneg]
  rw [dif_pos (Int.natCast_nonneg _)]
  simp only [Int.toNat_natCast]

/-- Inserting a new object under a new number inserts it in the catalog. -/
theorem Agrees.insertObject (agrees : s.Agrees c) (place : ListEnd) {o : α} {n : CInt}
    (l : ListNum) (nonneg : 0 ≤ n.toInt) (new : c.stored n = none) (fresh : ¬ c.Holds o) :
    ∃ s', s.insertObject place o n l = some s' ∧ s'.Agrees (c.insert place o n l) := by
  have unlisted : ∀ l', o ∉ c.lists l' := fun l' member =>
    have ⟨n', found⟩ := agrees.consistent.mem_lists.mp member
    fresh ⟨n', l', found⟩
  have unindexed : ∀ h, o ∉ c.buckets h := fun h member =>
    have ⟨n', l', found, _⟩ := agrees.consistent.mem_buckets.mp member
    fresh ⟨n', l', found⟩
  obtain ⟨link, linked, linkRep⟩ := insertAt_represents agrees.link
    (if l = .list3 then place else .tail) l unlisted
  obtain ⟨hash, hashed, hashRep⟩ : ∃ hash, s.insertHash place o n l = some hash ∧
      hash.Represents (c.insert place o n l).buckets := by
    rw [insertHash, Catalog.insert]
    dsimp only
    by_cases last : l = .list3
    · rw [if_pos last, if_pos last]
      exact ⟨_, rfl, agrees.hash⟩
    · rw [if_neg last, if_neg last, tableIndex_eq nonneg]
      exact insertAt_represents agrees.hash place _ unindexed
  refine ⟨⟨update s.objnum o n, hash, link⟩, ?_, linkRep, hashRep, fun found => ?_,
    agrees.consistent.insert place nonneg new fresh⟩
  · rw [ObjectStore.insertObject, hashed]
    dsimp only [Option.bind_eq_bind, Option.bind_some]
    rw [linked]
    rfl
  · dsimp only
    rcases (Catalog.stored_insert new).mp found with ⟨rfl, rfl, _⟩ | old
    · exact update_self ..
    · refine (update_of_ne ?_ ..).trans (agrees.number old)
      rintro rfl
      exact fresh ⟨_, _, old⟩

/-! ## Deletion -/

/-- Erasing an object from a list that it is not on changes nothing. -/
theorem update_erase {ι : Type*} [DecidableEq ι] {lists : ι → List α} {h : ι} {o : α}
    (only : ∀ h', o ∈ lists h' → h' = h) :
    update lists h ((lists h).erase o) = fun h' => (lists h').erase o := by
  funext h'
  by_cases same : h' = h
  · rw [same, update_self]
  · rw [update_of_ne same, List.erase_of_not_mem fun member => same (only h' member)]

/-- Removing a stored object removes it from the catalog. -/
theorem Agrees.removeObject (agrees : s.Agrees c) {o : α} {n : CInt} {l : ListNum}
    (found : c.stored n = some (o, l)) :
    ∃ s', s.removeObject l o n = some s' ∧ s'.Agrees (c.remove o) := by
  have consistent := agrees.consistent
  have onlyList : ∀ l', o ∈ c.lists l' → l' = l := by
    intro l' member
    obtain ⟨n', found'⟩ := consistent.mem_lists.mp member
    obtain rfl := consistent.unique found found'
    exact (Prod.mk.inj (Option.some.inj (found'.symm.trans found))).2
  have onlyBucket : ∀ h, o ∈ c.buckets h → l ≠ .list3 ∧ h = Catalog.bucketOf n := by
    intro h member
    obtain ⟨n', l', found', indexed, bucket⟩ := consistent.mem_buckets.mp member
    obtain rfl := consistent.unique found found'
    obtain rfl := (Prod.mk.inj (Option.some.inj (found'.symm.trans found))).2
    exact ⟨indexed, bucket.symm⟩
  obtain ⟨link, unlinked, linkRep⟩ :=
    agrees.link.remove (consistent.mem_lists.mpr ⟨n, found⟩)
  rw [update_erase onlyList] at linkRep
  by_cases last : l = .list3
  · refine ⟨⟨s.objnum, s.ppHashTable, link⟩, ?_, linkRep, ?_, ?_, consistent.remove o⟩
    · rw [ObjectStore.removeObject, unlinked]
      subst last
      rfl
    · have unindexed : (c.remove o).buckets = c.buckets := funext fun h =>
        List.erase_of_not_mem fun member => (onlyBucket h member).1 last
      rw [unindexed]
      exact agrees.hash
    · exact fun found' => agrees.number (Catalog.stored_remove.mp found').1
  · obtain ⟨hash, unhashed, hashRep⟩ :=
      agrees.hash.remove (consistent.mem_buckets.mpr ⟨n, l, found, last, rfl⟩)
    rw [update_erase fun h member => (onlyBucket h member).2] at hashRep
    refine ⟨⟨s.objnum, hash, link⟩, ?_, linkRep, hashRep, ?_, consistent.remove o⟩
    · rw [ObjectStore.removeObject, unlinked]
      dsimp only [Option.bind_eq_bind, Option.bind_some]
      rw [if_pos last, tableIndex_eq (consistent.nonneg found)]
      dsimp only [Option.bind_some]
      rw [unhashed]
      rfl
    · exact fun found' => agrees.number (Catalog.stored_remove.mp found').1

private theorem Agrees.deleteObject (agrees : s.Agrees c) (enough : ∀ l, (c.lists l).length < fuel)
    {o : α} (holds : c.Holds o) :
    ∃ s', s.deleteObject fuel o = some (true, s') ∧ s'.Agrees (c.remove o) := by
  obtain ⟨n, l, found⟩ := holds
  obtain ⟨s', removed, agrees'⟩ := agrees.removeObject found
  refine ⟨s', ?_, agrees'⟩
  rw [ObjectStore.deleteObject, agrees.number found, agrees.findObjectByNum_eq enough,
    agrees.findListNum_eq enough, found]
  dsimp only [Option.bind_eq_bind, Option.bind_some, Option.map_some]
  rw [agrees.number found, removed]
  rfl

theorem Agrees.deleteObjectByNum (agrees : s.Agrees c)
    (enough : ∀ l, (c.lists l).length < fuel) (n : CInt) :
    ∃ s', (s.deleteObjectByNum fuel n).map (Prod.map .bool id) =
        some ((c.apply (.deleteByNum n)).1, s') ∧
      s'.Agrees (c.apply (.deleteByNum n)).2 := by
  rw [ObjectStore.deleteObjectByNum, agrees.findObjectByNum_eq enough,
    agrees.findListNum_eq enough, Catalog.apply]
  cases found : c.stored n with
  | none => exact ⟨s, rfl, agrees⟩
  | some entry =>
      obtain ⟨s', removed, agrees'⟩ := agrees.removeObject found
      refine ⟨s', ?_, agrees'⟩
      dsimp only [Option.bind_eq_bind, Option.bind_some, Option.map_some]
      rw [removed]
      rfl

/-! ## Enumeration -/

omit [DecidableEq α] in
private theorem foldl_collect :
    ∀ (xs objects : List α), (objects ++ xs).length ≤ retObjectsSize →
      xs.foldl collect (some objects) = some (objects ++ xs)
  | [], objects, _ => by simp
  | x :: xs, objects, room => by
      have free : objects.length < retObjectsSize := by
        rw [List.length_append, List.length_cons] at room
        omega
      rw [List.foldl_cons]
      dsimp only [collect, Option.bind_eq_bind, Option.bind_some]
      rw [if_pos free, foldl_collect xs, List.append_assoc, List.singleton_append]
      rwa [List.append_assoc, List.singleton_append]

omit [DecidableEq α] in
theorem Agrees.enumberateObjectsByListNum_eq (agrees : s.Agrees c) {l : ListNum}
    (enough : (c.lists l).length < fuel) (room : (c.lists l).length ≤ retObjectsSize) :
    s.enumberateObjectsByListNum fuel l = some (c.lists l) := by
  rw [enumberateObjectsByListNum, agrees.link.fold _ _ _ enough, foldl_collect _ _ room]
  rfl

omit [DecidableEq α] in
theorem Agrees.enumberateObjectsByHashIndex_eq (agrees : s.Agrees c) {h : Fin hashTblSize}
    (enough : (c.buckets h).length < fuel) (room : (c.buckets h).length ≤ retObjectsSize) :
    s.enumberateObjectsByHashIndex fuel h = some (c.buckets h) := by
  rw [enumberateObjectsByHashIndex, agrees.hash.fold _ _ _ enough, foldl_collect _ _ room]
  rfl

/-! ## Runs -/

/-- A call on the store. -/
def exec (s : ObjectStore α) (fuel : Nat) : Operation α → Option (Answer α × ObjectStore α)
  | .insert .head o n l => (s.insertObjectToHead o n l).map (.void, ·)
  | .insert .tail o n l => (s.insertObjectToTail o n l).map (.void, ·)
  | .find n => (s.findObjectByNum fuel n).map (.object ·, s)
  | .delete o => (s.deleteObject fuel o).map (Prod.map .bool id)
  | .deleteByNum n => (s.deleteObjectByNum fuel n).map (Prod.map .bool id)

/-- The calls of a program in order, with their answers. -/
def run (s : ObjectStore α) (fuel : Nat) :
    List (Operation α) → Option (List (Answer α) × ObjectStore α)
  | [] => some ([], s)
  | op :: ops => do
      let (answer, s) ← s.exec fuel op
      let (answers, s) ← s.run fuel ops
      return (answer :: answers, s)

theorem Agrees.exec (agrees : s.Agrees c) {op : Operation α} (allowed : c.Allows op)
    (enough : ∀ l, (c.lists l).length < fuel) :
    ∃ s', s.exec fuel op = some ((c.apply op).1, s') ∧ s'.Agrees (c.apply op).2 := by
  cases op with
  | insert place o n l =>
      obtain ⟨s', inserted, agrees'⟩ :=
        agrees.insertObject place l allowed.1 allowed.2.1 allowed.2.2
      refine ⟨s', ?_, agrees'⟩
      cases place with
      | head => rw [ObjectStore.exec, insertObjectToHead_eq, inserted]; rfl
      | tail => rw [ObjectStore.exec, insertObjectToTail_eq, inserted]; rfl
  | find n =>
      refine ⟨s, ?_, agrees⟩
      rw [ObjectStore.exec, agrees.findObjectByNum_eq enough]
      rfl
  | delete o =>
      obtain ⟨s', deleted, agrees'⟩ := agrees.deleteObject enough allowed
      refine ⟨s', ?_, agrees'⟩
      rw [ObjectStore.exec, deleted]
      rfl
  | deleteByNum n => exact agrees.deleteObjectByNum enough n

theorem Agrees.run (fuel : Nat) :
    ∀ {ops : List (Operation α)} {s : ObjectStore α} {c : Catalog α} {size : Nat}, s.Agrees c →
      c.AllowsAll ops → c.AtMost size → size + ops.length < fuel →
      ∃ s', s.run fuel ops = some ((c.run ops).1, s') ∧ s'.Agrees (c.run ops).2
  | [], s, c, size, agrees, _, _, _ => ⟨s, rfl, agrees⟩
  | op :: ops, s, c, size, agrees, allowed, small, enough => by
      rw [List.length_cons] at enough
      obtain ⟨s₁, executed, agrees₁⟩ := agrees.exec allowed.1 fun l =>
        Nat.lt_of_le_of_lt (small.1 l) (show size < fuel by omega)
      obtain ⟨s₂, rest, agrees₂⟩ := Agrees.run fuel agrees₁ allowed.2 (small.apply op) (by omega)
      refine ⟨s₂, ?_, agrees₂⟩
      rw [ObjectStore.run, executed]
      dsimp only [Option.bind_eq_bind, Option.bind_some]
      rw [rest]
      rfl

/-- The searches and the enumerations read a catalog off a store. -/
structure Shows (s : ObjectStore α) (fuel : Nat) (c : Catalog α) : Prop where
  find : ∀ n, s.findObjectByNum fuel n = some ((c.stored n).map Prod.fst)
  lists : ∀ l, (c.lists l).length ≤ retObjectsSize →
    s.enumberateObjectsByListNum fuel l = some (c.lists l)
  buckets : ∀ h, (c.buckets h).length ≤ retObjectsSize →
    s.enumberateObjectsByHashIndex fuel h = some (c.buckets h)

/-- After any allowed calls the store has answered as the catalog and shows the catalog, whose lists
and buckets hold what its map says. -/
theorem run_refines (s₀ : ObjectStore α) (ops : List (Operation α)) (fuel : Nat)
    (allowed : Catalog.empty.AllowsAll ops) (enough : ops.length < fuel) :
    ∃ s, s₀.init.run fuel ops = some ((Catalog.empty.run ops).1, s) ∧
      s.Shows fuel (Catalog.empty.run ops).2 ∧ (Catalog.empty.run ops).2.Consistent := by
  have empty : (Catalog.empty : Catalog α).AtMost 0 :=
    ⟨fun _ => Nat.le_refl 0, fun _ => Nat.le_refl 0⟩
  obtain ⟨s, executed, agrees⟩ :=
    Agrees.run fuel (init_agrees s₀) allowed empty (by omega)
  have small : (Catalog.empty.run ops).2.AtMost (0 + ops.length) := empty.run
  refine ⟨s, executed, ⟨fun n => ?_, fun l room => ?_, fun h room => ?_⟩, agrees.consistent⟩
  · exact agrees.findObjectByNum_eq (fun l => Nat.lt_of_le_of_lt (small.1 l) (by omega)) n
  · exact agrees.enumberateObjectsByListNum_eq (Nat.lt_of_le_of_lt (small.1 l) (by omega)) room
  · exact agrees.enumberateObjectsByHashIndex_eq (Nat.lt_of_le_of_lt (small.2 h) (by omega)) room

/-- Objects 0 to 3 under the numbers 3, 11, 4 and 19, of which two are deleted. -/
def sample : List (Operation Nat) :=
  [.insert .tail 0 3#32 .list1, .insert .head 1 11#32 .list2, .insert .head 2 4#32 .list3,
    .insert .head 3 19#32 .list1, .find 11#32, .delete 0, .deleteByNum 4#32, .deleteByNum 4#32]

private theorem sample_allowed : Catalog.empty.AllowsAll sample := by
  refine ⟨⟨by decide, rfl, ?_⟩, ⟨by decide, rfl, ?_⟩, ⟨by decide, rfl, ?_⟩, ⟨by decide, rfl, ?_⟩,
    trivial, ⟨3#32, .list1, rfl⟩, trivial, trivial, trivial⟩
  all_goals
    rintro ⟨n, l, found⟩
    simp only [Catalog.apply, Catalog.insert, Catalog.empty, update_apply] at found
    grind

/-- Globals that were never initialized. -/
def wild : ObjectStore Nat where
  objnum _ := 7#32
  ppHashTable := ⟨fun _ => .elem 5, fun _ => .elem 6, fun _ => .elem 7, .elem⟩
  ppListHead := ⟨fun _ => .elem 5, fun _ => .elem 6, fun _ => .elem 7, .elem⟩

theorem run_refines_sample :
    (∃ s, wild.init.run 9 sample = some ((Catalog.empty.run sample).1, s) ∧
        s.Shows 9 (Catalog.empty.run sample).2 ∧ (Catalog.empty.run sample).2.Consistent) ∧
      (Catalog.empty.run sample).1 =
        [.void, .void, .void, .void, .object (some 1), .bool true, .bool true, .bool false] ∧
      (Catalog.empty.run sample).2.lists .list1 = [3] ∧
      (Catalog.empty.run sample).2.buckets (Catalog.bucketOf 3#32) = [3, 1] :=
  ⟨run_refines wild sample 9 sample_allowed (by decide), by decide, by decide, by decide⟩

end ObjectStore
end KwHomework
