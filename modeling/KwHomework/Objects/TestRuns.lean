import KwHomework.Objects.TestCases
import KwHomework.Simulation.Loops

/-!
# The test program never fails

Each test case tracks a set of numbers: what its array holds, and what the catalog of the store
maps to objects.  An iteration changes both in the same way, so that no comparison fails.
-/

namespace KwHomework

open Function Loops

/-! ## The numbers that the loops visit -/

private theorem mem_multiples {N p : Nat} (positive : 0 < p) {i : Nat} :
    ∀ {fuel j : Nat}, N ≤ j + fuel → (i ∈ multiples N p fuel j ↔ i < N ∧ ∃ q, i = j + p * q)
  | 0, j, enough => by
      rw [multiples]
      refine iff_of_false List.not_mem_nil ?_
      rintro ⟨inside, q, rfl⟩
      omega
  | fuel + 1, j, enough => by
      rw [multiples]
      split_ifs with inside
      · rw [List.mem_cons, mem_multiples positive (by omega)]
        constructor
        · rintro (rfl | ⟨small, q, rfl⟩)
          · exact ⟨inside, 0, rfl⟩
          · exact ⟨small, q + 1, by rw [Nat.mul_succ]; omega⟩
        · rintro ⟨small, q, same⟩
          cases q with
          | zero => exact .inl same
          | succ q => exact .inr ⟨small, q, by rw [Nat.mul_succ] at same; omega⟩
      · refine iff_of_false List.not_mem_nil ?_
        rintro ⟨small, q, rfl⟩
        omega

private theorem nodup_multiples {N p : Nat} (positive : 0 < p) : ∀ {fuel j : Nat}, N ≤ j + fuel →
    (multiples N p fuel j).Nodup
  | 0, _, _ => List.nodup_nil
  | fuel + 1, j, enough => by
      rw [multiples]
      split_ifs
      · refine List.nodup_cons.mpr ⟨fun member => ?_, nodup_multiples positive (by omega)⟩
        obtain ⟨_, q, same⟩ := (mem_multiples positive (by omega)).mp member
        omega
      · exact List.nodup_nil

theorem mem_multiples_self {N p : Nat} (positive : 0 < p) {j : Nat} :
    j ∈ multiples N p N p ↔ j < N ∧ 0 < j ∧ p ∣ j := by
  rw [mem_multiples positive (by omega)]
  constructor
  · rintro ⟨small, q, rfl⟩
    exact ⟨small, by omega, q + 1, by rw [Nat.mul_succ]; omega⟩
  · rintro ⟨small, nonzero, q, rfl⟩
    cases q with
    | zero => simp at nonzero
    | succ q => exact ⟨small, q, by rw [Nat.mul_succ]; omega⟩

private theorem count_multiples {N p j : Nat} (positive : 0 < p) (inside : j < N ∧ 0 < j) :
    (multiples N p N p).count j = if p ∣ j then 1 else 0 := by
  have member := mem_multiples_self (N := N) (j := j) positive
  split_ifs with divides
  · exact List.count_eq_one_of_mem (nodup_multiples positive (by omega))
      (member.mpr ⟨inside.1, inside.2, divides⟩)
  · exact List.count_eq_zero.mpr fun visited => divides (member.mp visited).2.2

theorem count_visited {N j : Nat} (inside : j < N ∧ 0 < j) : ∀ {primes : List Nat},
    (∀ p ∈ primes, 0 < p) →
    (primes.flatMap fun p => multiples N p N p).count j = primes.countP (· ∣ j)
  | [], _ => rfl
  | p :: primes, positive => by
      rw [List.flatMap_cons, List.count_append, List.countP_cons,
        count_visited inside fun q member => positive q (List.mem_cons_of_mem p member),
        count_multiples (positive p List.mem_cons_self) inside, Nat.add_comm]
      simp

private theorem mem_visited {N j : Nat} {primes : List Nat} (positive : ∀ p ∈ primes, 0 < p) :
    j ∈ (primes.flatMap fun p => multiples N p N p) ↔ j < N ∧ 0 < j ∧ ∃ p ∈ primes, p ∣ j := by
  rw [List.mem_flatMap]
  constructor
  · rintro ⟨p, member, visited⟩
    obtain ⟨small, nonzero, divides⟩ := (mem_multiples_self (positive p member)).mp visited
    exact ⟨small, nonzero, p, member, divides⟩
  · rintro ⟨small, nonzero, p, member, divides⟩
    exact ⟨p, member, (mem_multiples_self (positive p member)).mpr ⟨small, nonzero, divides⟩⟩

private theorem mem_quotients {p : Nat} {j : Nat} : ∀ {fuel k : Nat}, j ∈ quotients p fuel k →
    0 < j ∧ j ≤ k
  | 0, _, member => (List.not_mem_nil member).elim
  | fuel + 1, k, member => by
      rw [quotients] at member
      split_ifs at member with positive
      · rcases List.mem_cons.mp member with rfl | later
        · exact ⟨positive, le_rfl⟩
        · obtain ⟨nonzero, bound⟩ := mem_quotients later
          exact ⟨nonzero, bound.trans (Nat.div_le_self k p)⟩
      · exact (List.not_mem_nil member).elim

theorem ObjectStore.objnum_of_removeObject {α : Type} [DecidableEq α] {s s' : ObjectStore α}
    {l : ListNum} {o : α} {n : CInt} (removed : s.removeObject l o n = some s') :
    s'.objnum = s.objnum := by
  obtain ⟨link, _, rest⟩ := Option.bind_eq_some_iff.mp removed
  dsimp only at rest
  split_ifs at rest
  · obtain ⟨idx, _, rest⟩ := Option.bind_eq_some_iff.mp rest
    obtain ⟨hash, _, rest⟩ := Option.bind_eq_some_iff.mp rest
    obtain rfl := Option.some.inj rest
    rfl
  · obtain rfl := Option.some.inj rest
    rfl

namespace TestProgram

variable {α : Type} {prog : TestProgram α} {present : Set Nat} {s : ObjectStore α}
  {c : Catalog α} {mallocs j : Nat} {n : CInt} {l : ListNum} {o : α} {test : ObjectTest α}

/-- The store spells a catalog of these numbers, each on the list that the test program chooses for
it, and the objects are among those that were allocated. -/
structure Tracks (prog : TestProgram α) (present : Set Nat) (s : ObjectStore α) (mallocs : Nat)
    (c : Catalog α) : Prop where
  agrees : s.Agrees c
  stored : ∀ {n l}, (∃ o, c.stored n = some (o, l)) ↔ n.toNat ∈ present ∧ listNumOf n.toNat = l
  inside : ∀ i ∈ present, i < prog.numObjects
  drawn : ∀ {n o l}, c.stored n = some (o, l) → ∃ k < mallocs, o = prog.malloc k

theorem toNat_number (inside : j < prog.numObjects) : (BitVec.ofNat 32 j).toNat = j := by
  have small : prog.numObjects ≤ 100 := prog.small
  rw [BitVec.toNat_ofNat]
  exact Nat.mod_eq_of_lt (by omega)

private theorem toInt_number (inside : j < prog.numObjects) : 0 ≤ (BitVec.ofNat 32 j).toInt := by
  have small : prog.numObjects ≤ 100 := prog.small
  have number := prog.toNat_number inside
  rw [BitVec.toInt_eq_toNat_of_lt (by omega), number]
  exact Int.natCast_nonneg j

namespace Tracks

private theorem exists_stored (tracks : prog.Tracks present s mallocs c) (member : j ∈ present) :
    ∃ o, c.stored (.ofNat 32 j) = some (o, listNumOf j) := by
  have number := prog.toNat_number (tracks.inside j member)
  exact tracks.stored.mpr ⟨number.symm ▸ member, congrArg listNumOf number⟩

private theorem not_stored (tracks : prog.Tracks present s mallocs c) (inside : j < prog.numObjects)
    (missing : j ∉ present) : c.stored (.ofNat 32 j) = none := by
  cases found : c.stored (.ofNat 32 j) with
  | none => rfl
  | some entry =>
      obtain ⟨member, _⟩ := tracks.stored.mp ⟨entry.1, found⟩
      rw [prog.toNat_number inside] at member
      exact absurd member missing

theorem nodup_numbers (tracks : prog.Tracks present s mallocs c) {objects : List α}
    (nodup : objects.Nodup) (held : ∀ o ∈ objects, c.Holds o) : (objects.map s.objnum).Nodup := by
  refine nodup.map_on fun o member o' member' same => ?_
  obtain ⟨n, l, found⟩ := held o member
  obtain ⟨n', l', found'⟩ := held o' member'
  rw [tracks.agrees.number found, tracks.agrees.number found'] at same
  subst same
  exact (Prod.mk.inj (Option.some.inj (found.symm.trans found'))).1

private theorem length_le (tracks : prog.Tracks present s mallocs c) {objects : List α}
    (nodup : objects.Nodup) (held : ∀ o ∈ objects, c.Holds o) :
    objects.length ≤ prog.numObjects := by
  have distinct := (tracks.nodup_numbers nodup held).map (BitVec.toNat_injective)
  have inside : (objects.map s.objnum).map BitVec.toNat ⊆ List.range prog.numObjects := by
    intro i member
    rw [List.map_map] at member
    obtain ⟨o, here, rfl⟩ := List.mem_map.mp member
    obtain ⟨n, l, found⟩ := held o here
    have number : s.objnum o = n := tracks.agrees.number found
    rw [comp_apply, number, List.mem_range]
    exact tracks.inside _ (tracks.stored.mp ⟨o, found⟩).1
  have bound := (distinct.subperm inside).length_le
  simpa using bound

private theorem holds_of_mem_lists (tracks : prog.Tracks present s mallocs c)
    (member : o ∈ c.lists l) :
    c.Holds o := by
  obtain ⟨n, found⟩ := tracks.agrees.consistent.mem_lists.mp member
  exact ⟨n, l, found⟩

private theorem holds_of_mem_buckets (tracks : prog.Tracks present s mallocs c)
    {h : Fin hashTblSize} (member : o ∈ c.buckets h) : c.Holds o := by
  obtain ⟨n, l, found, _⟩ := tracks.agrees.consistent.mem_buckets.mp member
  exact ⟨n, l, found⟩

private theorem length_lists (tracks : prog.Tracks present s mallocs c) (l : ListNum) :
    (c.lists l).length ≤ prog.numObjects :=
  tracks.length_le (tracks.agrees.consistent.nodup_lists l) fun _ => tracks.holds_of_mem_lists

private theorem length_buckets (tracks : prog.Tracks present s mallocs c) (h : Fin hashTblSize) :
    (c.buckets h).length ≤ prog.numObjects :=
  tracks.length_le (tracks.agrees.consistent.nodup_buckets h) fun _ => tracks.holds_of_mem_buckets

private theorem enough (tracks : prog.Tracks present s mallocs c) (l : ListNum) :
    (c.lists l).length < prog.fuel :=
  (tracks.length_lists l).trans_lt prog.enough

/-! ## The calls -/

private theorem start (s : ObjectStore α) : prog.Tracks ∅ s.init 0 .empty where
  agrees := ObjectStore.init_agrees s
  stored := by simp [Catalog.empty]
  inside := by simp
  drawn := by simp [Catalog.empty]

private theorem find (tracks : prog.Tracks present s mallocs c) :
    s.findObjectByNum prog.fuel n = some ((c.stored n).map Prod.fst) :=
  tracks.agrees.findObjectByNum_eq tracks.enough n

variable [DecidableEq α]

/-- An insertion under a number that is not present. -/
theorem insertNumber (tracks : prog.Tracks present s mallocs c) (inside : j < prog.numObjects)
    (missing : j ∉ present) : ∃ s' c', prog.insertNumber s mallocs j = some s' ∧
      prog.Tracks (insert j present) s' (mallocs + 1) c' := by
  have new := tracks.not_stored inside missing
  have fresh : ¬ c.Holds (prog.malloc mallocs) := by
    rintro ⟨n, l, found⟩
    obtain ⟨k, before, same⟩ := tracks.drawn found
    exact before.ne' (prog.malloc_injective same)
  obtain ⟨place, performed⟩ : ∃ place, prog.insertNumber s mallocs j =
      s.insertObject place (prog.malloc mallocs) (.ofNat 32 j) (listNumOf j) := by
    rw [TestProgram.insertNumber]
    split_ifs
    · exact ⟨.tail, s.insertObjectToTail_eq _ _ _⟩
    · exact ⟨.head, s.insertObjectToHead_eq _ _ _⟩
  obtain ⟨s', inserted, agrees⟩ :=
    tracks.agrees.insertObject place (listNumOf j) (prog.toInt_number inside) new fresh
  refine ⟨s', _, performed.trans inserted, agrees, fun {n l} => ?_, fun i member => ?_,
    fun found => ?_⟩
  · have same : n = BitVec.ofNat 32 j ↔ n.toNat = j := by
      rw [← BitVec.toNat_inj, prog.toNat_number inside]
    simp only [Catalog.stored_insert new, exists_or, tracks.stored, Set.mem_insert_iff]
    constructor
    · rintro (⟨o, rfl, _, rfl⟩ | ⟨member, there⟩)
      · exact ⟨.inl (same.mp rfl), congrArg listNumOf (same.mp rfl)⟩
      · exact ⟨.inr member, there⟩
    · rintro ⟨number | member, there⟩
      · exact .inl ⟨_, same.mpr number, rfl, by rw [← there, number]⟩
      · exact .inr ⟨member, there⟩
  · rcases Set.mem_insert_iff.mp member with rfl | member
    · exact inside
    · exact tracks.inside i member
  · rcases (Catalog.stored_insert new).mp found with ⟨_, rfl, _⟩ | old
    · exact ⟨mallocs, Nat.lt_succ_self mallocs, rfl⟩
    · obtain ⟨k, before, same⟩ := tracks.drawn old
      exact ⟨k, Nat.lt_succ_of_lt before, same⟩

/-- The catalog without an object that is stored under a number. -/
theorem remove (tracks : prog.Tracks present s mallocs c) (found : c.stored n = some (o, l))
    {s' : ObjectStore α} (agrees : s'.Agrees (c.remove o)) :
    prog.Tracks (present \ {n.toNat}) s' mallocs (c.remove o) where
  agrees := agrees
  stored {n' l'} := by
    have only : ∀ {o'}, c.stored n' = some (o', l') → (o' ≠ o ↔ n'.toNat ≠ n.toNat) := by
      intro o' found'
      refine not_congr ⟨?_, fun same => ?_⟩
      · rintro rfl
        rw [tracks.agrees.consistent.unique found found']
      · obtain rfl := BitVec.toNat_inj.mp same
        exact (Prod.mk.inj (Option.some.inj (found'.symm.trans found))).1
    rw [Set.mem_sdiff, Set.mem_singleton_iff]
    constructor
    · rintro ⟨o', found'⟩
      obtain ⟨before, other⟩ := Catalog.stored_remove.mp found'
      obtain ⟨member, there⟩ := tracks.stored.mp ⟨o', before⟩
      exact ⟨⟨member, (only before).mp other⟩, there⟩
    · rintro ⟨⟨member, other⟩, there⟩
      obtain ⟨o', before⟩ := tracks.stored.mpr ⟨member, there⟩
      exact ⟨o', Catalog.stored_remove.mpr ⟨before, (only before).mpr other⟩⟩
  inside i member := tracks.inside i member.1
  drawn found' := tracks.drawn (Catalog.stored_remove.mp found').1

/-- `DeleteObjectByNum` returns whether the number was present. -/
theorem deleteByNum (tracks : prog.Tracks present s mallocs c) (inside : j < prog.numObjects)
    {here : Bool} (known : here = true ↔ j ∈ present) : ∃ s' c',
      s.deleteObjectByNum prog.fuel (.ofNat 32 j) = some (here, s') ∧
      prog.Tracks (present \ {j}) s' mallocs c' := by
  obtain ⟨s', deleted, agrees⟩ := tracks.agrees.deleteObjectByNum tracks.enough (.ofNat 32 j)
  obtain ⟨⟨answer, s₁⟩, run, same⟩ := Option.map_eq_some_iff.mp deleted
  obtain ⟨told, rfl⟩ := Prod.mk.inj same
  by_cases member : j ∈ present
  · obtain ⟨o, found⟩ := tracks.exists_stored member
    rw [Catalog.apply, found] at told agrees
    have rest := tracks.remove found agrees
    rw [prog.toNat_number inside] at rest
    refine ⟨s₁, _, ?_, rest⟩
    rw [run, known.mpr member, Answer.bool.inj told]
  · rw [Catalog.apply, tracks.not_stored inside member] at told agrees
    refine ⟨s₁, c, ?_, ?_⟩
    · have gone : here = false := Bool.eq_false_iff.mpr fun yes => member (known.mp yes)
      rw [run, gone, Answer.bool.inj told]
    · rw [Set.sdiff_singleton_eq_self member]
      exact { tracks with agrees := agrees }

/-- The second one of the two delete functions finds nothing. -/
theorem deleteBoth (tracks : prog.Tracks present s mallocs c) (inside : j < prog.numObjects)
    (found : c.stored (.ofNat 32 j) = some (o, l)) (objectFirst : Bool) : ∃ s' c',
      prog.deleteBoth s objectFirst o = some (true, false, s') ∧
      prog.Tracks (present \ {j}) s' mallocs c' := by
  have number : s.objnum o = .ofNat 32 j := tracks.agrees.number found
  obtain ⟨s', removed, agrees⟩ := tracks.agrees.removeObject found
  have rest := tracks.remove found agrees
  rw [prog.toNat_number inside] at rest
  have first : s.findObjectByNum prog.fuel (.ofNat 32 j) = some (some o) := by
    rw [tracks.find, found]
    rfl
  have last : s.findListNum prog.fuel (.ofNat 32 j) = some (some l) := by
    rw [tracks.agrees.findListNum_eq tracks.enough, found]
    rfl
  have gone : s'.findObjectByNum prog.fuel (.ofNat 32 j) = some none := by
    rw [rest.find, rest.not_stored inside fun member => member.2 rfl]
    rfl
  have same : s'.objnum o = .ofNat 32 j := by
    rw [ObjectStore.objnum_of_removeObject removed, number]
  refine ⟨s', _, ?_, rest⟩
  rw [TestProgram.deleteBoth]
  cases objectFirst with
  | true =>
      simp only [if_true, ObjectStore.deleteObject, ObjectStore.deleteObjectByNum, number, first,
        last, Option.bind_eq_bind, Option.bind_some, removed, same, gone, Option.pure_def]
  | false =>
      simp only [Bool.false_eq_true, if_false, ObjectStore.deleteObject,
        ObjectStore.deleteObjectByNum, number, first, last, Option.bind_eq_bind, Option.bind_some,
        removed, same, gone, Option.pure_def]

end Tracks

/-! ## What is printed -/

/-- The lines of the lists and the buckets, each with the numbers that belong there, once. -/
def Listing (present : Set Nat) (lines : List OutputLine) : Prop :=
  ∃ (lists : ListNum → List CInt) (buckets : Fin hashTblSize → List CInt),
    lines = ObjectStore.listNums.map (fun i => .list i (lists i)) ++
      (List.finRange hashTblSize).map (fun i => .hashTable i (buckets i)) ∧
    (∀ i, (lists i).Nodup ∧ ∀ n, n ∈ lists i ↔ n.toNat ∈ present ∧ listNumOf n.toNat = i) ∧
    ∀ i, (buckets i).Nodup ∧ ∀ n, n ∈ buckets i ↔
      n.toNat ∈ present ∧ listNumOf n.toNat ≠ .list3 ∧ n.toNat % hashTblSize = i

private theorem Tracks.print (tracks : prog.Tracks present test.store test.mallocs c) : ∃ lines,
    prog.print test = pure { test with printed := test.printed ++ lines } ∧
      Listing present lines := by
  have consistent := tracks.agrees.consistent
  have room : prog.numObjects ≤ retObjectsSize := prog.small
  have lists : prog.printList test.store = some (ObjectStore.listNums.map fun i =>
      .list i ((c.lists i).map test.store.objnum)) := by
    refine mapM_eq_map fun i => ?_
    have small := tracks.length_lists i
    rw [tracks.agrees.enumberateObjectsByListNum_eq (tracks.enough i) (small.trans room)]
    exact if_pos small
  have buckets : prog.printHashTable test.store = some ((List.finRange hashTblSize).map fun i =>
      .hashTable i ((c.buckets i).map test.store.objnum)) := by
    refine mapM_eq_map fun i => ?_
    have small := tracks.length_buckets i
    rw [tracks.agrees.enumberateObjectsByHashIndex_eq (small.trans_lt prog.enough)
      (small.trans room)]
    exact if_pos small
  refine ⟨_, ?_, fun i => (c.lists i).map test.store.objnum,
    fun i => (c.buckets i).map test.store.objnum, rfl, fun i => ⟨?_, fun n => ?_⟩,
    fun i => ⟨?_, fun n => ?_⟩⟩
  · rw [TestProgram.print, lists, buckets]
    rfl
  · exact tracks.nodup_numbers (consistent.nodup_lists i) fun _ => tracks.holds_of_mem_lists
  · rw [List.mem_map, ← tracks.stored]
    constructor
    · rintro ⟨o, listed, rfl⟩
      obtain ⟨n, found⟩ := consistent.mem_lists.mp listed
      exact ⟨o, (tracks.agrees.number found).symm ▸ found⟩
    · rintro ⟨o, found⟩
      exact ⟨o, consistent.mem_lists.mpr ⟨n, found⟩, tracks.agrees.number found⟩
  · exact tracks.nodup_numbers (consistent.nodup_buckets i) fun _ => tracks.holds_of_mem_buckets
  · rw [List.mem_map]
    constructor
    · rintro ⟨o, indexed, rfl⟩
      obtain ⟨n, l, found, early, rfl⟩ := consistent.mem_buckets.mp indexed
      obtain ⟨member, rfl⟩ := tracks.stored.mp ⟨o, found⟩
      rw [tracks.agrees.number found]
      exact ⟨member, early, rfl⟩
    · rintro ⟨member, early, same⟩
      obtain ⟨o, found⟩ := tracks.stored.mpr ⟨member, rfl⟩
      exact ⟨o, consistent.mem_buckets.mpr ⟨n, _, found, early, Fin.ext same⟩,
        tracks.agrees.number found⟩

/-! ## Iterations -/

/-- The array and the catalog hold the same numbers, and so much is printed. -/
structure Follows (prog : TestProgram α) (present : Set Nat) (printed : List OutputLine)
    (test : ObjectTest α) : Prop where
  tracks : ∃ c, prog.Tracks present test.store test.mallocs c
  array : ∀ i, test.isInsertedNum i = true ↔ i ∈ present
  printed : test.printed = printed

namespace Follows

variable {printed : List OutputLine}

private theorem not_inserted (follows : prog.Follows present printed test) (missing : j ∉ present) :
    test.isInsertedNum j = false :=
  Bool.eq_false_iff.mpr fun inserted => missing ((follows.array j).mp inserted)

variable [DecidableEq α]

theorem insertNumber (follows : prog.Follows present printed test) (inside : j < prog.numObjects)
    (missing : j ∉ present) : ∃ store, prog.insertNumber test.store test.mallocs j = some store ∧
      prog.Follows (insert j present) printed ⟨store, update test.isInsertedNum j true,
        test.mallocs + 1, test.printed⟩ := by
  obtain ⟨c, tracks⟩ := follows.tracks
  obtain ⟨store, c', inserted, tracks'⟩ := tracks.insertNumber inside missing
  refine ⟨store, inserted, ⟨c', tracks'⟩, fun i => ?_, follows.printed⟩
  rw [Set.mem_insert_iff]
  by_cases same : i = j
  · simp [same]
  · simp [same, follows.array]

private theorem findStep (follows : prog.Follows present printed test)
    (inside : j < prog.numObjects) :
    ∃ test', prog.findStep test j = pure test' ∧ prog.Follows (insert j present) printed test' := by
  obtain ⟨c, tracks⟩ := follows.tracks
  by_cases member : j ∈ present
  · obtain ⟨o, found⟩ := tracks.exists_stored member
    refine ⟨test, ?_, (Set.insert_eq_of_mem member).symm ▸ follows⟩
    rw [TestProgram.findStep, tracks.find, found, (follows.array j).mpr member]
    rfl
  · obtain ⟨store, inserted, follows'⟩ := follows.insertNumber inside member
    refine ⟨_, ?_, follows'⟩
    rw [TestProgram.findStep, tracks.find, tracks.not_stored inside member,
      follows.not_inserted member, inserted]
    rfl

/-- A number that is present leaves the store and the array, and another one enters both. -/
theorem toggleStep (follows : prog.Follows present printed test) (inside : j < prog.numObjects) :
    ∃ test', prog.toggleStep test j = pure test' ∧
      prog.Follows {i | i ∈ present ↔ i ≠ j} printed test' := by
  obtain ⟨c, tracks⟩ := follows.tracks
  obtain ⟨store, c', deleted, tracks'⟩ := tracks.deleteByNum inside (follows.array j)
  have rest : prog.Follows (present \ {j}) printed
      ⟨store, update test.isInsertedNum j false, test.mallocs, test.printed⟩ := by
    refine ⟨⟨c', tracks'⟩, fun i => ?_, follows.printed⟩
    by_cases same : i = j
    · simp [same]
    · simp [same, follows.array]
  by_cases member : j ∈ present
  · have toggled : {i | i ∈ present ↔ i ≠ j} = present \ {j} := by
      ext i
      by_cases same : i = j
      · simp [same, member]
      · simp [same]
    refine ⟨_, ?_, toggled ▸ rest⟩
    rw [TestProgram.toggleStep, deleted, (follows.array j).mpr member]
    rfl
  · have toggled : {i | i ∈ present ↔ i ≠ j} = insert j (present \ {j}) := by
      ext i
      by_cases same : i = j
      · simp [same, member]
      · simp [same]
    have gone := follows.not_inserted member
    have unchanged : update test.isInsertedNum j false = test.isInsertedNum := by
      rw [← gone, update_eq_self]
    obtain ⟨store', inserted, follows'⟩ := rest.insertNumber inside fun there => there.2 rfl
    rw [unchanged] at follows'
    refine ⟨_, ?_, toggled ▸ follows'⟩
    rw [TestProgram.toggleStep, deleted, gone]
    exact congrArg (fun run : Option (ObjectStore α) => (liftM run : Testing _) >>= _) inserted

end Follows

/-- The last loops of `testcase4` visit each number but 0 once there is a prime to divide by. -/
theorem mem_divisions {k : Nat} : k ∈ prog.divisions.map (fun visit => visit.2.2) ↔
    0 < k ∧ k < prog.numObjects ∧ prog.primeNumberArray ≠ [] := by
  constructor
  · intro member
    obtain ⟨visit, visited, rfl⟩ := List.mem_map.mp member
    obtain ⟨i, row, visited⟩ := List.mem_flatMap.mp visited
    obtain ⟨⟨p, j⟩, entry, visited⟩ := List.mem_flatMap.mp visited
    obtain ⟨k, divided, rfl⟩ := List.mem_map.mp visited
    obtain ⟨positive, bound⟩ := mem_quotients divided
    have small : i < prog.numObjects := List.mem_range.mp (List.mem_reverse.mp row)
    refine ⟨positive, bound.trans_lt small, ?_⟩
    rintro empty
    rw [empty] at entry
    exact List.not_mem_nil entry
  · rintro ⟨positive, inside, nonempty⟩
    obtain ⟨p, primes, split⟩ := List.exists_cons_of_ne_nil nonempty
    refine List.mem_map.mpr ⟨(k, 0, k), ?_, rfl⟩
    refine List.mem_flatMap.mpr ⟨k, List.mem_reverse.mpr (List.mem_range.mpr inside), ?_⟩
    refine List.mem_flatMap.mpr ⟨(p, 0), ?_, List.mem_map.mpr ⟨k, ?_, rfl⟩⟩
    · rw [split]
      exact List.mem_cons_self
    · obtain ⟨fuel, rfl⟩ := Nat.exists_eq_add_of_lt positive
      rw [Nat.zero_add, quotients, if_pos (Nat.succ_pos fuel)]
      exact List.mem_cons_self

private theorem setOf_mem_nil : {i : Nat | i ∈ ([] : List Nat)} = ∅ := by simp

private theorem setOf_mem_append_singleton (front : List Nat) (j : Nat) :
    {i | i ∈ front ++ [j]} = insert j {i | i ∈ front} := by
  ext i
  simp [or_comm]

private theorem positive (prog : TestProgram α) : ∀ p ∈ prog.primeNumberArray, 0 < p :=
  fun p member => Nat.zero_lt_of_lt (prog.one_lt p member)

theorem follows_init (prog : TestProgram α) (s : ObjectStore α) : prog.Follows ∅ [] (init s) where
  tracks := ⟨.empty, .start s⟩
  array i := by simp [init]
  printed := rfl

variable [DecidableEq α]

theorem exists_clearStep (tracks : prog.Tracks present test.store test.mallocs c)
    (inside : j < prog.numObjects) (array : test.isInsertedNum j = true ↔ j ∈ present) :
    ∃ store c', prog.clearStep test j = pure { test with store } ∧
      prog.Tracks (present \ {j}) store test.mallocs c' := by
  obtain ⟨store, c', deleted, tracks'⟩ := tracks.deleteByNum inside array
  refine ⟨store, c', ?_, tracks'⟩
  rw [clearStep, deleted]
  exact if_neg (not_not.mpr rfl)

/-- An iteration of the last loops of `testcase4` deletes the object with the number `k`, if there
is one. -/
theorem exists_deleteStep (tracks : prog.Tracks present test.store test.mallocs c) {i k : Nat}
    (inside : k < prog.numObjects) : ∃ test' c', prog.deleteStep test (i, j, k) = pure test' ∧
      prog.Tracks (present \ {k}) test'.store test'.mallocs c' ∧ test'.printed = test.printed := by
  by_cases member : k ∈ present
  · obtain ⟨o, found⟩ := tracks.exists_stored member
    obtain ⟨store, c', deleted, tracks'⟩ :=
      tracks.deleteBoth inside found (decide (j % 2 ≠ 0) == prog.leftFirst)
    refine ⟨{ test with store, isInsertedNum := update test.isInsertedNum i false }, c', ?_,
      tracks', rfl⟩
    rw [deleteStep, tracks.find, found]
    exact congrArg (fun run : Option _ => (liftM run : Testing _) >>= _) deleted
  · refine ⟨test, c, ?_, (Set.sdiff_singleton_eq_self member).symm ▸ tracks, rfl⟩
    rw [deleteStep, tracks.find, tracks.not_stored inside member]
    rfl

/-! ## Test cases -/

theorem exists_fill (prog : TestProgram α) (step : ObjectTest α → Nat → Testing (ObjectTest α))
    (inserts : ∀ {test : ObjectTest α} {j : Nat} {store : ObjectStore α},
      prog.insertNumber test.store test.mallocs j = some store →
      ∃ array, step test j = pure ⟨store, array, test.mallocs + 1, test.printed⟩)
    {list : List Nat} (nodup : list.Nodup) (inside : ∀ j ∈ list, j < prog.numObjects)
    (s : ObjectStore α) : ∃ test, list.foldlM step (init s) = pure test ∧
      (∃ c, prog.Tracks {i | i ∈ list} test.store test.mallocs c) ∧ test.printed = [] := by
  let inv : List Nat → ObjectTest α → Prop := fun front test =>
    (∃ c, prog.Tracks {i | i ∈ front} test.store test.mallocs c) ∧ test.printed = []
  have start : inv [] (init s) := by
    refine ⟨⟨.empty, ?_⟩, rfl⟩
    rw [setOf_mem_nil]
    exact .start s
  refine exists_foldlM inv start fun {front j back test} split holds => ?_
  obtain ⟨⟨c, tracks⟩, printed⟩ := holds
  subst split
  have new : j ∉ front := fun member =>
    (List.nodup_append.mp nodup).2.2 j member j List.mem_cons_self rfl
  obtain ⟨store, c', inserted, tracks'⟩ := tracks.insertNumber (inside j (by simp)) new
  obtain ⟨array, stepped⟩ := inserts inserted
  rw [← setOf_mem_append_singleton] at tracks'
  exact ⟨_, stepped, ⟨c', tracks'⟩, printed⟩

private theorem exists_insertStep (prog : TestProgram α) {test : ObjectTest α} {j : Nat}
    {store : ObjectStore α} (inserted : prog.insertNumber test.store test.mallocs j = some store) :
    ∃ array, prog.insertStep test j = pure ⟨store, array, test.mallocs + 1, test.printed⟩ := by
  refine ⟨test.isInsertedNum, ?_⟩
  rw [insertStep, inserted]
  rfl

private theorem exists_fillStep (prog : TestProgram α) {test : ObjectTest α} {j : Nat}
    {store : ObjectStore α} (inserted : prog.insertNumber test.store test.mallocs j = some store) :
    ∃ array, prog.fillStep test j = pure ⟨store, array, test.mallocs + 1, test.printed⟩ := by
  refine ⟨update test.isInsertedNum j true, ?_⟩
  rw [fillStep, inserted]
  rfl

/-- `testcase1` prints all numbers. -/
theorem exists_testcase1 (prog : TestProgram α) (s : ObjectStore α) : ∃ test,
    prog.testcase1 (init s) = pure test ∧ Listing {j | j < prog.numObjects} test.printed := by
  generalize visits : List.range (prog.numObjects / 2) ++
    (List.range' (prog.numObjects / 2) (prog.numObjects - prog.numObjects / 2)).reverse = list
  have mem_list : ∀ j, j ∈ list ↔ j < prog.numObjects := by
    intro j
    simp only [← visits, List.mem_append, List.mem_range, List.mem_reverse, List.mem_range'_1]
    omega
  have nodup : list.Nodup := by
    rw [← visits, List.nodup_append]
    refine ⟨List.nodup_range, List.nodup_reverse.mpr List.nodup_range', fun i low j high => ?_⟩
    rw [List.mem_range] at low
    rw [List.mem_reverse, List.mem_range'_1] at high
    omega
  obtain ⟨test, filled, ⟨c, tracks⟩, printed⟩ := exists_fill prog
    prog.insertStep prog.exists_insertStep nodup (fun j => (mem_list j).mp) s
  have numbers : {i | i ∈ list} = {j | j < prog.numObjects} := Set.ext mem_list
  rw [numbers] at tracks
  obtain ⟨lines, shown, listing⟩ := tracks.print
  rw [printed, List.nil_append] at shown
  refine ⟨{ test with printed := lines }, ?_, listing⟩
  rw [← visits, List.foldlM_append] at filled
  rw [testcase1, ← bind_assoc, filled, pure_bind, shown]

theorem exists_testcase2 (prog : TestProgram α) (s : ObjectStore α) : ∃ test,
    prog.testcase2 (init s) = pure test ∧
      Listing {j | j < prog.numObjects ∧ 0 < j ∧ ∃ p ∈ prog.primeNumberArray,
        p ∣ j} test.printed := by
  generalize visits : prog.primeNumberArray.flatMap
    (fun p => multiples prog.numObjects p prog.numObjects p) = list
  have mem_list : ∀ j, j ∈ list ↔
      j < prog.numObjects ∧ 0 < j ∧ ∃ p ∈ prog.primeNumberArray, p ∣ j := by
    intro j
    rw [← visits, mem_visited prog.positive]
  obtain ⟨test, looped, follows⟩ : ∃ test, list.foldlM prog.findStep (init s) = pure test ∧
      prog.Follows {i | i ∈ list} [] test := by
    refine exists_foldlM (fun front => prog.Follows {i | i ∈ front} []) ?_
      fun {front j back test} split follows => ?_
    · rw [setOf_mem_nil]
      exact prog.follows_init s
    · have inside : j < prog.numObjects := ((mem_list j).mp (by simp [split])).1
      rw [setOf_mem_append_singleton]
      exact follows.findStep inside
  obtain ⟨c, tracks⟩ := follows.tracks
  obtain ⟨lines, shown, listing⟩ := tracks.print
  rw [follows.printed, List.nil_append] at shown
  have numbers : {i | i ∈ list} =
      {j | j < prog.numObjects ∧ 0 < j ∧ ∃ p ∈ prog.primeNumberArray, p ∣ j} := Set.ext mem_list
  refine ⟨{ test with printed := lines }, ?_, numbers ▸ listing⟩
  rw [testcase2, visits, looped, pure_bind, shown]

private theorem setOf_odd_count_append_singleton (front : List Nat) (j : Nat) :
    {i | Odd ((front ++ [j]).count i)} = {i | i ∈ {i | Odd (front.count i)} ↔ i ≠ j} := by
  ext i
  by_cases same : i = j
  · simp [same, Nat.odd_add_one]
  · simp [same, Ne.symm same]

theorem Follows.exists_clear {printed : List OutputLine}
    (follows : prog.Follows present printed test) : ∃ test',
    (List.range prog.numObjects).foldlM prog.clearStep test = pure test' ∧
      (∃ c, prog.Tracks ∅ test'.store test'.mallocs c) ∧ test'.printed = printed := by
  let inv : List Nat → ObjectTest α → Prop := fun front test' =>
    (∃ c, prog.Tracks (present \ {i | i ∈ front}) test'.store test'.mallocs c) ∧
      test'.isInsertedNum = test.isInsertedNum ∧ test'.printed = printed
  have start : inv [] test := by
    refine ⟨?_, rfl, follows.printed⟩
    rw [setOf_mem_nil, Set.sdiff_empty]
    exact follows.tracks
  obtain ⟨test', cleared, ⟨c, tracks⟩, _, shown⟩ : ∃ test',
      (List.range prog.numObjects).foldlM prog.clearStep test = pure test' ∧
        inv (List.range prog.numObjects) test' := by
    refine exists_foldlM inv start fun {front j back test'} split holds => ?_
    obtain ⟨⟨c, tracks⟩, array, shown⟩ := holds
    have inside : j < prog.numObjects := List.mem_range.mp (by simp [split])
    have new : j ∉ front := by
      have nodup := List.nodup_range (n := prog.numObjects)
      rw [split] at nodup
      exact fun member => (List.nodup_append.mp nodup).2.2 j member j List.mem_cons_self rfl
    have known : test'.isInsertedNum j = true ↔ j ∈ present \ {i | i ∈ front} := by
      rw [array, follows.array, Set.mem_sdiff]
      exact ⟨fun member => ⟨member, new⟩, And.left⟩
    obtain ⟨store, c', stepped, tracks'⟩ := exists_clearStep tracks inside known
    refine ⟨_, stepped, ⟨c', ?_⟩, array, shown⟩
    rw [setOf_mem_append_singleton, ← Set.union_singleton, ← Set.sdiff_sdiff]
    exact tracks'
  refine ⟨test', cleared, ⟨c, ?_⟩, shown⟩
  have none : present \ {i | i ∈ List.range prog.numObjects} = ∅ := by
    obtain ⟨c₀, tracks₀⟩ := follows.tracks
    refine Set.sdiff_eq_empty.mpr fun i member => List.mem_range.mpr (tracks₀.inside i member)
  rwa [none] at tracks

/-- `testcase3` prints the numbers that an odd number of the primes divide, deletes them, and prints
an empty store. -/
theorem exists_testcase3 (prog : TestProgram α) (s : ObjectStore α) : ∃ test lines rest,
    prog.testcase3 (init s) = pure test ∧ test.printed = lines ++ rest ∧
      Listing {j | j < prog.numObjects ∧ 0 < j ∧ Odd (prog.primeNumberArray.countP (· ∣ j))} lines ∧
      Listing ∅ rest := by
  have positive : ∀ p ∈ prog.primeNumberArray.reverse, 0 < p := fun p member =>
    prog.positive p (List.mem_reverse.mp member)
  generalize visits : prog.primeNumberArray.reverse.flatMap
    (fun p => multiples prog.numObjects p prog.numObjects p) = list
  have mem_list : ∀ j, j ∈ list → j < prog.numObjects ∧ 0 < j := by
    intro j member
    rw [← visits] at member
    obtain ⟨small, nonzero, _⟩ := (mem_visited positive).mp member
    exact ⟨small, nonzero⟩
  obtain ⟨test, looped, follows⟩ : ∃ test, list.foldlM prog.toggleStep (init s) = pure test ∧
      prog.Follows {i | Odd (list.count i)} [] test := by
    refine exists_foldlM (fun front => prog.Follows {i | Odd (front.count i)} []) ?_
      fun {front j back test} split follows => ?_
    · have empty : {i : Nat | Odd (([] : List Nat).count i)} = ∅ := by simp
      rw [empty]
      exact prog.follows_init s
    · have inside : j < prog.numObjects := (mem_list j (by simp [split])).1
      rw [setOf_odd_count_append_singleton]
      exact follows.toggleStep inside
  have numbers : {i | Odd (list.count i)} =
      {j | j < prog.numObjects ∧ 0 < j ∧ Odd (prog.primeNumberArray.countP (· ∣ j))} := by
    ext j
    by_cases inside : j < prog.numObjects ∧ 0 < j
    · rw [Set.mem_ofPred_eq, ← visits, count_visited inside positive, List.countP_reverse]
      simp [inside]
    · have missing : list.count j = 0 :=
        List.count_eq_zero.mpr fun member => inside (mem_list j member)
      simp only [Set.mem_ofPred_eq, missing, ← and_assoc]
      simp [inside]
  rw [numbers] at follows
  obtain ⟨c, tracks⟩ := follows.tracks
  obtain ⟨lines, shown, listing⟩ := tracks.print
  rw [follows.printed, List.nil_append] at shown
  have listed : prog.Follows _ lines { test with printed := lines } :=
    ⟨⟨c, tracks⟩, follows.array, rfl⟩
  obtain ⟨test', cleared, ⟨c', tracks'⟩, printed⟩ := listed.exists_clear
  obtain ⟨rest, shown', listing'⟩ := tracks'.print
  refine ⟨{ test' with printed := test'.printed ++ rest }, lines, rest, ?_,
    congrArg (· ++ rest) printed, listing, listing'⟩
  rw [testcase3, visits, looped, pure_bind, shown, pure_bind, cleared, pure_bind, shown']

/-- `testcase4` prints the number 0 only, or all numbers where there is no prime. -/
theorem exists_testcase4 (prog : TestProgram α) (s : ObjectStore α) : ∃ test,
    prog.testcase4 (init s) = pure test ∧
      Listing {j | j < prog.numObjects ∧ (j = 0 ∨ prog.primeNumberArray = [])} test.printed := by
  obtain ⟨test, filled, ⟨c, tracks⟩, printed⟩ := exists_fill prog
    prog.fillStep prog.exists_fillStep List.nodup_range (fun j => List.mem_range.mp) s
  let inv : List (Nat × Nat × Nat) → ObjectTest α → Prop := fun front test' =>
    (∃ c, prog.Tracks ({i | i ∈ List.range prog.numObjects} \
      {i | i ∈ front.map fun visit => visit.2.2}) test'.store test'.mallocs c) ∧ test'.printed = []
  have start : inv [] test := by
    refine ⟨⟨c, ?_⟩, printed⟩
    rwa [List.map_nil, setOf_mem_nil, Set.sdiff_empty]
  obtain ⟨test', deleted, ⟨c', tracks'⟩, printed'⟩ : ∃ test',
      prog.divisions.foldlM prog.deleteStep test = pure test' ∧ inv prog.divisions test' := by
    refine exists_foldlM inv start fun {front visit back test'} split holds => ?_
    obtain ⟨i, j, k⟩ := visit
    obtain ⟨⟨c, tracks⟩, printed⟩ := holds
    obtain ⟨_, inside, _⟩ := prog.mem_divisions.mp
      (List.mem_map.mpr ⟨(i, j, k), by simp [split], rfl⟩)
    obtain ⟨test'', c', stepped, tracks', kept⟩ := exists_deleteStep (i := i) (j := j) tracks inside
    refine ⟨test'', stepped, ⟨c', ?_⟩, kept.trans printed⟩
    rw [List.map_append, List.map_singleton, setOf_mem_append_singleton, ← Set.union_singleton,
      ← Set.sdiff_sdiff]
    exact tracks'
  have numbers : {i | i ∈ List.range prog.numObjects} \
      {i | i ∈ prog.divisions.map fun visit => visit.2.2} =
        {j | j < prog.numObjects ∧ (j = 0 ∨ prog.primeNumberArray = [])} := by
    ext j
    simp only [Set.mem_sdiff, Set.mem_ofPred_eq, List.mem_range, mem_divisions]
    refine and_congr_right fun inside => ?_
    rw [not_and, not_and, not_not, Nat.pos_iff_ne_zero]
    grind
  rw [numbers] at tracks'
  obtain ⟨lines, shown, listing⟩ := tracks'.print
  rw [printed', List.nil_append] at shown
  refine ⟨{ test' with printed := lines }, ?_, listing⟩
  rw [testcase4, filled, pure_bind, deleted, pure_bind, shown]

/-- No test case fails, whatever the primes are, and this is what the four of them print. -/
theorem testcases_print (prog : TestProgram α) (s : ObjectStore α) :
    (∃ test, prog.testcase1 (init s) = pure test ∧
      Listing {j | j < prog.numObjects} test.printed) ∧
    (∃ test, prog.testcase2 (init s) = pure test ∧
      Listing {j | j < prog.numObjects ∧ 0 < j ∧ ∃ p ∈ prog.primeNumberArray, p ∣ j} test.printed) ∧
    (∃ test lines rest, prog.testcase3 (init s) = pure test ∧ test.printed = lines ++ rest ∧
      Listing {j | j < prog.numObjects ∧ 0 < j ∧ Odd (prog.primeNumberArray.countP (· ∣ j))} lines ∧
      Listing ∅ rest) ∧
    ∃ test, prog.testcase4 (init s) = pure test ∧
      Listing {j | j < prog.numObjects ∧ (j = 0 ∨ prog.primeNumberArray = [])} test.printed :=
  ⟨prog.exists_testcase1 s, prog.exists_testcase2 s, prog.exists_testcase3 s,
    prog.exists_testcase4 s⟩

/-- The constants of `testcase.c`. -/
def source : TestProgram Nat where
  malloc := id
  malloc_injective := injective_id
  numObjects := 96
  primeNumberArray := [2, 3, 5, 7, 11]
  leftFirst := true
  fuel := 97
  small := by decide
  one_lt := by decide
  enough := by decide

/-- In the end `testcase4` prints the number 0 only. -/
theorem testcases_print_source : ∃ test, source.testcase4 (init ObjectStore.wild) = pure test ∧
    Listing {j | j < 96 ∧ (j = 0 ∨ [2, 3, 5, 7, 11] = [])} test.printed :=
  (source.testcases_print ObjectStore.wild).2.2.2

end TestProgram
end KwHomework
