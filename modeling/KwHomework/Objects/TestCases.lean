import KwHomework.Objects.Refinement
import Mathlib.Algebra.BigOperators.Group.List.Basic

/-!
# The test program of the object store

`testcase.c` keeps an array of the numbers that it has inserted beside the store, and returns with
the line `Fail` when an answer of the store is not what the array says.  The number of objects and
the array of primes are parameters.  A `none` is a wild memory access, as in the store.
-/

namespace KwHomework

open Function

/-- A line of output. -/
inductive OutputLine where
  | list (i : ListNum) (objnums : List CInt)
  | hashTable (i : Fin hashTblSize) (objnums : List CInt)
  | fail (testcase : Nat)
  deriving DecidableEq

/-- The constants of `testcase.c`, the addresses that `malloc` returns in turn, and the order in
which the compiler evaluates the operands of `!=`. -/
structure TestProgram (α : Type) where
  malloc : Nat → α
  malloc_injective : Injective malloc
  numObjects : Nat
  primeNumberArray : List Nat
  leftFirst : Bool
  fuel : Nat
  small : numObjects ≤ retObjectsSize
  one_lt : ∀ p ∈ primeNumberArray, 1 < p
  enough : numObjects < fuel

/-- The memory of a test case: the store, the array beside it, the number of objects that were
allocated, and what is printed. -/
structure ObjectTest (α : Type) where
  store : ObjectStore α
  isInsertedNum : Nat → Bool
  mallocs : Nat
  printed : List OutputLine

/-- A part of a test case; the exception is a return behind `Fail`. -/
abbrev Testing := ExceptT (List OutputLine) Option

/-- `i % MAX_LIST_NUM` as a `List`. -/
def listNumOf (i : Nat) : ListNum :=
  match i % 3 with
  | 0 => .list1
  | 1 => .list2
  | _ => .list3

/-- The values of `j` in `for (j = p; j < NUM_OBJECTS; j += p)`. -/
def multiples (numObjects p : Nat) : Nat → Nat → List Nat
  | 0, _ => []
  | fuel + 1, j => if j < numObjects then j :: multiples numObjects p fuel (j + p) else []

/-- The values of `k` in `for (k = i; k > 0; k /= p)`. -/
def quotients (p : Nat) : Nat → Nat → List Nat
  | 0, _ => []
  | fuel + 1, k => if 0 < k then k :: quotients p fuel (k / p) else []

namespace TestProgram

variable {α : Type} [DecidableEq α]

/-- The insertion of a new object that the test cases share. -/
def insertNumber (prog : TestProgram α) (s : ObjectStore α) (mallocs i : Nat) :
    Option (ObjectStore α) :=
  if (i / hashTblSize + i % hashTblSize) % 2 ≠ 0 then
    s.insertObjectToTail (prog.malloc mallocs) (.ofNat 32 i) (listNumOf i)
  else
    s.insertObjectToHead (prog.malloc mallocs) (.ofNat 32 i) (listNumOf i)

omit [DecidableEq α] in
/-- `printList`; `ppObject` has `NUM_OBJECTS` entries. -/
def printList (prog : TestProgram α) (s : ObjectStore α) : Option (List OutputLine) :=
  ObjectStore.listNums.mapM fun i => do
    let ppObject ← s.enumberateObjectsByListNum prog.fuel i
    if ppObject.length ≤ prog.numObjects then some (.list i (ppObject.map s.objnum)) else none

omit [DecidableEq α] in
/-- `printHashTable`. -/
def printHashTable (prog : TestProgram α) (s : ObjectStore α) : Option (List OutputLine) :=
  (List.finRange hashTblSize).mapM fun i => do
    let ppObject ← s.enumberateObjectsByHashIndex prog.fuel i
    if ppObject.length ≤ prog.numObjects then some (.hashTable i (ppObject.map s.objnum)) else none

omit [DecidableEq α] in
/-- `printList()` and `printHashTable()`. -/
def print (prog : TestProgram α) (test : ObjectTest α) : Testing (ObjectTest α) := do
  let lists ← prog.printList test.store
  let buckets ← prog.printHashTable test.store
  return { test with printed := test.printed ++ (lists ++ buckets) }

omit [DecidableEq α] in
/-- `main` calls `Init` and the test case. -/
def init (s : ObjectStore α) : ObjectTest α := ⟨s.init, fun _ => false, 0, []⟩

/-- One iteration of the loops of `testcase1`. -/
def insertStep (prog : TestProgram α) (test : ObjectTest α) (i : Nat) : Testing (ObjectTest α) := do
  let store ← prog.insertNumber test.store test.mallocs i
  return { test with store, mallocs := test.mallocs + 1 }

/-- `testcase1`. -/
def testcase1 (prog : TestProgram α) (test : ObjectTest α) : Testing (ObjectTest α) := do
  let test ← (List.range (prog.numObjects / 2)).foldlM prog.insertStep test
  let test ← (List.range' (prog.numObjects / 2)
    (prog.numObjects - prog.numObjects / 2)).reverse.foldlM
    prog.insertStep test
  prog.print test

/-- One iteration of the loops of `testcase2`. -/
def findStep (prog : TestProgram α) (test : ObjectTest α) (j : Nat) : Testing (ObjectTest α) := do
  let pFindObj ← test.store.findObjectByNum prog.fuel (.ofNat 32 j)
  if pFindObj = none ∧ test.isInsertedNum j = false then
    let store ← prog.insertNumber test.store test.mallocs j
    return { test with
      store, mallocs := test.mallocs + 1, isInsertedNum := update test.isInsertedNum j true }
  else if pFindObj ≠ none ∧ test.isInsertedNum j = true then
    return test
  else
    throw (test.printed ++ [.fail 2])

/-- `testcase2`. -/
def testcase2 (prog : TestProgram α) (test : ObjectTest α) : Testing (ObjectTest α) := do
  let visited := prog.primeNumberArray.flatMap fun p =>
    multiples prog.numObjects p prog.numObjects p
  let test ← visited.foldlM prog.findStep test
  prog.print test

/-- One iteration of the first loops of `testcase3`. -/
def toggleStep (prog : TestProgram α) (test : ObjectTest α) (j : Nat) : Testing (ObjectTest α) := do
  let (isDeleted, store) ← test.store.deleteObjectByNum prog.fuel (.ofNat 32 j)
  if isDeleted = false ∧ test.isInsertedNum j = false then
    let store ← prog.insertNumber store test.mallocs j
    return { test with
      store, mallocs := test.mallocs + 1, isInsertedNum := update test.isInsertedNum j true }
  else if isDeleted = true ∧ test.isInsertedNum j = true then
    return { test with store, isInsertedNum := update test.isInsertedNum j false }
  else
    throw (test.printed ++ [.fail 3])

/-- One iteration of the last loop of `testcase3`. -/
def clearStep (prog : TestProgram α) (test : ObjectTest α) (i : Nat) : Testing (ObjectTest α) := do
  let (isDeleted, store) ← test.store.deleteObjectByNum prog.fuel (.ofNat 32 i)
  if isDeleted ≠ test.isInsertedNum i then throw (test.printed ++ [.fail 3])
  return { test with store }

/-- `testcase3`. -/
def testcase3 (prog : TestProgram α) (test : ObjectTest α) : Testing (ObjectTest α) := do
  let visited := prog.primeNumberArray.reverse.flatMap fun p =>
    multiples prog.numObjects p prog.numObjects p
  let test ← visited.foldlM prog.toggleStep test
  let test ← prog.print test
  let test ← (List.range prog.numObjects).foldlM prog.clearStep test
  prog.print test

/-- One iteration of the first loop of `testcase4`. -/
def fillStep (prog : TestProgram α) (test : ObjectTest α) (i : Nat) : Testing (ObjectTest α) := do
  let store ← prog.insertNumber test.store test.mallocs i
  return { test with
    store, mallocs := test.mallocs + 1, isInsertedNum := update test.isInsertedNum i true }

/-- The two delete functions on one object, in the order of their calls. -/
def deleteBoth (prog : TestProgram α) (s : ObjectStore α) (objectFirst : Bool) (pFindObj : α) :
    Option (Bool × Bool × ObjectStore α) :=
  if objectFirst then do
    let (deleted, s) ← s.deleteObject prog.fuel pFindObj
    let (again, s) ← s.deleteObjectByNum prog.fuel (s.objnum pFindObj)
    return (deleted, again, s)
  else do
    let (deleted, s) ← s.deleteObjectByNum prog.fuel (s.objnum pFindObj)
    let (again, s) ← s.deleteObject prog.fuel pFindObj
    return (deleted, again, s)

/-- One iteration of the innermost loop of `testcase4`. -/
def deleteStep (prog : TestProgram α) (test : ObjectTest α) (visit : Nat × Nat × Nat) :
    Testing (ObjectTest α) := do
  let (i, j, k) := visit
  match ← test.store.findObjectByNum prog.fuel (.ofNat 32 k) with
  | none => return test
  | some pFindObj =>
      -- `DeleteObject` stands on the left of `!=` for odd `j`, and on the right for even `j`.
      let (first, second, store) ←
        prog.deleteBoth test.store (decide (j % 2 ≠ 0) == prog.leftFirst) pFindObj
      if first ≠ second then
        return { test with store, isInsertedNum := update test.isInsertedNum i false }
      else
        throw (test.printed ++ [.fail 3])

/-- The values of `i`, `j` and `k` in the last loops of `testcase4`. -/
def divisions (prog : TestProgram α) : List (Nat × Nat × Nat) :=
  (List.range prog.numObjects).reverse.flatMap fun i =>
    prog.primeNumberArray.zipIdx.flatMap fun (p, j) => (quotients p i i).map fun k => (i, j, k)

/-- `testcase4`. -/
def testcase4 (prog : TestProgram α) (test : ObjectTest α) : Testing (ObjectTest α) := do
  let test ← (List.range prog.numObjects).foldlM prog.fillStep test
  let test ← prog.divisions.foldlM prog.deleteStep test
  prog.print test

end TestProgram
end KwHomework
