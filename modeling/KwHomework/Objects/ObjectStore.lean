import KwHomework.Memory.CMemory
import KwHomework.Queue.CircleQueue

/-!
# The object store

The functions of `hw1.c`.  An object is on one of three lists by its entry `link`, and on a bucket
of the hash table by its entry `hash` unless its list is `LIST3`.  A `none` is a wild memory access:
an index outside an array, a list number that was never assigned, or a queue that was followed for
`fuel` steps without coming to its end.
-/

namespace KwHomework

open Function

/-- `HASH_TBL_SIZE`. -/
abbrev hashTblSize : Nat := 8

/-- The number of pointers in `retObjects`. -/
abbrev retObjectsSize : Nat := 100

/-- `List`. -/
inductive ListNum where
  | list1
  | list2
  | list3
  deriving DecidableEq

/-- The global variables of `hw1.c` and the objects; `α` is the addresses of objects. -/
structure ObjectStore (α : Type) where
  objnum : α → CInt
  /-- `ppHashTable`, threaded through `hash`. -/
  ppHashTable : CircleQueue (Fin hashTblSize) α
  /-- `ppListHead`, threaded through `link`. -/
  ppListHead : CircleQueue ListNum α

/-- `objNum % HASH_TBL_SIZE` as an index of `ppHashTable`. -/
def tableIndex (objNum : CInt) : Option (Fin hashTblSize) :=
  if nonneg : 0 ≤ objNum.toInt.tmod hashTblSize then
    some ⟨(objNum.toInt.tmod hashTblSize).toNat, by
      have := Int.tmod_lt_of_pos objNum.toInt (show (0 : Int) < hashTblSize by decide)
      omega⟩
  else
    none

namespace ObjectStore

variable {α : Type} [DecidableEq α]

/-- `LIST1` to `LIST3`. -/
abbrev listNums : List ListNum := [.list1, .list2, .list3]

omit [DecidableEq α] in
/-- `Init`. -/
def init (s : ObjectStore α) : ObjectStore α :=
  { s with
    ppHashTable := (List.finRange hashTblSize).foldl (·.init ·) s.ppHashTable
    ppListHead := listNums.foldl (·.init ·) s.ppListHead }

/-- `InsertObjectToTail`. -/
def insertObjectToTail (s : ObjectStore α) (pObj : α) (objNum : CInt) (listNum : ListNum) :
    Option (ObjectStore α) := do
  let s := { s with objnum := update s.objnum pObj objNum }
  let s ←
    if listNum ≠ .list3 then do
      let idx ← tableIndex objNum
      let ppHashTable ← s.ppHashTable.insertTail idx pObj
      some { s with ppHashTable }
    else
      some s
  let ppListHead ← s.ppListHead.insertTail listNum pObj
  return { s with ppListHead }

/-- `InsertObjectToHead`. -/
def insertObjectToHead (s : ObjectStore α) (pObj : α) (objNum : CInt) (listNum : ListNum) :
    Option (ObjectStore α) := do
  let s := { s with objnum := update s.objnum pObj objNum }
  let s ←
    if listNum ≠ .list3 then do
      let idx ← tableIndex objNum
      let ppHashTable ← s.ppHashTable.insertHead idx pObj
      some { s with ppHashTable }
    else
      some s
  let ppListHead ←
    if listNum = .list3 then s.ppListHead.insertHead listNum pObj
    else s.ppListHead.insertTail listNum pObj
  return { s with ppListHead }

/-- `FindObjectByNum`. -/
def findObjectByNum (s : ObjectStore α) (fuel : Nat) (objnum : CInt) : Option (Option α) :=
  listNums.findSomeM? fun num => s.ppListHead.search num (fun iter => s.objnum iter = objnum) fuel

/-- The loops that assign `listNum` in the delete functions. -/
def findListNum (s : ObjectStore α) (fuel : Nat) (objnum : CInt) : Option (Option ListNum) :=
  listNums.foldlM (fun listNum num => s.ppListHead.fold num
    (fun listNum iter => if s.objnum iter = objnum then some num else listNum) fuel listNum) none

/-- The code of the delete functions that takes an object off its queues. -/
def removeObject (s : ObjectStore α) (listNum : ListNum) (foundObj : α) (objNum : CInt) :
    Option (ObjectStore α) := do
  let ppListHead ← s.ppListHead.remove listNum foundObj
  let s := { s with ppListHead }
  if listNum ≠ .list3 then do
    let idx ← tableIndex objNum
    let ppHashTable ← s.ppHashTable.remove idx foundObj
    return { s with ppHashTable }
  else
    return s

/-- `DeleteObject`. -/
def deleteObject (s : ObjectStore α) (fuel : Nat) (pObj : α) : Option (Bool × ObjectStore α) := do
  match ← s.findObjectByNum fuel (s.objnum pObj) with
  | none => return (false, s)
  | some foundObj =>
      let listNum ← s.findListNum fuel (s.objnum pObj)
      let listNum ← listNum
      let s ← s.removeObject listNum foundObj (s.objnum foundObj)
      return (true, s)

/-- `DeleteObjectByNum`. -/
def deleteObjectByNum (s : ObjectStore α) (fuel : Nat) (objNum : CInt) :
    Option (Bool × ObjectStore α) := do
  match ← s.findObjectByNum fuel objNum with
  | none => return (false, s)
  | some foundObj =>
      let listNum ← s.findListNum fuel objNum
      let listNum ← listNum
      let s ← s.removeObject listNum foundObj objNum
      return (true, s)

/-- `retObjects[cnt++] = iter`. -/
def collect (retObjects : Option (List α)) (iter : α) : Option (List α) := do
  let objects ← retObjects
  if objects.length < retObjectsSize then some (objects ++ [iter]) else none

/-- `EnumberateObjectsByListNum`: the objects that it copies to `ppObject`. -/
def enumberateObjectsByListNum (s : ObjectStore α) (fuel : Nat) (listnum : ListNum) :
    Option (List α) := do
  let retObjects ← s.ppListHead.fold listnum collect fuel (some [])
  retObjects

/-- `EnumberateObjectsByHashIndex`: the objects that it copies to `ppObject`. -/
def enumberateObjectsByHashIndex (s : ObjectStore α) (fuel : Nat) (hashnum : Fin hashTblSize) :
    Option (List α) := do
  let retObjects ← s.ppHashTable.fold hashnum collect fuel (some [])
  retObjects

end ObjectStore
end KwHomework
