import KwHomework.FileSystem.Disk
import Mathlib.Data.List.Basic

/-!
# Layout of the metadata blocks

The records of `fs.h` as they lie in a block: little-endian `int` fields, sixteen `Inode`s or
thirty-two `DirEntry`s to a block, and bitmaps whose bytes are read from the high bit down.  A
block is a C array here: a record is read out of it and written into it at its offset, and the
other bytes stay.
-/

namespace KwHomework

open Function

/-! ## Integers in a block -/

namespace Block

/-- Byte `n` of a block. -/
def byteAt (blk : Block) (n : Nat) : Byte :=
  if bound : n < blockSize then blk ⟨n, bound⟩ else 0

/-- The `int` at byte offset `off`. -/
def intAt (blk : Block) (off : Nat) : CInt :=
  intOfBytes (blk.byteAt off) (blk.byteAt (off + 1)) (blk.byteAt (off + 2)) (blk.byteAt (off + 3))

/-- Store `n` consecutive `int`s from byte offset `off`. -/
def storeInts (blk : Block) (off n : Nat) (value : Nat → CInt) : Block := fun i =>
  if off ≤ i ∧ i < off + 4 * n then intByte (value ((i - off) / 4)) ((i - off) % 4) else blk i

theorem byteAt_storeInts (blk : Block) (off n : Nat) (value : Nat → CInt) (i : Nat)
    (bound : off + 4 * n ≤ 512) :
    (blk.storeInts off n value).byteAt i =
      if off ≤ i ∧ i < off + 4 * n then intByte (value ((i - off) / 4)) ((i - off) % 4)
      else blk.byteAt i := by
  by_cases inside : i < 512
  · simp [byteAt, storeInts, inside]
  · have outside : ¬ (off ≤ i ∧ i < off + 4 * n) := by omega
    simp [byteAt, inside, outside]

/-- Reading back one of the stored `int`s. -/
theorem intAt_storeInts (blk : Block) {off n : Nat} (value : Nat → CInt)
    (bound : off + 4 * n ≤ 512) {k : Nat} (stored : k < n) :
    (blk.storeInts off n value).intAt (off + 4 * k) = value k := by
  have byte : ∀ r, r < 4 →
      (blk.storeInts off n value).byteAt (off + 4 * k + r) = intByte (value k) r := by
    intro r small
    have quotient : (off + 4 * k + r - off) / 4 = k := by omega
    have remainder : (off + 4 * k + r - off) % 4 = r := by omega
    rw [byteAt_storeInts _ _ _ _ _ bound, if_pos (by omega), quotient, remainder]
  rw [intAt, ← Nat.add_zero (off + 4 * k), byte 0 (by omega), Nat.add_zero, byte 1 (by omega),
    byte 2 (by omega), byte 3 (by omega), intOfBytes_intByte]

theorem intAt_storeInts_of_disjoint (blk : Block) {off n : Nat} (value : Nat → CInt)
    (bound : off + 4 * n ≤ 512) {other : Nat} (disjoint : other + 4 ≤ off ∨ off + 4 * n ≤ other) :
    (blk.storeInts off n value).intAt other = blk.intAt other := by
  have byte : ∀ r, r < 4 →
      (blk.storeInts off n value).byteAt (other + r) = blk.byteAt (other + r) := by
    intro r small
    rw [byteAt_storeInts _ _ _ _ _ bound, if_neg (by omega)]
  rw [intAt, intAt, ← Nat.add_zero other, byte 0 (by omega), Nat.add_zero, byte 1 (by omega),
    byte 2 (by omega), byte 3 (by omega)]

@[simp] theorem intAt_zero (off : Nat) : intAt (fun _ => 0) off = 0 := by
  simp only [intAt, byteAt, dite_eq_ite, ite_self]
  decide

end Block

/-! ## Bitmaps

A number that is not below `8 * BLOCK_SIZE` addresses a byte outside the buffer, except that `-1` to
`-7` address byte 0 with a mask above its eight bits. -/

/-- `value / 8` as an index of the block buffer. -/
def byteIndex (value : CInt) : Option (Fin blockSize) :=
  if bound : 0 ≤ value.toInt.tdiv 8 ∧ value.toInt.tdiv 8 < blockSize then
    some ⟨(value.toInt.tdiv 8).toNat, by omega⟩
  else
    none

/-- The number a search returns, or -1. -/
def foundOrFail : Option Nat → CInt
  | some number => BitVec.ofNat 32 number
  | none => -1

/-- `7 - value % 8`. -/
def bitIndex (value : CInt) : Nat := (7 - value.toInt.tmod 8).toNat

namespace Block

/-- `pData[value / 8] |= (1 << (7 - value % 8))`. -/
def setBit (blk : Block) (value : CInt) : Option Block := do
  let idx ← byteIndex value
  return update blk idx (setMask (blk idx) (bitIndex value))

/-- `pData[value / 8] &= ~(1 << (7 - value % 8))`. -/
def resetBit (blk : Block) (value : CInt) : Option Block := do
  let idx ← byteIndex value
  return update blk idx (resetMask (blk idx) (bitIndex value))

/-- The scan of the first `bytes` bytes for a clear bit. -/
def firstClear (blk : Block) (bytes : Nat) : CInt :=
  foundOrFail <| (List.range bytes).findSome? fun byteIdx =>
    (List.range 8).findSome? fun bitIdx =>
      if maskClear (blk.byteAt byteIdx) (7 - bitIdx) then some (byteIdx * 8 + bitIdx) else none

/-- Bit `n` of a bitmap. -/
def bitAt (blk : Block) (n : Nat) : Bool := (blk.byteAt (n / 8)).getLsbD (7 - n % 8)

end Block

private theorem byteIndex_eq {n : CInt} (small : n.toNat < 512) :
    byteIndex n = some ⟨n.toNat / 8, by simp only [blockSize]; omega⟩ := by
  have signed : n.toInt = n.toNat := BitVec.toInt_eq_toNat_of_lt (by omega)
  have quotient : n.toInt.tdiv 8 = (n.toNat / 8 : Nat) := by
    rw [signed, Int.tdiv_eq_ediv_of_nonneg (by omega), Int.natCast_ediv]
    rfl
  have inside : 0 ≤ n.toInt.tdiv 8 ∧ n.toInt.tdiv 8 < blockSize := by
    rw [quotient]
    simp only [blockSize]
    omega
  rw [byteIndex, dif_pos inside]
  simp only [quotient, Int.toNat_natCast]

private theorem bitIndex_eq {n : CInt} (small : n.toNat < 512) : bitIndex n = 7 - n.toNat % 8 := by
  have signed : n.toInt = n.toNat := BitVec.toInt_eq_toNat_of_lt (by omega)
  rw [bitIndex, signed, Int.tmod_eq_emod_of_nonneg (by omega)]
  omega

namespace Block

private theorem bitAt_update (blk : Block) {n : Nat} (small : n < 512) {byte : Byte} {value : Bool}
    (bits : ∀ i < 8, byte.getLsbD i =
      if i = 7 - n % 8 then value else (blk.byteAt (n / 8)).getLsbD i) (m : Nat) :
    bitAt (update blk ⟨n / 8, by simp only [blockSize]; omega⟩ byte) m =
      if m = n then value else blk.bitAt m := by
  by_cases sameByte : m / 8 = n / 8
  · have replaced : byteAt (update blk ⟨n / 8, by simp only [blockSize]; omega⟩ byte) (m / 8) =
        byte := by
      have inside : n / 8 < 512 := by omega
      simp [byteAt, sameByte, inside]
    rw [bitAt, replaced, bits _ (by omega), bitAt, sameByte]
    have bit_iff : 7 - m % 8 = 7 - n % 8 ↔ m = n := by omega
    simp only [bit_iff]
  · have kept : byteAt (update blk ⟨n / 8, by simp only [blockSize]; omega⟩ byte) (m / 8) =
        blk.byteAt (m / 8) := by
      by_cases inside : m / 8 < 512
      · simp [byteAt, inside, sameByte]
      · simp [byteAt, inside]
    have ne : m ≠ n := by rintro rfl; exact sameByte rfl
    rw [bitAt, kept, if_neg ne, bitAt]

/-- Setting a bit in range sets that bit of the map and no other. -/
theorem exists_setBit (blk : Block) {n : CInt} (small : n.toNat < 512) :
    ∃ blk', blk.setBit n = some blk' ∧
      ∀ m, blk'.bitAt m = if m = n.toNat then true else blk.bitAt m := by
  refine ⟨_, by rw [setBit, byteIndex_eq small]; rfl, bitAt_update blk small fun i inside => ?_⟩
  have quotient : n.toNat / 8 < 512 := by omega
  rw [bitIndex_eq small, getLsbD_setMask _ _ inside, byteAt, dif_pos quotient]
  by_cases same : i = 7 - n.toNat % 8 <;> simp [same]

/-- Setting a bit that is set changes nothing. -/
theorem setBit_of_bitAt {blk : Block} {n : CInt} (small : n.toNat < 512)
    (set : blk.bitAt n.toNat = true) : blk.setBit n = some blk := by
  have quotient : n.toNat / 8 < 512 := by omega
  have same : setMask (blk ⟨n.toNat / 8, quotient⟩) (bitIndex n) = blk ⟨n.toNat / 8, quotient⟩ := by
    apply BitVec.eq_of_getLsbD_eq
    intro i inside
    rw [bitAt, byteAt, dif_pos quotient] at set
    rw [getLsbD_setMask _ _ inside, bitIndex_eq small]
    by_cases here : i = 7 - n.toNat % 8
    · simp [here, set]
    · simp [here]
  rw [setBit, byteIndex_eq small]
  exact congrArg some ((congrArg (update blk _) same).trans (update_eq_self _ _))

/-- Resetting a bit in range resets that bit of the map and no other. -/
theorem exists_resetBit (blk : Block) {n : CInt} (small : n.toNat < 512) :
    ∃ blk', blk.resetBit n = some blk' ∧
      ∀ m, blk'.bitAt m = if m = n.toNat then false else blk.bitAt m := by
  refine ⟨_, by rw [resetBit, byteIndex_eq small]; rfl, bitAt_update blk small fun i inside => ?_⟩
  have quotient : n.toNat / 8 < 512 := by omega
  rw [bitIndex_eq small, getLsbD_resetMask _ _ inside, byteAt, dif_pos quotient]
  by_cases same : i = 7 - n.toNat % 8 <;> simp [same]

private theorem findSome?_maskClear (blk : Block) (byteIdx : Nat) : ∀ bits : List Nat,
    (∀ bitIdx ∈ bits, bitIdx < 8) →
    bits.findSome? (fun bitIdx =>
      if maskClear (blk.byteAt byteIdx) (7 - bitIdx) then some (byteIdx * 8 + bitIdx) else none) =
      (bits.map (8 * byteIdx + ·)).find? fun n => !blk.bitAt n
  | [], _ => rfl
  | bitIdx :: bits, small => by
      have first : bitIdx < 8 := small bitIdx (by simp)
      have quotient : (8 * byteIdx + bitIdx) / 8 = byteIdx := by omega
      have remainder : (8 * byteIdx + bitIdx) % 8 = bitIdx := by omega
      have bit : maskClear (blk.byteAt byteIdx) (7 - bitIdx) = !blk.bitAt
          (8 * byteIdx + bitIdx) := by
        rw [maskClear_eq _ (by omega), bitAt, quotient, remainder]
      have rest := findSome?_maskClear blk byteIdx bits fun other member =>
        small other (List.mem_cons_of_mem _ member)
      rw [List.findSome?_cons, List.map_cons, List.find?_cons, bit, rest]
      cases blk.bitAt (8 * byteIdx + bitIdx) <;> simp [Nat.mul_comm]

/-- The scan finds the least clear bit below `8 * bytes`. -/
theorem firstClear_eq (blk : Block) (bytes : Nat) :
    blk.firstClear bytes = foundOrFail ((List.range (8 * bytes)).find? fun n => !blk.bitAt n) := by
  suffices scan : (List.range bytes).findSome? (fun byteIdx =>
      (List.range 8).findSome? fun bitIdx =>
        if maskClear (blk.byteAt byteIdx) (7 - bitIdx) then some (byteIdx * 8 + bitIdx)
        else none) = (List.range (8 * bytes)).find? fun n => !blk.bitAt n by
    rw [firstClear, scan]
  induction bytes with
  | zero => rfl
  | succ bytes induction =>
      rw [List.range_succ (n := bytes), List.findSome?_append, induction, List.findSome?_singleton,
        findSome?_maskClear blk bytes _ (by simp), Nat.mul_succ, List.range_add, List.find?_append]

end Block

/-! ## Inodes -/

/-- `NUM_OF_DIRECT_BLOCK_PTR`. -/
abbrev numOfDirectBlockPtr : Nat := 5

instance : NeZero numOfDirectBlockPtr := ⟨by decide⟩

/-- `Inode`. -/
@[ext]
structure Inode where
  allocBlocks : CInt
  size : CInt
  type : CInt
  dirBlockPtr : Fin numOfDirectBlockPtr → CInt

/-- The fields of an inode in memory order. -/
def Inode.field (inode : Inode) (k : Nat) : CInt :=
  match k with
  | 0 => inode.allocBlocks
  | 1 => inode.size
  | 2 => inode.type
  | k + 3 => if bound : k < numOfDirectBlockPtr then inode.dirBlockPtr ⟨k, bound⟩ else 0

namespace Block

/-- The inode at index `idx` of an inode-list block. -/
def inodeAt (blk : Block) (idx : Fin 16) : Inode where
  allocBlocks := blk.intAt (32 * idx)
  size := blk.intAt (32 * idx + 4 * 1)
  type := blk.intAt (32 * idx + 4 * 2)
  dirBlockPtr k := blk.intAt (32 * idx + 4 * (k + 3))

/-- `memcpy(&pData[idx], pInode, sizeof(Inode))`. -/
def storeInode (blk : Block) (idx : Fin 16) (inode : Inode) : Block :=
  blk.storeInts (32 * idx) 8 inode.field

theorem inodeAt_storeInode_self (blk : Block) (idx : Fin 16) (inode : Inode) :
    (blk.storeInode idx inode).inodeAt idx = inode := by
  have bound : 32 * (idx : Nat) + 4 * 8 ≤ 512 := by have := idx.isLt; omega
  have read : ∀ k, k < 8 →
      (blk.storeInode idx inode).intAt (32 * idx + 4 * k) = inode.field k :=
    fun k small => intAt_storeInts blk inode.field bound small
  refine Inode.ext ?_ ?_ ?_ (funext fun k => ?_)
  · exact read 0 (by omega)
  · exact read 1 (by omega)
  · exact read 2 (by omega)
  · have small : (k : Nat) < 5 := k.isLt
    exact (read (k + 3) (by omega)).trans (by simp [Inode.field])

theorem inodeAt_storeInode_of_ne (blk : Block) {idx idx' : Fin 16} (inode : Inode)
    (different : idx' ≠ idx) :
    (blk.storeInode idx inode).inodeAt idx' = blk.inodeAt idx' := by
  have bound : 32 * (idx : Nat) + 4 * 8 ≤ 512 := by have := idx.isLt; omega
  have apart : (idx' : Nat) < idx ∨ (idx : Nat) < idx' := by
    have := Fin.val_ne_of_ne different
    omega
  have read : ∀ k, k < 8 →
      (blk.storeInode idx inode).intAt (32 * idx' + 4 * k) = blk.intAt (32 * idx' + 4 * k) :=
    fun k small => intAt_storeInts_of_disjoint blk inode.field bound (by omega)
  refine Inode.ext ?_ ?_ ?_ (funext fun k => ?_)
  · exact read 0 (by omega)
  · exact read 1 (by omega)
  · exact read 2 (by omega)
  · have small : (k : Nat) < 5 := k.isLt
    exact read (k + 3) (by omega)

end Block

/-! ## Directory entries -/

/-- `MAX_NAME_LEN`. -/
abbrev maxNameLen : Nat := 12

/-- `NUM_OF_DIRENT_PER_BLOCK`. -/
abbrev numOfDirentPerBlock : Nat := 32

instance : NeZero numOfDirentPerBlock := ⟨by decide⟩

namespace Block

section Entries

variable (blk : Block) (j : Fin numOfDirentPerBlock)

/-- `entries[j].name[k]`. -/
def nameByte (k : Nat) : Byte := blk.byteAt (16 * j + k)

/-- `entries[j].inodeNum`. -/
def entryInode : CInt := blk.intAt (16 * j + 12)

/-- The memory from `entries[j].name` to the end of the block. -/
def nameMemory : List Byte := (List.range (blockSize - 16 * j)).map (blk.nameByte j)

/-- Assign `entries[j].inodeNum`. -/
def setEntryInode (value : CInt) : Block := blk.storeInts (16 * j + 12) 1 fun _ => value

/-- Assign the first `n` bytes of `entries[j].name`. -/
def setName (n : Nat) (name : Nat → Byte) : Block := fun i =>
  if 16 * (j : Nat) ≤ i ∧ i < 16 * (j : Nat) + n then name (i - 16 * j) else blk i

/-- `entries[j].inodeNum = value; strncpy(entries[j].name, token, MAX_NAME_LEN)`. -/
def setEntry (value : CInt) (token : Nat → Byte) : Block :=
  (blk.setEntryInode j value).setName j maxNameLen (strncpy token)

/-- `entries[j].inodeNum = 0; entries[j].name[0] = '\0'`. -/
def clearEntry : Block := (blk.setEntryInode j 0#32).setName j 1 fun _ => 0#8

/-- The string in the name field of an entry; twelve bytes long when it is not terminated. -/
def nameOf : List Byte := ((List.range maxNameLen).map (blk.nameByte j)).takeWhile (· ≠ 0#8)

private theorem byteAt_setName {n : Nat} (name : Nat → Byte) (bound : n ≤ 16) (i : Nat) :
    (blk.setName j n name).byteAt i =
      if 16 * (j : Nat) ≤ i ∧ i < 16 * (j : Nat) + n then name (i - 16 * j) else blk.byteAt i := by
  have last : (j : Nat) < 32 := j.isLt
  by_cases inside : i < 512
  · simp [byteAt, setName, inside]
  · have outside : ¬ (16 * (j : Nat) ≤ i ∧ i < 16 * (j : Nat) + n) := by omega
    simp [byteAt, inside, outside]

private theorem nameByte_setName_self {n : Nat} (name : Nat → Byte) (bound : n ≤ 16) {k : Nat}
    (inside : k < n) : (blk.setName j n name).nameByte j k = name k := by
  rw [nameByte, byteAt_setName blk j name bound, if_pos (by omega), Nat.add_sub_cancel_left]

private theorem nameOf_congr {blk blk' : Block} {j : Fin numOfDirentPerBlock}
    (same : ∀ k < 12, blk'.nameByte j k = blk.nameByte j k) : blk'.nameOf j = blk.nameOf j := by
  rw [nameOf, nameOf, List.map_congr_left fun k member => same k (List.mem_range.mp member)]

theorem nameOf_setName_self {n : Nat} {name : Nat → Byte} {text : List Byte}
    (spells : Spells name text) (bound : n ≤ 12) (short : text.length < n) :
    (blk.setName j n name).nameOf j = text := by
  refine takeWhile_of_spells ⟨spells.1, fun i inside => ?_⟩ (short.trans_le bound)
  rw [nameByte_setName_self blk j name (by omega) (by omega), spells.2 i inside]

theorem nameOf_setName_of_ne {n : Nat} (name : Nat → Byte) (bound : n ≤ 12)
    {j' : Fin numOfDirentPerBlock} (different : j' ≠ j) :
    (blk.setName j n name).nameOf j' = blk.nameOf j' := by
  refine nameOf_congr fun k small => ?_
  have apart := Fin.val_ne_of_ne different
  rw [nameByte, byteAt_setName blk j name (by omega), if_neg (by omega), nameByte]

theorem nameOf_setEntryInode (value : CInt) (j' : Fin numOfDirentPerBlock) :
    (blk.setEntryInode j value).nameOf j' = blk.nameOf j' := by
  have last : (j : Nat) < 32 := j.isLt
  refine nameOf_congr fun k small => ?_
  rw [nameByte, setEntryInode, byteAt_storeInts _ _ _ _ _ (by omega), if_neg (by omega), nameByte]

theorem entryInode_setName {n : Nat} (name : Nat → Byte) (bound : n ≤ 12)
    (j' : Fin numOfDirentPerBlock) :
    (blk.setName j n name).entryInode j' = blk.entryInode j' := by
  have byte : ∀ r < 4, (blk.setName j n name).byteAt (16 * j' + 12 + r) =
      blk.byteAt (16 * j' + 12 + r) := by
    intro r small
    rw [byteAt_setName blk j name (by omega), if_neg (by omega)]
  rw [entryInode, entryInode, intAt, intAt, ← Nat.add_zero (16 * (j' : Nat) + 12),
    byte 0 (by omega), Nat.add_zero, byte 1 (by omega), byte 2 (by omega), byte 3 (by omega)]

theorem entryInode_setEntryInode (value : CInt) (j' : Fin numOfDirentPerBlock) :
    (blk.setEntryInode j value).entryInode j' = if j' = j then value else blk.entryInode j' := by
  have last : (j : Nat) < 32 := j.isLt
  have bound : 16 * (j : Nat) + 12 + 4 * 1 ≤ 512 := by omega
  split_ifs with same
  · rw [same]
    have read := intAt_storeInts blk (fun _ => value) bound Nat.zero_lt_one
    rwa [Nat.mul_zero, Nat.add_zero] at read
  · have apart := Fin.val_ne_of_ne same
    exact intAt_storeInts_of_disjoint blk (fun _ => value) bound (by omega)

theorem entryInode_setEntry (value : CInt) (token : Nat → Byte) (j' : Fin numOfDirentPerBlock) :
    (blk.setEntry j value token).entryInode j' = if j' = j then value else blk.entryInode j' := by
  rw [setEntry, entryInode_setName _ _ _ le_rfl, entryInode_setEntryInode]

theorem entryInode_clearEntry (j' : Fin numOfDirentPerBlock) :
    (blk.clearEntry j).entryInode j' = if j' = j then 0#32 else blk.entryInode j' := by
  rw [clearEntry, entryInode_setName _ _ _ (by omega), entryInode_setEntryInode]

private theorem nameMemory_eq : ∃ rest : List Byte,
    blk.nameMemory j = (List.range maxNameLen).map (blk.nameByte j) ++ rest := by
  have last : (j : Nat) < 32 := j.isLt
  have split : blockSize - 16 * (j : Nat) = 12 + (500 - 16 * (j : Nat)) := by
    simp only [blockSize]
    omega
  exact ⟨_, by rw [nameMemory, split, List.range_add, List.map_append]⟩

/-- The first byte of a name tells whether there is one. -/
theorem head?_nameOf : (blk.nameOf j).head? =
    if blk.nameByte j 0 = 0#8 then none else some (blk.nameByte j 0) := by
  rw [nameOf, List.range_succ_eq_map, List.map_cons, List.takeWhile_cons]
  by_cases zero : blk.nameByte j 0 = 0#8 <;> simp [zero]

theorem nameOf_eq_nil_iff : blk.nameOf j = [] ↔ blk.nameByte j 0 = 0#8 := by
  rw [← List.head?_eq_none_iff, head?_nameOf]
  by_cases zero : blk.nameByte j 0 = 0#8 <;> simp [zero]

/-- `strcmp` against an entry whose name is terminated compares the name. -/
theorem strcmpEq_nameMemory {str : Nat → Byte} {text : List Byte}
    (terminated : (blk.nameOf j).length < 12) (spells : Spells str text) :
    strcmpEq (blk.nameMemory j) str = some (decide (blk.nameOf j = text)) := by
  obtain ⟨rest, memory⟩ := nameMemory_eq blk j
  have shorter : ((List.range maxNameLen).map (blk.nameByte j)).takeWhile (· ≠ 0#8) ≠
      (List.range maxNameLen).map (blk.nameByte j) := by
    intro whole
    rw [nameOf, whole, List.length_map, List.length_range] at terminated
    exact absurd terminated (by decide)
  have zero : 0#8 ∈ blk.nameMemory j := by
    rw [memory, List.mem_append]
    left
    by_contra missing
    refine shorter (List.takeWhile_eq_self_iff.mpr fun byte member => ?_)
    simpa using fun zero : byte = 0#8 => missing (zero ▸ member)
  rw [strcmpEq_eq zero spells, memory, List.takeWhile_append, if_neg, nameOf]
  exact fun length => shorter ((List.takeWhile_prefix _).eq_of_length length)

end Entries

/-- A directory entry: its name as a string, and its inode number. -/
structure Entry where
  name : List Byte
  inodeNum : CInt
  deriving DecidableEq

/-- `entries[j]`. -/
def entryAt (blk : Block) (j : Fin numOfDirentPerBlock) : Entry :=
  ⟨blk.nameOf j, blk.entryInode j⟩

theorem entryAt_setEntry (blk : Block) (j : Fin numOfDirentPerBlock) (value : CInt)
    {token : Nat → Byte} {text : List Byte} (spells : Spells token text) (short : text.length < 12)
    (j' : Fin numOfDirentPerBlock) :
    (blk.setEntry j value token).entryAt j' = if j' = j then ⟨text, value⟩ else blk.entryAt j' := by
  rw [entryAt, entryInode_setEntry, setEntry]
  split_ifs with same
  · rw [same, nameOf_setName_self _ _ (spells_strncpy spells) le_rfl short]
  · rw [nameOf_setName_of_ne _ _ _ le_rfl same, nameOf_setEntryInode, entryAt]

theorem entryAt_clearEntry (blk : Block) (j j' : Fin numOfDirentPerBlock) :
    (blk.clearEntry j).entryAt j' = if j' = j then ⟨[], 0#32⟩ else blk.entryAt j' := by
  have empty : Spells (fun _ => 0#8) [] := ⟨by simp, fun _ _ => by simp⟩
  rw [entryAt, entryInode_clearEntry, clearEntry]
  split_ifs with same
  · rw [same, nameOf_setName_self _ _ empty (by omega) (by simp)]
  · rw [nameOf_setName_of_ne _ _ _ (by omega) same, nameOf_setEntryInode, entryAt]

end Block
end KwHomework
