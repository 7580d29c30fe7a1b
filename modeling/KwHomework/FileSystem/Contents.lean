import KwHomework.FileSystem.Frames

/-!
# The contents of a file

A file is the sequence of the blocks behind its pointers; a null pointer is a hole.  `WriteFile`
stores the blocks of the buffer that have the numbers of the pointers it goes through.
-/

namespace KwHomework

open Function FS

/-- Block `k` of a buffer. -/
def bufferBlock (pBuffer : Chunk) (k : Fin numOfDirectBlockPtr) : Block :=
  blockOf fun i => pBuffer (512 * k + i)

namespace Volume

/-- Block `k` of a file, unless it is a hole. -/
def content (v : Volume) (n : CInt) (k : Fin numOfDirectBlockPtr) : Option Block :=
  if v.ptr (n, k) = 0#32 then none else some (v.block (v.ptr (n, k)))

/-- Byte `i` of a file; what lies in a hole does not matter. -/
def fileByte (v : Volume) (n : CInt) (i : Nat) : Byte :=
  if bound : i / 512 < numOfDirectBlockPtr then
    (v.content n ⟨i / 512, bound⟩).elim 0#8 fun blk => blk.byteAt (i % 512)
  else
    0#8

variable {v v' : Volume} {n m : CInt}

theorem fileByte_eq {k : Fin numOfDirectBlockPtr} {blk : Block} (stored : v.content n k = some blk)
    {r : Nat} (inside : r < 512) : v.fileByte n (512 * k + r) = blk.byteAt r := by
  have quotient : (512 * (k : Nat) + r) / 512 = k := by omega
  have remainder : (512 * (k : Nat) + r) % 512 = r := by omega
  rw [fileByte, dif_pos (by rw [quotient]; exact k.isLt)]
  simp only [quotient, remainder, stored, Option.elim_some]

theorem content_of_holds {k : Fin numOfDirectBlockPtr} (holds : v.ptr (n, k) ≠ 0#32) :
    v.content n k = some (v.block (v.ptr (n, k))) := if_neg holds

theorem content_eq_none {k : Fin numOfDirectBlockPtr} :
    v.content n k = none ↔ v.ptr (n, k) = 0#32 := by
  rw [content]
  split_ifs with null <;> simp [null]

/-- A file that is left alone keeps its contents. -/
theorem SameFile.content (same : SameFile v v' m) : v'.content m = v.content m := by
  funext k
  by_cases null : v.ptr (m, k) = 0#32
  · rw [content_eq_none.mpr null, content_eq_none, same.ptr, null]
  · rw [content_of_holds null, content_of_holds (by rwa [same.ptr]), same.ptr, same.block k null]

theorem content_writeStep {acc : Volume × CInt} (blocks : acc.1.BlocksOwned) (pBuffer : Chunk)
    (k : Fin numOfDirectBlockPtr) : (writeStep n pBuffer acc k).1.content n =
      update (acc.1.content n) k (some (bufferBlock pBuffer k)) := by
  -- after the allocation, if there is one, the pointer leads to a block of its own
  suffices stored : ∀ u : Volume, u.ptr (n, k) ≠ 0#32 →
      (∀ l, u.ptr (n, l) = u.ptr (n, k) → l = k) →
      (∀ l, l ≠ k → u.content n l = acc.1.content n l) →
      (u.fill (u.ptr (n, k)) (bufferBlock pBuffer k)).content n =
        update (acc.1.content n) k (some (bufferBlock pBuffer k)) by
    rw [writeStep]
    split_ifs with null
    · obtain ⟨data, unused⟩ := blocks.freeBlockNum
      have ptr : ∀ l, (acc.1.assign n k acc.1.freeBlockNum).ptr (n, l) =
          if l = k then acc.1.freeBlockNum else acc.1.ptr (n, l) := by
        intro l
        rw [ptr_assign]
        by_cases same : l = k <;> simp [same]
      have nonnull : acc.1.freeBlockNum ≠ 0#32 := by
        intro zero
        rw [zero] at data
        exact zero_notMem_pool data
      refine stored _ (by rw [ptr, if_pos rfl]; exact nonnull) (fun l same => ?_) fun l other => ?_
      · by_contra other
        rw [ptr, ptr, if_pos rfl, if_neg other] at same
        exact blocks.owned.ptr_ne_of_unused data unused (n, l) same
      · rw [content, content, ptr, if_neg other]
        rfl
    · exact stored _ null (fun l same => (blocks.ptr_injective null same.symm).2.symm)
        fun _ _ => rfl
  intro u holds own others
  funext l
  by_cases same : l = k
  · rw [same, update_self, content_of_holds (by exact holds), ptr_fill, block_fill, update_self]
  · rw [update_of_ne same, ← others l same, content, content, ptr_fill, block_fill,
      update_of_ne fun equal => same (own l equal)]

/-- `WriteFile` stores the blocks of the buffer under their numbers. -/
theorem content_write (blocks : v.BlocksOwned) (valid : ValidInode n) (pBuffer : Chunk)
    (ks : List (Fin numOfDirectBlockPtr)) (l : Fin numOfDirectBlockPtr) :
    (v.write n pBuffer ks).1.content n l =
      if l ∈ ks then some (bufferBlock pBuffer l) else v.content n l := by
  suffices steps : ∀ acc : Volume × CInt, acc.1.BlocksOwned →
      (ks.foldl (writeStep n pBuffer) acc).1.content n l =
        if l ∈ ks then some (bufferBlock pBuffer l) else acc.1.content n l from steps
          (v, 0#32) blocks
  induction ks with
  | nil => exact fun acc _ => (if_neg (by simp)).symm
  | cons k ks induction =>
      intro acc blocks
      rw [List.foldl_cons, induction _ (blocks.writeStep valid pBuffer k), content_writeStep blocks]
      by_cases same : l = k
      · simp [same]
      · simp [same]

end Volume
end KwHomework
