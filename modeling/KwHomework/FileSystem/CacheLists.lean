import KwHomework.FileSystem.Buf
import Mathlib.Tactic.Simps.Basic

/-!
# The buffer cache on lists

The cache as four kinds of lists of buffers.  The operations below are total functions on these
lists; `Inv` is the representation invariant of the sixteen buffers together with the agreement of
clean buffers with the disk.  `logical` is the flat block store that a cache and its disk stand
for.
-/

namespace KwHomework

open Function

/-- The state list that a `state` field names. -/
def BufState.listNum : BufState → BufStateList
  | .clean => .cleanList
  | .dirty => .dirtyList

@[simp] theorem BufState.listNum_inj {s s' : BufState} : s.listNum = s'.listNum ↔ s = s' := by
  cases s <;> cases s' <;> simp [BufState.listNum]

/-- The hash list of a block number. -/
def hashSlot (blkno : CInt) : Fin maxBufListNum :=
  ⟨blkno.toNat % maxBufListNum, Nat.mod_lt _ (by decide)⟩

theorem hashIndex_eq {blkno : CInt} (nonneg : 0 ≤ blkno.toInt) :
    hashIndex blkno = some (hashSlot blkno) := by
  simp only [hashIndex, hashSlot, tmod_eq_mod nonneg]
  rw [dif_pos (Int.natCast_nonneg _)]
  simp only [Int.toNat_natCast]

/-- The buffers, the lists they are on and the disk. -/
structure CacheLists where
  /-- The sixteen buffers. -/
  buf : BufId → Buf
  /-- `bufList`. -/
  hash : Fin maxBufListNum → List BufId
  /-- `stateList`. -/
  states : BufStateList → List BufId
  /-- The LRU list, least recently used buffer first. -/
  lru : List BufId
  /-- The free list. -/
  free : List BufId
  /-- The disk. -/
  dev : Device

namespace CacheLists

/-- Replace the buffers. -/
@[simps -fullyApplied] def setBuf (l : CacheLists) (buf : BufId → Buf) : CacheLists :=
  { l with buf := buf }

/-- Replace the hash lists. -/
@[simps -fullyApplied] def setHash (l : CacheLists) (hash : Fin maxBufListNum → List BufId) :
    CacheLists :=
  { l with hash := hash }

/-- Replace the state lists. -/
@[simps -fullyApplied] def setStates (l : CacheLists) (states : BufStateList → List BufId) :
    CacheLists :=
  { l with states := states }

/-- Replace the LRU list. -/
@[simps -fullyApplied] def setLru (l : CacheLists) (lru : List BufId) : CacheLists :=
  { l with lru := lru }

/-- Replace the free list. -/
@[simps -fullyApplied] def setFree (l : CacheLists) (free : List BufId) : CacheLists :=
  { l with free := free }

/-- Replace the disk. -/
@[simps -fullyApplied] def setDev (l : CacheLists) (dev : Device) : CacheLists :=
  { l with dev := dev }

/-- The buffer that holds a block. -/
def find (l : CacheLists) (blkno : CInt) : Option BufId :=
  (l.hash (hashSlot blkno)).find? fun buf => (l.buf buf).blkno = blkno

/-- The flat block store a cache stands for. -/
def logical (l : CacheLists) (blkno : CInt) : Block :=
  match l.find blkno with
  | some buf => (l.buf buf).pMem
  | none => l.dev.blocks blkno

/-- Release the least recently used buffer, writing it back when it is dirty. -/
def evict (l : CacheLists) : CacheLists :=
  match l.lru with
  | [] => l
  | iter :: rest =>
      { l with
        lru := rest
        hash := update l.hash (hashSlot (l.buf iter).blkno)
          ((l.hash (hashSlot (l.buf iter).blkno)).erase iter)
        free := l.free ++ [iter]
        states := update l.states (l.buf iter).state.listNum
          ((l.states (l.buf iter).state.listNum).erase iter)
        dev := match (l.buf iter).state with
          | .clean => l.dev
          | .dirty => l.dev.devWriteBlock (l.buf iter).blkno (l.buf iter).pMem }

/-- Put new contents into a free buffer and enter it on the lists. -/
def fill (l : CacheLists) (buf : BufId) (fields : Buf) : CacheLists :=
  { l with
    buf := update l.buf buf fields
    free := l.free.erase buf
    hash := update l.hash (hashSlot fields.blkno) (buf :: l.hash (hashSlot fields.blkno))
    states := update l.states fields.state.listNum (l.states fields.state.listNum ++ [buf])
    lru := l.lru ++ [buf] }

/-- Move a buffer to the most recently used end. -/
def touch (l : CacheLists) (buf : BufId) : CacheLists :=
  { l with lru := l.lru.erase buf ++ [buf] }

/-- Move a buffer to the tail of another state list, recording the new state. -/
def mark (l : CacheLists) (buf : BufId) (fields : Buf) : CacheLists :=
  { l with
    buf := update l.buf buf fields
    states :=
      let erased := update l.states (l.buf buf).state.listNum
        ((l.states (l.buf buf).state.listNum).erase buf)
      update erased fields.state.listNum (erased fields.state.listNum ++ [buf]) }

/-- Make room when no buffer is free. -/
def makeRoom (l : CacheLists) : CacheLists :=
  if l.free = [] then l.evict else l

/-- Overwrite the contents of a buffer. -/
def overwrite (l : CacheLists) (buf : BufId) (pData : Block) : CacheLists :=
  { l with buf := update l.buf buf { l.buf buf with pMem := pData } }

/-- Read a block from the disk. -/
def load (l : CacheLists) (blkno : CInt) : Block × CacheLists :=
  ((l.dev.devReadBlock blkno).1, { l with dev := (l.dev.devReadBlock blkno).2 })

/-- `BufRead` on lists. -/
def read (l : CacheLists) (blkno : CInt) : Block × CacheLists :=
  match l.find blkno with
  | some buf => ((l.buf buf).pMem, l.touch buf)
  | none =>
      let (pMem, l) := l.makeRoom.load blkno
      match l.free with
      | [] => (pMem, l)
      | buf :: _ => (pMem, l.fill buf ⟨blkno, .clean, pMem⟩)

/-- `BufWrite` on lists. -/
def write (l : CacheLists) (blkno : CInt) (pData : Block) : CacheLists :=
  match l.find blkno with
  | some buf =>
      match (l.buf buf).state with
      | .clean => (l.mark buf ⟨(l.buf buf).blkno, .dirty, pData⟩).touch buf
      | .dirty => (l.overwrite buf pData).touch buf
  | none =>
      let l := l.makeRoom
      match l.free with
      | [] => l
      | buf :: _ => l.fill buf ⟨blkno, .dirty, pData⟩

/-- Write the contents of a buffer to the disk. -/
def flush (l : CacheLists) (buf : BufId) : CacheLists :=
  { l with dev := l.dev.devWriteBlock (l.buf buf).blkno (l.buf buf).pMem }

/-- Write a dirty buffer back and mark it clean. -/
def writeBack (l : CacheLists) (buf : BufId) : CacheLists :=
  (l.flush buf).mark buf ⟨(l.buf buf).blkno, .clean, (l.buf buf).pMem⟩

/-- `BufSync` on lists. -/
def sync (l : CacheLists) : CacheLists :=
  (l.states .dirtyList).foldl writeBack l

/-- `BufSyncBlock` on lists, for a cached block. -/
def syncBlock (l : CacheLists) (blkno : CInt) : CacheLists :=
  match l.find blkno with
  | none => l
  | some buf =>
      match (l.buf buf).state with
      | .clean => l
      | .dirty => l.writeBack buf

/-- Every buffer is free or else on the LRU list, on the hash list of its block and on the state
list of its state; cached blocks are distinct, and clean buffers agree with the disk. -/
structure Inv (l : CacheLists) : Prop where
  free_nodup : l.free.Nodup
  lru_nodup : l.lru.Nodup
  hash_nodup : ∀ h, (l.hash h).Nodup
  states_nodup : ∀ s, (l.states s).Nodup
  free_iff : ∀ buf, buf ∈ l.free ↔ buf ∉ l.lru
  hash_iff : ∀ h buf, buf ∈ l.hash h ↔ buf ∈ l.lru ∧ hashSlot (l.buf buf).blkno = h
  states_iff : ∀ s buf, buf ∈ l.states s ↔ buf ∈ l.lru ∧ (l.buf buf).state.listNum = s
  nonneg : ∀ buf ∈ l.lru, 0 ≤ (l.buf buf).blkno.toInt
  distinct : ∀ buf ∈ l.lru, ∀ buf' ∈ l.lru, (l.buf buf).blkno = (l.buf buf').blkno → buf = buf'
  coherent : ∀ buf ∈ l.lru, (l.buf buf).state = .clean →
    (l.buf buf).pMem = l.dev.blocks (l.buf buf).blkno

namespace Inv

variable {l : CacheLists}

/-- A block is found exactly in the buffer in use that holds it. -/
theorem find_eq_some_iff (inv : l.Inv) {blkno : CInt} {buf : BufId} :
    l.find blkno = some buf ↔ buf ∈ l.lru ∧ (l.buf buf).blkno = blkno := by
  constructor
  · intro found
    have holds : (l.buf buf).blkno = blkno := by simpa using List.find?_some found
    exact ⟨((inv.hash_iff _ _).mp (List.mem_of_find?_eq_some found)).1, holds⟩
  · rintro ⟨member, rfl⟩
    have listed : buf ∈ l.hash (hashSlot (l.buf buf).blkno) :=
      (inv.hash_iff _ _).mpr ⟨member, rfl⟩
    cases found : l.find (l.buf buf).blkno with
    | none => simpa using List.find?_eq_none.mp found buf listed
    | some other =>
        have same : (l.buf other).blkno = (l.buf buf).blkno := by
          simpa using List.find?_some found
        have other_mem := ((inv.hash_iff _ _).mp (List.mem_of_find?_eq_some found)).1
        rw [inv.distinct other other_mem buf member same]

theorem find_eq_none_iff (inv : l.Inv) {blkno : CInt} :
    l.find blkno = none ↔ ∀ buf ∈ l.lru, (l.buf buf).blkno ≠ blkno := by
  rw [Option.eq_none_iff_forall_ne_some]
  simp only [ne_eq, inv.find_eq_some_iff, not_and]

theorem logical_of_mem (inv : l.Inv) {buf : BufId} (member : buf ∈ l.lru) :
    l.logical (l.buf buf).blkno = (l.buf buf).pMem := by
  rw [logical, inv.find_eq_some_iff.mpr ⟨member, rfl⟩]

theorem logical_of_uncached (inv : l.Inv) {blkno : CInt}
    (uncached : ∀ buf ∈ l.lru, (l.buf buf).blkno ≠ blkno) :
    l.logical blkno = l.dev.blocks blkno := by
  rw [logical, inv.find_eq_none_iff.mpr uncached]

/-- Two views of a cache agree on the flat store when the disk agrees on uncached blocks and the
buffers on cached ones. -/
theorem logical_congr {l' : CacheLists} (inv' : l'.Inv)
    (cached : ∀ buf ∈ l'.lru, l.logical (l'.buf buf).blkno = (l'.buf buf).pMem)
    (uncached : ∀ blkno, (∀ buf ∈ l'.lru, (l'.buf buf).blkno ≠ blkno) →
      l.logical blkno = l'.dev.blocks blkno) : l'.logical = l.logical := by
  funext blkno
  by_cases held : ∃ buf ∈ l'.lru, (l'.buf buf).blkno = blkno
  · obtain ⟨buf, member, rfl⟩ := held
    rw [inv'.logical_of_mem member, cached buf member]
  · have missing : ∀ buf ∈ l'.lru, (l'.buf buf).blkno ≠ blkno := by simpa using held
    rw [inv'.logical_of_uncached missing, uncached blkno missing]

theorem evict (inv : l.Inv) : l.evict.Inv := by
  cases nodes : l.lru with
  | nil => simpa [CacheLists.evict, nodes] using inv
  | cons iter rest =>
      have iter_notin : iter ∉ rest := (List.nodup_cons.mp (nodes ▸ inv.lru_nodup)).1
      have iter_mem : iter ∈ l.lru := by simp [nodes]
      have iter_not_free : iter ∉ l.free := fun free => (inv.free_iff iter).mp free iter_mem
      have rest_iff : ∀ buf, buf ∈ rest ↔ buf ∈ l.lru ∧ buf ≠ iter := by
        intro buf
        rw [nodes, List.mem_cons]
        grind
      simp only [CacheLists.evict, nodes]
      refine ⟨?_, ?_, ?_, ?_, ?_, ?_, ?_, ?_, ?_, ?_⟩
      · rw [List.nodup_append]
        refine ⟨inv.free_nodup, List.nodup_singleton iter, ?_⟩
        intro buf free last last_mem same
        rw [List.mem_singleton.mp last_mem] at same
        exact iter_not_free (same ▸ free)
      · exact (List.nodup_cons.mp (nodes ▸ inv.lru_nodup)).2
      · intro h
        simp only [update_apply]
        split
        · exact (inv.hash_nodup _).erase _
        · exact inv.hash_nodup h
      · intro s
        simp only [update_apply]
        split
        · exact (inv.states_nodup _).erase _
        · exact inv.states_nodup s
      · intro buf
        simp only [List.mem_append, List.mem_singleton, inv.free_iff, rest_iff]
        tauto
      · intro h buf
        simp only [update_apply]
        split
        · rename_i same
          rw [(inv.hash_nodup _).mem_erase_iff, inv.hash_iff, rest_iff, same]
          tauto
        · rw [inv.hash_iff, rest_iff]
          grind
      · intro s buf
        simp only [update_apply]
        split
        · rename_i same
          rw [(inv.states_nodup _).mem_erase_iff, inv.states_iff, rest_iff, same]
          tauto
        · rw [inv.states_iff, rest_iff]
          grind
      · intro buf member
        exact inv.nonneg buf ((rest_iff buf).mp member).1
      · intro buf member buf' member'
        exact inv.distinct buf ((rest_iff buf).mp member).1 buf' ((rest_iff buf').mp member').1
      · intro buf member clean
        obtain ⟨used, ne⟩ := (rest_iff buf).mp member
        have disk := inv.coherent buf used clean
        have apart : (l.buf buf).blkno ≠ (l.buf iter).blkno := fun same =>
          ne (inv.distinct buf used iter iter_mem same)
        cases (l.buf iter).state with
        | clean => exact disk
        | dirty => rwa [Device.blocks_devWriteBlock, update_of_ne apart]

/-- Evicting leaves the flat store as it was: a dirty block reaches the disk first. -/
theorem logical_evict (inv : l.Inv) : l.evict.logical = l.logical := by
  cases nodes : l.lru with
  | nil => simp [CacheLists.evict, nodes]
  | cons iter rest =>
      have inv' := inv.evict
      have iter_mem : iter ∈ l.lru := by simp [nodes]
      have rest_mem : ∀ buf ∈ l.evict.lru, buf ∈ l.lru := by
        simp only [CacheLists.evict, nodes]
        exact fun buf member => List.mem_cons_of_mem iter member
      have same_buf : l.evict.buf = l.buf := by simp [CacheLists.evict, nodes]
      refine inv'.logical_congr ?_ ?_
      · intro buf member
        rw [same_buf]
        exact inv.logical_of_mem (rest_mem buf member)
      · intro blkno missing
        have missing' : ∀ buf ∈ rest, (l.buf buf).blkno ≠ blkno := by
          simpa [CacheLists.evict, nodes] using missing
        by_cases evicted : (l.buf iter).blkno = blkno
        · subst evicted
          rw [inv.logical_of_mem iter_mem]
          simp only [CacheLists.evict, nodes]
          cases state : (l.buf iter).state with
          | clean => exact inv.coherent iter iter_mem state
          | dirty => simp
        · have uncached : ∀ buf ∈ l.lru, (l.buf buf).blkno ≠ blkno := by
            rw [nodes]
            simpa using ⟨evicted, missing'⟩
          rw [inv.logical_of_uncached uncached]
          simp only [CacheLists.evict, nodes]
          cases (l.buf iter).state with
          | clean => rfl
          | dirty => rw [Device.blocks_devWriteBlock, update_of_ne (Ne.symm evicted)]

/-- After making room some buffer is free. -/
theorem makeRoom_free_ne_nil (inv : l.Inv) : l.makeRoom.free ≠ [] := by
  rw [makeRoom]
  split
  · rename_i full
    cases nodes : l.lru with
    | nil =>
        have free := (inv.free_iff 0).mpr (by simp [nodes])
        simp [full] at free
    | cons iter rest => simp [CacheLists.evict, nodes]
  · assumption

theorem makeRoom (inv : l.Inv) : l.makeRoom.Inv := by
  rw [CacheLists.makeRoom]
  split
  · exact inv.evict
  · exact inv

private theorem logical_makeRoom (inv : l.Inv) : l.makeRoom.logical = l.logical := by
  rw [CacheLists.makeRoom]
  split
  · exact inv.logical_evict
  · rfl

/-- Making room caches no new block. -/
theorem makeRoom_uncached {blkno : CInt} (missing : ∀ buf ∈ l.lru, (l.buf buf).blkno ≠ blkno) :
    ∀ buf ∈ l.makeRoom.lru, (l.makeRoom.buf buf).blkno ≠ blkno := by
  rw [CacheLists.makeRoom]
  split
  · cases nodes : l.lru with
    | nil => simp [CacheLists.evict, nodes]
    | cons iter rest =>
        simp only [CacheLists.evict, nodes]
        exact fun buf member => missing buf (by simp [nodes, member])
  · exact missing

/-- The fields of an unused buffer cache no block. -/
theorem uncached_update {buf : BufId} {blkno : CInt}
    (missing : ∀ other ∈ l.lru, (l.buf other).blkno ≠ blkno) (unused : buf ∉ l.lru) (fields : Buf) :
    ∀ other ∈ l.lru, (update l.buf buf fields other).blkno ≠ blkno := by
  intro other used
  rw [update_of_ne (ne_of_mem_of_not_mem used unused)]
  exact missing other used

/-- An unused buffer is on no hash list. -/
theorem unhashed (inv : l.Inv) {buf : BufId} (unused : buf ∉ l.lru) : ∀ h, buf ∉ l.hash h :=
  fun h member => unused ((inv.hash_iff h buf).mp member).1

/-- An unused buffer is on no state list. -/
theorem unlisted (inv : l.Inv) {buf : BufId} (unused : buf ∉ l.lru) : ∀ s, buf ∉ l.states s :=
  fun s member => unused ((inv.states_iff s buf).mp member).1

/-- Filling a free buffer with a block that is not cached keeps the invariant. -/
theorem fill (inv : l.Inv) {buf : BufId} (fields : Buf) (free : buf ∈ l.free)
    (nonneg : 0 ≤ fields.blkno.toInt)
    (missing : ∀ other ∈ l.lru, (l.buf other).blkno ≠ fields.blkno)
    (coherent : fields.state = .clean → fields.pMem = l.dev.blocks fields.blkno) :
    (l.fill buf fields).Inv := by
  have unused : buf ∉ l.lru := (inv.free_iff buf).mp free
  have used_ne : ∀ other ∈ l.lru, other ≠ buf := fun other member same =>
    unused (same ▸ member)
  refine ⟨?_, ?_, ?_, ?_, ?_, ?_, ?_, ?_, ?_, ?_⟩
  · exact inv.free_nodup.erase buf
  · simpa [CacheLists.fill, List.nodup_append] using ⟨inv.lru_nodup, used_ne⟩
  · intro h
    simp only [CacheLists.fill, update_apply]
    split
    · exact List.nodup_cons.mpr ⟨inv.unhashed unused _, inv.hash_nodup _⟩
    · exact inv.hash_nodup h
  · intro s
    simp only [CacheLists.fill, update_apply]
    split
    · simpa [List.nodup_append] using ⟨inv.states_nodup _, fun other member =>
        ne_of_mem_of_not_mem member (inv.unlisted unused _)⟩
    · exact inv.states_nodup s
  · intro other
    simp only [CacheLists.fill, inv.free_nodup.mem_erase_iff, inv.free_iff, List.mem_append,
      List.mem_singleton]
    tauto
  · intro h other
    simp only [CacheLists.fill, List.mem_append, List.mem_singleton]
    by_cases same : other = buf
    · subst same
      simp only [update_self, update_apply]
      split <;> grind [inv.hash_iff]
    · simp only [update_apply, same, ite_false, or_false]
      split <;> grind [inv.hash_iff]
  · intro s other
    simp only [CacheLists.fill, List.mem_append, List.mem_singleton]
    by_cases same : other = buf
    · subst same
      simp only [update_self, update_apply]
      split <;> grind [inv.states_iff]
    · simp only [update_apply, same, ite_false, or_false]
      split <;> grind [inv.states_iff]
  · intro other member
    simp only [CacheLists.fill, List.mem_append, List.mem_singleton] at member ⊢
    rcases member with used | rfl
    · simpa [update_of_ne (used_ne other used)] using inv.nonneg other used
    · simpa using nonneg
  · intro other member other' member' same
    simp only [CacheLists.fill, List.mem_append, List.mem_singleton] at member member' same
    have := inv.distinct other
    grind [update_apply]
  · intro other member clean
    simp only [CacheLists.fill, List.mem_append, List.mem_singleton] at member clean ⊢
    rcases member with used | rfl
    · rw [update_of_ne (used_ne other used)] at clean ⊢
      exact inv.coherent other used clean
    · rw [update_self] at clean ⊢
      exact coherent clean

theorem logical_fill (inv : l.Inv) {buf : BufId} (fields : Buf) (free : buf ∈ l.free)
    (nonneg : 0 ≤ fields.blkno.toInt)
    (missing : ∀ other ∈ l.lru, (l.buf other).blkno ≠ fields.blkno)
    (coherent : fields.state = .clean → fields.pMem = l.dev.blocks fields.blkno) :
    (l.fill buf fields).logical = update l.logical fields.blkno fields.pMem := by
  have inv' := inv.fill fields free nonneg missing coherent
  have unused : buf ∉ l.lru := (inv.free_iff buf).mp free
  funext blkno
  by_cases held : ∃ other ∈ (l.fill buf fields).lru,
      ((l.fill buf fields).buf other).blkno = blkno
  · obtain ⟨other, member, rfl⟩ := held
    rw [inv'.logical_of_mem member]
    simp only [CacheLists.fill, List.mem_append, List.mem_singleton] at member ⊢
    rcases member with used | rfl
    · have ne : other ≠ buf := fun same => unused (same ▸ used)
      rw [update_of_ne ne, update_of_ne (missing other used), inv.logical_of_mem used]
    · simp
  · have absent : ∀ other ∈ (l.fill buf fields).lru,
        ((l.fill buf fields).buf other).blkno ≠ blkno := by simpa using held
    rw [inv'.logical_of_uncached absent]
    have ne : blkno ≠ fields.blkno := fun same =>
      absent buf (by simp [CacheLists.fill]) (by simp [CacheLists.fill, same])
    have uncached : ∀ other ∈ l.lru, (l.buf other).blkno ≠ blkno := by
      intro other used same
      have other_ne : other ≠ buf := fun eq => unused (eq ▸ used)
      exact absent other (by simp [CacheLists.fill, used])
        (by simpa [CacheLists.fill, update_of_ne other_ne] using same)
    rw [update_of_ne ne, inv.logical_of_uncached uncached]
    rfl

theorem mem_touch {buf other : BufId} (member : buf ∈ l.lru) :
    other ∈ (l.touch buf).lru ↔ other ∈ l.lru := by
  simp only [CacheLists.touch]
  exact (List.perm_cons_append_cons buf (List.Perm.refl _)).mem_iff.symm.trans
    (by simpa using (List.perm_cons_erase member).mem_iff.symm)

theorem touch (inv : l.Inv) {buf : BufId} (member : buf ∈ l.lru) : (l.touch buf).Inv where
  free_nodup := inv.free_nodup
  lru_nodup := by
    simp only [CacheLists.touch]
    rw [List.nodup_append]
    refine ⟨inv.lru_nodup.erase buf, List.nodup_singleton buf, ?_⟩
    intro other erased last last_mem
    rw [List.mem_singleton.mp last_mem]
    exact (inv.lru_nodup.mem_erase_iff.mp erased).1
  hash_nodup := inv.hash_nodup
  states_nodup := inv.states_nodup
  free_iff other := by rw [mem_touch member]; exact inv.free_iff other
  hash_iff h other := by rw [mem_touch member]; exact inv.hash_iff h other
  states_iff s other := by rw [mem_touch member]; exact inv.states_iff s other
  nonneg other used := inv.nonneg other ((mem_touch member).mp used)
  distinct other used other' used' :=
    inv.distinct other ((mem_touch member).mp used) other' ((mem_touch member).mp used')
  coherent other used := inv.coherent other ((mem_touch member).mp used)

/-- Overwriting the contents and the state of a buffer in use keeps the invariant. -/
theorem mark (inv : l.Inv) {buf : BufId} (fields : Buf) (member : buf ∈ l.lru)
    (same_blkno : fields.blkno = (l.buf buf).blkno)
    (coherent : fields.state = .clean → fields.pMem = l.dev.blocks fields.blkno) :
    (l.mark buf fields).Inv := by
  have blkno_eq : ∀ other, (update l.buf buf fields other).blkno = (l.buf other).blkno := by
    intro other
    by_cases same : other = buf
    · subst same
      rw [update_self, same_blkno]
    · rw [update_of_ne same]
  have erased_iff : ∀ s other,
      other ∈ update l.states (l.buf buf).state.listNum
          ((l.states (l.buf buf).state.listNum).erase buf) s ↔
        (other ∈ l.lru ∧ (l.buf other).state.listNum = s) ∧ other ≠ buf := by
    intro s other
    rw [update_apply]
    split
    · rename_i same
      rw [(inv.states_nodup _).mem_erase_iff, inv.states_iff, same, and_comm]
    · rename_i ne
      rw [inv.states_iff]
      refine ⟨fun listed => ⟨listed, ?_⟩, fun listed => listed.1⟩
      rintro rfl
      exact ne listed.2.symm
  have erased_nodup : ∀ s, (update l.states (l.buf buf).state.listNum
      ((l.states (l.buf buf).state.listNum).erase buf) s).Nodup := by
    intro s
    rw [update_apply]
    split
    · exact (inv.states_nodup _).erase buf
    · exact inv.states_nodup s
  refine ⟨inv.free_nodup, inv.lru_nodup, inv.hash_nodup, ?_, inv.free_iff, ?_, ?_, ?_, ?_, ?_⟩
  · intro s
    simp only [CacheLists.mark]
    rw [update_apply _ _ _ s]
    split
    · rw [List.nodup_append]
      refine ⟨erased_nodup _, List.nodup_singleton buf, ?_⟩
      intro other erased last last_mem
      rw [List.mem_singleton.mp last_mem]
      exact ((erased_iff _ _).mp erased).2
    · exact erased_nodup s
  · intro h other
    simp only [CacheLists.mark, blkno_eq]
    exact inv.hash_iff h other
  · intro s other
    simp only [CacheLists.mark]
    rw [update_apply _ _ _ s]
    by_cases same : other = buf
    · subst same
      rw [update_self]
      split
      · rename_i eq
        simpa [eq] using member
      · rename_i ne
        rw [erased_iff]
        tauto
    · rw [update_of_ne same]
      split
      · rename_i eq
        rw [List.mem_append, erased_iff, List.mem_singleton, eq]
        tauto
      · rw [erased_iff]
        tauto
  · intro other used
    simp only [CacheLists.mark, blkno_eq]
    exact inv.nonneg other used
  · intro other used other' used' same
    simp only [CacheLists.mark, blkno_eq] at same
    exact inv.distinct other used other' used' same
  · intro other used
    by_cases same : other = buf
    · subst same
      simpa [CacheLists.mark] using coherent
    · simpa [CacheLists.mark, update_of_ne same] using inv.coherent other used

theorem logical_update_buf (inv : l.Inv) {l' : CacheLists} (inv' : l'.Inv) {buf : BufId}
    (fields : Buf) (member : buf ∈ l.lru) (same_blkno : fields.blkno = (l.buf buf).blkno)
    (buf_eq : l'.buf = update l.buf buf fields) (lru_eq : l'.lru = l.lru)
    (dev_eq : l'.dev = l.dev) :
    l'.logical = update l.logical (l.buf buf).blkno fields.pMem := by
  have blkno_eq : ∀ other, (l'.buf other).blkno = (l.buf other).blkno := by
    intro other
    by_cases same : other = buf
    · subst same
      rw [buf_eq, update_self, same_blkno]
    · rw [buf_eq, update_of_ne same]
  funext blkno
  by_cases held : ∃ other ∈ l.lru, (l.buf other).blkno = blkno
  · obtain ⟨other, used, rfl⟩ := held
    rw [← blkno_eq other, inv'.logical_of_mem (lru_eq ▸ used), buf_eq]
    by_cases same : other = buf
    · subst same
      simp [same_blkno]
    · have apart : (l.buf other).blkno ≠ (l.buf buf).blkno := fun eq =>
        same (inv.distinct other used buf member eq)
      rw [update_of_ne same, update_of_ne apart, inv.logical_of_mem used]
  · have missing : ∀ other ∈ l.lru, (l.buf other).blkno ≠ blkno := by simpa using held
    have missing' : ∀ other ∈ l'.lru, (l'.buf other).blkno ≠ blkno := by
      rw [lru_eq]
      simpa only [blkno_eq] using missing
    rw [inv'.logical_of_uncached missing', dev_eq,
      update_of_ne (Ne.symm (missing buf member)), inv.logical_of_uncached missing]

private theorem logical_mark (inv : l.Inv) {buf : BufId} (fields : Buf) (member : buf ∈ l.lru)
    (same_blkno : fields.blkno = (l.buf buf).blkno)
    (coherent : fields.state = .clean → fields.pMem = l.dev.blocks fields.blkno) :
    (l.mark buf fields).logical = update l.logical (l.buf buf).blkno fields.pMem :=
  inv.logical_update_buf (inv.mark fields member same_blkno coherent) fields member same_blkno rfl
    rfl rfl

/-- Overwriting the contents of a dirty buffer keeps the invariant. -/
theorem overwrite (inv : l.Inv) {buf : BufId} (pData : Block)
    (dirty : (l.buf buf).state = .dirty) : (l.overwrite buf pData).Inv := by
  have blkno_eq : ∀ other, ((l.overwrite buf pData).buf other).blkno = (l.buf other).blkno := by
    intro other
    by_cases same : other = buf <;> simp [CacheLists.overwrite, same]
  have state_eq : ∀ other, ((l.overwrite buf pData).buf other).state = (l.buf other).state := by
    intro other
    by_cases same : other = buf <;> simp [CacheLists.overwrite, same]
  refine ⟨inv.free_nodup, inv.lru_nodup, inv.hash_nodup, inv.states_nodup, inv.free_iff, ?_, ?_,
    ?_, ?_, ?_⟩
  · intro h other
    rw [blkno_eq]
    exact inv.hash_iff h other
  · intro s other
    rw [state_eq]
    exact inv.states_iff s other
  · intro other used
    rw [blkno_eq]
    exact inv.nonneg other used
  · intro other used other' used' same
    rw [blkno_eq, blkno_eq] at same
    exact inv.distinct other used other' used' same
  · intro other used clean
    rw [state_eq] at clean
    have same : other ≠ buf := by
      rintro rfl
      simp [dirty] at clean
    simpa [CacheLists.overwrite, update_of_ne same] using inv.coherent other used clean

theorem flush (inv : l.Inv) {buf : BufId} (member : buf ∈ l.lru) : (l.flush buf).Inv := by
  refine ⟨inv.free_nodup, inv.lru_nodup, inv.hash_nodup, inv.states_nodup, inv.free_iff,
    inv.hash_iff, inv.states_iff, inv.nonneg, inv.distinct, ?_⟩
  intro other used clean
  by_cases same : other = buf
  · subst same
    simp [CacheLists.flush]
  · have apart : (l.buf other).blkno ≠ (l.buf buf).blkno := fun eq =>
      same (inv.distinct other used buf member eq)
    simpa [CacheLists.flush, update_of_ne apart] using inv.coherent other used clean

private theorem logical_flush (inv : l.Inv) {buf : BufId} (member : buf ∈ l.lru) :
    (l.flush buf).logical = l.logical := by
  refine (inv.flush member).logical_congr ?_ ?_
  · exact fun other used => inv.logical_of_mem used
  · intro blkno missing
    rw [inv.logical_of_uncached missing]
    exact (update_of_ne (Ne.symm (missing buf member)) _ _).symm

/-- Writing a buffer back keeps the invariant. -/
theorem writeBack (inv : l.Inv) {buf : BufId} (member : buf ∈ l.lru) : (l.writeBack buf).Inv :=
  (inv.flush member).mark _ member rfl (by simp [CacheLists.flush])

theorem logical_writeBack (inv : l.Inv) {buf : BufId} (member : buf ∈ l.lru) :
    (l.writeBack buf).logical = l.logical := by
  rw [CacheLists.writeBack,
    (inv.flush member).logical_mark ⟨(l.buf buf).blkno, .clean, (l.buf buf).pMem⟩ member rfl
      (by simp [CacheLists.flush]),
    inv.logical_flush member, ← inv.logical_of_mem member]
  exact update_eq_self _ _

/-- Reading the disk changes no block of it. -/
theorem load (inv : l.Inv) (blkno : CInt) : (l.load blkno).2.Inv :=
  ⟨inv.free_nodup, inv.lru_nodup, inv.hash_nodup, inv.states_nodup, inv.free_iff, inv.hash_iff,
    inv.states_iff, inv.nonneg, inv.distinct, inv.coherent⟩

/-- A read finds the block in a buffer in use, or loads it into the first free buffer. -/
theorem read_cases (inv : l.Inv) (blkno : CInt) :
    (∃ buf ∈ l.lru, (l.buf buf).blkno = blkno ∧ l.find blkno = some buf ∧
      l.read blkno = ((l.buf buf).pMem, l.touch buf)) ∨
    ∃ buf rest, l.find blkno = none ∧ l.makeRoom.free = buf :: rest ∧
      l.read blkno = ((l.makeRoom.load blkno).1,
        (l.makeRoom.load blkno).2.fill buf ⟨blkno, .clean, (l.makeRoom.load blkno).1⟩) := by
  cases found : l.find blkno with
  | some buf =>
      obtain ⟨member, holds⟩ := inv.find_eq_some_iff.mp found
      exact Or.inl ⟨buf, member, holds, rfl, by simp [CacheLists.read, found]⟩
  | none =>
      obtain ⟨buf, rest, free⟩ := List.exists_cons_of_ne_nil inv.makeRoom_free_ne_nil
      have loaded : (l.makeRoom.load blkno).2.free = buf :: rest := free
      exact Or.inr ⟨buf, rest, rfl, free, by simp [CacheLists.read, found, loaded]⟩

/-- A write changes the buffer that holds the block, or fills the first free buffer. -/
theorem write_cases (inv : l.Inv) (blkno : CInt) (pData : Block) :
    (∃ buf ∈ l.lru, (l.buf buf).blkno = blkno ∧ l.find blkno = some buf ∧
      ((l.buf buf).state = .clean ∧
          l.write blkno pData = (l.mark buf ⟨blkno, .dirty, pData⟩).touch buf ∨
        (l.buf buf).state = .dirty ∧ l.write blkno pData = (l.overwrite buf pData).touch buf)) ∨
    ∃ buf rest, l.find blkno = none ∧ l.makeRoom.free = buf :: rest ∧
      l.write blkno pData = l.makeRoom.fill buf ⟨blkno, .dirty, pData⟩ := by
  cases found : l.find blkno with
  | some buf =>
      obtain ⟨member, rfl⟩ := inv.find_eq_some_iff.mp found
      refine Or.inl ⟨buf, member, rfl, rfl, ?_⟩
      cases state : (l.buf buf).state with
      | clean => exact Or.inl ⟨rfl, by simp [CacheLists.write, found, state]⟩
      | dirty => exact Or.inr ⟨rfl, by simp [CacheLists.write, found, state]⟩
  | none =>
      obtain ⟨buf, rest, free⟩ := List.exists_cons_of_ne_nil inv.makeRoom_free_ne_nil
      exact Or.inr ⟨buf, rest, rfl, free, by simp [CacheLists.write, found, free]⟩

/-- A read keeps the invariant, returns the block of the flat store and leaves the store as it
was. -/
theorem read (inv : l.Inv) {blkno : CInt} (nonneg : 0 ≤ blkno.toInt) :
    (l.read blkno).2.Inv ∧ (l.read blkno).1 = l.logical blkno ∧
      (l.read blkno).2.logical = l.logical := by
  rcases inv.read_cases blkno with ⟨buf, member, rfl, _, read⟩ | ⟨buf, rest, found, free, read⟩
  · rw [read]
    exact ⟨inv.touch member, (inv.logical_of_mem member).symm, rfl⟩
  · have room := inv.makeRoom
    have missing := makeRoom_uncached (inv.find_eq_none_iff.mp found)
    have loaded := room.load blkno
    have disk : (l.makeRoom.load blkno).1 = l.logical blkno := by
      rw [← inv.logical_makeRoom, room.logical_of_uncached missing]
      rfl
    have store : (l.makeRoom.load blkno).2.logical = l.logical := inv.logical_makeRoom
    have buf_free : buf ∈ (l.makeRoom.load blkno).2.free :=
      List.mem_of_mem_head? (congrArg List.head? free)
    rw [read]
    refine ⟨loaded.fill _ buf_free nonneg missing fun _ => rfl, disk, ?_⟩
    rw [loaded.logical_fill ⟨blkno, .clean, (l.makeRoom.load blkno).1⟩ buf_free nonneg
      missing fun _ => rfl, store, disk]
    exact update_eq_self _ _

/-- A write keeps the invariant and overrides one block of the flat store. -/
theorem write (inv : l.Inv) {blkno : CInt} (nonneg : 0 ≤ blkno.toInt) (pData : Block) :
    (l.write blkno pData).Inv ∧
      (l.write blkno pData).logical = update l.logical blkno pData := by
  rcases inv.write_cases blkno pData with ⟨buf, member, rfl, _, ⟨_, write⟩ | ⟨state, write⟩⟩ |
    ⟨buf, rest, found, free, write⟩
  · have marked := inv.mark ⟨(l.buf buf).blkno, .dirty, pData⟩ member rfl (by simp)
    rw [write]
    exact ⟨marked.touch member, inv.logical_mark ⟨(l.buf buf).blkno, .dirty, pData⟩ member rfl
      (by simp)⟩
  · have overwritten := inv.overwrite pData state
    rw [write]
    exact ⟨overwritten.touch member,
      inv.logical_update_buf overwritten ⟨(l.buf buf).blkno, (l.buf buf).state, pData⟩ member
        rfl rfl rfl rfl⟩
  · have room := inv.makeRoom
    have missing := makeRoom_uncached (inv.find_eq_none_iff.mp found)
    have buf_free : buf ∈ l.makeRoom.free := by simp [free]
    rw [write]
    refine ⟨room.fill _ buf_free nonneg missing (by simp), ?_⟩
    rw [room.logical_fill _ buf_free nonneg missing (by simp), inv.logical_makeRoom]

/-- Writing a list of buffers back marks exactly these buffers clean. -/
theorem foldl_writeBack : ∀ {bufs : List BufId} {l : CacheLists}, l.Inv →
    (∀ buf ∈ bufs, buf ∈ l.lru) →
    (bufs.foldl CacheLists.writeBack l).Inv ∧
      (bufs.foldl CacheLists.writeBack l).logical = l.logical ∧
      (bufs.foldl CacheLists.writeBack l).lru = l.lru ∧
      ∀ buf, ((bufs.foldl CacheLists.writeBack l).buf buf).state =
        if buf ∈ bufs then .clean else (l.buf buf).state
  | [], l, inv, _ => by simpa using inv
  | head :: bufs, l, inv, used => by
      have head_used : head ∈ l.lru := used head (by simp)
      obtain ⟨inv', store, lru, states⟩ := foldl_writeBack (inv.writeBack head_used)
        fun buf member => used buf (List.mem_cons_of_mem head member)
      refine ⟨inv', store.trans (inv.logical_writeBack head_used), lru, fun buf => ?_⟩
      rw [List.foldl_cons, states buf]
      by_cases same : buf = head
      · subst same
        simp [CacheLists.writeBack, CacheLists.mark]
      · simp [CacheLists.writeBack, CacheLists.mark, CacheLists.flush, same]

/-- `BufSync` keeps the invariant and the flat store. -/
theorem sync (inv : l.Inv) : l.sync.Inv ∧ l.sync.logical = l.logical := by
  obtain ⟨inv', store, _, _⟩ := foldl_writeBack inv
    fun buf (member : buf ∈ l.states .dirtyList) => ((inv.states_iff _ _).mp member).1
  exact ⟨inv', store⟩

/-- After `BufSync` the disk holds the flat store. -/
theorem blocks_sync (inv : l.Inv) : l.sync.dev.blocks = l.logical := by
  obtain ⟨inv', store, lru, states⟩ := foldl_writeBack inv
    fun buf (member : buf ∈ l.states .dirtyList) => ((inv.states_iff _ _).mp member).1
  rw [← store]
  funext blkno
  change l.sync.dev.blocks blkno = l.sync.logical blkno
  change l.sync.Inv at inv'
  by_cases held : ∃ buf ∈ l.sync.lru, (l.sync.buf buf).blkno = blkno
  · obtain ⟨buf, used, rfl⟩ := held
    have clean : (l.sync.buf buf).state = .clean := by
      rw [CacheLists.sync, states buf]
      split
      · rfl
      · rename_i kept
        rw [inv.states_iff] at kept
        have used' : buf ∈ l.lru := lru ▸ used
        cases state : (l.buf buf).state with
        | clean => rfl
        | dirty => exact absurd ⟨used', by rw [state]; rfl⟩ kept
    rw [inv'.logical_of_mem used, inv'.coherent buf used clean]
  · exact (inv'.logical_of_uncached (by simpa using held)).symm

/-- `BufSyncBlock` keeps the invariant and the flat store. -/
theorem syncBlock (inv : l.Inv) (blkno : CInt) :
    (l.syncBlock blkno).Inv ∧ (l.syncBlock blkno).logical = l.logical := by
  cases found : l.find blkno with
  | none => simpa [CacheLists.syncBlock, found] using inv
  | some buf =>
      have used := (inv.find_eq_some_iff.mp found).1
      simp only [CacheLists.syncBlock, found]
      cases (l.buf buf).state with
      | clean => exact ⟨inv, rfl⟩
      | dirty => exact ⟨inv.writeBack used, inv.logical_writeBack used⟩

end Inv

end CacheLists
end KwHomework
