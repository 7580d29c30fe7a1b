import KwHomework.FileSystem.Contents
import KwHomework.FileSystem.Lifetime

/-!
# Reading back what was written

A new file is written through its descriptor in several calls of `WriteFile`, closed, reopened and
read.  The loop of `WriteFile` takes the block of the buffer that has the number of the block of the
file, so only a call at the start of the file finds its bytes inside the buffer.
-/

namespace KwHomework

open Function FS

/-- The memory from the start of a buffer: its bytes, and what lies behind them. -/
def bufferWith (data : List Byte) (beyond : Chunk) : Chunk := fun i => data.getD i (beyond i)

/-- The runs that write the buffers through one descriptor, one `WriteFile` each, between any calls
of `WriteFile` through other descriptors.  What lies behind the buffers is arbitrary. -/
inductive WritesTo (fileDesc : CInt) : List (List Byte) → FileSys → FileSys → Prop
  | done {s} : WritesTo fileDesc [] s s
  | write {data rest beyond r s s₁ s'} :
      exec (writeFile fileDesc (bufferWith data beyond) (BitVec.ofNat 32 data.length)) s =
        some (r, s₁) →
      WritesTo fileDesc rest s₁ s' → WritesTo fileDesc (data :: rest) s s'
  | other {buffers fileDesc' pBuffer length r s s₁ s'} : fileDesc'.toNat ≠ fileDesc.toNat →
      exec (writeFile fileDesc' pBuffer length) s = some (r, s₁) →
      WritesTo fileDesc buffers s₁ s' → WritesTo fileDesc buffers s s'

/-- `ReadFile` of 512 bytes, again and again. -/
def readBlocks (fileDesc : CInt) : Nat → FS (List Byte)
  | 0 => return []
  | count + 1 => do
      let (_, data) ← readFile fileDesc 512
      let rest ← readBlocks fileDesc count
      return data ++ rest

/-- The file is closed, opened again and read from its start. -/
def readBack (szFileName : Path) (fileDesc : CInt) (count : Nat) : FS (List Byte) := do
  closeFile fileDesc
  let fileDesc ← openFile szFileName
  readBlocks fileDesc count

/-- Descriptor `i` is the only one on the file `n`, at block `c`, and the path names the file. -/
structure Streaming (path : Path) (p : CInt) (x : List Byte) (i : Fin maxFdEntryMax) (n : CInt)
    (c : Nat) (w : View) : Prop where
  sound : w.Sound fun _ => True
  opened : w.opened i ⟨BitVec.ofNat 32 (512 * c), n⟩
  inside : c ≤ 5
  others : ∀ j file, j ≠ i → w.opened j file → file.inodeNum ≠ n
  names : Names w.volume path p x
  refers : w.volume.tree.Refers p x n

section Streaming

variable {path : Path} {p n : CInt} {x : List Byte} {i : Fin maxFdEntryMax} {c : Nat} {w : View}

private theorem blockCount_ofNat {t : Nat} (positive : 1 ≤ t) (fits : t ≤ 5) :
    blockCount (BitVec.ofNat 32 (512 * t)) = t ∧ 1 ≤ (BitVec.ofNat 32 (512 * t)).toInt := by
  have size : (BitVec.ofNat 32 (512 * t)).toNat = 512 * t := by
    rw [BitVec.toNat_ofNat]
    omega
  constructor
  · rw [blockCount, size]
    omega
  · rw [BitVec.toInt_eq_toNat_of_lt (by omega)]
    omega

private theorem Streaming.file (streaming : Streaming path p x i n c w) : w.volume.IsFile n :=
  ((streaming.sound.descriptors i).allowed _ streaming.opened).1

/-! ## Writing -/

theorem mem_ptrRange {t : Nat} {k : Fin numOfDirectBlockPtr} :
    k ∈ ptrRange c t ↔ c ≤ (k : Nat) ∧ (k : Nat) < c + t := by
  simp [ptrRange]

/-- A write through any descriptor keeps what is known, but for the offset that it moves. -/
theorem Streaming.written (streaming : Streaming path p x i n c w) {j : Fin maxFdEntryMax}
    {file : File} (opened : w.opened j file) (pBuffer : Chunk) (ks : List (Fin numOfDirectBlockPtr))
    (fileOffset : CInt) {c' : Nat} (inside : c' ≤ 5)
    (offset : (w.written j file pBuffer ks fileOffset).opened i ⟨BitVec.ofNat 32 (512 * c'), n⟩) :
    Streaming path p x i n c' (w.written j file pBuffer ks fileOffset) := by
  have sound := streaming.sound
  have regular := ((sound.descriptors j).allowed file opened).1
  have dirs := Volume.sameDirs_write (sound.valid_opened j file opened) pBuffer
    sound.consistent.blocks regular.not_isDir ks
  have sound' : (w.written j file pBuffer ks fileOffset).Sound fun _ => True :=
    sound.written opened pBuffer ks trivial
  refine ⟨sound', offset, inside, fun l file' other opened' => ?_, ?_, ?_⟩
  · by_cases same : l = j
    · subst same
      rw [View.opened_written_self.mp opened']
      exact streaming.others l file other opened
    · exact streaming.others l file' other ((View.opened_written_of_ne same).mp opened')
  · exact streaming.names.of_tree_eq dirs.tree
  · change (w.volume.write file.inodeNum pBuffer ks).1.tree.Refers p x n
    rw [dirs.tree]
    exact streaming.refers

theorem Streaming.write (streaming : Streaming path p x i n c w) (pBuffer : Chunk) {t : Nat}
    (positive : 1 ≤ t) (fits : c + t ≤ 5) :
    ∃ w', Yields (writeFile (BitVec.ofNat 32 i) pBuffer (BitVec.ofNat 32 (512 * t))) w
      (512 * BitVec.ofNat 32 t) w' ∧ Streaming path p x i n (c + t) w' ∧
      ∀ k, w'.volume.content n k = if c ≤ (k : Nat) ∧ (k : Nat) < c + t
        then some (bufferBlock pBuffer k) else w.volume.content n k := by
  obtain ⟨bound, here⟩ := descriptor_index i
  have sound := streaming.sound
  have valid := sound.valid_opened i _ streaming.opened
  obtain ⟨count, atLeast⟩ := blockCount_ofNat positive (show t ≤ 5 by omega)
  have run := yields_writeFile bound (by rw [here]; exact streaming.opened) valid pBuffer
    streaming.inside rfl atLeast sound.consistent.blocks (by rwa [count])
  rw [count, here] at run
  refine ⟨_, run, streaming.written streaming.opened pBuffer _ _ fits ?_, fun k => ?_⟩
  · exact View.opened_written_self.mpr rfl
  · have stored := Volume.content_write sound.consistent.blocks valid pBuffer (ptrRange c t) k
    simp only [mem_ptrRange] at stored
    exact stored

/-- A write through another descriptor does not change the file. -/
theorem Streaming.write_other {s s₁ : FileSys} (streaming : Streaming path p x i n c s.view)
    {fileDesc length r : CInt} {pBuffer : Chunk} (other : fileDesc.toNat ≠ i)
    (run : exec (writeFile fileDesc pBuffer length) s = some (r, s₁)) :
    Streaming path p x i n c s₁.view ∧ s₁.view.volume.content n = s.view.volume.content n := by
  have sound := streaming.sound
  obtain ⟨j, file, index, opened, same | ⟨ks, offset, view⟩⟩ :=
    writeFile_view run sound.consistent.blocks sound.valid_opened
  · rw [same]
    exact ⟨streaming, rfl⟩
  · have apart : j ≠ i := fun same => other (by rw [← index, same])
    rw [view]
    refine ⟨streaming.written opened pBuffer ks offset streaming.inside ?_, ?_⟩
    · exact (View.opened_written_of_ne apart.symm).mpr streaming.opened
    · exact (Volume.SameFile.write sound.consistent.blocks (sound.valid_opened j file opened)
        (streaming.others j file apart opened).symm pBuffer ks).content

/-! ## Reading -/

theorem yields_readBlocks (valid : ValidInode n) (j : Fin maxFdEntryMax) (count : Nat) :
    ∀ {w : View} {c : Nat}, w.volume.BlocksOwned → w.opened j ⟨BitVec.ofNat 32 (512 * c), n⟩ →
    (∀ k : Fin numOfDirectBlockPtr, c ≤ (k : Nat) → (k : Nat) < c + count →
      w.volume.content n k ≠ none) → c + count ≤ 5 →
    ∃ w', Yields (readBlocks (BitVec.ofNat 32 j) count) w
      ((List.range' (512 * c) (512 * count)).map (w.volume.fileByte n)) w' := by
  induction count with
  | zero => exact fun _ _ _ _ => ⟨_, .pure _ _⟩
  | succ count induction =>
      intro w c blocks opened stored fits
      obtain ⟨bound, here⟩ := descriptor_index j
      have last : c < numOfDirectBlockPtr := Nat.lt_of_lt_of_le (by omega) fits
      obtain ⟨blk, block⟩ := Option.ne_none_iff_exists'.mp (stored ⟨c, last⟩ le_rfl (by simp))
      have holds : w.volume.ptr (n, ⟨c, last⟩) ≠ 0#32 := by
        intro null
        rw [Volume.content_eq_none.mpr null] at block
        cases block
      rw [Volume.content_of_holds holds, Option.some.injEq] at block
      let file : File := ⟨BitVec.ofNat 32 (512 * c), n⟩
      let next : View := { w with
        pFileDesc := moveOffset w.pFileDesc j file (BitVec.ofNat 32 (512 * (c + 1))) }
      obtain ⟨w', rest⟩ := induction (w := next) (c := c + 1) blocks
        (opened_moveOffset_self.mpr rfl) (fun k low high => stored k (by omega) (by omega))
          (by omega)
      refine ⟨w', fun s view => ?_⟩
      have small : (512 : CInt).toNat ≤ 512 := by decide
      obtain ⟨data, s₁, run, view₁, read⟩ := readFile_view bound (by rw [here]; exact opened) blocks
        valid ⟨c, last⟩ rfl small view
      rw [here] at view₁
      obtain ⟨s₂, run₂, view₂⟩ := rest s₁ view₁
      refine ⟨s₂, ?_, view₂⟩
      rw [readBlocks, exec_bind, run, Option.bind_some, exec_bind, run₂, Option.bind_some,
        exec_pure]
      have first : (List.range (512 : CInt).toNat).map data =
          (List.range' (512 * c) 512).map (w.volume.fileByte n) := by
        rw [List.range'_eq_map_range, List.map_map, show (512 : CInt).toNat = 512 by decide]
        refine List.map_congr_left fun r member => ?_
        have stored : w.volume.content n ⟨c, last⟩ = some blk := by
          rw [Volume.content_of_holds holds, block]
        rw [comp_apply, Volume.fileByte_eq stored (List.mem_range.mp member), read holds, block]
      have split : List.range' (512 * c) (512 * (count + 1)) =
          List.range' (512 * c) 512 ++ List.range' (512 * (c + 1)) (512 * count) := by
        rw [show 512 * (c + 1) = 512 * c + 1 * 512 by omega, List.range'_append, Nat.mul_succ,
          Nat.add_comm 512]
      rw [first, split, List.map_append]

theorem Streaming.readBack {s : FileSys} (streaming : Streaming path p x i n c s.view) {count : Nat}
    (fits : count ≤ 5) (stored : ∀ k : Fin numOfDirectBlockPtr, (k : Nat) < count →
      s.view.volume.content n k ≠ none) :
    ∃ s', exec (readBack path (BitVec.ofNat 32 i) count) s =
      some ((List.range (512 * count)).map (s.view.volume.fileByte n), s') := by
  obtain ⟨bound, here⟩ := descriptor_index i
  have sound := streaming.sound
  have close := yields_closeFile bound (by rw [here]; exact streaming.opened)
  rw [here] at close
  let closed : View := { s.view with pFileDesc := closeAt s.view.pFileDesc i }
  have sound₁ : closed.Sound fun _ => True := sound.closed i fun _ same => by cases same
  obtain ⟨reopen, _⟩ := sound₁.openFile streaming.names streaming.refers trivial streaming.file
  obtain ⟨j, _, opens⟩ := exists_openAt
    (show ∃ j, (closed.pFileDesc j).bUsed = false from
      ⟨i, by simp only [closed, closeAt, update_self]⟩) n
  simp only [opens] at reopen
  let reopened : View := { closed with
    pFileDesc := update closed.pFileDesc j ⟨true, .file ⟨0#32, n⟩⟩ }
  have opened : reopened.opened j ⟨BitVec.ofNat 32 (512 * 0), n⟩ := by
    simp only [Memory.opened, reopened, update_self, Nat.mul_zero]
  have valid : ValidInode n := sound.valid_opened i _ streaming.opened
  obtain ⟨w', read⟩ := yields_readBlocks (w := reopened) (c := 0) valid j count
    sound.consistent.blocks opened (fun k _ high => stored k (by omega)) (by omega)
  rw [Nat.mul_zero, ← List.range_eq_range'] at read
  have all : Yields (KwHomework.readBack path (BitVec.ofNat 32 i) count) s.view
      ((List.range (512 * count)).map (s.view.volume.fileByte n)) w' := by
    refine close.bind ?_
    exact reopen.bind read
  obtain ⟨s', run, _⟩ := all s rfl
  exact ⟨s', run⟩

end Streaming

/-! ## All the writes -/

section Writes

variable {path : Path} {p n : CInt} {x : List Byte} {i : Fin maxFdEntryMax}

/-- The buffers are whole blocks. -/
def WholeBlocks (buffers : List (List Byte)) : Prop :=
  ∀ data ∈ buffers, data ≠ [] ∧ 512 ∣ data.length

private theorem WholeBlocks.cons {data : List Byte} {rest : List (List Byte)}
    (whole : WholeBlocks (data :: rest)) :
    ∃ t, 1 ≤ t ∧ data.length = 512 * t ∧ WholeBlocks rest := by
  obtain ⟨nonempty, t, size⟩ := whole data (by simp)
  have positive := List.length_pos_of_ne_nil nonempty
  exact ⟨t, by omega, size, fun data' member => whole data' (by simp [member])⟩

/-- What the writes leave when the file has its first `c` blocks: it has the blocks that they wrote,
and the first ones are not written again. -/
theorem WritesTo.streaming {buffers : List (List Byte)} {s s' : FileSys}
    (writes : WritesTo (BitVec.ofNat 32 i) buffers s s') : ∀ {c : Nat},
    Streaming path p x i n c s.view → WholeBlocks buffers →
      512 * c + buffers.flatten.length ≤ 2560 →
    ∃ c', 512 * c' = 512 * c + buffers.flatten.length ∧ Streaming path p x i n c' s'.view ∧
      (∀ k : Fin numOfDirectBlockPtr, c ≤ (k : Nat) → (k : Nat) < c' →
        s'.view.volume.content n k ≠ none) ∧
      ∀ k : Fin numOfDirectBlockPtr, (k : Nat) < c →
        s'.view.volume.content n k = s.view.volume.content n k := by
  induction writes with
  | done =>
      intro c streaming _ _
      exact ⟨c, rfl, streaming, fun k low high => absurd low (by omega), fun _ _ => rfl⟩
  | @write data rest beyond r s s₁ s' run _ induction =>
      intro c streaming whole fits
      obtain ⟨t, positive, size, whole'⟩ := whole.cons
      rw [List.flatten_cons, List.length_append, size] at fits ⊢
      obtain ⟨w', yields, streaming', stored⟩ :=
        streaming.write (bufferWith data beyond) positive (show c + t ≤ 5 by omega)
      rw [size] at run
      obtain ⟨_, rfl⟩ := yields.unique run
      obtain ⟨c', total, streaming'', later, kept⟩ := induction streaming' whole' (by omega)
      refine ⟨c', by omega, streaming'', fun k low high => ?_, fun k before => ?_⟩
      · by_cases here : (k : Nat) < c + t
        · rw [kept k here, stored k, if_pos ⟨low, here⟩]
          simp
        · exact later k (by omega) high
      · rw [kept k (by omega), stored k, if_neg (by omega)]
  | @other buffers fileDesc' pBuffer length r s s₁ s' other run _ induction =>
      intro c streaming whole fits
      obtain ⟨_, here⟩ := descriptor_index i
      have apart : fileDesc'.toNat ≠ i := by rwa [← here]
      obtain ⟨streaming', same⟩ := streaming.write_other apart run
      obtain ⟨c', total, streaming'', later, kept⟩ := induction streaming' whole fits
      exact ⟨c', total, streaming'', later, fun k before => by rw [kept k before, same]⟩

theorem WritesTo.single {data : List Byte} {s s' : FileSys}
    (writes : WritesTo (BitVec.ofNat 32 i) [data] s s')
    (streaming : Streaming path p x i n 0 s.view) {t : Nat} (positive : 1 ≤ t)
    (size : data.length = 512 * t) (fits : t ≤ 5) : ∃ beyond, ∀ k : Fin numOfDirectBlockPtr,
      (k : Nat) < t →
      s'.view.volume.content n k = some (bufferBlock (bufferWith data beyond) k) := by
  generalize whole : [data] = buffers at writes
  induction writes with
  | done => cases whole
  | @write data rest beyond r s s₁ s' run writes _ =>
      cases whole
      obtain ⟨w', yields, streaming', stored⟩ :=
        streaming.write (bufferWith data beyond) positive (show 0 + t ≤ 5 by omega)
      rw [size] at run
      obtain ⟨_, rfl⟩ := yields.unique run
      obtain ⟨_, _, _, _, kept⟩ := writes.streaming streaming' (fun _ member => by cases member)
        (by simp only [List.flatten_nil, List.length_nil]; omega)
      refine ⟨beyond, fun k inside => ?_⟩
      rw [kept k (by omega), stored k, if_pos (by omega)]
  | @other buffers fileDesc' pBuffer length r s s₁ s' other run _ induction =>
      obtain ⟨_, here⟩ := descriptor_index i
      have apart : fileDesc'.toNat ≠ i := by rwa [← here]
      exact induction (streaming.write_other apart run).1 whole

theorem Streaming.exists_writesTo (buffers : List (List Byte)) : ∀ {s : FileSys} {c : Nat},
    Streaming path p x i n c s.view → WholeBlocks buffers →
      512 * c + buffers.flatten.length ≤ 2560 →
    ∃ s', WritesTo (BitVec.ofNat 32 i) buffers s s' := by
  induction buffers with
  | nil => exact fun _ _ _ => ⟨_, .done⟩
  | cons data rest induction =>
      intro s c streaming whole fits
      obtain ⟨t, positive, size, whole'⟩ := whole.cons
      rw [List.flatten_cons, List.length_append, size] at fits
      obtain ⟨w', yields, streaming', _⟩ :=
        streaming.write (bufferWith data fun _ => 0#8) positive (show c + t ≤ 5 by omega)
      obtain ⟨s₁, run, rfl⟩ := yields s rfl
      obtain ⟨s', writes⟩ := induction streaming' whole' (by omega)
      rw [← size] at run
      exact ⟨s', .write run writes⟩

end Writes

/-! ## What is read from the buffer -/

/-- `WriteFile` of the data has one outcome, so it reads nothing that lies behind the data. -/
def ReadsInside (fileDesc : CInt) (data : List Byte) (s : FileSys) : Prop :=
  ∃ r, ∀ beyond,
    exec (writeFile fileDesc (bufferWith data beyond) (BitVec.ofNat 32 data.length)) s = some r

private theorem exec_writeBlock_congr {pBuffer pBuffer' : Chunk} {k : Fin numOfDirectBlockPtr}
    (same : bufferBlock pBuffer k = bufferBlock pBuffer' k) (acc : Inode × CInt) (s : FileSys) :
    exec (writeBlock pBuffer acc ((k : Nat) : Int)) s =
      exec (writeBlock pBuffer' acc ((k : Nat) : Int)) s := by
  have inside : 0 ≤ ((k : Nat) : Int) ∧ ((k : Nat) : Int) < numOfDirectBlockPtr :=
    ⟨by omega, Int.ofNat_lt.mpr k.isLt⟩
  have blocks : (blockOf fun n => pBuffer (512 * k + n)) = blockOf fun n =>
      pBuffer' (512 * k + n) :=
    same
  rw [writeBlock, writeBlock, writeBlockWith, writeBlockWith, liftM_eq, exec_bind, exec_bind,
    ptrIndex, dif_pos inside, exec_pure, Option.bind_some, Option.bind_some]
  simp only [Int.toNat_natCast, blocks]

private theorem exec_writeBlocks_congr {pBuffer pBuffer' : Chunk}
    (ks : List (Fin numOfDirectBlockPtr)) :
    (∀ k ∈ ks, bufferBlock pBuffer k = bufferBlock pBuffer' k) →
      ∀ (acc : Inode × CInt) (s : FileSys),
    exec ((ks.map fun k : Fin numOfDirectBlockPtr => ((k : Nat) : Int)).foldlM
        (writeBlock pBuffer) acc) s =
      exec ((ks.map fun k : Fin numOfDirectBlockPtr => ((k : Nat) : Int)).foldlM
        (writeBlock pBuffer') acc) s := by
  induction ks with
  | nil => exact fun _ _ _ => rfl
  | cons k ks induction =>
      intro same acc s
      rw [List.map_cons, List.foldlM_cons, List.foldlM_cons, exec_bind, exec_bind,
        exec_writeBlock_congr (same k (by simp))]
      congr 1
      funext r
      exact induction (fun l member => same l (by simp [member])) r.1 r.2

private theorem exec_writeFile_congr {i : Fin maxFdEntryMax} {n : CInt} {s : FileSys}
    (opened : s.view.opened i ⟨0#32, n⟩) {data : List Byte} {t : Nat} (positive : 1 ≤ t)
    (size : data.length = 512 * t) (fits : t ≤ 5) (beyond beyond' : Chunk) :
    exec (writeFile (BitVec.ofNat 32 i) (bufferWith data beyond) (BitVec.ofNat 32 data.length)) s =
      exec (writeFile (BitVec.ofNat 32 i) (bufferWith data beyond') (BitVec.ofNat 32 data.length))
        s := by
  obtain ⟨bound, here⟩ := descriptor_index i
  have index : exec (descIndex (BitVec.ofNat 32 i)) s = some (i, s) := by
    rw [descIndex, dif_pos bound, here]
    rfl
  have file : exec (openFileOf i) s = some (⟨0#32, n⟩, s) := by
    rw [openFileOf, exec_bind, exec_get, Option.bind_some,
      show (s.pFileDesc i).pOpenFile = .file ⟨0#32, n⟩ from opened]
    rfl
  obtain ⟨count, atLeast⟩ := blockCount_ofNat positive fits
  have indexes : writeIndexes 0#32 (BitVec.ofNat 32 data.length) =
      (ptrRange 0 t).map fun k : Fin numOfDirectBlockPtr => ((k : Nat) : Int) := by
    have all := @writeIndexes_eq ⟨0#32, n⟩ (BitVec.ofNat 32 (512 * t)) 0 (Nat.zero_le 5) rfl atLeast
      (by omega)
    rwa [count, ← size] at all
  have same : ∀ k ∈ ptrRange 0 t,
      bufferBlock (bufferWith data beyond) k = bufferBlock (bufferWith data beyond') k := by
    intro k member
    funext r
    have inside := (mem_ptrRange.mp member).2
    have small : (r : Nat) < 512 := r.isLt
    have stored : 512 * (k : Nat) + r < data.length := by omega
    simp only [bufferBlock, blockOf, bufferWith, List.getD_eq_getElem _ _ stored]
  rw [writeIndexes] at indexes
  have loop : ∀ pBuffer, writeBlockWith getFreeBlockNum pBuffer = writeBlock pBuffer := fun _ => rfl
  simp only [writeFile, writeFileWith, liftM_eq, loop, exec_bind, index, file, Option.bind_some,
    indexes]
  congr 1
  funext r
  split_ifs with beyondLast
  · rfl
  · simp only [exec_bind, exec_writeBlocks_congr _ same]

theorem Streaming.readsInside {path : Path} {p n : CInt} {x : List Byte} {i : Fin maxFdEntryMax}
    {s : FileSys} (streaming : Streaming path p x i n 0 s.view) {data : List Byte} {t : Nat}
    (positive : 1 ≤ t) (size : data.length = 512 * t) (fits : t ≤ 5) :
    ReadsInside (BitVec.ofNat 32 i) data s := by
  obtain ⟨w', yields, _⟩ :=
    streaming.write (bufferWith data fun _ => 0#8) positive (show 0 + t ≤ 5 by omega)
  obtain ⟨s', run, _⟩ := yields s rfl
  refine ⟨(512 * BitVec.ofNat 32 t, s'), fun beyond => ?_⟩
  rw [exec_writeFile_congr streaming.opened positive size fits beyond fun _ => 0#8, size]
  exact run

/-! ## The whole life -/

section Whole

variable {path : Path} {p n : CInt} {x : List Byte} {i : Fin maxFdEntryMax}

theorem begun_of_exec {s s₁ : FileSys} (sound : s.view.Sound fun _ => True)
    (names : Names s.view.volume path p x) (new : ∀ m, ¬ s.view.volume.tree.Refers p x m)
    (free : s.view.volume.HasFreeInode) {fileDesc : CInt}
    (create : exec (createFile path) s = some (fileDesc, s₁)) (opened : fileDesc ≠ -1) :
    ∃ (i : Fin maxFdEntryMax) (n : CInt), fileDesc = BitVec.ofNat 32 i ∧
      Begun s.view p x i n s₁.view := by
  have slot : ∃ e : Slot, s.view.volume.ptr (p, e.1) ≠ 0#32 ∧
      (s.view.volume.entry p e).name = [] := by
    cases found : s.view.volume.freeSlot p with
    | none => exact absurd ((sound.createFile_full names found).unique create).1 opened
    | some e =>
        obtain ⟨holds, empty⟩ := firstSlot_eq_some found
        exact ⟨e, holds, of_decide_eq_true empty⟩
  have descriptor : ∃ i, (s.view.pFileDesc i).bUsed = false := by
    obtain ⟨e, found⟩ := Volume.exists_freeSlot slot
    obtain ⟨w₁, run, _⟩ := sound.createFile names new free trivial found
    have same := (run.unique create).1
    cases unused : firstUnused s.view.pFileDesc with
    | none =>
        rw [openAt, unused] at same
        exact absurd same opened
    | some j => exact ⟨j, by simpa using List.find?_some unused⟩
  obtain ⟨i, n, w₁, run, begun⟩ := begun_createFile sound names new free descriptor slot
  obtain ⟨same, rfl⟩ := run.unique create
  exact ⟨i, n, same, begun⟩

private theorem Begun.streaming {w w₁ : View} (begun : Begun w p x i n w₁)
    (sound : w.Sound fun _ => True) (names : Names w.volume path p x) :
    Streaming path p x i n 0 w₁ := by
  refine ⟨begun.sound, ?_, Nat.zero_le 5, fun j file other opened same => ?_,
    begun.created.names names, begun.created.new⟩
  · rw [Memory.opened, begun.table, update_self]
  · rw [Memory.opened, begun.table, update_of_ne other] at opened
    have used := ((sound.descriptors j).allowed file opened).1.1
    rw [same, begun.unused] at used
    cases used

private theorem byteAt_bufferBlock {pBuffer : Chunk} {k : Fin numOfDirectBlockPtr} {r : Nat}
    (inside : r < 512) :
    (bufferBlock pBuffer k).byteAt r = pBuffer (512 * k + r) := by
  rw [Block.byteAt, dif_pos inside]
  rfl

theorem fileBytes_eq {v : Volume} {data : List Byte} {beyond : Chunk} {t : Nat}
    (size : data.length = 512 * t) (fits : t ≤ 5) (stored : ∀ k : Fin numOfDirectBlockPtr,
      (k : Nat) < t → v.content n k = some (bufferBlock (bufferWith data beyond) k)) :
    (List.range (512 * t)).map (v.fileByte n) = data := by
  refine List.ext_getElem (by simp [size]) fun r inside inside' => ?_
  have small : r / 512 < 5 := by omega
  have split : 512 * (r / 512) + r % 512 = r := Nat.div_add_mod r 512
  have block := stored ⟨r / 512, small⟩ (show r / 512 < t by omega)
  have byte := Volume.fileByte_eq block (Nat.mod_lt r (show 0 < 512 by decide))
  simp only [split] at byte
  rw [List.getElem_map, List.getElem_range, byte]
  rw [byteAt_bufferBlock (Nat.mod_lt r (by decide))]
  simp only [split, bufferWith, List.getD_eq_getElem _ _ inside']

theorem Streaming.readBack_single {buffers : List (List Byte)} {s₁ s₂ : FileSys}
    (streaming : Streaming path p x i n 0 s₁.view) (whole : WholeBlocks buffers)
    (small : buffers.flatten.length ≤ 5 * 512) (single : buffers.length ≤ 1)
    (writes : WritesTo (BitVec.ofNat 32 i) buffers s₁ s₂) :
    ∃ s₃, exec (KwHomework.readBack path (BitVec.ofNat 32 i) (buffers.flatten.length / 512)) s₂ =
      some (buffers.flatten, s₃) := by
  obtain ⟨c, total, streaming', stored, _⟩ := writes.streaming streaming whole (by omega)
  have count : buffers.flatten.length / 512 = c := by omega
  obtain ⟨s₃, run⟩ := streaming'.readBack streaming'.inside fun k high =>
    stored k (Nat.zero_le _) high
  rw [count]
  cases buffers with
  | nil =>
      obtain rfl : c = 0 := by simpa using total
      exact ⟨s₃, run⟩
  | cons data rest =>
      obtain rfl : rest = [] := List.eq_nil_of_length_eq_zero (by simpa using single)
      obtain ⟨t, positive, size, _⟩ := whole.cons
      rw [List.flatten_singleton] at total ⊢
      obtain rfl : c = t := by omega
      obtain ⟨beyond, same⟩ := writes.single streaming positive size streaming'.inside
      rw [fileBytes_eq size streaming'.inside same] at run
      exact ⟨s₃, run⟩

theorem Streaming.exists_garbled {first second : List Byte} {rest : List (List Byte)} {s₁ : FileSys}
    (streaming : Streaming path p x i n 0 s₁.view) (whole : WholeBlocks (first :: second :: rest))
    (small : (first :: second :: rest).flatten.length ≤ 5 * 512) :
    ∃ s₂, WritesTo (BitVec.ofNat 32 i) (first :: second :: rest) s₁ s₂ ∧ ∀ s₃,
      exec (KwHomework.readBack path (BitVec.ofNat 32 i)
        ((first :: second :: rest).flatten.length / 512)) s₂ ≠
        some ((first :: second :: rest).flatten, s₃) := by
  obtain ⟨t, positive, size, whole'⟩ := whole.cons
  obtain ⟨t', positive', size', whole''⟩ := whole'.cons
  have length : (first :: second :: rest).flatten.length =
      512 * t + 512 * t' + rest.flatten.length := by
    simp only [List.flatten_cons, List.length_append, size, size']
    omega
  rw [length] at small ⊢
  -- the second buffer has the block of this number at `t' - 1`, and takes it from behind its end
  let k : Fin numOfDirectBlockPtr := ⟨t + t' - 1, show t + t' - 1 < 5 by omega⟩
  let wrong : Byte := second.getD (512 * (t' - 1)) 0#8 + 1#8
  obtain ⟨w₁, yields, streaming₁, _⟩ :=
    streaming.write (bufferWith first fun _ => 0#8) positive (show 0 + t ≤ 5 by omega)
  obtain ⟨s₁', run, rfl⟩ := yields s₁ rfl
  obtain ⟨w₂, yields', streaming₂, stored⟩ :=
    streaming₁.write (bufferWith second fun _ => wrong) positive' (show 0 + t + t' ≤ 5 by omega)
  obtain ⟨s₂', run', rfl⟩ := yields' s₁' rfl
  obtain ⟨s₂, writes⟩ := streaming₂.exists_writesTo rest whole'' (by omega)
  obtain ⟨_, _, _, _, kept⟩ := writes.streaming streaming₂ whole'' (by omega)
  have block : s₂.view.volume.content n k =
      some (bufferBlock (bufferWith second fun _ => wrong) k) := by
    rw [kept k (show t + t' - 1 < 0 + t + t' by omega), stored k, if_pos]
    exact ⟨show 0 + t ≤ t + t' - 1 by omega, show t + t' - 1 < 0 + t + t' by omega⟩
  rw [← size] at run
  rw [← size'] at run'
  have all : WritesTo (BitVec.ofNat 32 i) (first :: second :: rest) s₁ s₂ :=
    .write run (.write run' writes)
  refine ⟨s₂, all, fun s₃ read => ?_⟩
  obtain ⟨c, total, streaming', holds, _⟩ := all.streaming streaming whole (by omega)
  have count : (512 * t + 512 * t' + rest.flatten.length) / 512 = c := by omega
  obtain ⟨s₃', run''⟩ := streaming'.readBack streaming'.inside fun k high =>
    holds k (Nat.zero_le _) high
  rw [count, run'', Option.some.injEq, Prod.mk.injEq] at read
  have bytes := congrArg (fun bytes => bytes.getD (512 * (t + t' - 1)) 0#8) read.1
  have inside : 512 * (t + t' - 1) <
      ((List.range (512 * c)).map (s₂.view.volume.fileByte n)).length := by
    rw [List.length_map, List.length_range]
    omega
  have stored' := Volume.fileByte_eq block (show 0 < 512 by decide)
  rw [byteAt_bufferBlock (by decide), bufferWith, List.getD_eq_default _ _ (by
    rw [size']
    exact show 512 * t' ≤ 512 * (t + t' - 1) + 0 by omega)] at stored'
  simp only [Nat.add_zero] at stored'
  rw [List.getD_eq_getElem _ _ inside, List.getElem_map, List.getElem_range,
    show s₂.view.volume.fileByte n (512 * (t + t' - 1)) = wrong from stored', List.flatten_cons,
    List.getD_append_right _ _ _ _ (by omega), List.flatten_cons,
    List.getD_append _ _ _ _ (by omega),
    show 512 * (t + t' - 1) - first.length = 512 * (t' - 1) by omega] at bytes
  have changed := congrArg BitVec.toNat bytes
  rw [BitVec.toNat_add] at changed
  simp only [BitVec.toNat_ofNat] at changed
  omega

end Whole

/-! ## The result -/

/-- The buffers that were written to a new file are read back, and nothing was read outside them,
exactly when there was at most one of them. -/
theorem readBack_iff {s s₁ : FileSys} (reachable : Reachable Formatted Call.Proper s) {path : Path}
    {p : CInt} {x : List Byte} (names : Names s.view.volume path p x)
    (new : ∀ m, ¬ s.view.volume.tree.Refers p x m) (free : s.view.volume.HasFreeInode)
    {fileDesc : CInt} (create : exec (createFile path) s = some (fileDesc, s₁))
    (opened : fileDesc ≠ -1) {buffers : List (List Byte)} (whole : WholeBlocks buffers)
    (small : buffers.flatten.length ≤ 5 * 512) :
    ((∀ s₂, WritesTo fileDesc buffers s₁ s₂ → ∃ s₃,
        exec (readBack path fileDesc (buffers.flatten.length / 512)) s₂ =
          some (buffers.flatten, s₃)) ∧
      ∀ done data rest s₂, buffers = done ++ data :: rest → WritesTo fileDesc done s₁ s₂ →
        ReadsInside fileDesc data s₂) ↔ buffers.length ≤ 1 := by
  have sound := sound_of_proper reachable
  obtain ⟨i, n, rfl, begun⟩ := begun_of_exec sound names new free create opened
  have streaming := begun.streaming sound names
  constructor
  · rintro ⟨reads, _⟩
    cases buffers with
    | nil => exact Nat.zero_le 1
    | cons first rest =>
        cases rest with
        | nil => exact le_rfl
        | cons second rest =>
            obtain ⟨s₂, writes, garbled⟩ := streaming.exists_garbled whole small
            obtain ⟨s₃, run⟩ := reads s₂ writes
            exact absurd run (garbled s₃)
  · intro single
    refine ⟨fun s₂ writes => streaming.readBack_single whole small single writes, ?_⟩
    intro done data rest s₂ split writes
    rw [split, List.length_append, List.length_cons] at single
    obtain rfl : done = [] := List.eq_nil_of_length_eq_zero (by omega)
    obtain rfl : rest = [] := List.eq_nil_of_length_eq_zero (by omega)
    subst split
    obtain ⟨t, positive, size, _⟩ := whole.cons
    rw [List.nil_append, List.flatten_singleton, size] at small
    obtain ⟨c, total, streaming', _⟩ := writes.streaming streaming (fun _ member => by cases member)
      (by simp)
    obtain rfl : c = 0 := by simpa using total
    exact streaming'.readsInside positive size (by omega)

/-- A block of zeros. -/
def zeroBytes : List Byte := List.replicate 512 0#8

private theorem length_zeroBytes : zeroBytes.length = 512 := List.length_replicate

private theorem wholeBlocks_zeroBytes {buffers : List (List Byte)}
    (zeros : ∀ data ∈ buffers, data = zeroBytes) : WholeBlocks buffers := by
  intro data member
  rw [zeros data member]
  refine ⟨fun empty => ?_, length_zeroBytes.symm ▸ dvd_refl 512⟩
  have none := length_zeroBytes
  rw [empty] at none
  cases none

/-- The file `/a` that is created on a formatted disk. -/
theorem readBack_iff_first : ∃ s, Formatted s ∧ ∃ s₁, exec (createFile pathA) s = some (0, s₁) ∧
    (((∀ s₂, WritesTo 0 [zeroBytes] s₁ s₂ → ∃ s₃,
        exec (readBack pathA 0 ([zeroBytes].flatten.length / 512)) s₂ =
          some ([zeroBytes].flatten, s₃)) ∧
      ∀ done data rest s₂, [zeroBytes] = done ++ data :: rest → WritesTo 0 done s₁ s₂ →
        ReadsInside 0 data s₂) ↔ [zeroBytes].length ≤ 1) := by
  obtain ⟨s, here⟩ := exists_formatted
  obtain ⟨n, s₁, create, _⟩ := exists_createdA here
  have names : Names s.view.volume pathA 0#32 [97#8] := by
    rw [here.view]
    exact Volume.names_pathA Volume.formatted_isDir
  have new : ∀ m, ¬ s.view.volume.tree.Refers 0#32 [97#8] m := by
    rw [here.view]
    exact Volume.formatted_new (by decide) 0#32
  have free : s.view.volume.HasFreeInode := by
    rw [here.view]
    exact Volume.formatted_free
  refine ⟨s, here, s₁, create, readBack_iff (.start here) names new free create (by decide)
    (wholeBlocks_zeroBytes (by simp)) ?_⟩
  rw [List.flatten_singleton, length_zeroBytes]
  decide

/-- Two writes of one block each are not read back. -/
theorem readBack_garbled : ∃ s, Formatted s ∧ ∃ s₁, exec (createFile pathA) s = some (0, s₁) ∧
    ∃ s₂, WritesTo 0 [zeroBytes, zeroBytes] s₁ s₂ ∧ ∀ s₃,
      exec (readBack pathA 0 2) s₂ ≠ some ([zeroBytes, zeroBytes].flatten, s₃) := by
  obtain ⟨s, here⟩ := exists_formatted
  obtain ⟨n, s₁, create, createdA⟩ := exists_createdA here
  have streaming : Streaming pathA 0#32 [97#8] 0 n 0 s₁.view := by
    have created := createdA.created
    refine ⟨createdA.sound, ?_, Nat.zero_le 5, fun j file other opened => ?_,
      ?_, createdA.number ▸ created.new⟩
    · rw [Memory.opened, createdA.table, update_self]
    · rw [Memory.opened, createdA.table, update_of_ne other] at opened
      cases opened
    · exact createdA.created.names (Volume.names_pathA Volume.formatted_isDir)
  have length : [zeroBytes, zeroBytes].flatten.length = 2 * 512 := by
    rw [List.flatten_cons, List.flatten_singleton, List.length_append, length_zeroBytes]
  obtain ⟨s₂, writes, garbled⟩ := streaming.exists_garbled
    (wholeBlocks_zeroBytes (by simp : ∀ data ∈ [zeroBytes, zeroBytes], data = zeroBytes))
    (by rw [length]; decide)
  rw [length] at garbled
  exact ⟨s, here, s₁, create, s₂, writes, garbled⟩

end KwHomework
