import KwHomework.FileSystem.Format

/-!
# Reading and writing with any length

`ReadFile` does not look where the file ends, and `WriteFile` moves the offset back when the length
is negative.
-/

namespace KwHomework

open Function FS

/-- A data block behind a pointer of the inode, and behind no pointer of another one. -/
structure Volume.OwnBlock (v : Volume) (n b : CInt) : Prop where
  data : DataBlock b
  own : ∃ k, v.ptr (n, k) = b
  alone : ∀ m l, v.ptr (m, l) = b → m = n

/-- The offset of the descriptor is a multiple of 512 in 0..2560. -/
def View.OffsetInside (w : View) (fileDesc : CInt) : Prop :=
  ∀ (i : Fin maxFdEntryMax) (file : File), (i : Nat) = fileDesc.toNat → w.opened i file →
    AtBlock file.fileOffset

/-- `ReadFile` uses a pointer of the array, and what it returns are bytes of a block of the file. -/
def ReadsFile (fileDesc length : CInt) (s : FileSys) : Prop :=
  ∀ (i : Fin maxFdEntryMax) (file : File), (i : Nat) = fileDesc.toNat → s.view.opened i file →
    ∃ k : Fin numOfDirectBlockPtr, (file.fileOffset.sdiv 512).toInt = (k : Nat) ∧
      s.view.volume.OwnBlock file.inodeNum (s.view.volume.ptr (file.inodeNum, k)) ∧
      ∀ r data s', exec (readFile fileDesc length) s = some ((r, data), s') →
        data = (List.range length.toNat).map
          (s.disk (s.view.volume.ptr (file.inodeNum, k))).byteAt ∧
        s'.view.OffsetInside fileDesc

/-- `WriteFile` uses pointers of the array only; with another index it would be a fault. -/
def WritesFile (fileDesc : CInt) (pBuffer : Chunk) (length : CInt) (s : FileSys) : Prop :=
  ∃ r s', exec (writeFile fileDesc pBuffer length) s = some (r, s') ∧
    s'.view.OffsetInside fileDesc

/-- The block at the offset is allocated for `ReadFile`, and the length for `WriteFile` does not
lead to before the file.  With the smallest length of all, `length - 1` wraps around. -/
def Call.HitsFile (w : View) : Call → Prop
  | .readFile fd _ => ∀ (i : Fin maxFdEntryMax) (file : File), (i : Nat) = fd.toNat →
      w.opened i file → ∃ k : Fin numOfDirectBlockPtr,
        file.fileOffset = BitVec.ofNat 32 (512 * k) ∧ w.volume.ptr (file.inodeNum, k) ≠ 0#32
  | .writeFile fd _ length => ∀ (i : Fin maxFdEntryMax) (file : File), (i : Nat) = fd.toNat →
      w.opened i file → -1022 ≤ length.toInt + file.fileOffset.toInt ∨ length = BitVec.intMin 32
  | _ => True

/-! ## The numbers -/

private theorem tdiv_blockSize (a : Int) :
    a.tdiv 512 = if 0 ≤ a then a / 512 else -(-a / 512) := by
  split_ifs with sign
  · exact Int.tdiv_eq_ediv_of_nonneg sign
  · rw [← Int.tdiv_eq_ediv_of_nonneg (by omega), Int.neg_tdiv, Int.neg_neg]

theorem toInt_totalAllocCount {length : CInt} (other : length ≠ BitVec.intMin 32) :
    ((length - 1).sdiv 512 + 1).toInt = (length.toInt - 1).tdiv 512 + 1 := by
  have low := BitVec.le_toInt length
  have high := BitVec.toInt_lt (x := length)
  have larger : length.toInt ≠ -2147483648 := by
    intro same
    apply other
    apply BitVec.eq_of_toInt_eq
    rw [same]
    decide
  have less : (length - 1).toInt = length.toInt - 1 := by
    rw [BitVec.toInt_sub, show (1 : CInt).toInt = 1 by decide, Int.bmod_eq_of_le]
    · omega
    · omega
  have quotient := tdiv_blockSize (length.toInt - 1)
  rw [BitVec.toInt_add, BitVec.toInt_sdiv_of_ne_or_ne _ _ (Or.inr (by decide)), less,
    show (1 : CInt).toInt = 1 by decide, show (512 : CInt).toInt = 512 by decide,
    Int.bmod_eq_of_le]
  · split_ifs at quotient <;> omega
  · split_ifs at quotient <;> omega

theorem toInt_writeEnd {c : Nat} (inside : c ≤ 5) {length : CInt}
    (other : length ≠ BitVec.intMin 32) :
    (BitVec.ofNat 32 c + ((length - 1).sdiv 512 + 1)).toInt =
      c + ((length.toInt - 1).tdiv 512 + 1) := by
  have low := BitVec.le_toInt length
  have high := BitVec.toInt_lt (x := length)
  have quotient := tdiv_blockSize (length.toInt - 1)
  rw [BitVec.toInt_add, toInt_totalAllocCount other, toInt_ofNat_of_lt (by omega),
    Int.bmod_eq_of_le]
  · split_ifs at quotient <;> omega
  · split_ifs at quotient <;> omega

/-- A multiple of 512 is the offset of a block if the factor is in 0..5. -/
theorem atBlock_mul_iff {index : CInt} (small : -(2 ^ 22) ≤ index.toInt) (last : index.toInt ≤ 5) :
    AtBlock (512 * index) ↔ 0 ≤ index.toInt := by
  have product : (512 * index).toInt = 512 * index.toInt := by
    rw [BitVec.toInt_mul, show (512 : CInt).toInt = 512 by decide, Int.bmod_eq_of_le]
    · omega
    · omega
  constructor
  · rintro ⟨c, inside, same⟩
    rw [same, toInt_ofNat_of_lt (by omega)] at product
    omega
  · intro nonneg
    refine ⟨index.toInt.toNat, by omega, ?_⟩
    apply BitVec.eq_of_toInt_eq
    rw [product, toInt_ofNat_of_lt (by omega)]
    omega

/-! ## Writing -/

section Writing

variable {s : FileSys} {fileDesc : CInt} {bound : fileDesc.toNat < maxFdEntryMax} {file : File}
  (opened : s.view.opened ⟨fileDesc.toNat, bound⟩ file) (valid : ValidInode file.inodeNum)
  (blocks : s.view.volume.BlocksOwned) {c : Nat} (inside : c ≤ 5)
  (offset : file.fileOffset = BitVec.ofNat 32 (512 * c)) (pBuffer : Chunk) {length : CInt}

include opened

private theorem offsetInside_iff : s.view.OffsetInside fileDesc ↔ AtBlock file.fileOffset := by
  constructor
  · exact fun offset => offset _ file rfl opened
  · intro offset i file' index opened'
    obtain rfl : i = ⟨fileDesc.toNat, bound⟩ := Fin.ext index
    have same : file' = file := by
      have both := opened'.symm.trans opened
      exact FilePtr.file.inj both
    rwa [same]

include valid inside offset

private theorem writesFile_of_beyond
    (beyond : (5 : Int) < (BitVec.ofNat 32 c + ((length - 1).sdiv 512 + 1)).toInt) :
    WritesFile fileDesc pBuffer length s := by
  rw [← curIdx_eq inside, ← offset] at beyond
  obtain ⟨s', run, view⟩ := yields_writeFile_beyond bound opened valid pBuffer beyond s rfl
  refine ⟨_, s', run, ?_⟩
  rw [view, offsetInside_iff opened]
  exact ⟨c, inside, offset⟩

include blocks

theorem writesFile_iff_of_fits (other : length ≠ BitVec.intMin 32)
    (fits : c + ((length.toInt - 1).tdiv 512 + 1) ≤ 5) :
    WritesFile fileDesc pBuffer length s ↔ 0 ≤ c + ((length.toInt - 1).tdiv 512 + 1) := by
  have stop := toInt_writeEnd inside other
  have before : ¬ (numOfDirectBlockPtr : Int) <
      (file.fileOffset.sdiv 512 + ((length - 1).sdiv 512 + 1)).toInt := by
    rw [offset, curIdx_eq inside, stop]
    exact not_lt.mpr fits
  have indexes : writeIndexes file.fileOffset length =
      (ptrRange c ((length.toInt - 1).tdiv 512 + 1).toNat).map
        fun k : Fin numOfDirectBlockPtr => ((k : Nat) : Int) := by
    have count : (c + ((length.toInt - 1).tdiv 512 + 1) - (c : Int)).toNat =
        ((length.toInt - 1).tdiv 512 + 1).toNat := by
      omega
    rw [writeIndexes, offset, curIdx_eq inside, stop, toInt_ofNat_of_lt (by omega), count,
      indexes_eq c inside _ (by omega) (by omega)]
  obtain ⟨s', run, view⟩ :=
    yields_writeFile_indexes bound opened valid pBuffer blocks before indexes s rfl
  have moved : file.fileOffset + 512 * ((length - 1).sdiv 512 + 1) =
      512 * (BitVec.ofNat 32 c + ((length - 1).sdiv 512 + 1)) := by
    simp only [offset, BitVec.mul_add, BitVec.ofNat_mul, BitVec.ofNat_eq_ofNat]
  have opened' : s'.view.opened ⟨fileDesc.toNat, bound⟩
      ⟨file.fileOffset + 512 * ((length - 1).sdiv 512 + 1), file.inodeNum⟩ := by
    rw [view]
    exact View.opened_written_self.mpr rfl
  have low := BitVec.le_toInt length
  have quotient := tdiv_blockSize (length.toInt - 1)
  have far : -(2 ^ 22) ≤ (BitVec.ofNat 32 c + ((length - 1).sdiv 512 + 1)).toInt := by
    rw [stop]
    split_ifs at quotient <;> omega
  have small : (BitVec.ofNat 32 c + ((length - 1).sdiv 512 + 1)).toInt ≤ 5 := stop.le.trans fits
  rw [← stop, ← atBlock_mul_iff far small, ← moved]
  constructor
  · rintro ⟨r', s'', run', inside'⟩
    obtain rfl := congrArg Prod.snd (Option.some.inj (run.symm.trans run'))
    exact (offsetInside_iff opened').mp inside'
  · exact fun inside' => ⟨_, s', run, (offsetInside_iff opened').mpr inside'⟩

private theorem writesFile_iff : WritesFile fileDesc pBuffer length s ↔
    -1022 ≤ length.toInt + file.fileOffset.toInt ∨ length = BitVec.intMin 32 := by
  by_cases least : length = BitVec.intMin 32
  · refine iff_of_true ?_ (Or.inr least)
    apply writesFile_of_beyond opened valid inside offset
    rw [least]
    have all : ∀ c ≤ 5, (5 : Int) <
        (BitVec.ofNat 32 c + ((BitVec.intMin 32 - 1).sdiv 512 + 1)).toInt := by decide
    exact all c inside
  · have quotient := tdiv_blockSize (length.toInt - 1)
    have position : file.fileOffset.toInt = 512 * c := by
      rw [offset, toInt_ofNat_of_lt (by omega)]
      omega
    rw [or_iff_left least, position]
    rcases Int.lt_or_le 5 (c + ((length.toInt - 1).tdiv 512 + 1)) with beyond | fits
    · refine iff_of_true ?_ (by split_ifs at quotient <;> omega)
      apply writesFile_of_beyond opened valid inside offset
      rwa [toInt_writeEnd inside least]
    · rw [writesFile_iff_of_fits opened valid blocks inside offset pBuffer least fits]
      split_ifs at quotient <;> omega

end Writing

/-! ## Reading -/

theorem Volume.BlocksOwned.ownBlock_iff {v : Volume} (blocks : v.BlocksOwned) {n : CInt}
    {k : Fin numOfDirectBlockPtr} : v.OwnBlock n (v.ptr (n, k)) ↔ v.ptr (n, k) ≠ 0#32 := by
  constructor
  · intro own null
    have data := own.data
    rw [null] at data
    exact absurd data (by decide)
  · exact fun holds => ⟨blocks.dataBlock holds, ⟨k, rfl⟩, fun m l same =>
      (blocks.ptr_injective holds same.symm).1.symm⟩

section Reading

variable {s : FileSys} {fileDesc : CInt} {bound : fileDesc.toNat < maxFdEntryMax} {file : File}
  (opened : s.view.opened ⟨fileDesc.toNat, bound⟩ file) (valid : ValidInode file.inodeNum)
  (blocks : s.view.volume.BlocksOwned)

include opened valid blocks

private theorem readsFile_of_allocated {k : Fin numOfDirectBlockPtr}
    (offset : file.fileOffset = BitVec.ofNat 32 (512 * k))
    (holds : s.view.volume.ptr (file.inodeNum, k) ≠ 0#32) (length : CInt)
    (allValid : ∀ i file, s.view.opened i file → ValidInode file.inodeNum) :
    ReadsFile fileDesc length s := by
  have small : (k : Nat) < 5 := k.isLt
  intro i file' index opened'
  obtain rfl : i = ⟨fileDesc.toNat, bound⟩ := Fin.ext index
  obtain rfl : file' = file := FilePtr.file.inj (opened'.symm.trans opened)
  refine ⟨k, ?_, blocks.ownBlock_iff.mpr holds, fun r data s' run => ?_⟩
  · rw [offset, curIdx_eq (by omega), toInt_ofNat_of_lt (by omega)]
  · obtain ⟨count, _⟩ := readFile_moves run allValid
    obtain ⟨bytes, s'', run', view, found⟩ :=
      readFile_view bound opened blocks valid k offset count rfl
    obtain ⟨same, rfl⟩ := Prod.mk.inj (Option.some.inj (run.symm.trans run'))
    have shown : s.view.volume.block (s.view.volume.ptr (file'.inodeNum, k)) =
        s.disk (s.view.volume.ptr (file'.inodeNum, k)) := if_pos (blocks.dataBlock holds)
    constructor
    · rw [(Prod.mk.inj same).2, found holds, shown]
    · have opened'' : s'.view.opened ⟨fileDesc.toNat, bound⟩
          ⟨BitVec.ofNat 32 (512 * (k + 1)), file'.inodeNum⟩ := by
        rw [view]
        exact opened_moveOffset_self.mpr rfl
      exact (offsetInside_iff opened'').mpr ⟨k + 1, by omega, rfl⟩

end Reading

/-! ## Runs -/

/-- The call is proper, and what it reads or writes is inside the file. -/
def Call.StaysInside (w : View) (c : Call) : Prop := c.Proper w ∧ c.HitsFile w

section Sound

variable {s : FileSys} (sound : s.view.Sound AtBlock) {fileDesc : CInt}

include sound

private theorem View.Sound.readsFile_iff (used : s.view.Opened fileDesc) (length : CInt) :
    ReadsFile fileDesc length s ↔ (Call.readFile fileDesc length).HitsFile s.view := by
  have blocks := sound.consistent.blocks
  constructor
  · intro reads i file index opened
    obtain ⟨k, number, own, _⟩ := reads i file index opened
    obtain ⟨_, c, inside, offset⟩ := (sound.descriptors i).allowed file opened
    rw [offset, curIdx_eq inside, toInt_ofNat_of_lt (by omega)] at number
    refine ⟨k, ?_, blocks.ownBlock_iff.mp own⟩
    rw [offset, Int.ofNat.inj number]
  · intro hits
    obtain ⟨bound, file, opened, _⟩ := sound.exists_file used
    obtain ⟨k, offset, holds⟩ := hits _ file rfl opened
    exact readsFile_of_allocated opened (sound.valid_opened _ file opened) blocks offset holds
      length sound.valid_opened

private theorem View.Sound.writesFile_iff (used : s.view.Opened fileDesc) (pBuffer : Chunk)
    (length : CInt) : WritesFile fileDesc pBuffer length s ↔
      (Call.writeFile fileDesc pBuffer length).HitsFile s.view := by
  obtain ⟨bound, file, opened, _, c, inside, offset⟩ := sound.exists_file used
  rw [KwHomework.writesFile_iff opened (sound.valid_opened _ file opened)
    sound.consistent.blocks inside offset pBuffer]
  constructor
  · intro hits i file' index opened'
    obtain rfl : i = ⟨fileDesc.toNat, bound⟩ := Fin.ext index
    obtain rfl : file' = file := FilePtr.file.inj (opened'.symm.trans opened)
    exact hits
  · exact fun hits => hits _ file rfl opened

private theorem View.Sound.used {i : Fin maxFdEntryMax} {file : File}
    (opened : s.view.opened i file) (index : (i : Nat) = fileDesc.toNat) :
    s.view.Opened fileDesc := by
  have bound : fileDesc.toNat < maxFdEntryMax := index ▸ i.isLt
  refine ⟨bound, (sound.descriptors _).used_iff.mpr ⟨file, ?_⟩⟩
  rwa [show (⟨fileDesc.toNat, bound⟩ : Fin maxFdEntryMax) = i from Fin.ext index.symm]

theorem View.Sound.atBlock_moved {s' : FileSys} {i : Fin maxFdEntryMax} {file : File}
    {fileOffset : CInt} (index : (i : Nat) = fileDesc.toNat)
    (table : s'.pFileDesc = moveOffset s.view.pFileDesc i file fileOffset)
    (inside : s'.view.OffsetInside fileDesc) (j : Fin maxFdEntryMax) (file' : File)
    (opened : s'.view.opened j file') : AtBlock file'.fileOffset := by
  by_cases same : j = i
  · exact inside j file' (same ▸ index) opened
  · have old : s.view.opened j file' := by
      have moved : (s'.pFileDesc j).pOpenFile = .file file' := opened
      rw [table, moveOffset, update_of_ne same] at moved
      exact moved
    exact ((sound.descriptors j).allowed file' old).2

private theorem View.Sound.atBlock_of_transfer {s' : FileSys} {c : Call} (transfers : c.Transfers)
    (hits : c.HitsFile s.view) (run : exec c.code s = some ((), s')) (j : Fin maxFdEntryMax)
    (file' : File) (opened' : s'.view.opened j file') : AtBlock file'.fileOffset := by
  cases c with
  | writeFile fd pBuffer length =>
      obtain ⟨r, run⟩ := exec_of_effect run
      obtain ⟨i, file, index, opened, same | ⟨ks, fileOffset, view⟩⟩ :=
        writeFile_view run sound.consistent.blocks sound.valid_opened
      · exact ((sound.descriptors j).allowed file' (same ▸ opened')).2
      · obtain ⟨r', s'', run', inside⟩ :=
          (sound.writesFile_iff (sound.used opened index) pBuffer length).mpr hits
        obtain rfl := congrArg Prod.snd (Option.some.inj (run.symm.trans run'))
        exact sound.atBlock_moved index (congrArg (·.pFileDesc) view) inside j file' opened'
  | readFile fd length =>
      obtain ⟨⟨r, data⟩, run⟩ := exec_of_effect run
      obtain ⟨_, i, file, index, opened, view⟩ := readFile_moves run sound.valid_opened
      have reads := (sound.readsFile_iff (sound.used opened index) length).mpr hits
      obtain ⟨_, _, _, result⟩ := reads i file index opened
      exact sound.atBlock_moved index (congrArg (·.pFileDesc) view) (result r data s' run).2 j file'
        opened'
  | createFile | openFile | closeFile | removeFile | makeDir | removeDir | enumerateDirStatus
  | getFileStatus | sync => exact transfers.elim

end Sound

theorem sound_of_staysInside {s : FileSys} (reachable : Reachable Formatted Call.StaysInside s) :
    s.view.Sound AtBlock := by
  refine reachable.invariant (fun _ here => here.view ▸ View.formatted_sound) ?_
  intro s s' c sound fine run
  exact sound.call_of_moved atBlock_zero fine.1 run fun transfers =>
    sound.atBlock_of_transfer transfers fine.2 run

theorem CreatedA.used {n : CInt} {s : FileSys} (made : CreatedA n s.view) :
    s.view.Opened 0#32 := by
  refine ⟨by decide, ?_⟩
  rw [made.table]
  rfl

theorem CreatedA.ptr_eq_zero {n : CInt} {w : View} (made : CreatedA n w)
    (k : Fin numOfDirectBlockPtr) : w.volume.ptr (n, k) = 0#32 := by
  obtain ⟨e, _, volume⟩ := made.volume
  obtain ⟨_, unused⟩ := Volume.freeInodeNum_spec Volume.formatted_free
  have other : n ≠ 0#32 := by
    rintro rfl
    rw [← made.number] at unused
    exact absurd unused (by decide)
  rw [volume, Volume.ptr_newFile]
  change Volume.formatted.ptr (n, k) = 0#32
  rw [Volume.ptr_formatted, update_of_ne fun same => other (congrArg Prod.fst same)]

end KwHomework
