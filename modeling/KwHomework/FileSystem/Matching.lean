import KwHomework.FileSystem.Lookup

/-!
# Disks that match

Two disks match when what the root leads to is the same on both: the bitmaps, the inodes that were
stored and the blocks that were written as directories.  Everything else is what `malloc` left
there.  When all inodes are taken the search returns -1, and the inode -1 lies at the end of the
block of the block bitmap.
-/

namespace KwHomework

open Function FS

/-! ## Inode numbers -/

/-- A number that the search for a free inode can return. -/
def FoundInode (n : CInt) : Prop := ValidInode n ∨ n = -1

theorem foundInode_firstClear (blk : Block) : FoundInode (blk.firstClear 8) := by
  rw [Block.firstClear_eq]
  cases found : (List.range (8 * 8)).find? fun n => !blk.bitAt n with
  | none => exact Or.inr rfl
  | some n =>
      have small : n < 8 * 8 := List.mem_range.mp (List.mem_of_find?_eq_some found)
      refine Or.inl ?_
      rw [ValidInode, foundOrFail, BitVec.toNat_ofNat]
      omega

private theorem inodeBlock_lost : inodeBlock (-1) = blockBitmapBlockNum := by decide

private theorem inodeIndex_lost : inodeIndex (-1) = 15 := by decide

theorem FoundInode.toNat_inodeBlock {n : CInt} (found : FoundInode n) :
    (n = -1 ∧ (inodeBlock n).toNat = 2) ∨
      (ValidInode n ∧ (inodeBlock n).toNat = n.toNat / 16 + 3 ∧ n.toNat < 64) := by
  rcases found with valid | rfl
  · exact Or.inr ⟨valid, KwHomework.toNat_inodeBlock valid, valid⟩
  · exact Or.inl ⟨rfl, by rw [inodeBlock_lost]; rfl⟩

theorem FoundInode.nonneg {n : CInt} (found : FoundInode n) : 0 ≤ (inodeBlock n).toInt := by
  rcases found.toNat_inodeBlock with ⟨_, block⟩ | ⟨_, block, small⟩ <;>
    rw [BitVec.toInt_eq_toNat_of_lt (by omega)] <;> omega

/-- The block holds no inode. -/
def NoInodes (b : CInt) : Prop := b.toNat < 2 ∨ 7 ≤ b.toNat

theorem FoundInode.inodeBlock_ne {n : CInt} (found : FoundInode n) {b : CInt} (none : NoInodes b) :
    inodeBlock n ≠ b := by
  rintro rfl
  rcases found.toNat_inodeBlock with ⟨_, block⟩ | ⟨_, block, small⟩ <;>
    rcases none with low | high <;> omega

theorem DataBlock.noInodes {b : CInt} (data : DataBlock b) : NoInodes b := Or.inr data.1

theorem FoundInode.eq_of_place {m n : CInt} (found : FoundInode m) (found' : FoundInode n)
    (block : inodeBlock m = inodeBlock n) (index : inodeIndex m = inodeIndex n) : m = n := by
  have same := congrArg BitVec.toNat block
  rcases found.toNat_inodeBlock with ⟨rfl, block₁⟩ | ⟨valid, block₁, _⟩ <;>
    rcases found'.toNat_inodeBlock with ⟨rfl, block₂⟩ | ⟨valid', block₂, _⟩
  · rfl
  · omega
  · omega
  · have remainder := congrArg Fin.val index
    rw [val_inodeIndex valid, val_inodeIndex valid'] at remainder
    exact BitVec.eq_of_toNat_eq (by omega)

/-! ## Bits and bytes -/

namespace Block

theorem byteAt_eq_of_bitAt {blk blk' : Block} {i : Nat}
    (same : ∀ m, m / 8 = i → blk'.bitAt m = blk.bitAt m) : blk'.byteAt i = blk.byteAt i := by
  refine BitVec.eq_of_getLsbD_eq fun r bound => ?_
  have bit := same (8 * i + (7 - r)) (by omega)
  rwa [bitAt, bitAt, show (8 * i + (7 - r)) / 8 = i by omega,
    show 7 - (8 * i + (7 - r)) % 8 = r by omega] at bit

private theorem bitAt_congr {blk blk' : Block} {m : Nat}
    (same : blk'.byteAt (m / 8) = blk.byteAt (m / 8)) :
    blk'.bitAt m = blk.bitAt m := by rw [bitAt, same, bitAt]

theorem inodeAt_congr {blk blk' : Block} {idx : Fin 16}
    (same : ∀ i, 32 * (idx : Nat) ≤ i → i < 32 * (idx : Nat) + 32 → blk'.byteAt i = blk.byteAt i) :
    blk'.inodeAt idx = blk.inodeAt idx := by
  have read : ∀ k < 8, blk'.intAt (32 * idx + 4 * k) = blk.intAt (32 * idx + 4 * k) := by
    intro k small
    rw [intAt, intAt, same _ (by omega) (by omega), same _ (by omega) (by omega),
      same _ (by omega) (by omega), same _ (by omega) (by omega)]
  refine Inode.ext (read 0 (by omega)) (read 1 (by omega)) (read 2 (by omega)) (funext fun k => ?_)
  have small : (k : Nat) < 5 := k.isLt
  exact read (k + 3) (by omega)

private theorem byteAt_storeInode_of_lt (blk : Block) {idx : Fin 16} (inode : Inode) {i : Nat}
    (before : i < 32 * (idx : Nat)) : (blk.storeInode idx inode).byteAt i = blk.byteAt i := by
  have last : (idx : Nat) < 16 := idx.isLt
  rw [storeInode, byteAt_storeInts _ _ _ _ _ (by omega), if_neg (by omega)]

/-- The number -1 sets no bit. -/
theorem setBit_lost (blk : Block) : blk.setBit (-1) = some blk := by
  have index : byteIndex (-1) = some 0 := by decide
  have bit : bitIndex (-1) = 8 := by decide
  have mask : setMask (blk 0) 8 = blk 0 := by
    refine BitVec.eq_of_getLsbD_eq fun i inside => ?_
    rw [getLsbD_setMask _ _ inside, decide_eq_false (by omega), Bool.or_false]
  rw [setBit, index, bit]
  exact congrArg some ((congrArg (update blk 0) mask).trans (update_eq_self 0 blk))

end Block

/-! ## Reading and writing inodes -/

namespace Store

variable (disk : Store) {m n b : CInt}

theorem readInode_found (found : FoundInode n) : disk.readInode n = some (disk.inodeOf n) := by
  rw [readInode, readBlock, if_pos found.nonneg]
  rfl

theorem inodeOf_update (found : FoundInode n) (none : NoInodes b) (blk : Block) :
    inodeOf (update disk b blk) n = disk.inodeOf n := by
  rw [inodeOf, update_of_ne (found.inodeBlock_ne none), inodeOf]

theorem inodeOf_storeInode (found : FoundInode m) (found' : FoundInode n) (inode : Inode) :
    inodeOf (update disk (inodeBlock n)
      ((disk (inodeBlock n)).storeInode (inodeIndex n) inode)) m =
      if m = n then inode else disk.inodeOf m := by
  rw [inodeOf]
  split_ifs with same
  · rw [same, update_self, Block.inodeAt_storeInode_self]
  · by_cases block : inodeBlock m = inodeBlock n
    · have index : inodeIndex m ≠ inodeIndex n := fun index =>
        same (found.eq_of_place found' block index)
      rw [block, update_self, Block.inodeAt_storeInode_of_ne _ _ index, inodeOf, block]
    · rw [update_of_ne block, inodeOf]

/-- The bits of the block bitmap do not reach the inode -1. -/
theorem inodeOf_update_bitmap (found : FoundInode n) {blk : Block}
    (same : ∀ m, 512 ≤ m → blk.bitAt m = (disk blockBitmapBlockNum).bitAt m) :
    inodeOf (update disk blockBitmapBlockNum blk) n = disk.inodeOf n := by
  rcases found with valid | rfl
  · have other : inodeBlock n ≠ blockBitmapBlockNum := by
      intro block
      have number := congrArg BitVec.toNat block
      rw [toNat_inodeBlock valid] at number
      change n.toNat / 16 + 3 = 2 at number
      omega
    rw [inodeOf, update_of_ne other, inodeOf]
  · rw [inodeOf, inodeOf, inodeBlock_lost, update_self, inodeIndex_lost]
    refine Block.inodeAt_congr fun i high _ => Block.byteAt_eq_of_bitAt fun m place => same m ?_
    change 480 ≤ i at high
    omega

/-- The inode -1 does not reach the bits of the block bitmap. -/
theorem bitAt_storeInode (found : FoundInode n) (inode : Inode) {i : Nat} (small : i < 512) :
    ((update disk (inodeBlock n) ((disk (inodeBlock n)).storeInode (inodeIndex n) inode) : Store)
      blockBitmapBlockNum).bitAt i = (disk blockBitmapBlockNum).bitAt i := by
  rcases found with valid | rfl
  · have other : blockBitmapBlockNum ≠ inodeBlock n := by
      intro block
      have number := congrArg BitVec.toNat block
      rw [toNat_inodeBlock valid] at number
      change 2 = n.toNat / 16 + 3 at number
      omega
    rw [update_of_ne other]
  · rw [inodeBlock_lost, update_self, inodeIndex_lost]
    refine Block.bitAt_congr (Block.byteAt_storeInode_of_lt _ inode ?_)
    change i / 8 < 480
    omega

/-! ## Matching disks -/

/-- The disks agree on the bitmaps, on the inodes `known` and on the directory blocks `dirs`.  The
known inodes point to these blocks, and the entries of these blocks to the inodes `listed`. -/
structure Matches (known dirs listed : Set CInt) (disk disk' : Store) : Prop where
  inodeBit : ∀ m < 64, (disk inodeBitmapBlockNum).bitAt m = (disk' inodeBitmapBlockNum).bitAt m
  blockBit : ∀ m < 512, (disk blockBitmapBlockNum).bitAt m = (disk' blockBitmapBlockNum).bitAt m
  reserved : ∀ m < 7, (disk blockBitmapBlockNum).bitAt m = true
  found : ∀ n ∈ known, FoundInode n
  inode : ∀ n ∈ known, disk.inodeOf n = disk'.inodeOf n
  ptr : ∀ n ∈ known, ∀ k, (disk.inodeOf n).dirBlockPtr k ≠ 0#32 →
    (disk.inodeOf n).dirBlockPtr k ∈ dirs
  data : ∀ b ∈ dirs, DataBlock b
  block : ∀ b ∈ dirs, disk b = disk' b
  entry : ∀ b ∈ dirs, ∀ j, (disk b).entryInode j ∈ listed

namespace Matches

variable {known dirs listed listed' : Set CInt} {disk disk' : Store} {n b : CInt}

theorem mono (agree : Matches known dirs listed disk disk') (more : listed ⊆ listed') :
    Matches known dirs listed' disk disk' :=
  { agree with entry := fun b member j => more (agree.entry b member j) }

/-- The first two blocks hold nothing but the inode bitmap. -/
theorem writeLow (agree : Matches known dirs listed disk disk') (low : b.toNat < 2)
    {blk blk' : Block} (bits : ∀ m < 64, (update disk b blk inodeBitmapBlockNum).bitAt m =
      (update disk' b blk' inodeBitmapBlockNum).bitAt m) :
    Matches known dirs listed (update disk b blk) (update disk' b blk') := by
  have inode : ∀ (disk : Store) (blk : Block), ∀ n ∈ known,
      inodeOf (update disk b blk) n = disk.inodeOf n :=
    fun disk blk n member => disk.inodeOf_update (agree.found n member) (Or.inl low) blk
  have bitmap : blockBitmapBlockNum ≠ b := by
    rintro rfl
    exact absurd low (by decide)
  have apart : ∀ c ∈ dirs, c ≠ b := by
    rintro c member rfl
    have high := (agree.data c member).1
    omega
  refine ⟨bits, ?_, ?_, agree.found, fun n member => ?_, fun n member => ?_, agree.data,
    fun c member => ?_, fun c member => ?_⟩
  · rw [update_of_ne bitmap, update_of_ne bitmap]
    exact agree.blockBit
  · rw [update_of_ne bitmap]
    exact agree.reserved
  · rw [inode disk blk n member, inode disk' blk' n member, agree.inode n member]
  · rw [inode disk blk n member]
    exact agree.ptr n member
  · rw [update_of_ne (apart c member), update_of_ne (apart c member), agree.block c member]
  · rw [update_of_ne (apart c member)]
    exact agree.entry c member

/-- The info block is not compared. -/
theorem writeInfo (agree : Matches known dirs listed disk disk') (blk blk' : Block) :
    Matches known dirs listed (update disk filesysInfoBlock blk)
      (update disk' filesysInfoBlock blk') := by
  have other : inodeBitmapBlockNum ≠ filesysInfoBlock := by decide
  refine agree.writeLow (by decide) ?_
  rw [update_of_ne other, update_of_ne other]
  exact agree.inodeBit

/-- The inode bitmap is written. -/
theorem writeInodeBitmap (agree : Matches known dirs listed disk disk') {blk blk' : Block}
    (bits : ∀ m < 64, blk.bitAt m = blk'.bitAt m) :
    Matches known dirs listed (update disk inodeBitmapBlockNum blk)
      (update disk' inodeBitmapBlockNum blk') :=
  agree.writeLow (by decide) (by rwa [update_self, update_self])

/-- A bit of the block bitmap is set. -/
theorem setBlockBit (agree : Matches known dirs listed disk disk') (small : b.toNat < 512)
    {blk blk' : Block}
    (bits : ∀ m, blk.bitAt m = if m = b.toNat then true else (disk blockBitmapBlockNum).bitAt m)
    (bits' : ∀ m, blk'.bitAt m =
      if m = b.toNat then true else (disk' blockBitmapBlockNum).bitAt m) :
    Matches known dirs listed (update disk blockBitmapBlockNum blk)
      (update disk' blockBitmapBlockNum blk') := by
  have inode : ∀ n ∈ known, inodeOf (update disk blockBitmapBlockNum blk) n = disk.inodeOf n :=
    fun n member => disk.inodeOf_update_bitmap (agree.found n member) fun m high => by
      rw [bits, if_neg (by omega)]
  have inode' : ∀ n ∈ known, inodeOf (update disk' blockBitmapBlockNum blk') n = disk'.inodeOf n :=
    fun n member => disk'.inodeOf_update_bitmap (agree.found n member) fun m high => by
      rw [bits', if_neg (by omega)]
  have other : inodeBitmapBlockNum ≠ blockBitmapBlockNum := by decide
  have apart : ∀ c ∈ dirs, c ≠ blockBitmapBlockNum := by
    rintro c member rfl
    exact absurd (agree.data _ member) (by decide)
  refine ⟨?_, fun m inside => ?_, fun m low => ?_, agree.found, fun n member => ?_,
    fun n member => ?_, agree.data, fun c member => ?_, fun c member => ?_⟩
  · rw [update_of_ne other, update_of_ne other]
    exact agree.inodeBit
  · rw [update_self, update_self, bits, bits', agree.blockBit m inside]
  · rw [update_self, bits, agree.reserved m low, ite_self]
  · rw [inode n member, inode' n member, agree.inode n member]
  · rw [inode n member]
    exact agree.ptr n member
  · rw [update_of_ne (apart c member), update_of_ne (apart c member), agree.block c member]
  · rw [update_of_ne (apart c member)]
    exact agree.entry c member

/-- A directory block is written. -/
theorem writeBlock (agree : Matches known dirs listed disk disk') (data : DataBlock b) {blk : Block}
    (entries : ∀ j, blk.entryInode j ∈ listed) :
    Matches known (insert b dirs) listed (update disk b blk) (update disk' b blk) := by
  have apart : ∀ c : CInt, c.toNat < 7 → c ≠ b := by
    rintro c low rfl
    exact absurd data.1 (by omega)
  have inode : ∀ disk : Store, ∀ n ∈ known, inodeOf (update disk b blk) n = disk.inodeOf n :=
    fun disk n member => disk.inodeOf_update (agree.found n member) data.noInodes blk
  have bitmap := apart blockBitmapBlockNum (by decide)
  have bitmap' := apart inodeBitmapBlockNum (by decide)
  refine ⟨?_, ?_, ?_, agree.found, fun n member => ?_, fun n member => ?_, fun c member => ?_,
    fun c member => ?_, fun c member => ?_⟩
  · rw [update_of_ne bitmap', update_of_ne bitmap']
    exact agree.inodeBit
  · rw [update_of_ne bitmap, update_of_ne bitmap]
    exact agree.blockBit
  · rw [update_of_ne bitmap]
    exact agree.reserved
  · rw [inode disk n member, inode disk' n member, agree.inode n member]
  · rw [inode disk n member]
    exact fun k holds => Set.mem_insert_of_mem b (agree.ptr n member k holds)
  · rcases member with rfl | member
    · exact data
    · exact agree.data c member
  · by_cases same : c = b
    · rw [same, update_self, update_self]
    · rw [update_of_ne same, update_of_ne same, agree.block c (member.resolve_left same)]
  · by_cases same : c = b
    · rw [same, update_self]
      exact entries
    · rw [update_of_ne same]
      exact agree.entry c (member.resolve_left same)

/-- An inode is stored. -/
theorem putInode (agree : Matches known dirs listed disk disk') (found : FoundInode n)
    {inode : Inode} (ptrs : ∀ k, inode.dirBlockPtr k ≠ 0#32 → inode.dirBlockPtr k ∈ dirs) :
    Matches (insert n known) dirs listed
      (update disk (inodeBlock n) ((disk (inodeBlock n)).storeInode (inodeIndex n) inode))
      (update disk' (inodeBlock n) ((disk' (inodeBlock n)).storeInode (inodeIndex n) inode)) := by
  have known_found : ∀ m ∈ insert n known, FoundInode m := by
    rintro m (rfl | member)
    · exact found
    · exact agree.found m member
  have apart : inodeBitmapBlockNum ≠ inodeBlock n :=
    (found.inodeBlock_ne (Or.inl (by decide))).symm
  have stored := fun (disk : Store) m (member : m ∈ insert n known) =>
    disk.inodeOf_storeInode (known_found m member) found inode
  refine ⟨?_, fun m small => ?_, fun m low => ?_, known_found, fun m member => ?_,
    fun m member => ?_, agree.data, fun c member => ?_, fun c member => ?_⟩
  · rw [update_of_ne apart, update_of_ne apart]
    exact agree.inodeBit
  · rw [disk.bitAt_storeInode found inode small, disk'.bitAt_storeInode found inode small,
      agree.blockBit m small]
  · rw [disk.bitAt_storeInode found inode (by omega), agree.reserved m low]
  · rw [stored disk m member, stored disk' m member]
    by_cases same : m = n
    · rw [if_pos same, if_pos same]
    · rw [if_neg same, if_neg same, agree.inode m (member.resolve_left same)]
  · rw [stored disk m member]
    by_cases same : m = n
    · rw [if_pos same]
      exact ptrs
    · rw [if_neg same]
      exact agree.ptr m (member.resolve_left same)
  · have other := (found.inodeBlock_ne (agree.data c member).noInodes).symm
    rw [update_of_ne other, update_of_ne other, agree.block c member]
  · rw [update_of_ne (found.inodeBlock_ne (agree.data c member).noInodes).symm]
    exact agree.entry c member

/-! ## Reading matching disks -/

theorem freeInode_eq (agree : Matches known dirs listed disk disk') :
    (disk inodeBitmapBlockNum).firstClear 8 = (disk' inodeBitmapBlockNum).firstClear 8 := by
  rw [Block.firstClear_eq, Block.firstClear_eq]
  refine congrArg foundOrFail (List.find?_congr fun m member => ?_)
  rw [agree.inodeBit m (List.mem_range.mp member)]

theorem freeBlock_eq (agree : Matches known dirs listed disk disk') :
    (disk blockBitmapBlockNum).firstClear 64 = (disk' blockBitmapBlockNum).firstClear 64 := by
  rw [Block.firstClear_eq, Block.firstClear_eq]
  refine congrArg foundOrFail (List.find?_congr fun m member => ?_)
  rw [agree.blockBit m (List.mem_range.mp member)]

/-- The search returns a block behind the metadata, or -1. -/
theorem freeBlock_spec (agree : Matches known dirs listed disk disk') :
    (disk blockBitmapBlockNum).firstClear 64 = -1 ∨
      DataBlock ((disk blockBitmapBlockNum).firstClear 64) := by
  rw [Block.firstClear_eq]
  cases search : (List.range (8 * 64)).find? fun m => !(disk blockBitmapBlockNum).bitAt m with
  | none => exact Or.inl rfl
  | some m =>
      have small : m < 8 * 64 := List.mem_range.mp (List.mem_of_find?_eq_some search)
      have clear : (disk blockBitmapBlockNum).bitAt m = false := by
        simpa using List.find?_some search
      have high : 7 ≤ m := by
        by_contra low
        rw [agree.reserved m (by omega)] at clear
        cases clear
      refine Or.inr ?_
      rw [DataBlock, foundOrFail, BitVec.toNat_ofNat]
      omega

section Search

variable (agree : Matches known dirs listed disk disk') {inode : Inode}
  (inside : ∀ k, inode.dirBlockPtr k ≠ 0#32 → inode.dirBlockPtr k ∈ dirs)

include agree inside

theorem scan_eq (test : Block → Fin numOfDirentPerBlock → Option Bool) :
    disk.scan inode test = disk'.scan inode test := by
  refine congrArg (List.findSomeM? · _) (funext fun k => ?_)
  split_ifs with holds
  · rw [readBlock, readBlock, agree.block _ (inside k holds)]
  · rfl

theorem scanRoom_eq : disk.scanRoom inode = disk'.scanRoom inode := by
  refine congrArg (List.findSomeM? · _) (funext fun k => ?_)
  split_ifs with holds
  · rw [readBlock, readBlock, agree.block _ (inside k holds)]
  · rfl

theorem listed_of_scan {test : Block → Fin numOfDirentPerBlock → Option Bool}
    {i : Fin numOfDirectBlockPtr} {entries : Block} {j : Fin numOfDirentPerBlock}
    (search : disk.scan inode test = some (some (i, entries, j))) :
    inode.dirBlockPtr i ∈ dirs ∧ ∀ l, entries.entryInode l ∈ listed := by
  obtain ⟨holds, _, rfl, _⟩ := scan_eq_some search
  exact ⟨inside i holds, agree.entry _ (inside i holds)⟩

end Search

/-- A walk that starts at a known inode goes the same way on both disks. -/
theorem walk_eq (agree : Matches known dirs known disk disk') (tokens : List (List Byte)) :
    ∀ {cur : CInt}, cur ∈ known → disk.walk cur tokens = disk'.walk cur tokens ∧
      ∀ d last, disk.walk cur tokens = some (d, last) → d ∈ known := by
  induction tokens with
  | nil =>
      intro cur member
      refine ⟨rfl, fun d last walked => ?_⟩
      obtain ⟨rfl, _⟩ : cur = d ∧ none = last := by simpa [walk] using walked
      exact member
  | cons token tokens induction =>
      intro cur member
      cases tokens with
      | nil =>
          refine ⟨rfl, fun d last walked => ?_⟩
          obtain ⟨rfl, _⟩ : cur = d ∧ some token = last := by simpa [walk] using walked
          exact member
      | cons next rest =>
          have inside := agree.ptr cur member
          have found := agree.found cur member
          rw [walk, walk, readInode_found disk found, readInode_found disk' found,
            ← agree.inode cur member, Option.bind_eq_bind, Option.bind_eq_bind, Option.bind_some,
            Option.bind_some, ← agree.scan_eq inside]
          cases search : disk.scan (disk.inodeOf cur) (nameMatches (cString token)) with
          | none => exact ⟨rfl, fun d last walked => by simp at walked⟩
          | some result =>
              cases result with
              | none =>
                  refine ⟨rfl, fun d last walked => ?_⟩
                  obtain ⟨rfl, _⟩ : cur = d ∧ none = last := by simpa using walked
                  exact member
              | some place =>
                  obtain ⟨i, entries, j⟩ := place
                  exact induction ((agree.listed_of_scan inside search).2 j)

end Matches
end Store
end KwHomework
