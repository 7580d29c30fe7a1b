import KwHomework.FileSystem.DirScripts
import Mathlib.Data.Nat.Digits.Defs

/-!
# The first test of `testcase.c`

`TestCase1` makes directories, lists them and removes most of them again, and its numbers of users
and devices are parameters here.  What it prints, and what a later process finds on the disk,
follows from the rules for scripts.
-/

namespace KwHomework

open Function FS Scripts

/-- The bytes of a text. -/
def bytesOf (text : List Char) : List Byte := text.map fun c => BitVec.ofNat 8 c.toNat

/-- An absolute path. -/
def absolute (names : List (List Byte)) : List Byte := names.flatMap (47#8 :: ·)

namespace TestCase1

def tmp : List Byte := bytesOf ['t', 'm', 'p']

def usr : List Byte := bytesOf ['u', 's', 'r']

def etc : List Byte := bytesOf ['e', 't', 'c']

def home : List Byte := bytesOf ['h', 'o', 'm', 'e']

/-- `user%d`. -/
def user (i : Nat) : List Byte := bytesOf (['u', 's', 'e', 'r'] ++ Nat.toDigits 10 i)

/-- `dev%d`. -/
def dev (i : Nat) : List Byte := bytesOf (['d', 'e', 'v'] ++ Nat.toDigits 10 i)

def tmpPath : Path := ⟨absolute [tmp], by decide⟩

def usrPath : Path := ⟨absolute [usr], by decide⟩

def etcPath : Path := ⟨absolute [etc], by decide⟩

def homePath : Path := ⟨absolute [home], by decide⟩

/-- `sprintf(dirName, ...)` with `MAX_NAME_LEN` bytes for `dirName`. -/
def dirName (text : List Byte) : Option Path := sprintfPath maxNameLen text

/-- The body of a loop: a call on the path that is made in `dirName`. -/
def callOnName (call : Path → FS (Option CInt)) (names : List (List Byte)) : FS PUnit := do
  let path ← defined (dirName (absolute names))
  let _ ← call path

/-- What is printed of the directories. -/
structure Listings where
  home : List ContentsLine
  etc : List ContentsLine
  emptied : List ContentsLine

end TestCase1

open TestCase1

/-- `TestCase1`, where the source has 5 users and 34 devices. -/
def FS.testCase1 (numUsers numDevs : Nat) : FS Listings := do
  let _ ← makeDir tmpPath
  let _ ← makeDir usrPath
  let _ ← makeDir etcPath
  let _ ← makeDir homePath
  (List.range numUsers).forM fun i => callOnName makeDir [home, user i]
  (List.range numDevs).forM fun i => callOnName makeDir [etc, dev i]
  let homeLines ← listDirContents homePath
  let etcLines ← listDirContents etcPath
  (List.range numDevs).reverse.forM fun i => callOnName removeDir [etc, dev i]
  let emptied ← listDirContents etcPath
  let _ ← removeDir etcPath
  let _ ← removeDir usrPath
  let _ ← removeDir tmpPath
  return ⟨homeLines, etcLines, emptied⟩

/-! ## Names -/

/-- A name without dots and slashes. -/
def Word (x : List Byte) : Prop := x ≠ [] ∧ ∀ byte ∈ x, 48#8 ≤ byte

instance (x : List Byte) : Decidable (Word x) := inferInstanceAs (Decidable (_ ∧ _))

namespace TestCase1

variable {base : List Char} {x y : List Byte} {names : List (List Byte)} {path : Path} {i j : Nat}

private theorem digit_spec {c : Char} (digit : c ∈ Nat.toDigits 10 i) : 48 ≤ c.toNat ∧
    c.toNat ≤ 57 := by
  have test := Nat.isDigit_of_mem_toDigits (by decide) (by decide) digit
  simp only [Char.isDigit, Bool.and_eq_true, decide_eq_true_eq, UInt32.le_iff_toNat_le,
    ge_iff_le] at test
  exact test

private theorem byte_of_digit {c : Char} (digit : c ∈ Nat.toDigits 10 i) :
    (BitVec.ofNat 8 c.toNat).toNat = c.toNat := by
  have range := digit_spec digit
  rw [BitVec.toNat_ofNat]
  omega

theorem word_numbered (i : Nat) (letters : ∀ byte ∈ bytesOf base, 48#8 ≤ byte) :
    Word (bytesOf (base ++ Nat.toDigits 10 i)) := by
  have digits := Nat.toDigits_ne_nil (n := i) (b := 10)
  refine ⟨by simp [bytesOf, digits], fun byte member => ?_⟩
  rw [bytesOf, List.map_append] at member
  rcases List.mem_append.mp member with letter | last
  · exact letters byte letter
  · obtain ⟨c, digit, rfl⟩ := List.mem_map.mp last
    rw [BitVec.le_def, byte_of_digit digit]
    exact (digit_spec digit).1

private theorem numbered_injective (base : List Char) :
    Injective fun i => bytesOf (base ++ Nat.toDigits 10 i) := by
  have back : ∀ n, (bytesOf (Nat.toDigits 10 n)).map (fun byte => Char.ofNat byte.toNat) =
      Nat.toDigits 10 n := by
    intro n
    rw [bytesOf, List.map_map]
    refine (List.map_congr_left fun c digit => ?_).trans (List.map_id _)
    rw [comp_apply, byte_of_digit digit, Char.ofNat_toNat, id_eq]
  intro i j same
  simp only [bytesOf, List.map_append, List.append_cancel_left_eq] at same
  have digits : Nat.toDigits 10 i = Nat.toDigits 10 j := by
    rw [← back i, bytesOf, same]
    exact back j
  calc
    i = Nat.ofDigitChars 10 (Nat.toDigits 10 i) 0 := Nat.ofDigitChars_ten_toDigits.symm
    _ = Nat.ofDigitChars 10 (Nat.toDigits 10 j) 0 := by rw [digits]
    _ = j := Nat.ofDigitChars_ten_toDigits

private theorem length_numbered {k : Nat} (small : i < 10 ^ k) (positive : 0 < k) :
    (bytesOf (base ++ Nat.toDigits 10 i)).length ≤ base.length + k := by
  rw [bytesOf, List.length_map, List.length_append]
  exact Nat.add_le_add_left ((Nat.length_toDigits_le_iff (by decide) positive).mpr small) _

/-! ## Paths -/

private theorem slashless_of_word (word : Word x) : 47#8 ∉ x := fun slash =>
  absurd (word.2 _ slash) (by decide)

theorem strtokFrom_absolute (words : ∀ x ∈ names, Word x) :
    strtokFrom [] (absolute names) = names := by
  induction names using List.reverseRecOn with
  | nil => rfl
  | append_singleton names x induction =>
      have word := words x (by simp)
      have front := induction fun y member => words y (List.mem_append_left _ member)
      rw [absolute, List.flatMap_append, List.flatMap_singleton, strtokFrom_append, ← absolute,
        front, strtokFrom_name (slashless_of_word word) (by simpa using word.1), List.nil_append]

theorem pathTo_of_absolute (bytes : path.bytes = absolute (names ++ [x]))
    (words : ∀ y ∈ names ++ [x], Word y) (short : (absolute (names ++ [x])).length < 99)
    (length : x.length ≤ 11) : PathTo path names x := by
  refine ⟨?_, length, fun front => ?_⟩
  · rw [Path.tokens, bytes, List.take_of_length_le (by omega), strtokFrom_absolute words]
  · have byte := (words x (by simp)).2 46#8 (List.mem_of_mem_head? front)
    exact absurd byte (by decide)

/-- A path with two names is made in `dirName`, if it is short. -/
theorem exists_dirName (word : Word x) (word' : Word y) (short : x.length + y.length < 10) :
    ∃ path, dirName (absolute [x, y]) = some path ∧ PathTo path [x] y := by
  have length : (absolute [x, y]).length < 12 := by
    simp only [absolute, List.flatMap_cons, List.flatMap_nil, List.append_nil, List.length_append,
      List.length_cons]
    omega
  have words : ∀ z ∈ [x] ++ [y], Word z := by simp [word, word']
  have nonzero : 0#8 ∉ absolute [x, y] := by
    intro zero
    obtain ⟨z, member, inside⟩ := List.mem_flatMap.mp zero
    rcases List.mem_cons.mp inside with slash | inside
    · exact absurd slash (by decide)
    · exact absurd ((words z member).2 _ inside) (by decide)
  refine ⟨_, dif_pos ⟨nonzero, length⟩, ?_⟩
  exact pathTo_of_absolute rfl words (show (absolute [x, y]).length < 99 by omega) (by omega)

/-! ## Loops -/

variable {paths : Finset (List (List Byte))} {parent : List Byte} {name : Nat → List Byte}
  {list : List Nat}

private theorem foldl_insert (f : Nat → List (List Byte)) (list : List Nat)
    (paths : Finset (List (List Byte))) :
    list.foldl (fun paths i => insert (f i) paths) paths = paths ∪ (list.map f).toFinset := by
  induction list generalizing paths with
  | nil => simp
  | cons i list induction =>
      rw [List.foldl_cons, induction]
      ext path
      simp

private theorem foldl_erase (f : Nat → List (List Byte)) (list : List Nat)
    (paths : Finset (List (List Byte))) :
    list.foldl (fun paths i => paths.erase (f i)) paths = paths \ (list.map f).toFinset := by
  induction list generalizing paths with
  | nil => simp
  | cons i list induction =>
      rw [List.foldl_cons, induction]
      ext path
      simp [and_assoc, and_left_comm]

private theorem does_callOnName {call : Path → FS (Option CInt)} {names : List (List Byte)}
    {paths' : Finset (List (List Byte))} (made : dirName (absolute names) = some path)
    (does : flat.Does Dirs (call path) paths fun _ u => u = paths') :
    flat.Does Dirs (callOnName call names) paths fun _ u => u = paths' := by
  rw [callOnName, made]
  have first : flat.Does Dirs (defined (some path)) paths fun r u => r = path ∧ u = paths :=
    .pure ⟨rfl, rfl⟩
  refine first.bind ?_
  rintro _ _ ⟨rfl, rfl⟩
  exact does.bind fun _ u same => .pure same

theorem does_makeDirs (named : ∀ i ∈ list, ∃ path, dirName (absolute [parent, name i]) = some path ∧
      PathTo path [parent] (name i))
    (member : [parent] ∈ paths) (distinct : (list.map name).Nodup)
    (new : ∀ i ∈ list, [parent, name i] ∉ paths) (few : paths.card + list.length ≤ 64) :
    flat.Does Dirs (list.forM fun i => callOnName FS.makeDir [parent, name i]) paths fun _ u =>
      u = paths ∪ (list.map fun i => [parent, name i]).toFinset := by
  rw [← foldl_insert]
  refine Interpreter.Does.forM (fun u rest => (∀ i ∈ rest, i ∈ list) ∧ [parent] ∈ u ∧
    (rest.map name).Nodup ∧ (∀ i ∈ rest, [parent, name i] ∉ u) ∧ u.card + rest.length ≤ 64) ?_
    ⟨fun _ inside => inside, member, distinct, new, few⟩
  rintro u i rest ⟨inside, member, distinct, new, few⟩
  obtain ⟨path, made, leadsTo⟩ := named i (inside i List.mem_cons_self)
  rw [List.map_cons, List.nodup_cons] at distinct
  have here := new i List.mem_cons_self
  rw [List.length_cons] at few
  refine ⟨does_callOnName made (Dirs.makeDir leadsTo member here (by omega)),
    fun j later => inside j (List.mem_cons_of_mem i later), Finset.mem_insert_of_mem member,
    distinct.2,
    fun j later again => ?_, by rw [Finset.card_insert_of_notMem here]; omega⟩
  rcases Finset.mem_insert.mp again with same | old
  · have equal : name j = name i := by simpa using same
    exact distinct.1 (equal ▸ List.mem_map_of_mem later)
  · exact new j (List.mem_cons_of_mem i later) old

/-- The directories in a directory go, as long as nothing is below them. -/
theorem does_removeDirs
    (named : ∀ i ∈ list, ∃ path, dirName (absolute [parent, name i]) = some path ∧
      PathTo path [parent] (name i))
    (member : [parent] ∈ paths) (distinct : (list.map name).Nodup)
    (old : ∀ i ∈ list, [parent, name i] ∈ paths) (flatter : ∀ p ∈ paths, p.length ≤ 2) :
    flat.Does Dirs (list.forM fun i => callOnName FS.removeDir [parent, name i]) paths fun _ u =>
      u = paths \ (list.map fun i => [parent, name i]).toFinset := by
  rw [← foldl_erase]
  refine Interpreter.Does.forM (fun u rest => (∀ i ∈ rest, i ∈ list) ∧ [parent] ∈ u ∧
    (rest.map name).Nodup ∧ (∀ i ∈ rest, [parent, name i] ∈ u) ∧ ∀ p ∈ u, p.length ≤ 2) ?_
    ⟨fun _ inside => inside, member, distinct, old, flatter⟩
  rintro u i rest ⟨inside, member, distinct, old, flatter⟩
  obtain ⟨path, made, leadsTo⟩ := named i (inside i List.mem_cons_self)
  rw [List.map_cons, List.nodup_cons] at distinct
  have empty : ∀ y, [parent] ++ [name i] ++ [y] ∉ u := by
    intro y below
    have length := flatter _ below
    simp at length
  refine ⟨does_callOnName made (Dirs.removeDir leadsTo member (old i List.mem_cons_self) empty),
    fun j later => inside j (List.mem_cons_of_mem i later),
    Finset.mem_erase_of_ne_of_mem (by simp) member, distinct.2, fun j later => ?_,
    fun p there => flatter p (Finset.mem_of_mem_erase there)⟩
  refine Finset.mem_erase_of_ne_of_mem (fun same => ?_) (old j (List.mem_cons_of_mem i later))
  have equal : name j = name i := by simpa using same
  exact distinct.1 (equal ▸ List.mem_map_of_mem later)

/-! ## The test -/

/-- The directories that are made first. -/
def tops : Finset (List (List Byte)) := {[home], [etc], [usr], [tmp], []}

/-- What is made in a directory. -/
def subdirs (parent : List Byte) (name : Nat → List Byte) (count : Nat) :
    Finset (List (List Byte)) :=
  ((List.range count).map fun i => [parent, name i]).toFinset

/-- What the test leaves. -/
def userDirs (numUsers : Nat) : Finset (List (List Byte)) :=
  {[], [home]} ∪ subdirs home user numUsers

variable {numUsers numDevs : Nat}

private theorem mem_subdirs {count : Nat} {p : List (List Byte)} :
    p ∈ subdirs parent name count ↔ ∃ i < count, [parent, name i] = p := by
  simp [subdirs]

private theorem card_subdirs_le (parent : List Byte) (name : Nat → List Byte) (count : Nat) :
    (subdirs parent name count).card ≤ count := by
  refine (List.toFinset_card_le _).trans ?_
  rw [List.length_map, List.length_range]

private theorem pathTo_top (bytes : path.bytes = absolute [x]) (word : Word x)
    (short : x.length ≤ 4) :
    PathTo path [] x := by
  refine pathTo_of_absolute bytes (by simpa using word) ?_ (by omega)
  simp only [absolute, List.nil_append, List.flatMap_cons, List.flatMap_nil, List.append_nil,
    List.length_cons]
  omega

private theorem named_user (small : i < 10) : ∃ path,
    dirName (absolute [home, user i]) = some path ∧ PathTo path [home] (user i) := by
  have length : (user i).length ≤ 4 + 1 := length_numbered small (by decide)
  exact exists_dirName (by decide) (word_numbered i (by decide))
    (show 4 + (user i).length < 10 by omega)

private theorem named_dev (small : i < 100) : ∃ path,
    dirName (absolute [etc, dev i]) = some path ∧ PathTo path [etc] (dev i) := by
  have length : (dev i).length ≤ 3 + 2 := length_numbered small (by decide)
  exact exists_dirName (by decide) (word_numbered i (by decide))
    (show 3 + (dev i).length < 10 by omega)

private theorem mem_names_iff {count : Nat} {others : Finset (List (List Byte))}
    (apart : ∀ y, [parent, y] ∉ others) (y : List Byte) :
    y ∈ (List.range count).map name ↔ [parent] ++ [y] ∈ others ∪ subdirs parent name count := by
  rw [List.singleton_append, Finset.mem_union, or_iff_right (apart y), mem_subdirs]
  simp

private theorem notMem_of_parent {parent' : List Byte} {name' : Nat → List Byte} {count : Nat}
    (apart : parent ≠ parent') (y : List Byte) :
    [parent, y] ∉ tops ∪ subdirs parent' name' count := by
  rw [Finset.mem_union, not_or, mem_subdirs]
  refine ⟨by simp [tops], ?_⟩
  rintro ⟨i, _, same⟩
  exact apart (List.cons.inj same).1.symm

private theorem nodup_names {base : List Char} {list : List Nat} (distinct : list.Nodup) :
    (list.map fun i => bytesOf (base ++ Nat.toDigits 10 i)).Nodup :=
  distinct.map (numbered_injective base)

/-- The directories when everything is made. -/
def made (numUsers numDevs : Nat) : Finset (List (List Byte)) :=
  tops ∪ subdirs home user numUsers ∪ subdirs etc dev numDevs

private theorem notMem_users (y : List Byte) : [etc, y] ∉ tops ∪ subdirs home user numUsers :=
  notMem_of_parent (by decide) y

private theorem notMem_devs (y : List Byte) : [home, y] ∉ tops ∪ subdirs etc dev numDevs :=
  notMem_of_parent (by decide) y

private theorem made_sdiff :
    made numUsers numDevs \ subdirs etc dev numDevs = tops ∪ subdirs home user numUsers := by
  rw [made, Finset.union_sdiff_cancel_right]
  refine Finset.disjoint_left.mpr fun p old new => ?_
  obtain ⟨i, _, rfl⟩ := mem_subdirs.mp new
  exact notMem_users (dev i) old

private theorem length_le_two : ∀ p ∈ made numUsers numDevs, p.length ≤ 2 := by
  intro p member
  have top : ∀ p ∈ tops, p.length ≤ 2 := by decide
  have sub : ∀ {parent name count}, p ∈ subdirs parent name count → p.length ≤ 2 := by
    intro parent name count member
    obtain ⟨i, _, rfl⟩ := mem_subdirs.mp member
    exact le_rfl
  rcases Finset.mem_union.mp member with early | dev
  · exact (Finset.mem_union.mp early).elim (top p) sub
  · exact sub dev

private theorem does_makeUsers (users : numUsers ≤ 10) :
    flat.Does Dirs ((List.range numUsers).forM fun i => callOnName makeDir [home, user i]) tops
      fun _ u => u = tops ∪ subdirs home user numUsers := by
  have top : tops.card ≤ 5 := by decide
  refine does_makeDirs (fun i member => ?_) (by decide) (nodup_names List.nodup_range)
    (fun i _ => by simp [tops]) (by rw [List.length_range]; omega)
  exact named_user (lt_of_lt_of_le (List.mem_range.mp member) users)

private theorem does_makeDevs (few : numUsers + numDevs ≤ 59) :
    flat.Does Dirs ((List.range numDevs).forM fun i => callOnName makeDir [etc, dev i])
      (tops ∪ subdirs home user numUsers) fun _ u => u = made numUsers numDevs := by
  have size : (tops ∪ subdirs home user numUsers).card ≤ 5 + numUsers :=
    (Finset.card_union_le _ _).trans (Nat.add_le_add (by decide) (card_subdirs_le ..))
  refine does_makeDirs (fun i member => ?_) (Finset.mem_union_left _ (by decide))
    (nodup_names List.nodup_range) (fun i _ => notMem_users (dev i))
    (by rw [List.length_range]; omega)
  have inside := List.mem_range.mp member
  exact named_dev (by omega)

private theorem does_removeDevs (few : numUsers + numDevs ≤ 59) :
    flat.Does Dirs ((List.range numDevs).reverse.forM fun i => callOnName removeDir [etc, dev i])
      (made numUsers numDevs) fun _ u => u = tops ∪ subdirs home user numUsers := by
  have distinct : (List.range numDevs).reverse.Nodup := List.nodup_reverse.mpr List.nodup_range
  have top : [etc] ∈ made numUsers numDevs :=
    Finset.mem_union_left _ (Finset.mem_union_left _ (by decide))
  have all : ((List.range numDevs).reverse.map fun i => [etc, dev i]).toFinset =
      subdirs etc dev numDevs := by
    rw [List.map_reverse, List.toFinset_reverse, subdirs]
  rw [← made_sdiff, ← all]
  refine does_removeDirs (fun i member => ?_) top (nodup_names distinct) (fun i member => ?_)
    length_le_two
  · have inside := List.mem_range.mp (List.mem_reverse.mp member)
    exact named_dev (by omega)
  · have inside := List.mem_range.mp (List.mem_reverse.mp member)
    exact Finset.mem_union_right _ (mem_subdirs.mpr ⟨i, inside, rfl⟩)

private theorem does_listHome (homeTo : PathTo homePath [] home) :
    flat.Does Dirs (listDirContents homePath) (made numUsers numDevs) fun lines u =>
      ListsDirs lines ((List.range numUsers).map user) ∧ u = made numUsers numDevs := by
  have top : [home] ∈ made numUsers numDevs :=
    Finset.mem_union_left _ (Finset.mem_union_left _ (by decide))
  have below : ∀ y, y ∈ (List.range numUsers).map user ↔ [home] ++ [y] ∈ made numUsers numDevs := by
    intro y
    rw [made, Finset.union_right_comm]
    exact mem_names_iff notMem_devs y
  exact Dirs.listDirContents homeTo top (by decide) (nodup_names List.nodup_range) below

private theorem does_listEtc (etcTo : PathTo etcPath [] etc) :
    flat.Does Dirs (listDirContents etcPath) (made numUsers numDevs) fun lines u =>
      ListsDirs lines ((List.range numDevs).map dev) ∧ u = made numUsers numDevs := by
  have top : [etc] ∈ made numUsers numDevs :=
    Finset.mem_union_left _ (Finset.mem_union_left _ (by decide))
  exact Dirs.listDirContents etcTo top (by decide) (nodup_names List.nodup_range)
    (mem_names_iff notMem_users)

private theorem does_listEmptied (etcTo : PathTo etcPath [] etc) :
    flat.Does Dirs (listDirContents etcPath) (tops ∪ subdirs home user numUsers) fun lines u =>
      ListsDirs lines [] ∧ u = tops ∪ subdirs home user numUsers :=
  Dirs.listDirContents etcTo (Finset.mem_union_left _ (by decide)) (by decide) List.nodup_nil
    fun y => iff_of_false List.not_mem_nil (notMem_users y)

private theorem card_userDirs (numUsers : Nat) : (userDirs numUsers).card = numUsers + 2 := by
  have injective : Injective fun i => [home, user i] := fun i j same =>
    numbered_injective _ (List.cons.inj (List.cons.inj same).2).1
  have apart : Disjoint {[], [home]} (subdirs home user numUsers) := by
    refine Finset.disjoint_right.mpr fun p member top => ?_
    obtain ⟨i, _, rfl⟩ := mem_subdirs.mp member
    simp at top
  rw [userDirs, Finset.card_union_of_disjoint apart, subdirs,
    List.toFinset_card_of_nodup (List.nodup_range.map injective), List.length_map,
    List.length_range, Nat.add_comm]
  rfl

private theorem does_listUsers : flat.Does Dirs (listDirContents homePath) (userDirs numUsers)
    fun lines u => ListsDirs lines ((List.range numUsers).map user) ∧ u = userDirs numUsers := by
  have homeTo : PathTo homePath [] home := pathTo_top rfl (by decide) (by decide)
  refine Dirs.listDirContents homeTo (Finset.mem_union_left _ (by decide)) (by decide)
    (nodup_names List.nodup_range) (mem_names_iff fun y top => ?_)
  simp at top

private theorem erase_tops :
    (((tops ∪ subdirs home user numUsers).erase [etc]).erase [usr]).erase [tmp] =
      userDirs numUsers := by
  have keep : ∀ x, (subdirs home user numUsers).erase [x] = subdirs home user numUsers := by
    refine fun x => Finset.erase_eq_of_notMem fun member => ?_
    obtain ⟨i, _, same⟩ := mem_subdirs.mp member
    cases same
  simp only [Finset.erase_union_distrib, keep, userDirs]
  exact congrArg (· ∪ _) (by decide)

/-- With at most 10 users and 59 users and devices the test runs to its end. -/
theorem does_testCase1 (users : numUsers ≤ 10) (few : numUsers + numDevs ≤ 59) :
    flat.Does Dirs (testCase1 numUsers numDevs) {[]} fun printed u =>
      (ListsDirs printed.home ((List.range numUsers).map user) ∧
        ListsDirs printed.etc ((List.range numDevs).map dev) ∧ ListsDirs printed.emptied []) ∧
      u = userDirs numUsers := by
  have tmpTo : PathTo tmpPath [] tmp := pathTo_top rfl (by decide) (by decide)
  have usrTo : PathTo usrPath [] usr := pathTo_top rfl (by decide) (by decide)
  have etcTo : PathTo etcPath [] etc := pathTo_top rfl (by decide) (by decide)
  have homeTo : PathTo homePath [] home := pathTo_top rfl (by decide) (by decide)
  rw [testCase1]
  refine (Dirs.makeDir tmpTo (by decide) (by decide) (by decide)).bind ?_
  rintro _ _ rfl
  refine (Dirs.makeDir usrTo (by decide) (by decide) (by decide)).bind ?_
  rintro _ _ rfl
  refine (Dirs.makeDir etcTo (by decide) (by decide) (by decide)).bind ?_
  rintro _ _ rfl
  refine (Dirs.makeDir homeTo (by decide) (by decide) (by decide)).bind ?_
  rintro _ _ rfl
  refine Interpreter.Does.bind (does_makeUsers users) ?_
  rintro _ _ rfl
  refine (does_makeDevs few).bind ?_
  rintro _ _ rfl
  refine (does_listHome homeTo).bind ?_
  rintro homeLines _ ⟨listsHome, rfl⟩
  refine (does_listEtc etcTo).bind ?_
  rintro etcLines _ ⟨listsEtc, rfl⟩
  refine (does_removeDevs few).bind ?_
  rintro _ _ rfl
  refine (does_listEmptied etcTo).bind ?_
  rintro emptied _ ⟨listsEmptied, rfl⟩
  have top : ∀ x ∈ [[], [etc], [usr], [tmp]], x ∈ tops ∪ subdirs home user numUsers :=
    fun x member =>
    Finset.mem_union_left _ ((by decide : ∀ x ∈ [[], [etc], [usr], [tmp]], x ∈ tops) x member)
  refine (Dirs.removeDir etcTo (top _ (by decide)) (top _ (by decide)) notMem_users).bind ?_
  rintro _ _ rfl
  refine (Dirs.removeDir usrTo (Finset.mem_erase_of_ne_of_mem (by decide) (top _ (by decide)))
    (Finset.mem_erase_of_ne_of_mem (by decide) (top _ (by decide))) fun y below =>
      notMem_of_parent (by decide) y (Finset.mem_of_mem_erase below)).bind ?_
  rintro _ _ rfl
  refine (Dirs.removeDir tmpTo
    (Finset.mem_erase_of_ne_of_mem (by decide)
      (Finset.mem_erase_of_ne_of_mem (by decide) (top _ (by decide))))
    (Finset.mem_erase_of_ne_of_mem (by decide)
      (Finset.mem_erase_of_ne_of_mem (by decide) (top _ (by decide)))) fun y below =>
      notMem_of_parent (by decide) y
        (Finset.mem_of_mem_erase (Finset.mem_of_mem_erase below))).bind ?_
  rintro _ _ rfl
  exact .pure ⟨⟨listsHome, listsEtc, listsEmptied⟩, erase_tops⟩

end TestCase1

/-- A process that has formatted its disk runs `TestCase1` through the cache, and prints the users,
the devices and an empty directory.  The printed bitmap has a bit for the root, for `/home` and for
each user, and the next process finds these and nothing else. -/
theorem testCase1_prints {m₀ : Machine} (formats : m₀.Formats) {numUsers numDevs : Nat}
    (users : numUsers ≤ 10) (few : numUsers + numDevs ≤ 59) : ∃ printed m₁ inodes m₂,
      m₀.exec (testCase1 numUsers numDevs) = some (printed, m₁) ∧
      ListsDirs printed.home ((List.range numUsers).map user) ∧
      ListsDirs printed.etc ((List.range numDevs).map dev) ∧ ListsDirs printed.emptied [] ∧
      m₁.printInodeBitmap = some (inodes, m₂) ∧ setBits inodes = numUsers + 2 ∧
      (∃ m, Machine.Step m₂ .restart m) ∧
      ∀ m, Machine.Step m₂ .restart m → m.Stands (.ofDirs (userDirs numUsers)) ∧
        ∃ lines m', m.exec (listDirContents homePath) = some (lines, m') ∧
          ListsDirs lines ((List.range numUsers).map user) := by
  obtain ⟨s, here, formatted⟩ := formats.formatted
  have start : Dirs s {[]} := by
    refine ⟨Files.ofDirs_root ▸ formatted.view ▸ models_formatted, Files.ofDirs_root ▸ ?_⟩
    exact Files.Session.slashless (.nil _)
  obtain ⟨printed, s₁, _, run, dirs, ⟨listsHome, listsEtc, listsEmptied⟩, rfl⟩ :=
    does_testCase1 users few s start
  obtain ⟨m₁, run₁, here₁⟩ := here.exec run
  obtain ⟨inodes, m₂, print, here₂, bits⟩ := here₁.printInodeBitmap dirs.models
  have stands : m₂.Stands (.ofDirs (userDirs numUsers)) := ⟨s₁, here₂, dirs.models⟩
  have count : {path | (Files.ofDirs (userDirs numUsers)).entry path ≠ none}.ncard =
      numUsers + 2 := by
    rw [show {path | (Files.ofDirs (userDirs numUsers)).entry path ≠ none} =
      ↑(userDirs numUsers) from Set.ext fun _ => Files.entry_ofDirs_ne_none, Set.ncard_coe_finset]
    exact card_userDirs numUsers
  refine ⟨printed, m₁, inodes, m₂, run₁, listsHome, listsEtc, listsEmptied, print, bits.trans count,
    stands.restart, fun m restart => ?_⟩
  obtain ⟨a, next, s', here', models⟩ := stands.step restart
  cases next
  have reopened : Dirs s' (userDirs numUsers) := ⟨models, dirs.slashless⟩
  obtain ⟨lines, s'', _, run', _, lists, _⟩ := does_listUsers s' reopened
  obtain ⟨m', run'', _⟩ := here'.exec run'
  exact ⟨⟨s', here', models⟩, lines, m', run'', lists⟩

/-- The test of the source, with 5 users and 34 devices. -/
theorem testCase1_prints_source : ∃ m₀ : Machine, m₀.Formats ∧ ∃ printed m₁ inodes m₂,
    m₀.exec (testCase1 5 34) = some (printed, m₁) ∧
    ListsDirs printed.home ((List.range 5).map user) ∧
    ListsDirs printed.etc ((List.range 34).map dev) ∧ ListsDirs printed.emptied [] ∧
    m₁.printInodeBitmap = some (inodes, m₂) ∧ setBits inodes = 5 + 2 ∧
    (∃ m, Machine.Step m₂ .restart m) ∧
    ∀ m, Machine.Step m₂ .restart m → m.Stands (.ofDirs (userDirs 5)) ∧
      ∃ lines m', m.exec (listDirContents homePath) = some (lines, m') ∧
        ListsDirs lines ((List.range 5).map user) := by
  obtain ⟨m₀, formats⟩ := Machine.exists_formats
  exact ⟨m₀, formats, testCase1_prints formats (by decide) (by decide)⟩

end KwHomework
