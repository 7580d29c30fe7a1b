import Mathlib.Algebra.Ring.Int.Defs
import Mathlib.Data.List.TakeWhile

/-!
# Formatted input

An input stream of C++ with the reads of a number and of a word in the classic locale.  Every read
that meets the end of the stream, and every read that fails, sets a flag; behind it nothing is read
any more.  The texts that are read without a flag are those of a grammar.
-/

namespace KwHomework

/-- The characters to come, and whether no flag is set. -/
@[ext]
structure Istream where
  rest : List Char
  good : Bool
  deriving DecidableEq

/-- The blanks of the classic locale. -/
def isspace (c : Char) : Bool := c.toNat = 32 || (9 ≤ c.toNat && c.toNat ≤ 13)

/-- The value of decimal digits. -/
def decimal (digits : List Char) : Nat :=
  digits.foldl (fun value c => 10 * value + (c.toNat - 48)) 0

theorem not_isDigit_of_isspace {c : Char} (blank : isspace c = true) : c.isDigit = false := by
  simp only [isspace, Char.isDigit, Bool.or_eq_true, Bool.and_eq_true, decide_eq_true_eq,
    Bool.and_eq_false_iff, decide_eq_false_iff_not, Char.toNat, ge_iff_le,
    UInt32.le_iff_toNat_le] at *
  have low : '0'.val.toNat = 48 := rfl
  omega

theorem toNat_of_isAlpha {c : Char} (letter : c.isAlpha = true) :
    (65 ≤ c.toNat ∧ c.toNat ≤ 90) ∨ (97 ≤ c.toNat ∧ c.toNat ≤ 122) := by
  rcases (Bool.or_eq_true _ _).mp letter with upper | lower
  · exact .inl (of_decide_eq_true upper)
  · obtain ⟨low, high⟩ := (Bool.and_eq_true _ _).mp lower
    exact .inr ⟨of_decide_eq_true low, of_decide_eq_true high⟩

theorem not_isspace_of_isAlpha {c : Char} (letter : c.isAlpha = true) : isspace c = false := by
  have code := toNat_of_isAlpha letter
  simp only [isspace, Bool.or_eq_false_iff, Bool.and_eq_false_iff, decide_eq_false_iff_not]
  omega

theorem not_isDigit_of_isAlpha {c : Char} (letter : c.isAlpha = true) : c.isDigit = false := by
  have code := toNat_of_isAlpha letter
  have nine : '9'.val.toNat = 57 := rfl
  simp only [Char.isDigit, Char.toNat, Bool.and_eq_false_iff, decide_eq_false_iff_not, ge_iff_le,
    UInt32.le_iff_toNat_le] at *
  omega

namespace Istream

/-- `peek`, with no character at the end. -/
def peek (s : Istream) : Option Char × Istream :=
  if s.good then
    match s.rest with
    | [] => (none, { s with good := false })
    | c :: _ => (some c, s)
  else (none, s)

/-- `ignore` of one character. -/
def ignore (s : Istream) : Istream :=
  if s.good then
    match s.rest with
    | [] => { s with good := false }
    | _ :: rest => { s with rest }
  else s

/-- A number with a sign. -/
def signed (negative : Bool) (digits : List Char) : Int :=
  if negative then -decimal digits else decimal digits

/-- Whether a number is negative, and the text behind its sign. -/
def takeSign : List Char → Bool × List Char
  | '-' :: text => (true, text)
  | '+' :: text => (false, text)
  | text => (false, text)

/-- `>>` of an `int`, which holds `old` before. -/
def readInt (s : Istream) (old : Int) : Int × Istream :=
  let text := s.rest.dropWhile isspace
  if s.good = false then (old, s)
  else if text = [] then (old, ⟨[], false⟩)
  else
    let (negative, text) := takeSign text
    let digits := text.takeWhile Char.isDigit
    let rest := text.dropWhile Char.isDigit
    let value := signed negative digits
    if digits = [] then (0, ⟨rest, false⟩)
    else if value < -2 ^ 31 then (-2 ^ 31, ⟨rest, false⟩)
    else if 2 ^ 31 ≤ value then (2 ^ 31 - 1, ⟨rest, false⟩)
    else (value, ⟨rest, rest ≠ []⟩)

/-- `>>` of the entries of an array from the position `i` on. -/
def readInts (V : Nat → Int) : Nat → Nat → Istream → List Int × Istream
  | _, 0, s => ([], s)
  | i, n + 1, s =>
      let (x, s) := s.readInt (V i)
      let (xs, s) := readInts V (i + 1) n s
      (x :: xs, s)

/-- `>>` of a word into a `char` array of the given size, which holds the word `old` before.  A read
that is not bounded by the size writes a longer word behind the array, which is `none`. -/
def readWord (bounded : Bool) (size : Nat) (s : Istream) (old : List Char) :
    Option (List Char × Istream) :=
  let text := s.rest.dropWhile isspace
  let word := text.takeWhile fun c => !isspace c
  if s.good = false then some (old, s)
  else if text = [] then some (old, ⟨[], false⟩)
  else if word.length < size then
    let rest := text.drop word.length
    some (word, ⟨rest, rest ≠ []⟩)
  else if bounded then some (text.take (size - 1), ⟨text.drop (size - 1), true⟩)
  else none

/-! ## The grammar of numbers -/

/-- The texts of a sign. -/
def signTexts : Bool → List (List Char)
  | true => [['-']]
  | false => [[], ['+']]

/-- A number as it is written: blanks, a sign or none, and digits, with a value that is an `int`. -/
def Numeral (text : List Char) (x : Int) : Prop :=
  ∃ blanks negative sign digits, text = blanks ++ (sign ++ digits) ∧
    (∀ c ∈ blanks, isspace c = true) ∧ sign ∈ signTexts negative ∧ digits ≠ [] ∧
    (∀ c ∈ digits, c.isDigit = true) ∧ x = signed negative digits ∧ -2 ^ 31 ≤ x ∧ x < 2 ^ 31

/-- There is a character, and it is no digit. -/
def Stops (text : List Char) : Prop := ∃ c rest, text = c :: rest ∧ c.isDigit = false

/-- Numbers that do not run into one another. -/
inductive Numerals : List Char → List Int → Prop
  | nil : Numerals [] []
  | cons {text texts x xs} (numeral : Numeral text x) (stops : Stops text)
      (rest : Numerals texts xs) : Numerals (text ++ texts) (x :: xs)

variable {s : Istream} {text texts rest : List Char} {x old : Int}

/-- The characters that pass a test in front of one that does not, or of the end. -/
theorem takeWhile_dropWhile {p : Char → Bool} {front : List Char} (behind : List Char)
    (all : ∀ c ∈ front, p c = true) (stop : ∀ c ∈ behind.head?, p c = false) :
    (front ++ behind).takeWhile p = front ∧ (front ++ behind).dropWhile p = behind := by
  rw [List.takeWhile_append_of_pos all, List.dropWhile_append_of_pos all]
  cases behind with
  | nil => simp
  | cons c behind => simp [stop c rfl]

theorem Stops.append (stops : Stops text) : Stops (text ++ rest) := by
  obtain ⟨c, tail, rfl, stop⟩ := stops
  exact ⟨c, tail ++ rest, rfl, stop⟩

theorem takeSign_append {negative : Bool} {sign : List Char} {d : Char}
    (member : sign ∈ signTexts negative) (digit : d.isDigit = true) :
    takeSign (sign ++ d :: text) = (negative, d :: text) := by
  cases negative with
  | true =>
      obtain rfl := List.mem_singleton.mp member
      rfl
  | false =>
      rcases List.mem_cons.mp member with rfl | member
      · rw [List.nil_append]
        unfold takeSign
        split
        · simp_all
        · simp_all
        · rfl
      · obtain rfl := List.mem_singleton.mp member
        rfl

theorem exists_sign (text : List Char) :
    ∃ sign ∈ signTexts (takeSign text).1, text = sign ++ (takeSign text).2 := by
  unfold takeSign
  split
  · exact ⟨['-'], by simp [signTexts], rfl⟩
  · exact ⟨['+'], by simp [signTexts], rfl⟩
  · exact ⟨[], by simp [signTexts], rfl⟩

theorem readInt_of_numeral (numeral : Numeral text x) (stops : Stops rest) :
    readInt ⟨text ++ rest, true⟩ old = (x, ⟨rest, true⟩) := by
  obtain ⟨blanks, negative, sign, digits, rfl, blank, member, some, digit, value, low, high⟩ :=
    numeral
  obtain ⟨c, rest, rfl, stop⟩ := stops
  obtain ⟨d, digits, rfl⟩ := List.exists_cons_of_ne_nil some
  have first : d.isDigit = true := digit d List.mem_cons_self
  obtain ⟨f, tail, front, visible⟩ :
      ∃ f tail, sign ++ d :: (digits ++ c :: rest) = f :: tail ∧ isspace f = false := by
    have letter : isspace d = false := Bool.eq_false_iff.mpr fun blank =>
      absurd first (by rw [not_isDigit_of_isspace blank]; exact Bool.false_ne_true)
    cases negative with
    | true =>
        obtain rfl := List.mem_singleton.mp member
        exact ⟨'-', _, rfl, by decide⟩
    | false =>
        rcases List.mem_cons.mp member with rfl | member
        · exact ⟨d, _, rfl, letter⟩
        · obtain rfl := List.mem_singleton.mp member
          exact ⟨'+', _, rfl, by decide⟩
  have skipped : (blanks ++ (sign ++ d :: digits) ++ c :: rest).dropWhile isspace =
      sign ++ d :: (digits ++ c :: rest) := by
    rw [List.append_assoc, List.append_assoc, List.cons_append, front]
    exact (takeWhile_dropWhile (f :: tail) blank (by rintro _ ⟨⟩; exact visible)).2
  obtain ⟨taken, left⟩ := takeWhile_dropWhile (c :: rest) digit (by rintro _ ⟨⟩; exact stop)
  rw [List.cons_append] at taken left
  have filled : sign ++ d :: (digits ++ c :: rest) ≠ [] := by simp
  rw [readInt]
  simp only [skipped, takeSign_append member first, taken, left, filled, ← value, if_false,
    Bool.true_eq_false, reduceCtorEq]
  rw [if_neg (by omega), if_neg (by omega)]
  simp

/-- What is read without a flag is a number in front of another character. -/
theorem numeral_of_readInt (read : s.readInt old = (x, ⟨rest, true⟩)) :
    s.good = true ∧ ∃ text, Numeral text x ∧ s.rest = text ++ rest ∧ Stops rest := by
  have blanks := List.takeWhile_append_dropWhile (p := isspace) (l := s.rest)
  obtain ⟨sign, member, split⟩ := exists_sign (s.rest.dropWhile isspace)
  have digits := List.takeWhile_append_dropWhile (p := Char.isDigit)
    (l := (takeSign (s.rest.dropWhile isspace)).2)
  simp only [readInt] at read
  split_ifs at read with bad ends empty low high
  · obtain ⟨rfl, rfl⟩ := Prod.mk.inj read
    cases bad
  · cases (Prod.mk.inj read).2
  · cases (Prod.mk.inj read).2
  · cases (Prod.mk.inj read).2
  · cases (Prod.mk.inj read).2
  · obtain ⟨value, behind⟩ := Prod.mk.inj read
    obtain ⟨behind, more⟩ := Istream.mk.inj behind
    obtain ⟨c, tail, front⟩ := List.exists_cons_of_ne_nil (behind ▸ of_decide_eq_true more)
    have stop := List.head?_dropWhile_not Char.isDigit (takeSign (s.rest.dropWhile isspace)).2
    rw [behind, front] at stop
    rw [value] at low high
    rw [behind] at digits
    refine ⟨by simpa using bad, _, ⟨s.rest.takeWhile isspace, _, sign, _, rfl,
      fun c => List.mem_takeWhile_imp, member, empty, fun c => List.mem_takeWhile_imp, value.symm,
      by omega, by omega⟩, ?_, c, tail, front, stop⟩
    rw [List.append_assoc, List.append_assoc, digits, ← split, blanks]

/-- A number is read without a flag exactly in front of another character. -/
theorem readInt_iff (old : Int) : s.readInt old = (x, ⟨rest, true⟩) ↔
    s.good = true ∧ ∃ text, Numeral text x ∧ s.rest = text ++ rest ∧ Stops rest := by
  refine ⟨numeral_of_readInt, ?_⟩
  rintro ⟨good, text, numeral, split, stops⟩
  rw [← readInt_of_numeral numeral stops, ← split, ← good]

theorem Numeral.ne_nil (numeral : Numeral text x) : text ≠ [] := by
  obtain ⟨blanks, _, sign, digits, rfl, _, _, some, _⟩ := numeral
  simp [some]

/-- A number that begins with a digit has no blanks and no sign. -/
theorem Numeral.of_digit {d : Char} (numeral : Numeral text x) (head : text.head? = some d)
    (digit : d.isDigit = true) : (∀ c ∈ text, c.isDigit = true) ∧ x = decimal text := by
  obtain ⟨blanks, negative, sign, digits, rfl, blank, member, _, all, value, _⟩ := numeral
  have unblank : blanks = [] := by
    cases blanks with
    | nil => rfl
    | cons b blanks =>
        obtain rfl := Option.some.inj head
        rw [not_isDigit_of_isspace (blank b List.mem_cons_self)] at digit
        cases digit
  subst unblank
  cases negative with
  | true =>
      obtain rfl := List.mem_singleton.mp member
      obtain rfl := Option.some.inj head
      exact absurd digit (by decide)
  | false =>
      rcases List.mem_cons.mp member with rfl | member
      · exact ⟨all, value⟩
      · obtain rfl := List.mem_singleton.mp member
        obtain rfl := Option.some.inj head
        exact absurd digit (by decide)

theorem Numerals.stops_append (numerals : Numerals texts xs) (stops : Stops rest) :
    Stops (texts ++ rest) := by
  cases numerals with
  | nil => exact stops
  | cons _ front _ => exact List.append_assoc .. ▸ front.append

theorem Stops.of_append {front : List Char} (stops : Stops (front ++ rest)) (some : front ≠ []) :
    Stops front := by
  obtain ⟨c, tail, equal, stop⟩ := stops
  obtain ⟨d, front, rfl⟩ := List.exists_cons_of_ne_nil some
  obtain ⟨rfl, _⟩ := List.cons.inj equal
  exact ⟨d, front, rfl, stop⟩

theorem readInt_of_bad (bad : s.good = false) : s.readInt old = (old, s) := by
  rw [readInt]
  exact if_pos bad

theorem readInts_of_bad {V : Nat → Int} (bad : s.good = false) :
    ∀ {n i : Nat}, (s.readInts V i n).2 = s
  | 0, _ => rfl
  | n + 1, i => by
      have rest : (s.readInts V (i + 1) n).2 = s := readInts_of_bad bad
      rw [readInts, readInt_of_bad bad]
      exact rest

theorem good_of_readInts {V : Nat → Int} {n i : Nat} (good : (s.readInts V i n).2.good = true) :
    s.good = true := by
  by_contra bad
  rw [readInts_of_bad (by simpa using bad)] at good
  exact bad good

/-- A character is ignored without a flag exactly if there is one. -/
theorem ignore_iff : s.ignore = ⟨rest, true⟩ ↔ s.good = true ∧ ∃ c, s.rest = c :: rest := by
  obtain ⟨text, good⟩ := s
  cases good with
  | false => simp [ignore]
  | true => cases text <;> simp [ignore, eq_comm]

/-- Numbers are read without a flag exactly in front of another character, too. -/
theorem readInts_iff {V : Nat → Int} {xs : List Int} : ∀ {n i : Nat} {s : Istream},
    Stops s.rest → (s.readInts V i n = (xs, ⟨rest, true⟩) ↔
      s.good = true ∧ xs.length = n ∧ Stops rest ∧ ∃ texts, Numerals texts xs ∧
        s.rest = texts ++ rest)
  | 0, i, s, stops => by
      rw [readInts, Prod.mk.injEq]
      constructor
      · rintro ⟨rfl, rfl⟩
        exact ⟨rfl, rfl, stops, [], .nil, rfl⟩
      · rintro ⟨good, length, _, texts, numerals, split⟩
        obtain rfl := List.length_eq_zero_iff.mp length
        cases numerals
        exact ⟨rfl, by rw [List.nil_append] at split; rw [← split, ← good]⟩
  | n + 1, i, s, stops => by
      have step : s.readInts V i (n + 1) =
          ((s.readInt (V i)).1 :: ((s.readInt (V i)).2.readInts V (i + 1) n).1,
            ((s.readInt (V i)).2.readInts V (i + 1) n).2) := rfl
      rw [step, Prod.mk.injEq]
      constructor
      · rintro ⟨entries, after⟩
        obtain ⟨x, xs, rfl⟩ : ∃ x ys, xs = x :: ys := ⟨_, _, entries.symm⟩
        obtain ⟨first, others⟩ := List.cons.inj entries
        have read : (s.readInt (V i)).2.readInts V (i + 1) n = (xs, ⟨rest, true⟩) :=
          Prod.ext others after
        have good : (s.readInt (V i)).2.good = true := good_of_readInts (by rw [after])
        have number : s.readInt (V i) = (x, ⟨(s.readInt (V i)).2.rest, true⟩) :=
          Prod.ext first (Istream.ext rfl good)
        obtain ⟨fine, text, numeral, split, next⟩ := (readInt_iff (V i)).mp number
        obtain ⟨_, length, more, texts, numerals, split'⟩ := (readInts_iff next).mp read
        refine ⟨fine, congrArg Nat.succ length, more, text ++ texts,
          .cons numeral (Stops.of_append (split ▸ stops) numeral.ne_nil) numerals, ?_⟩
        rw [split, split', List.append_assoc]
      · rintro ⟨good, length, more, texts, numerals, split⟩
        cases numerals with
        | nil => cases length
        | @cons text texts x xs numeral front numerals =>
            rw [List.append_assoc] at split
            have next := numerals.stops_append more
            have read : s.readInt (V i) = (x, ⟨texts ++ rest, true⟩) :=
              (readInt_iff _).mpr ⟨good, text, numeral, split, next⟩
            have others : readInts V (i + 1) n ⟨texts ++ rest, true⟩ = (xs, ⟨rest, true⟩) :=
              (readInts_iff next).mpr ⟨rfl, Nat.succ.inj length, more, texts, numerals, rfl⟩
            rw [read, others]
            exact ⟨rfl, rfl⟩

/-! ## Words -/

theorem dropWhile_eq_drop (p : Char → Bool) (text : List Char) :
    text.drop (text.takeWhile p).length = text.dropWhile p := by
  have whole := List.takeWhile_append_dropWhile (p := p) (l := text)
  calc
    text.drop (text.takeWhile p).length =
        (text.takeWhile p ++ text.dropWhile p).drop (text.takeWhile p).length := by rw [whole]
    _ = text.dropWhile p := List.drop_left

section Word

variable {bounded flag : Bool} {size : Nat} {f : Char} {word others old : List Char}

theorem readWord_eq (good : s.good = true) (front : s.rest = f :: others)
    (visible : isspace f = false) : s.readWord bounded size old =
      if (s.rest.takeWhile fun c => !isspace c).length < size then
        some (s.rest.takeWhile fun c => !isspace c, ⟨s.rest.dropWhile fun c => !isspace c,
          decide ((s.rest.dropWhile fun c => !isspace c) ≠ [])⟩)
      else if bounded then some (s.rest.take (size - 1), ⟨s.rest.drop (size - 1), true⟩)
      else none := by
  have skipped : s.rest.dropWhile isspace = s.rest := by simp [front, visible]
  rw [readWord]
  simp only [skipped, good, dropWhile_eq_drop, Bool.true_eq_false, if_false]
  rw [if_neg (by rw [front]; exact List.cons_ne_nil _ _)]

theorem take_of_long {n : Nat} (long : n ≤ (text.takeWhile fun c => !isspace c).length) :
    (text.take n).length = n ∧ ∀ c ∈ text.take n, isspace c = false := by
  have whole := List.takeWhile_append_dropWhile (p := fun c => !isspace c) (l := text)
  have inside : text.take n = (text.takeWhile fun c => !isspace c).take n := by
    calc
      text.take n = ((text.takeWhile fun c => !isspace c) ++
          text.dropWhile fun c => !isspace c).take n := by rw [whole]
      _ = (text.takeWhile fun c => !isspace c).take n := List.take_append_of_le_length long
  rw [inside]
  refine ⟨List.length_take_of_le long, fun c member => ?_⟩
  simpa using List.mem_takeWhile_imp (List.mem_of_mem_take member)

theorem word_of_readWord (good : s.good = true) (front : s.rest = f :: others)
    (visible : isspace f = false) (large : 1 < size)
    (found : s.readWord bounded size old = some (word, ⟨rest, flag⟩)) :
    s.rest = word ++ rest ∧ word ≠ [] ∧ (∀ c ∈ word, isspace c = false) ∧
      flag = decide (rest ≠ []) ∧ word.length < size ∧
      ((∀ c ∈ rest.head?, isspace c = true) ∨ bounded = true ∧ word.length + 1 = size) := by
  rw [readWord_eq good front visible] at found
  split_ifs at found with short full
  · obtain ⟨rfl, behind⟩ := Prod.mk.inj (Option.some.inj found)
    obtain ⟨rfl, rfl⟩ := Istream.mk.inj behind
    refine ⟨List.takeWhile_append_dropWhile.symm, by simp [front, visible], fun c member => ?_, rfl,
      short, .inl fun c head => ?_⟩
    · simpa using List.mem_takeWhile_imp member
    · have stop := List.head?_dropWhile_not (fun c => !isspace c) s.rest
      rw [head] at stop
      simpa using stop
  · obtain ⟨rfl, behind⟩ := Prod.mk.inj (Option.some.inj found)
    obtain ⟨rfl, rfl⟩ := Istream.mk.inj behind
    obtain ⟨length, letters⟩ := take_of_long
      (show size - 1 ≤ (s.rest.takeWhile fun c => !isspace c).length by omega)
    have long : size ≤ s.rest.length :=
      (not_lt.mp short).trans (List.takeWhile_prefix _).length_le
    have more : s.rest.drop (size - 1) ≠ [] :=
      List.ne_nil_of_length_pos (by rw [List.length_drop]; omega)
    exact ⟨(List.take_append_drop _ _).symm, List.ne_nil_of_length_pos (by omega), letters,
      (decide_eq_true more).symm, by omega, .inr ⟨full, by omega⟩⟩

theorem readWord_of_word (good : s.good = true) (front : s.rest = f :: others)
    (visible : isspace f = false) (split : s.rest = word ++ rest)
    (letters : ∀ c ∈ word, isspace c = false) (short : word.length < size)
    (ends : (∀ c ∈ rest.head?, isspace c = true) ∨ bounded = true ∧ word.length + 1 = size) :
    s.readWord bounded size old = some (word, ⟨rest, decide (rest ≠ [])⟩) := by
  have all : ∀ c ∈ word, (!isspace c) = true := fun c member => by simp [letters c member]
  rw [readWord_eq good front visible, split]
  by_cases blanks : ∀ c ∈ rest.head?, isspace c = true
  · obtain ⟨taken, left⟩ := takeWhile_dropWhile rest all fun c head => by simp [blanks c head]
    rw [taken, left, if_pos short]
  · obtain ⟨full, length⟩ := ends.resolve_left blanks
    obtain ⟨c, head, blank⟩ : ∃ c, rest.head? = some c ∧ ¬ isspace c = true := by
      simpa using blanks
    obtain ⟨tail, rfl⟩ := List.head?_eq_some_iff.mp head
    have more : ¬ ((word ++ c :: tail).takeWhile fun c => !isspace c).length < size := by
      rw [List.takeWhile_append_of_pos all, List.length_append,
        List.takeWhile_cons_of_pos (by simpa using blank), List.length_cons]
      omega
    rw [if_neg more, if_pos full, ← length, Nat.add_sub_cancel, List.take_left, List.drop_left]
    rfl

/-- In front of a character that is no blank, a word is read up to a blank, or up to the end, or, if
the read is bounded, until the array is full. -/
theorem readWord_iff (good : s.good = true) (front : s.rest = f :: others)
    (visible : isspace f = false) (large : 1 < size) :
    s.readWord bounded size old = some (word, ⟨rest, flag⟩) ↔
      s.rest = word ++ rest ∧ word ≠ [] ∧ (∀ c ∈ word, isspace c = false) ∧
        flag = decide (rest ≠ []) ∧ word.length < size ∧
        ((∀ c ∈ rest.head?, isspace c = true) ∨ bounded = true ∧ word.length + 1 = size) := by
  refine ⟨word_of_readWord good front visible large, ?_⟩
  rintro ⟨split, _, letters, rfl, short, ends⟩
  exact readWord_of_word good front visible split letters short ends

end Word

end Istream
end KwHomework
