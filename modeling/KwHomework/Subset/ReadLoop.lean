import KwHomework.Input.Istream
import KwHomework.Subset.Sessions
import Mathlib.Logic.Relation

/-!
# The read loop

An iteration of the loop of `main` looks at the next character: in front of a digit it reads a list
and ignores one character behind it, in front of a letter it reads a word, and in front of anything
else it reads nothing and comes around again.
-/

namespace KwHomework.SubsetDP

open Relation

/-- The variables of `main` that an iteration reads. -/
structure LoopState where
  input : Istream
  oper : List Char
  n : Int
  g : Session

/-- What an iteration comes to. -/
inductive Iteration where
  | leaves
  | loops (l : LoopState)

/-- The word that ends the input. -/
def eoi : List Char := ['E', 'O', 'I']

/-- The table of a list stays inside `dp`, whose last row is the one of 500 entries.  With another
entry the loop has to leave the table before. -/
def Window.inside (w : Window) (n : Nat) : Bool :=
  w.width ≤ maxSum && (n < maxV || n = maxV && (w.table (maxV - 1)).1)

/-- The branch for a list.  Behind `NUMEROUS` the character is ignored at `Exit2`. -/
def LoopState.readList (l : LoopState) : Option Iteration :=
  let (n, input) := l.input.readInt l.n
  if maxV < n then none
  else
    let (xs, input) := input.readInts l.g.V 0 n.toNat
    if (prepare (store l.g.V xs) xs.length).inside xs.length then
      let (printed, g) := answer l.g xs
      if printed.lost then none else some (.loops { input := input.ignore, oper := l.oper, n, g })
    else none

/-- The branch for a word, which goes to `char oper[4]`.  Whether the read is bounded by the size
depends on the language version. -/
def LoopState.readOper (bounded : Bool) (l : LoopState) : Option Iteration :=
  match l.input.readWord bounded 4 l.oper with
  | none => none
  | some (oper, input) =>
      if oper = eoi then some .leaves else some (.loops { l with input, oper })

/-- An iteration of the loop. -/
def iteration (bounded : Bool) (l : LoopState) : Option Iteration :=
  let (c, input) := l.input.peek
  let l := { l with input, g := { l.g with flip := false } }
  match c with
  | none => some (.loops l)
  | some c =>
      if c.isDigit then l.readList
      else if c.isAlpha then l.readOper bounded
      else some (.loops l)

/-- The loop comes around. -/
def Next (bounded : Bool) (l l' : LoopState) : Prop := iteration bounded l = some (.loops l')

/-- The loop is left, and every iteration before leaves it or consumes a character. -/
structure Ends (bounded : Bool) (l₀ : LoopState) : Prop where
  leaves : ∃ l, ReflTransGen (Next bounded) l₀ l ∧ iteration bounded l = some .leaves
  consumes : ∀ l, ReflTransGen (Next bounded) l₀ l → iteration bounded l = some .leaves ∨
    ∃ l', Next bounded l l' ∧ l'.input.rest.length < l.input.rest.length

/-- The loop in front of a text. -/
def reading (text oper : List Char) (n : Int) : LoopState := ⟨⟨text, true⟩, oper, n, start⟩

/-! ## The grammar of the input -/

/-- The list is answered without an access outside the arrays. -/
def Answerable (xs : List Int) : Prop :=
  (prepare (fun i => xs.getD i 0) xs.length).width ≤ maxSum ∧
    (xs.length < maxV ∨ xs.length = maxV ∧ NumerousUpTo (maxV - 1) xs) ∧ ¬ LeavesTable xs

/-- The texts that lead to `EOI`: lists with one character behind each, and words that fill the
array where the read is bounded by its size. -/
inductive ReachesEoi (bounded : Bool) : List Char → Prop
  | eoi {rest} (ends : bounded = true ∨ ∀ c ∈ rest.head?, isspace c = true) :
      ReachesEoi bounded (eoi ++ rest)
  | word {a b c rest} (full : bounded = true) (letter : a.isAlpha = true)
      (second : isspace b = false) (third : isspace c = false) (other : [a, b, c] ≠ SubsetDP.eoi)
      (next : ReachesEoi bounded rest) : ReachesEoi bounded ([a, b, c] ++ rest)
  | list {digits texts xs c rest} (some : digits ≠ []) (all : ∀ d ∈ digits, d.isDigit = true)
      (count : decimal digits = xs.length) (numerals : Istream.Numerals texts xs)
      (stop : c.isDigit = false) (answerable : Answerable xs) (next : ReachesEoi bounded rest) :
      ReachesEoi bounded (digits ++ (texts ++ c :: rest))

/-! ## One list -/

variable {bounded : Bool} {l l' : LoopState} {g : Session} {xs : List Int} {text rest : List Char}

/-- With 501 entries the loop leaves the table in time exactly if a cell before is large. -/
theorem table_before_iff (V : Nat → Int) (length : xs.length = maxV) :
    ((windowOf V xs).table (maxV - 1)).1 = true ↔ NumerousUpTo (maxV - 1) xs := by
  have read : entries (store V xs) xs.length = xs := entries_store rfl
  have ready : (windowOf V xs).Ready xs.length := ready_windowOf V xs
  have exceeds : (windowOf V xs).Exceeds (List.range' 2 (maxV - 1 - 1)) ↔
      NumerousUpTo (maxV - 1) (entries (store V xs) xs.length) :=
    exceeds_upTo_iff (store V xs) (by rw [length]; exact Nat.sub_le _ _)
  rw [read] at exceeds
  have rows := ready.core_spec (maxV - 1 - 1) 2
    ((windowOf V xs).firstRow (List.range (windowOf V xs).width) fun _ _ => 0) (by decide)
    (by rw [length]; decide) fun i row => Window.counts_firstRow _ row
  rw [← exceeds]
  rcases rows with ⟨left, large⟩ | ⟨done, small, _⟩
  · exact iff_of_true left large
  · refine iff_of_false (fun left => ?_) small
    rw [Window.table, done] at left
    cases left

private theorem NumerousUpTo.numerous {k : Nat} (upTo : NumerousUpTo k xs) (bound : k ≤ xs.length) :
    Numerous xs := by
  obtain ⟨i, s, low, high, rest⟩ := upTo
  exact ⟨i, s, low, high.trans bound, rest⟩

/-- The search of a list that fits leaves the table exactly for such a list. -/
theorem lost_iff (cleared : g.V = start.V) (fits : ¬ Numerous xs → Fits xs) :
    (answer g xs).1.lost = true ↔ LeavesTable xs := by
  by_cases numerous : Numerous xs
  · rw [(answer_of_numerous numerous).1]
    exact iff_of_false Bool.false_ne_true fun leaves => leaves.1 numerous
  · obtain ⟨count, _, lists, printed, _, _, leaves, _⟩ :=
      answer_of_cleared cleared (fits numerous) numerous
    rw [printed, ← leaves]
    cases lists with
    | none => exact iff_of_true rfl rfl
    | some lists => exact iff_of_false Bool.false_ne_true (Option.some_ne_none _)

/-- The lists that an iteration answers. -/
theorem answerable_iff (cleared : g.V = start.V) :
    ((prepare (store g.V xs) xs.length).inside xs.length = true ∧ (answer g xs).1.lost = false) ↔
      Answerable xs := by
  have window : prepare (store g.V xs) xs.length = windowOf (fun _ => 0) xs := by
    rw [cleared]
    rfl
  have rows : xs.length = maxV ∧ ((windowOf (fun _ => 0) xs).table (maxV - 1)).1 = true ↔
      xs.length = maxV ∧ NumerousUpTo (maxV - 1) xs :=
    and_congr_right fun length => table_before_iff _ length
  have inside : (windowOf (fun _ => 0) xs).inside xs.length = true ↔
      (windowOf (fun _ => 0) xs).width ≤ maxSum ∧
        (xs.length < maxV ∨ xs.length = maxV ∧ NumerousUpTo (maxV - 1) xs) := by
    rw [Window.inside, ← rows]
    simp only [Bool.and_eq_true, Bool.or_eq_true, decide_eq_true_eq]
  rw [window, inside, Answerable, ← and_assoc]
  refine and_congr_right fun ⟨narrow, short⟩ => ?_
  rw [← Bool.not_eq_true]
  refine not_congr (lost_iff cleared fun small => ⟨?_, narrow⟩)
  rcases short with short | ⟨length, upTo⟩
  · exact short
  · exact absurd (upTo.numerous (by rw [length]; exact Nat.sub_le _ _)) small

/-! ## One iteration -/

/-- The state behind the look at the next character. -/
def LoopState.peeked (l : LoopState) : LoopState := { l with g := { l.g with flip := false } }

theorem iteration_cons {c : Char} (good : l.input.good = true) (front : l.input.rest = c :: rest) :
    iteration bounded l =
      if c.isDigit then l.peeked.readList
      else if c.isAlpha then l.peeked.readOper bounded
      else some (.loops l.peeked) := by
  rw [iteration, Istream.peek, if_pos good, front]
  rfl

/-- An iteration that is not in front of a digit or a letter consumes nothing and comes around. -/
theorem iteration_stuck (bounded : Bool) (l : LoopState) (stuck : l.input.good = true →
    ∀ c ∈ l.input.rest.head?, c.isDigit = false ∧ c.isAlpha = false) :
    ∃ l', iteration bounded l = some (.loops l') ∧ l'.input.rest = l.input.rest := by
  by_cases good : l.input.good = true
  · cases front : l.input.rest with
    | nil =>
        rw [iteration, Istream.peek, if_pos good, front]
        exact ⟨_, rfl, rfl⟩
    | cons c rest =>
        obtain ⟨digit, letter⟩ := stuck good c (by rw [front]; rfl)
        refine ⟨l.peeked, ?_, front⟩
        rw [iteration_cons good front, digit, letter]
        rfl
  · rw [iteration, Istream.peek, if_neg good]
    exact ⟨_, rfl, rfl⟩

theorem readList_eq (l : LoopState) {n : Int} {input : Istream}
    (number : l.input.readInt l.n = (n, input)) {behind : Istream}
    (list : input.readInts l.g.V 0 n.toNat = (xs, behind)) :
    l.readList =
      if maxV < n then none
      else if (prepare (store l.g.V xs) xs.length).inside xs.length then
        if (answer l.g xs).1.lost then none
        else some (.loops ⟨behind.ignore, l.oper, n, (answer l.g xs).2⟩)
      else none := by
  rw [LoopState.readList, number]
  dsimp only
  rw [list]

/-- What is read by an iteration in front of a digit that leaves no flag. -/
theorem list_of_readList {d : Char} (front : l.input.rest = d :: text) (digit : d.isDigit = true)
    (cleared : l.g.V = start.V) (read : l.readList = some (.loops l'))
    (behind : l'.input = ⟨rest, true⟩) :
    ∃ digits texts xs c, l.input.rest = digits ++ (texts ++ c :: rest) ∧ digits ≠ [] ∧
      (∀ d ∈ digits, d.isDigit = true) ∧ decimal digits = xs.length ∧
      Istream.Numerals texts xs ∧ c.isDigit = false ∧ Answerable xs := by
  rcases number : l.input.readInt l.n with ⟨n, input⟩
  rcases list : input.readInts l.g.V 0 n.toNat with ⟨xs, final⟩
  rw [readList_eq l number list] at read
  split_ifs at read with long inside lost
  obtain rfl := Iteration.loops.inj (Option.some.inj read)
  obtain ⟨final_good, c, ignored⟩ := Istream.ignore_iff.mp behind
  have input_good : input.good = true := Istream.good_of_readInts (by rw [list]; exact final_good)
  have number' : l.input.readInt l.n = (n, ⟨input.rest, true⟩) :=
    number.trans (Prod.ext rfl (Istream.ext rfl input_good))
  have list' : input.readInts l.g.V 0 n.toNat = (xs, ⟨c :: rest, true⟩) :=
    list.trans (Prod.ext rfl (Istream.ext ignored final_good))
  obtain ⟨_, digits, numeral, split, stops⟩ := (Istream.readInt_iff l.n).mp number'
  obtain ⟨_, length, more, texts, numerals, split'⟩ := (Istream.readInts_iff stops).mp list'
  have some := numeral.ne_nil
  obtain ⟨all, value⟩ := numeral.of_digit (d := d) (by
    rw [← List.head?_append_of_ne_nil _ some, ← split, front]
    rfl) digit
  obtain ⟨e, tail, same, stop⟩ := more
  obtain ⟨rfl, rfl⟩ := List.cons.inj same
  refine ⟨digits, texts, xs, c, by rw [split, split'], some, all, ?_, numerals, stop,
    (answerable_iff cleared).mp ⟨inside, by simpa using lost⟩⟩
  rw [length, value, Int.toNat_natCast]

theorem readList_of_list {digits texts : List Char} {c : Char} (good : l.input.good = true)
    (cleared : l.g.V = start.V) (split : l.input.rest = digits ++ (texts ++ c :: rest))
    (some : digits ≠ []) (all : ∀ d ∈ digits, d.isDigit = true) (count : decimal digits = xs.length)
    (numerals : Istream.Numerals texts xs) (stop : c.isDigit = false)
    (answerable : Answerable xs) :
    ∃ l', l.readList = Option.some (.loops l') ∧ l'.input = ⟨rest, true⟩ ∧ l'.g.V = start.V := by
  obtain ⟨inside, found⟩ := (answerable_iff cleared).mpr answerable
  have short : xs.length ≤ maxV := by
    rcases answerable.2.1 with short | ⟨length, _⟩
    · exact short.le
    · exact length.le
  have more : Istream.Stops (c :: rest) := ⟨c, rest, rfl, stop⟩
  have numeral : Istream.Numeral digits xs.length := by
    refine ⟨[], false, [], digits, rfl, by simp, by simp [Istream.signTexts], some, all, ?_, ?_, ?_⟩
    · rw [← count]
      rfl
    · omega
    · have bound : (maxV : Int) < 2 ^ 31 := by decide
      omega
  have number : l.input.readInt l.n = (↑xs.length, ⟨texts ++ c :: rest, true⟩) :=
    (Istream.readInt_iff l.n).mpr ⟨good, digits, numeral, split, numerals.stops_append more⟩
  have list : Istream.readInts l.g.V 0 (xs.length : Int).toNat ⟨texts ++ c :: rest, true⟩ =
      (xs, ⟨c :: rest, true⟩) :=
    (Istream.readInts_iff (numerals.stops_append more)).mpr
      ⟨rfl, rfl, more, texts, numerals, rfl⟩
  rw [readList_eq l number list, if_neg (by omega), if_pos inside, found]
  exact ⟨_, rfl, rfl, answer_clears _ _⟩

theorem readList_loops {result : Iteration} (read : l.readList = some result) :
    ∃ l', result = .loops l' ∧ l'.g.V = start.V := by
  rcases number : l.input.readInt l.n with ⟨n, input⟩
  rcases list : input.readInts l.g.V 0 n.toNat with ⟨xs, behind⟩
  rw [readList_eq l number list] at read
  split_ifs at read
  exact ⟨_, (Option.some.inj read).symm, answer_clears _ _⟩

/-- In front of a letter a word is read. -/
theorem readOper_iff {c : Char} {result : Iteration} (good : l.input.good = true)
    (front : l.input.rest = c :: rest) (letter : c.isAlpha = true) :
    l.readOper bounded = some result ↔
      ∃ word tail, l.input.rest = word ++ tail ∧ word ≠ [] ∧ (∀ c ∈ word, isspace c = false) ∧
        word.length < 4 ∧
        ((∀ c ∈ tail.head?, isspace c = true) ∨ bounded = true ∧ word.length + 1 = 4) ∧
        result = if word = eoi then .leaves
          else .loops { l with input := ⟨tail, decide (tail ≠ [])⟩, oper := word } := by
  have visible := not_isspace_of_isAlpha letter
  constructor
  · intro read
    rw [LoopState.readOper] at read
    split at read
    · cases read
    · next word behind found =>
      obtain ⟨split, some, letters, flag, short, full⟩ :=
        (Istream.readWord_iff good front visible (by decide)).mp found
      refine ⟨word, behind.rest, split, some, letters, short, full, ?_⟩
      have same : behind = ⟨behind.rest, decide (behind.rest ≠ [])⟩ := Istream.ext rfl flag
      rw [← same]
      split_ifs at read ⊢ with last
      · exact (Option.some.inj read).symm
      · exact (Option.some.inj read).symm
  · rintro ⟨word, tail, split, some, letters, short, full, rfl⟩
    have found : l.input.readWord bounded 4 l.oper = Option.some
        (word, ⟨tail, decide (tail ≠ [])⟩) :=
      (Istream.readWord_iff good front visible (by decide)).mpr
        ⟨split, some, letters, rfl, short, full⟩
    rw [LoopState.readOper, found]
    dsimp only
    split_ifs <;> rfl

/-! ## All iterations -/

theorem Next.unique {l'' : LoopState} (next : Next bounded l l') (next' : Next bounded l l'') :
    l' = l'' :=
  Iteration.loops.inj (Option.some.inj (next.symm.trans next'))

theorem Next.not_leaves (next : Next bounded l l') : iteration bounded l ≠ some .leaves := by
  intro leaves
  rw [Next, leaves] at next
  cases next

theorem Ends.of_leaves (leaves : iteration bounded l = some .leaves) : Ends bounded l where
  leaves := ⟨l, .refl, leaves⟩
  consumes := fun l' reach => by
    rcases reach.cases_head with rfl | ⟨l'', next, _⟩
    · exact .inl leaves
    · exact absurd leaves next.not_leaves

theorem Ends.of_next (next : Next bounded l l')
    (shorter : l'.input.rest.length < l.input.rest.length) (ends : Ends bounded l') :
    Ends bounded l := by
  obtain ⟨final, reach, leaves⟩ := ends.leaves
  refine ⟨⟨final, reach.head next, leaves⟩, fun l'' other => ?_⟩
  rcases other.cases_head with rfl | ⟨l₁, first, others⟩
  · exact .inr ⟨l', next, shorter⟩
  · obtain rfl := next.unique first
    exact ends.consumes l'' others

private theorem Ends.next (ends : Ends bounded l) (next : Next bounded l l') : Ends bounded l' := by
  obtain ⟨final, reach, leaves⟩ := ends.leaves
  refine ⟨⟨final, ?_, leaves⟩, fun l'' reach => ends.consumes l'' (reach.head next)⟩
  rcases reach.cases_head with rfl | ⟨l₁, first, reach⟩
  · exact absurd leaves next.not_leaves
  · obtain rfl := next.unique first
    exact reach

private theorem Ends.shorter (ends : Ends bounded l) (next : Next bounded l l') :
    l'.input.rest.length < l.input.rest.length := by
  rcases ends.consumes l .refl with leaves | ⟨l'', next', shorter⟩
  · exact absurd leaves next.not_leaves
  · obtain rfl := next.unique next'
    exact shorter

private theorem Ends.exists_iteration (ends : Ends bounded l) :
    ∃ result, iteration bounded l = some result := by
  rcases ends.consumes l .refl with leaves | ⟨l', next, _⟩
  · exact ⟨_, leaves⟩
  · exact ⟨_, next⟩

theorem Ends.front (ends : Ends bounded l) : l.input.good = true ∧
    ∃ c rest, l.input.rest = c :: rest ∧ (c.isDigit = true ∨ c.isAlpha = true) := by
  by_contra other
  obtain ⟨l', around, same⟩ := iteration_stuck bounded l fun good c head => by
    obtain ⟨rest, front⟩ := List.head?_eq_some_iff.mp head
    exact ⟨by simpa using fun digit => other ⟨good, c, rest, front, .inl digit⟩,
      by simpa using fun letter => other ⟨good, c, rest, front, .inr letter⟩⟩
  have shorter := ends.shorter around
  rw [same] at shorter
  exact absurd shorter (Nat.lt_irrefl _)

theorem Ends.reaches_of_digit {d : Char} (ends : Ends bounded l) (cleared : l.g.V = start.V)
    (front : l.input.rest = d :: text) (digit : d.isDigit = true)
    (others : ∀ l', Next bounded l l' → l'.g.V = start.V → ReachesEoi bounded l'.input.rest) :
    ReachesEoi bounded l.input.rest := by
  have good := ends.front.1
  have step : iteration bounded l = l.peeked.readList := by
    rw [iteration_cons good front, if_pos digit]
  obtain ⟨result, around⟩ := ends.exists_iteration
  obtain ⟨l', rfl, cleared'⟩ := readList_loops (step.symm.trans around)
  have behind : l'.input = ⟨l'.input.rest, true⟩ := Istream.ext rfl (ends.next around).front.1
  obtain ⟨digits, texts, xs, c, split, some, all, count, numerals, stop, answerable⟩ :=
    list_of_readList (l := l.peeked) front digit cleared (step.symm.trans around) behind
  have whole : l.input.rest = digits ++ (texts ++ c :: l'.input.rest) := split
  rw [whole]
  exact .list some all count numerals stop answerable (others l' around cleared')

theorem Ends.reaches_of_letter {a : Char} (ends : Ends bounded l) (cleared : l.g.V = start.V)
    (front : l.input.rest = a :: text) (letter : a.isAlpha = true)
    (others : ∀ l', Next bounded l l' → l'.g.V = start.V → ReachesEoi bounded l'.input.rest) :
    ReachesEoi bounded l.input.rest := by
  have good := ends.front.1
  have step : iteration bounded l = l.peeked.readOper bounded := by
    rw [iteration_cons good front, not_isDigit_of_isAlpha letter, letter]
    rfl
  obtain ⟨result, around⟩ := ends.exists_iteration
  obtain ⟨word, tail, split, _, letters, _, full, rfl⟩ :=
    (readOper_iff (l := l.peeked) good front letter).mp (step.symm.trans around)
  have whole : l.input.rest = word ++ tail := split
  by_cases last : word = SubsetDP.eoi
  · subst last
    rw [whole]
    exact .eoi (full.elim .inr fun full => .inl full.1)
  · rw [if_neg last] at around
    have rest := others _ around cleared
    obtain ⟨_, f, others, front', kind⟩ := (ends.next around).front
    -- the next iteration is not in front of a blank
    obtain ⟨fills, length⟩ := full.resolve_left fun blanks => by
      have blank := blanks f (by rw [show tail = f :: others from front']; rfl)
      rcases kind with digit' | letter'
      · rw [not_isDigit_of_isspace blank] at digit'
        cases digit'
      · rw [not_isspace_of_isAlpha letter'] at blank
        cases blank
    obtain ⟨x, y, z, rfl⟩ := List.length_eq_three.mp (Nat.succ.inj length)
    obtain ⟨rfl, _⟩ := List.cons.inj (front.symm.trans whole)
    rw [whole]
    exact .word fills letter (letters y (by simp)) (letters z (by simp)) last rest

/-- A loop that ends reads such a text. -/
theorem reachesEoi_of_ends (ends : Ends bounded l) (cleared : l.g.V = start.V) :
    ReachesEoi bounded l.input.rest := by
  induction size : l.input.rest.length using Nat.strong_induction_on generalizing l with
  | h size induction =>
    have others (l' : LoopState) (next : Next bounded l l') (cleared' : l'.g.V = start.V) :
        ReachesEoi bounded l'.input.rest :=
      induction _ (size ▸ ends.shorter next) (ends.next next) cleared' rfl
    obtain ⟨_, c, rest, front, digit | letter⟩ := ends.front
    · exact ends.reaches_of_digit cleared front digit others
    · exact ends.reaches_of_letter cleared front letter others

theorem ReachesEoi.front (reaches : ReachesEoi bounded text) :
    ∃ c rest, text = c :: rest ∧ (c.isDigit = true ∨ c.isAlpha = true) := by
  cases reaches with
  | eoi _ => exact ⟨'E', _, rfl, .inr (by decide)⟩
  | word _ letter _ _ _ _ => exact ⟨_, _, rfl, .inr letter⟩
  | list some all _ _ _ _ _ =>
      obtain ⟨d, digits, rfl⟩ := List.exists_cons_of_ne_nil some
      exact ⟨d, _, rfl, .inl (all d List.mem_cons_self)⟩

theorem ends_of_reachesEoi (reaches : ReachesEoi bounded text) {l : LoopState}
    (input : l.input = ⟨text, true⟩) (cleared : l.g.V = start.V) : Ends bounded l := by
  have good : l.input.good = true := by rw [input]
  have here : l.input.rest = text := by rw [input]
  induction reaches generalizing l with
  | @eoi rest ends =>
      have word : l.peeked.readOper bounded = some .leaves :=
        (readOper_iff (l := l.peeked) good here (by decide)).mpr
          ⟨SubsetDP.eoi, rest, here, by decide, by simp [SubsetDP.eoi, isspace], by decide,
            ends.elim (fun full => .inr ⟨full, rfl⟩) .inl, rfl⟩
      exact .of_leaves ((iteration_cons good here).trans word)
  | @word a b c rest full letter second third other next induction =>
      set l' : LoopState := { l.peeked with input := ⟨rest, true⟩, oper := [a, b, c] }
      have word : l.peeked.readOper bounded = some (.loops l') := by
        obtain ⟨f, others, rfl, _⟩ := next.front
        refine (readOper_iff (l := l.peeked) good here letter).mpr
          ⟨[a, b, c], _, here, by simp, ?_, by simp, .inr ⟨full, rfl⟩, ?_⟩
        · simp [not_isspace_of_isAlpha letter, second, third]
        · rw [if_neg other]
          rfl
      have step : Next bounded l l' := by
        rw [Next, iteration_cons good here, not_isDigit_of_isAlpha letter, if_pos letter]
        exact word
      refine .of_next step ?_ (induction rfl cleared rfl rfl)
      rw [here]
      exact Nat.lt_add_of_pos_right (show 0 < 3 by decide)
  | @list digits texts xs c rest some all count numerals stop answerable next induction =>
      obtain ⟨d, tail, rfl⟩ := List.exists_cons_of_ne_nil some
      have digit := all d List.mem_cons_self
      obtain ⟨l', read, input', cleared'⟩ :=
        readList_of_list (l := l.peeked) good cleared here some all count numerals stop answerable
      have step : Next bounded l l' := by
        rw [Next, iteration_cons good here, if_pos digit]
        exact read
      refine .of_next step ?_ (induction input' cleared' (by rw [input']) (by rw [input']))
      rw [here, input']
      simp
      omega

/-- The read loop is left behind iterations that all consume a character exactly in front of such a
text. -/
theorem readLoop_ends_iff (bounded : Bool) (text oper : List Char) (n : Int) :
    Ends bounded (reading text oper n) ↔ ReachesEoi bounded text :=
  ⟨fun ends => reachesEoi_of_ends ends rfl, fun reaches => ends_of_reachesEoi reaches rfl rfl⟩

theorem answerable_ones : Answerable [1, 1] := by
  refine ⟨by decide, .inl (by decide), fun leaves => ?_⟩
  obtain ⟨x, single, _⟩ := leavesTable_iff.mp leaves
  cases single

private theorem not_ends_of_stray (stray : ∀ c ∈ l.input.rest.head?, c.isDigit = false ∧
    c.isAlpha = false) :
    ¬ Ends bounded l := by
  intro ends
  obtain ⟨_, c, rest, front, found⟩ := ends.front
  obtain ⟨digit, letter⟩ := stray c (by rw [front]; rfl)
  simp [digit, letter] at found

/-- In front of the end, of a blank or of a minus sign the loop comes around without reading; and so
it does behind the list `1 1` with a blank at its end. -/
theorem readLoop_stuck : (∀ bounded, ¬ Ends bounded (reading [] [] 0)) ∧
    (∀ bounded, ¬ Ends bounded (reading [' '] [] 0)) ∧
    (∀ bounded, ¬ Ends bounded (reading ['-', '1'] [] 0)) ∧
    ∀ bounded, ¬ Ends bounded (reading (['2', ' ', '1', ' ', '1', ' ', '\n'] ++ eoi) [] 0) := by
  refine ⟨fun _ => not_ends_of_stray (by simp [reading]), fun _ => not_ends_of_stray ?_,
    fun _ => not_ends_of_stray ?_, fun bounded ends => ?_⟩
  · rintro c ⟨⟩
    decide
  · rintro c ⟨⟩
    decide
  have one : Istream.Numeral [' ', '1'] 1 :=
    ⟨[' '], false, [], ['1'], rfl, by simp [isspace], by decide, by decide, by simp, rfl, by decide,
      by decide⟩
  have front : Istream.Stops [' ', '1'] := ⟨' ', ['1'], rfl, rfl⟩
  set l := reading (['2', ' ', '1', ' ', '1', ' ', '\n'] ++ eoi) [] 0
  obtain ⟨l', read, behind, _⟩ : ∃ l', l.peeked.readList = some (.loops l') ∧
      l'.input = ⟨'\n' :: eoi, true⟩ ∧ l'.g.V = start.V :=
    readList_of_list rfl rfl
      (show l.peeked.input.rest = ['2'] ++ ([' ', '1', ' ', '1'] ++ ' ' :: '\n' :: eoi) from rfl)
      (by decide) (by simp) (by decide) (.cons one front (.cons one front .nil)) (by decide)
      answerable_ones
  have next : Next bounded l l' := by
    rw [Next, iteration_cons (c := '2') rfl rfl, if_pos (by decide)]
    exact read
  exact not_ends_of_stray (by rw [behind]; rintro c ⟨⟩; decide) (ends.next next)

end KwHomework.SubsetDP
