import KwHomework.Input.Ostream
import KwHomework.Subset.ReadLoop

/-!
# From text to text

The read loop with what it prints.  On the texts that it comes to the end of, and on no others, it
prints the session of the lists that the text spells; and what is printed for every list can be told
from the output.
-/

namespace KwHomework.SubsetDP

open Ostream Relation

/-- The text that is printed for a list. -/
def Printed.text : Printed → List Char
  | .numerous => ['N', 'U', 'M', 'E', 'R', 'O', 'U', 'S', '\n']
  | .answer count none => showInt count ++ ['\n']
  | .answer count (some (sub1, sub2)) =>
      showInt count ++ '\n' :: '{' :: (showInts sub1 ++ '}' :: ',' :: '{' :: (showInts sub2 ++
        ['}', '\n']))

/-- What is printed in the branch for a list. -/
def LoopState.printed (l : LoopState) : Printed :=
  let (n, input) := l.input.readInt l.n
  (answer l.g (input.readInts l.g.V 0 n.toNat).1).1

/-- What is printed in an iteration. -/
def LoopState.output (l : LoopState) : List Char :=
  match l.input.peek.1 with
  | none => []
  | some c => if c.isDigit then l.peeked.printed.text else []

/-- What is printed until the loop is left. -/
inductive Prints (bounded : Bool) : LoopState → List Char → Prop
  | leaves {l : LoopState} : iteration bounded l = some .leaves → Prints bounded l []
  | loops {l l' : LoopState} {out : List Char} : Next bounded l l' → Prints bounded l' out →
      Prints bounded l (l.output ++ out)

/-- The texts up to `EOI`, and the lists that they spell. -/
inductive Spells (bounded : Bool) : List Char → List (List Int) → Prop
  | eoi {rest} (ends : bounded = true ∨ ∀ c ∈ rest.head?, isspace c = true) :
      Spells bounded (eoi ++ rest) []
  | word {a b c rest lists} (full : bounded = true) (letter : a.isAlpha = true)
      (second : isspace b = false) (third : isspace c = false) (other : [a, b, c] ≠ SubsetDP.eoi)
      (next : Spells bounded rest lists) : Spells bounded ([a, b, c] ++ rest) lists
  | list {digits texts xs c rest lists} (some : digits ≠ []) (all : ∀ d ∈ digits, d.isDigit = true)
      (count : decimal digits = xs.length) (numerals : Istream.Numerals texts xs)
      (stop : c.isDigit = false) (next : Spells bounded rest lists) :
      Spells bounded (digits ++ (texts ++ c :: rest)) (xs :: lists)

variable {bounded : Bool} {l l' : LoopState} {g : Session} {xs : List Int} {p p' : Printed}
  {lists lists' : List (List Int)} {text rest rest' out out' : List Char}

/-! ## Lines -/

theorem Printed.text_append_inj (found : p.lost = false) (found' : p'.lost = false)
    (same : p.text ++ rest = p'.text ++ rest') : p = p' ∧ rest = rest' := by
  have apart (count : Nat) (tail tail' : List Char) :
      'N' :: tail ≠ showInt count ++ '\n' :: tail' := by
    obtain ⟨c, digits, front, sign⟩ := showInt_front count
    rw [front]
    intro equal
    obtain ⟨rfl, _⟩ := List.cons.inj equal
    rcases sign with ⟨minus, _⟩ | ⟨digit, _⟩
    · cases minus
    · cases digit
  have line (count : Nat) (sub1 sub2 : List Int) (rest : List Char) :
      (Printed.answer count (some (sub1, sub2))).text ++ rest = showInt count ++ '\n' :: '{' ::
        (showInts sub1 ++ '}' :: ',' :: '{' :: (showInts sub2 ++ '}' :: '\n' :: rest)) := by
    simp [Printed.text]
  have newline (tail : List Char) : Istream.Stops ('\n' :: tail) := ⟨'\n', tail, rfl, rfl⟩
  cases p with
  | numerous =>
      cases p' with
      | numerous => exact ⟨rfl, List.append_cancel_left same⟩
      | answer count' lists' =>
          cases lists' with
          | none => cases found'
          | some lists' => exact absurd (same.trans (line _ _ _ _)) (apart count' _ _)
  | answer count lists =>
      cases lists with
      | none => cases found
      | some lists =>
          cases p' with
          | numerous => exact absurd (same.symm.trans (line _ _ _ _)) (apart count _ _)
          | answer count' lists' =>
              cases lists' with
              | none => cases found'
              | some lists' =>
                  rw [line, line] at same
                  obtain ⟨counts, first⟩ := showInt_append_inj (newline _) (newline _) same
                  obtain ⟨left, second⟩ := showInts_append_inj
                    (List.cons.inj (List.cons.inj first).2).2
                  obtain ⟨right, last⟩ := showInts_append_inj
                    (List.cons.inj (List.cons.inj second).2).2
                  obtain rfl : count = count' := Int.ofNat_inj.mp counts
                  obtain rfl : lists = lists' := Prod.ext left right
                  exact ⟨rfl, (List.cons.inj last).2⟩

private theorem Printed.text_ne_nil (p : Printed) : p.text ≠ [] := by
  cases p with
  | numerous => exact List.cons_ne_nil _ _
  | answer count lists =>
      cases lists with
      | none => exact List.append_ne_nil_of_right_ne_nil _ (List.cons_ne_nil _ _)
      | some lists => exact List.append_ne_nil_of_right_ne_nil _ (List.cons_ne_nil _ _)

private theorem flatMap_text_inj {ps ps' : List Printed} (found : ∀ p ∈ ps, p.lost = false)
    (found' : ∀ p ∈ ps', p.lost = false)
    (same : ps.flatMap Printed.text = ps'.flatMap Printed.text) :
    ps = ps' := by
  induction ps generalizing ps' with
  | nil =>
      cases ps' with
      | nil => rfl
      | cons p' ps' => exact absurd (List.append_eq_nil_iff.mp same.symm).1 p'.text_ne_nil
  | cons p ps induction =>
      obtain ⟨here, found⟩ := List.forall_mem_cons.mp found
      cases ps' with
      | nil => exact absurd (List.append_eq_nil_iff.mp same).1 p.text_ne_nil
      | cons p' ps' =>
          obtain ⟨here', behind⟩ := List.forall_mem_cons.mp found'
          obtain ⟨rfl, others⟩ := Printed.text_append_inj here here' same
          rw [induction found behind others]

/-- The search stops for every list that is answered. -/
theorem found_of_answerable (cleared : g.V = start.V) (answerable : ∀ xs ∈ lists, Answerable xs) :
    ∀ p ∈ session g lists, p.lost = false := by
  induction lists generalizing g with
  | nil => exact fun p member => (List.not_mem_nil member).elim
  | cons xs lists induction =>
      obtain ⟨here, others⟩ := List.forall_mem_cons.mp answerable
      have found := ((answerable_iff cleared).mpr here).2
      rw [session_cons, found]
      exact List.forall_mem_cons.mpr ⟨found, induction (answer_clears g xs) others⟩

/-! ## The loop prints the session -/

private theorem reads_list {digits texts : List Char} {c : Char} (good : l.input.good = true)
    (split : l.input.rest = digits ++ (texts ++ c :: rest)) (some : digits ≠ [])
    (all : ∀ d ∈ digits, d.isDigit = true) (count : decimal digits = xs.length)
    (numerals : Istream.Numerals texts xs) (stop : c.isDigit = false) (short : xs.length ≤ maxV) :
    l.input.readInt l.n = (↑xs.length, ⟨texts ++ c :: rest, true⟩) ∧
      Istream.readInts l.g.V 0 (xs.length : Int).toNat ⟨texts ++ c :: rest, true⟩ =
        (xs, ⟨c :: rest, true⟩) := by
  have more : Istream.Stops (c :: rest) := ⟨c, rest, rfl, stop⟩
  have bound : (maxV : Int) < 2 ^ 31 := by decide
  have numeral : Istream.Numeral digits xs.length :=
    ⟨[], false, [], digits, rfl, by simp, by simp [Istream.signTexts], some, all,
      congrArg Int.ofNat count.symm, by omega, by omega⟩
  constructor
  · exact (Istream.readInt_iff l.n).mpr ⟨good, digits, numeral, split, numerals.stops_append more⟩
  · exact (Istream.readInts_iff (numerals.stops_append more)).mpr
      ⟨rfl, rfl, more, texts, numerals, rfl⟩

theorem next_of_list (bounded : Bool) {digits texts : List Char} {c : Char}
    (good : l.input.good = true) (cleared : l.g.V = start.V)
    (split : l.input.rest = digits ++ (texts ++ c :: rest))
    (some : digits ≠ []) (all : ∀ d ∈ digits, d.isDigit = true) (count : decimal digits = xs.length)
    (numerals : Istream.Numerals texts xs) (stop : c.isDigit = false)
    (answerable : Answerable xs) :
    Next bounded l ⟨⟨rest, true⟩, l.oper, xs.length, (answer l.g xs).2⟩ ∧
      l.output = (answer l.g xs).1.text := by
  obtain ⟨inside, found⟩ := (answerable_iff cleared).mpr answerable
  have short : xs.length ≤ maxV := by
    rcases answerable.2.1 with short | ⟨length, _⟩
    · exact short.le
    · exact length.le
  obtain ⟨d, tail, rfl⟩ := List.exists_cons_of_ne_nil some
  have digit := all d List.mem_cons_self
  obtain ⟨number, list⟩ :=
    reads_list (l := l.peeked) good split some all count numerals stop short
  constructor
  · have around : l.peeked.readList = Option.some (.loops
        ⟨⟨rest, true⟩, l.oper, xs.length, (answer l.g xs).2⟩) := by
      rw [readList_eq l.peeked number list, if_neg (by omega)]
      exact (if_pos inside).trans (if_neg (by rw [Bool.not_eq_true]; exact found))
    rw [Next, iteration_cons good split, if_pos digit, around]
  · have printed : l.peeked.printed = (answer l.g xs).1 := by
      rw [LoopState.printed, number]
      dsimp only
      rw [list]
      rfl
    rw [LoopState.output, Istream.peek, if_pos good, split]
    exact (if_pos digit).trans (congrArg Printed.text printed)

/-- The answers do not depend on the flag that is cleared behind the look. -/
theorem session_peeked (l : LoopState) (lists : List (List Int)) :
    session l.peeked.g lists = session l.g lists := by
  cases lists with
  | nil => rfl
  | cons xs lists => rfl

private theorem output_of_letter {a : Char} (front : l.input.rest = a :: text)
    (letter : a.isAlpha = true) :
    l.output = [] := by
  rw [LoopState.output, Istream.peek, front]
  cases l.input.good with
  | false => rfl
  | true => exact if_neg (by rw [not_isDigit_of_isAlpha letter]; exact Bool.false_ne_true)

private theorem reaches_of_spells (spells : Spells bounded text lists)
    (answerable : ∀ xs ∈ lists, Answerable xs) : ReachesEoi bounded text := by
  induction spells with
  | eoi ends => exact .eoi ends
  | word full letter second third other _ induction =>
      exact .word full letter second third other (induction answerable)
  | list some all count numerals stop _ induction =>
      obtain ⟨first, others⟩ := List.forall_mem_cons.mp answerable
      exact .list some all count numerals stop first (induction others)

private theorem exists_spells (reaches : ReachesEoi bounded text) :
    ∃ lists, Spells bounded text lists ∧ ∀ xs ∈ lists, Answerable xs := by
  induction reaches with
  | eoi ends => exact ⟨[], .eoi ends, by simp⟩
  | word full letter second third other _ induction =>
      obtain ⟨lists, spells, answerable⟩ := induction
      exact ⟨lists, .word full letter second third other spells, answerable⟩
  | @list digits texts xs c rest some all count numerals stop first _ induction =>
      obtain ⟨lists, spells, answerable⟩ := induction
      exact ⟨xs :: lists, .list some all count numerals stop spells,
        List.forall_mem_cons.mpr ⟨first, answerable⟩⟩

theorem prints_of_spells (spells : Spells bounded text lists)
    (answerable : ∀ xs ∈ lists, Answerable xs)
    {l : LoopState} (input : l.input = ⟨text, true⟩) (cleared : l.g.V = start.V) :
    Prints bounded l ((session l.g lists).flatMap Printed.text) := by
  have good : l.input.good = true := by rw [input]
  have here : l.input.rest = text := by rw [input]
  induction spells generalizing l with
  | @eoi rest ends =>
      have word : l.peeked.readOper bounded = some .leaves :=
        (readOper_iff (l := l.peeked) good here (by decide)).mpr
          ⟨SubsetDP.eoi, rest, here, by decide, by simp [SubsetDP.eoi, isspace], by decide,
            ends.elim (fun full => .inr ⟨full, rfl⟩) .inl, rfl⟩
      exact .leaves ((iteration_cons good here).trans word)
  | @word a b c rest lists full letter second third other next induction =>
      let l' : LoopState := ⟨⟨rest, true⟩, [a, b, c], l.n, l.peeked.g⟩
      have word : l.peeked.readOper bounded = some (.loops l') := by
        obtain ⟨f, others, rfl, _⟩ := (reaches_of_spells next answerable).front
        refine (readOper_iff (l := l.peeked) good here letter).mpr
          ⟨[a, b, c], _, here, by simp, ?_, by simp, .inr ⟨full, rfl⟩, ?_⟩
        · simp [not_isspace_of_isAlpha letter, second, third]
        · rw [if_neg other]
          rfl
      have step : Next bounded l l' := by
        rw [Next, iteration_cons good here, not_isDigit_of_isAlpha letter, if_pos letter]
        exact word
      have rest := induction answerable (l := l') rfl cleared rfl rfl
      have silent := Prints.loops step rest
      rwa [output_of_letter here letter, List.nil_append, session_peeked] at silent
  | @list digits texts xs c rest lists some all count numerals stop next induction =>
      obtain ⟨first, others⟩ := List.forall_mem_cons.mp answerable
      obtain ⟨step, printed⟩ :=
        next_of_list bounded good cleared here some all count numerals stop first
      have found := ((answerable_iff cleared).mpr first).2
      have rest := induction others (l := ⟨⟨rest, true⟩, l.oper, xs.length, (answer l.g xs).2⟩) rfl
        (answer_clears l.g xs) rfl rfl
      rw [session_cons, found, List.flatMap_cons, ← printed]
      exact .loops step rest

/-! ## What is printed is the session -/

private theorem Prints.unique (prints : Prints bounded l out) (prints' : Prints bounded l out') :
    out = out' := by
  induction prints generalizing out' with
  | leaves last =>
      cases prints' with
      | leaves _ => rfl
      | loops next _ => exact absurd last next.not_leaves
  | loops next _ induction =>
      cases prints' with
      | leaves last => exact absurd last next.not_leaves
      | loops next' rest' =>
          obtain rfl := next.unique next'
          rw [induction rest']

/-- There is no digit and no letter in front. -/
def LoopState.Stuck (l : LoopState) : Prop :=
  l.input.good = true → ∀ c ∈ l.input.rest.head?, c.isDigit = false ∧ c.isAlpha = false

private theorem LoopState.Stuck.next (stuck : l.Stuck) (bounded : Bool) :
    ∃ l', iteration bounded l = some (.loops l') ∧ l'.Stuck := by
  by_cases good : l.input.good = true
  · obtain ⟨l', around, same⟩ := iteration_stuck bounded l stuck
    refine ⟨l', around, fun _ => ?_⟩
    rw [same]
    exact stuck good
  · refine ⟨l.peeked, ?_, stuck⟩
    rw [iteration, Istream.peek, if_neg good]
    rfl

/-- A loop that is stuck is never left. -/
theorem Prints.not_stuck (prints : Prints bounded l out) : ¬ l.Stuck := by
  induction prints with
  | leaves last =>
      intro stuck
      obtain ⟨l', around, _⟩ := stuck.next bounded
      cases last.symm.trans around
  | loops next _ induction =>
      intro stuck
      obtain ⟨l', around, stuck'⟩ := stuck.next bounded
      obtain rfl := next.unique around
      exact induction stuck'

private theorem Prints.front (prints : Prints bounded l out) : l.input.good = true ∧
    ∃ c rest, l.input.rest = c :: rest ∧ (c.isDigit = true ∨ c.isAlpha = true) := by
  have moves := prints.not_stuck
  simp only [LoopState.Stuck, not_forall, exists_prop, List.head?_eq_some_iff,
    Option.mem_def] at moves
  obtain ⟨good, c, ⟨rest, front⟩, kind⟩ := moves
  refine ⟨good, c, rest, front, ?_⟩
  by_contra other
  obtain ⟨digit, letter⟩ := not_or.mp other
  exact kind ⟨Bool.eq_false_iff.mpr digit, Bool.eq_false_iff.mpr letter⟩

theorem Prints.shorter (prints : Prints bounded l out) (cleared : l.g.V = start.V)
    (next : Next bounded l l') (prints' : Prints bounded l' out') :
    l'.g.V = start.V ∧ l'.input.rest.length < l.input.rest.length := by
  obtain ⟨good, c, rest, front, digit | letter⟩ := prints.front
  · have read : l.peeked.readList = some (.loops l') := by
      rw [← next, iteration_cons good front, if_pos digit]
    obtain ⟨l'', same, cleared'⟩ := readList_loops read
    obtain rfl := Iteration.loops.inj same
    have behind : l'.input = ⟨l'.input.rest, true⟩ := Istream.ext rfl prints'.front.1
    obtain ⟨digits, texts, xs, c, split, _⟩ :=
      list_of_readList (l := l.peeked) front digit cleared read behind
    have whole : l.input.rest = digits ++ (texts ++ c :: l'.input.rest) := split
    refine ⟨cleared', ?_⟩
    rw [whole]
    simp
    omega
  · have read : l.peeked.readOper bounded = some (.loops l') := by
      rw [← next, iteration_cons good front, not_isDigit_of_isAlpha letter, letter]
      rfl
    obtain ⟨word, tail, split, some, _, _, _, same⟩ :=
      (readOper_iff (l := l.peeked) good front letter).mp read
    have whole : l.input.rest = word ++ tail := split
    split_ifs at same
    obtain rfl := Iteration.loops.inj same
    refine ⟨cleared, ?_⟩
    rw [whole, List.length_append]
    exact Nat.lt_add_of_pos_left (List.length_pos_of_ne_nil some)

private theorem Prints.ends (prints : Prints bounded l out) (cleared : l.g.V = start.V) :
    Ends bounded l := by
  induction prints with
  | leaves last => exact .of_leaves last
  | loops next rest induction =>
      obtain ⟨cleared', shorter⟩ := (Prints.loops next rest).shorter cleared next rest
      exact .of_next next shorter (induction cleared')

/-- The program comes to the end of a text and prints an output exactly if the text spells lists
that are answered, up to `EOI`, and the output is their session; and what is printed for every list
can be told from the output. -/
theorem prints_iff (bounded : Bool) (text oper out : List Char) (n : Int) :
    (Prints bounded (reading text oper n) out ↔ ∃ lists, Spells bounded text lists ∧
      (∀ xs ∈ lists, Answerable xs) ∧ out = (session start lists).flatMap Printed.text) ∧
    ∀ lists lists', (∀ xs ∈ lists, Answerable xs) → (∀ xs ∈ lists', Answerable xs) →
      (session start lists).flatMap Printed.text = (session start lists').flatMap Printed.text →
      session start lists = session start lists' := by
  refine ⟨⟨fun prints => ?_, ?_⟩, fun lists lists' answerable answerable' same =>
    flatMap_text_inj (found_of_answerable rfl answerable)
    (found_of_answerable rfl answerable') same⟩
  · obtain ⟨lists, spells, answerable⟩ := exists_spells (reachesEoi_of_ends (prints.ends rfl) rfl)
    exact ⟨lists, spells, answerable, prints.unique (prints_of_spells spells answerable rfl rfl)⟩
  · rintro ⟨lists, spells, answerable, rfl⟩
    exact prints_of_spells spells answerable rfl rfl

private theorem spells_ones : Spells bounded (['2', ' ', '1', ' ', '1', '\n'] ++ eoi) [[1, 1]] := by
  have one : Istream.Numeral [' ', '1'] 1 :=
    ⟨[' '], false, [], ['1'], rfl, by simp [isspace], by decide, by decide, by simp, rfl, by decide,
      by decide⟩
  have front : Istream.Stops [' ', '1'] := ⟨' ', ['1'], rfl, rfl⟩
  have ends : Spells bounded (eoi ++ []) [] := .eoi (.inr (by simp))
  have whole : Spells bounded (['2'] ++ ([' ', '1', ' ', '1'] ++ '\n' :: eoi)) [[1, 1]] :=
    .list (by decide) (by simp) (by decide) (.cons one front (.cons one front .nil))
    (by decide) ends
  exact whole

/-- For the list `1 1` the count 1 and the two ones are printed. -/
theorem prints_iff_ones : Prints true (reading (['2', ' ', '1', ' ', '1', '\n'] ++ eoi) [] 0)
    ['1', '\n', '{', '1', '}', ',', '{', '1', '}', '\n'] := by
  refine (prints_iff true _ [] _ 0).1.mpr ⟨[[1, 1]], spells_ones, ?_, by decide⟩
  exact fun xs member => List.mem_singleton.mp member ▸ answerable_ones

end KwHomework.SubsetDP
