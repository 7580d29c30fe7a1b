import KwHomework.Input.Istream
import Mathlib.Algebra.Order.Ring.Int

/-!
# Formatted output

The text that an output stream of C++ makes of a number and of numbers with commas between them.  In
front of a character that is no digit, a number can be told from its text.
-/

namespace KwHomework.Ostream

open Istream

variable {x y : Int} {n m : Nat} {xs ys : List Int} {rest rest' : List Char}

/-- `<<` of an integer. -/
def showInt (x : Int) : List Char :=
  if x < 0 then '-' :: Nat.toDigits 10 x.natAbs else Nat.toDigits 10 x.natAbs

/-- `<<` of the entries of an array, with a comma behind each but the last. -/
def showInts : List Int → List Char
  | [] => []
  | [x] => showInt x
  | x :: y :: xs => showInt x ++ ',' :: showInts (y :: xs)

/-! ## One number -/

theorem isDigit_of_mem_toDigits : ∀ c ∈ Nat.toDigits 10 n, c.isDigit = true :=
  fun _ => Nat.isDigit_of_mem_toDigits (by decide) (by decide)

theorem toDigits_append_inj (stops : Stops rest) (stops' : Stops rest')
    (same : Nat.toDigits 10 n ++ rest = Nat.toDigits 10 m ++ rest') : n = m ∧ rest = rest' := by
  obtain ⟨c, tail, rfl, stop⟩ := stops
  obtain ⟨d, tail', rfl, stop'⟩ := stops'
  obtain ⟨digits, behind⟩ := takeWhile_dropWhile (c :: tail)
    (isDigit_of_mem_toDigits (n := n)) (by simpa using stop)
  obtain ⟨digits', behind'⟩ := takeWhile_dropWhile (d :: tail')
    (isDigit_of_mem_toDigits (n := m)) (by simpa using stop')
  rw [same] at digits behind
  have equal : Nat.toDigits 10 n = Nat.toDigits 10 m := digits.symm.trans digits'
  refine ⟨?_, behind.symm.trans behind'⟩
  calc
    n = Nat.ofDigitChars 10 (Nat.toDigits 10 n) 0 := Nat.ofDigitChars_ten_toDigits.symm
    _ = Nat.ofDigitChars 10 (Nat.toDigits 10 m) 0 := by rw [equal]
    _ = m := Nat.ofDigitChars_ten_toDigits

/-- A number begins with a digit or a minus sign. -/
theorem showInt_front (x : Int) :
    ∃ c tail, showInt x = c :: tail ∧ (c = '-' ∧ x < 0 ∨ c.isDigit = true ∧ 0 ≤ x) := by
  rw [showInt]
  split_ifs with negative
  · exact ⟨'-', _, rfl, .inl ⟨rfl, negative⟩⟩
  · obtain ⟨c, tail, front⟩ := List.exists_cons_of_ne_nil
      (Nat.toDigits_ne_nil (n := x.natAbs) (b := 10))
    refine ⟨c, tail, front, .inr ⟨isDigit_of_mem_toDigits (n := x.natAbs) c ?_, not_lt.mp negative⟩⟩
    rw [front]
    exact List.mem_cons_self

theorem showInt_append_inj (stops : Stops rest) (stops' : Stops rest')
    (same : showInt x ++ rest = showInt y ++ rest') : x = y ∧ rest = rest' := by
  have signs : x < 0 ↔ y < 0 := by
    obtain ⟨c, tail, front, sign⟩ := showInt_front x
    obtain ⟨d, tail', front', sign'⟩ := showInt_front y
    rw [front, front'] at same
    obtain ⟨rfl, _⟩ := List.cons.inj same
    have minus : ('-' : Char).isDigit = false := rfl
    rcases sign with ⟨rfl, negative⟩ | ⟨digit, nonneg⟩
    · rcases sign' with ⟨_, negative'⟩ | ⟨digit, _⟩
      · exact iff_of_true negative negative'
      · rw [minus] at digit
        cases digit
    · rcases sign' with ⟨rfl, _⟩ | ⟨_, nonneg'⟩
      · rw [minus] at digit
        cases digit
      · exact iff_of_false nonneg.not_gt nonneg'.not_gt
  have digits : x.natAbs = y.natAbs ∧ rest = rest' := by
    rw [showInt, showInt] at same
    by_cases negative : x < 0
    · rw [if_pos negative, if_pos (signs.mp negative)] at same
      exact toDigits_append_inj stops stops' (List.cons.inj same).2
    · rw [if_neg negative, if_neg (mt signs.mpr negative)] at same
      exact toDigits_append_inj stops stops' same
  refine ⟨?_, digits.2⟩
  have size := digits.1
  omega

/-! ## Numbers in braces -/

theorem showInts_cons (x : Int) (xs : List Int) :
    showInts (x :: xs) = showInt x ++ xs.flatMap fun y => ',' :: showInt y := by
  induction xs generalizing x with
  | nil => rw [List.flatMap_nil, List.append_nil, showInts]
  | cons y xs induction => rw [showInts, induction, List.flatMap_cons, List.cons_append]

theorem stops_brace (xs : List Int) (rest : List Char) :
    Stops (xs.flatMap (fun y => ',' :: showInt y) ++ '}' :: rest) := by
  cases xs with
  | nil => exact ⟨'}', rest, rfl, rfl⟩
  | cons y xs => exact ⟨',', _, rfl, rfl⟩

theorem commas_append_inj (same : xs.flatMap (fun y => ',' :: showInt y) ++ '}' :: rest =
    ys.flatMap (fun y => ',' :: showInt y) ++ '}' :: rest') : xs = ys ∧ rest = rest' := by
  induction xs generalizing ys with
  | nil =>
      cases ys with
      | nil => exact ⟨rfl, (List.cons.inj same).2⟩
      | cons y ys => cases (List.cons.inj same).1
  | cons x xs induction =>
      cases ys with
      | nil => cases (List.cons.inj same).1
      | cons y ys =>
          rw [List.flatMap_cons, List.flatMap_cons, List.append_assoc, List.append_assoc] at same
          obtain ⟨rfl, others⟩ := showInt_append_inj (stops_brace xs rest) (stops_brace ys rest')
            (List.cons.inj same).2
          obtain ⟨rfl, behind⟩ := induction others
          exact ⟨rfl, behind⟩

/-- In front of a closing brace, the numbers can be told from their text. -/
theorem showInts_append_inj (same : showInts xs ++ '}' :: rest = showInts ys ++ '}' :: rest') :
    xs = ys ∧ rest = rest' := by
  have apart (x : Int) (tail tail' : List Char) : '}' :: tail ≠ showInt x ++ tail' := by
    obtain ⟨c, digits, front, sign⟩ := showInt_front x
    rw [front]
    intro equal
    obtain ⟨rfl, _⟩ := List.cons.inj equal
    rcases sign with ⟨minus, _⟩ | ⟨digit, _⟩
    · cases minus
    · cases digit
  cases xs with
  | nil =>
      cases ys with
      | nil => exact ⟨rfl, (List.cons.inj same).2⟩
      | cons y ys =>
          rw [showInts_cons, List.append_assoc] at same
          exact absurd same (apart y _ _)
  | cons x xs =>
      cases ys with
      | nil =>
          rw [showInts_cons, List.append_assoc] at same
          exact absurd same.symm (apart x _ _)
      | cons y ys =>
          rw [showInts_cons, showInts_cons, List.append_assoc, List.append_assoc] at same
          obtain ⟨rfl, others⟩ := showInt_append_inj (stops_brace xs rest)
            (stops_brace ys rest') same
          obtain ⟨rfl, behind⟩ := commas_append_inj others
          exact ⟨rfl, behind⟩

end KwHomework.Ostream
