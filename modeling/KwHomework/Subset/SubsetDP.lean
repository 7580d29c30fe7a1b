import Mathlib.Algebra.Ring.Int.Defs
import Mathlib.Data.List.GetD
import Mathlib.Data.List.Sort
import Mathlib.Logic.Function.Basic

/-!
# The subset table

The program of `HW2-SubsetDP.cpp`.  A session is the lists between the prompt and `EOI`; for every
list the program prints a count and two lists, or `NUMEROUS`.  Integers are unbounded, because no
`int` overflows on a list whose window fits the table.  A `none` is an access outside an array.
-/

namespace KwHomework

open Function

/-- `MAX_V`. -/
abbrev maxV : Nat := 501

/-- `MAX_SUM`. -/
abbrev maxSum : Nat := 62626

/-- `UINT_MAX`. -/
abbrev uintMax : Nat := 4294967295

/-- `dp`, by row and column. -/
abbrev SumTable := Nat → Nat → Nat

namespace SubsetDP

/-- The variables of the program that live as long as it. -/
structure Session where
  V : Nat → Int
  dp : SumTable
  flip : Bool
  NUMER : Bool
  odd : Bool

/-- What the program prints for a list.  The printed lists are `none` when the search for their sum
leaves the table. -/
inductive Printed where
  | numerous
  | answer (count : Nat) (lists : Option (List Int × List Int))
  deriving DecidableEq

/-! ## Reading a list -/

/-- The first `n` entries of an array. -/
def entries (V : Nat → Int) (n : Nat) : List Int := (List.range n).map V

/-- Assign the entries of a list to the front of an array. -/
def store (V : Nat → Int) (xs : List Int) : Nat → Int := fun i => xs.getD i (V i)

/-- The variables that the table is computed from. -/
structure Window where
  V : Nat → Int
  sum : Int
  negative : Int
  flip : Bool

/-- The code between the reading of a list and the table. -/
def prepare (V : Nat → Int) (n : Nat) : Window :=
  let sum := (entries V n).sum.tdiv 2
  let V' := if sum < 0 then store V ((entries V n).map (- ·)) else V
  { V := store V' ((entries V' n).insertionSort (· ≤ ·))
    sum := if sum < 0 then -sum else sum
    negative := ((entries V' n).filter (· < 0)).sum
    flip := sum < 0 }

namespace Window

/-- `sum-negative`, the column of the target sum. -/
def target (w : Window) : Nat := (w.sum - w.negative).toNat

/-- `sum-negative+1`. -/
def width (w : Window) : Nat := (w.sum - w.negative + 1).toNat

/-! ## The table -/

/-- `dp[i][j] = value`. -/
def setCell (dp : SumTable) (i j value : Nat) : SumTable := update dp i (update (dp i) j value)

/-- The loop that initializes the first row. -/
def firstRow (w : Window) : List Nat → SumTable → SumTable
  | [], dp => dp
  | j :: js, dp => w.firstRow js (if w.negative + j = w.V 0 then setCell dp 1 j 1 else dp)

/-- The value that is assigned to `dp[i][j]`, from the row `i-1` and `V[i-1]`. -/
def cell (w : Window) (row : Nat → Nat) (v : Int) (j : Nat) : Nat :=
  let count := row j
  let count := if v = w.negative + j then count + 1 else count
  if 0 ≤ j - v ∧ j - v < w.sum - w.negative + 1 then count + row (j - v).toNat else count

/-- The loop over a row, which is left with `true` behind a cell above `UINT_MAX`. -/
def coreRow (w : Window) (i : Nat) : List Nat → SumTable → Bool × SumTable
  | [], dp => (false, dp)
  | j :: js, dp =>
      let dp := setCell dp i j (w.cell (dp (i - 1)) (w.V (i - 1)) j)
      if uintMax < dp i j then (true, dp) else w.coreRow i js dp

/-- The loop over the rows. -/
def core (w : Window) : List Nat → SumTable → Bool × SumTable
  | [], dp => (false, dp)
  | i :: is, dp =>
      match w.coreRow i (List.range w.width) dp with
      | (true, dp) => (true, dp)
      | (false, dp) => w.core is dp

/-- Both loops on the cleared table. -/
def table (w : Window) (n : Nat) : Bool × SumTable :=
  w.core (List.range' 2 (n - 1)) (w.firstRow (List.range w.width) fun _ _ => 0)

/-- The empty set is counted behind the loops. -/
def countEmpty (w : Window) (n : Nat) (dp : SumTable) : SumTable :=
  if w.sum = 0 then setCell dp n w.target (dp n w.target + 1) else dp

/-! ## The printed lists -/

/-- The loop `while(dp[n][ch_idx] == 0) ch_idx--`. -/
def chIdx (row : Nat → Nat) : Nat → Option Nat
  | 0 => if row 0 = 0 then none else some 0
  | j + 1 => if row (j + 1) = 0 then chIdx row j else some (j + 1)

/-- The loop that marks the selected entries in `sol[i][1]`. -/
def mark (w : Window) (dp : SumTable) : Nat → Int → (Nat → Nat) → Option (Nat → Nat)
  | 0, _, sol => some sol
  | i + 1, j, sol =>
      if j < 0 then some sol
      else if maxSum ≤ j then none
      else if dp (i + 1) j.toNat ≠ dp i j.toNat then
        w.mark dp i (j - w.V i) (update sol i (sol i + 1))
      else w.mark dp i j sol

/-- The entries with a mark, in order and with their old signs. -/
def marked (w : Window) (n : Nat) (sol : Nat → Nat) (value : Nat) : List Int :=
  ((((List.range n).filter fun i => sol i = value).map fun i =>
    if w.flip then -w.V i else w.V i)).insertionSort (· ≤ ·)

/-- The code behind the count. -/
def lists (w : Window) (n : Nat) (dp : SumTable) : Option (List Int × List Int) := do
  let j ← chIdx (dp n) w.target
  let sol ← w.mark dp n j fun _ => 0
  return (w.marked n sol 1, w.marked n sol 0)

end Window

/-! ## Sessions -/

/-- The code between `Exit2` and the loop over the lists. -/
def exit2 (g : Session) : Session :=
  let g := if g.NUMER then { g with V := fun _ => 0, NUMER := false } else g
  { g with V := fun _ => 0, odd := false }

/-- The loop body for a list. -/
def answer (g : Session) (xs : List Int) : Printed × Session :=
  let n := xs.length
  let V := store g.V xs
  let odd := if (entries V n).sum.tmod 2 = 1 then true else g.odd
  let w := prepare V n
  match w.table n with
  | (true, dp) => (.numerous, exit2 { V := w.V, dp, flip := w.flip, NUMER := true, odd })
  | (false, dp) =>
      let dp := w.countEmpty n dp
      let count := if odd then 0 else dp n w.target / 2
      (.answer count (w.lists n dp), { V := fun _ => 0, dp, flip := w.flip, NUMER := false, odd })

/-- The session at the first list. -/
def start : Session := exit2 ⟨fun _ => 0, fun _ _ => 0, false, false, false⟩

/-- The search left the table. -/
def Printed.lost : Printed → Bool
  | .answer _ none => true
  | _ => false

/-- What is printed for the lists of a session; nothing is known behind an access outside an
array. -/
def session (g : Session) : List (List Int) → List Printed
  | [] => []
  | xs :: rest =>
      let (printed, g) := answer g xs
      printed :: if printed.lost then [] else session g rest

/-- The list fits the arrays. -/
def Fits (xs : List Int) : Prop :=
  xs.length < maxV ∧ (prepare (fun i => xs.getD i 0) xs.length).width ≤ maxSum

instance (xs : List Int) : Decidable (Fits xs) :=
  inferInstanceAs (Decidable (_ ∧ _))

example : (answer start [1, 2, 3]).1 = .answer 1 (some ([3], [1, 2])) := by decide

end SubsetDP
end KwHomework
