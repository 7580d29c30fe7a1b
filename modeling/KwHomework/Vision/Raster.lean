import Mathlib.Algebra.Order.Ring.Int
import Mathlib.Data.List.Nodup
import Mathlib.Data.List.ProdSigma
import Mathlib.Logic.Function.Basic
import Mathlib.Tactic.Ring

/-!
# Rasters

Arrays of bytes that are read and written at an `int` index, loops that fill an array position by
position, and the square windows around a position.  A `none` is an index that overflows or an
access outside the array.
-/

namespace Raster

open Function

/-- The largest `int`, and one more. -/
def intLimit : Int := 2 ^ 31

/-- An array of bytes: the entries below its size. -/
structure Bytes where
  size : Nat
  byte : Nat → UInt8

theorem toNat_ofInt {v : Int} (low : 0 ≤ v) (high : v ≤ 255) :
    ((UInt8.ofInt v).toNat : Int) = v := by
  rw [UInt8.ofInt, UInt8.toNat_ofNat']
  omega

namespace Bytes

variable {a a' : Bytes} {i : Int} {v : UInt8}

/-- The index is an `int` and the access is inside the array. -/
def Inside (a : Bytes) (i : Int) : Prop := 0 ≤ i ∧ i < intLimit ∧ i < a.size

instance (a : Bytes) (i : Int) : Decidable (a.Inside i) :=
  inferInstanceAs (Decidable (_ ∧ _))

/-- The value of `a[i]`. -/
def load (a : Bytes) (i : Int) : Option UInt8 := if a.Inside i then some (a.byte i.toNat) else none

/-- The assignment `a[i] = v`. -/
def store (a : Bytes) (i : Int) (v : UInt8) : Option Bytes :=
  if a.Inside i then some { a with byte := update a.byte i.toNat v } else none

theorem load_eq_some : a.load i = some v ↔ a.Inside i ∧ a.byte i.toNat = v := by
  rw [load, Option.ite_none_right_eq_some, Option.some_inj]

theorem load_of_inside (inside : a.Inside i) : a.load i = some (a.byte i.toNat) := if_pos inside

theorem load_of_not_inside (outside : ¬ a.Inside i) : a.load i = none := if_neg outside

private theorem store_eq_some : a.store i v = some a' ↔
    a.Inside i ∧ a' = { a with byte := update a.byte i.toNat v } := by
  rw [store, Option.ite_none_right_eq_some, Option.some_inj, eq_comm (a := a')]

/-- What is stored is loaded. -/
theorem load_store (stored : a.store i v = some a') : a'.load i = some v := by
  obtain ⟨inside, rfl⟩ := store_eq_some.mp stored
  exact load_eq_some.mpr ⟨inside, update_self _ _ _⟩

end Bytes

/-! ## Loops that fill an array -/

section Fill

variable {ι : Type} {index : ι → Int} {value : ι → Option UInt8} {out out' : Bytes}

/-- A loop over positions that assigns a value at the index of each. -/
def fill (index : ι → Int) (value : ι → Option UInt8) (positions : List ι) (out : Bytes) :
    Option Bytes :=
  positions.foldlM (fun out p => (value p).bind fun v => out.store (index p) v) out

/-- What a loop that comes to its end has done. -/
structure Filled (index : ι → Int) (value : ι → Option UInt8) (positions : List ι)
    (out out' : Bytes) : Prop where
  size : out'.size = out.size
  inside : ∀ p ∈ positions, out.Inside (index p)
  value : ∀ p ∈ positions, value p = some (out'.byte (index p).toNat)
  other : ∀ i, (∀ p ∈ positions, (index p).toNat ≠ i) → out'.byte i = out.byte i

theorem fill_cons (p : ι) (positions : List ι) (out : Bytes) :
    fill index value (p :: positions) out =
      ((value p).bind fun v => out.store (index p) v).bind (fill index value positions) := rfl

theorem fill_append (front back : List ι) (out : Bytes) :
    fill index value (front ++ back) out =
      (fill index value front out).bind (fill index value back) := List.foldlM_append

theorem fill_map {κ : Type} (f : κ → ι) (list : List κ) (out : Bytes) :
    fill index value (list.map f) out = fill (index ∘ f) (value ∘ f) list out := List.foldlM_map

/-- A loop over positions with different indices fills the array. -/
theorem filled_of_fill : ∀ {positions : List ι} {out : Bytes},
    (positions.map fun p => (index p).toNat).Nodup → fill index value positions out = some out' →
    Filled index value positions out out'
  | [], out, _, run => by
      obtain rfl := Option.some.inj run
      exact ⟨rfl, by simp, by simp, fun _ _ => rfl⟩
  | p :: positions, out, distinct, run => by
      obtain ⟨new, distinct⟩ := List.nodup_cons.mp distinct
      rw [fill_cons] at run
      obtain ⟨middle, stored, rest⟩ := Option.bind_eq_some_iff.mp run
      obtain ⟨v, computed, stored⟩ := Option.bind_eq_some_iff.mp stored
      obtain ⟨inside, rfl⟩ := Bytes.store_eq_some.mp stored
      have filled := filled_of_fill distinct rest
      have kept : out'.byte (index p).toNat = v := by
        rw [filled.other _ fun q member same => new (List.mem_map.mpr ⟨q, member, same⟩)]
        exact update_self _ _ _
      refine ⟨filled.size, ?_, ?_, fun i others => ?_⟩
      · exact List.forall_mem_cons.mpr ⟨inside, filled.inside⟩
      · exact List.forall_mem_cons.mpr ⟨by rw [kept, computed], filled.value⟩
      · obtain ⟨other, others⟩ := List.forall_mem_cons.mp others
        rw [filled.other i others]
        exact update_of_ne other.symm _ _

/-- A loop comes to its end if every access is inside and every value is computed. -/
theorem exists_fill : ∀ {positions : List ι} {out : Bytes},
    (∀ p ∈ positions, out.Inside (index p)) →
    (∀ p ∈ positions, (value p).isSome = true) → ∃ out', fill index value positions out = some out'
  | [], out, _, _ => ⟨out, rfl⟩
  | p :: positions, out, inside, computed => by
      obtain ⟨here, inside⟩ := List.forall_mem_cons.mp inside
      obtain ⟨first, computed⟩ := List.forall_mem_cons.mp computed
      obtain ⟨v, first⟩ := Option.isSome_iff_exists.mp first
      set middle : Bytes := { out with byte := update out.byte (index p).toNat v }
      obtain ⟨out', run⟩ : ∃ out', fill index value positions middle = some out' :=
        exists_fill inside computed
      refine ⟨out', ?_⟩
      rw [fill_cons, first, Option.bind_some, Bytes.store, if_pos here]
      exact run

/-- A loop that comes to its end has computed every value. -/
theorem isSome_of_fill {positions : List ι} {p : ι}
    (run : fill index value positions out = some out')
    (member : p ∈ positions) : (value p).isSome = true := by
  induction positions generalizing out with
  | nil => cases member
  | cons q positions induction =>
      rw [fill_cons] at run
      obtain ⟨middle, stored, rest⟩ := Option.bind_eq_some_iff.mp run
      obtain ⟨v, computed, _⟩ := Option.bind_eq_some_iff.mp stored
      rcases List.mem_cons.mp member with rfl | later
      · rw [computed]
        rfl
      · exact induction rest later

end Fill

/-! ## Positions and indices -/

/-- The positions of a raster, row by row. -/
def positions (row col : Nat) : List (Nat × Nat) := List.range row ×ˢ List.range col

theorem mem_positions {row col : Nat} {p : Nat × Nat} :
    p ∈ positions row col ↔ p.1 < row ∧ p.2 < col := by
  obtain ⟨h, w⟩ := p
  rw [positions, List.mem_product, List.mem_range, List.mem_range]

theorem positions_eq_nil {row col : Nat} (none : row = 0 ∨ col = 0) : positions row col = [] := by
  refine List.eq_nil_iff_forall_not_mem.mpr fun p member => ?_
  obtain ⟨inRow, inCol⟩ := mem_positions.mp member
  omega

theorem nodup_positions (row col : Nat) : (positions row col).Nodup :=
  List.nodup_range.product List.nodup_range

variable {row col h w h' w' : Nat}

/-- The index of a position in the raster. -/
theorem index_lt (inRow : h < row) (inCol : w < col) : h * col + w < row * col :=
  calc
    h * col + w < h * col + col := Nat.add_lt_add_left inCol _
    _ = (h + 1) * col := by ring
    _ ≤ row * col := Nat.mul_le_mul_right col inRow

theorem index_inj (inCol : w < col) (inCol' : w' < col) (same : h * col + w = h' * col + w') :
    h = h' ∧ w = w' := by
  have positive : 0 < col := Nat.zero_lt_of_lt inCol
  have quotient := congrArg (· / col) same
  have remainder := congrArg (· % col) same
  simp only [Nat.mul_comm _ col, Nat.mul_add_div positive, Nat.mul_add_mod,
    Nat.div_eq_of_lt inCol, Nat.div_eq_of_lt inCol', Nat.mod_eq_of_lt inCol,
    Nat.mod_eq_of_lt inCol'] at quotient remainder
  exact ⟨by omega, remainder⟩

/-- The last index of the raster. -/
theorem last_index (rows : 0 < row) (cols : 0 < col) :
    (row - 1) * col + (col - 1) + 1 = row * col := by
  obtain ⟨row, rfl⟩ := Nat.exists_eq_add_one.mpr rows
  rw [Nat.add_assoc, Nat.sub_add_cancel cols, Nat.add_sub_cancel, Nat.succ_mul]

/-- The index of a position in the array. -/
def pixelIndex (col : Nat) (p : Nat × Nat) : Int := p.1 * col + p.2

theorem pixelIndex_eq (col h w : Nat) : pixelIndex col (h, w) = (h * col + w : Nat) := by
  rw [pixelIndex]
  norm_cast

theorem toNat_pixelIndex (col : Nat) (p : Nat × Nat) :
    (pixelIndex col p).toNat = p.1 * col + p.2 := by
  rw [pixelIndex_eq, Int.toNat_natCast]

theorem nodup_pixelIndex (row col : Nat) :
    ((positions row col).map fun p => (pixelIndex col p).toNat).Nodup := by
  refine List.Nodup.map_on (fun p member q member' same => ?_) (nodup_positions row col)
  rw [toNat_pixelIndex, toNat_pixelIndex] at same
  exact Prod.ext_iff.mpr (index_inj (mem_positions.mp member).2 (mem_positions.mp member').2 same)

theorem inside_pixelIndex {a : Bytes} (size : row * col ≤ a.size)
    (small : ((row * col : Nat) : Int) ≤ intLimit) (inRow : h < row) (inCol : w < col) :
    a.Inside (pixelIndex col (h, w)) := by
  have bound := index_lt inRow inCol
  rw [pixelIndex_eq]
  exact ⟨Int.natCast_nonneg _, by omega, by omega⟩

/-! ## Windows -/

/-- The coordinates up to a distance of `n`. -/
def span (n : Nat) (y : Int) : List Int := (List.range (2 * n + 1)).map fun k : Nat => y - n + k

/-- The positions of the square window around a position, row by row. -/
def window (n : Nat) (y x : Int) : List (Int × Int) := span n y ×ˢ span n x

private theorem mem_span {n : Nat} {y i : Int} : i ∈ span n y ↔ y - n ≤ i ∧ i ≤ y + n := by
  rw [span, List.mem_map]
  constructor
  · rintro ⟨k, bound, rfl⟩
    rw [List.mem_range] at bound
    omega
  · rintro ⟨low, high⟩
    exact ⟨(i - (y - n)).toNat, List.mem_range.mpr (by omega), by omega⟩

theorem mem_window {n : Nat} {y x : Int} {p : Int × Int} : p ∈ window n y x ↔
    (y - n ≤ p.1 ∧ p.1 ≤ y + n) ∧ x - n ≤ p.2 ∧ p.2 ≤ x + n := by
  obtain ⟨i, j⟩ := p
  rw [window, List.mem_product, mem_span, mem_span]

theorem length_window (n : Nat) (y x : Int) :
    (window n y x).length = (2 * n + 1) * (2 * n + 1) := by
  rw [window, List.length_product, span, span, List.length_map, List.length_map, List.length_range]

/-- The test of a position against the rows up to `row` and the columns up to `col`. -/
def beyond (row col : Nat) (p : Int × Int) : Bool :=
  p.1 < 0 || p.2 < 0 || row < p.1 || col < p.2

theorem beyond_iff {p : Int × Int} :
    beyond row col p = true ↔ p.1 < 0 ∨ p.2 < 0 ∨ row < p.1 ∨ col < p.2 := by
  simp only [beyond, Bool.or_eq_true, decide_eq_true_eq, or_assoc]

/-! ## Loops over a window -/

section Loops

variable {ι β σ : Type} {list : List ι}

/-- A loop that collects values. -/
theorem mapM_eq_some_map {value : ι → Option β} {g : ι → β} :
    list.mapM value = some (list.map g) ↔ ∀ p ∈ list, value p = some (g p) := by
  induction list with
  | nil => simp
  | cons p list induction =>
      rw [List.mapM_cons, List.forall_mem_cons, ← induction, List.map_cons]
      constructor
      · intro run
        obtain ⟨v, first, run⟩ := Option.bind_eq_some_iff.mp run
        obtain ⟨rest, others, same⟩ := Option.bind_eq_some_iff.mp run
        obtain ⟨rfl, rfl⟩ := List.cons.inj (Option.some.inj same)
        exact ⟨first, others⟩
      · rintro ⟨first, others⟩
        rw [first, others]
        rfl

/-- A loop that is not interrupted is not interrupted at any position. -/
theorem isSome_of_mapM {value : ι → Option β} {values : List β} {p : ι}
    (run : list.mapM value = some values) (member : p ∈ list) : (value p).isSome = true := by
  induction list generalizing values with
  | nil => cases member
  | cons q list induction =>
      rw [List.mapM_cons] at run
      obtain ⟨v, first, run⟩ := Option.bind_eq_some_iff.mp run
      obtain ⟨rest, others, _⟩ := Option.bind_eq_some_iff.mp run
      rcases List.mem_cons.mp member with rfl | later
      · rw [first]
        rfl
      · exact induction others later

theorem isSome_of_foldlM {step : σ → ι → Option σ} {s s' : σ} {p : ι}
    (run : list.foldlM step s = some s') (member : p ∈ list) : ∃ s, (step s p).isSome = true := by
  induction list generalizing s with
  | nil => cases member
  | cons q list induction =>
      rw [List.foldlM_cons] at run
      obtain ⟨middle, first, rest⟩ := Option.bind_eq_some_iff.mp run
      rcases List.mem_cons.mp member with rfl | later
      · exact ⟨s, by rw [first]; rfl⟩
      · exact induction rest later

/-- A loop that adds up values. -/
theorem foldlM_add {step : Int → ι → Option Int} {g : ι → Int}
    (adds : ∀ p ∈ list, ∀ s, step s p = some (s + g p)) (s : Int) :
    list.foldlM step s = some (s + (list.map g).sum) := by
  induction list generalizing s with
  | nil => simp
  | cons p list induction =>
      obtain ⟨first, others⟩ := List.forall_mem_cons.mp adds
      rw [List.foldlM_cons, first, Option.bind_eq_bind, Option.bind_some, induction others,
        List.map_cons, List.sum_cons, Int.add_assoc]

/-- The sum of values of bytes. -/
theorem sum_bounds {values : List Int} (bounds : ∀ v ∈ values, 0 ≤ v ∧ v ≤ 255) :
    0 ≤ values.sum ∧ values.sum ≤ 255 * values.length := by
  induction values with
  | nil => simp
  | cons v values induction =>
      obtain ⟨first, others⟩ := List.forall_mem_cons.mp bounds
      have rest := induction others
      rw [List.sum_cons, List.length_cons]
      push_cast
      omega

end Loops

end Raster
