import KwHomework.Vision.BeautyFilter
import Mathlib.Tactic.Positivity

/-!
# The smoothing pass

The sum over a window and the number it is divided by come from two loops.  Both read the row `row`
behind the image; the number counts the positions outside the image, and the sum the entries that
were not copied.  So the pass is right only where the whole window is inside the image and shows
nothing but skin.
-/

namespace KwHomework.ColorImage

open Raster

variable {img : ColorImage} {N y x c : Nat} {p : Int × Int} {slicing new : Bytes}

/-- The position is inside the image. -/
def Within (img : ColorImage) (p : Int × Int) : Prop :=
  0 ≤ p.1 ∧ p.1 < img.row ∧ 0 ≤ p.2 ∧ p.2 < img.col

instance (img : ColorImage) (p : Int × Int) : Decidable (img.Within p) :=
  inferInstanceAs (Decidable (_ ∧ _))

/-- The skin pixels of the image in a window. -/
def skinAround (img : ColorImage) (N y x : Nat) : List (Int × Int) :=
  (window N y x).filter fun p => img.Within p ∧ img.isSkin (p.1.toNat, p.2.toNat)

/-- A channel of a pixel. -/
def value (img : ColorImage) (c : Nat) (p : Int × Int) : Int :=
  (img.byte ((p.1.toNat * img.col + p.2.toNat) * 3 + c)).toNat

/-- The average of a channel over the skin pixels in a window. -/
def average (img : ColorImage) (N y x c : Nat) : Int :=
  ((img.skinAround N y x).map (img.value c)).sum / (img.skinAround N y x).length

/-- Whatever the memory holds, the smoothing pass comes to its end, and for every channel of a skin
pixel it computes the average over the skin pixels in the window. -/
def SmoothsSkin (img : ColorImage) (N : Nat) : Prop :=
  ∀ gray junk smoothing : Nat → UInt8, ∃ slicing new out,
    img.slice gray junk = some (slicing, new) ∧ img.smooth N new slicing smoothing = some out ∧
      ∀ y < img.row, ∀ x < img.col, img.isSkin (y, x) = true →
        ∀ c : Nat, c < 3 → ∃ v, img.calMatrixZero N new slicing y x 3 c = some v ∧
          (v.toNat : Int) = img.average N y x c

/-! ## Windows inside the image -/

private theorem Within.not_beyond (within : img.Within p) : ¬ beyond img.row img.col p = true := by
  obtain ⟨top, bottom, left, right⟩ := within
  rw [beyond_iff]
  omega

private theorem Within.exists_nat (within : img.Within p) :
    ∃ h w : Nat, p = (↑h, ↑w) ∧ h < img.row ∧ w < img.col := by
  obtain ⟨i, j⟩ := p
  obtain ⟨top, bottom, left, right⟩ := within
  dsimp only at top bottom left right
  obtain ⟨h, rfl⟩ := Int.eq_ofNat_of_zero_le top
  obtain ⟨w, rfl⟩ := Int.eq_ofNat_of_zero_le left
  exact ⟨h, w, rfl, by omega, by omega⟩

theorem load_mask (small : img.Small) (sliced : img.Sliced slicing new) (within : img.Within p) :
    slicing.load (p.1 * img.col + p.2) = some (img.mask (p.1.toNat, p.2.toNat)) := by
  obtain ⟨h, w, rfl, inRow, inCol⟩ := within.exists_nat
  have fits : ((img.row * img.col : Nat) : Int) ≤ intLimit := by
    rw [Small] at small
    omega
  have inside : slicing.Inside (pixelIndex img.col (h, w)) :=
    inside_pixelIndex sliced.maskSize.ge fits inRow inCol
  have loaded := Bytes.load_of_inside inside
  rw [toNat_pixelIndex, sliced.mask h inRow w inCol] at loaded
  exact loaded

theorem load_copy (small : img.Small) (sliced : img.Sliced slicing new) (within : img.Within p)
    (skin : img.isSkin (p.1.toNat, p.2.toNat) = true) (channel : c < 3) :
    ∃ v, new.load (p.1 * img.col * 3 + p.2 * 3 + c) = some v ∧ (v.toNat : Int) = img.value c p := by
  obtain ⟨h, w, rfl, inRow, inCol⟩ := within.exists_nat
  have inside : new.Inside (img.index h w c) :=
    inside_index small sliced.newSize inRow inCol channel
  have loaded := Bytes.load_of_inside inside
  rw [index_eq, Int.toNat_natCast, sliced.copied h inRow w inCol skin c channel,
    ← index_eq] at loaded
  exact ⟨_, loaded, rfl⟩

/-- The body of the loop that adds up a channel of the copy. -/
def addChannel (img : ColorImage) (new : Bytes) (c : Nat) (ret : Int) (p : Int × Int) :
    Option Int :=
  if beyond img.row img.col p then some (ret + 0)
  else (new.load (p.1 * img.col * 3 + p.2 * 3 + c)).map fun v => ret + (v.toNat : Int)

/-- The body of the loop that counts down for every position inside the image without skin. -/
def countDown (img : ColorImage) (slicing : Bytes) (cnt : Int) (p : Int × Int) : Option Int :=
  if beyond img.row img.col p then some cnt
  else (slicing.load (p.1 * img.col + p.2)).map fun v => if v = 0 then cnt - 1 else cnt

private theorem calMatrixZero_eq (img : ColorImage) (N : Nat) (new slicing : Bytes) (y x c : Nat) :
    img.calMatrixZero N new slicing y x 3 c =
      ((window N y x).foldlM (img.addChannel new c) 0).bind fun ret =>
        ((window N y x).foldlM (img.countDown slicing) ((2 * N + 1) * (2 * N + 1) : Int)).bind
          fun cnt => if cnt = 0 then none
            else some (if ret.tdiv cnt < 0 then 0 else if 255 < ret.tdiv cnt then 255
              else .ofInt (ret.tdiv cnt)) := rfl

theorem sum_loop (small : img.Small) (sliced : img.Sliced slicing new) (channel : c < 3)
    (skins : ∀ p ∈ window N y x, img.Within p ∧ img.isSkin (p.1.toNat, p.2.toNat) = true) :
    (window N y x).foldlM (img.addChannel new c) 0 =
      some ((window N y x).map (img.value c)).sum := by
  have adds : ∀ p ∈ window N y x, ∀ ret : Int,
      img.addChannel new c ret p = some (ret + img.value c p) := by
    intro p member ret
    obtain ⟨within, skin⟩ := skins p member
    obtain ⟨v, loaded, value⟩ := load_copy small sliced within skin channel
    rw [addChannel, if_neg within.not_beyond, loaded, Option.map_some, value]
  rw [foldlM_add adds, Int.zero_add]

/-- Inside the image the positions without skin are counted. -/
theorem count_loop (small : img.Small) (sliced : img.Sliced slicing new)
    (within : ∀ p ∈ window N y x, img.Within p) (cnt : Int) :
    (window N y x).foldlM (img.countDown slicing) cnt =
      some (cnt + ((window N y x).map fun p =>
        if img.isSkin (p.1.toNat, p.2.toNat) then (0 : Int) else -1).sum) := by
  refine foldlM_add (fun p member cnt => ?_) cnt
  have inside := within p member
  rw [countDown, if_neg inside.not_beyond, load_mask small sliced inside, Option.map_some, mask]
  by_cases skin : img.isSkin (p.1.toNat, p.2.toNat) = true
  · rw [if_pos skin, if_pos skin, if_neg (by decide), Int.add_zero]
  · rw [if_neg skin, if_neg skin, if_pos rfl]
    rfl

private theorem value_bounds (img : ColorImage) (c : Nat) (p : Int × Int) :
    0 ≤ img.value c p ∧ img.value c p ≤ 255 := by
  have byte := (img.byte ((p.1.toNat * img.col + p.2.toNat) * 3 + c)).toNat_lt
  rw [value]
  omega

/-- Where the window shows nothing but skin, the average is computed. -/
theorem calMatrixZero_inner (small : img.Small) (sliced : img.Sliced slicing new) (channel : c < 3)
    (skins : ∀ p ∈ window N y x, img.Within p ∧ img.isSkin (p.1.toNat, p.2.toNat) = true) :
    ∃ v, img.calMatrixZero N new slicing y x 3 c = some v ∧
      (v.toNat : Int) = img.average N y x c := by
  have none_left : ((window N y x).map fun p =>
      if img.isSkin (p.1.toNat, p.2.toNat) then (0 : Int) else -1).sum = 0 := by
    refine List.sum_eq_zero fun v member => ?_
    obtain ⟨p, here, rfl⟩ := List.mem_map.mp member
    exact if_pos (skins p here).2
  have all : img.skinAround N y x = window N y x :=
    List.filter_eq_self.mpr fun p member => decide_eq_true (skins p member)
  have size : (((window N y x).length : Nat) : Int) = (2 * N + 1) * (2 * N + 1) := by
    rw [length_window]
    push_cast
    ring
  have count := count_loop small sliced (fun p member => (skins p member).1)
    ((2 * N + 1) * (2 * N + 1) : Int)
  rw [none_left, Int.add_zero] at count
  obtain ⟨low, high⟩ := sum_bounds fun v (member : v ∈ (window N y x).map (img.value c)) => by
    obtain ⟨p, _, rfl⟩ := List.mem_map.mp member
    exact img.value_bounds c p
  rw [List.length_map, size] at high
  have positive : (0 : Int) < (2 * N + 1) * (2 * N + 1) := by positivity
  have quotient := Int.ediv_nonneg low positive.le
  have quotient' := Int.ediv_le_of_le_mul positive high
  refine ⟨.ofInt (((window N y x).map (img.value c)).sum / ((2 * N + 1) * (2 * N + 1))), ?_, ?_⟩
  · rw [calMatrixZero_eq, sum_loop small sliced channel skins, Option.bind_some, count,
      Option.bind_some, if_neg positive.ne', Int.tdiv_eq_ediv_of_nonneg low, if_neg (by omega),
      if_neg (by omega)]
  · rw [toNat_ofInt quotient quotient', average, all, size]

theorem calMatrixZero_hole (small : img.Small) (sliced : img.Sliced slicing new)
    (holes : ∀ p ∈ window N y x, img.Within p ∧ img.isSkin (p.1.toNat, p.2.toNat) = false) :
    img.calMatrixZero N new slicing y x 3 c = none := by
  have all_left : ((window N y x).map fun p =>
      if img.isSkin (p.1.toNat, p.2.toNat) then (0 : Int) else -1) =
        List.replicate ((2 * N + 1) * (2 * N + 1)) (-1) := by
    rw [← length_window N y x]
    refine List.map_eq_replicate_iff.mpr fun p member => if_neg ?_
    rw [(holes p member).2]
    exact Bool.false_ne_true
  have count := count_loop small sliced (fun p member => (holes p member).1)
    ((2 * N + 1) * (2 * N + 1) : Int)
  rw [all_left, List.sum_replicate] at count
  have zero : ((2 * N + 1) * (2 * N + 1) : Int) + ((2 * N + 1) * (2 * N + 1)) • (-1) = 0 := by
    rw [nsmul_eq_mul]
    push_cast
    ring
  rw [zero] at count
  rw [calMatrixZero_eq, count]
  cases (window N y x).foldlM (img.addChannel new c) 0 with
  | none => rfl
  | some ret => rfl

/-! ## The whole pass -/

theorem calMatrixZero_below (size : new.size = img.row * img.col * 3) (rows : 0 < img.row)
    (inCol : x < img.col) (reach : 0 < N) :
    img.calMatrixZero N new slicing (img.row - 1 : Nat) x 3 c = none := by
  cases run : img.calMatrixZero N new slicing (img.row - 1 : Nat) x 3 c with
  | none => rfl
  | some v =>
      rw [calMatrixZero_eq] at run
      obtain ⟨ret, loop, _⟩ := Option.bind_eq_some_iff.mp run
      have member : ((img.row : Int), (x : Int)) ∈ window N (img.row - 1 : Nat) x :=
        mem_window.mpr (by dsimp only; omega)
      obtain ⟨s, read⟩ := isSome_of_foldlM loop member
      have near : ¬ beyond img.row img.col (↑img.row, ↑x) = true := by
        rw [beyond_iff]
        dsimp only
        omega
      have index : (img.row : Int) * img.col * 3 + x * 3 + c =
          (img.row * img.col * 3 + x * 3 + c : Nat) := by norm_cast
      have outside : ¬ new.Inside (img.row * img.col * 3 + x * 3 + c : Nat) := fun inside => by
        have bound := inside.2.2
        omega
      rw [addChannel, if_neg near, index, Bytes.load_of_not_inside outside] at read
      cases read

private theorem mem_window_zero : p ∈ window 0 y x ↔ p = (↑y, ↑x) := by
  rw [mem_window, Prod.ext_iff]
  dsimp only
  omega

private theorem mem_allSamples {h w : Nat} (inRow : h < img.row) (inCol : w < img.col)
    (channel : c < 3) :
    ((h, w), c) ∈ samples (positions img.row img.col) :=
  mem_samples.mpr ⟨mem_positions.mpr ⟨inRow, inCol⟩, channel⟩

/-- A pass that comes to its end has only used indices that are `int`s. -/
theorem small_of_smooth {smoothing : Nat → UInt8} {out : Bytes} (rows : 0 < img.row)
    (cols : 0 < img.col) (run : img.smooth N new slicing smoothing = some out) : img.Small := by
  have filled := filled_of_fill (nodup_samples (fun _ => id) (nodup_positions _ _)) run
  have last := last_index rows cols
  have bound := (filled.inside _ (mem_allSamples (Nat.sub_lt rows Nat.one_pos)
    (Nat.sub_lt cols Nat.one_pos) (show 2 < 3 by decide))).2.1
  rw [sampleIndex, index_eq] at bound
  dsimp only at bound
  rw [Small]
  omega

/-- A pass that is right for the pixels of an image has a window of one pixel, and finds skin
everywhere. -/
theorem SmoothsSkin.single (smooths : img.SmoothsSkin N) (rows : 0 < img.row) (cols : 0 < img.col) :
    N = 0 ∧ img.Small ∧ ∀ h < img.row, ∀ w < img.col, img.isSkin (h, w) = true := by
  obtain ⟨slicing, new, out, sliced, run, _⟩ := smooths (fun _ => 0) (fun _ => 0) (fun _ => 0)
  have small := small_of_smooth rows cols run
  obtain ⟨slicing', new', sliced', spec⟩ := img.slice_spec small (fun _ => 0) (fun _ => 0)
  obtain ⟨rfl, rfl⟩ := Prod.mk.inj (Option.some.inj (sliced'.symm.trans sliced))
  have computed {h w : Nat} (inRow : h < img.row) (inCol : w < img.col) :
      (img.calMatrixZero N new' slicing' h w 3 (0 : Nat)).isSome = true :=
    isSome_of_fill (p := ((h, w), 0)) run (mem_allSamples inRow inCol (by decide))
  have single : N = 0 := by
    by_contra wide
    have last := computed (Nat.sub_lt rows Nat.one_pos) cols
    rw [calMatrixZero_below spec.newSize rows cols (Nat.pos_of_ne_zero wide)] at last
    cases last
  subst single
  refine ⟨rfl, small, fun h inRow w inCol => ?_⟩
  by_contra hole
  have here := computed inRow inCol
  rw [calMatrixZero_hole small spec fun p member => ?_] at here
  · cases here
  · obtain rfl := mem_window_zero.mp member
    exact ⟨⟨by omega, by omega, by omega, by omega⟩, by simpa using hole⟩

theorem smoothsSkin_zero (small : img.Small)
    (skins : ∀ h < img.row, ∀ w < img.col, img.isSkin (h, w) = true) : img.SmoothsSkin 0 := by
  intro gray junk smoothing
  obtain ⟨slicing, new, sliced, spec⟩ := img.slice_spec small gray junk
  have average {h w c : Nat} (inRow : h < img.row) (inCol : w < img.col) (channel : c < 3) :
      ∃ v, img.calMatrixZero 0 new slicing h w 3 c = some v ∧
        (v.toNat : Int) = img.average 0 h w c :=
    calMatrixZero_inner small spec channel fun p member => by
      obtain rfl := mem_window_zero.mp member
      exact ⟨⟨by omega, by omega, by omega, by omega⟩, skins h inRow w inCol⟩
  obtain ⟨out, run⟩ : ∃ out, img.smooth 0 new slicing smoothing = some out := by
    refine exists_fill (fun q member => ?_) fun q member => ?_
    all_goals
      obtain ⟨pixel, channel⟩ := mem_samples.mp member
      obtain ⟨inRow, inCol⟩ := mem_positions.mp pixel
    · exact inside_index small rfl inRow inCol channel
    · obtain ⟨v, value, _⟩ := average inRow inCol channel
      rw [value]
      rfl
  exact ⟨slicing, new, out, sliced, run, fun y inRow x inCol _ c channel =>
    average inRow inCol channel⟩

/-- The pass is right exactly if there are no pixels, or if the window is a single pixel and every
pixel is skin. -/
theorem smoothsSkin_iff (img : ColorImage) (N : Nat) :
    img.SmoothsSkin N ↔ (img.row = 0 ∨ img.col = 0) ∨
      N = 0 ∧ img.Small ∧ ∀ h < img.row, ∀ w < img.col, img.isSkin (h, w) = true := by
  by_cases empty : img.row = 0 ∨ img.col = 0
  · refine iff_of_true (fun gray junk smoothing => ?_) (.inl empty)
    have no_pixels := positions_eq_nil empty
    refine ⟨_, _, _, by rw [slice, no_pixels]; rfl, by rw [smooth, no_pixels]; rfl, ?_⟩
    intro y inRow x inCol
    omega
  · rw [or_iff_right empty]
    constructor
    · intro smooths
      exact smooths.single (by omega) (by omega)
    · rintro ⟨rfl, small, skins⟩
      exact smoothsSkin_zero small skins

/-- The program reads behind an image of one skin pixel; and it divides by zero at the center of an
image of 11 black rows and columns. -/
theorem smooths_nothing : ¬ SmoothsSkin ⟨1, 1, fun _ => 220⟩ programN ∧
    isSkin ⟨1, 1, fun _ => 220⟩ (0, 0) = true ∧
    ∃ slicing new, slice ⟨11, 11, fun _ => 0⟩ (fun _ => 0) (fun _ => 0) = some (slicing, new) ∧
      calMatrixZero ⟨11, 11, fun _ => 0⟩ programN new slicing 5 5 3 (0 : Nat) = none := by
  refine ⟨fun smooths => ?_, by decide, ?_⟩
  · exact absurd (smooths.single (by decide) (by decide)).1 (by decide)
  · have small : Small ⟨11, 11, fun _ => 0⟩ := by
      rw [Small]
      decide
    obtain ⟨slicing, new, sliced, spec⟩ := slice_spec small (fun _ => 0) (fun _ => 0)
    refine ⟨slicing, new, sliced, calMatrixZero_hole (y := 5) (x := 5) small spec
      fun p member => ?_⟩
    obtain ⟨row, col⟩ := mem_window.mp member
    rw [programN] at row col
    exact ⟨⟨by omega, by dsimp only; omega, by omega, by dsimp only; omega⟩, rfl⟩

end KwHomework.ColorImage
