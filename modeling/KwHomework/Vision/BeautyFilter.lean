import KwHomework.Vision.Raster

/-!
# The beauty filter

The program of `Beauty-Filter.cpp` up to its smoothing pass.  The skin pixels of an image are copied
to `img_rgb_new`, whose other entries are what the memory holds, and every pixel is smoothed over a
window of `2*N+1` rows and columns.  A `none` is an index that overflows, an access outside an array
or a division by zero.
-/

namespace KwHomework

open Raster

/-- `N` in the program. -/
def ColorImage.programN : Nat := 5

/-- A color image: three channels a pixel, row by row. -/
structure ColorImage where
  row : Nat
  col : Nat
  byte : Nat → UInt8

namespace ColorImage

/-- The data of the image. -/
def data (img : ColorImage) : Bytes := ⟨img.row * img.col * 3, img.byte⟩

/-- `h*col*3 + w*3 + c`. -/
def index (img : ColorImage) (h w c : Int) : Int := h * img.col * 3 + w * 3 + c

/-- `color_slicing`. -/
def colorSlicing (img : ColorImage) (cur : Bytes) (y x : Int) : Option UInt8 := do
  let cb ← cur.load (img.index y x 0)
  let cg ← cur.load (img.index y x 1)
  let cr ← cur.load (img.index y x 2)
  let tb : Int := (cb.toNat - 214) * (cb.toNat - 214)
  let tg : Int := (cg.toNat - 222) * (cg.toNat - 222)
  let tr : Int := (cr.toNat - 236) * (cr.toNat - 236)
  return if tb + tg + tr ≤ 90 * 90 then 255 else 0

/-- `cal_matrix_zero`. -/
def calMatrixZero (img : ColorImage) (N : Nat) (cur compare : Bytes) (y x channel type : Int) :
    Option UInt8 := do
  let ret ← (window N y x).foldlM (fun ret p =>
    if beyond img.row img.col p then some (ret + 0)
    else (cur.load (p.1 * img.col * channel + p.2 * channel + type)).map fun v =>
      ret + (v.toNat : Int)) 0
  let cnt ← (window N y x).foldlM (fun cnt p =>
    if beyond img.row img.col p then some cnt
    else (compare.load (p.1 * img.col + p.2)).map fun v => if v = 0 then cnt - 1 else cnt)
    ((2 * N + 1) * (2 * N + 1) : Int)
  if cnt = 0 then none
  else
    let ret := ret.tdiv cnt
    return if ret < 0 then 0 else if 255 < ret then 255 else .ofInt ret

/-- The loop body that fills `rgb_slicing` and `rgb_new`. -/
def slicePixel (img : ColorImage) (s : Bytes × Bytes) (p : Nat × Nat) : Option (Bytes × Bytes) := do
  let slicing ← s.1.store (pixelIndex img.col p) (← img.colorSlicing img.data p.1 p.2)
  if (← slicing.load (pixelIndex img.col p)) = 255 then
    let new ← fill (fun c : Nat => img.index p.1 p.2 c)
      (fun c => img.data.load (img.index p.1 p.2 c)) (List.range 3) s.2
    return (slicing, new)
  else return (slicing, s.2)

/-- The loops that fill `rgb_slicing` and `rgb_new`. -/
def slice (img : ColorImage) (gray junk : Nat → UInt8) : Option (Bytes × Bytes) :=
  (positions img.row img.col).foldlM img.slicePixel
    (⟨img.row * img.col, gray⟩, ⟨img.row * img.col * 3, junk⟩)

/-- The smoothing pass. -/
def smooth (img : ColorImage) (N : Nat) (rgbNew rgbSlicing : Bytes) (smoothing : Nat → UInt8) :
    Option Bytes :=
  fill (fun q : (Nat × Nat) × Nat => img.index q.1.1 q.1.2 q.2)
    (fun q => img.calMatrixZero N rgbNew rgbSlicing q.1.1 q.1.2 3 q.2)
    (positions img.row img.col ×ˢ List.range 3) ⟨img.row * img.col * 3, smoothing⟩

/-! ## What the mask and the copy hold -/

variable {img : ColorImage} {h w c N : Nat} {gray junk smoothing : Nat → UInt8}

/-- The color of a pixel is close to the color of skin. -/
def isSkin (img : ColorImage) (p : Nat × Nat) : Bool :=
  let channel (c : Nat) : Int := (img.byte ((p.1 * img.col + p.2) * 3 + c)).toNat
  (channel 0 - 214) * (channel 0 - 214) + (channel 1 - 222) * (channel 1 - 222) +
    (channel 2 - 236) * (channel 2 - 236) ≤ 90 * 90

/-- A position with a channel. -/
abbrev Sample := (Nat × Nat) × Nat

/-- The index of a sample. -/
def sampleIndex (img : ColorImage) (q : Sample) : Int := img.index q.1.1 q.1.2 q.2

theorem index_eq (img : ColorImage) (h w c : Nat) :
    img.index h w c = ((h * img.col + w) * 3 + c : Nat) := by
  rw [index]
  push_cast
  ring

private theorem toNat_sampleIndex (img : ColorImage) (q : Sample) :
    (img.sampleIndex q).toNat = (q.1.1 * img.col + q.1.2) * 3 + q.2 := by
  rw [sampleIndex, index_eq, Int.toNat_natCast]

/-- The samples of some pixels. -/
def samples (pixels : List (Nat × Nat)) : List Sample := pixels ×ˢ List.range 3

theorem mem_samples {pixels : List (Nat × Nat)} {q : Sample} :
    q ∈ samples pixels ↔ q.1 ∈ pixels ∧ q.2 < 3 := by
  obtain ⟨p, c⟩ := q
  rw [samples, List.mem_product, List.mem_range]

/-- The image is small enough for its indices. -/
def Small (img : ColorImage) : Prop := ((img.row * img.col * 3 : Nat) : Int) ≤ intLimit

theorem inside_index {a : Bytes} (small : img.Small) (size : a.size = img.row * img.col * 3)
    (inRow : h < img.row) (inCol : w < img.col) (channel : c < 3) :
    a.Inside (img.index h w c) := by
  have bound := index_lt (index_lt inRow inCol) channel
  rw [Small] at small
  rw [index_eq]
  exact ⟨Int.natCast_nonneg _, by omega, by omega⟩

private theorem load_index (small : img.Small) (inRow : h < img.row) (inCol : w < img.col)
    (channel : c < 3) :
    img.data.load (img.index h w c) = some (img.byte ((h * img.col + w) * 3 + c)) := by
  rw [Bytes.load_of_inside (inside_index small rfl inRow inCol channel), index_eq,
    Int.toNat_natCast]
  rfl

private theorem colorSlicing_eq (small : img.Small) (inRow : h < img.row) (inCol : w < img.col) :
    img.colorSlicing img.data h w = some (if img.isSkin (h, w) then 255 else 0) := by
  have cb : img.data.load (img.index h w 0) = _ := load_index (c := 0) small inRow inCol (by decide)
  have cg : img.data.load (img.index h w 1) = _ := load_index (c := 1) small inRow inCol (by decide)
  have cr : img.data.load (img.index h w 2) = _ := load_index (c := 2) small inRow inCol (by decide)
  rw [colorSlicing, cb, cg, cr]
  simp only [isSkin, decide_eq_true_eq]
  rfl

/-! ## The loops that fill the mask and the copy -/

/-- The value of the mask. -/
def mask (img : ColorImage) (p : Nat × Nat) : UInt8 := if img.isSkin p then 255 else 0

theorem slicePixel_eq (small : img.Small) (s : Bytes × Bytes) {p : Nat × Nat}
    (inside : p ∈ positions img.row img.col) :
    img.slicePixel s p = (s.1.store (pixelIndex img.col p) (img.mask p)).bind fun slicing =>
      (if img.isSkin p then fill (fun c : Nat => img.sampleIndex (p, c))
        (fun c => img.data.load (img.sampleIndex (p, c))) (List.range 3) s.2
      else some s.2).map fun new => (slicing, new) := by
  obtain ⟨inRow, inCol⟩ := mem_positions.mp inside
  have body : img.slicePixel s p = (s.1.store (pixelIndex img.col p) (img.mask p)).bind
    fun slicing =>
      (slicing.load (pixelIndex img.col p)).bind fun v =>
        if v = 255 then (fill (fun c : Nat => img.sampleIndex (p, c))
          (fun c => img.data.load (img.sampleIndex (p, c))) (List.range 3) s.2).bind fun new =>
            some (slicing, new)
        else some (slicing, s.2) := by
    rw [slicePixel, colorSlicing_eq small inRow inCol, Option.bind_eq_bind, Option.bind_some]
    rfl
  rw [body]
  cases stored : s.1.store (pixelIndex img.col p) (img.mask p) with
  | none => rw [Option.bind_none, Option.bind_none]
  | some slicing =>
      rw [Option.bind_some, Option.bind_some, Bytes.load_store stored, Option.bind_some, mask]
      by_cases skin : img.isSkin p = true
      · rw [if_pos skin, if_pos skin, if_pos rfl, Option.map_eq_bind]
        rfl
      · rw [if_neg skin, if_neg skin, if_neg (by decide), Option.map_some]

/-- The loop that fills the mask. -/
def fillMask (img : ColorImage) (pixels : List (Nat × Nat)) (slicing : Bytes) : Option Bytes :=
  fill (pixelIndex img.col) (fun p => some (img.mask p)) pixels slicing

/-- The loop that copies some pixels. -/
def copyPixels (img : ColorImage) (pixels : List (Nat × Nat)) (new : Bytes) : Option Bytes :=
  fill img.sampleIndex (fun q => img.data.load (img.sampleIndex q)) (samples pixels) new

private theorem copyPixels_cons (p : Nat × Nat) (pixels : List (Nat × Nat)) (new : Bytes) :
    img.copyPixels (p :: pixels) new =
      (fill (fun c : Nat => img.sampleIndex (p, c))
        (fun c => img.data.load (img.sampleIndex (p, c))) (List.range 3) new).bind
        (img.copyPixels pixels) := by
  have rest : img.copyPixels pixels = fill img.sampleIndex
      (fun q => img.data.load (img.sampleIndex q)) (samples pixels) := rfl
  rw [rest, copyPixels, samples, samples, List.product_cons, fill_append, fill_map]
  simp only [Function.comp_def]

theorem slice_of_fill (small : img.Small) {pixels : List (Nat × Nat)} {a b a' b' : Bytes}
    (inside : ∀ p ∈ pixels, p ∈ positions img.row img.col)
    (filled : img.fillMask pixels a = some a')
    (copied : img.copyPixels (pixels.filter img.isSkin) b = some b') :
    pixels.foldlM img.slicePixel (a, b) = some (a', b') := by
  induction pixels generalizing a b with
  | nil =>
      rw [List.filter_nil] at copied
      obtain rfl := Option.some.inj filled
      obtain rfl := Option.some.inj copied
      rfl
  | cons p pixels induction =>
      obtain ⟨here, inside⟩ := List.forall_mem_cons.mp inside
      rw [fillMask, fill_cons, Option.bind_some] at filled
      obtain ⟨slicing, stored, filled⟩ := Option.bind_eq_some_iff.mp filled
      rw [List.foldlM_cons, slicePixel_eq small _ here, stored, Option.bind_some,
        Option.bind_eq_bind]
      by_cases skin : img.isSkin p = true
      · rw [List.filter_cons_of_pos skin, copyPixels_cons] at copied
        obtain ⟨new, written, copied⟩ := Option.bind_eq_some_iff.mp copied
        rw [if_pos skin, written, Option.map_some, Option.bind_some]
        exact induction inside filled copied
      · rw [List.filter_cons_of_neg skin] at copied
        rw [if_neg skin, Option.map_some, Option.bind_some]
        exact induction inside filled copied

theorem nodup_samples {pixels : List (Nat × Nat)}
    (inside : ∀ p ∈ pixels, p ∈ positions img.row img.col) (distinct : pixels.Nodup) :
    ((samples pixels).map fun q => (img.sampleIndex q).toNat).Nodup := by
  refine List.Nodup.map_on (fun q member q' member' same => ?_)
    (distinct.product List.nodup_range)
  obtain ⟨here, channel⟩ := mem_samples.mp member
  obtain ⟨here', channel'⟩ := mem_samples.mp member'
  rw [toNat_sampleIndex, toNat_sampleIndex] at same
  obtain ⟨pixel, sameChannel⟩ := index_inj channel channel' same
  obtain ⟨row, col⟩ := index_inj (mem_positions.mp (inside _ here)).2
    (mem_positions.mp (inside _ here')).2 pixel
  exact Prod.ext (Prod.ext row col) sameChannel

/-- What the loops over the pixels leave in the mask and in the copy. -/
structure Sliced (img : ColorImage) (slicing new : Bytes) : Prop where
  maskSize : slicing.size = img.row * img.col
  newSize : new.size = img.row * img.col * 3
  mask : ∀ h < img.row, ∀ w < img.col, slicing.byte (h * img.col + w) = img.mask (h, w)
  copied : ∀ h < img.row, ∀ w < img.col, img.isSkin (h, w) = true → ∀ c < 3,
    new.byte ((h * img.col + w) * 3 + c) = img.byte ((h * img.col + w) * 3 + c)

/-- The loops over the pixels come to their end. -/
theorem slice_spec (small : img.Small) (gray junk : Nat → UInt8) :
    ∃ slicing new, img.slice gray junk = some (slicing, new) ∧ img.Sliced slicing new := by
  have fits : ((img.row * img.col : Nat) : Int) ≤ intLimit := by
    rw [Small] at small
    omega
  have skin_inside : ∀ p ∈ (positions img.row img.col).filter img.isSkin,
      p ∈ positions img.row img.col := fun p member => (List.mem_filter.mp member).1
  obtain ⟨slicing, filled⟩ : ∃ slicing, img.fillMask (positions img.row img.col)
      ⟨img.row * img.col, gray⟩ = some slicing := by
    refine exists_fill (fun p member => ?_) fun p _ => rfl
    obtain ⟨inRow, inCol⟩ := mem_positions.mp member
    exact inside_pixelIndex (le_refl _) fits inRow inCol
  obtain ⟨new, copied⟩ : ∃ new, img.copyPixels ((positions img.row img.col).filter img.isSkin)
      ⟨img.row * img.col * 3, junk⟩ = some new := by
    refine exists_fill (fun q member => ?_) fun q member => ?_
    all_goals
      obtain ⟨here, channel⟩ := mem_samples.mp member
      obtain ⟨inRow, inCol⟩ := mem_positions.mp (skin_inside _ here)
    · exact inside_index small rfl inRow inCol channel
    · rw [sampleIndex, load_index small inRow inCol channel]
      rfl
  have masks := filled_of_fill (nodup_pixelIndex _ _) filled
  have copies := filled_of_fill
    (nodup_samples skin_inside ((nodup_positions _ _).filter _)) copied
  refine ⟨slicing, new, slice_of_fill small (fun _ => id) filled copied, masks.size, copies.size,
    fun h inRow w inCol => ?_, fun h inRow w inCol skin c channel => ?_⟩
  · have value := masks.value (h, w) (mem_positions.mpr ⟨inRow, inCol⟩)
    rw [toNat_pixelIndex] at value
    exact (Option.some.inj value).symm
  · have member : ((h, w), c) ∈ samples ((positions img.row img.col).filter img.isSkin) :=
      mem_samples.mpr ⟨List.mem_filter.mpr ⟨mem_positions.mpr ⟨inRow, inCol⟩, skin⟩, channel⟩
    have value := copies.value ((h, w), c) member
    rw [toNat_sampleIndex, sampleIndex, load_index small inRow inCol channel] at value
    exact (Option.some.inj value).symm

end ColorImage
end KwHomework
