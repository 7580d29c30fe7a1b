import KwHomework.Vision.Raster
import Mathlib.Data.List.Sort

/-!
# Noise and filters

The program of `Nosie-Filter.cpp`: the noise that is added to a gray image, and the mean and the
median filter.  A `none` is an index that overflows or an access outside an array.
-/

namespace KwHomework

open Raster

/-- `FILTER_SIZE`. -/
abbrev filterSize : Nat := 1

/-- A gray image, row by row. -/
structure GrayImage where
  row : Nat
  col : Nat
  byte : Nat → UInt8

namespace GrayImage

/-- The data of the image. -/
def data (img : GrayImage) : Bytes := ⟨img.row * img.col, img.byte⟩

/-- The loops over the pixels that assign to an image of the same size. -/
def assign (img : GrayImage) (value : Nat × Nat → Option UInt8) (dst : Nat → UInt8) :
    Option Bytes :=
  fill (pixelIndex img.col) value (positions img.row img.col) ⟨img.row * img.col, dst⟩

/-! ## Noise -/

/-- The noise of a pixel, by row and column. -/
abbrev Noise := Nat → Nat → Int16

/-- The memory of the noise: two bytes an element, row by row, the lower one first. -/
def noiseBytes (img : GrayImage) (noise : Noise) : Bytes where
  size := 2 * (img.row * img.col)
  byte k :=
    let bits := (noise (k / 2 / img.col) (k / 2 % img.col)).toUInt16
    if k % 2 = 0 then bits.toUInt8 else (bits >>> 8).toUInt8

/-- The value of a `char`, which has a sign. -/
def toChar (v : UInt8) : Int := v.toInt8.toInt

/-- The pixel with noise. -/
def gaussianPixel (img : GrayImage) (noise : Noise) (p : Nat × Nat) : Option UInt8 := do
  let tmp ← img.data.load (pixelIndex img.col p)
  let tmp2 ← (img.noiseBytes noise).load (pixelIndex img.col p)
  return if 255 < tmp.toNat + toChar tmp2 then 255
    else if tmp.toNat + toChar tmp2 < 0 then 0
    else .ofInt (tmp.toNat + toChar tmp2)

/-- `applyGaussianNoise`. -/
def applyGaussianNoise (img : GrayImage) (noise : Noise) (src : Nat → UInt8) : Option Bytes :=
  img.assign (img.gaussianPixel noise) src

/-! ## Filters -/

/-- `calculateMean`. -/
def calculateMean (img : GrayImage) (y x channel type : Int) : Option Int := do
  let ret ← (window filterSize y x).foldlM (fun ret p =>
    if beyond img.row img.col p then some ret
    else (img.data.load (p.1 * img.col * channel + p.2 * channel + type)).map fun v =>
      ret + (v.toNat : Int)) 0
  let ret := ret.tdiv ((2 * filterSize + 1) * (2 * filterSize + 1))
  return if 255 < ret then 255 else ret

/-- `meanFilter`. -/
def meanFilter (img : GrayImage) (dst : Nat → UInt8) : Option Bytes :=
  img.assign (fun p => (img.calculateMean p.1 p.2 1 0).map .ofInt) dst

/-- The loops that fill `arr`. -/
def medianValues (img : GrayImage) (y x : Int) : Option (List Int) :=
  (window filterSize y x).mapM fun p =>
    if beyond img.row img.col p then some 0
    else (img.data.load (p.1 * img.col + p.2)).map fun v => (v.toNat : Int)

/-- `calculateMedian`. -/
def calculateMedian (img : GrayImage) (y x : Int) : Option UInt8 := do
  let arr ← img.medianValues y x
  let arr := arr.insertionSort (· ≤ ·)
  let pixel ← img.data.load (y * img.col + x)
  return if arr.getD 0 0 < pixel.toNat ∧ pixel.toNat < arr.getD 8 0 then pixel
    else .ofInt (arr.getD 4 0)

/-- `medianFilter`. -/
def medianFilter (img : GrayImage) (dst : Nat → UInt8) : Option Bytes :=
  img.assign (fun p => img.calculateMedian p.1 p.2) dst

/-! ## What is added -/

variable {img : GrayImage} {noise : Noise} {src : Nat → UInt8} {h w : Nat}

/-- The nearest value of a pixel. -/
def clamp (v : Int) : Int := max 0 (min 255 v)

/-- The byte of the noise that is added to a pixel: the one at the index of the pixel, which is half
of the noise of another pixel. -/
def noiseByte (img : GrayImage) (noise : Noise) (h w : Nat) : Int :=
  toChar ((img.noiseBytes noise).byte (h * img.col + w))

/-- Every pixel of the result is the pixel of the image with its noise. -/
def AddsNoise (img : GrayImage) (noise : Noise) (src : Nat → UInt8) : Prop :=
  ∃ out, img.applyGaussianNoise noise src = some out ∧ ∀ h < img.row, ∀ w < img.col,
    ((out.byte (h * img.col + w)).toNat : Int) =
      clamp ((img.byte (h * img.col + w)).toNat + (noise h w).toInt)

/-- The two values lead to the same pixel. -/
def SamePixel (pixel a b : Int) : Prop :=
  a = b ∨ 255 ≤ pixel + a ∧ 255 ≤ pixel + b ∨ pixel + a ≤ 0 ∧ pixel + b ≤ 0

private theorem clamp_eq_iff {pixel a b : Int} :
    clamp (pixel + a) = clamp (pixel + b) ↔ SamePixel pixel a b := by
  rw [clamp, clamp, SamePixel]
  omega

/-- Loops over the pixels that come to their end have assigned every value, and no index was beyond
the largest `int`. -/
theorem assign_spec {value : Nat × Nat → Option UInt8} {dst : Nat → UInt8} {out : Bytes}
    (run : img.assign value dst = some out) :
    ((img.row * img.col : Nat) : Int) ≤ intLimit ∧ ∀ h < img.row, ∀ w < img.col,
      value (h, w) = some (out.byte (h * img.col + w)) := by
  have filled := filled_of_fill (nodup_pixelIndex _ _) run
  refine ⟨?_, fun h inRow w inCol => ?_⟩
  · by_contra large
    have pixels : 0 < img.row * img.col := by
      rw [intLimit] at large
      omega
    have rows := Nat.pos_of_mul_pos_right pixels
    have cols := Nat.pos_of_mul_pos_left pixels
    have last := last_index rows cols
    have inside := filled.inside (img.row - 1, img.col - 1) (mem_positions.mpr ⟨by omega, by omega⟩)
    have bound := inside.2.1
    rw [pixelIndex_eq] at bound
    omega
  · rw [filled.value (h, w) (mem_positions.mpr ⟨inRow, inCol⟩), toNat_pixelIndex]

/-- Loops over the pixels of an image with few enough of them come to their end if every value is
computed. -/
theorem exists_assign {value : Nat × Nat → Option UInt8} {dst : Nat → UInt8}
    (small : ((img.row * img.col : Nat) : Int) ≤ intLimit)
    (computed : ∀ h < img.row, ∀ w < img.col, (value (h, w)).isSome = true) :
    ∃ out, img.assign value dst = some out := by
  refine exists_fill (fun p member => ?_) fun p member => ?_
  · obtain ⟨inRow, inCol⟩ := mem_positions.mp member
    exact inside_pixelIndex (le_refl _) small inRow inCol
  · obtain ⟨inRow, inCol⟩ := mem_positions.mp member
    exact computed _ inRow _ inCol

theorem gaussianPixel_spec (small : ((img.row * img.col : Nat) : Int) ≤ intLimit)
    (inRow : h < img.row) (inCol : w < img.col) :
    ∃ v, img.gaussianPixel noise (h, w) = some v ∧ (v.toNat : Int) =
      clamp ((img.byte (h * img.col + w)).toNat + img.noiseByte noise h w) := by
  have pixel : img.data.load (pixelIndex img.col (h, w)) = some (img.byte (h * img.col + w)) := by
    rw [Bytes.load_of_inside (inside_pixelIndex (le_refl _) small inRow inCol), toNat_pixelIndex]
    rfl
  have byte : (img.noiseBytes noise).load (pixelIndex img.col (h, w)) =
      some ((img.noiseBytes noise).byte (h * img.col + w)) := by
    have enough : img.row * img.col ≤ (img.noiseBytes noise).size :=
      Nat.le_mul_of_pos_left _ (by decide)
    rw [Bytes.load_of_inside (inside_pixelIndex enough small inRow inCol), toNat_pixelIndex]
  set tmp : Int := ((img.byte (h * img.col + w)).toNat : Int)
  set tmp2 := img.noiseByte noise h w
  have value : img.gaussianPixel noise (h, w) = some
      (if 255 < tmp + tmp2 then 255 else if tmp + tmp2 < 0 then 0 else .ofInt (tmp + tmp2)) := by
    rw [gaussianPixel, pixel, byte]
    rfl
  refine ⟨_, value, ?_⟩
  rw [clamp]
  split_ifs with above below
  · rw [show ((255 : UInt8).toNat : Int) = 255 from rfl]
    omega
  · rw [show ((0 : UInt8).toNat : Int) = 0 from rfl]
    omega
  · rw [toNat_ofInt (by omega) (by omega)]
    omega

/-- The noise is added exactly if every pixel gets, from the byte at its own index, its own noise,
or both values lie beyond the same end. -/
theorem addsNoise_iff (img : GrayImage) (noise : Noise) (src : Nat → UInt8) :
    img.AddsNoise noise src ↔ ((img.row * img.col : Nat) : Int) ≤ intLimit ∧
      ∀ h < img.row, ∀ w < img.col,
        SamePixel (img.byte (h * img.col + w)).toNat (img.noiseByte noise h w)
          (noise h w).toInt := by
  constructor
  · rintro ⟨out, run, right⟩
    obtain ⟨small, assigned⟩ := assign_spec run
    refine ⟨small, fun h inRow w inCol => ?_⟩
    obtain ⟨v, computed, value⟩ := gaussianPixel_spec small inRow inCol
    obtain rfl := Option.some.inj (computed.symm.trans (assigned h inRow w inCol))
    rw [← clamp_eq_iff, ← value]
    exact right h inRow w inCol
  · rintro ⟨small, same⟩
    obtain ⟨out, run⟩ : ∃ out, img.applyGaussianNoise noise src = some out :=
      exists_assign small fun h inRow w inCol => by
        obtain ⟨v, computed, _⟩ := gaussianPixel_spec small inRow inCol
        rw [computed]
        rfl
    refine ⟨out, run, fun h inRow w inCol => ?_⟩
    obtain ⟨v, computed, value⟩ := gaussianPixel_spec small inRow inCol
    obtain rfl := Option.some.inj (computed.symm.trans ((assign_spec run).2 h inRow w inCol))
    rw [value]
    exact clamp_eq_iff.mpr (same h inRow w inCol)

/-- With noise 1 on two pixels of value 100, the second one gets the upper byte of the first
noise. -/
theorem noise_halved : ¬ AddsNoise ⟨1, 2, fun _ => 100⟩ (fun _ _ => 1) (fun _ => 0) ∧
    ∃ out, applyGaussianNoise ⟨1, 2, fun _ => 100⟩ (fun _ _ => 1) (fun _ => 0) = some out ∧
      out.byte 0 = 101 ∧ out.byte 1 = 100 := by
  refine ⟨?_, _, rfl, rfl, rfl⟩
  rintro ⟨out, run, right⟩
  obtain rfl := Option.some.inj run
  exact absurd (right 0 (by decide) 1 (by decide)) (by decide)

end GrayImage
end KwHomework
