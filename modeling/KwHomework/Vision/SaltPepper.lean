import KwHomework.Simulation.Loops
import KwHomework.Vision.Filters

/-!
# Salt-and-pepper noise

`applySaltPepperNoise` copies the image and makes some pixels black or white.  The median filter
takes the noise out again wherever at most four of the nine pixels around are touched: its result
lies between two pixels of the image that are not.
-/

namespace KwHomework.GrayImage

open Function Loops Raster Ranks

variable {img : GrayImage} {rand : Nat → Nat} {out : Bytes} {touched : List (Nat × Nat)} {y x : Nat}

/-- The pixel of one iteration; `rand` is called three times. -/
def saltPosition (img : GrayImage) (rand : Nat → Nat) (i : Nat) : Nat × Nat :=
  (rand (3 * i) % img.row, rand (3 * i + 1) % img.col)

/-- The pixels of all iterations. -/
def saltPositions (img : GrayImage) (rand : Nat → Nat) (noisePixelCount : Nat) : List (Nat × Nat) :=
  (List.range noisePixelCount).map (img.saltPosition rand)

/-- `rand() % 2 == 1 ? 255 : 0`. -/
def saltValue (rand : Nat → Nat) (i : Nat) : UInt8 := if rand (3 * i + 2) % 2 = 1 then 255 else 0

/-- One iteration of the second loop; there is no remainder by 0. -/
def saltStep (img : GrayImage) (rand : Nat → Nat) (out : Bytes) (i : Nat) : Option Bytes :=
  if img.row = 0 ∨ img.col = 0 then none
  else out.store (pixelIndex img.col (img.saltPosition rand i)) (saltValue rand i)

/-- `applySaltPepperNoise`, for some `noise_pixel_count`. -/
def applySaltPepperNoise (img : GrayImage) (rand : Nat → Nat) (noisePixelCount : Nat)
    (src : Nat → UInt8) : Option Bytes := do
  let out ← img.assign (fun p => img.data.load (pixelIndex img.col p)) src
  (List.range noisePixelCount).foldlM (img.saltStep rand) out

/-- The data is a copy of the image but for these pixels, which are black or white. -/
structure Salted (img : GrayImage) (touched : List (Nat × Nat)) (out : Bytes) : Prop where
  size : out.size = img.row * img.col
  kept : ∀ h < img.row, ∀ w < img.col, (h, w) ∉ touched →
    out.byte (h * img.col + w) = img.byte (h * img.col + w)
  salt : ∀ h < img.row, ∀ w < img.col, (h, w) ∈ touched →
    out.byte (h * img.col + w) = 0 ∨ out.byte (h * img.col + w) = 255

theorem Salted.touch (salted : img.Salted touched out) {h w : Nat} (inCol : w < img.col) {v : UInt8}
    (extreme : v = 0 ∨ v = 255) :
    img.Salted (touched ++ [(h, w)]) { out with byte := update out.byte (h * img.col + w) v } where
  size := salted.size
  kept h' inRow' w' inCol' others := by
    obtain ⟨old, new⟩ := not_or.mp (fun member => others (List.mem_append.mpr member))
    have apart : h' * img.col + w' ≠ h * img.col + w := by
      intro same
      obtain ⟨rfl, rfl⟩ := index_inj inCol' inCol same
      exact new List.mem_cons_self
    dsimp only
    rw [update_of_ne apart]
    exact salted.kept h' inRow' w' inCol' old
  salt h' inRow' w' inCol' member := by
    dsimp only
    by_cases here : h' * img.col + w' = h * img.col + w
    · rw [here, update_self]
      exact extreme
    · rw [update_of_ne here]
      refine salted.salt h' inRow' w' inCol'
        ((List.mem_append.mp member).resolve_right fun new => ?_)
      obtain ⟨rfl, rfl⟩ := Prod.mk.inj (List.mem_singleton.mp new)
      exact here rfl

theorem Salted.exists_saltStep (salted : img.Salted touched out)
    (small : ((img.row * img.col : Nat) : Int) ≤ intLimit) (rows : 0 < img.row) (cols : 0 < img.col)
    (i : Nat) : ∃ out', img.saltStep rand out i = some out' ∧
      img.Salted (touched ++ [img.saltPosition rand i]) out' := by
  have inRow : rand (3 * i) % img.row < img.row := Nat.mod_lt _ rows
  have inCol : rand (3 * i + 1) % img.col < img.col := Nat.mod_lt _ cols
  have extreme : saltValue rand i = 0 ∨ saltValue rand i = 255 := by
    rw [saltValue]
    split_ifs
    · exact .inr rfl
    · exact .inl rfl
  refine ⟨_, ?_, salted.touch inCol extreme⟩
  rw [saltStep, if_neg (by omega), Bytes.store, saltPosition, toNat_pixelIndex]
  exact if_pos (inside_pixelIndex salted.size.ge small inRow inCol)

theorem exists_salted (small : ((img.row * img.col : Nat) : Int) ≤ intLimit) (rows : 0 < img.row)
    (cols : 0 < img.col) (rand : Nat → Nat) (noisePixelCount : Nat) (src : Nat → UInt8) :
    ∃ out, img.applySaltPepperNoise rand noisePixelCount src = some out ∧
      img.Salted (img.saltPositions rand noisePixelCount) out := by
  have load : ∀ h < img.row, ∀ w < img.col,
      img.data.load (pixelIndex img.col (h, w)) = some (img.byte (h * img.col + w)) := by
    intro h inRow w inCol
    rw [Bytes.load_of_inside (inside_pixelIndex (le_refl _) small inRow inCol), toNat_pixelIndex]
    rfl
  obtain ⟨copy, copied⟩ : ∃ copy,
      img.assign (fun p => img.data.load (pixelIndex img.col p)) src = some copy := by
    refine exists_assign small fun h inRow w inCol => ?_
    rw [load h inRow w inCol]
    rfl
  have start : img.Salted [] copy := by
    refine ⟨(filled_of_fill (nodup_pixelIndex _ _) copied).size, fun h inRow w inCol _ => ?_,
      fun h inRow w inCol member => (List.not_mem_nil member).elim⟩
    have assigned := (assign_spec copied).2 h inRow w inCol
    rw [load h inRow w inCol] at assigned
    exact (Option.some.inj assigned).symm
  obtain ⟨out, looped, salted⟩ :
    ∃ out, (List.range noisePixelCount).foldlM (img.saltStep rand) copy =
      some out ∧ img.Salted (img.saltPositions rand noisePixelCount) out := by
    refine exists_foldlM (fun front out => img.Salted (front.map (img.saltPosition rand)) out) start
      fun {front i back out} _ salted => ?_
    rw [List.map_append, List.map_singleton]
    exact salted.exists_saltStep small rows cols i
  refine ⟨out, ?_, salted⟩
  rw [applySaltPepperNoise, copied]
  exact looped

/-! ## The median filter behind the noise -/

/-- The image with the data that the noise leaves. -/
def withData (img : GrayImage) (out : Bytes) : GrayImage := { img with byte := out.byte }

/-- A position of the window is one of these pixels. -/
def isTouched (touched : List (Nat × Nat)) (p : Int × Int) : Bool :=
  (p.1.toNat, p.2.toNat) ∈ touched

/-- The value lies between two untouched ones of the nine around a pixel. -/
def BetweenUntouched (img : GrayImage) (touched : List (Nat × Nat)) (y x : Nat) (v : UInt8) :
    Prop :=
  (∃ p ∈ window filterSize y x, isTouched touched p = false ∧ img.padded p ≤ v.toNat) ∧
    ∃ p ∈ window filterSize y x, isTouched touched p = false ∧ v.toNat ≤ img.padded p

/-- The pixel and the eight around it are inside the image. -/
structure Inner (img : GrayImage) (y x : Nat) : Prop where
  top : 0 < y
  bottom : y + 1 < img.row
  left : 0 < x
  right : x + 1 < img.col

theorem Inner.exists_nat (inner : img.Inner y x) {p : Int × Int}
    (member : p ∈ window filterSize y x) :
    ∃ h < img.row, ∃ w < img.col, p = (↑h, ↑w) := by
  obtain ⟨top, bottom, left, right⟩ := inner
  obtain ⟨⟨low, high⟩, low', high'⟩ := mem_around.mp member
  refine ⟨p.1.toNat, by omega, p.2.toNat, by omega, ?_⟩
  exact Prod.ext (by simp; omega) (by simp; omega)

private theorem Inner.sheltered (inner : img.Inner y x)
    (small : ((img.row * img.col : Nat) : Int) ≤ intLimit) : img.Sheltered y x := by
  have bound := index_lt inner.bottom inner.right
  exact ⟨bound, by omega, .inl inner.right⟩

theorem Salted.padded_eq (salted : img.Salted touched out) (inner : img.Inner y x) {p : Int × Int}
    (member : p ∈ window filterSize y x) :
    (isTouched touched p = false → (img.withData out).padded p = img.padded p) ∧
      (isTouched touched p = true →
        (img.withData out).padded p = 0 ∨ (img.withData out).padded p = 255) := by
  obtain ⟨h, inRow, w, inCol, rfl⟩ := inner.exists_nat member
  have before : img.padded (↑h, ↑w) = (img.byte (h * img.col + w)).toNat := by
    rw [GrayImage.padded_eq, if_pos ⟨inRow, inCol⟩]
  have behind : (img.withData out).padded (↑h, ↑w) = (out.byte (h * img.col + w)).toNat := by
    rw [GrayImage.padded_eq]
    exact if_pos ⟨inRow, inCol⟩
  have here : isTouched touched (↑h, ↑w) = true ↔ (h, w) ∈ touched := by
    rw [isTouched, decide_eq_true_iff]
    rfl
  constructor
  · intro clean
    have missing : (h, w) ∉ touched := fun member => by simp [here.mpr member] at clean
    rw [before, behind, salted.kept h inRow w inCol missing]
  · intro noisy
    rw [behind]
    rcases salted.salt h inRow w inCol (here.mp noisy) with black | white
    · exact .inl (by rw [black]; rfl)
    · exact .inr (by rw [white]; rfl)

/-- Around an inner pixel with at most four touched ones, the filter leaves a value between two
untouched ones. -/
theorem Salted.exists_median (salted : img.Salted touched out) (inner : img.Inner y x)
    (small : ((img.row * img.col : Nat) : Int) ≤ intLimit)
    (few : (window filterSize y x).countP (isTouched touched) ≤ 4) :
    ∃ v, (img.withData out).calculateMedian y x = some v ∧ img.BetweenUntouched touched y x v := by
  have inRow : y < img.row := Nat.lt_of_succ_lt inner.bottom
  have inCol : x < img.col := Nat.lt_of_succ_lt inner.right
  have inner' : (img.withData out).Inner y x := ⟨inner.top, inner.bottom, inner.left, inner.right⟩
  have right : (img.withData out).PixelRight y x :=
    (pixelRight_iff (Nat.lt_of_succ_lt inner'.bottom) (Nat.lt_of_succ_lt inner'.right)).mpr
      (inner'.sheltered small)
  obtain ⟨v, computed, between, ranked⟩ := right.median
  have centre : ((y : Int), (x : Int)) ∈ window filterSize y x := mem_around.mpr (by omega)
  have pixel : (img.withData out).padded (y, x) = (out.byte (y * img.col + x)).toNat := by
    rw [GrayImage.padded_eq]
    exact if_pos ⟨inRow, inCol⟩
  refine ⟨v, computed, ?_⟩
  set values := (img.withData out).neighbours y x
  set noisy : Int := (((img.withData out).byte (y * (img.withData out).col + x)).toNat : Int)
  by_cases strict : (∃ a ∈ values, a < noisy) ∧ ∃ b ∈ values, noisy < b
  · -- a black or white pixel is not strictly between others
    have kept : isTouched touched (y, x) = false := by
      obtain ⟨⟨a, low, above⟩, b, high, below⟩ := strict
      have least := (mem_neighbours low).1
      have most := (mem_neighbours high).2
      refine Bool.eq_false_iff.mpr fun touched => ?_
      have extreme := (salted.padded_eq inner centre).2 touched
      rw [pixel] at extreme
      change noisy = 0 ∨ noisy = 255 at extreme
      omega
    have same := (salted.padded_eq inner centre).1 kept
    rw [pixel] at same
    have result : (v.toNat : Int) = img.padded (y, x) := (between strict).trans same
    exact ⟨⟨_, centre, kept, result.ge⟩, _, centre, kept, result.le⟩
  · obtain ⟨⟨p, member, clean, below⟩, q, member', clean', above⟩ :=
      (ranked strict).exists_between (length_window _ _ _) few
    rw [(salted.padded_eq inner member).1 clean] at below
    rw [(salted.padded_eq inner member').1 clean'] at above
    exact ⟨⟨p, member, clean, below⟩, q, member', clean', above⟩

/-- Salt-and-pepper noise always comes to its end: the pixels of its iterations are black or white,
and the others are a copy of the image.  At every inner pixel with at most four touched ones around,
the median filter returns a value between two untouched pixels of the image. -/
theorem median_of_saltPepper (img : GrayImage) (rand : Nat → Nat) (noisePixelCount : Nat)
    (src : Nat → UInt8) (rows : 0 < img.row) (cols : 0 < img.col)
    (small : ((img.row * img.col : Nat) : Int) ≤ intLimit) :
    ∃ out, img.applySaltPepperNoise rand noisePixelCount src = some out ∧
      img.Salted (img.saltPositions rand noisePixelCount) out ∧
      ∀ y x, img.Inner y x →
        (window filterSize y x).countP (isTouched (img.saltPositions rand noisePixelCount)) ≤ 4 →
        ∃ v, (img.withData out).calculateMedian y x = some v ∧
          img.BetweenUntouched (img.saltPositions rand noisePixelCount) y x v := by
  obtain ⟨out, run, salted⟩ := exists_salted small rows cols rand noisePixelCount src
  exact ⟨out, run, salted, fun y x inner few => salted.exists_median inner small few⟩

/-- One white pixel in the middle of nine is taken out. -/
theorem median_of_saltPepper_middle : ∃ out,
    applySaltPepperNoise ⟨3, 3, fun _ => 9⟩ (fun _ => 1) 1 (fun _ => 0) = some out ∧
      out.byte 4 = 255 ∧ (withData ⟨3, 3, fun _ => 9⟩ out).calculateMedian 1 1 = some 9 := by
  obtain ⟨out, run, _, filtered⟩ := median_of_saltPepper ⟨3, 3, fun _ => 9⟩ (fun _ => 1) 1
    (fun _ => 0) (by decide) (by decide) (by decide)
  obtain ⟨v, computed, ⟨p, member, _, low⟩, q, member', _, high⟩ :=
    filtered 1 1 ⟨by decide, by decide, by decide, by decide⟩ (by decide)
  have nine : ∀ p ∈ window filterSize 1 1, padded ⟨3, 3, fun _ => 9⟩ p = 9 := by decide
  rw [nine p member] at low
  rw [nine q member'] at high
  have value : v = 9 := UInt8.toNat_inj.mp (by change v.toNat = 9; omega)
  have white : (applySaltPepperNoise ⟨3, 3, fun _ => 9⟩ (fun _ => 1) 1 (fun _ => 0)).map
      (·.byte 4) = some 255 := by decide
  rw [run] at white
  exact ⟨out, run, Option.some.inj white, value ▸ computed⟩

end KwHomework.GrayImage
