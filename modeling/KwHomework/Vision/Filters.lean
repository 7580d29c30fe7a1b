import KwHomework.Vision.NoiseFilter
import KwHomework.Vision.Ranks

/-!
# The windows of the filters

The mean and the median filter skip a position of the window beyond the row `row` and the column
`col`, not from them on.  The column `col` of a row is the first column of the next one, and the row
`row` lies behind the image.
-/

namespace KwHomework.GrayImage

open Raster Ranks

variable {img : GrayImage} {y x : Nat} {p : Int × Int}

/-- The value of a pixel, and 0 outside the image. -/
def padded (img : GrayImage) (p : Int × Int) : Int :=
  if 0 ≤ p.1 ∧ p.1 < img.row ∧ 0 ≤ p.2 ∧ p.2 < img.col then
    (img.byte (p.1 * img.col + p.2).toNat).toNat
  else 0

/-- The nine values around a pixel. -/
def neighbours (img : GrayImage) (y x : Nat) : List Int :=
  (window filterSize y x).map img.padded

/-- The pixel if it lies strictly between the smallest and the largest value, and the fifth smallest
value otherwise. -/
def MedianOf (values : List Int) (pixel result : Int) : Prop :=
  ((∃ a ∈ values, a < pixel) ∧ (∃ b ∈ values, pixel < b) → result = pixel) ∧
    (¬ ((∃ a ∈ values, a < pixel) ∧ ∃ b ∈ values, pixel < b) → Ranked values 4 result)

/-- Both filters work on the nine values around a pixel, and nothing else is read. -/
structure PixelRight (img : GrayImage) (y x : Nat) : Prop where
  mean : img.calculateMean y x 1 0 = some ((img.neighbours y x).sum / 9)
  values : img.medianValues y x = some (img.neighbours y x)
  median : ∃ v, img.calculateMedian y x = some v ∧
    MedianOf (img.neighbours y x) (img.byte (y * img.col + x)).toNat v.toNat

/-- The last position of the window is inside the array, and the next column is inside the image or
the first pixels of the next rows are 0. -/
def Sheltered (img : GrayImage) (y x : Nat) : Prop :=
  (y + 1) * img.col + (x + 1) < img.row * img.col ∧
    (((y + 1) * img.col + (x + 1) : Nat) : Int) < intLimit ∧
    (x + 1 < img.col ∨ ∀ k, y ≤ k → k ≤ y + 2 → 0 < k → img.byte (k * img.col) = 0)

/-! ## What is read -/

/-- What the filters read at a position of the window. -/
def readAt (img : GrayImage) (p : Int × Int) : Option Int :=
  if beyond img.row img.col p then some 0
  else (img.data.load (p.1 * img.col + p.2)).map fun v => (v.toNat : Int)

theorem mem_around : p ∈ window filterSize y x ↔
    ((y : Int) - 1 ≤ p.1 ∧ p.1 ≤ y + 1) ∧ (x : Int) - 1 ≤ p.2 ∧ p.2 ≤ x + 1 := mem_window

private theorem padded_bounds (img : GrayImage) (p : Int × Int) : 0 ≤ img.padded p ∧
    img.padded p ≤ 255 := by
  rw [padded]
  split_ifs
  · have bound := (img.byte (p.1 * img.col + p.2).toNat).toNat_lt
    omega
  · omega

private theorem readAt_eq_some {h w : Nat} {v : Int} (inRow : h ≤ img.row) (inCol : w ≤ img.col) :
    img.readAt (h, w) = some v ↔ (h * img.col + w < img.row * img.col ∧
      ((h * img.col + w : Nat) : Int) < intLimit) ∧
      ((img.byte (h * img.col + w)).toNat : Int) = v := by
  have near : ¬ beyond img.row img.col (h, w) = true := by
    rw [beyond_iff]
    dsimp only
    omega
  have index : (h : Int) * img.col + w = (h * img.col + w : Nat) := by norm_cast
  have inside : img.data.Inside (h * img.col + w : Nat) ↔ h * img.col + w < img.row * img.col ∧
      ((h * img.col + w : Nat) : Int) < intLimit := by
    have size : img.data.size = img.row * img.col := rfl
    rw [Bytes.Inside, size]
    omega
  rw [readAt, if_neg near]
  dsimp only
  rw [index, Option.map_eq_some_iff, ← inside]
  constructor
  · rintro ⟨byte, loaded, rfl⟩
    obtain ⟨inside, rfl⟩ := Bytes.load_eq_some.mp loaded
    exact ⟨inside, rfl⟩
  · rintro ⟨inside, rfl⟩
    exact ⟨_, Bytes.load_of_inside inside, rfl⟩

theorem padded_eq {h w : Nat} : img.padded (h, w) =
    if h < img.row ∧ w < img.col then ((img.byte (h * img.col + w)).toNat : Int) else 0 := by
  have index : ((h : Int) * img.col + w).toNat = h * img.col + w := by
    rw [show (h : Int) * img.col + w = (h * img.col + w : Nat) by norm_cast, Int.toNat_natCast]
  rw [padded]
  dsimp only
  rw [index]
  refine if_congr ?_ rfl rfl
  omega

/-- If the filters read the values around a pixel, it is sheltered: the position behind the right
edge of a row is the first one of the next row. -/
theorem sheltered_of_readAt (inRow : y < img.row) (inCol : x < img.col)
    (reads : ∀ p ∈ window filterSize y x, img.readAt p = some (img.padded p)) :
    img.Sheltered y x := by
  have at_ {h w : Nat} (row : y ≤ h + 1 ∧ h ≤ y + 1) (col : x ≤ w + 1 ∧ w ≤ x + 1) :=
    (readAt_eq_some (by omega) (by omega)).mp (reads (h, w) (mem_around.mpr (by dsimp only; omega)))
  have last := (at_ (h := y + 1) (w := x + 1) (by omega) (by omega)).1
  refine ⟨last.1, last.2, ?_⟩
  by_cases room : x + 1 < img.col
  · exact .inl room
  · refine .inr fun k low high positive => ?_
    have edge : x + 1 = img.col := by omega
    obtain ⟨h, rfl⟩ := Nat.exists_eq_add_one.mpr positive
    have aliased := (at_ (h := h) (w := x + 1) (by omega) (by omega)).2
    rw [padded_eq, if_neg (by omega), edge, ← Nat.succ_mul] at aliased
    exact UInt8.toNat_inj.mp (Int.ofNat_inj.mp aliased)

private theorem Sheltered.below (sheltered : img.Sheltered y x) : y + 1 < img.row := by
  by_contra bottom
  have behind : img.row * img.col ≤ (y + 1) * img.col := Nat.mul_le_mul_right _ (by omega)
  have inside := sheltered.1
  omega

theorem Sheltered.readAt (sheltered : img.Sheltered y x) (inCol : x < img.col)
    (member : p ∈ window filterSize y x) : img.readAt p = some (img.padded p) := by
  have below := sheltered.below
  obtain ⟨inside, small, edge⟩ := sheltered
  obtain ⟨i, j⟩ := p
  obtain ⟨row, col⟩ := mem_around.mp member
  dsimp only at row col
  by_cases far : beyond img.row img.col (i, j) = true
  · have outside : img.padded (i, j) = 0 := by
      rw [beyond_iff] at far
      dsimp only at far
      exact if_neg (by dsimp only; omega)
    rw [GrayImage.readAt, if_pos far, outside]
  · rw [beyond_iff] at far
    dsimp only at far
    obtain ⟨h, rfl⟩ := Int.eq_ofNat_of_zero_le (show 0 ≤ i by omega)
    obtain ⟨w, rfl⟩ := Int.eq_ofNat_of_zero_le (show 0 ≤ j by omega)
    have order : h * img.col ≤ (y + 1) * img.col := Nat.mul_le_mul_right _ (by omega)
    refine (readAt_eq_some (by omega) (by omega)).mpr ⟨⟨by omega, by omega⟩, ?_⟩
    rw [padded_eq]
    by_cases room : w < img.col
    · rw [if_pos ⟨by omega, room⟩]
    · -- the position is the first one of the next row
      have zero := edge.resolve_left (by omega) (h + 1) (by omega) (by omega) (by omega)
      have aliased : h * img.col + w = (h + 1) * img.col := by
        rw [Nat.succ_mul]
        omega
      rw [if_neg (by omega), aliased, zero]
      rfl

/-! ## What is computed -/

private theorem length_neighbours : (img.neighbours y x).length = 9 := by
  rw [neighbours, List.length_map]
  exact length_window _ _ _

theorem mem_neighbours {v : Int} (member : v ∈ img.neighbours y x) : 0 ≤ v ∧ v ≤ 255 := by
  obtain ⟨p, _, rfl⟩ := List.mem_map.mp member
  exact img.padded_bounds p

theorem calculateMean_eq (reads : ∀ p ∈ window filterSize y x, img.readAt p = some (img.padded p)) :
    img.calculateMean y x 1 0 = some ((img.neighbours y x).sum / 9) := by
  have adds : ∀ p ∈ window filterSize y x, ∀ ret : Int,
      (if beyond img.row img.col p then some ret
        else (img.data.load (p.1 * img.col * 1 + p.2 * 1 + 0)).map fun v =>
          ret + (v.toNat : Int)) = some (ret + img.padded p) := by
    intro p member ret
    have read := reads p member
    rw [readAt] at read
    rw [Int.mul_one, Int.mul_one, Int.add_zero]
    split_ifs at read ⊢ with far
    · rw [← Option.some.inj read, Int.add_zero]
    · obtain ⟨byte, loaded, value⟩ := Option.map_eq_some_iff.mp read
      rw [loaded, ← value]
      rfl
  obtain ⟨low, high⟩ := sum_bounds fun v (member : v ∈ img.neighbours y x) => mem_neighbours member
  rw [length_neighbours] at high
  have divided : (img.neighbours y x).sum.tdiv ((2 * filterSize + 1) * (2 * filterSize + 1)) =
      (img.neighbours y x).sum / 9 := Int.tdiv_eq_ediv_of_nonneg low
  rw [calculateMean, foldlM_add adds, Int.zero_add]
  dsimp only [Option.bind_eq_bind, Option.bind_some]
  rw [← neighbours, divided, if_neg (by omega)]
  rfl

theorem calculateMedian_spec (values : img.medianValues y x = some (img.neighbours y x))
    (inside : img.data.Inside (y * img.col + x : Nat)) :
    ∃ v, img.calculateMedian y x = some v ∧
      MedianOf (img.neighbours y x) (img.byte (y * img.col + x)).toNat v.toNat := by
  have index : (y : Int) * img.col + x = (y * img.col + x : Nat) := by norm_cast
  have pixel : img.data.load ((y : Int) * img.col + x) = some (img.byte (y * img.col + x)) := by
    rw [index]
    exact Bytes.load_of_inside inside
  have nine : (img.neighbours y x).length = 9 := length_neighbours
  set arr := (img.neighbours y x).insertionSort (· ≤ ·) with sorting
  have least : Ranked (img.neighbours y x) 0 (arr.getD 0 0) := ranked_insertionSort (by omega) 0
  have middle : Ranked (img.neighbours y x) 4 (arr.getD 4 0) := ranked_insertionSort (by omega) 0
  have most : Ranked (img.neighbours y x) 8 (arr.getD 8 0) := ranked_insertionSort (by omega) 0
  set v := img.byte (y * img.col + x)
  have between : (arr.getD 0 0 < v.toNat ∧ v.toNat < arr.getD 8 0) ↔
      (∃ a ∈ img.neighbours y x, a < v.toNat) ∧ ∃ b ∈ img.neighbours y x, v.toNat < b :=
    and_congr least.lt_iff_of_first (most.lt_iff_of_last (by omega))
  have result : img.calculateMedian y x = some
      (if arr.getD 0 0 < v.toNat ∧ v.toNat < arr.getD 8 0 then v else .ofInt (arr.getD 4 0)) := by
    rw [calculateMedian, values, pixel]
    rfl
  refine ⟨_, result, ?_, ?_⟩
  · intro strict
    rw [if_pos (between.mpr strict)]
  · intro extreme
    obtain ⟨low, high⟩ := mem_neighbours middle.mem
    rw [if_neg (fun strict => extreme (between.mp strict)), toNat_ofInt low high]
    exact middle

/-- Both filters are right at a pixel exactly if it is sheltered. -/
theorem pixelRight_iff (inRow : y < img.row) (inCol : x < img.col) :
    img.PixelRight y x ↔ img.Sheltered y x := by
  constructor
  · intro right
    exact sheltered_of_readAt inRow inCol (mapM_eq_some_map.mp right.values)
  · intro sheltered
    have reads : ∀ p ∈ window filterSize y x, img.readAt p = some (img.padded p) :=
      fun p => sheltered.readAt inCol
    have values : img.medianValues y x = some (img.neighbours y x) := mapM_eq_some_map.mpr reads
    have order : y * img.col ≤ (y + 1) * img.col := Nat.mul_le_mul_right _ (Nat.le_succ y)
    obtain ⟨bound, small, _⟩ := sheltered
    have inside : img.data.Inside (y * img.col + x : Nat) :=
      ⟨Int.natCast_nonneg _, by omega, by
        have size : img.data.size = img.row * img.col := rfl
        omega⟩
    exact ⟨calculateMean_eq reads, values, calculateMedian_spec values inside⟩

/-- Behind the last row there is nothing to read. -/
theorem readAt_below (inCol : x < img.col) : img.readAt (img.row, (x + 1 : Nat)) = none := by
  cases read : img.readAt (img.row, (x + 1 : Nat)) with
  | none => rfl
  | some v =>
      have bound := ((readAt_eq_some (le_refl _) inCol).mp read).1.1
      omega

private theorem below_mem_window (rows : 0 < img.row) :
    ((img.row : Int), ((x + 1 : Nat) : Int)) ∈ window filterSize (img.row - 1 : Nat) x :=
  mem_around.mpr (by dsimp only; omega)

theorem calculateMean_below (rows : 0 < img.row) (inCol : x < img.col) :
    img.calculateMean (img.row - 1 : Nat) x 1 0 = none := by
  cases run : img.calculateMean (img.row - 1 : Nat) x 1 0 with
  | none => rfl
  | some v =>
      obtain ⟨ret, loop, _⟩ := Option.bind_eq_some_iff.mp run
      obtain ⟨s, read⟩ := isSome_of_foldlM loop (below_mem_window rows)
      have none_ := readAt_below inCol
      rw [readAt] at none_
      rw [Int.mul_one, Int.mul_one, Int.add_zero] at read
      split_ifs at none_ read with far
      rw [Option.map_eq_none_iff] at none_
      rw [none_] at read
      cases read

theorem calculateMedian_below (rows : 0 < img.row) (inCol : x < img.col) :
    img.calculateMedian (img.row - 1 : Nat) x = none := by
  cases run : img.calculateMedian (img.row - 1 : Nat) x with
  | none => rfl
  | some v =>
      obtain ⟨arr, loop, _⟩ := Option.bind_eq_some_iff.mp run
      have read : (img.readAt (img.row, (x + 1 : Nat))).isSome = true :=
        isSome_of_mapM loop (below_mem_window rows)
      rw [readAt_below inCol] at read
      cases read

private theorem assign_none {value : Nat × Nat → Option UInt8} {dst : Nat → UInt8} {h w : Nat}
    (inRow : h < img.row) (inCol : w < img.col) (missing : value (h, w) = none) :
    img.assign value dst = none := by
  cases run : img.assign value dst with
  | none => rfl
  | some out =>
      have assigned := (assign_spec run).2 h inRow w inCol
      rw [missing] at assigned
      cases assigned

/-- Both filters read behind every image, and are right at a pixel exactly if it is sheltered. -/
theorem filters_iff (img : GrayImage) (dst : Nat → UInt8) (rows : 0 < img.row)
    (cols : 0 < img.col) :
    (img.meanFilter dst = none ∧ img.medianFilter dst = none) ∧
      ∀ y < img.row, ∀ x < img.col, (img.PixelRight y x ↔ img.Sheltered y x) := by
  refine ⟨⟨?_, ?_⟩, fun y inRow x inCol => pixelRight_iff inRow inCol⟩
  · refine assign_none (Nat.sub_lt rows Nat.one_pos) cols ?_
    rw [calculateMean_below rows cols]
    rfl
  · exact assign_none (Nat.sub_lt rows Nat.one_pos) cols (calculateMedian_below rows cols)

/-- In an image of 4 rows and 4 columns the filters are right at an inner pixel. -/
theorem filters_iff_inner : PixelRight ⟨4, 4, fun _ => 9⟩ 1 1 :=
  ((filters_iff ⟨4, 4, fun _ => 9⟩ (fun _ => 0) (by decide) (by decide)).2 1 (by decide) 1
    (by decide)).mpr ⟨by decide, by decide, .inl (by decide)⟩

/-- In one column of 3 pixels the mean at the first pixel is 4 for 2, and both filters read behind
the image. -/
theorem filters_alias : (⟨3, 1, fun _ => 9⟩ : GrayImage).calculateMean 0 0 1 0 = some 4 ∧
    (⟨3, 1, fun _ => 9⟩ : GrayImage).neighbours 0 0 = [0, 0, 0, 0, 9, 0, 0, 9, 0] ∧
    ¬ PixelRight ⟨3, 1, fun _ => 9⟩ 0 0 ∧
    (⟨3, 1, fun _ => 9⟩ : GrayImage).meanFilter (fun _ => 0) = none ∧
    (⟨3, 1, fun _ => 9⟩ : GrayImage).medianFilter (fun _ => 0) = none :=
  ⟨by decide, by decide, fun right => absurd right.mean (by decide), rfl, rfl⟩

end KwHomework.GrayImage
