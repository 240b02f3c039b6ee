import Cmicot.Grid.Guaranteed
import Cmicot.Grid.Label

/-!
Re-encoded columns (`grid_creator/binarization.cpp`, `binarize.cpp`).

Quantiles and the thresholds of the dynamic programme are ranks of the sorted column, so an increasing
re-encoding of its values moves the borders along with them. The uniform grid of the default binarizer
moves along with affine re-encodings only.

* `sameBins_map`: when a monotone image of a column groups its rows alike.
* `sameBins_recoded`: which re-encodings the binarizers do not see.
-/

namespace Cmicot

open Loop
open Gaps

/-! ### Rows of a monotone image -/

section Image

variable {feature : List ℚ} {builder builder' : TBorderBuilder} {f : ℚ → ℚ} {hit hit' : ℚ → ℚ → Prop} {i j : ℕ}

/-- Two rows have the same bins iff no border lies between their values. -/
theorem sameBins_iff_separates (hi : i < feature.length) (hj : j < feature.length) :
    SameBins (binarizeFeature feature builder) i j ↔
      ¬ Separates (builder feature) (feature.getD i 0) (feature.getD j 0) ∧
        ¬ Separates (builder feature) (feature.getD j 0) (feature.getD i 0) := by
  rw [sameBins_binarizeFeature hi hj]
  constructor
  · intro same
    refine ⟨?_, ?_⟩ <;> rintro ⟨b, mem, above, below⟩
    · exact absurd ((same b mem).mpr below) (not_lt.mpr above)
    · exact absurd ((same b mem).mp below) (not_lt.mpr above)
  · rintro ⟨none, none'⟩ b mem
    constructor
    · exact fun below => not_le.mp fun above => none' ⟨b, mem, above, below⟩
    · exact fun below => not_le.mp fun above => none ⟨b, mem, above, below⟩

/-- **A monotone image of a column groups its rows alike** if its borders lie in the images of the gaps
that had one. -/
theorem sameBins_map (mono : Monotone f) (middles : Middles (builder feature) feature hit)
    (middles' : Middles (builder' (feature.map f)) (feature.map f) hit')
    (kept : ∀ a c, Adjacent feature a c → (hit a c ↔ f a < f c ∧ hit' (f a) (f c))) (hi : i < feature.length)
    (hj : j < feature.length) :
    SameBins (binarizeFeature (feature.map f) builder') i j ↔ SameBins (binarizeFeature feature builder) i j := by
  have value (k : ℕ) (hk : k < feature.length) : (feature.map f).getD k 0 = f (feature.getD k 0) := by
    simp [List.getD_eq_getElem?_getD, hk]
  have mem (k : ℕ) (hk : k < feature.length) : feature.getD k 0 ∈ feature := by
    rw [List.getD_eq_getElem _ _ hk]
    exact List.getElem_mem _
  rw [sameBins_iff_separates (by simpa using hi) (by simpa using hj), sameBins_iff_separates hi hj, value i hi,
    value j hj, middles.separates_map mono middles' kept (mem i hi) (mem j hj),
    middles.separates_map mono middles' kept (mem j hj) (mem i hi)]

/-- Gaps that a quantile hits, if the image keeps exactly these open. -/
theorem quantileHit_levels {values : List ℚ} {count : ℕ} (mono : Monotone f)
    (levels : ∀ a c, Adjacent values a c → (f a < f c ↔ QuantileHit values count a c)) {a c : ℚ}
    (adjacent : Adjacent values a c) :
    QuantileHit values count a c ↔ f a < f c ∧ QuantileHit (values.map f) count (f a) (f c) := by
  rw [← levels a c adjacent, iff_self_and]
  intro lt
  exact (quantileHit_map mono (fun a c gap hit => (levels a c gap).mpr hit) adjacent lt).mpr
    ((levels a c adjacent).mp lt)

end Image

/-! ### Definitions -/

/-- The borders of a binarizer in some order. The queue of `medianInBin` takes one of several equal
bins as it likes, so that it is left out here; the others have no queue. -/
def EBinarizer.Builds (penalty : Grid.EPenaltyType → ℚ → ℝ) (x : ℕ) (builder : TBorderBuilder)
    (binarizer : EBinarizer) : Prop :=
  binarizer ≠ .medianInBin ∧ ∀ values some, ∃ top borders,
    binarizer.bestSplit penalty values some top x = .ok borders ∧ Iterates (builder values) borders

/-- The re-encodings that a binarizer does not see: scaling and shifting, or whatever keeps the order. -/
def EBinarizer.Unseen (f : ℚ → ℚ) : EBinarizer → Prop
  | medianPlusUniform => ∃ scale shift : ℚ, 0 < scale ∧ ∀ y, f y = scale * y + shift
  | _ => StrictMono f

/-! ### Thresholds -/

section Thresholds

variable {features values : List ℚ} {f : ℚ → ℚ} {ts : List ℕ} {a c : ℚ} {x : ℕ}

theorem thresholdHit_map (mono : StrictMono f) :
    ThresholdHit (features.map f) ts (f a) (f c) ↔ ThresholdHit features ts a c := by
  simp only [ThresholdHit, List.getElem?_map, Option.map_eq_some_iff, mono.injective.eq_iff, exists_eq_right]

/-- The different values of the image, with the same weights. -/
theorem foldl_addValue_map (mono : StrictMono f) (sorted : List ℚ) :
    (sorted.map f).foldl addValue ([], []) =
      ((sorted.foldl addValue ([], [])).1.map f, (sorted.foldl addValue ([], [])).2) := by
  induction sorted using List.reverseRecOn with
  | nil => rfl
  | append_singleton sorted v ih =>
    rw [List.map_append, List.foldl_append, ih, List.foldl_append]
    generalize sorted.foldl addValue ([], []) = st
    obtain ⟨features, weights⟩ := st
    have fresh : (features.map f = [] ∨ (features.map f).getLastD 0 ≠ f v) ↔
        (features = [] ∨ features.getLastD 0 ≠ v) := by
      rw [List.map_eq_nil_iff]
      by_cases none : features = []
      · simp [none]
      · rw [getLastD_map none, mono.injective.ne_iff]
    simp only [List.map_cons, List.map_nil, List.foldl_cons, List.foldl_nil, addValue, fresh]
    split <;> simp

/-- **The dynamic programme cuts the image at the same thresholds.** -/
theorem splitWithGuaranteedOptimum_map {R : Type} [Zero R] [Add R] [Sub R] [LinearOrder R] (penalty : ℚ → R) (eps : R)
    (mono : StrictMono f) (some : values ≠ []) (x : ℕ) :
    ∃ features ts borders borders', splitWithGuaranteedOptimum penalty eps values x = .ok borders ∧
      splitWithGuaranteedOptimum penalty eps (values.map f) x = .ok borders' ∧
      (∀ b, b ∈ borders ↔ ∃ a c, Adjacent values a c ∧ b = (a + c) / 2 ∧ ThresholdHit features ts a c) ∧
      ∀ b, b ∈ borders' ↔
        ∃ a c, Adjacent (values.map f) a c ∧ b = (a + c) / 2 ∧ ThresholdHit (features.map f) ts a c := by
  have runs := runs_foldl (pairwise_sortValues values)
  have image := foldl_addValue_map mono (sortValues values)
  rw [← sortValues_map mono.monotone] at image
  unfold splitWithGuaranteedOptimum
  rw [image]
  generalize (sortValues values).foldl addValue ([], []) = st at runs
  obtain ⟨features, weights⟩ := st
  have size : features.length = weights.length := runs.size
  have same : ∀ v, v ∈ features ↔ v ∈ values := fun v => (runs.mem_iff v).trans mem_sortValues
  have sameImage : ∀ v, v ∈ features.map f ↔ v ∈ values.map f := fun v => by simp only [List.mem_map, same]
  have nonempty : weights ≠ [] := by
    obtain ⟨v, mem⟩ := List.exists_mem_of_ne_nil values some
    exact List.ne_nil_of_length_pos (size ▸ List.length_pos_of_mem ((same v).mpr mem))
  obtain ⟨ts, ran, -, inside⟩ := Grid.bestSplit_rlm2_inside penalty eps nonempty x
  obtain ⟨borders, collected, middles⟩ := middles_thresholds runs.increasing same fun t mem => size ▸ inside t mem
  obtain ⟨borders', collected', middles'⟩ := middles_thresholds
    (List.pairwise_map.mpr (runs.increasing.imp fun lt => mono lt)) sameImage
    (fun t mem => by rw [List.length_map]; exact size ▸ inside t mem)
  refine ⟨features, ts, borders, borders', ?_, ?_, middles, middles'⟩
  · simp only [bestSplitBorders, ran, ok_bind]
    exact collected
  · simp only [bestSplitBorders, ran, ok_bind]
    exact collected'

end Thresholds

/-! ### Re-encoded columns -/

section Recoded

variable {feature : List ℚ} {builder : TBorderBuilder} {f : ℚ → ℚ} {x i j : ℕ} {a c : ℚ}

/-- The grid moves along with a scaled and shifted column. -/
theorem gridHit_affine {scale shift : ℚ} (affine : ∀ y, f y = scale * y + shift)
    (mono : StrictMono f) (some : feature ≠ []) (count : ℕ) :
    GridHit (feature.map f) count (f a) (f c) ↔ GridHit feature count a c := by
  have nonempty : sortValues feature ≠ [] := by
    rw [← List.length_pos_iff, length_sortValues]
    exact List.length_pos_of_ne_nil some
  have point (low high : ℚ) (i : ℕ) : gridPoint (f low) (f high) count i = f (gridPoint low high count i) := by
    simp only [gridPoint, affine]
    ring
  simp only [GridHit, sortValues_map mono.monotone, headD_map nonempty, getLastD_map nonempty, point, mono.lt_iff_lt,
    mono.le_iff_le]

/-- Rows of a re-encoded column, if the borders lie in the images of the gaps that had one. -/
theorem sameBins_of_hits {hit hit' : ℚ → ℚ → Prop} (mono : StrictMono f)
    (middles : Middles (builder feature) feature hit)
    (middles' : Middles (builder (feature.map f)) (feature.map f) hit')
    (hits : ∀ a c, Adjacent feature a c → (hit' (f a) (f c) ↔ hit a c)) (hi : i < feature.length)
    (hj : j < feature.length) :
    SameBins (binarizeFeature (feature.map f) builder) i j ↔ SameBins (binarizeFeature feature builder) i j :=
  sameBins_map mono.monotone middles middles'
    (fun a c adjacent => by rw [hits a c adjacent, and_iff_right (mono adjacent.lt)]) hi hj

/-- The same for the dynamic programme. -/
theorem sameBins_guaranteed {penalty : ℚ → ℝ} {eps : ℝ} {borders borders' : Finset ℚ} (mono : StrictMono f)
    (built : splitWithGuaranteedOptimum penalty eps feature x = .ok borders)
    (iterates : Iterates (builder feature) borders)
    (built' : splitWithGuaranteedOptimum penalty eps (feature.map f) x = .ok borders')
    (iterates' : Iterates (builder (feature.map f)) borders') (hi : i < feature.length) (hj : j < feature.length) :
    SameBins (binarizeFeature (feature.map f) builder) i j ↔ SameBins (binarizeFeature feature builder) i j := by
  have some : feature ≠ [] := List.ne_nil_of_length_pos (Nat.zero_lt_of_lt hi)
  obtain ⟨features, ts, _, _, ran, ran', middles, middles'⟩ :=
    splitWithGuaranteedOptimum_map penalty eps mono some x
  cases built.symm.trans ran
  cases built'.symm.trans ran'
  exact sameBins_of_hits mono (fun b => (iterates.mem_iff b).trans (middles b))
    (fun b => (iterates'.mem_iff b).trans (middles' b)) (fun a c _ => thresholdHit_map mono) hi hj

/-- A binarizer that needs no queue builds what it returns. -/
theorem EBinarizer.Builds.iterates {binarizer : EBinarizer} {penalty : Grid.EPenaltyType → ℚ → ℝ} {borders : Finset ℚ}
    (builds : binarizer.Builds penalty x builder) (some : values ≠ [])
    (returned : ∀ top, binarizer.bestSplit penalty values some top x = .ok borders) :
    Iterates (builder values) borders := by
  obtain ⟨top, _, ran, iterates⟩ := builds.2 values some
  cases (returned top).symm.trans ran
  exact iterates

/-- **Re-encodings that a binarizer does not see** leave the grouping of the rows as it is. -/
theorem sameBins_recoded {binarizer : EBinarizer} {penalty : Grid.EPenaltyType → ℚ → ℝ}
    (builds : binarizer.Builds penalty x builder) (unseen : binarizer.Unseen f) (hi : i < feature.length)
    (hj : j < feature.length) :
    SameBins (binarizeFeature (feature.map f) builder) i j ↔ SameBins (binarizeFeature feature builder) i j := by
  have some : feature ≠ [] := List.ne_nil_of_length_pos (by omega)
  have some' : feature.map f ≠ [] := by simpa using some
  have quantiles (mono : StrictMono f) (count : ℕ) {a c : ℚ} (adjacent : Adjacent feature a c) :
      QuantileHit (feature.map f) count (f a) (f c) ↔ QuantileHit feature count a c :=
    quantileHit_map mono.monotone (fun _ _ gap _ => mono gap.lt) adjacent (mono adjacent.lt)
  cases binarizer with
  | medianPlusUniform =>
    obtain ⟨scale, shift, pos, affine⟩ := unseen
    have mono : StrictMono f := fun y z lt => by
      rw [affine, affine]
      exact add_lt_add_of_lt_of_le (mul_lt_mul_of_pos_left lt pos) le_rfl
    exact sameBins_of_hits mono (middles_medianPlusUniform (builds.iterates some fun _ => rfl))
      (middles_medianPlusUniform (builds.iterates some' fun _ => rfl))
      (fun a c adjacent => or_congr (quantiles mono _ adjacent) (gridHit_affine affine mono some _)) hi hj
  | median =>
    exact sameBins_of_hits unseen (middles_median (builds.iterates some fun _ => rfl))
      (middles_median (builds.iterates some' fun _ => rfl)) (fun a c adjacent => quantiles unseen _ adjacent) hi hj
  | minEntropy | maxSumLog =>
    obtain ⟨_, _, built, iterates⟩ := builds.2 feature some
    obtain ⟨_, _, built', iterates'⟩ := builds.2 _ some'
    exact sameBins_guaranteed unseen built iterates built' iterates' hi hj
  | medianInBin => exact absurd rfl builds.1

end Recoded

end Cmicot
