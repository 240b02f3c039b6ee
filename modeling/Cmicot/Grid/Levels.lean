import Cmicot.Grid.Label

/-!
Levels of a united column (`binarize.cpp`, the `median` binarizer).

The number that `UniteLabelBins` gives a row says which borders lie below its value. Whatever
bit a border gets, the numbers are ordered like the values, up to the borders between them. The
quantiles of the numbers are therefore the numbers of the quantiles, and the `median` binarizer,
run on the numbers, puts a border between all of them and no other.

* `unite_keepsOrder`: how the numbers of two rows compare.
* `median_again`: binarizing the numbers again.
-/

namespace Cmicot

open Gaps

/-! ### The order of the numbers -/

section Order

variable {feature : List ℚ} {builder : TBorderBuilder} {borders : Finset ℚ}

/-- The number of a row is the mask of its value. -/
theorem unite_rows (few : (builder feature).length ≤ 31) :
    ∃ values, uniteLabelBins (binarizeFeature feature builder) = .ok values ∧ values.length = feature.length ∧
      ∀ i < feature.length, (values.getD i 0).toNat = mask (builder feature) (feature.getD i 0) := by
  obtain ⟨values, united, column⟩ := uniteLabelBins_binarizeFeature few
  have rows : values.length = feature.length := by
    simpa using congrArg List.length column
  refine ⟨values, united, rows, fun i inside => ?_⟩
  have row := congrArg (fun numbers : List ℚ => numbers[i]?) column
  simp only [List.getElem?_map, List.getElem?_eq_getElem inside, List.getElem?_eq_getElem (rows ▸ inside),
    Option.map_some, Option.some.injEq, Nat.cast_inj] at row
  rw [List.getD_eq_getElem _ _ (rows ▸ inside), List.getD_eq_getElem _ _ inside, row]

/-- **The numbers keep the order** of the column, for every order of the borders: they differ where
a border lies between the values, and nowhere else. -/
theorem unite_keepsOrder (few : borders.card ≤ 31) (iterates : Iterates (builder feature) borders) :
    ∃ values, uniteLabelBins (binarizeFeature feature builder) = .ok values ∧ values.length = feature.length ∧
      ∀ i < feature.length, ∀ j < feature.length,
        (feature.getD i 0 ≤ feature.getD j 0 → values.getD i 0 ≤ values.getD j 0) ∧
        (values.getD i 0 < values.getD j 0 ↔ ∃ b ∈ borders, feature.getD i 0 ≤ b ∧ b < feature.getD j 0) ∧
        (values.getD i 0 = values.getD j 0 ↔ ¬ ∃ b ∈ borders,
          feature.getD i 0 ≤ b ∧ b < feature.getD j 0 ∨ feature.getD j 0 ≤ b ∧ b < feature.getD i 0) := by
  obtain ⟨values, united, rows, number⟩ := unite_rows (iterates.length_eq.trans_le few)
  have between (y z : ℚ) : Separates (builder feature) y z ↔ ∃ b ∈ borders, y ≤ b ∧ b < z :=
    exists_congr fun b => and_congr_left' (iterates.mem_iff b)
  have below (i j : ℕ) (hi : i < feature.length) (hj : j < feature.length) :
      values.getD i 0 < values.getD j 0 ↔ ∃ b ∈ borders, feature.getD i 0 ≤ b ∧ b < feature.getD j 0 := by
    rw [UInt64.lt_iff_toNat_lt, number i hi, number j hj, ← between]
    rcases le_total (feature.getD i 0) (feature.getD j 0) with le | ge
    · exact mask_lt_iff le
    · have none : ¬ Separates (builder feature) (feature.getD i 0) (feature.getD j 0) := by
        rintro ⟨b, -, above, under⟩
        exact absurd (above.trans_lt under) (not_lt.mpr ge)
      exact iff_of_false (not_lt.mpr (mask_mono _ ge)) none
  refine ⟨values, united, rows, fun i hi j hj => ⟨fun le => ?_, below i j hi hj, ?_⟩⟩
  · rw [UInt64.le_iff_toNat_le, number i hi, number j hj]
    exact mask_mono _ le
  · have either : (∃ b ∈ borders, feature.getD i 0 ≤ b ∧ b < feature.getD j 0 ∨
          feature.getD j 0 ≤ b ∧ b < feature.getD i 0) ↔
        values.getD i 0 < values.getD j 0 ∨ values.getD j 0 < values.getD i 0 := by
      rw [below i j hi hj, below j i hj hi, ← exists_or]
      exact exists_congr fun b => and_or_left
    rw [either, ← UInt64.toNat_inj, UInt64.lt_iff_toNat_lt, UInt64.lt_iff_toNat_lt]
    omega

/-- Three values, with the upper border in the lower bit. -/
theorem unite_keepsOrder_threeRows :
    ∃ values, uniteLabelBins (binarizeFeature [0, 1, 10] fun _ => [11 / 2, 1 / 2]) = .ok values ∧
      values.length = 3 ∧ ∀ i < 3, ∀ j < 3,
        (([0, 1, 10] : List ℚ).getD i 0 ≤ ([0, 1, 10] : List ℚ).getD j 0 → values.getD i 0 ≤ values.getD j 0) ∧
        (values.getD i 0 < values.getD j 0 ↔ ∃ b ∈ ({1 / 2, 11 / 2} : Finset ℚ),
          ([0, 1, 10] : List ℚ).getD i 0 ≤ b ∧ b < ([0, 1, 10] : List ℚ).getD j 0) ∧
        (values.getD i 0 = values.getD j 0 ↔ ¬ ∃ b ∈ ({1 / 2, 11 / 2} : Finset ℚ),
          ([0, 1, 10] : List ℚ).getD i 0 ≤ b ∧ b < ([0, 1, 10] : List ℚ).getD j 0 ∨
            ([0, 1, 10] : List ℚ).getD j 0 ≤ b ∧ b < ([0, 1, 10] : List ℚ).getD i 0) :=
  @unite_keepsOrder [0, 1, 10] (fun _ => [11 / 2, 1 / 2]) {1 / 2, 11 / 2} (by decide +kernel)
    ⟨by decide +kernel, fun b => by simp [or_comm]⟩

end Order

/-! ### Quantiles of the numbers -/

section Again

variable {feature : List ℚ} {builder : TBorderBuilder} {x : ℕ}

/-- As many bins as borders, but at least one. -/
theorem length_binarizeFeature (feature : List ℚ) (builder : TBorderBuilder) :
    (binarizeFeature feature builder).length = max 1 (builder feature).length := by
  unfold binarizeFeature
  simp only
  split
  case isTrue none => simp [none]
  case isFalse some =>
    rw [List.length_map, max_eq_right (List.length_pos_iff.mpr some)]

/-- **The `median` binarizer is idempotent on levels**: run on the united numbers, with the same
number of borders and in any order of the borders, it gives as many bins as before and separates
the same rows. -/
theorem median_again (few : x ≤ 24) (iterates : Iterates (builder feature) (medianBestSplit feature x)) :
    ∃ values, uniteLabelBins (binarizeFeature feature builder) = .ok values ∧
      ∀ again : TBorderBuilder,
        Iterates (again (values.map fun value => (value.toNat : ℚ)))
          (medianBestSplit (values.map fun value => (value.toNat : ℚ)) x) →
        (binarizeFeature (values.map fun value => (value.toNat : ℚ)) again).length =
            (binarizeFeature feature builder).length ∧
          ∀ i < feature.length, ∀ j < feature.length,
            SameBins (binarizeFeature (values.map fun value => (value.toNat : ℚ)) again) i j ↔
              SameBins (binarizeFeature feature builder) i j := by
  have count : (builder feature).length ≤ x := iterates.length_eq.trans_le (card_generateMedianBorders_le _ _)
  obtain ⟨values, united, column⟩ := uniteLabelBins_binarizeFeature (show (builder feature).length ≤ 31 by omega)
  refine ⟨values, united, fun again iterated => ?_⟩
  rw [column] at iterated ⊢
  set masks := feature.map fun y => (mask (builder feature) y : ℚ) with masks_eq
  have mono := mask_monotone (builder feature)
  have middles := middles_median iterates
  have middles' := middles_median iterated
  -- a gap has a border iff its masks differ, and then their gap has one again
  have kept (a c : ℚ) (adjacent : Adjacent feature a c) : QuantileHit feature x a c ↔
      (mask (builder feature) a : ℚ) < mask (builder feature) c ∧
        QuantileHit masks x (mask (builder feature) a) (mask (builder feature) c) := by
    rw [← mask_lt_mask_iff middles adjacent, iff_self_and]
    intro lt
    refine (quantileHit_map mono (fun a c gap hit => ?_) adjacent lt).mpr ?_
    · exact (mask_lt_mask_iff middles gap).mpr hit
    · exact (mask_lt_mask_iff middles adjacent).mp lt
  constructor
  · rw [length_binarizeFeature, length_binarizeFeature,
      middles.length_eq mono iterates.nodup iterated.nodup middles' kept]
  · rw [sameBins_masks_iff masks_eq, keepsApart_iff]
    intro p q gap
    obtain ⟨a, c, adjacent, rfl, rfl⟩ := exists_adjacent_of_map mono gap
    have hit := (kept a c adjacent).mp ((mask_lt_mask_iff middles adjacent).mp gap.lt)
    exact (middles'.separates_iff gap).mpr hit.2

/-- Three rows and two borders, with the upper border in the lower bit. -/
theorem median_again_threeRows :
    ∃ values, uniteLabelBins (binarizeFeature [0, 1, 10] fun _ => [11 / 2, 1 / 2]) = .ok values ∧
      ∀ again : TBorderBuilder,
        Iterates (again (values.map fun value => (value.toNat : ℚ)))
          (medianBestSplit (values.map fun value => (value.toNat : ℚ)) 2) →
        (binarizeFeature (values.map fun value => (value.toNat : ℚ)) again).length = 2 ∧
          ∀ i < 3, ∀ j < 3,
            SameBins (binarizeFeature (values.map fun value => (value.toNat : ℚ)) again) i j ↔
              SameBins (binarizeFeature [0, 1, 10] fun _ => [11 / 2, 1 / 2]) i j := by
  have borders : medianBestSplit [0, 1, 10] 2 = {11 / 2, 1 / 2} := by decide +kernel
  exact @median_again [0, 1, 10] (fun _ => [11 / 2, 1 / 2]) 2 (by decide)
    ⟨by decide +kernel, fun b => by rw [borders]; simp⟩

end Again

end Cmicot
