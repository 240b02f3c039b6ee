import Cmicot.Grid.Borders

/-!
The label in the two-command pipeline (`binarize.cpp`, `feature_selection.cpp`).

`--just-binarize` writes one number per row, whose bits are the borders below the value of the
row in the order in which the hash set gives them; the second command binarizes these numbers
again. The numbers keep the order of the values, so the quantile borders come out in the same
gaps; where the points of the uniform grid fall depends on the order of the borders.

* `mask_lt_iff`, `uniteLabelBins_binarizeFeature`: the numbers and their order.
* `quantileHit_map`: the quantiles hit the same gaps again.
* `label_survives_iff`: when the rows are grouped as before.
-/

namespace Cmicot

open Gaps

/-! ### The numbers of the label -/

section Masks

variable {order : List ℚ} {y z : ℚ}

/-- The bits of the borders below a value. -/
def mask (order : List ℚ) (y : ℚ) : ℕ := order.foldr (fun b rest => (decide (b < y)).toNat + 2 * rest) 0

theorem mask_cons (b : ℚ) (order : List ℚ) (y : ℚ) :
    mask (b :: order) y = (decide (b < y)).toNat + 2 * mask order y := rfl

theorem testBit_mask (order : List ℚ) (y : ℚ) (k : ℕ) :
    (mask order y).testBit k = (order.map fun b => decide (b < y)).getD k false := by
  induction order generalizing k with
  | nil => simp [mask]
  | cons b order ih =>
    rw [mask_cons]
    cases k with
    | zero => cases below : decide (b < y) <;> simp_all [Nat.testBit_zero, Nat.add_mod]
    | succ k =>
      rw [Nat.testBit_succ, List.map_cons, List.getD_cons_succ, ← ih]
      congr 1
      cases decide (b < y) <;> simp; omega

theorem mask_mono (order : List ℚ) (le : y ≤ z) : mask order y ≤ mask order z := by
  induction order with
  | nil => exact le_rfl
  | cons b order ih =>
    have first : (decide (b < y)).toNat ≤ (decide (b < z)).toNat := by
      by_cases below : b < y
      · simp [below, below.trans_le le]
      · simp [below]
    rw [mask_cons, mask_cons]
    omega

/-- **The numbers keep the order** of the values, up to the borders between them. -/
theorem mask_lt_iff (le : y ≤ z) : mask order y < mask order z ↔ Separates order y z := by
  induction order with
  | nil => simp [mask, Separates]
  | cons b order ih =>
    have rest := mask_mono order le
    have split : Separates (b :: order) y z ↔ (y ≤ b ∧ b < z) ∨ Separates order y z := by
      simp [Separates]
    rw [split, ← ih, mask_cons, mask_cons]
    by_cases below : b < y
    · have := below.trans_le le
      simp only [below, this, decide_true, Bool.toNat_true, not_le.mpr below, false_and, false_or]
      omega
    · by_cases above : b < z
      · simp only [below, above, not_lt.mp below, decide_true, decide_false, Bool.toNat_true, Bool.toNat_false,
          and_self, true_or, iff_true]
        omega
      · simp only [below, above, decide_false, Bool.toNat_false, and_false, false_or]
        omega

theorem mask_eq_zero (none : ∀ b ∈ order, ¬ b < y) : mask order y = 0 := by
  induction order with
  | nil => rfl
  | cons b order ih =>
    rw [mask_cons, ih fun b' mem => none b' (List.mem_cons_of_mem _ mem)]
    simp [none b List.mem_cons_self]

theorem mask_eq_full (all : ∀ b ∈ order, b < y) : mask order y = 2 ^ order.length - 1 := by
  induction order with
  | nil => rfl
  | cons b order ih =>
    rw [mask_cons, ih fun b' mem => all b' (List.mem_cons_of_mem _ mem), List.length_cons, Nat.pow_succ]
    have := Nat.pos_of_neZero (2 ^ order.length)
    simp only [all b List.mem_cons_self, decide_true, Bool.toNat_true]
    omega

/-- **What `UniteLabelBins` makes of a binarized column.** -/
theorem uniteLabelBins_binarizeFeature {feature : List ℚ} {builder : TBorderBuilder}
    (few : (builder feature).length ≤ 31) :
    ∃ values, uniteLabelBins (binarizeFeature feature builder) = .ok values ∧
      values.map (fun value => (value.toNat : ℚ)) =
        feature.map fun y => (mask (builder feature) y : ℚ) := by
  have some : binarizeFeature feature builder ≠ [] := by
    unfold binarizeFeature
    simp only
    split <;> simp [*]
  have length : ∀ bin ∈ binarizeFeature feature builder, bin.length = feature.length := by
    unfold binarizeFeature
    simp only
    split <;> simp +contextual
  have bins : (binarizeFeature feature builder).length ≤ 31 := by
    unfold binarizeFeature
    simp only
    split
    · simp
    · simpa using few
  have bits (i : ℕ) (hi : i < feature.length) (k : ℕ) :
      ((binarizeFeature feature builder).getD k []).getD i false =
        ((builder feature).map fun b => decide (b < feature.getD i 0)).getD k false := by
    unfold binarizeFeature
    simp only
    split
    case isTrue none =>
      rw [none]
      cases k <;> simp [hi]
    case isFalse =>
      rcases Nat.lt_or_ge k (builder feature).length with lt | ge
      · simp [lt, hi]
      · simp [ge]
  obtain ⟨values, united, encodes⟩ := uniteLabelBins_of_few some length bins
  refine ⟨values, united, List.ext_getElem (by simp [encodes.size]) fun i hi hi' => ?_⟩
  have inside : i < feature.length := by simpa using hi'
  have row : i < values.length := by simpa using hi
  rw [List.getElem_map, List.getElem_map]
  congr 1
  refine Nat.eq_of_testBit_eq fun k => ?_
  have bit := encodes.bits i inside k
  rw [List.getD_eq_getElem _ _ row] at bit
  rw [bit, bits i inside, testBit_mask, List.getD_eq_getElem _ _ inside]

end Masks

/-! ### Binarizing the numbers again -/

section Again

variable {values : List ℚ} {f : ℚ → ℚ} {a c : ℚ}

theorem sortValues_map (mono : Monotone f) : sortValues (values.map f) = (sortValues values).map f := by
  refine List.Perm.eq_of_pairwise (fun _ _ _ _ => le_antisymm) (pairwise_sortValues _) ?_ ?_
  · exact (List.pairwise_map.mpr ((pairwise_sortValues values).imp fun le => mono le))
  · exact (sortValues_perm _).trans ((sortValues_perm values).map f).symm

theorem headD_map (some : values ≠ []) : (values.map f).headD 0 = f (values.headD 0) := by
  cases values with
  | nil => exact absurd rfl some
  | cons v rest => rfl

theorem getLastD_map (some : values ≠ []) : (values.map f).getLastD 0 = f (values.getLastD 0) := by
  rw [List.getLastD_eq_getLast?, List.getLastD_eq_getLast?, List.getLast?_map,
    List.getLast?_eq_some_getLast some, Option.map_some, Option.getD_some, Option.getD_some]

/-- **The quantiles hit the same gaps again**, if every gap they hit is one of the image. -/
theorem quantileHit_map {count : ℕ} (mono : Monotone f)
    (kept : ∀ a c, Adjacent values a c → QuantileHit values count a c → f a < f c)
    (adjacent : Adjacent values a c) (lt : f a < f c) :
    QuantileHit (values.map f) count (f a) (f c) ↔ QuantileHit values count a c := by
  have pos : 0 < (sortValues values).length := by
    rw [length_sortValues]
    exact List.length_pos_of_mem adjacent.low
  rw [quantileHit_iff (adjacent.map mono lt), quantileHit_iff adjacent, sortValues_map mono, List.length_map]
  refine exists_congr fun i => and_congr_right fun inside => ?_
  have index : quantileIndex (sortValues values).length count i < (sortValues values).length := by
    unfold quantileIndex
    omega
  rw [List.getD_eq_getElem _ _ (by simpa using index), List.getElem_map, List.getD_eq_getElem _ _ index]
  set v := (sortValues values)[quantileIndex (sortValues values).length count i] with at_v
  have mem : v ∈ values := mem_sortValues.mp (List.getElem_mem _)
  refine ⟨fun same => ?_, fun eq => by rw [eq]⟩
  rcases lt_trichotomy v c with before | eq | behind
  · have le : v ≤ a := (adjacent.between v mem).resolve_right (not_le.mpr before)
    exact absurd lt (not_lt.mpr (same ▸ mono le))
  · exact eq
  · -- the gap below this quantile would be lost in the image
    obtain ⟨a', gap, le⟩ := exists_adjacent_below adjacent.high mem behind
    have hit : QuantileHit values count a' v :=
      (quantileHit_iff gap count).mpr ⟨i, inside, by rw [List.getD_eq_getElem _ _ index]⟩
    have image := kept a' v gap hit
    rw [same] at image
    exact absurd (mono le) (not_le.mpr image)

end Again

section Relabel

variable {feature : List ℚ} {builder : TBorderBuilder} {a c : ℚ} {x : ℕ}

/-- A point of the uniform grid over all masks falls between those of two values. -/
def MaskHit (order : List ℚ) (count : ℕ) (a c : ℚ) : Prop :=
  ∃ i < count, (mask order a : ℚ) < gridPoint 0 (2 ^ order.length - 1) count i ∧
    gridPoint 0 (2 ^ order.length - 1) count i ≤ mask order c

theorem mask_monotone (order : List ℚ) : Monotone fun y => (mask order y : ℚ) :=
  fun _ _ le => Nat.cast_le.mpr (mask_mono _ le)

/-- The masks of a gap differ iff the gap has a border. -/
theorem mask_lt_mask_iff {hit : ℚ → ℚ → Prop} (middles : Middles (builder feature) feature hit)
    (adjacent : Adjacent feature a c) :
    (mask (builder feature) a : ℚ) < mask (builder feature) c ↔ hit a c := by
  rw [Nat.cast_lt, mask_lt_iff adjacent.lt.le, middles.separates_iff adjacent]

/-- The masks start at 0 and end with all borders. -/
theorem gridHit_map (iterates : Iterates (builder feature) (medianPlusUniformBestSplit feature x))
    (some : feature ≠ []) (count : ℕ) (p q : ℚ) :
    GridHit (feature.map fun y => (mask (builder feature) y : ℚ)) count p q ↔
      ∃ i < count, p < gridPoint 0 (2 ^ (builder feature).length - 1) count i ∧
        gridPoint 0 (2 ^ (builder feature).length - 1) count i ≤ q := by
  have ordered := pairwise_sortValues feature
  have nonempty : sortValues feature ≠ [] := by
    rw [← List.length_pos_iff, length_sortValues]
    exact List.length_pos_of_ne_nil some
  have first : mask (builder feature) ((sortValues feature).headD 0) = 0 := by
    refine mask_eq_zero fun b mem below => ?_
    obtain ⟨a, c, adjacent, rfl⟩ := (middles_medianPlusUniform iterates).isMidpoint mem
    have := headD_le ordered (mem_sortValues.mpr adjacent.low)
    have := adjacent.lt_midpoint
    linarith
  have last : mask (builder feature) ((sortValues feature).getLastD 0) = 2 ^ (builder feature).length - 1 := by
    refine mask_eq_full fun b mem => ?_
    obtain ⟨a, c, adjacent, rfl⟩ := (middles_medianPlusUniform iterates).isMidpoint mem
    have := le_getLastD ordered (mem_sortValues.mpr adjacent.high)
    have := adjacent.midpoint_lt
    linarith
  rw [GridHit, sortValues_map (mask_monotone _), headD_map nonempty, getLastD_map nonempty, first, last,
    Nat.cast_zero, Nat.cast_sub Nat.one_le_two_pow, Nat.cast_one, Nat.cast_pow, Nat.cast_ofNat]

/-- Rows with the same bins are rows with the same mask. -/
theorem sameBins_iff_mask {i j : ℕ} (hi : i < feature.length) (hj : j < feature.length) :
    SameBins (binarizeFeature feature builder) i j ↔
      mask (builder feature) (feature.getD i 0) = mask (builder feature) (feature.getD j 0) := by
  rcases lt_trichotomy (feature.getD i 0) (feature.getD j 0) with lt | eq | gt
  · rw [← not_iff_not, not_sameBins_iff hi hj lt, ← mask_lt_iff lt.le]
    have := mask_mono (builder feature) lt.le
    omega
  · rw [sameBins_binarizeFeature hi hj, eq]
    simp
  · have symm : SameBins (binarizeFeature feature builder) i j ↔ SameBins (binarizeFeature feature builder) j i :=
      forall₂_congr fun _ _ => eq_comm
    rw [symm, ← not_iff_not, not_sameBins_iff hj hi gt, ← mask_lt_iff gt.le]
    have := mask_mono (builder feature) gt.le
    omega

/-- The masks are binarized like the column iff no two different masks fall together. -/
theorem sameBins_masks_iff {masks : List ℚ} {again : TBorderBuilder}
    (masks_eq : masks = feature.map fun y => (mask (builder feature) y : ℚ)) :
    (∀ i < feature.length, ∀ j < feature.length,
        SameBins (binarizeFeature masks again) i j ↔ SameBins (binarizeFeature feature builder) i j) ↔
      ∀ i < masks.length, ∀ j < masks.length, masks.getD i 0 ≠ masks.getD j 0 →
        ¬ SameBins (binarizeFeature masks again) i j := by
  have rows : masks.length = feature.length := by
    rw [masks_eq, List.length_map]
  have row (i : ℕ) (hi : i < feature.length) : masks.getD i 0 = mask (builder feature) (feature.getD i 0) := by
    rw [List.getD_eq_getElem _ _ (rows ▸ hi), List.getD_eq_getElem _ _ hi]
    simp only [masks_eq, List.getElem_map]
  rw [rows]
  refine forall₂_congr fun i hi => forall₂_congr fun j hj => ?_
  rw [sameBins_iff_mask hi hj, row i hi, row j hj, ne_eq, Nat.cast_inj]
  constructor
  · intro same differ
    exact differ ∘ same.mp
  · intro kept
    refine ⟨fun same => ?_, fun eq => ?_⟩
    · by_contra differ
      exact kept differ same
    · rw [sameBins_binarizeFeature (rows ▸ hi) (rows ▸ hj), row i hi, row j hj, eq]
      exact fun _ _ => Iff.rfl

/-- **When the label survives the second command**: every border of the first binarization is a
quantile one, or a point of the grid over the masks falls between the masks on its two sides. -/
theorem label_survives_iff (few : x ≤ 24)
    (iterates : Iterates (builder feature) (medianPlusUniformBestSplit feature x)) :
    ∃ values, uniteLabelBins (binarizeFeature feature builder) = .ok values ∧
      ∀ again : TBorderBuilder,
        Iterates (again (values.map fun value => (value.toNat : ℚ)))
          (medianPlusUniformBestSplit (values.map fun value => (value.toNat : ℚ)) x) →
        ((∀ i < feature.length, ∀ j < feature.length,
            SameBins (binarizeFeature (values.map fun value => (value.toNat : ℚ)) again) i j ↔
              SameBins (binarizeFeature feature builder) i j) ↔
          ∀ a c, Adjacent feature a c → (a + c) / 2 ∈ builder feature →
            QuantileHit feature (x - x / 2) a c ∨ MaskHit (builder feature) (x / 2) a c) := by
  have count : (builder feature).length ≤ x := iterates.length_eq.trans_le card_medianPlusUniformBestSplit_le
  obtain ⟨values, united, column⟩ := uniteLabelBins_binarizeFeature (show (builder feature).length ≤ 31 by omega)
  refine ⟨values, united, fun again iterated => ?_⟩
  rw [column] at iterated ⊢
  set masks := feature.map fun y => (mask (builder feature) y : ℚ) with masks_eq
  have middles := middles_medianPlusUniform iterates
  rw [sameBins_masks_iff masks_eq, (middles_medianPlusUniform iterated).keepsApart_iff]
  have mono := mask_monotone (builder feature)
  have kept : ∀ a c, Adjacent feature a c → QuantileHit feature (x - x / 2) a c →
      (mask (builder feature) a : ℚ) < mask (builder feature) c := fun a c adjacent hit =>
    (mask_lt_mask_iff middles adjacent).mpr (.inl hit)
  have gap (a c : ℚ) (adjacent : Adjacent feature a c)
      (lt : (mask (builder feature) a : ℚ) < mask (builder feature) c) :
      (QuantileHit masks (x - x / 2) (mask (builder feature) a) (mask (builder feature) c) ∨
          GridHit masks (x / 2) (mask (builder feature) a) (mask (builder feature) c)) ↔
        QuantileHit feature (x - x / 2) a c ∨ MaskHit (builder feature) (x / 2) a c :=
    or_congr (quantileHit_map mono kept adjacent lt)
      (gridHit_map iterates (List.ne_nil_of_mem adjacent.low) _ _ _)
  constructor
  · intro hits a c adjacent mem
    have lt := (mask_lt_mask_iff middles adjacent).mpr ((middles.mem_iff adjacent).mp mem)
    exact (gap a c adjacent lt).mp (hits _ _ (adjacent.map mono lt))
  · intro hits p q image
    obtain ⟨a, c, adjacent, rfl, rfl⟩ := exists_adjacent_of_map mono image
    have mem := (middles.mem_iff adjacent).mpr ((mask_lt_mask_iff middles adjacent).mp image.lt)
    exact (gap a c adjacent image.lt).mpr (hits a c adjacent mem)

/-- Three values and two borders, with the lower border first. -/
theorem label_survives_lowerFirst :
    ∃ values, uniteLabelBins (binarizeFeature [0, 1, 10] fun _ => [1 / 2, 11 / 2]) = .ok values ∧
      ∀ again : TBorderBuilder,
        Iterates (again (values.map fun value => (value.toNat : ℚ)))
          (medianPlusUniformBestSplit (values.map fun value => (value.toNat : ℚ)) 2) →
        ((∀ i < 3, ∀ j < 3,
            SameBins (binarizeFeature (values.map fun value => (value.toNat : ℚ)) again) i j ↔
              SameBins (binarizeFeature [0, 1, 10] fun _ => [1 / 2, 11 / 2]) i j) ↔
          ∀ a c, Adjacent ([0, 1, 10] : List ℚ) a c → (a + c) / 2 ∈ ([1 / 2, 11 / 2] : List ℚ) →
            QuantileHit [0, 1, 10] (2 - 2 / 2) a c ∨ MaskHit [1 / 2, 11 / 2] (2 / 2) a c) := by
  have borders : medianPlusUniformBestSplit [0, 1, 10] 2 = {1 / 2, 11 / 2} := by decide +kernel
  exact @label_survives_iff [0, 1, 10] (fun _ => [1 / 2, 11 / 2]) 2 (by decide)
    ⟨by decide +kernel, fun b => by rw [borders]; simp⟩

/-- The same column with the upper border first: the values 1 and 10 become 2 and 3, and both
borders of the second command fall below them. -/
theorem label_losesLevel :
    Iterates [11 / 2, 1 / 2] (medianPlusUniformBestSplit [0, 1, 10] 2) ∧
      uniteLabelBins (binarizeFeature [0, 1, 10] fun _ => [11 / 2, 1 / 2]) = .ok [0, 2, 3] ∧
      Iterates [1] (medianPlusUniformBestSplit [0, 2, 3] 2) ∧
      ¬ SameBins (binarizeFeature [0, 1, 10] fun _ => [11 / 2, 1 / 2]) 1 2 ∧
      SameBins (binarizeFeature [0, 2, 3] fun _ => [1]) 1 2 := by
  have borders : medianPlusUniformBestSplit [0, 1, 10] 2 = {11 / 2, 1 / 2} := by decide +kernel
  have again : medianPlusUniformBestSplit [0, 2, 3] 2 = {1} := by decide +kernel
  refine ⟨⟨by decide +kernel, fun b => by rw [borders]; simp⟩, by decide +kernel,
    ⟨by decide, fun b => by rw [again]; simp⟩, ?_, ?_⟩
  · rw [not_sameBins_iff (by decide) (by decide) (by decide)]
    exact ⟨11 / 2, by simp, by decide +kernel, by decide +kernel⟩
  · rw [sameBins_binarizeFeature (by decide) (by decide)]
    intro b mem
    rw [List.mem_singleton.mp mem]
    decide

end Relabel

end Cmicot
