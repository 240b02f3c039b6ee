import Cmicot.Binarize
import Cmicot.Lib.Gaps

/-!
Quantile and uniform borders (`grid_creator/binarization.cpp`).

The `median` binarizer takes quantiles of the sorted column, the default `medianPlusUniform`
quantiles for one half of its borders and a uniform grid for the other; every quantile and
every point of the grid is moved to the middle of the gap it falls into. A hash set of borders
is a finite set; the order in which it is iterated is not determined.

* `regularBorder_eq`: a regular border is the midpoint of the gap it falls into.
* `mem_medianBestSplit`, `mem_medianPlusUniformBestSplit`: which gaps get a border.
* `keepsApart_iff`, `medianPlusUniform_keepsApart_iff`: when all different values are kept apart.
-/

namespace Cmicot

open Gaps

/-! ### Definitions -/

/-- `Sort(begin, end)`. -/
def sortValues (values : List ℚ) : List ℚ := values.insertionSort (· ≤ ·)

/-- `RegularBorder(border, sortedValues)`. -/
def regularBorder (border : ℚ) (sortedValues : List ℚ) : ℚ :=
  let lowerBound := Gaps.lowerBound sortedValues border
  if lowerBound = sortedValues.length then
    max (2 * sortedValues.getLastD 0) (sortedValues.getLastD 0 + 1)
  else if lowerBound = 0 then
    min (1 / 2 * sortedValues.headD 0) (2 * sortedValues.headD 0)
  else
    let res := (sortedValues.getD lowerBound 0 + sortedValues.getD (lowerBound - 1) 0) * (1 / 2)
    if res = sortedValues.getD lowerBound 0 then sortedValues.getD (lowerBound - 1) 0 else res

/-- The position `i1` of the `i`-th of `bordersCount` quantiles. -/
def quantileIndex (total bordersCount i : ℕ) : ℕ := min ((i + 1) * total / (bordersCount + 1)) (total - 1)

/-- `GenerateMedianBorders(featureValues, bordersCount)`. -/
def generateMedianBorders (featureValues : List ℚ) (bordersCount : ℕ) : Finset ℚ :=
  let total := featureValues.length
  if total = 0 ∨ featureValues.headD 0 = featureValues.getLastD 0 then ∅
  else
    (List.range bordersCount).foldl
      (fun result i =>
        let val1 := featureValues.getD (quantileIndex total bordersCount i) 0
        if val1 ≠ featureValues.getD 0 0 then insert (regularBorder val1 featureValues) result else result) ∅

/-- `TMedianBinarizer::BestSplit`. -/
def medianBestSplit (featureValues : List ℚ) (bordersCount : ℕ) : Finset ℚ :=
  generateMedianBorders (sortValues featureValues) bordersCount

/-- The `i`-th of `count` points of the uniform grid. -/
def gridPoint (minValue maxValue : ℚ) (count i : ℕ) : ℚ := minValue + (i + 1) * (maxValue - minValue) / (count + 1)

/-- `TMedianPlusUniformBinarizer::BestSplit`. -/
def medianPlusUniformBestSplit (featureValues : List ℚ) (bordersCount : ℕ) : Finset ℚ :=
  let featureValues := sortValues featureValues
  if featureValues = [] ∨ featureValues.headD 0 = featureValues.getLastD 0 then ∅
  else
    let halfBorders := bordersCount / 2
    let minValue := featureValues.headD 0
    let maxValue := featureValues.getLastD 0
    (List.range halfBorders).foldl
      (fun borders i => insert (regularBorder (gridPoint minValue maxValue halfBorders i) featureValues) borders)
      (generateMedianBorders featureValues (bordersCount - halfBorders))

/-- The borders in an order in which a hash set may give them. -/
structure Iterates (order : List ℚ) (borders : Finset ℚ) : Prop where
  nodup : order.Nodup
  mem_iff : ∀ b, b ∈ order ↔ b ∈ borders

theorem Iterates.length_eq {order : List ℚ} {borders : Finset ℚ} (iterates : Iterates order borders) :
    order.length = borders.card := by
  have same : order.toFinset = borders := by
    ext b
    rw [List.mem_toFinset, iterates.mem_iff]
  rw [← List.toFinset_card_of_nodup iterates.nodup, same]

/-! ### Sorted columns -/

section Sorted

variable {values : List ℚ} {a c : ℚ}

theorem sortValues_perm (values : List ℚ) : (sortValues values).Perm values := List.perm_insertionSort _ _

theorem pairwise_sortValues (values : List ℚ) : (sortValues values).Pairwise (· ≤ ·) :=
  List.pairwise_insertionSort _ _

theorem mem_sortValues {v : ℚ} : v ∈ sortValues values ↔ v ∈ values := (sortValues_perm values).mem_iff

theorem length_sortValues (values : List ℚ) : (sortValues values).length = values.length :=
  (sortValues_perm values).length_eq

theorem adjacent_sortValues : Adjacent (sortValues values) a c ↔ Adjacent values a c :=
  ⟨.congr fun _ => mem_sortValues, .congr fun _ => mem_sortValues.symm⟩

end Sorted

/-! ### Which gaps get a border -/

section Regular

variable {sorted : List ℚ} {a b c border : ℚ} {k : ℕ}

/-- **A regular border** is the midpoint of the gap it falls into. -/
theorem regularBorder_eq (ordered : sorted.Pairwise (· ≤ ·)) (adjacent : Adjacent sorted a c) (above : a < border)
    (below : border ≤ c) : regularBorder border sorted = (a + c) / 2 := by
  obtain ⟨i, hi, at_i⟩ := List.mem_iff_getElem.mp adjacent.low
  obtain ⟨j, hj, at_j⟩ := List.mem_iff_getElem.mp adjacent.high
  set k := Gaps.lowerBound sorted border with lower
  have before : i < k := (Gaps.lt_lowerBound_iff ordered hi).mpr (at_i ▸ above)
  have behind : k ≤ j := Nat.le_of_not_lt fun lt =>
    absurd ((Gaps.lt_lowerBound_iff ordered hj).mp lt) (at_j ▸ not_lt.mpr below)
  have high : sorted[k] = c := by
    have large : ¬ sorted[k] < border := (Gaps.lt_lowerBound_iff ordered (by omega)).not.mp (lt_irrefl _)
    refine le_antisymm (at_j ▸ getElem_le ordered behind hj) ?_
    exact (adjacent.between _ (List.getElem_mem _)).resolve_left fun le => large (le.trans_lt above)
  have low : sorted[k - 1] = a := by
    have small : sorted[k - 1] < border := (Gaps.lt_lowerBound_iff ordered (by omega)).mp (by omega)
    refine le_antisymm ?_ (at_i ▸ getElem_le ordered (by omega) (by omega))
    exact (adjacent.between _ (List.getElem_mem _)).resolve_right fun le => absurd (small.trans_le below) le.not_gt
  have lt := adjacent.lt
  rw [regularBorder, ← lower, if_neg (by omega), if_neg (by omega), List.getD_eq_getElem _ _ (by omega),
    List.getD_eq_getElem _ _ (by omega), high, low, if_neg (by linarith)]
  linarith

/-- Conditional insertions of a counted loop. -/
theorem mem_foldl_insert (P : ℕ → Prop) [DecidablePred P] (f : ℕ → ℚ) (start : Finset ℚ) (count : ℕ) :
    b ∈ (List.range count).foldl (fun result i => if P i then insert (f i) result else result) start ↔
      b ∈ start ∨ ∃ i < count, P i ∧ b = f i := by
  induction count with
  | zero => simp
  | succ count ih =>
    rw [List.range_succ, List.foldl_append, List.foldl_cons, List.foldl_nil]
    simp only [Nat.lt_succ_iff_lt_or_eq]
    split <;> simp only [Finset.mem_insert, ih] <;> grind

theorem card_foldl_insert_le (P : ℕ → Prop) [DecidablePred P] (f : ℕ → ℚ) (start : Finset ℚ) (count : ℕ) :
    ((List.range count).foldl (fun result i => if P i then insert (f i) result else result) start).card ≤
      start.card + count := by
  induction count with
  | zero => simp
  | succ count ih =>
    rw [List.range_succ, List.foldl_append, List.foldl_cons, List.foldl_nil]
    split
    · exact (Finset.card_insert_le _ _).trans (by omega)
    · omega

theorem headD_le (ordered : sorted.Pairwise (· ≤ ·)) (mem : a ∈ sorted) : sorted.headD 0 ≤ a := by
  cases sorted with
  | nil => exact absurd mem List.not_mem_nil
  | cons x rest =>
    rcases List.mem_cons.mp mem with rfl | mem
    · exact le_rfl
    · exact (List.pairwise_cons.mp ordered).1 a mem

theorem le_getLastD (ordered : sorted.Pairwise (· ≤ ·)) (mem : a ∈ sorted) : a ≤ sorted.getLastD 0 := by
  obtain ⟨i, lt, rfl⟩ := List.mem_iff_getElem.mp mem
  have last : sorted.getLastD 0 = sorted[sorted.length - 1] := by
    rw [List.getLastD_eq_getLast?, List.getLast?_eq_getElem?, List.getElem?_eq_getElem (by omega), Option.getD_some]
  rw [last]
  exact getElem_le ordered (by omega) (by omega)

/-- A list with a gap has two ends. -/
theorem ends_of_adjacent (ordered : sorted.Pairwise (· ≤ ·)) (adjacent : Adjacent sorted a c) :
    sorted ≠ [] ∧ sorted.headD 0 ≠ sorted.getLastD 0 := by
  refine ⟨List.ne_nil_of_mem adjacent.low, fun same => ?_⟩
  have := headD_le ordered adjacent.low
  have := le_getLastD ordered adjacent.high
  have := adjacent.lt
  linarith

/-- **Quantile borders** are the midpoints of the gaps below the quantiles. -/
theorem mem_generateMedianBorders (ordered : sorted.Pairwise (· ≤ ·)) :
    b ∈ generateMedianBorders sorted k ↔ ∃ i < k, ∃ a c, Adjacent sorted a c ∧
      sorted.getD (quantileIndex sorted.length k i) 0 = c ∧ b = (a + c) / 2 := by
  unfold generateMedianBorders
  simp only
  split
  case isTrue flat =>
    simp only [Finset.notMem_empty, false_iff, not_exists, not_and]
    rintro i - a c adjacent
    obtain ⟨some, differ⟩ := ends_of_adjacent ordered adjacent
    rcases flat with none | same
    · exact absurd (List.length_eq_zero_iff.mp none) some
    · exact absurd same differ
  case isFalse steep =>
    have pos : 0 < sorted.length := by omega
    have head : sorted.getD 0 0 = sorted.headD 0 := by cases sorted <;> rfl
    rw [mem_foldl_insert]
    simp only [Finset.notMem_empty, false_or]
    refine exists_congr fun i => and_congr_right fun _ => ?_
    have inside : quantileIndex sorted.length k i < sorted.length := by
      unfold quantileIndex
      omega
    have mem : sorted.getD (quantileIndex sorted.length k i) 0 ∈ sorted := by
      rw [List.getD_eq_getElem _ _ inside]
      exact List.getElem_mem _
    constructor
    · rintro ⟨other, rfl⟩
      have above := lt_of_le_of_ne (head ▸ headD_le ordered mem) (Ne.symm other)
      obtain ⟨a, adjacent, -⟩ := exists_adjacent_below (a := sorted.getD 0 0)
        (by rw [List.getD_eq_getElem _ _ pos]; exact List.getElem_mem _) mem above
      exact ⟨a, _, adjacent, rfl, regularBorder_eq ordered adjacent adjacent.lt le_rfl⟩
    · rintro ⟨a, c, adjacent, rfl, rfl⟩
      refine ⟨fun first => ?_, (regularBorder_eq ordered adjacent adjacent.lt le_rfl).symm⟩
      have := headD_le ordered adjacent.low
      have := adjacent.lt
      rw [first, head] at this
      linarith

theorem card_generateMedianBorders_le (sorted : List ℚ) (k : ℕ) : (generateMedianBorders sorted k).card ≤ k := by
  unfold generateMedianBorders
  simp only
  split
  · exact Nat.zero_le _
  · exact (card_foldl_insert_le _ _ _ _).trans (by simp)

/-- The points of the grid lie strictly between its ends. -/
theorem gridPoint_mem {low high : ℚ} (lt : low < high) {i : ℕ} (inside : i < k) :
    low < gridPoint low high k i ∧ gridPoint low high k i < high := by
  have pos : (0 : ℚ) < k + 1 := by positivity
  have index : (i : ℚ) + 1 < k + 1 := by
    exact_mod_cast Nat.succ_lt_succ inside
  have width : 0 < high - low := by linarith
  unfold gridPoint
  constructor
  · have : 0 < (i + 1) * (high - low) / ((k : ℚ) + 1) := by positivity
    linarith
  · have : (i + 1) * (high - low) / ((k : ℚ) + 1) < high - low := by
      rw [div_lt_iff₀ pos]
      nlinarith
    linarith

end Regular

/-! ### Quantiles and grid together -/

section Both

variable {values : List ℚ} {a b c : ℚ} {x : ℕ}

/-- A quantile falls on a row with the upper value of the gap. -/
def QuantileHit (values : List ℚ) (count : ℕ) (a c : ℚ) : Prop :=
  ∃ i < count, values.countP (· ≤ a) ≤ (i + 1) * values.length / (count + 1) ∧
    (i + 1) * values.length / (count + 1) < values.countP (· ≤ c)

/-- A point of the uniform grid falls into the gap. -/
def GridHit (values : List ℚ) (count : ℕ) (a c : ℚ) : Prop :=
  ∃ i < count, a < gridPoint ((sortValues values).headD 0) ((sortValues values).getLastD 0) count i ∧
    gridPoint ((sortValues values).headD 0) ((sortValues values).getLastD 0) count i ≤ c

/-- The quantiles are ranks of the sorted column. -/
theorem quantileHit_iff (adjacent : Adjacent values a c) (count : ℕ) :
    QuantileHit values count a c ↔
      ∃ i < count, (sortValues values).getD (quantileIndex (sortValues values).length count i) 0 = c := by
  have pos : 0 < values.length := List.length_pos_of_mem adjacent.low
  refine exists_congr fun i => and_congr_right fun lt => ?_
  have rank : (i + 1) * values.length / (count + 1) < values.length := by
    rw [Nat.div_lt_iff_lt_mul (Nat.succ_pos _), Nat.mul_comm]
    exact Nat.mul_lt_mul_of_pos_left (by omega) pos
  have index : quantileIndex (sortValues values).length count i = (i + 1) * values.length / (count + 1) := by
    rw [length_sortValues, quantileIndex]
    omega
  have inside : (i + 1) * values.length / (count + 1) < (sortValues values).length := by
    rwa [length_sortValues]
  rw [index, List.getD_eq_getElem _ _ inside, getElem_eq_iff_countP (pairwise_sortValues values)
    (adjacent_sortValues.mpr adjacent) inside, (sortValues_perm values).countP_eq,
    (sortValues_perm values).countP_eq]

/-- **The borders of `median`** are the midpoints of the gaps that a quantile hits. -/
theorem mem_medianBestSplit :
    b ∈ medianBestSplit values x ↔ ∃ a c, Adjacent values a c ∧ b = (a + c) / 2 ∧ QuantileHit values x a c := by
  unfold medianBestSplit
  rw [mem_generateMedianBorders (pairwise_sortValues values)]
  constructor
  · rintro ⟨i, inside, a, c, adjacent, hit, rfl⟩
    have gap := adjacent_sortValues.mp adjacent
    exact ⟨a, c, gap, rfl, (quantileHit_iff gap _).mpr ⟨i, inside, hit⟩⟩
  · rintro ⟨a, c, adjacent, rfl, quantile⟩
    obtain ⟨i, inside, hit⟩ := (quantileHit_iff adjacent _).mp quantile
    exact ⟨i, inside, a, c, adjacent_sortValues.mpr adjacent, hit, rfl⟩

/-- **The borders of the default binarizer** are the midpoints of the gaps that are hit. -/
theorem mem_medianPlusUniformBestSplit :
    b ∈ medianPlusUniformBestSplit values x ↔ ∃ a c, Adjacent values a c ∧ b = (a + c) / 2 ∧
      (QuantileHit values (x - x / 2) a c ∨ GridHit values (x / 2) a c) := by
  have ordered := pairwise_sortValues values
  unfold medianPlusUniformBestSplit
  simp only
  split
  case isTrue flat =>
    simp only [Finset.notMem_empty, false_iff, not_exists, not_and]
    intro a c adjacent
    obtain ⟨some, differ⟩ := ends_of_adjacent ordered (adjacent_sortValues.mpr adjacent)
    exact (flat.elim some differ).elim
  case isFalse steep =>
    obtain ⟨some, differ⟩ := not_or.mp steep
    have first : (sortValues values).headD 0 ∈ sortValues values := by
      cases sorted : sortValues values with
      | nil => exact absurd sorted some
      | cons y rest => exact List.mem_cons_self
    have last : (sortValues values).getLastD 0 ∈ sortValues values := by
      rw [List.getLastD_eq_getLast?, List.getLast?_eq_some_getLast some]
      exact List.getLast_mem some
    have lt := lt_of_le_of_ne (headD_le ordered last) differ
    have grid := mem_foldl_insert (b := b) (fun _ => True)
      (fun i => regularBorder (gridPoint ((sortValues values).headD 0) ((sortValues values).getLastD 0)
        (x / 2) i) (sortValues values))
      (generateMedianBorders (sortValues values) (x - x / 2)) (x / 2)
    simp only [if_true, true_and] at grid
    rw [grid]
    change b ∈ medianBestSplit values (x - x / 2) ∨ _ ↔ _
    rw [mem_medianBestSplit]
    constructor
    · rintro (⟨a, c, gap, eq, quantile⟩ | ⟨i, inside, rfl⟩)
      · exact ⟨a, c, gap, eq, .inl quantile⟩
      · obtain ⟨above, below⟩ := gridPoint_mem lt inside
        obtain ⟨a, c, adjacent, low, high⟩ := exists_adjacent_at first last above below.le
        exact ⟨a, c, adjacent_sortValues.mp adjacent, regularBorder_eq ordered adjacent low high,
          .inr ⟨i, inside, low, high⟩⟩
    · rintro ⟨a, c, adjacent, rfl, quantile | ⟨i, inside, low, high⟩⟩
      · exact .inl ⟨a, c, adjacent, rfl, quantile⟩
      · exact .inr ⟨i, inside, (regularBorder_eq ordered (adjacent_sortValues.mpr adjacent) low high).symm⟩

theorem card_medianPlusUniformBestSplit_le : (medianPlusUniformBestSplit values x).card ≤ x := by
  unfold medianPlusUniformBestSplit
  simp only
  split
  · exact Nat.zero_le _
  · have grid := card_foldl_insert_le (fun _ => True)
      (fun i => regularBorder (gridPoint ((sortValues values).headD 0) ((sortValues values).getLastD 0)
        (x / 2) i) (sortValues values))
      (generateMedianBorders (sortValues values) (x - x / 2)) (x / 2)
    simp only [if_true] at grid
    have quantiles := card_generateMedianBorders_le (sortValues values) (x - x / 2)
    omega

end Both

/-! ### Rows that are kept apart -/

section Rows

variable {feature : List ℚ} {builder : TBorderBuilder} {x i j : ℕ}

/-- Two rows with the same bits in all bins. -/
def SameBins (bins : List TBin) (i j : ℕ) : Prop := ∀ bin ∈ bins, bin.getD i false = bin.getD j false

theorem sameBins_binarizeFeature (hi : i < feature.length) (hj : j < feature.length) :
    SameBins (binarizeFeature feature builder) i j ↔
      ∀ b ∈ builder feature, (feature.getD i 0 > b ↔ feature.getD j 0 > b) := by
  unfold binarizeFeature
  simp only
  split
  case isTrue none => simp [SameBins, none, hi, hj]
  case isFalse some => simp [SameBins, hi, hj]

/-- Different values are kept apart iff a border lies between them. -/
theorem not_sameBins_iff (hi : i < feature.length) (hj : j < feature.length)
    (lt : feature.getD i 0 < feature.getD j 0) :
    ¬ SameBins (binarizeFeature feature builder) i j ↔
      Separates (builder feature) (feature.getD i 0) (feature.getD j 0) := by
  rw [sameBins_binarizeFeature hi hj]
  push Not
  constructor
  · rintro ⟨b, mem, ⟨above, below⟩ | ⟨below, above⟩⟩
    · linarith
    · exact ⟨b, mem, below, above⟩
  · rintro ⟨b, mem, low, high⟩
    exact ⟨b, mem, .inr ⟨low, high⟩⟩

/-- **All different values are kept apart** iff there is a border in every gap. -/
theorem keepsApart_iff :
    (∀ i < feature.length, ∀ j < feature.length, feature.getD i 0 ≠ feature.getD j 0 →
        ¬ SameBins (binarizeFeature feature builder) i j) ↔
      ∀ a c, Adjacent feature a c → Separates (builder feature) a c := by
  rw [← separates_iff]
  constructor
  · intro apart y low z high lt
    obtain ⟨i, hi, rfl⟩ := List.mem_iff_getElem.mp low
    obtain ⟨j, hj, rfl⟩ := List.mem_iff_getElem.mp high
    rw [← List.getD_eq_getElem _ 0 hi, ← List.getD_eq_getElem _ 0 hj] at lt ⊢
    exact (not_sameBins_iff hi hj lt).mp (apart i hi j hj lt.ne)
  · intro all i hi j hj differ
    have mem (k : ℕ) (hk : k < feature.length) : feature.getD k 0 ∈ feature := by
      rw [List.getD_eq_getElem _ _ hk]
      exact List.getElem_mem _
    rcases lt_or_gt_of_ne differ with lt | gt
    · exact (not_sameBins_iff hi hj lt).mpr (all _ (mem i hi) _ (mem j hj) lt)
    · intro same
      exact (not_sameBins_iff hj hi gt).mpr (all _ (mem j hj) _ (mem i hi) gt) fun bin listed => (same bin listed).symm

/-- All different values are kept apart iff every gap is one that gets a border. -/
theorem Gaps.Middles.keepsApart_iff {hit : ℚ → ℚ → Prop} (middles : Middles (builder feature) feature hit) :
    (∀ i < feature.length, ∀ j < feature.length, feature.getD i 0 ≠ feature.getD j 0 →
        ¬ SameBins (binarizeFeature feature builder) i j) ↔
      ∀ a c, Adjacent feature a c → hit a c := by
  rw [Cmicot.keepsApart_iff]
  exact forall₂_congr fun a c => forall_congr' fun adjacent => middles.separates_iff adjacent

/-- The `median` borders, in any order, are the midpoints of the gaps that a quantile hits. -/
theorem middles_median (iterates : Iterates (builder feature) (medianBestSplit feature x)) :
    Middles (builder feature) feature (QuantileHit feature x) :=
  fun b => (iterates.mem_iff b).trans mem_medianBestSplit

/-- The default borders, in any order, are the midpoints of the gaps that are hit. -/
theorem middles_medianPlusUniform (iterates : Iterates (builder feature) (medianPlusUniformBestSplit feature x)) :
    Middles (builder feature) feature fun a c => QuantileHit feature (x - x / 2) a c ∨ GridHit feature (x / 2) a c :=
  fun b => (iterates.mem_iff b).trans mem_medianPlusUniformBestSplit

/-- **When the default binarization keeps all values apart**: every gap between neighbouring
values is hit by a quantile or by a point of the grid. -/
theorem medianPlusUniform_keepsApart_iff
    (iterates : Iterates (builder feature) (medianPlusUniformBestSplit feature x)) :
    (∀ i < feature.length, ∀ j < feature.length, feature.getD i 0 ≠ feature.getD j 0 →
        ¬ SameBins (binarizeFeature feature builder) i j) ↔
      ∀ a c, Adjacent feature a c → QuantileHit feature (x - x / 2) a c ∨ GridHit feature (x / 2) a c := by
  rw [keepsApart_iff]
  refine forall₂_congr fun a c => forall_congr' fun adjacent => ?_
  exact (middles_medianPlusUniform iterates).separates_iff adjacent

/-- Two values and two borders. -/
theorem medianPlusUniform_keepsApart_twoValues :
    Iterates [1 / 2] (medianPlusUniformBestSplit [0, 1] 2) ∧
      ∀ i < 2, ∀ j < 2, ([0, 1] : List ℚ).getD i 0 ≠ ([0, 1] : List ℚ).getD j 0 →
        ¬ SameBins (binarizeFeature [0, 1] fun _ => [1 / 2]) i j := by
  have borders : medianPlusUniformBestSplit [0, 1] 2 = {1 / 2} := by decide +kernel
  have iterates : Iterates ((fun _ => [1 / 2] : TBorderBuilder) [0, 1]) (medianPlusUniformBestSplit [0, 1] 2) :=
    ⟨by decide, fun b => by rw [borders]; simp⟩
  refine ⟨iterates, ?_⟩
  apply (@medianPlusUniform_keepsApart_iff [0, 1] (fun _ => [1 / 2]) 2 iterates).mpr
  intro a c adjacent
  refine .inr ⟨0, by decide, ?_⟩
  have low := adjacent.low
  have high := adjacent.high
  have lt := adjacent.lt
  simp only [List.mem_cons, List.not_mem_nil, or_false] at low high
  rcases low with rfl | rfl <;> rcases high with rfl | rfl
  · exact absurd lt (lt_irrefl _)
  · decide +kernel
  · exact absurd lt (by decide)
  · exact absurd lt (lt_irrefl _)

/-- Three values and three borders, of which only one is left: 0 and 1 fall together. -/
theorem medianPlusUniform_losesValue :
    ([0, 0, 0, 0, 0, 1, 10] : List ℚ).dedup.length ≤ 3 ∧
      Iterates [11 / 2] (medianPlusUniformBestSplit [0, 0, 0, 0, 0, 1, 10] 3) ∧
      ([0, 0, 0, 0, 0, 1, 10] : List ℚ).getD 4 0 ≠ ([0, 0, 0, 0, 0, 1, 10] : List ℚ).getD 5 0 ∧
      SameBins (binarizeFeature [0, 0, 0, 0, 0, 1, 10] fun _ => [11 / 2]) 4 5 := by
  have borders : medianPlusUniformBestSplit [0, 0, 0, 0, 0, 1, 10] 3 = {11 / 2} := by decide +kernel
  refine ⟨by decide +kernel, ⟨by decide, fun b => by rw [borders]; simp⟩, by decide +kernel, ?_⟩
  rw [sameBins_binarizeFeature (by decide) (by decide)]
  intro b mem
  rw [List.mem_singleton.mp mem]
  decide +kernel

end Rows

end Cmicot
