import Cmicot.Grid.Borders
import Cmicot.Lib.Splitting
import Mathlib.Analysis.SpecialFunctions.Log.Basic

/-!
Greedy borders (`grid_creator/median_in_bin_binarization.cpp`).

The `medianInBin` binarizer keeps bins of sorted rows in a priority queue. A bin is cut before or
behind the rows with its middle value, on the side where the product of the two parts is larger;
its score is the logarithm of that product. The loop splits the top of the queue until there
are enough bins or the top has one value only. A pair of different values has score 0, as
a bin with one value has, so the loop may stop in front of pairs.

* `TFeatureBin.canSplit_iff`, `TFeatureBin.score_pos_iff`: which bins can be split, which of them
  have a positive score.
* `card_collectBorders`: the queue is a tiling, with one border for every bin but the last one.
* `medianInBin_usesBudget_iff`: when all borders that the budget allows are found.
-/

namespace Cmicot

open Splitting
open Gaps

/-! ### Definitions -/

/-- `TFeatureBin`: the rows from `binStart` up to `binEnd` of a sorted column. The class updates
`BestSplit` and `BestScore` with every change of the rows, so both are functions of them. -/
@[ext]
structure TFeatureBin (features : List ℚ) where
  binStart : ℕ
  binEnd : ℕ
  lt : binStart < binEnd
  le : binEnd ≤ features.length

namespace TFeatureBin

variable {features : List ℚ} (bin : TFeatureBin features)

def mid : ℕ := (bin.binStart + bin.binEnd) / 2

def midValue : ℚ := features.getD bin.mid 0

/-- Where the rows with the middle value begin. -/
def lb : ℕ := bin.binStart + Gaps.lowerBound (features.extract bin.binStart bin.mid) bin.midValue

/-- Where the rows with the middle value end. -/
def up : ℕ := bin.mid + Gaps.upperBound (features.extract bin.mid bin.binEnd) bin.midValue

noncomputable def scoreLeft : ℝ :=
  if bin.lb ≠ bin.binStart then
    Real.log (bin.lb - bin.binStart : ℕ) + Real.log (bin.binEnd - bin.lb : ℕ)
  else 0

noncomputable def scoreRight : ℝ :=
  if bin.up ≠ bin.binEnd then
    Real.log (bin.up - bin.binStart : ℕ) + Real.log (bin.binEnd - bin.up : ℕ)
  else 0

/-- `BestSplit`. -/
noncomputable def bestSplit : ℕ := if bin.scoreLeft ≥ bin.scoreRight then bin.lb else bin.up

/-- `BestScore`. -/
noncomputable def score : ℝ := if bin.bestSplit = bin.lb then bin.scoreLeft else bin.scoreRight

def canSplit : Prop := bin.binStart ≠ bin.bestSplit ∧ bin.binEnd ≠ bin.bestSplit

def size : ℕ := bin.binEnd - bin.binStart

/-- The middle of the gap behind the bin. -/
def border : ℚ :=
  1 / 2 * features.getD (bin.binEnd - 1) 0 +
    1 / 2 * (if bin.binEnd < features.length then features.getD bin.binEnd 0 else features.getD (bin.binEnd - 1) 0)

def isLast : Bool := bin.binEnd == features.length

/-! ### Where a bin is cut -/

theorem mid_mem : bin.binStart ≤ bin.mid ∧ bin.mid < bin.binEnd := by
  have := bin.lt
  unfold mid
  omega

theorem mid_lt_length : bin.mid < features.length := bin.mid_mem.2.trans_le bin.le

theorem binStart_le_lb : bin.binStart ≤ bin.lb := Nat.le_add_right _ _

theorem lb_le_mid : bin.lb ≤ bin.mid := by
  have found := Gaps.lowerBound_le (features.extract bin.binStart bin.mid) bin.midValue
  have := bin.mid_mem
  simp only [List.extract_eq_take_drop, List.length_take, List.length_drop] at found
  unfold lb
  simp only [List.extract_eq_take_drop]
  omega

theorem mid_le_up : bin.mid ≤ bin.up := Nat.le_add_right _ _

theorem up_le_binEnd : bin.up ≤ bin.binEnd := by
  have found := Gaps.upperBound_le (features.extract bin.mid bin.binEnd) bin.midValue
  have := bin.mid_mem
  simp only [List.extract_eq_take_drop, List.length_take, List.length_drop] at found
  unfold up
  simp only [List.extract_eq_take_drop]
  omega

theorem bestSplit_mem : bin.binStart ≤ bin.bestSplit ∧ bin.bestSplit ≤ bin.binEnd := by
  have := bin.mid_mem
  have := bin.binStart_le_lb
  have := bin.lb_le_mid
  have := bin.mid_le_up
  have := bin.up_le_binEnd
  unfold bestSplit
  split <;> omega

/-- `Split()`: the left part, and what is left of the bin. -/
noncomputable def split (can : bin.canSplit) : TFeatureBin features × TFeatureBin features :=
  (⟨bin.binStart, bin.bestSplit, lt_of_le_of_ne bin.bestSplit_mem.1 can.1, bin.bestSplit_mem.2.trans bin.le⟩,
    ⟨bin.bestSplit, bin.binEnd, lt_of_le_of_ne bin.bestSplit_mem.2 can.2.symm, bin.le⟩)

/-- The bins as cells of a queue ordered by score. -/
noncomputable def splitter (features : List ℚ) : Splitter (TFeatureBin features) ℝ where
  canSplit := canSplit
  split := split
  score := score
  size := size
  size_fst_lt bin can := by
    have := (bin.split can).2.lt
    have := bin.bestSplit_mem
    simp only [size, split] at *
    omega
  size_snd_lt bin can := by
    have := (bin.split can).1.lt
    have := bin.bestSplit_mem
    simp only [size, split] at *
    omega

/-! ### Sorted columns -/

section Sorted

variable {bin : TFeatureBin features} {i j : ℕ}

theorem getD_mono (ordered : features.Pairwise (· ≤ ·)) (le : i ≤ j) (inside : j < features.length) :
    features.getD i 0 ≤ features.getD j 0 := by
  rw [List.getD_eq_getElem _ _ (le.trans_lt inside), List.getD_eq_getElem _ _ inside]
  exact getElem_le ordered le inside

theorem lt_lb_iff (ordered : features.Pairwise (· ≤ ·)) (low : bin.binStart ≤ i) (high : i < bin.mid) :
    i < bin.lb ↔ features.getD i 0 < bin.midValue := by
  have inside : i < features.length := high.trans bin.mid_lt_length
  have slice : (features.extract bin.binStart bin.mid).Pairwise (· ≤ ·) :=
    ordered.sublist ((List.take_sublist _ _).trans (List.drop_sublist _ _))
  have short : i - bin.binStart < (features.extract bin.binStart bin.mid).length := by
    simp only [List.extract_eq_take_drop, List.length_take, List.length_drop]
    omega
  have value : (features.extract bin.binStart bin.mid)[i - bin.binStart] = features.getD i 0 := by
    rw [List.getD_eq_getElem _ _ inside]
    simp only [List.extract_eq_take_drop, List.getElem_take, List.getElem_drop]
    congr 1
    omega
  rw [← value, ← Gaps.lt_lowerBound_iff slice short, lb]
  omega

theorem lt_up_iff (ordered : features.Pairwise (· ≤ ·)) (low : bin.mid ≤ i) (high : i < bin.binEnd) :
    i < bin.up ↔ features.getD i 0 ≤ bin.midValue := by
  have inside : i < features.length := high.trans_le bin.le
  have slice : (features.extract bin.mid bin.binEnd).Pairwise (· ≤ ·) :=
    ordered.sublist ((List.take_sublist _ _).trans (List.drop_sublist _ _))
  have short : i - bin.mid < (features.extract bin.mid bin.binEnd).length := by
    simp only [List.extract_eq_take_drop, List.length_take, List.length_drop]
    omega
  have value : (features.extract bin.mid bin.binEnd)[i - bin.mid] = features.getD i 0 := by
    rw [List.getD_eq_getElem _ _ inside]
    simp only [List.extract_eq_take_drop, List.getElem_take, List.getElem_drop]
    congr 1
    omega
  rw [← value, ← Gaps.lt_upperBound_iff slice short, up]
  omega

theorem mid_lt_up (bin : TFeatureBin features) (ordered : features.Pairwise (· ≤ ·)) : bin.mid < bin.up :=
  (lt_up_iff ordered le_rfl bin.mid_mem.2).mpr le_rfl

theorem lb_lt_up (bin : TFeatureBin features) (ordered : features.Pairwise (· ≤ ·)) : bin.lb < bin.up :=
  bin.lb_le_mid.trans_lt (bin.mid_lt_up ordered)

/-- The first row before the cut has a smaller value. -/
theorem rise_lb (ordered : features.Pairwise (· ≤ ·)) (moved : bin.lb ≠ bin.binStart) :
    features.getD (bin.lb - 1) 0 < features.getD bin.lb 0 := by
  have low := bin.binStart_le_lb
  have high := bin.lb_le_mid
  have before : features.getD (bin.lb - 1) 0 < bin.midValue :=
    (lt_lb_iff ordered (by omega) (by omega)).mp (by omega)
  rcases high.lt_or_eq with inside | atMid
  · exact before.trans_le (not_lt.mp fun small => lt_irrefl _ ((lt_lb_iff ordered low inside).mpr small))
  · rwa [atMid] at before ⊢

theorem rise_up (ordered : features.Pairwise (· ≤ ·)) (moved : bin.up ≠ bin.binEnd) :
    features.getD (bin.up - 1) 0 < features.getD bin.up 0 := by
  have low := bin.mid_lt_up ordered
  have high := bin.up_le_binEnd
  have before : features.getD (bin.up - 1) 0 ≤ bin.midValue :=
    (lt_up_iff ordered (by omega) (by omega)).mp (by omega)
  refine before.trans_lt (not_le.mp fun small => ?_)
  exact lt_irrefl _ ((lt_up_iff ordered low.le (by omega)).mpr small)

/-- A bin with one value. -/
def Flat (bin : TFeatureBin features) : Prop := features.getD bin.binStart 0 = features.getD (bin.binEnd - 1) 0

theorem flat_of_size (single : bin.binEnd = bin.binStart + 1) : bin.Flat := by
  rw [Flat, single, Nat.add_sub_cancel]

theorem lb_of_flat (ordered : features.Pairwise (· ≤ ·)) (flat : bin.Flat) : bin.lb = bin.binStart := by
  have mid := bin.mid_mem
  have le := bin.le
  have low := bin.binStart_le_lb
  have high := bin.lb_le_mid
  by_contra moved
  have below := (lt_lb_iff ordered le_rfl (by omega)).mp (show bin.binStart < bin.lb by omega)
  have above : bin.midValue ≤ features.getD (bin.binEnd - 1) 0 := getD_mono ordered (by omega) (by omega)
  rw [← flat] at above
  exact absurd below (not_lt.mpr above)

theorem up_of_flat (ordered : features.Pairwise (· ≤ ·)) (flat : bin.Flat) : bin.up = bin.binEnd := by
  have mid := bin.mid_mem
  have le := bin.le
  have low := bin.mid_lt_up ordered
  have high := bin.up_le_binEnd
  by_contra moved
  have above := mt (lt_up_iff ordered (show bin.mid ≤ bin.binEnd - 1 by omega) (by omega)).mpr (by omega)
  have below : features.getD bin.binStart 0 ≤ bin.midValue := getD_mono ordered (by omega) (by omega)
  rw [flat] at below
  exact above below

/-- A bin of two values is cut on one of the sides of its middle value. -/
theorem moved_of_not_flat (ordered : features.Pairwise (· ≤ ·)) (differ : ¬ bin.Flat) :
    bin.lb ≠ bin.binStart ∨ bin.up ≠ bin.binEnd := by
  have mid := bin.mid_mem
  have le := bin.le
  by_contra fixed
  push Not at fixed
  obtain ⟨left, right⟩ := fixed
  have above : bin.midValue ≤ features.getD bin.binStart 0 := by
    rcases mid.1.lt_or_eq with inside | atMid
    · exact not_lt.mp fun small => by
        have := (lt_lb_iff ordered le_rfl inside).mpr small
        omega
    · rw [atMid, midValue]
  have below : features.getD (bin.binEnd - 1) 0 ≤ bin.midValue :=
    (lt_up_iff ordered (by omega) (by omega)).mp (by omega)
  have low : features.getD bin.binStart 0 ≤ features.getD (bin.binEnd - 1) 0 := getD_mono ordered (by omega) (by omega)
  exact differ (le_antisymm low (below.trans above))

/-! ### Scores -/

/-- The number of pairs of rows that the left cut separates, 1 if it cuts nothing off. -/
def productLeft (bin : TFeatureBin features) : ℕ :=
  if bin.lb ≠ bin.binStart then (bin.lb - bin.binStart) * (bin.binEnd - bin.lb) else 1

def productRight (bin : TFeatureBin features) : ℕ :=
  if bin.up ≠ bin.binEnd then (bin.up - bin.binStart) * (bin.binEnd - bin.up) else 1

theorem log_mul_nat {x y : ℕ} (hx : 0 < x) (hy : 0 < y) : Real.log x + Real.log y = Real.log (x * y : ℕ) := by
  rw [Nat.cast_mul, Real.log_mul (Nat.cast_ne_zero.mpr hx.ne') (Nat.cast_ne_zero.mpr hy.ne')]

theorem scoreLeft_eq (bin : TFeatureBin features) : bin.scoreLeft = Real.log bin.productLeft := by
  have mid := bin.mid_mem
  have low := bin.binStart_le_lb
  have high := bin.lb_le_mid
  unfold scoreLeft productLeft
  split
  · exact log_mul_nat (by omega) (by omega)
  · simp

theorem scoreRight_eq (bin : TFeatureBin features) (ordered : features.Pairwise (· ≤ ·)) :
    bin.scoreRight = Real.log bin.productRight := by
  have mid := bin.mid_mem
  have low := bin.mid_lt_up ordered
  have high := bin.up_le_binEnd
  unfold scoreRight productRight
  split
  · exact log_mul_nat (by omega) (by omega)
  · simp

theorem productLeft_pos (bin : TFeatureBin features) : 0 < bin.productLeft := by
  have mid := bin.mid_mem
  have low := bin.binStart_le_lb
  have high := bin.lb_le_mid
  unfold productLeft
  split
  · exact Nat.mul_pos (by omega) (by omega)
  · exact Nat.one_pos

theorem productRight_pos (ordered : features.Pairwise (· ≤ ·)) : 0 < bin.productRight := by
  have mid := bin.mid_mem
  have low := bin.mid_lt_up ordered
  have high := bin.up_le_binEnd
  unfold productRight
  split
  · exact Nat.mul_pos (by omega) (by omega)
  · exact Nat.one_pos

/-- The scores compare as the products do. -/
theorem bestSplit_eq (ordered : features.Pairwise (· ≤ ·)) :
    bin.bestSplit = if bin.productRight ≤ bin.productLeft then bin.lb else bin.up := by
  have same : bin.scoreLeft ≥ bin.scoreRight ↔ bin.productRight ≤ bin.productLeft := by
    rw [ge_iff_le, scoreLeft_eq, scoreRight_eq bin ordered,
      Real.log_le_log_iff (Nat.cast_pos.mpr (productRight_pos ordered)) (Nat.cast_pos.mpr bin.productLeft_pos),
      Nat.cast_le]
  simp only [bestSplit, same]

theorem score_eq (ordered : features.Pairwise (· ≤ ·)) :
    bin.score = Real.log (max bin.productLeft bin.productRight : ℕ) := by
  have lt := bin.lb_lt_up ordered
  unfold score
  rw [bestSplit_eq ordered, scoreLeft_eq, scoreRight_eq bin ordered]
  by_cases le : bin.productRight ≤ bin.productLeft
  · rw [if_pos le, if_pos rfl, max_eq_left le]
  · rw [if_neg le, if_neg lt.ne', max_eq_right (Nat.le_of_not_le le)]

theorem product_of_flat (ordered : features.Pairwise (· ≤ ·)) (flat : bin.Flat) :
    bin.productLeft = 1 ∧ bin.productRight = 1 := by
  unfold productLeft productRight
  rw [lb_of_flat ordered flat, up_of_flat ordered flat]
  simp

/-- Two factors, one of them at least two. -/
theorem one_lt_mul {x y : ℕ} (hx : 0 < x) (hy : 0 < y) (large : 3 ≤ x + y) : 1 < x * y := by
  nlinarith

/-- **Where a bin of two values is cut.** -/
theorem bestSplit_cases (ordered : features.Pairwise (· ≤ ·)) (differ : ¬ bin.Flat) :
    (bin.bestSplit = bin.lb ∧ bin.lb ≠ bin.binStart) ∨ (bin.bestSplit = bin.up ∧ bin.up ≠ bin.binEnd) := by
  have half : bin.mid = (bin.binStart + bin.binEnd) / 2 := rfl
  have lt := bin.lt
  have low := bin.mid_lt_up ordered
  have high := bin.up_le_binEnd
  rw [bestSplit_eq ordered]
  have moved := moved_of_not_flat ordered differ
  by_cases left : bin.lb = bin.binStart
  · -- the right cut leaves three rows or more, so its product is larger
    have right := moved.resolve_left (not_not.mpr left)
    have first : bin.productLeft = 1 := by
      rw [productLeft, if_neg (not_not.mpr left)]
    have second : 1 < bin.productRight := by
      rw [productRight, if_pos right]
      refine one_lt_mul ?_ ?_ ?_ <;> omega
    rw [first, if_neg (by omega)]
    exact .inr ⟨rfl, right⟩
  · by_cases right : bin.up = bin.binEnd
    · have second : bin.productRight = 1 := by
        rw [productRight, if_neg (not_not.mpr right)]
      rw [second, if_pos (Nat.succ_le_of_lt bin.productLeft_pos)]
      exact .inl ⟨rfl, left⟩
    · split
      · exact .inl ⟨rfl, left⟩
      · exact .inr ⟨rfl, right⟩

/-- **A bin can be split** iff it has two values. -/
theorem canSplit_iff (ordered : features.Pairwise (· ≤ ·)) : bin.canSplit ↔ ¬ bin.Flat := by
  have mid := bin.mid_mem
  constructor
  · rintro ⟨left, -⟩ flat
    obtain ⟨first, second⟩ := product_of_flat ordered flat
    rw [bestSplit_eq ordered, first, second, if_pos le_rfl, lb_of_flat ordered flat] at left
    exact left rfl
  · intro differ
    rcases bestSplit_cases ordered differ with ⟨eq, moved⟩ | ⟨eq, moved⟩
    · have := bin.lb_le_mid
      exact ⟨by omega, by omega⟩
    · have := bin.mid_lt_up ordered
      exact ⟨by omega, by omega⟩

theorem rise_bestSplit (ordered : features.Pairwise (· ≤ ·)) (can : bin.canSplit) :
    features.getD (bin.bestSplit - 1) 0 < features.getD bin.bestSplit 0 := by
  rcases bestSplit_cases ordered ((canSplit_iff ordered).mp can) with ⟨eq, moved⟩ | ⟨eq, moved⟩
  · rw [eq]
    exact rise_lb ordered moved
  · rw [eq]
    exact rise_up ordered moved

theorem score_nonneg (ordered : features.Pairwise (· ≤ ·)) : 0 ≤ bin.score := by
  rw [score_eq ordered]
  exact Real.log_natCast_nonneg _

/-- **Pairs have score 0**: only bins of three or more rows and two values have a positive one. -/
theorem score_pos_iff (ordered : features.Pairwise (· ≤ ·)) : 0 < bin.score ↔ bin.canSplit ∧ 3 ≤ bin.size := by
  have mid := bin.mid_mem
  rw [score_eq ordered, canSplit_iff ordered, Real.log_pos_iff (Nat.cast_nonneg _), Nat.one_lt_cast, lt_max_iff]
  constructor
  · intro large
    have differ : ¬ bin.Flat := by
      intro flat
      obtain ⟨first, second⟩ := product_of_flat ordered flat
      omega
    refine ⟨differ, ?_⟩
    by_contra small
    have half : bin.mid = (bin.binStart + bin.binEnd) / 2 := rfl
    have several : bin.binEnd ≠ bin.binStart + 1 := fun single => differ (flat_of_size single)
    have low := bin.binStart_le_lb
    have high := bin.lb_le_mid
    have := bin.mid_lt_up ordered
    have := bin.up_le_binEnd
    unfold size at small
    rcases large with left | right
    · rw [productLeft] at left
      split at left
      · have here : bin.lb = bin.binStart + 1 := by omega
        have there : bin.binEnd = bin.binStart + 2 := by omega
        simp [here, there] at left
      · omega
    · rw [productRight, if_neg (by omega)] at right
      omega
  · rintro ⟨differ, rows⟩
    unfold size at rows
    rcases moved_of_not_flat ordered differ with left | right
    · left
      have := bin.binStart_le_lb
      have := bin.lb_le_mid
      rw [productLeft, if_pos left]
      refine one_lt_mul ?_ ?_ ?_ <;> omega
    · right
      have := bin.mid_lt_up ordered
      have := bin.up_le_binEnd
      rw [productRight, if_pos right]
      refine one_lt_mul ?_ ?_ ?_ <;> omega

/-! ### Levels -/

/-- The number of different values of a bin. -/
def levels (bin : TFeatureBin features) : ℕ := ((Finset.Ico bin.binStart bin.binEnd).image (features.getD · 0)).card

theorem levels_of_flat (ordered : features.Pairwise (· ≤ ·)) (flat : bin.Flat) : bin.levels = 1 := by
  have lt := bin.lt
  have le := bin.le
  rw [levels, Finset.card_eq_one]
  refine ⟨features.getD bin.binStart 0, Finset.eq_singleton_iff_unique_mem.mpr ⟨?_, fun v mem => ?_⟩⟩
  · exact Finset.mem_image_of_mem _ (Finset.mem_Ico.mpr ⟨le_rfl, lt⟩)
  · obtain ⟨i, inside, rfl⟩ := Finset.mem_image.mp mem
    obtain ⟨low, high⟩ := Finset.mem_Ico.mp inside
    refine le_antisymm ?_ (getD_mono ordered low (by omega))
    rw [flat]
    exact getD_mono ordered (by omega) (by omega)

/-- The parts have no value in common. -/
theorem levels_split (ordered : features.Pairwise (· ≤ ·)) (can : bin.canSplit) :
    bin.levels = (bin.split can).1.levels + (bin.split can).2.levels := by
  have le := bin.le
  have rise := rise_bestSplit ordered can
  obtain ⟨low, high⟩ := bin.bestSplit_mem
  have union := Finset.Ico_union_Ico_eq_Ico low high
  rw [levels, ← union, Finset.image_union, Finset.card_union_of_disjoint]
  · rfl
  · refine Finset.disjoint_left.mpr fun v left right => ?_
    obtain ⟨i, before, rfl⟩ := Finset.mem_image.mp left
    obtain ⟨j, behind, same⟩ := Finset.mem_image.mp right
    have before := (Finset.mem_Ico.mp before).2
    have behind := Finset.mem_Ico.mp behind
    have first : features.getD i 0 ≤ features.getD (bin.bestSplit - 1) 0 := getD_mono ordered (by omega) (by omega)
    have second : features.getD bin.bestSplit 0 ≤ features.getD j 0 := getD_mono ordered behind.1 (by omega)
    exact absurd same ((first.trans_lt rise).trans_le second).ne'

/-- A bin of score 0 has at most two rows or one value. -/
theorem shallow (ordered : features.Pairwise (· ≤ ·)) : Shallow (splitter features) levels where
  nonneg _ := score_nonneg ordered
  able _ pos := ((score_pos_iff ordered).mp pos).1
  atoms bin can zero := by
    have short : ¬ 3 ≤ bin.size := fun rows => zero ((score_pos_iff ordered).mpr ⟨can, rows⟩)
    have left := (bin.split can).1.lt
    have right := (bin.split can).2.lt
    unfold size at short
    have first : (bin.split can).1.Flat := flat_of_size (by simp only [split] at *; omega)
    have second : (bin.split can).2.Flat := flat_of_size (by simp only [split] at *; omega)
    exact ⟨fun can => (canSplit_iff ordered).mp can first, fun can => (canSplit_iff ordered).mp can second⟩
  count_atom bin cannot := by
    refine levels_of_flat ordered ?_
    by_contra differ
    exact cannot ((canSplit_iff ordered).mpr differ)
  count_split _ can := levels_split ordered can

/-! ### Tilings -/

/-- The bins of a queue: they do not overlap, one of them is the last one, and the values rise
behind every other one. -/
structure Tiles (q : List (TFeatureBin features)) : Prop where
  apart : q.Pairwise fun a b => a.binEnd ≤ b.binStart ∨ b.binEnd ≤ a.binStart
  last : ∃ bin ∈ q, bin.isLast
  rise : ∀ bin ∈ q, ¬ bin.isLast → features.getD (bin.binEnd - 1) 0 < features.getD bin.binEnd 0

variable {q q' : List (TFeatureBin features)}

theorem Tiles.perm (perm : q.Perm q') (tiles : Tiles q) : Tiles q' := by
  obtain ⟨bin, mem, last⟩ := tiles.last
  refine ⟨perm.pairwise tiles.apart fun apart => apart.symm, ⟨bin, perm.mem_iff.mp mem, last⟩, ?_⟩
  intro other listed
  exact tiles.rise other (perm.mem_iff.mpr listed)

/-- **A split keeps the tiling.** -/
theorem Tiles.step (ordered : features.Pairwise (· ≤ ·)) (can : bin.canSplit) (tiles : Tiles (bin :: q)) :
    Tiles ((bin.split can).2 :: (bin.split can).1 :: q) := by
  obtain ⟨others, apart⟩ := List.pairwise_cons.mp tiles.apart
  obtain ⟨low, high⟩ := bin.bestSplit_mem
  refine ⟨?_, ?_, ?_⟩
  · refine List.pairwise_cons.mpr ⟨fun other mem => ?_, List.pairwise_cons.mpr ⟨fun other mem => ?_, apart⟩⟩
    · rcases List.mem_cons.mp mem with rfl | mem
      · exact .inr le_rfl
      · exact (others other mem).imp id fun le => le.trans low
    · exact (others other mem).imp (fun le => high.trans le) id
  · obtain ⟨last, mem, isLast⟩ := tiles.last
    rcases List.mem_cons.mp mem with rfl | mem
    · exact ⟨_, List.mem_cons_self, isLast⟩
    · exact ⟨last, List.mem_cons_of_mem _ (List.mem_cons_of_mem _ mem), isLast⟩
  · intro other mem inner
    rcases List.mem_cons.mp mem with rfl | mem
    · exact tiles.rise bin List.mem_cons_self inner
    · rcases List.mem_cons.mp mem with rfl | mem
      · exact rise_bestSplit ordered can
      · exact tiles.rise other (List.mem_cons_of_mem _ mem) inner

end Sorted

end TFeatureBin

/-! ### The binarizer -/

section Binarizer

variable {features values : List ℚ} {bin : TFeatureBin features} {q q' : List (TFeatureBin features)} {b : ℚ}

/-- The bin with all rows. -/
def wholeBin (features : List ℚ) (some : features ≠ []) : TFeatureBin features :=
  ⟨0, features.length, List.length_pos_of_ne_nil some, le_rfl⟩

/-- The borders of all bins but the last one. -/
def collectBorders (splits : List (TFeatureBin features)) : Finset ℚ :=
  ((splits.filter fun bin => !bin.isLast).map TFeatureBin.border).toFinset

theorem sortValues_ne_nil (some : values ≠ []) : sortValues values ≠ [] := by
  intro none
  have short := length_sortValues values
  rw [none] at short
  exact some (List.length_eq_zero_iff.mp short.symm)

/-- `TMedianInBinBinarizer::BestSplit`. The first bin reads a value, so there must be one. The
priority queue gives a bin of highest score; `top` is its choice. -/
noncomputable def medianInBinBestSplit (values : List ℚ) (some : values ≠ [])
    (top : List (TFeatureBin (sortValues values)) → TFeatureBin (sortValues values)) (bordersCount : ℕ) : Finset ℚ :=
  collectBorders (run (TFeatureBin.splitter (sortValues values)) top bordersCount
    [wholeBin (sortValues values) (sortValues_ne_nil some)])

theorem border_eq (inner : ¬ bin.isLast) :
    bin.border = (features.getD (bin.binEnd - 1) 0 + features.getD bin.binEnd 0) / 2 := by
  have le := bin.le
  have differ : bin.binEnd ≠ features.length := by
    simpa [TFeatureBin.isLast] using inner
  rw [TFeatureBin.border, if_pos (by omega)]
  ring

/-- The borders of a tiling lie in gaps. -/
theorem isMidpoint_border (ordered : features.Pairwise (· ≤ ·)) (inner : ¬ bin.isLast)
    (rise : features.getD (bin.binEnd - 1) 0 < features.getD bin.binEnd 0) : IsMidpoint features bin.border := by
  have lt := bin.lt
  have le := bin.le
  have differ : bin.binEnd ≠ features.length := by
    simpa [TFeatureBin.isLast] using inner
  have before : bin.binEnd - 1 + 1 = bin.binEnd := by omega
  refine ⟨_, _, ?_, border_eq inner⟩
  rw [List.getD_eq_getElem _ _ (by omega), List.getD_eq_getElem _ _ (by omega)] at rise ⊢
  have adjacent := adjacent_of_lt ordered (show bin.binEnd - 1 + 1 < features.length by omega)
  simp only [before] at adjacent
  exact adjacent rise

/-- Different bins of a tiling end at different values. -/
theorem border_lt {other : TFeatureBin features} (ordered : features.Pairwise (· ≤ ·))
    (before : bin.binEnd ≤ other.binStart) (inner : ¬ bin.isLast) (inner' : ¬ other.isLast)
    (rise : features.getD (bin.binEnd - 1) 0 < features.getD bin.binEnd 0)
    (rise' : features.getD (other.binEnd - 1) 0 < features.getD other.binEnd 0) : bin.border < other.border := by
  have lt := other.lt
  have le := other.le
  have between : features.getD bin.binEnd 0 ≤ features.getD (other.binEnd - 1) 0 :=
    TFeatureBin.getD_mono ordered (by omega) (by omega)
  rw [border_eq inner, border_eq inner']
  linarith

theorem collectBorders_perm (perm : q.Perm q') : collectBorders q = collectBorders q' :=
  List.toFinset_eq_of_perm _ _ ((perm.filter _).map _)

/-- **Every bin but the last one has a border of its own.** -/
theorem card_collectBorders (ordered : features.Pairwise (· ≤ ·)) (tiles : TFeatureBin.Tiles q) :
    (collectBorders q).card = q.length - 1 := by
  classical
  obtain ⟨last, mem, isLast⟩ := tiles.last
  have perm := List.perm_cons_erase mem
  have tiles := tiles.perm perm
  obtain ⟨others, apart⟩ := List.pairwise_cons.mp tiles.apart
  have inner : ∀ bin ∈ q.erase last, ¬ bin.isLast := by
    intro bin listed stops
    have lt := bin.lt
    have lt' := last.lt
    simp only [TFeatureBin.isLast, beq_iff_eq] at stops isLast
    rcases others bin listed with le | le <;> omega
  have kept : (q.erase last).filter (fun bin => !bin.isLast) = q.erase last := by
    refine List.filter_eq_self.mpr fun bin listed => ?_
    simpa using inner bin listed
  have distinct : ((q.erase last).map TFeatureBin.border).Nodup := by
    rw [List.Nodup, List.pairwise_map]
    refine apart.imp_of_mem fun here there disjoint => ?_
    have rise := tiles.rise _ (List.mem_cons_of_mem _ here) (inner _ here)
    have rise' := tiles.rise _ (List.mem_cons_of_mem _ there) (inner _ there)
    rcases disjoint with le | le
    · exact (border_lt ordered le (inner _ here) (inner _ there) rise rise').ne
    · exact (border_lt ordered le (inner _ there) (inner _ here) rise' rise).ne'
  rw [collectBorders_perm perm, collectBorders, List.filter_cons_of_neg (by simpa using isLast), kept,
    List.toFinset_card_of_nodup distinct, List.length_map, List.length_erase_of_mem mem]

theorem tiles_whole (some : features ≠ []) : TFeatureBin.Tiles [wholeBin features some] := by
  refine ⟨List.pairwise_singleton _ _, ⟨_, List.mem_singleton_self _, ?_⟩, fun bin mem inner => absurd ?_ inner⟩
  · exact beq_self_eq_true _
  · rw [List.mem_singleton.mp mem]
    exact beq_self_eq_true _

/-- The queue is a tiling at every time. -/
theorem tiles_run (ordered : features.Pairwise (· ≤ ·)) (some : features ≠ [])
    {top : List (TFeatureBin features) → TFeatureBin features} (chooses : Chooses TFeatureBin.score top)
    (bordersCount : ℕ) :
    TFeatureBin.Tiles (run (TFeatureBin.splitter features) top bordersCount [wholeBin features some]) :=
  run_induct chooses (fun _ _ => TFeatureBin.Tiles.perm) (fun _ _ can => TFeatureBin.Tiles.step ordered can)
    (List.cons_ne_nil _ _) (tiles_whole some)

theorem levels_whole (some : features ≠ []) : (wholeBin features some).levels = features.dedup.length := by
  rw [← List.card_toFinset, TFeatureBin.levels]
  congr 1
  ext v
  simp only [wholeBin, Finset.mem_image, Finset.mem_Ico, Nat.zero_le, true_and, List.mem_toFinset]
  constructor
  · rintro ⟨i, inside, rfl⟩
    rw [List.getD_eq_getElem _ _ inside]
    exact List.getElem_mem _
  · intro mem
    obtain ⟨i, inside, rfl⟩ := List.mem_iff_getElem.mp mem
    exact ⟨i, inside, List.getD_eq_getElem _ _ inside⟩

/-- One border less than there are bins. -/
theorem card_medianInBinBestSplit (some : values ≠ [])
    {top : List (TFeatureBin (sortValues values)) → TFeatureBin (sortValues values)}
    (chooses : Chooses TFeatureBin.score top) (bordersCount : ℕ) :
    (medianInBinBestSplit values some top bordersCount).card + 1 =
      (run (TFeatureBin.splitter (sortValues values)) top bordersCount
        [wholeBin (sortValues values) (sortValues_ne_nil some)]).length := by
  have ordered := pairwise_sortValues values
  have tiles := tiles_run ordered (sortValues_ne_nil some) chooses bordersCount
  obtain ⟨bin, mem, -⟩ := tiles.last
  have pos := List.length_pos_of_mem mem
  rw [medianInBinBestSplit, card_collectBorders ordered tiles]
  omega

theorem levels_wholeBin_sortValues (some : values ≠ []) :
    (wholeBin (sortValues values) (sortValues_ne_nil some)).levels = values.dedup.length := by
  rw [levels_whole, ← List.card_toFinset, ← List.card_toFinset, List.toFinset_eq_of_perm _ _ (sortValues_perm values)]

/-- The budget is used up iff the run of the queue is long enough. -/
theorem card_eq_min_iff (values : List ℚ) (some : values ≠ []) (bordersCount : ℕ) :
    (∀ top, Chooses TFeatureBin.score top →
        (medianInBinBestSplit values some top bordersCount).card = min bordersCount (values.dedup.length - 1)) ↔
      Suffices (TFeatureBin.splitter (sortValues values)) bordersCount
        (wholeBin (sortValues values) (sortValues_ne_nil some)) := by
  rw [← (TFeatureBin.shallow (pairwise_sortValues values)).run_length_iff]
  refine forall_congr' fun top => forall_congr' fun chooses => ?_
  have card := card_medianInBinBestSplit some chooses bordersCount
  have pos : 0 < values.dedup.length := List.length_pos_of_ne_nil (mt (List.dedup_eq_nil values).mp some)
  rw [← card, levels_wholeBin_sortValues some]
  omega

/-- The bins that are left when every bin of positive score is split: one of three or more rows
that can be split (`TFeatureBin.score_pos_iff`). -/
noncomputable def cells (values : List ℚ) (some : values ≠ []) : List (TFeatureBin (sortValues values)) :=
  leaves (TFeatureBin.splitter (sortValues values)) (wholeBin (sortValues values) (sortValues_ne_nil some))

/-- **When the greedy binarizer uses its budget up**, whatever the queue chooses among bins of equal
score: the budget is smaller than the number of cells, or no cell can be split, or all of them
can and there is one only or the budget allows one more split only. -/
theorem medianInBin_usesBudget_iff (values : List ℚ) (some : values ≠ []) (bordersCount : ℕ) :
    (∀ top, Chooses TFeatureBin.score top →
        (medianInBinBestSplit values some top bordersCount).card = min bordersCount (values.dedup.length - 1)) ↔
      bordersCount < (cells values some).length ∨ (∀ bin ∈ cells values some, ¬ bin.canSplit) ∨
        ((∀ bin ∈ cells values some, bin.canSplit) ∧
          ((cells values some).length = 1 ∨ bordersCount = (cells values some).length)) :=
  card_eq_min_iff values some bordersCount

theorem leaves_of_size_lt (bin : TFeatureBin features) (ordered : features.Pairwise (· ≤ ·)) (short : bin.size < 3) :
    leaves (TFeatureBin.splitter features) bin = [bin] :=
  leaves_of_not_pos fun pos => absurd ((TFeatureBin.score_pos_iff ordered).mp pos).2 (Nat.not_le.mpr short)

/-- Two values are one cell, which can be split. -/
theorem medianInBin_usesBudget_twoValues :
    (cells [1, 2] (List.cons_ne_nil _ _)).length = 1 ∧
      ∀ top, Chooses TFeatureBin.score top →
        (medianInBinBestSplit [1, 2] (List.cons_ne_nil _ _) top 1).card =
          min 1 (([1, 2] : List ℚ).dedup.length - 1) := by
  have ordered := pairwise_sortValues [1, 2]
  have single : cells [1, 2] (List.cons_ne_nil _ _) =
      [wholeBin (sortValues [1, 2]) (sortValues_ne_nil (List.cons_ne_nil _ _))] :=
    leaves_of_size_lt _ ordered (by decide)
  have one : (cells [1, 2] (List.cons_ne_nil _ _)).length = 1 := by
    rw [single]
    rfl
  refine ⟨one, (medianInBin_usesBudget_iff [1, 2] (List.cons_ne_nil _ _) 1).mpr (.inr (.inr ⟨?_, .inl one⟩))⟩
  intro bin mem
  rw [single] at mem
  rw [List.mem_singleton.mp mem, TFeatureBin.canSplit_iff ordered]
  show ¬ (sortValues [1, 2]).getD 0 0 = (sortValues [1, 2]).getD 1 0
  decide +kernel

/-- Three values and two borders: the bins `[1]` and `[2, 3]` have the same score 0, and the queue
may give the first one, which cannot be split. -/
theorem medianInBin_losesBorder :
    ¬ ∀ top, Chooses TFeatureBin.score top →
      (medianInBinBestSplit [1, 2, 3] (List.cons_ne_nil _ _) top 2).card =
        min 2 (([1, 2, 3] : List ℚ).dedup.length - 1) := by
  rw [card_eq_min_iff]
  have ordered := pairwise_sortValues [1, 2, 3]
  set whole := wholeBin (sortValues [1, 2, 3]) (sortValues_ne_nil (List.cons_ne_nil _ _))
  have can : whole.canSplit := by
    rw [TFeatureBin.canSplit_iff ordered]
    show ¬ (sortValues [1, 2, 3]).getD 0 0 = (sortValues [1, 2, 3]).getD 2 0
    decide +kernel
  have pos : 0 < whole.score := (TFeatureBin.score_pos_iff ordered).mpr ⟨can, by decide⟩
  have cut : whole.bestSplit = 1 := by
    rw [TFeatureBin.bestSplit_eq ordered]
    decide +kernel
  set one := (whole.split can).1 with first
  set pair := (whole.split can).2 with second
  have parts : leaves (TFeatureBin.splitter _) whole = [one, pair] := by
    have small : one.size < 3 := by
      simp only [first, TFeatureBin.split, TFeatureBin.size, cut]
      decide
    have small' : pair.size < 3 := by
      simp only [second, TFeatureBin.split, TFeatureBin.size, cut]
      decide
    rw [leaves_of_pos pos can]
    exact congrArg₂ _ (leaves_of_size_lt one ordered small) (leaves_of_size_lt pair ordered small')
  have stuck : ¬ one.canSplit := by
    rw [TFeatureBin.canSplit_iff ordered, not_not, first]
    exact TFeatureBin.flat_of_size cut
  have able : pair.canSplit := by
    rw [TFeatureBin.canSplit_iff ordered, second]
    show ¬ (sortValues [1, 2, 3]).getD whole.bestSplit 0 = (sortValues [1, 2, 3]).getD 2 0
    rw [cut]
    decide +kernel
  rintro (many | none | ⟨all, -⟩)
  · rw [parts] at many
    exact absurd many (Nat.lt_irrefl 2)
  · exact none pair (by rw [parts]; simp) able
  · exact stuck (all one (by rw [parts]; simp))

end Binarizer

end Cmicot
