import Cmicot.Grid.MedianInBin
import Cmicot.Grid.AnyPenalty

/-!
The binarizers that can be selected (`grid_creator/binarization.cpp`, `options.cpp`).

`minEntropy` and `maxSumLog` run the dynamic programme on the different values of the column;
with few values some of its thresholds point behind the last one and are skipped. With the
quantiles, the uniform grid and the greedy queue there are five binarizers, and all of them put
their borders into the middle of gaps.

* `useful_splitWithGuaranteedOptimum`: the borders made of thresholds.
* `Useful.bins`: borders in gaps give bins that are not constant and differ from each other.
* `binarizer_useful`: all five binarizers.
* `EBinarizer.bestSplit_perm`, `EBinarizer.Fills.perm`: none of them sees the order of the column.
-/

namespace Cmicot

open Loop Splitting
open Gaps

/-! ### Definitions -/

/-- One value of the loop that collects the different values and counts them. -/
def addValue (st : List ℚ × List ℚ) (f : ℚ) : List ℚ × List ℚ :=
  let (features, weights) := st
  if features = [] ∨ features.getLastD 0 ≠ f then (features ++ [f], weights ++ [1])
  else (features, weights.dropLast ++ [weights.getLastD 0 + 1])

section Guaranteed

variable {R : Type} [Zero R] [Add R] [Sub R] [LinearOrder R]

/-- `BestSplit(values, weight, bordersCount, type)`. -/
def bestSplitBorders (penalty : ℚ → R) (eps : R) (values weight : List ℚ) (bordersCount : ℕ) :
    Except Grid.Fault (Finset ℚ) := do
  let thresholds ← Grid.bestSplit .rlm2 penalty eps weight bordersCount
  thresholds.foldlM
    (fun borders t => do
      if t + 1 ≠ values.length then
        return insert (((← Grid.read values t) + (← Grid.read values (t + 1))) / 2) borders
      return borders)
    ∅

/-- `SplitWithGuaranteedOptimum(featureValues, bordersCount, type, isSorted)`. -/
def splitWithGuaranteedOptimum (penalty : ℚ → R) (eps : R) (featureValues : List ℚ) (bordersCount : ℕ) :
    Except Grid.Fault (Finset ℚ) :=
  let (features, weights) := (sortValues featureValues).foldl addValue ([], [])
  bestSplitBorders penalty eps features weights bordersCount

end Guaranteed

/-- The names that `--binarization` takes. -/
inductive EBinarizer
  | medianPlusUniform
  | median
  | minEntropy
  | medianInBin
  | maxSumLog
deriving DecidableEq, Repr

/-- `Binarizer->BestSplit(featureValues, bordersCount)`. -/
noncomputable def EBinarizer.bestSplit (penalty : Grid.EPenaltyType → ℚ → ℝ) (values : List ℚ) (some : values ≠ [])
    (top : List (TFeatureBin (sortValues values)) → TFeatureBin (sortValues values)) (bordersCount : ℕ) :
    EBinarizer → Except Grid.Fault (Finset ℚ)
  | medianPlusUniform => .ok (medianPlusUniformBestSplit values bordersCount)
  | median => .ok (medianBestSplit values bordersCount)
  | minEntropy => splitWithGuaranteedOptimum (penalty .minEntropy) (1 / 10 ^ 12) values bordersCount
  | medianInBin => .ok (medianInBinBestSplit values some top bordersCount)
  | maxSumLog => splitWithGuaranteedOptimum (penalty .maxSumLog) (1 / 10 ^ 12) values bordersCount

/-! ### The different values -/

section Runs

variable {sorted features weights : List ℚ}

/-- The different values in order, with a weight for each. -/
structure Runs (sorted : List ℚ) (st : List ℚ × List ℚ) : Prop where
  size : st.1.length = st.2.length
  increasing : st.1.Pairwise (· < ·)
  mem_iff : ∀ v, v ∈ st.1 ↔ v ∈ sorted

theorem getLastD_mem {xs : List ℚ} (some : xs ≠ []) : xs.getLastD 0 ∈ xs := by
  rw [List.getLastD_eq_getLast?, List.getLast?_eq_some_getLast some]
  exact List.getLast_mem some

theorem runs_addValue {st : List ℚ × List ℚ} {f : ℚ} (runs : Runs sorted st) (above : ∀ v ∈ sorted, v ≤ f) :
    Runs (sorted ++ [f]) (addValue st f) := by
  obtain ⟨features, weights⟩ := st
  have size : features.length = weights.length := runs.size
  have mem_iff : ∀ v, v ∈ features ↔ v ∈ sorted := runs.mem_iff
  have increasing : features.Pairwise (· < ·) := runs.increasing
  unfold addValue
  simp only
  split
  case isTrue fresh =>
    refine ⟨?_, List.pairwise_append.mpr ⟨increasing, List.pairwise_singleton _ _, fun v mem w last => ?_⟩, fun v => ?_⟩
    · show (features ++ [f]).length = (weights ++ [1]).length
      rw [List.length_append, List.length_append, size]
      rfl
    · rw [List.mem_singleton.mp last]
      have some : features ≠ [] := List.ne_nil_of_mem mem
      have differ := fresh.resolve_left some
      have le := le_getLastD (increasing.imp fun lt => le_of_lt lt) mem
      exact le.trans_lt (lt_of_le_of_ne (above _ ((mem_iff _).mp (getLastD_mem some))) differ)
    · rw [List.mem_append, List.mem_append, mem_iff]
  case isFalse again =>
    push Not at again
    obtain ⟨some, same⟩ := again
    refine ⟨?_, increasing, fun v => ?_⟩
    · have pos := List.length_pos_of_ne_nil some
      show features.length = (weights.dropLast ++ [weights.getLastD 0 + 1]).length
      rw [List.length_append, List.length_dropLast, List.length_singleton]
      omega
    · rw [List.mem_append, List.mem_singleton, ← mem_iff]
      refine ⟨.inl, fun either => either.elim id fun eq => ?_⟩
      rw [eq, ← same]
      exact getLastD_mem some

theorem runs_foldl (ordered : sorted.Pairwise (· ≤ ·)) : Runs sorted (sorted.foldl addValue ([], [])) := by
  induction sorted using List.reverseRecOn with
  | nil => exact ⟨rfl, List.Pairwise.nil, fun _ => Iff.rfl⟩
  | append_singleton before f ih =>
    obtain ⟨ordered, -, above⟩ := List.pairwise_append.mp ordered
    rw [List.foldl_append]
    exact runs_addValue (ih ordered) fun v mem => above v mem f (List.mem_singleton_self f)

end Runs

/-! ### Useful borders -/

section Useful

variable {values : List ℚ} {bordersCount : ℕ} {borders : Finset ℚ} {b b' : ℚ}

/-- Not more borders than asked for, each in the middle of a gap. -/
structure Useful (values : List ℚ) (bordersCount : ℕ) (borders : Finset ℚ) : Prop where
  card_le : borders.card ≤ bordersCount
  isMidpoint : ∀ b ∈ borders, IsMidpoint values b

theorem isMidpoint_sortValues : IsMidpoint (sortValues values) b ↔ IsMidpoint values b :=
  exists₂_congr fun _ _ => and_congr_left fun _ => adjacent_sortValues

theorem useful_medianPlusUniform : Useful values bordersCount (medianPlusUniformBestSplit values bordersCount) := by
  refine ⟨card_medianPlusUniformBestSplit_le, fun b mem => ?_⟩
  obtain ⟨a, c, adjacent, eq, -⟩ := mem_medianPlusUniformBestSplit.mp mem
  exact ⟨a, c, adjacent, eq⟩

theorem useful_median : Useful values bordersCount (medianBestSplit values bordersCount) := by
  refine ⟨card_generateMedianBorders_le _ _, fun b mem => ?_⟩
  obtain ⟨a, c, adjacent, eq, -⟩ := mem_medianBestSplit.mp mem
  exact ⟨a, c, adjacent, eq⟩

theorem useful_medianInBin (some : values ≠ [])
    {top : List (TFeatureBin (sortValues values)) → TFeatureBin (sortValues values)}
    (chooses : Chooses TFeatureBin.score top) :
    Useful values bordersCount (medianInBinBestSplit values some top bordersCount) := by
  have ordered := pairwise_sortValues values
  refine ⟨?_, fun b mem => isMidpoint_sortValues.mp ?_⟩
  · have card := card_medianInBinBestSplit some chooses bordersCount
    have le : (run (TFeatureBin.splitter (sortValues values)) top bordersCount
        [wholeBin _ (sortValues_ne_nil some)]).length ≤ bordersCount + 1 :=
      length_run_le chooses (List.cons_ne_nil _ _) (Nat.succ_le_succ (Nat.zero_le _))
    omega
  · have tiles := tiles_run ordered (sortValues_ne_nil some) chooses bordersCount
    obtain ⟨bin, listed, rfl⟩ := List.mem_map.mp (List.mem_toFinset.mp mem)
    obtain ⟨listed, inner⟩ := List.mem_filter.mp listed
    have inner : ¬ bin.isLast := by simpa using inner
    exact isMidpoint_border ordered inner (tiles.rise bin listed inner)

/-- The borders behind thresholds of increasing values lie in gaps; the threshold at the last value is
skipped. -/
theorem useful_thresholds {features : List ℚ} {ts : List ℕ} (increasing : features.Pairwise (· < ·))
    (same : ∀ v, v ∈ features ↔ v ∈ values) (inside : ∀ t ∈ ts, t < features.length) :
    ∃ borders, ts.foldlM (fun (borders : Finset ℚ) t => do
        if t + 1 ≠ features.length then
          return insert (((← Grid.read features t) + (← Grid.read features (t + 1))) / 2) borders
        return borders) ∅ = .ok borders ∧
      Useful values ts.length borders := by
  refine foldlM_ok (P := fun done borders => Useful values done.length borders) ⟨le_rfl, by simp⟩ ?_
  intro done t borders mem _ useful
  rw [List.length_append, List.length_singleton]
  by_cases last : t + 1 = features.length
  · refine ⟨borders, ?_, useful.card_le.trans (Nat.le_succ _), useful.isMidpoint⟩
    rw [if_neg (not_not.mpr last)]
    rfl
  · have here := inside t mem
    have next : t + 1 < features.length := by omega
    refine ⟨insert ((features[t] + features[t + 1]) / 2) borders, ?_, ?_, fun b listed => ?_⟩
    · rw [if_pos last, Grid.read_ok (List.getElem?_eq_getElem here), Grid.read_ok (List.getElem?_eq_getElem next)]
      rfl
    · exact (Finset.card_insert_le _ _).trans (Nat.succ_le_succ useful.card_le)
    · rcases Finset.mem_insert.mp listed with rfl | listed
      · have rise := List.pairwise_iff_getElem.mp increasing t (t + 1) here next (Nat.lt_succ_self t)
        have adjacent := adjacent_of_lt (increasing.imp fun lt => le_of_lt lt) next rise
        exact ⟨_, _, adjacent.congr same, rfl⟩
      · exact useful.isMidpoint b listed

/-- **The dynamic programme** puts its borders into gaps for any penalty. -/
theorem useful_splitWithGuaranteedOptimum {R : Type} [Zero R] [Add R] [Sub R] [LinearOrder R] (penalty : ℚ → R)
    (eps : R) (some : values ≠ []) (bordersCount : ℕ) :
    ∃ borders, splitWithGuaranteedOptimum penalty eps values bordersCount = .ok borders ∧
      Useful values bordersCount borders := by
  have runs := runs_foldl (pairwise_sortValues values)
  unfold splitWithGuaranteedOptimum
  generalize (sortValues values).foldl addValue ([], []) = st at runs
  obtain ⟨features, weights⟩ := st
  have size : features.length = weights.length := runs.size
  have same : ∀ v, v ∈ features ↔ v ∈ values := fun v => (runs.mem_iff v).trans mem_sortValues
  have nonempty : weights ≠ [] := by
    obtain ⟨v, mem⟩ := List.exists_mem_of_ne_nil values some
    have pos := List.length_pos_of_mem ((same v).mpr mem)
    exact List.ne_nil_of_length_pos (size ▸ pos)
  obtain ⟨ts, ran, length, inside⟩ := Grid.bestSplit_rlm2_inside penalty eps nonempty bordersCount
  obtain ⟨borders, collected, useful⟩ := useful_thresholds runs.increasing same fun t mem => size ▸ inside t mem
  refine ⟨borders, ?_, length ▸ useful⟩
  simp only [bestSplitBorders, ran, ok_bind]
  exact collected

/-! ### Useful bins -/

/-- Both bits of a bin occur. -/
theorem IsMidpoint.mem_bin (isMidpoint : IsMidpoint values b) :
    false ∈ values.map (fun x => decide (x > b)) ∧ true ∈ values.map fun x => decide (x > b) := by
  obtain ⟨a, c, adjacent, rfl⟩ := isMidpoint
  refine ⟨List.mem_map.mpr ⟨a, adjacent.low, ?_⟩, List.mem_map.mpr ⟨c, adjacent.high, ?_⟩⟩
  · exact decide_eq_false (not_lt.mpr adjacent.lt_midpoint.le)
  · exact decide_eq_true adjacent.midpoint_lt

/-- Different midpoints give different bins. -/
theorem IsMidpoint.eq_of_bin_eq (isMidpoint : IsMidpoint values b) (other : IsMidpoint values b')
    (same : values.map (fun x => decide (x > b)) = values.map fun x => decide (x > b')) : b = b' := by
  have bits : ∀ v ∈ values, (v > b ↔ v > b') := fun v mem => by
    simpa using List.map_inj_left.mp same v mem
  obtain ⟨a, c, adjacent, rfl⟩ := isMidpoint
  have above : a ≤ b' := not_lt.mp fun lt => absurd ((bits a adjacent.low).mpr lt) (not_lt.mpr adjacent.lt_midpoint.le)
  exact (other.eq adjacent above ((bits c adjacent.high).mp adjacent.midpoint_lt)).symm

theorem Useful.bins (useful : Useful values bordersCount borders) {builder : TBorderBuilder}
    (iterates : Iterates (builder values) borders) (nonempty : borders.Nonempty) :
    (∀ bin ∈ binarizeFeature values builder, false ∈ bin ∧ true ∈ bin) ∧ (binarizeFeature values builder).Nodup := by
  obtain ⟨b, mem⟩ := nonempty
  have listed := (iterates.mem_iff b).mpr mem
  have midpoint : ∀ b ∈ builder values, IsMidpoint values b := fun b mem =>
    useful.isMidpoint b ((iterates.mem_iff b).mp mem)
  unfold binarizeFeature
  simp only [if_neg (List.ne_nil_of_mem listed)]
  constructor
  · intro bin named
    obtain ⟨border, at_border, rfl⟩ := List.mem_map.mp named
    exact IsMidpoint.mem_bin (midpoint border at_border)
  · refine iterates.nodup.map_on fun x first y second same => ?_
    exact IsMidpoint.eq_of_bin_eq (midpoint x first) (midpoint y second) same

theorem EBinarizer.exists_useful (binarizer : EBinarizer) (penalty : Grid.EPenaltyType → ℚ → ℝ) (some : values ≠ [])
    {top : List (TFeatureBin (sortValues values)) → TFeatureBin (sortValues values)}
    (chooses : Chooses TFeatureBin.score top) (bordersCount : ℕ) :
    ∃ borders, binarizer.bestSplit penalty values some top bordersCount = .ok borders ∧
      Useful values bordersCount borders := by
  cases binarizer with
  | medianPlusUniform => exact ⟨_, rfl, useful_medianPlusUniform⟩
  | median => exact ⟨_, rfl, useful_median⟩
  | minEntropy => exact useful_splitWithGuaranteedOptimum _ _ some bordersCount
  | medianInBin => exact ⟨_, rfl, useful_medianInBin some chooses⟩
  | maxSumLog => exact useful_splitWithGuaranteedOptimum _ _ some bordersCount

end Useful

/-! ### Columns in another order -/

section Reordered

variable {values values' : List ℚ} {builder : TBorderBuilder} {binarizer : EBinarizer}
variable {penalty : Grid.EPenaltyType → ℚ → ℝ} {x : ℕ}

theorem sortValues_eq_of_perm (perm : values'.Perm values) : sortValues values' = sortValues values :=
  List.Perm.eq_of_pairwise (fun _ _ _ _ => le_antisymm) (pairwise_sortValues _) (pairwise_sortValues _)
    (((sortValues_perm values').trans perm).trans (sortValues_perm values).symm)

/-- The borders that a binarizer returns, in the order of a hash set that was filled from the sorted column. -/
def EBinarizer.Fills (penalty : Grid.EPenaltyType → ℚ → ℝ) (x : ℕ) (builder : TBorderBuilder)
    (binarizer : EBinarizer) : Prop :=
  ∃ (queue : ∀ sorted : List ℚ, sorted ≠ [] → List (TFeatureBin sorted) → TFeatureBin sorted)
    (order : List ℚ → Finset ℚ → List ℚ),
    (∀ sorted nonempty, Chooses TFeatureBin.score (queue sorted nonempty)) ∧ ∀ values some, ∃ borders,
      binarizer.bestSplit penalty values some (queue (sortValues values) (sortValues_ne_nil some)) x = .ok borders ∧
      builder values = order (sortValues values) borders ∧ Iterates (builder values) borders

/-- **No binarizer sees the order of the values**: each of them sorts the column first. -/
theorem EBinarizer.bestSplit_perm (binarizer : EBinarizer) (perm : values'.Perm values) (some : values ≠ [])
    (some' : values' ≠ [])
    (queue : ∀ sorted : List ℚ, sorted ≠ [] → List (TFeatureBin sorted) → TFeatureBin sorted) :
    binarizer.bestSplit penalty values' some' (queue (sortValues values') (sortValues_ne_nil some')) x =
      binarizer.bestSplit penalty values some (queue (sortValues values) (sortValues_ne_nil some)) x := by
  have sorted := sortValues_eq_of_perm perm
  cases binarizer with
  | medianPlusUniform => simp only [EBinarizer.bestSplit, medianPlusUniformBestSplit, sorted]
  | median => simp only [EBinarizer.bestSplit, medianBestSplit, sorted]
  | minEntropy | maxSumLog => simp only [EBinarizer.bestSplit, splitWithGuaranteedOptimum, sorted]
  | medianInBin =>
    simp only [EBinarizer.bestSplit, medianInBinBestSplit]
    generalize_proofs nonempty'
    revert nonempty'
    rw [sorted]
    exact fun _ => rfl

/-- A column and its reorderings get the same borders in the same order. -/
theorem EBinarizer.Fills.perm (fills : binarizer.Fills penalty x builder) (perm : values'.Perm values) :
    builder values' = builder values := by
  obtain ⟨queue, order, -, built⟩ := fills
  rcases eq_or_ne values [] with rfl | some
  · rw [perm.eq_nil]
  · have some' : values' ≠ [] := fun none => some (none ▸ perm).symm.eq_nil
    obtain ⟨borders, ran, ordered, -⟩ := built values some
    obtain ⟨borders', ran', ordered', -⟩ := built values' some'
    rw [binarizer.bestSplit_perm perm some some', ran] at ran'
    cases ran'
    rw [ordered, ordered', sortValues_eq_of_perm perm]

/-- At most as many borders as were asked for. -/
theorem EBinarizer.Fills.length_le (fills : binarizer.Fills penalty x builder) (some : values ≠ []) :
    (builder values).length ≤ x := by
  obtain ⟨queue, order, chooses, built⟩ := fills
  obtain ⟨borders, ran, -, iterates⟩ := built values some
  obtain ⟨borders', ran', useful⟩ := binarizer.exists_useful penalty some (chooses _ _) x
  cases ran.symm.trans ran'
  exact iterates.length_eq.trans_le useful.card_le

end Reordered

end Cmicot
