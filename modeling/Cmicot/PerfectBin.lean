import Cmicot.ScoreLaws
import Cmicot.Search.Settled
import Cmicot.Selection

/-!
Selection when a bin determines the label.

The information of the label and a bin is the label entropy exactly if the bin determines the label on
the rows, so the first feature owns the first such bin. From then on no bin says anything more,
neither to the reference scorer nor to the cached one, and all features that are left tie.

* `selection_perfect`: both loops emit the owner of the first bin that determines the label and then
  all other features in ascending order.
-/

namespace Cmicot

open Loop Greedy Search TCachingBinScorer

section Perfect

variable {label features : TBinFeatureSet} {n d : ℕ}

theorem cmiAt_alone : cmiAt label features n [d] [] =
    jointEntropy n label.bins + jointEntropy n [features.binAt d] - jointEntropy n (label.bins ++ [features.binAt d]) -
      jointEntropy n [] := by
  simp only [cmiAt, cmiValue, List.map_cons, List.map_nil, List.append_nil]
  ring

/-- A bin determines the label exactly if it has all its information. -/
theorem labels_iff (pool : Pool label features n) :
    label.Labels features n d ↔ cmiAt label features n [d] [] = jointEntropy n label.bins := by
  rw [cmiAt_alone, jointEntropy_nil pool.rows]
  constructor
  · intro labels
    rw [jointEntropy_congr (Determines.samePartition labels)]
    ring
  · intro all
    exact determines_of_jointEntropy_le (by linarith)

/-- Given a bin that determines the label, nothing is left to say. -/
theorem settles_of_labels (inside : d < features.getBinCount) (labels : label.Labels features n d) :
    (problem label features n).Settles 0 d :=
  ⟨inside, fun _ _ => cmiAt_nonneg, fun _ _ mem => labels.given_eq_zero mem⟩

theorem problem_ordered (label features : TBinFeatureSet) (n : ℕ) : (problem label features n).Ordered :=
  fun _ _ le _ => TBinFeatureSet.owner_mono le

/-- The first feature owns the first bin that determines the label. -/
theorem firstFeature_perfect (pool : Pool label features n) (inside : d < features.getBinCount)
    (labels : label.Labels features n d) (first : ∀ b < d, ¬ label.Labels features n b) :
    (problem label features n).firstFeature = some (features.owner d) := by
  have most (b : ℕ) : cmiAt label features n [b] [] ≤ jointEntropy n label.bins := cmiValue_le_first pool.rows
  have best : pick (· > ·) (fun b => cmiAt label features n [b] []) (List.range features.getBinCount) = some d := by
    refine (pick_eq_some_iff List.pairwise_lt_range).mpr ⟨List.mem_range.mpr inside, fun c _ => ?_⟩
    simp only [(labels_iff pool).mp labels]
    rcases (most c).lt_or_eq with less | same
    · exact .inl less
    · exact .inr ⟨same.symm, not_lt.mp fun lt => first c lt ((labels_iff pool).mpr same)⟩
  exact Option.map_eq_some_iff.mpr ⟨d, best, rfl⟩

/-- A feature, then all others in ascending order. -/
def TBinFeatureSet.startingWith (features : TBinFeatureSet) (f : ℕ) : List ℕ :=
  f :: (List.range features.getFeatureCount).erase f

/-- What remains after the first feature. -/
theorem remaining_eq (label : TBinFeatureSet) (n f : ℕ) (nonempty : ∀ f < features.getFeatureCount,
    ∃ bins, features.getFeature f = .ok bins ∧ bins ≠ []) :
    (problem label features n).remaining [f] = (List.range features.getFeatureCount).erase f := by
  have sorted : ((problem label features n).remaining [f]).Pairwise (· ≤ ·) := Finset.pairwise_sort ..
  have ascending : ((List.range features.getFeatureCount).erase f).Pairwise (· < ·) :=
    List.pairwise_lt_range.sublist List.erase_sublist
  refine List.Perm.eq_of_pairwise' sorted (ascending.imp fun lt => lt.le) ?_
  refine (List.perm_ext_iff_of_nodup (Finset.sort_nodup ..) ascending.nodup).mpr fun g => ?_
  rw [Finset.mem_sort, owners_eq label n nonempty, List.nodup_range.mem_erase_iff, Finset.mem_filter, Finset.mem_range,
    List.mem_singleton, List.mem_range, and_comm]

/-- **With a bin that determines the label**, both loops emit the owner of the first such bin and then
all other features in ascending order, whatever the number of steps. -/
theorem selection_perfect {t : ℕ} (pool : Pool label features n) (nonempty : ∀ f < features.getFeatureCount,
      ∃ bins, features.getFeature f = .ok bins ∧ bins ≠ []) (pos : 0 < t) (few : label.bins.length + 2 * t ≤ 62)
    (inside : d < features.getBinCount) (labels : label.Labels features n d)
    (first : ∀ b < d, ¬ label.Labels features n b) :
    featureSelection ℝ label features t = ⟨features.startingWith (features.owner d), none⟩ ∧
      ∀ k : ℕ, 0 < k → fastFeatureSelection ℝ label features t k =
        ⟨(features.startingWith (features.owner d)).take k, none⟩ := by
  have found := firstFeature_perfect pool inside labels first
  have settles := settles_of_labels inside labels
  have rest := remaining_eq label n (features.owner d) nonempty
  have size : ((List.range features.getFeatureCount).erase (features.owner d)).length =
      features.getFeatureCount - 1 := by
    rw [List.length_erase_of_mem (List.mem_range.mpr (TBinFeatureSet.owner_lt inside)), List.length_range]
  refine ⟨?_, fun k asked => ?_⟩
  · obtain ⟨items, stopped⟩ := settles.plain_emits pos (problem_ordered label features n)
      (List.mem_singleton.mpr rfl : features.owner d ∈ [features.owner d]) (features.getFeatureCount - 1)
    rw [rest] at items stopped
    rw [featureSelection_eq pool pos few found, items, stopped.mpr size.ge, List.take_of_length_le size.le]
    rfl
  · obtain ⟨items, stopped⟩ := settles.fast_emits pos (problem_ordered label features n)
      (Problem.start_settledCache settles) (min (k : ℤ) features.getFeatureCount - 1).toNat
    change _ = ((problem label features n).remaining [features.owner d]).take _ at items
    change _ ↔ _ ≤ ((problem label features n).remaining [features.owner d]).length at stopped
    rw [rest] at items stopped
    obtain ⟨k, rfl⟩ : ∃ m, k = m + 1 := ⟨k - 1, by omega⟩
    have rounds : (min ((k + 1 : ℕ) : ℤ) features.getFeatureCount - 1).toNat =
        min k (features.getFeatureCount - 1) := by
      omega
    rw [rounds, ← List.take_take, List.take_of_length_le size.le] at items
    rw [rounds] at stopped
    rw [fastFeatureSelection_eq pool pos few found, rounds]
    refine congrArg₂ Emitted.mk ?_ ?_
    · exact congrArg (features.owner d :: ·) items
    · exact congrArg (Option.map _) (stopped.mpr ((min_le_right ..).trans size.ge))

/-- A label, a bin that says nothing about it, its complement, and the label itself. -/
theorem selection_perfect_fourRows :
    fastFeatureSelection ℝ (.ofBins [[false, false, true, true]])
        (((TBinFeatureSet.ofBins [[false, true, false, true]]).addFeature [[true, true, false, false]]).1.addFeature
          [[false, false, true, true]]).1 1 2 = ⟨[1, 0], none⟩ := by
  refine (selection_perfect (n := 4) (d := 1) (t := 1) ⟨by decide, by decide, by decide, by decide⟩ ?_ (by decide)
    (by decide) (by decide) ?_ ?_).2 2 (by decide)
  · intro f lt
    have : f < 3 := lt
    obtain rfl | rfl | rfl : f = 0 ∨ f = 1 ∨ f = 2 := by omega
    all_goals exact ⟨_, rfl, by decide⟩
  · unfold TBinFeatureSet.Labels Determines Agree
    decide
  · unfold TBinFeatureSet.Labels Determines Agree
    decide

end Perfect

end Cmicot
