import Cmicot.Selection

/-!
The ranking depends on the data only through row partitions.

A run of `FastFeatureSelection` is determined by the number of features and the search
problem of the pool (`fastFeatureSelection_congr`), and the problem reads the rows only
through joint entropies. Labels that split the rows alike, reordered rows and complemented
feature bins therefore lead to the same run.

* `fastFeatureSelection_partition`: all three at once.
-/

namespace Cmicot

open Loop Greedy Search TCachingBinScorer

/-! ### Other bins over the same features -/

namespace TBinFeatureSet

/-- The same features over other bins. -/
def withBins (fs : TBinFeatureSet) (bins : List TBin) (same : bins.length = fs.bins.length) :
    TBinFeatureSet where
  bins := bins
  featureStart := fs.featureStart
  sorted := fs.sorted
  bounded := same ▸ fs.bounded
  first := fs.first.imp_right fun ⟨noFeatures, noBins⟩ =>
    ⟨noFeatures, List.eq_nil_of_length_eq_zero (by rw [same, noBins]; rfl)⟩

/-- Every bin with its rows reordered. -/
def permuteRows {n : ℕ} (σ : Equiv.Perm (Fin n)) (fs : TBinFeatureSet) : TBinFeatureSet :=
  fs.withBins (fs.bins.map (Cmicot.permuteRows σ)) (List.length_map ..)

/-- The flagged bins complemented. -/
def complement (flag : ℕ → Bool) (fs : TBinFeatureSet) : TBinFeatureSet :=
  fs.withBins (complementBins flag fs.bins) (complementBins_length ..)

end TBinFeatureSet

section Oracles

variable {label label' features features' : TBinFeatureSet} {n : ℕ}

theorem cmiValue_congr {first first' second second' given given' : List TBin}
    (sameFirst : SamePartition n first first') (sameSecond : SamePartition n second second')
    (sameGiven : SamePartition n given given') :
    cmiValue n first second given = cmiValue n first' second' given' := by
  rw [cmiValue, cmiValue, jointEntropy_congr (sameFirst.append sameGiven), jointEntropy_congr sameGiven,
    jointEntropy_congr ((sameFirst.append sameSecond).append sameGiven),
    jointEntropy_congr (sameSecond.append sameGiven)]

theorem cmiValue_permuteRows (σ : Equiv.Perm (Fin n)) (first second given : List TBin) :
    cmiValue n (first.map (permuteRows σ)) (second.map (permuteRows σ)) (given.map (permuteRows σ)) =
      cmiValue n first second given := by
  simp only [cmiValue, ← List.map_append, jointEntropy_permuteRows]

/-- Bins looked up in two sets that split the rows alike, bin by bin. -/
theorem samePartition_lookup {find find' : ℕ → TBin}
    (alike : ∀ b, SamePartition n [find b] [find' b]) (bins : List ℕ) :
    SamePartition n (bins.map find) (bins.map find') := by
  apply samePartition_of_forall₂
  rw [List.forall₂_map_left_iff, List.forall₂_map_right_iff]
  exact List.forall₂_same.mpr fun b _ => alike b

/-- Two labels that split the rows alike pose the same problem. -/
theorem problem_label_congr (same : SamePartition n label.bins label'.bins) :
    problem label features n = problem label' features n := by
  have oracle : cmiAt label features n = cmiAt label' features n := by
    funext second condition
    exact cmiValue_congr same (fun _ _ _ _ => Iff.rfl) fun _ _ _ _ => Iff.rfl
  rw [problem, problem, oracle]

/-- Reordering all rows poses the same problem. -/
theorem problem_permuteRows (σ : Equiv.Perm (Fin n)) :
    problem (label.permuteRows σ) (features.permuteRows σ) n = problem label features n := by
  have alike : ∀ b, SamePartition n [(features.permuteRows σ).binAt b] [permuteRows σ (features.binAt b)] := by
    intro b
    by_cases inside : b < features.bins.length
    · have same : (features.permuteRows σ).binAt b = permuteRows σ (features.binAt b) := by
        simp [TBinFeatureSet.binAt, TBinFeatureSet.permuteRows, TBinFeatureSet.withBins, inside]
      rw [same]
      exact fun _ _ _ _ => Iff.rfl
    · -- outside the numbering both bins are constant
      have none : (features.permuteRows σ).binAt b = [] := by
        simp [TBinFeatureSet.binAt, TBinFeatureSet.permuteRows, TBinFeatureSet.withBins, inside]
      have none' : features.binAt b = [] := by simp [TBinFeatureSet.binAt, inside]
      intro i hi j hj
      have at_i := getD_permuteRows σ [] ⟨i, hi⟩
      have at_j := getD_permuteRows σ [] ⟨j, hj⟩
      simp only [List.getD_nil] at at_i at_j
      simp only [Agree, none, none', List.mem_singleton, forall_eq, List.getD_nil, at_i, at_j]
  have oracle : cmiAt (label.permuteRows σ) (features.permuteRows σ) n = cmiAt label features n := by
    funext second condition
    have lookup : ∀ bins : List ℕ, SamePartition n (bins.map (features.permuteRows σ).binAt)
        ((bins.map features.binAt).map (permuteRows σ)) := fun bins => by
      rw [List.map_map]
      exact samePartition_lookup alike bins
    exact (cmiValue_congr (fun _ _ _ _ => Iff.rfl) (lookup second) (lookup condition)).trans
      (cmiValue_permuteRows σ _ _ _)
  have count : (features.permuteRows σ).getBinCount = features.getBinCount := List.length_map ..
  rw [problem, problem, oracle, count]
  rfl

/-- Complementing feature bins poses the same problem. -/
theorem problem_complement (pool : Pool label features n) (flag : ℕ → Bool) :
    problem label (features.complement flag) n = problem label features n := by
  have alike : ∀ b, SamePartition n [(features.complement flag).binAt b] [features.binAt b] := by
    intro b
    by_cases inside : b < features.bins.length
    · have same : (features.complement flag).binAt b =
          if flag b then (features.binAt b).map not else features.binAt b := by
        simp [TBinFeatureSet.binAt, TBinFeatureSet.complement, TBinFeatureSet.withBins, complementBins,
          inside]
      rw [same]
      split
      · exact samePartition_not (pool.binAt_length inside)
      · exact fun _ _ _ _ => Iff.rfl
    · have same : (features.complement flag).binAt b = features.binAt b := by
        simp [TBinFeatureSet.binAt, TBinFeatureSet.complement, TBinFeatureSet.withBins, inside]
      rw [same]
      exact fun _ _ _ _ => Iff.rfl
  have oracle : cmiAt label (features.complement flag) n = cmiAt label features n := by
    funext second condition
    exact cmiValue_congr (fun _ _ _ _ => Iff.rfl) (samePartition_lookup alike second)
      (samePartition_lookup alike condition)
  have count : (features.complement flag).getBinCount = features.getBinCount :=
    complementBins_length ..
  rw [problem, problem, oracle, count]
  rfl

theorem Pool.permuteRows (pool : Pool label features n) (σ : Equiv.Perm (Fin n)) :
    Pool (label.permuteRows σ) (features.permuteRows σ) n where
  rows := pool.rows
  labelled := by simpa [TBinFeatureSet.permuteRows, TBinFeatureSet.withBins] using pool.labelled
  labelLength := by simp [TBinFeatureSet.permuteRows, TBinFeatureSet.withBins]
  binLength := by simp [TBinFeatureSet.permuteRows, TBinFeatureSet.withBins]

theorem Pool.complement (pool : Pool label features n) (flag : ℕ → Bool) :
    Pool label (features.complement flag) n where
  rows := pool.rows
  labelled := pool.labelled
  labelLength := pool.labelLength
  binLength := length_of_mem_complementBins pool.binLength

end Oracles

/-! ### A run is determined by its problem -/

section Runs

variable {label label' features features' : TBinFeatureSet} {n : ℕ} {f : ℕ}

/-- **A run is determined by the number of features and the problem.** -/
theorem fastFeatureSelection_congr {t : ℤ} (pool : Pool label features n) (pool' : Pool label' features' n)
    (few : label.bins.length + 2 * max t 0 ≤ 62) (few' : label'.bins.length + 2 * max t 0 ≤ 62)
    (same : problem label features n = problem label' features' n)
    (sameCount : features.getFeatureCount = features'.getFeatureCount) (featureCount : ℤ) :
    fastFeatureSelection ℝ label features t featureCount =
      fastFeatureSelection ℝ label' features' t featureCount := by
  cases first : (problem label features n).firstFeature with
  | none =>
    have first' := same ▸ first
    rw [fastFeatureSelection, selectFirst_error pool (by omega) first, fastFeatureSelection,
      selectFirst_error pool' (by omega) first']
  | some f =>
    have first' := same ▸ first
    rcases lt_or_ge 0 t with pos | none
    · obtain ⟨steps, rfl⟩ : ∃ steps : ℕ, t = steps := ⟨t.toNat, by omega⟩
      rw [fastFeatureSelection_eq pool (by omega) (by omega) first,
        fastFeatureSelection_eq pool' (by omega) (by omega) first', same, sameCount]
    · obtain ⟨bg, selected, shown, -⟩ := selectFirst_ok pool (by omega) first
      obtain ⟨bg', selected', shown', -⟩ := selectFirst_ok pool' (by omega) first'
      rw [fastFeatureSelection, selected, fastFeatureSelection, selected']
      simp only [sameCount]
      cases (min featureCount features'.getFeatureCount - 1).toNat with
      | zero => rfl
      | succ k =>
        rw [emitLoop, emitLoop,
          fastRound_nonpos label n shown (by simp [ofLabel]) none,
          fastRound_nonpos label' n shown' (by simp [ofLabel]) none, same]

/-- **The ranking depends on the data only through row partitions.** The run is the same for
a label that splits the rows alike, for reordered rows, and for complemented feature bins. -/
theorem fastFeatureSelection_partition {t featureCount : ℤ} (pool : Pool label features n)
    (few : label.bins.length + 2 * max t 0 ≤ 62) :
    (∀ label', Pool label' features n → label'.bins.length + 2 * max t 0 ≤ 62 →
      SamePartition n label.bins label'.bins →
      fastFeatureSelection ℝ label' features t featureCount =
        fastFeatureSelection ℝ label features t featureCount) ∧
    (∀ σ : Equiv.Perm (Fin n),
      fastFeatureSelection ℝ (label.permuteRows σ) (features.permuteRows σ) t featureCount =
        fastFeatureSelection ℝ label features t featureCount) ∧
    ∀ flag : ℕ → Bool,
      fastFeatureSelection ℝ label (features.complement flag) t featureCount =
        fastFeatureSelection ℝ label features t featureCount := by
  refine ⟨fun label' pool' few' alike => ?_, fun σ => ?_, fun flag => ?_⟩
  · exact (fastFeatureSelection_congr pool pool' few few' (problem_label_congr alike) rfl _).symm
  · have size : (label.permuteRows σ).bins.length = label.bins.length := List.length_map ..
    exact fastFeatureSelection_congr (pool.permuteRows σ) pool (by rwa [size]) few
      (problem_permuteRows σ) rfl _
  · exact fastFeatureSelection_congr (pool.complement flag) pool few few
      (problem_complement pool flag) rfl _

/-- The label with its complement as a second bin, the rows in another order, and every other bin complemented. -/
theorem fastFeatureSelection_partition_sixRows :
    fastFeatureSelection ℝ (.ofBins [[true, false, true, true, true, false], [false, true, false, false, false, true]])
        sixFeatures 2 4 = fastFeatureSelection ℝ sixLabel sixFeatures 2 4 ∧
      fastFeatureSelection ℝ (sixLabel.permuteRows (finRotate 6)) (sixFeatures.permuteRows (finRotate 6)) 2 4 =
        fastFeatureSelection ℝ sixLabel sixFeatures 2 4 ∧
      fastFeatureSelection ℝ sixLabel (sixFeatures.complement fun b => b % 2 = 1) 2 4 =
        fastFeatureSelection ℝ sixLabel sixFeatures 2 4 := by
  obtain ⟨relabelled, permuted, complemented⟩ := @fastFeatureSelection_partition sixLabel sixFeatures 6 2 4 sixPool
    (by decide)
  exact ⟨relabelled _ ⟨by decide, by decide, by decide, by decide⟩ (by decide)
    (by unfold SamePartition Agree; decide), permuted _, complemented _⟩

end Runs

end Cmicot
