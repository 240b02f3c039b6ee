import Cmicot.BinScore
import Cmicot.ExactValues

/-!
The CMIM score of a feature (`GetCmimScore` in `feature_score.cpp`).

The score of a feature is the smallest conditional mutual information of its bins with the
label, given the bins of another enabled feature. The search goes over the list of the
enabled features and takes the position of the best one in this list for the feature itself.

* `searchRange_ok`: the list that is searched holds the other enabled features in order.
* `getCmimScore_minimizes_iff`: when the returned feature is the minimising one.
-/

namespace Cmicot

open Loop Greedy

/-! ### Definitions -/

structure TCmimScore (R : Type) where
  score : R
  minimizingFeatureIndex : ℕ

section Generic

variable {R : Type} [Field R] [LinearOrder R] [Log2 R]

/-- `add` for every bin of a feature. -/
def addFeatureBins (add : TCmiCalculator → TBin → Except Failure TCmiCalculator) (background : TBackground)
    (index : ℕ) (cmi : TCmiCalculator) : Except Failure TCmiCalculator := do
  let range ← background.getFeatureBinIndexes index
  (List.range' range.1 (range.2 - range.1)).foldlM
    (fun cmi (binIndex : ℕ) => do add cmi (← background.getBin binIndex)) cmi

/-- The lambda `kernel`. -/
def cmimKernel (cmiCalc : TCmiCalculator) (background : TBackground) (index : ℕ) : Except Failure R := do
  let localCmi ← addFeatureBins TCmiCalculator.addConditionBin background index cmiCalc
  localCmi.getValue

/-- `GetCmimScore(label, background, featureIndex, threadCount)`. -/
def getCmimScore (label : TBinFeatureSet) (background : TBackground) (featureIndex : ℕ) :
    Except Failure (TCmimScore R) := do
  let cmiCalc := TCmiCalculator.ofSize (← label.getBin 0).length
  let cmiCalc ← label.allBins.foldlM TCmiCalculator.addFirstVariableBin cmiCalc
  let cmiCalc ← addFeatureBins TCmiCalculator.addSecondVariableBin background featureIndex cmiCalc
  let background ← background.setFeatureEnabled featureIndex false
  let searchRange ← background.enabledFeatureIndexes
  let bestFeatureIter ← parallelExtremeElementBy (· < ·) (cmimKernel (R := R) cmiCalc background) searchRange
  if bestFeatureIter ≠ searchRange.length then
    let bestFeatureIndex := bestFeatureIter
    return ⟨← cmimKernel cmiCalc background bestFeatureIndex, bestFeatureIndex⟩
  else return ⟨0, 0⟩

end Generic

/-! ### Enabled features -/

namespace TBackground

variable {bg bg' : TBackground} {f i : ℕ}

/-- A feature is enabled iff all its bins are. -/
theorem isFeatureEnabled_eq (h : f < bg.getFeatureCount) :
    bg.isFeatureEnabled f =
      .ok (decide (∀ b < bg.getBinCount, bg.features.owner b = f → bg.enabled b = true)) := by
  rw [isFeatureEnabled, if_pos h]
  congr 1
  rw [Bool.eq_iff_iff, List.all_eq_true, decide_eq_true_iff]
  constructor
  · intro all b hb owner
    obtain ⟨-, low, high⟩ := (TBinFeatureSet.owner_eq_iff hb).mp owner
    have lt : b < bg.isBinEnabled.length := bg.size ▸ hb
    have mem : bg.isBinEnabled[b] ∈ (bg.isBinEnabled.take (bg.features.featureEnd f)).drop
        (bg.features.featureBegin f) := by
      refine List.mem_iff_getElem?.mpr ⟨b - bg.features.featureBegin f, ?_⟩
      rw [List.getElem?_drop, Nat.add_sub_cancel' low, List.getElem?_take_of_lt high,
        List.getElem?_eq_getElem lt]
    have on := all _ mem
    simpa [enabled, lt] using on
  · intro all bit mem
    obtain ⟨j, at_j⟩ := List.mem_iff_getElem?.mp mem
    rw [List.getElem?_drop, List.getElem?_take] at at_j
    split at at_j
    case isFalse => cases at_j
    case isTrue high =>
      have lt := (List.getElem?_eq_some_iff.mp at_j).1
      have hb : bg.features.featureBegin f + j < bg.getBinCount := by rwa [bg.size] at lt
      have on := all _ hb ((TBinFeatureSet.owner_eq_iff hb).mpr ⟨h, Nat.le_add_right _ _, high⟩)
      simpa [enabled, at_j] using on

/-- The features enabled besides `i`. -/
def others (bg : TBackground) (i : ℕ) : List ℕ :=
  (List.range bg.getFeatureCount).filter fun f => f ≠ i ∧ bg.isFeatureEnabled f = .ok true

theorem lt_of_mem_others (mem : f ∈ bg.others i) : f < bg.getFeatureCount :=
  List.mem_range.mp (List.mem_of_mem_filter mem)

theorem others_sorted : (bg.others i).Pairwise (· < ·) := List.pairwise_lt_range.filter _

/-- **The range that is searched**: with a feature disabled, the others are left. -/
theorem searchRange_ok (h : i < bg.getFeatureCount)
    (owns : ∃ b < bg.getBinCount, bg.features.owner b = i) :
    ∃ bg', bg.setFeatureEnabled i false = .ok bg' ∧ bg'.features = bg.features ∧
      bg'.enabledFeatureIndexes = .ok (bg.others i) := by
  obtain ⟨bg', set, same, enabled, -⟩ := setFeatureEnabled_ok h false
  refine ⟨bg', set, same, ?_⟩
  have count : bg'.getFeatureCount = bg.getFeatureCount := by rw [getFeatureCount, same]; rfl
  have bins : bg'.getBinCount = bg.getBinCount := by rw [getBinCount, same]; rfl
  have each : ∀ f ∈ List.range bg.getFeatureCount, bg'.isFeatureEnabled f =
      .ok (decide (f ≠ i ∧ bg.isFeatureEnabled f = .ok true)) := by
    intro f mem
    have inside := List.mem_range.mp mem
    rw [isFeatureEnabled_eq (by rwa [count]), isFeatureEnabled_eq inside, same, bins]
    congr 1
    rw [decide_eq_decide, Except.ok.injEq, decide_eq_true_iff]
    by_cases self : f = i
    · obtain ⟨b, hb, owner⟩ := owns
      refine iff_of_false (fun all => ?_) fun h => h.1 self
      have on := all b hb (owner.trans self.symm)
      rw [enabled b hb, if_pos owner] at on
      cases on
    · refine (forall₃_congr fun b hb owner => ?_).trans (and_iff_right self).symm
      rw [enabled b hb, if_neg (fun own => self (owner.symm.trans own))]
  rw [enabledFeatureIndexes, count, filterM_ok each]
  rfl

end TBackground

/-! ### The kernel -/

section Kernel

variable {label : TBinFeatureSet} {bg : TBackground} {cmi : TCmiCalculator} {n f i : ℕ}
variable {first second given : List TBin}

/-- The bins of a feature. -/
def TBinFeatureSet.featureBins (features : TBinFeatureSet) (f : ℕ) : List TBin :=
  (List.range' (features.featureBegin f) (features.featureEnd f - features.featureBegin f)).map features.binAt

/-- Adding the bins of a feature, whatever their role: `H` says what the calculator holds once
these bins were added. -/
theorem addFeatureBins_ok (add : TCmiCalculator → TBin → Except Failure TCmiCalculator)
    {H : List TBin → TCmiCalculator → Prop} (inside : f < bg.getFeatureCount) (start : H [] cmi)
    (pool : Pool label bg.features n)
    (next : ∀ done bin cmi, bin.length = n → done.length < (bg.features.featureBins f).length → H done cmi →
      ∃ cmi', add cmi bin = .ok cmi' ∧ H (done ++ [bin]) cmi') :
    ∃ cmi', addFeatureBins add bg f cmi = .ok cmi' ∧ H (bg.features.featureBins f) cmi' := by
  obtain ⟨cmi', added, held⟩ := foldlM_ok
    (f := fun cmi (b : ℕ) => do add cmi (← bg.getBin b))
    (l := List.range' (bg.features.featureBegin f) (bg.features.featureEnd f - bg.features.featureBegin f))
    (s := cmi) (P := fun done cmi => H (done.map bg.features.binAt) cmi) start
    fun done b cmi mem short held => by
      obtain ⟨low, high⟩ := List.mem_range'_1.mp mem
      have hb : b < bg.features.getBinCount := by
        have := @TBinFeatureSet.featureEnd_le bg.features f
        omega
      obtain ⟨cmi', added, held'⟩ := next (done.map bg.features.binAt) (bg.features.binAt b) cmi
        (pool.binAt_length hb)
        (by simpa [TBinFeatureSet.featureBins] using short) held
      refine ⟨cmi', ?_, by simpa using held'⟩
      simp only [TBackground.getBin, getBin_binAt hb, ok_bind, added]
  refine ⟨cmi', ?_, held⟩
  have range : bg.getFeatureBinIndexes f = .ok (bg.features.featureBegin f, bg.features.featureEnd f) :=
    if_pos inside
  rw [addFeatureBins, range, ok_bind]
  exact added

/-- What the kernel computes for a feature, unless the widest calculator overflows. -/
theorem cmimKernel_iff (held : cmi.Holds n first second []) (pool : Pool label bg.features n)
    (inside : f < bg.getFeatureCount) (some : first ≠ []) (some' : second ≠ [])
    (fits : first.length + second.length + (bg.features.featureBins f).length ≤ 64) :
    (¬ TEntropyCalculator.Wraps n (first ++ second ++ bg.features.featureBins f) →
        cmimKernel cmi bg f = .ok (cmiValue n first second (bg.features.featureBins f))) ∧
      ∀ result : ℝ, cmimKernel cmi bg f = .ok result →
        ¬ TEntropyCalculator.Wraps n (first ++ second ++ bg.features.featureBins f) := by
  obtain ⟨cmi', added, held'⟩ := addFeatureBins_ok TCmiCalculator.addConditionBin
    (H := fun done cmi => cmi.Holds n first second done) inside held pool
    fun done bin cmi size short held => held.addConditionBin size (by omega)
  have unfolded : cmimKernel (R := ℝ) cmi bg f = cmi'.getValue := by
    simp only [cmimKernel, added, ok_bind]
  rw [unfolded]
  exact held'.getValue_iff pool.rows fits some some'

end Kernel

/-! ### Positions and features -/

section Positions

variable {l : List ℕ} {p m : ℕ}

/-- A position in an increasing list is at most the element there. -/
theorem position_le (sorted : l.Pairwise (· < ·)) (at_p : l[p]? = some m) : p ≤ m := by
  induction p generalizing m with
  | zero => exact Nat.zero_le m
  | succ p ih =>
    obtain ⟨lt, rfl⟩ := List.getElem?_eq_some_iff.mp at_p
    have before := ih (List.getElem?_eq_getElem (Nat.lt_of_succ_lt lt))
    have step := List.pairwise_iff_getElem.mp sorted p (p + 1) (by omega) lt (Nat.lt_succ_self p)
    omega

/-- An element is its own position iff all smaller numbers are elements. -/
theorem position_eq_iff (sorted : l.Pairwise (· < ·)) (at_p : l[p]? = some m) :
    p = m ↔ ∀ g < m, g ∈ l := by
  obtain ⟨inside, value⟩ := List.getElem?_eq_some_iff.mp at_p
  constructor
  · rintro rfl g lt
    -- the elements below position p leave no room for gaps
    suffices room : ∀ d ≤ p, l[p - d]? = some (p - d) by
      have here := room (p - g) (Nat.sub_le p g)
      rw [Nat.sub_sub_self lt.le] at here
      exact List.mem_of_getElem? here
    intro d
    induction d with
    | zero => exact fun _ => at_p
    | succ d ih =>
      intro le
      obtain ⟨_, here⟩ := List.getElem?_eq_some_iff.mp (ih (by omega))
      have lt' : p - (d + 1) < l.length := by omega
      have step := List.pairwise_iff_getElem.mp sorted (p - (d + 1)) (p - d) lt' (by omega) (by omega)
      have low := position_le sorted (List.getElem?_eq_getElem lt')
      rw [List.getElem?_eq_getElem lt', Option.some.injEq]
      omega
  · intro below
    have early : List.range m ⊆ l.take p := fun g mem => by
      have lt := List.mem_range.mp mem
      obtain ⟨q, at_q⟩ := List.mem_iff_getElem?.mp (below g lt)
      obtain ⟨inside', rfl⟩ := List.getElem?_eq_some_iff.mp at_q
      have before : q < p := by
        by_contra behind
        rcases Nat.eq_or_lt_of_le (Nat.le_of_not_lt behind) with rfl | after
        · omega
        · have := List.pairwise_iff_getElem.mp sorted p q inside inside' after
          omega
      exact List.mem_of_getElem? (by rw [List.getElem?_take_of_lt before, at_q])
    have fit := (List.subperm_of_subset List.nodup_range early).length_le
    rw [List.length_range, List.length_take] at fit
    exact le_antisymm (position_le sorted at_p) (by omega)

/-- The position of the best element is itself a best one iff some best element has only elements
of the list below it. -/
theorem minimal_position_iff {value : ℕ → ℝ} (sorted : l.Pairwise (· < ·)) (at_p : l[p]? = some m)
    (best : Best (· < ·) value l m) :
    (p ∈ l ∧ ∀ f ∈ l, value p ≤ value f) ↔
      ∃ m' ∈ l, (∀ f ∈ l, value m' ≤ value f) ∧ ∀ g < m', g ∈ l := by
  have lowest (m' : ℕ) (listed : m' ∈ l) (minimal : ∀ f ∈ l, value m' ≤ value f) : m ≤ m' := by
    rcases best.2 m' listed with beats | ⟨-, le⟩
    · exact absurd beats (not_lt.mpr (minimal m best.1))
    · exact le
  constructor
  · rintro ⟨listed, minimal⟩
    obtain rfl : p = m := le_antisymm (position_le sorted at_p) (lowest p listed minimal)
    exact ⟨p, listed, minimal, (position_eq_iff sorted at_p).mp rfl⟩
  · rintro ⟨m', listed, minimal, below⟩
    obtain rfl : p = m := (position_eq_iff sorted at_p).mpr fun g lt =>
      below g (lt_of_lt_of_le lt (lowest m' listed minimal))
    exact ⟨best.1, fun f mem => not_lt.mp (best.not_beaten mem)⟩

end Positions

/-! ### The score -/

section Score

variable {label : TBinFeatureSet} {bg : TBackground} {n i : ℕ}

/-- The conditional mutual information of the label and feature `i`, given feature `f`. -/
noncomputable def featureCmi (label : TBinFeatureSet) (features : TBinFeatureSet) (n i f : ℕ) : ℝ :=
  cmiValue n label.bins (features.featureBins i) (features.featureBins f)

/-- The feature whose bins are given is one of the other enabled features, the score is its
conditional mutual information, and no other enabled feature has a smaller one. -/
structure Minimizes (label : TBinFeatureSet) (bg : TBackground) (n i : ℕ) (result : TCmimScore ℝ) : Prop where
  other : result.minimizingFeatureIndex ∈ bg.others i
  score : result.score = featureCmi label bg.features n i result.minimizingFeatureIndex
  least : ∀ f ∈ bg.others i, result.score ≤ featureCmi label bg.features n i f

/-- What is done before the search: the calculator is given the label and the feature, and
the other enabled features are listed. -/
theorem getCmimScore_eq (pool : Pool label bg.features n) (inside : i < bg.getFeatureCount)
    (bins : bg.features.featureBins i ≠ [])
    (few : label.bins.length + (bg.features.featureBins i).length ≤ 64) :
    ∃ cmi bg', cmi.Holds n label.bins (bg.features.featureBins i) [] ∧ bg'.features = bg.features ∧
      getCmimScore (R := ℝ) label bg i = (do
        let best ← parallelExtremeElementBy (· < ·) (cmimKernel (R := ℝ) cmi bg') (bg.others i)
        if best ≠ (bg.others i).length then return ⟨← cmimKernel cmi bg' best, best⟩ else return ⟨0, 0⟩) := by
  have labelBins : 0 < label.getBinCount := List.length_pos_of_ne_nil pool.labelled
  have size : (label.binAt 0).length = n := pool.labelLength _ (by
    rw [TBinFeatureSet.binAt, List.getD_eq_getElem?_getD, List.getElem?_eq_getElem labelBins, Option.getD_some]
    exact List.getElem_mem labelBins)
  obtain ⟨loaded, added, held⟩ := fed_label pool (by omega)
  obtain ⟨cmi, added', held'⟩ := addFeatureBins_ok TCmiCalculator.addSecondVariableBin
    (H := fun done cmi => cmi.Holds n label.bins done []) inside held pool
    fun done bin cmi size short held => held.addSecondVariableBin size (by simp; omega)
  have owns : ∃ b < bg.getBinCount, bg.features.owner b = i := by
    have ordered : bg.features.featureBegin i < bg.features.featureEnd i := by
      by_contra empty
      exact bins (by simp [TBinFeatureSet.featureBins, Nat.sub_eq_zero_of_le (Nat.le_of_not_lt empty)])
    have hb : bg.features.featureBegin i < bg.features.getBinCount :=
      Nat.lt_of_lt_of_le ordered TBinFeatureSet.featureEnd_le
    exact ⟨_, hb, (TBinFeatureSet.owner_eq_iff hb).mpr ⟨inside, le_rfl, ordered⟩⟩
  obtain ⟨bg', off, same, listed⟩ := TBackground.searchRange_ok inside owns
  refine ⟨cmi, bg', held', same, ?_⟩
  have first : label.getBin 0 = .ok (label.binAt 0) := getBin_binAt labelBins
  simp only [getCmimScore, first, size, added, added', off, listed, ok_bind]

/-- **When the score belongs to the minimising feature.** The position of the best feature
among the others is taken for its index, which is right iff a minimising feature has only
such features below it; and no calculator with 64 bins may overflow. -/
theorem getCmimScore_minimizes_iff (pool : Pool label bg.features n) (inside : i < bg.getFeatureCount)
    (bins : bg.features.featureBins i ≠ []) (some : bg.others i ≠ [])
    (fits : ∀ f ∈ bg.others i, label.bins.length + (bg.features.featureBins i).length +
      (bg.features.featureBins f).length ≤ 64) :
    (∃ result, getCmimScore label bg i = .ok result ∧ Minimizes label bg n i result) ↔
      (∀ f ∈ bg.others i, ¬ TEntropyCalculator.Wraps n
          (label.bins ++ bg.features.featureBins i ++ bg.features.featureBins f)) ∧
        ∃ m ∈ bg.others i, (∀ f ∈ bg.others i,
          featureCmi label bg.features n i m ≤ featureCmi label bg.features n i f) ∧
            ∀ g < m, g ∈ bg.others i := by
  obtain ⟨other, mem⟩ := List.exists_mem_of_ne_nil _ some
  have few : label.bins.length + (bg.features.featureBins i).length ≤ 64 := by
    have := fits other mem
    omega
  obtain ⟨cmi, bg', held, same, unfolded⟩ := getCmimScore_eq pool inside bins few
  have kernel : ∀ f ∈ bg.others i,
      (¬ TEntropyCalculator.Wraps n (label.bins ++ bg.features.featureBins i ++ bg.features.featureBins f) →
        cmimKernel cmi bg' f = .ok (featureCmi label bg.features n i f)) ∧
      ∀ result : ℝ, cmimKernel cmi bg' f = .ok result → ¬ TEntropyCalculator.Wraps n
        (label.bins ++ bg.features.featureBins i ++ bg.features.featureBins f) := by
    intro f listed
    have lt : f < bg'.getFeatureCount := by
      rw [TBackground.getFeatureCount, same]
      exact TBackground.lt_of_mem_others listed
    have spec := cmimKernel_iff held (same.symm ▸ pool) lt pool.labelled bins (by rw [same]; exact fits f listed)
    rwa [same] at spec
  -- if all kernels return, the search ends at the position of the lowest minimising feature
  have search : (∀ f ∈ bg.others i, ¬ TEntropyCalculator.Wraps n
      (label.bins ++ bg.features.featureBins i ++ bg.features.featureBins f)) →
      ∃ pos m, parallelExtremeElementBy (· < ·) (cmimKernel (R := ℝ) cmi bg') (bg.others i) = .ok pos ∧
        (bg.others i)[pos]? = .some m ∧ Best (· < ·) (featureCmi label bg.features n i) (bg.others i) m := by
    intro fine
    obtain ⟨pos, scanned, at_pos⟩ := parallelExtremeElementBy_ok (p := (· < ·))
      fun f listed => (kernel f listed).1 (fine f listed)
    obtain ⟨m, found⟩ := exists_pick (r := (· < ·)) (f := featureCmi label bg.features n i) some
    exact ⟨pos, m, scanned, at_pos.trans found, pick_best TBackground.others_sorted found⟩
  rw [unfolded]
  constructor
  · rintro ⟨result, returned, minimizes⟩
    obtain ⟨best, scanned, rest⟩ := bind_eq_ok.mp returned
    have fine : ∀ f ∈ bg.others i, ¬ TEntropyCalculator.Wraps n
        (label.bins ++ bg.features.featureBins i ++ bg.features.featureBins f) := by
      intro f listed
      obtain ⟨values, all, -⟩ := bind_eq_ok.mp scanned
      obtain ⟨v, -, called⟩ := (mapM_inv all).2.1 f listed
      exact (kernel f listed).2 v called
    obtain ⟨pos, m, scanned', at_pos, least⟩ := search fine
    cases scanned.symm.trans scanned'
    rw [if_pos (List.getElem?_eq_some_iff.mp at_pos).1.ne] at rest
    obtain ⟨value, -, last⟩ := bind_eq_ok.mp rest
    cases last
    refine ⟨fine, (minimal_position_iff TBackground.others_sorted at_pos least).mp ⟨minimizes.other, ?_⟩⟩
    exact fun f listed => minimizes.score ▸ minimizes.least f listed
  · rintro ⟨fine, minimal⟩
    obtain ⟨pos, m, scanned, at_pos, least⟩ := search fine
    obtain ⟨listed, smallest⟩ := (minimal_position_iff TBackground.others_sorted at_pos least).mpr minimal
    refine ⟨⟨featureCmi label bg.features n i pos, pos⟩, ?_, listed, rfl, smallest⟩
    have lt := (List.getElem?_eq_some_iff.mp at_pos).1
    simp only [scanned, ok_bind, if_pos lt.ne, (kernel pos listed).1 (fine pos listed), pure_eq_ok]

end Score

/-- Given the second of the three other features, the bins of feature 3 say least, and it is found. -/
theorem getCmimScore_minimizes_sixRows :
    ∃ result, getCmimScore (.ofBins [[true, true, false, false, false, false]]) allEnabled 3 = .ok result ∧
      Minimizes (.ofBins [[true, true, false, false, false, false]]) allEnabled 6 3 result ∧
      result.minimizingFeatureIndex = 1 := by
  set label : TBinFeatureSet := .ofBins [[true, true, false, false, false, false]]
  have others : allEnabled.others 3 = [0, 1, 2] := by decide
  have pool : Pool label allEnabled.features 6 := ⟨by decide, by decide, by decide, by decide⟩
  have short : ∀ f ∈ [0, 1, 2],
      (label.bins ++ allEnabled.features.featureBins 3 ++ allEnabled.features.featureBins f).length ≠ 64 := by decide
  have exact (f : ℕ) : featureCmi label allEnabled.features 6 3 f =
      bits 6 (cmiWeight 6 label.bins (sixFeatures.featureBins 3) (sixFeatures.featureBins f)) :=
    (bits_cmiWeight (by decide) ..).symm
  have less : ∀ f ∈ [0, 1, 2], f = 1 ∨
      featureCmi label allEnabled.features 6 3 1 < featureCmi label allEnabled.features 6 3 f := by
    intro f mem
    rw [exact, exact, (bits_strictMono (by decide)).lt_iff_lt]
    revert f
    decide +kernel
  have minimal : ∃ m ∈ allEnabled.others 3, (∀ f ∈ allEnabled.others 3,
      featureCmi label allEnabled.features 6 3 m ≤ featureCmi label allEnabled.features 6 3 f) ∧
        ∀ g < m, g ∈ allEnabled.others 3 := by
    rw [others]
    exact ⟨1, by decide, fun f mem => (less f mem).elim (fun same => same ▸ le_rfl) le_of_lt, by decide⟩
  obtain ⟨result, returned, minimizes⟩ := (getCmimScore_minimizes_iff (i := 3) pool (by decide) (by decide)
    (by rw [others]; decide) (by rw [others]; decide)).mpr
      ⟨fun f listed wraps => short f (others ▸ listed) wraps.1, minimal⟩
  have least := minimizes.least 1 (by rw [others]; decide)
  rw [minimizes.score] at least
  exact ⟨result, returned, minimizes,
    (less _ (others ▸ minimizes.other)).resolve_right least.not_gt⟩

section TwoFeatures

/-- Two features of one bin each, both enabled. -/
def twoFeatures : TBackground :=
  .ofFeatures ((TBinFeatureSet.ofBins [[false, true]]).addFeature [[true, false]]).1

theorem others_zero : twoFeatures.others 0 = [1] := by decide

/-- For the first feature the position found is the first feature itself. -/
theorem getCmimScore_returnsItself :
    ∃ result, getCmimScore (R := ℝ) (.ofBins [[false, true]]) twoFeatures 0 = .ok result ∧
      result.minimizingFeatureIndex = 0 ∧ ¬ Minimizes (.ofBins [[false, true]]) twoFeatures 2 0 result := by
  have pool : Pool (.ofBins [[false, true]]) twoFeatures.features 2 := pool_twoRows
  obtain ⟨cmi, bg', held, same, unfolded⟩ := getCmimScore_eq pool (show 0 < twoFeatures.getFeatureCount by decide)
    (by decide) (by decide)
  have one : ∀ f < 2, (twoFeatures.features.featureBins f).length = 1 := by decide
  have kernel : ∀ f < 2, ∃ value, cmimKernel (R := ℝ) cmi bg' f = .ok value := by
    intro f lt
    have total : [[false, true]].length + (twoFeatures.features.featureBins 0).length +
        (bg'.features.featureBins f).length = 3 := by
      rw [same, one f lt, one 0 (by decide)]
      rfl
    have spec := cmimKernel_iff (f := f) held (same.symm ▸ pool)
      (by rw [TBackground.getFeatureCount, same]; exact lt) (by decide) (by decide) (total.trans_le (by decide))
    refine ⟨_, spec.1 fun wraps => ?_⟩
    have full := wraps.1
    rw [List.length_append, List.length_append] at full
    exact absurd (total.symm.trans full) (by decide)
  obtain ⟨first, atFirst⟩ := kernel 0 (by decide)
  obtain ⟨second, atSecond⟩ := kernel 1 (by decide)
  refine ⟨⟨first, 0⟩, ?_, rfl, fun minimizes => ?_⟩
  · simp [unfolded, others_zero, parallelExtremeElementBy, extremeElementBy, atFirst, atSecond]
  · have other := minimizes.other
    rw [others_zero] at other
    exact absurd (List.mem_singleton.mp other) Nat.zero_ne_one

end TwoFeatures

end Cmicot
