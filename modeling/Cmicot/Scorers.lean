import Cmicot.BinIndex
import Cmicot.FeatureScore
import Cmicot.ScoreLaws
import Cmicot.Selection

/-!
The three bin scorers and the score of a feature (`bin_score.cpp`, `bin_score_normalize.cpp`,
`GetFeatureScore` in `feature_score.cpp`).

The scorers differ in the bins they take helpers and conditions from. `BuildBinScorerForEval` has the
enabled bins and the bin itself as helpers, `BuildEfamBinScorer` the enabled bins and all bins of its
feature, `BuildBtmBinScorer` all bins; the first two have the enabled bins of other features as
conditions, the last one all enabled bins but the bin itself.

* `binScorers_greedy`: when a scorer returns, and that it returns the greedy choices over its own bins.
* `binScorers_bounds`: a returned score never exceeds the label entropy, and with all conditions used it
  lies between what the bin says and what all its helpers say.
* `getFeatureScore_iff`: when a feature has a score, which is the largest normalised one of its bins.
* `getFeatureScore_efam`: with all conditions used, the feature-aware score of a feature lies between
  what its best bin says and what all its bins say.
-/

namespace Cmicot

open Loop Greedy Search

/-! ### Definitions -/

structure TFeatureScore (R : Type) where
  score : R
  binScore : List (TBinScore R)

/-- `EBinScoreNormalization`. -/
inductive EBinScoreNormalization
  | none
  | labelEntropy
  | binEntropy
  | binAndLabelEntropy
deriving DecidableEq

/-- `IBinScorer::Eval(bg, binIndex)`; the background is passed by value. -/
abbrev IBinScorer (R : Type) := TBackground → ℤ → Except Failure (TBinScore R)

/-- `TBinScoreNormalier`. -/
abbrev TBinScoreNormalizer (R : Type) := TBinScore R → TBackground → ℤ → Except Failure R

section Generic

variable {R : Type} [Field R] [Log2 R]

/-- `BuildBinScoreNormalizer(normalizationType, label)`. -/
def buildBinScoreNormalizer (normalizationType : EBinScoreNormalization) (label : TBinFeatureSet) :
    TBinScoreNormalizer R :=
  match normalizationType with
  | .none => fun bs _ _ => .ok bs.score
  | .labelEntropy =>
    let labelEntropy := entropy label.allBins
    fun bs _ _ => .ok (bs.score / labelEntropy)
  | .binEntropy => fun bs background binIndex => do
    return bs.score / entropy [← background.getBin binIndex]
  | .binAndLabelEntropy =>
    let labelEntropy := entropy label.allBins
    fun bs bg binIndex => do return bs.score / labelEntropy / entropy [← bg.getBin binIndex]

variable [LinearOrder R]

/-- `GetScoreWithEvalFeatureAwareMaximization(bg, binIndex, m)`. -/
def getScoreWithEvalFeatureAwareMaximization (bg : TBackground) (binIndex : ℤ) (m : TParallelMiximizer) :
    Except Failure (TBinScore R) := do
  if ¬ (0 ≤ binIndex ∧ binIndex < bg.getBinCount) then throw (.evalIndex binIndex bg.getBinCount)
  let bg ← bg.setFeatureEnabled (← bg.getFeatureIndexByBinIndex binIndex.toNat) true
  let maxSteps ← m.doMaximizePhase bg binIndex
  let bg ← bg.setFeatureEnabled (← bg.getFeatureIndexByBinIndex binIndex.toNat) false
  let (minSteps, _) ← m.doMinimizePhase bg binIndex maxSteps
  return ⟨← lastCmi minSteps, maxSteps, minSteps⟩

/-- `GetScoreWithBtm(bg, binIndex, m)`. -/
def getScoreWithBtm (bg : TBackground) (binIndex : ℤ) (m : TParallelMiximizer) :
    Except Failure (TBinScore R) := do
  let maximizationBg := bg.enabledAll
  let maxSteps ← m.doMaximizePhase maximizationBg binIndex
  let bg ← bg.setBinEnabled binIndex false
  let (minSteps, _) ← m.doMinimizePhase bg binIndex maxSteps
  return ⟨← lastCmi minSteps, maxSteps, minSteps⟩

/-- `BuildEfamBinScorer(label, stepCount)->Eval(bg, binIndex)`. -/
def buildEfamBinScorer (label : TBinFeatureSet) (stepCount : ℤ) : IBinScorer R := fun bg binIndex => do
  getScoreWithEvalFeatureAwareMaximization bg binIndex
    (← TParallelMiximizer.ofLabel label (stepCount - 1) stepCount)

/-- `BuildBtmBinScorer(label, stepCount)->Eval(bg, binIndex)`. -/
def buildBtmBinScorer (label : TBinFeatureSet) (stepCount : ℤ) : IBinScorer R := fun bg binIndex => do
  getScoreWithBtm bg binIndex (← TParallelMiximizer.ofLabel label (stepCount - 1) stepCount)

end Generic

section Score

variable {R : Type} [LinearOrder R]

/-- The loop body of `GetFeatureScore`. -/
def normalizedBinScore (background : TBackground) (binScorer : IBinScorer R)
    (binScoreNormalizer : TBinScoreNormalizer R) (binIndex : ℕ) : Except Failure (TBinScore R) := do
  let currentBinScore ← binScorer background binIndex
  return { currentBinScore with score := ← binScoreNormalizer currentBinScore background binIndex }

/-- `GetFeatureScore(background, featureIndex, binScorer, binScoreNormalizer)`. Without bins the
score of the element at the end is read. -/
def getFeatureScore (background : TBackground) (featureIndex : ℕ) (binScorer : IBinScorer R)
    (binScoreNormalizer : TBinScoreNormalizer R) : Except Failure (TFeatureScore R) := do
  let binIndexRange ← background.getFeatureBinIndexes featureIndex
  let scores ← (TBinFeatureSet.xrange binIndexRange).mapM
    (normalizedBinScore background binScorer binScoreNormalizer)
  let best ← dereference scores (← extremeElementBy (· > ·) (fun s => .ok s.score) scores)
  return ⟨best.score, scores⟩

end Score

/-! ### Backgrounds of the phases -/

namespace TBackground

variable {bg bg' : TBackground} {e b : ℕ}

/-- The enabled bins and all bins of the feature of `e`. -/
def withFeature (bg : TBackground) (e : ℕ) : List ℕ :=
  (List.range bg.getBinCount).filter fun b => bg.features.owner b = bg.features.owner e || bg.enabled b

/-- The enabled bins but `e`. -/
def without (bg : TBackground) (e : ℕ) : List ℕ := bg.enabledBinIndexes.filter (· ≠ e)

theorem withFeature_sorted : (bg.withFeature e).Pairwise (· < ·) := List.pairwise_lt_range.filter _

theorem without_sorted : (bg.without e).Pairwise (· < ·) := enabledBinIndexes_sorted.filter _

theorem mem_withFeature :
    b ∈ bg.withFeature e ↔ b < bg.getBinCount ∧ (bg.features.owner b = bg.features.owner e ∨ bg.enabled b = true) := by
  simp [withFeature]

theorem mem_without : b ∈ bg.without e ↔ bg.enabled b = true ∧ b ≠ e := by
  simp [without]

/-- Enabling the feature of a bin. -/
theorem enable_feature (h : e < bg.getBinCount) :
    ∃ bg', bg.setFeatureEnabled (bg.features.owner e) true = .ok bg' ∧ bg'.features = bg.features ∧
      bg'.enabledBinIndexes = bg.withFeature e := by
  obtain ⟨bg', set, same, enabled, -⟩ := setFeatureEnabled_ok (TBinFeatureSet.owner_lt h) true
  refine ⟨bg', set, same, ?_⟩
  have count : bg'.getBinCount = bg.getBinCount := by rw [getBinCount, same]; rfl
  rw [enabledBinIndexes_eq, count, withFeature]
  refine List.filter_congr fun b mem => ?_
  rw [enabled b (List.mem_range.mp mem)]
  by_cases owner : bg.features.owner b = bg.features.owner e <;> simp [owner]

/-- Disabling the feature again. -/
theorem disable_enabled_feature (h : e < bg.getBinCount)
    (set : bg.setFeatureEnabled (bg.features.owner e) true = .ok bg') :
    ∃ bg'', bg'.setFeatureEnabled (bg.features.owner e) false = .ok bg'' ∧ bg''.features = bg.features ∧
      bg''.enabledBinIndexes = bg.outside e := by
  obtain ⟨on, set', same, enabled, -⟩ := setFeatureEnabled_ok (TBinFeatureSet.owner_lt h) true
  obtain rfl : bg' = on := Except.ok.inj (set.symm.trans set')
  have inside : bg.features.owner e < bg'.getFeatureCount := by
    rw [getFeatureCount, same]
    exact TBinFeatureSet.owner_lt h
  obtain ⟨bg'', off, same', enabled', -⟩ := setFeatureEnabled_ok inside false
  refine ⟨bg'', off, same'.trans same, ?_⟩
  have count : bg'.getBinCount = bg.getBinCount := by rw [getBinCount, same]; rfl
  have count' : bg''.getBinCount = bg.getBinCount := by rw [getBinCount, same', same]; rfl
  rw [outside, enabledBinIndexes_eq, enabledBinIndexes_eq, count', List.filter_filter]
  refine List.filter_congr fun b mem => ?_
  have inside := List.mem_range.mp mem
  rw [enabled' b (count ▸ inside), same, enabled b inside]
  by_cases owner : bg.features.owner b = bg.features.owner e <;> simp [owner]

/-- Enabling everything. -/
theorem enabledBinIndexes_enabledAll : bg.enabledAll.enabledBinIndexes = List.range bg.getBinCount := by
  rw [enabledBinIndexes_eq]
  refine List.filter_eq_self.mpr fun b mem => ?_
  have inside : b < bg.isBinEnabled.length := bg.size ▸ List.mem_range.mp mem
  change (fill bg.isBinEnabled 0 bg.isBinEnabled.length true).getD b false = true
  rw [getD_fill _ _ _ _ _ inside, if_pos ⟨Nat.zero_le _, inside⟩]

end TBackground

/-! ### Two phases on two backgrounds -/

section Phases

variable {label features : TBinFeatureSet} {n e : ℕ} {s : ℤ} {m : TParallelMiximizer} {bg₁ bg₂ : TBackground}
variable {result : TBinScore ℝ}

/-- What the three scorers do once they have a background for each phase. -/
noncomputable def twoPhases (m : TParallelMiximizer) (bg₁ bg₂ : TBackground) (e : ℤ) :
    Except Failure (TBinScore ℝ) := do
  let maxSteps ← m.doMaximizePhase bg₁ e
  let (minSteps, _) ← m.doMinimizePhase bg₂ e maxSteps
  return ⟨← lastCmi minSteps, maxSteps, minSteps⟩

/-- The greedy choices of `s - 1` helpers and `s` conditions, and what is left of the information in
the end. -/
structure GreedyScore (cmi : Oracle ℝ) (helpers conditions : List ℕ) (e s : ℕ) (steps : Entry ℝ)
    (result : TBinScore ℝ) : Prop where
  helped : IsGreedy (· > ·) (helperValue cmi e) helpers (s - 1) steps.maxSteps
  conditioned : IsGreedy (· < ·) (conditionValue cmi e (elements steps.maxSteps)) conditions s steps.minSteps
  result : result = ⟨value cmi e steps, toSteps steps.maxSteps, toSteps steps.minSteps⟩

/-- The phases of a scorer: the step counts and the bins to choose from. -/
structure Prepared (label features : TBinFeatureSet) (n : ℕ) (s : ℤ) (m : TParallelMiximizer)
    (bg₁ bg₂ : TBackground) : Prop where
  maxSteps : m.maxSteps = s - 1
  minSteps : m.minSteps = s
  fed : Fed m.cmi label features n [] []
  first : bg₁.features = features
  second : bg₂.features = features

theorem Prepared.scratch (prepared : Prepared label features n s m bg₁ bg₂) (pool : Pool label features n)
    (h : e < features.getBinCount) {k : ℕ} (steps : s = k) (pos : 0 < k)
    (helperRoom : k - 1 ≤ bg₁.enabledBinIndexes.length) (room : k ≤ bg₂.enabledBinIndexes.length)
    (few : label.bins.length + 2 * k ≤ 62) :
    ∃ steps, Search.scratch (cmiAt label features n) bg₁.enabledBinIndexes bg₂.enabledBinIndexes e k = steps ∧
      twoPhases m bg₁ bg₂ e =
        .ok ⟨value (cmiAt label features n) e steps, toSteps steps.maxSteps, toSteps steps.minSteps⟩ := by
  refine ⟨_, rfl, ?_⟩
  have sorted₁ : bg₁.enabledBinIndexes.Pairwise (· < ·) := TBackground.enabledBinIndexes_sorted
  have sorted₂ : bg₂.enabledBinIndexes.Pairwise (· < ·) := TBackground.enabledBinIndexes_sorted
  have count₁ : bg₁.getBinCount = features.getBinCount := by rw [TBackground.getBinCount, prepared.first]
  have count₂ : bg₂.getBinCount = features.getBinCount := by rw [TBackground.getBinCount, prepared.second]
  have maximized := TParallelMiximizer.doMaximizePhase_eq (k := k - 1) (prepared.first.symm ▸ pool)
    (prepared.first.symm ▸ prepared.fed) (by rw [prepared.maxSteps]; omega) helperRoom (by omega) (count₁ ▸ h)
  rw [prepared.first] at maximized
  set helpers := greedy (· > ·) (helperValue (cmiAt label features n) e) bg₁.enabledBinIndexes (k - 1)
  have length : helpers.length = k - 1 := greedy_length sorted₁ helperRoom
  have inside : ∀ b ∈ (elements helpers).take k, b < bg₂.getBinCount := fun b mem => by
    have chosen := greedy_subset sorted₁ helperRoom b (List.mem_of_mem_take mem)
    rw [count₂, ← count₁]
    exact TBackground.lt_of_enabled (TBackground.mem_enabledBinIndexes.mp chosen)
  obtain ⟨bg₃, minimized, -⟩ := TParallelMiximizer.doMinimizePhase_eq helpers (prepared.second.symm ▸ pool)
    (prepared.second.symm ▸ prepared.fed) (prepared.minSteps.trans steps) room (by omega) inside (count₂ ▸ h)
  rw [prepared.second] at minimized
  have last := lastCmi_scratch (cmiAt label features n) sorted₁ sorted₂ e pos helperRoom room
  rw [twoPhases, maximized, ok_bind, minimized, ok_bind]
  change (lastCmi (toSteps (Search.scratch (cmiAt label features n) bg₁.enabledBinIndexes
    bg₂.enabledBinIndexes e k).minSteps) >>= fun score => _) = _
  rw [last]
  rfl

/-- Without a step, or with fewer bins than steps, one of the phases throws. -/
theorem Prepared.fails (prepared : Prepared label features n s m bg₁ bg₂)
    (none : s ≤ 0 ∨ (bg₂.enabledBinIndexes.length : ℤ) < s) : ∃ why, twoPhases m bg₁ bg₂ e = .error why := by
  rw [twoPhases]
  rcases none with none | few
  · obtain ⟨bins, counted, -⟩ := TBackground.enabledBins_length bg₁
    have negative : m.maxSteps < 0 := by rw [prepared.maxSteps]; omega
    have enough : ¬ (bins.length : ℤ) < m.maxSteps := by omega
    refine ⟨.lengthError, ?_⟩
    simp only [TParallelMiximizer.doMaximizePhase, counted, ok_bind, enough, if_false, negative, if_true,
      throw_eq_error, error_bind]
  · cases m.doMaximizePhase (R := ℝ) bg₁ (e : ℤ) with
    | error why => exact ⟨why, rfl⟩
    | ok helpers =>
      rw [ok_bind, TParallelMiximizer.doMinimizePhase_few (by rw [prepared.minSteps]; exact few)]
      exact ⟨_, rfl⟩

/-- **When the two phases return**, and that they return the greedy choices. -/
theorem Prepared.iff (prepared : Prepared label features n s m bg₁ bg₂) (pool : Pool label features n)
    (h : e < features.getBinCount) (more : bg₂.enabledBinIndexes.length ≤ bg₁.enabledBinIndexes.length)
    (few : label.bins.length + 2 * max s 0 ≤ 62) :
    twoPhases m bg₁ bg₂ e = .ok result ↔ 0 < s ∧ s ≤ bg₂.enabledBinIndexes.length ∧
      ∃ steps, GreedyScore (cmiAt label features n) bg₁.enabledBinIndexes bg₂.enabledBinIndexes e s.toNat steps
        result := by
  have sorted₁ : bg₁.enabledBinIndexes.Pairwise (· < ·) := TBackground.enabledBinIndexes_sorted
  have sorted₂ : bg₂.enabledBinIndexes.Pairwise (· < ·) := TBackground.enabledBinIndexes_sorted
  by_cases runs : 0 < s ∧ s ≤ bg₂.enabledBinIndexes.length
  case neg =>
    obtain ⟨why, failed⟩ := prepared.fails (e := e) (by omega)
    rw [failed]
    exact iff_of_false (by simp) fun ⟨pos, room, _⟩ => runs ⟨pos, room⟩
  obtain ⟨pos, room⟩ := runs
  obtain ⟨k, rfl⟩ := Int.eq_ofNat_of_zero_le pos.le
  have room' : k ≤ bg₂.enabledBinIndexes.length := by exact_mod_cast room
  have helperRoom : k - 1 ≤ bg₁.enabledBinIndexes.length := by omega
  obtain ⟨steps, computed, ran⟩ := prepared.scratch pool h rfl (by omega) helperRoom room' (by omega)
  rw [ran, Except.ok.injEq, Int.toNat_natCast]
  constructor
  · rintro rfl
    refine ⟨pos, room, steps, ?_, ?_, rfl⟩
    · rw [← computed]
      exact greedy_isGreedy sorted₁ helperRoom
    · rw [← computed]
      exact greedy_isGreedy sorted₂ room'
  · rintro ⟨-, -, steps', helped, conditioned, rfl⟩
    have same : steps' = steps := by
      have max := helped.eq_greedy sorted₁ helperRoom
      have min := conditioned.eq_greedy sorted₂ room'
      rw [← computed, Search.scratch, ← max, ← min]
    rw [same]

end Phases

/-! ### The three scorers -/

/-- The scorers of `bin_score.cpp`. -/
inductive EScorer
  | forEval
  | efam
  | btm
deriving DecidableEq

namespace EScorer

/-- An evaluation with `s` conditions and one helper less, as all callers have it. -/
def eval {R : Type} [Field R] [LinearOrder R] [Log2 R] (label : TBinFeatureSet) (s : ℤ) : EScorer → IBinScorer R
  | forEval => buildBinScorerForEval label (s - 1) s
  | efam => buildEfamBinScorer label s
  | btm => buildBtmBinScorer label s

/-- The bins the helpers are chosen from. -/
def helpers (bg : TBackground) (e : ℕ) : EScorer → List ℕ
  | forEval => bg.withBin e
  | efam => bg.withFeature e
  | btm => List.range bg.getBinCount

/-- The bins the conditions are chosen from. -/
def conditions (bg : TBackground) (e : ℕ) : EScorer → List ℕ
  | forEval | efam => bg.outside e
  | btm => bg.without e

variable {scorer : EScorer} {label : TBinFeatureSet} {bg : TBackground} {n e : ℕ} {s : ℤ} {result : TBinScore ℝ}

theorem helpers_sorted : (scorer.helpers bg e).Pairwise (· < ·) := by
  cases scorer with
  | forEval => exact TBackground.withBin_sorted
  | efam => exact TBackground.withFeature_sorted
  | btm => exact List.pairwise_lt_range

theorem conditions_sorted : (scorer.conditions bg e).Pairwise (· < ·) := by
  cases scorer with
  | forEval | efam => exact TBackground.outside_sorted
  | btm => exact TBackground.without_sorted

/-- Every condition could be a helper, too. -/
theorem conditions_subset : scorer.conditions bg e ⊆ scorer.helpers bg e := by
  cases scorer with
  | forEval => exact TBackground.outside_subset
  | efam =>
    intro b mem
    have on := (TBackground.mem_outside.mp mem).1
    exact TBackground.mem_withFeature.mpr ⟨TBackground.lt_of_enabled on, .inr on⟩
  | btm => exact fun b mem => List.mem_range.mpr (TBackground.lt_of_enabled (TBackground.mem_without.mp mem).1)

theorem conditions_length_le : (scorer.conditions bg e).length ≤ (scorer.helpers bg e).length :=
  (List.subperm_of_subset conditions_sorted.nodup conditions_subset).length_le

/-- **An evaluation is the two phases over the bins of the scorer.** -/
theorem eval_eq (scorer : EScorer) (pool : Pool label bg.features n) (h : e < bg.getBinCount)
    (few : label.bins.length ≤ 64) (s : ℤ) :
    ∃ m bg₁ bg₂, Prepared label bg.features n s m bg₁ bg₂ ∧ bg₁.enabledBinIndexes = scorer.helpers bg e ∧
      bg₂.enabledBinIndexes = scorer.conditions bg e ∧ scorer.eval label s bg e = twoPhases m bg₁ bg₂ e := by
  have inRange : 0 ≤ (e : ℤ) ∧ (e : ℤ) < bg.getBinCount := ⟨by omega, by exact_mod_cast h⟩
  cases scorer with
  | forEval =>
    obtain ⟨m, bg₁, bg₂, maxSteps, minSteps, fed, same₁, enabled₁, same₂, enabled₂, phases⟩ :=
      buildBinScorerForEval_phases pool h few (s - 1) s
    exact ⟨m, bg₁, bg₂, ⟨maxSteps, minSteps, fed, same₁, same₂⟩, enabled₁, enabled₂, phases⟩
  | efam =>
    obtain ⟨m, built, maxSteps, minSteps, fed⟩ := TParallelMiximizer.ofLabel_ok pool few (s - 1) s
    obtain ⟨bg₁, on, same₁, enabled₁⟩ := TBackground.enable_feature h
    obtain ⟨bg₂, off, same₂, enabled₂⟩ := TBackground.disable_enabled_feature h on
    refine ⟨m, bg₁, bg₂, ⟨maxSteps, minSteps, fed, same₁, same₂⟩, enabled₁, enabled₂, ?_⟩
    have owner : bg.getFeatureIndexByBinIndex e = .ok (bg.features.owner e) := if_pos h
    have owner₁ : bg₁.getFeatureIndexByBinIndex e = .ok (bg.features.owner e) := by
      rw [TBackground.getFeatureIndexByBinIndex, same₁]
      exact owner
    simp only [eval, buildEfamBinScorer, built, ok_bind, getScoreWithEvalFeatureAwareMaximization, inRange, owner,
      owner₁, on, Int.toNat_natCast, off]
    rfl
  | btm =>
    obtain ⟨m, built, maxSteps, minSteps, fed⟩ := TParallelMiximizer.ofLabel_ok pool few (s - 1) s
    obtain ⟨bg₂, off, same₂, enabled₂⟩ := TBackground.setBinEnabled_false_ok h
    refine ⟨m, bg.enabledAll, bg₂, ⟨maxSteps, minSteps, fed, rfl, same₂⟩, TBackground.enabledBinIndexes_enabledAll,
      enabled₂, ?_⟩
    simp only [eval, buildBtmBinScorer, built, ok_bind, getScoreWithBtm, off]
    rfl

/-- The greedy choices exist as long as there are enough conditions to choose from. -/
theorem exists_greedyScore (scorer : EScorer) (bg : TBackground) (e : ℕ) (cmi : Oracle ℝ) {k : ℕ}
    (room : k ≤ (scorer.conditions bg e).length) :
    ∃ steps result, GreedyScore cmi (scorer.helpers bg e) (scorer.conditions bg e) e k steps result := by
  have le : (scorer.conditions bg e).length ≤ (scorer.helpers bg e).length := conditions_length_le
  exact ⟨Search.scratch cmi (scorer.helpers bg e) (scorer.conditions bg e) e k, _,
    greedy_isGreedy helpers_sorted (by omega), greedy_isGreedy conditions_sorted room, rfl⟩

end EScorer

section Laws

variable {scorer : EScorer} {label : TBinFeatureSet} {bg : TBackground} {n e : ℕ} {s : ℤ} {result : TBinScore ℝ}

/-- When a scorer returns, and what. -/
theorem EScorer.eval_iff (scorer : EScorer) (pool : Pool label bg.features n) (h : e < bg.getBinCount)
    (few : label.bins.length + 2 * max s 0 ≤ 62) :
    scorer.eval label s bg e = .ok result ↔ 0 < s ∧ s ≤ (scorer.conditions bg e).length ∧
      ∃ steps, GreedyScore (cmiAt label bg.features n) (scorer.helpers bg e) (scorer.conditions bg e) e s.toNat steps
        result := by
  obtain ⟨m, bg₁, bg₂, prepared, helpers, conditions, same⟩ := scorer.eval_eq pool h (by omega) s
  rw [same, ← helpers, ← conditions]
  exact prepared.iff pool h (by rw [helpers, conditions]; exact EScorer.conditions_length_le) few

theorem EScorer.exists_eval (scorer : EScorer) (pool : Pool label bg.features n) (h : e < bg.getBinCount)
    (few : label.bins.length + 2 * max s 0 ≤ 62) (pos : 0 < s) (room : s ≤ (scorer.conditions bg e).length) :
    ∃ result, scorer.eval (R := ℝ) label s bg e = .ok result := by
  obtain ⟨steps, result, scored⟩ := scorer.exists_greedyScore bg e (cmiAt label bg.features n) (k := s.toNat)
    (by omega)
  exact ⟨result, (scorer.eval_iff pool h few).mpr ⟨pos, room, steps, scored⟩⟩

/-- **When the scorers return, and what**: each needs a step, and as many bins to choose conditions from
as steps; then it returns the greedy choices of its helpers and of its conditions, and what is left
of the information in the end. -/
theorem binScorers_greedy (pool : Pool label bg.features n) (h : e < bg.getBinCount)
    (few : label.bins.length + 2 * max s 0 ≤ 62) :
    (buildBinScorerForEval label (s - 1) s bg e = .ok result ↔ 0 < s ∧ s ≤ (bg.outside e).length ∧
      ∃ steps, GreedyScore (cmiAt label bg.features n) (bg.withBin e) (bg.outside e) e s.toNat steps result) ∧
    (buildEfamBinScorer label s bg e = .ok result ↔ 0 < s ∧ s ≤ (bg.outside e).length ∧
      ∃ steps, GreedyScore (cmiAt label bg.features n) (bg.withFeature e) (bg.outside e) e s.toNat steps result) ∧
    (buildBtmBinScorer label s bg e = .ok result ↔ 0 < s ∧ s ≤ (bg.without e).length ∧
      ∃ steps, GreedyScore (cmiAt label bg.features n) (List.range bg.getBinCount) (bg.without e) e s.toNat steps
        result) :=
  ⟨EScorer.forEval.eval_iff pool h few, EScorer.efam.eval_iff pool h few, EScorer.btm.eval_iff pool h few⟩

/-- Two steps for a bin next to its copy. -/
theorem binScorers_greedy_copies : ∃ result : TBinScore ℝ, buildBtmBinScorer parity 2 copies 3 = .ok result := by
  obtain ⟨steps, result, scored⟩ := EScorer.btm.exists_greedyScore copies 3
    (cmiAt parity copies.features 4) (show 2 ≤ (EScorer.btm.conditions copies 3).length by decide)
  exact ⟨result, (binScorers_greedy pool_copies (by decide) (by decide)).2.2.mpr
    ⟨by decide, by decide, steps, scored⟩⟩

/-- More bins say more, and bins of the condition say nothing. -/
theorem cmiAt_mono {features : TBinFeatureSet} {second second' condition : List ℕ}
    (covered : ∀ b ∈ second, b ∈ second' ∨ b ∈ condition) :
    cmiAt label features n second condition ≤ cmiAt label features n second' condition := by
  have joined : cmiAt label features n (second ++ second') condition = cmiAt label features n second' condition := by
    refine cmiAt_congr (fun b => Iff.rfl) fun b => ?_
    have := covered b
    rw [List.mem_append]
    tauto
  rw [← joined, cmiAt_append]
  exact le_add_of_nonneg_right cmiAt_nonneg

/-- What a greedy score says once all conditions are used. -/
theorem GreedyScore.exhaustive {features : TBinFeatureSet} {helpers conditions : List ℕ} {k : ℕ} {steps : Entry ℝ}
    (scored : GreedyScore (cmiAt label features n) helpers conditions e k steps result) (all : k = conditions.length) :
    result.score = cmiAt label features n (e :: elements steps.maxSteps) conditions := by
  have mem (b : ℕ) : b ∈ elements steps.minSteps ↔ b ∈ conditions :=
    ((List.subperm_of_subset scored.conditioned.nodup scored.conditioned.subset).perm_of_length_le
      (by rw [length_elements, scored.conditioned.length, all])).mem_iff
  rw [scored.result]
  exact cmiAt_congr mem fun b => by rw [mem]

/-- A score that is returned is never negative and never exceeds the label entropy. -/
theorem EScorer.score_bounds {scorer : EScorer} {index : ℤ} (ran : scorer.eval label s bg index = .ok result) :
    0 ≤ result.score ∧ result.score ≤ entropy label.allBins := by
  cases scorer with
  | forEval =>
    obtain ⟨m, built, ran⟩ := bind_eq_ok.mp ran
    rw [getBinScore] at ran
    obtain ⟨-, ran⟩ := guard_eq_ok.mp ran
    obtain ⟨bg₁, -, ran⟩ := bind_eq_ok.mp ran
    obtain ⟨maxSteps, -, ran⟩ := bind_eq_ok.mp ran
    obtain ⟨feature, -, ran⟩ := bind_eq_ok.mp ran
    obtain ⟨bg₂, -, ran⟩ := bind_eq_ok.mp ran
    obtain ⟨⟨minSteps, bg₃⟩, minimized, ran⟩ := bind_eq_ok.mp ran
    obtain ⟨score, last, ran⟩ := bind_eq_ok.mp ran
    cases ran
    exact score_bounds_of_phases built minimized last
  | efam =>
    obtain ⟨m, built, ran⟩ := bind_eq_ok.mp ran
    rw [getScoreWithEvalFeatureAwareMaximization] at ran
    obtain ⟨-, ran⟩ := guard_eq_ok.mp ran
    obtain ⟨feature, -, ran⟩ := bind_eq_ok.mp ran
    obtain ⟨bg₁, -, ran⟩ := bind_eq_ok.mp ran
    obtain ⟨maxSteps, -, ran⟩ := bind_eq_ok.mp ran
    obtain ⟨feature', -, ran⟩ := bind_eq_ok.mp ran
    obtain ⟨bg₂, -, ran⟩ := bind_eq_ok.mp ran
    obtain ⟨⟨minSteps, bg₃⟩, minimized, ran⟩ := bind_eq_ok.mp ran
    obtain ⟨score, last, ran⟩ := bind_eq_ok.mp ran
    cases ran
    exact score_bounds_of_phases built minimized last
  | btm =>
    obtain ⟨m, built, ran⟩ := bind_eq_ok.mp ran
    obtain ⟨maxSteps, -, ran⟩ := bind_eq_ok.mp ran
    obtain ⟨bg₁, -, ran⟩ := bind_eq_ok.mp ran
    obtain ⟨⟨minSteps, bg₂⟩, minimized, ran⟩ := bind_eq_ok.mp ran
    obtain ⟨score, last, ran⟩ := bind_eq_ok.mp ran
    cases ran
    exact score_bounds_of_phases built minimized last

/-- With as many steps as there are conditions to choose from, all of them are used. -/
theorem EScorer.exhaustive_bounds (scorer : EScorer) (pool : Pool label bg.features n) (h : e < bg.getBinCount)
    (few : label.bins.length + 2 * max s 0 ≤ 62) (ran : scorer.eval label s bg e = .ok result)
    (all : s = (scorer.conditions bg e).length) :
    cmiAt label bg.features n [e] (scorer.conditions bg e) ≤ result.score ∧
      result.score ≤ cmiAt label bg.features n
        (e :: (scorer.helpers bg e).filter (· ∉ scorer.conditions bg e)) (scorer.conditions bg e) := by
  obtain ⟨pos, room, steps, scored⟩ := (scorer.eval_iff pool h few).mp ran
  rw [scored.exhaustive (by omega)]
  refine ⟨cmiAt_mono (by simp), cmiAt_mono fun b mem => ?_⟩
  rcases List.mem_cons.mp mem with rfl | helper
  · exact .inl List.mem_cons_self
  · by_cases known : b ∈ scorer.conditions bg e
    · exact .inr known
    · exact .inl (List.mem_cons_of_mem _ (List.mem_filter.mpr
        ⟨scored.helped.subset b helper, decide_eq_true known⟩))

/-- **What a score says**: whatever is returned is not negative and does not exceed the label entropy; and with as
many steps as there are conditions to choose from, it is at least what the bin says under all of them, and
at most what it says together with all helpers. -/
theorem binScorers_bounds (scorer : EScorer) (pool : Pool label bg.features n) (h : e < bg.getBinCount)
    (ran : scorer.eval label s bg e = .ok result) :
    0 ≤ result.score ∧ result.score ≤ entropy label.allBins ∧
      (s = (scorer.conditions bg e).length → label.bins.length + 2 * s ≤ 62 →
        cmiAt label bg.features n [e] (scorer.conditions bg e) ≤ result.score ∧
        result.score ≤ cmiAt label bg.features n
          (e :: (scorer.helpers bg e).filter (· ∉ scorer.conditions bg e)) (scorer.conditions bg e)) := by
  obtain ⟨nonneg, below⟩ := EScorer.score_bounds ran
  exact ⟨nonneg, below, fun all few => scorer.exhaustive_bounds pool h (by omega) ran all⟩

/-- All other bins are used as conditions. -/
theorem binScorers_bounds_copies : ∃ result : TBinScore ℝ, buildEfamBinScorer parity 3 copies 3 = .ok result ∧
    cmiAt parity copies.features 4 [3] [0, 1, 2] ≤ result.score ∧ result.score ≤ entropy parity.allBins := by
  obtain ⟨result, ran⟩ := EScorer.efam.exists_eval (s := 3) pool_copies (show 3 < copies.getBinCount by decide)
    (by decide) (by decide) (by decide)
  obtain ⟨-, below, exhaustive⟩ := binScorers_bounds .efam pool_copies (by decide) ran
  exact ⟨result, ran, (exhaustive (by decide) (by decide)).1, below⟩

end Laws

/-! ### The score of a feature -/

section FeatureScore

variable {bg : TBackground} {f b : ℕ}

/-- The bins of a feature. -/
def TBackground.ownBins (bg : TBackground) (f : ℕ) : List ℕ :=
  TBinFeatureSet.xrange (bg.features.featureBegin f, bg.features.featureEnd f)

theorem TBackground.ownBins_sorted : (bg.ownBins f).Pairwise (· < ·) := List.pairwise_lt_range'

theorem TBackground.mem_ownBins (inside : f < bg.getFeatureCount) :
    b ∈ bg.ownBins f ↔ b < bg.getBinCount ∧ bg.features.owner b = f := by
  rw [ownBins, TBinFeatureSet.mem_xrange]
  constructor
  · intro within
    have hb : b < bg.features.getBinCount := Nat.lt_of_lt_of_le within.2 TBinFeatureSet.featureEnd_le
    exact ⟨hb, (TBinFeatureSet.owner_eq_iff hb).mpr ⟨inside, within⟩⟩
  · rintro ⟨hb, owner⟩
    exact ((TBinFeatureSet.owner_eq_iff hb).mp owner).2

section Scan

variable {R : Type} [LinearOrder R] {binScorer : IBinScorer R} {normalizer : TBinScoreNormalizer R}
variable {scored : TFeatureScore R}

/-- With all bins scored, the score is the largest one. -/
theorem getFeatureScore_ok (value : ℕ → TBinScore R) (inside : f < bg.getFeatureCount) (some : bg.ownBins f ≠ [])
    (each : ∀ b ∈ bg.ownBins f, normalizedBinScore bg binScorer normalizer b = .ok (value b)) :
    ∃ best, Best (· > ·) (fun b => (value b).score) (bg.ownBins f) best ∧
      getFeatureScore bg f binScorer normalizer = .ok ⟨(value best).score, (bg.ownBins f).map value⟩ := by
  obtain ⟨pos, scanned, at_pos⟩ := extremeElementBy_ok (p := ((· > ·) : R → R → Prop))
    (g := fun b => .ok (value b).score) (f := fun b => (value b).score) (l := bg.ownBins f) fun b _ => rfl
  obtain ⟨best, found⟩ := exists_pick (r := ((· > ·) : R → R → Prop)) (f := fun b => (value b).score) some
  refine ⟨best, pick_best TBackground.ownBins_sorted found, ?_⟩
  have scores : (bg.ownBins f).mapM (normalizedBinScore bg binScorer normalizer) = .ok ((bg.ownBins f).map value) :=
    mapM_ok each
  have position : extremeElementBy (· > ·) (fun x : TBinScore R => Except.ok x.score) ((bg.ownBins f).map value) =
      .ok pos := by
    rw [← extremeElementBy_map (f := TBinScore.score) fun x _ => rfl, List.map_map, ← scanned]
    exact extremeElementBy_map fun b _ => rfl
  have chosen : dereference ((bg.ownBins f).map value) pos = .ok (value best) := by
    rw [dereference, List.getElem?_map, at_pos.trans found]
    rfl
  have range : bg.getFeatureBinIndexes f = .ok (bg.features.featureBegin f, bg.features.featureEnd f) := if_pos inside
  rw [getFeatureScore, range, ok_bind]
  change ((bg.ownBins f).mapM _ >>= fun scores => _) = _
  rw [scores, ok_bind, position, ok_bind, chosen]
  rfl

/-- A feature with a score has bins, and all of them are scored. -/
theorem of_getFeatureScore (ran : getFeatureScore bg f binScorer normalizer = .ok scored) :
    f < bg.getFeatureCount ∧ bg.ownBins f ≠ [] ∧
      ∀ b ∈ bg.ownBins f, ∃ result, normalizedBinScore bg binScorer normalizer b = .ok result := by
  obtain ⟨range, found, rest⟩ := bind_eq_ok.mp ran
  obtain ⟨inside, rfl⟩ := TBinFeatureSet.of_getFeatureBinIndexes found
  obtain ⟨scores, all, rest⟩ := bind_eq_ok.mp rest
  obtain ⟨pos, -, rest⟩ := bind_eq_ok.mp rest
  obtain ⟨best, chosen, -⟩ := bind_eq_ok.mp rest
  have evaluated := (mapM_inv all).2.1
  refine ⟨inside, fun none => ?_, fun b mem => ?_⟩
  · have empty : scores = [] := by
      have length := (mapM_inv all).1
      rw [show TBinFeatureSet.xrange _ = [] from none] at length
      exact List.eq_nil_of_length_eq_zero length
    rw [empty] at chosen
    cases chosen
  · obtain ⟨result, -, called⟩ := evaluated b mem
    exact ⟨result, called⟩

/-- **When a feature has a score, and which**: it needs bins, and all of them must be scored. -/
theorem getFeatureScore_eq_ok : getFeatureScore bg f binScorer normalizer = .ok scored ↔
    f < bg.getFeatureCount ∧ ∃ value : ℕ → TBinScore R,
      (∀ b ∈ bg.ownBins f, normalizedBinScore bg binScorer normalizer b = .ok (value b)) ∧
      ∃ best, Best (· > ·) (fun b => (value b).score) (bg.ownBins f) best ∧
        scored = ⟨(value best).score, (bg.ownBins f).map value⟩ := by
  constructor
  · intro ran
    obtain ⟨inside, some, all⟩ := of_getFeatureScore ran
    have result (b : ℕ) : ∃ r, b ∈ bg.ownBins f → normalizedBinScore bg binScorer normalizer b = .ok r := by
      by_cases mem : b ∈ bg.ownBins f
      · exact (all b mem).imp fun _ called _ => called
      · obtain ⟨other, owned⟩ := List.exists_mem_of_ne_nil _ some
        exact (all other owned).imp fun _ _ mem' => absurd mem' mem
    choose value called using result
    obtain ⟨best, largest, ran'⟩ := getFeatureScore_ok value inside some called
    exact ⟨inside, value, called, best, largest, Except.ok.inj (ran.symm.trans ran')⟩
  · rintro ⟨inside, value, called, best, largest, rfl⟩
    obtain ⟨best', largest', ran⟩ := getFeatureScore_ok value inside (List.ne_nil_of_mem largest.1) called
    rwa [largest.unique largest']

end Scan

section Pools

variable {label : TBinFeatureSet} {n : ℕ} {s : ℤ} {normalization : EBinScoreNormalization} {scored : TFeatureScore ℝ}

/-- The score of a bin after normalisation. -/
noncomputable def EBinScoreNormalization.normalized (label : TBinFeatureSet) (bg : TBackground) (b : ℕ) (score : ℝ) :
    EBinScoreNormalization → ℝ
  | none => score
  | labelEntropy => score / entropy label.allBins
  | binEntropy => score / entropy [bg.features.binAt b]
  | binAndLabelEntropy => score / entropy label.allBins / entropy [bg.features.binAt b]

/-- The entropies that the normalisation of the bins of a feature divides by are not zero. -/
def EBinScoreNormalization.Divides (label : TBinFeatureSet) (bg : TBackground) (f : ℕ) : EBinScoreNormalization → Prop
  | none => True
  | labelEntropy => 0 < entropy (R := ℝ) label.allBins
  | binEntropy => ∀ b ∈ bg.ownBins f, 0 < entropy (R := ℝ) [bg.features.binAt b]
  | binAndLabelEntropy => 0 < entropy (R := ℝ) label.allBins ∧
      ∀ b ∈ bg.ownBins f, 0 < entropy (R := ℝ) [bg.features.binAt b]

theorem buildBinScoreNormalizer_ok (normalization : EBinScoreNormalization) (h : b < bg.getBinCount)
    (result : TBinScore ℝ) :
    buildBinScoreNormalizer normalization label result bg b =
      .ok (normalization.normalized label bg b result.score) := by
  have found : bg.getBin (b : ℤ) = .ok (bg.features.binAt b) := getBin_binAt h
  cases normalization <;> simp only [buildBinScoreNormalizer, found, ok_bind, pure_eq_ok] <;> rfl

/-- The evaluations behind the score of a feature. -/
theorem normalizedBinScore_eq_ok (h : b < bg.getBinCount) {binScorer : IBinScorer ℝ} {result : TBinScore ℝ} :
    normalizedBinScore bg binScorer (buildBinScoreNormalizer normalization label) b = .ok result ↔
      ∃ raw, binScorer bg b = .ok raw ∧
        result = { raw with score := normalization.normalized label bg b raw.score } := by
  rw [normalizedBinScore, bind_eq_ok]
  refine exists_congr fun raw => and_congr_right fun _ => ?_
  rw [buildBinScoreNormalizer_ok normalization h, ok_bind, pure_eq_ok, Except.ok.injEq, eq_comm]

/-- Normalising keeps scores from becoming negative. -/
theorem EBinScoreNormalization.normalized_nonneg (divides : normalization.Divides label bg f) (mem : b ∈ bg.ownBins f)
    {score : ℝ} (nonneg : 0 ≤ score) : 0 ≤ normalization.normalized label bg b score := by
  cases normalization with
  | none => exact nonneg
  | labelEntropy => exact div_nonneg nonneg divides.le
  | binEntropy => exact div_nonneg nonneg (divides b mem).le
  | binAndLabelEntropy => exact div_nonneg (div_nonneg nonneg divides.1.le) (divides.2 b mem).le

/-- A feature whose bins all have enough conditions has a score. -/
theorem EScorer.exists_featureScore (scorer : EScorer) (normalization : EBinScoreNormalization)
    (pool : Pool label bg.features n) (inside : f < bg.getFeatureCount) (few : label.bins.length + 2 * max s 0 ≤ 62)
    (nonempty : bg.ownBins f ≠ []) (pos : 0 < s) (room : ∀ b ∈ bg.ownBins f, s ≤ (scorer.conditions bg b).length) :
    ∃ scored : TFeatureScore ℝ, getFeatureScore bg f (scorer.eval label s)
      (buildBinScoreNormalizer normalization label) = .ok scored := by
  have result (b : ℕ) : ∃ r, b ∈ bg.ownBins f → normalizedBinScore bg (scorer.eval (R := ℝ) label s)
      (buildBinScoreNormalizer normalization label) b = .ok r := by
    by_cases mem : b ∈ bg.ownBins f
    · have lt := ((TBackground.mem_ownBins inside).mp mem).1
      obtain ⟨raw, evaluated⟩ := scorer.exists_eval pool lt few pos (room b mem)
      exact ⟨_, fun _ => (normalizedBinScore_eq_ok lt).mpr ⟨raw, evaluated, rfl⟩⟩
    · exact ⟨⟨0, [], []⟩, fun mem' => absurd mem' mem⟩
  choose value called using result
  obtain ⟨best, -, ran⟩ := getFeatureScore_ok value inside nonempty called
  exact ⟨_, ran⟩

/-- The score of a feature is the largest normalised score of its bins. -/
theorem EScorer.of_featureScore (scorer : EScorer) (ran : getFeatureScore bg f (scorer.eval label s)
      (buildBinScoreNormalizer normalization label) = .ok scored) :
    (∃ b ∈ bg.ownBins f, ∃ raw, scorer.eval label s bg b = .ok raw ∧
      scored.score = normalization.normalized label bg b raw.score) ∧
    ∀ b ∈ bg.ownBins f, ∃ raw, scorer.eval label s bg b = .ok raw ∧
      normalization.normalized label bg b raw.score ≤ scored.score := by
  obtain ⟨inside, value, called, best, largest, rfl⟩ := getFeatureScore_eq_ok.mp ran
  have evaluated (b : ℕ) (mem : b ∈ bg.ownBins f) : ∃ raw, scorer.eval label s bg b = .ok raw ∧
      (value b).score = normalization.normalized label bg b raw.score := by
    obtain ⟨raw, evaluated, normalized⟩ :=
      (normalizedBinScore_eq_ok ((TBackground.mem_ownBins inside).mp mem).1).mp (called b mem)
    exact ⟨raw, evaluated, by rw [normalized]⟩
  refine ⟨⟨best, largest.1, evaluated best largest.1⟩, fun b mem => ?_⟩
  obtain ⟨raw, ran, score⟩ := evaluated b mem
  exact ⟨raw, ran, score ▸ not_lt.mp (largest.not_beaten mem)⟩

/-- **When a feature has a score, and what bounds it**, for each scorer and each normalisation: all
its bins need enough conditions; the score is the largest normalised one of its bins; it does not
exceed the label entropy, and divided by the label entropy it does not exceed one. -/
theorem getFeatureScore_iff (scorer : EScorer) (pool : Pool label bg.features n) (inside : f < bg.getFeatureCount)
    (divides : normalization.Divides label bg f) :
    (label.bins.length + 2 * max s 0 ≤ 62 → ((∃ scored : TFeatureScore ℝ, getFeatureScore bg f (scorer.eval label s)
        (buildBinScoreNormalizer normalization label) = .ok scored) ↔
      bg.ownBins f ≠ [] ∧ 0 < s ∧ ∀ b ∈ bg.ownBins f, s ≤ (scorer.conditions bg b).length)) ∧
    ∀ scored : TFeatureScore ℝ,
      getFeatureScore bg f (scorer.eval label s) (buildBinScoreNormalizer normalization label) = .ok scored →
      (∃ b ∈ bg.ownBins f, ∃ raw, scorer.eval label s bg b = .ok raw ∧
        scored.score = normalization.normalized label bg b raw.score) ∧
      (∀ b ∈ bg.ownBins f, ∃ raw, scorer.eval label s bg b = .ok raw ∧
        normalization.normalized label bg b raw.score ≤ scored.score) ∧
      0 ≤ scored.score ∧ (normalization = .none → scored.score ≤ entropy label.allBins) ∧
      (normalization = .labelEntropy → scored.score ≤ 1) := by
  have lt {b : ℕ} (mem : b ∈ bg.ownBins f) : b < bg.getBinCount := ((TBackground.mem_ownBins inside).mp mem).1
  refine ⟨fun few => ⟨fun ⟨scored, ran⟩ => ?_, fun ⟨nonempty, pos, room⟩ =>
    scorer.exists_featureScore normalization pool inside few nonempty pos room⟩, fun scored ran => ?_⟩
  · obtain ⟨⟨best, own, -⟩, all⟩ := scorer.of_featureScore ran
    have returned (b : ℕ) (mem : b ∈ bg.ownBins f) : 0 < s ∧ s ≤ (scorer.conditions bg b).length := by
      obtain ⟨raw, evaluated, -⟩ := all b mem
      obtain ⟨pos, room, -⟩ := (scorer.eval_iff pool (lt mem) few).mp evaluated
      exact ⟨pos, room⟩
    exact ⟨List.ne_nil_of_mem own, (returned best own).1, fun b mem => (returned b mem).2⟩
  · obtain ⟨attained, all⟩ := scorer.of_featureScore ran
    obtain ⟨best, own, raw, evaluated, score⟩ := attained
    obtain ⟨nonneg, below⟩ := EScorer.score_bounds evaluated
    refine ⟨⟨best, own, raw, evaluated, score⟩, all, ?_, ?_, ?_⟩
    · exact score ▸ normalization.normalized_nonneg divides own nonneg
    · rintro rfl
      exact score ▸ below
    · rintro rfl
      exact score ▸ (div_le_one divides).mpr below

theorem parity_mixed : 0 < entropy (R := ℝ) parity.allBins := by
  rw [pool_siblings.labelEntropy_eq (by decide)]
  exact jointEntropy_pos (by decide) (by decide +kernel)

/-- A feature of two bins, under the copy of one of them and their conjunction: two conditions are enough for a
score, three are not there. -/
theorem getFeatureScore_iff_siblings :
    (∃ scored : TFeatureScore ℝ, getFeatureScore siblings 2 (buildEfamBinScorer parity 2)
        (buildBinScoreNormalizer .labelEntropy parity) = .ok scored ∧ 0 ≤ scored.score ∧ scored.score ≤ 1) ∧
      ¬ ∃ scored : TFeatureScore ℝ, getFeatureScore siblings 2 (buildEfamBinScorer parity 3)
        (buildBinScoreNormalizer .labelEntropy parity) = .ok scored := by
  have law (s : ℤ) := getFeatureScore_iff (f := 2) (s := s) .efam pool_siblings (by decide)
    (show EBinScoreNormalization.labelEntropy.Divides parity siblings 2 from parity_mixed)
  obtain ⟨scored, ran⟩ := ((law 2).1 (by decide)).mpr (by decide)
  obtain ⟨-, -, nonneg, -, le⟩ := (law 2).2 scored ran
  exact ⟨⟨scored, ran, nonneg, le rfl⟩, fun returned => absurd (((law 3).1 (by decide)).mp returned) (by decide)⟩

/-- A disabled feature is scored under all enabled bins. -/
theorem TBackground.outside_of_disabled (inside : f < bg.getFeatureCount)
    (disabled : ∀ b ∈ bg.ownBins f, bg.enabled b = false) (mem : b ∈ bg.ownBins f) :
    bg.outside b = bg.enabledBinIndexes := by
  have owner := ((mem_ownBins inside).mp mem).2
  refine List.filter_eq_self.mpr fun c on => decide_eq_true fun same => ?_
  have enabled := mem_enabledBinIndexes.mp on
  have off := disabled c ((mem_ownBins inside).mpr ⟨lt_of_enabled enabled, same.trans owner⟩)
  rw [off] at enabled
  cases enabled

/-- The score of a feature whose bins all have the enabled bins as conditions, and use them all. -/
theorem EScorer.featureScore_exhaustive (scorer : EScorer) (pool : Pool label bg.features n)
    (inside : f < bg.getFeatureCount) (nonempty : bg.ownBins f ≠ [])
    (under : ∀ b ∈ bg.ownBins f, scorer.conditions bg b = bg.enabledBinIndexes)
    (pos : 0 < bg.enabledBinIndexes.length) (few : label.bins.length + 2 * bg.enabledBinIndexes.length ≤ 62) :
    ∃ scored : TFeatureScore ℝ, getFeatureScore bg f (scorer.eval label bg.enabledBinIndexes.length)
        (buildBinScoreNormalizer .none label) = .ok scored ∧
      (∃ b ∈ bg.ownBins f, scored.score ≤ cmiAt label bg.features n
        (b :: (scorer.helpers bg b).filter (· ∉ bg.enabledBinIndexes)) bg.enabledBinIndexes) ∧
      ∀ b ∈ bg.ownBins f, cmiAt label bg.features n [b] bg.enabledBinIndexes ≤ scored.score := by
  have room : label.bins.length + 2 * max (bg.enabledBinIndexes.length : ℤ) 0 ≤ 62 := by omega
  have lt {b : ℕ} (mem : b ∈ bg.ownBins f) : b < bg.getBinCount := ((TBackground.mem_ownBins inside).mp mem).1
  obtain ⟨scored, ran⟩ := scorer.exists_featureScore .none pool inside room nonempty (by exact_mod_cast pos)
    fun b mem => by rw [under b mem]
  obtain ⟨⟨best, own, raw, evaluated, score⟩, all⟩ := scorer.of_featureScore ran
  refine ⟨scored, ran, ⟨best, own, ?_⟩, fun b mem => ?_⟩
  · have bounds := scorer.exhaustive_bounds pool (lt own) room evaluated (by rw [under best own])
    rw [under best own] at bounds
    exact score ▸ bounds.2
  · obtain ⟨raw', evaluated', le⟩ := all b mem
    have bounds := scorer.exhaustive_bounds pool (lt mem) room evaluated' (by rw [under b mem])
    rw [under b mem] at bounds
    exact bounds.1.trans le

/-- **The feature-aware score next to the plain one**, with as many steps as enabled bins: the plain
score of a disabled feature is what its best bin says under all enabled bins; the feature-aware one
is not smaller, and not larger than what all bins of the feature say together. -/
theorem getFeatureScore_efam (pool : Pool label bg.features n) (inside : f < bg.getFeatureCount)
    (nonempty : bg.ownBins f ≠ []) (disabled : ∀ b ∈ bg.ownBins f, bg.enabled b = false)
    (pos : 0 < bg.enabledBinIndexes.length) (few : label.bins.length + 2 * bg.enabledBinIndexes.length ≤ 62) :
    ∃ plain aware : TFeatureScore ℝ,
      getFeatureScore bg f (buildBinScorerForEval label ((bg.enabledBinIndexes.length : ℤ) - 1)
        bg.enabledBinIndexes.length) (buildBinScoreNormalizer .none label) = .ok plain ∧
      getFeatureScore bg f (buildEfamBinScorer label bg.enabledBinIndexes.length)
        (buildBinScoreNormalizer .none label) = .ok aware ∧
      (∃ b ∈ bg.ownBins f, plain.score = cmiAt label bg.features n [b] bg.enabledBinIndexes) ∧
      (∀ b ∈ bg.ownBins f, cmiAt label bg.features n [b] bg.enabledBinIndexes ≤ plain.score) ∧
      plain.score ≤ aware.score ∧
      aware.score ≤ cmiAt label bg.features n (bg.ownBins f) bg.enabledBinIndexes := by
  have outside (b : ℕ) (mem : b ∈ bg.ownBins f) := TBackground.outside_of_disabled inside disabled mem
  obtain ⟨plain, ran, ⟨b, own, above⟩, below⟩ :=
    EScorer.forEval.featureScore_exhaustive pool inside nonempty outside pos few
  obtain ⟨aware, ran', ⟨b', own', above'⟩, below'⟩ :=
    EScorer.efam.featureScore_exhaustive pool inside nonempty outside pos few
  -- helpers that are not conditions are bins of the feature
  have single : plain.score = cmiAt label bg.features n [b] bg.enabledBinIndexes := by
    refine le_antisymm (above.trans (cmiAt_mono fun c mem => ?_)) (below b own)
    rcases List.mem_cons.mp mem with rfl | helper
    · exact .inl List.mem_cons_self
    · exact (TBackground.mem_withBin.mp (List.mem_of_mem_filter helper)).2.imp
        (fun same => by simp [same]) TBackground.mem_enabledBinIndexes.mpr
  refine ⟨plain, aware, ran, ran', ⟨b, own, single⟩, below, single ▸ below' b own, above'.trans ?_⟩
  refine cmiAt_mono fun c mem => ?_
  rcases List.mem_cons.mp mem with rfl | helper
  · exact .inl own'
  · obtain ⟨lt, owner | on⟩ := TBackground.mem_withFeature.mp (List.mem_of_mem_filter helper)
    · exact .inl ((TBackground.mem_ownBins inside).mpr
        ⟨lt, owner.trans ((TBackground.mem_ownBins inside).mp own').2⟩)
    · exact .inr (TBackground.mem_enabledBinIndexes.mpr on)

/-- The conjunction and a copy of one bin are enabled, the feature of both bins is not. -/
def bothBinsDisabled : TBackground := ⟨siblings.features, [true, true, false, false], (0, 0), by decide, by decide⟩

/-- The feature of both bins, scored under a copy of one of them and their conjunction. -/
theorem getFeatureScore_efam_siblings : ∃ aware : TFeatureScore ℝ,
    getFeatureScore bothBinsDisabled 2 (buildEfamBinScorer parity 2) (buildBinScoreNormalizer .none parity) =
      .ok aware ∧
    cmiAt parity siblings.features 4 [3] [0, 1] ≤ aware.score ∧
    aware.score ≤ cmiAt parity siblings.features 4 [2, 3] [0, 1] := by
  obtain ⟨plain, aware, -, ran, -, below, le, above⟩ := getFeatureScore_efam
    (show Pool parity bothBinsDisabled.features 4 from pool_siblings)
    (show 2 < bothBinsDisabled.getFeatureCount by decide) (by decide) (by decide) (by decide) (by decide)
  exact ⟨aware, ran, (below 3 (by decide)).trans le, above⟩

end Pools

end FeatureScore

end Cmicot
