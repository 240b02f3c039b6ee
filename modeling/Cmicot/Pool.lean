import Cmicot.BinFeatureSet
import Cmicot.CmiCalculator
import Cmicot.Search.Rounds

/-!
A pool as a search problem.

`Pool label features n` collects what the selection relies on: every bin has one value per
row and the label has a bin. The search problem of a pool has the bins of the feature set,
their owners, and the conditional mutual information of the rows as its oracle.
`TBackground.Shows` says that a background enables exactly the bins of a list of chosen
features, the last of them most recently.
-/

namespace Cmicot

open Loop Search

/-- All bins are columns over the same `n` rows and the label has at least one. -/
structure Pool (label features : TBinFeatureSet) (n : ℕ) : Prop where
  rows : 0 < n
  labelled : label.bins ≠ []
  labelLength : ∀ bin ∈ label.bins, bin.length = n
  binLength : ∀ bin ∈ features.bins, bin.length = n

/-- A pool with two rows and two features of one bin. -/
theorem pool_twoRows : Pool (.ofBins [[false, true]])
    ((TBinFeatureSet.ofBins [[false, true]]).addFeature [[true, false]]).1 2 :=
  ⟨by decide, by decide, by decide, by decide⟩

/-- A label over six rows. -/
def sixLabel : TBinFeatureSet := .ofBins [[false, true, false, false, false, true]]

/-- Four features over six rows, the third with two bins. -/
def sixFeatures : TBinFeatureSet :=
  ((((TBinFeatureSet.ofBins [[true, false, true, false, true, false]]).addFeature
    [[false, true, false, false, true, false]]).1.addFeature
    [[true, true, false, true, false, false], [false, false, false, false, true, false]]).1.addFeature
    [[true, false, true, true, false, false]]).1

theorem sixPool : Pool sixLabel sixFeatures 6 :=
  ⟨by decide, by decide, by decide, by decide⟩

/-- Their five bins, all enabled. -/
def allEnabled : TBackground := .ofFeatures sixFeatures

/-- The bin with this index. -/
def TBinFeatureSet.binAt (features : TBinFeatureSet) (b : ℕ) : TBin := features.bins.getD b []

/-- What the bins `second` say about the label given the bins `condition`. -/
noncomputable def cmiAt (label features : TBinFeatureSet) (n : ℕ) : Oracle ℝ :=
  fun second condition =>
    cmiValue n label.bins (second.map features.binAt) (condition.map features.binAt)

/-- The search problem of a pool. -/
noncomputable def problem (label features : TBinFeatureSet) (n : ℕ) : Problem ℝ where
  binCount := features.getBinCount
  owner := features.owner
  cmi := cmiAt label features n

section Oracle

variable {label features : TBinFeatureSet} {n : ℕ} {second condition : List ℕ} {b : ℕ}

theorem cmiAt_nonneg : 0 ≤ cmiAt label features n second condition := cmiValue_nonneg

theorem Pool.cmiAt_lt (pool : Pool label features n) (few : label.bins.length ≤ 64) :
    cmiAt label features n second condition < 100000 :=
  cmiValue_lt_hundredThousand pool.rows few

theorem Pool.binAt_length (pool : Pool label features n) (h : b < features.getBinCount) :
    (features.binAt b).length = n := by
  have inside : b < features.bins.length := h
  rw [TBinFeatureSet.binAt, ← List.getElem_eq_getD (h := inside)]
  exact pool.binLength _ (List.getElem_mem inside)

theorem getBin_binAt (h : b < features.getBinCount) : features.getBin (b : ℤ) = .ok (features.binAt b) :=
  TBinFeatureSet.getBin_natCast h

/-- The value depends on which bins are conditions, and on which bins there are besides the label. -/
theorem cmiAt_congr {second' condition' : List ℕ} (sameCondition : ∀ b, b ∈ condition ↔ b ∈ condition')
    (sameAll : ∀ b, b ∈ second ∨ b ∈ condition ↔ b ∈ second' ∨ b ∈ condition') :
    cmiAt label features n second condition = cmiAt label features n second' condition' := by
  refine cmiValue_congr_all (samePartition_of_mem fun bin => ?_) (samePartition_of_mem fun bin => ?_)
  · simp only [List.mem_map, sameCondition]
  · rw [← List.map_append, ← List.map_append]
    simp only [List.mem_map, List.mem_append, sameAll]

/-- The chain rule. -/
theorem cmiAt_append (extra : List ℕ) : cmiAt label features n (second ++ extra) condition =
    cmiAt label features n second condition + cmiAt label features n extra (second ++ condition) := by
  simp only [cmiAt, List.map_append, cmiValue_append]

/-- On the rows, the bins `given` determine the bins `bs`. -/
def TBinFeatureSet.Settles (features : TBinFeatureSet) (n : ℕ) (given bs : List ℕ) : Prop :=
  Determines n (given.map features.binAt) (bs.map features.binAt)

theorem settles_of_subset {given bs : List ℕ} (sub : bs ⊆ given) : features.Settles n given bs :=
  determines_of_subset (List.map_subset _ sub)

theorem TBinFeatureSet.Settles.mono {given given' bs bs' : List ℕ} (settles : features.Settles n given bs)
    (more : given ⊆ given') (fewer : bs' ⊆ bs) : features.Settles n given' bs' :=
  Determines.mono settles (List.map_subset _ more) (List.map_subset _ fewer)

theorem TBinFeatureSet.Settles.append {given bs bs' : List ℕ} (left : features.Settles n given bs)
    (right : features.Settles n given bs') : features.Settles n given (bs ++ bs') := by
  rw [TBinFeatureSet.Settles, List.map_append]
  exact Determines.append left right

/-- Bins that the condition determines say nothing. -/
theorem TBinFeatureSet.Settles.cmiAt_eq_zero (settles : features.Settles n condition second) :
    cmiAt label features n second condition = 0 := cmiValue_of_determines settles

/-- A bin says nothing more once it is given. -/
theorem cmiAt_self (e : ℕ) (given : List ℕ) : cmiAt label features n [e] (given ++ [e]) = 0 :=
  (settles_of_subset (by simp)).cmiAt_eq_zero

/-- When every bin to choose from is a condition, the helpers say nothing more. -/
theorem value_exhaustive {full enabled : List ℕ} {e : ℕ} {entry : Entry ℝ} (valid : entry.Valid full enabled)
    (all : enabled.length ≤ entry.minSteps.length) (known : ∀ b ∈ full, b = e ∨ b ∈ enabled) :
    value (cmiAt label features n) e entry = cmiAt label features n [e] enabled := by
  have conditions := valid.mem_minSteps all
  refine cmiAt_congr conditions fun b => ?_
  have helper := fun mem => known b (valid.maxMem b mem)
  rw [conditions, List.mem_cons, List.mem_singleton]
  tauto

theorem problem_selfLeast : ∀ e given second condition,
    (problem label features n).cmi [e] (given ++ [e]) ≤ (problem label features n).cmi second condition := by
  intro e given second condition
  change cmiAt label features n [e] (given ++ [e]) ≤ _
  rw [cmiAt_self]
  exact cmiAt_nonneg

end Oracle

/-! ### The bins the two phases choose from -/

namespace TBackground

section Evaluated

/-- The enabled bins together with `e`. -/
def withBin (bg : TBackground) (e : ℕ) : List ℕ :=
  (List.range bg.getBinCount).filter fun b => b = e || bg.enabled b

/-- The enabled bins of other features than that of `e`. -/
def outside (bg : TBackground) (e : ℕ) : List ℕ :=
  bg.enabledBinIndexes.filter fun b => bg.features.owner b ≠ bg.features.owner e

variable {bg bg' : TBackground} {e b : ℕ}

theorem withBin_sorted : (bg.withBin e).Pairwise (· < ·) := List.pairwise_lt_range.filter _

theorem outside_sorted : (bg.outside e).Pairwise (· < ·) := enabledBinIndexes_sorted.filter _

theorem mem_withBin : b ∈ bg.withBin e ↔ b < bg.getBinCount ∧ (b = e ∨ bg.enabled b = true) := by
  simp [withBin]

theorem mem_outside : b ∈ bg.outside e ↔ bg.enabled b = true ∧ bg.features.owner b ≠ bg.features.owner e := by
  simp [outside]

theorem outside_subset : bg.outside e ⊆ bg.withBin e := fun b mem => by
  have on := (mem_outside.mp mem).1
  exact mem_withBin.mpr ⟨lt_of_enabled on, .inr on⟩

theorem outside_length_le : (bg.outside e).length ≤ (bg.withBin e).length :=
  (List.subperm_of_subset outside_sorted.nodup outside_subset).length_le

/-- Enabling the evaluated bin. -/
theorem enable_bin (h : e < bg.getBinCount) :
    ∃ bg', bg.setBinEnabled (e : ℤ) true = .ok bg' ∧ bg'.features = bg.features ∧
      bg'.enabledBinIndexes = bg.withBin e := by
  obtain ⟨bg', set, same, enabled, -⟩ := setBinEnabled_ok h true
  refine ⟨bg', set, same, ?_⟩
  have count : bg'.getBinCount = bg.getBinCount := by rw [getBinCount, same]; rfl
  rw [enabledBinIndexes_eq, count, withBin]
  refine List.filter_congr fun b _ => ?_
  rw [enabled b]
  by_cases eq : b = e <;> simp [eq]

/-- Disabling the feature of the evaluated bin again. -/
theorem disable_feature (h : e < bg.getBinCount) (set : bg.setBinEnabled (e : ℤ) true = .ok bg') :
    ∃ bg'', bg'.setFeatureEnabled (bg.features.owner e) false = .ok bg'' ∧ bg''.features = bg.features ∧
      bg''.enabledBinIndexes = bg.outside e := by
  obtain ⟨on, set', same, enabled, -⟩ := setBinEnabled_ok h true
  obtain rfl : bg' = on := Except.ok.inj (set.symm.trans set')
  have inside : bg.features.owner e < bg'.getFeatureCount := by
    rw [getFeatureCount, same]
    exact TBinFeatureSet.owner_lt h
  obtain ⟨bg'', off, same', enabled', -⟩ := setFeatureEnabled_ok inside false
  refine ⟨bg'', off, same'.trans same, ?_⟩
  have count : bg'.getBinCount = bg.getBinCount := by rw [getBinCount, same]; rfl
  have count' : bg''.getBinCount = bg.getBinCount := by rw [getBinCount, same', same]; rfl
  rw [outside, enabledBinIndexes_eq, enabledBinIndexes_eq, count', List.filter_filter]
  refine List.filter_congr fun b mem => ?_
  rw [enabled' b (count ▸ List.mem_range.mp mem), same, enabled b]
  by_cases owner : bg.features.owner b = bg.features.owner e
  · simp [owner]
  · have other : b ≠ e := by
      rintro rfl
      exact owner rfl
    simp [owner, other]

end Evaluated

/-! ### Backgrounds of chosen features -/

/-- The background enables the bins of `chosen`, those of the last one most recently. -/
structure Shows (bg : TBackground) (features : TBinFeatureSet) (chosen : List ℕ) : Prop where
  features : bg.features = features
  enabled : ∀ b < bg.getBinCount, bg.enabled b = decide (bg.features.owner b ∈ chosen)
  last : ∀ f, chosen.getLast? = some f → f < bg.getFeatureCount ∧
    bg.lastEnabledBins = (bg.features.featureBegin f, bg.features.featureEnd f)

variable {bg : TBackground} {label features : TBinFeatureSet} {n : ℕ} {chosen : List ℕ}

theorem shows_disableAll (features : TBinFeatureSet) :
    (ofFeatures features).disableAll.Shows features [] :=
  ⟨rfl, fun b _ => by simp [enabled_disableAll], by simp⟩

theorem Shows.enabledBinIndexes (shown : bg.Shows features chosen) (label : TBinFeatureSet) (n : ℕ) :
    bg.enabledBinIndexes = (problem label features n).enabledBins chosen := by
  obtain rfl := shown.features
  rw [enabledBinIndexes_eq, Problem.enabledBins]
  exact List.filter_congr fun b hb => by
    rw [shown.enabled b (List.mem_range.mp hb)]
    rfl

theorem Shows.disabledBinIndexes (shown : bg.Shows features chosen) (label : TBinFeatureSet) (n : ℕ) :
    bg.disabledBinIndexes = (problem label features n).disabledBins chosen := by
  obtain rfl := shown.features
  rw [disabledBinIndexes_eq, Problem.disabledBins]
  exact List.filter_congr fun b hb => by
    rw [shown.enabled b (List.mem_range.mp hb), decide_not]
    rfl

/-- The range enabled last are the bins of the feature chosen last. -/
theorem Shows.lastEnabled (shown : bg.Shows features chosen) (label : TBinFeatureSet) (n : ℕ) (nonempty : chosen ≠ []) :
    bg.lastEnabled.enabledBinIndexes = (problem label features n).lastBins chosen := by
  obtain ⟨f, found⟩ : ∃ f, chosen.getLast? = some f := ⟨_, List.getLast?_eq_some_getLast nonempty⟩
  obtain ⟨inside, range⟩ := shown.last f found
  obtain rfl := shown.features
  rw [enabledBinIndexes_eq, Problem.lastBins, found]
  refine List.filter_congr fun b hb => ?_
  have owner := TBinFeatureSet.owner_eq_iff (f := f) (List.mem_range.mp hb)
  rw [enabled_lastEnabled, range]
  exact decide_eq_decide.mpr
    ⟨fun h => owner.mpr ⟨inside, h⟩, fun h => (owner.mp h).2⟩

/-- Choosing one more feature. -/
theorem Shows.setFeatureEnabled (shown : bg.Shows features chosen) {f : ℕ}
    (h : f < features.getFeatureCount) :
    ∃ bg', bg.setFeatureEnabled f true = .ok bg' ∧ bg'.Shows features (chosen ++ [f]) := by
  obtain rfl := shown.features
  obtain ⟨bg', set, same, enabled, last⟩ := setFeatureEnabled_ok (show f < bg.getFeatureCount from h) true
  have count : bg'.getBinCount = bg.getBinCount := by rw [getBinCount, same]; rfl
  refine ⟨bg', set, same, fun b hb => ?_, fun g found => ?_⟩
  · rw [count] at hb
    rw [enabled b hb, same, shown.enabled b hb]
    by_cases owner : bg.features.owner b = f <;> simp [owner]
  · obtain rfl : f = g := by simpa using found
    rw [same]
    exact ⟨by rw [getFeatureCount, same]; exact h, by simpa using last⟩

theorem Shows.withBin (shown : bg.Shows features chosen) (label : TBinFeatureSet) (n e : ℕ) :
    bg.withBin e = (problem label features n).helperPool chosen e := by
  obtain rfl := shown.features
  rw [TBackground.withBin, Problem.helperPool]
  refine List.filter_congr fun b mem => ?_
  rw [shown.enabled b (List.mem_range.mp mem)]
  simp
  rfl

/-- While the feature of `e` is disabled, only the bins of other features are enabled. -/
theorem Shows.outside (shown : bg.Shows features chosen) (label : TBinFeatureSet) (n : ℕ) {e : ℕ}
    (disabled : features.owner e ∉ chosen) : bg.outside e = (problem label features n).enabledBins chosen := by
  rw [TBackground.outside, shown.enabledBinIndexes label n, shown.features, List.filter_eq_self]
  intro b mem
  have chosen := (Problem.mem_enabledBins.mp mem).2
  refine decide_eq_true fun same => disabled ?_
  rw [← same]
  exact chosen

/-- Enabling a bin on top of the chosen features gives its pool of helpers. -/
theorem Shows.setBinEnabled (shown : bg.Shows features chosen) (label : TBinFeatureSet) (n : ℕ) {e : ℕ}
    (h : e < features.getBinCount) :
    ∃ bg', bg.setBinEnabled (e : ℤ) true = .ok bg' ∧ bg'.features = features ∧
      bg'.enabledBinIndexes = (problem label features n).helperPool chosen e := by
  obtain rfl := shown.features
  obtain ⟨bg', set, same, enabled⟩ := enable_bin h
  exact ⟨bg', set, same, enabled.trans (shown.withBin label n e)⟩

end TBackground

end Cmicot
