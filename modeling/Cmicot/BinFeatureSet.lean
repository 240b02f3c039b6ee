import Cmicot.Bin
import Cmicot.Lib.Gaps
import Cmicot.Lib.Loop

/-!
The bin/feature index and the background (`bin_feature_set.h`, `bin_feature_set.cpp`).

`TBinFeatureSet` numbers the bins of all features consecutively and keeps the first bin
of every feature; features may be empty, in which case start offsets repeat.
`TBackground` is the set of enabled bins together with the range enabled last. Both
carry the facts their constructors establish, so that no operation below can be applied
to a set of offsets that does not describe a numbering.

`owner` is the search behind `GetFeatureIndexByBinIndex`; `owner_eq_iff` says that it
finds the one feature whose range contains the bin.
-/

namespace Cmicot

open Loop

/-! ### TBinFeatureSet -/

structure TBinFeatureSet where
  bins : List TBin
  featureStart : List ℕ
  /-- Start offsets never decrease. -/
  sorted : featureStart.Pairwise (· ≤ ·)
  /-- Every feature starts inside the numbering. -/
  bounded : ∀ start ∈ featureStart, start ≤ bins.length
  /-- The first feature starts at bin 0; without features there are no bins. -/
  first : featureStart.head? = some 0 ∨ featureStart = [] ∧ bins = []

namespace TBinFeatureSet

/-- `TBinFeatureSet() = default`. -/
def empty : TBinFeatureSet := ⟨[], [], .nil, by simp, .inr ⟨rfl, rfl⟩⟩

/-- `explicit TBinFeatureSet(yvector<TBin> bins)`: one feature that owns every bin. -/
def ofBins (bins : List TBin) : TBinFeatureSet := ⟨bins, [0], by simp, by simp, .inl rfl⟩

def getFeatureCount (fs : TBinFeatureSet) : ℕ := fs.featureStart.length

def getBinCount (fs : TBinFeatureSet) : ℕ := fs.bins.length

def allBins (fs : TBinFeatureSet) : List TBin := fs.bins

/-- `AllBinIndexes()`. -/
def allBinIndexes (fs : TBinFeatureSet) : List ℕ := List.range fs.bins.length

/-- Append a feature; the result is its index. -/
def addFeature (fs : TBinFeatureSet) (feature : List TBin) : TBinFeatureSet × ℕ :=
  let extended : TBinFeatureSet :=
    { bins := fs.bins ++ feature
      featureStart := fs.featureStart ++ [fs.bins.length]
      sorted := List.pairwise_append.mpr ⟨fs.sorted, by simp, fun start hs last hl => by
        rw [List.mem_singleton.mp hl]
        exact fs.bounded start hs⟩
      bounded := fun start hs => by
        rw [List.length_append]
        rcases List.mem_append.mp hs with hs | hs
        · exact Nat.le_add_right_of_le (fs.bounded start hs)
        · rw [List.mem_singleton.mp hs]
          exact Nat.le_add_right _ _
      first := .inl (by
        rcases fs.first with head | ⟨noFeatures, noBins⟩
        · rw [List.head?_append, head, Option.some_or]
        · simp [noFeatures, noBins]) }
  (extended, extended.getFeatureCount - 1)

/-- `GetBin(int)`. -/
def getBin (fs : TBinFeatureSet) (index : ℤ) : Except Failure TBin :=
  if 0 ≤ index ∧ index < fs.getBinCount then
    .ok (fs.bins.getD index.toNat [])
  else .error (.rangeEx index fs.getBinCount)

/-- First bin of a feature. -/
def featureBegin (fs : TBinFeatureSet) (index : ℕ) : ℕ := fs.featureStart.getD index 0

/-- One past the last bin of a feature; the last feature ends with the numbering. -/
def featureEnd (fs : TBinFeatureSet) (index : ℕ) : ℕ :=
  if index + 1 < fs.getFeatureCount then fs.featureStart.getD (index + 1) 0 else fs.getBinCount

/-- `GetFeature(int)`. -/
def getFeature (fs : TBinFeatureSet) (index : ℕ) : Except Failure (List TBin) :=
  if index < fs.getFeatureCount then
    .ok ((fs.bins.take (fs.featureEnd index)).drop (fs.featureBegin index))
  else .error (.rangeEx index fs.getFeatureCount)

/-- The position search of `GetFeatureIndexByBinIndex`. -/
def owner (fs : TBinFeatureSet) (binIndex : ℕ) : ℕ := Gaps.lowerBound fs.featureStart (binIndex + 1) - 1

/-- `GetFeatureIndexByBinIndex(int)`. -/
def getFeatureIndexByBinIndex (fs : TBinFeatureSet) (binIndex : ℕ) : Except Failure ℕ :=
  if binIndex < fs.getBinCount then .ok (fs.owner binIndex)
  else .error (.rangeEx binIndex fs.getBinCount)

/-- `GetFeatureBinIndexes(int)`, as the pair of bounds of its `xrange`. -/
def getFeatureBinIndexes (fs : TBinFeatureSet) (index : ℕ) : Except Failure (ℕ × ℕ) :=
  if index < fs.getFeatureCount then .ok (fs.featureBegin index, fs.featureEnd index)
  else .error (.rangeEx index fs.getFeatureCount)

@[simp] theorem getBin_natCast {fs : TBinFeatureSet} {i : ℕ} (h : i < fs.getBinCount) :
    fs.getBin (i : ℤ) = .ok (fs.bins.getD i []) := by
  simp [getBin, h]

theorem mem_allBinIndexes {fs : TBinFeatureSet} {b : ℕ} :
    b ∈ fs.allBinIndexes ↔ b < fs.getBinCount := List.mem_range

end TBinFeatureSet

/-! ### The owner of a bin -/

namespace TBinFeatureSet

variable {fs : TBinFeatureSet}

theorem featureStart_zero (h : 0 < fs.featureStart.length) : fs.featureStart[0] = 0 := by
  rcases fs.first with head | ⟨noFeatures, -⟩
  · rw [List.head?_eq_getElem?, List.getElem?_eq_getElem h] at head
    exact Option.some.inj head
  · simp [noFeatures] at h

theorem featureCount_pos_of_bin {b : ℕ} (h : b < fs.getBinCount) : 0 < fs.getFeatureCount := by
  rcases fs.first with head | ⟨-, noBins⟩
  · unfold getFeatureCount
    cases starts : fs.featureStart with
    | nil => simp [starts] at head
    | cons _ _ => simp
  · simp [getBinCount, noBins] at h

theorem featureBegin_eq {f : ℕ} (h : f < fs.getFeatureCount) :
    fs.featureBegin f = fs.featureStart[f] := by
  unfold featureBegin
  exact (List.getElem_eq_getD 0).symm

theorem featureEnd_eq_of_lt {f : ℕ} (h : f + 1 < fs.getFeatureCount) :
    fs.featureEnd f = fs.featureStart[f + 1] := by
  unfold featureEnd
  rw [if_pos h]
  exact (List.getElem_eq_getD 0).symm

theorem featureEnd_le {f : ℕ} : fs.featureEnd f ≤ fs.getBinCount := by
  by_cases more : f + 1 < fs.getFeatureCount
  · rw [featureEnd_eq_of_lt more]
    exact fs.bounded _ (List.getElem_mem more)
  · simp [featureEnd, more]

/-- **The owner of a bin** is the one feature whose range contains it, empty features
and repeated start offsets included. -/
theorem owner_eq_iff {b f : ℕ} (h : b < fs.getBinCount) :
    fs.owner b = f ↔ f < fs.getFeatureCount ∧ fs.featureBegin f ≤ b ∧ b < fs.featureEnd f := by
  have some := featureCount_pos_of_bin h
  have pos : 0 < Gaps.lowerBound fs.featureStart (b + 1) :=
    (Gaps.lt_lowerBound_iff fs.sorted some).mpr (by rw [featureStart_zero some]; omega)
  have le := Gaps.lowerBound_le fs.featureStart (b + 1)
  have count : fs.featureStart.length = fs.getFeatureCount := rfl
  constructor
  · rintro rfl
    have here : fs.owner b < fs.getFeatureCount := by unfold owner; omega
    refine ⟨here, ?_, ?_⟩
    · rw [featureBegin_eq here]
      have := (Gaps.lt_lowerBound_iff (v := b + 1) fs.sorted here).mp (by unfold owner; omega)
      omega
    · by_cases more : fs.owner b + 1 < fs.getFeatureCount
      · rw [featureEnd_eq_of_lt more]
        have := (Gaps.lt_lowerBound_iff (v := b + 1) fs.sorted more).not.mp (by unfold owner; omega)
        omega
      · simpa [featureEnd, more] using h
  · rintro ⟨here, low, high⟩
    rw [featureBegin_eq here] at low
    have before := (Gaps.lt_lowerBound_iff (v := b + 1) fs.sorted here).mpr (by omega)
    suffices Gaps.lowerBound fs.featureStart (b + 1) = f + 1 by simp [owner, this]
    by_cases more : f + 1 < fs.getFeatureCount
    · rw [featureEnd_eq_of_lt more] at high
      have := (Gaps.lt_lowerBound_iff (v := b + 1) fs.sorted more).not.mpr (by omega)
      omega
    · omega

theorem owner_lt {b : ℕ} (h : b < fs.getBinCount) : fs.owner b < fs.getFeatureCount :=
  ((owner_eq_iff h).mp rfl).1

/-- The bins of a feature come before those of the next one. -/
theorem owner_mono {b c : ℕ} (le : b ≤ c) : fs.owner b ≤ fs.owner c := by
  refine Nat.sub_le_sub_right ?_ 1
  by_contra later
  have inside : Gaps.lowerBound fs.featureStart (c + 1) < fs.featureStart.length :=
    Nat.lt_of_lt_of_le (Nat.lt_of_not_le later) (Gaps.lowerBound_le ..)
  have small := (Gaps.lt_lowerBound_iff fs.sorted inside).mp (Nat.lt_of_not_le later)
  exact absurd ((Gaps.lt_lowerBound_iff fs.sorted inside).mpr (Nat.lt_of_lt_of_le small (Nat.succ_le_succ le)))
    (Nat.lt_irrefl _)

/-! ### Added features -/

@[simp] theorem getFeatureCount_addFeature (feature : List TBin) :
    (fs.addFeature feature).1.getFeatureCount = fs.getFeatureCount + 1 := by
  simp [addFeature, getFeatureCount]

theorem featureBegin_addFeature_of_lt {f : ℕ} (h : f < fs.getFeatureCount) (feature : List TBin) :
    (fs.addFeature feature).1.featureBegin f = fs.featureBegin f := by
  have inside : f < fs.featureStart.length := h
  simp [featureBegin, addFeature, List.getElem?_append_left inside]

theorem featureBegin_addFeature_last (feature : List TBin) :
    (fs.addFeature feature).1.featureBegin fs.getFeatureCount = fs.bins.length := by
  simp [featureBegin, addFeature, getFeatureCount]

theorem featureEnd_addFeature_of_lt {f : ℕ} (h : f < fs.getFeatureCount) (feature : List TBin) :
    (fs.addFeature feature).1.featureEnd f = fs.featureEnd f := by
  have more : f + 1 < (fs.addFeature feature).1.getFeatureCount := by
    rw [getFeatureCount_addFeature]
    omega
  rw [featureEnd, featureEnd, if_pos more]
  split
  case isTrue last => exact featureBegin_addFeature_of_lt last feature
  case isFalse last =>
    obtain eq : f + 1 = fs.getFeatureCount := by omega
    rw [eq]
    exact featureBegin_addFeature_last feature

/-- Earlier features are not touched by a new one. -/
theorem getFeature_addFeature_of_lt {f : ℕ} (h : f < fs.getFeatureCount) (feature : List TBin) :
    (fs.addFeature feature).1.getFeature f = fs.getFeature f := by
  have le : fs.featureEnd f ≤ fs.bins.length := featureEnd_le
  have here : f < (fs.addFeature feature).1.getFeatureCount := by
    rw [getFeatureCount_addFeature]
    omega
  rw [getFeature, getFeature, if_pos here, if_pos h, featureBegin_addFeature_of_lt h, featureEnd_addFeature_of_lt h]
  simp only [addFeature]
  rw [List.take_append_of_le_length le]

/-- The new feature has the added bins. -/
theorem getFeature_addFeature_last (feature : List TBin) :
    (fs.addFeature feature).1.getFeature fs.getFeatureCount = .ok feature := by
  have ends : (fs.addFeature feature).1.featureEnd fs.getFeatureCount =
      fs.bins.length + feature.length := by
    simp [featureEnd, addFeature, getFeatureCount, getBinCount]
  have here : fs.getFeatureCount < (fs.addFeature feature).1.getFeatureCount := by
    rw [getFeatureCount_addFeature]
    omega
  rw [getFeature, if_pos here, featureBegin_addFeature_last, ends]
  simp [addFeature, List.take_of_length_le]

end TBinFeatureSet

/-! ### TBackground -/

/-- `std::fill` over the positions `[first, last)`. -/
def fill (flags : List Bool) (first last : ℕ) (value : Bool) : List Bool :=
  flags.mapIdx fun i flag => if first ≤ i ∧ i < last then value else flag

structure TBackground where
  features : TBinFeatureSet
  isBinEnabled : List Bool
  lastEnabledBins : ℕ × ℕ
  /-- One flag per bin. -/
  size : isBinEnabled.length = features.getBinCount
  /-- The range enabled last lies inside the numbering. -/
  inRange : lastEnabledBins.2 ≤ features.getBinCount

namespace TBackground

/-- `explicit TBackground(const TBinFeatureSet&)`: everything enabled. -/
def ofFeatures (features : TBinFeatureSet) : TBackground :=
  ⟨features, List.replicate features.getBinCount true, (0, 0), by simp, Nat.zero_le _⟩

def getBinCount (bg : TBackground) : ℕ := bg.features.getBinCount

def getBin (bg : TBackground) (index : ℤ) : Except Failure TBin := bg.features.getBin index

def getFeatureIndexByBinIndex (bg : TBackground) (binIndex : ℕ) : Except Failure ℕ :=
  bg.features.getFeatureIndexByBinIndex binIndex

def getFeatureCount (bg : TBackground) : ℕ := bg.features.getFeatureCount

def getFeatureBinIndexes (bg : TBackground) (index : ℕ) : Except Failure (ℕ × ℕ) :=
  bg.features.getFeatureBinIndexes index

/-- `SetFeatureEnabled(int, bool)`. -/
def setFeatureEnabled (bg : TBackground) (index : ℕ) (enabled : Bool) : Except Failure TBackground :=
  if index < bg.getFeatureCount then
    .ok
      { features := bg.features
        isBinEnabled :=
          fill bg.isBinEnabled (bg.features.featureBegin index) (bg.features.featureEnd index) enabled
        lastEnabledBins :=
          if enabled then (bg.features.featureBegin index, bg.features.featureEnd index)
          else bg.lastEnabledBins
        size := by simpa [fill] using bg.size
        inRange := by
          split
          · exact TBinFeatureSet.featureEnd_le
          · exact bg.inRange }
  else .error (.rangeEx index bg.getFeatureCount)

/-- `SetBinEnabled(int, bool)`. -/
def setBinEnabled (bg : TBackground) (index : ℤ) (enabled : Bool) : Except Failure TBackground :=
  if inside : 0 ≤ index ∧ index < bg.getBinCount then
    .ok
      { features := bg.features
        isBinEnabled := bg.isBinEnabled.set index.toNat enabled
        lastEnabledBins := if enabled then (index.toNat, index.toNat + 1) else bg.lastEnabledBins
        size := by simpa using bg.size
        inRange := by
          have := inside.2
          unfold getBinCount at this
          split
          · simp only
            omega
          · exact bg.inRange }
  else .error (.rangeEx index bg.getBinCount)

def enabledBinIndexes (bg : TBackground) : List ℕ :=
  (List.range bg.isBinEnabled.length).filter fun i => bg.isBinEnabled.getD i false

def enabledBins (bg : TBackground) : Except Failure (List TBin) :=
  bg.enabledBinIndexes.mapM fun i : ℕ => bg.getBin (i : ℤ)

def disableAll (bg : TBackground) : TBackground :=
  { bg with
    isBinEnabled := fill bg.isBinEnabled 0 bg.isBinEnabled.length false
    size := by simpa [fill] using bg.size }

/-- `EnabledAll()`. -/
def enabledAll (bg : TBackground) : TBackground :=
  { bg with
    isBinEnabled := fill bg.isBinEnabled 0 bg.isBinEnabled.length true
    size := by simpa [fill] using bg.size }

def disabledBinIndexes (bg : TBackground) : List ℕ :=
  (List.range bg.isBinEnabled.length).filter fun i => !bg.isBinEnabled.getD i false

def isFeatureEnabled (bg : TBackground) (index : ℕ) : Except Failure Bool :=
  if index < bg.getFeatureCount then
    .ok (((bg.isBinEnabled.take (bg.features.featureEnd index)).drop
      (bg.features.featureBegin index)).all id)
  else .error (.rangeEx index bg.getFeatureCount)

/-- `LastEnabled()`: a background with only the range enabled last. -/
def lastEnabled (bg : TBackground) : TBackground :=
  let result := (ofFeatures bg.features).disableAll
  { result with
    isBinEnabled := fill result.isBinEnabled bg.lastEnabledBins.1 bg.lastEnabledBins.2 true
    size := by simpa [fill] using result.size }

/-- `EnabledFeatureIndexes()`. -/
def enabledFeatureIndexes (bg : TBackground) : Except Failure (List ℕ) :=
  (List.range bg.getFeatureCount).filterM bg.isFeatureEnabled

/-- Whether a bin is enabled; false outside the numbering. -/
def enabled (bg : TBackground) (i : ℕ) : Bool := bg.isBinEnabled.getD i false

variable {bg bg' : TBackground} {i j : ℕ} {value : Bool}

theorem enabledBinIndexes_eq : bg.enabledBinIndexes = (List.range bg.getBinCount).filter bg.enabled := by
  rw [enabledBinIndexes, bg.size]
  rfl

theorem disabledBinIndexes_eq :
    bg.disabledBinIndexes = (List.range bg.getBinCount).filter fun i => !bg.enabled i := by
  rw [disabledBinIndexes, bg.size]
  rfl

theorem lt_of_enabled (h : bg.enabled i = true) : i < bg.getBinCount := by
  by_contra outside
  have : bg.isBinEnabled.length ≤ i := by
    rw [bg.size]
    exact Nat.le_of_not_lt outside
  simp [enabled, List.getElem?_eq_none this] at h

@[simp] theorem mem_enabledBinIndexes : i ∈ bg.enabledBinIndexes ↔ bg.enabled i = true := by
  rw [enabledBinIndexes_eq, List.mem_filter, List.mem_range]
  exact ⟨fun h => h.2, fun h => ⟨lt_of_enabled h, h⟩⟩

@[simp] theorem mem_disabledBinIndexes :
    i ∈ bg.disabledBinIndexes ↔ i < bg.getBinCount ∧ bg.enabled i = false := by
  simp [disabledBinIndexes_eq]

theorem enabledBinIndexes_sorted : bg.enabledBinIndexes.Pairwise (· < ·) :=
  List.pairwise_lt_range.filter _

theorem disabledBinIndexes_sorted : bg.disabledBinIndexes.Pairwise (· < ·) :=
  List.pairwise_lt_range.filter _

/-- `EnabledBins()` never throws: it reads only bins of the numbering. -/
theorem enabledBins_length (bg : TBackground) :
    ∃ bins, bg.enabledBins = .ok bins ∧ bins.length = bg.enabledBinIndexes.length := by
  refine ⟨bg.enabledBinIndexes.map fun i => bg.features.bins.getD i [], ?_, by simp⟩
  unfold enabledBins getBin
  exact mapM_ok fun i hi =>
    TBinFeatureSet.getBin_natCast (lt_of_enabled (mem_enabledBinIndexes.mp hi))

theorem getD_fill (flags : List Bool) (first last : ℕ) (value : Bool) (i : ℕ) (h : i < flags.length) :
    (fill flags first last value).getD i false =
      if first ≤ i ∧ i < last then value else flags.getD i false := by
  simp [fill, List.getElem?_eq_getElem h]

theorem enabled_of_size_le (h : bg.getBinCount ≤ i) : bg.enabled i = false := by
  cases on : bg.enabled i with
  | false => rfl
  | true => exact absurd (lt_of_enabled on) (Nat.not_lt.mpr h)

theorem enabled_disableAll : bg.disableAll.enabled i = false := by
  by_cases h : i < bg.getBinCount
  · have inside : i < bg.isBinEnabled.length := bg.size ▸ h
    change (fill bg.isBinEnabled 0 bg.isBinEnabled.length false).getD i false = false
    rw [getD_fill _ _ _ _ _ inside, if_pos ⟨Nat.zero_le _, inside⟩]
  · exact enabled_of_size_le (Nat.le_of_not_lt h)

theorem enabled_lastEnabled :
    bg.lastEnabled.enabled i = decide (bg.lastEnabledBins.1 ≤ i ∧ i < bg.lastEnabledBins.2) := by
  by_cases h : i < bg.getBinCount
  · have off : (ofFeatures bg.features).disableAll.enabled i = false := enabled_disableAll
    have inside : i < (ofFeatures bg.features).disableAll.isBinEnabled.length := by
      rw [(ofFeatures bg.features).disableAll.size]
      exact h
    change (fill (ofFeatures bg.features).disableAll.isBinEnabled _ _ true).getD i false = _
    rw [getD_fill _ _ _ _ _ inside]
    split
    case isTrue within => simp [within]
    case isFalse outside => exact off.trans (by simpa using outside)
  · have out := bg.inRange
    rw [enabled_of_size_le (show bg.lastEnabled.getBinCount ≤ i from Nat.le_of_not_lt h)]
    have : ¬ i < bg.lastEnabledBins.2 := fun inside => h (Nat.lt_of_lt_of_le inside out)
    simp [this]

/-- What `SetBinEnabled` does to a bin of the numbering. -/
theorem setBinEnabled_ok (h : i < bg.getBinCount) (value : Bool) :
    ∃ bg', bg.setBinEnabled (i : ℤ) value = .ok bg' ∧ bg'.features = bg.features ∧
      (∀ j, bg'.enabled j = if j = i then value else bg.enabled j) ∧
      bg'.lastEnabledBins = if value then (i, i + 1) else bg.lastEnabledBins := by
  have inside : 0 ≤ (i : ℤ) ∧ (i : ℤ) < bg.getBinCount := ⟨Int.natCast_nonneg i, by exact_mod_cast h⟩
  refine ⟨_, dif_pos inside, rfl, fun j => ?_, by simp⟩
  have bound : i < bg.isBinEnabled.length := bg.size ▸ h
  simp only [enabled, Int.toNat_natCast, List.getD_eq_getElem?_getD, List.getElem?_set]
  by_cases eq : i = j
  · subst eq
    simp [bound]
  · simp [eq, Ne.symm eq]

/-- `bg'` is `bg` with these bins disabled and nothing else changed. -/
structure Without (bg bg' : TBackground) (bins : List ℕ) : Prop where
  features : bg'.features = bg.features
  enabled : ∀ b, bg'.enabled b = (bg.enabled b && decide (b ∉ bins))
  last : bg'.lastEnabledBins = bg.lastEnabledBins

theorem without_nil (bg : TBackground) : bg.Without bg [] := ⟨rfl, fun _ => by simp, rfl⟩

theorem Without.enabledBinIndexes {bins : List ℕ} (without : bg.Without bg' bins) :
    bg'.enabledBinIndexes = bg.enabledBinIndexes.filter (· ∉ bins) := by
  have count : bg'.getBinCount = bg.getBinCount := by rw [getBinCount, without.features]; rfl
  rw [enabledBinIndexes_eq, enabledBinIndexes_eq, count, List.filter_filter]
  refine List.filter_congr fun b _ => ?_
  rw [without.enabled b, Bool.and_comm]

/-- One more bin is disabled. -/
theorem Without.setBinEnabled {bins : List ℕ} (without : bg.Without bg' bins) (h : i < bg'.getBinCount) :
    ∃ bg'', bg'.setBinEnabled (i : ℤ) false = .ok bg'' ∧ bg.Without bg'' (bins ++ [i]) := by
  obtain ⟨bg'', set, same, enabled, last⟩ := setBinEnabled_ok h false
  refine ⟨bg'', set, same.trans without.features, fun b => ?_, last.trans without.last⟩
  rw [enabled b, without.enabled b]
  by_cases eq : b = i <;> simp [eq]

/-- Disabling a bin removes it from the enabled ones. -/
theorem setBinEnabled_false_ok (h : i < bg.getBinCount) :
    ∃ bg', bg.setBinEnabled (i : ℤ) false = .ok bg' ∧ bg'.features = bg.features ∧
      bg'.enabledBinIndexes = bg.enabledBinIndexes.filter (· ≠ i) := by
  obtain ⟨bg', set, without⟩ := bg.without_nil.setBinEnabled h
  refine ⟨bg', set, without.features, ?_⟩
  simpa using without.enabledBinIndexes

theorem features_of_setBinEnabled {index : ℤ} {value : Bool} (set : bg.setBinEnabled index value = .ok bg') :
    bg'.features = bg.features := by
  unfold TBackground.setBinEnabled at set
  split at set
  · cases set
    rfl
  · cases set

/-- What `SetFeatureEnabled` does: it sets the bins the feature owns and no others. -/
theorem setFeatureEnabled_ok {f : ℕ} (h : f < bg.getFeatureCount) (value : Bool) :
    ∃ bg', bg.setFeatureEnabled f value = .ok bg' ∧ bg'.features = bg.features ∧
      (∀ j < bg.getBinCount, bg'.enabled j = if bg.features.owner j = f then value else bg.enabled j) ∧
      bg'.lastEnabledBins =
        if value then (bg.features.featureBegin f, bg.features.featureEnd f) else bg.lastEnabledBins := by
  refine ⟨_, if_pos h, rfl, fun j hj => ?_, rfl⟩
  have bound : j < bg.isBinEnabled.length := bg.size ▸ hj
  change (fill bg.isBinEnabled _ _ value).getD j false = _
  rw [getD_fill _ _ _ _ _ bound]
  simp only [TBinFeatureSet.owner_eq_iff (show j < bg.features.getBinCount from hj)]
  simp only [show f < bg.features.getFeatureCount from h, true_and]
  rfl

end TBackground

end Cmicot
