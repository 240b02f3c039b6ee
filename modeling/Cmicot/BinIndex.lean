import Cmicot.BinFeatureSet
import Mathlib.Data.List.Perm.Basic

/-!
The index as a partition of the bins (`bin_feature_set.h`, `bin_feature_set.cpp`).

A feature set comes from one of its two constructors and grows by `AddFeature`; `Built` keeps
the lists that were supplied. The ranges of the features lie behind each other, also where
features are empty, and cover the bins once. A background splits the bins into the enabled and
the disabled ones, whatever is called on it.

* `xranges_cover`: the ranges of the features, one after the other, are all bins.
* `binIndex_partition`: what holds of every feature set that was built and of every background
  over it.
-/

namespace Cmicot

open Loop

namespace TBinFeatureSet

/-! ### Supplied features -/

/-- The feature set was built from these lists, in this order. -/
inductive Built : TBinFeatureSet → List (List TBin) → Prop
  | empty : Built empty []
  | ofBins (bins : List TBin) : Built (ofBins bins) [bins]
  | addFeature {fs : TBinFeatureSet} {supplied : List (List TBin)} (built : Built fs supplied)
      (feature : List TBin) : Built (fs.addFeature feature).1 (supplied ++ [feature])

variable {fs : TBinFeatureSet} {supplied : List (List TBin)} {f g b : ℕ} {range : ℕ × ℕ}

theorem Built.getFeatureCount (built : Built fs supplied) : fs.getFeatureCount = supplied.length := by
  induction built with
  | empty => rfl
  | ofBins => rfl
  | addFeature _ feature ih => rw [getFeatureCount_addFeature, ih, List.length_append, List.length_singleton]

theorem Built.bins (built : Built fs supplied) : fs.bins = supplied.flatten := by
  induction built with
  | empty => rfl
  | ofBins bins => exact (List.flatten_singleton ..).symm
  | addFeature _ feature ih =>
    rw [List.flatten_append, List.flatten_singleton, ← ih]
    rfl

/-- Features are read back as they were supplied. -/
theorem Built.getFeature (built : Built fs supplied) {bins : List TBin} (at_f : supplied[f]? = some bins) :
    fs.getFeature f = .ok bins := by
  induction built with
  | empty => cases at_f
  | ofBins only =>
    obtain rfl : f = 0 := by simpa using (List.getElem?_eq_some_iff.mp at_f).1
    obtain rfl : only = bins := Option.some.inj at_f
    rw [TBinFeatureSet.getFeature, if_pos (show 0 < (TBinFeatureSet.ofBins only).getFeatureCount from Nat.one_pos)]
    simp [TBinFeatureSet.ofBins, featureBegin, featureEnd, TBinFeatureSet.getFeatureCount, getBinCount]
  | @addFeature fs supplied built feature ih =>
    have count := built.getFeatureCount
    rcases Nat.lt_trichotomy f supplied.length with before | rfl | behind
    · rw [List.getElem?_append_left before] at at_f
      rw [getFeature_addFeature_of_lt (count ▸ before), ih at_f]
    · obtain rfl : feature = bins := by simpa using at_f
      rw [← count, getFeature_addFeature_last]
    · have inside := (List.getElem?_eq_some_iff.mp at_f).1
      rw [List.length_append, List.length_singleton] at inside
      exact absurd behind (Nat.not_lt.mpr (Nat.le_of_lt_succ inside))

/-! ### Ranges of features -/

/-- `xrange(begin, end)`. -/
def xrange (range : ℕ × ℕ) : List ℕ := List.range' range.1 (range.2 - range.1)

theorem mem_xrange : b ∈ xrange range ↔ range.1 ≤ b ∧ b < range.2 := by
  rw [xrange, List.mem_range'_1]
  omega

theorem getFeatureBinIndexes_ok (h : f < fs.getFeatureCount) :
    fs.getFeatureBinIndexes f = .ok (fs.featureBegin f, fs.featureEnd f) := if_pos h

theorem of_getFeatureBinIndexes (found : fs.getFeatureBinIndexes f = .ok range) :
    f < fs.getFeatureCount ∧ range = (fs.featureBegin f, fs.featureEnd f) := by
  unfold getFeatureBinIndexes at found
  split at found
  case isTrue inside => exact ⟨inside, (Except.ok.inj found).symm⟩
  case isFalse => cases found

theorem featureBegin_le_featureEnd (h : f < fs.getFeatureCount) : fs.featureBegin f ≤ fs.featureEnd f := by
  rw [featureBegin_eq h]
  by_cases more : f + 1 < fs.getFeatureCount
  · rw [featureEnd_eq_of_lt more]
    exact List.pairwise_iff_getElem.mp fs.sorted f (f + 1) h more (Nat.lt_succ_self f)
  · rw [featureEnd, if_neg more]
    exact fs.bounded _ (List.getElem_mem h)

/-- A feature ends where the next one starts. -/
theorem featureEnd_eq_featureBegin (h : f + 1 < fs.getFeatureCount) : fs.featureEnd f = fs.featureBegin (f + 1) := by
  rw [featureEnd_eq_of_lt h, featureBegin_eq h]

/-- The ranges of the first features, one after the other. -/
theorem flatMap_xrange {k : ℕ} (h : k < fs.getFeatureCount) :
    (List.range (k + 1)).flatMap (fun f => xrange (fs.featureBegin f, fs.featureEnd f)) =
      List.range (fs.featureEnd k) := by
  induction k with
  | zero =>
    have first : fs.featureBegin 0 = 0 := by rw [featureBegin_eq h, featureStart_zero h]
    simp [xrange, first, List.range_eq_range']
  | succ k ih =>
    have le := featureBegin_le_featureEnd h
    rw [List.range_succ, List.flatMap_append, ih (Nat.lt_of_succ_lt h), List.flatMap_singleton,
      featureEnd_eq_featureBegin h, xrange, List.range_eq_range', List.range_eq_range']
    have joined := @List.range'_append 0 (fs.featureBegin (k + 1)) (fs.featureEnd (k + 1) - fs.featureBegin (k + 1)) 1
    rw [Nat.one_mul, Nat.zero_add, Nat.add_sub_cancel' le] at joined
    exact joined

/-- **The ranges cover the bins**: one after the other they are all bins, each once. -/
theorem xranges_cover (fs : TBinFeatureSet) :
    ∃ ranges, (List.range fs.getFeatureCount).mapM fs.getFeatureBinIndexes = .ok ranges ∧
      ranges.flatMap xrange = List.range fs.getBinCount := by
  refine ⟨_, mapM_ok fun f mem => getFeatureBinIndexes_ok (List.mem_range.mp mem), ?_⟩
  rw [List.flatMap_map]
  cases count : fs.getFeatureCount with
  | zero =>
    have none : fs.getBinCount = 0 := by
      by_contra some
      have := featureCount_pos_of_bin (Nat.pos_of_ne_zero some)
      omega
    rw [none]
    rfl
  | succ k =>
    rw [flatMap_xrange (by omega), featureEnd, count, if_neg (Nat.lt_irrefl _)]

/-- The owner is the one feature with the bin in its range. -/
theorem getFeatureIndexByBinIndex_unique (h : b < fs.getBinCount) :
    ∃ f, fs.getFeatureIndexByBinIndex b = .ok f ∧
      ∀ g, (∃ range, fs.getFeatureBinIndexes g = .ok range ∧ b ∈ xrange range) ↔ g = f := by
  refine ⟨fs.owner b, if_pos h, fun g => ?_⟩
  rw [eq_comm, owner_eq_iff h]
  constructor
  · rintro ⟨range, found, mem⟩
    obtain ⟨inside, rfl⟩ := of_getFeatureBinIndexes found
    exact ⟨inside, mem_xrange.mp mem⟩
  · rintro ⟨inside, within⟩
    exact ⟨_, getFeatureBinIndexes_ok inside, mem_xrange.mpr within⟩

/-- A feature starts behind the bins of the features before it. -/
theorem Built.featureBegin (built : Built fs supplied) (h : f < fs.getFeatureCount) :
    fs.featureBegin f = (supplied.take f).flatten.length := by
  induction built with
  | empty => exact absurd h (Nat.not_lt_zero f)
  | ofBins only =>
    obtain rfl : f = 0 := Nat.lt_one_iff.mp h
    rfl
  | @addFeature fs supplied built feature ih =>
    have count := built.getFeatureCount
    rw [getFeatureCount_addFeature] at h
    rcases Nat.lt_or_eq_of_le (Nat.le_of_lt_succ h) with before | rfl
    · rw [featureBegin_addFeature_of_lt before, ih before, List.take_append_of_le_length (by omega)]
    · rw [featureBegin_addFeature_last, built.bins, count, List.take_left]

theorem Built.featureEnd (built : Built fs supplied) (h : f < fs.getFeatureCount) :
    fs.featureEnd f = (supplied.take (f + 1)).flatten.length := by
  by_cases more : f + 1 < fs.getFeatureCount
  · rw [featureEnd_eq_featureBegin more, built.featureBegin more]
  · have count := built.getFeatureCount
    rw [TBinFeatureSet.featureEnd, if_neg more, getBinCount, built.bins, List.take_of_length_le (by omega)]

/-- What the index says about the features that were supplied. -/
structure Indexes (fs : TBinFeatureSet) (supplied : List (List TBin)) : Prop where
  /-- `FeatureStart` never decreases and starts at 0. -/
  sorted : fs.featureStart.Pairwise (· ≤ ·)
  first : fs.featureStart ≠ [] → fs.featureStart.head? = some 0
  count : fs.getFeatureCount = supplied.length
  /-- The ranges of the features are consecutive and cover every bin once. -/
  cover : ∃ ranges, (List.range fs.getFeatureCount).mapM fs.getFeatureBinIndexes = .ok ranges ∧
    ranges.flatMap xrange = List.range fs.getBinCount
  /-- A feature is the list that was supplied for it, also after further calls. -/
  getFeature : ∀ f bins, supplied[f]? = some bins → fs.getFeature f = .ok bins
  kept : ∀ feature, ∀ f < fs.getFeatureCount, (fs.addFeature feature).1.getFeature f = fs.getFeature f
  /-- `AddFeature` returns where its argument is found. -/
  added : ∀ feature, (fs.addFeature feature).1.getFeature (fs.addFeature feature).2 = .ok feature
  /-- The feature of a bin is the only one whose range has the bin. -/
  owner : ∀ b < fs.getBinCount, ∃ f, fs.getFeatureIndexByBinIndex b = .ok f ∧
    ∀ g, (∃ range, fs.getFeatureBinIndexes g = .ok range ∧ b ∈ xrange range) ↔ g = f

theorem addFeature_snd (fs : TBinFeatureSet) (feature : List TBin) : (fs.addFeature feature).2 = fs.getFeatureCount :=
  congrArg (· - 1) (getFeatureCount_addFeature feature)

theorem Built.indexes (built : Built fs supplied) : fs.Indexes supplied where
  sorted := fs.sorted
  first some := fs.first.resolve_right fun none => some none.1
  count := built.getFeatureCount
  cover := xranges_cover fs
  getFeature _ _ at_f := built.getFeature at_f
  kept feature _ inside := getFeature_addFeature_of_lt inside feature
  added feature := by rw [addFeature_snd, getFeature_addFeature_last]
  owner _ inside := getFeatureIndexByBinIndex_unique inside

end TBinFeatureSet

/-! ### Calls on a background -/

/-- The calls that change a background. -/
inductive BackgroundCall
  | setFeatureEnabled (index : ℕ) (enabled : Bool)
  | setBinEnabled (index : ℤ) (enabled : Bool)
  | disableAll
  | enabledAll

namespace TBackground

open TBinFeatureSet

def call (bg : TBackground) : BackgroundCall → Except Failure TBackground
  | .setFeatureEnabled index enabled => bg.setFeatureEnabled index enabled
  | .setBinEnabled index enabled => bg.setBinEnabled index enabled
  | .disableAll => .ok bg.disableAll
  | .enabledAll => .ok bg.enabledAll

/-- The background after a sequence of calls; a call that throws changes nothing. -/
def after (bg : TBackground) (calls : List BackgroundCall) : TBackground :=
  calls.foldl (fun bg c => (bg.call c).toOption.getD bg) bg

variable {bg bg' : TBackground} {fs : TBinFeatureSet} {f b : ℕ} {value : Bool} {range : ℕ × ℕ}

/-- A call leaves the numbering alone. -/
theorem features_of_call {c : BackgroundCall} (called : bg.call c = .ok bg') : bg'.features = bg.features := by
  cases c with
  | setFeatureEnabled index enabled =>
    simp only [call, setFeatureEnabled] at called
    split at called
    case isTrue => exact (Except.ok.inj called) ▸ rfl
    case isFalse => cases called
  | setBinEnabled index enabled =>
    simp only [call, setBinEnabled] at called
    split at called
    case isTrue => exact (Except.ok.inj called) ▸ rfl
    case isFalse => cases called
  | disableAll => exact (Except.ok.inj called) ▸ rfl
  | enabledAll => exact (Except.ok.inj called) ▸ rfl

theorem features_after (calls : List BackgroundCall) : (bg.after calls).features = bg.features := by
  induction calls generalizing bg with
  | nil => rfl
  | cons c calls ih =>
    have rest : (bg.after (c :: calls)).features = ((bg.call c).toOption.getD bg).features := ih
    refine rest.trans ?_
    cases called : bg.call c with
    | error _ => rfl
    | ok bg' => exact features_of_call called

/-- Outside the feature nothing changes. -/
theorem enabled_of_setFeatureEnabled (set : bg.setFeatureEnabled f value = .ok bg')
    (found : bg.features.getFeatureBinIndexes f = .ok range) (outside : b ∉ xrange range) :
    bg'.enabled b = bg.enabled b := by
  obtain ⟨inside, rfl⟩ := of_getFeatureBinIndexes found
  obtain ⟨bg'', set', same, enabled, -⟩ := setFeatureEnabled_ok (show f < bg.getFeatureCount from inside) value
  obtain rfl : bg' = bg'' := Except.ok.inj (set.symm.trans set')
  by_cases numbered : b < bg.getBinCount
  · rw [enabled b numbered, if_neg]
    intro owned
    have within := ((owner_eq_iff (show b < bg.features.getBinCount from numbered)).mp owned).2
    exact outside (mem_xrange.mpr within)
  · have count : bg'.getBinCount = bg.getBinCount := by rw [getBinCount, same]; rfl
    rw [enabled_of_size_le (count ▸ Nat.le_of_not_lt numbered), enabled_of_size_le (Nat.le_of_not_lt numbered)]

/-- What a background says about the bins of its feature set. -/
structure Splits (bg : TBackground) (fs : TBinFeatureSet) : Prop where
  enabledSorted : bg.enabledBinIndexes.Pairwise (· < ·)
  disabledSorted : bg.disabledBinIndexes.Pairwise (· < ·)
  /-- Every bin is either enabled or disabled. -/
  partition : (bg.enabledBinIndexes ++ bg.disabledBinIndexes).Perm (List.range fs.getBinCount)
  /-- `SetFeatureEnabled` leaves the bins of other features as they are. -/
  setFeatureEnabled : ∀ f value bg' range, bg.setFeatureEnabled f value = .ok bg' →
    fs.getFeatureBinIndexes f = .ok range → ∀ b, b ∉ xrange range →
      (b ∈ bg'.enabledBinIndexes ↔ b ∈ bg.enabledBinIndexes) ∧
        (b ∈ bg'.disabledBinIndexes ↔ b ∈ bg.disabledBinIndexes)

theorem splits (bg : TBackground) : bg.Splits bg.features where
  enabledSorted := enabledBinIndexes_sorted
  disabledSorted := disabledBinIndexes_sorted
  partition := by
    rw [enabledBinIndexes_eq, disabledBinIndexes_eq]
    exact List.filter_append_perm ..
  setFeatureEnabled f value bg' range set found b outside := by
    have same := features_of_call (c := .setFeatureEnabled f value) set
    have state := enabled_of_setFeatureEnabled set found outside
    rw [mem_enabledBinIndexes, mem_enabledBinIndexes, mem_disabledBinIndexes, mem_disabledBinIndexes, state,
      getBinCount, getBinCount, same]
    exact ⟨Iff.rfl, Iff.rfl⟩

end TBackground

/-- **The index is a partition**, of every feature set that was built and of every background over it
after any calls. -/
theorem binIndex_partition {fs : TBinFeatureSet} {supplied : List (List TBin)} (built : fs.Built supplied) :
    fs.Indexes supplied ∧
      ∀ bg : TBackground, bg.features = fs → ∀ calls : List BackgroundCall, (bg.after calls).Splits fs := by
  refine ⟨built.indexes, ?_⟩
  rintro bg rfl calls
  have splits := (bg.after calls).splits
  rwa [TBackground.features_after calls] at splits

/-- Three features, the middle one without bins. -/
theorem binIndex_partition_emptyFeature :
    (((TBinFeatureSet.ofBins [[true], [false]]).addFeature []).1.addFeature [[true]]).1.Indexes
        [[[true], [false]], [], [[true]]] ∧
      ∀ bg : TBackground,
        bg.features = (((TBinFeatureSet.ofBins [[true], [false]]).addFeature []).1.addFeature [[true]]).1 →
        ∀ calls : List BackgroundCall, (bg.after calls).Splits
          (((TBinFeatureSet.ofBins [[true], [false]]).addFeature []).1.addFeature [[true]]).1 :=
  binIndex_partition (((TBinFeatureSet.Built.ofBins [[true], [false]]).addFeature []).addFeature [[true]])

end Cmicot
