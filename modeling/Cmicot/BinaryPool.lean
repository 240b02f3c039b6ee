import Cmicot.Binarize
import Cmicot.Io
import Cmicot.Selection

/-!
Binary pools made outside the program (`ReadBinarizedPool` in `feature_selection.cpp`).

A pool of binary columns and a map are checked in three places, and none of them checks that
a value is 0 or 1 or that every feature up to the largest one has a bin. The selection asks
for one feature more in every round, so that a feature without bins leaves the last round
without a candidate.

* `fastFeatureSelection_complete_iff`: a run that asks for all features returns normally iff
  every feature has a bin and there is a step to take.
* `readBinarizedPool_complete_iff`: which accepted pools are well formed and run to the end.
-/

namespace Cmicot

open Loop Greedy Search TCachingBinScorer

/-- `ReadBinarizedPool(poolFile, mapFile, borderBuilder)` on the columns of the pool and the
lines of the map: the label and the features. -/
def readBinarizedPool (pool : List (List ℚ)) (lines : List (UInt64 × UInt64))
    (borderBuilder : TBorderBuilder) : Except Failure (TBinFeatureSet × TBinFeatureSet) := do
  let binToFeatureMap ← readBinToFeatureMap intMaxSize lines
  match pool with
  | [] => .error .emptyContainer
  | front :: columns =>
    let features ← binarizeWithMap columns binToFeatureMap
    return (.ofBins (binarizeFeature front borderBuilder), features)

/-! ### Runs that ask for every feature -/

section Complete

variable {label features : TBinFeatureSet} {n : ℕ} {t : ℤ}

/-- Asked for every feature, the fast loop emits each feature with a bin once, and it has no
candidate for a round if there are others. -/
theorem fastFeatureSelection_owners {t : ℕ} (pool : Pool label features n) (pos : 0 < t)
    (few : label.bins.length + 2 * t ≤ 62) (bins : 0 < features.getBinCount) :
    (fastFeatureSelection ℝ label features t features.getFeatureCount).stopped =
        (if (problem label features n).owners = Finset.range features.getFeatureCount then none
          else some .noCandidate) ∧
      ∀ f ∈ (problem label features n).owners,
        (fastFeatureSelection ℝ label features t features.getFeatureCount).items.count f = 1 := by
  set P := problem label features n with hP
  obtain ⟨first, found, owned⟩ := exists_firstFeature label n bins
  have mem := Problem.mem_owners.mpr owned
  have some : 0 < P.owners.card := Finset.card_pos.mpr ⟨first, mem⟩
  have all : P.owners.card ≤ features.getFeatureCount :=
    (Finset.card_le_card (owners_subset label n)).trans (Finset.card_range _).le
  obtain ⟨nodup, emitted, length, stopped⟩ := (Problem.start_inv (t := t) owned).emits
    (min (features.getFeatureCount : ℤ) features.getFeatureCount - 1).toNat
  have start : (P.start first).chosen = [first] := rfl
  rw [← hP, start, List.singleton_append] at nodup
  rw [← hP, start, List.length_singleton] at length stopped
  rw [fastFeatureSelection_eq pool pos few found]
  constructor
  · split
    case isTrue same =>
      rw [Option.map_eq_none_iff, stopped, same, Finset.card_range]
      omega
    case isFalse other =>
      have early : (emitLoop (P.fastRound t) _ (P.start first)).stopped ≠ none := fun ended =>
        other (Finset.eq_of_subset_of_card_le (owners_subset ..) (by
          have := stopped.mp ended
          rw [Finset.card_range]
          omega))
      obtain ⟨⟨⟩, failed⟩ := Option.ne_none_iff_exists'.mp early
      rw [failed, Option.map_some]
  · intro f owner
    refine List.count_eq_one_of_mem nodup (List.mem_toFinset.mp ?_)
    rw [Finset.eq_of_subset_of_card_le (s := (first :: _).toFinset) (t := P.owners) ?_ ?_]
    · exact owner
    · intro g hg
      rcases List.mem_cons.mp (List.mem_toFinset.mp hg) with rfl | hg
      · exact mem
      · exact emitted g hg
    · rw [List.toFinset_card_of_nodup nodup, List.length_cons, length]
      omega

/-- **When a run that asks for every feature returns**, having emitted each feature with a bin
once: every feature has a bin, and there is a step to take or no round to enter. -/
theorem fastFeatureSelection_complete_iff (pool : Pool label features n)
    (few : label.bins.length + 2 * max t 0 ≤ 62) (bins : 0 < features.getBinCount) :
    ((fastFeatureSelection ℝ label features t features.getFeatureCount).stopped = none ∧
        ∀ f, (∃ bins, features.getFeature f = .ok bins ∧ bins ≠ []) →
          (fastFeatureSelection ℝ label features t features.getFeatureCount).items.count f = 1) ↔
      (∀ f < features.getFeatureCount, ∃ bins, features.getFeature f = .ok bins ∧ bins ≠ []) ∧
        (0 < t ∨ features.getFeatureCount = 1) := by
  set P := problem label features n with hP
  have owner : ∀ f, f ∈ P.owners ↔ ∃ bins, features.getFeature f = .ok bins ∧ bins ≠ [] :=
    fun f => Problem.mem_owners.trans (ownedBins_ne_nil_iff label n)
  have complete : P.owners = Finset.range features.getFeatureCount ↔
      ∀ f < features.getFeatureCount, f ∈ P.owners := by
    rw [Finset.Subset.antisymm_iff, and_iff_right (owners_subset ..)]
    exact forall_congr' fun f => by rw [Finset.mem_range]
  simp only [← owner, ← complete]
  rcases lt_or_ge 0 t with pos | none
  · obtain ⟨steps, rfl⟩ : ∃ steps : ℕ, t = steps := ⟨t.toNat, by omega⟩
    obtain ⟨stopped, count⟩ := fastFeatureSelection_owners pool (t := steps) (by omega) (by omega) bins
    rw [stopped, and_iff_left count, and_iff_left (.inl pos), ← hP]
    simp
  · obtain ⟨first, found, owned⟩ := exists_firstFeature label n bins
    obtain ⟨bg, selected, shown, -⟩ := selectFirst_ok pool (by omega) found
    have mem := Problem.mem_owners.mpr owned
    have inside := Finset.mem_range.mp (owners_subset label n mem)
    rw [fastFeatureSelection, selected]
    by_cases one : features.getFeatureCount = 1
    · have range : ∀ f ∈ P.owners, f = first := fun f hf => by
        have := Finset.mem_range.mp (owners_subset label n hf)
        omega
      have whole : P.owners = Finset.range features.getFeatureCount :=
        complete.mpr fun f lt => (show f = first by omega) ▸ mem
      refine iff_of_true ⟨?_, fun f hf => ?_⟩ ⟨whole, .inr one⟩
      · simp [one, emitLoop, Emitted.cons]
      · rw [range f hf]
        simp [one, emitLoop, Emitted.cons]
    · -- the first round fails
      obtain ⟨k, rounds⟩ : ∃ k, features.getFeatureCount - 1 = k + 1 :=
        ⟨features.getFeatureCount - 2, by omega⟩
      have failed := @fastRound_nonpos features label n ⟨bg, ofLabel label features.getBinCount⟩ _ _
        shown (by simp [ofLabel]) none
      refine iff_of_false ?_ ?_
      · rintro ⟨stopped, -⟩
        simp [rounds, emitLoop, Emitted.cons, failed] at stopped
      · rintro ⟨-, step⟩
        omega

end Complete

/-! ### Accepted pools -/

section Accepted

variable {pool : List (List ℚ)} {lines : List (UInt64 × UInt64)} {borderBuilder : TBorderBuilder}
  {label features : TBinFeatureSet} {n : ℕ} {t : ℤ}

theorem length_of_mem_binarizeFeature {feature : List ℚ} {bin : TBin}
    (mem : bin ∈ binarizeFeature feature borderBuilder) : bin.length = feature.length := by
  unfold binarizeFeature at mem
  simp only at mem
  split at mem
  · rw [List.mem_singleton.mp mem, List.length_replicate]
  · obtain ⟨border, -, rfl⟩ := List.mem_map.mp mem
    rw [List.length_map]

theorem binarizeFeature_ne_nil (feature : List ℚ) : binarizeFeature feature borderBuilder ≠ [] := by
  unfold binarizeFeature
  simp only
  split
  case isTrue => exact List.cons_ne_nil _ _
  case isFalse some => exact fun none => some (List.map_eq_nil_iff.mp none)

/-- What the checks of an accepted pool establish, in terms of its columns and lines. -/
theorem readBinarizedPool_spec (rows : 0 < n) (table : ∀ column ∈ pool, column.length = n)
    (small : ∀ line ∈ lines, line.1.toNat < 2 ^ 31)
    (accepted : readBinarizedPool pool lines borderBuilder = .ok (label, features)) :
    Pool label features n ∧ 0 < features.getBinCount ∧
      (∀ column ∈ pool.tail, ∀ value ∈ column, ∃ bit, binarizeValue value = .ok bit) ∧
      (∀ line ∈ lines, line.1.toNat < features.getFeatureCount) ∧
      (∃ line ∈ lines, line.1.toNat + 1 = features.getFeatureCount) ∧
      ∀ f < features.getFeatureCount,
        (∃ bins, features.getFeature f = .ok bins ∧ bins ≠ []) ↔ ∃ line ∈ lines, line.1.toNat = f := by
  obtain ⟨map, read, rest⟩ := bind_eq_ok.mp accepted
  have listed := mem_readBinToFeatureMap small read
  cases pool with
  | nil => cases rest
  | cons front columns =>
    obtain ⟨result, binarized, last⟩ := bind_eq_ok.mp rest
    cases last
    obtain ⟨values, lengths, named, largest, each⟩ :=
      binarizeWithMap_spec (fun column mem => table column (List.mem_cons_of_mem _ mem)) binarized
    have owns : ∀ f < features.getFeatureCount,
        (∃ bins, features.getFeature f = .ok bins ∧ bins ≠ []) ↔ ∃ line ∈ lines, line.1.toNat = f := by
      intro f lt
      obtain ⟨bins, got, nonempty⟩ := each f lt
      rw [got]
      simp only [Except.ok.injEq, exists_eq_left', nonempty, listed, Nat.cast_inj]
      exact ⟨fun ⟨line, mem, eq⟩ => ⟨line, mem, eq.symm⟩, fun ⟨line, mem, eq⟩ => ⟨line, mem, eq.symm⟩⟩
    obtain ⟨line, mem, top⟩ := (listed _).mp largest
    have count : line.1.toNat + 1 = features.getFeatureCount := by omega
    obtain ⟨b, owned⟩ := List.exists_mem_of_ne_nil _ ((ownedBins_ne_nil_iff .empty n).mpr
      ((owns line.1.toNat (by omega)).mpr ⟨line, mem, rfl⟩))
    refine ⟨⟨rows, binarizeFeature_ne_nil front, fun bin hb => ?_, lengths⟩,
      Nat.zero_lt_of_lt (Problem.mem_ownedBins.mp owned).1, values, fun line hl => ?_,
      ⟨line, mem, count⟩, owns⟩
    · rw [length_of_mem_binarizeFeature hb, table front List.mem_cons_self]
    · have := (named _ ((listed _).mpr ⟨line, hl, rfl⟩)).2
      omega

/-- **Which accepted pools are well formed and run to completion.** An accepted value is 0 or
1 iff it is a whole number of 32 bits, and the run for all features returns iff the feature
indices of the map have no gap and either there is a step to take or the only feature is 0. -/
theorem readBinarizedPool_complete_iff (rows : 0 < n) (table : ∀ column ∈ pool, column.length = n)
    (small : ∀ line ∈ lines, line.1.toNat < 2 ^ 31)
    (accepted : readBinarizedPool pool lines borderBuilder = .ok (label, features))
    (few : label.bins.length + 2 * max t 0 ≤ 62) :
    ((∀ column ∈ pool.tail, ∀ value ∈ column, value = 0 ∨ value = 1) ∧
        (fastFeatureSelection ℝ label features t features.getFeatureCount).stopped = none ∧
        ∀ f, (∃ bins, features.getFeature f = .ok bins ∧ bins ≠ []) →
          (fastFeatureSelection ℝ label features t features.getFeatureCount).items.count f = 1) ↔
      (∀ column ∈ pool.tail, ∀ value ∈ column, value.den = 1 ∧ 0 ≤ value.num ∧ value.num < 2 ^ 32) ∧
        (∀ line ∈ lines, ∀ f < line.1, ∃ other ∈ lines, other.1 = f) ∧
        (0 < t ∨ ∀ line ∈ lines, line.1 = 0) := by
  obtain ⟨wellFormed, bins, values, below, ⟨top, listed, count⟩, owns⟩ :=
    readBinarizedPool_spec rows table small accepted
  have binary : (∀ column ∈ pool.tail, ∀ value ∈ column, value = 0 ∨ value = 1) ↔
      ∀ column ∈ pool.tail, ∀ value ∈ column, value.den = 1 ∧ 0 ≤ value.num ∧ value.num < 2 ^ 32 :=
    forall₂_congr fun column hc => forall₂_congr fun value hv =>
      binary_iff_of_binarizeValue (values column hc value hv).choose_spec
  have gapless : (∀ f < features.getFeatureCount, ∃ bins, features.getFeature f = .ok bins ∧ bins ≠ []) ↔
      ∀ line ∈ lines, ∀ f < line.1, ∃ other ∈ lines, other.1 = f := by
    constructor
    · intro all line mem f lt
      have lt' : f.toNat < line.1.toNat := UInt64.lt_iff_toNat_lt.mp lt
      have inside := below line mem
      obtain ⟨other, mem', eq⟩ := (owns _ (by omega)).mp (all f.toNat (by omega))
      exact ⟨other, mem', UInt64.toNat_inj.mp eq⟩
    · intro closed f lt
      rw [owns f lt]
      rcases Nat.lt_or_ge f top.1.toNat with before | after
      · have size : f < 2 ^ 64 := by
          have := small top listed
          omega
        have eq : (UInt64.ofNat f).toNat = f := UInt64.toNat_ofNat_of_lt' size
        obtain ⟨other, mem, same⟩ := closed top listed (.ofNat f) (UInt64.lt_iff_toNat_lt.mpr (by omega))
        exact ⟨other, mem, by rw [same, eq]⟩
      · exact ⟨top, listed, by omega⟩
  have single : features.getFeatureCount = 1 ↔ ∀ line ∈ lines, line.1 = 0 := by
    constructor
    · intro one line mem
      have := below line mem
      exact UInt64.toNat_inj.mp (by rw [UInt64.toNat_zero]; omega)
    · intro zero
      rw [← count, zero top listed]
      rfl
  rw [binary, fastFeatureSelection_complete_iff wellFormed few bins, gapless, single]

/-- A label and five binary columns, and a map that gives feature 2 two of them. -/
def sixColumns : List (List ℚ) := (sixLabel.bins ++ sixFeatures.bins).map (·.map fun bit => if bit then 1 else 0)

def sixMap : List (UInt64 × UInt64) := [(2, 3), (0, 0), (1, 1), (2, 2), (3, 4)]

theorem readBinarizedPool_complete_sixRows : ∃ label features,
    readBinarizedPool sixColumns sixMap (fun _ => [0]) = .ok (label, features) ∧
      (∀ column ∈ sixColumns.tail, ∀ value ∈ column, value = 0 ∨ value = 1) ∧
      (fastFeatureSelection ℝ label features 2 features.getFeatureCount).stopped = none ∧
      ∀ f, (∃ bins, features.getFeature f = .ok bins ∧ bins ≠ []) →
        (fastFeatureSelection ℝ label features 2 features.getFeatureCount).items.count f = 1 := by
  have accepted : readBinarizedPool sixColumns sixMap (fun _ => [0]) = .ok (sixLabel, sixFeatures) := rfl
  refine ⟨sixLabel, sixFeatures, accepted, ?_⟩
  have listed : ∀ f < 4, ∃ line ∈ sixMap, line.1.toNat = f := by decide
  have gapless : ∀ line ∈ sixMap, ∀ f < line.1, ∃ other ∈ sixMap, other.1 = f := by
    intro line mem f lt
    have below := UInt64.lt_iff_toNat_lt.mp lt
    have small : line.1.toNat < 4 := by
      fin_cases mem <;> decide
    obtain ⟨other, mem', same⟩ := listed f.toNat (by omega)
    exact ⟨other, mem', UInt64.toNat_inj.mp same⟩
  exact (readBinarizedPool_complete_iff (n := 6) (t := 2) (by decide) (by decide) (by simp [sixMap])
    accepted (by decide)).mpr ⟨by decide +kernel, gapless, .inl two_pos⟩

/-- The value 1/2 is accepted as a binary value, and a map without feature 1 is accepted with
an empty feature 1, for which the last round has no candidate. With a map that has no gap, the value
2^32 is accepted as 0. -/
theorem readBinarizedPool_incomplete :
    (∃ label features, readBinarizedPool [[0, 1], [1 / 2, 1], [1, 0]] [(0, 0), (2, 1)] (fun _ => [0]) =
        .ok (label, features) ∧
      0 < entropy (R := ℝ) label.allBins ∧ label.bins.length + 2 * 1 ≤ 62 ∧
      ((1 / 2 : ℚ) ≠ 0 ∧ (1 / 2 : ℚ) ≠ 1) ∧
      (fastFeatureSelection ℝ label features 1 features.getFeatureCount).stopped = some .noCandidate) ∧
    readBinarizedPool [[0, 1], [4294967296, 1], [1, 0]] [(0, 0), (1, 1)] (fun _ => [0]) =
        .ok (.ofBins [[false, true]], addFeatures [[[false, true]], [[true, false]]]) ∧
      (4294967296 : ℚ) ≠ 0 ∧ (4294967296 : ℚ) ≠ 1 := by
  have binarized : [[1 / 2, 1], [1, 0]].mapM (fun column => column.mapM binarizeValue) =
      .ok [[false, true], [true, false]] := by decide +kernel
  have wrapped : [[4294967296, 1], [1, 0]].mapM (fun column => column.mapM binarizeValue) =
      .ok [[false, true], [true, false]] := by decide +kernel
  refine ⟨⟨.ofBins [[false, true]], addFeatures [[[false, true]], [], [[true, false]]], ?_,
    entropy_twoRows ▸ one_pos, by decide, by norm_num, ?_⟩, ?_, by norm_num, by norm_num⟩
  · simp only [readBinarizedPool, binarizeWithMap, binarized]
    rfl
  · have pool : Pool (.ofBins [[false, true]]) (addFeatures [[[false, true]], [], [[true, false]]]) 2 :=
      ⟨by decide, by decide, by decide, by decide⟩
    have empty : 1 ∉ (problem (.ofBins [[false, true]])
        (addFeatures [[[false, true]], [], [[true, false]]]) 2).owners := by
      rw [Problem.mem_owners, ownedBins_ne_nil_iff]
      rintro ⟨bins, got, some⟩
      exact some (Except.ok.inj got).symm
    have run := (fastFeatureSelection_owners (t := 1) pool (by decide) (by decide) (by decide)).1
    rw [if_neg (fun all => empty (by rw [all]; decide))] at run
    exact run
  · simp only [readBinarizedPool, binarizeWithMap, wrapped]
    rfl

end Accepted

end Cmicot
