import Cmicot.Grid.Binarizers

/-!
The borders of the dynamic programme (`grid_creator/binarization.cpp`).

`minEntropy` and `maxSumLog` have a border behind every threshold but the last value, so that the
borders stand in the gaps that the thresholds point to. With few values all gaps have one.

* `middles_thresholds`: the borders behind thresholds.
* `guaranteed_keepsApart_iff`: when all different values are kept apart.
-/

namespace Cmicot

open Loop
open Gaps

section Thresholds

variable {features values : List ℚ} {ts : List ℕ} {a c : ℚ} {x : ℕ}

/-- A threshold of the dynamic programme points to the lower value of the gap. -/
def ThresholdHit (features : List ℚ) (ts : List ℕ) (a c : ℚ) : Prop :=
  ∃ t ∈ ts, features[t]? = some a ∧ features[t + 1]? = some c

theorem thresholdHit_concat {t : ℕ} : ThresholdHit features (ts ++ [t]) a c ↔
    ThresholdHit features ts a c ∨ features[t]? = some a ∧ features[t + 1]? = some c := by
  simp [ThresholdHit, or_and_right, exists_or]

/-- The borders behind thresholds of increasing values. -/
theorem middles_thresholds (increasing : features.Pairwise (· < ·)) (same : ∀ v, v ∈ features ↔ v ∈ values)
    (inside : ∀ t ∈ ts, t < features.length) :
    ∃ borders, ts.foldlM (fun (borders : Finset ℚ) t => do
        if t + 1 ≠ features.length then
          return insert (((← Grid.read features t) + (← Grid.read features (t + 1))) / 2) borders
        return borders) ∅ = .ok borders ∧
      ∀ b, b ∈ borders ↔ ∃ a c, Adjacent values a c ∧ b = (a + c) / 2 ∧ ThresholdHit features ts a c := by
  refine foldlM_ok (P := fun done borders => ∀ b, b ∈ borders ↔
    ∃ a c, Adjacent values a c ∧ b = (a + c) / 2 ∧ ThresholdHit features done a c) (by simp [ThresholdHit]) ?_
  intro done t borders mem _ collected
  by_cases last : t + 1 = features.length
  · refine ⟨borders, ?_, fun b => (collected b).trans ?_⟩
    · rw [if_neg (not_not.mpr last)]
      rfl
    · have none : features[t + 1]? = none := List.getElem?_eq_none (by omega)
      simp [thresholdHit_concat, none]
  · have here := inside t mem
    have next : t + 1 < features.length := by omega
    have rise := List.pairwise_iff_getElem.mp increasing t (t + 1) here next (Nat.lt_succ_self t)
    have adjacent := (adjacent_of_lt (increasing.imp fun lt => le_of_lt lt) next rise).congr same
    refine ⟨insert ((features[t] + features[t + 1]) / 2) borders, ?_, fun b => ?_⟩
    · rw [if_pos last, Grid.read_ok (List.getElem?_eq_getElem here), Grid.read_ok (List.getElem?_eq_getElem next)]
      rfl
    · simp only [thresholdHit_concat, List.getElem?_eq_getElem here, List.getElem?_eq_getElem next, Option.some.injEq]
      rw [Finset.mem_insert, collected]
      constructor
      · rintro (rfl | ⟨a, c, gap, eq, hit⟩)
        · exact ⟨_, _, adjacent, rfl, .inr ⟨rfl, rfl⟩⟩
        · exact ⟨a, c, gap, eq, .inl hit⟩
      · rintro ⟨a, c, gap, rfl, hit | ⟨rfl, rfl⟩⟩
        · exact .inr ⟨a, c, gap, rfl, hit⟩
        · exact .inl rfl

/-- Neighbouring values are neighbours in the list of the different ones. -/
theorem exists_threshold (increasing : features.Pairwise (· < ·)) (same : ∀ v, v ∈ features ↔ v ∈ values)
    (adjacent : Adjacent values a c) : ∃ t, features[t]? = some a ∧ features[t + 1]? = some c := by
  obtain ⟨t, here, rfl⟩ := List.mem_iff_getElem.mp ((same a).mpr adjacent.low)
  obtain ⟨s, there, rfl⟩ := List.mem_iff_getElem.mp ((same c).mpr adjacent.high)
  have rise {i j : ℕ} (hi : i < features.length) (hj : j < features.length) (lt : i < j) : features[i] < features[j] :=
    List.pairwise_iff_getElem.mp increasing i j hi hj lt
  have before : t < s := by
    by_contra behind
    rcases Nat.lt_or_eq_of_le (Nat.le_of_not_lt behind) with lt | rfl
    · exact absurd adjacent.lt (rise there here lt).not_gt
    · exact absurd adjacent.lt (lt_irrefl _)
  have next : s = t + 1 := by
    by_contra other
    have inside : t + 1 < features.length := by omega
    rcases adjacent.between _ ((same _).mp (List.getElem_mem inside)) with low | high
    · exact absurd (rise here inside (Nat.lt_succ_self t)) low.not_gt
    · exact absurd (rise inside there (by omega)) high.not_gt
  subst next
  exact ⟨t, List.getElem?_eq_getElem here, List.getElem?_eq_getElem there⟩

/-- Every gap has a border iff every value but the last is a threshold. -/
theorem thresholdHit_all_iff (increasing : features.Pairwise (· < ·)) (same : ∀ v, v ∈ features ↔ v ∈ values) :
    (∀ a c, Adjacent values a c → ThresholdHit features ts a c) ↔ ∀ t, t + 1 < features.length → t ∈ ts := by
  constructor
  · intro hits t next
    have rise := List.pairwise_iff_getElem.mp increasing t (t + 1) (by omega) next (Nat.lt_succ_self t)
    have adjacent := (adjacent_of_lt (increasing.imp fun lt => le_of_lt lt) next rise).congr same
    obtain ⟨s, mem, low, -⟩ := hits _ _ adjacent
    obtain ⟨inside, eq⟩ := List.getElem?_eq_some_iff.mp low
    have nodup : features.Nodup := increasing.imp fun lt => ne_of_lt lt
    rwa [← nodup.getElem_inj_iff.mp eq]
  · intro all a c adjacent
    obtain ⟨t, low, high⟩ := exists_threshold increasing same adjacent
    exact ⟨t, all t (List.getElem?_eq_some_iff.mp high).1, low, high⟩

end Thresholds

section KeepsApart

variable {R : Type} [Zero R] [Add R] [Sub R] [LinearOrder R] {values : List ℚ} {builder : TBorderBuilder}

/-- With few weights everything but the last one is a threshold. -/
theorem bestSplit_rlm2_few {weights : List ℚ} (penalty : ℚ → R) (eps : R) (some : weights ≠ []) {x : ℕ}
    (few : weights.length ≤ x + 1) {ts : List ℕ} (ran : Grid.bestSplit .rlm2 penalty eps weights x = .ok ts) {t : ℕ}
    (inside : t + 1 < weights.length) : t ∈ ts := by
  have go : ¬ (x + 1 ≤ 1 ∨ weights.length = 0) := by
    have := List.length_pos_of_ne_nil some
    omega
  simp only [Grid.bestSplit, if_neg go, if_pos few] at ran
  cases ran
  exact List.mem_append_left _ (List.mem_range.mpr (by omega))

/-- **When the dynamic programme keeps all different values apart**, for any penalty: there are at most as many as
groups were asked for. -/
theorem guaranteed_keepsApart_iff (penalty : ℚ → R) (eps : R) (some : values ≠ []) (x : ℕ)
    (builds : ∃ borders, splitWithGuaranteedOptimum penalty eps values x = .ok borders ∧
      Iterates (builder values) borders) :
    (∀ i < values.length, ∀ j < values.length, values.getD i 0 ≠ values.getD j 0 →
        ¬ SameBins (binarizeFeature values builder) i j) ↔ values.toFinset.card ≤ x + 1 := by
  obtain ⟨borders, ran, iterates⟩ := builds
  have runs := runs_foldl (pairwise_sortValues values)
  unfold splitWithGuaranteedOptimum at ran
  generalize (sortValues values).foldl addValue ([], []) = st at runs ran
  obtain ⟨features, weights⟩ := st
  have increasing : features.Pairwise (· < ·) := runs.increasing
  have size : features.length = weights.length := runs.size
  have same : ∀ v, v ∈ features ↔ v ∈ values := fun v => (runs.mem_iff v).trans mem_sortValues
  have nonempty : weights ≠ [] := by
    obtain ⟨v, mem⟩ := List.exists_mem_of_ne_nil values some
    exact List.ne_nil_of_length_pos (size ▸ List.length_pos_of_mem ((same v).mpr mem))
  obtain ⟨ts, split, length, inside⟩ := Grid.bestSplit_rlm2_inside penalty eps nonempty x
  obtain ⟨_, collected, middles⟩ := middles_thresholds increasing same fun t mem => size ▸ inside t mem
  simp only [bestSplitBorders, split, ok_bind] at ran
  cases collected.symm.trans ran
  have different : values.toFinset.card = features.length := by
    rw [← List.toFinset_card_of_nodup (increasing.imp fun lt => ne_of_lt lt)]
    congr 1
    ext v
    rw [List.mem_toFinset, List.mem_toFinset, same]
  have gaps : Middles (builder values) values (ThresholdHit features ts) := fun b =>
    (iterates.mem_iff b).trans (middles b)
  rw [gaps.keepsApart_iff, thresholdHit_all_iff increasing same, different]
  constructor
  · intro all
    -- the thresholds are the positions of all values but the last
    have listed : List.range (features.length - 1) ⊆ ts := fun t mem => all t (by have := List.mem_range.mp mem; omega)
    have le := (List.subperm_of_subset List.nodup_range listed).length_le
    rw [List.length_range, length] at le
    omega
  · intro few t next
    exact bestSplit_rlm2_few penalty eps nonempty (size ▸ few) split (size ▸ next)

/-- Three different values in four rows and two borders. -/
theorem guaranteed_keepsApart_threeValues :
    ∃ borders, splitWithGuaranteedOptimum (fun w : ℚ => w * w) (1 / 10 ^ 12) [3, 1, 1, 2] 2 = .ok borders ∧
      ∀ i < 4, ∀ j < 4, ([3, 1, 1, 2] : List ℚ).getD i 0 ≠ ([3, 1, 1, 2] : List ℚ).getD j 0 →
        ¬ SameBins (binarizeFeature [3, 1, 1, 2] fun _ => borders.sort (· ≤ ·)) i j := by
  obtain ⟨borders, ran, -⟩ := useful_splitWithGuaranteedOptimum (fun w : ℚ => w * w) (1 / 10 ^ 12)
    (show ([3, 1, 1, 2] : List ℚ) ≠ [] by decide) 2
  have iterates : Iterates (borders.sort (· ≤ ·)) borders := ⟨Finset.sort_nodup _ _, fun _ => Finset.mem_sort _⟩
  exact ⟨borders, ran, (@guaranteed_keepsApart_iff ℚ _ _ _ _ [3, 1, 1, 2] (fun _ => borders.sort (· ≤ ·))
    (fun w => w * w) (1 / 10 ^ 12) (by decide) 2 ⟨borders, ran, iterates⟩).mpr (by decide)⟩

end KeepsApart

end Cmicot
