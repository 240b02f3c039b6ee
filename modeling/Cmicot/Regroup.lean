import Cmicot.Binarize
import Mathlib.Data.List.Nodup

/-!
Regrouping by a map (`BinarizeWithMap` of `binarize.h`).

The columns of a binary pool are moved to the features that the map names, in their order, and
the features are numbered again. Nothing is lost: the bins of the result are the columns in the
order of their features, and a bin belongs to the feature its column was mapped to. The count of
features is an `int`; the largest `int` as a feature index leaves no room for it.

* `binarizeWithMap_ok`: every map without the largest `int` is accepted.
* `binarizeWithMap_regroups_iff`: the columns are regrouped iff the map does not name that index.
-/

namespace Cmicot

open Loop

variable {bins : List TBin} {columns : List (List ℚ)} {map : List ℤ} {count f b : ℕ}

/-! ### Accepted pools -/

theorem binarizeValue_toNat (bit : Bool) : binarizeValue (bit.toNat : ℚ) = .ok bit := by
  cases bit <;> decide +kernel

theorem pushBin_ok {done : List (TBin × ℤ)} {current : List (List TBin)} {entry : TBin × ℤ}
    (held : Distributes count done current) (inside : 0 ≤ entry.2 ∧ entry.2 < count) :
    ∃ next, pushBin current entry = .ok next ∧ Distributes count (done ++ [entry]) next := by
  have length : current.length = count := by
    rw [held, List.length_map, List.length_range]
  have pushed : pushBin current entry = .ok (current.modify entry.2.toNat (· ++ [entry.1])) :=
    if_pos (length ▸ inside)
  exact ⟨_, pushed, (held.pushBin pushed).2⟩

theorem maxElement_eq {xs : List ℤ} {largest : ℤ} (mem : largest ∈ xs) (bound : ∀ x ∈ xs, x ≤ largest) :
    maxElement xs = .ok largest := by
  cases xs with
  | nil => exact absurd mem List.not_mem_nil
  | cons x xs =>
    obtain ⟨found, above⟩ := @maxElement_spec (x :: xs) _ rfl
    rw [maxElement]
    exact congrArg _ (le_antisymm (bound _ found) (above _ mem))

/-- The numbers of a bin. -/
def numbers (bin : TBin) : List ℚ := bin.map fun bit => (bit.toNat : ℚ)

/-- **An accepted pool**: all bins are pushed to the features that the map names. -/
theorem binarizeWithMap_ok (length : bins.length = map.length) {largest : ℤ} (mem : largest ∈ map)
    (bound : ∀ f ∈ map, 0 ≤ f ∧ f ≤ largest) (fits : largest + 1 < 2 ^ 31) :
    binarizeWithMap (bins.map numbers) map = .ok (addFeatures ((List.range (largest + 1).toNat).map fun f : ℕ =>
      ((bins.zip map).filter fun entry => entry.2 = (f : ℤ)).map Prod.fst)) := by
  have poolBins : (bins.map numbers).mapM (fun column => column.mapM binarizeValue) = .ok bins := by
    rw [List.mapM_map]
    refine (mapM_ok (h := id) fun bin _ => ?_).trans (by rw [List.map_id])
    have each : bin.mapM (fun bit : Bool => binarizeValue (bit.toNat : ℚ)) = .ok (bin.map fun bit => bit) :=
      mapM_ok fun bit _ => binarizeValue_toNat bit
    rw [List.map_id'] at each
    rw [Function.comp_apply, numbers, List.mapM_map, Function.comp_def]
    exact each
  have found := maxElement_eq mem fun f listed => (bound f listed).2
  obtain ⟨grouped, pushed, held⟩ := foldlM_ok (f := pushBin) (l := bins.zip map)
    (P := Distributes (largest + 1).toNat) (s := List.replicate (largest + 1).toNat []) (by simp [Distributes])
    fun done entry current listed _ held => by
      have := bound _ (List.of_mem_zip listed).2
      exact pushBin_ok held (by omega)
  simp only [binarizeWithMap, poolBins, ok_bind, length, found, pushed, pure_eq_ok]
  have some := (bound largest mem).1
  rw [if_neg (not_not.mpr rfl), if_neg (not_not.mpr fits), if_neg (by omega), held]

/-! ### Regrouped columns -/

/-- The columns that the map names for a feature, in increasing order. -/
def columnsOfFeature (map : List ℤ) (f : ℕ) : List ℕ := (List.range map.length).filter fun c => map.getD c (-1) = f

/-- A column of zeros and ones as a bin. -/
def binOf (column : List ℚ) : TBin := column.map fun value => decide (value = 1)

/-- The columns of the features are all columns, each once. -/
theorem columnsOfFeature_perm (named : ∀ f ∈ map, 0 ≤ f ∧ f < count) :
    ((List.range count).flatMap (columnsOfFeature map)).Perm (List.range map.length) := by
  have nodup : ((List.range count).flatMap (columnsOfFeature map)).Nodup := by
    rw [List.nodup_flatMap]
    refine ⟨fun f _ => List.nodup_range.filter _, List.nodup_range.imp fun {f g} differ => ?_⟩
    intro c mem mem'
    simp only [columnsOfFeature, List.mem_filter, decide_eq_true_eq] at mem mem'
    exact differ (by exact_mod_cast mem.2.symm.trans mem'.2)
  refine (List.perm_ext_iff_of_nodup nodup List.nodup_range).mpr fun c => ?_
  simp only [List.mem_flatMap, columnsOfFeature, List.mem_filter, List.mem_range, decide_eq_true_eq]
  constructor
  · rintro ⟨f, -, inside, -⟩
    exact inside
  · intro inside
    have listed : map.getD c (-1) ∈ map := by
      rw [List.getD_eq_getElem _ _ inside]
      exact List.getElem_mem _
    have range := named _ listed
    exact ⟨(map.getD c (-1)).toNat, by omega, inside, by omega⟩

theorem zip_filter_eq (length : bins.length = map.length) (f : ℕ) :
    ((bins.zip map).filter fun entry => entry.2 = (f : ℤ)).map Prod.fst =
      (columnsOfFeature map f).map fun c => bins.getD c [] := by
  have indexed : bins.zip map = (List.range map.length).map fun c => (bins.getD c [], map.getD c (-1)) := by
    apply List.ext_getElem
    · simp [length]
    · intro c h h'
      have inside : c < map.length := by simpa using h'
      simp [length, inside]
  rw [indexed, List.filter_map, List.map_map]
  rfl

/-- What regrouping the columns by the map means. -/
structure Regroups (columns : List (List ℚ)) (map : List ℤ) (result : TBinFeatureSet) : Prop where
  /-- One feature for every index up to the largest one of the map. -/
  count : maxElement map = .ok ((result.getFeatureCount : ℤ) - 1)
  features : ∀ f < result.getFeatureCount,
    result.getFeature f = .ok ((columnsOfFeature map f).map fun c => binOf (columns.getD c []))
  perm : result.allBins.Perm (columns.map binOf)
  /-- Bin `b` is column `order[b]`, and its feature is the one that the map names for that column. -/
  owner : ∃ order : List ℕ, order.Perm (List.range columns.length) ∧
    result.allBins = order.map (fun c => binOf (columns.getD c [])) ∧
    ∀ b c, order[b]? = some c → ∃ f, result.getFeatureIndexByBinIndex b = .ok f ∧ map[c]? = some (f : ℤ)

/-- The element at a position between two offsets belongs to the part between them. -/
theorem mem_of_getElem?_flatten {α : Type} {parts : List (List α)} {x : α} (inside : f < parts.length)
    (low : (parts.take f).flatten.length ≤ b) (high : b < (parts.take (f + 1)).flatten.length)
    (at_b : parts.flatten[b]? = some x) : x ∈ parts[f] := by
  have split : parts.flatten = (parts.take (f + 1)).flatten ++ (parts.drop (f + 1)).flatten := by
    rw [← List.flatten_append, List.take_append_drop]
  rw [split, List.getElem?_append_left high, List.take_succ_eq_append_getElem inside, List.flatten_append,
    List.getElem?_append_right low, List.flatten_singleton] at at_b
  exact List.mem_of_getElem? at_b

theorem binOf_numbers (bin : TBin) : binOf (numbers bin) = bin := by
  rw [binOf, numbers, List.map_map]
  refine (List.map_congr_left fun bit _ => ?_).trans (List.map_id bin)
  cases bit <;> simp

theorem numbers_binOf {column : List ℚ} (binary : ∀ value ∈ column, value = 0 ∨ value = 1) :
    numbers (binOf column) = column := by
  rw [binOf, numbers, List.map_map]
  refine (List.map_congr_left fun value mem => ?_).trans (List.map_id column)
  rcases binary value mem with rfl | rfl <;> simp

theorem binOf_getD (bins : List TBin) (c : ℕ) : binOf ((bins.map numbers).getD c []) = bins.getD c [] := by
  rw [show ([] : List ℚ) = numbers [] from rfl, List.getD_map, binOf_numbers]

/-- A bin that comes from a part belongs to the feature of the part. -/
theorem mem_part {α : Type} {parts : List (List α)} {g : α → TBin} {result : TBinFeatureSet} {x : α}
    (built : result.Built (parts.map (List.map g))) (at_b : parts.flatten[b]? = some x) :
    b < result.getBinCount ∧ ∃ inside : result.owner b < parts.length, x ∈ parts[result.owner b] := by
  have offset (k : ℕ) : ((parts.map (List.map g)).take k).flatten.length = (parts.take k).flatten.length := by
    rw [← List.map_take, ← List.map_flatten, List.length_map]
  have inside : b < result.getBinCount := by
    rw [TBinFeatureSet.getBinCount, built.bins, ← List.map_flatten, List.length_map]
    exact (List.getElem?_eq_some_iff.mp at_b).1
  obtain ⟨owned, low, high⟩ := (TBinFeatureSet.owner_eq_iff inside).mp rfl
  rw [built.featureBegin owned, offset] at low
  rw [built.featureEnd owned, offset] at high
  rw [built.getFeatureCount, List.length_map] at owned
  exact ⟨inside, owned, mem_of_getElem?_flatten owned low high at_b⟩

/-- The features that `BinarizeWithMap` adds regroup the columns. -/
theorem regroups_addFeatures (length : bins.length = map.length) (found : maxElement map = .ok ((count : ℤ) - 1))
    (named : ∀ f ∈ map, 0 ≤ f ∧ f < count) :
    Regroups (bins.map numbers) map (addFeatures ((List.range count).map fun f =>
      (columnsOfFeature map f).map fun c => bins.getD c [])) := by
  set parts := (List.range count).map (columnsOfFeature map) with parts_eq
  have features : (List.range count).map (fun f => (columnsOfFeature map f).map fun c => bins.getD c []) =
      parts.map (List.map fun c => bins.getD c []) := by
    rw [List.map_map]
    rfl
  rw [features]
  have built := built_addFeatures (parts.map (List.map fun c => bins.getD c []))
  set result := addFeatures (parts.map (List.map fun c => bins.getD c []))
  have size : parts.length = count := by rw [List.length_map, List.length_range]
  have featureCount : result.getFeatureCount = count := by rw [built.getFeatureCount, List.length_map, size]
  have part (f : ℕ) (inside : f < count) : parts[f]? = some (columnsOfFeature map f) := by
    rw [List.getElem?_map, List.getElem?_range inside]
    rfl
  have order : parts.flatten.Perm (List.range bins.length) := by
    rw [length]
    exact columnsOfFeature_perm named
  have stored : result.allBins = parts.flatten.map fun c => bins.getD c [] := by
    rw [TBinFeatureSet.allBins, built.bins, List.map_flatten]
  refine ⟨by rw [featureCount, found], fun f inside => ?_, ?_, parts.flatten, ?_, ?_, fun b c at_b => ?_⟩
  · simp only [binOf_getD]
    exact built.getFeature (by rw [List.getElem?_map, part f (featureCount ▸ inside)]; rfl)
  · have whole : (bins.map numbers).map binOf = (List.range bins.length).map fun c => bins.getD c [] := by
      apply List.ext_getElem
      · simp
      · intro c h h'
        have inside : c < bins.length := by simpa using h
        simp [binOf_numbers, inside]
    rw [stored, whole]
    exact order.map _
  · rwa [List.length_map]
  · simp only [binOf_getD]
    exact stored
  · obtain ⟨inside, within, mem⟩ := mem_part built at_b
    rw [← Option.some.inj ((List.getElem?_eq_getElem within).symm.trans (part _ (size ▸ within))).symm] at mem
    obtain ⟨listed, eq⟩ := List.mem_filter.mp mem
    have lt := List.mem_range.mp listed
    refine ⟨result.owner b, if_pos inside, ?_⟩
    rw [List.getElem?_eq_getElem lt, ← of_decide_eq_true eq, List.getD_eq_getElem _ _ lt]

/-- **Regrouping by a map** neither loses, duplicates nor reorders bins iff the largest `int` is not
one of the feature indices. -/
theorem binarizeWithMap_regroups_iff (some : columns ≠ [])
    (binary : ∀ column ∈ columns, ∀ value ∈ column, value = 0 ∨ value = 1) (length : map.length = columns.length)
    (range : ∀ f ∈ map, 0 ≤ f ∧ f < 2 ^ 31) :
    (∃ result, binarizeWithMap columns map = .ok result ∧ Regroups columns map result) ↔ 2 ^ 31 - 1 ∉ map := by
  have columns_eq : columns = (columns.map binOf).map numbers := by
    rw [List.map_map]
    refine ((List.map_congr_left fun column mem => ?_).trans (List.map_id columns)).symm
    exact numbers_binOf (binary column mem)
  have size : (columns.map binOf).length = map.length := by rw [List.length_map, length]
  have nonempty : map ≠ [] := by
    rw [← List.length_pos_iff, length]
    exact List.length_pos_iff.mpr some
  obtain ⟨largest, mem, bound⟩ : ∃ largest ∈ map, ∀ f ∈ map, f ≤ largest := by
    cases map with
    | nil => exact absurd rfl nonempty
    | cons f rest => exact ⟨_, @maxElement_spec (f :: rest) _ rfl⟩
  have found := maxElement_eq mem bound
  constructor
  · rintro ⟨result, accepted, -⟩ listed
    obtain ⟨_, -, rest⟩ := bind_eq_ok.mp accepted
    obtain ⟨-, rest⟩ := guard_eq_ok.mp rest
    obtain ⟨_, found', rest⟩ := bind_eq_ok.mp rest
    obtain rfl := Except.ok.inj (found.symm.trans found')
    obtain ⟨fits, -⟩ := guard_eq_ok.mp rest
    have := bound _ listed
    omega
  · intro free
    have fits : largest + 1 < 2 ^ 31 := by
      have := (range largest mem).2
      have : largest ≠ 2 ^ 31 - 1 := fun eq => free (eq ▸ mem)
      omega
    have pos := (range largest mem).1
    rw [columns_eq, binarizeWithMap_ok size mem (fun f listed => ⟨(range f listed).1, bound f listed⟩) fits]
    simp only [zip_filter_eq size]
    refine ⟨_, rfl, regroups_addFeatures size (by rw [found]; congr 1; omega) fun f listed => ?_⟩
    have := bound f listed
    exact ⟨(range f listed).1, by omega⟩

/-- Three columns for two features that are named in turn. -/
theorem binarizeWithMap_regroups_interleaved :
    (∃ result, binarizeWithMap [[1, 0], [0, 0], [1, 1]] [2, 0, 2] = .ok result ∧
      Regroups [[1, 0], [0, 0], [1, 1]] [2, 0, 2] result) ↔ (2 ^ 31 - 1 : ℤ) ∉ ([2, 0, 2] : List ℤ) :=
  binarizeWithMap_regroups_iff (by simp) (by simp) rfl (by simp)

/-- The largest `int` as a feature index: the count of features overflows. -/
theorem binarizeWithMap_largestIndex :
    ¬ ∃ result, binarizeWithMap [[1]] [2 ^ 31 - 1] = .ok result ∧ Regroups [[1]] [2 ^ 31 - 1] result := by
  have failed : binarizeWithMap [[1]] [2 ^ 31 - 1] = .error .intOverflow := by
    have accepted : ([[1]] : List (List ℚ)).mapM (fun column => column.mapM binarizeValue) = .ok [[true]] := by
      decide +kernel
    rw [binarizeWithMap, accepted]
    rfl
  rintro ⟨result, accepted, -⟩
  rw [failed] at accepted
  cases accepted

end Cmicot
