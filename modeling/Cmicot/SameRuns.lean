import Cmicot.Grid.Recoding
import Cmicot.Main

/-!
Raw pools that are searched alike (`feature_selection.cpp`).

A run reads from a raw pool only which rows have the same bins. Neither the order of its lines nor a
re-encoding of its first column that the binarizer does not see makes a difference to what is printed.

* `runMain_reorderedLines`: the lines of the pool in another order.
* `runMain_recodedLabel`: the first column in another encoding.
-/

namespace Cmicot

open Loop Text Search Splitting TCachingBinScorer
open Gaps

/-! ### Texts that are read alike -/

section Alike

variable {converter : TConverter} {options : TOptions} {streams streams' after after' : TStreams} {poolFile : String}
variable {text text' : List Char}

/-- Texts that are tables of the same widths are searched alike if their tables are. -/
theorem runMain_alike (raw : options.rawPoolFilename = some poolFile)
    (only : options.binaryPoolFilename = none ∧ options.featureBinMapFilename = none)
    (opened : openInput streams poolFile = .ok (text, after))
    (opened' : openInput streams' poolFile = .ok (text', after'))
    (table : ∀ w, IsTable converter w (readLines text') ↔ IsTable converter w (readLines text))
    (empty : readLines text' = [] ↔ readLines text = [])
    (same : ∀ w, rowsOf converter text ≠ [] → IsTable converter (w + 1) (readLines text) →
      (finish ℝ options streams'.files (rawLabel options.borderBuilder (rowsOf converter text'))
          (rawFeatures options.borderBuilder w (rowsOf converter text'))).cout =
        (finish ℝ options streams.files (rawLabel options.borderBuilder (rowsOf converter text))
          (rawFeatures options.borderBuilder w (rowsOf converter text))).cout ∧
      (finish ℝ options streams'.files (rawLabel options.borderBuilder (rowsOf converter text'))
          (rawFeatures options.borderBuilder w (rowsOf converter text'))).status =
        (finish ℝ options streams.files (rawLabel options.borderBuilder (rowsOf converter text))
          (rawFeatures options.borderBuilder w (rowsOf converter text))).status) :
    (runMain ℝ converter options streams').cout = (runMain ℝ converter options streams).cout ∧
      ((runMain ℝ converter options streams').status = .ok 0 ↔
        (runMain ℝ converter options streams).status = .ok 0) := by
  rw [runMain_raw raw only, runMain_raw raw only]
  cases read : readRawPool converter streams poolFile options.borderBuilder with
  | ok pools =>
    obtain ⟨label, features⟩ := pools
    obtain ⟨w, isTable, some, rfl, rfl⟩ := (readRawPool_eq_ok_iff _ opened).mp read
    have read' := (readRawPool_eq_ok_iff options.borderBuilder opened').mpr
      ⟨w, (table _).mpr isTable, empty.not.mpr some, rfl, rfl⟩
    obtain ⟨cout, status⟩ := same w (by simpa [rowsOf] using some) isTable
    simp only [rowsOf] at cout status
    simp only [read', cout, status, and_self]
  | error why =>
    cases read' : readRawPool converter streams' poolFile options.borderBuilder with
    | error why' => simp
    | ok pools =>
      obtain ⟨label, features⟩ := pools
      obtain ⟨w, isTable, some, -⟩ := (readRawPool_eq_ok_iff _ opened').mp read'
      have ok := (readRawPool_eq_ok_iff options.borderBuilder opened).mpr
        ⟨w, (table _).mp isTable, empty.not.mp some, rfl, rfl⟩
      cases read.symm.trans ok

end Alike

/-! ### Reordered rows -/

section Reordered

variable {builder : TBorderBuilder} {binarizer : EBinarizer} {penalty : Grid.EPenaltyType → ℚ → ℝ} {n w x : ℕ}
variable {σ : Equiv.Perm (Fin n)}

theorem permuteRows_addFeature (features : TBinFeatureSet) (bins : List TBin) :
    ((features.permuteRows σ).addFeature (bins.map (permuteRows σ))).1 =
      (features.addFeature bins).1.permuteRows σ := by
  simp [TBinFeatureSet.addFeature, TBinFeatureSet.permuteRows, TBinFeatureSet.withBins]

theorem permuteRows_addFeatures (features : List (List TBin)) :
    addFeatures (features.map (List.map (permuteRows σ))) = (addFeatures features).permuteRows σ := by
  induction features using List.reverseRecOn with
  | nil => rfl
  | append_singleton features bins ih =>
    rw [List.map_append, List.map_singleton, addFeatures_concat, addFeatures_concat, ih, permuteRows_addFeature]

/-- A reordered column with the same borders has reordered bins. -/
theorem binarizeFeature_reordered {feature feature' : List ℚ} (size : feature.length = n)
    (rows : feature' = List.ofFn fun i : Fin n => feature.getD (σ i) 0) (borders : builder feature' = builder feature) :
    binarizeFeature feature' builder = (binarizeFeature feature builder).map (permuteRows σ) := by
  have inside (i : Fin n) : (σ i : ℕ) < feature.length := size ▸ (σ i).isLt
  unfold binarizeFeature
  simp only [borders]
  split
  case isTrue => simp [rows, size, permuteRows, List.getD_eq_getElem?_getD, ← List.ofFn_const]
  case isFalse =>
    rw [List.map_map]
    refine List.map_congr_left fun b _ => ?_
    simp [rows, permuteRows, List.getD_eq_getElem?_getD, inside, Function.comp_def]

/-- A table with reordered rows. -/
theorem raw_reordered {rows rows' : List (List ℚ)} (perm : rows'.Perm rows)
    (fills : binarizer.Fills penalty x builder) (w : ℕ) :
    ∃ σ : Equiv.Perm (Fin rows.length), rawLabel builder rows' = (rawLabel builder rows).permuteRows σ ∧
      rawFeatures builder w rows' = (rawFeatures builder w rows).permuteRows σ := by
  obtain ⟨τ, same⟩ := exists_equiv_of_perm perm
  set σ := (finCongr perm.length_eq.symm).trans τ with hσ
  have columns (j : ℕ) : columnAt rows' j = List.ofFn fun i : Fin rows.length => (columnAt rows j).getD (σ i) 0 := by
    apply List.ext_getElem
    · simp [columnAt, perm.length_eq]
    · intro i lt lt'
      have inside : i < rows'.length := by simpa [columnAt] using lt
      have row := same ⟨i, inside⟩
      simp only [List.get_eq_getElem] at row
      simp [columnAt, hσ, row, List.getD_eq_getElem?_getD]
  have binarized (j : ℕ) : binarizeFeature (columnAt rows' j) builder =
      (binarizeFeature (columnAt rows j) builder).map (permuteRows σ) :=
    binarizeFeature_reordered (by simp [columnAt]) (columns j) (fills.perm (perm.map _))
  refine ⟨σ, ?_, ?_⟩
  · rw [rawLabel, binarized]
    rfl
  · rw [rawFeatures, rawFeatures, ← permuteRows_addFeatures, rawBins, rawBins, List.map_map]
    simp only [binarized, Function.comp_def]

/-- The same run on the reordered table. -/
theorem finish_reordered {options : TOptions} {rows rows' : List (List ℚ)} (some : rows ≠ []) (perm : rows'.Perm rows)
    (selects : options.binaryPoolOutputFile = none ∨ options.featureBinMapOutputFile = none)
    (fills : binarizer.Fills penalty options.borderCount options.borderBuilder)
    (fits : options.borderCount + 2 * options.evalStepCount ≤ 62) (files files' : String → Option (List Char)) :
    (finish ℝ options files' (rawLabel options.borderBuilder rows') (rawFeatures options.borderBuilder w rows')).cout =
        (finish ℝ options files (rawLabel options.borderBuilder rows) (rawFeatures options.borderBuilder w rows)).cout ∧
      (finish ℝ options files' (rawLabel options.borderBuilder rows')
          (rawFeatures options.borderBuilder w rows')).status =
        (finish ℝ options files (rawLabel options.borderBuilder rows)
          (rawFeatures options.borderBuilder w rows)).status := by
  obtain ⟨σ, labels, features⟩ := raw_reordered perm fills w
  have pool := pool_raw options.borderBuilder w some
  have few {rows : List (List ℚ)} (some : rows ≠ []) :
      (rawLabel options.borderBuilder rows).bins.length ≤ options.borderCount :=
    length_binarizeFeature_le options.borderCount_pos (fills.length_le (by simpa [columnAt] using some))
  have labelBins := few some
  have some' : rows' ≠ [] := by
    rintro rfl
    exact some perm.symm.eq_nil
  have labelBins' := few some'
  have permuted := pool.permuteRows σ
  rw [← labels, ← features] at permuted
  have same : problem ((rawLabel options.borderBuilder rows).permuteRows σ)
      ((rawFeatures options.borderBuilder w rows).permuteRows σ) rows.length =
    problem (rawLabel options.borderBuilder rows) (rawFeatures options.borderBuilder w rows) rows.length :=
    problem_permuteRows σ
  rw [← labels, ← features] at same
  exact finish_congr options options selects selects rfl rfl pool permuted (by omega) (by omega) same (by simp) files
    files'

/-- **The order of the rows does not matter** to a run on a raw pool, with any of the binarizers: with the lines of the
text in any other order the same features are printed, and the run exits with 0 for the one text if it does for the
other. -/
theorem runMain_reorderedLines {converter : TConverter} {options : TOptions} {streams streams' after after' : TStreams}
    {poolFile : String} {text text' : List Char} (raw : options.rawPoolFilename = some poolFile)
    (only : options.binaryPoolFilename = none ∧ options.featureBinMapFilename = none)
    (selects : options.binaryPoolOutputFile = none ∨ options.featureBinMapOutputFile = none)
    (opened : openInput streams poolFile = .ok (text, after))
    (opened' : openInput streams' poolFile = .ok (text', after')) (perm : (readLines text').Perm (readLines text))
    (fills : binarizer.Fills penalty options.borderCount options.borderBuilder)
    (fits : options.borderCount + 2 * options.evalStepCount ≤ 62) :
    (runMain ℝ converter options streams').cout = (runMain ℝ converter options streams).cout ∧
      ((runMain ℝ converter options streams').status = .ok 0 ↔
        (runMain ℝ converter options streams).status = .ok 0) := by
  have table (w : ℕ) : IsTable converter w (readLines text') ↔ IsTable converter w (readLines text) :=
    ⟨fun ⟨parses, width⟩ => ⟨fun line mem => parses line (perm.mem_iff.mpr mem),
        fun line mem => width line (perm.mem_iff.mpr mem)⟩,
      fun ⟨parses, width⟩ => ⟨fun line mem => parses line (perm.mem_iff.mp mem),
        fun line mem => width line (perm.mem_iff.mp mem)⟩⟩
  have empty : readLines text' = [] ↔ readLines text = [] := by
    rw [← List.length_eq_zero_iff, ← List.length_eq_zero_iff, perm.length_eq]
  exact runMain_alike raw only opened opened' table empty fun w some _ =>
    finish_reordered some (perm.map (numbersOf converter)) selects fills fits streams.files streams'.files

/-- The default options, with the borders in increasing order. -/
theorem fills_defaults (penalty : Grid.EPenaltyType → ℚ → ℝ) : EBinarizer.medianPlusUniform.Fills penalty 10
    ((TOptions.defaults medianPlusUniformBestSplit).onRawPool "-").borderBuilder := by
  have queue (sorted : List ℚ) (nonempty : sorted ≠ []) :
      ∃ top : List (TFeatureBin sorted) → TFeatureBin sorted, Chooses TFeatureBin.score top := by
    obtain ⟨top, chooses, -⟩ := exists_worst (TFeatureBin.splitter sorted) (wholeBin sorted nonempty)
    exact ⟨top, chooses⟩
  choose queue chooses using queue
  refine ⟨queue, fun _ borders => borders.sort (· ≤ ·), chooses, fun values _ => ⟨_, rfl, rfl, ?_⟩⟩
  exact iterates_borderBuilder medianPlusUniformBestSplit values

/-- Four lines in the other order. -/
theorem runMain_reorderedLines_fourLines :
    (runMain ℝ decimalConverter ((TOptions.defaults medianPlusUniformBestSplit).onRawPool "-")
        ⟨fun _ => none, unlines fourRows.reverse⟩).cout =
      (runMain ℝ decimalConverter ((TOptions.defaults medianPlusUniformBestSplit).onRawPool "-")
        ⟨fun _ => none, fourLines⟩).cout :=
  (@runMain_reorderedLines .medianPlusUniform (fun _ w => w) decimalConverter
    ((TOptions.defaults medianPlusUniformBestSplit).onRawPool "-")
    ⟨fun _ => none, fourLines⟩ ⟨fun _ => none, unlines fourRows.reverse⟩ _ _ "-" fourLines
    (unlines fourRows.reverse) rfl ⟨rfl, rfl⟩ (.inl rfl) rfl rfl (by decide) (fills_defaults _) (by decide)).1

end Reordered

/-! ### Re-encoded labels -/

section Recoded

variable {builder : TBorderBuilder} {rows rows' : List (List ℚ)} {f : ℚ → ℚ} {w x : ℕ}

/-- Rows with another first number. -/
def recodeLabel (f : ℚ → ℚ) (rows : List (List ℚ)) : List (List ℚ) := rows.map (List.modifyHead f)

theorem columnAt_recodeLabel_zero (wide : ∀ row ∈ rows, row ≠ []) :
    columnAt (recodeLabel f rows) 0 = (columnAt rows 0).map f := by
  rw [columnAt, recodeLabel, columnAt, List.map_map, List.map_map]
  refine List.map_congr_left fun row mem => ?_
  cases row with
  | nil => exact absurd rfl (wide [] mem)
  | cons first rest => rfl

theorem columnAt_recodeLabel_succ (j : ℕ) : columnAt (recodeLabel f rows) (j + 1) = columnAt rows (j + 1) := by
  rw [columnAt, recodeLabel, columnAt, List.map_map]
  refine List.map_congr_left fun row _ => ?_
  cases row <;> rfl

theorem rawFeatures_recodeLabel (w : ℕ) : rawFeatures builder w (recodeLabel f rows) = rawFeatures builder w rows := by
  simp only [rawFeatures, rawBins, columnAt_recodeLabel_succ]

/-- The borders of a binarizer are at most as many as were asked for. -/
theorem EBinarizer.Builds.length_le {binarizer : EBinarizer} {penalty : Grid.EPenaltyType → ℚ → ℝ}
    (builds : binarizer.Builds penalty x builder) {values : List ℚ} (some : values ≠ []) :
    (builder values).length ≤ x := by
  cases binarizer with
  | medianPlusUniform =>
    have iterates := builds.iterates some fun _ => rfl
    exact iterates.length_eq.trans_le card_medianPlusUniformBestSplit_le
  | median =>
    have iterates := builds.iterates some fun _ => rfl
    exact iterates.length_eq.trans_le (card_generateMedianBorders_le _ _)
  | minEntropy | maxSumLog =>
    obtain ⟨_, ran, useful⟩ := useful_splitWithGuaranteedOptimum (penalty _) _ some x
    have iterates := builds.iterates some fun _ => ran
    exact iterates.length_eq.trans_le useful.card_le
  | medianInBin => exact absurd rfl builds.1

/-- The label of the re-encoded rows groups them as before. -/
theorem samePartition_recodeLabel {binarizer : EBinarizer} {penalty : Grid.EPenaltyType → ℚ → ℝ}
    (builds : binarizer.Builds penalty x builder) (unseen : binarizer.Unseen f) (wide : ∀ row ∈ rows, row ≠ []) :
    SamePartition rows.length (rawLabel builder (recodeLabel f rows)).bins (rawLabel builder rows).bins := by
  have length : (columnAt rows 0).length = rows.length := List.length_map _
  intro i hi j hj
  change SameBins (binarizeFeature (columnAt (recodeLabel f rows) 0) builder) i j ↔
    SameBins (binarizeFeature (columnAt rows 0) builder) i j
  rw [columnAt_recodeLabel_zero wide]
  exact sameBins_recoded builds unseen (length ▸ hi) (length ▸ hj)

/-- **The encoding of the label does not matter** to a run on a raw pool, as far as the binarizer does not see it: the
same features are printed, and the run exits with 0 for the one encoding if it does for the other. -/
theorem runMain_recodedLabel {converter : TConverter} {options : TOptions} {streams streams' after after' : TStreams}
    {poolFile : String} {text text' : List Char} {binarizer : EBinarizer} {penalty : Grid.EPenaltyType → ℚ → ℝ}
    (raw : options.rawPoolFilename = some poolFile)
    (only : options.binaryPoolFilename = none ∧ options.featureBinMapFilename = none)
    (selects : options.binaryPoolOutputFile = none ∨ options.featureBinMapOutputFile = none)
    (opened : openInput streams poolFile = .ok (text, after))
    (opened' : openInput streams' poolFile = .ok (text', after')) (parses : Readable converter (readLines text))
    (parses' : Readable converter (readLines text'))
    (recoded : rowsOf converter text' = recodeLabel f (rowsOf converter text))
    (builds : binarizer.Builds penalty options.borderCount options.borderBuilder) (unseen : binarizer.Unseen f)
    (fits : options.borderCount + 2 * options.evalStepCount ≤ 62) :
    (runMain ℝ converter options streams').cout = (runMain ℝ converter options streams).cout ∧
      ((runMain ℝ converter options streams').status = .ok 0 ↔
        (runMain ℝ converter options streams).status = .ok 0) := by
  have width (w : ℕ) : (∀ row ∈ rowsOf converter text', row.length = w) ↔
      ∀ row ∈ rowsOf converter text, row.length = w := by
    simp [recoded, recodeLabel]
  have table (w : ℕ) : IsTable converter w (readLines text') ↔ IsTable converter w (readLines text) := by
    have width := width w
    simp only [rowsOf, List.forall_mem_map] at width
    exact ⟨fun table => ⟨parses.parses, width.mp table.width⟩, fun table => ⟨parses'.parses, width.mpr table.width⟩⟩
  have empty : readLines text' = [] ↔ readLines text = [] := by
    have size := congrArg List.length recoded
    simp only [rowsOf, recodeLabel, List.length_map] at size
    rw [← List.length_eq_zero_iff, ← List.length_eq_zero_iff, size]
  refine runMain_alike raw only opened opened' table empty fun w some isTable => ?_
  have wide : ∀ row ∈ rowsOf converter text, row ≠ [] := by
    intro row mem
    obtain ⟨line, -, rfl⟩ := List.mem_map.mp mem
    exact numbersOf_ne_nil
  have pool := pool_raw options.borderBuilder w some
  have some' : recodeLabel f (rowsOf converter text) ≠ [] := by simpa [recodeLabel] using some
  have pool' := pool_raw options.borderBuilder w some'
  rw [rawFeatures_recodeLabel, recodeLabel, List.length_map, ← recodeLabel] at pool'
  have few {rows : List (List ℚ)} (some : rows ≠ []) :
      (rawLabel options.borderBuilder rows).bins.length ≤ options.borderCount :=
    length_binarizeFeature_le options.borderCount_pos (builds.length_le (by simpa [columnAt] using some))
  have labelBins := few some
  have labelBins' := few some'
  rw [recoded, rawFeatures_recodeLabel]
  exact finish_congr options options selects selects rfl rfl pool pool' (by omega) (by omega)
    (problem_label_congr (samePartition_recodeLabel builds unseen wide)) rfl streams.files streams'.files

/-- The same rows with the label 0, 1, 2 as 3, 7, 11. -/
def recodedRows : List (List Char) :=
  [['3', '\t', '1', '\t', '0'], ['1', '1', '\t', '0', '\t', '1'], ['7', '\t', '1', '\t', '1'],
    ['3', '\t', '0', '\t', '1']]

theorem runMain_recodedLabel_fourLines :
    (runMain ℝ decimalConverter ((TOptions.defaults medianPlusUniformBestSplit).onRawPool "-")
        ⟨fun _ => none, unlines recodedRows⟩).cout =
      (runMain ℝ decimalConverter ((TOptions.defaults medianPlusUniformBestSplit).onRawPool "-")
        ⟨fun _ => none, fourLines⟩).cout := by
  have recoded : rowsOf decimalConverter (unlines recodedRows) =
      recodeLabel (fun y => 4 * y + 3) (rowsOf decimalConverter fourLines) := by decide +kernel
  have builds : EBinarizer.medianPlusUniform.Builds (fun _ w => w) 10
      ((TOptions.defaults medianPlusUniformBestSplit).onRawPool "-").borderBuilder :=
    ⟨by decide, fun values some => ⟨fun _ => wholeBin _ (sortValues_ne_nil some), _, rfl,
      iterates_borderBuilder medianPlusUniformBestSplit values⟩⟩
  exact (@runMain_recodedLabel _ decimalConverter ((TOptions.defaults medianPlusUniformBestSplit).onRawPool "-")
    ⟨fun _ => none, fourLines⟩ ⟨fun _ => none, unlines recodedRows⟩ _ _ "-" fourLines (unlines recodedRows) _ _
    rfl ⟨rfl, rfl⟩ (.inl rfl) rfl rfl ⟨by decide, by decide⟩ ⟨by decide, by decide⟩ recoded builds
    ⟨4, 3, by decide, fun _ => rfl⟩ (by decide)).1

end Recoded

end Cmicot
