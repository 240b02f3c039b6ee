import Cmicot.Grid.Recoding
import Cmicot.Main

/-!
One command or two (`feature_selection.cpp`).

A raw pool can be binarized by one command and searched by another. The second command gets the bins
of all features back, but only one number for each row of the label, and binarizes these numbers like
any other column. Where that groups the rows as before, it prints what a run on the raw pool prints.

* `twoCommands_exit`: the runs that exit with 0, and what they print.
* `twoCommands_median`: quantiles group the rows of the label as before.
* `twoCommands_medianPlusUniform`: when the default binarizer does.
-/

namespace Cmicot

open Loop Text Search
open Gaps

/-! ### Definitions -/

section Commands

variable (R : Type) [Field R] [LinearOrder R] [Log2 R]

/-- One command. -/
def oneCommand (converter : TConverter) (options : TOptions) (rawFile : String) (streams : TStreams) : Outcome :=
  runMain R converter (options.onRawPool rawFile) streams

/-- One command after the other; the second one has a standard input of its own. -/
def twoCommands (converter : TConverter) (options : TOptions) (rawFile poolFile mapFile : String)
    (streams : TStreams) (cin : List Char) : Outcome × Outcome :=
  let first := runMain R converter (options.justBinarize rawFile poolFile mapFile) streams
  (first, runMain R converter (options.onBinaryPool poolFile mapFile) ⟨first.files, cin⟩)

/-- Two commands succeed where one does, and the second one then prints the same. -/
structure SameResult (one : Outcome) (two : Outcome × Outcome) : Prop where
  exits : one.status = .ok 0 ↔ two.1.status = .ok 0 ∧ two.2.status = .ok 0
  prints : one.status = .ok 0 → two.2.cout = one.cout

end Commands

/-! ### The files between the commands -/

section Files

variable {converter : TConverter} {builder : TBorderBuilder} {rows : List (List ℚ)} {w : ℕ}
variable {files : String → Option (List Char)} {poolFile mapFile : String} {poolText mapText cin : List Char}

/-- The first column as it is written, one number for each row. -/
def labelNumbers (builder : TBorderBuilder) (rows : List (List ℚ)) : List ℚ :=
  (columnAt rows 0).map fun y => (mask (builder (columnAt rows 0)) y : ℚ)

/-- The label of the second command. -/
def labelAgain (builder : TBorderBuilder) (rows : List (List ℚ)) : TBinFeatureSet :=
  .ofBins (binarizeFeature (labelNumbers builder rows) builder)

/-- The files after the first command. -/
def filesBetween (files : String → Option (List Char)) (poolFile mapFile : String) (poolText mapText : List Char) :
    String → Option (List Char) :=
  writeFile (writeFile files poolFile poolText) mapFile mapText

theorem openInput_poolFile (differ : poolFile ≠ mapFile) (named : poolFile ≠ "-") :
    openInput ⟨filesBetween files poolFile mapFile poolText mapText, cin⟩ poolFile =
      .ok (poolText, ⟨filesBetween files poolFile mapFile poolText mapText, cin⟩) := by
  simp [openInput, named, filesBetween, writeFile, differ]

theorem openInput_mapFile (named : mapFile ≠ "-") :
    openInput ⟨filesBetween files poolFile mapFile poolText mapText, cin⟩ mapFile =
      .ok (mapText, ⟨filesBetween files poolFile mapFile poolText mapText, cin⟩) := by
  simp [openInput, named, filesBetween, writeFile]

/-- The bins of a raw pool are at most as many as borders were asked for. -/
theorem length_rawBins_le {x : ℕ} (pos : 0 < x) (few : ∀ values, (builder values).length ≤ x) :
    (rawBins builder w rows).flatten.length ≤ w * x := by
  rw [List.length_flatten]
  have each : ∀ size ∈ (rawBins builder w rows).map List.length, size ≤ x := by
    intro size mem
    obtain ⟨bins, listed, rfl⟩ := List.mem_map.mp mem
    obtain ⟨j, -, rfl⟩ := List.mem_map.mp listed
    exact length_binarizeFeature_le pos (few _)
  have total := List.sum_le_card_nsmul _ x each
  rwa [List.length_map, rawBins, List.length_map, List.length_range, smul_eq_mul, ← rawBins] at total

/-- **The pool between the commands.** -/
theorem readPool_raw (inverse : converter.Inverse) (some : rows ≠ [])
    (few : (builder (columnAt rows 0)).length ≤ 31) :
    ∃ text, outputPool (rawLabel builder rows) (rawFeatures builder w rows) = .ok text ∧
      readPool converter linesInBatch text =
        .ok (labelNumbers builder rows :: (rawBins builder w rows).flatten.map numbers) := by
  have pool := pool_raw builder w some
  obtain ⟨values, united, size, small⟩ := uniteLabelBins_small pool.labelled pool.labelLength
    (length_binarizeFeature_le (by decide) few)
  obtain ⟨_, united', masks⟩ := uniteLabelBins_binarizeFeature few
  cases united.symm.trans united'
  have batch : 0 < linesInBatch := by simp [linesInBatch]
  obtain ⟨text, written, read⟩ := readPool_written inverse batch pool.rows united size
    (fun value mem => lt_trans (small value mem) (by simp)) pool.binLength
  refine ⟨text, written, read.trans ?_⟩
  rw [masks, rawFeatures, bins_addFeatures]
  rfl

/-- **The map between the commands.** -/
theorem readMap_written (inverse : converter.Inverse) (features : List (List TBin))
    (featureCount : features.length < 2 ^ 31) (binCount : features.flatten.length < 2 ^ 31) :
    readBinToFeatureMapText intMaxSize converter (unlines ((ownersOf features).zipIdx.map printEntry)) =
      .ok ((ownersOf features).map fun f : ℕ => (f : ℤ)) := by
  rw [← length_ownersOf] at binCount
  have small : ∀ f ∈ ownersOf features, f < 2 ^ 31 := fun f mem => lt_trans (lt_of_mem_ownersOf mem) featureCount
  rw [readBinToFeatureMapText_eq inverse (fun f mem => lt_trans (small f mem) (by simp))
    (le_of_lt (lt_trans binCount (by simp)))]
  exact readBinToFeatureMap_mapLines small binCount

/-- The bins find their features again if there is a feature. -/
theorem binarizeWithMap_rawBins (any : 0 < w) (count : w < 2 ^ 31) :
    binarizeWithMap ((rawBins builder w rows).flatten.map numbers)
      ((ownersOf (rawBins builder w rows)).map fun f : ℕ => (f : ℤ)) = .ok (rawFeatures builder w rows) := by
  obtain ⟨v, rfl⟩ : ∃ v, w = v + 1 := ⟨w - 1, by omega⟩
  have ends : (rawBins builder (v + 1) rows).getLast? = some (binarizeFeature (columnAt rows (v + 1)) builder) := by
    rw [rawBins, List.range_succ, List.map_append, List.map_singleton, List.getLast?_concat]
  exact binarizeWithMap_ownersOf ends (binarizeFeature_ne_nil _) (by simpa [rawBins] using count)

/-- **What the second command reads.** -/
theorem readBinarizedPoolFiles_written (inverse : converter.Inverse) (some : rows ≠ [])
    (few : (builder (columnAt rows 0)).length ≤ 31) (featureCount : w < 2 ^ 31)
    (binCount : (rawBins builder w rows).flatten.length < 2 ^ 31) (differ : poolFile ≠ mapFile)
    (poolNamed : poolFile ≠ "-") (mapNamed : mapFile ≠ "-") :
    ∃ poolText mapText, outputPool (rawLabel builder rows) (rawFeatures builder w rows) = .ok poolText ∧
      outputBinFeatureMap (rawFeatures builder w rows) = .ok mapText ∧
      ∀ files cin, readBinarizedPoolFiles converter ⟨filesBetween files poolFile mapFile poolText mapText, cin⟩
          poolFile mapFile builder =
        if 0 < w then .ok (labelAgain builder rows, rawFeatures builder w rows)
        else .error (.failed .emptyContainer) := by
  obtain ⟨poolText, written, read⟩ := readPool_raw (w := w) inverse some few
  have mapRead := readMap_written inverse (rawBins builder w rows) (by simpa [rawBins] using featureCount) binCount
  refine ⟨poolText, _, written, outputBinFeatureMap_ok _, fun files cin => ?_⟩
  simp only [readBinarizedPoolFiles, openInput_poolFile differ poolNamed, ok_bind, read, orStop, Except.mapError,
    openInput_mapFile mapNamed, mapRead]
  rcases Nat.eq_zero_or_pos w with rfl | any
  · rfl
  · rw [binarizeWithMap_rawBins any featureCount, if_pos any]
    rfl

end Files

/-! ### One command or two -/

section Exit

variable {converter : TConverter} {options : TOptions} {rawFile poolFile mapFile : String}
variable {streams after : TStreams} {text cin : List Char}

/-- A command that does not read its raw pool. -/
theorem runMain_unread {why : Stop} (raw : options.rawPoolFilename = some rawFile)
    (only : options.binaryPoolFilename = none ∧ options.featureBinMapFilename = none)
    (unread : readRawPool converter streams rawFile options.borderBuilder = .error why) :
    runMain ℝ converter options streams = ⟨[], [], streams.files, .error why⟩ := by
  rw [runMain_raw raw only, unread]

/-- One command, after the raw pool was read. -/
theorem oneCommand_read {label features : TBinFeatureSet}
    (read : readRawPool converter streams rawFile options.borderBuilder = .ok (label, features)) :
    oneCommand ℝ converter options rawFile streams =
      finish ℝ (options.onRawPool rawFile) streams.files label features := by
  have binarized : readRawPool converter streams rawFile (options.onRawPool rawFile).borderBuilder =
      .ok (label, features) := read
  rw [oneCommand, runMain_raw rfl ⟨rfl, rfl⟩, binarized]

theorem oneCommand_status {rows : List (List ℚ)} {w : ℕ} (some : rows ≠ [])
    (read : readRawPool converter streams rawFile options.borderBuilder =
      .ok (rawLabel options.borderBuilder rows, rawFeatures options.borderBuilder w rows))
    (few : ∀ values, (options.borderBuilder values).length ≤ options.borderCount)
    (fits : options.borderCount + 2 * options.evalStepCount ≤ 62) :
    (oneCommand ℝ converter options rawFile streams).status = .ok 0 ↔ 0 < w := by
  rw [oneCommand_read read]
  exact (@finish_rawPool (options.onRawPool rawFile) w _ some (.inl rfl) few fits streams.files).1

/-- The first command, after the raw pool was read. -/
theorem runMain_justBinarize (poolFile mapFile : String) {label features : TBinFeatureSet}
    {poolText mapText : List Char}
    (read : readRawPool converter streams rawFile options.borderBuilder = .ok (label, features))
    (written : outputPool label features = .ok poolText) (mapped : outputBinFeatureMap features = .ok mapText) :
    runMain ℝ converter (options.justBinarize rawFile poolFile mapFile) streams =
      ⟨[], [], filesBetween streams.files poolFile mapFile poolText mapText, .ok 0⟩ := by
  have binarized : readRawPool converter streams rawFile
      (options.justBinarize rawFile poolFile mapFile).borderBuilder = .ok (label, features) := read
  have raw : (options.justBinarize rawFile poolFile mapFile).rawPoolFilename = some rawFile := rfl
  rw [runMain_raw raw ⟨rfl, rfl⟩, binarized]
  simp only [finish, TOptions.justBinarize, written, mapped, filesBetween]

/-- The second command, with what it reads. -/
theorem runMain_onBinaryPool :
    runMain ℝ converter (options.onBinaryPool poolFile mapFile) streams =
      match readBinarizedPoolFiles converter streams poolFile mapFile options.borderBuilder with
      | .ok (label, features) => finish ℝ (options.onBinaryPool poolFile mapFile) streams.files label features
      | .error why => ⟨[], [], streams.files, .error why⟩ := rfl

/-- The search of the second command, if its label groups the rows as before. -/
theorem finish_again (rawFile poolFile mapFile : String) {rows : List (List ℚ)} {w : ℕ} (some : rows ≠ [])
    (few : ∀ values, (options.borderBuilder values).length ≤ options.borderCount)
    (fits : options.borderCount + 2 * options.evalStepCount ≤ 62)
    (survives : SamePartition rows.length (labelAgain options.borderBuilder rows).bins
      (rawLabel options.borderBuilder rows).bins) (files files' : String → Option (List Char)) :
    (finish ℝ (options.onBinaryPool poolFile mapFile) files' (labelAgain options.borderBuilder rows)
        (rawFeatures options.borderBuilder w rows)).cout =
      (finish ℝ (options.onRawPool rawFile) files (rawLabel options.borderBuilder rows)
        (rawFeatures options.borderBuilder w rows)).cout ∧
      (finish ℝ (options.onBinaryPool poolFile mapFile) files' (labelAgain options.borderBuilder rows)
        (rawFeatures options.borderBuilder w rows)).status =
      (finish ℝ (options.onRawPool rawFile) files (rawLabel options.borderBuilder rows)
        (rawFeatures options.borderBuilder w rows)).status := by
  have pool := pool_raw options.borderBuilder w some
  have again : Pool (labelAgain options.borderBuilder rows) (rawFeatures options.borderBuilder w rows) rows.length :=
    ⟨pool.rows, binarizeFeature_ne_nil _, fun bin mem => by
      rw [length_of_mem_binarizeFeature mem, labelNumbers, List.length_map, columnAt, List.length_map],
      pool.binLength⟩
  have labelBins := length_rawLabel rows options.borderCount_pos few
  have againBins : (labelAgain options.borderBuilder rows).bins.length ≤ options.borderCount :=
    length_binarizeFeature_le options.borderCount_pos (few _)
  have fewer : (rawLabel options.borderBuilder rows).bins.length + 2 * options.evalStepCount ≤ 62 := by omega
  have fewerAgain : (labelAgain options.borderBuilder rows).bins.length + 2 * options.evalStepCount ≤ 62 := by omega
  exact finish_congr (options.onRawPool rawFile) (options.onBinaryPool poolFile mapFile) (.inl rfl) (.inl rfl) rfl rfl
    pool again fewer fewerAgain (problem_label_congr survives) rfl files files'

/-- **Where the raw pool is read** both ways succeed iff there is a feature, and then they print the same. -/
theorem sameResult_of_table (inverse : converter.Inverse) {rows : List (List ℚ)} {w : ℕ} (some : rows ≠ [])
    (read : readRawPool converter streams rawFile options.borderBuilder =
      .ok (rawLabel options.borderBuilder rows, rawFeatures options.borderBuilder w rows))
    (differ : poolFile ≠ mapFile) (poolNamed : poolFile ≠ "-") (mapNamed : mapFile ≠ "-")
    (few : ∀ values, (options.borderBuilder values).length ≤ options.borderCount) (small : options.borderCount ≤ 24)
    (fits : options.borderCount + 2 * options.evalStepCount ≤ 62) (narrow : w * options.borderCount < 2 ^ 31)
    (survives : SamePartition rows.length (labelAgain options.borderBuilder rows).bins
      (rawLabel options.borderBuilder rows).bins) :
    SameResult (oneCommand ℝ converter options rawFile streams)
      (twoCommands ℝ converter options rawFile poolFile mapFile streams cin) := by
  have pos := options.borderCount_pos
  have bins : (rawBins options.borderBuilder w rows).flatten.length ≤ w * options.borderCount :=
    length_rawBins_le pos few
  obtain ⟨poolText, mapText, written, mapped, again⟩ := readBinarizedPoolFiles_written (w := w) inverse some
    ((few _).trans (by omega)) (lt_of_le_of_lt (Nat.le_mul_of_pos_right w pos) narrow) (by omega) differ poolNamed
    mapNamed
  have first := runMain_justBinarize poolFile mapFile read written mapped
  have one := oneCommand_read read
  have direct := oneCommand_status some read few fits
  rw [twoCommands, first]
  rcases Nat.eq_zero_or_pos w with rfl | any
  · -- nothing can be selected, and the map between the commands is empty
    have second : runMain ℝ converter (options.onBinaryPool poolFile mapFile)
        ⟨filesBetween streams.files poolFile mapFile poolText mapText, cin⟩ =
          ⟨[], [], filesBetween streams.files poolFile mapFile poolText mapText, .error (.failed .emptyContainer)⟩ := by
      rw [runMain_onBinaryPool, again, if_neg (lt_irrefl 0)]
    have fails := direct.not.mpr (lt_irrefl 0)
    exact ⟨iff_of_false fails (by simp [second]), fun exits => absurd exits fails⟩
  · have second : runMain ℝ converter (options.onBinaryPool poolFile mapFile)
        ⟨filesBetween streams.files poolFile mapFile poolText mapText, cin⟩ =
          finish ℝ (options.onBinaryPool poolFile mapFile)
            (filesBetween streams.files poolFile mapFile poolText mapText)
            (labelAgain options.borderBuilder rows) (rawFeatures options.borderBuilder w rows) := by
      rw [runMain_onBinaryPool, again, if_pos any]
    obtain ⟨cout, status⟩ := finish_again rawFile poolFile mapFile (w := w) some few fits survives streams.files
      (filesBetween streams.files poolFile mapFile poolText mapText)
    rw [← second, ← one] at cout status
    exact ⟨by simp only [status, true_and], fun _ => cout⟩

/-- **The runs that exit with 0, and what they print.** If the second command groups the rows of the label as the
one command does, both ways succeed on the same texts, and the second command prints what the one command
prints. The `float` numbers of the label are exact. -/
theorem twoCommands_exit (inverse : converter.Inverse) (opened : openInput streams rawFile = .ok (text, after))
    (differ : poolFile ≠ mapFile) (poolNamed : poolFile ≠ "-") (mapNamed : mapFile ≠ "-")
    (few : ∀ values, (options.borderBuilder values).length ≤ options.borderCount) (small : options.borderCount ≤ 24)
    (fits : options.borderCount + 2 * options.evalStepCount ≤ 62)
    (narrow : ∀ line ∈ readLines text, (line.splitOn '\t').length * options.borderCount < 2 ^ 31)
    (survives : SamePartition (rowsOf converter text).length
      (labelAgain options.borderBuilder (rowsOf converter text)).bins
      (rawLabel options.borderBuilder (rowsOf converter text)).bins) :
    SameResult (oneCommand ℝ converter options rawFile streams)
      (twoCommands ℝ converter options rawFile poolFile mapFile streams cin) := by
  cases read : readRawPool converter streams rawFile options.borderBuilder with
  | error why =>
    have one : oneCommand ℝ converter options rawFile streams = _ :=
      @runMain_unread converter (options.onRawPool rawFile) rawFile _ _ rfl ⟨rfl, rfl⟩ read
    have first : runMain ℝ converter (options.justBinarize rawFile poolFile mapFile) streams = _ :=
      @runMain_unread converter (options.justBinarize rawFile poolFile mapFile) rawFile _ _ rfl ⟨rfl, rfl⟩ read
    rw [one, twoCommands, first]
    exact ⟨by simp, by simp⟩
  | ok pools =>
    obtain ⟨label, features⟩ := pools
    obtain ⟨w, table, some, rfl, rfl⟩ := (readRawPool_eq_ok_iff _ opened).mp read
    obtain ⟨line, mem⟩ := List.exists_mem_of_ne_nil _ some
    have width := narrow line mem
    rw [← length_numbersOf converter, table.width line mem, Nat.succ_mul] at width
    exact sameResult_of_table inverse (by simpa using some) read differ poolNamed mapNamed few small fits (by omega)
      survives

end Exit

/-! ### Labels that survive -/

section Survives

variable {builder : TBorderBuilder} {rows : List (List ℚ)} {x : ℕ}

/-- The rows are grouped as before if the borders of the numbers lie in the gaps that had a border. -/
theorem labelAgain_survives {hit hit' : ℚ → ℚ → Prop}
    (middles : Middles (builder (columnAt rows 0)) (columnAt rows 0) hit)
    (middles' : Middles (builder (labelNumbers builder rows)) (labelNumbers builder rows) hit')
    (kept : ∀ a c, Adjacent (columnAt rows 0) a c → hit a c →
      hit' (mask (builder (columnAt rows 0)) a) (mask (builder (columnAt rows 0)) c)) :
    SamePartition rows.length (labelAgain builder rows).bins (rawLabel builder rows).bins := by
  have length : (columnAt rows 0).length = rows.length := List.length_map _
  have opens (a c : ℚ) (adjacent : Adjacent (columnAt rows 0) a c) := mask_lt_mask_iff middles adjacent
  intro i hi j hj
  refine sameBins_map (mask_monotone (builder (columnAt rows 0))) middles middles' (fun a c adjacent => ?_)
    (length ▸ hi) (length ▸ hj)
  rw [opens a c adjacent, iff_self_and]
  exact kept a c adjacent

/-- The quantiles group the rows of the label as before. -/
theorem labelAgain_median (rows : List (List ℚ))
    (iterates : ∀ values, Iterates (builder values) (medianBestSplit values x)) :
    SamePartition rows.length (labelAgain builder rows).bins (rawLabel builder rows).bins := by
  have middles := middles_median (iterates (columnAt rows 0))
  refine labelAgain_survives middles (middles_median (iterates _)) fun a c adjacent hit => ?_
  have levels := fun a c adjacent => mask_lt_mask_iff middles (a := a) (c := c) adjacent
  exact ((quantileHit_levels (mask_monotone _) levels adjacent).mp hit).2

/-- The default borders do, if a point of the grid over the numbers replaces one of the grid over the values. -/
theorem labelAgain_medianPlusUniform
    (iterates : ∀ values, Iterates (builder values) (medianPlusUniformBestSplit values x))
    (hits : ∀ a c, Adjacent (columnAt rows 0) a c → (a + c) / 2 ∈ builder (columnAt rows 0) →
      QuantileHit (columnAt rows 0) (x - x / 2) a c ∨ MaskHit (builder (columnAt rows 0)) (x / 2) a c) :
    SamePartition rows.length (labelAgain builder rows).bins (rawLabel builder rows).bins := by
  have middles := middles_medianPlusUniform (iterates (columnAt rows 0))
  refine labelAgain_survives middles (middles_medianPlusUniform (iterates _)) fun a c adjacent hit => ?_
  have lt := (mask_lt_mask_iff middles adjacent).mpr hit
  refine (hits a c adjacent ((middles.mem_iff adjacent).mpr hit)).imp (fun quantile => ?_) fun grid => ?_
  · refine (quantileHit_map (mask_monotone _) (fun a c gap quantile => ?_) adjacent lt).mpr quantile
    exact (mask_lt_mask_iff middles gap).mpr (.inl quantile)
  · exact (gridHit_map (iterates _) (List.ne_nil_of_mem adjacent.low) _ _ _).mpr grid

end Survives

/-! ### The binarizers -/

section Binarizers

variable {converter : TConverter} {options : TOptions} {rawFile poolFile mapFile : String}
variable {streams after : TStreams} {text cin : List Char}

/-- **With quantiles two commands do what one does**: they succeed on the same texts, and the second one prints the
same features. -/
theorem twoCommands_median (inverse : converter.Inverse) (opened : openInput streams rawFile = .ok (text, after))
    (differ : poolFile ≠ mapFile) (poolNamed : poolFile ≠ "-") (mapNamed : mapFile ≠ "-")
    (iterates : ∀ values, Iterates (options.borderBuilder values) (medianBestSplit values options.borderCount))
    (small : options.borderCount ≤ 24) (fits : options.borderCount + 2 * options.evalStepCount ≤ 62)
    (narrow : ∀ line ∈ readLines text, (line.splitOn '\t').length * options.borderCount < 2 ^ 31) :
    SameResult (oneCommand ℝ converter options rawFile streams)
      (twoCommands ℝ converter options rawFile poolFile mapFile streams cin) := by
  have few (values : List ℚ) : (options.borderBuilder values).length ≤ options.borderCount :=
    (iterates values).length_eq.trans_le (card_generateMedianBorders_le _ _)
  have survives := labelAgain_median (rowsOf converter text) iterates
  exact twoCommands_exit inverse opened differ poolNamed mapNamed few small fits narrow survives

/-- A run on four rows exits with 0. -/
theorem oneCommand_fourLines {bestSplit : List ℚ → ℕ → Finset ℚ} (card : ∀ values, (bestSplit values 10).card ≤ 10) :
    (oneCommand ℝ decimalConverter (TOptions.defaults bestSplit) "-" ⟨fun _ => none, fourLines⟩).status = .ok 0 := by
  have table : IsTable decimalConverter (2 + 1) (readLines fourLines) := ⟨by decide, by decide⟩
  have opened : openInput ⟨fun _ => none, fourLines⟩ "-" = .ok (fourLines, ⟨fun _ => none, []⟩) := rfl
  have read : readRawPool decimalConverter ⟨fun _ => none, fourLines⟩ "-" (TOptions.defaults bestSplit).borderBuilder =
      .ok (rawLabel _ _, rawFeatures _ 2 _) :=
    (readRawPool_eq_ok_iff _ opened).mpr ⟨2, table, by decide, rfl, rfl⟩
  have few (values : List ℚ) : ((TOptions.defaults bestSplit).borderBuilder values).length ≤ 10 :=
    (iterates_borderBuilder bestSplit values).length_eq.trans_le (card values)
  exact (oneCommand_status (by decide) read few (by simp [TOptions.defaults])).mpr two_pos

theorem narrow_fourLines : ∀ line ∈ readLines fourLines, (line.splitOn '\t').length * 10 < 2 ^ 31 := by
  have width : ∀ line ∈ readLines fourLines, (line.splitOn '\t').length = 3 := by decide
  intro line mem
  rw [width line mem]
  simp

/-- Four rows with two features. -/
theorem twoCommands_median_fourLines :
    (twoCommands ℝ decimalConverter (TOptions.defaults medianBestSplit) "-" "pool" "map" ⟨fun _ => none, fourLines⟩
        []).2.status = .ok 0 ∧
      (twoCommands ℝ decimalConverter (TOptions.defaults medianBestSplit) "-" "pool" "map" ⟨fun _ => none, fourLines⟩
          []).2.cout =
        (oneCommand ℝ decimalConverter (TOptions.defaults medianBestSplit) "-" ⟨fun _ => none, fourLines⟩).cout := by
  have same : SameResult (oneCommand ℝ decimalConverter (TOptions.defaults medianBestSplit) "-"
      ⟨fun _ => none, fourLines⟩) (twoCommands ℝ decimalConverter (TOptions.defaults medianBestSplit) "-" "pool" "map"
        ⟨fun _ => none, fourLines⟩ []) :=
    twoCommands_median decimalConverter_inverse rfl (by decide) (by decide) (by decide)
      (iterates_borderBuilder medianBestSplit) (by decide) (by decide) narrow_fourLines
  have card (values : List ℚ) : (medianBestSplit values 10).card ≤ 10 := card_generateMedianBorders_le _ _
  have exits := oneCommand_fourLines card
  exact ⟨(same.exits.mp exits).2, same.prints exits⟩

/-- **With the default binarizer** they do if every border of the label lies at a quantile, or between two of its
numbers that a point of the grid over the numbers keeps apart. -/
theorem twoCommands_medianPlusUniform (inverse : converter.Inverse)
    (opened : openInput streams rawFile = .ok (text, after)) (differ : poolFile ≠ mapFile) (poolNamed : poolFile ≠ "-")
    (mapNamed : mapFile ≠ "-")
    (iterates : ∀ values,
      Iterates (options.borderBuilder values) (medianPlusUniformBestSplit values options.borderCount))
    (hits : ∀ a c, Adjacent (columnAt (rowsOf converter text) 0) a c →
      (a + c) / 2 ∈ options.borderBuilder (columnAt (rowsOf converter text) 0) →
      QuantileHit (columnAt (rowsOf converter text) 0) (options.borderCount - options.borderCount / 2) a c ∨
        MaskHit (options.borderBuilder (columnAt (rowsOf converter text) 0)) (options.borderCount / 2) a c)
    (small : options.borderCount ≤ 24) (fits : options.borderCount + 2 * options.evalStepCount ≤ 62)
    (narrow : ∀ line ∈ readLines text, (line.splitOn '\t').length * options.borderCount < 2 ^ 31) :
    SameResult (oneCommand ℝ converter options rawFile streams)
      (twoCommands ℝ converter options rawFile poolFile mapFile streams cin) := by
  have few (values : List ℚ) : (options.borderBuilder values).length ≤ options.borderCount :=
    (iterates values).length_eq.trans_le card_medianPlusUniformBestSplit_le
  have survives := labelAgain_medianPlusUniform iterates hits
  exact twoCommands_exit inverse opened differ poolNamed mapNamed few small fits narrow survives

/-- A label of three values; both borders lie at quantiles. -/
theorem twoCommands_medianPlusUniform_fourLines :
    (twoCommands ℝ decimalConverter (TOptions.defaults medianPlusUniformBestSplit) "-" "pool" "map"
        ⟨fun _ => none, fourLines⟩ []).2.status = .ok 0 ∧
      (twoCommands ℝ decimalConverter (TOptions.defaults medianPlusUniformBestSplit) "-" "pool" "map"
          ⟨fun _ => none, fourLines⟩ []).2.cout =
        (oneCommand ℝ decimalConverter (TOptions.defaults medianPlusUniformBestSplit) "-"
          ⟨fun _ => none, fourLines⟩).cout := by
  have hits : ∀ a c, Adjacent ([0, 2, 1, 0] : List ℚ) a c → QuantileHit [0, 2, 1, 0] 5 a c := by
    intro a c adjacent
    have lt := adjacent.lt
    have between := adjacent.between 1 (by simp)
    have three {v : ℚ} (mem : v ∈ ([0, 2, 1, 0] : List ℚ)) : v = 0 ∨ v = 1 ∨ v = 2 := by
      simp at mem
      tauto
    rcases three adjacent.low with rfl | rfl | rfl <;> rcases three adjacent.high with rfl | rfl | rfl
    · exact absurd lt (by decide)
    · exact ⟨2, by decide, by decide, by decide⟩
    · exact absurd between (by decide)
    · exact absurd lt (by decide)
    · exact absurd lt (by decide)
    · exact ⟨4, by decide, by decide, by decide⟩
    all_goals exact absurd lt (by decide)
  have same : SameResult (oneCommand ℝ decimalConverter (TOptions.defaults medianPlusUniformBestSplit) "-"
      ⟨fun _ => none, fourLines⟩) (twoCommands ℝ decimalConverter (TOptions.defaults medianPlusUniformBestSplit) "-"
        "pool" "map" ⟨fun _ => none, fourLines⟩ []) :=
    twoCommands_medianPlusUniform decimalConverter_inverse rfl (by decide) (by decide) (by decide)
      (iterates_borderBuilder medianPlusUniformBestSplit) (fun a c adjacent _ => .inl (hits a c adjacent)) (by decide)
      (by decide) narrow_fourLines
  have card (values : List ℚ) : (medianPlusUniformBestSplit values 10).card ≤ 10 := card_medianPlusUniformBestSplit_le
  have exits := oneCommand_fourLines card
  exact ⟨(same.exits.mp exits).2, same.prints exits⟩

end Binarizers

end Cmicot
