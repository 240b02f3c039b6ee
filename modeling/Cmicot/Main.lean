import Cmicot.BinaryPool
import Cmicot.Grid.Borders
import Cmicot.Invariance
import Cmicot.PlainSelection
import Cmicot.RoundTrip

/-!
The program (`feature_selection.cpp`, `options.h`, `BinarizeRawPool` in `binarize.cpp`).

A run reads a raw pool, or a binary pool and a map, and then writes the binarized pool and the map or
prints the selected features one by one. What it is given are the options, the files and the standard
input; what it leaves are the printed text, the files and an exit code, or the exception that ended it.

* `runMain_rawPool`: on which raw pools a run exits with 0, and what it then has printed.
* `runMain_binaryPool`: what a run on a binary pool prints, and when it exits with 0.
-/

namespace Cmicot

open Loop Text Search TCachingBinScorer

/-! ### Definitions -/

/-- `NCmicot::TOptions` after the command line was parsed; the thread count changes no result. The
handlers of the options ensure that the counts are positive. -/
structure TOptions where
  evalStepCount : ℤ
  rawPoolFilename : Option String
  binaryPoolFilename : Option String
  featureBinMapFilename : Option String
  binaryPoolOutputFile : Option String
  featureBinMapOutputFile : Option String
  featureCountToSelect : Option ℤ
  /-- `Binarizer->BestSplit(values, borderCount)`, in the order in which its hash set is iterated. -/
  binarizer : List ℚ → ℕ → List ℚ
  borderCount : ℕ
  evalStepCount_pos : 0 < evalStepCount
  featureCount_pos : ∀ count ∈ featureCountToSelect, 0 < count
  borderCount_pos : 0 < borderCount

/-- `borderBuilder` of `main`. -/
def TOptions.borderBuilder (options : TOptions) : TBorderBuilder := fun values =>
  options.binarizer values options.borderCount

namespace TOptions

/-- The defaults of the command line, with the borders of a binarizer in order. -/
def defaults (bestSplit : List ℚ → ℕ → Finset ℚ) : TOptions where
  evalStepCount := 6
  rawPoolFilename := none
  binaryPoolFilename := none
  featureBinMapFilename := none
  binaryPoolOutputFile := none
  featureBinMapOutputFile := none
  featureCountToSelect := none
  binarizer values count := (bestSplit values count).sort (· ≤ ·)
  borderCount := 10
  evalStepCount_pos := by decide
  featureCount_pos := by simp
  borderCount_pos := by decide

variable (options : TOptions) (rawFile poolFile mapFile : String)

/-- `--pool rawFile`. -/
def onRawPool : TOptions :=
  { options with
    rawPoolFilename := some rawFile, binaryPoolFilename := none, featureBinMapFilename := none,
    binaryPoolOutputFile := none, featureBinMapOutputFile := none }

/-- `--pool rawFile --just-binarize poolFile,mapFile`. -/
def justBinarize : TOptions :=
  { options.onRawPool rawFile with
    binaryPoolOutputFile := some poolFile, featureBinMapOutputFile := some mapFile }

/-- `--binary-pool poolFile --map mapFile`. -/
def onBinaryPool : TOptions :=
  { options with
    rawPoolFilename := none, binaryPoolFilename := some poolFile, featureBinMapFilename := some mapFile,
    binaryPoolOutputFile := none, featureBinMapOutputFile := none }

end TOptions

/-- The files and what is left of the standard input. -/
structure TStreams where
  files : String → Option (List Char)
  cin : List Char

/-- Why a run ends without an exit code: a file that cannot be opened, or another failure. -/
inductive Stop where
  | notOpened (filename : String)
  | failed (why : Failure)
deriving DecidableEq

/-- A failure of the library ends the run. -/
def orStop {α : Type} (x : Except Failure α) : Except Stop α := x.mapError .failed

/-- `OpenInput(filename)`, and everything that can be read from there. -/
def openInput (streams : TStreams) (filename : String) : Except Stop (List Char × TStreams) :=
  if filename = "-" then .ok (streams.cin, { streams with cin := [] })
  else
    match streams.files filename with
    | some text => .ok (text, streams)
    | none => .error (.notOpened filename)

/-- The batch size of `ReadPool(in)`. -/
def linesInBatch : ℕ := 20000

/-- `BinarizeRawPool(inputData, borderBuilder, maxParallel)`: the results of `ParallelForEach` are in the
order of the columns. -/
def binarizeRawPool (inputData : List (List ℚ)) (borderBuilder : TBorderBuilder) :
    Except Failure (TBinFeatureSet × TBinFeatureSet) :=
  match inputData.map (binarizeFeature · borderBuilder) with
  | [] => .error .emptyContainer
  | label :: features => .ok (.ofBins label, addFeatures features)

/-- `ReadBinarizedPool(poolFile, mapFile, borderBuilder)`. -/
def readBinarizedPoolFiles (converter : TConverter) (streams : TStreams) (poolFile mapFile : String)
    (borderBuilder : TBorderBuilder) : Except Stop (TBinFeatureSet × TBinFeatureSet) := do
  let (poolText, streams) ← openInput streams poolFile
  let pool ← orStop (readPool converter linesInBatch poolText)
  let (mapText, _) ← openInput streams mapFile
  let binToFeatureMap ← orStop (readBinToFeatureMapText intMaxSize converter mapText)
  match pool with
  | [] => .error (.failed .emptyContainer)
  | front :: columns =>
    let features ← orStop (binarizeWithMap columns binToFeatureMap)
    return (.ofBins (binarizeFeature front borderBuilder), features)

/-- The branch of `main` that reads a raw pool. -/
def readRawPool (converter : TConverter) (streams : TStreams) (poolFile : String) (borderBuilder : TBorderBuilder) :
    Except Stop (TBinFeatureSet × TBinFeatureSet) := do
  let (text, _) ← openInput streams poolFile
  orStop (binarizeRawPool (← orStop (readPool converter linesInBatch text)) borderBuilder)

/-- What a run leaves behind. -/
structure Outcome where
  cout : List Char
  cerr : List Char
  files : String → Option (List Char)
  status : Except Stop ℕ

/-- What is printed for options that do not fit together. -/
def usage : List Char := "Provide either only --pool option or both --binary-pool and --map\n".toList

/-- `PrintFeature(featureId)` for every feature. -/
def printFeatures (selected : List ℕ) : List Char := unlines (selected.map printDecimal)

/-- `TOFStream` for a file that is written and closed. -/
def writeFile (files : String → Option (List Char)) (filename : String) (text : List Char) :
    String → Option (List Char) :=
  Function.update files filename (some text)

section Generic

variable (R : Type) [Field R] [LinearOrder R] [Log2 R]

/-- The end of `main`, after label and features were read. A failure that ends a run leaves the files as
they are; both output files are different ones. -/
def finish (options : TOptions) (files : String → Option (List Char)) (label features : TBinFeatureSet) : Outcome :=
  match options.binaryPoolOutputFile, options.featureBinMapOutputFile with
  | some poolFile, some mapFile =>
    match outputPool label features, outputBinFeatureMap features with
    | .ok poolText, .ok mapText => ⟨[], [], writeFile (writeFile files poolFile poolText) mapFile mapText, .ok 0⟩
    | .error why, _ | _, .error why => ⟨[], [], files, .error (.failed why)⟩
  | _, _ =>
    let selection := fastFeatureSelection R label features options.evalStepCount
      (options.featureCountToSelect.getD features.getFeatureCount)
    ⟨printFeatures selection.items, [], files,
      match selection.stopped with
      | some why => .error (.failed why)
      | none => .ok 0⟩

/-- `main`. -/
def runMain (converter : TConverter) (options : TOptions) (streams : TStreams) : Outcome :=
  let read (pools : Except Stop (TBinFeatureSet × TBinFeatureSet)) : Outcome :=
    match pools with
    | .ok (label, features) => finish R options streams.files label features
    | .error why => ⟨[], [], streams.files, .error why⟩
  match options.rawPoolFilename with
  | some poolFile =>
    if options.binaryPoolFilename.isSome ∨ options.featureBinMapFilename.isSome then ⟨[], usage, streams.files, .ok 1⟩
    else read (readRawPool converter streams poolFile options.borderBuilder)
  | none =>
    match options.binaryPoolFilename, options.featureBinMapFilename with
    | some poolFile, some mapFile =>
      read (readBinarizedPoolFiles converter streams poolFile mapFile options.borderBuilder)
    | _, _ => ⟨[], usage, streams.files, .ok 2⟩

end Generic

/-! ### Raw pools -/

theorem orStop_eq_ok {α : Type} {x : Except Failure α} {a : α} : orStop x = .ok a ↔ x = .ok a := by
  cases x <;> simp [orStop, Except.mapError]

section Raw

variable {converter : TConverter} {streams : TStreams} {poolFile : String} {text : List Char} {w n : ℕ}
variable {builder : TBorderBuilder} {rows : List (List ℚ)} {label features : TBinFeatureSet}

/-- The rows of a raw pool. -/
def rowsOf (converter : TConverter) (text : List Char) : List (List ℚ) := (readLines text).map (numbersOf converter)

/-- A column of a table. -/
def columnAt (rows : List (List ℚ)) (j : ℕ) : List ℚ := rows.map fun row => row.getD j 0

/-- The binarized first column. -/
def rawLabel (builder : TBorderBuilder) (rows : List (List ℚ)) : TBinFeatureSet :=
  .ofBins (binarizeFeature (columnAt rows 0) builder)

/-- The bins of the other columns. -/
def rawBins (builder : TBorderBuilder) (w : ℕ) (rows : List (List ℚ)) : List (List TBin) :=
  (List.range w).map fun j => binarizeFeature (columnAt rows (j + 1)) builder

def rawFeatures (builder : TBorderBuilder) (w : ℕ) (rows : List (List ℚ)) : TBinFeatureSet :=
  addFeatures (rawBins builder w rows)

theorem binarizeRawPool_eq (some : rows ≠ []) :
    binarizeRawPool (columnsOf 0 (w + 1) rows) builder = .ok (rawLabel builder rows, rawFeatures builder w rows) := by
  rw [binarizeRawPool, columnsOf_of_ne_nil some, List.range_succ_eq_map, List.map_cons, List.map_cons, List.map_map,
    List.map_map]
  rfl

@[simp] theorem getFeatureCount_rawFeatures : (rawFeatures builder w rows).getFeatureCount = w := by
  rw [rawFeatures, getFeatureCount_addFeatures, rawBins, List.length_map, List.length_range]

/-- Every column becomes a feature with bins. -/
theorem getFeature_rawFeatures {f : ℕ} (inside : f < w) :
    ∃ bins, (rawFeatures builder w rows).getFeature f = .ok bins ∧ bins ≠ [] := by
  have listed : (rawBins builder w rows)[f]? = some (binarizeFeature (columnAt rows (f + 1)) builder) := by
    rw [rawBins, List.getElem?_map, List.getElem?_range inside, Option.map_some]
  exact ⟨_, getFeature_addFeatures listed, binarizeFeature_ne_nil _⟩

/-- With a feature there is a bin. -/
theorem getBinCount_rawFeatures (any : 0 < w) : 0 < (rawFeatures builder w rows).getBinCount := by
  rw [rawFeatures, TBinFeatureSet.getBinCount, bins_addFeatures]
  have first : binarizeFeature (columnAt rows 1) builder ∈ rawBins builder w rows :=
    List.mem_map.mpr ⟨0, List.mem_range.mpr any, rfl⟩
  obtain ⟨bin, mem⟩ := List.exists_mem_of_ne_nil (binarizeFeature (columnAt rows 1) builder)
    (binarizeFeature_ne_nil _)
  exact List.length_pos_of_mem (List.mem_flatten.mpr ⟨_, first, mem⟩)

theorem length_of_mem_rawBins {bins : List TBin} (mem : bins ∈ rawBins builder w rows) :
    ∀ bin ∈ bins, bin.length = rows.length := by
  obtain ⟨j, -, rfl⟩ := List.mem_map.mp mem
  intro bin listed
  rw [length_of_mem_binarizeFeature listed, columnAt, List.length_map]

theorem pool_raw (builder : TBorderBuilder) (w : ℕ) (some : rows ≠ []) :
    Pool (rawLabel builder rows) (rawFeatures builder w rows) rows.length where
  rows := List.length_pos_of_ne_nil some
  labelled := binarizeFeature_ne_nil _
  labelLength bin mem := by
    rw [length_of_mem_binarizeFeature mem, columnAt, List.length_map]
  binLength bin mem := by
    rw [rawFeatures, bins_addFeatures] at mem
    obtain ⟨bins, listed, mem⟩ := List.mem_flatten.mp mem
    exact length_of_mem_rawBins listed bin mem

theorem length_binarizeFeature_le {feature : List ℚ} {x : ℕ} (pos : 0 < x) (few : (builder feature).length ≤ x) :
    (binarizeFeature feature builder).length ≤ x := by
  unfold binarizeFeature
  simp only
  split
  · exact pos
  · rwa [List.length_map]

theorem length_rawLabel (rows : List (List ℚ)) {x : ℕ} (pos : 0 < x) (few : ∀ values, (builder values).length ≤ x) :
    (rawLabel builder rows).bins.length ≤ x := length_binarizeFeature_le pos (few _)

/-- **What is read from a raw pool**: exactly tables with a row are read. -/
theorem readRawPool_eq_ok_iff (builder : TBorderBuilder) {after : TStreams}
    (opened : openInput streams poolFile = .ok (text, after)) :
    readRawPool converter streams poolFile builder = .ok (label, features) ↔
      ∃ w, IsTable converter (w + 1) (readLines text) ∧ readLines text ≠ [] ∧
        label = rawLabel builder ((readLines text).map (numbersOf converter)) ∧
        features = rawFeatures builder w ((readLines text).map (numbersOf converter)) := by
  have batch : 0 < linesInBatch := by simp [linesInBatch]
  rw [readRawPool, opened, ok_bind]
  constructor
  · intro ran
    obtain ⟨pool, read, binarized⟩ := bind_eq_ok.mp ran
    obtain ⟨width, pos, table, rfl⟩ := (readPool_eq_ok_iff batch).mp (orStop_eq_ok.mp read)
    obtain ⟨w, rfl⟩ : ∃ w, width = w + 1 := ⟨width - 1, by omega⟩
    have binarized := orStop_eq_ok.mp binarized
    have some : readLines text ≠ [] := by
      intro none
      simp [none, columnsOf, binarizeRawPool] at binarized
    rw [binarizeRawPool_eq (by simpa using some), Except.ok.injEq, Prod.mk.injEq] at binarized
    exact ⟨w, table, some, binarized.1.symm, binarized.2.symm⟩
  · rintro ⟨w, table, some, rfl, rfl⟩
    have nonempty : (readLines text).map (numbersOf converter) ≠ [] := by simpa using some
    simp only [readPool_ok (Nat.succ_pos w) batch table, orStop, Except.mapError, ok_bind, binarizeRawPool_eq nonempty]

end Raw

/-! ### Runs on a raw pool -/

section Runs

variable {converter : TConverter} {options : TOptions} {streams after : TStreams} {poolFile : String} {text : List Char}
variable {label features : TBinFeatureSet} {n t : ℕ}

/-- Asked for some of the features, the loop emits as many of them as have a bin, each once, and it ends normally if
these are enough. -/
theorem fastFeatureSelection_counts (pool : Pool label features n) (some : 0 < features.getBinCount) (pos : 0 < t)
    (few : label.bins.length + 2 * t ≤ 62) {count : ℤ} (asked : 0 < count) :
    (fastFeatureSelection ℝ label features t count).items.Nodup ∧
      (∀ f ∈ (fastFeatureSelection ℝ label features t count).items, f ∈ (problem label features n).owners) ∧
      ((fastFeatureSelection ℝ label features t count).items.length : ℤ) =
        min count (problem label features n).owners.card ∧
      ((fastFeatureSelection ℝ label features t count).stopped = none ↔
        min count features.getFeatureCount ≤ (problem label features n).owners.card) := by
  obtain ⟨first, found, owns⟩ := exists_firstFeature label n some
  obtain ⟨bg, selected, shown, -⟩ := selectFirst_ok pool (by omega) found
  have start : ∃ search : State ℝ, search.chosen = [first] ∧
      Follows label features ⟨bg, ofLabel label features.getBinCount⟩ search ∧
      (problem label features n).Inv t search :=
    ⟨(problem label features n).start first, rfl, start_follows shown, Problem.start_inv owns⟩
  obtain ⟨nodup, inOwners, length, stopped⟩ := emits_owners (fast_next pool pos few)
    (min count features.getFeatureCount - 1).toNat start (List.nodup_singleton first)
    (by simpa using Problem.mem_owners.mpr owns)
  have mem := Problem.mem_owners.mpr owns
  have owner : 0 < (problem label features n).owners.card := Finset.card_pos.mpr ⟨first, mem⟩
  have all : (problem label features n).owners.card ≤ features.getFeatureCount :=
    (Finset.card_le_card (owners_subset label n)).trans (Finset.card_range _).le
  rw [List.length_singleton] at length stopped
  rw [fastFeatureSelection, selected]
  refine ⟨nodup, inOwners, ?_, stopped.trans (by omega)⟩
  simp only [Emitted.cons, List.length_cons, length]
  omega

/-- A run on a raw pool alone. -/
theorem runMain_raw (raw : options.rawPoolFilename = some poolFile)
    (only : options.binaryPoolFilename = none ∧ options.featureBinMapFilename = none) :
    runMain ℝ converter options streams =
      match readRawPool converter streams poolFile options.borderBuilder with
      | .ok (label, features) => finish ℝ options streams.files label features
      | .error why => ⟨[], [], streams.files, .error why⟩ := by
  simp [runMain, raw, only]

/-- The end of a run that selects features. -/
theorem finish_selects {files : String → Option (List Char)}
    (selects : options.binaryPoolOutputFile = none ∨ options.featureBinMapOutputFile = none) :
    finish ℝ options files label features =
      ⟨printFeatures (fastFeatureSelection ℝ label features options.evalStepCount
          (options.featureCountToSelect.getD features.getFeatureCount)).items, [], files,
        match (fastFeatureSelection ℝ label features options.evalStepCount
          (options.featureCountToSelect.getD features.getFeatureCount)).stopped with
        | some why => .error (.failed why)
        | none => .ok 0⟩ := by
  rcases selects with none | none <;> cases pool : options.binaryPoolOutputFile <;> simp_all [finish]

/-- **Pools with the same problem end alike**, whatever the files are called. -/
theorem finish_congr (options options' : TOptions) {label' features' : TBinFeatureSet}
    (selects : options.binaryPoolOutputFile = none ∨ options.featureBinMapOutputFile = none)
    (selects' : options'.binaryPoolOutputFile = none ∨ options'.featureBinMapOutputFile = none)
    (steps : options'.evalStepCount = options.evalStepCount)
    (asked : options'.featureCountToSelect = options.featureCountToSelect) (pool : Pool label features n)
    (pool' : Pool label' features' n) (few : label.bins.length + 2 * options.evalStepCount ≤ 62)
    (few' : label'.bins.length + 2 * options.evalStepCount ≤ 62)
    (same : problem label' features' n = problem label features n)
    (sameCount : features'.getFeatureCount = features.getFeatureCount) (files files' : String → Option (List Char)) :
    (finish ℝ options' files' label' features').cout = (finish ℝ options files label features).cout ∧
      (finish ℝ options' files' label' features').status = (finish ℝ options files label features).status := by
  have pos := options.evalStepCount_pos
  have run (count : ℤ) := fastFeatureSelection_congr (t := options.evalStepCount) pool' pool (by omega) (by omega) same
    sameCount count
  rw [finish_selects selects, finish_selects selects', steps, asked, sameCount, run]
  exact ⟨rfl, rfl⟩

/-- The number of steps and of features of a run. -/
theorem TOptions.exists_counts (options : TOptions) (w : ℕ) (some : 0 < w) :
    ∃ t : ℕ, options.evalStepCount = t ∧ 0 < t ∧ 0 < options.featureCountToSelect.getD w := by
  have pos := options.evalStepCount_pos
  refine ⟨options.evalStepCount.toNat, by omega, by omega, ?_⟩
  cases count : options.featureCountToSelect with
  | none => simpa using some
  | some k => exact options.featureCount_pos k count

/-- The run after a table with a row was read. -/
theorem finish_rawPool {w : ℕ} {rows : List (List ℚ)} (some : rows ≠ [])
    (selects : options.binaryPoolOutputFile = none ∨ options.featureBinMapOutputFile = none)
    (few : ∀ values, (options.borderBuilder values).length ≤ options.borderCount)
    (fits : options.borderCount + 2 * options.evalStepCount ≤ 62) (files : String → Option (List Char)) :
    ((finish ℝ options files (rawLabel options.borderBuilder rows) (rawFeatures options.borderBuilder w rows)).status =
        .ok 0 ↔ 0 < w) ∧
      (0 < w → ∃ selected : List ℕ,
        (finish ℝ options files (rawLabel options.borderBuilder rows)
          (rawFeatures options.borderBuilder w rows)).cout = printFeatures selected ∧
        selected.Nodup ∧ (∀ f ∈ selected, f < w) ∧
        (selected.length : ℤ) = min (options.featureCountToSelect.getD w) w) := by
  have pool := pool_raw options.borderBuilder w some
  have labelBins := length_rawLabel rows options.borderCount_pos few
  rw [finish_selects selects, getFeatureCount_rawFeatures]
  rcases Nat.eq_zero_or_pos w with rfl | any
  · have none : (problem (rawLabel options.borderBuilder rows) (rawFeatures options.borderBuilder 0 rows)
        rows.length).firstFeature = none := rfl
    rw [fastFeatureSelection, selectFirst_error pool (by have := options.evalStepCount_pos; omega) none]
    simp
  · obtain ⟨t, steps, pos, asked⟩ := options.exists_counts w any
    have nonempty : ∀ f < (rawFeatures options.borderBuilder w rows).getFeatureCount, ∃ bins,
        (rawFeatures options.borderBuilder w rows).getFeature f = .ok bins ∧ bins ≠ [] := fun f lt =>
      getFeature_rawFeatures (by simpa using lt)
    have owners := owners_eq (rawLabel options.borderBuilder rows) rows.length nonempty
    obtain ⟨nodup, inside, length, stopped⟩ := fastFeatureSelection_counts (t := t) pool (getBinCount_rawFeatures any)
      pos (by omega) asked
    rw [getFeatureCount_rawFeatures] at owners stopped
    rw [owners, Finset.card_range] at length stopped
    simp only [owners, Finset.mem_range] at inside
    rw [steps, stopped.mpr (min_le_right _ _)]
    exact ⟨iff_of_true rfl any, fun _ => ⟨_, rfl, nodup, inside, length⟩⟩

/-- **A run on a raw pool** exits with 0 exactly if the text is a table with a row and at least two columns;
it then has printed as many features as were asked for, each once and none that the table does not have. -/
theorem runMain_rawPool (raw : options.rawPoolFilename = some poolFile)
    (only : options.binaryPoolFilename = none ∧ options.featureBinMapFilename = none)
    (selects : options.binaryPoolOutputFile = none ∨ options.featureBinMapOutputFile = none)
    (opened : openInput streams poolFile = .ok (text, after))
    (few : ∀ values, (options.borderBuilder values).length ≤ options.borderCount)
    (fits : options.borderCount + 2 * options.evalStepCount ≤ 62) :
    ((runMain ℝ converter options streams).status = .ok 0 ↔
        Readable converter (readLines text) ∧ readLines text ≠ [] ∧
          ∀ line ∈ readLines text, 2 ≤ (line.splitOn '\t').length) ∧
      ((runMain ℝ converter options streams).status = .ok 0 →
        ∃ selected : List ℕ, (runMain ℝ converter options streams).cout = printFeatures selected ∧ selected.Nodup ∧
          ∀ line ∈ readLines text, (∀ f ∈ selected, f + 1 < (line.splitOn '\t').length) ∧
            (selected.length : ℤ) = min (options.featureCountToSelect.getD ((line.splitOn '\t').length - 1))
              ((line.splitOn '\t').length - 1)) := by
  have readable {w : ℕ} (table : IsTable converter (w + 1) (readLines text)) (line : List Char)
      (mem : line ∈ readLines text) : (line.splitOn '\t').length = w + 1 := by
    rw [← length_numbersOf converter, table.width line mem]
  rw [runMain_raw raw only]
  cases read : readRawPool converter streams poolFile options.borderBuilder with
  | error why =>
    refine ⟨iff_of_false (by simp) ?_, by simp⟩
    rintro ⟨table, some, wide⟩
    obtain ⟨width, pos, table⟩ := readable_iff.mp table
    obtain ⟨w, rfl⟩ : ∃ w, width = w + 1 := ⟨width - 1, by omega⟩
    have ok := (readRawPool_eq_ok_iff options.borderBuilder opened).mpr ⟨w, table, some, rfl, rfl⟩
    cases read.symm.trans ok
  | ok pools =>
    obtain ⟨label, features⟩ := pools
    obtain ⟨w, table, some, rfl, rfl⟩ := (readRawPool_eq_ok_iff _ opened).mp read
    have nonempty : (readLines text).map (numbersOf converter) ≠ [] := by simpa using some
    obtain ⟨status, printed⟩ := finish_rawPool (w := w) nonempty selects few fits streams.files
    have wide : (∀ line ∈ readLines text, 2 ≤ (line.splitOn '\t').length) ↔ 0 < w := by
      obtain ⟨line, mem⟩ := List.exists_mem_of_ne_nil _ some
      constructor
      · intro all
        have := all line mem
        rw [readable table line mem] at this
        omega
      · intro any other mem
        rw [readable table other mem]
        omega
    have tokens : Readable converter (readLines text) := readable_iff.mpr ⟨w + 1, Nat.succ_pos w, table⟩
    refine ⟨?_, fun exits => ?_⟩
    · simp only [status, wide, tokens, some, ne_eq, not_false_eq_true, true_and]
    · obtain ⟨selected, cout, nodup, inside, length⟩ := printed (status.mp exits)
      refine ⟨selected, cout, nodup, fun line mem => ?_⟩
      rw [readable table line mem]
      refine ⟨fun f listed => Nat.succ_lt_succ (inside f listed), ?_⟩
      rw [length]
      simp

/-- Four rows with a label of three values and two features. -/
def fourRows : List (List Char) :=
  [['0', '\t', '1', '\t', '0'], ['2', '\t', '0', '\t', '1'], ['1', '\t', '1', '\t', '1'], ['0', '\t', '0', '\t', '1']]

def fourLines : List Char := unlines fourRows

theorem iterates_borderBuilder (bestSplit : List ℚ → ℕ → Finset ℚ) (values : List ℚ) :
    Iterates ((TOptions.defaults bestSplit).borderBuilder values) (bestSplit values 10) :=
  ⟨Finset.sort_nodup _ _, fun _ => Finset.mem_sort _⟩

theorem length_borderBuilder_median (values : List ℚ) :
    ((TOptions.defaults medianBestSplit).borderBuilder values).length ≤ 10 :=
  (Finset.length_sort _).trans_le (card_generateMedianBorders_le _ _)

/-- Four rows with two features, from the standard input. -/
theorem runMain_rawPool_fourLines :
    (runMain ℝ decimalConverter ((TOptions.defaults medianBestSplit).onRawPool "-")
        ⟨fun _ => none, fourLines⟩).status = .ok 0 ∧
      ∃ selected : List ℕ, (runMain ℝ decimalConverter ((TOptions.defaults medianBestSplit).onRawPool "-")
        ⟨fun _ => none, fourLines⟩).cout = printFeatures selected ∧ selected.Perm [0, 1] := by
  obtain ⟨exits, prints⟩ := @runMain_rawPool decimalConverter ((TOptions.defaults medianBestSplit).onRawPool "-")
    ⟨fun _ => none, fourLines⟩ _ "-" fourLines rfl ⟨rfl, rfl⟩ (.inl rfl) rfl length_borderBuilder_median (by decide)
  have readable : Readable decimalConverter (readLines fourLines) := ⟨by decide, by decide⟩
  have status := exits.mpr ⟨readable, by decide, by decide⟩
  obtain ⟨selected, cout, nodup, lines⟩ := prints status
  obtain ⟨inside, count⟩ := lines ['0', '\t', '1', '\t', '0'] (by decide)
  rw [show (['0', '\t', '1', '\t', '0'].splitOn '\t').length = 3 by decide] at inside count
  have two : (selected.length : ℤ) = 2 := by simpa [TOptions.onRawPool, TOptions.defaults] using count
  refine ⟨status, selected, cout, (List.subperm_of_subset nodup fun f mem => ?_).perm_of_length_le ?_⟩
  · have := inside f mem
    simp
    omega
  · exact le_of_eq (by exact_mod_cast two.symm)

end Runs

/-! ### Runs on a binary pool -/

section Binary

variable {converter : TConverter} {options : TOptions} {streams between after : TStreams} {poolFile mapFile : String}
variable {poolText mapText : List Char} {label features : TBinFeatureSet}

/-- **What is read from a binary pool and a map**: a pool whose features with a bin are those of the map. -/
theorem readBinarizedPoolFiles_spec {builder : TBorderBuilder}
    (openedPool : openInput streams poolFile = .ok (poolText, between))
    (openedMap : openInput between mapFile = .ok (mapText, after))
    (read : readBinarizedPoolFiles converter streams poolFile mapFile builder = .ok (label, features)) :
    ∃ n front map, readBinToFeatureMapText intMaxSize converter mapText = .ok map ∧
      label = .ofBins (binarizeFeature front builder) ∧ Pool label features n ∧ 0 < features.getBinCount ∧
      ((features.getFeatureCount : ℤ) - 1 ∈ map) ∧ (∀ f ∈ map, 0 ≤ f ∧ f < features.getFeatureCount) ∧
      ∀ f : ℕ, f ∈ (problem label features n).owners ↔ (f : ℤ) ∈ map := by
  have batch : 0 < linesInBatch := by simp [linesInBatch]
  rw [readBinarizedPoolFiles, openedPool, ok_bind] at read
  obtain ⟨pool, readPool, read⟩ := bind_eq_ok.mp read
  simp only [openedMap, ok_bind] at read
  obtain ⟨map, readMap, read⟩ := bind_eq_ok.mp read
  obtain ⟨w, pos, table, columns⟩ := (readPool_eq_ok_iff batch).mp (orStop_eq_ok.mp readPool)
  cases pool with
  | nil => cases read
  | cons front rest =>
    obtain ⟨_, binarized, last⟩ := bind_eq_ok.mp read
    cases last
    have some : (readLines poolText).map (numbersOf converter) ≠ [] := by
      intro none
      rw [none] at columns
      cases columns
    have length : ∀ column ∈ front :: rest, column.length = (readLines poolText).length := by
      intro column mem
      rw [columns, columnsOf_of_ne_nil some] at mem
      obtain ⟨j, -, rfl⟩ := List.mem_map.mp mem
      rw [List.length_map, List.length_map]
    obtain ⟨-, lengths, named, largest, each⟩ :=
      binarizeWithMap_spec (fun column mem => length column (List.mem_cons_of_mem _ mem)) (orStop_eq_ok.mp binarized)
    have owner (f : ℕ) : f ∈ (problem (.ofBins (binarizeFeature front builder)) features
        (readLines poolText).length).owners ↔ (f : ℤ) ∈ map := by
      constructor
      · intro owned
        obtain ⟨bins, got, nonempty⟩ := each f (Finset.mem_range.mp (owners_subset _ _ owned))
        obtain ⟨_, got', some⟩ := (ownedBins_ne_nil_iff _ _).mp (Problem.mem_owners.mp owned)
        cases got.symm.trans got'
        exact nonempty.mp some
      · intro mem
        obtain ⟨bins, got, nonempty⟩ := each f (by exact_mod_cast (named f mem).2)
        exact Problem.mem_owners.mpr ((ownedBins_ne_nil_iff _ _).mpr ⟨bins, got, nonempty.mpr mem⟩)
    refine ⟨_, front, map, orStop_eq_ok.mp readMap, rfl, ⟨?_, binarizeFeature_ne_nil _, fun bin mem => ?_, lengths⟩, ?_,
      largest, named, owner⟩
    · exact List.length_pos_of_ne_nil (by simpa using some)
    · rw [length_of_mem_binarizeFeature mem, length front List.mem_cons_self]
    · obtain ⟨top, last⟩ := Int.eq_ofNat_of_zero_le (named _ largest).1
      obtain ⟨b, owned⟩ := List.exists_mem_of_ne_nil _ (Problem.mem_owners.mp ((owner top).mpr (last ▸ largest)))
      exact Nat.zero_lt_of_lt (Problem.mem_ownedBins.mp owned).1

/-- The features of a map without a gap are all features up to the largest one. -/
theorem card_of_gapless {map : List ℤ} {count : ℕ} (named : ∀ f ∈ map, 0 ≤ f ∧ f < count)
    (largest : (count : ℤ) - 1 ∈ map) :
    (count ≤ map.toFinset.card ↔ ∀ f ∈ map, ∀ g, 0 ≤ g → g ≤ f → g ∈ map) := by
  have inside : map.toFinset ⊆ Finset.Ico 0 (count : ℤ) := fun f mem =>
    Finset.mem_Ico.mpr (named f (List.mem_toFinset.mp mem))
  have size : (Finset.Ico 0 (count : ℤ)).card = count := by simp
  constructor
  · intro le f mem g low high
    have whole := Finset.eq_of_subset_of_card_le inside (size.trans_le le)
    exact List.mem_toFinset.mp (whole ▸ Finset.mem_Ico.mpr ⟨low, by have := (named f mem).2; omega⟩)
  · intro gapless
    rw [← size]
    refine Finset.card_le_card fun f mem => List.mem_toFinset.mpr ?_
    obtain ⟨low, high⟩ := Finset.mem_Ico.mp mem
    exact gapless _ largest f low (by omega)

/-- **A run on a binary pool** prints as many features as were asked for, or all that the map names if these are fewer,
each once. It exits with 0 iff the map names as many as were asked for or all up to its largest one. -/
theorem runMain_binaryPool (binary : options.rawPoolFilename = none)
    (ofPool : options.binaryPoolFilename = some poolFile)
    (ofMap : options.featureBinMapFilename = some mapFile)
    (selects : options.binaryPoolOutputFile = none ∨ options.featureBinMapOutputFile = none)
    (openedPool : openInput streams poolFile = .ok (poolText, between))
    (openedMap : openInput between mapFile = .ok (mapText, after))
    (read : readBinarizedPoolFiles converter streams poolFile mapFile options.borderBuilder = .ok (label, features))
    (few : ∀ values, (options.borderBuilder values).length ≤ options.borderCount)
    (fits : options.borderCount + 2 * options.evalStepCount ≤ 62) :
    ∃ map : List ℤ, readBinToFeatureMapText intMaxSize converter mapText = .ok map ∧
      ((runMain ℝ converter options streams).status = .ok 0 ↔
        (∃ count ∈ options.featureCountToSelect, count ≤ map.toFinset.card) ∨
          ∀ f ∈ map, ∀ g, 0 ≤ g → g ≤ f → g ∈ map) ∧
      ∃ selected : List ℕ, (runMain ℝ converter options streams).cout = printFeatures selected ∧ selected.Nodup ∧
        (∀ f ∈ selected, (f : ℤ) ∈ map) ∧
        (selected.length : ℤ) = min (options.featureCountToSelect.getD map.toFinset.card) map.toFinset.card := by
  obtain ⟨n, front, map, readMap, rfl, pool, bins, largest, named, owner⟩ :=
    readBinarizedPoolFiles_spec openedPool openedMap read
  have gapless := card_of_gapless named largest
  have card : (problem (.ofBins (binarizeFeature front options.borderBuilder)) features n).owners.card =
      map.toFinset.card := by
    have image : map.toFinset =
        (problem (.ofBins (binarizeFeature front options.borderBuilder)) features n).owners.image Nat.cast := by
      ext f
      rw [List.mem_toFinset, Finset.mem_image]
      constructor
      · intro mem
        obtain ⟨g, rfl⟩ := Int.eq_ofNat_of_zero_le (named f mem).1
        exact ⟨g, (owner g).mpr mem, rfl⟩
      · rintro ⟨g, owned, rfl⟩
        exact (owner g).mp owned
    rw [image, Finset.card_image_of_injective _ Nat.cast_injective]
  have run : runMain ℝ converter options streams =
      finish ℝ options streams.files (.ofBins (binarizeFeature front options.borderBuilder)) features := by
    simp [runMain, binary, ofPool, ofMap, read]
  have all : map.toFinset.card ≤ features.getFeatureCount := by
    rw [← card]
    exact (Finset.card_le_card (owners_subset _ n)).trans (Finset.card_range _).le
  have any : 0 < features.getFeatureCount := by
    have := (named _ largest).1
    omega
  have labelBins : (TBinFeatureSet.ofBins (binarizeFeature front options.borderBuilder)).bins.length ≤
      options.borderCount := length_binarizeFeature_le options.borderCount_pos (few front)
  obtain ⟨t, steps, pos, asked⟩ := options.exists_counts features.getFeatureCount any
  obtain ⟨nodup, inside, length, stopped⟩ := fastFeatureSelection_counts (t := t) pool bins pos (by omega) asked
  rw [card] at length stopped
  rw [run, finish_selects selects, steps]
  refine ⟨map, readMap, ?_, _, rfl, nodup, fun f listed => (owner f).mp (inside f listed), ?_⟩
  · rw [← gapless]
    have ended {why : Option Failure} : (match why with
        | some why => (.error (.failed why) : Except Stop ℕ)
        | none => .ok 0) = .ok 0 ↔ why = none := by cases why <;> simp
    rw [ended, stopped]
    cases options.featureCountToSelect with
    | none => simp
    | some k => simp
  · rw [length]
    cases options.featureCountToSelect with
    | none => simpa using all
    | some k => rfl

/-- The lines of a map that names the features 2 and 0. -/
def gapLines : List Char := ['2', '\t', '0', '\n', '0', '\t', '1', '\n']

/-- A binary pool and this map. -/
def gapStreams : TStreams where
  files name := if name = "pool" then some fourLines else if name = "map" then some gapLines else none
  cin := []

theorem readBinToFeatureMapText_gap :
    readBinToFeatureMapText intMaxSize decimalConverter gapLines = .ok [2, 0] := by
  have written : gapLines = unlines (([2, 0] : List ℕ).zipIdx.map printEntry) := by decide
  rw [written, readBinToFeatureMapText_eq decimalConverter_inverse (by simp) (by simp)]
  exact readBinToFeatureMap_mapLines (by simp) (by simp)

theorem readBinarizedPoolFiles_gap (builder : TBorderBuilder) :
    readBinarizedPoolFiles decimalConverter gapStreams "pool" "map" builder =
      .ok (.ofBins (binarizeFeature [0, 2, 1, 0] builder),
        addFeatures [[[false, true, true, true]], [], [[true, false, true, false]]]) := by
  have table : IsTable decimalConverter 3 (readLines fourLines) := ⟨by decide, by decide⟩
  have batch : 0 < linesInBatch := by simp [linesInBatch]
  have columns : columnsOf 0 3 ((readLines fourLines).map (numbersOf decimalConverter)) =
      [[0, 2, 1, 0], [1, 0, 1, 0], [0, 1, 1, 1]] := by decide
  have pool : openInput gapStreams "pool" = .ok (fourLines, gapStreams) := rfl
  have mapFile : openInput gapStreams "map" = .ok (gapLines, gapStreams) := rfl
  simp only [readBinarizedPoolFiles, pool, mapFile, ok_bind, readPool_ok three_pos batch table, columns, orStop,
    Except.mapError, readBinToFeatureMapText_gap]
  rfl

/-- Both named features are printed, and then the run fails. -/
theorem runMain_binaryPool_gap :
    (∃ selected : List ℕ, selected.Perm [0, 2] ∧
      (runMain ℝ decimalConverter ((TOptions.defaults medianBestSplit).onBinaryPool "pool" "map") gapStreams).cout =
        printFeatures selected) ∧
      (runMain ℝ decimalConverter ((TOptions.defaults medianBestSplit).onBinaryPool "pool" "map") gapStreams).status ≠
        .ok 0 := by
  obtain ⟨map, readMap, exits, selected, cout, nodup, named, length⟩ :=
    @runMain_binaryPool decimalConverter ((TOptions.defaults medianBestSplit).onBinaryPool "pool" "map") gapStreams
      gapStreams gapStreams "pool" "map" fourLines gapLines _ _ rfl rfl rfl (.inl rfl) rfl rfl
      (readBinarizedPoolFiles_gap _) length_borderBuilder_median (by decide)
  cases readBinToFeatureMapText_gap.symm.trans readMap
  refine ⟨⟨selected, ?_, cout⟩, fun exit => ?_⟩
  · have two : (selected.length : ℤ) = 2 := by simpa [TOptions.onBinaryPool, TOptions.defaults] using length
    refine (List.subperm_of_subset nodup fun f mem => ?_).perm_of_length_le (le_of_eq (by exact_mod_cast two.symm))
    have listed := named f mem
    simp at listed ⊢
    omega
  · rcases exits.mp exit with ⟨_, none, -⟩ | gapless
    · cases none
    · have one := gapless 2 (by simp) 1 (by decide) (by decide)
      simp at one

end Binary

end Cmicot
