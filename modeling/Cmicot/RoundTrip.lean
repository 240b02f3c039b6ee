import Cmicot.ReadPool
import Cmicot.Regroup

/-!
The binarized pool and the map, written and read back (`io.cpp`, `binarize.h`).

`--just-binarize` writes the label and the bins of all features as a table of numbers and the
map as lines of two numbers; a later run reads both and groups the bins by feature again.

* `readPool_written`: the pool is written and read back.
* `outputBinFeatureMap_ok`, `readBinToFeatureMap_mapLines`: the map is written and read back.
* `binarizeWithMap_ownersOf`: all bins are pushed back to their features.
* `features_survive`: the second run works on the features of the first one.
-/

namespace Cmicot

open Loop Text

/-- The converter parses what was printed: naturals that a `double` holds exactly, and
naturals that fit into a `ui64`. -/
structure TConverter.Inverse (converter : TConverter) : Prop where
  double : ∀ n < 2 ^ 53, converter.tryFromStringDouble (printDecimal n) = some (n : ℚ)
  ui64 : ∀ n < 2 ^ 64, converter.fromStringUi64 (printDecimal n) = some (.ofNat n)

/-! ### Printed rows -/

section Rows

variable {converter : TConverter} {w : ℕ}

/-- A row of numbers as it is printed. -/
def printRow (first : ℕ) (rest : List ℕ) : List Char :=
  printDecimal first ++ (rest.map fun n => '\t' :: printDecimal n).flatten

variable {first : ℕ} {rest : List ℕ}

theorem not_mem_printRow {c : Char} (other : c.isDigit = false) (delim : c ≠ '\t') : c ∉ printRow first rest := by
  simp only [printRow, List.mem_append, List.mem_flatten, List.mem_map]
  rintro (mem | ⟨_, ⟨n, -, rfl⟩, mem⟩)
  · exact not_mem_printDecimal other first mem
  · rcases List.mem_cons.mp mem with same | mem
    · exact delim same
    · exact not_mem_printDecimal other n mem

theorem splitOn_printRow : (printRow first rest).splitOn '\t' = (first :: rest).map printDecimal := by
  have clean : ∀ token ∈ printDecimal first :: rest.map printDecimal, '\t' ∉ token := by
    intro token mem
    obtain ⟨n, -, rfl⟩ := List.mem_map.mp (show token ∈ (first :: rest).map printDecimal from mem)
    exact not_mem_printDecimal (by decide) n
  have split := splitOn_row clean
  rwa [List.map_map] at split

theorem numbersOf_printRow (inverse : converter.Inverse) (small : ∀ n ∈ first :: rest, n < 2 ^ 53) :
    numbersOf converter (printRow first rest) = (first :: rest).map fun n : ℕ => (n : ℚ) := by
  rw [numbersOf, splitOn_printRow, List.map_map]
  refine List.map_congr_left fun n mem => ?_
  rw [Function.comp_apply, inverse.double n (small n mem), Option.getD_some]

/-- Printed rows of one width are a table. -/
theorem isTable_printRows (inverse : converter.Inverse) {rows : List (ℕ × List ℕ)}
    (small : ∀ row ∈ rows, ∀ n ∈ row.1 :: row.2, n < 2 ^ 53) (width : ∀ row ∈ rows, row.2.length = w) :
    IsTable converter (w + 1) (rows.map fun row => printRow row.1 row.2) := by
  refine ⟨fun line mem token part => ?_, fun line mem => ?_⟩ <;> obtain ⟨row, listed, rfl⟩ := List.mem_map.mp mem
  · rw [splitOn_printRow] at part
    obtain ⟨n, named, rfl⟩ := List.mem_map.mp part
    rw [inverse.double n (small row listed n named)]
    rfl
  · rw [numbersOf_printRow inverse (small row listed), List.length_map, List.length_cons, width row listed]

end Rows

/-! ### The pool -/

section Pool

variable {converter : TConverter} {label features : TBinFeatureSet} {n k : ℕ}

theorem rowBit_ok {bin : TBin} {line : ℕ} (inside : line < bin.length) :
    rowBit bin line = .ok (bin.getD line false) := by
  rw [rowBit, List.getElem?_eq_getElem inside, List.getD_eq_getElem _ _ inside]

/-- A row of the written pool. -/
def poolRow (features : TBinFeatureSet) (entry : UInt64 × ℕ) : ℕ × List ℕ :=
  (entry.1.toNat, features.bins.map fun bin => (bin.getD entry.2 false).toNat)

theorem outputRow_ok {value : UInt64} {line : ℕ} (inside : ∀ bin ∈ features.bins, line < bin.length) :
    outputRow features value line =
      .ok (printRow (poolRow features (value, line)).1 (poolRow features (value, line)).2) := by
  have bits : features.allBins.mapM (fun bin => rowBit bin line) =
      .ok (features.bins.map fun bin => bin.getD line false) :=
    mapM_ok fun bin mem => rowBit_ok (inside bin mem)
  simp only [outputRow, bits, ok_bind, pure_eq_ok, printRow, poolRow, List.map_map, Function.comp_def]

/-- The label values of at most 31 bins. -/
theorem uniteLabelBins_small {bins : List TBin} (some : bins ≠ []) (length : ∀ bin ∈ bins, bin.length = n)
    (few : bins.length ≤ 31) :
    ∃ values, uniteLabelBins bins = .ok values ∧ values.length = n ∧ ∀ value ∈ values, value.toNat < 2 ^ 31 := by
  obtain ⟨values, folded, size, united⟩ := foldlM_uniteBin_ok length (show bins.length ≤ 32 by omega)
  refine ⟨values, (uniteLabelBins_eq some length).trans folded, size, fun value mem => ?_⟩
  obtain ⟨i, inside, rfl⟩ := List.mem_iff_getElem.mp mem
  refine Nat.lt_pow_two_of_testBit _ fun j above => ?_
  have bit := united i inside j
  rw [List.getD_eq_getElem _ _ inside] at bit
  rw [bit, Nat.min_eq_right above, List.getD_eq_default bins [] few]
  rfl

/-- What `OutputPool` writes. -/
theorem outputPool_ok {values : List UInt64} (united : uniteLabelBins label.bins = .ok values)
    (size : values.length = n) (length : ∀ bin ∈ features.bins, bin.length = n) :
    outputPool label features =
      .ok (unlines ((values.zipIdx.map (poolRow features)).map fun row => printRow row.1 row.2)) := by
  have lines : values.zipIdx.mapM (fun entry => outputRow features entry.1 entry.2) =
      .ok (values.zipIdx.map fun entry =>
        printRow (poolRow features entry).1 (poolRow features entry).2) := by
    refine mapM_ok fun entry mem => outputRow_ok fun bin listed => ?_
    rw [length bin listed, ← size]
    simpa using List.snd_lt_of_mem_zipIdx mem
  rw [outputPool, show label.allBins = label.bins from rfl, united, ok_bind, lines, ok_bind, List.map_map]
  rfl

/-- The columns of a table, the first one apart. -/
theorem columnsOf_succ {w : ℕ} {rows : List (List ℚ)} (some : rows ≠ []) :
    columnsOf 0 (w + 1) rows = (rows.map fun row => row.getD 0 0) ::
      (List.range w).map fun j => rows.map fun row => row.getD (j + 1) 0 := by
  rw [columnsOf_of_ne_nil some, List.range_succ_eq_map, List.map_cons, List.map_map]
  rfl

/-- **What is read from the written pool**: the numbers of the label, and behind them the bins. -/
theorem readPool_written (inverse : converter.Inverse) (batch : 0 < k) (pos : 0 < n) {values : List UInt64}
    (united : uniteLabelBins label.bins = .ok values) (size : values.length = n)
    (small : ∀ value ∈ values, value.toNat < 2 ^ 53) (length : ∀ bin ∈ features.bins, bin.length = n) :
    ∃ text, outputPool label features = .ok text ∧ readPool converter k text =
      .ok ((values.map fun value => (value.toNat : ℚ)) ::
        features.bins.map fun bin => bin.map fun bit => (bit.toNat : ℚ)) := by
  have clean : ∀ line ∈ (values.zipIdx.map (poolRow features)).map fun row => printRow row.1 row.2,
      '\n' ∉ line ∧ '\r' ∉ line := by
    intro line mem
    obtain ⟨row, -, rfl⟩ := List.mem_map.mp mem
    exact ⟨not_mem_printRow (by decide) (by decide), not_mem_printRow (by decide) (by decide)⟩
  have lines := readLines_unlines clean
  have smallRows : ∀ row ∈ values.zipIdx.map (poolRow features), ∀ n ∈ row.1 :: row.2, n < 2 ^ 53 := by
    intro row mem n part
    obtain ⟨entry, listed, rfl⟩ := List.mem_map.mp mem
    rcases List.mem_cons.mp part with rfl | part
    · exact small _ (List.fst_mem_of_mem_zipIdx listed)
    · obtain ⟨bin, -, rfl⟩ := List.mem_map.mp part
      exact lt_of_le_of_lt (Bool.toNat_le _) (by simp)
  have table : IsTable converter (features.bins.length + 1) _ :=
    isTable_printRows inverse smallRows (by
      intro row mem
      obtain ⟨entry, -, rfl⟩ := List.mem_map.mp mem
      simp [poolRow])
  rw [← lines] at table
  refine ⟨_, outputPool_ok united size length, (readPool_ok (Nat.succ_pos _) batch table).trans ?_⟩
  have numbers : ((values.zipIdx.map (poolRow features)).map fun row => printRow row.1 row.2).map
        (numbersOf converter) =
      values.zipIdx.map fun entry => ((poolRow features entry).1 :: (poolRow features entry).2).map
        fun n : ℕ => (n : ℚ) := by
    rw [List.map_map, List.map_map]
    refine List.map_congr_left fun entry mem => ?_
    exact numbersOf_printRow inverse (smallRows _ (List.mem_map_of_mem mem))
  rw [lines, numbers, columnsOf_succ (by
    rw [ne_eq, List.map_eq_nil_iff, List.zipIdx_eq_nil_iff]
    exact List.ne_nil_of_length_pos (size ▸ pos))]
  congr 2
  · rw [List.map_map]
    conv_rhs => rw [← List.zipIdx_map_fst 0 values, List.map_map]
    rfl
  · apply List.ext_getElem
    · simp
    · intro j inside inside'
      have named : j < features.bins.length := by simpa using inside'
      have rows := length _ (List.getElem_mem named)
      apply List.ext_getElem
      · simp [rows, size]
      · intro i row row'
        have lt : i < features.bins[j].length := by simpa using row'
        simp [poolRow, named, lt]

/-- **The written pool is read back**: behind the label stand the bins. -/
theorem readPool_outputPool (inverse : converter.Inverse) (batch : 0 < k) (pos : 0 < n)
    (some : label.bins ≠ []) (labelLength : ∀ bin ∈ label.bins, bin.length = n)
    (few : label.bins.length ≤ 31) (length : ∀ bin ∈ features.bins, bin.length = n) :
    ∃ text pool, outputPool label features = .ok text ∧ readPool converter k text = .ok pool ∧
      pool.tail = features.bins.map fun bin => bin.map fun bit => (bit.toNat : ℚ) := by
  obtain ⟨values, united, size, small⟩ := uniteLabelBins_small some labelLength few
  obtain ⟨text, written, read⟩ := readPool_written inverse batch pos united size
    (fun value mem => lt_trans (small value mem) (by simp)) length
  exact ⟨text, _, written, read, rfl⟩

end Pool

/-! ### The map -/

section Maps

variable {converter : TConverter} {features : List (List TBin)}

/-- The feature of every bin. -/
def ownersOf (features : List (List TBin)) : List ℕ :=
  (features.zipIdx.map fun entry => List.replicate entry.1.length entry.2).flatten

theorem ownersOf_concat (features : List (List TBin)) (bins : List TBin) :
    ownersOf (features ++ [bins]) = ownersOf features ++ List.replicate bins.length features.length := by
  simp [ownersOf, List.zipIdx_append]

theorem length_ownersOf (features : List (List TBin)) : (ownersOf features).length = features.flatten.length := by
  induction features using List.reverseRecOn with
  | nil => rfl
  | append_singleton features bins ih => simp [ownersOf_concat, ih]

theorem lt_of_mem_ownersOf {f : ℕ} (mem : f ∈ ownersOf features) : f < features.length := by
  simp only [ownersOf, List.mem_flatten, List.mem_map] at mem
  obtain ⟨_, ⟨entry, listed, rfl⟩, mem⟩ := mem
  rw [List.eq_of_mem_replicate mem]
  simpa using List.snd_lt_of_mem_zipIdx listed

/-- A line of the map as it is printed. -/
def printEntry (entry : ℕ × ℕ) : List Char := printDecimal entry.1 ++ '\t' :: printDecimal entry.2

/-- The bins of one feature in the map. -/
theorem foldl_outputMapLine (f : ℕ) (bins : List TBin) (text : List Char) (index : ℕ) :
    bins.foldl (fun st _ => outputMapLine f st) (text, index) =
      (text ++ unlines (((List.replicate bins.length f).zipIdx index).map printEntry), index + bins.length) := by
  induction bins generalizing text index with
  | nil => simp [unlines]
  | cons bin bins ih =>
    rw [List.foldl_cons, outputMapLine, ih, List.length_cons, List.replicate_succ, List.zipIdx_cons,
      List.map_cons, Nat.add_assoc, Nat.add_comm 1]
    simp [unlines, printEntry]

/-- **What `OutputBinFeatureMap` writes.** -/
theorem outputBinFeatureMap_ok (features : List (List TBin)) :
    outputBinFeatureMap (addFeatures features) = .ok (unlines ((ownersOf features).zipIdx.map printEntry)) := by
  obtain ⟨st, folded, rfl⟩ := foldlM_range_ok
    (f := fun st featureIndex => do
      let bins ← (addFeatures features).getFeature featureIndex
      return bins.foldl (fun st _ => outputMapLine featureIndex st) st)
    (n := features.length) (s := ([], 0))
    (I := fun i st => st = (unlines ((ownersOf (features.take i)).zipIdx.map printEntry),
      (features.take i).flatten.length))
    rfl
    (by
      rintro i lt _ rfl
      have more : features.take (i + 1) = features.take i ++ [features[i]] := List.take_succ_eq_append_getElem lt
      have index : (features.take i).length = i := List.length_take_of_le lt.le
      refine ⟨_, ?_, rfl⟩
      simp only [getFeature_addFeatures (List.getElem?_eq_getElem lt), ok_bind, pure_eq_ok, foldl_outputMapLine]
      rw [more, ownersOf_concat, List.zipIdx_append, List.map_append, unlines_append, length_ownersOf, index,
        List.flatten_append, List.flatten_singleton, List.length_append, Nat.zero_add])
  rw [List.take_length] at folded
  rw [outputBinFeatureMap, getFeatureCount_addFeatures, folded]
  rfl

/-- Printed numbers are no delimiters. -/
theorem not_isStdDelimiter_of_mem {n : ℕ} {c : Char} (mem : c ∈ printDecimal n) : isStdDelimiter c = false := by
  have digit := Nat.isDigit_of_mem_toDigits (by decide) (by decide) mem
  by_contra delimiter
  simp only [isStdDelimiter, Bool.or_eq_true, decide_eq_true_eq, Bool.not_eq_false] at delimiter
  rcases delimiter with (((rfl | rfl) | rfl) | rfl) | rfl <;> cases digit

theorem length_printDecimal_le {n : ℕ} (fits : n < 2 ^ 64) : (printDecimal n).length ≤ 127 :=
  (Nat.toDigits_length 10 n 20 (by simp) (lt_trans fits (by simp))).trans (by simp)

/-- A printed number is read up to the delimiter behind it. -/
theorem readUi64_ok (inverse : converter.Inverse) {n : ℕ} (fits : n < 2 ^ 64) (rest : List Char)
    (delimited : ∀ c ∈ rest.head?, isStdDelimiter c) :
    readUi64 converter (printDecimal n ++ rest) = .ok (.ofNat n, rest.tail) := by
  have start : (printDecimal n ++ rest).dropWhile isStdDelimiter = printDecimal n ++ rest := by
    cases digits : printDecimal n with
    | nil => exact absurd digits Nat.toDigits_ne_nil
    | cons c text =>
      have digit := not_isStdDelimiter_of_mem (n := n) (digits ▸ List.mem_cons_self)
      rw [List.cons_append, List.dropWhile_cons, digit]
      rfl
  have token : (printDecimal n ++ rest).takeWhile (fun c => !isStdDelimiter c) = printDecimal n := by
    rw [List.takeWhile_append_of_pos fun c mem => by rw [not_isStdDelimiter_of_mem mem]; rfl]
    cases rest with
    | nil => simp
    | cons c rest => simp [delimited c rfl]
  have behind : (printDecimal n ++ rest).drop ((printDecimal n).length + 1) = rest.tail := by
    rw [List.drop_append, List.drop_of_length_le (Nat.le_succ _), List.nil_append, Nat.add_sub_cancel_left,
      List.drop_one]
  simp only [readUi64, start, token, List.take_of_length_le (length_printDecimal_le fits), inverse.ui64 n fits,
    behind]

theorem parseMapLine_ok (inverse : converter.Inverse) {entry : ℕ × ℕ} (feature : entry.1 < 2 ^ 64)
    (bin : entry.2 < 2 ^ 64) :
    parseMapLine converter (printEntry entry) = .ok (.ofNat entry.1, .ofNat entry.2) := by
  have first := readUi64_ok inverse feature ('\t' :: printDecimal entry.2) (by simp [isStdDelimiter])
  have second := readUi64_ok inverse bin [] (by simp)
  rw [List.append_nil] at second
  simp only [parseMapLine, printEntry, first, ok_bind, List.tail_cons, second, pure_eq_ok]

/-- The lines of the map as pairs of `ui64`. -/
def mapLines (owners : List ℕ) : List (UInt64 × UInt64) :=
  owners.zipIdx.map fun entry => (.ofNat entry.1, .ofNat entry.2)

/-- A map that was printed is read like its lines. -/
theorem readBinToFeatureMapText_eq (inverse : converter.Inverse) {owners : List ℕ}
    (features : ∀ f ∈ owners, f < 2 ^ 64) (bins : owners.length ≤ 2 ^ 64) :
    readBinToFeatureMapText intMaxSize converter (unlines (owners.zipIdx.map printEntry)) =
      readBinToFeatureMap intMaxSize (mapLines owners) := by
  have clean : ∀ line ∈ owners.zipIdx.map printEntry, '\n' ∉ line ∧ '\r' ∉ line := by
    intro line mem
    obtain ⟨entry, -, rfl⟩ := List.mem_map.mp mem
    simp [printEntry, not_mem_printDecimal (c := '\n') (by decide), not_mem_printDecimal (c := '\r') (by decide)]
  have lines := readLines_unlines clean
  have fits : ∀ entry ∈ owners.zipIdx, entry.1 < 2 ^ 64 ∧ entry.2 < 2 ^ 64 := fun entry mem =>
    ⟨features _ (List.fst_mem_of_mem_zipIdx mem),
      lt_of_lt_of_le (by simpa using List.snd_lt_of_mem_zipIdx mem) bins⟩
  have folds : (owners.zipIdx.map printEntry).foldlM
        (fun result line => do readMapLine intMaxSize result (← parseMapLine converter line)) [] =
      (mapLines owners).foldlM (readMapLine intMaxSize) [] := by
    rw [mapLines, List.foldlM_map, List.foldlM_map]
    refine foldlM_congr fun result entry mem => ?_
    rw [parseMapLine_ok inverse (fits entry mem).1 (fits entry mem).2, ok_bind]
  rw [readBinToFeatureMapText, lines, folds]
  rfl

theorem toNat_ofNat_of_lt {m : ℕ} (small : m < 2 ^ 31) : (UInt64.ofNat m).toNat = m :=
  UInt64.toNat_ofNat_of_lt' (lt_trans small (by simp [UInt64.size]))

/-- The map of consecutive bins holds the feature of each. -/
theorem readBinToFeatureMap_mapLines {owners : List ℕ} (features : ∀ f ∈ owners, f < 2 ^ 31)
    (bins : owners.length < 2 ^ 31) :
    readBinToFeatureMap intMaxSize (mapLines owners) = .ok (owners.map fun f : ℕ => (f : ℤ)) := by
  have small : ∀ entry ∈ owners.zipIdx, entry.1 < 2 ^ 31 ∧ entry.2 < 2 ^ 31 := fun entry mem =>
    ⟨features _ (List.fst_mem_of_mem_zipIdx mem), lt_trans (by simpa using List.snd_lt_of_mem_zipIdx mem) bins⟩
  have index : ∀ line ∈ mapLines owners, line.2.toNat < 2 ^ 31 ∧ line.1.toNat < 2 ^ 31 := by
    intro line mem
    obtain ⟨entry, listed, rfl⟩ := List.mem_map.mp mem
    rw [toNat_ofNat_of_lt (small entry listed).1, toNat_ofNat_of_lt (small entry listed).2]
    exact ⟨(small entry listed).2, (small entry listed).1⟩
  have numbered : (mapLines owners).map (fun line => line.2.toNat) = List.range owners.length := by
    rw [mapLines, List.map_map, List.range_eq_range', ← List.zipIdx_map_snd 0 owners]
    refine List.map_congr_left fun entry mem => ?_
    exact toNat_ofNat_of_lt (small entry mem).2
  have length : (mapLines owners).length = owners.length := by simp [mapLines]
  have valid : ValidLines (mapLines owners) :=
    ⟨by rw [numbered, length], fun line mem => (index line mem).2⟩
  have written : Written intMaxSize (mapLines owners) := by
    refine ⟨valid.neverTwice, fun line mem => ⟨fun wraps => ?_, lt_trans (index line mem).1 (by decide)⟩⟩
    have lt := (index line mem).1
    rw [toNat_of_wraps wraps] at lt
    omega
  obtain ⟨map, read⟩ := readBinToFeatureMap_ok written valid.gapless
  obtain ⟨-, isMap⟩ := isMap_of_readBinToFeatureMap read valid.fits
  rw [read]
  congr 1
  apply List.ext_getElem?
  intro b
  rcases Nat.lt_or_ge b owners.length with lt | ge
  · have entry : ((.ofNat owners[b], .ofNat b) : UInt64 × UInt64) ∈ mapLines owners :=
      List.mem_map.mpr ⟨(owners[b], b), by simp [List.mem_zipIdx_iff_getElem?], rfl⟩
    have at_b := isMap.entries _ entry
    rw [toNat_ofNat_of_lt (lt_trans lt bins), toNat_ofNat_of_lt (features _ (List.getElem_mem lt))] at at_b
    rw [at_b, List.getElem?_map, List.getElem?_eq_getElem lt]
    rfl
  · rw [List.getElem?_eq_none (by rw [isMap.size, length]; exact ge), List.getElem?_eq_none (by simpa using ge)]

end Maps

/-! ### Grouping the bins again -/

section Grouping

variable {features : List (List TBin)}

/-- The bins of one feature, taken from all bins by their owner. -/
theorem filter_ownersOf (features : List (List TBin)) (f : ℕ) :
    ((features.flatten.zip ((ownersOf features).map fun f : ℕ => (f : ℤ))).filter
        fun entry => entry.2 = (f : ℤ)).map Prod.fst = features.getD f [] := by
  induction features using List.reverseRecOn with
  | nil => rfl
  | append_singleton features bins ih =>
    have length : features.flatten.length = ((ownersOf features).map fun f : ℕ => (f : ℤ)).length := by
      rw [List.length_map, length_ownersOf]
    rw [List.flatten_append, List.flatten_singleton, ownersOf_concat, List.map_append, List.zip_append length,
      List.filter_append, List.map_append, ih, List.map_replicate]
    have owner : ∀ entry ∈ bins.zip (List.replicate bins.length (features.length : ℤ)),
        entry.2 = (features.length : ℤ) := fun entry mem => List.eq_of_mem_replicate (List.of_mem_zip mem).2
    by_cases here : f = features.length
    · have all : (bins.zip (List.replicate bins.length (features.length : ℤ))).filter
          (fun entry => entry.2 = (f : ℤ)) = bins.zip (List.replicate bins.length (features.length : ℤ)) :=
        List.filter_eq_self.mpr fun entry mem => by rw [owner entry mem, here, decide_eq_true_eq]
      rw [all, List.map_fst_zip (by simp), here, List.getD_eq_default _ _ le_rfl,
        List.getD_append_right _ _ _ _ le_rfl]
      simp
    · have none : (bins.zip (List.replicate bins.length (features.length : ℤ))).filter
          (fun entry => entry.2 = (f : ℤ)) = [] :=
        List.filter_eq_nil_iff.mpr fun entry mem => by
          rw [owner entry mem, decide_eq_true_eq]
          omega
      rw [none, List.map_nil, List.append_nil]
      rcases Nat.lt_or_ge f features.length with before | behind
      · rw [List.getD_append _ _ _ _ before]
      · rw [List.getD_eq_default _ _ behind, List.getD_eq_default _ _ (by simp; omega)]

/-- **All bins are pushed back to their features.** -/
theorem binarizeWithMap_ownersOf {last : List TBin} (ends : features.getLast? = some last) (some : last ≠ [])
    (count : features.length < 2 ^ 31) :
    binarizeWithMap (features.flatten.map numbers) ((ownersOf features).map fun f : ℕ => (f : ℤ)) =
      .ok (addFeatures features) := by
  set map := (ownersOf features).map fun f : ℕ => (f : ℤ)
  have sizes : features.flatten.length = map.length := by
    rw [List.length_map, length_ownersOf]
  have named : ∀ f ∈ map, 0 ≤ f ∧ f ≤ (features.length : ℤ) - 1 := by
    intro f mem
    obtain ⟨owner, listed, rfl⟩ := List.mem_map.mp mem
    have := lt_of_mem_ownersOf listed
    omega
  have largest : (features.length : ℤ) - 1 ∈ map := by
    obtain ⟨before, split⟩ := List.getLast?_eq_some_iff.mp ends
    obtain ⟨bin, bins, rfl⟩ := List.exists_cons_of_ne_nil some
    refine List.mem_map.mpr ⟨before.length, ?_, by simp [split]⟩
    rw [split, ownersOf_concat]
    simp
  have room : ((features.length : ℤ) - 1 + 1).toNat = features.length := by omega
  rw [binarizeWithMap_ok sizes largest named (by omega), room]
  congr 2
  apply List.ext_getElem
  · simp
  · intro f lt lt'
    rw [List.getElem_map, List.getElem_range, filter_ownersOf, List.getD_eq_getElem _ _ lt']

/-- **The features survive.** What `--just-binarize` writes is read back as the same bins with
the same start offsets; a converter reads printed numbers back, and the counts fit into `int`. -/
theorem features_survive {converter : TConverter} (inverse : converter.Inverse) {label : TBinFeatureSet}
    {n k : ℕ} (batch : 0 < k) (pos : 0 < n) (labelBins : label.bins ≠ [])
    (labelLength : ∀ bin ∈ label.bins, bin.length = n) (few : label.bins.length ≤ 31)
    (length : ∀ bins ∈ features, ∀ bin ∈ bins, bin.length = n) {last : List TBin}
    (ends : features.getLast? = some last) (some : last ≠ [])
    (featureCount : (addFeatures features).getFeatureCount < 2 ^ 31)
    (binCount : (addFeatures features).getBinCount < 2 ^ 31) :
    ∃ poolText mapText pool map, outputPool label (addFeatures features) = .ok poolText ∧
      outputBinFeatureMap (addFeatures features) = .ok mapText ∧
      readPool converter k poolText = .ok pool ∧ readBinToFeatureMapText intMaxSize converter mapText = .ok map ∧
      binarizeWithMap pool.tail map = .ok (addFeatures features) := by
  rw [getFeatureCount_addFeatures] at featureCount
  have bins := bins_addFeatures features
  have owners : (ownersOf features).length < 2 ^ 31 := by
    rwa [length_ownersOf, ← bins]
  have small : ∀ f ∈ ownersOf features, f < 2 ^ 31 := fun f mem =>
    lt_trans (lt_of_mem_ownersOf mem) featureCount
  have binLength : ∀ bin ∈ (addFeatures features).bins, bin.length = n := by
    intro bin mem
    rw [bins] at mem
    obtain ⟨feature, listed, mem⟩ := List.mem_flatten.mp mem
    exact length feature listed bin mem
  obtain ⟨poolText, pool, written, read, columns⟩ := readPool_outputPool inverse batch pos labelBins labelLength few
    binLength
  refine ⟨poolText, _, pool, (ownersOf features).map fun f : ℕ => (f : ℤ), written,
    outputBinFeatureMap_ok features, read, ?_, ?_⟩
  · rw [readBinToFeatureMapText_eq inverse (fun f mem => lt_trans (small f mem) (by simp))
      (le_of_lt (lt_trans owners (by simp)))]
    exact readBinToFeatureMap_mapLines small owners
  · rw [columns, bins]
    exact binarizeWithMap_ownersOf ends some featureCount

theorem decimalConverter_inverse : decimalConverter.Inverse := by
  have digits (n : ℕ) : printDecimal n ≠ [] ∧ (printDecimal n).all Char.isDigit :=
    ⟨Nat.toDigits_ne_nil, List.all_eq_true.mpr fun c mem => Nat.isDigit_of_mem_toDigits (by decide) (by decide) mem⟩
  have value (n : ℕ) : Nat.ofDigitChars 10 (printDecimal n) 0 = n := Nat.ofDigitChars_ten_toDigits
  refine ⟨fun n _ => ?_, fun n fits => ?_⟩
  · rw [decimalConverter]
    simp only [value, if_pos (digits n)]
  · rw [decimalConverter]
    simp only [value]
    exact if_pos ⟨(digits n).1, (digits n).2, fits⟩

/-- Two rows, with an empty feature between two others. -/
theorem features_survive_emptyFeature :
    ∃ poolText mapText pool map,
      outputPool (.ofBins [[true, false]]) (addFeatures [[[true, true]], [], [[false, true]]]) = .ok poolText ∧
      outputBinFeatureMap (addFeatures [[[true, true]], [], [[false, true]]]) = .ok mapText ∧
      readPool decimalConverter 1 poolText = .ok pool ∧
      readBinToFeatureMapText intMaxSize decimalConverter mapText = .ok map ∧
      binarizeWithMap pool.tail map = .ok (addFeatures [[[true, true]], [], [[false, true]]]) :=
  features_survive (n := 2) decimalConverter_inverse (by decide) (by decide) (by decide) (by decide) (by decide)
    (by decide) rfl (by decide) (by simp [getFeatureCount_addFeatures])
    (by simp [TBinFeatureSet.getBinCount, bins_addFeatures])

end Grouping

end Cmicot
