import Cmicot.Binarize
import Cmicot.CachingBinScorer
import Cmicot.Lib.Text
import Mathlib.Data.List.Induction
import Mathlib.Data.List.Perm.Basic

/-!
Reading and writing pools and maps (`io.cpp`).

A pool is a table with one row per line; it is read in batches of lines that are parsed
independently and then joined. How numbers are parsed is left to a converter. Every line of
the map names a feature and a bin. `ReadBinToFeatureMap` fills a vector with one entry per bin
and rejects bins that are named twice or not at all; it checks nothing about the feature
indices, and an entry with the feature -1 passes for an unused one. A vector holds no more than
its `max_size()`, which differs between libraries and is a parameter.

* `foldlM_readMapLine`: how the loop over the lines ends.
* `mem_readBinToFeatureMap`: an accepted map holds exactly the features of its lines.
* `readBinToFeatureMap_exact_iff`: on which lines exactly the maps are accepted.
-/

namespace Cmicot

open Loop Text

/-! ### Pools -/

/-- The parsers of `util/string/cast.h`; nothing is parsed where they throw or return false. -/
structure TConverter where
  tryFromStringDouble : List Char → Option ℚ
  fromStringUi64 : List Char → Option UInt64

/-- `TryFromString(iter.Token(), currentNumber)` for every token of a line. -/
def parseNumbers (converter : TConverter) (line : List Char) (curLine : ℕ) : Except Failure (List ℚ) :=
  (line.splitOn '\t').mapM fun token =>
    match converter.tryFromStringDouble token with
    | some currentNumber => .ok currentNumber
    | none => .error (.notDouble (String.ofList token) curLine)

/-- The loop body of `TBatchParser`. -/
def parseLine (converter : TConverter) (firstLineNo : ℕ) (result : List (List ℚ)) (line : List Char × ℕ) :
    Except Failure (List (List ℚ)) := do
  let numbers ← parseNumbers converter line.1 line.2
  if result ≠ [] ∧ result.length ≠ numbers.length then
    throw (.lineColumns line.2 numbers.length firstLineNo result.length)
  return List.zipWith (fun column x => column ++ [x]) (orEmpty numbers.length result) numbers

/-- `TBatchParser{lines, firstLineNo}()`. -/
def parseBatch (converter : TConverter) (batch : List (List Char) × ℕ) : Except Failure (List (List ℚ)) :=
  (batch.1.zipIdx batch.2).foldlM (parseLine converter batch.2) []

/-- The batches of `ReadPool`: up to `linesInBatch` lines each, with the number of the first. -/
def readBatches (linesInBatch : ℕ) (lines : List (List Char)) (lineNo : ℕ) :
    List (List (List Char) × ℕ) :=
  if _more : lines.take linesInBatch = [] then []
  else
    (lines.take linesInBatch, lineNo) ::
      readBatches linesInBatch (lines.drop linesInBatch) (lineNo + (lines.take linesInBatch).length)
termination_by lines.length
decreasing_by
  rw [List.take_eq_nil_iff, not_or] at _more
  have := List.length_pos_of_ne_nil _more.2
  rw [List.length_drop]
  omega

/-- Appending the columns of a batch to those of the pool. -/
def joinBatch (result data : List (List ℚ)) : Except Failure (List (List ℚ)) :=
  let result := orEmpty data.length result
  if result.length ≠ data.length then .error (.poolColumns result.length data.length)
  else .ok (List.zipWith (· ++ ·) result data)

/-- `ReadPool(in, linesInBatch, queue)`: the columns of the pool. -/
def readPool (converter : TConverter) (linesInBatch : ℕ) (text : List Char) :
    Except Failure (List (List ℚ)) :=
  (readBatches linesInBatch (readLines text) 1).foldlM
    (fun result batch => do joinBatch result (← parseBatch converter batch)) []

/-- `bin[line]`. -/
def rowBit (bin : TBin) (line : ℕ) : Except Failure Bool :=
  match bin[line]? with
  | some bit => .ok bit
  | none => .error .rowRange

/-- One line of `OutputPool`. -/
def outputRow (features : TBinFeatureSet) (value : UInt64) (line : ℕ) : Except Failure (List Char) := do
  let bits ← features.allBins.mapM fun bin => rowBit bin line
  return printDecimal value.toNat ++ (bits.map fun bit => '\t' :: printDecimal bit.toNat).flatten

/-- `OutputPool(label, features, out)`: the text that is written. -/
def outputPool (label features : TBinFeatureSet) : Except Failure (List Char) := do
  let labelValues ← uniteLabelBins label.allBins
  let lines ← labelValues.zipIdx.mapM fun entry => outputRow features entry.1 entry.2
  return unlines lines

/-! ### Maps -/

/-- The text of `OutputBinFeatureMap` so far and `globalBinIndex`, after one more bin. -/
def outputMapLine (featureIndex : ℕ) (st : List Char × ℕ) : List Char × ℕ :=
  (st.1 ++ (printDecimal featureIndex ++ '\t' :: printDecimal st.2 ++ ['\n']), st.2 + 1)

/-- `OutputBinFeatureMap(features, out)`: the text that is written. -/
def outputBinFeatureMap (features : TBinFeatureSet) : Except Failure (List Char) := do
  let st ← (List.range features.getFeatureCount).foldlM
    (fun st featureIndex => do
      let bins ← features.getFeature featureIndex
      return bins.foldl (fun st _ => outputMapLine featureIndex st) st) ([], 0)
  return st.1

/-- `IsStdDelimiter(c)`. -/
def isStdDelimiter (c : Char) : Bool := c = '\x00' || c = ' ' || c = '\r' || c = '\n' || c = '\t'

/-- `in >> number`: delimiters are skipped, at most 127 characters make the token, and the
character behind it is consumed. -/
def readUi64 (converter : TConverter) (text : List Char) : Except Failure (UInt64 × List Char) :=
  let text := text.dropWhile isStdDelimiter
  let token := (text.takeWhile fun c => !isStdDelimiter c).take 127
  match converter.fromStringUi64 token with
  | some number => .ok (number, text.drop (token.length + 1))
  | none => .error (.notUi64 (String.ofList token))

/-- `si >> featureIndex >> binIndex`. -/
def parseMapLine (converter : TConverter) (line : List Char) : Except Failure (UInt64 × UInt64) := do
  let (featureIndex, rest) ← readUi64 converter line
  let (binIndex, _) ← readUi64 converter rest
  return (featureIndex, binIndex)

/-- `constexpr int uninitialized = -1`. -/
def uninitialized : ℤ := -1

/-- The conversion of `ui64` to `int`. -/
def toInt (value : UInt64) : ℤ := Int.bmod value.toNat (2 ^ 32)

/-- `vector<int>::max_size()` of the library in `contrib`: a `size_t` of bytes, four to an `int`. -/
def intMaxSize : ℕ := (2 ^ 64 - 1) / 4

/-- `result.resize(binIndex + 1, uninitialized)` if there is no entry yet; a size beyond
`result.max_size()` throws. -/
def resizeMap (maxSize : ℕ) (result : List ℤ) (binIndex : UInt64) : Except Failure (List ℤ) :=
  if result.length ≤ binIndex.toNat then
    if maxSize < (binIndex + 1).toNat then .error .lengthError
    else .ok (resize result (binIndex + 1).toNat uninitialized)
  else .ok result

/-- The loop body of `ReadBinToFeatureMap`, after a feature and a bin were parsed. -/
def readMapLine (maxSize : ℕ) (result : List ℤ) (line : UInt64 × UInt64) : Except Failure (List ℤ) := do
  let binIndex := line.2.toNat
  let result ← resizeMap maxSize result line.2
  match result[binIndex]? with
  | none => .error .mapRange
  | some entry =>
    if entry ≠ uninitialized then .error (.binTwice binIndex)
    else .ok (result.set binIndex (toInt line.1))

/-- `ReadBinToFeatureMap(in)`, on the lines as pairs of a feature and a bin. -/
def readBinToFeatureMap (maxSize : ℕ) (lines : List (UInt64 × UInt64)) : Except Failure (List ℤ) := do
  let result ← lines.foldlM (readMapLine maxSize) []
  let missing := result.idxOf uninitialized
  if missing < result.length then throw (.binMissing missing)
  return result

/-- `ReadBinToFeatureMap(in)` on a text; a line is parsed when its turn comes. -/
def readBinToFeatureMapText (maxSize : ℕ) (converter : TConverter) (text : List Char) :
    Except Failure (List ℤ) := do
  let result ← (readLines text).foldlM
    (fun result line => do readMapLine maxSize result (← parseMapLine converter line)) []
  let missing := result.idxOf uninitialized
  if missing < result.length then throw (.binMissing missing)
  return result

/-! ### Which maps are accepted -/

section Exact

variable {maxSize : ℕ} {lines done : List (UInt64 × UInt64)} {line : UInt64 × UInt64} {map result : List ℤ}

theorem toInt_of_lt {value : UInt64} (small : value.toNat < 2 ^ 31) : toInt value = value.toNat := by
  unfold toInt
  exact Int.bmod_eq_of_le (by omega) (by omega)

/-- What the vector holds for a bin after these lines: the feature of the last line that
names it, converted to `int`. -/
def entryOf (lines : List (UInt64 × UInt64)) (bin : UInt64) : ℤ :=
  (((lines.filter fun line => line.2 = bin).getLast?).map fun line => toInt line.1).getD uninitialized

/-- No line names a bin whose entry looks used. -/
def NeverTwice (lines : List (UInt64 × UInt64)) : Prop :=
  ∀ done line rest, lines = done ++ line :: rest → entryOf done line.2 = uninitialized

/-- The vector has an entry for the bin: its successor does not wrap to 0, and the vector may have that size. -/
def FitsMap (maxSize : ℕ) (bin : UInt64) : Prop := bin + 1 ≠ 0 ∧ bin.toNat < maxSize

/-- All lines are written into the vector. -/
def Written (maxSize : ℕ) (lines : List (UInt64 × UInt64)) : Prop :=
  NeverTwice lines ∧ ∀ line ∈ lines, FitsMap maxSize line.2

/-- A line names the bin 2^64 - 1, whose successor wraps to 0, and all lines before it were written. -/
def Overruns (maxSize : ℕ) (lines : List (UInt64 × UInt64)) : Prop :=
  ∃ done line rest, lines = done ++ line :: rest ∧ line.2 + 1 = 0 ∧ Written maxSize done

theorem entryOf_concat (bin : UInt64) :
    entryOf (done ++ [line]) bin = if line.2 = bin then toInt line.1 else entryOf done bin := by
  unfold entryOf
  rw [List.filter_append]
  split
  case isTrue same =>
    rw [List.filter_singleton, decide_eq_true same, cond_true, List.getLast?_concat,
      Option.map_some, Option.getD_some]
  case isFalse other =>
    rw [List.filter_singleton, decide_eq_false other, cond_false, List.append_nil]

/-- A line of an extended list is the new one or one of the others. -/
theorem split_concat {α : Type} {xs done rest : List α} {x y : α} (split : xs ++ [x] = done ++ y :: rest) :
    done = xs ∧ y = x ∨ ∃ rest', xs = done ++ y :: rest' := by
  cases rest using List.reverseRecOn with
  | nil =>
    obtain ⟨same, last⟩ := List.append_inj' split rfl
    exact .inl ⟨same.symm, (List.cons.inj last).1.symm⟩
  | append_singleton rest z =>
    rw [← List.cons_append, ← List.append_assoc] at split
    exact .inr ⟨rest, (List.append_inj' split rfl).1⟩

theorem neverTwice_concat :
    NeverTwice (done ++ [line]) ↔ NeverTwice done ∧ entryOf done line.2 = uninitialized := by
  constructor
  · intro free
    refine ⟨fun before other rest split => ?_, free done line [] rfl⟩
    exact free before other (rest ++ [line]) (by rw [split, List.append_assoc, List.cons_append])
  · rintro ⟨free, last⟩ before other rest split
    rcases split_concat split with ⟨rfl, rfl⟩ | ⟨rest', split'⟩
    · exact last
    · exact free before other rest' split'

theorem written_concat :
    Written maxSize (done ++ [line]) ↔
      Written maxSize done ∧ FitsMap maxSize line.2 ∧ entryOf done line.2 = uninitialized := by
  rw [Written, neverTwice_concat, Written, List.forall_mem_append, List.forall_mem_singleton]
  tauto

/-- The vector after these lines. -/
structure Table (lines : List (UInt64 × UInt64)) (result : List ℤ) : Prop where
  size : ∀ b : ℕ, b < result.length ↔ ∃ line ∈ lines, b ≤ line.2.toNat
  entries : ∀ b : UInt64, b.toNat < result.length → result[b.toNat]? = some (entryOf lines b)

theorem entryOf_of_unnamed {bin : UInt64} (unnamed : ∀ line ∈ lines, line.2 ≠ bin) :
    entryOf lines bin = uninitialized := by
  have none : (lines.filter fun line => line.2 = bin) = [] :=
    List.filter_eq_nil_iff.mpr fun line mem => by simpa using unnamed line mem
  rw [entryOf, none]
  rfl

/-- The vector that is written to, with an entry for the bin of the line. -/
def grown (result : List ℤ) (bin : UInt64) : List ℤ :=
  if result.length ≤ bin.toNat then resize result (bin + 1).toNat uninitialized else result

theorem toNat_add_one {bin : UInt64} (fits : bin + 1 ≠ 0) : (bin + 1).toNat = bin.toNat + 1 := by
  have lt := bin.toNat_lt
  have ne : (bin + 1).toNat ≠ 0 := fun zero => fits (UInt64.toNat_inj.mp zero)
  rw [UInt64.toNat_add] at ne ⊢
  simp only [UInt64.reduceToNat] at ne ⊢
  omega

theorem toNat_of_wraps {bin : UInt64} (wraps : bin + 1 = 0) : bin.toNat = 2 ^ 64 - 1 := by
  have zero := congrArg UInt64.toNat wraps
  have lt := bin.toNat_lt
  rw [UInt64.toNat_add] at zero
  simp only [UInt64.reduceToNat, UInt64.toNat_zero] at zero
  omega

theorem Table.length_le (table : Table done result) (written : Written maxSize done) :
    result.length ≤ maxSize ∧ result.length < 2 ^ 64 := by
  constructor <;> by_contra large
  · obtain ⟨line, mem, le⟩ := (table.size maxSize).mp (by omega)
    have := (written.2 line mem).2
    omega
  · obtain ⟨line, mem, le⟩ := (table.size (2 ^ 64 - 1)).mp (by omega)
    have next := toNat_add_one (written.2 line mem).1
    have := (line.2 + 1).toNat_lt
    omega

theorem Table.grown (table : Table done result) {bin : UInt64} (fits : bin + 1 ≠ 0) :
    (∀ b : ℕ, b < (grown result bin).length ↔ b ≤ bin.toNat ∨ ∃ line ∈ done, b ≤ line.2.toNat) ∧
      ∀ b : UInt64, b.toNat < (Cmicot.grown result bin).length →
        (Cmicot.grown result bin)[b.toNat]? = some (entryOf done b) := by
  unfold Cmicot.grown
  split
  case isFalse inside =>
    refine ⟨fun b => ?_, table.entries⟩
    rw [table.size]
    refine ⟨.inr, fun named => named.elim (fun le => ?_) id⟩
    exact (table.size b).mp (by omega)
  case isTrue outside =>
    rw [toNat_add_one fits]
    have shape : resize result (bin.toNat + 1) uninitialized =
        result ++ List.replicate (bin.toNat + 1 - result.length) uninitialized := by
      rw [resize, List.take_of_length_le (by omega)]
    rw [shape]
    refine ⟨fun b => ?_, fun b lt => ?_⟩
    · rw [List.length_append, List.length_replicate, ← table.size]
      omega
    · rw [List.length_append, List.length_replicate] at lt
      rcases Nat.lt_or_ge b.toNat result.length with before | behind
      · rw [List.getElem?_append_left before, table.entries b before]
      · have unnamed : ∀ line ∈ done, line.2 ≠ b := by
          rintro line mem rfl
          have := (table.size line.2.toNat).mpr ⟨line, mem, le_rfl⟩
          omega
        rw [List.getElem?_append_right behind, List.getElem?_replicate, if_pos (by omega),
          entryOf_of_unnamed unnamed]

/-- A bin whose entry looks unused is written, one whose entry looks used is refused. -/
theorem Table.readMapLine (table : Table done result) (fits : FitsMap maxSize line.2) :
    (entryOf done line.2 = uninitialized →
        ∃ result', readMapLine maxSize result line = .ok result' ∧ Table (done ++ [line]) result') ∧
      (entryOf done line.2 ≠ uninitialized →
        Cmicot.readMapLine maxSize result line = .error (.binTwice line.2.toNat)) := by
  obtain ⟨size, entries⟩ := table.grown fits.1
  have inside : line.2.toNat < (Cmicot.grown result line.2).length := (size _).mpr (.inl le_rfl)
  have at_bin := entries line.2 inside
  have resized : resizeMap maxSize result line.2 = .ok (Cmicot.grown result line.2) := by
    have room : ¬ maxSize < (line.2 + 1).toNat := by
      have := fits.2
      rw [toNat_add_one fits.1]
      omega
    rw [Cmicot.grown, resizeMap, if_neg room]
    split <;> rfl
  have unfolded : Cmicot.readMapLine maxSize result line =
      if entryOf done line.2 ≠ uninitialized then .error (.binTwice line.2.toNat)
      else .ok ((Cmicot.grown result line.2).set line.2.toNat (toInt line.1)) := by
    simp only [Cmicot.readMapLine, resized, ok_bind, at_bin]
  constructor
  · intro free
    refine ⟨_, unfolded.trans (if_neg (not_not.mpr free)), ?_, ?_⟩
    · intro b
      rw [List.length_set, size]
      simp only [List.mem_append, List.mem_singleton]
      constructor
      · rintro (le | ⟨other, mem, le⟩)
        · exact ⟨line, .inr rfl, le⟩
        · exact ⟨other, .inl mem, le⟩
      · rintro ⟨other, mem | rfl, le⟩
        · exact .inr ⟨other, mem, le⟩
        · exact .inl le
    · intro b lt
      rw [List.length_set] at lt
      rw [entryOf_concat]
      split
      case isTrue same => rw [← same, List.getElem?_set_self inside]
      case isFalse other =>
        rw [List.getElem?_set_ne (fun same => other (UInt64.toNat_inj.mp same)), entries b lt]
  · intro used
    exact unfolded.trans (if_pos used)

/-- The bin 2^64 - 1 leaves no entry to read, and a larger vector than there can be is refused. -/
theorem Table.readMapLine_of_not_fits (table : Table done result) (written : Written maxSize done)
    (line : UInt64 × UInt64) :
    (line.2 + 1 = 0 → Cmicot.readMapLine maxSize result line = .error .mapRange) ∧
      (line.2 + 1 ≠ 0 → maxSize ≤ line.2.toNat → Cmicot.readMapLine maxSize result line = .error .lengthError) := by
  obtain ⟨short, _⟩ := table.length_le written
  constructor
  · intro wraps
    have outside : result.length ≤ line.2.toNat := by
      rw [toNat_of_wraps wraps]
      omega
    simp [Cmicot.readMapLine, resizeMap, outside, wraps, resize, ok_bind]
  · intro fits large
    have outside : result.length ≤ line.2.toNat := by omega
    have beyond : maxSize < (line.2 + 1).toNat := by
      rw [toNat_add_one fits]
      omega
    simp only [Cmicot.readMapLine, if_pos outside, resizeMap, if_pos beyond]
    rfl

/-- The three ways in which a line that follows written ones ends the loop. -/
def EndsMap (maxSize : ℕ) (done : List (UInt64 × UInt64)) (line : UInt64 × UInt64) : Failure → Prop
  | .mapRange => line.2 + 1 = 0
  | .lengthError => line.2 + 1 ≠ 0 ∧ maxSize ≤ line.2.toNat
  | .binTwice bin => FitsMap maxSize line.2 ∧ entryOf done line.2 ≠ uninitialized ∧ bin = line.2.toNat
  | _ => False

theorem Table.readMapLine_of_ends (table : Table done result) (written : Written maxSize done) {e : Failure}
    (ends : EndsMap maxSize done line e) : Cmicot.readMapLine maxSize result line = .error e := by
  obtain ⟨overruns, tooLong⟩ := table.readMapLine_of_not_fits written line
  cases e with
  | mapRange => exact overruns ends
  | lengthError => exact tooLong ends.1 ends.2
  | binTwice bin =>
    obtain ⟨fits, used, rfl⟩ := ends
    exact (table.readMapLine fits).2 used
  | _ => exact ends.elim

/-- **One more line** is written, or ends the loop. -/
theorem Table.step (table : Table done result) (written : Written maxSize done) (line : UInt64 × UInt64) :
    (Written maxSize (done ++ [line]) ∧
        ∃ result', Cmicot.readMapLine maxSize result line = .ok result' ∧ Table (done ++ [line]) result') ∨
      ∃ e, EndsMap maxSize done line e := by
  by_cases wraps : line.2 + 1 = 0
  · exact .inr ⟨.mapRange, wraps⟩
  by_cases small : line.2.toNat < maxSize
  · by_cases free : entryOf done line.2 = uninitialized
    · exact .inl ⟨written_concat.mpr ⟨written, ⟨wraps, small⟩, free⟩, (table.readMapLine ⟨wraps, small⟩).1 free⟩
    · exact .inr ⟨.binTwice line.2.toNat, ⟨wraps, small⟩, free, rfl⟩
  · exact .inr ⟨.lengthError, wraps, not_lt.mp small⟩

theorem Table.readMapLine_error_iff (table : Table done result) (written : Written maxSize done) {e : Failure} :
    Cmicot.readMapLine maxSize result line = .error e ↔ EndsMap maxSize done line e := by
  refine ⟨fun failed => ?_, table.readMapLine_of_ends written⟩
  rcases table.step written line with ⟨-, _, ran, -⟩ | ⟨e', ends⟩
  · cases ran.symm.trans failed
  · cases (table.readMapLine_of_ends written ends).symm.trans failed
    exact ends

/-- **How the loop ends**: with the vector of the lines, or at the first line that cannot be written. -/
theorem foldlM_readMapLine (maxSize : ℕ) (lines : List (UInt64 × UInt64)) :
    (Written maxSize lines ∧
        ∃ result, lines.foldlM (Cmicot.readMapLine maxSize) [] = .ok result ∧ Table lines result) ∨
      ∃ done line rest e, lines = done ++ line :: rest ∧ Written maxSize done ∧ EndsMap maxSize done line e ∧
        lines.foldlM (Cmicot.readMapLine maxSize) [] = .error e := by
  induction lines using List.reverseRecOn with
  | nil =>
    refine .inl ⟨⟨fun done line rest split => ?_, by simp⟩, [], rfl, by simp, by simp⟩
    exact absurd split (by simp)
  | append_singleton lines line ih =>
    have step : (lines ++ [line]).foldlM (Cmicot.readMapLine maxSize) [] =
        (lines.foldlM (Cmicot.readMapLine maxSize) [] >>= fun result => Cmicot.readMapLine maxSize result line) := by
      simp only [List.foldlM_append, List.foldlM_cons, List.foldlM_nil, bind_pure]
    rw [step]
    rcases ih with ⟨written, result, folded, table⟩ | ⟨done, other, rest, e, split, written, ends, folded⟩
    · rw [folded, ok_bind]
      rcases table.step written line with ⟨more, written'⟩ | ⟨e, ends⟩
      · exact .inl ⟨more, written'⟩
      · exact .inr ⟨lines, line, [], e, rfl, written, ends, table.readMapLine_of_ends written ends⟩
    · rw [folded]
      exact .inr ⟨done, other, rest ++ [line], e, by rw [split, List.append_assoc, List.cons_append],
        written, ends, rfl⟩

/-- The prefixes of written lines are written. -/
theorem Written.of_append {rest : List (UInt64 × UInt64)} (written : Written maxSize (done ++ rest)) :
    Written maxSize done :=
  ⟨fun before line after split => written.1 before line (after ++ rest) (by rw [split, List.append_assoc,
    List.cons_append]), fun line mem => written.2 line (List.mem_append_left _ mem)⟩

/-- A line that ends the loop is not written. -/
theorem EndsMap.not_written {e : Failure} (ends : EndsMap maxSize done line e) :
    ¬ Written maxSize (done ++ [line]) := by
  rw [written_concat]
  rintro ⟨-, ⟨wraps, small⟩, free⟩
  cases e <;> simp only [EndsMap] at ends
  case mapRange => exact wraps ends
  case lengthError => omega
  case binTwice bin => exact ends.2.1 free

theorem foldlM_readMapLine_ok (written : Written maxSize lines) :
    ∃ result, lines.foldlM (Cmicot.readMapLine maxSize) [] = .ok result ∧ Table lines result := by
  rcases foldlM_readMapLine maxSize lines with ⟨-, ran⟩ | ⟨done, line, rest, e, split, -, ends, -⟩
  · exact ran
  · refine absurd (@Written.of_append maxSize _ rest ?_) ends.not_written
    rwa [List.append_assoc, List.singleton_append, ← split]

theorem of_foldlM_readMapLine (folded : lines.foldlM (Cmicot.readMapLine maxSize) [] = .ok result) :
    Written maxSize lines ∧ Table lines result := by
  rcases foldlM_readMapLine maxSize lines with ⟨written, other, folded', table⟩ | ⟨_, _, _, _, -, -, -, failed⟩
  · cases folded.symm.trans folded'
    exact ⟨written, table⟩
  · cases folded.symm.trans failed

/-- Every bin up to one that is named holds a feature. -/
def Gapless (lines : List (UInt64 × UInt64)) : Prop :=
  ∀ line ∈ lines, ∀ b ≤ line.2, entryOf lines b ≠ uninitialized

theorem Table.gapless_iff (table : Table lines result) : Gapless lines ↔ uninitialized ∉ result := by
  constructor
  · intro gapless mem
    obtain ⟨j, at_j⟩ := List.mem_iff_getElem?.mp mem
    have lt := (List.getElem?_eq_some_iff.mp at_j).1
    obtain ⟨line, named, le⟩ := (table.size j).mp lt
    have index : (UInt64.ofNat j).toNat = j :=
      UInt64.toNat_ofNat_of_lt' (lt_of_le_of_lt le line.2.toNat_lt)
    have entry := table.entries (.ofNat j) (by rwa [index])
    rw [index, at_j] at entry
    exact gapless line named (.ofNat j) (UInt64.le_iff_toNat_le.mpr (by rwa [index])) (Option.some.inj entry).symm
  · intro used line named b le unused
    have lt := (table.size b.toNat).mpr ⟨line, named, UInt64.le_iff_toNat_le.mp le⟩
    exact used (List.mem_iff_getElem?.mpr ⟨b.toNat, by rw [table.entries b lt, unused]⟩)

/-- What an accepted map has passed. -/
theorem of_readBinToFeatureMap (read : readBinToFeatureMap maxSize lines = .ok map) :
    Written maxSize lines ∧ Gapless lines ∧ Table lines map := by
  obtain ⟨result, folded, rest⟩ := bind_eq_ok.mp read
  obtain ⟨complete, last⟩ := guard_eq_ok.mp rest
  cases last
  obtain ⟨written, table⟩ := of_foldlM_readMapLine folded
  exact ⟨written, table.gapless_iff.mpr fun mem => complete (List.idxOf_lt_length_iff.mpr mem), table⟩

theorem readBinToFeatureMap_ok (written : Written maxSize lines) (gapless : Gapless lines) :
    ∃ map, readBinToFeatureMap maxSize lines = .ok map := by
  obtain ⟨result, folded, table⟩ := foldlM_readMapLine_ok written
  have complete : ¬ result.idxOf uninitialized < result.length := fun lt =>
    table.gapless_iff.mp gapless (List.idxOf_lt_length_iff.mp lt)
  exact ⟨result, by simp only [readBinToFeatureMap, folded, ok_bind, if_neg complete, pure_eq_ok]⟩

theorem readBinToFeatureMap_mapRange_iff :
    readBinToFeatureMap maxSize lines = .error .mapRange ↔ Overruns maxSize lines := by
  constructor
  · intro failed
    rcases foldlM_readMapLine maxSize lines with
      ⟨-, result, folded, -⟩ | ⟨done, line, rest, e, split, written, ends, folded⟩
    · simp only [readBinToFeatureMap, folded, ok_bind] at failed
      split at failed <;> cases failed
    · rw [readBinToFeatureMap, folded] at failed
      cases failed
      exact ⟨done, line, rest, split, ends, written⟩
  · rintro ⟨done, line, rest, rfl, wraps, written⟩
    obtain ⟨result, folded, table⟩ := foldlM_readMapLine_ok written
    rw [readBinToFeatureMap, List.foldlM_append, folded, ok_bind, List.foldlM_cons,
      (table.readMapLine_of_not_fits written line).1 wraps]
    rfl

/-! ### Maps that are what they should be -/

/-- The bins are numbered from 0 without gaps, and the features fit into an `int`. -/
structure ValidLines (lines : List (UInt64 × UInt64)) : Prop where
  bins : (lines.map fun line => line.2.toNat).Perm (List.range lines.length)
  fits : ∀ line ∈ lines, line.1.toNat < 2 ^ 31

/-- Features that fit are never taken for an unused entry. -/
theorem entryOf_eq_uninitialized_iff (fits : ∀ line ∈ lines, line.1.toNat < 2 ^ 31) {bin : UInt64} :
    entryOf lines bin = uninitialized ↔ ∀ line ∈ lines, line.2 ≠ bin := by
  refine ⟨fun unused line mem same => ?_, entryOf_of_unnamed⟩
  have some : (lines.filter fun line => line.2 = bin) ≠ [] :=
    List.ne_nil_of_mem (List.mem_filter.mpr ⟨mem, decide_eq_true same⟩)
  have last := List.mem_of_mem_filter (List.getLast_mem some)
  rw [entryOf, List.getLast?_eq_some_getLast some, Option.map_some, Option.getD_some,
    toInt_of_lt (fits _ last)] at unused
  unfold uninitialized at unused
  omega

theorem neverTwice_iff (fits : ∀ line ∈ lines, line.1.toNat < 2 ^ 31) :
    NeverTwice lines ↔ (lines.map fun line => line.2.toNat).Nodup := by
  induction lines using List.reverseRecOn with
  | nil => exact ⟨fun _ => List.nodup_nil, fun _ done line rest split => by simp at split⟩
  | append_singleton done line ih =>
    have before : ∀ line ∈ done, line.1.toNat < 2 ^ 31 := fun other mem => fits other (by simp [mem])
    rw [neverTwice_concat, ih before, entryOf_eq_uninitialized_iff before, List.map_append, List.nodup_append]
    simp only [List.map_cons, List.map_nil, List.nodup_singleton, List.mem_singleton, List.mem_map, true_and,
      forall_eq, forall_exists_index, and_imp, forall_apply_eq_imp_iff₂, ne_eq, UInt64.toNat_inj]

theorem gapless_iff_named (fits : ∀ line ∈ lines, line.1.toNat < 2 ^ 31) :
    Gapless lines ↔ ∀ line ∈ lines, ∀ b ≤ line.2.toNat, b ∈ lines.map fun line => line.2.toNat := by
  simp only [Gapless, ne_eq, entryOf_eq_uninitialized_iff fits, not_forall, not_not, exists_prop, List.mem_map]
  refine forall₂_congr fun line mem => ⟨fun all b le => ?_, fun all b le => ?_⟩
  · have index : (UInt64.ofNat b).toNat = b :=
      UInt64.toNat_ofNat_of_lt' (lt_of_le_of_lt le line.2.toNat_lt)
    obtain ⟨other, named, same⟩ := all (.ofNat b) (UInt64.le_iff_toNat_le.mpr (by rwa [index]))
    exact ⟨other, named, by rw [same, index]⟩
  · obtain ⟨other, named, same⟩ := all b.toNat (UInt64.le_iff_toNat_le.mp le)
    exact ⟨other, named, UInt64.toNat_inj.mp same⟩

/-- Distinct bins without gaps are numbered from 0. -/
theorem validLines_of_gapless (free : NeverTwice lines) (gapless : Gapless lines)
    (fits : ∀ line ∈ lines, line.1.toNat < 2 ^ 31) : ValidLines lines := by
  set bins := lines.map fun line => line.2.toNat with bins_eq
  have perm : bins.Perm (List.range (bins.toFinset.sup (· + 1))) := by
    refine (List.perm_ext_iff_of_nodup ((neverTwice_iff fits).mp free) List.nodup_range).mpr fun b => ?_
    rw [List.mem_range, Finset.lt_sup_iff]
    simp only [List.mem_toFinset, Nat.lt_succ_iff]
    refine ⟨fun mem => ⟨b, mem, le_rfl⟩, ?_⟩
    rintro ⟨top, mem, le⟩
    obtain ⟨line, named, rfl⟩ := List.mem_map.mp mem
    exact (gapless_iff_named fits).mp gapless line named b le
  have length : lines.length = bins.toFinset.sup (· + 1) := by
    simpa [bins_eq] using perm.length_eq
  exact ⟨by rwa [length], fits⟩

theorem ValidLines.neverTwice (valid : ValidLines lines) : NeverTwice lines :=
  (neverTwice_iff valid.fits).mpr (valid.bins.nodup_iff.mpr List.nodup_range)

theorem ValidLines.gapless (valid : ValidLines lines) : Gapless lines := by
  refine (gapless_iff_named valid.fits).mpr fun line mem b le => ?_
  have top := valid.bins.mem_iff.mp (List.mem_map_of_mem (f := fun line => line.2.toNat) mem)
  exact valid.bins.mem_iff.mpr (List.mem_range.mpr (lt_of_le_of_lt le (List.mem_range.mp top)))

/-- The map of valid lines. -/
structure IsMap (lines : List (UInt64 × UInt64)) (map : List ℤ) : Prop where
  size : map.length = lines.length
  entries : ∀ line ∈ lines, map[line.2.toNat]? = some (line.1.toNat : ℤ)

theorem ValidLines.entryOf (valid : ValidLines lines) (mem : line ∈ lines) :
    entryOf lines line.2 = line.1.toNat := by
  have some : (lines.filter fun other => other.2 = line.2) ≠ [] :=
    List.ne_nil_of_mem (List.mem_filter.mpr ⟨mem, decide_eq_true rfl⟩)
  obtain ⟨listed, named⟩ := List.mem_filter.mp (List.getLast_mem some)
  have same := List.inj_on_of_nodup_map (valid.bins.nodup_iff.mpr List.nodup_range) listed mem
    (by rw [of_decide_eq_true named])
  rw [Cmicot.entryOf, List.getLast?_eq_some_getLast some, same, Option.map_some, Option.getD_some,
    toInt_of_lt (valid.fits line mem)]

theorem Table.isMap (table : Table lines map) (valid : ValidLines lines) : IsMap lines map := by
  refine ⟨?_, fun line mem => ?_⟩
  · have size : ∀ b, b < map.length ↔ b < lines.length := fun b => by
      rw [table.size, ← List.mem_range, ← valid.bins.mem_iff, List.mem_map]
      constructor
      · rintro ⟨line, mem, le⟩
        exact List.mem_map.mp ((gapless_iff_named valid.fits).mp valid.gapless line mem b le)
      · rintro ⟨line, mem, rfl⟩
        exact ⟨line, mem, le_rfl⟩
    exact le_antisymm (le_of_forall_lt fun b => (size b).mp) (le_of_forall_lt fun b => (size b).mpr)
  · rw [table.entries line.2 ((table.size _).mpr ⟨line, mem, le_rfl⟩), valid.entryOf mem]

/-- An accepted map whose features fit is a map. -/
theorem isMap_of_readBinToFeatureMap (read : readBinToFeatureMap maxSize lines = .ok map)
    (fits : ∀ line ∈ lines, line.1.toNat < 2 ^ 31) : ValidLines lines ∧ IsMap lines map := by
  obtain ⟨written, gapless, table⟩ := of_readBinToFeatureMap read
  have valid := validLines_of_gapless written.1 gapless fits
  exact ⟨valid, table.isMap valid⟩

/-- **An accepted map holds exactly the features of its lines.** -/
theorem mem_readBinToFeatureMap (fits : ∀ line ∈ lines, line.1.toNat < 2 ^ 31)
    (read : readBinToFeatureMap maxSize lines = .ok map) (f : ℤ) :
    f ∈ map ↔ ∃ line ∈ lines, f = line.1.toNat := by
  obtain ⟨valid, isMap⟩ := isMap_of_readBinToFeatureMap read fits
  constructor
  · intro mem
    obtain ⟨j, at_j⟩ := List.mem_iff_getElem?.mp mem
    have lt := (List.getElem?_eq_some_iff.mp at_j).1
    obtain ⟨line, named, rfl⟩ := List.mem_map.mp
      (valid.bins.mem_iff.mpr (List.mem_range.mpr (isMap.size ▸ lt)))
    rw [isMap.entries line named] at at_j
    exact ⟨line, named, (Option.some.inj at_j).symm⟩
  · rintro ⟨line, named, rfl⟩
    exact List.mem_of_getElem? (isMap.entries line named)

/-- **When exactly the maps are accepted.** No line may name the bin 2^64 - 1 while all lines before it are written,
and in lines that the loop takes for a complete map the features fit into an `int` exactly if the bins fit into the
vector. -/
theorem readBinToFeatureMap_exact_iff :
    ((∀ map, readBinToFeatureMap maxSize lines = .ok map → ValidLines lines ∧ IsMap lines map) ∧
        (ValidLines lines → ∃ map, readBinToFeatureMap maxSize lines = .ok map) ∧
        readBinToFeatureMap maxSize lines ≠ .error .mapRange) ↔
      (∀ done line rest, lines = done ++ line :: rest → line.2 + 1 = 0 → ¬ Written maxSize done) ∧
        (NeverTwice lines → Gapless lines →
          ((∀ line ∈ lines, FitsMap maxSize line.2) ↔ ∀ line ∈ lines, line.1.toNat < 2 ^ 31)) := by
  have overruns : (∀ done line rest, lines = done ++ line :: rest → line.2 + 1 = 0 → ¬ Written maxSize done) ↔
      ¬ Overruns maxSize lines := by
    simp only [Overruns, not_exists, not_and]
  rw [overruns, ne_eq, readBinToFeatureMap_mapRange_iff]
  constructor
  · rintro ⟨sound, complete, past⟩
    refine ⟨past, fun free gapless => ⟨fun room => ?_, fun fits => ?_⟩⟩
    · obtain ⟨map, read⟩ := readBinToFeatureMap_ok ⟨free, room⟩ gapless
      exact (sound map read).1.fits
    · obtain ⟨map, read⟩ := complete (validLines_of_gapless free gapless fits)
      exact (of_readBinToFeatureMap read).1.2
  · rintro ⟨past, fits⟩
    refine ⟨fun map read => ?_, fun valid => ?_, past⟩
    · obtain ⟨written, gapless, -⟩ := of_readBinToFeatureMap read
      exact isMap_of_readBinToFeatureMap read ((fits written.1 gapless).mp written.2)
    · have room := (fits valid.neverTwice valid.gapless).mpr valid.fits
      exact readBinToFeatureMap_ok ⟨valid.neverTwice, room⟩ valid.gapless

/-- A bin named twice, a feature that does not fit, and the largest bin. -/
theorem readBinToFeatureMap_inexact :
    (readBinToFeatureMap intMaxSize [(4294967295, 0), (0, 0)] = .ok [0] ∧
        ¬ ValidLines [(4294967295, 0), (0, 0)]) ∧
      (readBinToFeatureMap intMaxSize [(2147483648, 0)] = .ok [-2147483648] ∧ ¬ ValidLines [(2147483648, 0)]) ∧
      readBinToFeatureMap intMaxSize [(0, 18446744073709551615)] = .error .mapRange := by
  refine ⟨⟨by decide +kernel, fun valid => ?_⟩, ⟨by decide +kernel, fun valid => ?_⟩, ?_⟩
  · exact absurd (valid.fits (4294967295, 0) List.mem_cons_self) (by decide +kernel)
  · exact absurd (valid.fits (2147483648, 0) List.mem_cons_self) (by decide +kernel)
  · refine readBinToFeatureMap_mapRange_iff.mpr ⟨[], (0, 18446744073709551615), [], rfl, rfl, ?_, by simp⟩
    exact fun done line rest split => absurd split (by simp)

/-- A bin beyond the largest vector ends the loop before the bin 2^64 - 1 is read. -/
example : readBinToFeatureMap intMaxSize [(0, 9223372036854775808), (0, 18446744073709551615)] =
    .error .lengthError := by
  decide +kernel

end Exact

end Cmicot
