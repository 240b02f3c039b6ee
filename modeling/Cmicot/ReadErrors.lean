import Cmicot.RoundTrip

/-!
What the errors of `ReadPool` and `ReadBinToFeatureMap` say (`io.cpp`).

A pool is checked in batches, each against its own first line, and then the batches against the first
one. An error therefore names a token in a line, or two lines of one batch, or two widths. A map is checked
line by line, and for gaps at the end.

* `readPool_error_iff`: what is wrong with the lines of which batch, for each error of the pool.
* `readBinToFeatureMapText_error_iff`: the same for the map.
-/

namespace Cmicot

open Loop Text

/-! ### Definitions -/

section Names

variable (maxSize k : ℕ) (converter : TConverter)

/-- All tokens of the line parse. -/
def Parses (line : List Char) : Prop := ∀ token ∈ line.splitOn '\t', (converter.tryFromStringDouble token).isSome

/-- How many numbers stand in the line. -/
def columnCount (line : List Char) : ℕ := (line.splitOn '\t').length

/-- The first token of the line that does not parse. -/
def IsBadToken (line : List Char) (token : String) : Prop :=
  ∃ tokens part rest, line.splitOn '\t' = tokens ++ part :: rest ∧
    (∀ other ∈ tokens, (converter.tryFromStringDouble other).isSome) ∧
    converter.tryFromStringDouble part = none ∧ token = String.ofList part

/-- What an error of `ReadPool` says about a batch and the lines before it; lines are counted from 1. The
batch has a line that does not parse, or one with other columns than its own first line, or it has other columns
than the lines before it. -/
def BatchFault (before batch : List (List Char)) : Failure → Prop
  | .notDouble token line => ∃ done text rest, batch = done ++ text :: rest ∧
      line = before.length + 1 + done.length ∧ (∃ w, IsTable converter w done) ∧ IsBadToken converter text token
  | .lineColumns line columns firstLine firstColumns => ∃ done text rest, batch = done ++ text :: rest ∧
      line = before.length + 1 + done.length ∧ firstLine = before.length + 1 ∧ done ≠ [] ∧
      IsTable converter firstColumns done ∧ Parses converter text ∧ columnCount text = columns ∧ columns ≠ firstColumns
  | .poolColumns columns batchColumns => before ≠ [] ∧ IsTable converter columns before ∧
      IsTable converter batchColumns batch ∧ columns ≠ batchColumns
  | _ => False

/-- The fault of the first batch of `k` lines that has one: the lines before it are whole batches and make one table,
and the batch is cut off after `k` lines or by the end of the text. -/
def PoolFault (lines : List (List Char)) (e : Failure) : Prop :=
  ∃ before batch after, lines = before ++ (batch ++ after) ∧ k ∣ before.length ∧ batch ≠ [] ∧
    (batch ++ after).take k = batch ∧ (∃ w, IsTable converter w before) ∧ BatchFault converter before batch e

/-- The first word of a line of the map, and what is left behind it. -/
def nextWord (text : List Char) : List Char × List Char :=
  let text := text.dropWhile isStdDelimiter
  let word := (text.takeWhile fun c => !isStdDelimiter c).take 127
  (word, text.drop (word.length + 1))

/-- The first or the second word of the line, where the first that is no number stands. -/
def IsBadWord (line : List Char) (token : String) : Prop :=
  ∃ word, converter.fromStringUi64 word = none ∧ token = String.ofList word ∧
    (word = (nextWord line).1 ∨
      (converter.fromStringUi64 (nextWord line).1).isSome ∧ word = (nextWord (nextWord line).2).1)

/-- What an error of `ReadBinToFeatureMap` says about the lines. All before one are written, and that one has a
word that is no number or a bin that cannot be written; or all are written, and this is the smallest bin without a
feature. -/
def MapFault (lines : List (List Char)) (e : Failure) : Prop :=
  (∃ before line after pairs, lines = before ++ line :: after ∧
      before.mapM (parseMapLine converter) = .ok pairs ∧ Written maxSize pairs ∧
      ((∃ token, e = .notUi64 token ∧ IsBadWord converter line token) ∨
        ∃ pair, parseMapLine converter line = .ok pair ∧ EndsMap maxSize pairs pair e)) ∨
    ∃ bin pairs, e = .binMissing bin ∧ lines.mapM (parseMapLine converter) = .ok pairs ∧ Written maxSize pairs ∧
      (∃ pair ∈ pairs, bin ≤ pair.2.toNat) ∧ entryOf pairs (.ofNat bin) = uninitialized ∧
      ∀ other < bin, entryOf pairs (.ofNat other) ≠ uninitialized

end Names

/-! ### A batch -/

section Batch

variable {converter : TConverter} {line : List Char} {lines before : List (List Char)} {e : Failure} {w : ℕ}

/-- A line that does not parse. -/
theorem parseNumbers_error_iff {curLine : ℕ} : parseNumbers converter line curLine = .error e ↔
    ∃ token, IsBadToken converter line token ∧ e = .notDouble token curLine := by
  rw [parseNumbers, mapM_error_iff]
  constructor
  · rintro ⟨tokens, part, rest, split, passed, failed⟩
    have fine : ∀ other ∈ tokens, (converter.tryFromStringDouble other).isSome := fun other mem => by
      obtain ⟨number, called⟩ := passed other mem
      cases parsed : converter.tryFromStringDouble other with
      | some number => rfl
      | none =>
        rw [parsed] at called
        cases called
    cases parsed : converter.tryFromStringDouble part with
    | some number =>
      rw [parsed] at failed
      cases failed
    | none =>
      rw [parsed] at failed
      cases failed
      exact ⟨_, ⟨tokens, part, rest, split, fine, parsed, rfl⟩, rfl⟩
  · rintro ⟨token, ⟨tokens, part, rest, split, fine, bad, rfl⟩, rfl⟩
    refine ⟨tokens, part, rest, split, fun other mem => ?_, by rw [bad]⟩
    obtain ⟨number, parsed⟩ := Option.isSome_iff_exists.mp (fine other mem)
    exact ⟨number, by rw [parsed]⟩

/-- A line that a batch refuses. -/
theorem parseLine_error_iff {lineNo curLine : ℕ} {result : List (List ℚ)} :
    parseLine converter lineNo result (line, curLine) = .error e ↔
      parseNumbers converter line curLine = .error e ∨
        Parses converter line ∧ result ≠ [] ∧ result.length ≠ columnCount line ∧
          e = .lineColumns curLine (columnCount line) lineNo result.length := by
  simp only [parseLine]
  cases parsed : parseNumbers converter line curLine with
  | error why =>
    obtain ⟨token, ⟨tokens, part, rest, split, -, bad, -⟩, -⟩ := parseNumbers_error_iff.mp parsed
    rw [error_bind]
    constructor
    · intro failed
      cases failed
      exact .inl rfl
    · rintro (failed | ⟨parses, -⟩)
      · cases failed
        rfl
      · have fine := parses part (by rw [split]; simp)
        rw [bad] at fine
        cases fine
  | ok numbers =>
    obtain ⟨parses, rfl⟩ := eq_numbersOf_of_parseNumbers parsed
    rw [ok_bind, length_numbersOf]
    change (if result ≠ [] ∧ result.length ≠ columnCount line then _ else _) = _ ↔ _
    split
    case isTrue differ =>
      constructor
      · intro failed
        cases failed
        exact .inr ⟨parses, differ.1, differ.2, rfl⟩
      · rintro (none | ⟨-, -, -, rfl⟩)
        · cases none
        · rfl
    case isFalse fits =>
      constructor
      · intro failed
        cases failed
      · rintro (none | ⟨-, some, differ, -⟩)
        · cases none
        · exact absurd ⟨some, differ⟩ fits

/-- Numbered lines of which some were passed. -/
theorem zipIdx_split {numbered rest : List (List Char × ℕ)} {lineNo curLine : ℕ}
    (split : lines.zipIdx lineNo = numbered ++ (line, curLine) :: rest) :
    ∃ done after, lines = done ++ line :: after ∧ numbered = done.zipIdx lineNo ∧ curLine = lineNo + done.length := by
  have whole : lines = numbered.map Prod.fst ++ line :: rest.map Prod.fst := by
    rw [← List.zipIdx_map_fst lineNo lines, split, List.map_append, List.map_cons]
  rw [whole, List.zipIdx_append, List.zipIdx_cons] at split
  obtain ⟨before, behind⟩ := List.append_inj split (by simp)
  refine ⟨_, _, whole, before.symm, ?_⟩
  rw [← (Prod.mk.inj (List.cons.inj behind).1).2]

/-- A batch fails at a line, behind others that make a table. -/
theorem parseBatch_error_iff {lineNo : ℕ} : parseBatch converter (lines, lineNo) = .error e ↔
    ∃ done text rest result, lines = done ++ text :: rest ∧ parseBatch converter (done, lineNo) = .ok result ∧
      parseLine converter lineNo result (text, lineNo + done.length) = .error e := by
  rw [parseBatch, foldlM_error_iff]
  constructor
  · rintro ⟨numbered, ⟨text, curLine⟩, rest, result, split, passed, failed⟩
    obtain ⟨done, after, rfl, rfl, rfl⟩ := zipIdx_split split
    exact ⟨done, text, after, result, rfl, passed, failed⟩
  · rintro ⟨done, text, rest, result, rfl, passed, failed⟩
    exact ⟨done.zipIdx lineNo, _, rest.zipIdx (lineNo + done.length + 1), result,
      by rw [List.zipIdx_append, List.zipIdx_cons], passed, failed⟩

/-- The lines of a batch that were parsed. -/
theorem parseBatch_ok_iff {lineNo : ℕ} {result : List (List ℚ)} (some : lines ≠ []) :
    parseBatch converter (lines, lineNo) = .ok result ↔
      ∃ w, 0 < w ∧ IsTable converter w lines ∧ result = columnsOf 0 w (lines.map (numbersOf converter)) := by
  constructor
  · intro parsed
    obtain ⟨filled, table⟩ := isTable_of_parseBatch some parsed
    have wide := List.length_pos_of_ne_nil filled
    exact ⟨_, wide, table, Except.ok.inj (parsed.symm.trans (parseBatch_ok wide table _))⟩
  · rintro ⟨w, pos, table, rfl⟩
    exact parseBatch_ok pos table _

/-- A line has a number, so that a table of some lines has columns. -/
theorem IsTable.pos (table : IsTable converter w lines) (some : lines ≠ []) : 0 < w := by
  obtain ⟨line, rest, rfl⟩ := List.exists_cons_of_ne_nil some
  rw [← table.width line List.mem_cons_self]
  exact List.length_pos_iff_ne_nil.mpr numbersOf_ne_nil

theorem length_columnsOf_numbersOf (converter : TConverter) (w : ℕ) (some : lines ≠ []) :
    (columnsOf 0 w (lines.map (numbersOf converter))).length = w :=
  length_columnsOf (by simpa using some)

/-- **When a batch fails**, and what it says. -/
theorem parseBatch_error (before : List (List Char)) :
    parseBatch converter (lines, before.length + 1) = .error e ↔
      (∀ columns batchColumns, e ≠ .poolColumns columns batchColumns) ∧ BatchFault converter before lines e := by
  rw [parseBatch_error_iff]
  constructor
  · rintro ⟨done, text, rest, result, rfl, passed, failed⟩
    have table (some : done ≠ []) := (parseBatch_ok_iff some).mp passed
    rcases parseLine_error_iff.mp failed with token | ⟨parses, some, differ, rfl⟩
    · obtain ⟨token, bad, rfl⟩ := parseNumbers_error_iff.mp token
      refine ⟨by simp, done, text, rest, rfl, rfl, ?_, bad⟩
      rcases eq_or_ne done [] with rfl | some
      · exact ⟨0, by simp, by simp⟩
      · obtain ⟨w, -, table, -⟩ := table some
        exact ⟨w, table⟩
    · refine ⟨by simp, done, text, rest, rfl, rfl, rfl, ?_⟩
      have filled : done ≠ [] := by
        rintro rfl
        cases passed
        exact some rfl
      obtain ⟨w, -, isTable, rfl⟩ := table filled
      rw [length_columnsOf_numbersOf _ _ filled] at differ ⊢
      exact ⟨filled, isTable, parses, rfl, differ.symm⟩
  · rintro ⟨other, fault⟩
    cases e with
    | notDouble token line =>
      obtain ⟨done, text, rest, rfl, rfl, ⟨w, table⟩, bad⟩ := fault
      have failed : parseNumbers converter text (before.length + 1 + done.length) = .error _ :=
        parseNumbers_error_iff.mpr ⟨token, bad, rfl⟩
      rcases eq_or_ne done [] with rfl | some
      · exact ⟨[], text, rest, [], rfl, rfl, parseLine_error_iff.mpr (.inl failed)⟩
      · exact ⟨done, text, rest, _, rfl, parseBatch_ok (table.pos some) table _,
          parseLine_error_iff.mpr (.inl failed)⟩
    | lineColumns line columns firstLine firstColumns =>
      obtain ⟨done, text, rest, rfl, rfl, rfl, some, table, parses, rfl, differ⟩ := fault
      refine ⟨done, text, rest, _, rfl, parseBatch_ok (table.pos some) table _, parseLine_error_iff.mpr (.inr ?_)⟩
      have length := length_columnsOf_numbersOf converter firstColumns some
      refine ⟨parses, fun none => ?_, by rw [length]; exact differ.symm, by rw [length]⟩
      rw [none] at length
      exact absurd (table.pos some) (by simp [← length])
    | poolColumns columns batchColumns => exact absurd rfl (other _ _)
    | _ => exact fault.elim

end Batch

/-! ### The pool -/

section Pool

variable {converter : TConverter} {lines before : List (List Char)} {e : Failure} {k w : ℕ}

/-- A batch with other columns than the lines before it. -/
theorem joinBatch_error (pos : 0 < w) (some : before ≠ []) {data : List (List ℚ)} (differ : w ≠ data.length) :
    joinBatch (columnsOf 0 w (before.map (numbersOf converter))) data = .error (.poolColumns w data.length) := by
  have nonempty : before.map (numbersOf converter) ≠ [] := by simpa using some
  have size := length_columnsOf (d := (0 : ℚ)) (w := w) nonempty
  have whole : orEmpty data.length (columnsOf 0 w (before.map (numbersOf converter))) =
      columnsOf 0 w (before.map (numbersOf converter)) := if_neg ((columnsOf_eq_nil_iff pos).not.mpr nonempty)
  rw [joinBatch, whole]
  simp only [size]
  exact if_pos differ

/-- Whole batches come before the others. -/
theorem readBatches_append (rest : List (List Char)) (whole : k ∣ before.length) (lineNo : ℕ) :
    readBatches k (before ++ rest) lineNo =
      readBatches k before lineNo ++ readBatches k rest (lineNo + before.length) := by
  fun_induction readBatches k before lineNo with
  | case1 lines lineNo none =>
    rw [List.take_eq_nil_iff] at none
    rcases none with rfl | rfl
    · rw [readBatches, dif_pos List.take_zero, readBatches, dif_pos List.take_zero]
      rfl
    · rfl
  | case2 lines lineNo more ih =>
    rw [List.take_eq_nil_iff, not_or] at more
    have long : k ≤ lines.length := Nat.le_of_dvd (List.length_pos_of_ne_nil more.2) whole
    have first : (lines ++ rest).take k = lines.take k := List.take_append_of_le_length long
    have left : k ∣ (lines.drop k).length := by
      rw [List.length_drop]
      exact Nat.dvd_sub whole dvd_rfl
    have none : ¬ lines.take k = [] := by
      rw [List.take_eq_nil_iff, not_or]
      exact more
    rw [readBatches, first, dif_neg none, List.drop_append_of_le_length long, ih left, List.cons_append]
    have count : lineNo + (lines.take k).length + (lines.drop k).length = lineNo + lines.length := by
      rw [List.length_take, List.length_drop]
      omega
    rw [count]

/-- **The error of the batches that are left**, after the lines of the earlier ones were joined. -/
theorem poolFault_of_foldlM {lineNo : ℕ} (pos : 0 < w) (table : IsTable converter w before)
    (whole : k ∣ before.length) (start : lineNo = before.length + 1)
    (failed : (readBatches k lines lineNo).foldlM
      (fun result batch => do joinBatch result (← parseBatch converter batch))
      (columnsOf 0 w (before.map (numbersOf converter))) = .error e) :
    PoolFault k converter (before ++ lines) e := by
  fun_induction readBatches k lines lineNo generalizing before w with
  | case1 lines lineNo none => cases failed
  | case2 lines lineNo more ih =>
    subst start
    have split := List.take_append_drop k lines
    have fault {e : Failure} (fault : BatchFault converter before (lines.take k) e) :
        PoolFault k converter (before ++ lines) e :=
      ⟨before, lines.take k, lines.drop k, by rw [split], whole, more, by rw [split], ⟨w, table⟩, fault⟩
    rw [List.foldlM_cons] at failed
    cases parsed : parseBatch converter (lines.take k, before.length + 1) with
    | error why =>
      rw [parsed] at failed
      cases failed
      exact fault ((parseBatch_error before).mp parsed).2
    | ok data =>
      obtain ⟨v, wide, chunk, rfl⟩ := (parseBatch_ok_iff more).mp parsed
      rw [parsed, ok_bind] at failed
      by_cases fits : before = [] ∨ w = v
      · have table' : IsTable converter v before := by
          rcases fits with rfl | rfl
          · exact ⟨by simp, by simp⟩
          · exact table
        have same : columnsOf 0 w (before.map (numbersOf converter)) =
            columnsOf 0 v (before.map (numbersOf converter)) := by
          rcases fits with rfl | rfl <;> rfl
        have joined : joinBatch (columnsOf 0 v (before.map (numbersOf converter)))
            (columnsOf 0 v ((lines.take k).map (numbersOf converter))) = .ok _ :=
          joinBatch_ok wide (by simpa using more)
        rw [same, joined, ok_bind, ← List.map_append] at failed
        -- Only the last batch can be shorter, and then nothing is left to fail.
        rcases Nat.lt_or_ge lines.length k with short | long
        · rw [List.drop_of_length_le short.le, readBatches, dif_pos List.take_nil] at failed
          cases failed
        · have whole' : k ∣ (before ++ lines.take k).length := by
            rw [List.length_append, List.length_take_of_le long]
            exact Dvd.dvd.add whole dvd_rfl
          have := ih wide (table'.append chunk) whole' (by rw [List.length_append]; omega) failed
          rwa [List.append_assoc, split] at this
      · push Not at fits
        obtain ⟨some, differ⟩ := fits
        have length := length_columnsOf_numbersOf converter v more
        rw [joinBatch_error pos some (by rwa [length]), length] at failed
        cases failed
        exact fault ⟨some, table, chunk, differ⟩

/-- **What the errors of a pool name**: the first batch of `k` lines with a line that does not parse or has other
columns than the first line of the batch, or with other columns than the lines before it. Nothing else fails. -/
theorem readPool_error_iff {text : List Char} :
    readPool converter k text = .error e ↔ PoolFault k converter (readLines text) e := by
  constructor
  · intro failed
    have none : IsTable converter 1 [] := ⟨by simp, by simp⟩
    exact poolFault_of_foldlM one_pos none (dvd_zero k) rfl failed
  · rintro ⟨before, batch, after, split, whole, some, cut, ⟨w, table⟩, fault⟩
    have start : ∃ v, 0 < v ∧ IsTable converter v before ∧ (before ≠ [] → v = w) := by
      rcases eq_or_ne before [] with rfl | filled
      · exact ⟨1, one_pos, ⟨by simp, by simp⟩, fun none => absurd rfl none⟩
      · exact ⟨w, table.pos filled, table, fun _ => rfl⟩
    obtain ⟨v, pos, table', width⟩ := start
    have batched : 0 < k := by
      by_contra none
      obtain rfl : k = 0 := by omega
      exact some (cut.symm.trans List.take_zero)
    have more : ¬ (batch ++ after).take k = [] := by rwa [cut]
    rw [readPool, split, readBatches_append _ whole, List.foldlM_append]
    have joined := foldlM_joinBatch_ok pos batched table' [] 1
    rw [List.nil_append] at joined
    change (List.foldlM _ (columnsOf 0 v []) _ >>= _) = _
    rw [joined, ok_bind, readBatches, dif_neg more, List.foldlM_cons, cut, Nat.add_comm 1]
    cases e with
    | poolColumns columns batchColumns =>
      obtain ⟨filled, table, chunk, differ⟩ := fault
      obtain ⟨line, rest, rfl⟩ := List.exists_cons_of_ne_nil filled
      have same : v = columns := by
        rw [← table'.width line List.mem_cons_self, table.width line List.mem_cons_self]
      subst same
      have length := length_columnsOf_numbersOf converter batchColumns some
      rw [parseBatch_ok (chunk.pos some) chunk, ok_bind, joinBatch_error pos filled (by rwa [length]), length,
        error_bind]
    | _ =>
      rw [(parseBatch_error before).mpr ⟨by simp, fault⟩]
      rfl

/-- A narrow line behind a wide one, in one batch. -/
example : readPool decimalConverter 2 ['1', '\t', '2', '\n', '3', '\n'] = .error (.lineColumns 2 1 1 2) := by
  have lines : readLines ['1', '\t', '2', '\n', '3', '\n'] = [['1', '\t', '2'], ['3']] := by decide
  rw [readPool, lines, readBatches, dif_neg (by decide), List.foldlM_cons]
  rfl

end Pool

/-! ### The map -/

section Map

variable {maxSize : ℕ} {converter : TConverter} {pairs : List (UInt64 × UInt64)} {e : Failure}

/-- A number that is read is the next word. -/
theorem readUi64_eq (converter : TConverter) (text : List Char) : readUi64 converter text =
    match converter.fromStringUi64 (nextWord text).1 with
    | some number => .ok (number, (nextWord text).2)
    | none => .error (.notUi64 (String.ofList (nextWord text).1)) := rfl

theorem parseMapLine_error_iff {line : List Char} : parseMapLine converter line = .error e ↔
    ∃ token, e = .notUi64 token ∧ IsBadWord converter line token := by
  rw [parseMapLine, readUi64_eq]
  cases first : converter.fromStringUi64 (nextWord line).1 with
  | none =>
    dsimp only
    rw [error_bind]
    constructor
    · intro failed
      cases failed
      exact ⟨_, rfl, _, first, rfl, .inl rfl⟩
    · rintro ⟨_, rfl, word, bad, rfl, rfl | ⟨fine, -⟩⟩
      · rfl
      · rw [first] at fine
        cases fine
  | some featureIndex =>
    dsimp only
    rw [ok_bind]
    dsimp only
    rw [readUi64_eq]
    cases second : converter.fromStringUi64 (nextWord (nextWord line).2).1 with
    | none =>
      constructor
      · intro failed
        cases failed
        exact ⟨_, rfl, _, second, rfl, .inr ⟨by rw [first]; rfl, rfl⟩⟩
      · rintro ⟨_, rfl, word, bad, rfl, rfl | ⟨-, rfl⟩⟩
        · rw [first] at bad
          cases bad
        · rfl
    | some binIndex =>
      constructor
      · intro failed
        cases failed
      · rintro ⟨_, -, word, bad, -, rfl | ⟨-, rfl⟩⟩
        · rw [first] at bad
          cases bad
        · rw [second] at bad
          cases bad

/-- The smallest bin without a feature. -/
theorem Table.idxOf_eq_iff {result : List ℤ} (table : Table pairs result) (written : Written maxSize pairs) {bin : ℕ} :
    result.idxOf uninitialized = bin ∧ bin < result.length ↔
      (∃ pair ∈ pairs, bin ≤ pair.2.toNat) ∧ entryOf pairs (.ofNat bin) = uninitialized ∧
        ∀ other < bin, entryOf pairs (.ofNat other) ≠ uninitialized := by
  have entry {b : ℕ} (inside : b < result.length) : result[b]? = some (entryOf pairs (.ofNat b)) := by
    have index : (UInt64.ofNat b).toNat = b :=
      UInt64.toNat_ofNat_of_lt' (lt_trans inside (table.length_le written).2)
    have at_bin := table.entries (.ofNat b) (by rwa [index])
    rwa [index] at at_bin
  rw [← table.size bin]
  constructor
  · rintro ⟨rfl, inside⟩
    refine ⟨inside, ?_, fun other before => ?_⟩
    · have found := entry inside
      rw [List.getElem?_eq_getElem inside, List.getElem_idxOf] at found
      exact (Option.some.inj found).symm
    · have there := entry (lt_trans before inside)
      rw [List.getElem?_eq_getElem (lt_trans before inside)] at there
      rw [← Option.some.inj there]
      exact fun same => by simpa [same] using List.not_of_lt_findIdx before
  · rintro ⟨inside, unused, least⟩
    have mem : uninitialized ∈ result := List.mem_of_getElem? ((entry inside).trans (by rw [unused]))
    have found := List.idxOf_lt_length_iff.mpr mem
    refine ⟨le_antisymm ?_ ?_, inside⟩
    · by_contra later
      have before := entry inside
      rw [List.getElem?_eq_getElem inside, unused] at before
      exact absurd (Option.some.inj before) (by simpa using List.not_of_lt_findIdx (not_le.mp later))
    · by_contra earlier
      refine least _ (not_le.mp earlier) ?_
      have there := entry found
      rw [List.getElem?_eq_getElem found, List.getElem_idxOf] at there
      exact (Option.some.inj there).symm

/-- **What the errors of a map name**: a word that is no number, a line that cannot be written behind lines that
were, or the smallest bin that no line names. Nothing else fails. -/
theorem readBinToFeatureMapText_error_iff {text : List Char} :
    readBinToFeatureMapText maxSize converter text = .error e ↔ MapFault maxSize converter (readLines text) e := by
  rw [readBinToFeatureMapText]
  constructor
  · intro failed
    cases folded : (readLines text).foldlM
        (fun result line => do readMapLine maxSize result (← parseMapLine converter line)) [] with
    | ok result =>
      obtain ⟨pairs, mapped, filled⟩ := foldlM_bind_inv folded
      obtain ⟨written, table⟩ := of_foldlM_readMapLine filled
      rw [folded, ok_bind] at failed
      by_cases missing : result.idxOf uninitialized < result.length
      · rw [if_pos missing] at failed
        cases failed
        exact .inr ⟨_, pairs, rfl, mapped, written, (table.idxOf_eq_iff written).mp ⟨rfl, missing⟩⟩
      · rw [if_neg missing] at failed
        cases failed
    | error why =>
      rw [folded] at failed
      cases failed
      obtain ⟨before, line, after, result, split, passed, refused⟩ := foldlM_error_iff.mp folded
      obtain ⟨pairs, mapped, filled⟩ := foldlM_bind_inv passed
      obtain ⟨written, table⟩ := of_foldlM_readMapLine filled
      refine .inl ⟨before, line, after, pairs, split, mapped, written, ?_⟩
      cases parsed : parseMapLine converter line with
      | error why =>
        rw [parsed] at refused
        cases refused
        exact .inl (parseMapLine_error_iff.mp parsed)
      | ok pair =>
        rw [parsed, ok_bind] at refused
        exact .inr ⟨pair, rfl, (table.readMapLine_error_iff written).mp refused⟩
  · rintro (⟨before, line, after, pairs, split, mapped, written, fault⟩ | ⟨bin, pairs, rfl, mapped, written, missing⟩)
    · obtain ⟨result, filled, table⟩ := foldlM_readMapLine_ok written
      have failed : (readLines text).foldlM
          (fun result line => do readMapLine maxSize result (← parseMapLine converter line)) [] = .error e := by
        refine foldlM_error_iff.mpr
          ⟨before, line, after, result, split, (foldlM_bind_of_mapM mapped []).trans filled, ?_⟩
        rcases fault with bad | ⟨pair, parsed, ends⟩
        · rw [parseMapLine_error_iff.mpr bad, error_bind]
        · rw [parsed, ok_bind]
          exact (table.readMapLine_error_iff written).mpr ends
      rw [failed, error_bind]
    · obtain ⟨result, filled, table⟩ := foldlM_readMapLine_ok written
      obtain ⟨rfl, inside⟩ := (table.idxOf_eq_iff written).mpr missing
      rw [foldlM_bind_of_mapM mapped, filled, ok_bind, if_pos inside]
      rfl

/-- A map without bin 1. -/
example : readBinToFeatureMapText intMaxSize decimalConverter ['0', '\t', '0', '\n', '1', '\t', '2', '\n'] =
    .error (.binMissing 1) := by
  decide +kernel

end Map

end Cmicot
