import Cmicot.Io

/-!
Reading a pool in batches (`io.cpp`).

The lines are cut into batches that are parsed on a queue, each for itself, and whose columns
are joined in the order of the batches. Widths are checked inside a batch against its first
line, and again between batches.

* `readPool_ok`: a table is read into its columns, wherever the batches split the rows.
* `readPool_transposes`: nothing else is read, and neither the size of the batches nor the
  order in which they are parsed matters.
-/

namespace Cmicot

open Loop Text

/-! ### Batches on a queue -/

/-- The futures after the batches with these numbers were parsed, one after another. -/
def parseInOrder (converter : TConverter) (batches : List (List (List Char) × ℕ)) (order : List ℕ) :
    List (Option (Except Failure (List (List ℚ)))) :=
  order.foldl (fun futures i => futures.set i (batches[i]?.map (parseBatch converter)))
    (List.replicate batches.length none)

/-- `ReadPool(in, linesInBatch, queue)` on a queue that finishes the batches in this order. The
columns are joined in the order of the batches; a batch that is never parsed is waited for. -/
def readPoolQueued (converter : TConverter) (linesInBatch : ℕ) (order : List ℕ) (text : List Char) :
    Option (Except Failure (List (List ℚ))) := do
  let futures := parseInOrder converter (readBatches linesInBatch (readLines text) 1) order
  let parseResults ← futures.mapM id
  return parseResults.foldlM (fun result data => do joinBatch result (← data)) []

/-! ### Tables of numbers -/

section Tables

variable {converter : TConverter} {line : List Char} {lines : List (List Char)} {w k : ℕ}

/-- The numbers of a line. -/
def numbersOf (converter : TConverter) (line : List Char) : List ℚ :=
  (line.splitOn '\t').map fun token => (converter.tryFromStringDouble token).getD 0

/-- Lines of `w` numbers each. -/
structure IsTable (converter : TConverter) (w : ℕ) (lines : List (List Char)) : Prop where
  parses : ∀ line ∈ lines, ∀ token ∈ line.splitOn '\t', (converter.tryFromStringDouble token).isSome
  width : ∀ line ∈ lines, (numbersOf converter line).length = w

theorem parseNumbers_ok (parses : ∀ token ∈ line.splitOn '\t', (converter.tryFromStringDouble token).isSome)
    (curLine : ℕ) : parseNumbers converter line curLine = .ok (numbersOf converter line) := by
  refine mapM_ok fun token mem => ?_
  obtain ⟨number, parsed⟩ := Option.isSome_iff_exists.mp (parses token mem)
  rw [parsed, Option.getD_some]

theorem parseBatch_ok (pos : 0 < w) (table : IsTable converter w lines) (lineNo : ℕ) :
    parseBatch converter (lines, lineNo) = .ok (columnsOf 0 w (lines.map (numbersOf converter))) := by
  obtain ⟨result, folded, rfl⟩ := foldlM_ok (f := parseLine converter lineNo)
    (P := fun done result => result = columnsOf 0 w (done.map fun line => numbersOf converter line.1))
    (l := lines.zipIdx lineNo) (s := []) rfl
    (by
      rintro done ⟨line, curLine⟩ _ mem - rfl
      have listed := List.fst_mem_of_mem_zipIdx mem
      have width := table.width line listed
      have fits : ¬ (columnsOf 0 w (done.map fun line => numbersOf converter line.1) ≠ [] ∧
          (columnsOf 0 w (done.map fun line => numbersOf converter line.1)).length ≠ w) := by
        rintro ⟨some, other⟩
        exact other (length_columnsOf fun none => some ((columnsOf_eq_nil_iff pos).mpr none))
      refine ⟨_, ?_, (columnsOf_concat pos width).trans (by rw [List.map_append]; rfl)⟩
      simp only [parseLine, parseNumbers_ok (table.parses line listed), ok_bind, pure_eq_ok, width]
      exact if_neg fits)
  rw [parseBatch, folded, ← List.zipIdx_map_fst lineNo lines, List.map_map]
  simp [Function.comp_def]

theorem joinBatch_ok (pos : 0 < w) {done rows : List (List ℚ)} (some : rows ≠ []) :
    joinBatch (columnsOf 0 w done) (columnsOf 0 w rows) = .ok (columnsOf 0 w (done ++ rows)) := by
  have size : (orEmpty w (columnsOf (0 : ℚ) w done)).length = w := by simp [orEmpty_columnsOf pos]
  rw [joinBatch, length_columnsOf some]
  simp only [size]
  exact (if_neg (not_not.mpr rfl)).trans (congrArg Except.ok (columnsOf_append pos some))

/-- The batches that are left, after the rows of the earlier ones were joined. -/
theorem foldlM_joinBatch_ok (pos : 0 < w) (batch : 0 < k) (table : IsTable converter w lines)
    (done : List (List ℚ)) (lineNo : ℕ) :
    (readBatches k lines lineNo).foldlM (fun result batch => do joinBatch result (← parseBatch converter batch))
        (columnsOf 0 w done) =
      .ok (columnsOf 0 w (done ++ lines.map (numbersOf converter))) := by
  fun_induction readBatches k lines lineNo generalizing done with
  | case1 lines lineNo none =>
    have empty : lines = [] := by
      rw [List.take_eq_nil_iff] at none
      exact none.resolve_left (by omega)
    simp [empty]
  | case2 lines lineNo more ih =>
    have first : IsTable converter w (lines.take k) :=
      ⟨fun line mem => table.parses line (List.mem_of_mem_take mem),
        fun line mem => table.width line (List.mem_of_mem_take mem)⟩
    have rest : IsTable converter w (lines.drop k) :=
      ⟨fun line mem => table.parses line (List.mem_of_mem_drop mem),
        fun line mem => table.width line (List.mem_of_mem_drop mem)⟩
    have some : (lines.take k).map (numbersOf converter) ≠ [] := fun none => more (List.map_eq_nil_iff.mp none)
    rw [List.foldlM_cons, parseBatch_ok pos first, ok_bind, joinBatch_ok pos some, ok_bind, ih rest,
      List.append_assoc, ← List.map_append, List.take_append_drop]

/-- **A table is read into its columns**, wherever the batches split the rows. -/
theorem readPool_ok (pos : 0 < w) (batch : 0 < k) {text : List Char}
    (table : IsTable converter w (readLines text)) :
    readPool converter k text = .ok (columnsOf 0 w ((readLines text).map (numbersOf converter))) :=
  foldlM_joinBatch_ok pos batch table [] 1

/-! ### Nothing else is read -/

theorem length_numbersOf (converter : TConverter) (line : List Char) :
    (numbersOf converter line).length = (line.splitOn '\t').length := List.length_map ..

theorem numbersOf_ne_nil : numbersOf converter line ≠ [] := fun none =>
  List.splitOn_ne_nil '\t' line (List.map_eq_nil_iff.mp none)

/-- Numbers that are returned are those of all tokens. -/
theorem eq_numbersOf_of_parseNumbers {numbers : List ℚ} {curLine : ℕ}
    (ran : parseNumbers converter line curLine = .ok numbers) :
    (∀ token ∈ line.splitOn '\t', (converter.tryFromStringDouble token).isSome) ∧
      numbers = numbersOf converter line := by
  have parses : ∀ token ∈ line.splitOn '\t', (converter.tryFromStringDouble token).isSome := by
    intro token mem
    obtain ⟨number, -, called⟩ := (mapM_inv ran).2.1 token mem
    cases parsed : converter.tryFromStringDouble token with
    | some number => rfl
    | none =>
      rw [parsed] at called
      cases called
  exact ⟨parses, Except.ok.inj (ran.symm.trans (parseNumbers_ok parses curLine))⟩

theorem IsTable.append {more : List (List Char)} (table : IsTable converter w lines)
    (table' : IsTable converter w more) : IsTable converter w (lines ++ more) :=
  ⟨fun line mem => (List.mem_append.mp mem).elim (table.parses line) (table'.parses line),
    fun line mem => (List.mem_append.mp mem).elim (table.width line) (table'.width line)⟩

theorem length_orEmpty {α : Type} {size : ℕ} {columns : List (List α)} (fits : columns ≠ [] → columns.length = size) :
    (orEmpty size columns).length = size := by
  unfold orEmpty
  split
  · exact List.length_replicate
  · exact fits ‹_›

/-- A line that is added to the columns of a batch has their width. -/
theorem width_of_parseLine {lineNo curLine : ℕ} {result result' : List (List ℚ)}
    (ran : parseLine converter lineNo result (line, curLine) = .ok result') :
    result' ≠ [] ∧ IsTable converter result'.length [line] ∧ (result ≠ [] → result.length = result'.length) := by
  obtain ⟨numbers, parsed, rest⟩ := bind_eq_ok.mp ran
  obtain ⟨parses, rfl⟩ := eq_numbersOf_of_parseNumbers parsed
  have checked := guard_eq_ok.mp rest
  have fits : result ≠ [] → result.length = (numbersOf converter line).length := fun some => by
    by_contra other
    exact checked.1 ⟨some, other⟩
  have length : result'.length = (numbersOf converter line).length := by
    rw [← Except.ok.inj checked.2, List.length_zipWith, length_orEmpty fits, Nat.min_self]
  refine ⟨?_, ⟨by simpa using parses, by simp [length]⟩, fun some => (fits some).trans length.symm⟩
  exact List.ne_nil_of_length_pos (length ▸ List.length_pos_iff_ne_nil.mpr numbersOf_ne_nil)

/-- Lines that are parsed as a batch are a table. -/
theorem isTable_of_parseBatch (some : lines ≠ []) {lineNo : ℕ} {data : List (List ℚ)}
    (ran : parseBatch converter (lines, lineNo) = .ok data) : data ≠ [] ∧ IsTable converter data.length lines := by
  have parsed := foldlM_inv (P := fun done result => (done = [] → result = []) ∧
      (done ≠ [] → result ≠ [] ∧ IsTable converter result.length (done.map Prod.fst))) ran
    ⟨fun _ => rfl, fun none => absurd rfl none⟩
    (by
      rintro done ⟨line, curLine⟩ result result' - ⟨start, table⟩ added
      obtain ⟨filled, last, fits⟩ := width_of_parseLine added
      refine ⟨fun none => absurd none (by simp), fun _ => ⟨filled, ?_⟩⟩
      rw [List.map_append]
      by_cases first : done = []
      · rw [first]
        exact last
      · obtain ⟨before, isTable⟩ := table first
        exact (fits before ▸ isTable).append last)
  obtain ⟨filled, table⟩ := parsed.2 (by simpa using some)
  exact ⟨filled, by simpa using table⟩

theorem width_of_joinBatch {result data result' : List (List ℚ)} (ran : joinBatch result data = .ok result') :
    result'.length = data.length ∧ (result ≠ [] → result.length = data.length) := by
  dsimp only [joinBatch] at ran
  split at ran
  case isTrue => cases ran
  case isFalse same =>
    rw [not_not] at same
    refine ⟨?_, fun some => ?_⟩
    · rw [← Except.ok.inj ran, List.length_zipWith, same, Nat.min_self]
    · rwa [orEmpty, if_neg some] at same

/-- Batches that are joined to the columns so far are one table of their width. -/
theorem isTable_of_foldlM_joinBatch (batch : 0 < k) {lineNo : ℕ} {before result : List (List ℚ)}
    (ran : (readBatches k lines lineNo).foldlM
      (fun result batch => do joinBatch result (← parseBatch converter batch)) before = .ok result) :
    ∃ w, 0 < w ∧ IsTable converter w lines ∧ (before ≠ [] → before.length = w) := by
  fun_induction readBatches k lines lineNo generalizing before with
  | case1 lines lineNo none =>
    have empty : lines = [] := by
      rw [List.take_eq_nil_iff] at none
      exact none.resolve_left (by omega)
    subst empty
    refine ⟨max 1 before.length, by omega, ⟨by simp, by simp⟩, fun some => ?_⟩
    have := List.length_pos_iff_ne_nil.mpr some
    omega
  | case2 lines lineNo more ih =>
    rw [List.foldlM_cons] at ran
    obtain ⟨joined, added, rest⟩ := bind_eq_ok.mp ran
    obtain ⟨data, parsed, joining⟩ := bind_eq_ok.mp added
    obtain ⟨filled, first⟩ := isTable_of_parseBatch more parsed
    obtain ⟨length, fits⟩ := width_of_joinBatch joining
    obtain ⟨w, pos, others, same⟩ := ih rest
    have width : data.length = w := by
      rw [← length]
      exact same (List.ne_nil_of_length_pos (length ▸ List.length_pos_iff_ne_nil.mpr filled))
    rw [width] at first fits
    exact ⟨w, pos, List.take_append_drop k lines ▸ first.append others, fits⟩

/-! ### What is read -/

/-- Every token parses, and all lines have as many tokens. -/
structure Readable (converter : TConverter) (lines : List (List Char)) : Prop where
  parses : ∀ line ∈ lines, ∀ token ∈ line.splitOn '\t', (converter.tryFromStringDouble token).isSome
  width : ∀ line ∈ lines, ∀ other ∈ lines, (line.splitOn '\t').length = (other.splitOn '\t').length

/-- One column for each token of a line; token `c` of line `r` stands in row `r` of column `c`. -/
structure Transposes (converter : TConverter) (lines : List (List Char)) (columns : List (List ℚ)) : Prop where
  none : lines = [] → columns = []
  width : ∀ line ∈ lines, columns.length = (line.splitOn '\t').length
  height : ∀ column ∈ columns, column.length = lines.length
  cell : ∀ (r : ℕ) (line : List Char), lines[r]? = some line → ∀ (c : ℕ) (token : List Char),
    (line.splitOn '\t')[c]? = some token →
    ∃ number, converter.tryFromStringDouble token = some number ∧ columns[c]?.bind (·[r]?) = some number

theorem readable_iff : Readable converter lines ↔ ∃ w, 0 < w ∧ IsTable converter w lines := by
  constructor
  · intro readable
    cases lines with
    | nil => exact ⟨1, Nat.one_pos, by simp, by simp⟩
    | cons line lines =>
      refine ⟨(numbersOf converter line).length, List.length_pos_iff_ne_nil.mpr numbersOf_ne_nil, readable.parses, ?_⟩
      intro other mem
      rw [length_numbersOf, length_numbersOf, readable.width other mem line List.mem_cons_self]
  · rintro ⟨w, -, table⟩
    refine ⟨table.parses, fun line mem other mem' => ?_⟩
    rw [← length_numbersOf converter, ← length_numbersOf converter, table.width line mem,
      table.width other mem']

/-- The columns of a table. -/
theorem transposes_columnsOf (table : IsTable converter w lines) :
    Transposes converter lines (columnsOf 0 w (lines.map (numbersOf converter))) := by
  have shape (some : lines ≠ []) : columnsOf 0 w (lines.map (numbersOf converter)) =
      (List.range w).map fun c => lines.map fun line => (numbersOf converter line).getD c 0 := by
    rw [columnsOf_of_ne_nil (by simpa using some)]
    simp only [List.map_map, Function.comp_def]
  refine ⟨fun none => by simp [none, columnsOf], fun line mem => ?_, fun column mem => ?_,
    fun r line at_r c token at_c => ?_⟩
  · rw [shape (List.ne_nil_of_mem mem), List.length_map, List.length_range, ← length_numbersOf converter,
      table.width line mem]
  · by_cases none : lines = []
    · simp [none, columnsOf] at mem
    · rw [shape none] at mem
      obtain ⟨c, -, rfl⟩ := List.mem_map.mp mem
      exact List.length_map ..
  · have mem := List.mem_of_getElem? at_r
    obtain ⟨number, parsed⟩ := Option.isSome_iff_exists.mp (table.parses line mem token (List.mem_of_getElem? at_c))
    have inside : c < w := by
      rw [← table.width line mem, length_numbersOf]
      exact (List.getElem?_eq_some_iff.mp at_c).1
    have entry : (numbersOf converter line).getD c 0 = number := by
      rw [numbersOf, List.getD_eq_getElem?_getD, List.getElem?_map, at_c, Option.map_some, parsed]
      rfl
    refine ⟨number, parsed, ?_⟩
    rw [shape (List.ne_nil_of_mem mem), List.getElem?_map, List.getElem?_range inside, Option.map_some,
      Option.bind_some, List.getElem?_map, at_r, Option.map_some, entry]

/-- **Exactly the readable lines are read**, whatever the size of the batches. -/
theorem readPool_eq_ok_iff (batch : 0 < k) {text : List Char} {columns : List (List ℚ)} :
    readPool converter k text = .ok columns ↔
      ∃ w, 0 < w ∧ IsTable converter w (readLines text) ∧
        columns = columnsOf 0 w ((readLines text).map (numbersOf converter)) := by
  constructor
  · intro ran
    obtain ⟨w, pos, table, -⟩ := isTable_of_foldlM_joinBatch batch ran
    exact ⟨w, pos, table, Except.ok.inj (ran.symm.trans (readPool_ok pos batch table))⟩
  · rintro ⟨w, pos, table, rfl⟩
    exact readPool_ok pos batch table

/-- What the queue leaves behind. -/
theorem getElem?_parseInOrder {batches : List (List (List Char) × ℕ)} (order : List ℕ) {i : ℕ}
    (inside : i < batches.length) : (parseInOrder converter batches order)[i]? =
      some (if i ∈ order then batches[i]?.map (parseBatch converter) else none) := by
  induction order using List.reverseRecOn with
  | nil => simp [parseInOrder, inside]
  | append_singleton order j ih =>
    have before := (List.getElem?_eq_some_iff.mp ih).1
    unfold parseInOrder at ih before ⊢
    rw [List.foldl_append, List.foldl_cons, List.foldl_nil]
    by_cases same : j = i
    · subst same
      rw [List.getElem?_set_self before]
      simp
    · rw [List.getElem?_set_ne same, ih]
      simp [Ne.symm same]

theorem length_parseInOrder (batches : List (List (List Char) × ℕ)) (order : List ℕ) :
    (parseInOrder converter batches order).length = batches.length := by
  induction order using List.reverseRecOn with
  | nil => simp [parseInOrder]
  | append_singleton order j ih =>
    unfold parseInOrder at ih ⊢
    rw [List.foldl_append, List.foldl_cons, List.foldl_nil, List.length_set, ih]

/-- **The order in which the batches are parsed does not matter.** -/
theorem readPoolQueued_eq {text : List Char} {order : List ℕ}
    (perm : order.Perm (List.range (readBatches k (readLines text) 1).length)) :
    readPoolQueued converter k order text = some (readPool converter k text) := by
  set batches := readBatches k (readLines text) 1 with hbatches
  have finished : parseInOrder converter batches order =
      (batches.map (parseBatch converter)).map some := by
    apply List.ext_getElem?
    intro i
    rcases Nat.lt_or_ge i batches.length with inside | outside
    · rw [getElem?_parseInOrder order inside, if_pos (perm.mem_iff.mpr (List.mem_range.mpr inside))]
      simp [inside]
    · rw [List.getElem?_eq_none (by rw [length_parseInOrder]; exact outside),
        List.getElem?_eq_none (by simpa using outside)]
  have waited :
      ((batches.map (parseBatch converter)).map some).mapM id = some (batches.map (parseBatch converter)) := by
    rw [List.mapM_map]
    exact (List.mapM_pure (m := Option) (f := id)).trans (by rw [List.map_id]; rfl)
  rw [readPoolQueued, ← hbatches, finished, waited, readPool, ← hbatches]
  simp only [Option.bind_eq_bind, Option.bind_some, List.foldlM_map]
  rfl

/-- **Reading a pool is a transposition.** It returns exactly on readable lines, with the transposed
numbers, and neither the size of the batches nor the order in which they are parsed matters. -/
theorem readPool_transposes (converter : TConverter) (batch : 0 < k) (text : List Char) :
    ((∃ columns, readPool converter k text = .ok columns) ↔ Readable converter (readLines text)) ∧
      (∀ columns, readPool converter k text = .ok columns → Transposes converter (readLines text) columns) ∧
      (∀ k' columns, 0 < k' → (readPool converter k' text = .ok columns ↔ readPool converter k text = .ok columns)) ∧
      ∀ order : List ℕ, order.Perm (List.range (readBatches k (readLines text) 1).length) →
        readPoolQueued converter k order text = some (readPool converter k text) := by
  refine ⟨?_, fun columns ran => ?_, fun k' columns batch' => ?_, fun order perm => readPoolQueued_eq perm⟩
  · rw [readable_iff]
    constructor
    · rintro ⟨columns, ran⟩
      obtain ⟨w, pos, table, -⟩ := (readPool_eq_ok_iff batch).mp ran
      exact ⟨w, pos, table⟩
    · rintro ⟨w, pos, table⟩
      exact ⟨_, readPool_ok pos batch table⟩
  · obtain ⟨w, -, table, rfl⟩ := (readPool_eq_ok_iff batch).mp ran
    exact transposes_columnsOf table
  · rw [readPool_eq_ok_iff batch', readPool_eq_ok_iff batch]

/-- A converter for plain decimal numbers. -/
def decimalConverter : TConverter where
  tryFromStringDouble token :=
    if token ≠ [] ∧ token.all Char.isDigit then some (Nat.ofDigitChars 10 token 0 : ℚ) else none
  fromStringUi64 token :=
    if token ≠ [] ∧ token.all Char.isDigit ∧ Nat.ofDigitChars 10 token 0 < 2 ^ 64 then
      some (.ofNat (Nat.ofDigitChars 10 token 0))
    else none

/-- Three lines of two numbers. -/
def threeLines : List Char := ['1', '\t', '2', '\n', '3', '\t', '4', '\n', '5', '\t', '6']

/-- The lines in batches of one and of two, the shorter batch parsed first. -/
theorem readPool_transposes_threeLines :
    ∃ columns, readPool decimalConverter 1 threeLines = .ok columns ∧
      readPool decimalConverter 2 threeLines = .ok columns ∧
      readPoolQueued decimalConverter 2 [1, 0] threeLines = some (.ok columns) ∧
      Transposes decimalConverter [['1', '\t', '2'], ['3', '\t', '4'], ['5', '\t', '6']] columns := by
  obtain ⟨readable, transposes, sizes, queued⟩ := readPool_transposes decimalConverter two_pos threeLines
  obtain ⟨columns, ran⟩ := readable.mpr ⟨by decide, by decide⟩
  have lines : readLines threeLines = [['1', '\t', '2'], ['3', '\t', '4'], ['5', '\t', '6']] := by decide
  have batches : (readBatches 2 (readLines threeLines) 1).length = 2 := by
    rw [lines]
    simp [readBatches]
  refine ⟨columns, (sizes 1 columns (by decide)).mpr ran, ran, ?_, lines ▸ transposes columns ran⟩
  rw [queued [1, 0] (by rw [batches]; exact .swap ..), ran]

end Tables

end Cmicot
