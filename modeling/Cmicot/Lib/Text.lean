import Mathlib.Data.List.Induction
import Mathlib.Data.Nat.Digits.Defs
import Mathlib.Logic.Equiv.Fin.Basic

/-!
Texts made of lines and columns.

A text is a list of characters. Lines are ended by a newline, the last one also by the end of
the text; the columns of a line are separated by a delimiter. A table of rows of one width is
read into its columns row by row, or block of rows by block of rows.

* `readLines_unlines`: printed lines are read back.
* `splitOn_row`: printed columns are read back.
* `columnsOf_concat`, `columnsOf_append`: what one row and what a block of rows adds.
* `exists_equiv_of_perm`: reordered rows, position by position.
-/

namespace Cmicot.Text

/-! ### Lines -/

/-- A line without a carriage return at its end. -/
def stripReturn (line : List Char) : List Char :=
  if line.getLast? = some '\r' then line.dropLast else line

/-- The pieces of a text between the newlines; nothing behind the last newline is no piece. -/
def pieces : List Char → List (List Char)
  | [] => []
  | c :: text =>
    if c = '\n' then [] :: pieces text
    else
      match pieces text with
      | [] => [[c]]
      | piece :: rest => (c :: piece) :: rest

/-- The lines of a text, as they are read one after another. -/
def readLines (text : List Char) : List (List Char) := (pieces text).map stripReturn

/-- The text of some lines. -/
def unlines (lines : List (List Char)) : List Char := (lines.map (· ++ ['\n'])).flatten

theorem unlines_append (xs ys : List (List Char)) : unlines (xs ++ ys) = unlines xs ++ unlines ys := by
  simp [unlines]

theorem pieces_line {line : List Char} (inside : '\n' ∉ line) (rest : List Char) :
    pieces (line ++ '\n' :: rest) = line :: pieces rest := by
  induction line with
  | nil => simp [pieces]
  | cons c line ih =>
    obtain ⟨other, inside⟩ := (List.mem_cons.not.trans not_or).mp inside
    rw [List.cons_append, pieces, if_neg (Ne.symm other), ih inside]

/-- **Printed lines are read back.** -/
theorem readLines_unlines {lines : List (List Char)} (clean : ∀ line ∈ lines, '\n' ∉ line ∧ '\r' ∉ line) :
    readLines (unlines lines) = lines := by
  induction lines with
  | nil => rfl
  | cons line lines ih =>
    obtain ⟨noNewline, noReturn⟩ := clean line List.mem_cons_self
    have strip : stripReturn line = line := if_neg fun last => noReturn (List.mem_of_getLast? last)
    have rest := ih fun other mem => clean other (List.mem_cons_of_mem _ mem)
    have text : unlines (line :: lines) = line ++ '\n' :: unlines lines := by simp [unlines]
    rw [readLines] at rest ⊢
    rw [text, pieces_line noNewline, List.map_cons, strip, rest]

/-! ### Columns of a line -/

/-- A first token and further ones with a delimiter before each. -/
theorem cons_flatten_eq_intercalate (delim : Char) (first : List Char) (tokens : List (List Char)) :
    first ++ (tokens.map (delim :: ·)).flatten = [delim].intercalate (first :: tokens) := by
  induction tokens generalizing first with
  | nil => simp [List.intercalate]
  | cons token tokens ih =>
    rw [List.map_cons, List.flatten_cons, List.cons_append, ih token]
    simp [List.intercalate]

/-- **Printed columns are read back.** -/
theorem splitOn_row {delim : Char} {first : List Char} {tokens : List (List Char)}
    (clean : ∀ token ∈ first :: tokens, delim ∉ token) :
    (first ++ (tokens.map (delim :: ·)).flatten).splitOn delim = first :: tokens := by
  rw [cons_flatten_eq_intercalate]
  exact List.splitOn_intercalate delim clean (List.cons_ne_nil _ _)

/-! ### Decimal numbers -/

/-- A natural number in decimal digits. -/
def printDecimal (n : ℕ) : List Char := Nat.toDigits 10 n

theorem not_mem_printDecimal {c : Char} (other : c.isDigit = false) (n : ℕ) : c ∉ printDecimal n := by
  intro mem
  have digit := Nat.isDigit_of_mem_toDigits (by decide) (by decide) mem
  rw [other] at digit
  cases digit

/-! ### Tables -/

section Tables

variable {α : Type} {d : α} {w : ℕ} {rows done : List (List α)} {row : List α}

/-- The columns of a table of rows of width `w`; a table without rows has no columns. -/
def columnsOf (d : α) (w : ℕ) (rows : List (List α)) : List (List α) :=
  if rows = [] then [] else (List.range w).map fun j => rows.map fun row => row.getD j d

theorem columnsOf_of_ne_nil (some : rows ≠ []) :
    columnsOf d w rows = (List.range w).map fun j => rows.map fun row => row.getD j d := if_neg some

theorem length_columnsOf (some : rows ≠ []) : (columnsOf d w rows).length = w := by
  simp [columnsOf_of_ne_nil some]

theorem columnsOf_eq_nil_iff (pos : 0 < w) : columnsOf d w rows = [] ↔ rows = [] := by
  by_cases none : rows = []
  · simp [columnsOf, none]
  · simp [columnsOf_of_ne_nil none, none, Nat.pos_iff_ne_zero.mp pos]

/-- Columns that are there, or as many empty ones as there will be. -/
def orEmpty (size : ℕ) (columns : List (List α)) : List (List α) :=
  if columns = [] then List.replicate size [] else columns

theorem orEmpty_columnsOf (pos : 0 < w) :
    orEmpty w (columnsOf d w done) = (List.range w).map fun j => done.map fun row => row.getD j d := by
  unfold orEmpty
  simp only [columnsOf_eq_nil_iff pos]
  split
  case isTrue none =>
    subst none
    apply List.ext_getElem <;> simp
  case isFalse some => exact columnsOf_of_ne_nil some

/-- What one more row adds to the columns. -/
theorem columnsOf_concat (pos : 0 < w) (length : row.length = w) :
    List.zipWith (fun column x => column ++ [x]) (orEmpty w (columnsOf d w done)) row =
      columnsOf d w (done ++ [row]) := by
  rw [orEmpty_columnsOf pos, columnsOf_of_ne_nil (by simp)]
  apply List.ext_getElem
  · simp [length]
  · intro j h h'
    have inside : j < row.length := by
      simp at h
      omega
    simp [List.getElem?_eq_getElem inside]

/-- What a block of rows adds to the columns. -/
theorem columnsOf_append (pos : 0 < w) (some : rows ≠ []) :
    List.zipWith (· ++ ·) (orEmpty w (columnsOf d w done)) (columnsOf d w rows) =
      columnsOf d w (done ++ rows) := by
  rw [orEmpty_columnsOf pos, columnsOf_of_ne_nil some, columnsOf_of_ne_nil (by simp [some])]
  apply List.ext_getElem <;> simp

end Tables

/-! ### Reordered lists -/

/-- A reordered list, position by position. -/
theorem exists_equiv_of_perm {α : Type} {xs ys : List α} (perm : xs.Perm ys) :
    ∃ σ : Fin xs.length ≃ Fin ys.length, ∀ i, xs.get i = ys.get (σ i) := by
  induction perm with
  | nil => exact ⟨Equiv.refl _, fun i => rfl⟩
  | cons x _ ih =>
    obtain ⟨σ, same⟩ := ih
    refine ⟨(finSuccEquiv _).trans ((Equiv.optionCongr σ).trans (finSuccEquiv _).symm), fun i => ?_⟩
    cases i using Fin.cases with
    | zero => simp
    | succ i => simpa using same i
  | swap x y rest =>
    refine ⟨Equiv.swap ⟨0, by simp⟩ ⟨1, by simp⟩, fun i => ?_⟩
    match i with
    | ⟨0, _⟩ => simp
    | ⟨1, _⟩ => simp
    | ⟨k + 2, _⟩ =>
      rw [Equiv.swap_apply_of_ne_of_ne (by simp) (by simp)]
      simp
  | trans _ _ first second =>
    obtain ⟨σ, same⟩ := first
    obtain ⟨τ, same'⟩ := second
    exact ⟨σ.trans τ, fun i => (same i).trans (same' _)⟩

end Cmicot.Text
