import Cmicot.Lib.Loop
import Cmicot.Lib.RowMinima
import Cmicot.Lib.Worklist
import Mathlib.Algebra.Order.Group.Int
import Mathlib.Data.List.GetD
import Mathlib.Order.Lattice

/-!
How a layer is filled (`grid_creator/binarization.cpp`).

`ESF` names nine ways to find for every position the best last cut. `E_Base` and `E_Base2` try all
cuts. `E_RLM2`, the mode that is used, keeps a lower and an upper candidate for each position and
moves them towards each other until they meet. The linear modes move a candidate as long as the
error does not grow, `E_Linear_2L`, `E_Safe` and `E_RLM` do so from both sides, and `E_DaC` divides
the positions and the candidates in boxes on a queue. Vector accesses are checked, and so are the
subtractions that mirror an index; the `while` loop and the queue have an explicit bound.
-/

namespace Cmicot.Grid

open Loop RowMinima

/-- What would be undefined behaviour or an endless loop. -/
inductive Fault
  | outOfRange
  | unfinished
deriving DecidableEq, Repr

/-- The modes. -/
inductive ESF
  | base
  | oldLinear
  | base2
  | linear
  | linear2L
  | safe
  | rlm
  | rlm2
  | daC
deriving DecidableEq, Repr

/-- The modes with a position for every weight. -/
def ESF.wide : ESF → Bool
  | base | oldLinear => true
  | _ => false

/-- `xs[i]`. -/
def read {α : Type} (xs : List α) (i : ℕ) : Except Fault α :=
  match xs[i]? with
  | some x => .ok x
  | none => .error .outOfRange

/-- `xs[i] = x`. -/
def write {α : Type} (xs : List α) (i : ℕ) (x : α) : Except Fault (List α) :=
  if i < xs.length then .ok (xs.set i x) else .error .outOfRange

/-- `dsize - i - 1`, an underflow if `i` is not below `dsize`. -/
def mirror (dsize i : ℕ) : Except Fault ℕ := if i < dsize then .ok (dsize - i - 1) else .error .outOfRange

/-! ### E_RLM2 -/

/-- The candidates of one position, `bs1[j]`, `bs2[j]`, `e1[j]` and `e2[j]`. -/
structure Cell (R : Type) where
  bs1 : ℕ
  bs2 : ℕ
  e1 : R
  e2 : R
deriving DecidableEq, Repr

section Candidates

variable {R : Type} [Add R] [LT R] [DecidableLT R]

/-- The loop that goes on while the error does not grow: at most `count` steps from `i`. -/
def climb (err : ℕ → Except Fault R) (eps : R) : ℕ → ℕ → R → Except Fault (ℕ × R)
  | 0, i, bestError => .ok (i, bestError)
  | count + 1, i, bestError => do
    let newError ← err i
    if bestError + eps < newError then return (i, bestError)
    climb err eps count (i + 1) newError

/-- The loop that looks for a smaller error: at most `count` steps from `i`. -/
def seek (err : ℕ → Except Fault R) (eps : R) : ℕ → ℕ → R → Except Fault (ℕ × R)
  | 0, i, bestError => .ok (i, bestError)
  | count + 1, i, bestError => do
    let newError ← err i
    if newError + eps < bestError then return (i, newError)
    seek err eps count (i + 1) bestError

/-- Both loops together, as long as `i + 1 < maxi`; `maxi` is the result if no smaller error
was found. -/
def descend (err : ℕ → Except Fault R) (eps : R) (maxi i : ℕ) (bestError : R) : Except Fault (ℕ × R) := do
  let (i, bestError) ← seek err eps (maxi - 1 - i) i bestError
  if maxi ≤ i + 1 then return (maxi, bestError)
  let (i, bestError) ← climb err eps (maxi - 1 - (i + 1)) (i + 1) bestError
  return (i - 1, bestError)

variable (err : ℕ → ℕ → Except Fault R) (eps : R) (dsize : ℕ)

/-- One position of the first forward loop. -/
def forwardStart (j : ℕ) (st : ℕ × List (Cell R)) : Except Fault (ℕ × List (Cell R)) := do
  let (i, cells) := st
  let bestError ← err j i
  let (i, bestError) ← climb (err j) eps (j - i) (i + 1) bestError
  let cell ← read cells j
  let cells ← write cells j { cell with bs1 := i - 1, e1 := bestError }
  return (i - 1, cells)

/-- One position of an inverted loop, the first or a later one. -/
def invertedStep (j : ℕ) (st : ℕ × List (Cell R)) : Except Fault (ℕ × List (Cell R)) := do
  let (i, cells) := st
  let r ← mirror dsize j
  let cell ← read cells r
  let maxi ← mirror dsize cell.bs1
  if maxi ≤ i + 1 then
    let cells ← write cells r { cell with bs2 := cell.bs1, e2 := cell.e1 }
    return (maxi, cells)
  let (i, bestError) ← descend (fun i => do err r (← mirror dsize i)) eps maxi i cell.e1
  let cells ← write cells r { cell with bs2 := ← mirror dsize i, e2 := bestError }
  return (i, cells)

/-- One position of a later forward loop. -/
def forwardStep (j : ℕ) (cell : Cell R) (st : ℕ × List (Cell R)) : Except Fault (ℕ × List (Cell R)) := do
  let (i, cells) := st
  let maxi := cell.bs2
  if maxi ≤ i + 1 then
    let cells ← write cells j { cell with bs1 := maxi, e1 := cell.e2 }
    return (maxi, cells)
  let (i, bestError) ← descend (err j) eps maxi i cell.e2
  let cells ← write cells j { cell with bs1 := i, e1 := bestError }
  return (i, cells)

/-- A later forward loop over `count` positions from `j`; the result has `maxj`. -/
def forwardLoop : ℕ → ℕ → ℕ × List (Cell R) → Except Fault (ℕ × List (Cell R))
  | 0, j, st => .ok (j, st.2)
  | count + 1, j, st => do
    let cell ← read st.2 j
    if st.1 ≤ cell.bs1 then return (j, st.2)
    let st ← forwardStep err eps j cell st
    forwardLoop count (j + 1) st

/-- One pass of the `while` loop at position `k`. -/
def rebuildPass (k : ℕ) (cell : Cell R) (cells : List (Cell R)) : Except Fault (List (Cell R)) := do
  let (maxj, cells) ← forwardLoop err eps (dsize - k) k (cell.bs1 + 2, cells)
  let j1 := dsize - maxj
  let j2 := dsize - k
  let last ← read cells (← mirror dsize j1)
  let i := (← mirror dsize last.bs2) + 2
  let (_, cells) ← forSteps (invertedStep err eps dsize) j1 (j2 - j1) (i, cells)
  return cells

/-- The `while` loop at position `k`, with a bound on its passes. -/
def rebuild (k : ℕ) : ℕ → List (Cell R) → Except Fault (List (Cell R))
  | 0, cells => do
    let cell ← read cells k
    if cell.bs1 + 1 < cell.bs2 then throw .unfinished
    return cells
  | passes + 1, cells => do
    let cell ← read cells k
    if ¬ cell.bs1 + 1 < cell.bs2 then return cells
    rebuild k passes (← rebuildPass err eps dsize k cell cells)

/-- The main loop body for `E_RLM2`: `bestSolutions[l]` and `current_error`. -/
def layerRlm2 (cells : List (Cell R)) : Except Fault (List ℕ × List R × List (Cell R)) := do
  let (_, cells) ← forSteps (forwardStart err eps) 0 dsize (0, cells)
  let (_, cells) ← forSteps (fun j st => invertedStep err eps dsize j (max st.1 j, st.2)) 0 dsize (0, cells)
  forSteps
    (fun k st => do
      let cells ← rebuild err eps dsize k dsize st.2.2
      let cell ← read cells k
      return (st.1 ++ [cell.bs1], st.2.1 ++ [cell.e1], cells))
    0 dsize ([], [], cells)

/-! ### E_Base and E_Base2 -/

/-- The candidates that `E_Base2` and the last match try after the first, in order. -/
def tryAll (err : ℕ → Except Fault R) (better : R → R → Bool) (j : ℕ) : Except Fault (ℕ × R) := do
  forSteps
    (fun i st => do
      let newError ← err i
      return if better newError st.2 then (i, newError) else st)
    1 j (0, ← err 0)

/-- The main loop body for both. -/
def layerBase2 : Except Fault (List ℕ × List R) := do
  forSteps
    (fun j st => do
      let (bestIndex, bestError) ← tryAll (err j) (fun newError bestError => !decide (bestError < newError)) j
      return (st.1 ++ [bestIndex], st.2 ++ [bestError]))
    0 dsize ([], [])

end Candidates

section Layer

variable {R : Type} [Zero R] [Add R] [Sub R] [LT R] [DecidableLT R]

/-- Further candidates, `count` of them from `i` on, in order. -/
def scan (err : ℕ → Except Fault R) (better : R → R → Bool) (i count : ℕ) (best : ℕ × R) : Except Fault (ℕ × R) :=
  forSteps
    (fun i st => do
      let newError ← err i
      return if better newError st.2 then (i, newError) else st)
    i count best

variable (err : ℕ → ℕ → Except Fault R) (eps : R) (dsize : ℕ)

/-! ### E_Linear and E_Old_Linear -/

/-- One position; the candidates before `last` are tried. -/
def linearStep (last : ℕ → ℕ) (j : ℕ) (st : ℕ × List ℕ × List R) : Except Fault (ℕ × List ℕ × List R) := do
  let (i, solutions, errors) := st
  let bestError ← err j i
  let (i, bestError) ← climb (err j) eps (last j - (i + 1)) (i + 1) bestError
  return (i - 1, solutions ++ [i - 1], errors ++ [bestError])

/-- The main loop body for `E_Linear` (`last j` is `j + 1`) and `E_Old_Linear` (`last j` is `j`). -/
def layerLinear (last : ℕ → ℕ) : Except Fault (List ℕ × List R) := do
  let (_, solutions, errors) ← forSteps (linearStep err eps last) 0 dsize (0, [], [])
  return (solutions, errors)

/-! ### E_Linear_2L and E_Safe -/

/-- One position of the second loop, which is inverted. -/
def backwardStep (j : ℕ) (st : ℕ × List (Cell R)) : Except Fault (ℕ × List (Cell R)) := do
  let (left, cells) := st
  let left := max left j
  let r ← mirror dsize j
  let mirrored := fun left => do err r (← mirror dsize left)
  let bestError ← mirrored left
  let (left, bestError) ← climb mirrored eps (dsize - (left + 1)) (left + 1) bestError
  let cell ← read cells r
  let cells ← write cells r { cell with bs2 := ← mirror dsize (left - 1), e2 := bestError }
  return (left - 1, cells)

/-- Both loops. -/
def twoLoops (cells : List (Cell R)) : Except Fault (List (Cell R)) := do
  let (_, cells) ← forSteps (forwardStart err eps) 0 dsize (0, cells)
  let (_, cells) ← forSteps (backwardStep err eps dsize) 0 dsize (0, cells)
  return cells

/-- "Set best" for `E_Linear_2L`. -/
def setBest2L (cell : Cell R) : ℕ × R :=
  if cell.e1 < cell.e2 + eps then (cell.bs1, cell.e1) else (cell.bs2, cell.e2)

/-- "Set best" for `E_Safe`. -/
def setBestSafe (j : ℕ) (cell : Cell R) : Except Fault (ℕ × R) :=
  scan (err j) (fun newError bestError => !decide (bestError < newError)) (cell.bs1 + 1) (cell.bs2 - cell.bs1)
    (cell.bs1, cell.e1)

/-- The last loop of both modes: `bestSolutions[l]` and `current_error`. -/
def setBest (choose : ℕ → Cell R → Except Fault (ℕ × R)) (cells : List (Cell R)) : Except Fault (List ℕ × List R) :=
  forSteps
    (fun j st => do
      let (bestIndex, bestError) ← choose j (← read cells j)
      return (st.1 ++ [bestIndex], st.2 ++ [bestError]))
    0 dsize ([], [])

/-! ### E_RLM -/

/-- Step 1: the first position from `j2` on whose candidates have met. -/
def firstMet (cells : List (Cell R)) : ℕ → ℕ → Except Fault ℕ
  | 0, j2 => .ok j2
  | count + 1, j2 => do
    let cell ← read cells j2
    if cell.bs2 ≤ cell.bs1 + 1 then return j2
    firstMet cells count (j2 + 1)

/-- The comparison of steps 2 and 4. -/
def smaller (newError bestError : R) : Bool := decide (newError < bestError - eps)

/-- Both candidates of a position. -/
def settle (cells : List (Cell R)) (j : ℕ) (best : ℕ × R) : Except Fault (List (Cell R)) :=
  write cells j ⟨best.1, best.1, best.2, best.2⟩

/-- Step 3, if it is required. -/
def rebuildFirst (required : Bool) (j1 j2 i : ℕ) (cells : List (Cell R)) : Except Fault (List (Cell R)) :=
  if required then Prod.snd <$> forSteps (forwardStart err eps) (j1 + 1) (j2 - j1) (i, cells) else .ok cells

/-- Step 5, if it is required. -/
def rebuildSecond (required : Bool) (j1 j2 i : ℕ) (cells : List (Cell R)) : Except Fault (List (Cell R)) :=
  if required then do
    Prod.snd <$> forSteps (backwardStep err eps dsize) (dsize - j2) (j2 - j1 - 1) (← mirror dsize i, cells)
  else .ok cells

/-- Steps 2 to 5 for the positions from `j1` to `j2`. -/
def rebuild2L (j1 j2 : ℕ) (cell : Cell R) (cells : List (Cell R)) : Except Fault (List (Cell R)) := do
  -- step 2: `bs1[j1] + 1` has been checked before
  let ideal1 ← scan (err j1) (smaller eps) (cell.bs1 + 2) (cell.bs2 + 1 - (cell.bs1 + 2)) (cell.bs1, cell.e1)
  let cells ← settle cells j1 ideal1
  if ¬ j1 + 1 < j2 then return cells
  let cells ← rebuildFirst err eps (cell.bs1 ≠ ideal1.1) j1 j2 ideal1.1 cells
  -- step 4: `bs2[j2] - 1` has been checked before, and must not underflow
  let cell ← read cells j2
  if cell.bs2 = 0 then throw .outOfRange
  let ideal2 ← scan (err j2) (smaller eps) cell.bs1 (cell.bs2 - 1 - cell.bs1) (cell.bs2, cell.e2)
  let cells ← settle cells j2 ideal2
  rebuildSecond err eps dsize (cell.bs2 ≠ ideal2.1) j1 j2 ideal2.1 cells

/-- The candidates of a position, rebuilt if they are apart. -/
def rebuildAt (j : ℕ) (cell : Cell R) (cells : List (Cell R)) : Except Fault (List (Cell R)) :=
  if cell.bs2 ≤ cell.bs1 + 1 then .ok cells
  else do rebuild2L err eps dsize j ((← firstMet cells (dsize - (j + 1)) (j + 1)) - 1) cell cells

/-- One position. The results of step 4 are written again when it is the turn of `j2`. -/
def rlmStep (j : ℕ) (st : List ℕ × List R × List (Cell R)) : Except Fault (List ℕ × List R × List (Cell R)) := do
  let (solutions, errors, cells) := st
  let cell ← read cells j
  let cells ← rebuildAt err eps dsize j cell cells
  let cell ← read cells j
  return (solutions ++ [cell.bs1], errors ++ [cell.e1], cells)

/-- The main loop body for `E_RLM`. -/
def layerRlm (cells : List (Cell R)) : Except Fault (List ℕ × List R × List (Cell R)) := do
  let cells ← twoLoops err eps dsize cells
  forSteps (rlmStep err eps dsize) 0 dsize ([], [], cells)

/-! ### E_DaC -/

/-- `bestSolutions[l]`, `current_error` and, for the bound on the time, how often `Penalty` was called. -/
structure Division (R : Type) where
  solutions : List ℕ
  errors : List R
  calls : ℕ

/-- One position of a box with a single candidate. -/
def fixedStep (i j : ℕ) (st : Division R) : Except Fault (Division R) := do
  let error ← err j i
  return ⟨← write st.solutions j i, ← write st.errors j error, st.calls + 1⟩

/-- A box from the front of the queue, and the boxes that are pushed. -/
def divide (box : Box) (st : Division R) : Except Fault (List Box × Division R) := do
  if box.jend ≤ box.jbegin then return ([], st)
  if box.iend - box.ibegin = 1 then
    let st ← forSteps (fixedStep err box.ibegin) box.jbegin (box.jend - box.jbegin) st
    return ([], st)
  let j := (box.jbegin + box.jend) / 2
  let iend2 := min box.iend (j + 1)
  let bestError ← err j box.ibegin
  let (bestIndex, bestError) ← scan (err j) (fun newError bestError => !decide (bestError < newError))
    (box.ibegin + 1) (iend2 - (box.ibegin + 1)) (box.ibegin, bestError)
  let st : Division R :=
    ⟨← write st.solutions j bestIndex, ← write st.errors j bestError, st.calls + 1 + (iend2 - (box.ibegin + 1))⟩
  return ([⟨box.jbegin, j, box.ibegin, bestIndex + 1⟩, ⟨j + 1, box.jend, bestIndex, box.iend⟩], st)

/-- The main loop body for `E_DaC`. -/
def layerDaC : Except Fault (Division R) :=
  Worklist.drain (divide err) .unfinished (2 * dsize + 1) [⟨0, dsize, 0, dsize⟩]
    ⟨List.replicate dsize 0, List.replicate dsize 0, 0⟩

/-! ### Any mode -/

/-- The main loop body: `bestSolutions[l]`, `current_error` and the candidates. -/
def modeLayer (mode : ESF) (cells : List (Cell R)) : Except Fault (List ℕ × List R × List (Cell R)) :=
  match mode with
  | .base | .base2 => do
    let (solutions, errors) ← layerBase2 err dsize
    return (solutions, errors, cells)
  | .oldLinear => do
    let (solutions, errors) ← layerLinear err eps dsize id
    return (solutions, errors, cells)
  | .linear => do
    let (solutions, errors) ← layerLinear err eps dsize (· + 1)
    return (solutions, errors, cells)
  | .linear2L => do
    let cells ← twoLoops err eps dsize cells
    let (solutions, errors) ← setBest dsize (fun _ cell => .ok (setBest2L eps cell)) cells
    return (solutions, errors, cells)
  | .safe => do
    let cells ← twoLoops err eps dsize cells
    let (solutions, errors) ← setBest dsize (setBestSafe err) cells
    return (solutions, errors, cells)
  | .rlm => layerRlm err eps dsize cells
  | .rlm2 => layerRlm2 err eps dsize cells
  | .daC => do
    let division ← layerDaC err dsize
    return (division.solutions, division.errors, cells)

end Layer

end Cmicot.Grid
