import Cmicot.Grid.Modes

/-!
The dynamic programme behind `minEntropy` and `maxSumLog` (`grid_creator/binarization.cpp`).

`BestSplit` cuts a list of weights into consecutive groups. Layer by layer it finds for every
position the best last cut, in the way of the mode, and follows the cuts back from the end. Two of
the modes let groups be empty and use the sums directly; the others shift positions by the layer.
-/

namespace Cmicot.Grid

open Loop

/-- The penalties. -/
inductive EPenaltyType
  | minEntropy
  | maxSumLog
  | w2
deriving DecidableEq, Repr

section BestSplit

variable {W R : Type} [Zero W] [Add W] [Sub W] [Zero R] [Add R] [Sub R] [LT R] [DecidableLT R]

/-- `sweights[i] += sweights[i - 1]`. -/
def partialSums (start : W) : List W → List W
  | [] => []
  | w :: ws => (start + w) :: partialSums (start + w) ws

/-- `prevError[i] + Penalty(sweights[l + j + 1] - sweights[l + i])`. -/
def errorAt (penalty : W → R) (sweights : List W) (prevError : List R) (l j i : ℕ) : Except Fault R := do
  return (← read prevError i) + penalty ((← read sweights (l + j + 1)) - (← read sweights (l + i)))

/-- `prevError[i] + Penalty(...)`: the wide modes take the sums of the positions themselves. -/
def modeError (mode : ESF) (penalty : W → R) (sweights : List W) (prevError : List R) (l j i : ℕ) :
    Except Fault R :=
  if mode.wide then do
    return (← read prevError i) + penalty ((← read sweights j) - (← read sweights i))
  else errorAt penalty sweights prevError l j i

/-- The layers `l, ..., l + count - 1`: `bestSolutions`, the last one first, the errors and the candidates. -/
def layers (mode : ESF) (penalty : W → R) (eps : R) (sweights : List W) (dsize : ℕ) :
    ℕ → ℕ → List (List ℕ) × List R × List (Cell R) → Except Fault (List (List ℕ) × List R × List (Cell R)) :=
  forSteps fun l st => do
    let (solutions, errors, cells) ← modeLayer (modeError mode penalty sweights st.2.1 l) eps dsize mode st.2.2
    return (solutions :: st.1, errors, cells)

/-- The layers of `E_DaC`, with the calls of `Penalty` in all of them. -/
def countedLayers (penalty : W → R) (sweights : List W) (dsize : ℕ) :
    ℕ → ℕ → (List (List ℕ) × List R × List (Cell R)) × ℕ →
      Except Fault ((List (List ℕ) × List R × List (Cell R)) × ℕ) :=
  forSteps fun l counted => do
    let (st, calls) := counted
    let division ← layerDaC (modeError .daC penalty sweights st.2.1 l) dsize
    return ((division.solutions :: st.1, division.errors, st.2.2), calls + division.calls)

/-- The indices of the last cuts, from `bestSolutions` with the last layer first. -/
def backtrack : List (List ℕ) → ℕ → Except Fault (List ℕ)
  | [], bestIndex => .ok [bestIndex]
  | solutions :: earlier, bestIndex => do
    return (← backtrack earlier (← read solutions bestIndex)) ++ [bestIndex]

/-- The thresholds of the back-tracked indices. -/
def adjust (indices : List ℕ) : List ℕ := indices.zipIdx.map fun entry => entry.1 + entry.2

/-- `BestSplit(weights, bordersCount, thresholds, type, mode)` with no thresholds before. -/
def bestSplit (mode : ESF) (penalty : W → R) (eps : R) (weights : List W) (bordersCount : ℕ) :
    Except Fault (List ℕ) := do
  let bins := bordersCount + 1
  if bins ≤ 1 ∨ weights.length = 0 then return []
  let wsize := weights.length
  if wsize ≤ bins then return List.range (wsize - 1) ++ List.replicate (bins - 1 - (wsize - 1)) (wsize - 1)
  let sweights := partialSums 0 weights
  let dsize := if mode.wide then wsize else wsize - bins + 1
  let errors ← (List.range dsize).mapM fun i => do return penalty (← read sweights i)
  let (solutions, errors, _) ← layers mode penalty eps sweights dsize 0 (bins - 2)
    ([], errors, List.replicate dsize ⟨0, 0, 0, 0⟩)
  let (bestIndex, _) ← tryAll (modeError mode penalty sweights errors (bins - 2) (dsize - 1))
    (fun newError bestError => decide (newError < bestError)) (dsize - 1)
  let thresholds ← backtrack solutions bestIndex
  return if mode.wide then thresholds else adjust thresholds

end BestSplit

end Cmicot.Grid
