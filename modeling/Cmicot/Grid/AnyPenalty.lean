import Cmicot.Grid.Optimum

/-!
The dynamic programme with any penalty (`grid_creator/binarization.cpp`).

Without convexity nothing is known of the cost, but the loops of `E_RLM2` still stay inside their
vectors and end. `Rebuilding` follows the `while` loop from test to test. Every pass from there
raises the lower candidate of its position, which is a column, so there are fewer passes than
columns. There is one threshold for each border; some may repeat.

* `Rebuilding.pass`: a pass of the `while` loop.
* `Rebuilding.layer`: what `layerRlm2` computes is reached by such passes.
* `bestSplit_rlm2_inside`: the thresholds, also where there are few weights.
* `bestSplit_rlm2_terminates`: a whole run.
-/

namespace Cmicot.Grid

open Loop

/-! ### The passes of a layer -/

section Passes

variable {R : Type} [Add R] [LinearOrder R] {err : ℕ → ℕ → Except Fault R} {E : ℕ → ℕ → R} {eps : R} {d k : ℕ}
  {cell : Cell R} {cells current next : List (Cell R)}

/-- The candidates at a test of the `while` loop at position `k`, in a layer that begins with `cells`. -/
inductive Rebuilding (err : ℕ → ℕ → Except Fault R) (eps : R) (dsize : ℕ) (cells : List (Cell R)) :
    ℕ → List (Cell R) → Prop
  | opened {forward inverted : ℕ × List (Cell R)}
      (first : forSteps (forwardStart err eps) 0 dsize (0, cells) = .ok forward)
      (second : forSteps (fun j st => invertedStep err eps dsize j (max st.1 j, st.2)) 0 dsize (0, forward.2) =
        .ok inverted) :
      Rebuilding err eps dsize cells 0 inverted.2
  | passed {k : ℕ} {cell : Cell R} {current next : List (Cell R)} (before : Rebuilding err eps dsize cells k current)
      (at_k : current[k]? = some cell) (more : cell.bs1 + 1 < cell.bs2)
      (pass : rebuildPass err eps dsize k cell current = .ok next) : Rebuilding err eps dsize cells k next
  | moved {k : ℕ} {cell : Cell R} {current : List (Cell R)} (before : Rebuilding err eps dsize cells k current)
      (at_k : current[k]? = some cell) (met : ¬ cell.bs1 + 1 < cell.bs2) :
      Rebuilding err eps dsize cells (k + 1) current

theorem Rebuilding.settled (reads : ∀ j < d, ∀ m < d, err j m = .ok (E j m)) (size : cells.length = d)
    (rebuilding : Rebuilding err eps d cells k current) :
    current.length = d ∧ ∀ m cell, k ≤ m → current[m]? = some cell → Settled E eps d m cell := by
  induction rebuilding with
  | opened first second =>
    obtain ⟨forward, inverted, ran, ran', size', settled⟩ := candidates_ok eps reads size
    cases first.symm.trans ran
    cases second.symm.trans ran'
    exact ⟨size', fun m cell _ at_m => settled m cell at_m⟩
  | passed before at_k more pass ih =>
    obtain ⟨size', settled⟩ := ih
    obtain ⟨next, passed, size'', settled', -⟩ := rebuildPass_ok reads size' settled at_k more
    cases pass.symm.trans passed
    exact ⟨size'', settled'⟩
  | moved before at_k met ih =>
    obtain ⟨size', settled⟩ := ih
    exact ⟨size', fun m cell after at_m => settled m cell (Nat.le_of_succ_le after) at_m⟩

/-- **A pass of the `while` loop**: the forward loop ends at a `maxj` that can be subtracted from
`dsize`, and the lower candidate rises and stays a column. -/
theorem Rebuilding.pass (reads : ∀ j < d, ∀ m < d, err j m = .ok (E j m)) (size : cells.length = d)
    (rebuilding : Rebuilding err eps d cells k current) (at_k : current[k]? = some cell)
    (more : cell.bs1 + 1 < cell.bs2) :
    ∃ maxj forwarded next cell', forwardLoop err eps (d - k) k (cell.bs1 + 2, current) = .ok (maxj, forwarded) ∧
      k < maxj ∧ maxj ≤ d ∧ rebuildPass err eps d k cell current = .ok next ∧ next[k]? = some cell' ∧
      cell.bs1 < cell'.bs1 ∧ cell'.bs1 < d := by
  obtain ⟨size', settled⟩ := rebuilding.settled reads size
  obtain ⟨maxj, forwarded, -, loop, -, low, high, -⟩ := forwardPass_ok reads size' settled at_k more
  obtain ⟨next, passed, size'', settled', moved⟩ := rebuildPass_ok reads size' settled at_k more
  have inside : k < next.length := by
    have := (List.getElem?_eq_some_iff.mp at_k).1
    omega
  have at_next := List.getElem?_eq_getElem inside
  exact ⟨maxj, forwarded, next, next[k], loop, low, high, passed, at_next, moved _ at_next,
    (settled' k _ le_rfl at_next).lower.lt⟩

/-- The `while` loop goes from test to test. -/
theorem Rebuilding.rebuild {passes : ℕ} (rebuilding : Rebuilding err eps d cells k current)
    (ran : rebuild err eps d k passes current = .ok next) :
    ∃ cell, next[k]? = some cell ∧ ¬ cell.bs1 + 1 < cell.bs2 ∧ Rebuilding err eps d cells k next := by
  induction passes generalizing current with
  | zero =>
    obtain ⟨cell, at_k, rest⟩ := bind_eq_ok.mp ran
    split at rest
    case isTrue => cases rest
    case isFalse met =>
      cases rest
      exact ⟨cell, getElem?_of_read at_k, met, rebuilding⟩
  | succ passes ih =>
    obtain ⟨cell, at_k, rest⟩ := bind_eq_ok.mp ran
    split at rest
    case isTrue met =>
      cases rest
      exact ⟨cell, getElem?_of_read at_k, met, rebuilding⟩
    case isFalse more =>
      obtain ⟨passed, pass, rest⟩ := bind_eq_ok.mp rest
      exact ih (rebuilding.passed (getElem?_of_read at_k) (not_not.mp more) pass) rest

/-- Every layer is such a sequence of tests, up to the one behind the last position. -/
theorem Rebuilding.layer {solutions : List ℕ} {errors : List R}
    (ran : layerRlm2 err eps d cells = .ok (solutions, errors, next)) : Rebuilding err eps d cells d next := by
  obtain ⟨forward, first, rest⟩ := bind_eq_ok.mp ran
  obtain ⟨inverted, second, rest⟩ := bind_eq_ok.mp rest
  have reached := forSteps_inv (I := fun k st => Rebuilding err eps d cells k st.2.2) rest (.opened first second)
    fun k st st' before step => by
      obtain ⟨rebuilt, ran, step⟩ := bind_eq_ok.mp step
      obtain ⟨cell, at_k, met, after⟩ := before.rebuild ran
      obtain ⟨_, -, eq⟩ := bind_eq_ok.mp step
      cases eq
      exact after.moved at_k met
  rwa [Nat.zero_add] at reached

end Passes

/-! ### Thresholds for any penalty -/

section Thresholds

variable {W R : Type} {penalty : W → R} {weights sweights : List W} {d l : ℕ}

theorem length_partialSums [Add W] (start : W) (weights : List W) :
    (partialSums start weights).length = weights.length := by
  induction weights generalizing start with
  | nil => rfl
  | cons w rest ih => rw [partialSums, List.length_cons, List.length_cons, ih]

theorem read_inside {α : Type} {xs : List α} {i : ℕ} (x : α) (inside : i < xs.length) : read xs i = .ok (xs.getD i x) :=
  read_ok (by rw [List.getD_eq_getElem _ _ inside, List.getElem?_eq_getElem])

/-- What holds before layer `l` for any penalty: the tables have their sizes and name columns. -/
structure Inside (d l : ℕ) (st : List (List ℕ) × List R × List (Cell R)) : Prop where
  count : st.1.length = l
  rows : ∀ row ∈ st.1, row.length = d ∧ ∀ b ∈ row, b < d
  errors : st.2.1.length = d
  cells : st.2.2.length = d

theorem backtrack_inside {solutions : List (List ℕ)} {b : ℕ}
    (rows : ∀ row ∈ solutions, row.length = d ∧ ∀ b ∈ row, b < d)
    (inside : b < d) :
    ∃ indices, backtrack solutions b = .ok indices ∧ indices.length = solutions.length + 1 ∧ ∀ i ∈ indices, i < d := by
  induction solutions generalizing b with
  | nil => exact ⟨[b], rfl, rfl, by simpa using inside⟩
  | cons row earlier ih =>
    obtain ⟨length, columns⟩ := rows row List.mem_cons_self
    have lt : b < row.length := length ▸ inside
    have mem : row.getD b 0 ∈ row := by
      rw [List.getD_eq_getElem _ _ lt]
      exact List.getElem_mem _
    obtain ⟨indices, tracked, count, bound⟩ := ih (fun other listed => rows other (List.mem_cons_of_mem _ listed))
      (columns _ mem)
    refine ⟨indices ++ [b], ?_, ?_, fun i listed => ?_⟩
    · simp only [backtrack, read_inside 0 lt, ok_bind, tracked, pure_eq_ok]
    · rw [List.length_append, List.length_singleton, count, List.length_cons]
    · rcases List.mem_append.mp listed with listed | listed
      · exact bound i listed
      · rwa [List.mem_singleton.mp listed]

theorem adjust_lt {indices : List ℕ} (bound : ∀ i ∈ indices, i < d) {t : ℕ} (mem : t ∈ adjust indices) :
    t + 1 < d + indices.length := by
  obtain ⟨⟨i, k⟩, listed, rfl⟩ := List.mem_map.mp mem
  obtain ⟨-, lt, eq⟩ := List.mem_zipIdx listed
  have := bound i (by rw [eq]; exact List.getElem_mem _)
  simp only [Nat.zero_add] at lt
  omega

variable [Zero W] [Zero R]

/-- The state before the first layer. -/
theorem start_inside [Add W] (penalty : W → R) (inside : d ≤ weights.length) :
    ∃ errors, (List.range d).mapM (fun i => do return penalty (← read (partialSums 0 weights) i)) = .ok errors ∧
      Inside d 0 ([], errors, List.replicate d ⟨0, 0, 0, 0⟩) := by
  have size := length_partialSums 0 weights
  refine ⟨(List.range d).map fun i => penalty ((partialSums 0 weights).getD i 0), mapM_ok fun i mem => ?_,
    rfl, by simp, by simp, List.length_replicate⟩
  have := List.mem_range.mp mem
  rw [read_inside 0 (by omega)]
  rfl

variable [Add R] [Sub W]

theorem errorAt_inside {prevError : List R} {j i : ℕ} (column : i < prevError.length)
    (row : l + j + 1 < sweights.length) (start : l + i < sweights.length) :
    errorAt penalty sweights prevError l j i =
      .ok (prevError.getD i 0 + penalty (sweights.getD (l + j + 1) 0 - sweights.getD (l + i) 0)) := by
  simp only [errorAt, read_inside 0 column, read_inside 0 row, read_inside 0 start, ok_bind, pure_eq_ok]

theorem Inside.reads (penalty : W → R) {st : List (List ℕ) × List R × List (Cell R)} (inside : Inside d l st)
    (room : l + d < sweights.length) :
    ∀ j < d, ∀ m < d, errorAt penalty sweights st.2.1 l j m =
      .ok (st.2.1.getD m 0 + penalty (sweights.getD (l + j + 1) 0 - sweights.getD (l + m) 0)) := by
  intro j row m column
  have size := inside.errors
  exact errorAt_inside (by omega) (by omega) (by omega)

variable [Sub R] [LinearOrder R]

theorem layers_inside (penalty : W → R) (eps : R) {count : ℕ} (room : count + d ≤ sweights.length)
    {st : List (List ℕ) × List R × List (Cell R)} (start : Inside d 0 st) :
    ∃ st', layers .rlm2 penalty eps sweights d 0 count st = .ok st' ∧ Inside d count st' := by
  have run : ∃ st', layers .rlm2 penalty eps sweights d 0 count st = .ok st' ∧ Inside d (0 + count) st' := by
    refine forSteps_ok (I := Inside d) start fun l st _ lt inside => ?_
    obtain ⟨row, errors, cells', layer, size', length, eq, best⟩ :=
      layerRlm2_ok eps (inside.reads penalty (show l + d < sweights.length by omega)) inside.cells
    have filled : modeLayer (modeError .rlm2 penalty sweights st.2.1 l) eps d .rlm2 st.2.2 =
      .ok (row, errors, cells') := layer
    refine ⟨(row :: st.1, errors, cells'), by simp only [filled, ok_bind, pure_eq_ok], ?_, ?_, ?_, size'⟩
    · exact congrArg (· + 1) inside.count
    · intro other mem
      rcases List.mem_cons.mp mem with rfl | mem
      · refine ⟨length, fun b listed => ?_⟩
        obtain ⟨m, at_m⟩ := List.mem_iff_getElem?.mp listed
        exact (best m b at_m).lt
      · exact inside.rows other mem
    · show errors.length = d
      rw [eq, List.length_mapIdx, length]
  rwa [Nat.zero_add] at run

variable [Add W]

/-- With more weights than groups every threshold has a weight behind it. -/
theorem bestSplit_rlm2_many (penalty : W → R) (eps : R) (more : l + 1 + 1 < weights.length) :
    ∃ ts, bestSplit .rlm2 penalty eps weights (l + 1) = .ok ts ∧ ts.length = l + 1 ∧
      ∀ t ∈ ts, t + 1 < weights.length := by
  obtain ⟨d, whole⟩ : ∃ d, l + d + 1 = weights.length := ⟨weights.length - (l + 1), by omega⟩
  have size := length_partialSums 0 weights
  obtain ⟨start, first, begun⟩ := start_inside penalty (show d ≤ weights.length by omega)
  have room : l + d ≤ (partialSums 0 weights).length := by omega
  obtain ⟨⟨solutions, errors, cells⟩, ran, inside⟩ := layers_inside penalty eps room begun
  have columns : errors.length = d := inside.errors
  have count : solutions.length = l := inside.count
  have rows : ∀ row ∈ solutions, row.length = d ∧ ∀ b ∈ row, b < d := inside.rows
  obtain ⟨b, tried, le, -⟩ := tryAll_ok (modeError .rlm2 penalty (partialSums 0 weights) errors l (d - 1))
    (fun newError bestError => decide (newError < bestError)) (j := d - 1)
    (fun m le => (modeError_narrow rfl).trans (errorAt_inside (by omega) (by omega) (by omega)))
    (fun x y yes => (of_decide_eq_true yes).le) (fun x y no => not_lt.mp (of_decide_eq_false no))
  obtain ⟨indices, tracked, length, bound⟩ := backtrack_inside rows (show b < d by omega)
  refine ⟨adjust indices, bestSplit_of_parts rfl whole more first ran tried tracked, ?_, fun t mem => ?_⟩
  · rw [length_adjust, length, count]
  · have := adjust_lt bound mem
    omega

/-- **Thresholds for any penalty**: as many as there are borders, each at a weight. -/
theorem bestSplit_rlm2_inside (penalty : W → R) (eps : R) (some : weights ≠ []) (bordersCount : ℕ) :
    ∃ ts, bestSplit .rlm2 penalty eps weights bordersCount = .ok ts ∧ ts.length = bordersCount ∧
      ∀ t ∈ ts, t < weights.length := by
  cases bordersCount with
  | zero => exact ⟨[], rfl, rfl, by simp⟩
  | succ l =>
    by_cases few : weights.length ≤ l + 1 + 1
    · exact ⟨_, bestSplit_few .rlm2 penalty eps some few⟩
    · obtain ⟨ts, ran, length, inside⟩ := bestSplit_rlm2_many penalty eps (Nat.lt_of_not_le few)
      exact ⟨ts, ran, length, fun t mem => Nat.lt_of_succ_lt (inside t mem)⟩

/-! ### A whole run -/

/-- `prevError` and the candidates at a test of the `while` loop at position `k` of layer `l`, in a
run of `BestSplit`. -/
def Tested (penalty : W → R) (eps : R) (weights : List W) (bordersCount l k : ℕ) (prevError : List R)
    (current : List (Cell R)) : Prop :=
  let sweights := partialSums 0 weights
  let dsize := weights.length - (bordersCount + 1) + 1
  ∃ errors solutions cells,
    (List.range dsize).mapM (fun i => do return penalty (← read sweights i)) = .ok errors ∧
    layers .rlm2 penalty eps sweights dsize 0 l ([], errors, List.replicate dsize ⟨0, 0, 0, 0⟩) =
      .ok (solutions, prevError, cells) ∧
    Rebuilding (errorAt penalty sweights prevError l) eps dsize cells k current

/-- **`E_RLM2` ends inside its vectors for any penalty**: the run succeeds, every threshold has a
weight behind it, and every pass of the `while` loop at `k` that a run comes to raises `bs1[k]`,
which stays below `dsize`. -/
theorem bestSplit_rlm2_terminates (penalty : W → R) (eps : R) {bordersCount : ℕ} (pos : 1 ≤ bordersCount)
    (more : bordersCount + 1 < weights.length) :
    (∃ ts, bestSplit .rlm2 penalty eps weights bordersCount = .ok ts ∧ ts.length = bordersCount ∧
      ∀ t ∈ ts, t + 1 < weights.length) ∧
    ∀ l < bordersCount - 1, ∀ k prevError current, Tested penalty eps weights bordersCount l k prevError current →
      let dsize := weights.length - (bordersCount + 1) + 1
      let err := errorAt penalty (partialSums 0 weights) prevError l
      prevError.length = dsize ∧ current.length = dsize ∧ ∀ cell, current[k]? = some cell →
        cell.bs1 < dsize ∧ cell.bs2 < dsize ∧ (cell.bs1 + 1 < cell.bs2 →
          ∃ maxj forwarded next cell',
            forwardLoop err eps (dsize - k) k (cell.bs1 + 2, current) = .ok (maxj, forwarded) ∧
            k < maxj ∧ maxj ≤ dsize ∧ rebuildPass err eps dsize k cell current = .ok next ∧
            next[k]? = some cell' ∧ cell.bs1 < cell'.bs1 ∧ cell'.bs1 < dsize) := by
  constructor
  · obtain ⟨l, rfl⟩ : ∃ l, bordersCount = l + 1 := ⟨bordersCount - 1, by omega⟩
    exact bestSplit_rlm2_many penalty eps more
  · rintro l before k prevError current ⟨errors, solutions, cells, first, ran, rebuilding⟩
    have size := length_partialSums 0 weights
    obtain ⟨start, first', begun⟩ :=
      start_inside penalty (show weights.length - (bordersCount + 1) + 1 ≤ weights.length by omega)
    cases first.symm.trans first'
    obtain ⟨st, ran', inside⟩ := layers_inside penalty eps
      (show l + (weights.length - (bordersCount + 1) + 1) ≤ (partialSums 0 weights).length by omega) begun
    cases ran.symm.trans ran'
    have reads := inside.reads penalty
      (show l + (weights.length - (bordersCount + 1) + 1) < (partialSums 0 weights).length by omega)
    obtain ⟨length, settled⟩ := rebuilding.settled reads inside.cells
    refine ⟨inside.errors, length, fun cell at_k => ?_⟩
    have bounds := settled k cell le_rfl at_k
    exact ⟨bounds.lower.lt, bounds.upper.lt, rebuilding.pass reads inside.cells at_k⟩

/-- Squares taken negatively: with this penalty the third position needs a pass. -/
theorem bestSplit_rlm2_terminates_concave :
    (∃ ts, bestSplit .rlm2 (fun w : ℤ => -(w * w)) 0 [2, 1, 3, 1, 1] 2 = .ok ts ∧ ts.length = 2 ∧
      ∀ t ∈ ts, t + 1 < [2, 1, 3, 1, 1].length) ∧
    ∃ next cell', rebuildPass (errorAt (fun w : ℤ => -(w * w)) [2, 3, 6, 7, 8] [-4, -9, -36] 0) 0 3 2 ⟨0, 2, -29, -37⟩
      [⟨0, 0, -5, -5⟩, ⟨0, 0, -20, -20⟩, ⟨0, 2, -29, -37⟩] = .ok next ∧ next[2]? = some cell' ∧ 0 < cell'.bs1 ∧
      cell'.bs1 < 3 := by
  obtain ⟨ran, tests⟩ := bestSplit_rlm2_terminates (fun w : ℤ => -(w * w)) 0 (show 1 ≤ 2 by decide)
    (show 2 + 1 < ([2, 1, 3, 1, 1] : List ℤ).length by decide)
  have opened : Rebuilding (errorAt (fun w : ℤ => -(w * w)) [2, 3, 6, 7, 8] [-4, -9, -36] 0) 0 3
      (List.replicate 3 ⟨0, 0, 0, 0⟩) 0 [⟨0, 0, -5, -5⟩, ⟨0, 0, -20, -20⟩, ⟨0, 2, -29, -37⟩] :=
    .opened (show _ = Except.ok (0, [⟨0, 0, -5, 0⟩, ⟨0, 0, -20, 0⟩, ⟨0, 0, -29, 0⟩]) from rfl)
      (show _ = Except.ok (2, [⟨0, 0, -5, -5⟩, ⟨0, 0, -20, -20⟩, ⟨0, 2, -29, -37⟩]) from rfl)
  obtain ⟨-, -, cells⟩ := tests 0 (by decide) 2 [-4, -9, -36] [⟨0, 0, -5, -5⟩, ⟨0, 0, -20, -20⟩, ⟨0, 2, -29, -37⟩]
    ⟨[-4, -9, -36], [], List.replicate 3 ⟨0, 0, 0, 0⟩, rfl, rfl, (opened.moved rfl (by decide)).moved rfl (by decide)⟩
  obtain ⟨-, -, pass⟩ := cells ⟨0, 2, -29, -37⟩ rfl
  obtain ⟨-, -, next, cell', -, -, -, passed, at_next, moved, inside⟩ := pass (by decide)
  exact ⟨ran, next, cell', passed, at_next, moved, inside⟩

end Thresholds

end Cmicot.Grid
