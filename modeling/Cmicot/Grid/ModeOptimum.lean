import Cmicot.Grid.ModeLayers
import Cmicot.Lib.WeakCuts
import Mathlib.Algebra.Group.Subgroup.Ker
import Mathlib.Data.Int.ConditionallyCompleteOrder

/-!
What the dynamic programme finds in each mode (`grid_creator/binarization.cpp`).

Weights and penalties are elements of ordered groups. A mode walks through positions; each of them
stands for a weight, and its value is the cost of a cut of the weights up to there, which
back-tracking finds again. If the layers of the mode are reliable the values are the least ones.
`E_Base` looks at weak cuts, the other modes at cuts without empty groups. Reliable are the modes
that try everything, `E_DaC` if crossing groups cost more, and `E_Safe` and `E_RLM` if moreover
`Eps` is smaller than any difference of costs.

* `Layered.succ`: from one layer to the next.
* `bestSplitMode_many`: every mode gives ordered thresholds, and cheapest ones if it is exact.
* `bestSplitMode_inside`: also where there are few weights.
-/

namespace Cmicot.Grid

open Loop Cuts RowMinima

/-! ### Positions of a mode -/

section Positions

variable {mode : ESF} {l j i s t u : ℕ}

/-- The weight that a position of layer `l` stands for. -/
def ESF.place (mode : ESF) (l j : ℕ) : ℕ := if mode.wide then j else l + j

/-- How thresholds of the mode follow each other. -/
def ESF.Before (mode : ESF) (s t : ℕ) : Prop := if mode.wide then s ≤ t else s < t

/-- The thresholds of the back-tracked indices. -/
def ESF.thresholds (mode : ESF) (indices : List ℕ) : List ℕ := if mode.wide then indices else adjust indices

theorem ESF.Before.le (before : mode.Before s t) : s ≤ t := by
  unfold ESF.Before at before
  split at before <;> omega

theorem ESF.Before.trans (first : mode.Before s t) (second : mode.Before t u) : mode.Before s u := by
  revert first second
  unfold ESF.Before
  cases mode.wide with
  | true => exact le_trans
  | false => exact lt_trans

theorem ESF.place_before (mode : ESF) (l : ℕ) (le : i ≤ j) :
    mode.Before (mode.place l i) (mode.place (l + 1) j) := by
  unfold ESF.Before ESF.place
  split <;> omega

theorem ESF.place_mono (mode : ESF) (l : ℕ) (le : i ≤ j) : mode.place l i ≤ mode.place l j := by
  unfold ESF.place
  split <;> omega

theorem ESF.thresholds_concat (indices : List ℕ) (b : ℕ) :
    mode.thresholds (indices ++ [b]) = mode.thresholds indices ++ [mode.place indices.length b] := by
  unfold ESF.thresholds ESF.place
  cases mode.wide with
  | true => simp
  | false => simpa [Nat.add_comm] using adjust_concat indices b

theorem ESF.length_thresholds (indices : List ℕ) : (mode.thresholds indices).length = indices.length := by
  unfold ESF.thresholds
  split
  · rfl
  · exact length_adjust indices

end Positions

/-! ### The cuts of a mode -/

section Admits

variable {α : Type} {mode : ESF} {ws : List α} {groups : List (List α)} {ts : List ℕ} {k l j : ℕ}

/-- The cuts that a mode looks at. -/
def ESF.Admits (mode : ESF) (ws : List α) (k : ℕ) (groups : List (List α)) : Prop :=
  if mode.wide then IsWeakCut ws k groups else IsCut ws k groups

theorem ESF.Admits.whole (admits : mode.Admits ws k groups) : groups.flatten = ws := by
  unfold ESF.Admits at admits
  split at admits
  · exact admits.whole
  · exact admits.whole

theorem ESF.Admits.count (admits : mode.Admits ws k groups) : groups.length = k := by
  unfold ESF.Admits at admits
  split at admits
  · exact admits.count
  · exact admits.count

theorem ESF.Admits.isWeakCut (admits : mode.Admits ws k groups) : IsWeakCut ws k groups := by
  unfold ESF.Admits at admits
  split at admits
  · exact admits
  · exact admits.isWeakCut

/-- **The last group** begins behind a position of the layer before. -/
theorem ESF.Admits.concat (admits : mode.Admits (ws.take (mode.place (l + 1) j + 1)) (l + 2) groups)
    (inside : mode.place (l + 1) j < ws.length) :
    ∃ i ≤ j, ∃ earlier, groups = earlier ++ [(ws.take (mode.place (l + 1) j + 1)).drop (mode.place l i + 1)] ∧
      mode.Admits (ws.take (mode.place l i + 1)) (l + 1) earlier := by
  unfold ESF.Admits ESF.place at *
  cases wide : mode.wide with
  | true =>
    simp only [wide, if_true] at *
    obtain ⟨i, earlier, eq, lt, rest⟩ := admits.concat
    rw [List.length_take] at lt
    rw [List.take_take, Nat.min_eq_left (by omega)] at rest
    exact ⟨i, by omega, earlier, eq, rest⟩
  | false =>
    simp only [wide, Bool.false_eq_true, if_false] at *
    obtain ⟨m, earlier, eq, low, high, rest⟩ := admits.concat
    rw [List.length_take] at high
    obtain ⟨i, rfl⟩ : ∃ i, m = l + i + 1 := ⟨m - l - 1, by omega⟩
    rw [List.take_take, Nat.min_eq_left (by omega)] at rest
    exact ⟨i, by omega, earlier, eq, rest⟩

/-- Ordered thresholds give a cut of the mode. -/
theorem ESF.admits_cutAt (ordered : ts.Pairwise mode.Before) (inside : ∀ t ∈ ts, mode.Before t (ws.length - 1))
    (some : ws ≠ []) : mode.Admits ws (ts.length + 1) (cutAt ws 0 ts) := by
  unfold ESF.Admits
  cases wide : mode.wide with
  | true =>
    rw [if_pos rfl]
    exact isWeakCut_cutAt (ordered.imp ESF.Before.le) some
  | false =>
    have strict {s t : ℕ} (before : mode.Before s t) : s < t := by
      simpa only [ESF.Before, wide, Bool.false_eq_true, if_false] using before
    exact isCut_cutAt (ordered.imp strict) (fun t mem => by have := strict (inside t mem); omega) some

end Admits

/-! ### Values -/

section Values

variable {W R : Type} [AddCommGroup W] [AddCommGroup R] {mode : ESF} {weights : List W} {P : W → R} {v v' : ℕ → R}
  {d l i j m b : ℕ}

/-- The value of `sweights[m]`. -/
def runningSum (weights : List W) (m : ℕ) : W := (weights.take (m + 1)).sum

theorem getElem?_partialSums_group (start : W) (inside : m < weights.length) :
    (partialSums start weights)[m]? = some (start + runningSum weights m) := by
  unfold runningSum
  induction weights generalizing start m with
  | nil => simp at inside
  | cons w rest ih =>
    cases m with
    | zero => simp [partialSums]
    | succ m =>
      rw [partialSums, List.getElem?_cons_succ, ih _ (by simpa using inside), List.take_succ_cons, List.sum_cons,
        add_assoc]

theorem read_partialSums_group (inside : m < weights.length) :
    read (partialSums 0 weights) m = .ok (runningSum weights m) :=
  read_ok (by rw [getElem?_partialSums_group 0 inside, zero_add])

/-- The weight of a group is a difference of two sums. -/
theorem sum_group (le : i ≤ m) :
    ((weights.take (m + 1)).drop (i + 1)).sum = runningSum weights m - runningSum weights i := by
  have split := congrArg List.sum (List.take_append_drop (i + 1) (weights.take (m + 1)))
  rw [List.take_take, Nat.min_eq_left (by omega), List.sum_append] at split
  rw [runningSum, runningSum, ← split, add_sub_cancel_left]

/-- An error of layer `l`, from the values of the layer before. -/
def ESF.entry (mode : ESF) (weights : List W) (P : W → R) (v : ℕ → R) (l j i : ℕ) : R :=
  v i + P (runningSum weights (mode.place (l + 1) j) - runningSum weights (mode.place l i))

theorem modeError_ok {errors : List R} (column : errors[i]? = some (v i)) (le : mode.place (l + 1) j < weights.length)
    (start : mode.place l i < weights.length) :
    modeError mode P (partialSums 0 weights) errors l j i = .ok (mode.entry weights P v l j i) := by
  unfold modeError ESF.entry ESF.place at *
  cases wide : mode.wide with
  | true =>
    simp only [wide, if_true] at *
    simp only [read_ok column, read_partialSums_group le, read_partialSums_group start, ok_bind, pure_eq_ok]
  | false =>
    simp only [wide, Bool.false_eq_true, if_false] at *
    rw [show l + 1 + j = l + j + 1 by omega] at *
    simp only [errorAt, read_ok column, read_partialSums_group le, read_partialSums_group start, ok_bind, pure_eq_ok]

/-- Back-tracking from a position gives a cut of the weights up to it that costs its value. -/
structure ESF.Trace (mode : ESF) (weights : List W) (P : W → R) (l : ℕ) (v : ℕ → R) (b : ℕ)
    (indices ts : List ℕ) : Prop where
  count : indices.length = l + 1
  thresholds : mode.thresholds indices = ts ++ [mode.place l b]
  ordered : (ts ++ [mode.place l b]).Pairwise mode.Before
  attained : total P (cutAt (weights.take (mode.place l b + 1)) 0 ts) = v b

/-- One more threshold behind a trace. -/
theorem ESF.Trace.total_concat {indices ts : List ℕ} (trace : mode.Trace weights P l v b indices ts) (le : b ≤ j) :
    total P (cutAt (weights.take (mode.place (l + 1) j + 1)) 0 (ts ++ [mode.place l b])) =
      mode.entry weights P v l j b := by
  have before : ∀ s ∈ ts, s ≤ mode.place l b := fun s mem =>
    ESF.Before.le ((List.pairwise_append.mp trace.ordered).2.2 s mem _ (List.mem_singleton.mpr rfl))
  have up := (mode.place_before l le).le
  rw [cutAt_concat before, total_append, List.take_take, Nat.min_eq_left (by omega), trace.attained, total_cons,
    total_nil, add_zero, sum_group up, ESF.entry]

theorem ESF.Trace.ordered_concat {indices ts : List ℕ} (trace : mode.Trace weights P l v b indices ts) (le : b ≤ j) :
    (ts ++ [mode.place l b] ++ [mode.place (l + 1) j]).Pairwise mode.Before := by
  have last := mode.place_before l le
  refine List.pairwise_append.mpr ⟨trace.ordered, List.pairwise_singleton _ _, fun s mem t here => ?_⟩
  rw [List.mem_singleton.mp here]
  rcases List.mem_append.mp mem with mem | mem
  · exact ((List.pairwise_append.mp trace.ordered).2.2 s mem _ (List.mem_singleton.mpr rfl)).trans last
  · rwa [List.mem_singleton.mp mem]

end Values

/-! ### Exact modes -/

section Exactly

variable {W R : Type} [AddCommGroup W] [PartialOrder W] [IsOrderedAddMonoid W] [AddCommGroup R] [LinearOrder R]
  [IsOrderedAddMonoid R] {mode : ESF} {weights : List W} {P : W → R} {eps : R} {v : ℕ → R} {d l i m : ℕ}

/-- `eps` is smaller than any difference of costs: the penalties are in a group without small elements. -/
def Apart (P : W → R) (eps : R) : Prop :=
  0 ≤ eps ∧ ∃ G : AddSubgroup R, (∀ w, P w ∈ G) ∧ ∀ x ∈ G, 0 < x → eps < x

/-- When a mode finds a cheapest cut. -/
def ESF.Exact (P : W → R) (eps : R) (weights : List W) : ESF → Prop
  | base | base2 => True
  | daC => Monge P ∧ ∀ w ∈ weights, 0 ≤ w
  | safe | rlm => (Monge P ∧ ∀ w ∈ weights, 0 ≤ w) ∧ Apart P eps
  | oldLinear | linear | linear2L | rlm2 => False

theorem runningSum_le (nonneg : ∀ w ∈ weights, 0 ≤ w) (le : i ≤ m) :
    0 ≤ runningSum weights m - runningSum weights i := by
  rw [← sum_group le]
  exact List.sum_nonneg fun w mem => nonneg w (List.mem_of_mem_take (List.mem_of_mem_drop mem))

/-- **Errors are sorted** if crossing groups cost more. -/
theorem entry_sorted (monge : Monge P) (nonneg : ∀ w ∈ weights, 0 ≤ w) (mode : ESF) (v : ℕ → R) (l d : ℕ) :
    Sorted (mode.entry weights P v l) d := by
  refine Sorted.of_monge fun {j i i'} _ lt le => ?_
  have crossed := monge (runningSum_le nonneg (mode.place_mono l lt.le))
    (runningSum_le nonneg (mode.place_before l le).le)
    (runningSum_le nonneg (mode.place_mono (l + 1) (Nat.le_succ j)))
  simp only [ESF.entry]
  generalize runningSum weights (mode.place l i) = start at *
  generalize runningSum weights (mode.place l i') = start' at *
  generalize runningSum weights (mode.place (l + 1) j) = last at *
  rw [show start' - start + (last - start') = last - start by abel,
    show last - start' + (runningSum weights (mode.place (l + 1) j.succ) - last) =
      runningSum weights (mode.place (l + 1) j.succ) - start' by abel,
    show last - start + (runningSum weights (mode.place (l + 1) j.succ) - last) =
      runningSum weights (mode.place (l + 1) j.succ) - start by abel] at crossed
  calc v i' + P (runningSum weights (mode.place (l + 1) (j + 1)) - start') + (v i + P (last - start))
      = P (last - start) + P (runningSum weights (mode.place (l + 1) (j + 1)) - start') + (v i' + v i) := by abel
    _ ≤ P (last - start') + P (runningSum weights (mode.place (l + 1) (j + 1)) - start) + (v i' + v i) :=
        add_le_add_left crossed _
    _ = v i' + P (last - start') + (v i + P (runningSum weights (mode.place (l + 1) (j + 1)) - start)) := by abel

/-- **A layer of an exact mode is reliable.** -/
theorem ESF.Exact.reliable (exact : mode.Exact P eps weights)
    (inside : ∀ G : AddSubgroup R, (∀ w, P w ∈ G) → ∀ i < d, v i ∈ G) :
    mode.Reliable (mode.entry weights P v l) eps d := by
  have confused (sorted : Sorted (mode.entry weights P v l) d) (apart : Apart P eps) :
      Grid.Exact (mode.entry weights P v l) eps d := by
    obtain ⟨small, G, penalties, large⟩ := apart
    refine ⟨sorted, fun {j i i'} here le le' => ⟨fun lt => (le_add_of_nonneg_right small).trans_lt lt, fun lt => ?_⟩⟩
    have member (i : ℕ) (le : i ≤ j) : mode.entry weights P v l j i ∈ G :=
      G.add_mem (inside G penalties i (by omega)) (penalties _)
    exact lt_sub_iff_add_lt'.mp (large _ (G.sub_mem (member i' le') (member i le)) (sub_pos.mpr lt))
  cases mode with
  | base | base2 => trivial
  | daC => exact entry_sorted exact.1 exact.2 .daC v l d
  | safe => exact confused (entry_sorted exact.1.1 exact.1.2 .safe v l d) exact.2
  | rlm => exact confused (entry_sorted exact.1.1 exact.1.2 .rlm v l d) exact.2
  | oldLinear | linear | linear2L | rlm2 => exact exact.elim

end Exactly

/-! ### Layers -/

section Layers

variable {W R : Type} [AddCommGroup W] [PartialOrder W] [IsOrderedAddMonoid W] [AddCommGroup R] [LinearOrder R]
  [IsOrderedAddMonoid R] {mode : ESF} {weights : List W} {P : W → R} {eps : R} {d l : ℕ}

/-- What holds before layer `l`. -/
structure Layered (mode : ESF) (weights : List W) (P : W → R) (eps : R) (d l : ℕ) (v : ℕ → R)
    (st : List (List ℕ) × List R × List (Cell R)) : Prop where
  errors : ∀ i < d, st.2.1[i]? = some (v i)
  cells : st.2.2.length = d
  member : ∀ G : AddSubgroup R, (∀ w, P w ∈ G) → ∀ i < d, v i ∈ G
  traced : ∀ b < d, ∃ indices ts, backtrack st.1 b = .ok indices ∧ mode.Trace weights P l v b indices ts
  least : mode.Exact P eps weights → ∀ j < d, ∀ groups,
    mode.Admits (weights.take (mode.place l j + 1)) (l + 1) groups → v j ≤ total P groups

omit [IsOrderedAddMonoid W] [IsOrderedAddMonoid R] in
/-- The first layer: one group each. -/
theorem layered_zero (mode : ESF) (weights : List W) (P : W → R) (eps : R) {errors : List R}
    {cells : List (Cell R)} (size : cells.length = d)
    (values : ∀ i < d, errors[i]? = some (P (runningSum weights (mode.place 0 i)))) :
    Layered mode weights P eps d 0 (fun i => P (runningSum weights (mode.place 0 i))) ([], errors, cells) := by
  refine ⟨values, size, fun G penalties i _ => penalties _, fun b _ => ⟨[b], [], rfl, rfl, ?_, ?_, ?_⟩,
    fun _ j _ groups admits => ?_⟩
  · unfold ESF.thresholds ESF.place
    cases mode.wide <;> simp [adjust]
  · simp
  · simp [cutAt, runningSum]
  · obtain ⟨group, rfl⟩ := List.length_eq_one_iff.mp admits.count
    have whole : group = weights.take (mode.place 0 j + 1) := by simpa using admits.whole
    rw [total_cons, total_nil, add_zero, whole]
    rfl

omit [IsOrderedAddMonoid W] [IsOrderedAddMonoid R] in
/-- The state before the first layer. -/
theorem layered_start (mode : ESF) (weights : List W) (P : W → R) (eps : R) (d : ℕ)
    (room : ∀ j < d, mode.place 1 j < weights.length) :
    ∃ errors, (List.range d).mapM (fun i => do return P (← read (partialSums 0 weights) i)) = .ok errors ∧
      Layered mode weights P eps d 0 (fun i => P (runningSum weights (mode.place 0 i)))
        ([], errors, List.replicate d ⟨0, 0, 0, 0⟩) := by
  have place (i : ℕ) : mode.place 0 i = i := by
    unfold ESF.place
    split <;> omega
  refine ⟨(List.range d).map fun i => P (runningSum weights i), mapM_ok fun i mem => ?_,
    layered_zero mode weights P eps List.length_replicate fun i lt => ?_⟩
  · have := lt_of_le_of_lt (mode.place_before 0 le_rfl).le (room i (List.mem_range.mp mem))
    rw [place] at this
    rw [read_partialSums_group this]
    rfl
  · rw [List.getElem?_map, List.getElem?_range lt, Option.map_some, place]

omit [IsOrderedAddMonoid W] in
/-- **From one layer to the next.** -/
theorem Layered.succ {v : ℕ → R} {st : List (List ℕ) × List R × List (Cell R)}
    (layered : Layered mode weights P eps d l v st) (room : ∀ j < d, mode.place (l + 1) j < weights.length)
    {good : Prop} (imp : mode.Exact P eps weights → good) {row : List ℕ} {errors : List R} {cells : List (Cell R)}
    (found : Found (mode.entry weights P v l) good d row errors) (size : cells.length = d) :
    Layered mode weights P eps d (l + 1) (fun j => mode.entry weights P v l j (row.getD j 0))
      (row :: st.1, errors, cells) := by
  have at_row (j : ℕ) (inside : j < d) : row[j]? = some (row.getD j 0) := by
    rw [List.getD_eq_getElem _ _ (found.size ▸ inside), List.getElem?_eq_getElem]
  have below (j : ℕ) (inside : j < d) : row.getD j 0 ≤ j := found.le j _ (at_row j inside)
  refine ⟨fun i lt => ?_, size, fun G penalties i lt => ?_, fun j lt => ?_, fun exact j lt groups admits => ?_⟩
  · show errors[i]? = _
    rw [found.errors, List.getElem?_mapIdx, at_row i lt, Option.map_some]
  · exact G.add_mem (layered.member G penalties _ (by have := below i lt; omega)) (penalties _)
  · obtain ⟨indices, ts, tracked, trace⟩ := layered.traced (row.getD j 0) (by have := below j lt; omega)
    refine ⟨indices ++ [j], ts ++ [mode.place l (row.getD j 0)], ?_, ?_, ?_, trace.ordered_concat (below j lt),
      trace.total_concat (below j lt)⟩
    · simp only [backtrack, read_ok (at_row j lt), ok_bind, tracked, pure_eq_ok]
    · rw [List.length_append, List.length_singleton, trace.count]
    · rw [ESF.thresholds_concat, trace.thresholds, trace.count]
  · obtain ⟨i, le, earlier, rfl, rest⟩ := admits.concat (room j lt)
    rw [total_append, total_cons, total_nil, add_zero, sum_group (mode.place_before l le).le]
    exact ((found.minimal (imp exact) j _ (at_row j lt)).least i le).trans
      (add_le_add_left (layered.least exact i (by omega) earlier rest) _)

/-- All layers. -/
theorem modeLayers_ok (other : mode ≠ .rlm2) (pos : 0 < d) (count : ℕ)
    (room : ∀ l < count, ∀ j < d, mode.place (l + 1) j < weights.length)
    {v : ℕ → R} {st : List (List ℕ) × List R × List (Cell R)} (start : Layered mode weights P eps d 0 v st) :
    ∃ st' v', layers mode P eps (partialSums 0 weights) d 0 count st = .ok st' ∧
      Layered mode weights P eps d count v' st' := by
  have run : ∃ st', layers mode P eps (partialSums 0 weights) d 0 count st = .ok st' ∧
      ∃ v', Layered mode weights P eps d (0 + count) v' st' := by
    refine forSteps_ok (I := fun l st => ∃ v, Layered mode weights P eps d l v st) ⟨v, start⟩ fun l st _ lt => ?_
    rintro ⟨v, layered⟩
    have here := room l (by omega)
    have reads : ∀ j < d, ∀ m < d, modeError mode P (partialSums 0 weights) st.2.1 l j m =
        .ok (mode.entry weights P v l j m) := fun j row m column =>
      modeError_ok (layered.errors m column) (here j row)
        (lt_of_le_of_lt (mode.place_before l le_rfl).le (here m column))
    obtain ⟨row, errors, cells, ran, size, found⟩ := modeLayer_ok eps mode other reads pos layered.cells
    exact ⟨(row :: st.1, errors, cells), by simp only [ran, ok_bind, pure_eq_ok], _,
      layered.succ here (fun exact => exact.reliable layered.member) found size⟩
  obtain ⟨st', ran, v', layered⟩ := run
  exact ⟨st', v', ran, by rwa [Nat.zero_add] at layered⟩

/-- The layers of `E_DaC` without the counter. -/
theorem modeLayers_daC {W R : Type} [Zero W] [Add W] [Sub W] [Zero R] [Add R] [Sub R] [LT R] [DecidableLT R] (P : W → R)
    (eps : R) (sweights : List W) (d l count : ℕ) (counted : (List (List ℕ) × List R × List (Cell R)) × ℕ) :
    layers .daC P eps sweights d l count counted.1 = Prod.fst <$> countedLayers P sweights d l count counted := by
  refine forSteps_map (fun l counted => ?_) l count counted
  obtain ⟨st, calls⟩ := counted
  show _ = Prod.fst <$> (layerDaC (modeError .daC P sweights st.2.1 l) d >>= _)
  simp only [modeLayer]
  cases layerDaC (modeError .daC P sweights st.2.1 l) d <;> rfl

/-- All layers of `E_DaC`, with the calls in each. -/
theorem countedLayers_ok (pos : 0 < d) (count : ℕ)
    (room : ∀ l < count, ∀ j < d, ESF.daC.place (l + 1) j < weights.length)
    {v : ℕ → R} {st : List (List ℕ) × List R × List (Cell R)} (start : Layered .daC weights P eps d 0 v st) :
    ∃ counted, countedLayers P (partialSums 0 weights) d 0 count (st, 0) = .ok counted ∧
      counted.2 ≤ count * (d * (d.size + 2)) := by
  have run : ∃ counted, countedLayers P (partialSums 0 weights) d 0 count (st, 0) = .ok counted ∧
      (∃ v, Layered .daC weights P eps d (0 + count) v counted.1) ∧ counted.2 ≤ (0 + count) * (d * (d.size + 2)) := by
    refine forSteps_ok
      (I := fun l (counted : (List (List ℕ) × List R × List (Cell R)) × ℕ) =>
        (∃ v, Layered .daC weights P eps d l v counted.1) ∧ counted.2 ≤ l * (d * (d.size + 2)))
      ⟨⟨v, start⟩, Nat.zero_le _⟩ fun l counted _ lt => ?_
    obtain ⟨st, calls⟩ := counted
    rintro ⟨⟨v, layered⟩, bound⟩
    have layered : Layered .daC weights P eps d l v st := layered
    have bound : calls ≤ l * (d * (d.size + 2)) := bound
    have here := room l (by omega)
    have reads : ∀ j < d, ∀ m ≤ j, modeError .daC P (partialSums 0 weights) st.2.1 l j m =
        .ok (ESF.daC.entry weights P v l j m) := fun j row m le =>
      modeError_ok (layered.errors m (by omega)) (here j row)
        (lt_of_le_of_lt (ESF.daC.place_before l le_rfl).le (here m (by omega)))
    obtain ⟨division, ran, found, more⟩ := layerDaC_ok reads pos
    refine ⟨((division.solutions :: st.1, division.errors, st.2.2), calls + division.calls),
      by simp only [ran, ok_bind, pure_eq_ok],
      ⟨_, layered.succ here (fun exact => exact.reliable layered.member) found layered.cells⟩, ?_⟩
    rw [Nat.succ_mul]
    exact Nat.add_le_add bound more
  obtain ⟨counted, ran, -, bound⟩ := run
  exact ⟨counted, ran, by rwa [Nat.zero_add] at bound⟩

end Layers

/-! ### A whole run -/

section Run

variable {W R : Type} [AddCommGroup W] [PartialOrder W] [IsOrderedAddMonoid W] [AddCommGroup R] [LinearOrder R]
  [IsOrderedAddMonoid R] {mode : ESF} {weights : List W} {P : W → R} {eps : R} {l : ℕ}

/-- **Every mode, with more weights than groups**: the run succeeds, the thresholds are ordered, and
they cut the weights as cheaply as possible if the mode is exact. -/
theorem bestSplitMode_many (other : mode ≠ .rlm2) (P : W → R) (eps : R) (more : l + 1 + 1 < weights.length) :
    ∃ ts, bestSplit mode P eps weights (l + 1) = .ok ts ∧ ts.length = l + 1 ∧ ts.Pairwise mode.Before ∧
      (∀ t ∈ ts, mode.Before t (weights.length - 1)) ∧
      (mode.Exact P eps weights →
        IsLeast {c | ∃ groups, mode.Admits weights (l + 1 + 1) groups ∧ c = total P groups}
          (total P (cutAt weights 0 ts))) := by
  have some : ¬ (l + 1 + 1 ≤ 1 ∨ weights.length = 0) := by omega
  have many : ¬ weights.length ≤ l + 1 + 1 := by omega
  obtain ⟨d, size, pos, last, inside⟩ : ∃ d,
      (if mode.wide then weights.length else weights.length - (l + 1 + 1) + 1) = d ∧ 0 < d ∧
      mode.place (l + 1) (d - 1) = weights.length - 1 ∧
      ∀ k ≤ l, ∀ j < d, mode.place (k + 1) j < weights.length := by
    refine ⟨_, rfl, ?_⟩
    unfold ESF.place
    cases mode.wide with
    | true => exact ⟨by simp only [if_true]; omega, by simp, fun k le j lt => by simpa using lt⟩
    | false =>
      simp only [Bool.false_eq_true, if_false]
      exact ⟨by omega, by omega, fun k le j lt => by omega⟩
  obtain ⟨start, first, begun⟩ := layered_start mode weights P eps d (inside 0 (Nat.zero_le l))
  obtain ⟨⟨solutions, errors, cells⟩, v, ran, layered⟩ := modeLayers_ok other pos l
    (fun k lt j inner => inside k (by omega) j inner) begun
  obtain ⟨b, tried, le, least⟩ := tryAll_ok (modeError mode P (partialSums 0 weights) errors l (d - 1))
    (fun newError bestError => decide (newError < bestError)) (j := d - 1) (F := mode.entry weights P v l (d - 1))
    (fun m le => modeError_ok (layered.errors m (by omega)) (inside l le_rfl _ (by omega))
      (lt_of_le_of_lt (mode.place_before l le_rfl).le (inside l le_rfl m (by omega))))
    (fun x y yes => (of_decide_eq_true yes).le) (fun x y no => not_lt.mp (of_decide_eq_false no))
  obtain ⟨indices, ts, tracked, trace⟩ := layered.traced b (by omega)
  have ordered := trace.ordered_concat le
  rw [last] at ordered
  obtain ⟨before, -, end_behind⟩ := List.pairwise_append.mp ordered
  have length : (ts ++ [mode.place l b]).length = l + 1 := by
    rw [← trace.thresholds, ESF.length_thresholds, trace.count]
  have behind : ∀ t ∈ ts ++ [mode.place l b], mode.Before t (weights.length - 1) :=
    fun t mem => end_behind t mem _ (List.mem_singleton.mpr rfl)
  refine ⟨ts ++ [mode.place l b], ?_, length, before, behind, fun exact => ⟨⟨_, ?_, rfl⟩, ?_⟩⟩
  · have layerCount : l + 1 + 1 - 2 = l := by omega
    simp only [bestSplit, if_neg some, if_neg many, size, layerCount, first, ok_bind, ran, tried, tracked]
    rw [← trace.thresholds]
    rfl
  · have cut := ESF.admits_cutAt before behind (List.ne_nil_of_length_pos (show 0 < weights.length by omega))
    rwa [length] at cut
  · have all : weights.take (mode.place (l + 1) (d - 1) + 1) = weights := List.take_of_length_le (by omega)
    have price := trace.total_concat le
    rw [all] at price
    rintro c ⟨groups, admits, rfl⟩
    rw [← all] at admits
    obtain ⟨i, within, earlier, rfl, rest⟩ := admits.concat (by omega)
    rw [price, total_append, total_cons, total_nil, add_zero, sum_group (mode.place_before l within).le]
    exact (least i within).trans (add_le_add_left (layered.least exact i (by omega) earlier rest) _)

theorem ordered_few (n r : ℕ) : (List.range n ++ List.replicate r n).Pairwise (· ≤ ·) := by
  refine List.pairwise_append.mpr ⟨List.pairwise_lt_range.imp le_of_lt, List.pairwise_replicate.mpr (.inr le_rfl),
    fun s mem t mem' => ?_⟩
  rw [List.eq_of_mem_replicate mem']
  exact (List.mem_range.mp mem).le

/-- **Every mode stays inside its vectors**, whatever the penalty and the weights: the run succeeds
with one threshold for each border. Except for `E_RLM2` they are in order, strictly if the mode
does not admit empty groups and there are weights enough. -/
theorem bestSplitMode_inside (mode : ESF) (P : W → R) (eps : R) (some : weights ≠ []) (bordersCount : ℕ) :
    ∃ ts, bestSplit mode P eps weights bordersCount = .ok ts ∧ ts.length = bordersCount ∧
      (∀ t ∈ ts, t < weights.length) ∧ (mode ≠ .rlm2 → ts.Pairwise (· ≤ ·)) ∧
      (mode ≠ .rlm2 → mode.wide = false → bordersCount + 1 < weights.length →
        ts.Pairwise (· < ·) ∧ ∀ t ∈ ts, t + 1 < weights.length) := by
  have pos := List.length_pos_of_ne_nil some
  cases bordersCount with
  | zero => exact ⟨[], rfl, rfl, by simp, by simp, by simp⟩
  | succ l =>
    by_cases few : weights.length ≤ l + 1 + 1
    · obtain ⟨ran, length, inside⟩ := bestSplit_few mode P eps some few
      exact ⟨_, ran, length, inside, fun _ => ordered_few _ _, fun _ _ more => absurd more (by omega)⟩
    · by_cases other : mode = .rlm2
      · subst other
        obtain ⟨ts, ran, length, inside⟩ := bestSplit_rlm2_inside P eps some (l + 1)
        exact ⟨ts, ran, length, inside, fun no => absurd rfl no, fun no => absurd rfl no⟩
      · obtain ⟨ts, ran, length, ordered, inside, -⟩ := bestSplitMode_many other P eps (Nat.lt_of_not_le few)
        refine ⟨ts, ran, length, fun t mem => ?_, fun _ => ordered.imp ESF.Before.le, fun _ narrow _ => ?_⟩
        · have := (inside t mem).le
          omega
        · have strict {s t : ℕ} (before : mode.Before s t) : s < t := by
            simpa only [ESF.Before, narrow, Bool.false_eq_true, if_false] using before
          exact ⟨ordered.imp strict, fun t mem => by have := strict (inside t mem); omega⟩

/-- Reciprocals, which no mode is exact for but those that try everything. -/
theorem bestSplitMode_inside_reciprocals :
    ∃ ts, bestSplit .linear (fun w : ℤ => (w : ℚ)⁻¹) (1 / 10 ^ 12) [1, 4, 2, 2, 5] 2 = .ok ts ∧ ts.length = 2 ∧
      (∀ t ∈ ts, t < [1, 4, 2, 2, 5].length) ∧ (ESF.linear ≠ .rlm2 → ts.Pairwise (· ≤ ·)) ∧
      (ESF.linear ≠ .rlm2 → ESF.linear.wide = false → 2 + 1 < [1, 4, 2, 2, 5].length →
        ts.Pairwise (· < ·) ∧ ∀ t ∈ ts, t + 1 < [1, 4, 2, 2, 5].length) :=
  bestSplitMode_inside .linear _ _ (show ([1, 4, 2, 2, 5] : List ℤ) ≠ [] by decide) 2

/-- **`E_Base` and `E_Base2` are exact for any penalty**: one finds a cheapest cut that may have
empty groups, the other a cheapest one that has none. -/
theorem bestSplitMode_base_least (P : W → R) (eps : R) {bordersCount : ℕ} (pos : 1 ≤ bordersCount)
    (more : bordersCount + 1 < weights.length) :
    ∃ ts ts', bestSplit .base P eps weights bordersCount = .ok ts ∧
      bestSplit .base2 P eps weights bordersCount = .ok ts' ∧
      IsLeast {c | ∃ groups, IsWeakCut weights (bordersCount + 1) groups ∧ c = total P groups}
        (total P (cutAt weights 0 ts)) ∧
      IsLeast {c | ∃ groups, IsCut weights (bordersCount + 1) groups ∧ c = total P groups}
        (total P (cutAt weights 0 ts')) := by
  obtain ⟨l, rfl⟩ : ∃ l, bordersCount = l + 1 := ⟨bordersCount - 1, by omega⟩
  obtain ⟨ts, ran, -, -, -, least⟩ := bestSplitMode_many (show ESF.base ≠ .rlm2 by decide) P eps more
  obtain ⟨ts', ran', -, -, -, least'⟩ := bestSplitMode_many (show ESF.base2 ≠ .rlm2 by decide) P eps more
  exact ⟨ts, ts', ran, ran', least trivial, least' trivial⟩

/-- Reciprocals of the weights of three groups. -/
theorem bestSplitMode_base_least_reciprocals :
    ∃ ts ts', bestSplit .base (fun w : ℤ => (w : ℚ)⁻¹) (1 / 10 ^ 12) [1, 4, 2, 2, 5] 2 = .ok ts ∧
      bestSplit .base2 (fun w : ℤ => (w : ℚ)⁻¹) (1 / 10 ^ 12) [1, 4, 2, 2, 5] 2 = .ok ts' ∧
      IsLeast {c | ∃ groups, IsWeakCut [1, 4, 2, 2, 5] (2 + 1) groups ∧ c = total (fun w : ℤ => (w : ℚ)⁻¹) groups}
        (total (fun w : ℤ => (w : ℚ)⁻¹) (cutAt [1, 4, 2, 2, 5] 0 ts)) ∧
      IsLeast {c | ∃ groups, IsCut [1, 4, 2, 2, 5] (2 + 1) groups ∧ c = total (fun w : ℤ => (w : ℚ)⁻¹) groups}
        (total (fun w : ℤ => (w : ℚ)⁻¹) (cutAt [1, 4, 2, 2, 5] 0 ts')) :=
  bestSplitMode_base_least _ _ (by decide) (by decide)

/-- **`E_Safe`, `E_RLM` and `E_DaC` are as good as `E_Base2`** if crossing groups cost more and `eps`
is smaller than any difference of costs. -/
theorem bestSplitMode_exact (monge : Monge P) (nonneg : ∀ w ∈ weights, 0 ≤ w) (apart : Apart P eps) {bordersCount : ℕ}
    (pos : 1 ≤ bordersCount) (more : bordersCount + 1 < weights.length) (listed : mode ∈ [.safe, .rlm, .daC]) :
    ∃ ts ts', bestSplit mode P eps weights bordersCount = .ok ts ∧ ts.length = bordersCount ∧
      ts.Pairwise (· < ·) ∧ (∀ t ∈ ts, t + 1 < weights.length) ∧
      bestSplit .base2 P eps weights bordersCount = .ok ts' ∧
      IsLeast {c | ∃ groups, IsCut weights (bordersCount + 1) groups ∧ c = total P groups}
        (total P (cutAt weights 0 ts)) ∧ total P (cutAt weights 0 ts) = total P (cutAt weights 0 ts') := by
  obtain ⟨l, rfl⟩ : ∃ l, bordersCount = l + 1 := ⟨bordersCount - 1, by omega⟩
  have modes : mode ≠ .rlm2 ∧ mode.wide = false ∧ mode.Exact P eps weights := by
    simp only [List.mem_cons, List.not_mem_nil, or_false] at listed
    rcases listed with rfl | rfl | rfl
    · exact ⟨by decide, rfl, ⟨monge, nonneg⟩, apart⟩
    · exact ⟨by decide, rfl, ⟨monge, nonneg⟩, apart⟩
    · exact ⟨by decide, rfl, monge, nonneg⟩
  obtain ⟨other, narrow, exact⟩ := modes
  obtain ⟨ts, ran, length, ordered, inside, least⟩ := bestSplitMode_many other P eps more
  obtain ⟨ts', ran', -, -, -, least'⟩ := bestSplitMode_many (show ESF.base2 ≠ .rlm2 by decide) P eps more
  have strict {s t : ℕ} (before : mode.Before s t) : s < t := by
    simpa only [ESF.Before, narrow, Bool.false_eq_true, if_false] using before
  have cheapest := least exact
  simp only [ESF.Admits, narrow, Bool.false_eq_true, if_false] at cheapest
  exact ⟨ts, ts', ran, length, ordered.imp strict, fun t mem => by have := strict (inside t mem); omega, ran', cheapest,
    cheapest.unique (least' trivial)⟩

/-- Squares of integers are apart, and crossing groups cost more. -/
theorem monge_squares : Monge fun w : ℤ => ((w * w : ℤ) : ℚ) := by
  intro x y z first _ last
  have := mul_nonneg first last
  have : (x + y) * (x + y) + (y + z) * (y + z) ≤ y * y + (x + y + z) * (x + y + z) := by linarith
  simp only
  exact_mod_cast this

theorem apart_squares : Apart (fun w : ℤ => ((w * w : ℤ) : ℚ)) (1 / 10 ^ 12) := by
  refine ⟨by positivity, (Int.castAddHom ℚ).range, fun w => ⟨w * w, rfl⟩, ?_⟩
  rintro _ ⟨x, rfl⟩ pos
  simp only [Int.coe_castAddHom, Int.cast_pos] at pos ⊢
  have : (1 : ℚ) ≤ x := by exact_mod_cast pos
  exact lt_of_lt_of_le (by norm_num) this

/-- Squares of the weights of three groups. -/
theorem bestSplitMode_exact_squares :
    ∃ ts ts', bestSplit .rlm (fun w => ((w * w : ℤ) : ℚ)) (1 / 10 ^ 12) [1, 4, 2, 2, 5] 2 = .ok ts ∧
      ts.length = 2 ∧ ts.Pairwise (· < ·) ∧ (∀ t ∈ ts, t + 1 < [1, 4, 2, 2, 5].length) ∧
      bestSplit .base2 (fun w => ((w * w : ℤ) : ℚ)) (1 / 10 ^ 12) [1, 4, 2, 2, 5] 2 = .ok ts' ∧
      IsLeast {c | ∃ groups, IsCut [1, 4, 2, 2, 5] (2 + 1) groups ∧ c = total (fun w => ((w * w : ℤ) : ℚ)) groups}
        (total (fun w => ((w * w : ℤ) : ℚ)) (cutAt [1, 4, 2, 2, 5] 0 ts)) ∧
      total (fun w => ((w * w : ℤ) : ℚ)) (cutAt [1, 4, 2, 2, 5] 0 ts) =
        total (fun w => ((w * w : ℤ) : ℚ)) (cutAt [1, 4, 2, 2, 5] 0 ts') :=
  bestSplitMode_exact monge_squares (by decide) apart_squares (by decide) (by decide) (by decide)

/-- **Empty groups do not pay**: if crossing groups cost more, an exact mode finds a cheapest cut
also among the cuts that may have empty groups, and with any number of weights. -/
theorem bestSplitMode_empty_groups (monge : Monge P) (nonneg : ∀ w ∈ weights, 0 ≤ w) (some : weights ≠ [])
    (exact : mode.Exact P eps weights) {bordersCount : ℕ} (pos : 1 ≤ bordersCount) :
    ∃ ts, bestSplit mode P eps weights bordersCount = .ok ts ∧
      IsLeast {c | ∃ groups, IsWeakCut weights (bordersCount + 1) groups ∧ c = total P groups}
        (total P (cutAt weights 0 ts)) := by
  obtain ⟨l, rfl⟩ : ∃ l, bordersCount = l + 1 := ⟨bordersCount - 1, by omega⟩
  have size := List.length_pos_of_ne_nil some
  by_cases few : weights.length ≤ l + 1 + 1
  · refine ⟨_, (bestSplit_few mode P eps some few).1, ⟨_, ?_, rfl⟩, ?_⟩
    · have cut := isWeakCut_cutAt (ordered_few (weights.length - 1) (l + 1 - (weights.length - 1))) some
      rwa [List.length_append, List.length_range, List.length_replicate,
        show weights.length - 1 + (l + 1 - (weights.length - 1)) = l + 1 by omega] at cut
    · rintro c ⟨groups, cut, rfl⟩
      have empties (r : ℕ) : total P (List.replicate r []) = r • P 0 := by
        simp [total]
      rw [cutAt_few some, total_append, empties,
        show l + 1 - (weights.length - 1) = l + 1 + 1 - weights.length by omega]
      exact total_singles_le monge nonneg cut few
  · have other : mode ≠ .rlm2 := by
      rintro rfl
      exact exact
    obtain ⟨ts, ran, length, ordered, inside, least⟩ := bestSplitMode_many other P eps (Nat.lt_of_not_le few)
    obtain ⟨⟨groups, admits, eq⟩, below⟩ := least exact
    refine ⟨ts, ran, ⟨groups, admits.isWeakCut, eq⟩, ?_⟩
    rintro c ⟨weak, cut, rfl⟩
    obtain ⟨strict, cut', le⟩ := cut.exists_cut monge nonneg (Nat.lt_of_not_le few).le
    refine (below ⟨strict, ?_, rfl⟩).trans le
    unfold ESF.Admits
    split
    · exact cut'.isWeakCut
    · exact cut'

/-- Two weights for four groups. -/
theorem bestSplitMode_empty_groups_squares :
    ∃ ts, bestSplit .daC (fun w => ((w * w : ℤ) : ℚ)) (1 / 10 ^ 12) [3, 1] 3 = .ok ts ∧
      IsLeast {c | ∃ groups, IsWeakCut [3, 1] (3 + 1) groups ∧ c = total (fun w => ((w * w : ℤ) : ℚ)) groups}
        (total (fun w => ((w * w : ℤ) : ℚ)) (cutAt [3, 1] 0 ts)) :=
  bestSplitMode_empty_groups monge_squares (by decide) (by decide)
    (show ESF.daC.Exact _ _ _ from ⟨monge_squares, by decide⟩) (by decide)

/-- **The time of `E_DaC`**, for any penalty: in all layers together `Penalty` is called at most
`dsize * (log dsize + 2)` times for each layer. -/
theorem bestSplitMode_daC_calls (P : W → R) (eps : R) {bordersCount : ℕ} (pos : 1 ≤ bordersCount)
    (more : bordersCount + 1 < weights.length) :
    ∃ errors st calls ts,
      (List.range (weights.length - bordersCount)).mapM (fun i => do return P (← read (partialSums 0 weights) i)) =
        .ok errors ∧
      countedLayers P (partialSums 0 weights) (weights.length - bordersCount) 0 (bordersCount - 1)
        (([], errors, List.replicate (weights.length - bordersCount) ⟨0, 0, 0, 0⟩), 0) = .ok (st, calls) ∧
      layers .daC P eps (partialSums 0 weights) (weights.length - bordersCount) 0 (bordersCount - 1)
        ([], errors, List.replicate (weights.length - bordersCount) ⟨0, 0, 0, 0⟩) = .ok st ∧
      bestSplit .daC P eps weights bordersCount = .ok ts ∧
      calls ≤ (bordersCount - 1) *
        ((weights.length - bordersCount) * ((weights.length - bordersCount).size + 2)) := by
  obtain ⟨l, rfl⟩ : ∃ l, bordersCount = l + 1 := ⟨bordersCount - 1, by omega⟩
  rw [Nat.add_sub_cancel]
  obtain ⟨d, size⟩ : ∃ d, weights.length - (l + 1) = d := ⟨_, rfl⟩
  rw [size]
  have room (k : ℕ) (le : k ≤ l) (j : ℕ) (lt : j < d) : ESF.daC.place (k + 1) j < weights.length := by
    show k + 1 + j < weights.length
    omega
  obtain ⟨errors, first, begun⟩ := layered_start .daC weights P eps d (room 0 (Nat.zero_le l))
  obtain ⟨⟨st, calls⟩, ran, bound⟩ := countedLayers_ok (by omega) l (fun k lt => room k lt.le) begun
  obtain ⟨ts, found, -⟩ := bestSplitMode_many (show ESF.daC ≠ .rlm2 by decide) P eps more
  refine ⟨errors, st, calls, ts, first, ran, ?_, found, bound⟩
  rw [modeLayers_daC P eps (partialSums 0 weights) d 0 l (([], errors, List.replicate d ⟨0, 0, 0, 0⟩), 0), ran]
  rfl

/-- Reciprocals of the weights of four groups. -/
theorem bestSplitMode_daC_calls_reciprocals :
    ∃ errors st calls ts,
      (List.range ([1, 4, 2, 2, 5].length - 3)).mapM (fun i => do
        return (fun w : ℤ => (w : ℚ)⁻¹) (← read (partialSums 0 [1, 4, 2, 2, 5]) i)) = .ok errors ∧
      countedLayers (fun w : ℤ => (w : ℚ)⁻¹) (partialSums 0 [1, 4, 2, 2, 5]) ([1, 4, 2, 2, 5].length - 3) 0 (3 - 1)
        (([], errors, List.replicate ([1, 4, 2, 2, 5].length - 3) ⟨0, 0, 0, 0⟩), 0) = .ok (st, calls) ∧
      layers .daC (fun w : ℤ => (w : ℚ)⁻¹) (1 / 10 ^ 12) (partialSums 0 [1, 4, 2, 2, 5])
        ([1, 4, 2, 2, 5].length - 3) 0 (3 - 1)
        ([], errors, List.replicate ([1, 4, 2, 2, 5].length - 3) ⟨0, 0, 0, 0⟩) = .ok st ∧
      bestSplit .daC (fun w : ℤ => (w : ℚ)⁻¹) (1 / 10 ^ 12) [1, 4, 2, 2, 5] 3 = .ok ts ∧
      calls ≤ (3 - 1) * (([1, 4, 2, 2, 5].length - 3) * (([1, 4, 2, 2, 5].length - 3).size + 2)) :=
  bestSplitMode_daC_calls _ _ (by decide) (by decide)

end Run

end Cmicot.Grid
