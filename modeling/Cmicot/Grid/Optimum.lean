import Cmicot.Grid.Rlm2
import Cmicot.Lib.Cuts
import Mathlib.Algebra.Order.BigOperators.Group.List
import Mathlib.Algebra.Order.Ring.Rat
import Mathlib.Tactic.NormNum

/-!
The dynamic programme is optimal (`grid_creator/binarization.cpp`).

For a convex integer penalty and positive weights the errors of every layer are regular: crossing
groups cost more, and cutting off an empty group never pays. So both modes find the least cost of
cutting the weights up to a position into the groups of the layer, and back-tracking finds a cut
with this cost. `eps` makes no difference to integers.

* `Values.regular`: the errors of a layer are regular.
* `Values.succ`, `Traced.succ`: from one layer to the next.
* `bestSplit_least`: both modes find a cheapest cut.
* `bestSplit_rlm2_optimal`: `E_RLM2` is as good as `E_Base2`.
-/

namespace Cmicot.Grid

open Loop Cuts

/-! ### Sums and errors -/

section Errors

variable {weights : List ℤ} {P : ℤ → ℤ} {v : ℕ → ℤ} {d l i j m : ℕ}

/-- The value of `sweights[m]`. -/
def prefixSum (weights : List ℤ) (m : ℕ) : ℤ := (weights.take (m + 1)).sum

theorem getElem?_partialSums (start : ℤ) (inside : m < weights.length) :
    (partialSums start weights)[m]? = some (start + (weights.take (m + 1)).sum) := by
  induction weights generalizing start m with
  | nil => simp at inside
  | cons w rest ih =>
    cases m with
    | zero => simp [partialSums]
    | succ m =>
      rw [partialSums, List.getElem?_cons_succ, ih _ (by simpa using inside), List.take_succ_cons, List.sum_cons,
        add_assoc]

theorem read_partialSums (inside : m < weights.length) :
    read (partialSums 0 weights) m = .ok (prefixSum weights m) :=
  read_ok (by rw [getElem?_partialSums 0 inside, zero_add]; rfl)

theorem prefixSum_mono (positive : ∀ w ∈ weights, 0 < w) (le : i ≤ m) : prefixSum weights i ≤ prefixSum weights m := by
  have split : weights.take (m + 1) = weights.take (i + 1) ++ (weights.take (m + 1)).drop (i + 1) := by
    have := List.take_append_drop (i + 1) (weights.take (m + 1))
    rw [List.take_take, Nat.min_eq_left (by omega)] at this
    exact this.symm
  have rest : 0 ≤ ((weights.take (m + 1)).drop (i + 1)).sum :=
    List.sum_nonneg fun w mem => (positive w (List.mem_of_mem_take (List.mem_of_mem_drop mem))).le
  rw [prefixSum, prefixSum, split, List.sum_append]
  omega

/-- The weight of a group is a difference of two sums. -/
theorem sum_drop_take (le : i ≤ m) :
    ((weights.take (m + 1)).drop (i + 1)).sum = prefixSum weights m - prefixSum weights i := by
  have split := congrArg List.sum (List.take_append_drop (i + 1) (weights.take (m + 1)))
  rw [List.take_take, Nat.min_eq_left (by omega), List.sum_append] at split
  rw [prefixSum, prefixSum]
  omega

/-- An error of layer `l`, from the values of the layer before. -/
def entry (weights : List ℤ) (P : ℤ → ℤ) (v : ℕ → ℤ) (l j i : ℕ) : ℤ :=
  v i + P (prefixSum weights (l + j + 1) - prefixSum weights (l + i))

theorem errorAt_ok (column : i < d) (row : l + j + 1 < weights.length) (start : l + i < weights.length) :
    errorAt (fun w => (P w : ℚ)) (partialSums 0 weights) ((List.range d).map fun i => (v i : ℚ)) l j i =
      .ok (entry weights P v l j i : ℚ) := by
  have previous : read ((List.range d).map fun i => (v i : ℚ)) i = .ok (v i : ℚ) :=
    read_ok (by rw [List.getElem?_map, List.getElem?_range column]; rfl)
  simp only [errorAt, previous, read_partialSums row, read_partialSums start, ok_bind, pure_eq_ok, entry]
  push_cast
  rfl

/-- Integers are never closer than `eps` to each other. -/
theorem cast_add_eps_lt {x y : ℤ} : (x : ℚ) + 1 / 10 ^ 12 < y ↔ (x : ℚ) < y := by
  constructor
  · intro lt
    have : (0 : ℚ) < 1 / 10 ^ 12 := by positivity
    linarith
  · intro lt
    have le : x + 1 ≤ y := Int.cast_lt.mp lt
    have : (x : ℚ) + 1 ≤ y := by exact_mod_cast le
    have : (1 : ℚ) / 10 ^ 12 < 1 := by norm_num
    linarith

/-- What the values of a layer satisfy. -/
structure Values (weights : List ℤ) (P : ℤ → ℤ) (d l : ℕ) (v : ℕ → ℤ) : Prop where
  least : ∀ j < d, ∀ groups, IsCut (weights.take (l + j + 1)) (l + 1) groups → v j ≤ cost P groups
  growth : ∀ i, i + 1 < d → v i + P (prefixSum weights (l + i + 1) - prefixSum weights (l + i)) ≤ v (i + 1) + P 0

/-- **The errors of a layer are regular** for a convex penalty and positive weights. -/
theorem Values.regular (values : Values weights P d l v) (convex : Convex P) (positive : ∀ w ∈ weights, 0 < w) :
    Regular (fun j i => (entry weights P v l j i : ℚ)) (1 / 10 ^ 12) d := by
  have grows (j i i' : ℕ) (lt : i < i') :
      entry weights P v l (j + 1) i' + entry weights P v l j i ≤
        entry weights P v l j i' + entry weights P v l (j + 1) i := by
    have := convex.monge (prefixSum_mono positive (show l + i ≤ l + i' by omega))
      (prefixSum_mono positive (show l + j + 1 ≤ l + (j + 1) + 1 by omega))
    simp only [entry]
    linarith
  refine ⟨fun {j i i'} _ lt _ le => ?_, fun {j i i'} _ lt _ le => ?_, fun {j i} diagonal inside => ?_,
    cast_add_eps_lt⟩
  · have := grows j i i' lt
    have := Int.cast_le.mp le
    exact Int.cast_le.mpr (by omega)
  · have := grows j i i' lt
    have := Int.cast_le.mp le
    exact Int.cast_le.mpr (by omega)
  · have growth := values.growth i inside
    have := convex.monge (prefixSum_mono positive (show l + i ≤ l + i + 1 by omega))
      (prefixSum_mono positive (show l + j + 1 ≤ l + i + 1 by omega))
    rw [sub_self] at this
    refine Int.cast_le.mpr ?_
    simp only [entry, ← Nat.add_assoc]
    linarith

/-- The values of the first layer: one group each. -/
theorem values_zero (convex : Convex P) (positive : ∀ w ∈ weights, 0 < w) :
    Values weights P d 0 fun j => P (prefixSum weights j) := by
  refine ⟨fun j _ groups cut => ?_, fun i _ => ?_⟩
  · obtain ⟨m, earlier, rfl, -, -, rest⟩ := cut.concat
    have none : earlier = [] := List.eq_nil_of_length_eq_zero rest.count
    have whole := cut.whole
    subst none
    rw [List.nil_append, List.flatten_singleton, Nat.zero_add] at whole
    rw [List.nil_append, Nat.zero_add, whole]
    simp [cost, prefixSum]
  · have nonneg : 0 ≤ prefixSum weights i :=
      List.sum_nonneg fun w mem => (positive w (List.mem_of_mem_take mem)).le
    have := convex.monge nonneg (prefixSum_mono positive (show i ≤ i + 1 by omega))
    simp only [Nat.zero_add, sub_self, sub_zero] at this ⊢
    linarith

/-- The values of the next layer: the best cut at the end of a position. -/
theorem Values.succ (values : Values weights P d l v) (convex : Convex P) (positive : ∀ w ∈ weights, 0 < w)
    (room : l + d < weights.length) {v' : ℕ → ℤ} {solution : ℕ → ℕ}
    (attained : ∀ j < d, solution j ≤ j ∧ v' j = entry weights P v l j (solution j))
    (best : ∀ j < d, ∀ i ≤ j, v' j ≤ entry weights P v l j i) : Values weights P d (l + 1) v' := by
  refine ⟨fun j inside groups cut => ?_, fun j inside => ?_⟩
  · obtain ⟨m, earlier, rfl, low, high, rest⟩ := cut.concat
    rw [List.length_take] at high
    obtain ⟨i, rfl⟩ : ∃ i, m = l + i + 1 := ⟨m - l - 1, by omega⟩
    have fits : i ≤ j := by omega
    rw [List.take_take, Nat.min_eq_left (by omega)] at rest
    have before := values.least i (by omega) earlier rest
    have group : ((weights.take (l + 1 + j + 1)).drop (l + i + 1)).sum =
        prefixSum weights (l + j + 1) - prefixSum weights (l + i) := by
      rw [show l + 1 + j + 1 = l + j + 1 + 1 by omega, sum_drop_take (by omega)]
    rw [cost_concat, group]
    have := best j inside i fits
    rw [entry] at this
    linarith
  · obtain ⟨le, eq⟩ := attained (j + 1) inside
    rw [show l + 1 + j + 1 = l + (j + 1) + 1 by omega, show l + 1 + j = l + j + 1 by omega, eq]
    rcases Nat.eq_or_lt_of_le le with last | lt
    · -- the last group of `j + 1` is the new weight alone
      have before := best j (by omega) j le_rfl
      have growth := values.growth j inside
      rw [last, entry]
      rw [entry] at before
      simp only [← Nat.add_assoc] at before growth ⊢
      linarith
    · have before := best j (by omega) (solution (j + 1)) (by omega)
      have := convex.monge (prefixSum_mono positive (show l + solution (j + 1) ≤ l + j + 1 by omega))
        (prefixSum_mono positive (show l + j + 1 ≤ l + (j + 1) + 1 by omega))
      rw [sub_self] at this
      rw [entry] at before ⊢
      linarith

/-! ### Back-tracking -/

theorem adjust_concat (indices : List ℕ) (b : ℕ) :
    adjust (indices ++ [b]) = adjust indices ++ [b + indices.length] := by
  simp [adjust, List.zipIdx_append]

/-- Back-tracking from a position gives an optimal cut of the weights up to it. -/
structure Trace (weights : List ℤ) (P : ℤ → ℤ) (l : ℕ) (v : ℕ → ℤ) (b : ℕ) (indices ts : List ℕ) : Prop where
  count : indices.length = l + 1
  thresholds : adjust indices = ts ++ [b + l]
  ordered : (ts ++ [b + l]).Pairwise (· < ·)
  attained : cost P (cutAt (weights.take (l + b + 1)) 0 ts) = v b

def Traced (weights : List ℤ) (P : ℤ → ℤ) (d l : ℕ) (v : ℕ → ℤ) (solutions : List (List ℕ)) : Prop :=
  ∀ b < d, ∃ indices ts, backtrack solutions b = .ok indices ∧ Trace weights P l v b indices ts

theorem traced_zero : Traced weights P d 0 (fun j => P (prefixSum weights j)) [] := by
  intro b _
  refine ⟨[b], [], rfl, rfl, rfl, by simp, ?_⟩
  simp [cutAt, cost, prefixSum]

/-- One more threshold behind a trace. -/
theorem Trace.cost_concat {b : ℕ} {indices ts : List ℕ} (trace : Trace weights P l v b indices ts) (le : b ≤ j) :
    cost P (cutAt (weights.take (l + j + 1 + 1)) 0 (ts ++ [b + l])) = entry weights P v l j b := by
  have before : ∀ s ∈ ts, s ≤ b + l := fun s mem =>
    ((List.pairwise_append.mp trace.ordered).2.2 s mem _ (List.mem_singleton.mpr rfl)).le
  rw [cutAt_concat before, Cuts.cost_concat, List.take_take, Nat.min_eq_left (by omega), Nat.add_comm b l,
    trace.attained, sum_drop_take (by omega)]
  rfl

theorem Trace.ordered_concat {b : ℕ} {indices ts : List ℕ} (trace : Trace weights P l v b indices ts) (le : b ≤ j) :
    (ts ++ [b + l] ++ [j + (l + 1)]).Pairwise (· < ·) := by
  refine List.pairwise_append.mpr ⟨trace.ordered, List.pairwise_singleton _ _, fun s mem t last => ?_⟩
  rw [List.mem_singleton.mp last]
  rcases List.mem_append.mp mem with mem | mem
  · have := (List.pairwise_append.mp trace.ordered).2.2 s mem _ (List.mem_singleton.mpr rfl)
    omega
  · rw [List.mem_singleton.mp mem]
    omega

theorem Traced.succ {solutions : List (List ℕ)} (traced : Traced weights P d l v solutions) {v' : ℕ → ℤ}
    {row : List ℕ} (size : row.length = d)
    (attained : ∀ j < d, row.getD j 0 ≤ j ∧ v' j = entry weights P v l j (row.getD j 0)) :
    Traced weights P d (l + 1) v' (row :: solutions) := by
  intro j inside
  obtain ⟨le, eq⟩ := attained j inside
  obtain ⟨indices, ts, tracked, trace⟩ := traced (row.getD j 0) (by omega)
  have at_j : row[j]? = some (row.getD j 0) := by
    rw [List.getD_eq_getElem _ _ (size ▸ inside), List.getElem?_eq_getElem]
  refine ⟨indices ++ [j], ts ++ [row.getD j 0 + l], ?_, ?_, ?_, trace.ordered_concat le, ?_⟩
  · simp only [backtrack, read_ok at_j, ok_bind, tracked, pure_eq_ok]
  · rw [List.length_append, List.length_singleton, trace.count]
  · rw [adjust_concat, trace.thresholds, trace.count]
  · rw [show l + 1 + j + 1 = l + j + 1 + 1 by omega, trace.cost_concat le, eq]

end Errors

/-! ### Trying all columns -/

section TryAll

variable {R : Type} [LinearOrder R]

theorem tryAll_ok (err : ℕ → Except Fault R) (better : R → R → Bool) {F : ℕ → R} {j : ℕ}
    (reads : ∀ m ≤ j, err m = .ok (F m)) (sound : ∀ x y, better x y = true → x ≤ y)
    (complete : ∀ x y, better x y = false → y ≤ x) :
    ∃ b, tryAll err better j = .ok (b, F b) ∧ b ≤ j ∧ ∀ m ≤ j, F b ≤ F m := by
  obtain ⟨st, ran, b, lt, rfl, least⟩ := forSteps_ok
    (b := fun i st => do
      let newError ← err i
      return if better newError st.2 then (i, newError) else st)
    (I := fun i st => ∃ b < i, st = (b, F b) ∧ ∀ m < i, F b ≤ F m) (j := 1) (k := j) (s := (0, F 0))
    ⟨0, Nat.zero_lt_one, rfl, fun m lt => by rw [Nat.lt_one_iff.mp lt]⟩
    fun i st low high => by
      rintro ⟨b, lt, rfl, least⟩
      refine ⟨_, by rw [reads i (by omega), ok_bind]; rfl, ?_⟩
      cases decided : better (F i) (F b) with
      | true =>
        refine ⟨i, Nat.lt_succ_self i, rfl, fun m before => ?_⟩
        rcases Nat.eq_or_lt_of_le (Nat.le_of_lt_succ before) with rfl | earlier
        · exact le_rfl
        · exact (sound _ _ decided).trans (least m earlier)
      | false =>
        refine ⟨b, by omega, rfl, fun m before => ?_⟩
        rcases Nat.eq_or_lt_of_le (Nat.le_of_lt_succ before) with rfl | earlier
        · exact complete _ _ decided
        · exact least m earlier
  refine ⟨b, ?_, by omega, fun m le => least m (by omega)⟩
  rw [tryAll, reads 0 (Nat.zero_le j), ok_bind, ran]

theorem layerBase2_ok {err : ℕ → ℕ → Except Fault R} {E : ℕ → ℕ → R} {d : ℕ}
    (reads : ∀ j < d, ∀ m < d, err j m = .ok (E j m)) :
    ∃ solutions errors, layerBase2 err d = .ok (solutions, errors) ∧ solutions.length = d ∧
      errors = (solutions.mapIdx fun m b => E m b) ∧
      ∀ m b, solutions[m]? = some b → b ≤ m ∧ ∀ i ≤ m, E m b ≤ E m i := by
  let I (j : ℕ) (st : List ℕ × List R) : Prop := st.1.length = j ∧ st.2 = (st.1.mapIdx fun m b => E m b) ∧
    ∀ m b, st.1[m]? = some b → b ≤ m ∧ ∀ i ≤ m, E m b ≤ E m i
  have run : ∃ st, layerBase2 err d = .ok st ∧ I (0 + d) st := by
    refine forSteps_ok (I := I) ⟨rfl, rfl, by simp⟩ fun j st _ lt => ?_
    rintro ⟨count, errors, best⟩
    obtain ⟨b, tried, le, least⟩ := tryAll_ok (err j)
      (fun newError bestError => !decide (bestError < newError)) (F := E j) (j := j)
      (fun m le => reads j (by omega) m (by omega))
      (by simp) (fun x y no => by simpa using le_of_lt (by simpa using no))
    refine ⟨(st.1 ++ [b], st.2 ++ [E j b]), by simp only [tried, ok_bind, pure_eq_ok], by simp [count], ?_,
      fun m b' at_m => ?_⟩
    · simp only [errors, List.mapIdx_append, List.mapIdx_singleton, count, Nat.zero_add]
    · rcases getElem?_concat count at_m with before | ⟨rfl, rfl⟩
      · exact best m b' before
      · exact ⟨le, least⟩
  obtain ⟨⟨solutions, errors⟩, ran, count, eq, best⟩ := run
  exact ⟨solutions, errors, ran, count.trans (Nat.zero_add d), eq, best⟩

end TryAll

/-! ### The parts of the programme -/

theorem length_adjust (indices : List ℕ) : (adjust indices).length = indices.length := by
  rw [adjust, List.length_map, List.length_zipIdx]

/-- The thresholds for few weights: one for each border, and each at a weight. -/
theorem bestSplit_few {W R : Type} [Zero W] [Add W] [Sub W] [Zero R] [Add R] [Sub R] [LT R] [DecidableLT R] (mode : ESF)
    (penalty : W → R) (eps : R) {weights : List W} {l : ℕ} (some : weights ≠ []) (few : weights.length ≤ l + 1 + 1) :
    bestSplit mode penalty eps weights (l + 1) =
        .ok (List.range (weights.length - 1) ++ List.replicate (l + 1 - (weights.length - 1)) (weights.length - 1)) ∧
      (List.range (weights.length - 1) ++
        List.replicate (l + 1 - (weights.length - 1)) (weights.length - 1)).length = l + 1 ∧
      ∀ t ∈ List.range (weights.length - 1) ++ List.replicate (l + 1 - (weights.length - 1)) (weights.length - 1),
        t < weights.length := by
  have pos := List.length_pos_of_ne_nil some
  have go : ¬ (l + 1 + 1 ≤ 1 ∨ weights.length = 0) := by omega
  refine ⟨by simp only [bestSplit, if_neg go, if_pos few]; rfl, ?_, fun t mem => ?_⟩
  · rw [List.length_append, List.length_range, List.length_replicate]
    omega
  · rcases List.mem_append.mp mem with mem | mem
    · have := List.mem_range.mp mem
      omega
    · have := List.eq_of_mem_replicate mem
      omega

theorem modeError_narrow {W R : Type} [Sub W] [Add R] {mode : ESF} {penalty : W → R} {sweights : List W}
    {prevError : List R} {l j i : ℕ} (narrow : mode.wide = false) :
    modeError mode penalty sweights prevError l j i = errorAt penalty sweights prevError l j i := by
  rw [modeError, narrow]
  rfl

/-- The thresholds of a run without empty groups whose parts are known: `l + 1` borders, `d` columns. -/
theorem bestSplit_of_parts {W R : Type} [Zero W] [Add W] [Sub W] [Zero R] [Add R] [Sub R] [LT R] [DecidableLT R]
    {mode : ESF} {penalty : W → R} {eps best : R} {weights : List W} {l d b : ℕ} {start errors : List R}
    {solutions : List (List ℕ)} {cells : List (Cell R)} {indices : List ℕ} (narrow : mode.wide = false)
    (whole : l + d + 1 = weights.length)
    (more : l + 1 + 1 < weights.length)
    (first : (List.range d).mapM (fun i => do return penalty (← read (partialSums 0 weights) i)) = .ok start)
    (ran : layers mode penalty eps (partialSums 0 weights) d 0 l ([], start, List.replicate d ⟨0, 0, 0, 0⟩) =
      .ok (solutions, errors, cells))
    (tried : tryAll (modeError mode penalty (partialSums 0 weights) errors l (d - 1))
      (fun newError bestError => decide (newError < bestError)) (d - 1) = .ok (b, best))
    (tracked : backtrack solutions b = .ok indices) :
    bestSplit mode penalty eps weights (l + 1) = .ok (adjust indices) := by
  have some : ¬ (l + 1 + 1 ≤ 1 ∨ weights.length = 0) := by omega
  have many : ¬ weights.length ≤ l + 1 + 1 := by omega
  have columns : weights.length - (l + 1 + 1) + 1 = d := by omega
  have layerCount : l + 1 + 1 - 2 = l := by omega
  simp only [bestSplit, if_neg some, if_neg many, narrow, Bool.false_eq_true, if_false, columns, layerCount, first,
    ok_bind, ran, tried, tracked]
  rfl

/-! ### The optimum -/

section Optimum

variable {weights : List ℤ} {P : ℤ → ℤ} {d l : ℕ}

/-- What holds before layer `l`. -/
def Reached (weights : List ℤ) (P : ℤ → ℤ) (d l : ℕ) (st : List (List ℕ) × List ℚ × List (Cell ℚ)) : Prop :=
  ∃ v : ℕ → ℤ, st.2.1 = ((List.range d).map fun i => (v i : ℚ)) ∧ st.2.2.length = d ∧
    Values weights P d l v ∧ Traced weights P d l v st.1

/-- The best columns of a layer give the next one. -/
theorem reached_succ (convex : Convex P) (positive : ∀ w ∈ weights, 0 < w) (room : l + d < weights.length)
    {v : ℕ → ℤ} {solutions : List (List ℕ)} {row : List ℕ} {cells : List (Cell ℚ)} (values : Values weights P d l v)
    (traced : Traced weights P d l v solutions) (size : row.length = d) (cellSize : cells.length = d)
    (best : ∀ m b, row[m]? = some b → b ≤ m ∧
      ∀ i ≤ m, (entry weights P v l m b : ℚ) ≤ entry weights P v l m i) :
    Reached weights P d (l + 1) (row :: solutions, row.mapIdx fun m b => (entry weights P v l m b : ℚ), cells) := by
  have at_row (j : ℕ) (inside : j < d) : row[j]? = some (row.getD j 0) := by
    rw [List.getD_eq_getElem _ _ (size ▸ inside), List.getElem?_eq_getElem]
  have attained : ∀ j < d, row.getD j 0 ≤ j ∧
      entry weights P v l j (row.getD j 0) = entry weights P v l j (row.getD j 0) :=
    fun j inside => ⟨(best j _ (at_row j inside)).1, rfl⟩
  refine ⟨fun j => entry weights P v l j (row.getD j 0), ?_, cellSize, ?_, traced.succ size attained⟩
  · apply List.ext_getElem
    · simp [size]
    · intro j inside inside'
      have lt : j < row.length := by simpa using inside
      simp [List.getElem?_eq_getElem lt]
  · refine values.succ convex positive room attained fun j inside i le => ?_
    exact Int.cast_le.mp ((best j _ (at_row j inside)).2 i le)

theorem wide_eq_false {mode : ESF} (listed : mode ∈ [.base2, .rlm2]) : mode.wide = false := by
  rcases List.mem_pair.mp listed with rfl | rfl <;> rfl

/-- All layers. -/
theorem layers_ok {mode : ESF} (listed : mode ∈ [.base2, .rlm2]) (convex : Convex P)
    (positive : ∀ w ∈ weights, 0 < w) {count : ℕ} (room : count + d ≤ weights.length)
    {st : List (List ℕ) × List ℚ × List (Cell ℚ)} (start : Reached weights P d 0 st) :
    ∃ st', layers mode (fun w => (P w : ℚ)) (1 / 10 ^ 12) (partialSums 0 weights) d 0 count st = .ok st' ∧
      Reached weights P d count st' := by
  have narrow := wide_eq_false listed
  have run : ∃ st', layers mode (fun w => (P w : ℚ)) (1 / 10 ^ 12) (partialSums 0 weights) d 0 count st = .ok st' ∧
      Reached weights P d (0 + count) st' := by
    refine forSteps_ok (I := Reached weights P d) start fun l st _ lt => ?_
    obtain ⟨solutions, errors, cells⟩ := st
    rintro ⟨v, rfl, size, values, traced⟩
    have reads : ∀ j < d, ∀ m < d, modeError mode (fun w => (P w : ℚ)) (partialSums 0 weights)
        ((List.range d).map fun i => (v i : ℚ)) l j m = .ok (entry weights P v l j m : ℚ) :=
      fun j row m column => (modeError_narrow narrow).trans (errorAt_ok column (by omega) (by omega))
    rcases List.mem_pair.mp listed with rfl | rfl
    · obtain ⟨row, errors, layer, length, eq, best⟩ := layerBase2_ok reads
      refine ⟨(row :: solutions, errors, cells), ?_, ?_⟩
      · simp only [modeLayer, layer, ok_bind, pure_eq_ok]
      · rw [eq]
        exact reached_succ convex positive (by omega) values traced length size best
    · obtain ⟨row, errors, cells', layer, size', length, eq, best⟩ :=
        layerRlm2_ok (1 / 10 ^ 12) reads size
      have regular := values.regular convex positive
      refine ⟨(row :: solutions, errors, cells'), ?_, ?_⟩
      · simp only [modeLayer, layer, ok_bind, pure_eq_ok]
      rw [eq]
      refine reached_succ convex positive (by omega) values traced length size' fun m b at_m => ?_
      have inside : m < d := length ▸ (List.getElem?_eq_some_iff.mp at_m).1
      exact ⟨(best m b at_m).le regular, fun i le => (best m b at_m).least regular i (by omega)⟩
  rwa [Nat.zero_add] at run

/-- No cut is cheaper than the best one whose last group begins behind a column. -/
theorem Values.entry_le_cost {v : ℕ → ℤ} (values : Values weights P d l v) (whole : l + d + 1 = weights.length) {b : ℕ}
    (least : ∀ i < d, entry weights P v l (d - 1) b ≤ entry weights P v l (d - 1) i) {groups : List (List ℤ)}
    (cut : IsCut weights (l + 2) groups) : entry weights P v l (d - 1) b ≤ cost P groups := by
  obtain ⟨m, earlier, rfl, low, high, rest⟩ := cut.concat
  obtain ⟨i, rfl⟩ : ∃ i, m = l + i + 1 := ⟨m - (l + 1), by omega⟩
  have before := values.least i (by omega) earlier rest
  have here := least i (by omega)
  have all : weights.take (l + (d - 1) + 1 + 1) = weights := List.take_of_length_le (by omega)
  have group : (weights.drop (l + i + 1)).sum = prefixSum weights (l + (d - 1) + 1) - prefixSum weights (l + i) := by
    rw [← sum_drop_take (by omega), all]
  rw [Cuts.cost_concat, group]
  exact here.trans (Int.add_le_add_right before _)

/-- **The dynamic programme finds a cheapest cut**, in both modes. -/
theorem bestSplit_least {mode : ESF} (listed : mode ∈ [.base2, .rlm2]) (convex : Convex P)
    (positive : ∀ w ∈ weights, 0 < w) {bordersCount : ℕ} (pos : 1 ≤ bordersCount)
    (more : bordersCount + 1 < weights.length) :
    ∃ ts, bestSplit mode (fun w => (P w : ℚ)) (1 / 10 ^ 12) weights bordersCount = .ok ts ∧
      ts.length = bordersCount ∧ ts.Pairwise (· < ·) ∧ (∀ t ∈ ts, t < weights.length - 1) ∧
      IsLeast {c | ∃ groups, IsCut weights (bordersCount + 1) groups ∧ c = cost P groups}
        (cost P (cutAt weights 0 ts)) := by
  obtain ⟨l, rfl⟩ : ∃ l, bordersCount = l + 1 := ⟨bordersCount - 1, by omega⟩
  obtain ⟨d, whole⟩ : ∃ d, l + d + 1 = weights.length := ⟨weights.length - (l + 1), by omega⟩
  have first : (List.range d).mapM (fun i => do
      return (P (← read (partialSums 0 weights) i) : ℚ)) =
        .ok ((List.range d).map fun i => (P (prefixSum weights i) : ℚ)) :=
    mapM_ok fun i mem => by
      have := List.mem_range.mp mem
      rw [read_partialSums (by omega)]
      rfl
  have start : Reached weights P d 0
      ([], (List.range d).map fun i => (P (prefixSum weights i) : ℚ), List.replicate d ⟨0, 0, 0, 0⟩) :=
    ⟨_, rfl, List.length_replicate, values_zero convex positive, traced_zero⟩
  have room : l + d ≤ weights.length := by omega
  obtain ⟨⟨solutions, errors, cells⟩, ran, v, errors_eq, -, values, traced⟩ :=
    layers_ok listed convex positive room start
  have narrow := wide_eq_false listed
  obtain ⟨b, tried, le, least⟩ := tryAll_ok
    (modeError mode (fun w => (P w : ℚ)) (partialSums 0 weights) errors l (d - 1))
    (fun newError bestError => decide (newError < bestError)) (j := d - 1)
    (F := fun i => (entry weights P v l (d - 1) i : ℚ))
    (fun m le => by
      rw [modeError_narrow narrow, show errors = _ from errors_eq]
      exact errorAt_ok (by omega) (by omega) (by omega))
    (fun x y yes => (of_decide_eq_true yes).le) (fun x y no => not_lt.mp (of_decide_eq_false no))
  obtain ⟨indices, ts, tracked, trace⟩ := traced b (by omega)
  have inside : ∀ t ∈ ts ++ [b + l], t < weights.length - 1 := by
    intro t mem
    have bound : t ≤ b + l := by
      rcases List.mem_append.mp mem with mem | mem
      · exact ((List.pairwise_append.mp trace.ordered).2.2 t mem _ (List.mem_singleton.mpr rfl)).le
      · rw [List.mem_singleton.mp mem]
    omega
  have length : (ts ++ [b + l]).length = l + 1 := by
    rw [← trace.thresholds, length_adjust, trace.count]
  have all : weights.take (l + (d - 1) + 1 + 1) = weights := List.take_of_length_le (by omega)
  have price := trace.cost_concat le
  rw [all] at price
  refine ⟨ts ++ [b + l], ?_, length, trace.ordered, inside, ⟨_, ?_, rfl⟩, ?_⟩
  · rw [← trace.thresholds]
    exact bestSplit_of_parts narrow whole more first ran tried tracked
  · have cut := isCut_cutAt trace.ordered (fun t mem => by have := inside t mem; omega)
      (List.ne_nil_of_length_pos (show 0 < weights.length by omega))
    rwa [length] at cut
  · rintro c ⟨groups, cut, rfl⟩
    rw [price]
    exact values.entry_le_cost whole (fun i lt => Int.cast_le.mp (least i (by omega))) cut

/-- **`E_RLM2` is optimal**: its thresholds are increasing and cut the weights as cheaply as
`E_Base2` does, which is the least cost of all cuts. -/
theorem bestSplit_rlm2_optimal (convex : Convex P) (positive : ∀ w ∈ weights, 0 < w) {bordersCount : ℕ}
    (pos : 1 ≤ bordersCount) (more : bordersCount + 1 < weights.length) :
    ∃ ts ts', bestSplit .rlm2 (fun w => (P w : ℚ)) (1 / 10 ^ 12) weights bordersCount = .ok ts ∧
      ts.length = bordersCount ∧ ts.Pairwise (· < ·) ∧ (∀ t ∈ ts, t < weights.length - 1) ∧
      IsLeast {c | ∃ groups, IsCut weights (bordersCount + 1) groups ∧ c = cost P groups}
        (cost P (cutAt weights 0 ts)) ∧
      bestSplit .base2 (fun w => (P w : ℚ)) (1 / 10 ^ 12) weights bordersCount = .ok ts' ∧
      cost P (cutAt weights 0 ts) = cost P (cutAt weights 0 ts') := by
  obtain ⟨ts, ran, length, ordered, inside, least⟩ :=
    bestSplit_least (show ESF.rlm2 ∈ [.base2, .rlm2] by decide) convex positive pos more
  obtain ⟨ts', ran', -, -, -, least'⟩ :=
    bestSplit_least (show ESF.base2 ∈ [.base2, .rlm2] by decide) convex positive pos more
  exact ⟨ts, ts', ran, length, ordered, inside, least, ran', least.unique least'⟩

/-- Squares of the weights of three groups. -/
theorem bestSplit_rlm2_optimal_squares :
    ∃ ts ts', bestSplit .rlm2 (fun w => ((w * w : ℤ) : ℚ)) (1 / 10 ^ 12) [1, 4, 2, 2, 5] 2 = .ok ts ∧
      ts.length = 2 ∧ ts.Pairwise (· < ·) ∧ (∀ t ∈ ts, t < [1, 4, 2, 2, 5].length - 1) ∧
      IsLeast {c | ∃ groups, IsCut [1, 4, 2, 2, 5] 3 groups ∧ c = cost (fun w => w * w) groups}
        (cost (fun w => w * w) (cutAt [1, 4, 2, 2, 5] 0 ts)) ∧
      bestSplit .base2 (fun w => ((w * w : ℤ) : ℚ)) (1 / 10 ^ 12) [1, 4, 2, 2, 5] 2 = .ok ts' ∧
      cost (fun w => w * w) (cutAt [1, 4, 2, 2, 5] 0 ts) =
        cost (fun w => w * w) (cutAt [1, 4, 2, 2, 5] 0 ts') := by
  have convex : Convex fun w => w * w := fun x => by nlinarith
  exact bestSplit_rlm2_optimal convex (by decide) (by decide) (by decide)

end Optimum

end Cmicot.Grid
