import Cmicot.BinScore
import Cmicot.ExactValues

/-!
The caching scorer (`caching_bin_scorer.cpp`).

The scorer keeps the steps of every bin from one round to the next. An evaluation goes
over the recorded steps and looks only at the bins of the feature enabled last, until a
step is displaced; later steps are then reset to a placeholder with the bin index -1 and
searched for among all enabled bins.

* `evaluate_eq`: an evaluation is a repair of the recorded steps.
* `information_bounds`: whatever the cache holds, a returned score lies in `[0, 1]`.
-/

namespace Cmicot

open Loop Greedy Search

/-! ### Definitions -/

/-- `steps.resize(size, value)`. -/
def resize {α : Type} (xs : List α) (size : ℕ) (value : α) : List α :=
  xs.take size ++ List.replicate (size - xs.length) value

/-- `Fill(steps.begin() + first, steps.end(), value)`. -/
def fillFrom {α : Type} (xs : List α) (first : ℕ) (value : α) : List α :=
  xs.take first ++ List.replicate (xs.length - first) value

structure TCachingBinScorer (R : Type) where
  label : TBinFeatureSet
  cache : List (TBinScore R)
  labelEntropy : R

/-- The loop state of the maximisation in `Evaluate`. -/
structure Maximizing (R : Type) where
  maxSteps : List (TStepResult R)
  minSteps : List (TStepResult R)
  binsToProcess : TBackground
  maximizerCmi : TCmiCalculator

/-- The loop state of the minimisation in `Evaluate`. -/
structure Minimizing (R : Type) where
  minSteps : List (TStepResult R)
  binsToProcess : TBackground
  background : TBackground
  minimizerCmi : TCmiCalculator

namespace TCachingBinScorer

section Generic

variable {R : Type} [Field R] [LinearOrder R] [Log2 R]

/-- The placeholder of a maximising step. -/
def noMaximizer : TStepResult R := ⟨-1, -1⟩

/-- The placeholder of a minimising step that was never filled. -/
def noMinimizer : TStepResult R := ⟨-1, 1000000⟩

/-- The placeholder of a minimising step that was reset. -/
def resetMinimizer : TStepResult R := ⟨-1, 100000⟩

/-- `TCachingBinScorer(label, binCount)`. -/
def ofLabel (label : TBinFeatureSet) (binCount : ℕ) : TCachingBinScorer R :=
  ⟨label, List.replicate binCount ⟨0, [], []⟩, entropy label.allBins⟩

/-- A calculator that was given the label; its size is read off the first label bin. -/
def labelCmi (label : TBinFeatureSet) : Except Failure TCmiCalculator :=
  match label.allBins with
  | [] => .error .emptyContainer
  | front :: _ => label.allBins.foldlM TCmiCalculator.addFirstVariableBin (.ofSize front.length)

/-- The candidates of a maximising step: helpers found so far are removed one by one. -/
def withoutHelpers (maxSteps : List (TStepResult R)) (step : ℕ) (enabledBins : List ℕ) : List ℕ :=
  (List.range step).foldl
    (fun bins i => bins.filter fun b => (b : ℤ) ≠ (maxSteps.getD i noMaximizer).binIndex) enabledBins

/-- The element an iterator of `MaxElementBy` or `MinElementBy` points at, checked by
`Y_VERIFY(bestBinIter != enabledBins.end(), "")`. -/
def verified (bins : List ℕ) (best : ℕ) : Except Failure ℕ :=
  match bins[best]? with
  | some b => .ok b
  | none => .error .noCandidate

/-- A better maximiser replaces the recorded one, resets what was recorded after it and
widens the search to the whole background. -/
def recordMaximizer (background : TBackground) (step bestBin : ℕ) (binCmi : R) (st : Maximizing R) :
    Maximizing R :=
  if binCmi > (st.maxSteps.getD step noMaximizer).cmi then
    { st with
      maxSteps := fillFrom (st.maxSteps.set step ⟨bestBin, binCmi⟩) (step + 1) noMaximizer
      minSteps := fillFrom st.minSteps (step + 1) resetMinimizer
      binsToProcess := background }
  else st

omit [Log2 R] in
@[simp] theorem recordMaximizer_maximizerCmi (background : TBackground) (step bestBin : ℕ) (binCmi : R)
    (st : Maximizing R) : (recordMaximizer background step bestBin binCmi st).maximizerCmi = st.maximizerCmi := by
  unfold recordMaximizer
  split <;> rfl

/-- The loop body of the maximisation. -/
def maximizeStep (background : TBackground) (step : ℕ) (st : Maximizing R) :
    Except Failure (Maximizing R) := do
  let enabledBins := withoutHelpers st.maxSteps step st.binsToProcess.enabledBinIndexes
  let best ← extremeElementBy (· > ·) (binValue (R := R) st.maximizerCmi background) enabledBins
  let bestBin ← verified enabledBins best
  let binCmi ← binValue st.maximizerCmi background bestBin
  let st := recordMaximizer background step bestBin binCmi st
  let bin ← background.getBin (st.maxSteps.getD step noMaximizer).binIndex
  return { st with maximizerCmi := ← st.maximizerCmi.addConditionBin bin }

/-- A better minimiser replaces the recorded one, resets what was recorded after it and
widens the search to the whole background. -/
def recordMinimizer (step bestBin : ℕ) (binCmi : R) (st : Minimizing R) : Minimizing R :=
  if binCmi < (st.minSteps.getD step noMinimizer).cmi then
    { st with
      minSteps := fillFrom (st.minSteps.set step ⟨bestBin, binCmi⟩) (step + 1) resetMinimizer
      binsToProcess := st.background }
  else st

omit [Log2 R] in
@[simp] theorem recordMinimizer_minimizerCmi (step bestBin : ℕ) (binCmi : R) (st : Minimizing R) :
    (recordMinimizer step bestBin binCmi st).minimizerCmi = st.minimizerCmi := by
  unfold recordMinimizer
  split <;> rfl

/-- The loop body of the minimisation. -/
def minimizeStep (maxSteps : List (TStepResult R)) (step : ℕ) (st : Minimizing R) :
    Except Failure (Minimizing R) := do
  let enabledBins := st.binsToProcess.enabledBinIndexes
  let best ← extremeElementBy (· < ·) (binValue (R := R) st.minimizerCmi st.background) enabledBins
  let bestBin ← verified enabledBins best
  let binCmi ← binValue st.minimizerCmi st.background bestBin
  let st := recordMinimizer step bestBin binCmi st
  let chosen := (st.minSteps.getD step noMinimizer).binIndex
  let binsToProcess ← st.binsToProcess.setBinEnabled chosen false
  let background ← st.background.setBinEnabled chosen false
  let minimizerCmi ← st.minimizerCmi.addConditionBin (← background.getBin chosen)
  let minimizerCmi ← addHelper minimizerCmi background maxSteps step
  return ⟨st.minSteps, binsToProcess, background, minimizerCmi⟩

/-- The maximisation of `Evaluate`. -/
def maximize (label : TBinFeatureSet) (background : TBackground) (evalBinIndex : ℤ) (steps : ℕ)
    (maxSteps minSteps : List (TStepResult R)) (binsToProcess : TBackground) :
    Except Failure (Maximizing R) := do
  let maximizerCmi ← labelCmi label
  let maximizerCmi ← maximizerCmi.addSecondVariableBin (← background.getBin evalBinIndex)
  forSteps (maximizeStep background) 0 steps ⟨maxSteps, minSteps, binsToProcess, maximizerCmi⟩

/-- The minimisation of `Evaluate`. -/
def minimize (label : TBinFeatureSet) (background : TBackground) (evalBinIndex : ℤ) (steps : ℕ)
    (maxSteps minSteps : List (TStepResult R)) (binsToProcess : TBackground) :
    Except Failure (Minimizing R) := do
  let minimizerCmi ← labelCmi label
  let minimizerCmi ← minimizerCmi.addSecondVariableBin (← background.getBin evalBinIndex)
  forSteps (minimizeStep maxSteps) 0 steps ⟨minSteps, binsToProcess, background, minimizerCmi⟩

/-- `Cache[evalBinIndex]`. -/
def cached (scorer : TCachingBinScorer R) (evalBinIndex : ℤ) : Except Failure (TBinScore R) :=
  match scorer.cache[evalBinIndex.toNat]? with
  | some entry => .ok entry
  | none => .error .cacheRange

/-- `Evaluate(background, evalBinIndex, stepCount)`; `resize` fails on a negative size. -/
def evaluate (scorer : TCachingBinScorer R) (background : TBackground) (evalBinIndex stepCount : ℤ) :
    Except Failure (TBinScore R × TCachingBinScorer R) := do
  let binsToProcess := background.lastEnabled
  let background ← background.setBinEnabled evalBinIndex true
  if (← background.enabledBins).length < stepCount + 1 then throw (.notEnoughBins (stepCount + 1))
  if evalBinIndex < 0 ∨ background.getBinCount ≤ evalBinIndex then
    throw (.evalIndex evalBinIndex background.getBinCount)
  let entry ← scorer.cached evalBinIndex
  if stepCount - 1 < 0 then throw .lengthError
  let maxSteps := resize entry.maximizingSteps (stepCount - 1).toNat noMaximizer
  let minSteps := resize entry.minimizingSteps stepCount.toNat noMinimizer
  let maximized ← maximize scorer.label background evalBinIndex (stepCount - 1).toNat maxSteps minSteps
    binsToProcess
  let binsToProcess ← maximized.binsToProcess.setBinEnabled evalBinIndex false
  let background ← background.setBinEnabled evalBinIndex false
  let minimized ← minimize scorer.label background evalBinIndex stepCount.toNat maximized.maxSteps
    maximized.minSteps binsToProcess
  let score := (← minimized.minimizerCmi.getValue) / scorer.labelEntropy
  let result : TBinScore R := ⟨score, maximized.maxSteps, minimized.minSteps⟩
  return (result, { scorer with cache := scorer.cache.set evalBinIndex.toNat result })

/-- `Evaluate` on one bin after another, as `ParallelForEach` does on one thread. Every
evaluation reads and writes only the cache entry of its own bin. -/
def evaluateEach (background : TBackground) (stepCount : ℤ) :
    List ℕ → TCachingBinScorer R → Except Failure (List (TBinScore R) × TCachingBinScorer R)
  | [], scorer => .ok ([], scorer)
  | b :: bins, scorer => do
    let (result, scorer) ← scorer.evaluate background b stepCount
    let (results, scorer) ← evaluateEach background stepCount bins scorer
    return (result :: results, scorer)

end Generic

/-! ### Recorded steps and placeholders -/

/-- The list has the given size: recorded steps, then placeholders with `blank` values. -/
structure Padded (blank : ℝ → Prop) (recorded : List (ℕ × ℝ)) (size : ℕ)
    (steps : List (TStepResult ℝ)) : Prop where
  room : recorded.length ≤ size
  shape : ∃ rest, steps = toSteps recorded ++ rest ∧ rest.length = size - recorded.length ∧
    ∀ step ∈ rest, blank step.cmi

section Padded

variable {blank : ℝ → Prop} {recorded done : List (ℕ × ℝ)} {size i : ℕ}
variable {steps : List (TStepResult ℝ)} {w d : TStepResult ℝ}

theorem toSteps_length (steps : List (ℕ × ℝ)) : (toSteps steps).length = steps.length :=
  List.length_map ..

theorem Padded.length (padded : Padded blank recorded size steps) : steps.length = size := by
  obtain ⟨room, rest, rfl, length, -⟩ := padded
  rw [List.length_append, toSteps_length, length]
  omega

theorem padded_resize (room : recorded.length ≤ size) (isBlank : blank w.cmi) :
    Padded blank recorded size (resize (toSteps recorded) size w) := by
  refine ⟨room, List.replicate (size - recorded.length) w, ?_, by simp, by simp [isBlank]⟩
  rw [resize, List.take_of_length_le (by rw [toSteps_length]; exact room), toSteps_length]

/-- A recorded step reads back. -/
theorem Padded.getD_recorded (padded : Padded blank recorded size steps) {x : ℕ × ℝ}
    (at_i : recorded[i]? = some x) : steps.getD i d = toStep x := by
  obtain ⟨-, rest, rfl, -, -⟩ := padded
  have lt : i < (toSteps recorded).length := by
    rw [toSteps_length]
    exact (List.getElem?_eq_some_iff.mp at_i).1
  rw [List.getD_eq_getElem?_getD, List.getElem?_append_left lt, toSteps, List.getElem?_map, at_i]
  rfl

/-- Behind the recorded steps there are placeholders. -/
theorem Padded.getD_blank (padded : Padded blank recorded size steps) (beyond : recorded.length ≤ i)
    (lt : i < size) : blank (steps.getD i d).cmi := by
  obtain ⟨-, rest, rfl, length, blanks⟩ := padded
  have inside : i - recorded.length < rest.length := by omega
  rw [List.getD_eq_getElem?_getD,
    List.getElem?_append_right (by rw [toSteps_length]; exact beyond), toSteps_length,
    List.getElem?_eq_getElem inside, Option.getD_some]
  exact blanks _ (List.getElem_mem inside)

/-- Writing the step behind `done` and resetting the rest. -/
theorem Padded.place {b : ℕ} {v : ℝ} (padded : Padded blank (done ++ recorded) size steps)
    (lt : done.length < size) (isBlank : blank w.cmi) :
    Padded blank (done ++ [(b, v)]) size
      (fillFrom (steps.set done.length ⟨b, v⟩) (done.length + 1) w) := by
  have length := padded.length
  obtain ⟨-, rest, rfl, -, -⟩ := padded
  refine ⟨by simpa using lt, List.replicate (size - (done.length + 1)) w, ?_, by simp,
    by simp [isBlank]⟩
  have head : toSteps (done ++ recorded) ++ rest = toSteps done ++ (toSteps recorded ++ rest) := by
    simp [toSteps]
  rw [head] at length ⊢
  rw [fillFrom, List.length_set, length, toSteps_concat]
  congr 1
  cases tail : toSteps recorded ++ rest with
  | nil => simp [tail, toSteps_length] at length; omega
  | cons x xs =>
    rw [List.set_append_right _ _ (by rw [toSteps_length]), toSteps_length, Nat.sub_self,
      List.set_cons_zero, List.take_append, toSteps_length, List.take_of_length_le (by rw [toSteps_length]; omega)]
    simp

/-- Without room for more, the list is what was settled. -/
theorem Padded.full (padded : Padded blank (done ++ recorded) size steps) (all : done.length = size) :
    steps = toSteps done := by
  subst all
  obtain ⟨room, rest, rfl, length, -⟩ := padded
  have spent : recorded = [] := by
    rw [List.length_append] at room
    exact List.eq_nil_of_length_eq_zero (by omega)
  rw [List.length_append] at length
  rw [List.eq_nil_of_length_eq_zero (show rest.length = 0 by omega), spent]
  simp

/-- Resetting from a position on. -/
theorem Padded.cut (padded : Padded blank recorded size steps) (k : ℕ) (isBlank : blank w.cmi) :
    Padded blank (recorded.take k) size (fillFrom steps k w) := by
  have length := padded.length
  obtain ⟨room, rest, rfl, restLength, blanks⟩ := padded
  have cut : (toSteps recorded ++ rest).take k =
      toSteps (recorded.take k) ++ rest.take (k - recorded.length) := by
    rw [List.take_append, toSteps_length, toSteps, ← List.map_take]
    rfl
  refine ⟨by simp; omega, rest.take (k - recorded.length) ++ List.replicate (size - k) w, ?_, ?_, ?_⟩
  · rw [fillFrom, length, cut, List.append_assoc]
  · simp only [List.length_append, List.length_take, List.length_replicate]
    omega
  · intro step mem
    rcases List.mem_append.mp mem with mem | mem
    · exact blanks step (List.mem_of_mem_take mem)
    · rw [List.eq_of_mem_replicate mem]
      exact isBlank

end Padded

/-! ### The maximisation is the pass over the helpers -/

/-- Removing the recorded helpers leaves the unused candidates. -/
theorem withoutHelpers_eq {steps : List (TStepResult ℝ)} {done : List (ℕ × ℝ)} {bins : List ℕ}
    (read : ∀ j x, done[j]? = some x → (steps.getD j noMaximizer).binIndex = (x.1 : ℤ)) :
    withoutHelpers steps done.length bins = unused bins done := by
  induction done using List.reverseRecOn with
  | nil => simp [withoutHelpers, unused]
  | append_singleton done x ih =>
    have before := ih fun j y at_j => read j y (by
      rw [List.getElem?_append_left (List.getElem?_eq_some_iff.mp at_j).1, at_j])
    have last := read done.length x (by simp)
    unfold withoutHelpers at before ⊢
    rw [List.length_append, List.length_singleton, List.range_succ, List.foldl_append, before,
      List.foldl_cons, List.foldl_nil, last]
    rw [show done ++ [x] = done ++ [(x.1, x.2)] from rfl, unused_concat]
    refine List.filter_congr fun b _ => ?_
    simp

section Maximize

variable {label features : TBinFeatureSet} {n : ℕ} {background : TBackground}
variable {full enabled last : List ℕ} {e s i : ℕ} {old : Entry ℝ}

/-- The loop state of the maximisation, next to the pass it implements. -/
structure MaxCached (label features : TBinFeatureSet) (n : ℕ) (full last : List ℕ) (e s : ℕ)
    (old : Entry ℝ) (p : Pass ℕ ℝ) (st : Maximizing ℝ) : Prop where
  same : st.binsToProcess.features = features
  processed : st.binsToProcess.enabledBinIndexes = p.pool full last
  maxSteps : Padded (· = -1) (p.done ++ p.old) (s - 1) st.maxSteps
  minSteps : Padded (100000 ≤ ·) (surviving p.wide old.minSteps) s st.minSteps
  fed : Fed st.maximizerCmi label features n [e] (elements p.done)
  wide : ∀ j, p.wide = some j → j < p.done.length

/-- A displaced helper also cuts the recorded conditions. -/
theorem surviving_place {p : Pass ℕ ℝ} (wide : ∀ j, p.wide = some j → j < p.done.length) (b : ℕ) (v : ℝ)
    (steps : List (ℕ × ℝ)) :
    (surviving p.wide steps).take (p.done.length + 1) = surviving (p.place b v).wide steps := by
  cases at_wide : p.wide with
  | none => simp [Pass.place, at_wide, surviving]
  | some j =>
    have := wide j at_wide
    have kept : (p.place b v).wide = some j := by simp [Pass.place, at_wide]
    simp only [kept, surviving]
    rw [List.take_take, Nat.min_eq_right (by omega)]

variable {p : Pass ℕ ℝ} {st : Maximizing ℝ} {cmi : TCmiCalculator}

theorem MaxCached.candidates (held : MaxCached label features n full last e s old p st) :
    withoutHelpers st.maxSteps p.done.length st.binsToProcess.enabledBinIndexes =
      unused (p.pool full last) p.done := by
  rw [held.processed]
  refine withoutHelpers_eq fun j x at_j => ?_
  have at_j' : (p.done ++ p.old)[j]? = some x := by
    rw [List.getElem?_append_left (List.getElem?_eq_some_iff.mp at_j).1, at_j]
  rw [held.maxSteps.getD_recorded at_j']
  rfl

/-- A placeholder loses against every value. -/
theorem MaxCached.wins (held : MaxCached label features n full last e s old p st)
    (lt : p.done.length < s - 1) {v : ℝ} (nonneg : 0 ≤ v)
    (reason : p.old = [] ∨ ∃ o rest, p.old = o :: rest ∧ v > o.2) :
    v > (st.maxSteps.getD p.done.length noMaximizer).cmi := by
  rcases reason with spent | ⟨o, rest, recorded, beats⟩
  · have blank := held.maxSteps.getD_blank (d := noMaximizer) (i := p.done.length)
      (by simp [spent]) lt
    rw [blank]
    exact lt_of_lt_of_le (by norm_num) nonneg
  · rw [held.maxSteps.getD_recorded (x := o) (by simp [recorded])]
    exact beats

theorem MaxCached.place {b : ℕ} {v : ℝ} (held : MaxCached label features n full last e s old p st)
    (same : background.features = features) (enabledFull : background.enabledBinIndexes = full)
    (lt : p.done.length < s - 1) (fed : Fed cmi label features n [e] (elements p.done ++ [b])) :
    MaxCached label features n full last e s old (p.place b v)
      ⟨fillFrom (st.maxSteps.set p.done.length ⟨b, v⟩) (p.done.length + 1) noMaximizer,
        fillFrom st.minSteps (p.done.length + 1) resetMinimizer, background, cmi⟩ where
  same := same
  processed := by
    rw [enabledFull]
    cases at_wide : p.wide <;> simp [Pass.pool, Pass.place, at_wide]
  maxSteps := by simpa [Pass.place] using held.maxSteps.place lt rfl
  minSteps := by
    rw [← surviving_place held.wide]
    exact held.minSteps.cut _ le_rfl
  fed := by simpa [Pass.place] using fed
  wide := by
    intro j at_wide
    cases before : p.wide with
    | none =>
      simp [Pass.place, before] at at_wide ⊢
      omega
    | some k =>
      have := held.wide k before
      simp [Pass.place, before] at at_wide ⊢
      omega

theorem MaxCached.keep {o : ℕ × ℝ} {rest : List (ℕ × ℝ)}
    (held : MaxCached label features n full last e s old p st) (recorded : p.old = o :: rest)
    (fed : Fed cmi label features n [e] (elements p.done ++ [o.1])) :
    MaxCached label features n full last e s old (p.keep o rest)
      { st with maximizerCmi := cmi } where
  same := held.same
  processed := held.processed
  maxSteps := by simpa [Pass.keep, recorded] using held.maxSteps
  minSteps := held.minSteps
  fed := by simpa [Pass.keep, elements] using fed
  wide := by
    intro j at_wide
    have := held.wide j at_wide
    simp only [Pass.keep, List.length_append, List.length_singleton]
    omega

/-- One iteration of the maximisation is one step of the pass. -/
theorem MaxCached.step (held : MaxCached label features n full last e s old p st)
    (pool : Pool label features n) (same : background.features = features)
    (enabledFull : background.enabledBinIndexes = full)
    (inside : ∀ b ∈ full, b < features.getBinCount) (valid : p.Valid full last)
    (sub : ∀ b ∈ last, b ∈ full) (left : unused (p.pool full last) p.done ≠ [])
    (lt : p.done.length < s - 1) (few : label.bins.length + 1 + p.done.length ≤ 62) :
    ∃ st', maximizeStep background p.done.length st = .ok st' ∧
      MaxCached label features n full last e s old
        (p.step (· > ·) (helperValue (cmiAt label features n) e) full last) st' := by
  have values : ∀ x ∈ unused (p.pool full last) p.done, binValue st.maximizerCmi background x =
      .ok (helperValue (cmiAt label features n) e (elements p.done) x) := fun x hx =>
    binValue_ok pool held.fed same (by simpa using few)
      (inside x (Pass.pool_subset sub x (mem_unused.mp hx).1))
  obtain ⟨b, found⟩ := exists_pick (r := (· > ·))
    (f := helperValue (cmiAt label features n) e (elements p.done)) left
  obtain ⟨pos, scanned, at_pos⟩ := extremeElementBy_ok (p := (· > ·)) values
  have chosen : verified (unused (p.pool full last) p.done) pos = .ok b := by
    rw [verified, at_pos, found]
  have value := values b (pick_mem found)
  have bInside := inside b (Pass.pool_subset sub b (mem_unused.mp (pick_mem found)).1)
  rcases Pass.step_cases found with ⟨reason, eq⟩ | ⟨o, rest, recorded, loses, eq⟩ <;> rw [eq]
  · obtain ⟨cmi, added, fed⟩ := held.fed.addConditionBin pool (by simp; omega) bInside
    have placed := held.place (v := helperValue (cmiAt label features n) e (elements p.done) b) same
      enabledFull lt fed
    refine ⟨_, ?_, placed⟩
    have here := placed.maxSteps.getD_recorded (d := noMaximizer) (i := p.done.length)
      (x := (b, helperValue (cmiAt label features n) e (elements p.done) b)) (by simp [Pass.place])
    have wins := held.wins (v := helperValue (cmiAt label features n) e (elements p.done) b) lt
      cmiAt_nonneg reason
    simp only [maximizeStep, held.candidates, scanned, chosen, value, ok_bind, recordMaximizer, if_pos wins]
    simp only [here, toStep, TBackground.getBin, same, getBin_binAt bInside, added, ok_bind, pure_eq_ok]
  · have oInside : o.1 < features.getBinCount :=
      inside _ (valid.mem_full _ (by simp [elements, recorded]))
    obtain ⟨cmi, added, fed⟩ := held.fed.addConditionBin pool (by simp; omega) oInside
    refine ⟨_, ?_, held.keep recorded fed⟩
    have reads := held.maxSteps.getD_recorded (d := noMaximizer) (i := p.done.length) (x := o)
      (by simp [recorded])
    have record : recordMaximizer background p.done.length b
        (helperValue (cmiAt label features n) e (elements p.done) b) st = st :=
      if_neg (by rw [reads]; exact loses)
    simp only [maximizeStep, held.candidates, scanned, chosen, value, ok_bind, record, reads, toStep,
      TBackground.getBin, same, getBin_binAt oInside, added, pure_eq_ok]

theorem labelCmi_ok (pool : Pool label features n) (few : label.bins.length ≤ 64) :
    ∃ cmi, labelCmi label = .ok cmi ∧ Fed cmi label features n [] [] := by
  obtain ⟨cmi, loaded, fed⟩ := fed_label pool few
  refine ⟨cmi, ?_, fed⟩
  unfold labelCmi
  cases bins : label.allBins with
  | nil => exact absurd bins pool.labelled
  | cons front rest =>
    have length : front.length = n := pool.labelLength front (by
      rw [show label.bins = front :: rest from bins]
      exact List.mem_cons_self)
    rw [bins] at loaded
    simpa [length] using loaded

/-- **The maximisation is the pass over the recorded helpers.** -/
theorem maximize_ok {binsToProcess : TBackground} (pool : Pool label features n)
    (ready : Ready full enabled last s old) (same : background.features = features)
    (enabledFull : background.enabledBinIndexes = full) (sameLast : binsToProcess.features = features)
    (enabledLast : binsToProcess.enabledBinIndexes = last)
    (inside : ∀ b ∈ full, b < features.getBinCount) (h : e < features.getBinCount)
    (few : label.bins.length + s ≤ 62) :
    ∃ st, maximize label background (e : ℤ) (s - 1) (resize (toSteps old.maxSteps) (s - 1) noMaximizer)
        (resize (toSteps old.minSteps) s noMinimizer) binsToProcess = .ok st ∧
      MaxCached label features n full last e s old (maxPass (cmiAt label features n) full last e s old)
        st := by
  obtain ⟨cmi, loaded, fed⟩ := labelCmi_ok pool (show label.bins.length ≤ 64 by omega)
  obtain ⟨cmi', added, fed'⟩ := fed.addSecondVariableBin pool (b := e) (by simp; omega) h
  obtain ⟨st, ran, held⟩ := forSteps_ok (b := maximizeStep background)
    (I := fun i => MaxCached label features n full last e s old (Pass.run (· > ·)
      (helperValue (cmiAt label features n) e) full last i ⟨[], none, old.maxSteps⟩))
    (j := 0) (k := s - 1)
    (s := ⟨resize (toSteps old.maxSteps) (s - 1) noMaximizer,
      resize (toSteps old.minSteps) s noMinimizer, binsToProcess, cmi'⟩)
    { same := sameLast
      processed := enabledLast
      maxSteps := padded_resize ready.maxLength rfl
      minSteps := padded_resize ready.minLength (by norm_num [noMinimizer])
      fed := fed'
      wide := by simp [Pass.run] }
    fun i st _ lt held => by
      obtain ⟨valid, length⟩ := ready.maxPass (cmiAt label features n) e
        (k := i) (by omega)
      have room := ready.maxRoom
      have next := held.step pool same enabledFull inside valid ready.lastFull
        (valid.candidates ready.fullSorted.nodup ready.added (by omega)) (by omega) (by omega)
      rwa [length, ← Pass.run_succ] at next
  rw [Nat.zero_add] at held
  refine ⟨st, ?_, held⟩
  simp only [maximize, loaded, ok_bind, TBackground.getBin, same, getBin_binAt h, added, ran]

end Maximize

/-! ### The minimisation is the pass over the conditions -/

section Minimize

variable {label features : TBinFeatureSet} {n : ℕ} {full enabled last : List ℕ} {e s : ℕ}
variable {helpers : List (ℕ × ℝ)} {p : Pass ℕ ℝ} {st : Minimizing ℝ} {old : Entry ℝ}

/-- The loop state of the minimisation, next to the pass it implements. -/
structure MinCached (label features : TBinFeatureSet) (n : ℕ) (enabled last : List ℕ) (e s : ℕ)
    (helpers : List (ℕ × ℝ)) (p : Pass ℕ ℝ) (st : Minimizing ℝ) : Prop where
  same : st.background.features = features
  sameBins : st.binsToProcess.features = features
  processed : st.binsToProcess.enabledBinIndexes = unused (p.pool enabled last) p.done
  background : st.background.enabledBinIndexes = unused enabled p.done
  minSteps : Padded (100000 ≤ ·) (p.done ++ p.old) s st.minSteps
  fed : Fed st.minimizerCmi label features n (e :: (elements helpers).take p.done.length)
    (elements p.done)

/-- A placeholder loses against every value. -/
theorem MinCached.wins (held : MinCached label features n enabled last e s helpers p st)
    (lt : p.done.length < s) {v : ℝ} (small : v < 100000)
    (reason : p.old = [] ∨ ∃ o rest, p.old = o :: rest ∧ v < o.2) :
    v < (st.minSteps.getD p.done.length noMinimizer).cmi := by
  rcases reason with spent | ⟨o, rest, recorded, beats⟩
  · have blank := held.minSteps.getD_blank (d := noMinimizer) (i := p.done.length)
      (by simp [spent]) lt
    exact lt_of_lt_of_le small blank
  · rw [held.minSteps.getD_recorded (x := o) (by simp [recorded])]
    exact beats

/-- What every iteration ends with: the chosen bin is disabled and becomes a condition, and
the helper of the step joins the second variable. -/
theorem MinCached.finish {binsToProcess background : TBackground} {cmi : TCmiCalculator} {b : ℕ}
    {candidates enabled' : List ℕ} {condition : List ℕ} (pool : Pool label features n)
    (same : background.features = features) (sameBins : binsToProcess.features = features)
    (processed : binsToProcess.enabledBinIndexes = candidates)
    (left : background.enabledBinIndexes = enabled')
    (fed : Fed cmi label features n (e :: (elements helpers).take condition.length) condition)
    (h : b < features.getBinCount) (helpersInside : ∀ b ∈ elements helpers, b < features.getBinCount)
    (few : label.bins.length + 1 + helpers.length + condition.length ≤ 62) :
    ∃ bins bg cmi' cmi'', binsToProcess.setBinEnabled (b : ℤ) false = .ok bins ∧
      background.setBinEnabled (b : ℤ) false = .ok bg ∧ bins.features = features ∧
      bg.features = features ∧ bins.enabledBinIndexes = candidates.filter (· ≠ b) ∧
      bg.enabledBinIndexes = enabled'.filter (· ≠ b) ∧ bg.getBin (b : ℤ) = .ok (features.binAt b) ∧
      cmi.addConditionBin (features.binAt b) = .ok cmi' ∧
      addHelper cmi' bg (toSteps helpers) condition.length = .ok cmi'' ∧
      Fed cmi'' label features n (e :: (elements helpers).take (condition.length + 1))
        (condition ++ [b]) := by
  have inBins : b < binsToProcess.getBinCount := by rw [TBackground.getBinCount, sameBins]; exact h
  have inBackground : b < background.getBinCount := by rw [TBackground.getBinCount, same]; exact h
  obtain ⟨bins, set, sameBins', processed'⟩ := TBackground.setBinEnabled_false_ok inBins
  obtain ⟨bg, set', same', left'⟩ := TBackground.setBinEnabled_false_ok inBackground
  obtain ⟨cmi', added, fed'⟩ := fed.addConditionBin pool (by simp; omega) h
  obtain ⟨cmi'', helped, fed''⟩ := addHelper_ok pool (same'.trans same) fed'
    (fun helper at_i => helpersInside _ (mem_elements_of_getElem? at_i)) (by simp; omega)
  refine ⟨bins, bg, cmi', cmi'', set, set', sameBins'.trans sameBins, same'.trans same, ?_, ?_, ?_,
    added, helped, fed''⟩
  · rw [processed', processed]
  · rw [left', left]
  · rw [TBackground.getBin, same', same, getBin_binAt h]

theorem MinCached.place {b : ℕ} {v : ℝ} {bg : TBackground} {cmi : TCmiCalculator}
    (held : MinCached label features n enabled last e s helpers p st) (lt : p.done.length < s)
    (same : bg.features = features) (left : bg.enabledBinIndexes = (unused enabled p.done).filter (· ≠ b))
    (fed : Fed cmi label features n (e :: (elements helpers).take (p.done.length + 1)) (elements p.done ++ [b])) :
    MinCached label features n enabled last e s helpers (p.place b v)
      ⟨fillFrom (st.minSteps.set p.done.length ⟨b, v⟩) (p.done.length + 1) resetMinimizer, bg, bg, cmi⟩ where
  same := same
  sameBins := same
  processed := by
    have widened : (p.place b v).pool enabled last = enabled := by
      cases at_wide : p.wide <;> simp [Pass.pool, Pass.place, at_wide]
    rw [widened, left]
    exact (unused_concat ..).symm
  background := by
    rw [left]
    exact (unused_concat ..).symm
  minSteps := by
    have placed := held.minSteps.place (b := b) (v := v) (w := resetMinimizer) lt (by simp [resetMinimizer])
    simpa [Pass.place] using placed
  fed := by simpa [Pass.place] using fed

theorem MinCached.keep {o : ℕ × ℝ} {rest : List (ℕ × ℝ)} {bins bg : TBackground} {cmi : TCmiCalculator}
    (held : MinCached label features n enabled last e s helpers p st) (recorded : p.old = o :: rest)
    (same : bg.features = features) (sameBins : bins.features = features)
    (processed : bins.enabledBinIndexes = (unused (p.pool enabled last) p.done).filter (· ≠ o.1))
    (left : bg.enabledBinIndexes = (unused enabled p.done).filter (· ≠ o.1))
    (fed : Fed cmi label features n (e :: (elements helpers).take (p.done.length + 1)) (elements p.done ++ [o.1])) :
    MinCached label features n enabled last e s helpers (p.keep o rest) ⟨st.minSteps, bins, bg, cmi⟩ where
  same := same
  sameBins := sameBins
  processed := by
    rw [processed]
    exact (unused_concat _ p.done o.1 o.2).symm
  background := by
    rw [left]
    exact (unused_concat _ p.done o.1 o.2).symm
  minSteps := by simpa [Pass.keep, recorded] using held.minSteps
  fed := by simpa [Pass.keep, elements] using fed

/-- One iteration of the minimisation is one step of the pass. -/
theorem MinCached.step (held : MinCached label features n enabled last e s helpers p st)
    (pool : Pool label features n) (inside : ∀ b ∈ enabled, b < features.getBinCount)
    (helpersInside : ∀ b ∈ elements helpers, b < features.getBinCount) (valid : p.Valid enabled last)
    (sub : ∀ b ∈ last, b ∈ enabled) (left : unused (p.pool enabled last) p.done ≠ [])
    (lt : p.done.length < s) (few : label.bins.length + 1 + helpers.length + p.done.length ≤ 62) :
    ∃ st', minimizeStep (toSteps helpers) p.done.length st = .ok st' ∧
      MinCached label features n enabled last e s helpers (p.step (· < ·)
        (conditionValue (cmiAt label features n) e (elements helpers)) enabled last) st' := by
  set val := conditionValue (cmiAt label features n) e (elements helpers)
  have values : ∀ x ∈ unused (p.pool enabled last) p.done, binValue st.minimizerCmi st.background x =
      .ok (val (elements p.done) x) := fun x hx => by
    rw [binValue_ok pool held.fed held.same (by simp; omega)
      (inside x (Pass.pool_subset sub x (mem_unused.mp hx).1))]
    simp [val, conditionValue]
  obtain ⟨b, found⟩ := exists_pick (r := (· < ·)) (f := val (elements p.done)) left
  obtain ⟨pos, scanned, at_pos⟩ := extremeElementBy_ok (p := (· < ·)) values
  have chosen : verified (unused (p.pool enabled last) p.done) pos = .ok b := by
    rw [verified, at_pos, found]
  have value := values b (pick_mem found)
  have bInside := inside b (Pass.pool_subset sub b (mem_unused.mp (pick_mem found)).1)
  have few' : label.bins.length + 1 + helpers.length + (elements p.done).length ≤ 62 := by simpa using few
  have fed : Fed st.minimizerCmi label features n (e :: (elements helpers).take (elements p.done).length)
      (elements p.done) := by simpa using held.fed
  rcases Pass.step_cases found with ⟨reason, eq⟩ | ⟨o, rest, recorded, loses, eq⟩ <;> rw [eq]
  · obtain ⟨bins, bg, cmi, cmi', set, set', -, same, -, background, got, added, helped, fed'⟩ :=
      MinCached.finish pool held.same held.same held.background held.background fed bInside helpersInside few'
    obtain rfl : bins = bg := Except.ok.inj (set.symm.trans set')
    rw [length_elements] at helped fed'
    have placed := held.place (v := val (elements p.done) b) lt same background fed'
    refine ⟨_, ?_, placed⟩
    have wins := held.wins (v := val (elements p.done) b) lt (pool.cmiAt_lt (by omega)) reason
    have here := placed.minSteps.getD_recorded (d := noMinimizer) (i := p.done.length)
      (x := (b, val (elements p.done) b)) (by simp [Pass.place])
    simp only [minimizeStep, held.processed, scanned, chosen, value, ok_bind, recordMinimizer, if_pos wins]
    simp only [here, toStep, set, got, added, helped, ok_bind, pure_eq_ok]
  · have oInside : o.1 < features.getBinCount :=
      inside _ (valid.mem_full _ (by simp [elements, recorded]))
    obtain ⟨bins, bg, cmi, cmi', set, set', sameBins, same, processed, background, got, added, helped,
      fed'⟩ := MinCached.finish pool held.same held.sameBins held.processed held.background fed oInside
        helpersInside few'
    rw [length_elements] at helped fed'
    refine ⟨_, ?_, held.keep recorded same sameBins processed background fed'⟩
    have reads := held.minSteps.getD_recorded (d := noMinimizer) (i := p.done.length) (x := o)
      (by simp [recorded])
    have record : recordMinimizer p.done.length b (val (elements p.done) b) st = st :=
      if_neg (by rw [reads]; exact loses)
    simp only [minimizeStep, held.processed, scanned, chosen, value, ok_bind, record]
    simp only [reads, toStep, set, set', got, added, helped, ok_bind, pure_eq_ok]

/-- After the last step all helpers are second variables. -/
theorem MinCached.getValue {p : Pass ℕ ℝ} {st : Minimizing ℝ} {helpers : List (ℕ × ℝ)}
    (held : MinCached label features n enabled last e s helpers p st) (pool : Pool label features n)
    (helped : helpers.length = s - 1) (complete : p.done.length = s) (few : label.bins.length + 2 * s ≤ 62) :
    st.minimizerCmi.getValue = .ok (cmiAt label features n (e :: elements helpers) (elements p.done)) := by
  have all : (elements helpers).take p.done.length = elements helpers :=
    List.take_of_length_le (by rw [length_elements, helped, complete]; omega)
  have fed := all ▸ held.fed
  refine fed.getValue pool ?_
  simp only [List.length_cons, length_elements, helped, complete]
  omega

/-- **The minimisation is the pass over the surviving conditions.** -/
theorem minimize_ok (helpers : List (ℕ × ℝ)) {background binsToProcess : TBackground} {wide : Option ℕ}
    {minSteps : List (TStepResult ℝ)} (pool : Pool label features n)
    (ready : Ready full enabled last s old) (same : background.features = features)
    (left : background.enabledBinIndexes = enabled) (sameBins : binsToProcess.features = features)
    (processed : binsToProcess.enabledBinIndexes =
      (⟨[], wide, surviving wide old.minSteps⟩ : Pass ℕ ℝ).pool enabled last)
    (padded : Padded (100000 ≤ ·) (surviving wide old.minSteps) s minSteps)
    (inside : ∀ b ∈ enabled, b < features.getBinCount)
    (helpersInside : ∀ b ∈ elements helpers, b < features.getBinCount)
    (helped : helpers.length = s - 1) (h : e < features.getBinCount)
    (few : label.bins.length + 2 * s ≤ 62) (pos : 0 < s) :
    ∃ st, minimize label background (e : ℤ) s (toSteps helpers) minSteps binsToProcess = .ok st ∧
      MinCached label features n enabled last e s helpers
        (Pass.run (· < ·) (conditionValue (cmiAt label features n) e (elements helpers)) enabled last s
          ⟨[], wide, surviving wide old.minSteps⟩) st := by
  obtain ⟨cmi, loaded, fed⟩ := labelCmi_ok pool (show label.bins.length ≤ 64 by omega)
  obtain ⟨cmi', added, fed'⟩ := fed.addSecondVariableBin pool (b := e) (by simp; omega) h
  obtain ⟨st, ran, held⟩ := forSteps_ok (b := minimizeStep (toSteps helpers))
    (I := fun i => MinCached label features n enabled last e s helpers (Pass.run (· < ·)
      (conditionValue (cmiAt label features n) e (elements helpers)) enabled last i
      ⟨[], wide, surviving wide old.minSteps⟩))
    (j := 0) (k := s) (s := ⟨minSteps, binsToProcess, background, cmi'⟩)
    { same := same
      sameBins := sameBins
      processed := by rw [processed]; simp [Pass.run, unused]
      background := by rw [left]; simp [Pass.run, unused]
      minSteps := padded
      fed := fed' }
    fun i st _ lt held => by
      obtain ⟨valid, length⟩ := ready.minPass (cmiAt label features n) e
        (elements helpers) wide (k := i) (by omega)
      have room := ready.minRoom
      have next := held.step pool inside helpersInside valid ready.lastEnabled
        (valid.candidates ready.enabledSorted.nodup ready.added (by omega)) (by omega) (by omega)
      rwa [length, ← Pass.run_succ] at next
  rw [Nat.zero_add] at held
  refine ⟨st, ?_, held⟩
  simp only [minimize, loaded, ok_bind, TBackground.getBin, same, getBin_binAt h, added, ran]

end Minimize

/-! ### An evaluation is a repair -/

section Evaluate

variable {label features : TBinFeatureSet} {n : ℕ} {bg : TBackground} {chosen : List ℕ} {e s : ℕ}
variable {scorer : TCachingBinScorer ℝ} {old : Entry ℝ}

/-- An entry of the search as the code records it. -/
def toScore (score : ℝ) (entry : Entry ℝ) : TBinScore ℝ :=
  ⟨score, toSteps entry.maxSteps, toSteps entry.minSteps⟩

/-- The candidates left to the minimisation. -/
theorem pool_filter_ne {p : Pass ℕ ℝ} (rest : List (ℕ × ℝ))
    (disabled : (problem label features n).owner e ∉ chosen) :
    (p.pool ((problem label features n).helperPool chosen e)
        ((problem label features n).lastBins chosen)).filter (· ≠ e) =
      (⟨[], p.wide, rest⟩ : Pass ℕ ℝ).pool ((problem label features n).enabledBins chosen)
        ((problem label features n).lastBins chosen) := by
  unfold Pass.pool
  split
  · exact Problem.helperPool_filter_ne disabled
  · exact Problem.lastBins_filter_ne disabled

/-- What an evaluation of `e` with `s` steps returns when `old` was recorded. -/
noncomputable def repairedScore (label features : TBinFeatureSet) (n : ℕ) (chosen : List ℕ) (s : ℕ)
    (labelEntropy : ℝ) (e : ℕ) (old : Entry ℝ) : TBinScore ℝ :=
  toScore (value (cmiAt label features n) e ((problem label features n).repaired chosen e s old) /
    labelEntropy) ((problem label features n).repaired chosen e s old)

/-- An evaluation whose checks pass goes on with the two phases. -/
theorem evaluate_of_checks (scorer : TCachingBinScorer ℝ) {bg₁ : TBackground} {entry : TBinScore ℝ}
    (on : bg.setBinEnabled (e : ℤ) true = .ok bg₁) (enough : s + 1 ≤ bg₁.enabledBinIndexes.length)
    (inside : e < bg₁.getBinCount) (cached : scorer.cached (e : ℤ) = .ok entry) (pos : 0 < s) :
    scorer.evaluate bg (e : ℤ) s = (do
      let maximized ← maximize scorer.label bg₁ e (s - 1) (resize entry.maximizingSteps (s - 1) noMaximizer)
        (resize entry.minimizingSteps s noMinimizer) bg.lastEnabled
      let binsToProcess ← maximized.binsToProcess.setBinEnabled e false
      let background ← bg₁.setBinEnabled e false
      let minimized ← minimize scorer.label background e s maximized.maxSteps maximized.minSteps binsToProcess
      let score := (← minimized.minimizerCmi.getValue) / scorer.labelEntropy
      return (⟨score, maximized.maxSteps, minimized.minSteps⟩,
        { scorer with cache := scorer.cache.set e ⟨score, maximized.maxSteps, minimized.minSteps⟩ })) := by
  obtain ⟨bins, counted, size⟩ := TBackground.enabledBins_length bg₁
  have many : ¬ ((bins.length : ℤ) < (s : ℤ) + 1) := by omega
  have range : ¬ ((e : ℤ) < 0 ∨ (bg₁.getBinCount : ℤ) ≤ e) := by omega
  have nonneg : ¬ ((s : ℤ) - 1 < 0) := by omega
  have steps : ((s : ℤ) - 1).toNat = s - 1 := by omega
  simp only [evaluate, on, counted, ok_bind, many, range, cached, nonneg, if_false, steps, Int.toNat_natCast]

/-- **An evaluation repairs the recorded steps** of a bin whose feature is not chosen, and
its score is the value of the repaired steps divided by the label entropy. -/
theorem evaluate_eq (scorer : TCachingBinScorer ℝ) (score : ℝ) (pool : Pool label features n)
    (labelled : scorer.label = label)
    (shown : bg.Shows features chosen) (nonempty : chosen ≠ []) (h : e < features.getBinCount)
    (disabled : features.owner e ∉ chosen) (recorded : scorer.cache[e]? = some (toScore score old))
    (ready : Ready ((problem label features n).helperPool chosen e)
      ((problem label features n).enabledBins chosen) ((problem label features n).lastBins chosen) s old)
    (pos : 0 < s) (few : label.bins.length + 2 * s ≤ 62) :
    scorer.evaluate bg (e : ℤ) s =
      .ok (repairedScore label features n chosen s scorer.labelEntropy e old,
        { scorer with
          cache := scorer.cache.set e
            (repairedScore label features n chosen s scorer.labelEntropy e old) }) := by
  subst labelled
  set P := problem scorer.label features n with hP
  obtain ⟨valid, maxLength, minLength⟩ := repair_valid P.cmi e ready
  obtain ⟨bg₁, on, same₁, enabled₁⟩ := shown.setBinEnabled scorer.label n h
  rw [← hP] at enabled₁
  have sameLast : bg.lastEnabled.features = features := shown.features
  have lastBins := shown.lastEnabled scorer.label n nonempty
  have helperInside : ∀ b ∈ P.helperPool chosen e, b < features.getBinCount := fun b hb =>
    (Problem.mem_helperPool.mp hb).1
  obtain ⟨maximized, ranMax, held⟩ := maximize_ok pool ready same₁ enabled₁ sameLast lastBins
    helperInside h (by omega)
  have inBins : e < maximized.binsToProcess.getBinCount := by
    rw [TBackground.getBinCount, held.same]
    exact h
  obtain ⟨bins₂, off, sameBins₂, processed₂⟩ := TBackground.setBinEnabled_false_ok inBins
  have inBg : e < bg₁.getBinCount := by rw [TBackground.getBinCount, same₁]; exact h
  obtain ⟨bg₂, off', same₂, enabled₂⟩ := TBackground.setBinEnabled_false_ok inBg
  rw [held.processed, pool_filter_ne (surviving (maxPass (cmiAt scorer.label features n)
    (P.helperPool chosen e) (P.lastBins chosen) e s old).wide old.minSteps) disabled] at processed₂
  rw [enabled₁, Problem.helperPool_filter_ne disabled] at enabled₂
  have maxSteps : maximized.maxSteps = toSteps (P.repaired chosen e s old).maxSteps :=
    held.maxSteps.full maxLength
  obtain ⟨minimized, ranMin, held'⟩ := minimize_ok (P.repaired chosen e s old).maxSteps
    pool ready (same₂.trans same₁) enabled₂
    (sameBins₂.trans held.same) processed₂ held.minSteps
    (fun b hb => (Problem.mem_enabledBins.mp hb).1) (fun b hb => helperInside b (valid.maxMem b hb))
    maxLength h few pos
  have minSteps : minimized.minSteps = toSteps (P.repaired chosen e s old).minSteps :=
    held'.minSteps.full minLength
  have final := held'.getValue pool maxLength minLength few
  have enough : s + 1 ≤ bg₁.enabledBinIndexes.length := by
    have := Problem.enabledBins_length_lt (P := P) h disabled
    have room := ready.minRoom
    rw [enabled₁]
    omega
  have entry : scorer.cached (e : ℤ) = .ok (toScore score old) := by
    simp [cached, recorded]
  rw [evaluate_of_checks scorer on enough inBg entry pos]
  simp only [toScore, ranMax, off, off', maxSteps, ranMin, final, minSteps, ok_bind, pure_eq_ok]
  rfl

/-- A bin that is ready to be evaluated, and what is recorded for it. -/
structure Awaits (label features : TBinFeatureSet) (n : ℕ) (chosen : List ℕ) (s : ℕ)
    (cache : List (TBinScore ℝ)) (e : ℕ) (old : Entry ℝ) : Prop where
  inside : e < features.getBinCount
  disabled : features.owner e ∉ chosen
  recorded : ∃ score, cache[e]? = some (toScore score old)
  ready : Ready ((problem label features n).helperPool chosen e)
    ((problem label features n).enabledBins chosen) ((problem label features n).lastBins chosen) s old

/-- **Evaluating distinct bins** repairs the entry of each and leaves the others alone. -/
theorem evaluateEach_ok (scorer : TCachingBinScorer ℝ) (entry : ℕ → Entry ℝ) (bins : List ℕ)
    (pool : Pool label features n)
    (labelled : scorer.label = label) (shown : bg.Shows features chosen) (nonempty : chosen ≠ [])
    (pos : 0 < s) (few : label.bins.length + 2 * s ≤ 62) (nodup : bins.Nodup)
    (awaits : ∀ b ∈ bins, Awaits label features n chosen s scorer.cache b (entry b)) :
    ∃ scorer', evaluateEach bg s bins scorer =
        .ok (bins.map fun b =>
          repairedScore label features n chosen s scorer.labelEntropy b (entry b), scorer') ∧
      scorer'.label = label ∧ scorer'.labelEntropy = scorer.labelEntropy ∧
      ∀ e, scorer'.cache[e]? =
        if e ∈ bins then
          some (repairedScore label features n chosen s scorer.labelEntropy e (entry e))
        else scorer.cache[e]? := by
  induction bins generalizing scorer with
  | nil => exact ⟨scorer, rfl, labelled, rfl, by simp⟩
  | cons b bins ih =>
    obtain ⟨fresh, nodup⟩ := List.nodup_cons.mp nodup
    obtain ⟨inside, disabled, ⟨score, recorded⟩, ready⟩ := awaits b List.mem_cons_self
    have first := evaluate_eq scorer score pool labelled shown nonempty inside disabled recorded ready pos few
    obtain ⟨scorer', rest, labelled', entropy', cache'⟩ := ih
      { scorer with
        cache := scorer.cache.set b
          (repairedScore label features n chosen s scorer.labelEntropy b (entry b)) }
      labelled nodup fun c mem => by
        obtain ⟨insideC, disabledC, ⟨scoreC, recordedC⟩, readyC⟩ :=
          awaits c (List.mem_cons_of_mem b mem)
        have other : b ≠ c := by
          rintro rfl
          exact fresh mem
        exact ⟨insideC, disabledC, ⟨scoreC, by simpa [other] using recordedC⟩, readyC⟩
    refine ⟨scorer', ?_, labelled', entropy', fun e => ?_⟩
    · simp only [evaluateEach, first, ok_bind, rest, pure_eq_ok, List.map_cons]
    · have lt : b < scorer.cache.length := (List.getElem?_eq_some_iff.mp recorded).1
      rw [cache' e]
      by_cases mem : e ∈ bins
      · simp [mem]
      · by_cases eq : e = b
        · subst eq
          simp [mem, lt]
        · simp [mem, eq, Ne.symm eq]

end Evaluate

/-! ### Scores are information quantities -/

section Bounds

variable {label : TBinFeatureSet} {n : ℕ} {cmi cmi' : TCmiCalculator} {bg : TBackground}

/-- The label a calculator was built from has bins of one size, which is not too many. -/
theorem of_labelCmi (loaded : labelCmi label = .ok cmi) :
    ∃ n, (∀ bin ∈ label.bins, bin.length = n) ∧ label.bins ≠ [] ∧ label.bins.length ≤ 64 ∧
      AboutLabel label n cmi := by
  unfold labelCmi at loaded
  split at loaded
  · cases loaded
  case h_2 front rest bins =>
    obtain ⟨length, few, about⟩ := aboutLabel_of_foldlM loaded
    refine ⟨front.length, length, ?_, few, about⟩
    rw [show label.bins = front :: rest from bins]
    exact List.cons_ne_nil _ _

/-- One iteration of the minimisation keeps the calculator about the label. -/
theorem minimizeStep_aboutLabel {maxSteps : List (TStepResult ℝ)} {step : ℕ} {st st' : Minimizing ℝ}
    (about : AboutLabel label n st.minimizerCmi) (ran : minimizeStep maxSteps step st = .ok st') :
    AboutLabel label n st'.minimizerCmi := by
  obtain ⟨best, -, ran⟩ := bind_eq_ok.mp ran
  obtain ⟨bestBin, -, ran⟩ := bind_eq_ok.mp ran
  obtain ⟨binCmi, -, ran⟩ := bind_eq_ok.mp ran
  obtain ⟨bins, -, ran⟩ := bind_eq_ok.mp ran
  obtain ⟨background, -, ran⟩ := bind_eq_ok.mp ran
  obtain ⟨bin, -, ran⟩ := bind_eq_ok.mp ran
  obtain ⟨cmi, added, ran⟩ := bind_eq_ok.mp ran
  obtain ⟨cmi', helped, last⟩ := bind_eq_ok.mp ran
  cases last
  rw [recordMinimizer_minimizerCmi] at added
  exact (about.addConditionBin added).addHelper helped

/-- The calculator the minimisation ends with. -/
theorem of_minimize {evalBinIndex : ℤ} {steps : ℕ} {maxSteps minSteps : List (TStepResult ℝ)}
    {background binsToProcess : TBackground} {st : Minimizing ℝ}
    (ran : minimize label background evalBinIndex steps maxSteps minSteps binsToProcess = .ok st) :
    ∃ n, (∀ bin ∈ label.bins, bin.length = n) ∧ label.bins ≠ [] ∧ label.bins.length ≤ 64 ∧
      AboutLabel label n st.minimizerCmi := by
  obtain ⟨cmi, loaded, ran⟩ := bind_eq_ok.mp ran
  obtain ⟨bin, -, ran⟩ := bind_eq_ok.mp ran
  obtain ⟨cmi', added, ran⟩ := bind_eq_ok.mp ran
  obtain ⟨n, length, nonempty, few, about⟩ := of_labelCmi loaded
  exact ⟨n, length, nonempty, few, forSteps_inv (I := fun _ st => AboutLabel label n st.minimizerCmi)
    ran (about.addSecondVariableBin added) fun _ _ _ => minimizeStep_aboutLabel⟩

/-- What a returned score is made of. -/
theorem of_evaluate {scorer scorer' : TCachingBinScorer ℝ} {evalBinIndex stepCount : ℤ}
    {result : TBinScore ℝ} (returned : scorer.evaluate bg evalBinIndex stepCount = .ok (result, scorer')) :
    ∃ background bins steps maxSteps minSteps, ∃ st : Minimizing ℝ, ∃ value : ℝ,
      minimize scorer.label background evalBinIndex steps maxSteps minSteps bins = .ok st ∧
        st.minimizerCmi.getValue = .ok value ∧ result.score = value / scorer.labelEntropy := by
  obtain ⟨background, -, ran⟩ := bind_eq_ok.mp returned
  obtain ⟨enabled, -, ran⟩ := bind_eq_ok.mp ran
  obtain ⟨-, ran⟩ := guard_eq_ok.mp ran
  obtain ⟨-, ran⟩ := guard_eq_ok.mp ran
  obtain ⟨entry, -, ran⟩ := bind_eq_ok.mp ran
  obtain ⟨-, ran⟩ := guard_eq_ok.mp ran
  obtain ⟨maximized, -, ran⟩ := bind_eq_ok.mp ran
  obtain ⟨bins, -, ran⟩ := bind_eq_ok.mp ran
  obtain ⟨background', -, ran⟩ := bind_eq_ok.mp ran
  obtain ⟨minimized, minimizing, ran⟩ := bind_eq_ok.mp ran
  obtain ⟨value, got, last⟩ := bind_eq_ok.mp ran
  cases last
  exact ⟨_, _, _, _, _, minimized, value, minimizing, got, rfl⟩

/-- **Scores are genuine information quantities.** After any calls on a calculator both
values are non-negative and bounded by the entropies of either variable, and whatever the
cache holds, a score returned by the scorer lies in `[0, 1]`. -/
theorem information_bounds :
    (∀ (n : ℕ) (calls : List TCmiCalculator.Call), 0 < n → (∀ c ∈ calls, c.bin.length = n) →
      calls.length ≤ 62 → ∃ cmi, TCmiCalculator.run n calls = .ok cmi ∧
        (∃ value : ℝ, cmi.getValue = .ok value ∧ 0 ≤ value ∧
          value ≤ jointEntropy n (calls.filterMap TCmiCalculator.Call.asFirst) ∧
          value ≤ jointEntropy n (calls.filterMap TCmiCalculator.Call.asSecond)) ∧
        ∀ bin : TBin, bin.length = n → ∃ value : ℝ, cmi.getValueWithConditionBin bin = .ok value ∧
          0 ≤ value ∧ value ≤ jointEntropy n (calls.filterMap TCmiCalculator.Call.asFirst) ∧
          value ≤ jointEntropy n (calls.filterMap TCmiCalculator.Call.asSecond)) ∧
    ∀ (label : TBinFeatureSet) (cache : List (TBinScore ℝ)) (bg : TBackground)
      (evalBinIndex stepCount : ℤ) (result : TBinScore ℝ) (next : TCachingBinScorer ℝ),
      0 < entropy (R := ℝ) label.allBins →
      evaluate ⟨label, cache, entropy label.allBins⟩ bg evalBinIndex stepCount = .ok (result, next) →
      0 ≤ result.score ∧ result.score ≤ 1 := by
  refine ⟨fun n calls pos length few => ?_, fun label cache bg e s result next positive returned => ?_⟩
  · obtain ⟨cmi, ran, held⟩ := TCmiCalculator.run_holds length (by omega)
    have roles := TCmiCalculator.roles_length calls
    refine ⟨cmi, ran, ⟨_, held.getValue pos (by omega), cmiValue_nonneg, cmiValue_le_first pos,
      cmiValue_le_second pos⟩, fun bin size => ?_⟩
    exact ⟨_, held.getValueWithConditionBin pos (by omega) size, cmiValue_nonneg,
      cmiValue_le_first pos, cmiValue_le_second pos⟩
  · obtain ⟨_, _, _, _, _, st, value, ran, got, score⟩ := of_evaluate returned
    obtain ⟨n, length, nonempty, few, about⟩ := of_minimize ran
    obtain ⟨pos, lower, upper⟩ := about.of_getValue got
    have labelled : entropy (R := ℝ) label.allBins = jointEntropy n label.bins :=
      TEntropyCalculator.entropyOfValues_flattenBins pos nonempty few length
    rw [score]
    exact ⟨div_nonneg lower positive.le, (div_le_one positive).mpr (labelled ▸ upper)⟩

theorem entropy_twoRows : entropy (R := ℝ) [[false, true]] = 1 := by
  have table : countValues (flattenBins [[false, true]]) = [(0, 1), (1, 1)] := by decide
  have rows : (flattenBins [[false, true]]).length = 2 := by decide
  rw [entropy, entropyOfValues, table, rows, entropyOfTable]
  simp [countTerm, log2_real, Real.logb_inv]

/-- Five bins in the three roles. -/
def sixCalls : List TCmiCalculator.Call :=
  [.second (sixFeatures.binAt 0), .condition (sixFeatures.binAt 1), .first (sixFeatures.binAt 2),
    .second (sixFeatures.binAt 3), .first (sixFeatures.binAt 4)]

/-- A calculator after these calls, and a scorer that evaluates bin 0 in two rounds,
the second time with the steps of the first. -/
theorem information_bounds_sixRows :
    (∃ cmi, TCmiCalculator.run 6 sixCalls = .ok cmi ∧ ∃ value : ℝ, cmi.getValue = .ok value ∧ 0 ≤ value ∧
        value ≤ jointEntropy 6 [sixFeatures.binAt 2, sixFeatures.binAt 4]) ∧
      ∃ (bg bg' : TBackground) (former result : TBinScore ℝ) (scorer next : TCachingBinScorer ℝ),
        evaluate (ofLabel sixLabel 5) bg 0 2 = .ok (former, scorer) ∧
        scorer.evaluate bg' 0 2 = .ok (result, next) ∧ 0 ≤ result.score ∧ result.score ≤ 1 := by
  refine ⟨?_, ?_⟩
  · obtain ⟨cmi, ran, ⟨value, got, lower, upper, -⟩, -⟩ :=
      information_bounds.1 6 sixCalls (by decide) (by decide) (by decide)
    exact ⟨cmi, ran, value, got, lower, upper⟩
  set P := problem sixLabel sixFeatures 6
  obtain ⟨bg, -, shown⟩ := (TBackground.shows_disableAll sixFeatures).setFeatureEnabled (f := 2) (by decide)
  obtain ⟨bg', -, shown'⟩ := shown.setFeatureEnabled (f := 3) (by decide)
  have ready := (Problem.empty_recorded (P := P) (s := 0) [] (e := 0)).ready (f := 2) (s := 2) (by decide) (by decide)
    (by decide) (by decide) (by decide)
  have ready' := (Problem.repaired_recorded ready).ready (f := 3) (s := 2) (by decide) (by decide)
    (by decide) (by decide) (by decide)
  obtain ⟨former, cache, score, ran, recorded⟩ : ∃ former cache score,
      evaluate (ofLabel sixLabel 5) bg 0 2 = .ok (former, ⟨sixLabel, cache, entropy sixLabel.allBins⟩) ∧
        cache[0]? = some (toScore score (P.repaired [2] 0 2 .empty)) :=
    ⟨_, _, _, evaluate_eq (ofLabel sixLabel 5) (e := 0) (s := 2) 0 sixPool rfl shown (by simp) (by decide)
      (by decide) rfl ready (by decide) (by decide), rfl⟩
  have ran' := evaluate_eq ⟨sixLabel, cache, entropy sixLabel.allBins⟩ (e := 0) (s := 2) score sixPool rfl shown'
    (by simp) (by decide) (by decide) recorded ready' (by decide) (by decide)
  have positive : 0 < entropy (R := ℝ) sixLabel.allBins := by
    rw [entropy, TEntropyCalculator.entropyOfValues_flattenBins (n := 6) (by decide) (by decide) (by decide)
      (by decide)]
    exact jointEntropy_pos (by decide) (by decide +kernel)
  exact ⟨bg, bg', former, _, _, _, ran, ran', information_bounds.2 sixLabel cache bg' 0 2 _ _ positive ran'⟩

end Bounds

end TCachingBinScorer

end Cmicot
