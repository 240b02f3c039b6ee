import Cmicot.Pool

/-!
The reference scorer (`algorithm.h`, `miximizers.cpp`, `bin_score.cpp`).

`TParallelMiximizer` looks for helpers that make the evaluated bin most informative about
the label, then for condition bins that make the bin and its helpers least informative.
Both phases are greedy runs over the enabled bins.
-/

namespace Cmicot

open Loop Greedy Search

/-! ### Extreme elements -/

section Algorithm

variable {α R : Type} (pred : R → R → Prop) [DecidableRel pred]

/-- One iteration of the scan over the value and position of the best element so far and
the current position. -/
def extremeStep (func : α → Except Failure R) (best : R × ℕ × ℕ) (x : α) :
    Except Failure (R × ℕ × ℕ) := do
  let curValue ← func x
  if pred curValue best.1 then return (curValue, best.2.2, best.2.2 + 1)
  else return (best.1, best.2.1, best.2.2 + 1)

/-- `ExtremeElementBy(begin, end, func, pred)` as a position; `end` for an empty range. -/
def extremeElementBy (func : α → Except Failure R) : List α → Except Failure ℕ
  | [] => .ok 0
  | x :: xs => do
    let best ← xs.foldlM (extremeStep pred func) (← func x, 0, 1)
    return best.2.1

/-- `ParallelExtremeElementBy`: all values first, then the scan. -/
def parallelExtremeElementBy (func : α → Except Failure R) (xs : List α) : Except Failure ℕ := do
  let values ← xs.mapM func
  extremeElementBy pred .ok values

end Algorithm

/-- `*iter`. -/
def dereference {α : Type} (xs : List α) (pos : ℕ) : Except Failure α :=
  match xs[pos]? with
  | some x => .ok x
  | none => .error .emptyContainer

/-! ### Scores -/

structure TStepResult (R : Type) where
  binIndex : ℤ
  cmi : R

structure TBinScore (R : Type) where
  score : R
  maximizingSteps : List (TStepResult R)
  minimizingSteps : List (TStepResult R)

structure TParallelMiximizer where
  cmi : TCmiCalculator
  maxSteps : ℤ
  minSteps : ℤ

/-- The loop state of `DoMaximizePhase`. -/
structure MaximizePhase (R : Type) where
  localBg : TBackground
  result : List (TStepResult R)
  maximizerCmi : TCmiCalculator

/-- The loop state of `DoMinimizePhase`. -/
structure MinimizePhase (R : Type) where
  bg : TBackground
  result : List (TStepResult R)
  minimizerCmi : TCmiCalculator

section Generic

variable {R : Type} [Field R] [LinearOrder R] [Log2 R]

/-- The lambda `binValue`. -/
def binValue (cmi : TCmiCalculator) (bg : TBackground) (binIndex : ℕ) : Except Failure R := do
  cmi.getValueWithConditionBin (← bg.getBin (binIndex : ℤ))

/-- `if (step < maxSteps.ysize()) minimizerCmi.AddSecondVariableBin(...)`. -/
def addHelper (minimizerCmi : TCmiCalculator) (bg : TBackground) (maxSteps : List (TStepResult R))
    (step : ℕ) : Except Failure TCmiCalculator :=
  match maxSteps[step]? with
  | some helper => do minimizerCmi.addSecondVariableBin (← bg.getBin helper.binIndex)
  | none => .ok minimizerCmi

namespace TParallelMiximizer

/-- `TParallelMiximizer(label, maximizeSteps, minimizeSteps, maxParallel)`. -/
def ofLabel (label : TBinFeatureSet) (maximizeSteps minimizeSteps : ℤ) :
    Except Failure TParallelMiximizer := do
  let bin ← label.getBin 0
  let cmi ← label.allBins.foldlM TCmiCalculator.addFirstVariableBin (.ofSize bin.length)
  return ⟨cmi, maximizeSteps, minimizeSteps⟩

/-- The loop body of `DoMaximizePhase`. -/
def maximizeStep (_step : ℕ) (st : MaximizePhase R) : Except Failure (MaximizePhase R) := do
  let enabled := st.localBg.enabledBinIndexes
  let best ← parallelExtremeElementBy (· > ·) (binValue (R := R) st.maximizerCmi st.localBg) enabled
  let bestBin ← dereference enabled best
  let localBg ← st.localBg.setBinEnabled bestBin false
  let cmi ← binValue st.maximizerCmi localBg bestBin
  let maximizerCmi ← st.maximizerCmi.addConditionBin (← localBg.getBin bestBin)
  return ⟨localBg, st.result ++ [⟨bestBin, cmi⟩], maximizerCmi⟩

/-- `DoMaximizePhase(bg, evalBinIndex)`; the background is copied. A negative number of
steps fails in `reserve`. -/
def doMaximizePhase (m : TParallelMiximizer) (bg : TBackground) (evalBinIndex : ℤ) :
    Except Failure (List (TStepResult R)) := do
  if (← bg.enabledBins).length < m.maxSteps then throw (.notEnoughBins m.maxSteps)
  if m.maxSteps < 0 then throw .lengthError
  let maximizerCmi ← m.cmi.addSecondVariableBin (← bg.getBin evalBinIndex)
  let final ← forSteps maximizeStep 0 m.maxSteps.toNat ⟨bg, [], maximizerCmi⟩
  return final.result

/-- The loop body of `DoMinimizePhase`. -/
def minimizeStep (maxSteps : List (TStepResult R)) (step : ℕ) (st : MinimizePhase R) :
    Except Failure (MinimizePhase R) := do
  let enabled := st.bg.enabledBinIndexes
  let best ← parallelExtremeElementBy (· < ·) (binValue (R := R) st.minimizerCmi st.bg) enabled
  let bestBin ← dereference enabled best
  let cmi ← binValue st.minimizerCmi st.bg bestBin
  let bg ← st.bg.setBinEnabled bestBin false
  let minimizerCmi ← st.minimizerCmi.addConditionBin (← bg.getBin bestBin)
  let minimizerCmi ← addHelper minimizerCmi bg maxSteps step
  return ⟨bg, st.result ++ [⟨bestBin, cmi⟩], minimizerCmi⟩

/-- `DoMinimizePhase(bg, evalBinIndex, maxSteps)`; the background is left with the chosen
bins disabled. -/
def doMinimizePhase (m : TParallelMiximizer) (bg : TBackground) (evalBinIndex : ℤ)
    (maxSteps : List (TStepResult R)) : Except Failure (List (TStepResult R) × TBackground) := do
  if (← bg.enabledBins).length < m.minSteps then throw (.notEnoughBins m.minSteps)
  if m.minSteps < 0 then throw .lengthError
  let minimizerCmi ← m.cmi.addSecondVariableBin (← bg.getBin evalBinIndex)
  let final ← forSteps (minimizeStep maxSteps) 0 m.minSteps.toNat ⟨bg, [], minimizerCmi⟩
  return (final.result, final.bg)

end TParallelMiximizer

/-- `minSteps.back().Cmi`. -/
def lastCmi (steps : List (TStepResult R)) : Except Failure R :=
  match steps.getLast? with
  | some step => .ok step.cmi
  | none => .error .emptyContainer

/-- `GetBinScore(background, evalBinIndex, m)`. -/
def getBinScore (background : TBackground) (evalBinIndex : ℤ) (m : TParallelMiximizer) :
    Except Failure (TBinScore R) := do
  if ¬ (0 ≤ evalBinIndex ∧ evalBinIndex < background.getBinCount) then
    throw (.evalIndex evalBinIndex background.getBinCount)
  let background ← background.setBinEnabled evalBinIndex true
  let maxSteps ← m.doMaximizePhase background evalBinIndex
  let feature ← background.getFeatureIndexByBinIndex evalBinIndex.toNat
  let background ← background.setFeatureEnabled feature false
  let (minSteps, _) ← m.doMinimizePhase background evalBinIndex maxSteps
  return ⟨← lastCmi minSteps, maxSteps, minSteps⟩

/-- `BuildBinScorerForEval(label, maximizationSteps, minimizationSteps)->Eval(bg, binIndex)`. -/
def buildBinScorerForEval (label : TBinFeatureSet) (maximizationSteps minimizationSteps : ℤ)
    (bg : TBackground) (binIndex : ℤ) : Except Failure (TBinScore R) := do
  getBinScore bg binIndex (← TParallelMiximizer.ofLabel label maximizationSteps minimizationSteps)

end Generic

/-! ### The scan finds the pick -/

section Scan

variable {α R : Type} {p : R → R → Prop} [DecidableRel p]

variable (p) in
/-- The loop state after the scan has seen `x :: done`. -/
structure Scanned (f : α → R) (x : α) (done : List α) (best : R × ℕ × ℕ) : Prop where
  next : best.2.2 = done.length + 1
  found : (x :: done)[best.2.1]? = some (done.foldl (better p f) x)
  value : best.1 = f (done.foldl (better p f) x)

theorem Scanned.step {g : α → Except Failure R} {f : α → R} {x y : α} {done : List α}
    {best : R × ℕ × ℕ} (scanned : Scanned p f x done best) (called : g y = .ok (f y)) :
    ∃ best', extremeStep p g best y = .ok best' ∧ Scanned p f x (done ++ [y]) best' := by
  obtain ⟨v, pos, i⟩ := best
  obtain ⟨next, found, value⟩ := scanned
  simp only at next found value
  subst next value
  by_cases wins : p (f y) (f (done.foldl (better p f) x))
  · refine ⟨(f y, done.length + 1, done.length + 1 + 1), by simp [extremeStep, called, wins], ?_⟩
    exact ⟨by simp, by simp [better, wins], by simp [better, wins]⟩
  · refine ⟨(f (done.foldl (better p f) x), pos, done.length + 1 + 1),
      by simp [extremeStep, called, wins], by simp, ?_, by simp [better, wins]⟩
    have inside := (List.getElem?_eq_some_iff.mp found).1
    rw [← List.cons_append, List.getElem?_append_left inside, found]
    simp [better, wins]

/-- With all calls succeeding, the scan ends at the first element no later one beats. -/
theorem extremeElementBy_ok {g : α → Except Failure R} {f : α → R} {l : List α}
    (total : ∀ x ∈ l, g x = .ok (f x)) :
    ∃ pos, extremeElementBy p g l = .ok pos ∧ l[pos]? = pick p f l := by
  cases l with
  | nil => exact ⟨0, rfl, rfl⟩
  | cons x l =>
    obtain ⟨best, ran, scanned⟩ := foldlM_ok (f := extremeStep p g) (s := (f x, 0, 1)) (l := l)
      (P := Scanned p f x) ⟨rfl, rfl, rfl⟩
      fun done y best mem _ scanned => scanned.step (total y (List.mem_cons_of_mem _ mem))
    exact ⟨best.2.1, by simp [extremeElementBy, total x, ran], scanned.found⟩

/-- The scan depends on the values only. -/
theorem extremeElementBy_map {g : α → Except Failure R} {f : α → R} {l : List α}
    (total : ∀ x ∈ l, g x = .ok (f x)) :
    extremeElementBy p .ok (l.map f) = extremeElementBy p g l := by
  have scan : ∀ (ys : List α) (best : R × ℕ × ℕ), (∀ y ∈ ys, g y = .ok (f y)) →
      ys.foldlM (fun best y => extremeStep p .ok best (f y)) best =
        ys.foldlM (extremeStep p g) best := by
    intro ys
    induction ys with
    | nil => exact fun _ _ => rfl
    | cons y ys ih =>
      intro best all
      have head : extremeStep p g best y = extremeStep p .ok best (f y) := by
        simp [extremeStep, all y]
      rw [List.foldlM_cons, List.foldlM_cons, head]
      exact bind_congr fun next => ih next fun z hz => all z (List.mem_cons_of_mem _ hz)
  cases l with
  | nil => rfl
  | cons x l =>
    have rest := scan l (f x, 0, 1) fun y hy => total y (List.mem_cons_of_mem _ hy)
    simp [extremeElementBy, total x, List.foldlM_map, rest]

/-- Values first, then the scan: the same position. -/
theorem parallelExtremeElementBy_ok {g : α → Except Failure R} {f : α → R} {l : List α}
    (total : ∀ x ∈ l, g x = .ok (f x)) :
    ∃ pos, parallelExtremeElementBy p g l = .ok pos ∧ l[pos]? = pick p f l := by
  obtain ⟨pos, found, pick⟩ := extremeElementBy_ok (p := p) total
  refine ⟨pos, ?_, pick⟩
  rw [parallelExtremeElementBy, mapM_ok total, ok_bind, extremeElementBy_map total, found]

theorem dereference_pick {f : α → R} {l : List α} {pos : ℕ} {b : α} (at_pos : l[pos]? = pick p f l)
    (found : pick p f l = some b) : dereference l pos = .ok b := by
  rw [dereference, at_pos, found]

end Scan

/-! ### Bins and values of a pool -/

section Values

variable {label features : TBinFeatureSet} {n : ℕ} {cmi : TCmiCalculator} {bg : TBackground}
variable {second condition : List ℕ} {b : ℕ}

/-- The calculator was fed the label, these second bins and these condition bins. -/
def Fed (cmi : TCmiCalculator) (label features : TBinFeatureSet) (n : ℕ) (second condition : List ℕ) :
    Prop :=
  cmi.Holds n label.bins (second.map features.binAt) (condition.map features.binAt)

theorem binValue_ok (pool : Pool label features n) (fed : Fed cmi label features n second condition)
    (same : bg.features = features)
    (few : label.bins.length + second.length + condition.length ≤ 62) (h : b < features.getBinCount) :
    binValue cmi bg b = .ok (cmiAt label features n second (condition ++ [b])) := by
  have value := TCmiCalculator.Holds.getValueWithConditionBin fed pool.rows (by simpa using few)
    (pool.binAt_length h)
  rw [binValue, TBackground.getBin, same, getBin_binAt h, ok_bind, value, cmiAt]
  simp

theorem Fed.addConditionBin (fed : Fed cmi label features n second condition)
    (pool : Pool label features n)
    (few : label.bins.length + second.length + condition.length < 64) (h : b < features.getBinCount) :
    ∃ cmi', cmi.addConditionBin (features.binAt b) = .ok cmi' ∧
      Fed cmi' label features n second (condition ++ [b]) := by
  obtain ⟨cmi', added, held⟩ := TCmiCalculator.Holds.addConditionBin fed (pool.binAt_length h) (by simpa using few)
  exact ⟨cmi', added, by simpa [Fed] using held⟩

theorem Fed.addSecondVariableBin (fed : Fed cmi label features n second condition)
    (pool : Pool label features n)
    (few : label.bins.length + second.length + condition.length < 64) (h : b < features.getBinCount) :
    ∃ cmi', cmi.addSecondVariableBin (features.binAt b) = .ok cmi' ∧
      Fed cmi' label features n (second ++ [b]) condition := by
  obtain ⟨cmi', added, held⟩ :=
    TCmiCalculator.Holds.addSecondVariableBin fed (pool.binAt_length h) (by simpa using few)
  exact ⟨cmi', added, by simpa [Fed] using held⟩

theorem Fed.getValue (fed : Fed cmi label features n second condition) (pool : Pool label features n)
    (few : label.bins.length + second.length + condition.length ≤ 63) :
    cmi.getValue = .ok (cmiAt label features n second condition) :=
  TCmiCalculator.Holds.getValue fed pool.rows (by simpa using few)

/-- A calculator fed with the label only. -/
theorem fed_label (pool : Pool label features n) (few : label.bins.length ≤ 64) :
    ∃ cmi, label.allBins.foldlM TCmiCalculator.addFirstVariableBin (.ofSize n) = .ok cmi ∧
      Fed cmi label features n [] [] := by
  refine foldlM_ok (P := fun done cmi => TCmiCalculator.Holds cmi n done [] [])
    (TCmiCalculator.ofSize_holds n) fun done bin cmi mem short held => ?_
  have : label.allBins.length ≤ 64 := few
  exact held.addFirstVariableBin (pool.labelLength bin mem) (by simp; omega)

end Values

/-! ### Both phases are greedy runs -/

/-- A step of the search as the code records it. -/
def toStep (step : ℕ × ℝ) : TStepResult ℝ := ⟨step.1, step.2⟩

def toSteps (steps : List (ℕ × ℝ)) : List (TStepResult ℝ) := steps.map toStep

theorem toSteps_concat (steps : List (ℕ × ℝ)) (b : ℕ) (v : ℝ) :
    toSteps (steps ++ [(b, v)]) = toSteps steps ++ [⟨b, v⟩] := by
  simp [toSteps, toStep]

/-- Adding the helper of a step, if there is one. -/
theorem addHelper_ok {label features : TBinFeatureSet} {n e i : ℕ} {cmi : TCmiCalculator}
    {bg : TBackground} {condition : List ℕ} {helpers : List (ℕ × ℝ)} (pool : Pool label features n)
    (same : bg.features = features)
    (fed : Fed cmi label features n (e :: (elements helpers).take i) condition)
    (inside : ∀ helper, helpers[i]? = some helper → helper.1 < features.getBinCount)
    (few : label.bins.length + 1 + min i helpers.length + condition.length < 64) :
    ∃ cmi', addHelper cmi bg (toSteps helpers) i = .ok cmi' ∧
      Fed cmi' label features n (e :: (elements helpers).take (i + 1)) condition := by
  cases at_i : helpers[i]? with
  | none =>
    refine ⟨cmi, by simp [addHelper, toSteps, at_i], ?_⟩
    have : helpers.length ≤ i := List.getElem?_eq_none_iff.mp at_i
    rw [List.take_of_length_le (by simpa using this)] at fed
    rwa [List.take_of_length_le (by simp; omega)]
  | some helper =>
    have bInside := inside helper at_i
    obtain ⟨cmi', added, fed'⟩ := fed.addSecondVariableBin pool (b := helper.1)
      (by simp; omega) bInside
    refine ⟨cmi', ?_, ?_⟩
    · simp [addHelper, toSteps, at_i, toStep, TBackground.getBin, same, getBin_binAt bInside, added]
    · rw [List.take_add_one]
      simpa [elements, at_i] using fed'

namespace TParallelMiximizer

variable {label features : TBinFeatureSet} {n : ℕ} {bg bg' : TBackground} {m : TParallelMiximizer}
variable {e i k : ℕ}

/-- What both loop bodies begin with: on the bins a greedy run has left, the scan returns the
next bin of the run, and that bin is disabled. -/
theorem choose_ok {r : ℝ → ℝ → Prop} [DecidableRel r] [IsStrictTotalOrder ℝ r]
    {u : List ℕ → ℕ → ℝ} {g : ℕ → Except Failure ℝ} (room : i < bg.enabledBinIndexes.length)
    (without : bg.Without bg' (elements (greedy r u bg.enabledBinIndexes i)))
    (values : ∀ x < bg.getBinCount, g x = .ok (u (elements (greedy r u bg.enabledBinIndexes i)) x)) :
    ∃ b pos bg'', greedy r u bg.enabledBinIndexes (i + 1) = greedy r u bg.enabledBinIndexes i ++
        [(b, u (elements (greedy r u bg.enabledBinIndexes i)) b)] ∧
      b < bg.getBinCount ∧ parallelExtremeElementBy r g bg'.enabledBinIndexes = .ok pos ∧
      dereference bg'.enabledBinIndexes pos = .ok b ∧ bg'.setBinEnabled (b : ℤ) false = .ok bg'' ∧
      bg.Without bg'' (elements (greedy r u bg.enabledBinIndexes (i + 1))) := by
  have sorted : bg.enabledBinIndexes.Pairwise (· < ·) := TBackground.enabledBinIndexes_sorted
  have inside (b : ℕ) (mem : b ∈ bg.enabledBinIndexes) : b < bg.getBinCount :=
    TBackground.lt_of_enabled (TBackground.mem_enabledBinIndexes.mp mem)
  obtain ⟨b, best, next, -⟩ := greedy_succ (r := r) (u := u) sorted room
  have found := (pick_eq_some_iff (unused_sorted sorted _)).mpr best
  have left : bg'.enabledBinIndexes = unused bg.enabledBinIndexes (greedy r u bg.enabledBinIndexes i) :=
    without.enabledBinIndexes
  obtain ⟨pos, scanned, at_pos⟩ := parallelExtremeElementBy_ok (p := r) (g := g) (l := bg'.enabledBinIndexes)
    fun x mem => values x (inside x (mem_unused.mp (left ▸ mem)).1)
  rw [← left] at found
  have bInside := inside b (mem_unused.mp best.1).1
  have count : bg'.getBinCount = bg.getBinCount := by rw [TBackground.getBinCount, without.features]; rfl
  obtain ⟨bg'', set, without'⟩ := without.setBinEnabled (count ▸ bInside)
  refine ⟨b, pos, bg'', next, bInside, scanned, dereference_pick at_pos found, set, ?_⟩
  rw [next, elements_append, elements_singleton]
  exact without'

/-- The state of the maximisation after `i` steps. -/
structure MaxRun (label : TBinFeatureSet) (n : ℕ) (bg : TBackground) (e i : ℕ) (st : MaximizePhase ℝ) : Prop where
  without : bg.Without st.localBg
    (elements (greedy (· > ·) (helperValue (cmiAt label bg.features n) e) bg.enabledBinIndexes i))
  result : st.result =
    toSteps (greedy (· > ·) (helperValue (cmiAt label bg.features n) e) bg.enabledBinIndexes i)
  fed : Fed st.maximizerCmi label bg.features n [e]
    (elements (greedy (· > ·) (helperValue (cmiAt label bg.features n) e) bg.enabledBinIndexes i))

theorem MaxRun.step {st : MaximizePhase ℝ} (run : MaxRun label n bg e i st) (pool : Pool label bg.features n)
    (room : i < bg.enabledBinIndexes.length) (few : label.bins.length + 1 + i ≤ 62) :
    ∃ st', maximizeStep i st = .ok st' ∧ MaxRun label n bg e (i + 1) st' := by
  obtain ⟨without, result, fed⟩ := run
  set val := helperValue (cmiAt label bg.features n) e
  set done := greedy (· > ·) val bg.enabledBinIndexes i with hdone
  have length : done.length = i := greedy_length TBackground.enabledBinIndexes_sorted room.le
  have bound : label.bins.length + [e].length + (elements done).length ≤ 62 := by
    simpa [length] using few
  obtain ⟨b, pos, bg', next, bInside, scanned, chosen, set, without'⟩ := choose_ok
    (r := (· > ·)) (u := val) (g := binValue st.maximizerCmi st.localBg) room without
    fun x inside => binValue_ok pool fed without.features bound inside
  rw [← hdone] at next
  obtain ⟨cmi', added, fed'⟩ := fed.addConditionBin pool (by omega) bInside
  refine ⟨⟨bg', st.result ++ [⟨b, val (elements done) b⟩], cmi'⟩, ?_, without', ?_, ?_⟩
  · simp only [maximizeStep, scanned, chosen, set, ok_bind, binValue_ok pool fed without'.features bound bInside,
      TBackground.getBin, without'.features, getBin_binAt bInside, added, pure_eq_ok]
    rfl
  · rw [next, toSteps_concat, result]
  · rw [next, elements_append, elements_singleton]
    exact fed'

/-- **`DoMaximizePhase` is the greedy run over the enabled bins.** -/
theorem doMaximizePhase_eq (pool : Pool label bg.features n) (fed : Fed m.cmi label bg.features n [] [])
    (steps : m.maxSteps = (k : ℤ)) (room : k ≤ bg.enabledBinIndexes.length)
    (few : label.bins.length + k ≤ 62) (h : e < bg.getBinCount) :
    m.doMaximizePhase bg (e : ℤ) = .ok (toSteps
      (greedy (· > ·) (helperValue (cmiAt label bg.features n) e) bg.enabledBinIndexes k)) := by
  obtain ⟨bins, counted, size⟩ := TBackground.enabledBins_length bg
  obtain ⟨cmi, added, fed'⟩ := fed.addSecondVariableBin pool (b := e) (by simp; omega) h
  obtain ⟨final, ran, run⟩ := forSteps_ok (b := maximizeStep)
    (I := MaxRun label n bg e) (j := 0) (k := k) (s := ⟨bg, [], cmi⟩)
    ⟨bg.without_nil, rfl, fed'⟩
    fun i st _ lt run => run.step pool (by omega) (by omega)
  have enough : ¬ ((bins.length : ℤ) < k) := by omega
  have nonneg : ¬ ((k : ℤ) < 0) := by omega
  simp only [doMaximizePhase, counted, steps, enough, nonneg, ok_bind, if_false, TBackground.getBin,
    getBin_binAt h, added, Int.toNat_natCast, ran, pure_eq_ok, run.result, Nat.zero_add]

variable (helpers : List (ℕ × ℝ))

/-- The state of the minimisation after `i` steps. -/
structure MinRun (label : TBinFeatureSet) (n : ℕ) (bg : TBackground) (e i : ℕ) (st : MinimizePhase ℝ) : Prop where
  without : bg.Without st.bg (elements (greedy (· < ·)
    (conditionValue (cmiAt label bg.features n) e (elements helpers)) bg.enabledBinIndexes i))
  result : st.result = toSteps (greedy (· < ·)
    (conditionValue (cmiAt label bg.features n) e (elements helpers)) bg.enabledBinIndexes i)
  fed : Fed st.minimizerCmi label bg.features n (e :: (elements helpers).take i) (elements (greedy (· < ·)
    (conditionValue (cmiAt label bg.features n) e (elements helpers)) bg.enabledBinIndexes i))

variable {helpers} in
theorem MinRun.step {st : MinimizePhase ℝ} (run : MinRun helpers label n bg e i st)
    (pool : Pool label bg.features n)
    (helperInside : ∀ helper, helpers[i]? = some helper → helper.1 < bg.getBinCount)
    (room : i < bg.enabledBinIndexes.length)
    (few : label.bins.length + 1 + min i helpers.length + i ≤ 62) :
    ∃ st', minimizeStep (toSteps helpers) i st = .ok st' ∧ MinRun helpers label n bg e (i + 1) st' := by
  obtain ⟨without, result, fed⟩ := run
  set val := conditionValue (cmiAt label bg.features n) e (elements helpers)
  set done := greedy (· < ·) val bg.enabledBinIndexes i with hdone
  have length : done.length = i := greedy_length TBackground.enabledBinIndexes_sorted room.le
  have bound : label.bins.length + (e :: (elements helpers).take i).length + (elements done).length ≤
      62 := by
    simp [length]
    omega
  have value : ∀ {bg' : TBackground} {x : ℕ}, bg'.features = bg.features → x < bg.getBinCount →
      binValue st.minimizerCmi bg' x = .ok (val (elements done) x) := fun sameBg hx => by
    rw [binValue_ok pool fed sameBg bound hx]
    simp [val, conditionValue, length]
  obtain ⟨b, pos, bg', next, bInside, scanned, chosen, set, without'⟩ := choose_ok
    (r := (· < ·)) (u := val) (g := binValue st.minimizerCmi st.bg) room without
    fun x inside => value without.features inside
  rw [← hdone] at next
  obtain ⟨cmi', added, fed'⟩ := fed.addConditionBin pool (by omega) bInside
  obtain ⟨cmi'', helped, fed''⟩ := addHelper_ok pool without'.features fed' helperInside
    (by simp [length]; omega)
  refine ⟨⟨bg', st.result ++ [⟨b, val (elements done) b⟩], cmi''⟩, ?_, without', ?_, ?_⟩
  · simp only [minimizeStep, scanned, chosen, set, ok_bind, value without.features bInside, TBackground.getBin,
      without'.features, getBin_binAt bInside, added, helped, pure_eq_ok]
  · rw [next, toSteps_concat, result]
  · rw [next, elements_append, elements_singleton]
    exact fed''

/-- **`DoMinimizePhase` is the greedy run over the enabled bins**, and disables the bins it chose. -/
theorem doMinimizePhase_eq (pool : Pool label bg.features n) (fed : Fed m.cmi label bg.features n [] [])
    (steps : m.minSteps = (k : ℤ)) (room : k ≤ bg.enabledBinIndexes.length)
    (few : label.bins.length + min k helpers.length + k ≤ 62)
    (helpersInside : ∀ b ∈ (elements helpers).take k, b < bg.getBinCount) (h : e < bg.getBinCount) :
    ∃ bg', m.doMinimizePhase bg (e : ℤ) (toSteps helpers) = .ok (toSteps (greedy (· < ·)
        (conditionValue (cmiAt label bg.features n) e (elements helpers)) bg.enabledBinIndexes k), bg') ∧
      bg.Without bg' (elements (greedy (· < ·)
        (conditionValue (cmiAt label bg.features n) e (elements helpers)) bg.enabledBinIndexes k)) := by
  obtain ⟨bins, counted, size⟩ := TBackground.enabledBins_length bg
  obtain ⟨cmi, added, fed'⟩ := fed.addSecondVariableBin pool (b := e) (by simp; omega) h
  obtain ⟨final, ran, run⟩ := forSteps_ok (b := minimizeStep (toSteps helpers))
    (I := MinRun helpers label n bg e) (j := 0) (k := k)
    (s := ⟨bg, [], cmi⟩) ⟨bg.without_nil, rfl, by simpa [greedy_zero] using fed'⟩
    fun i st _ lt run => run.step pool
      (fun helper at_i => helpersInside _ (elements_take helpers k ▸ mem_elements_of_getElem? (i := i)
        ((List.getElem?_take_of_lt (by omega)).trans at_i)))
      (by omega) (by omega)
  rw [Nat.zero_add] at run
  have enough : ¬ ((bins.length : ℤ) < k) := by omega
  have nonneg : ¬ ((k : ℤ) < 0) := by omega
  refine ⟨final.bg, ?_, run.without⟩
  simp only [doMinimizePhase, counted, steps, enough, nonneg, ok_bind, if_false, TBackground.getBin,
    getBin_binAt h, added, Int.toNat_natCast, ran, pure_eq_ok, run.result]

/-- With too few enabled bins either phase throws. -/
theorem doMaximizePhase_few (few : (bg.enabledBinIndexes.length : ℤ) < m.maxSteps) (e : ℤ) :
    m.doMaximizePhase (R := ℝ) bg e = .error (.notEnoughBins m.maxSteps) := by
  obtain ⟨bins, counted, size⟩ := TBackground.enabledBins_length bg
  have short : (bins.length : ℤ) < m.maxSteps := size ▸ few
  rw [doMaximizePhase, counted, ok_bind, if_pos short]
  rfl

theorem doMinimizePhase_few (few : (bg.enabledBinIndexes.length : ℤ) < m.minSteps) (e : ℤ)
    (maxSteps : List (TStepResult ℝ)) :
    m.doMinimizePhase bg e maxSteps = .error (.notEnoughBins m.minSteps) := by
  obtain ⟨bins, counted, size⟩ := TBackground.enabledBins_length bg
  have short : (bins.length : ℤ) < m.minSteps := size ▸ few
  rw [doMinimizePhase, counted, ok_bind, if_pos short]
  rfl

theorem ofLabel_ok (pool : Pool label features n) (few : label.bins.length ≤ 64) (maxSteps minSteps : ℤ) :
    ∃ m, ofLabel label maxSteps minSteps = .ok m ∧ m.maxSteps = maxSteps ∧ m.minSteps = minSteps ∧
      Fed m.cmi label features n [] [] := by
  obtain ⟨cmi, loaded, fed⟩ := fed_label pool few
  have some : 0 < label.getBinCount := List.length_pos_iff_ne_nil.mpr pool.labelled
  have length : (label.binAt 0).length = n := by
    rw [TBinFeatureSet.binAt, ← List.getElem_eq_getD (h := some)]
    exact pool.labelLength _ (List.getElem_mem some)
  refine ⟨⟨cmi, maxSteps, minSteps⟩, ?_, rfl, rfl, fed⟩
  have first := getBin_binAt some
  rw [Nat.cast_zero] at first
  simp only [ofLabel, first, ok_bind, length, loaded, pure_eq_ok]

end TParallelMiximizer

/-! ### Whatever a calculator returns -/

section Bounds

variable {label : TBinFeatureSet} {n : ℕ} {cmi cmi' : TCmiCalculator} {bg : TBackground} {m : TParallelMiximizer}

/-- The calculator has the label as its first variable and at most 64 bins in all. -/
def AboutLabel (label : TBinFeatureSet) (n : ℕ) (cmi : TCmiCalculator) : Prop :=
  ∃ second given : List TBin, cmi.Holds n label.bins second given ∧
    label.bins.length + second.length + given.length ≤ 64

theorem AboutLabel.addSecondVariableBin {bin : TBin} (about : AboutLabel label n cmi)
    (added : cmi.addSecondVariableBin bin = .ok cmi') : AboutLabel label n cmi' := by
  obtain ⟨second, given, held, -⟩ := about
  obtain ⟨room, held'⟩ := held.of_addSecondVariableBin added
  exact ⟨_, _, held', by simp; omega⟩

theorem AboutLabel.addConditionBin {bin : TBin} (about : AboutLabel label n cmi)
    (added : cmi.addConditionBin bin = .ok cmi') : AboutLabel label n cmi' := by
  obtain ⟨second, given, held, -⟩ := about
  obtain ⟨room, held'⟩ := held.of_addConditionBin added
  exact ⟨_, _, held', by simp; omega⟩

theorem AboutLabel.addHelper {maxSteps : List (TStepResult ℝ)} {step : ℕ} (about : AboutLabel label n cmi)
    (added : Cmicot.addHelper cmi bg maxSteps step = .ok cmi') : AboutLabel label n cmi' := by
  unfold Cmicot.addHelper at added
  split at added
  · obtain ⟨bin, -, added⟩ := bind_eq_ok.mp added
    exact about.addSecondVariableBin added
  · cases added
    exact about

/-- A value read off such a calculator. -/
theorem AboutLabel.of_getValue {result : ℝ} (about : AboutLabel label n cmi)
    (returned : cmi.getValue = .ok result) :
    0 < n ∧ 0 ≤ result ∧ result ≤ jointEntropy n label.bins := by
  obtain ⟨second, given, held, few⟩ := about
  obtain ⟨pos, rfl⟩ := held.of_getValue few returned
  exact ⟨pos, cmiValue_nonneg, cmiValue_le_first pos⟩

/-- A value with an extra condition that is added afterwards. -/
theorem AboutLabel.of_getValueWithConditionBin {bin : TBin} {result : ℝ} (about : AboutLabel label n cmi)
    (returned : cmi.getValueWithConditionBin bin = .ok result) (added : cmi.addConditionBin bin = .ok cmi') :
    0 < n ∧ 0 ≤ result ∧ result ≤ jointEntropy n label.bins := by
  obtain ⟨second, given, held, -⟩ := about
  have room := (held.of_addConditionBin added).1
  obtain ⟨pos, rfl⟩ := held.of_getValueWithConditionBin (by omega) returned
  exact ⟨pos, cmiValue_nonneg, cmiValue_le_first pos⟩

/-- A calculator that was fed the label holds bins of one size, which are not too many. -/
theorem aboutLabel_of_foldlM
    (loaded : label.bins.foldlM TCmiCalculator.addFirstVariableBin (.ofSize n) = .ok cmi) :
    (∀ bin ∈ label.bins, bin.length = n) ∧ label.bins.length ≤ 64 ∧ AboutLabel label n cmi := by
  obtain ⟨held, few, length⟩ := foldlM_inv (P := fun done (cmi : TCmiCalculator) =>
    cmi.Holds n done [] [] ∧ done.length ≤ 64 ∧ ∀ bin ∈ done, bin.length = n)
    loaded ⟨TCmiCalculator.ofSize_holds _, by simp, by simp⟩
    (by
      rintro done bin st st' - ⟨held, -, length⟩ added
      obtain ⟨room, size, held'⟩ := held.of_addFirstVariableBin added
      refine ⟨held', by simpa using room, fun b mem => ?_⟩
      rcases List.mem_append.mp mem with mem | mem
      · exact length b mem
      · rw [List.mem_singleton.mp mem, size])
  exact ⟨length, few, [], [], held, few⟩

/-- Steps of the minimisation, with a calculator that is about the label. -/
structure MinBounded (label : TBinFeatureSet) (n : ℕ) (st : MinimizePhase ℝ) : Prop where
  about : AboutLabel label n st.minimizerCmi
  bounds : ∀ step ∈ st.result, 0 < n ∧ 0 ≤ step.cmi ∧ step.cmi ≤ jointEntropy n label.bins

/-- A step that is recorded lies between 0 and the label entropy: its bin was then added, so that there was room. -/
theorem MinBounded.step {maxSteps : List (TStepResult ℝ)} {i : ℕ} {st st' : MinimizePhase ℝ}
    (bounded : MinBounded label n st) (ran : TParallelMiximizer.minimizeStep maxSteps i st = .ok st') :
    MinBounded label n st' := by
  obtain ⟨best, -, ran⟩ := bind_eq_ok.mp ran
  obtain ⟨bestBin, -, ran⟩ := bind_eq_ok.mp ran
  obtain ⟨value, evaluated, ran⟩ := bind_eq_ok.mp ran
  obtain ⟨bg, disabled, ran⟩ := bind_eq_ok.mp ran
  obtain ⟨bin, found, ran⟩ := bind_eq_ok.mp ran
  obtain ⟨cmi, added, ran⟩ := bind_eq_ok.mp ran
  obtain ⟨cmi', helped, last⟩ := bind_eq_ok.mp ran
  cases last
  obtain ⟨bin', found', returned⟩ := bind_eq_ok.mp evaluated
  rw [TBackground.getBin, TBackground.features_of_setBinEnabled disabled] at found
  obtain rfl : bin' = bin := Except.ok.inj (found'.symm.trans found)
  refine ⟨(bounded.about.addConditionBin added).addHelper helped, fun step mem => ?_⟩
  rcases List.mem_append.mp mem with mem | mem
  · exact bounded.bounds step mem
  · rw [List.mem_singleton.mp mem]
    exact bounded.about.of_getValueWithConditionBin returned added

/-- **The score of two phases**, if they return one, lies between 0 and the label entropy. -/
theorem score_bounds_of_phases {maximizeSteps minimizeSteps e : ℤ} {maxSteps steps : List (TStepResult ℝ)}
    {score : ℝ} {bg' : TBackground} (built : TParallelMiximizer.ofLabel label maximizeSteps minimizeSteps = .ok m)
    (ran : m.doMinimizePhase bg e maxSteps = .ok (steps, bg')) (last : lastCmi steps = .ok score) :
    0 ≤ score ∧ score ≤ entropy label.allBins := by
  obtain ⟨bin, found, built⟩ := bind_eq_ok.mp built
  obtain ⟨cmi, loaded, built⟩ := bind_eq_ok.mp built
  cases built
  obtain ⟨length, few, about⟩ := aboutLabel_of_foldlM loaded
  have labelled : label.bins ≠ [] := by
    rintro none
    simp [TBinFeatureSet.getBin, TBinFeatureSet.getBinCount, none] at found
  obtain ⟨bins, -, ran⟩ := bind_eq_ok.mp ran
  obtain ⟨-, ran⟩ := guard_eq_ok.mp ran
  obtain ⟨-, ran⟩ := guard_eq_ok.mp ran
  obtain ⟨evalBin, -, ran⟩ := bind_eq_ok.mp ran
  obtain ⟨cmi', added, ran⟩ := bind_eq_ok.mp ran
  obtain ⟨final, looped, ran⟩ := bind_eq_ok.mp ran
  cases ran
  have bounded := forSteps_inv (I := fun _ st => MinBounded label bin.length st) looped
    ⟨about.addSecondVariableBin added, by simp⟩ fun _ _ _ => MinBounded.step
  unfold lastCmi at last
  split at last
  case h_2 => cases last
  case h_1 step found =>
    cases last
    obtain ⟨pos, lower, upper⟩ := bounded.bounds step (List.mem_of_getLast? found)
    have entropy_eq : entropy (R := ℝ) label.allBins = jointEntropy bin.length label.bins :=
      TEntropyCalculator.entropyOfValues_flattenBins pos labelled few length
    exact ⟨lower, entropy_eq ▸ upper⟩

end Bounds

/-! ### The reference score -/

section Reference

variable {label features : TBinFeatureSet} {n : ℕ} {bg : TBackground} {chosen : List ℕ} {e s : ℕ}

/-- The value of the last step from scratch is the value of all steps together. -/
theorem lastCmi_scratch (cmi : Oracle ℝ) {full enabled : List ℕ} (fullSorted : full.Pairwise (· < ·))
    (sorted : enabled.Pairwise (· < ·)) (e : ℕ) (pos : 0 < s) (helperRoom : s - 1 ≤ full.length)
    (room : s ≤ enabled.length) :
    lastCmi (toSteps (scratch cmi full enabled e s).minSteps) = .ok (value cmi e (scratch cmi full enabled e s)) := by
  obtain ⟨k, rfl⟩ : ∃ k, s = k + 1 := ⟨s - 1, by omega⟩
  have helped : (scratch cmi full enabled e (k + 1)).maxSteps.length = k := greedy_length fullSorted helperRoom
  set helpers := (scratch cmi full enabled e (k + 1)).maxSteps
  have shape : (scratch cmi full enabled e (k + 1)).minSteps =
      greedy (· < ·) (conditionValue cmi e (elements helpers)) enabled (k + 1) := rfl
  obtain ⟨b, -, next, -⟩ := greedy_succ (r := (· < ·)) (u := conditionValue cmi e (elements helpers))
    sorted (show k < _ from room)
  have length := greedy_length (r := (· < ·)) (u := conditionValue cmi e (elements helpers))
    sorted (Nat.le_of_succ_le room)
  rw [value, shape, next, toSteps_concat, lastCmi, List.getLast?_concat]
  simp only [conditionValue, elements_append, elements_singleton, length_elements, length]
  rw [List.take_of_length_le (by simp [helped])]

/-- The two phases of an evaluation: helpers among the enabled bins and the bin itself, conditions among
the enabled bins of other features. -/
theorem buildBinScorerForEval_phases (pool : Pool label bg.features n) (h : e < bg.getBinCount)
    (few : label.bins.length ≤ 64) (maxSteps minSteps : ℤ) :
    ∃ (m : TParallelMiximizer) (bg₁ bg₂ : TBackground),
      m.maxSteps = maxSteps ∧ m.minSteps = minSteps ∧ Fed m.cmi label bg.features n [] [] ∧
      bg₁.features = bg.features ∧ bg₁.enabledBinIndexes = bg.withBin e ∧
      bg₂.features = bg.features ∧ bg₂.enabledBinIndexes = bg.outside e ∧
      buildBinScorerForEval (R := ℝ) label maxSteps minSteps bg (e : ℤ) = do
        let helpers ← m.doMaximizePhase bg₁ (e : ℤ)
        let (conditions, _) ← m.doMinimizePhase bg₂ (e : ℤ) helpers
        return ⟨← lastCmi conditions, helpers, conditions⟩ := by
  obtain ⟨m, built, sameMax, sameMin, fed⟩ := TParallelMiximizer.ofLabel_ok pool few maxSteps minSteps
  obtain ⟨bg₁, on, same₁, enabled₁⟩ := TBackground.enable_bin h
  obtain ⟨bg₂, off, same₂, enabled₂⟩ := TBackground.disable_feature h on
  have owner : bg₁.getFeatureIndexByBinIndex e = .ok (bg.features.owner e) := by
    rw [TBackground.getFeatureIndexByBinIndex, same₁, TBinFeatureSet.getFeatureIndexByBinIndex,
      if_pos (show e < bg.features.getBinCount from h)]
  have inRange : 0 ≤ (e : ℤ) ∧ (e : ℤ) < bg.getBinCount := ⟨by omega, by exact_mod_cast h⟩
  refine ⟨m, bg₁, bg₂, sameMax, sameMin, fed, same₁, enabled₁, same₂, enabled₂, ?_⟩
  simp only [buildBinScorerForEval, built, ok_bind, getBinScore, inRange, on, Int.toNat_natCast, owner, off]
  rfl

/-- **The reference scorer computes the steps from scratch**, with the enabled bins and the bin itself as
helpers and the enabled bins of other features as conditions. -/
theorem buildBinScorerForEval_scratch (pool : Pool label bg.features n) (h : e < bg.getBinCount) (pos : 0 < s)
    (room : s ≤ (bg.outside e).length) (few : label.bins.length + 2 * s ≤ 62) :
    buildBinScorerForEval label ((s : ℤ) - 1) s bg (e : ℤ) =
      .ok ⟨value (cmiAt label bg.features n) e
            (scratch (cmiAt label bg.features n) (bg.withBin e) (bg.outside e) e s),
        toSteps (scratch (cmiAt label bg.features n) (bg.withBin e) (bg.outside e) e s).maxSteps,
        toSteps (scratch (cmiAt label bg.features n) (bg.withBin e) (bg.outside e) e s).minSteps⟩ := by
  obtain ⟨m, bg₁, bg₂, maxSteps, minSteps, fed, same₁, enabled₁, same₂, enabled₂, phases⟩ :=
    buildBinScorerForEval_phases pool h (by omega) ((s : ℤ) - 1) s
  have le : (bg.outside e).length ≤ (bg.withBin e).length := TBackground.outside_length_le
  have count₁ : bg₁.getBinCount = bg.getBinCount := by rw [TBackground.getBinCount, same₁]; rfl
  have count₂ : bg₂.getBinCount = bg.getBinCount := by rw [TBackground.getBinCount, same₂]; rfl
  have maximized := TParallelMiximizer.doMaximizePhase_eq (k := s - 1) (same₁.symm ▸ pool)
    (same₁.symm ▸ fed) (by rw [maxSteps]; omega) (by rw [enabled₁]; omega) (by omega) (count₁ ▸ h)
  rw [enabled₁, same₁] at maximized
  set helpers := greedy (· > ·) (helperValue (cmiAt label bg.features n) e) (bg.withBin e) (s - 1)
  have length : helpers.length = s - 1 := greedy_length TBackground.withBin_sorted (by omega)
  have helpersInside : ∀ b ∈ (elements helpers).take s, b < bg₂.getBinCount := fun b mem =>
    count₂ ▸ (TBackground.mem_withBin.mp
      (greedy_subset TBackground.withBin_sorted (by omega) b (List.mem_of_mem_take mem))).1
  obtain ⟨bg₃, minimized, -⟩ := TParallelMiximizer.doMinimizePhase_eq helpers (same₂.symm ▸ pool)
    (same₂.symm ▸ fed) minSteps (enabled₂ ▸ room) (by omega) helpersInside (count₂ ▸ h)
  rw [enabled₂, same₂] at minimized
  have last := lastCmi_scratch (cmiAt label bg.features n) TBackground.withBin_sorted
    TBackground.outside_sorted e pos (le_trans (by omega) le) room
  rw [phases, maximized, ok_bind, minimized, ok_bind]
  change (lastCmi (toSteps (scratch (cmiAt label bg.features n) (bg.withBin e) (bg.outside e) e s).minSteps) >>=
    fun score => _) = _
  rw [last]
  rfl

/-- With too few enabled bins of other features the scorer throws. -/
theorem buildBinScorerForEval_few (pool : Pool label bg.features n) (h : e < bg.getBinCount)
    (few : (bg.outside e).length < s) (bins : label.bins.length ≤ 64) :
    ∃ failure, buildBinScorerForEval (R := ℝ) label ((s : ℤ) - 1) s bg (e : ℤ) = .error failure := by
  obtain ⟨m, bg₁, bg₂, -, minSteps, -, -, -, -, enabled₂, phases⟩ :=
    buildBinScorerForEval_phases pool h bins ((s : ℤ) - 1) s
  rw [phases]
  cases m.doMaximizePhase (R := ℝ) bg₁ (e : ℤ) with
  | error why => exact ⟨why, rfl⟩
  | ok helpers =>
    rw [ok_bind, TParallelMiximizer.doMinimizePhase_few (by rw [enabled₂, minSteps]; exact_mod_cast few)]
    exact ⟨_, rfl⟩

/-- The steps from scratch for a bin whose feature is not among the chosen ones. -/
theorem buildBinScorerForEval_eq (pool : Pool label features n) (shown : bg.Shows features chosen)
    (h : e < features.getBinCount) (disabled : features.owner e ∉ chosen) (pos : 0 < s)
    (room : s ≤ ((problem label features n).enabledBins chosen).length)
    (few : label.bins.length + 2 * s ≤ 62) :
    buildBinScorerForEval label ((s : ℤ) - 1) s bg (e : ℤ) =
      .ok ⟨value (cmiAt label features n) e ((problem label features n).fromScratch chosen e s),
        toSteps ((problem label features n).fromScratch chosen e s).maxSteps,
        toSteps ((problem label features n).fromScratch chosen e s).minSteps⟩ := by
  have full := shown.withBin label n e
  have outer := shown.outside label n disabled
  obtain rfl := shown.features
  rw [buildBinScorerForEval_scratch pool h pos (outer ▸ room) few, full, outer]
  rfl

end Reference

end Cmicot
