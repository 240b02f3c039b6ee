import Cmicot.BinScore
import Cmicot.Lib.Reference

/-!
The two phases on the background of the caller (`miximizers.cpp`).

`DoMaximizePhase` and `DoMinimizePhase` take the background by reference: the first copies it,
the second disables every bin it chooses. Here both are calls on the caller's background, so
that what they leave of it is visible also when they throw; their outcomes are the functions
that the scorer uses.
-/

namespace Cmicot

open Loop Loop.Reference Greedy Search

namespace TParallelMiximizer

section Calls

variable {R : Type} [Field R] [LinearOrder R] [Log2 R]

/-- `DoMaximizePhase(bg, evalBinIndex)` on the caller's background, which is only copied. -/
def doMaximizePhaseOn (m : TParallelMiximizer) (evalBinIndex : ℤ) :
    Reference Failure TBackground (List (TStepResult R)) := do
  m.doMaximizePhase (← get) evalBinIndex

/-- The loop body of `DoMinimizePhase` on the caller's background; its own variables are the
result and the calculator. -/
def minimizeStepOn (maxSteps : List (TStepResult R)) (step : ℕ) (st : List (TStepResult R) × TCmiCalculator) :
    Reference Failure TBackground (List (TStepResult R) × TCmiCalculator) := do
  let bg ← get
  let best ← parallelExtremeElementBy (· < ·) (binValue (R := R) st.2 bg) bg.enabledBinIndexes
  let bestBin ← dereference bg.enabledBinIndexes best
  let cmi ← binValue st.2 bg bestBin
  set (← bg.setBinEnabled bestBin false)
  let bg ← get
  let minimizerCmi ← st.2.addConditionBin (← bg.getBin bestBin)
  let minimizerCmi ← addHelper minimizerCmi bg maxSteps step
  return (st.1 ++ [⟨bestBin, cmi⟩], minimizerCmi)

/-- `DoMinimizePhase(bg, evalBinIndex, maxSteps)` on the caller's background. -/
def doMinimizePhaseOn (m : TParallelMiximizer) (evalBinIndex : ℤ) (maxSteps : List (TStepResult R)) :
    Reference Failure TBackground (List (TStepResult R)) := do
  let bg ← get
  if (← bg.enabledBins).length < m.minSteps then throw (.notEnoughBins m.minSteps)
  if m.minSteps < 0 then throw .lengthError
  let minimizerCmi ← m.cmi.addSecondVariableBin (← bg.getBin evalBinIndex)
  let final ← forCalls (minimizeStepOn maxSteps) 0 m.minSteps.toNat ([], minimizerCmi)
  return final.1

variable {m : TParallelMiximizer} {maxSteps : List (TStepResult R)}

theorem minimizeStepOn_outcome (step : ℕ) (st : MinimizePhase R) :
    (minimizeStepOn maxSteps step (st.result, st.minimizerCmi)).outcome st.bg =
      (fun st' => ((st'.result, st'.minimizerCmi), st'.bg)) <$> minimizeStep maxSteps step st := by
  simp only [minimizeStepOn, minimizeStep, outcome_bind, outcome_get, outcome_set, outcome_lift, ok_bind, bind_assoc,
    outcome_pure, map_bind, pure_eq_ok]
  rfl

/-- The call by reference does what the function on backgrounds does. -/
theorem doMinimizePhaseOn_outcome (bg : TBackground) (evalBinIndex : ℤ) :
    (m.doMinimizePhaseOn evalBinIndex maxSteps).outcome bg = m.doMinimizePhase bg evalBinIndex maxSteps := by
  have loop (cmi : TCmiCalculator) : (forCalls (minimizeStepOn maxSteps) 0 m.minSteps.toNat ([], cmi)).outcome bg =
      (fun st => ((st.result, st.minimizerCmi), st.bg)) <$>
        forSteps (minimizeStep maxSteps) 0 m.minSteps.toNat ⟨bg, [], cmi⟩ := by
    rw [outcome_forCalls]
    exact forSteps_map (b := minimizeStep maxSteps) (g := fun st => ((st.result, st.minimizerCmi), st.bg))
      (fun i st => minimizeStepOn_outcome i st) 0 m.minSteps.toNat ⟨bg, [], cmi⟩
  simp only [doMinimizePhaseOn, doMinimizePhase, outcome_bind, outcome_get, outcome_lift, ok_bind, bind_assoc]
  cases bg.enabledBins with
  | error why => rfl
  | ok bins =>
    simp only [ok_bind]
    by_cases few : (bins.length : ℤ) < m.minSteps
    · simp [few]
    by_cases negative : m.minSteps < 0
    · simp [few, negative]
    simp only [few, negative, if_false, outcome_bind, outcome_pure, outcome_lift, pure_eq_ok, ok_bind, bind_assoc, loop,
      bind_map_left]

end Calls

section Specification

variable {m : TParallelMiximizer} {label : TBinFeatureSet} {n : ℕ} {bg : TBackground} {e : ℕ}

/-- With too few enabled bins either phase throws before it touches the background. -/
theorem doMaximizePhaseOn_few (few : (bg.enabledBinIndexes.length : ℤ) < m.maxSteps) (e : ℤ) :
    (m.doMaximizePhaseOn (R := ℝ) e).call bg = (.error (.notEnoughBins m.maxSteps), bg) := by
  rw [doMaximizePhaseOn, call_read fun bg => m.doMaximizePhase bg e, doMaximizePhase_few few]

theorem doMinimizePhaseOn_few (few : (bg.enabledBinIndexes.length : ℤ) < m.minSteps) (e : ℤ)
    (maxSteps : List (TStepResult ℝ)) :
    (m.doMinimizePhaseOn e maxSteps).call bg = (.error (.notEnoughBins m.minSteps), bg) := by
  obtain ⟨bins, counted, size⟩ := TBackground.enabledBins_length bg
  have short : (bins.length : ℤ) < m.minSteps := size ▸ few
  rw [doMinimizePhaseOn, call_bind]
  change (liftM bg.enabledBins >>= _ : Reference Failure TBackground _).call bg = _
  rw [counted, call_bind]
  change (if _ then _ else _ : Reference Failure TBackground _).call bg = _
  rw [if_pos short]
  rfl

/-- **Both phases meet their specification** on a pool: with enough enabled bins, each returns the
greedy choices in order, the first leaves the background alone and the second disables exactly
the bins it chose; with too few, either throws and leaves the background alone. -/
theorem phases_greedy (pool : Pool label bg.features n) (h : e < bg.getBinCount) (few : label.bins.length ≤ 62)
    (maxSteps minSteps : ℕ) :
    ∃ m, ofLabel label maxSteps minSteps = .ok m ∧
      (maxSteps ≤ bg.enabledBinIndexes.length → label.bins.length + maxSteps ≤ 62 →
        ∃ steps, (m.doMaximizePhaseOn (e : ℤ)).call bg = (.ok (toSteps steps), bg) ∧
          IsGreedy (· > ·) (helperValue (cmiAt label bg.features n) e) bg.enabledBinIndexes maxSteps steps) ∧
      (∀ helpers, minSteps ≤ bg.enabledBinIndexes.length →
        label.bins.length + min minSteps helpers.length + minSteps ≤ 62 →
        (∀ b ∈ (elements helpers).take minSteps, b < bg.getBinCount) →
        ∃ steps bg', (m.doMinimizePhaseOn (e : ℤ) (toSteps helpers)).call bg = (.ok (toSteps steps), bg') ∧
          IsGreedy (· < ·) (conditionValue (cmiAt label bg.features n) e (elements helpers)) bg.enabledBinIndexes
            minSteps steps ∧
          bg.Without bg' (elements steps)) ∧
      (bg.enabledBinIndexes.length < maxSteps →
        (m.doMaximizePhaseOn (R := ℝ) (e : ℤ)).call bg = (.error (.notEnoughBins maxSteps), bg)) ∧
      (∀ helpers : List (TStepResult ℝ), bg.enabledBinIndexes.length < minSteps →
        (m.doMinimizePhaseOn (e : ℤ) helpers).call bg = (.error (.notEnoughBins minSteps), bg)) := by
  obtain ⟨m, built, sameMax, sameMin, fed⟩ := ofLabel_ok pool (by omega) maxSteps minSteps
  have sorted : bg.enabledBinIndexes.Pairwise (· < ·) := TBackground.enabledBinIndexes_sorted
  refine ⟨m, built, fun room bound => ?_, fun helpers room bound inside => ?_, fun short => ?_, fun helpers short => ?_⟩
  · refine ⟨_, ?_, greedy_isGreedy sorted room⟩
    rw [doMaximizePhaseOn, call_read fun bg => m.doMaximizePhase bg (e : ℤ),
      doMaximizePhase_eq pool fed sameMax room bound h]
  · obtain ⟨bg', minimized, without⟩ := doMinimizePhase_eq helpers pool fed sameMin room bound inside h
    refine ⟨_, bg', ?_, greedy_isGreedy sorted room, without⟩
    rw [← outcome_eq_ok, doMinimizePhaseOn_outcome, minimized]
  · rw [doMaximizePhaseOn_few (by rw [sameMax]; exact_mod_cast short), sameMax]
  · rw [doMinimizePhaseOn_few (by rw [sameMin]; exact_mod_cast short), sameMin]

/-- Two helpers for bin 2 among five bins, and three conditions beside the helpers 4 and 1. -/
theorem phases_greedy_sixRows :
    ∃ m, ofLabel sixLabel 2 3 = .ok m ∧
      (∃ steps, (m.doMaximizePhaseOn (2 : ℕ)).call allEnabled = (.ok (toSteps steps), allEnabled) ∧
        IsGreedy (· > ·) (helperValue (cmiAt sixLabel sixFeatures 6) 2) [0, 1, 2, 3, 4] 2 steps) ∧
      ∃ steps bg', (m.doMinimizePhaseOn (2 : ℕ) (toSteps [(4, 0), (1, 0)])).call allEnabled =
          (.ok (toSteps steps), bg') ∧
        IsGreedy (· < ·) (conditionValue (cmiAt sixLabel sixFeatures 6) 2 [4, 1]) [0, 1, 2, 3, 4] 3 steps ∧
        allEnabled.Without bg' (elements steps) := by
  obtain ⟨m, built, maximize, minimize, -⟩ := phases_greedy
    (show Pool sixLabel allEnabled.features 6 from sixPool) (show 2 < allEnabled.getBinCount by decide) (by decide) 2 3
  exact ⟨m, built, maximize (by decide) (by decide),
    minimize [(4, 0), (1, 0)] (by decide) (by decide) (by simp [elements]; decide)⟩

end Specification

end TParallelMiximizer

end Cmicot
