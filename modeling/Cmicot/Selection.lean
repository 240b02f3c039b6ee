import Cmicot.CachingBinScorer

/-!
The two selection loops (`selection.cpp`).

Both loops start with the feature of the bin that says most about the label and add one
feature per round. `fastFeatureSelection` scores with the caching scorer,
`featureSelection` builds a reference scorer for every bin and round. A run is the
sequence of features passed to `onFeatureSelected`, and the failure that ended it if one
did.

* `fastFeatureSelection_eq`, `featureSelection_eq`: the loops are the fast and the plain
  search of the problem of the pool.
* `fastFeatureSelection_ranking`: a complete ranking without duplicates, stable under a
  smaller number of features.
-/

namespace Cmicot

open Loop Greedy Search TCachingBinScorer

/-! ### Definitions -/

/-- The loop state of `FastFeatureSelection`. -/
structure FastSelection (R : Type) where
  bg : TBackground
  binScorer : TCachingBinScorer R

section Generic

variable (R : Type) [Field R] [LinearOrder R] [Log2 R]

/-- `GetBinWithMaximalMutualInformationWithLabel(label, features, threadCount)`. The bins are
an `xrange` from 0, so that the position found is the bin, and the number of bins if there
are none. -/
def getBinWithMaximalMutualInformationWithLabel (label features : TBinFeatureSet) :
    Except Failure ℕ :=
  match label.allBins with
  | [] => .error .emptyContainer
  | front :: _ => do
    let miCalc ← label.allBins.foldlM TMutualInformationCalculator.addFirstVariableBin
      (.ofSize front.length)
    parallelExtremeElementBy (· > ·)
      (fun binIndex : ℕ => do
        miCalc.getValueWithSecondVariableBin (R := R) (← features.getBin binIndex))
      features.allBinIndexes

/-- The block before the loop: the first feature and the background that enables it. -/
def selectFirst (label features : TBinFeatureSet) : Except Failure (ℕ × TBackground) := do
  let bg := (TBackground.ofFeatures features).disableAll
  let bestFeature ← features.getFeatureIndexByBinIndex
    (← getBinWithMaximalMutualInformationWithLabel R label features)
  let bg ← bg.setFeatureEnabled bestFeature true
  return (bestFeature, bg)

variable {R}

/-- `Min(bg.EnabledBinIndexes().ysize(), evalStepCount)`. -/
def stepCount (bg : TBackground) (evalStepCount : ℤ) : ℤ := min bg.enabledBinIndexes.length evalStepCount

/-- What both loops do with the best bin. -/
def selectBin (features : TBinFeatureSet) (bg : TBackground) (bestBin : ℕ) :
    Except Failure (ℕ × TBackground) := do
  let bestFeature ← features.getFeatureIndexByBinIndex bestBin
  let bg ← bg.setFeatureEnabled bestFeature true
  return (bestFeature, bg)

/-- The loop body of `FastFeatureSelection`. -/
def fastRound (features : TBinFeatureSet) (evalStepCount : ℤ) (st : FastSelection R) :
    Except Failure (ℕ × FastSelection R) := do
  let disabledBins := st.bg.disabledBinIndexes
  let (results, binScorer) ← evaluateEach st.bg (stepCount st.bg evalStepCount) disabledBins st.binScorer
  let best ← extremeElementBy (· > ·) .ok (results.map TBinScore.score)
  let bestBin ← verified disabledBins best
  let (bestFeature, bg) ← selectBin features st.bg bestBin
  return (bestFeature, ⟨bg, binScorer⟩)

variable (R)

/-- The loop body of `FeatureSelection`. -/
def plainRound (label features : TBinFeatureSet) (evalStepCount : ℤ) (bg : TBackground) :
    Except Failure (ℕ × TBackground) := do
  let steps := stepCount bg evalStepCount
  let disabledBins := bg.disabledBinIndexes
  let best ← extremeElementBy (· > ·)
    (fun binIndex : ℕ => do
      return (← buildBinScorerForEval (R := R) label (steps - 1) steps bg binIndex).score)
    disabledBins
  let bestBin ← dereference disabledBins best
  selectBin features bg bestBin

/-- `FastFeatureSelection(label, features, evalStepCount, threadCount, featureCount, ...)`. -/
def fastFeatureSelection (label features : TBinFeatureSet) (evalStepCount featureCount : ℤ) :
    Emitted Failure ℕ :=
  match selectFirst R label features with
  | .error e => ⟨[], some e⟩
  | .ok (bestFeature, bg) =>
    let featuresToSelectCount := min featureCount features.getFeatureCount - 1
    (emitLoop (fastRound features evalStepCount) featuresToSelectCount.toNat
      ⟨bg, ofLabel (R := R) label features.getBinCount⟩).cons bestFeature

/-- `FeatureSelection(label, features, evalStepCount, threadCount, ...)`. -/
def featureSelection (label features : TBinFeatureSet) (evalStepCount : ℤ) : Emitted Failure ℕ :=
  match selectFirst R label features with
  | .error e => ⟨[], some e⟩
  | .ok (bestFeature, bg) =>
    (emitLoop (plainRound R label features evalStepCount) (features.getFeatureCount - 1) bg).cons
      bestFeature

end Generic

/-! ### The first feature -/

section First

variable {label features : TBinFeatureSet} {n : ℕ}

/-- A loaded calculator that knows the label gives the mutual information of every bin. -/
theorem getBinWithMaximalMutualInformationWithLabel_ok (pool : Pool label features n)
    (few : label.bins.length ≤ 62) :
    ∃ pos, getBinWithMaximalMutualInformationWithLabel ℝ label features = .ok pos ∧
      (List.range features.getBinCount)[pos]? =
        pick (· > ·) (fun b => cmiAt label features n [b] []) (List.range features.getBinCount) ∧
      (features.getBinCount = 0 → pos = 0) := by
  obtain ⟨mi, loaded, held⟩ := TMutualInformationCalculator.run_holds pool.labelLength (by omega)
  obtain ⟨pos, found, at_pos⟩ := parallelExtremeElementBy_ok (p := (· > ·))
    (g := fun b : ℕ => do mi.getValueWithSecondVariableBin (R := ℝ) (← features.getBin b))
    (f := fun b => cmiAt label features n [b] []) (l := features.allBinIndexes) fun b mem => by
      have inside := TBinFeatureSet.mem_allBinIndexes.mp mem
      rw [getBin_binAt inside, ok_bind, TMutualInformationCalculator.getValueWithSecondVariableBin_eq
        held pool.rows few (pool.binAt_length inside)]
      rfl
  refine ⟨pos, ?_, at_pos, fun empty => ?_⟩
  case refine_2 =>
    have none : features.allBinIndexes = [] := by
      rw [TBinFeatureSet.allBinIndexes, show features.bins.length = 0 from empty, List.range_zero]
    rw [none] at found
    exact (Except.ok.inj found).symm
  unfold getBinWithMaximalMutualInformationWithLabel
  split
  case h_1 none => exact absurd none pool.labelled
  case h_2 front rest bins =>
    have size : front.length = n := pool.labelLength front (by
      rw [show label.bins = front :: rest from bins]
      exact List.mem_cons_self)
    rw [size]
    exact bind_eq_ok.mpr ⟨mi, loaded, found⟩

/-- **The first feature** is the one the search starts with. -/
theorem selectFirst_ok {f : ℕ} (pool : Pool label features n) (few : label.bins.length ≤ 62)
    (first : (problem label features n).firstFeature = some f) :
    ∃ bg, selectFirst ℝ label features = .ok (f, bg) ∧ bg.Shows features [f] ∧
      (problem label features n).ownedBins f ≠ [] := by
  obtain ⟨pos, found, at_pos, -⟩ := getBinWithMaximalMutualInformationWithLabel_ok pool few
  obtain ⟨b, best, rfl⟩ := Option.map_eq_some_iff.mp first
  have inside : b < features.getBinCount := List.mem_range.mp (pick_mem best)
  obtain ⟨lt, rfl⟩ := List.getElem?_eq_some_iff.mp (at_pos.trans best)
  rw [List.getElem_range] at inside ⊢
  obtain ⟨bg, enabled, shown⟩ := (TBackground.shows_disableAll features).setFeatureEnabled
    (TBinFeatureSet.owner_lt inside)
  refine ⟨bg, ?_, shown, List.ne_nil_of_mem (Problem.mem_ownedBins.mpr ⟨inside, rfl⟩)⟩
  simp only [selectFirst, found, ok_bind, TBinFeatureSet.getFeatureIndexByBinIndex, if_pos inside,
    enabled, pure_eq_ok]
  rfl

/-- Without bins the first lookup fails. -/
theorem selectFirst_error (pool : Pool label features n) (few : label.bins.length ≤ 62)
    (none : (problem label features n).firstFeature = none) :
    selectFirst ℝ label features = .error (.rangeEx 0 0) := by
  have empty : features.getBinCount = 0 := by
    by_contra some
    obtain ⟨b, best⟩ := exists_pick (r := (· > ·)) (f := fun b => cmiAt label features n [b] [])
      (l := List.range features.getBinCount) (by simpa using some)
    exact absurd none (by simp [Problem.firstFeature, problem, best])
  obtain ⟨pos, found, -, zero⟩ := getBinWithMaximalMutualInformationWithLabel_ok pool few
  rw [zero empty] at found
  simp [selectFirst, found, TBinFeatureSet.getFeatureIndexByBinIndex, empty]

end First

/-! ### Rounds of the fast loop -/

/-- Dividing by a scale that is zero only when all values are does not change the choice. -/
theorem pick_div {v : ℕ → ℝ} {scale : ℝ} {xs : List ℕ} (nonneg : 0 ≤ scale)
    (zero : scale = 0 → ∀ e ∈ xs, v e = 0) :
    pick (· > ·) (fun e => v e / scale) xs = pick (· > ·) v xs := by
  rcases nonneg.lt_or_eq with pos | rfl
  · exact pick_map (r := (· > ·)) (s := (· > ·)) (g := (· / scale)) (f := v) fun a b =>
      div_lt_div_iff_of_pos_right pos
  · exact pick_congr fun e mem => by rw [zero rfl e mem, zero_div]

section Rounds

variable {label features : TBinFeatureSet} {n t : ℕ}

theorem Pool.labelEntropy_eq (pool : Pool label features n) (few : label.bins.length ≤ 64) :
    entropy label.allBins = jointEntropy n label.bins :=
  TEntropyCalculator.entropyOfValues_flattenBins pool.rows pool.labelled few pool.labelLength

/-- Scores and values make the same choice. -/
theorem Pool.pick_scores (pool : Pool label features n) (few : label.bins.length ≤ 64)
    (entry : ℕ → Entry ℝ) (xs : List ℕ) :
    pick (· > ·) (fun e => value (cmiAt label features n) e (entry e) / entropy label.allBins) xs =
      pick (· > ·) (fun e => value (cmiAt label features n) e (entry e)) xs := by
  rw [pool.labelEntropy_eq few]
  refine pick_div (jointEntropy_nonneg ..) fun zero e _ => le_antisymm ?_ cmiAt_nonneg
  exact zero ▸ cmiValue_le_first pool.rows

theorem stepCount_eq (label : TBinFeatureSet) (n : ℕ) {bg : TBackground} {chosen : List ℕ}
    (shown : bg.Shows features chosen) (t : ℕ) :
    stepCount bg t = (problem label features n).stepCount t chosen := by
  rw [stepCount, Problem.stepCount, shown.enabledBinIndexes label n]
  exact (Nat.cast_min ..).symm

theorem selectBin_ok {bg : TBackground} {chosen : List ℕ} {b : ℕ} (shown : bg.Shows features chosen)
    (inside : b < features.getBinCount) :
    ∃ bg', selectBin features bg b = .ok (features.owner b, bg') ∧
      bg'.Shows features (chosen ++ [features.owner b]) := by
  obtain ⟨bg', enabled, shown'⟩ := shown.setFeatureEnabled (TBinFeatureSet.owner_lt inside)
  refine ⟨bg', ?_, shown'⟩
  simp only [selectBin, TBinFeatureSet.getFeatureIndexByBinIndex, if_pos inside, ok_bind, enabled,
    pure_eq_ok]

/-- The loop state next to the state of the fast search. -/
structure Follows (label features : TBinFeatureSet) (st : FastSelection ℝ) (search : State ℝ) : Prop where
  shown : st.bg.Shows features search.chosen
  labelled : st.binScorer.label = label
  labelEntropy : st.binScorer.labelEntropy = entropy label.allBins
  cache : ∀ (e : ℕ) entry, search.cache[e]? = some entry →
    ∃ score, st.binScorer.cache[e]? = some (toScore score entry)

variable {st : FastSelection ℝ} {search : State ℝ}

theorem start_follows {bg : TBackground} {f : ℕ} (shown : bg.Shows features [f]) :
    Follows label features ⟨bg, ofLabel label features.getBinCount⟩
      ((problem label features n).start f) where
  shown := shown
  labelled := rfl
  labelEntropy := rfl
  cache e entry at_e := by
    obtain ⟨lt, rfl⟩ := List.getElem?_eq_some_iff.mp at_e
    have inside : e < features.getBinCount := by simpa [Problem.start, problem] using lt
    exact ⟨0, by simp [ofLabel, inside, toScore, Problem.start, Entry.empty, toSteps]⟩

/-- A chosen feature has bins, so a round has at least one step. -/
theorem stepCount_pos (inv : (problem label features n).Inv t search) (pos : 0 < t) :
    0 < (problem label features n).stepCount t search.chosen := by
  obtain ⟨prev, f, concat⟩ := inv.concat
  have mem : f ∈ search.chosen := by simp [concat]
  obtain ⟨b, owned⟩ := List.exists_mem_of_ne_nil _ (inv.owned f mem)
  obtain ⟨inside, owner⟩ := Problem.mem_ownedBins.mp owned
  refine lt_min (List.length_pos_of_mem (Problem.mem_enabledBins.mpr ⟨inside, ?_⟩)) pos
  exact owner ▸ mem

/-- A disabled bin is ready to be evaluated. -/
theorem Follows.awaits (follows : Follows label features st search) (inv : (problem label features n).Inv t search)
    {e : ℕ} (inside : e < features.getBinCount) (disabled : features.owner e ∉ search.chosen) :
    search.cache[e]? = some (search.cache.getD e .empty) ∧
      Awaits label features n search.chosen ((problem label features n).stepCount t search.chosen)
        st.binScorer.cache e (search.cache.getD e .empty) := by
  have lt : e < search.cache.length := inv.size ▸ inside
  have cached : search.cache[e]? = some (search.cache.getD e .empty) := by
    rw [List.getD_eq_getElem?_getD, List.getElem?_eq_getElem lt, Option.getD_some]
  exact ⟨cached, inside, disabled, follows.cache e _ cached, inv.ready cached disabled⟩

/-- What the evaluations of a round return: the values of the repaired steps, scaled. -/
theorem Follows.evaluateEach (follows : Follows label features st search) (pool : Pool label features n)
    (inv : (problem label features n).Inv t search) (pos : 0 < t)
    (few : label.bins.length + 2 * (problem label features n).stepCount t search.chosen ≤ 62) :
    ∃ results binScorer, TCachingBinScorer.evaluateEach st.bg (stepCount st.bg t)
        st.bg.disabledBinIndexes st.binScorer = .ok (results, binScorer) ∧
      (results.map TBinScore.score = st.bg.disabledBinIndexes.map fun e =>
        value (cmiAt label features n) e
          (((problem label features n).refreshed t search).getD e .empty) / entropy label.allBins) ∧
      binScorer.label = label ∧ binScorer.labelEntropy = entropy label.allBins ∧
      ∀ (e : ℕ) entry, ((problem label features n).refreshed t search)[e]? = some entry →
        ∃ score, binScorer.cache[e]? = some (toScore score entry) := by
  set P := problem label features n with hP
  obtain ⟨prev, f, concat⟩ := inv.concat
  have disabled := follows.shown.disabledBinIndexes label n
  rw [← hP] at disabled
  rw [stepCount_eq label n follows.shown, disabled]
  have recorded : ∀ e ∈ P.disabledBins search.chosen,
      search.cache[e]? = some (search.cache.getD e .empty) ∧
        (P.refreshed t search).getD e .empty =
          P.repaired search.chosen e (P.stepCount t search.chosen) (search.cache.getD e .empty) := by
    intro e mem
    obtain ⟨inside, off⟩ := Problem.mem_disabledBins.mp mem
    have cached := (follows.awaits inv inside off).1
    refine ⟨cached, ?_⟩
    rw [List.getD_eq_getElem?_getD, Problem.getElem?_refreshed, cached, Option.map_some, if_neg off,
      Option.getD_some]
  obtain ⟨binScorer, ran, labelled, labelEntropy, cache⟩ := evaluateEach_ok st.binScorer
    (fun e => search.cache.getD e .empty) (P.disabledBins search.chosen) pool follows.labelled
    follows.shown (by simp [concat])
    (stepCount_pos inv pos) few (List.nodup_range.filter _) fun e mem => by
      obtain ⟨inside, off⟩ := Problem.mem_disabledBins.mp mem
      exact (follows.awaits inv inside off).2
  rw [follows.labelEntropy] at ran labelEntropy cache
  refine ⟨_, binScorer, ran, ?_, labelled, labelEntropy, fun e entry at_e => ?_⟩
  · rw [List.map_map]
    refine List.map_congr_left fun e mem => ?_
    rw [Function.comp_apply, (recorded e mem).2]
    rfl
  · rw [Problem.getElem?_refreshed, Option.map_eq_some_iff] at at_e
    obtain ⟨old, cached, rfl⟩ := at_e
    have inside : e < P.binCount := inv.size ▸ (List.getElem?_eq_some_iff.mp cached).1
    rw [cache e]
    by_cases chosen : P.owner e ∈ search.chosen
    · rw [if_neg (fun mem => (Problem.mem_disabledBins.mp mem).2 chosen), if_pos chosen]
      exact follows.cache e old cached
    · rw [if_pos (Problem.mem_disabledBins.mpr ⟨inside, chosen⟩), if_neg chosen,
        List.getD_eq_getElem?_getD, cached, Option.getD_some]
      exact ⟨_, rfl⟩

/-- **A round of the loop is a round of the fast search.** -/
theorem Follows.round (follows : Follows label features st search) (pool : Pool label features n)
    (inv : (problem label features n).Inv t search) (pos : 0 < t)
    (few : label.bins.length + 2 * (problem label features n).stepCount t search.chosen ≤ 62) :
    (∃ f st' search', fastRound features t st = .ok (f, st') ∧
        (problem label features n).fastRound t search = .ok (f, search') ∧
        Follows label features st' search' ∧ (problem label features n).Inv t search') ∨
      fastRound features t st = .error .noCandidate ∧
        (problem label features n).fastRound t search = .error () := by
  set P := problem label features n with hP
  obtain ⟨results, binScorer, ran, scores, labelled, labelEntropy, cache⟩ :=
    follows.evaluateEach pool inv pos few
  obtain ⟨at_best, scanned, found⟩ := extremeElementBy_ok (p := (· > ·))
    (g := fun e => .ok (value (cmiAt label features n) e ((P.refreshed t search).getD e .empty) /
      entropy label.allBins)) (l := st.bg.disabledBinIndexes) fun _ _ => rfl
  have best : st.bg.disabledBinIndexes[at_best]? = P.fastBest t search := by
    rw [found, pool.pick_scores (by omega) fun e => (P.refreshed t search).getD e .empty,
      follows.shown.disabledBinIndexes label n]
    rfl
  rw [← extremeElementBy_map fun _ _ => rfl, ← scores] at scanned
  cases choice : P.fastBest t search with
  | none =>
    right
    rw [choice] at best
    simp only [fastRound, ran, ok_bind, scanned, verified, best, error_bind, Problem.fastRound, choice,
      and_self]
  | some b =>
    left
    rw [choice] at best
    have inside : b < features.getBinCount := (Problem.mem_disabledBins.mp (pick_mem choice)).1
    obtain ⟨bg, selected, shown⟩ := selectBin_ok follows.shown inside
    refine ⟨_, ⟨bg, binScorer⟩, _, ?_, Problem.fastRound_of_best choice,
      ⟨shown, labelled, labelEntropy, cache⟩, (inv.round choice).2⟩
    simp only [fastRound, ran, ok_bind, scanned, verified, best, selected, pure_eq_ok]
    rfl

/-- The rounds of the loop and of the search, as `emitLoop_rel` and `stateAfter_rel` ask. -/
theorem Follows.rounds (pool : Pool label features n) (pos : 0 < t)
    (few : label.bins.length + 2 * t ≤ 62) (st : FastSelection ℝ) (search : State ℝ)
    (related : Follows label features st search ∧ (problem label features n).Inv t search) :
    (∃ g st' search', fastRound features t st = .ok (g, st') ∧
        (problem label features n).fastRound t search = .ok (g, search') ∧
        Follows label features st' search' ∧ (problem label features n).Inv t search') ∨
      ∃ why why', fastRound features t st = .error why ∧
        (problem label features n).fastRound t search = .error why' ∧ why = .noCandidate := by
  have steps : (problem label features n).stepCount t search.chosen ≤ t := min_le_right ..
  rcases related.1.round pool related.2 pos (by omega) with
    ⟨g, st', search', ran, ran', follows', inv'⟩ | ⟨failed, failed'⟩
  · exact .inl ⟨g, st', search', ran, ran', follows', inv'⟩
  · exact .inr ⟨_, _, failed, failed', rfl⟩

/-- Without steps an evaluation fails when it resizes the recorded steps. -/
theorem TCachingBinScorer.evaluate_lengthError (scorer : TCachingBinScorer ℝ) {bg : TBackground} {e : ℕ}
    {s : ℤ} (h : e < bg.getBinCount) (cached : e < scorer.cache.length) (none : s ≤ 0) :
    scorer.evaluate bg e s = .error .lengthError := by
  obtain ⟨bg', on, same, enabled, -⟩ := TBackground.setBinEnabled_ok h true
  obtain ⟨bins, counted, size⟩ := TBackground.enabledBins_length bg'
  have mem : e ∈ bg'.enabledBinIndexes := TBackground.mem_enabledBinIndexes.mpr (by simp [enabled])
  have enough : ¬ ((bins.length : ℤ) < s + 1) := by
    have := List.length_pos_of_mem mem
    omega
  have count : bg'.getBinCount = bg.getBinCount := by rw [TBackground.getBinCount, same]; rfl
  have range : ¬ ((e : ℤ) < 0 ∨ (bg'.getBinCount : ℤ) ≤ e) := by omega
  have entry : scorer.cached (e : ℤ) = .ok (scorer.cache.get ⟨e, cached⟩) := by
    simp [TCachingBinScorer.cached, cached]
  have negative : s - 1 < 0 := by omega
  simp only [evaluate, on, ok_bind, counted, enough, range, entry, negative, if_true, if_false,
    throw_eq_error, error_bind]

/-- A round without steps. -/
theorem fastRound_nonpos (label : TBinFeatureSet) (n : ℕ) {st : FastSelection ℝ} {t : ℤ} {chosen : List ℕ}
    (shown : st.bg.Shows features chosen) (size : st.binScorer.cache.length = features.getBinCount)
    (none : t ≤ 0) :
    fastRound features t st = .error
      (if (problem label features n).disabledBins chosen = [] then .noCandidate else .lengthError) := by
  have disabled := shown.disabledBinIndexes label n
  cases bins : (problem label features n).disabledBins chosen with
  | nil => simp [fastRound, disabled, bins, evaluateEach, extremeElementBy, verified]
  | cons b rest =>
    have inside : b < features.getBinCount :=
      (Problem.mem_disabledBins.mp (bins ▸ List.mem_cons_self)).1
    have failed := evaluate_lengthError st.binScorer (e := b) (s := stepCount st.bg t)
      (by rw [TBackground.getBinCount, shown.features]; exact inside)
      (size ▸ inside) ((min_le_right ..).trans none)
    simp [fastRound, disabled, bins, evaluateEach, failed]

/-! ### Rounds of the plain loop -/

/-- **A round of the plain loop is a round of the plain search.** -/
theorem plainRound_follows {bg : TBackground} {chosen : List ℕ} (pool : Pool label features n)
    (shown : bg.Shows features chosen) (pos : 0 < (problem label features n).stepCount t chosen)
    (few : label.bins.length + 2 * (problem label features n).stepCount t chosen ≤ 62) :
    (∃ f bg', plainRound ℝ label features t bg = .ok (f, bg') ∧
        (problem label features n).plainRound t chosen = .ok (f, chosen ++ [f]) ∧
        bg'.Shows features (chosen ++ [f])) ∨
      plainRound ℝ label features t bg = .error .emptyContainer ∧
        (problem label features n).plainRound t chosen = .error () := by
  set P := problem label features n with hP
  have disabled := shown.disabledBinIndexes label n
  rw [← hP] at disabled
  obtain ⟨at_best, scanned, best⟩ := extremeElementBy_ok (p := (· > ·))
    (g := fun e : ℕ => do
      return (← buildBinScorerForEval (R := ℝ) label (stepCount bg t - 1) (stepCount bg t) bg e).score)
    (f := fun e => value P.cmi e (P.fromScratch chosen e (P.stepCount t chosen)))
    (l := P.disabledBins chosen) fun e mem => by
      obtain ⟨inside, off⟩ := Problem.mem_disabledBins.mp mem
      rw [stepCount_eq label n shown,
        buildBinScorerForEval_eq pool shown inside off pos (min_le_left ..) few]
      rfl
  rw [← disabled] at scanned
  cases choice : P.plainBest t chosen with
  | none =>
    right
    have missing : (P.disabledBins chosen)[at_best]? = none := best.trans choice
    rw [← disabled] at missing
    simp only [plainRound, scanned, ok_bind, dereference, missing, error_bind, Problem.plainRound, choice,
      and_self]
  | some b =>
    left
    have found : (P.disabledBins chosen)[at_best]? = some b := best.trans choice
    rw [← disabled] at found
    have inside : b < features.getBinCount := (Problem.mem_disabledBins.mp (pick_mem choice)).1
    obtain ⟨bg', selected, shown'⟩ := selectBin_ok shown inside
    refine ⟨_, bg', ?_, by simp only [Problem.plainRound, choice]; rfl, shown'⟩
    simp only [plainRound, scanned, ok_bind, dereference, found, selected]

end Rounds

/-! ### Whole runs -/

section Runs

variable {label features : TBinFeatureSet} {n t f : ℕ}

/-- The failure a loop stops with, next to the search that has no reasons. -/
theorem stopped_eq {why : Failure} {stop : Option Failure} {stop' : Option Unit}
    (related : Option.Rel (fun e _ => e = why) stop stop') : stop = stop'.map fun _ => why := by
  cases related with
  | some same => rw [same, Option.map_some]
  | none => rfl

/-- **`FastFeatureSelection` is the fast search.** -/
theorem fastFeatureSelection_eq (pool : Pool label features n) (pos : 0 < t)
    (few : label.bins.length + 2 * t ≤ 62) (first : (problem label features n).firstFeature = some f)
    (featureCount : ℤ) :
    fastFeatureSelection ℝ label features t featureCount =
      ⟨f :: (emitLoop ((problem label features n).fastRound t)
          (min featureCount features.getFeatureCount - 1).toNat ((problem label features n).start f)).items,
        (emitLoop ((problem label features n).fastRound t)
          (min featureCount features.getFeatureCount - 1).toNat
          ((problem label features n).start f)).stopped.map fun _ => .noCandidate⟩ := by
  obtain ⟨bg, selected, shown, owned⟩ := selectFirst_ok pool (by omega) first
  obtain ⟨items, stopped⟩ := emitLoop_rel (g := fastRound (R := ℝ) features t)
    (S := fun e _ => e = .noCandidate) (Follows.rounds pool pos few)
    (min featureCount features.getFeatureCount - 1).toNat
    ⟨bg, ofLabel label features.getBinCount⟩ ((problem label features n).start f)
    ⟨start_follows shown, Problem.start_inv owned⟩
  rw [fastFeatureSelection, selected]
  simp only [Emitted.cons, items, stopped_eq stopped]

/-- **`FeatureSelection` is the plain search.** -/
theorem featureSelection_eq (pool : Pool label features n) (pos : 0 < t)
    (few : label.bins.length + 2 * t ≤ 62) (first : (problem label features n).firstFeature = some f) :
    featureSelection ℝ label features t =
      ⟨f :: (emitLoop ((problem label features n).plainRound t) (features.getFeatureCount - 1) [f]).items,
        (emitLoop ((problem label features n).plainRound t) (features.getFeatureCount - 1)
          [f]).stopped.map fun _ => .emptyContainer⟩ := by
  obtain ⟨bg, selected, shown, owned⟩ := selectFirst_ok pool (by omega) first
  obtain ⟨items, stopped⟩ := emitLoop_rel (g := plainRound ℝ label features t)
    (h := (problem label features n).plainRound t)
    (R := fun bg chosen => bg.Shows features chosen ∧ 0 < (problem label features n).stepCount t chosen)
    (S := fun e _ => e = .emptyContainer)
    (fun bg chosen ⟨shown, step⟩ => by
      have steps : (problem label features n).stepCount t chosen ≤ t := min_le_right ..
      rcases plainRound_follows pool shown step (by omega) with
        ⟨g, bg', ran, ran', shown'⟩ | ⟨failed, failed'⟩
      · exact .inl ⟨g, bg', _, ran, ran', shown',
          lt_of_lt_of_le step (Problem.stepCount_mono (List.subset_append_left ..))⟩
      · exact .inr ⟨_, _, failed, failed', rfl⟩)
    (features.getFeatureCount - 1) bg [f]
    ⟨shown, stepCount_pos (Problem.start_inv owned) pos⟩
  rw [featureSelection, selected]
  simp only [Emitted.cons, items, stopped_eq stopped]

/-- The features with bins are those the search can choose. -/
theorem ownedBins_ne_nil_iff (label : TBinFeatureSet) (n : ℕ) :
    (problem label features n).ownedBins f ≠ [] ↔
    ∃ bins, features.getFeature f = .ok bins ∧ bins ≠ [] := by
  have size : ((features.bins.take (features.featureEnd f)).drop (features.featureBegin f)).length =
      features.featureEnd f - features.featureBegin f := by
    have : features.featureEnd f ≤ features.bins.length := TBinFeatureSet.featureEnd_le
    rw [List.length_drop, List.length_take, Nat.min_eq_left this]
  constructor
  · intro owned
    obtain ⟨b, mem⟩ := List.exists_mem_of_ne_nil _ owned
    obtain ⟨inside, owner⟩ := Problem.mem_ownedBins.mp mem
    obtain ⟨lt, low, high⟩ := (TBinFeatureSet.owner_eq_iff inside).mp owner
    refine ⟨_, if_pos lt, List.ne_nil_of_length_pos ?_⟩
    omega
  · rintro ⟨bins, got, nonempty⟩
    unfold TBinFeatureSet.getFeature at got
    split at got
    case isFalse => cases got
    case isTrue lt =>
      cases got
      have pos := List.length_pos_iff_ne_nil.mpr nonempty
      have le : features.featureEnd f ≤ features.getBinCount := TBinFeatureSet.featureEnd_le
      have inside : features.featureBegin f < features.getBinCount := by omega
      refine List.ne_nil_of_mem (Problem.mem_ownedBins.mpr ⟨inside, ?_⟩)
      exact (TBinFeatureSet.owner_eq_iff inside).mpr ⟨lt, Nat.le_refl _, by omega⟩

/-- Only features can own bins. -/
theorem owners_subset (label : TBinFeatureSet) (n : ℕ) :
    (problem label features n).owners ⊆ Finset.range features.getFeatureCount := by
  intro f owned
  obtain ⟨b, mem⟩ := List.exists_mem_of_ne_nil _ (Problem.mem_owners.mp owned)
  obtain ⟨inside, rfl⟩ := Problem.mem_ownedBins.mp mem
  exact Finset.mem_range.mpr (TBinFeatureSet.owner_lt inside)

theorem owners_eq (label : TBinFeatureSet) (n : ℕ) (nonempty : ∀ f < features.getFeatureCount,
    ∃ bins, features.getFeature f = .ok bins ∧ bins ≠ []) :
    (problem label features n).owners = Finset.range features.getFeatureCount :=
  (owners_subset label n).antisymm fun f lt =>
    Problem.mem_owners.mpr ((ownedBins_ne_nil_iff ..).mpr (nonempty f (Finset.mem_range.mp lt)))

/-- A pool with a bin has a first feature, and it owns a bin. -/
theorem exists_firstFeature (label : TBinFeatureSet) (n : ℕ) (bins : 0 < features.getBinCount) :
    ∃ f, (problem label features n).firstFeature = some f ∧
      (problem label features n).ownedBins f ≠ [] := by
  obtain ⟨b, best⟩ := exists_pick (r := (· > ·)) (f := fun b => (problem label features n).cmi [b] [])
    (l := List.range (problem label features n).binCount)
    (List.ne_nil_of_mem (List.mem_range.mpr bins))
  refine ⟨features.owner b, by rw [Problem.firstFeature, best]; rfl, ?_⟩
  exact List.ne_nil_of_mem (Problem.mem_ownedBins.mpr ⟨List.mem_range.mp (pick_mem best), rfl⟩)

/-- **The ranking is duplicate-free, complete and stable.** With at least one bin in every
feature the loop ends normally after `min k F` distinct features, and a larger count only
appends to the ranking. -/
theorem fastFeatureSelection_ranking (pool : Pool label features n) (any : 0 < features.getFeatureCount)
    (nonempty : ∀ f < features.getFeatureCount, ∃ bins, features.getFeature f = .ok bins ∧ bins ≠ [])
    (pos : 0 < t) (few : label.bins.length + 2 * t ≤ 62) {k : ℕ} (asked : 0 < k) :
    (fastFeatureSelection ℝ label features t k).stopped = none ∧
      (fastFeatureSelection ℝ label features t k).items.length = min k features.getFeatureCount ∧
      (fastFeatureSelection ℝ label features t k).items.Nodup ∧
      (∀ f ∈ (fastFeatureSelection ℝ label features t k).items, f < features.getFeatureCount) ∧
      (features.getFeatureCount ≤ k → (fastFeatureSelection ℝ label features t k).items.Perm
        (List.range features.getFeatureCount)) ∧
      ∀ k' : ℕ, k ≤ k' → (fastFeatureSelection ℝ label features t k).items <+:
        (fastFeatureSelection ℝ label features t k').items := by
  have owners := owners_eq label n nonempty
  obtain ⟨b, owned⟩ := List.exists_mem_of_ne_nil _
    ((ownedBins_ne_nil_iff label n).mpr (nonempty 0 any))
  obtain ⟨f, first, ownedFirst⟩ := exists_firstFeature label n
    (Nat.zero_lt_of_lt (Problem.mem_ownedBins.mp owned).1)
  have run := fastFeatureSelection_eq pool pos few first
  obtain ⟨nodup, mem, length, stopped⟩ := (Problem.start_inv (t := t) ownedFirst).emits
    (min (k : ℤ) features.getFeatureCount - 1).toNat
  have single : ((problem label features n).start f).chosen.length = 1 := rfl
  rw [owners, Finset.card_range, single] at length stopped
  have range : ∀ g ∈ (fastFeatureSelection ℝ label features t k).items, g < features.getFeatureCount := by
    rw [run]
    intro g hg
    rcases List.mem_cons.mp hg with rfl | hg
    · exact Finset.mem_range.mp (owners ▸ Problem.mem_owners.mpr ownedFirst)
    · exact Finset.mem_range.mp (owners ▸ mem g hg)
  have distinct : (fastFeatureSelection ℝ label features t k).items.Nodup := by rw [run]; exact nodup
  have count : (fastFeatureSelection ℝ label features t k).items.length =
      min k features.getFeatureCount := by
    rw [run, List.length_cons, length]
    omega
  refine ⟨?_, count, distinct, range, fun all => ?_, fun k' le => ?_⟩
  · rw [run, stopped.mpr (by omega)]
    rfl
  · refine (List.subperm_of_subset distinct fun g hg => ?_).perm_of_length_le ?_
    · exact List.mem_range.mpr (range g hg)
    · rw [count, List.length_range, Nat.min_eq_right all]
  · rw [run, run, List.cons_prefix_cons]
    exact ⟨rfl, emitLoop_prefix (by omega) _⟩

/-- Four features, ranked with two steps; the first two of them are ranked alone. -/
theorem fastFeatureSelection_ranking_sixRows :
    (fastFeatureSelection ℝ sixLabel sixFeatures 2 4).items.Perm [0, 1, 2, 3] ∧
      (fastFeatureSelection ℝ sixLabel sixFeatures 2 2).items.length = 2 ∧
      (fastFeatureSelection ℝ sixLabel sixFeatures 2 2).items <+:
        (fastFeatureSelection ℝ sixLabel sixFeatures 2 4).items := by
  have nonempty : ∀ f < sixFeatures.getFeatureCount, ∃ bins, sixFeatures.getFeature f = .ok bins ∧ bins ≠ [] := by
    intro f lt
    have : f < 4 := lt
    obtain rfl | rfl | rfl | rfl : f = 0 ∨ f = 1 ∨ f = 2 ∨ f = 3 := by omega
    all_goals exact ⟨_, rfl, by decide⟩
  have ranking {k : ℕ} := fastFeatureSelection_ranking (t := 2) (k := k) sixPool (by decide) nonempty (by decide)
    (by decide)
  obtain ⟨-, -, -, -, all, -⟩ := ranking (show 0 < 4 by decide)
  obtain ⟨-, count, -, -, -, appends⟩ := ranking (show 0 < 2 by decide)
  exact ⟨all (by decide), count, appends 4 (by decide)⟩

end Runs

end Cmicot
