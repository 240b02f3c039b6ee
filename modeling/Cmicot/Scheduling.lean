import Cmicot.Selection

/-!
The order in which the evaluations of a round are executed (`algorithm.h`, `selection.cpp`).

`ParallelMaxElementBy` starts one evaluation for every disabled bin; the threads may complete
them in any order, and all of them work on one scorer. The values are collected in the order
of the bins.

* `evaluate_eq_entry`: an evaluation reads and writes one entry of the cache.
* `evaluateEach_perm`: evaluations of different bins may be executed in any order.
* `fastFeatureSelection_schedule`: the emitted features do not depend on the order.
-/

namespace Cmicot

open Loop Greedy Search TCachingBinScorer

/-! ### Definitions -/

section Generic

variable {R : Type} [Field R] [LinearOrder R] [Log2 R]

/-- The loop body of `FastFeatureSelection` with the evaluations executed in the order that
`schedule` gives. The score of a bin is the one its own evaluation returned. -/
def scheduledRound (schedule : List ℕ → List ℕ) (features : TBinFeatureSet) (evalStepCount : ℤ)
    (st : FastSelection R) : Except Failure (ℕ × FastSelection R) := do
  let disabledBins := st.bg.disabledBinIndexes
  let order := schedule disabledBins
  let (results, binScorer) ← evaluateEach st.bg (stepCount st.bg evalStepCount) order st.binScorer
  let values := disabledBins.map fun b => ((results[order.idxOf b]?).map TBinScore.score).getD 0
  let best ← extremeElementBy (· > ·) .ok values
  let bestBin ← verified disabledBins best
  let (bestFeature, bg) ← selectBin features st.bg bestBin
  return (bestFeature, ⟨bg, binScorer⟩)

variable (R) in
/-- `FastFeatureSelection` with the evaluations of every round executed in the order that
`schedule` gives; no two rounds of a run have the same disabled bins. -/
def scheduledSelection (schedule : List ℕ → List ℕ) (label features : TBinFeatureSet)
    (evalStepCount featureCount : ℤ) : Emitted Failure ℕ :=
  match selectFirst R label features with
  | .error e => ⟨[], some e⟩
  | .ok (bestFeature, bg) =>
    let featuresToSelectCount := min featureCount features.getFeatureCount - 1
    (emitLoop (scheduledRound schedule features evalStepCount) featuresToSelectCount.toNat
      ⟨bg, ofLabel (R := R) label features.getBinCount⟩).cons bestFeature

/-- An evaluation as a function of the entry it finds in the cache. -/
def evaluateEntry (label : TBinFeatureSet) (labelEntropy : R) (entry : Except Failure (TBinScore R))
    (background : TBackground) (evalBinIndex stepCount : ℤ) : Except Failure (TBinScore R) := do
  let binsToProcess := background.lastEnabled
  let background ← background.setBinEnabled evalBinIndex true
  if (← background.enabledBins).length < stepCount + 1 then throw (.notEnoughBins (stepCount + 1))
  if evalBinIndex < 0 ∨ background.getBinCount ≤ evalBinIndex then
    throw (.evalIndex evalBinIndex background.getBinCount)
  let entry ← entry
  if stepCount - 1 < 0 then throw .lengthError
  let maxSteps := resize entry.maximizingSteps (stepCount - 1).toNat noMaximizer
  let minSteps := resize entry.minimizingSteps stepCount.toNat noMinimizer
  let maximized ← maximize label background evalBinIndex (stepCount - 1).toNat maxSteps minSteps binsToProcess
  let binsToProcess ← maximized.binsToProcess.setBinEnabled evalBinIndex false
  let background ← background.setBinEnabled evalBinIndex false
  let minimized ← minimize label background evalBinIndex stepCount.toNat maximized.maxSteps
    maximized.minSteps binsToProcess
  let value ← minimized.minimizerCmi.getValue
  return ⟨value / labelEntropy, maximized.maxSteps, minimized.minSteps⟩

end Generic

/-! ### An evaluation touches one entry -/

section Frame

variable {R : Type} [Field R] [LinearOrder R] [Log2 R]

/-- **The frame of an evaluation**: it is a function of its own cache entry and writes no
other one. -/
theorem evaluate_eq_entry (scorer : TCachingBinScorer R) (bg : TBackground) (e s : ℤ) :
    scorer.evaluate bg e s =
      (evaluateEntry scorer.label scorer.labelEntropy (scorer.cached e) bg e s >>= fun result =>
        .ok (result, { scorer with cache := scorer.cache.set e.toNat result })) := by
  unfold evaluate evaluateEntry
  simp only [bind_assoc]
  refine bind_congr fun background => bind_congr fun enabled => ?_
  split
  · rfl
  split
  · rfl
  simp only [bind_assoc]
  refine bind_congr fun entry => ?_
  split
  · rfl
  simp only [bind_assoc, pure_bind]
  rfl

/-- What the evaluation of a bin comes to on this cache. -/
def outcome (scorer : TCachingBinScorer R) (bg : TBackground) (s : ℤ) (b : ℕ) : Except Failure (TBinScore R) :=
  evaluateEntry scorer.label scorer.labelEntropy (scorer.cached b) bg b s

variable {scorer : TCachingBinScorer R} {bg : TBackground} {s : ℤ} {b c : ℕ} {xs ys : List ℕ}

theorem evaluate_eq_outcome : scorer.evaluate bg b s =
    (outcome scorer bg s b >>= fun result =>
      .ok (result, { scorer with cache := scorer.cache.set b result })) :=
  evaluate_eq_entry scorer bg b s

/-- Writing the entry of a bin does not change what another one comes to. -/
theorem outcome_set (other : c ≠ b) (result : TBinScore R) :
    outcome { scorer with cache := scorer.cache.set b result } bg s c = outcome scorer bg s c := by
  have same : cached { scorer with cache := scorer.cache.set b result } (c : ℤ) = scorer.cached c := by
    simp only [cached, Int.toNat_natCast, List.getElem?_set_ne other.symm]
  rw [outcome, same]
  rfl

/-- The cache with new entries for some bins. -/
def rewritten (cache : List (TBinScore R)) (xs : List ℕ) (r : ℕ → TBinScore R) : List (TBinScore R) :=
  cache.mapIdx fun i old => if i ∈ xs then r i else old

omit [Field R] [LinearOrder R] [Log2 R] in
theorem rewritten_nil {cache : List (TBinScore R)} {r : ℕ → TBinScore R} : rewritten cache [] r = cache := by
  apply List.ext_getElem <;> simp [rewritten]

omit [Field R] [LinearOrder R] [Log2 R] in
theorem rewritten_set {cache : List (TBinScore R)} {r : ℕ → TBinScore R} :
    rewritten (cache.set b (r b)) xs r = rewritten cache (b :: xs) r := by
  apply List.ext_getElem
  · simp [rewritten]
  · intro i h h'
    simp only [rewritten, List.getElem_mapIdx, List.getElem_set, List.mem_cons]
    by_cases here : b = i
    · subst here
      simp
    · simp [here, Ne.symm here]

/-- Evaluations of different bins that all return: every bin gets what it comes to on the
cache before the first of them. -/
theorem evaluateEach_of_ok {r : ℕ → TBinScore R} (nodup : xs.Nodup)
    (all : ∀ b ∈ xs, outcome scorer bg s b = .ok (r b)) :
    evaluateEach bg s xs scorer = .ok (xs.map r, { scorer with cache := rewritten scorer.cache xs r }) := by
  induction xs generalizing scorer with
  | nil => simp [evaluateEach, rewritten_nil]
  | cons b xs ih =>
    obtain ⟨fresh, nodup⟩ := List.nodup_cons.mp nodup
    have later : ∀ c ∈ xs, outcome { scorer with cache := scorer.cache.set b (r b) } bg s c = .ok (r c) := by
      intro c mem
      rw [outcome_set (fun same : c = b => fresh (same ▸ mem))]
      exact all c (List.mem_cons_of_mem _ mem)
    have rest := ih nodup later
    rw [rewritten_set] at rest
    simp only [evaluateEach, evaluate_eq_outcome, all b List.mem_cons_self, ok_bind, rest, pure_eq_ok, List.map_cons]

/-- One evaluation that fails stops the round. -/
theorem evaluateEach_of_error (nodup : xs.Nodup) (mem : b ∈ xs) {e : Failure}
    (failed : outcome scorer bg s b = .error e) : ∃ e', evaluateEach bg s xs scorer = .error e' := by
  induction xs generalizing scorer with
  | nil => exact absurd mem List.not_mem_nil
  | cons c xs ih =>
    obtain ⟨fresh, nodup⟩ := List.nodup_cons.mp nodup
    cases first : outcome scorer bg s c with
    | error e' => exact ⟨e', by simp only [evaluateEach, evaluate_eq_outcome, first, error_bind]⟩
    | ok result =>
      rcases List.mem_cons.mp mem with rfl | mem
      · rw [failed] at first
        cases first
      · have later : outcome { scorer with cache := scorer.cache.set c result } bg s b = .error e :=
          (outcome_set (fun same : b = c => fresh (same ▸ mem)) result).trans failed
        obtain ⟨e', stopped⟩ := ih nodup mem later
        exact ⟨e', by simp only [evaluateEach, evaluate_eq_outcome, first, ok_bind, stopped, error_bind]⟩

/-- Both executions fail, or both leave the same scorer and the same result for every bin. -/
def SameResults (xs ys : List ℕ) (x y : Except Failure (List (TBinScore R) × TCachingBinScorer R)) : Prop :=
  (∃ r scorer, x = .ok (xs.map r, scorer) ∧ y = .ok (ys.map r, scorer)) ∨
    ∃ e e', x = .error e ∧ y = .error e'

/-- **Evaluations of different bins may be executed in any order.** -/
theorem evaluateEach_perm (scorer : TCachingBinScorer R) (bg : TBackground) (s : ℤ) (nodup : xs.Nodup)
    (perm : xs.Perm ys) : SameResults xs ys (evaluateEach bg s xs scorer) (evaluateEach bg s ys scorer) := by
  by_cases fails : ∃ b ∈ xs, ∃ e, outcome scorer bg s b = .error e
  · obtain ⟨b, mem, e, failed⟩ := fails
    obtain ⟨e₁, stopped⟩ := evaluateEach_of_error nodup mem failed
    obtain ⟨e₂, stopped'⟩ := evaluateEach_of_error (perm.nodup_iff.mp nodup) (perm.mem_iff.mp mem) failed
    exact .inr ⟨e₁, e₂, stopped, stopped'⟩
  · have returns : ∀ b ∈ xs, ∃ result, outcome scorer bg s b = .ok result := by
      intro b mem
      cases came : outcome scorer bg s b with
      | ok result => exact ⟨result, rfl⟩
      | error e => exact absurd ⟨b, mem, e, came⟩ fails
    have : Nonempty (TBinScore R) := ⟨⟨0, [], []⟩⟩
    choose! r all using returns
    have same : rewritten scorer.cache ys r = rewritten scorer.cache xs r := by
      simp only [rewritten, perm.mem_iff]
    refine .inl ⟨r, _, evaluateEach_of_ok nodup all, ?_⟩
    rw [← same]
    exact evaluateEach_of_ok (perm.nodup_iff.mp nodup) fun b mem => all b (perm.mem_iff.mpr mem)

end Frame

/-! ### Rounds and runs -/

section Runs

variable {label features : TBinFeatureSet} {t : ℤ} {st : FastSelection ℝ} {schedule : List ℕ → List ℕ}

theorem disabledBinIndexes_nodup (bg : TBackground) : bg.disabledBinIndexes.Nodup :=
  TBackground.disabledBinIndexes_sorted.imp fun lt => Nat.ne_of_lt lt

/-- The scores are collected in the order of the bins. -/
theorem collected {order bins : List ℕ} (perm : order.Perm bins) (r : ℕ → TBinScore ℝ) :
    (bins.map fun b => (((order.map r)[order.idxOf b]?).map TBinScore.score).getD 0) =
      bins.map fun b => (r b).score := by
  refine List.map_congr_left fun b mem => ?_
  have listed := perm.mem_iff.mpr mem
  rw [List.getElem?_map, List.getElem?_idxOf listed]
  rfl

/-- **A round does not depend on the order**: it fails, or it returns what the round that
executes the evaluations one after another returns. -/
theorem scheduledRound_eq (perm : ∀ bins, (schedule bins).Perm bins) (features : TBinFeatureSet) (t : ℤ)
    (st : FastSelection ℝ) :
    scheduledRound schedule features t st = fastRound features t st ∨
      ∃ e e', scheduledRound schedule features t st = .error e ∧ fastRound features t st = .error e' := by
  have same := evaluateEach_perm st.binScorer st.bg (stepCount st.bg t) (disabledBinIndexes_nodup st.bg)
    (perm st.bg.disabledBinIndexes).symm
  rcases same with ⟨r, scorer, inOrder, scheduled⟩ | ⟨e, e', inOrder, scheduled⟩
  · refine .inl ?_
    simp only [scheduledRound, fastRound, inOrder, scheduled, ok_bind, collected (perm _), List.map_map,
      Function.comp_def]
  · exact .inr ⟨e', e, by simp only [scheduledRound, scheduled, error_bind],
      by simp only [fastRound, inOrder, error_bind]⟩

/-- **What a round selects**: the lowest bin among those with the greatest score. -/
theorem scheduledRound_selects (perm : ∀ bins, (schedule bins).Perm bins) {f : ℕ} {next : FastSelection ℝ}
    (ran : scheduledRound schedule features t st = .ok (f, next)) :
    ∃ r b, evaluateEach st.bg (stepCount st.bg t) (schedule st.bg.disabledBinIndexes) st.binScorer =
        .ok ((schedule st.bg.disabledBinIndexes).map r, next.binScorer) ∧
      Best (· > ·) (fun b => (r b).score) st.bg.disabledBinIndexes b ∧
      features.getFeatureIndexByBinIndex b = .ok f := by
  have order := perm st.bg.disabledBinIndexes
  rcases evaluateEach_perm st.binScorer st.bg (stepCount st.bg t)
    (order.nodup_iff.mpr (disabledBinIndexes_nodup st.bg)) (.refl _) with ⟨r, scorer, returned, -⟩ | ⟨e, -, failed, -⟩
  case inr => simp only [scheduledRound, failed, error_bind, reduceCtorEq] at ran
  simp only [scheduledRound, returned, ok_bind, collected order] at ran
  obtain ⟨best, scanned, rest⟩ := bind_eq_ok.mp ran
  obtain ⟨b, found, rest⟩ := bind_eq_ok.mp rest
  obtain ⟨⟨f', bg'⟩, selected, last⟩ := bind_eq_ok.mp rest
  cases last
  obtain ⟨_, owner, rest⟩ := bind_eq_ok.mp selected
  obtain ⟨_, -, last⟩ := bind_eq_ok.mp rest
  cases last
  refine ⟨r, b, returned, ?_, owner⟩
  obtain ⟨pos, scanned', at_pos⟩ := extremeElementBy_ok (p := (· > ·)) (g := fun b => .ok (r b).score)
    (f := fun b => (r b).score) (l := st.bg.disabledBinIndexes) fun _ _ => rfl
  rw [← extremeElementBy_map (f := fun b => (r b).score) fun _ _ => rfl, scanned, Except.ok.injEq] at scanned'
  subst scanned'
  refine pick_best TBackground.disabledBinIndexes_sorted (at_pos.symm.trans ?_)
  unfold verified at found
  split at found
  case h_1 b' at_best =>
    cases found
    exact at_best
  case h_2 => cases found

/-- Every schedule emits what the evaluations executed one after another emit. -/
theorem scheduledSelection_eq (perm : ∀ bins, (schedule bins).Perm bins) (label features : TBinFeatureSet)
    (t featureCount : ℤ) :
    (scheduledSelection ℝ schedule label features t featureCount).items =
        (fastFeatureSelection ℝ label features t featureCount).items ∧
      (scheduledSelection ℝ schedule label features t featureCount).stopped.isSome =
        (fastFeatureSelection ℝ label features t featureCount).stopped.isSome := by
  unfold scheduledSelection fastFeatureSelection
  cases selectFirst ℝ label features with
  | error e => exact ⟨rfl, rfl⟩
  | ok first =>
    obtain ⟨items, stopped⟩ := emitLoop_rel (R := Eq) (S := fun _ _ => True)
      (g := scheduledRound schedule features t) (h := fastRound features t)
      (fun st st' same => by
        subst same
        rcases scheduledRound_eq perm features t st with eq | ⟨e, e', stopped, stopped'⟩
        · rw [eq]
          cases fastRound features t st with
          | ok next => exact .inl ⟨next.1, next.2, next.2, rfl, rfl, rfl⟩
          | error e => exact .inr ⟨e, e, rfl, rfl, trivial⟩
        · exact .inr ⟨e, e', stopped, stopped', trivial⟩)
      (min featureCount features.getFeatureCount - 1).toNat
      ⟨first.2, ofLabel label features.getBinCount⟩ _ rfl
    have isSome : ∀ {a b : Option Failure}, Option.Rel (fun _ _ => True) a b → a.isSome = b.isSome := by
      rintro _ _ (_ | _) <;> rfl
    exact ⟨congrArg (first.1 :: ·) items, isSome stopped⟩

/-- **Thread scheduling does not matter.** Whatever the cache and the background, two orders of
the evaluations of a round leave the same scores and the same cache, or both fail; the bin
selected is the lowest one with the greatest score; and the runs emit the same features. -/
theorem fastFeatureSelection_schedule {schedule' : List ℕ → List ℕ} (perm : ∀ bins, (schedule bins).Perm bins)
    (perm' : ∀ bins, (schedule' bins).Perm bins) (label features : TBinFeatureSet) (t featureCount : ℤ) :
    (∀ (scorer : TCachingBinScorer ℝ) (bg : TBackground),
        SameResults (schedule bg.disabledBinIndexes) (schedule' bg.disabledBinIndexes)
          (evaluateEach bg (stepCount bg t) (schedule bg.disabledBinIndexes) scorer)
          (evaluateEach bg (stepCount bg t) (schedule' bg.disabledBinIndexes) scorer)) ∧
      (∀ (st next : FastSelection ℝ) (f : ℕ), scheduledRound schedule features t st = .ok (f, next) →
        scheduledRound schedule' features t st = .ok (f, next) ∧
          ∃ r b, evaluateEach st.bg (stepCount st.bg t) (schedule st.bg.disabledBinIndexes) st.binScorer =
              .ok ((schedule st.bg.disabledBinIndexes).map r, next.binScorer) ∧
            Best (· > ·) (fun b => (r b).score) st.bg.disabledBinIndexes b ∧
            features.getFeatureIndexByBinIndex b = .ok f) ∧
      (scheduledSelection ℝ schedule label features t featureCount).items =
        (scheduledSelection ℝ schedule' label features t featureCount).items ∧
      (scheduledSelection ℝ schedule label features t featureCount).stopped.isSome =
        (scheduledSelection ℝ schedule' label features t featureCount).stopped.isSome := by
  obtain ⟨items, stopped⟩ := scheduledSelection_eq perm label features t featureCount
  obtain ⟨items', stopped'⟩ := scheduledSelection_eq perm' label features t featureCount
  refine ⟨fun scorer bg => ?_, fun st next f ran => ⟨?_, scheduledRound_selects perm ran⟩,
    items.trans items'.symm, stopped.trans stopped'.symm⟩
  · have order := perm bg.disabledBinIndexes
    exact evaluateEach_perm scorer bg _ (order.nodup_iff.mpr (disabledBinIndexes_nodup bg))
      (order.trans (perm' bg.disabledBinIndexes).symm)
  · have sequential : fastRound features t st = .ok (f, next) := by
      rcases scheduledRound_eq perm features t st with eq | ⟨e, -, stopped, -⟩
      · exact eq.symm.trans ran
      · rw [stopped] at ran
        cases ran
    rcases scheduledRound_eq perm' features t st with eq | ⟨-, e, -, stopped⟩
    · exact eq.trans sequential
    · rw [stopped] at sequential
      cases sequential

/-- Evaluations in descending order, and from the third disabled bin on. -/
theorem fastFeatureSelection_schedule_sixRows :
    (scheduledSelection ℝ List.reverse sixLabel sixFeatures 2 4).items =
      (scheduledSelection ℝ (List.rotate · 2) sixLabel sixFeatures 2 4).items :=
  (fastFeatureSelection_schedule List.reverse_perm (fun bins => List.rotate_perm bins 2) _ _ 2 4).2.2.1

end Runs

end Cmicot
