import Cmicot.ScoreLaws
import Cmicot.Selection

/-!
Rounds with as many steps as enabled bins.

The number of enabled bins grows from round to round, so a round whose steps fit the calculator
comes after rounds whose steps fit it, too, and its cache is the one of the search. When a round
has as many steps as enabled bins, its repaired conditions are all of these bins, whichever
steps were recorded before.

* `exhaustive_steps`: the reference scorer and the cached one both give the information about the
  label under all enabled bins.
-/

namespace Cmicot

open Loop Greedy Search TCachingBinScorer

/-! ### Enabled bins only grow -/

section Growth

variable {features : TBinFeatureSet} {t : ℤ} {bg bg' : TBackground} {st st' : FastSelection ℝ} {f : ℕ}

theorem TBackground.setFeatureEnabled_grows (set : bg.setFeatureEnabled f true = .ok bg') :
    bg.enabledBinIndexes.length ≤ bg'.enabledBinIndexes.length := by
  have inside : f < bg.getFeatureCount := by
    by_contra outside
    rw [setFeatureEnabled, if_neg outside] at set
    cases set
  obtain ⟨on, set', same, enabled, -⟩ := setFeatureEnabled_ok inside true
  obtain rfl := Except.ok.inj (set.symm.trans set')
  refine (List.subperm_of_subset enabledBinIndexes_sorted.nodup fun b mem => ?_).length_le
  have on := mem_enabledBinIndexes.mp mem
  refine mem_enabledBinIndexes.mpr ?_
  rw [enabled b (lt_of_enabled on), on]
  exact ite_self true

theorem selectBin_grows {b g : ℕ} (selected : selectBin features bg b = .ok (g, bg')) :
    bg.enabledBinIndexes.length ≤ bg'.enabledBinIndexes.length := by
  obtain ⟨f, -, rest⟩ := bind_eq_ok.mp selected
  obtain ⟨bg'', set, same⟩ := bind_eq_ok.mp rest
  cases same
  exact TBackground.setFeatureEnabled_grows set

theorem fastRound_grows (ran : fastRound features t st = .ok (f, st')) :
    st.bg.enabledBinIndexes.length ≤ st'.bg.enabledBinIndexes.length := by
  obtain ⟨⟨results, binScorer⟩, -, rest⟩ := bind_eq_ok.mp ran
  obtain ⟨best, -, rest⟩ := bind_eq_ok.mp rest
  obtain ⟨bestBin, -, rest⟩ := bind_eq_ok.mp rest
  obtain ⟨⟨f', bg⟩, selected, last⟩ := bind_eq_ok.mp rest
  cases last
  exact selectBin_grows selected

theorem plainRound_grows {label : TBinFeatureSet} (ran : plainRound ℝ label features t bg = .ok (f, bg')) :
    bg.enabledBinIndexes.length ≤ bg'.enabledBinIndexes.length := by
  obtain ⟨best, -, rest⟩ := bind_eq_ok.mp ran
  obtain ⟨bestBin, -, selected⟩ := bind_eq_ok.mp rest
  exact selectBin_grows selected

end Growth

/-! ### Rounds whose steps fit -/

section Rounds

variable {label features : TBinFeatureSet} {n : ℕ} {start st : FastSelection ℝ}

/-- The loop follows the search up to a state whose enabled bins fit the calculator twice. -/
theorem exists_follows {t : ℕ} {first : State ℝ} (pool : Pool label features n) (pos : 0 < t)
    (started : Follows label features start first ∧ (problem label features n).Inv t first) {k : ℕ}
    (reached : stateAfter (fastRound features t) k start = .ok st)
    (few : label.bins.length + 2 * st.bg.enabledBinIndexes.length ≤ 62) :
    ∃ search, Follows label features st search ∧ (problem label features n).Inv t search := by
  induction k generalizing st with
  | zero =>
    cases reached
    exact ⟨first, started⟩
  | succ k ih =>
    obtain ⟨mid, f, before, ran⟩ := stateAfter_succ.mp reached
    have grows := fastRound_grows ran
    obtain ⟨search, follows, inv⟩ := ih before (by omega)
    have steps : (problem label features n).stepCount t search.chosen ≤ mid.bg.enabledBinIndexes.length := by
      rw [follows.shown.enabledBinIndexes label n]
      exact min_le_left ..
    rcases follows.round pool inv pos (by omega) with ⟨g, st', search', ran', -, follows', inv'⟩ | ⟨failed, -⟩
    · obtain ⟨-, rfl⟩ := Prod.mk.inj (Except.ok.inj (ran.symm.trans ran'))
      exact ⟨search', follows', inv'⟩
    · rw [ran] at failed
      cases failed

/-- **A cached evaluation with as many steps as enabled bins.** -/
theorem Follows.evaluateEach_exhaustive {t : ℕ} {search : State ℝ} {calls : List ℕ}
    (follows : Follows label features st search) (inv : (problem label features n).Inv t search)
    (pool : Pool label features n) (pos : 0 < t) (all : stepCount st.bg t = st.bg.enabledBinIndexes.length)
    (few : label.bins.length + 2 * st.bg.enabledBinIndexes.length ≤ 62) (nodup : calls.Nodup)
    (disabled : ∀ b ∈ calls, b ∈ st.bg.disabledBinIndexes) :
    ∃ results binScorer,
      TCachingBinScorer.evaluateEach st.bg (stepCount st.bg t) calls st.binScorer = .ok (results, binScorer) ∧
      results.map TBinScore.score = calls.map fun e =>
        cmiAt label features n [e] st.bg.enabledBinIndexes / entropy label.allBins := by
  set P := problem label features n with hP
  have enabled := follows.shown.enabledBinIndexes label n
  rw [← hP] at enabled
  have count : P.stepCount t search.chosen = (P.enabledBins search.chosen).length := by
    rw [stepCount_eq label n follows.shown, enabled] at all
    exact_mod_cast all
  have off : ∀ b ∈ calls, b < features.getBinCount ∧ features.owner b ∉ search.chosen := fun b mem =>
    Problem.mem_disabledBins.mp (follows.shown.disabledBinIndexes label n ▸ disabled b mem)
  obtain ⟨prev, f, concat⟩ := inv.concat
  obtain ⟨binScorer, ran, -⟩ := evaluateEach_ok st.binScorer (fun e => search.cache.getD e .empty) calls pool
    follows.labelled follows.shown (by simp [concat]) (stepCount_pos inv pos) (by rw [count, ← enabled]; exact few)
    nodup fun b mem => (follows.awaits inv (off b mem).1 (off b mem).2).2
  rw [← stepCount_eq label n follows.shown, follows.labelEntropy] at ran
  refine ⟨_, binScorer, ran, ?_⟩
  rw [List.map_map]
  refine List.map_congr_left fun e mem => ?_
  obtain ⟨valid, -, length⟩ := repair_valid P.cmi e (follows.awaits inv (off e mem).1 (off e mem).2).2.ready
  have exhaustive : value (cmiAt label features n) e
      (P.repaired search.chosen e (P.stepCount t search.chosen) (search.cache.getD e .empty)) =
        cmiAt label features n [e] (P.enabledBins search.chosen) :=
    value_exhaustive valid (length.trans count).ge fun b known => by
      obtain ⟨inside, rfl | on⟩ := Problem.mem_helperPool.mp known
      · exact .inl rfl
      · exact .inr (Problem.mem_enabledBins.mpr ⟨inside, on⟩)
  rw [enabled, ← exhaustive]
  rfl

/-- **Exhaustive steps give the exact conditional information**, to the reference scorer on every
background, and to the cached one in every round of `FastFeatureSelection`, for any bins in any order. -/
theorem exhaustive_steps (pool : Pool label features n) :
    (∀ (bg : TBackground) (e : ℕ), bg.features = features → e < bg.getBinCount →
      (∀ b, bg.enabled b = true → bg.features.owner b ≠ bg.features.owner e) → 0 < bg.enabledBinIndexes.length →
      label.bins.length + 2 * bg.enabledBinIndexes.length ≤ 62 →
      ∃ result, buildBinScorerForEval label ((bg.enabledBinIndexes.length : ℤ) - 1) bg.enabledBinIndexes.length bg
          (e : ℤ) = .ok result ∧
        result.score = cmiAt label features n [e] bg.enabledBinIndexes) ∧
    ∀ (t : ℤ) (k f : ℕ) (bg : TBackground) (st : FastSelection ℝ) (calls : List ℕ),
      selectFirst ℝ label features = .ok (f, bg) →
      stateAfter (fastRound features t) k ⟨bg, ofLabel label features.getBinCount⟩ = .ok st →
      stepCount st.bg t = st.bg.enabledBinIndexes.length →
      label.bins.length + 2 * st.bg.enabledBinIndexes.length ≤ 62 → calls.Nodup →
      (∀ b ∈ calls, b ∈ st.bg.disabledBinIndexes) →
      ∃ results binScorer, evaluateEach st.bg (stepCount st.bg t) calls st.binScorer = .ok (results, binScorer) ∧
        results.map TBinScore.score = calls.map fun e =>
          cmiAt label features n [e] st.bg.enabledBinIndexes / entropy label.allBins := by
  refine ⟨fun bg e same h disabled pos few => ?_, fun t k f bg st calls selected reached all few nodup disabled => ?_⟩
  · subst same
    exact score_exhaustive pool h disabled pos few
  have short : label.bins.length ≤ 62 := by omega
  cases first : (problem label features n).firstFeature with
  | none =>
    rw [selectFirst_error pool short first] at selected
    cases selected
  | some g =>
    obtain ⟨bg', selected', shown, owned⟩ := selectFirst_ok pool short first
    obtain ⟨rfl, rfl⟩ := Prod.mk.inj (Except.ok.inj (selected.symm.trans selected'))
    have some : 0 < bg.enabledBinIndexes.length := by
      rw [shown.enabledBinIndexes label n]
      obtain ⟨b, mem⟩ := List.exists_mem_of_ne_nil _ owned
      obtain ⟨inside, owner⟩ := Problem.mem_ownedBins.mp mem
      exact List.length_pos_of_mem (Problem.mem_enabledBins.mpr ⟨inside, by simp [owner]⟩)
    have someLater : 0 < st.bg.enabledBinIndexes.length :=
      stateAfter_inv (P := fun st : FastSelection ℝ => 0 < st.bg.enabledBinIndexes.length)
        (fun st b st' some ran => some.trans_le (fastRound_grows ran)) some reached
    have asked : 0 < t := by
      unfold stepCount at all
      omega
    obtain ⟨t, rfl⟩ := Int.eq_ofNat_of_zero_le asked.le
    have pos : 0 < t := by exact_mod_cast asked
    obtain ⟨search, follows, inv⟩ := exists_follows pool pos ⟨start_follows shown, Problem.start_inv owned⟩ reached few
    exact follows.evaluateEach_exhaustive inv pool pos all few nodup disabled

/-- Another label over six rows. -/
def middleLabel : TBinFeatureSet := .ofBins [[false, true, true, true, true, false]]

/-- The round after the first two features of four, with two steps: the reference scorer on a bin,
and the cached one on all disabled bins in some order. -/
theorem exhaustive_steps_sixRows :
    ∃ (bg : TBackground) (st : FastSelection ℝ) (result : TBinScore ℝ) (results : List (TBinScore ℝ))
      (binScorer : TCachingBinScorer ℝ),
      selectFirst ℝ middleLabel sixFeatures = .ok (1, bg) ∧
      stateAfter (fastRound sixFeatures 2) 1 ⟨bg, ofLabel middleLabel 5⟩ = .ok st ∧
      buildBinScorerForEval middleLabel 1 2 st.bg 0 = .ok result ∧
      result.score = cmiAt middleLabel sixFeatures 6 [0] [1, 4] ∧
      evaluateEach st.bg (stepCount st.bg 2) [3, 0, 2] st.binScorer = .ok (results, binScorer) ∧
      results.map TBinScore.score =
        [3, 0, 2].map fun e => cmiAt middleLabel sixFeatures 6 [e] [1, 4] / entropy middleLabel.allBins := by
  have pool : Pool middleLabel sixFeatures 6 := ⟨by decide, by decide, by decide, by decide⟩
  set P := problem middleLabel sixFeatures 6
  set E := exactProblem middleLabel sixFeatures 6
  have same : E.map (bits 6) = P := exactProblem_map (by decide) middleLabel sixFeatures
  have mono : StrictMono (bits 6) := bits_strictMono (by decide)
  have first : P.firstFeature = some 1 := by
    rw [firstFeature_exact (by decide)]
    decide +kernel
  obtain ⟨bg, selected, shown, owned⟩ := selectFirst_ok pool (by decide) first
  -- the round that chooses feature 3, as it runs in the code and with exact values
  obtain ⟨st, ran, shown'⟩ : ∃ st, fastRound sixFeatures 2 ⟨bg, ofLabel middleLabel 5⟩ = .ok (3, st) ∧
      st.bg.Shows sixFeatures [1, 3] := by
    have exact : ((E.fastRound 2 (E.start 1)).map fun next => (next.1, next.2.chosen)) = .ok (3, [1, 3]) := by
      decide +kernel
    have mapped := Problem.fastRound_map (P := E) (t := 2) mono (E.start 1)
    rw [← Problem.start_map, same] at mapped
    rcases (start_follows shown).round pool (Problem.start_inv owned) (t := 2) (by decide) (by decide) with
      ⟨f, st, search, ran, chosen, follows, -⟩ | ⟨-, failed⟩
    · rcases mapped with ⟨g, _, next, found, found', rfl⟩ | ⟨_, _, none, -⟩
      · obtain ⟨rfl, rfl⟩ := Prod.mk.inj (Except.ok.inj (chosen.symm.trans found))
        rw [found'] at exact
        obtain ⟨rfl, features⟩ := Prod.mk.inj (Except.ok.inj exact)
        exact ⟨st, ran, features ▸ follows.shown⟩
      · cases chosen.symm.trans none
    · rcases mapped with ⟨_, _, _, found, -⟩ | ⟨_, _, -, none, -⟩
      · cases failed.symm.trans found
      · rw [none] at exact
        cases exact
  have enabled : st.bg.enabledBinIndexes = [1, 4] := (shown'.enabledBinIndexes middleLabel 6).trans (by decide)
  have disabled : st.bg.disabledBinIndexes = [0, 2, 3] := (shown'.disabledBinIndexes middleLabel 6).trans (by decide)
  obtain ⟨reference, cached⟩ := exhaustive_steps pool
  obtain ⟨result, built, score⟩ := reference st.bg 0 shown'.features
    (by rw [TBackground.getBinCount, shown'.features]; decide)
    (fun b on same => by
      have mem := TBackground.mem_enabledBinIndexes.mpr on
      rw [enabled] at mem
      rw [shown'.features] at same
      exact absurd same ((by decide : ∀ b ∈ [1, 4], sixFeatures.owner b ≠ sixFeatures.owner 0) b mem))
    (by rw [enabled]; decide) (by rw [enabled]; decide)
  have reached : stateAfter (fastRound sixFeatures 2) 1 ⟨bg, ofLabel middleLabel 5⟩ = .ok st :=
    stateAfter_succ.mpr ⟨_, 3, rfl, ran⟩
  obtain ⟨results, binScorer, evaluated, scores⟩ := cached 2 1 1 bg st [3, 0, 2] selected reached
    (by rw [stepCount, enabled]; rfl) (by rw [enabled]; decide) (by decide) (by rw [disabled]; decide)
  rw [enabled] at built score scores
  exact ⟨bg, st, result, results, binScorer, selected, reached, built, score, evaluated, scores⟩

end Rounds

end Cmicot
