import Cmicot.BinaryPool
import Cmicot.Exhaustive
import Cmicot.Scorers

/-!
The plain selection loop (`FeatureSelection` in `selection.cpp`), and what it shares with the fast one.

* `selection_exhaustive`: with as many steps as bins, both loops are the greedy search by exact
  conditional information.
* `featureSelection_byFeatureScore`: every round takes the feature that `GetFeatureScore` scores best.
* `selections_complete_iff`: both loops end normally on the same pools and emit the same features.
-/

namespace Cmicot

open Loop Greedy Search TCachingBinScorer

/-! ### Exact conditional information -/

/-- A round of the greedy search by exact information: the feature of the bin that says most about the
label under all bins of the chosen features. -/
noncomputable def exactRound (P : Problem ℝ) (chosen : List ℕ) : Except Unit (ℕ × List ℕ) :=
  match pick (· > ·) (fun e => P.cmi [e] (P.enabledBins chosen)) (P.disabledBins chosen) with
  | some b => .ok (P.owner b, chosen ++ [P.owner b])
  | none => .error ()

section Exhaustive

variable {label features : TBinFeatureSet} {n t : ℕ}

theorem enabledBins_le (label features : TBinFeatureSet) (n : ℕ) (chosen : List ℕ) :
    ((problem label features n).enabledBins chosen).length ≤ features.getBinCount :=
  (List.length_filter_le ..).trans List.length_range.le

theorem stepCount_exhaustive (steps : features.getBinCount ≤ t) (chosen : List ℕ) :
    (problem label features n).stepCount t chosen = ((problem label features n).enabledBins chosen).length :=
  Nat.min_eq_left ((enabledBins_le label features n chosen).trans steps)

/-- Steps that use all conditions leave the exact information. -/
theorem value_of_exhaustive {chosen : List ℕ} {e : ℕ} {entry : Entry ℝ}
    (valid : entry.Valid ((problem label features n).helperPool chosen e)
      ((problem label features n).enabledBins chosen))
    (all : entry.minSteps.length = ((problem label features n).enabledBins chosen).length) :
    value (cmiAt label features n) e entry =
      cmiAt label features n [e] ((problem label features n).enabledBins chosen) :=
  value_exhaustive valid all.ge fun b known => by
    obtain ⟨inside, rfl | on⟩ := Problem.mem_helperPool.mp known
    · exact .inl rfl
    · exact .inr (Problem.mem_enabledBins.mpr ⟨inside, on⟩)

/-- The plain search is the exact one. -/
theorem plainRound_exhaustive (steps : features.getBinCount ≤ t) :
    (problem label features n).plainRound t = exactRound (problem label features n) := by
  set P := problem label features n with hP
  funext chosen
  have best : P.plainBest t chosen =
      pick (· > ·) (fun e => P.cmi [e] (P.enabledBins chosen)) (P.disabledBins chosen) := by
    refine pick_congr fun e _ => ?_
    rw [stepCount_exhaustive steps]
    have helperRoom : (P.enabledBins chosen).length - 1 ≤ (P.helperPool chosen e).length :=
      (Nat.sub_le ..).trans (Problem.enabledBins_length_le P chosen e)
    exact value_of_exhaustive
      ⟨greedy_nodup Problem.helperPool_sorted helperRoom, greedy_subset Problem.helperPool_sorted helperRoom,
        greedy_nodup Problem.enabledBins_sorted le_rfl, greedy_subset Problem.enabledBins_sorted le_rfl⟩
      (greedy_length Problem.enabledBins_sorted le_rfl)
  cases found : pick (· > ·) (fun e => P.cmi [e] (P.enabledBins chosen)) (P.disabledBins chosen) with
  | none => simp only [Problem.plainRound, exactRound, best, found]
  | some bin => simp only [Problem.plainRound, exactRound, best, found]

/-- So is the fast one, whatever its cache. -/
theorem fastRound_exhaustive {search : State ℝ} (inv : (problem label features n).Inv t search)
    (steps : features.getBinCount ≤ t) :
    (problem label features n).fastRound t search = (exactRound (problem label features n) search.chosen).map
      fun next => (next.1, ⟨next.2, (problem label features n).refreshed t search⟩) := by
  set P := problem label features n with hP
  have best : P.fastBest t search =
      pick (· > ·) (fun e => P.cmi [e] (P.enabledBins search.chosen)) (P.disabledBins search.chosen) := by
    refine pick_congr fun e mem => ?_
    obtain ⟨inside, disabled⟩ := Problem.mem_disabledBins.mp mem
    have lt : e < search.cache.length := inv.size ▸ inside
    have cached := List.getElem?_eq_getElem lt
    obtain ⟨valid, -, length⟩ := repair_valid P.cmi e (inv.ready cached disabled)
    rw [List.getD_eq_getElem?_getD, Problem.getElem?_refreshed, cached, Option.map_some, if_neg disabled,
      Option.getD_some]
    exact value_of_exhaustive valid (length.trans (stepCount_exhaustive steps _))
  rw [Problem.fastRound, exactRound, best]
  cases pick (· > ·) (fun e => P.cmi [e] (P.enabledBins search.chosen)) (P.disabledBins search.chosen) <;> rfl

/-- The first feature is the first exact choice. -/
theorem exactRound_nil {f : ℕ} (first : (problem label features n).firstFeature = some f) :
    exactRound (problem label features n) [] = .ok (f, [f]) := by
  set P := problem label features n with hP
  have none : P.enabledBins [] = [] := by simp [Problem.enabledBins]
  have all : P.disabledBins [] = List.range P.binCount := by simp [Problem.disabledBins]
  obtain ⟨b, best, rfl⟩ := Option.map_eq_some_iff.mp first
  rw [exactRound, none, all, best]
  rfl

/-- Both loops after their first feature, next to the exact search. -/
theorem rounds_exhaustive {f : ℕ} (pool : Pool label features n) (pos : 0 < t) (steps : features.getBinCount ≤ t)
    (few : label.bins.length + 2 * features.getBinCount ≤ 62) {bg : TBackground} (shown : bg.Shows features [f])
    (owned : (problem label features n).ownedBins f ≠ []) (k : ℕ) :
    emitLoop (plainRound ℝ label features t) k bg =
        ⟨(emitLoop (exactRound (problem label features n)) k [f]).items,
          (emitLoop (exactRound (problem label features n)) k [f]).stopped.map fun _ => .emptyContainer⟩ ∧
      emitLoop (fastRound features t) k ⟨bg, ofLabel (R := ℝ) label features.getBinCount⟩ =
        ⟨(emitLoop (exactRound (problem label features n)) k [f]).items,
          (emitLoop (exactRound (problem label features n)) k [f]).stopped.map fun _ => .noCandidate⟩ := by
  set P := problem label features n with hP
  have fits (chosen : List ℕ) : label.bins.length + 2 * P.stepCount t chosen ≤ 62 := by
    have := enabledBins_le label features n chosen
    rw [stepCount_exhaustive steps]
    omega
  refine ⟨?_, ?_⟩
  · obtain ⟨items, stopped⟩ := emitLoop_rel (g := plainRound ℝ label features t) (h := exactRound P)
      (R := fun bg chosen => bg.Shows features chosen ∧ 0 < P.stepCount t chosen)
      (S := fun e _ => e = .emptyContainer)
      (fun bg chosen ⟨shown, step⟩ => by
        rw [← plainRound_exhaustive steps]
        rcases plainRound_follows pool shown step (fits chosen) with
          ⟨g, bg', ran, ran', shown'⟩ | ⟨failed, failed'⟩
        · exact .inl ⟨g, bg', _, ran, ran', shown',
            step.trans_le (Problem.stepCount_mono (List.subset_append_left ..))⟩
        · exact .inr ⟨_, _, failed, failed', rfl⟩)
      k bg [f] ⟨shown, stepCount_pos (Problem.start_inv owned) pos⟩
    rw [← items, ← stopped_eq stopped]
  · obtain ⟨items, stopped⟩ := emitLoop_rel (g := fastRound (R := ℝ) features t) (h := exactRound P)
      (R := fun st chosen => ∃ search, search.chosen = chosen ∧ Follows label features st search ∧ P.Inv t search)
      (S := fun e _ => e = .noCandidate)
      (by
        rintro st _ ⟨search, rfl, follows, inv⟩
        have exact := fastRound_exhaustive inv steps
        cases next : exactRound P search.chosen with
        | ok next =>
          rw [next] at exact
          rcases follows.round pool inv pos (fits _) with ⟨g, st', _, ran, ran', follows', inv'⟩ | ⟨-, failed⟩
          · obtain ⟨rfl, rfl⟩ := Prod.mk.inj (Except.ok.inj (ran'.symm.trans exact))
            exact .inl ⟨_, st', _, ran, rfl, _, rfl, follows', inv'⟩
          · cases failed.symm.trans exact
        | error why =>
          rw [next] at exact
          rcases follows.round pool inv pos (fits _) with ⟨g, st', _, ran, ran', -⟩ | ⟨failed, -⟩
          · cases ran'.symm.trans exact
          · exact .inr ⟨_, why, failed, rfl, rfl⟩)
      k ⟨bg, ofLabel label features.getBinCount⟩ [f] ⟨_, rfl, start_follows shown, Problem.start_inv owned⟩
    rw [← items, ← stopped_eq stopped]

/-- **With as many steps as bins**, both loops are the greedy search by exact conditional information,
so they agree on every pool. -/
theorem selection_exhaustive (pool : Pool label features n) (bins : 0 < features.getBinCount)
    (steps : features.getBinCount ≤ t) (few : label.bins.length + 2 * features.getBinCount ≤ 62) :
    featureSelection ℝ label features t =
        ⟨(emitLoop (exactRound (problem label features n)) features.getFeatureCount []).items,
          (emitLoop (exactRound (problem label features n)) features.getFeatureCount []).stopped.map
            fun _ => .emptyContainer⟩ ∧
      ∀ k : ℕ, 0 < k → fastFeatureSelection ℝ label features t k =
        ⟨(emitLoop (exactRound (problem label features n)) (min k features.getFeatureCount) []).items,
          (emitLoop (exactRound (problem label features n)) (min k features.getFeatureCount) []).stopped.map
            fun _ => .noCandidate⟩ := by
  obtain ⟨f, first, owned⟩ := exists_firstFeature label n bins
  obtain ⟨bg, selected, shown, -⟩ := selectFirst_ok pool (by omega) first
  have rounds := rounds_exhaustive pool (bins.trans_le steps) steps few shown owned
  have start (k : ℕ) : emitLoop (exactRound (problem label features n)) (k + 1) [] =
      (emitLoop (exactRound (problem label features n)) k [f]).cons f := by
    rw [emitLoop, exactRound_nil first]
  have some : 0 < features.getFeatureCount := Nat.zero_lt_of_lt (TBinFeatureSet.owner_lt bins)
  refine ⟨?_, fun k asked => ?_⟩
  · rw [featureSelection, selected, show features.getFeatureCount = features.getFeatureCount - 1 + 1 by omega, start]
    simp only [Nat.add_sub_cancel, (rounds _).1]
    rfl
  · have count : min k features.getFeatureCount = (min (k : ℤ) features.getFeatureCount - 1).toNat + 1 := by omega
    rw [fastFeatureSelection, selected, count, start]
    simp only [(rounds _).2]
    rfl

/-- Five bins, and as many steps. -/
theorem selection_exhaustive_sixRows :
    (featureSelection ℝ sixLabel sixFeatures 5).items =
        (emitLoop (exactRound (problem sixLabel sixFeatures 6)) 4 []).items ∧
      fastFeatureSelection ℝ sixLabel sixFeatures 5 3 =
        ⟨(emitLoop (exactRound (problem sixLabel sixFeatures 6)) 3 []).items,
          (emitLoop (exactRound (problem sixLabel sixFeatures 6)) 3 []).stopped.map fun _ => .noCandidate⟩ := by
  obtain ⟨plain, fast⟩ := selection_exhaustive (t := 5) sixPool (by decide) (by decide) (by decide)
  exact ⟨congrArg Emitted.items plain, fast 3 (by decide)⟩

end Exhaustive

/-! ### Rounds by the score of a feature -/

section Scored

variable {label features : TBinFeatureSet} {n t : ℕ} {bg : TBackground} {chosen : List ℕ}

/-- The features that have bins, all of them disabled. -/
def TBackground.candidates (bg : TBackground) : List ℕ :=
  (List.range bg.getFeatureCount).filter fun f => bg.ownBins f ≠ [] ∧ ∀ b ∈ bg.ownBins f, bg.enabled b = false

/-- The bins of a candidate are the disabled bins it owns. -/
theorem TBackground.Shows.mem_ownBins (shown : bg.Shows features chosen) (label : TBinFeatureSet) (n : ℕ) {f b : ℕ}
    (candidate : f ∈ bg.candidates) :
    b ∈ bg.ownBins f ↔ b ∈ (problem label features n).disabledBins chosen ∧ features.owner b = f := by
  obtain ⟨inside, -, off⟩ := by simpa [candidates] using candidate
  rw [TBackground.mem_ownBins inside, Problem.mem_disabledBins]
  obtain rfl := shown.features
  constructor
  · rintro ⟨lt, owner⟩
    have disabled := off b ((TBackground.mem_ownBins inside).mpr ⟨lt, owner⟩)
    rw [shown.enabled b lt, decide_eq_false_iff_not] at disabled
    exact ⟨⟨lt, disabled⟩, owner⟩
  · exact fun ⟨⟨lt, _⟩, owner⟩ => ⟨lt, owner⟩

theorem TBackground.Shows.mem_candidates (shown : bg.Shows features chosen) (label : TBinFeatureSet) (n : ℕ) {f : ℕ} :
    f ∈ bg.candidates ↔ ∃ b ∈ (problem label features n).disabledBins chosen, features.owner b = f := by
  constructor
  · intro candidate
    have nonempty : bg.ownBins f ≠ [] := by
      have := (List.mem_filter.mp candidate).2
      simp only [decide_eq_true_eq] at this
      exact this.1
    obtain ⟨b, mem⟩ := List.exists_mem_of_ne_nil _ nonempty
    exact ⟨b, (shown.mem_ownBins label n candidate).mp mem⟩
  · rintro ⟨b, mem, rfl⟩
    obtain ⟨lt, disabled⟩ := Problem.mem_disabledBins.mp mem
    obtain rfl := shown.features
    have inside : bg.features.owner b < bg.getFeatureCount := TBinFeatureSet.owner_lt lt
    refine List.mem_filter.mpr ⟨List.mem_range.mpr inside, ?_⟩
    simp only [decide_eq_true_eq]
    refine ⟨List.ne_nil_of_mem ((TBackground.mem_ownBins inside).mpr ⟨lt, rfl⟩), fun c own => ?_⟩
    obtain ⟨lt', owner⟩ := (TBackground.mem_ownBins inside).mp own
    rw [shown.enabled c lt', owner]
    exact decide_eq_false disabled

/-- Without normalisation, or with the label entropy, scores are divided by the same number. -/
theorem EBinScoreNormalization.exists_scale (bg : TBackground) {normalization : EBinScoreNormalization}
    (uniform : normalization = .none ∨ normalization = .labelEntropy ∧ 0 < entropy (R := ℝ) label.allBins) :
    ∃ scale : ℝ, 0 < scale ∧ ∀ b score, normalization.normalized label bg b score = score / scale := by
  rcases uniform with rfl | ⟨rfl, pos⟩
  · exact ⟨1, one_pos, fun b score => (div_one score).symm⟩
  · exact ⟨_, pos, fun b score => rfl⟩

/-- Scaling does not change what is best. -/
theorem best_div {scale : ℝ} (positive : 0 < scale) {v w : ℕ → ℝ} {S : List ℕ} (scaled : ∀ g ∈ S, w g = v g / scale)
    {b : ℕ} : Best (· > ·) w S b ↔ Best (· > ·) v S b := by
  refine and_congr_right fun mem => forall₂_congr fun c other => ?_
  simp only [scaled b mem, scaled c other, gt_iff_lt, div_lt_div_iff_of_pos_right positive,
    div_left_inj' positive.ne']

/-- The score of a candidate is the scaled value of its best bin. -/
theorem TBackground.Shows.candidateScore (shown : bg.Shows features chosen) (pool : Pool label features n)
    {normalization : EBinScoreNormalization} {scale : ℝ} (positive : 0 < scale)
    (scaled : ∀ b score, normalization.normalized label bg b score = score / scale)
    (pos : 0 < (problem label features n).stepCount t chosen)
    (few : label.bins.length + 2 * (problem label features n).stepCount t chosen ≤ 62) {f : ℕ}
    (candidate : f ∈ bg.candidates) :
    ∃ lead, ∃ scored : TFeatureScore ℝ,
      Best (· > ·) (fun e => value (problem label features n).cmi e
        ((problem label features n).fromScratch chosen e ((problem label features n).stepCount t chosen)))
        (bg.ownBins f) lead ∧
      getFeatureScore bg f (buildBinScorerForEval label (stepCount bg t - 1) (stepCount bg t))
        (buildBinScoreNormalizer normalization label) = .ok scored ∧
      scored.score = value (problem label features n).cmi lead
        ((problem label features n).fromScratch chosen lead ((problem label features n).stepCount t chosen)) /
          scale := by
  set P := problem label features n with hP
  obtain ⟨inside, nonempty, -⟩ := by simpa [candidates] using candidate
  have each : ∀ b ∈ bg.ownBins f,
      normalizedBinScore bg (buildBinScorerForEval label (stepCount bg t - 1) (stepCount bg t))
        (buildBinScoreNormalizer normalization label) b =
        .ok ⟨value P.cmi b (P.fromScratch chosen b (P.stepCount t chosen)) / scale,
          toSteps (P.fromScratch chosen b (P.stepCount t chosen)).maxSteps,
          toSteps (P.fromScratch chosen b (P.stepCount t chosen)).minSteps⟩ := by
    intro b own
    obtain ⟨lt, off⟩ := Problem.mem_disabledBins.mp ((shown.mem_ownBins label n candidate).mp own).1
    have lt' : b < bg.getBinCount := ((TBackground.mem_ownBins inside).mp own).1
    have evaluated := buildBinScorerForEval_eq pool shown lt off pos (min_le_left ..) few
    rw [← hP, ← stepCount_eq label n shown] at evaluated
    refine (normalizedBinScore_eq_ok lt').mpr ⟨_, evaluated, ?_⟩
    rw [scaled]
    rfl
  obtain ⟨lead, best, ran⟩ := getFeatureScore_ok _ inside nonempty each
  exact ⟨lead, _, (best_div positive fun _ _ => rfl).mp best, ran, rfl⟩

/-- Throughout a run the background shows the chosen features, and there is a step to take, as long as the steps fit
the calculator twice. -/
theorem plainRun_shows (pool : Pool label features n) (pos : 0 < t) {start : TBackground} {f k : ℕ}
    (selected : selectFirst ℝ label features = .ok (f, start))
    (reached : stateAfter (plainRound ℝ label features t) k start = .ok bg)
    (few : label.bins.length + 2 * stepCount bg t ≤ 62) :
    ∃ chosen, bg.Shows features chosen ∧ 0 < (problem label features n).stepCount t chosen := by
  induction k generalizing bg with
  | zero =>
    cases reached
    have labelled : label.bins.length ≤ 62 := by
      have : 0 ≤ stepCount start t := le_min (by omega) (by omega)
      omega
    cases first : (problem label features n).firstFeature with
    | none =>
      rw [selectFirst_error pool (by omega) first] at selected
      cases selected
    | some g =>
      obtain ⟨bg₀, selected', shown, owned⟩ := selectFirst_ok pool (by omega) first
      obtain ⟨rfl, rfl⟩ := Prod.mk.inj (Except.ok.inj (selected.symm.trans selected'))
      exact ⟨_, shown, stepCount_pos (Problem.start_inv owned) pos⟩
  | succ k ih =>
    obtain ⟨mid, g, before, ran⟩ := stateAfter_succ.mp reached
    have grows : stepCount mid t ≤ stepCount bg t :=
      min_le_min_right _ (by exact_mod_cast plainRound_grows ran)
    obtain ⟨chosen, shown, step⟩ := ih before (by omega)
    have steps := stepCount_eq label n shown t
    rcases plainRound_follows pool shown step (by omega) with ⟨_, _, ran', -, shown'⟩ | ⟨failed, -⟩
    · obtain ⟨rfl, rfl⟩ := Prod.mk.inj (Except.ok.inj (ran.symm.trans ran'))
      exact ⟨_, shown', step.trans_le (Problem.stepCount_mono (List.subset_append_left ..))⟩
    · cases ran.symm.trans failed

/-- **Every round of the plain loop takes the feature with the best score**, the first of them in case of
ties: the score that `GetFeatureScore` gives to the features that are disabled and have bins. -/
theorem featureSelection_byFeatureScore {normalization : EBinScoreNormalization} (pool : Pool label features n)
    (pos : 0 < t)
    (uniform : normalization = .none ∨ normalization = .labelEntropy ∧ 0 < entropy (R := ℝ) label.allBins)
    {start : TBackground} {f k : ℕ} (selected : selectFirst ℝ label features = .ok (f, start))
    (reached : stateAfter (plainRound ℝ label features t) k start = .ok bg)
    (few : label.bins.length + 2 * stepCount bg t ≤ 62) :
    ∃ score : ℕ → TFeatureScore ℝ,
      (∀ g ∈ bg.candidates, getFeatureScore bg g (buildBinScorerForEval label (stepCount bg t - 1) (stepCount bg t))
        (buildBinScoreNormalizer normalization label) = .ok (score g)) ∧
      ∀ g, (∃ bg', plainRound ℝ label features t bg = .ok (g, bg')) ↔
        Best (· > ·) (fun g => (score g).score) bg.candidates g := by
  set P := problem label features n with hP
  obtain ⟨chosen, shown, step⟩ := plainRun_shows pool pos selected reached few
  have fits : label.bins.length + 2 * P.stepCount t chosen ≤ 62 := by
    have steps := stepCount_eq label n shown t
    rw [← hP] at steps
    omega
  obtain ⟨scale, positive, scaled⟩ := EBinScoreNormalization.exists_scale bg uniform
  have each (g : ℕ) (candidate : g ∈ bg.candidates) :=
    shown.candidateScore pool positive scaled step fits candidate
  have : Nonempty (TFeatureScore ℝ) := ⟨⟨0, []⟩⟩
  choose! lead score result using each
  have best {b : ℕ} (found : P.plainBest t chosen = some b) :
      Best (· > ·) (fun g => (score g).score) bg.candidates (P.owner b) :=
    (best_div positive fun g candidate => (result g candidate).2.2).mpr
      (((pick_eq_some_iff (List.pairwise_lt_range.filter _)).mp found).group
        (fun _ _ => TBinFeatureSet.owner_mono) (fun g => shown.mem_candidates label n)
        (fun g candidate b => shown.mem_ownBins label n candidate) fun g candidate => (result g candidate).1)
  refine ⟨score, fun g candidate => (result g candidate).2.1, fun g => ?_⟩
  have round := plainRound_follows pool shown step fits
  rw [← hP] at round
  cases choice : P.plainBest t chosen with
  | none =>
    rcases round with ⟨_, _, -, ran, -⟩ | ⟨failed, -⟩
    · simp [Problem.plainRound, choice] at ran
    · refine ⟨?_, fun highest => ?_⟩
      · rintro ⟨_, ran⟩
        cases failed.symm.trans ran
      obtain ⟨b, disabled, -⟩ := (shown.mem_candidates label n).mp highest.1
      obtain ⟨b, found⟩ := exists_pick (r := (· > ·))
        (f := fun e => value P.cmi e (P.fromScratch chosen e (P.stepCount t chosen))) (List.ne_nil_of_mem disabled)
      cases choice.symm.trans found
  | some b =>
    rcases round with ⟨_, bg', ran, ran', -⟩ | ⟨-, failed⟩
    · obtain rfl : P.owner b = _ := by simpa [Problem.plainRound, choice] using ran'
      constructor
      · rintro ⟨_, other⟩
        obtain ⟨rfl, -⟩ := Prod.mk.inj (Except.ok.inj (ran.symm.trans other))
        exact best choice
      · intro highest
        exact ⟨bg', (best choice).unique highest ▸ ran⟩
    · simp [Problem.plainRound, choice] at failed

/-- The round after the first two features of four, with two steps. -/
theorem featureSelection_byFeatureScore_sixRows :
    ∃ (start bg : TBackground) (score : ℕ → TFeatureScore ℝ),
      selectFirst ℝ sixLabel sixFeatures = .ok (0, start) ∧
      stateAfter (plainRound ℝ sixLabel sixFeatures 2) 1 start = .ok bg ∧
      ∀ g, (∃ bg', plainRound ℝ sixLabel sixFeatures 2 bg = .ok (g, bg')) ↔
        Best (· > ·) (fun g => (score g).score) bg.candidates g := by
  have first : (problem sixLabel sixFeatures 6).firstFeature = some 0 := by
    rw [firstFeature_exact (by decide)]
    decide +kernel
  obtain ⟨start, selected, shown, -⟩ := selectFirst_ok sixPool (by decide) first
  set P := problem sixLabel sixFeatures 6
  obtain ⟨b, found⟩ := exists_pick (r := (· > ·)) (l := P.disabledBins [0])
    (f := fun e => value P.cmi e (P.fromScratch [0] e (P.stepCount 2 [0]))) (by decide)
  rcases plainRound_follows sixPool shown (t := 2) (by decide) (by decide) with ⟨g, bg, ran, -, -⟩ | ⟨-, failed⟩
  · have reached : stateAfter (plainRound ℝ sixLabel sixFeatures 2) 1 start = .ok bg :=
      stateAfter_succ.mpr ⟨start, g, rfl, ran⟩
    have steps : stepCount bg (2 : ℕ) ≤ 2 := min_le_right ..
    have labels : sixLabel.bins.length = 1 := by decide
    obtain ⟨score, -, rounds⟩ := featureSelection_byFeatureScore (t := 2) sixPool (by decide) (.inl rfl) selected
      reached (by omega)
    exact ⟨start, bg, score, selected, reached, rounds⟩
  · have choice : P.plainBest 2 [0] = some b := found
    simp [Problem.plainRound, P, choice] at failed

end Scored

/-! ### Runs that ask for every feature -/

section Complete

variable {label features : TBinFeatureSet} {n : ℕ} {t : ℤ}

/-- Rounds that take a disabled bin, as long as there is one, emit the owners that are left. -/
theorem emits_owners {ε σ : Type} {P : Problem ℝ} {round : σ → Except ε (ℕ × σ)} {I : List ℕ → σ → Prop}
    (next : ∀ chosen st, I chosen st → P.disabledBins chosen = [] ∧ (∃ why, round st = .error why) ∨
      ∃ b st', b ∈ P.disabledBins chosen ∧ round st = .ok (P.owner b, st') ∧ I (chosen ++ [P.owner b]) st')
    (k : ℕ) {chosen : List ℕ} {st : σ} (start : I chosen st) (nodup : chosen.Nodup)
    (owned : ∀ f ∈ chosen, f ∈ P.owners) :
    (chosen ++ (emitLoop round k st).items).Nodup ∧
      (∀ f ∈ chosen ++ (emitLoop round k st).items, f ∈ P.owners) ∧
      (emitLoop round k st).items.length = min k (P.owners.card - chosen.length) ∧
      ((emitLoop round k st).stopped = none ↔ k ≤ P.owners.card - chosen.length) := by
  induction k generalizing chosen st with
  | zero => simpa [emitLoop] using ⟨nodup, owned⟩
  | succ k ih =>
    rcases next chosen st start with ⟨none, why, failed⟩ | ⟨b, st', disabled, ran, held⟩
    · have all := Problem.owners_le_of_disabledBins none
      have left : P.owners.card - chosen.length = 0 := by omega
      simpa [emitLoop, failed, left] using ⟨nodup, owned⟩
    · obtain ⟨inside, new⟩ := Problem.mem_disabledBins.mp disabled
      have owned' : ∀ f ∈ chosen ++ [P.owner b], f ∈ P.owners := fun f mem => by
        rcases List.mem_append.mp mem with mem | mem
        · exact owned f mem
        · rw [List.mem_singleton.mp mem]
          exact Problem.owner_mem_owners inside
      have nodup' : (chosen ++ [P.owner b]).Nodup := by simpa using List.Nodup.concat new nodup
      have more := Problem.length_le_owners nodup' fun f mem => Problem.mem_owners.mp (owned' f mem)
      obtain ⟨distinct, inOwners, length, stopped⟩ := ih held nodup' owned'
      simp only [List.length_append, List.length_singleton] at more length stopped
      rw [List.append_assoc, List.singleton_append] at distinct inOwners
      simp only [emitLoop, ran, Emitted.cons, List.length_cons, length]
      exact ⟨distinct, inOwners, by omega, by rw [stopped]; omega⟩

/-- A first owner and as many rounds as there are other features: every owner is emitted once. -/
theorem emits_all {ε σ : Type} {round : σ → Except ε (ℕ × σ)} {I : List ℕ → σ → Prop}
    (next : ∀ chosen st, I chosen st → (problem label features n).disabledBins chosen = [] ∧
        (∃ why, round st = .error why) ∨
      ∃ b st', b ∈ (problem label features n).disabledBins chosen ∧ round st = .ok (features.owner b, st') ∧
        I (chosen ++ [features.owner b]) st')
    {f : ℕ} {st : σ} (start : I [f] st) (owned : f ∈ (problem label features n).owners) :
    (∀ g, ((emitLoop round (features.getFeatureCount - 1) st).cons f).items.count g =
        if g ∈ (problem label features n).owners then 1 else 0) ∧
      (((emitLoop round (features.getFeatureCount - 1) st).cons f).stopped = none ↔
        (problem label features n).owners = Finset.range features.getFeatureCount) := by
  set P := problem label features n with hP
  have all : P.owners.card ≤ features.getFeatureCount :=
    (Finset.card_le_card (owners_subset label n)).trans (Finset.card_range _).le
  have positive : 0 < P.owners.card := Finset.card_pos.mpr ⟨f, owned⟩
  obtain ⟨nodup, inOwners, length, stopped⟩ := emits_owners next (features.getFeatureCount - 1) start
    (List.nodup_singleton f) (by simpa using owned)
  rw [List.singleton_append] at nodup inOwners
  rw [List.length_singleton] at length stopped
  have whole : (f :: (emitLoop round (features.getFeatureCount - 1) st).items).toFinset = P.owners :=
    Finset.eq_of_subset_of_card_le (fun g mem => inOwners g (List.mem_toFinset.mp mem)) (by
      rw [List.toFinset_card_of_nodup nodup, List.length_cons, length]
      omega)
  refine ⟨fun g => ?_, ?_⟩
  · change (f :: (emitLoop round (features.getFeatureCount - 1) st).items).count g = _
    rw [nodup.count, ← whole]
    simp only [List.mem_toFinset]
  · change (emitLoop round (features.getFeatureCount - 1) st).stopped = none ↔ _
    rw [stopped]
    constructor
    · exact fun enough => Finset.eq_of_subset_of_card_le (owners_subset ..) (by rw [Finset.card_range]; omega)
    · intro same
      rw [same, Finset.card_range]

/-- The rounds of both loops take a disabled bin as long as there is one. -/
theorem plain_next {t : ℕ} (pool : Pool label features n) (few : label.bins.length + 2 * t ≤ 62) (chosen : List ℕ)
    (bg : TBackground)
    (held : bg.Shows features chosen ∧ 0 < (problem label features n).stepCount t chosen) :
    (problem label features n).disabledBins chosen = [] ∧ (∃ why, plainRound ℝ label features t bg = .error why) ∨
      ∃ b bg', b ∈ (problem label features n).disabledBins chosen ∧
        plainRound ℝ label features t bg = .ok (features.owner b, bg') ∧
        bg'.Shows features (chosen ++ [features.owner b]) ∧
        0 < (problem label features n).stepCount t (chosen ++ [features.owner b]) := by
  set P := problem label features n with hP
  have steps : P.stepCount t chosen ≤ t := min_le_right ..
  have round := plainRound_follows pool held.1 held.2 (show label.bins.length + 2 * P.stepCount t chosen ≤ 62 by omega)
  rw [← hP] at round
  cases choice : P.plainBest t chosen with
  | none =>
    rcases round with ⟨_, _, -, ran, -⟩ | ⟨failed, -⟩
    · simp [Problem.plainRound, choice] at ran
    · refine .inl ⟨?_, _, failed⟩
      by_contra some
      obtain ⟨b, found⟩ := exists_pick (r := (· > ·))
        (f := fun e => value P.cmi e (P.fromScratch chosen e (P.stepCount t chosen))) some
      cases choice.symm.trans found
  | some b =>
    rcases round with ⟨_, bg', ran, ran', shown⟩ | ⟨-, failed⟩
    · obtain rfl : P.owner b = _ := by simpa [Problem.plainRound, choice] using ran'
      exact .inr ⟨b, bg', pick_mem choice, ran, shown,
        held.2.trans_le (Problem.stepCount_mono (List.subset_append_left ..))⟩
    · simp [Problem.plainRound, choice] at failed

theorem fast_next {t : ℕ} (pool : Pool label features n) (pos : 0 < t) (few : label.bins.length + 2 * t ≤ 62)
    (chosen : List ℕ) (st : FastSelection ℝ)
    (held : ∃ search : State ℝ, search.chosen = chosen ∧ Follows label features st search ∧
      (problem label features n).Inv t search) :
    (problem label features n).disabledBins chosen = [] ∧ (∃ why, fastRound features t st = .error why) ∨
      ∃ b st', b ∈ (problem label features n).disabledBins chosen ∧
        fastRound features t st = .ok (features.owner b, st') ∧
        ∃ search : State ℝ, search.chosen = chosen ++ [features.owner b] ∧ Follows label features st' search ∧
          (problem label features n).Inv t search := by
  set P := problem label features n with hP
  obtain ⟨search, rfl, follows, inv⟩ := held
  rcases Follows.rounds pool pos few st search ⟨follows, inv⟩ with
    ⟨_, st', search', ran, ran', follows', inv'⟩ | ⟨_, _, failed, failed', -⟩
  all_goals rw [← hP] at *
  · cases choice : P.fastBest t search with
    | none => simp [Problem.fastRound, choice] at ran'
    | some b =>
      obtain ⟨rfl, rfl⟩ := Prod.mk.inj (Except.ok.inj ((Problem.fastRound_of_best choice).symm.trans ran'))
      exact .inr ⟨b, st', pick_mem choice, ran, _, rfl, follows', inv'⟩
  · refine .inl ⟨?_, _, failed⟩
    by_contra some
    obtain ⟨b, found⟩ := Problem.exists_fastBest (t := t) some
    rw [Problem.fastRound_of_best found] at failed'
    cases failed'

/-- Without steps no bin has a score. -/
theorem plainRound_nonpos (pool : Pool label features n) (few : label.bins.length ≤ 62) {bg : TBackground}
    {chosen : List ℕ} (shown : bg.Shows features chosen) (none : t ≤ 0) :
    ∃ why, plainRound ℝ label features t bg = .error why := by
  have steps : stepCount bg t ≤ 0 := (min_le_right ..).trans none
  cases bins : bg.disabledBinIndexes with
  | nil => exact ⟨.emptyContainer, by simp [plainRound, bins, extremeElementBy, dereference]⟩
  | cons b rest =>
    have inside : b < bg.getBinCount :=
      (TBackground.mem_disabledBinIndexes.mp (bins ▸ List.mem_cons_self)).1
    cases evaluated : buildBinScorerForEval (R := ℝ) label (stepCount bg t - 1) (stepCount bg t) bg b with
    | error why => exact ⟨why, by simp [plainRound, bins, extremeElementBy, evaluated]⟩
    | ok result =>
      have scored := (EScorer.forEval.eval_iff (s := stepCount bg t) (shown.features.symm ▸ pool) inside (by omega)).mp
        evaluated
      omega

/-- **Both loops end normally on the same pools**, those in which every feature has a bin, as long as
there is a step to take or no round to enter; and with a step to take both emit every feature that has
a bin exactly once, whether they end normally or not. -/
theorem selections_complete_iff (pool : Pool label features n) (few : label.bins.length + 2 * max t 0 ≤ 62)
    (bins : 0 < features.getBinCount) :
    ((featureSelection ℝ label features t).stopped = none ↔
        (∀ f < features.getFeatureCount, ∃ bins, features.getFeature f = .ok bins ∧ bins ≠ []) ∧
          (0 < t ∨ features.getFeatureCount = 1)) ∧
      ((fastFeatureSelection ℝ label features t features.getFeatureCount).stopped = none ↔
        (∀ f < features.getFeatureCount, ∃ bins, features.getFeature f = .ok bins ∧ bins ≠ []) ∧
          (0 < t ∨ features.getFeatureCount = 1)) ∧
      (0 < t → (featureSelection ℝ label features t).items.Perm
          (fastFeatureSelection ℝ label features t features.getFeatureCount).items ∧
        (featureSelection ℝ label features t).items.Nodup ∧
        ∀ f, f ∈ (featureSelection ℝ label features t).items ↔
          ∃ bins, features.getFeature f = .ok bins ∧ bins ≠ []) := by
  set P := problem label features n with hP
  have owner : ∀ f, f ∈ P.owners ↔ ∃ bins, features.getFeature f = .ok bins ∧ bins ≠ [] :=
    fun f => Problem.mem_owners.trans (ownedBins_ne_nil_iff label n)
  have complete : P.owners = Finset.range features.getFeatureCount ↔
      ∀ f < features.getFeatureCount, f ∈ P.owners := by
    rw [Finset.Subset.antisymm_iff, and_iff_right (owners_subset ..)]
    exact forall_congr' fun f => by rw [Finset.mem_range]
  simp only [← owner, ← complete]
  obtain ⟨first, found, owned⟩ := exists_firstFeature label n bins
  obtain ⟨bg, selected, shown, -⟩ := selectFirst_ok pool (by omega) found
  have mem := Problem.mem_owners.mpr owned
  have rounds : (min (features.getFeatureCount : ℤ) features.getFeatureCount - 1).toNat =
      features.getFeatureCount - 1 := by omega
  rw [featureSelection, fastFeatureSelection, selected]
  simp only [rounds]
  rcases lt_or_ge 0 t with pos | none
  · obtain ⟨steps, rfl⟩ : ∃ steps : ℕ, t = steps := ⟨t.toNat, by omega⟩
    have step : 0 < steps := by exact_mod_cast pos
    have fits : label.bins.length + 2 * steps ≤ 62 := by omega
    obtain ⟨count, stopped⟩ := emits_all (plain_next pool fits)
      ⟨shown, stepCount_pos (Problem.start_inv owned) step⟩ mem
    have start : ∃ search : State ℝ, search.chosen = [first] ∧
        Follows label features ⟨bg, ofLabel label features.getBinCount⟩ search ∧ P.Inv steps search :=
      ⟨P.start first, rfl, start_follows shown, Problem.start_inv owned⟩
    obtain ⟨count', stopped'⟩ := emits_all (fast_next pool step fits) start mem
    refine ⟨by rw [stopped, and_iff_left (.inl pos)], by rw [stopped', and_iff_left (.inl pos)], fun _ => ⟨?_, ?_, ?_⟩⟩
    · exact List.perm_iff_count.mpr fun g => (count g).trans (count' g).symm
    · exact List.nodup_iff_count_le_one.mpr fun g => by rw [count]; split <;> omega
    · intro g
      rw [← List.count_pos_iff, count]
      split <;> simp_all
  · have alone : P.owners = Finset.range features.getFeatureCount ∧ (0 < t ∨ features.getFeatureCount = 1) ↔
        features.getFeatureCount - 1 = 0 := by
      have inside := Finset.mem_range.mp (owners_subset label n mem)
      constructor
      · omega
      · intro one
        exact ⟨complete.mpr fun f lt => (show f = first by omega) ▸ mem, .inr (by omega)⟩
    obtain ⟨why, failed⟩ := plainRound_nonpos pool (by omega) shown none
    have failed' := @fastRound_nonpos features label n ⟨bg, ofLabel label features.getBinCount⟩ _ _
      shown (by simp [ofLabel]) none
    rw [alone]
    refine ⟨?_, ?_, fun pos => by omega⟩
    · cases features.getFeatureCount - 1 <;> simp [emitLoop, Emitted.cons, failed]
    · cases features.getFeatureCount - 1 <;> simp [emitLoop, Emitted.cons, failed']

/-- A feature without bins between two others. -/
theorem selections_complete_iff_gap :
    (featureSelection ℝ (.ofBins [[false, true]]) (addFeatures [[[false, true]], [], [[true, false]]]) 1).stopped ≠
      none := by
  intro ended
  obtain ⟨bins, got, some⟩ := ((selections_complete_iff (n := 2) ⟨by decide, by decide, by decide, by decide⟩
    (by decide) (by decide)).1.mp ended).1 1 (by decide)
  exact some (Except.ok.inj got).symm

end Complete

end Cmicot
