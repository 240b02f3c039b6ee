import Cmicot.ExactValues
import Cmicot.Selection

/-!
The cache over rounds with a fixed number of steps.

A round enables one more feature and evaluates some of the bins that are still disabled,
each once. `Kept` is what the cache satisfies between rounds: the steps of every disabled
bin are legal for the background, and those of a bin that was evaluated in every round are
the steps from scratch as long as no step was tied.

* `cached_evaluation_eq`: evaluated in every round, a bin gets the steps of the reference
  scorer and its score divided by the label entropy.
-/

namespace Cmicot

open Loop Greedy Search TCachingBinScorer

/-! ### Definitions -/

/-- A round: the feature that is enabled, and the bins that are evaluated after it. -/
structure Round where
  feature : ℕ
  calls : List ℕ

/-- The features enabled by a list of rounds. -/
def chosenBy (rounds : List Round) : List ℕ := rounds.map Round.feature

section Generic

variable {R : Type} [Field R] [LinearOrder R] [Log2 R]

def playRound (s : ℕ) (st : FastSelection R) (round : Round) : Except Failure (FastSelection R) := do
  let bg ← st.bg.setFeatureEnabled round.feature true
  let (_, binScorer) ← evaluateEach bg s round.calls st.binScorer
  return ⟨bg, binScorer⟩

/-- The rounds on a fresh scorer and a background with nothing enabled. -/
def play (label features : TBinFeatureSet) (s : ℕ) (rounds : List Round) :
    Except Failure (FastSelection R) :=
  rounds.foldlM (playRound s)
    ⟨(TBackground.ofFeatures features).disableAll, ofLabel label features.getBinCount⟩

end Generic

/-- Distinct non-empty features, the first with at least `s` bins; in every round distinct
bins of features that are not enabled. -/
structure Legal (features : TBinFeatureSet) (s : ℕ) (rounds : List Round) : Prop where
  distinct : (chosenBy rounds).Nodup
  nonempty : ∀ round ∈ rounds, ∃ bins, features.getFeature round.feature = .ok bins ∧ bins ≠ []
  first : ∀ round, rounds.head? = some round →
    ∃ bins, features.getFeature round.feature = .ok bins ∧ s ≤ bins.length
  calls : ∀ i round, rounds[i]? = some round → round.calls.Nodup ∧
    ∀ b ∈ round.calls, b < features.getBinCount ∧ features.owner b ∉ chosenBy (rounds.take (i + 1))

/-! ### What the cache keeps -/

section Kept

variable {label features : TBinFeatureSet} {n s e : ℕ} {rounds : List Round} {st : FastSelection ℝ}

/-- The bin was evaluated in every round and no reference run was tied. -/
structure Followed (label features : TBinFeatureSet) (n s : ℕ) (rounds : List Round) (e : ℕ) : Prop where
  evaluated : ∀ round ∈ rounds, e ∈ round.calls
  unique : ∀ i < rounds.length,
    (problem label features n).UniqueSteps (chosenBy (rounds.take (i + 1))) e s

/-- The number of steps recorded after some rounds. -/
def recordedSteps (s : ℕ) (rounds : List Round) : ℕ := if rounds = [] then 0 else s

structure Kept (label features : TBinFeatureSet) (n s : ℕ) (rounds : List Round) (st : FastSelection ℝ)
    (entry : ℕ → Entry ℝ) : Prop where
  shown : st.bg.Shows features (chosenBy rounds)
  labelled : st.binScorer.label = label
  labelEntropy : st.binScorer.labelEntropy = entropy label.allBins
  cached : ∀ b < features.getBinCount, ∃ score,
    st.binScorer.cache[b]? = some (toScore score (entry b))
  recorded : ∀ b < features.getBinCount, features.owner b ∉ chosenBy rounds →
    (problem label features n).Recorded s (chosenBy rounds) b (entry b)
  exact : ∀ b < features.getBinCount, features.owner b ∉ chosenBy rounds →
    Followed label features n s rounds b →
    entry b = (problem label features n).fromScratch (chosenBy rounds) b (recordedSteps s rounds)

theorem start_kept : Kept label features n s []
    ⟨(TBackground.ofFeatures features).disableAll, ofLabel label features.getBinCount⟩ fun _ => .empty where
  shown := TBackground.shows_disableAll features
  labelled := rfl
  labelEntropy := rfl
  cached b inside := ⟨0, by simp [ofLabel, inside, toScore, Entry.empty, toSteps]⟩
  recorded _ _ _ := Problem.empty_recorded _
  exact _ _ _ _ := rfl

variable {past : List Round} {round : Round} {entry : ℕ → Entry ℝ}

theorem chosenBy_concat (past : List Round) (round : Round) :
    chosenBy (past ++ [round]) = chosenBy past ++ [round.feature] := by
  simp [chosenBy]

/-- The rounds before a legal one are legal. -/
theorem Legal.before (legal : Legal features s (past ++ [round])) : Legal features s past where
  distinct := by
    have distinct := legal.distinct
    rw [chosenBy_concat] at distinct
    exact (List.nodup_append.mp distinct).1
  nonempty r mem := legal.nonempty r (List.mem_append_left _ mem)
  first r head := legal.first r (by rw [List.head?_append, head, Option.some_or])
  calls i r at_i := by
    have lt := (List.getElem?_eq_some_iff.mp at_i).1
    have calls := legal.calls i r (by rw [List.getElem?_append_left lt, at_i])
    rwa [List.take_append_of_le_length lt] at calls

theorem Legal.new (legal : Legal features s (past ++ [round])) : round.feature ∉ chosenBy past := by
  have distinct := legal.distinct
  rw [chosenBy_concat] at distinct
  exact fun mem => (List.nodup_append.mp distinct).2.2 _ mem _ (List.mem_singleton_self _) rfl

theorem Legal.owned (legal : Legal features s (past ++ [round])) :
    (problem label features n).ownedBins round.feature ≠ [] :=
  (ownedBins_ne_nil_iff ..).mpr (legal.nonempty round (by simp))

/-- From the first round on there are bins for `s` steps. -/
theorem Legal.room (legal : Legal features s rounds) (label : TBinFeatureSet) (n : ℕ) (some : rounds ≠ []) :
    s ≤ ((problem label features n).enabledBins (chosenBy rounds)).length := by
  obtain ⟨round, rest, rfl⟩ := List.exists_cons_of_ne_nil some
  obtain ⟨bins, got, enough⟩ := legal.first round rfl
  unfold TBinFeatureSet.getFeature at got
  split at got
  case isFalse => cases got
  case isTrue lt =>
    cases got
    set first := features.featureBegin round.feature
    set last := features.featureEnd round.feature
    have le : last ≤ features.getBinCount := TBinFeatureSet.featureEnd_le
    have sub : List.range' first (last - first) ⊆
        (problem label features n).enabledBins (chosenBy (round :: rest)) := fun b mem => by
      have bounds := List.mem_range'_1.mp mem
      have inside : b < features.getBinCount := by omega
      have owner : features.owner b = round.feature :=
        (TBinFeatureSet.owner_eq_iff inside).mpr ⟨lt, bounds.1, by omega⟩
      exact Problem.mem_enabledBins.mpr ⟨inside, List.mem_cons.mpr (.inl owner)⟩
    have count := (List.subperm_of_subset List.nodup_range' sub).length_le
    rw [List.length_drop, List.length_take] at enough
    rw [List.length_range'] at count
    omega

/-- After the next feature is enabled, every disabled bin is ready to be evaluated. -/
theorem Kept.awaits (kept : Kept label features n s past st entry)
    (legal : Legal features s (past ++ [round])) {b : ℕ} (inside : b < features.getBinCount)
    (disabled : features.owner b ∉ chosenBy (past ++ [round])) :
    Awaits label features n (chosenBy (past ++ [round])) s st.binScorer.cache b (entry b) := by
  have room := legal.room label n (by simp)
  rw [chosenBy_concat] at disabled room ⊢
  refine ⟨inside, disabled, kept.cached b inside, ?_⟩
  have before : features.owner b ∉ chosenBy past := fun mem => disabled (by simp [mem])
  exact (kept.recorded b inside before).ready legal.new legal.owned disabled (Nat.le_refl s) room

/-- A legal round goes through, repairs the entries of its calls and leaves the others alone. -/
theorem Kept.plays (kept : Kept label features n s past st entry)
    (legal : Legal features s (past ++ [round])) (pool : Pool label features n) (pos : 0 < s)
    (few : label.bins.length + 2 * s ≤ 62) :
    ∃ st', playRound s st round = .ok st' ∧ st'.bg.Shows features (chosenBy (past ++ [round])) ∧
      st'.binScorer.label = label ∧ st'.binScorer.labelEntropy = entropy label.allBins ∧
      ∀ b, st'.binScorer.cache[b]? =
        if b ∈ round.calls then
          some (repairedScore label features n (chosenBy (past ++ [round])) s (entropy label.allBins) b
            (entry b))
        else st.binScorer.cache[b]? := by
  obtain ⟨nodup, calls⟩ := legal.calls past.length round (by simp)
  rw [List.take_of_length_le (by simp)] at calls
  obtain ⟨bins, got, -⟩ := legal.nonempty round (by simp)
  have inside : round.feature < features.getFeatureCount := by
    by_contra outside
    rw [TBinFeatureSet.getFeature, if_neg outside] at got
    cases got
  obtain ⟨bg, enabled, shown⟩ := kept.shown.setFeatureEnabled inside
  rw [← chosenBy_concat] at shown
  obtain ⟨binScorer, ran, labelled, labelEntropy, cache⟩ := evaluateEach_ok _ _ _ pool kept.labelled shown
    (by simp [chosenBy]) pos few nodup fun b mem => kept.awaits legal (calls b mem).1 (calls b mem).2
  rw [kept.labelEntropy] at labelEntropy cache
  refine ⟨⟨bg, binScorer⟩, ?_, shown, labelled, labelEntropy, cache⟩
  simp only [playRound, enabled, ok_bind, ran, pure_eq_ok]

/-- The steps of a followed bin, repaired for one more feature, are those from scratch. -/
theorem Kept.repaired_eq (kept : Kept label features n s past st entry)
    (legal : Legal features s (past ++ [round])) (inside : e < features.getBinCount)
    (disabled : features.owner e ∉ chosenBy (past ++ [round]))
    (followed : Followed label features n s past e)
    (unique : (problem label features n).UniqueSteps (chosenBy (past ++ [round])) e s) :
    (problem label features n).repaired (chosenBy (past ++ [round])) e s (entry e) =
      (problem label features n).fromScratch (chosenBy (past ++ [round])) e s := by
  have room := legal.room label n (by simp)
  have before : features.owner e ∉ chosenBy past := fun mem => disabled (by simp [chosenBy_concat, mem])
  rw [kept.exact e inside before followed]
  rw [chosenBy_concat] at disabled room unique ⊢
  refine Problem.repaired_eq_of_unique problem_selfLeast legal.new legal.owned disabled room unique ?_
  by_cases none : past = []
  · exact .inl ⟨by simp [none, chosenBy], by simp [recordedSteps, none]⟩
  · exact .inr ⟨legal.before.room label n none, by simp [recordedSteps, none]⟩

/-- **A legal round keeps the cache.** -/
theorem Kept.next (kept : Kept label features n s past st entry)
    (legal : Legal features s (past ++ [round])) (pool : Pool label features n) (pos : 0 < s)
    (few : label.bins.length + 2 * s ≤ 62) :
    ∃ st', playRound s st round = .ok st' ∧
      ∃ entry', Kept label features n s (past ++ [round]) st' entry' := by
  obtain ⟨st', ran, shown, labelled, labelEntropy, cache⟩ := kept.plays legal pool pos few
  refine ⟨st', ran, fun b => if b ∈ round.calls then
    (problem label features n).repaired (chosenBy (past ++ [round])) b s (entry b) else entry b,
    shown, labelled, labelEntropy, fun b inside => ?_, fun b inside disabled => ?_,
    fun b inside disabled followed => ?_⟩
  · rw [cache b]
    split
    · exact ⟨_, rfl⟩
    · exact kept.cached b inside
  · have before : features.owner b ∉ chosenBy past := fun mem => disabled (by simp [chosenBy_concat, mem])
    split
    · exact Problem.repaired_recorded (kept.awaits legal inside disabled).ready
    · exact (kept.recorded b inside before).mono (by simp [chosenBy_concat])
  · have called : b ∈ round.calls := followed.evaluated round (by simp)
    have unique := followed.unique past.length (by simp)
    rw [List.take_of_length_le (by simp)] at unique
    rw [if_pos called, kept.repaired_eq legal inside disabled ?_ unique]
    · simp [recordedSteps]
    · refine ⟨fun r mem => followed.evaluated r (List.mem_append_left _ mem), fun i lt => ?_⟩
      have unique := followed.unique i (by simp; omega)
      rwa [List.take_append_of_le_length (by omega)] at unique

/-- **Legal rounds go through and keep the cache.** -/
theorem play_kept (pool : Pool label features n) (pos : 0 < s) (few : label.bins.length + 2 * s ≤ 62)
    (legal : Legal features s rounds) :
    ∃ st, play label features s rounds = .ok st ∧ ∃ entry, Kept label features n s rounds st entry := by
  induction rounds using List.reverseRecOn with
  | nil => exact ⟨_, rfl, _, start_kept⟩
  | append_singleton past round ih =>
    obtain ⟨mid, ran, entry, kept⟩ := ih legal.before
    obtain ⟨st, played, kept'⟩ := kept.next legal pool pos few
    refine ⟨st, ?_, kept'⟩
    unfold play at ran ⊢
    simp [List.foldlM_append, ran, played]

end Kept

/-! ### Cached and reference evaluations -/

section Agreement

variable {label features : TBinFeatureSet} {n s e : ℕ} {past : List Round} {current : Round}

/-- **Cache correctness at a fixed number of steps.** After any rounds that evaluated `e`,
and any evaluations of other bins in the current one, evaluating `e` returns the steps of
the reference scorer and its score divided by the label entropy, provided no step of the
reference runs was tied. -/
theorem cached_evaluation_eq (pool : Pool label features n) (pos : 0 < s)
    (few : label.bins.length + 2 * s ≤ 62) (legal : Legal features s (past ++ [current]))
    (inside : e < features.getBinCount) (disabled : features.owner e ∉ chosenBy (past ++ [current]))
    (evaluated : ∀ round ∈ past, e ∈ round.calls) (fresh : e ∉ current.calls)
    (unique : ∀ i ≤ past.length, (problem label features n).UniqueSteps
      (chosenBy ((past ++ [current]).take (i + 1))) e s) :
    ∃ (st : FastSelection ℝ) (reference : TBinScore ℝ) (next : TCachingBinScorer ℝ),
      play label features s (past ++ [current]) = .ok st ∧
      buildBinScorerForEval label ((s : ℤ) - 1) s st.bg e = .ok reference ∧
      st.binScorer.evaluate st.bg e s =
        .ok (⟨reference.score / entropy label.allBins, reference.maximizingSteps,
          reference.minimizingSteps⟩, next) := by
  obtain ⟨mid, ran, entry, kept⟩ := play_kept pool pos few legal.before
  obtain ⟨st, played, shown, labelled, labelEntropy, cache⟩ := kept.plays legal pool pos few
  obtain ⟨-, -, ⟨score, recorded⟩, ready⟩ := kept.awaits legal inside disabled
  have now := unique past.length (Nat.le_refl _)
  rw [List.take_of_length_le (by simp)] at now
  have exact := kept.repaired_eq legal inside disabled ⟨evaluated, fun i lt => by
    have before := unique i lt.le
    rwa [List.take_append_of_le_length (by omega)] at before⟩ now
  have evaluation := evaluate_eq st.binScorer _ pool labelled shown
    (by simp [chosenBy]) inside disabled (by rw [cache e, if_neg fresh, recorded]) ready pos few
  rw [repairedScore, exact, labelEntropy] at evaluation
  refine ⟨st, _, _, ?_, buildBinScorerForEval_eq pool shown inside disabled pos
    (legal.room label n (by simp)) few, evaluation⟩
  unfold play at ran ⊢
  simp [List.foldlM_append, ran, played]

/-- Two rounds that evaluate several bins each, and one more that evaluates bin 0 again. -/
def sixRounds : List Round := [⟨2, [0, 1, 4]⟩, ⟨1, [4, 0]⟩, ⟨3, []⟩]

theorem sixRounds_legal : Legal sixFeatures 2 sixRounds where
  distinct := by decide
  nonempty := by
    have owned : ∀ round ∈ sixRounds, (problem sixLabel sixFeatures 6).ownedBins round.feature ≠ [] := by
      decide
    exact fun round mem => (ownedBins_ne_nil_iff ..).mp (owned round mem)
  first round head := by
    cases head
    exact ⟨_, rfl, by decide⟩
  calls i round at_i := by
    have each : ∀ i : Fin sixRounds.length, (sixRounds.get i).calls.Nodup ∧
        ∀ b ∈ (sixRounds.get i).calls, b < sixFeatures.getBinCount ∧
          sixFeatures.owner b ∉ chosenBy (sixRounds.take (i + 1)) := by
      decide
    obtain ⟨lt, rfl⟩ := List.getElem?_eq_some_iff.mp at_i
    exact each ⟨i, lt⟩

/-- Bin 0, evaluated in three rounds with two steps each. -/
theorem cached_evaluation_sixRows :
    ∃ (st : FastSelection ℝ) (reference : TBinScore ℝ) (next : TCachingBinScorer ℝ),
      play sixLabel sixFeatures 2 sixRounds = .ok st ∧
      buildBinScorerForEval sixLabel 1 2 st.bg 0 = .ok reference ∧
      st.binScorer.evaluate st.bg 0 2 =
        .ok (⟨reference.score / entropy sixLabel.allBins, reference.maximizingSteps,
          reference.minimizingSteps⟩, next) := by
  have exact : ∀ i ≤ 2, (exactProblem sixLabel sixFeatures 6).UniqueSteps
      (chosenBy (sixRounds.take (i + 1))) 0 2 := by
    decide +kernel
  refine cached_evaluation_eq (e := 0) (s := 2) sixPool (by decide) (by decide)
    (show Legal _ _ ([⟨2, [0, 1, 4]⟩, ⟨1, [4, 0]⟩] ++ [⟨3, []⟩]) from sixRounds_legal) (by decide) (by decide)
    (by decide) (by decide) fun i le => ?_
  rw [← exactProblem_map (by decide), Problem.uniqueSteps_map (bits_strictMono (by decide))]
  exact exact i le

end Agreement

end Cmicot
