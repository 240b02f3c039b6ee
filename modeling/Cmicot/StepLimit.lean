import Cmicot.Selection

/-!
The bin limit of the entropy calculators over a whole run (`MAX_BIN_COUNT`).

An evaluation with `s` steps feeds the label, the evaluated bin, `s - 1` helpers and `s`
conditions to one entropy calculator, which takes 64 bins. The step count of a round is the
smaller one of `evalStepCount` and the number of enabled bins, so whether a run reaches the
limit shows only once enough bins are enabled.

* `evaluate_ends`: an evaluation that returns has stayed within the limit, and one that trips
  the check has not.
* `fastFeatureSelection_binLimit`: the same for whole runs.
* `fastFeatureSelection_trips`: a run with the documented maximum of 64 steps that trips it.
-/

namespace Cmicot

open Loop Greedy Search TCachingBinScorer

/-! ### Calls that never trip the check -/

/-- The check of `AddBin` fails only under the condition `c`. -/
def TripsOnlyIf (c : Prop) (e : Failure) : Prop := e = .tooManyBins → c

/-- Whatever goes wrong, it is not the check of `AddBin`. -/
def Quiet {α : Type} (x : Except Failure α) : Prop := Ends (fun _ => True) (· ≠ .tooManyBins) x

section Quiet

variable {α β : Type} {x : Except Failure α} {g : α → Except Failure β} {c : Prop} {Q : β → Prop}

theorem Quiet.bind (quiet : Quiet x) (rest : ∀ a, x = .ok a → Ends Q (TripsOnlyIf c) (g a)) :
    Ends Q (TripsOnlyIf c) (x >>= g) := by
  cases x with
  | ok a => exact rest a rfl
  | error e => exact fun same => absurd same quiet

theorem Quiet.bind_quiet (quiet : Quiet x) (rest : ∀ a, Quiet (g a)) : Quiet (x >>= g) := by
  cases x with
  | ok a => exact rest a
  | error e => exact quiet

theorem quiet_ite {c : Prop} [Decidable c] {a : α} {e : Failure} (other : e ≠ .tooManyBins) :
    Quiet (if c then .ok a else .error e) := by
  split
  · trivial
  · exact other

theorem quiet_getBin (features : TBinFeatureSet) (index : ℤ) : Quiet (features.getBin index) :=
  quiet_ite fun same => by cases same

theorem quiet_setFeatureEnabled (bg : TBackground) (index : ℕ) (enabled : Bool) :
    Quiet (bg.setFeatureEnabled index enabled) := quiet_ite fun same => by cases same

theorem quiet_getFeatureIndexByBinIndex (features : TBinFeatureSet) (b : ℕ) :
    Quiet (features.getFeatureIndexByBinIndex b) := quiet_ite fun same => by cases same

theorem quiet_setBinEnabled (bg : TBackground) (index : ℤ) (enabled : Bool) :
    Quiet (bg.setBinEnabled index enabled) := by
  unfold TBackground.setBinEnabled
  split
  · trivial
  · exact fun same => by cases same

theorem quiet_verified (bins : List ℕ) (best : ℕ) : Quiet (verified bins best) := by
  unfold verified
  split
  · trivial
  · exact fun same => by cases same

theorem quiet_cached (scorer : TCachingBinScorer ℝ) (e : ℤ) : Quiet (scorer.cached e) := by
  unfold cached
  split
  · trivial
  · exact fun same => by cases same

theorem quiet_minMaxElement (values : List UInt64) : Quiet (minMaxElement values) := by
  cases values with
  | nil => exact fun same => by cases same
  | cons value values => trivial

theorem quiet_mapM {l : List α} (each : ∀ x ∈ l, Quiet (g x)) : Quiet (l.mapM g) :=
  (Ends.mapM each).imp (fun _ _ => trivial) fun _ other => other

theorem quiet_foldlM {σ : Type} {f : σ → α → Except Failure σ} (each : ∀ s x, Quiet (f s x))
    (l : List α) (s : σ) : Quiet (l.foldlM f s) :=
  Ends.foldlM (P := fun _ _ => True) trivial fun _ x s _ _ _ => each s x

theorem quiet_countWith (counter : IFrequencyCounter) (values : List UInt64) :
    Quiet (countWith (R := ℝ) counter values) := by
  refine (quiet_foldlM (fun counter value => ?_) values counter).bind_quiet fun _ => trivial
  cases counter with
  | hashMap counter => trivial
  | vector counter =>
    exact Quiet.bind_quiet (quiet_ite fun same => by cases same) fun _ => trivial

theorem quiet_getEntropy (ec : TEntropyCalculator) : Quiet (ec.getEntropy (R := ℝ)) := by
  refine Quiet.bind_quiet ?_ fun _ => quiet_countWith ..
  exact (quiet_minMaxElement ec.values).bind_quiet fun _ => trivial

theorem quiet_getEntropyWithExtraBin (ec : TEntropyCalculator) (bin : TBin) :
    Quiet (ec.getEntropyWithExtraBin (R := ℝ) bin) := by
  unfold TEntropyCalculator.getEntropyWithExtraBin
  split
  · exact fun same => by cases same
  · refine Quiet.bind_quiet ?_ fun _ => quiet_countWith ..
    exact (quiet_minMaxElement ec.values).bind_quiet fun _ => trivial

theorem quiet_getValue (cmi : TCmiCalculator) : Quiet (cmi.getValue (R := ℝ)) :=
  (quiet_getEntropy _).bind_quiet fun _ => (quiet_getEntropy _).bind_quiet fun _ =>
    (quiet_getEntropy _).bind_quiet fun _ => (quiet_getEntropy _).bind_quiet fun _ => trivial

theorem quiet_binValue (cmi : TCmiCalculator) (bg : TBackground) (b : ℕ) :
    Quiet (binValue (R := ℝ) cmi bg b) :=
  (quiet_getBin _ _).bind_quiet fun _ => (quiet_getEntropyWithExtraBin _ _).bind_quiet fun _ =>
    (quiet_getEntropyWithExtraBin _ _).bind_quiet fun _ =>
      (quiet_getEntropyWithExtraBin _ _).bind_quiet fun _ =>
        (quiet_getEntropyWithExtraBin _ _).bind_quiet fun _ => trivial

theorem quiet_extremeElementBy {p : β → β → Prop} [DecidableRel p] (each : ∀ x, Quiet (g x))
    (l : List α) : Quiet (extremeElementBy p g l) := by
  cases l with
  | nil => trivial
  | cons x l =>
    refine (each x).bind_quiet fun _ => (quiet_foldlM (fun best y => ?_) l _).bind_quiet fun _ => trivial
    refine (each y).bind_quiet fun _ => ?_
    split <;> trivial

theorem quiet_enabledBins (bg : TBackground) : Quiet bg.enabledBins := quiet_mapM fun _ _ => quiet_getBin ..

end Quiet

/-! ### Counting the bins of the widest calculator -/

/-- The widest of the four calculators has been given `k` bins. -/
structure TCmiCalculator.Carries (cmi : TCmiCalculator) (k : ℕ) : Prop where
  firstSecondCondition : cmi.firstSecondCondition.binCount = k
  firstCondition : cmi.firstCondition.binCount ≤ k
  condition : cmi.condition.binCount ≤ k
  secondCondition : cmi.secondCondition.binCount ≤ k

section Carries

variable {cmi : TCmiCalculator} {k : ℕ}

/-- An accepted bin makes room for one less; a refused one had no room. -/
theorem addBin_ends (ec : TEntropyCalculator) (bin : TBin) :
    Ends (fun ec' => ec'.binCount = ec.binCount + 1 ∧ ec.binCount < 64)
      (TripsOnlyIf (64 ≤ ec.binCount)) (ec.addBin bin) := by
  unfold TEntropyCalculator.addBin
  split
  · exact fun same => by cases same
  · split
    case isTrue full =>
      intro
      unfold maxBinCount at full
      omega
    case isFalse room => exact ⟨rfl, by unfold maxBinCount at room; omega⟩

/-- Adding to a calculator that is not wider than the widest one. -/
theorem addBin_ends_of_le {ec : TEntropyCalculator} (le : ec.binCount ≤ k) (bin : TBin) :
    Ends (fun ec' => ec'.binCount ≤ k + 1) (TripsOnlyIf (64 ≤ k)) (ec.addBin bin) := by
  have ends := addBin_ends ec bin
  cases added : ec.addBin bin with
  | ok ec' =>
    rw [added] at ends
    have := ends.1
    change ec'.binCount ≤ k + 1
    omega
  | error e =>
    rw [added] at ends
    exact fun same => (ends same).trans le

theorem TCmiCalculator.Carries.addFirstVariableBin (carries : cmi.Carries k) (bin : TBin) :
    Ends (fun cmi' => cmi'.Carries (k + 1) ∧ k < 64) (TripsOnlyIf (64 ≤ k))
      (cmi.addFirstVariableBin bin) := by
  refine (addBin_ends_of_le carries.firstCondition bin).bind fun _ fc => ?_
  have ends := addBin_ends cmi.firstSecondCondition bin
  rw [carries.firstSecondCondition] at ends
  refine ends.bind fun _ fsc => ?_
  exact ⟨⟨fsc.1, fc, carries.condition.trans (Nat.le_succ k), carries.secondCondition.trans (Nat.le_succ k)⟩,
    fsc.2⟩

theorem TCmiCalculator.Carries.addSecondVariableBin (carries : cmi.Carries k) (bin : TBin) :
    Ends (fun cmi' => cmi'.Carries (k + 1) ∧ k < 64) (TripsOnlyIf (64 ≤ k))
      (cmi.addSecondVariableBin bin) := by
  refine (addBin_ends_of_le carries.secondCondition bin).bind fun _ sc => ?_
  have ends := addBin_ends cmi.firstSecondCondition bin
  rw [carries.firstSecondCondition] at ends
  refine ends.bind fun _ fsc => ?_
  exact ⟨⟨fsc.1, carries.firstCondition.trans (Nat.le_succ k), carries.condition.trans (Nat.le_succ k), sc⟩,
    fsc.2⟩

theorem TCmiCalculator.Carries.addConditionBin (carries : cmi.Carries k) (bin : TBin) :
    Ends (fun cmi' => cmi'.Carries (k + 1) ∧ k < 64) (TripsOnlyIf (64 ≤ k))
      (cmi.addConditionBin bin) := by
  refine (addBin_ends_of_le carries.firstCondition bin).bind fun _ fc => ?_
  refine (addBin_ends_of_le carries.condition bin).bind fun _ c => ?_
  have ends := addBin_ends cmi.firstSecondCondition bin
  rw [carries.firstSecondCondition] at ends
  refine ends.bind fun _ fsc => ?_
  exact (addBin_ends_of_le carries.secondCondition bin).bind fun _ sc => ⟨⟨fsc.1, fc, c, sc⟩, fsc.2⟩

/-- A calculator that was given the label. -/
theorem labelCmi_ends (label : TBinFeatureSet) :
    Ends (fun cmi => cmi.Carries label.bins.length ∧ label.bins.length ≤ 64)
      (TripsOnlyIf (64 < label.bins.length)) (labelCmi label) := by
  unfold labelCmi
  split
  · exact fun same => by cases same
  · refine Ends.foldlM (P := fun done (cmi : TCmiCalculator) => cmi.Carries done.length ∧ done.length ≤ 64)
      ⟨⟨rfl, Nat.le_refl _, Nat.le_refl _, Nat.le_refl _⟩, Nat.zero_le _⟩
      fun done bin cmi _ short ⟨carries, _⟩ => ?_
    refine (carries.addFirstVariableBin bin).imp (fun _ added => ?_) fun _ trips same => ?_
    · rw [List.length_append, List.length_singleton]
      exact ⟨added.1, added.2⟩
    · exact Nat.lt_of_le_of_lt (trips same) short

end Carries

/-! ### Evaluations -/

section Evaluate

variable {label : TBinFeatureSet} {background : TBackground} {k step steps : ℕ}

theorem fillFrom_length {α : Type} {xs : List α} {first : ℕ} (le : first ≤ xs.length) (value : α) :
    (fillFrom xs first value).length = xs.length := by
  rw [fillFrom, List.length_append, List.length_take, List.length_replicate]
  omega

theorem resize_length {α : Type} (xs : List α) (size : ℕ) (value : α) :
    (resize xs size value).length = size := by
  rw [resize, List.length_append, List.length_take, List.length_replicate]
  omega

/-- One iteration of the maximisation adds one bin. -/
theorem maximizeStep_ends {st : Maximizing ℝ} (carries : st.maximizerCmi.Carries k)
    (inside : step < st.maxSteps.length) :
    Ends (fun st' => (st'.maximizerCmi.Carries (k + 1) ∧ k < 64) ∧
        st'.maxSteps.length = st.maxSteps.length)
      (TripsOnlyIf (64 ≤ k)) (maximizeStep background step st) := by
  refine (quiet_extremeElementBy (quiet_binValue _ _) _).bind fun best _ => ?_
  refine (quiet_verified _ _).bind fun bestBin _ => ?_
  refine (quiet_binValue _ _ _).bind fun binCmi _ => ?_
  refine (quiet_getBin _ _).bind fun bin _ => ?_
  have length : (recordMaximizer background step bestBin binCmi st).maxSteps.length =
      st.maxSteps.length := by
    unfold recordMaximizer
    split
    · change (fillFrom (st.maxSteps.set step ⟨bestBin, binCmi⟩) (step + 1) noMaximizer).length = _
      rw [fillFrom_length (by rw [List.length_set]; exact inside), List.length_set]
    · rfl
  rw [recordMaximizer_maximizerCmi]
  refine (carries.addConditionBin bin).bind fun cmi added => ?_
  exact ⟨added, length⟩

/-- What both halves of an evaluation begin with: a calculator for the label and the bin. -/
theorem evalBin_ends {β : Type} {P : β → Prop} {c : Prop} {background : TBackground} {evalBinIndex : ℤ}
    {f : TCmiCalculator → Except Failure β} (wide : 64 < label.bins.length + 1 → c)
    (rest : ∀ cmi : TCmiCalculator, cmi.Carries (label.bins.length + 1) → label.bins.length + 1 ≤ 64 →
      Ends P (TripsOnlyIf c) (f cmi)) :
    Ends P (TripsOnlyIf c) (do
      let cmi ← labelCmi label
      let cmi ← cmi.addSecondVariableBin (← background.getBin evalBinIndex)
      f cmi) := by
  refine ((labelCmi_ends label).imp (fun _ h => h) fun _ trips same => ?_).bind fun cmi loaded => ?_
  · have := trips same
    exact wide (by omega)
  refine (quiet_getBin _ _).bind fun bin _ => ?_
  refine ((loaded.1.addSecondVariableBin bin).imp (fun _ h => h) fun _ trips same => ?_).bind
    fun cmi' added => rest cmi' added.1 added.2
  have := trips same
  exact wide (by omega)

/-- The maximisation of an evaluation. -/
theorem maximize_ends (label : TBinFeatureSet) (background : TBackground) (evalBinIndex : ℤ)
    {maxSteps : List (TStepResult ℝ)} (size : maxSteps.length = steps)
    (minSteps : List (TStepResult ℝ)) (binsToProcess : TBackground) :
    Ends (fun st => st.maxSteps.length = steps ∧ label.bins.length + 1 + steps ≤ 64)
      (TripsOnlyIf (64 < label.bins.length + 1 + steps))
      (maximize label background evalBinIndex steps maxSteps minSteps binsToProcess) := by
  refine evalBin_ends (fun wide => by omega) fun cmi' added few => ?_
  refine (Ends.forSteps (I := fun i (st : Maximizing ℝ) =>
    (st.maximizerCmi.Carries (label.bins.length + 1 + i) ∧ label.bins.length + 1 + i ≤ 64) ∧
      st.maxSteps.length = steps)
    ⟨⟨added, few⟩, size⟩ fun i st _ lt held => ?_).imp (fun _ held => ?_) fun _ trips => trips
  case refine_2 =>
    rw [Nat.zero_add] at held
    exact ⟨held.2, held.1.2⟩
  refine (maximizeStep_ends held.1.1 (by rw [held.2]; omega)).imp (fun st' next => ?_)
    fun _ trips same => ?_
  · exact ⟨next.1, next.2.trans held.2⟩
  · have := trips same
    omega

/-- One iteration of the minimisation adds one bin, and a helper if there is one left. -/
theorem minimizeStep_ends {maxSteps : List (TStepResult ℝ)} {st : Minimizing ℝ}
    (carries : st.minimizerCmi.Carries k) :
    Ends (fun st' => ∃ k' ≤ 64, st'.minimizerCmi.Carries k' ∧
        k' = if step < maxSteps.length then k + 2 else k + 1)
      (TripsOnlyIf (64 < if step < maxSteps.length then k + 2 else k + 1))
      (minimizeStep maxSteps step st) := by
  refine (quiet_extremeElementBy (quiet_binValue _ _) _).bind fun best _ => ?_
  refine (quiet_verified _ _).bind fun bestBin _ => ?_
  refine (quiet_binValue _ _ _).bind fun binCmi _ => ?_
  refine (quiet_setBinEnabled _ _ _).bind fun binsToProcess _ => ?_
  refine (quiet_setBinEnabled _ _ _).bind fun background _ => ?_
  refine (quiet_getBin _ _).bind fun bin _ => ?_
  rw [recordMinimizer_minimizerCmi]
  refine ((carries.addConditionBin bin).imp (fun _ h => h) fun _ trips same => ?_).bind fun cmi added => ?_
  · have := trips same
    split <;> omega
  by_cases left : step < maxSteps.length
  · rw [if_pos left]
    have helper : addHelper cmi background maxSteps step =
        (background.getBin maxSteps[step].binIndex >>= cmi.addSecondVariableBin) := by
      simp [addHelper, left]
    rw [helper]
    refine Ends.bind (P := fun cmi' : TCmiCalculator => cmi'.Carries (k + 2) ∧ k + 1 < 64) ?_
      fun cmi' helped => ⟨k + 2, helped.2, helped.1, rfl⟩
    refine (quiet_getBin _ _).bind fun bin _ => (added.1.addSecondVariableBin bin).imp (fun _ h => h)
      fun _ trips same => ?_
    exact Nat.lt_succ_of_le (trips same)
  · rw [if_neg left]
    have none : addHelper cmi background maxSteps step = .ok cmi := by
      simp [addHelper, left]
    rw [none]
    exact ⟨k + 1, added.2, added.1, rfl⟩

/-- The minimisation of an evaluation feeds the label, the bin, the helpers and the
conditions to the widest calculator. -/
theorem minimize_ends (evalBinIndex : ℤ) {maxSteps : List (TStepResult ℝ)}
    (size : maxSteps.length + 1 = steps) (minSteps : List (TStepResult ℝ)) (binsToProcess : TBackground) :
    Ends (fun _ => label.bins.length + 2 * steps ≤ 64) (TripsOnlyIf (64 < label.bins.length + 2 * steps))
      (minimize label background evalBinIndex steps maxSteps minSteps binsToProcess) := by
  refine evalBin_ends (fun wide => by omega) fun cmi' added few => ?_
  refine (Ends.forSteps (I := fun i (st : Minimizing ℝ) =>
    st.minimizerCmi.Carries (label.bins.length + 1 + i + min i maxSteps.length) ∧
      label.bins.length + 1 + i + min i maxSteps.length ≤ 64)
    ⟨added, few⟩ fun i st _ lt held => ?_).imp (fun _ held => ?_) fun _ trips => trips
  · have count : (if i < maxSteps.length then label.bins.length + 1 + i + min i maxSteps.length + 2
        else label.bins.length + 1 + i + min i maxSteps.length + 1) =
        label.bins.length + 1 + (i + 1) + min (i + 1) maxSteps.length := by
      split <;> omega
    refine (minimizeStep_ends held.1).imp (fun st' next => ?_) fun _ trips same => ?_
    · obtain ⟨k', le, carries, rfl⟩ := next
      rw [count] at carries le
      exact ⟨carries, le⟩
    · have := trips same
      rw [count] at this
      omega
  · have := held.2
    omega

/-- **An evaluation that returns has stayed within the limit, one that trips the check has
not.** -/
theorem evaluate_ends (scorer : TCachingBinScorer ℝ) (bg : TBackground) (evalBinIndex stepCount : ℤ) :
    Ends (fun result => result.2.label = scorer.label ∧
        scorer.label.bins.length + 2 * stepCount ≤ 64)
      (TripsOnlyIf (64 < scorer.label.bins.length + 2 * stepCount))
      (scorer.evaluate bg evalBinIndex stepCount) := by
  refine (quiet_setBinEnabled _ _ _).bind fun background _ => ?_
  refine (quiet_enabledBins _).bind fun enabled _ => ?_
  refine Ends.guard (fun _ same => by cases same) fun _ => ?_
  refine Ends.guard (fun _ same => by cases same) fun _ => ?_
  refine (quiet_cached _ _).bind fun entry _ => ?_
  refine Ends.guard (fun _ same => by cases same) fun nonneg => ?_
  refine ((maximize_ends _ _ evalBinIndex (resize_length ..) _ _).imp (fun _ h => h)
    fun _ trips same => ?_).bind fun maximized length => ?_
  · have := trips same
    omega
  refine (quiet_setBinEnabled _ _ _).bind fun binsToProcess _ => ?_
  refine (quiet_setBinEnabled _ _ _).bind fun background _ => ?_
  have length := length.1
  refine ((minimize_ends evalBinIndex (show maximized.maxSteps.length + 1 = stepCount.toNat by omega) _ _).imp
    (fun _ h => h) fun _ trips same => ?_).bind fun minimized fits => ?_
  · have := trips same
    omega
  refine (quiet_getValue _).bind fun value _ => ?_
  exact ⟨rfl, by omega⟩

end Evaluate

/-! ### Runs -/

section Runs

variable {label features : TBinFeatureSet} {t : ℤ} {st : FastSelection ℝ}

theorem quiet_selectBin (features : TBinFeatureSet) (bg : TBackground) (b : ℕ) :
    Quiet (selectBin features bg b) :=
  (quiet_getFeatureIndexByBinIndex _ _).bind_quiet fun _ =>
    (quiet_setFeatureEnabled _ _ _).bind_quiet fun _ => trivial

theorem evaluateEach_ends (bg : TBackground) (s : ℤ) (bins : List ℕ) (scorer : TCachingBinScorer ℝ) :
    Ends (fun result => result.2.label = scorer.label ∧
        (bins ≠ [] → scorer.label.bins.length + 2 * s ≤ 64))
      (TripsOnlyIf (64 < scorer.label.bins.length + 2 * s)) (evaluateEach bg s bins scorer) := by
  induction bins generalizing scorer with
  | nil => exact ⟨rfl, fun none => absurd rfl none⟩
  | cons b bins ih =>
    refine (evaluate_ends scorer bg b s).bind fun first here => ?_
    have rest := ih first.2
    rw [here.1] at rest
    exact rest.bind fun others there => ⟨there.1, fun _ => here.2⟩

/-- A round that ends normally has stayed within the limit, one that trips the check has not. -/
theorem fastRound_ends (features : TBinFeatureSet) (t : ℤ) (st : FastSelection ℝ) :
    Ends (fun next => next.2.binScorer.label = st.binScorer.label ∧
        st.binScorer.label.bins.length + 2 * stepCount st.bg t ≤ 64)
      (TripsOnlyIf (64 < st.binScorer.label.bins.length + 2 * stepCount st.bg t))
      (fastRound features t st) := by
  refine (evaluateEach_ends _ _ _ _).bind fun results each => ?_
  refine (quiet_extremeElementBy (g := Except.ok) (fun _ => trivial) _).bind fun best _ => ?_
  refine (quiet_verified _ _).bind fun bestBin found => ?_
  have some : st.bg.disabledBinIndexes ≠ [] := by
    rintro none
    rw [none] at found
    cases found
  exact (quiet_selectBin _ _ _).bind fun selected _ => ⟨each.1, each.2 some⟩

/-- Loading the label is all that can trip the check before the loop. -/
theorem selectFirst_ends (label features : TBinFeatureSet) :
    Ends (fun _ => True) (TripsOnlyIf (64 < label.bins.length)) (selectFirst ℝ label features) := by
  refine Ends.bind (P := fun _ => True) ?_ fun b _ => ?_
  · unfold getBinWithMaximalMutualInformationWithLabel
    split
    · exact fun same => by cases same
    · refine Ends.bind (P := fun mi : TMutualInformationCalculator => mi.first.binCount = _)
        (Ends.foldlM (P := fun done (mi : TMutualInformationCalculator) => mi.first.binCount = done.length)
          rfl fun done bin mi _ short held => ?_) fun mi _ => ?_
      · refine ((addBin_ends mi.first bin).imp (fun _ h => h) fun _ trips same => ?_).bind
          fun _ added => ?_
        · exact Nat.lt_of_le_of_lt (held ▸ trips same) short
        · rw [List.length_append, List.length_singleton]
          exact held ▸ added.1
      · refine (quiet_mapM fun b _ => ?_).bind fun values _ => ?_
        · refine (quiet_getBin _ _).bind_quiet fun bin => ?_
          exact (quiet_getEntropy _).bind_quiet fun _ =>
            (quiet_getEntropyWithExtraBin _ _).bind_quiet fun _ => trivial
        · have quiet := quiet_extremeElementBy (p := (· > ·)) (g := Except.ok) (fun _ => trivial) values
          exact quiet.imp (fun _ h => h) fun _ other same => absurd same other
  · refine (quiet_getFeatureIndexByBinIndex _ _).bind fun first _ => ?_
    exact (quiet_setFeatureEnabled _ _ _).bind fun bg _ => trivial

/-- In every round the run enters, the label and twice the step count fit into 64 bins. -/
def RoundsFit (label features : TBinFeatureSet) (t featureCount : ℤ) : Prop :=
  ∀ first bg, selectFirst ℝ label features = .ok (first, bg) →
    ∀ (k : ℕ) (st : FastSelection ℝ), (k : ℤ) < min featureCount features.getFeatureCount - 1 →
      stateAfter (fastRound features t) k ⟨bg, ofLabel label features.getBinCount⟩ = .ok st →
      label.bins.length + 2 * stepCount st.bg t ≤ 64

/-- **Runs and the bin limit.** A run whose rounds all fit never trips the check, and a run
with a round that does not fit never returns. -/
theorem fastFeatureSelection_binLimit {featureCount : ℤ} (few : label.bins.length ≤ 64) :
    (RoundsFit label features t featureCount →
        (fastFeatureSelection ℝ label features t featureCount).stopped ≠ some .tooManyBins) ∧
      ((fastFeatureSelection ℝ label features t featureCount).stopped = none →
        RoundsFit label features t featureCount) := by
  have kept : ∀ {bg : TBackground} {k : ℕ} {st : FastSelection ℝ},
      stateAfter (fastRound features t) k ⟨bg, ofLabel label features.getBinCount⟩ = .ok st →
      st.binScorer.label = label := fun after => by
    refine stateAfter_inv (P := fun st : FastSelection ℝ => st.binScorer.label = label)
      (fun st f next held ran => ?_) rfl after
    have ends := fastRound_ends features t st
    rw [ran] at ends
    exact ends.1.trans held
  constructor
  · intro fits stopped
    rw [fastFeatureSelection] at stopped
    split at stopped
    case h_1 why failed =>
      have ends := selectFirst_ends label features
      rw [failed] at ends
      exact absurd (ends (Option.some.inj stopped)) (Nat.not_lt.mpr few)
    case h_2 first bg selected =>
      obtain ⟨k, lt, st, after, failed⟩ := emitLoop_stopped stopped
      have ends := fastRound_ends features t st
      rw [failed, kept after] at ends
      have := ends rfl
      have := fits first bg selected k st (by omega) after
      omega
  · intro completed first bg selected k st lt after
    rw [fastFeatureSelection, selected] at completed
    obtain ⟨next, ran⟩ := emitLoop_completed completed (by omega) after
    have ends := fastRound_ends features t st
    rw [ran, kept after] at ends
    exact ends.2

/-- A label of one bin leaves room for 31 steps. -/
theorem fastFeatureSelection_binLimit_sixRows :
    (fastFeatureSelection ℝ sixLabel sixFeatures 31 4).stopped ≠ some .tooManyBins :=
  (fastFeatureSelection_binLimit (by decide)).1 fun _ _ _ _ st _ _ => by
    have steps : stepCount st.bg 31 ≤ 31 := min_le_right _ _
    have labels : sixLabel.bins.length = 1 := rfl
    omega

end Runs

/-! ### A run that trips the check -/

section OneRow

variable {label features : TBinFeatureSet} {cmi : TCmiCalculator} {bg background : TBackground} {b k : ℕ}

/-- One value is counted whatever its bits are: no entropy, and no range that could wrap. -/
theorem getEntropyWithExtraBin_oneRow {ec : TEntropyCalculator} {bin : TBin} (one : ec.values.length = 1)
    (length : bin.length = 1) : ec.getEntropyWithExtraBin (R := ℝ) bin = .ok 0 := by
  obtain ⟨value, values⟩ := List.length_eq_one_iff.mp one
  obtain ⟨bit, rfl⟩ := List.length_eq_one_iff.mp length
  have extra : ec.extraValues [bit] = [2 * value + bit.toUInt64] := by
    simp [TEntropyCalculator.extraValues, values]
  have counter : ec.extraCounter = .ok (buildFrequencyCounter (2 * value) (2 * value + 1)) := by
    simp [TEntropyCalculator.extraCounter, values, minMaxElement]
  have between : ∀ v ∈ [2 * value + bit.toUInt64], 2 * value ≤ v ∧ v ≤ 2 * value + 1 := by
    intro v mem
    have bound := bit.toNat_le
    rw [List.mem_singleton.mp mem]
    simp [UInt64.le_iff_toNat_le, TEntropyCalculator.bool_toUInt64_toNat]
    omega
  have built : buildFrequencyCounter ∈ TEntropyCalculator.builders := by
    simp [TEntropyCalculator.builders]
  have counted := TEntropyCalculator.countWith_builders between
    (by simp [UInt64.toNat_add, UInt64.toNat_mul]; omega) built
  have zero : Empirical.entropy (column [2 * value + bit.toUInt64]) = 0 :=
    Empirical.entropy_const fun i j => by rw [@Subsingleton.elim (Fin 1) _ i j]
  rw [TEntropyCalculator.getEntropyWithExtraBin, if_neg (by simp [values])]
  simp only [counter, extra, counted, zero, ok_bind]

/-- The four calculators hold one row. -/
structure TCmiCalculator.OneRow (cmi : TCmiCalculator) : Prop where
  firstCondition : cmi.firstCondition.values.length = 1
  condition : cmi.condition.values.length = 1
  firstSecondCondition : cmi.firstSecondCondition.values.length = 1
  secondCondition : cmi.secondCondition.values.length = 1

theorem binValue_oneRow (one : cmi.OneRow) (pool : Pool label features 1) (same : bg.features = features)
    (inside : b < features.getBinCount) : binValue (R := ℝ) cmi bg b = .ok 0 := by
  have length := pool.binAt_length inside
  rw [binValue, TBackground.getBin, same, getBin_binAt inside, ok_bind,
    TCmiCalculator.getValueWithConditionBin, getEntropyWithExtraBin_oneRow one.firstCondition length,
    getEntropyWithExtraBin_oneRow one.condition length,
    getEntropyWithExtraBin_oneRow one.firstSecondCondition length,
    getEntropyWithExtraBin_oneRow one.secondCondition length]
  simp

/-- A bin of one row is taken unless the calculator is full. -/
theorem addBin_oneRow {ec : TEntropyCalculator} {bin : TBin} (one : ec.values.length = 1)
    (length : bin.length = 1) :
    Ends (fun ec' => ec'.values.length = 1) (· = .tooManyBins) (ec.addBin bin) := by
  unfold TEntropyCalculator.addBin
  rw [if_neg (by simp [one, length])]
  split
  · exact rfl
  · simp [Ends, one, length]

theorem TCmiCalculator.OneRow.addConditionBin (one : cmi.OneRow) {bin : TBin} (length : bin.length = 1) :
    Ends TCmiCalculator.OneRow (· = .tooManyBins) (cmi.addConditionBin bin) :=
  (addBin_oneRow one.firstCondition length).bind fun _ fc =>
    (addBin_oneRow one.condition length).bind fun _ c =>
      (addBin_oneRow one.firstSecondCondition length).bind fun _ fsc =>
        (addBin_oneRow one.secondCondition length).bind fun _ sc => ⟨fc, c, fsc, sc⟩

/-- The loop state of the maximisation on one row: the first `i` steps are placed. -/
structure Placed (features : TBinFeatureSet) (size steps i : ℕ) (st : Maximizing ℝ) : Prop where
  same : st.binsToProcess.features = features
  enough : size ≤ st.binsToProcess.enabledBinIndexes.length
  maxSteps : ∃ done : List (ℕ × ℝ), done.length = i ∧ Padded (· = -1) done steps st.maxSteps
  one : st.maximizerCmi.OneRow

/-- On one row every value is 0, so each step takes the first candidate left, and nothing but
a full calculator can stop the loop. -/
theorem Placed.step {size steps i : ℕ} {st : Maximizing ℝ} (placed : Placed features size steps i st)
    (pool : Pool label features 1) (same : background.features = features)
    (enough : size ≤ background.enabledBinIndexes.length) (room : steps ≤ size) (lt : i < steps) :
    Ends (Placed features size steps (i + 1)) (· = .tooManyBins) (maximizeStep background i st) := by
  obtain ⟨done, rfl, padded⟩ := placed.maxSteps
  have left : withoutHelpers st.maxSteps done.length st.binsToProcess.enabledBinIndexes =
      unused st.binsToProcess.enabledBinIndexes done :=
    withoutHelpers_eq fun j x at_j => by
      rw [padded.getD_recorded at_j]
      rfl
  have inside : ∀ b ∈ unused st.binsToProcess.enabledBinIndexes done, b < features.getBinCount :=
    fun b mem => by
      have enabled := TBackground.mem_enabledBinIndexes.mp (mem_unused.mp mem).1
      have lt := TBackground.lt_of_enabled enabled
      rwa [TBackground.getBinCount, placed.same] at lt
  have values : ∀ b ∈ unused st.binsToProcess.enabledBinIndexes done,
      binValue (R := ℝ) st.maximizerCmi background b = .ok 0 := fun b mem =>
    binValue_oneRow placed.one pool same (inside b mem)
  obtain ⟨b, found⟩ := exists_pick (r := (· > ·)) (f := fun _ : ℕ => (0 : ℝ))
    (unused_ne_nil (@TBackground.enabledBinIndexes_sorted st.binsToProcess).nodup
      (show done.length < _ by have := placed.enough; omega))
  obtain ⟨pos, scanned, at_pos⟩ := extremeElementBy_ok (p := (· > ·)) values
  have chosen : verified (unused st.binsToProcess.enabledBinIndexes done) pos = .ok b := by
    rw [verified, at_pos, found]
  have bInside := inside b (pick_mem found)
  have wins : (0 : ℝ) > (st.maxSteps.getD done.length noMaximizer).cmi := by
    rw [padded.getD_blank (d := noMaximizer) (i := done.length) le_rfl lt]
    norm_num
  have whole : Padded (· = -1) (done ++ []) steps st.maxSteps := by rwa [List.append_nil]
  have next := whole.place (b := b) (v := 0) (w := noMaximizer) lt rfl
  have here := next.getD_recorded (d := noMaximizer) (i := done.length) (x := (b, 0)) (by simp)
  simp only [maximizeStep, left, scanned, chosen, values b (pick_mem found), ok_bind, recordMaximizer,
    if_pos wins]
  simp only [here, toStep, TBackground.getBin, same, getBin_binAt bInside, ok_bind]
  refine (placed.one.addConditionBin (pool.binAt_length bInside)).bind fun cmi one => ?_
  exact ⟨same, enough, ⟨_, by simp, next⟩, one⟩

theorem TCmiCalculator.Holds.oneRow {first second given : List TBin} (held : cmi.Holds 1 first second given) :
    cmi.OneRow := by
  have size : ∀ {ec : TEntropyCalculator} {bins : List TBin}, ec.Holds 1 bins → ec.values.length = 1 := by
    rintro ec bins ⟨ordered, packs, -⟩
    simp [packs.values, codes]
  exact ⟨size held.firstCondition, size held.condition, size held.firstSecondCondition,
    size held.secondCondition⟩

/-- On one row, a maximisation with more steps than a calculator has room for trips the check. -/
theorem maximize_trips {e : ℕ} (steps : ℕ) {binsToProcess : TBackground} (pool : Pool label features 1)
    (few : label.bins.length < 64)
    (same : background.features = features) (enough : steps ≤ background.enabledBinIndexes.length)
    (sameLast : binsToProcess.features = features)
    (enoughLast : steps ≤ binsToProcess.enabledBinIndexes.length) (inside : e < features.getBinCount)
    (many : 64 < label.bins.length + 1 + steps) (minSteps : List (TStepResult ℝ)) :
    maximize label background e steps (resize [] steps noMaximizer) minSteps binsToProcess =
      .error .tooManyBins := by
  have fits := maximize_ends label background (e : ℤ)
    (resize_length [] steps noMaximizer) minSteps binsToProcess
  obtain ⟨cmi, loaded, fed⟩ := labelCmi_ok pool few.le
  obtain ⟨cmi', added, fed'⟩ := fed.addSecondVariableBin pool (b := e) (by simpa using few) inside
  have ends : Ends (Placed features steps steps (0 + steps)) (· = .tooManyBins)
      (maximize label background e steps (resize [] steps noMaximizer) minSteps binsToProcess) := by
    simp only [maximize, loaded, ok_bind, TBackground.getBin, same, getBin_binAt inside, added]
    refine Ends.forSteps (I := Placed features steps steps) ?_ fun i st _ lt placed => ?_
    · exact ⟨sameLast, enoughLast, ⟨[], rfl, padded_resize (Nat.zero_le _) rfl⟩, fed'.oneRow⟩
    · exact placed.step pool same enough le_rfl (by omega)
  cases ran : maximize label background e steps (resize [] steps noMaximizer) minSteps binsToProcess with
  | ok st =>
    rw [ran] at fits
    exact absurd fits.2 (Nat.not_le.mpr many)
  | error why =>
    rw [ran] at ends
    rw [show why = .tooManyBins from ends]

/-- On one row, an evaluation of a fresh cache entry with at least 64 steps trips the check. -/
theorem evaluate_trips {f e s : ℕ} (pool : Pool label features 1) (few : label.bins.length < 64)
    (shown : bg.Shows features [f]) (inside : e < features.getBinCount) (disabled : features.owner e ∉ [f])
    (many : 64 < label.bins.length + s) (room : s ≤ ((problem label features 1).enabledBins [f]).length) :
    (ofLabel (R := ℝ) label features.getBinCount).evaluate bg e s = .error .tooManyBins := by
  obtain ⟨background, on, same, enabled⟩ := shown.setBinEnabled label 1 inside
  have wider := Problem.enabledBins_length_lt (P := problem label features 1) inside disabled
  have last : bg.lastEnabled.enabledBinIndexes = (problem label features 1).enabledBins [f] := by
    rw [shown.lastEnabled label 1 (by simp)]
    simp [Problem.lastBins, Problem.ownedBins, Problem.enabledBins]
  have enough : s + 1 ≤ background.enabledBinIndexes.length := by
    rw [enabled]
    omega
  have range : e < background.getBinCount := by
    rw [TBackground.getBinCount, same]
    exact inside
  have entry : (ofLabel (R := ℝ) label features.getBinCount).cached (e : ℤ) = .ok ⟨0, [], []⟩ := by
    simp [cached, ofLabel, inside]
  have trips := maximize_trips (e := e) (s - 1) pool few same (by rw [enabled]; omega)
    (show bg.lastEnabled.features = features from shown.features) (by rw [last]; omega) inside (by omega)
    (resize [] s noMinimizer)
  have labelled : (ofLabel (R := ℝ) label features.getBinCount).label = label := rfl
  rw [evaluate_of_checks _ on enough range entry (by omega)]
  simp only [labelled, trips, error_bind]

end OneRow

/-- One row, one label bin and two features of 64 bins each. -/
def oneRowFeatures : TBinFeatureSet :=
  ((TBinFeatureSet.ofBins (List.replicate 64 [false])).addFeature (List.replicate 64 [false])).1

theorem pool_oneRow : Pool (.ofBins [[false]]) oneRowFeatures 1 :=
  ⟨by decide, by decide, by decide, by decide +kernel⟩

/-- With the documented maximum of 64 steps the second round trips the check. -/
theorem fastFeatureSelection_trips :
    (fastFeatureSelection ℝ (.ofBins [[false]]) oneRowFeatures 64 2).stopped = some .tooManyBins := by
  let P := problem (.ofBins [[false]]) oneRowFeatures 1
  -- either feature has 64 bins, so it does not matter which one comes first
  have halves : ∀ f < 2, (P.enabledBins [f]).length = 64 ∧ P.disabledBins [f] ≠ [] := by
    decide +kernel
  obtain ⟨f, found, some⟩ := exists_firstFeature (.ofBins [[false]]) 1
    (show 0 < oneRowFeatures.getBinCount by decide +kernel)
  obtain ⟨bg, selected, shown, -⟩ := selectFirst_ok pool_oneRow (by decide) found
  obtain ⟨b, mem⟩ := List.exists_mem_of_ne_nil _ some
  obtain ⟨inside, owner⟩ := Problem.mem_ownedBins.mp mem
  obtain ⟨owned, others⟩ := halves f (owner ▸ TBinFeatureSet.owner_lt inside)
  have steps : stepCount bg 64 = (64 : ℕ) := by
    rw [stepCount, shown.enabledBinIndexes (.ofBins [[false]]) 1, owned]
    rfl
  have fails : fastRound oneRowFeatures 64 ⟨bg, ofLabel (R := ℝ) (.ofBins [[false]]) oneRowFeatures.getBinCount⟩ =
      .error .tooManyBins := by
    rw [fastRound, steps, shown.disabledBinIndexes (.ofBins [[false]]) 1]
    cases disabled : P.disabledBins [f] with
    | nil => exact absurd disabled others
    | cons e rest =>
      obtain ⟨inside, off⟩ := Problem.mem_disabledBins.mp (disabled ▸ List.mem_cons_self : e ∈ P.disabledBins [f])
      have trips := evaluate_trips pool_oneRow (by decide) shown inside off (s := 64) (by decide)
        owned.ge
      simp only [evaluateEach, trips, error_bind]
  rw [fastFeatureSelection, selected]
  simp [emitLoop, Emitted.cons, fails, show oneRowFeatures.getFeatureCount = 2 from rfl]

end Cmicot
