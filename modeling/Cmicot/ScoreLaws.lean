import Cmicot.BinScore
import Cmicot.ExactValues

/-!
What the reference score says about a bin.

The score is the last value of a greedy descent. On which data it vanishes or descends depends
on how ties are broken along the way, so the laws speak about the steps that the scorer returns.

* `score_exhaustive`: with as many steps as enabled bins, the score is the information about the
  label under all of them.
* `copy_worthless`: a copy of an enabled bin says nothing at the first step, and in the end
  unless the conditions miss it or one of its helpers.
* `minimizing_growth`: what the value gains or loses from one step to the next.
-/

namespace Cmicot

open Loop Greedy Search

section Laws

variable {label : TBinFeatureSet} {bg : TBackground} {n e s : ℕ} {result : TBinScore ℝ} {steps : Entry ℝ}

/-- The reference scorer returned `result`, with these steps. -/
structure Evaluated (label : TBinFeatureSet) (bg : TBackground) (n e s : ℕ) (result : TBinScore ℝ)
    (steps : Entry ℝ) : Prop where
  ran : buildBinScorerForEval label ((s : ℤ) - 1) s bg (e : ℤ) = .ok result
  computed : scratch (cmiAt label bg.features n) (bg.withBin e) (bg.outside e) e s = steps
  score : result.score = value (cmiAt label bg.features n) e steps
  helpers : result.maximizingSteps = toSteps steps.maxSteps
  conditions : result.minimizingSteps = toSteps steps.minSteps
  helperCount : steps.maxSteps.length = s - 1
  conditionCount : steps.minSteps.length = s
  room : s ≤ (bg.outside e).length

theorem exists_evaluated (pool : Pool label bg.features n) (h : e < bg.getBinCount) (pos : 0 < s)
    (room : s ≤ (bg.outside e).length) (few : label.bins.length + 2 * s ≤ 62) :
    ∃ result steps, Evaluated label bg n e s result steps := by
  have le : (bg.outside e).length ≤ (bg.withBin e).length := TBackground.outside_length_le
  exact ⟨_, _, buildBinScorerForEval_scratch pool h pos room few, rfl, rfl, rfl, rfl,
    greedy_length TBackground.withBin_sorted (by omega), greedy_length TBackground.outside_sorted room, room⟩

/-- Every evaluation that returns is one of these. -/
theorem evaluated_of_ok (pool : Pool label bg.features n) (h : e < bg.getBinCount) (pos : 0 < s)
    (few : label.bins.length + 2 * s ≤ 62)
    (ran : buildBinScorerForEval label ((s : ℤ) - 1) s bg (e : ℤ) = .ok result) :
    ∃ steps, Evaluated label bg n e s result steps := by
  rcases Nat.lt_or_ge (bg.outside e).length s with short | room
  · obtain ⟨why, failed⟩ := buildBinScorerForEval_few pool h short (by omega)
    rw [ran] at failed
    cases failed
  · obtain ⟨result', steps, evaluated⟩ := exists_evaluated pool h pos room few
    obtain rfl := Except.ok.inj (ran.symm.trans evaluated.ran)
    exact ⟨steps, evaluated⟩

namespace Evaluated

variable (evaluated : Evaluated label bg n e s result steps)
include evaluated

theorem valid : steps.Valid (bg.withBin e) (bg.outside e) := by
  have room := evaluated.room
  have le : (bg.outside e).length ≤ (bg.withBin e).length := TBackground.outside_length_le
  rw [← evaluated.computed]
  exact ⟨greedy_nodup TBackground.withBin_sorted (by omega), greedy_subset TBackground.withBin_sorted (by omega),
    greedy_nodup TBackground.outside_sorted room, greedy_subset TBackground.outside_sorted room⟩

theorem helper_mem {b : ℕ} (mem : b ∈ elements steps.maxSteps) : b < bg.getBinCount ∧ (b = e ∨ bg.enabled b = true) :=
  TBackground.mem_withBin.mp (evaluated.valid.maxMem b mem)

/-- The value of a condition, next to those of the bins that were left. -/
theorem condition {k : ℕ} {x : ℕ × ℝ} (at_k : steps.minSteps[k]? = some x) :
    x.2 = cmiAt label bg.features n (e :: (elements steps.maxSteps).take k) ((elements steps.minSteps).take (k + 1)) ∧
      ∀ c ∈ bg.outside e, c ∉ (elements steps.minSteps).take k → x.2 ≤ cmiAt label bg.features n
        (e :: (elements steps.maxSteps).take k) ((elements steps.minSteps).take k ++ [c]) :=
  scratch_condition evaluated.computed TBackground.outside_sorted evaluated.room at_k

/-- The score is the value of the last condition. -/
theorem score_eq {x : ℕ × ℝ} (last : steps.minSteps[s - 1]? = some x) : result.score = x.2 := by
  have inside := (List.getElem?_eq_some_iff.mp last).1
  have count := evaluated.conditionCount
  rw [(evaluated.condition last).1, evaluated.score, value,
    List.take_of_length_le (by simp [evaluated.helperCount]), List.take_of_length_le (by simp; omega)]

end Evaluated

/-- **Exhaustive steps give the exact conditional information.** -/
theorem score_exhaustive (pool : Pool label bg.features n) (h : e < bg.getBinCount)
    (disabled : ∀ b, bg.enabled b = true → bg.features.owner b ≠ bg.features.owner e)
    (pos : 0 < bg.enabledBinIndexes.length) (few : label.bins.length + 2 * bg.enabledBinIndexes.length ≤ 62) :
    ∃ result, buildBinScorerForEval label ((bg.enabledBinIndexes.length : ℤ) - 1) bg.enabledBinIndexes.length bg
        (e : ℤ) = .ok result ∧
      result.score = cmiAt label bg.features n [e] bg.enabledBinIndexes := by
  have outer : bg.outside e = bg.enabledBinIndexes := List.filter_eq_self.mpr fun b mem =>
    decide_eq_true (disabled b (TBackground.mem_enabledBinIndexes.mp mem))
  obtain ⟨result, steps, evaluated⟩ := exists_evaluated pool h pos (by rw [outer]) few
  have exhaustive : value (cmiAt label bg.features n) e steps = cmiAt label bg.features n [e] (bg.outside e) :=
    value_exhaustive evaluated.valid (by rw [evaluated.conditionCount, outer]) fun b mem =>
      (TBackground.mem_withBin.mp mem).2.imp_right fun on => outer ▸ TBackground.mem_enabledBinIndexes.mpr on
  exact ⟨result, evaluated.ran, by rw [evaluated.score, exhaustive, outer]⟩

/-! ### Copies -/

/-- The conditions up to number `k` determine the bin and the helpers before it. -/
def TBackground.Covers (bg : TBackground) (n e : ℕ) (steps : Entry ℝ) (k : ℕ) : Prop :=
  bg.features.Settles n ((elements steps.minSteps).take (k + 1)) (e :: (elements steps.maxSteps).take k)

/-- No other bin of the feature of `e` is among these. -/
def TBackground.NoSiblings (bg : TBackground) (e : ℕ) (bs : List ℕ) : Prop :=
  ∀ b ∈ bs, bg.features.owner b = bg.features.owner e → b = e

/-- No condition before the last shares its value with another bin that is left. -/
def Untied (label : TBinFeatureSet) (bg : TBackground) (n e : ℕ) (steps : Entry ℝ) : Prop :=
  ∀ k x, k + 1 < steps.minSteps.length → steps.minSteps[k]? = some x →
    ∀ c ∈ bg.outside e, c ∉ (elements steps.minSteps).take (k + 1) →
      x.2 ≠ cmiAt label bg.features n (e :: (elements steps.maxSteps).take k) ((elements steps.minSteps).take k ++ [c])

namespace Evaluated

variable (evaluated : Evaluated label bg n e s result steps) {k c : ℕ} {x : ℕ × ℝ}
include evaluated

/-- Next to a copy of the bin, the first condition leaves nothing. -/
theorem first_eq_zero (copy : c ∈ bg.outside e) (equal : bg.features.binAt c = bg.features.binAt e)
    (first : steps.minSteps[0]? = some x) : x.2 = 0 := by
  obtain ⟨value, least⟩ := evaluated.condition first
  refine le_antisymm ((least c copy (by simp)).trans_eq ?_) (value ▸ cmiAt_nonneg)
  refine TBinFeatureSet.Settles.cmiAt_eq_zero (determines_of_subset ?_)
  simp [equal]

/-- A helper outside the feature of the bin is a bin to choose from. -/
theorem helper_outside {b : ℕ} (mem : b ∈ elements steps.maxSteps)
    (own : bg.features.owner b = bg.features.owner e → b = e) : b = e ∨ b ∈ bg.outside e := by
  by_cases owner : bg.features.owner b = bg.features.owner e
  · exact .inl (own owner)
  · exact (evaluated.helper_mem mem).2.imp_right fun on => TBackground.mem_outside.mpr ⟨on, owner⟩

/-- Once the bin and its helpers so far are covered, so is the next helper, or it is a bin that is left
and covers itself. -/
theorem next_helper (own : bg.NoSiblings e ((elements steps.maxSteps).drop k)) (lt : k + 1 < s)
    (covers : bg.Covers n e steps k) :
    bg.features.Settles n ((elements steps.minSteps).take (k + 1)) (e :: (elements steps.maxSteps).take (k + 1)) ∨
      ∃ h ∈ bg.outside e, h ∉ (elements steps.minSteps).take (k + 1) ∧ bg.features.Settles n
        ((elements steps.minSteps).take (k + 1) ++ [h]) (e :: (elements steps.maxSteps).take (k + 1)) := by
  have inside : k < steps.maxSteps.length := by
    rw [evaluated.helperCount]
    omega
  have at_k := List.getElem?_eq_getElem inside
  set h := steps.maxSteps[k]
  have mem := mem_elements_of_getElem? at_k
  have dropped : h.1 ∈ (elements steps.maxSteps).drop k := by
    rw [elements, ← List.map_drop, List.drop_eq_getElem_cons inside]
    exact List.mem_cons_self
  rw [elements_take_succ at_k, ← List.cons_append]
  by_cases used : h.1 ∈ (elements steps.minSteps).take (k + 1)
  · exact .inl (TBinFeatureSet.Settles.append covers (settles_of_subset (by simpa using used)))
  rcases evaluated.helper_outside mem (own _ dropped) with same | left
  · exact .inl (TBinFeatureSet.Settles.append covers (covers.mono (List.Subset.refl _) (by simp [same])))
  · refine .inr ⟨h.1, left, used, TBinFeatureSet.Settles.append ?_ (settles_of_subset (by simp))⟩
    exact covers.mono (List.subset_append_left ..) (List.Subset.refl _)

/-- Once the bin and its helpers so far are covered, the next condition leaves nothing. -/
theorem next_eq_zero (own : bg.NoSiblings e ((elements steps.maxSteps).drop k)) (lt : k + 1 < s)
    (covers : bg.Covers n e steps k) (next : steps.minSteps[k + 1]? = some x) : x.2 = 0 := by
  obtain ⟨value, least⟩ := evaluated.condition next
  rcases evaluated.next_helper own lt covers with all | ⟨h, left, unused, all⟩
  · rw [value]
    exact (all.mono (List.take_subset_take_left _ (by omega)) (List.Subset.refl _)).cmiAt_eq_zero
  · exact le_antisymm ((least h left unused).trans_eq all.cmiAt_eq_zero) (value ▸ cmiAt_nonneg)

/-- Without ties, the bin and its helpers are covered until the last condition. -/
theorem covers_of_untied (own : bg.NoSiblings e (elements steps.maxSteps)) (copy : c ∈ bg.outside e)
    (equal : bg.features.binAt c = bg.features.binAt e) (untied : Untied label bg n e steps) (lt : k + 1 < s) :
    bg.Covers n e steps k := by
  have conditions := evaluated.conditionCount
  induction k with
  | zero =>
    have at_zero := List.getElem?_eq_getElem (show 0 < steps.minSteps.length by omega)
    have zero := evaluated.first_eq_zero copy equal at_zero
    by_cases chosen : c ∈ (elements steps.minSteps).take 1
    · refine determines_of_subset ?_
      simpa [equal] using List.mem_map_of_mem (f := bg.features.binAt) chosen
    · refine absurd (zero.trans (Eq.symm ?_)) (untied 0 _ (by omega) at_zero c copy chosen)
      refine TBinFeatureSet.Settles.cmiAt_eq_zero (determines_of_subset ?_)
      simp [equal]
  | succ k ih =>
    have covers := ih (by omega)
    have at_next := List.getElem?_eq_getElem (show k + 1 < steps.minSteps.length by omega)
    have later : bg.NoSiblings e ((elements steps.maxSteps).drop k) := fun b mem => own b (List.mem_of_mem_drop mem)
    have zero := evaluated.next_eq_zero later (by omega) covers at_next
    rcases evaluated.next_helper later (by omega) covers with all | ⟨h, left, unused, all⟩
    · exact all.mono (List.take_subset_take_left _ (by omega)) (List.Subset.refl _)
    by_cases chosen : h ∈ (elements steps.minSteps).take (k + 2)
    · refine all.mono (List.append_subset.mpr ⟨List.take_subset_take_left _ (by omega), ?_⟩) (List.Subset.refl _)
      simpa using chosen
    · exact absurd (zero.trans all.cmiAt_eq_zero.symm) (untied (k + 1) _ (by omega) at_next h left chosen)

/-- With as many steps as there are bins to choose from, everything is covered. -/
theorem score_eq_zero_of_all (own : bg.NoSiblings e (elements steps.maxSteps)) (copy : c ∈ bg.outside e)
    (equal : bg.features.binAt c = bg.features.binAt e) (all : s = (bg.outside e).length) : result.score = 0 := by
  have mem := evaluated.valid.mem_minSteps (by rw [evaluated.conditionCount, all])
  have bin : bg.features.Settles n (elements steps.minSteps) [e] := by
    refine determines_of_subset ?_
    simpa [equal] using List.mem_map_of_mem (f := bg.features.binAt) ((mem c).mpr copy)
  rw [evaluated.score, value]
  refine TBinFeatureSet.Settles.cmiAt_eq_zero (Determines.append bin ?_)
  intro i hi j hj agree _ listed
  obtain ⟨b, helper, rfl⟩ := List.mem_map.mp listed
  rcases evaluated.helper_outside helper (own b helper) with rfl | left
  · exact bin i hi j hj agree _ (by simp)
  · exact agree _ (List.mem_map_of_mem ((mem b).mpr left))

end Evaluated

/-- **A copy of an enabled bin** says nothing at the first step. It says nothing in the end either
if the last helper is not another bin of its own feature and the conditions before the last one
determine it and the helpers before the last one. As long as no helper is another bin of its own
feature, that is so if no condition before the last is tied, and with as many steps as there are
bins outside its feature the score is zero anyway. -/
theorem copy_worthless (pool : Pool label bg.features n) (h : e < bg.getBinCount) {c : ℕ}
    (copy : c ∈ bg.outside e) (equal : bg.features.binAt c = bg.features.binAt e) (pos : 0 < s)
    (room : s ≤ (bg.outside e).length) (few : label.bins.length + 2 * s ≤ 62) :
    ∃ result steps, Evaluated label bg n e s result steps ∧
      (∀ x, steps.minSteps[0]? = some x → x.2 = 0) ∧ (s = 1 → result.score = 0) ∧
      (1 < s → bg.NoSiblings e ((elements steps.maxSteps).drop (s - 2)) → bg.Covers n e steps (s - 2) →
        result.score = 0) ∧
      (bg.NoSiblings e (elements steps.maxSteps) →
        (Untied label bg n e steps → result.score = 0) ∧
        (s = (bg.outside e).length → result.score = 0)) := by
  obtain ⟨result, steps, evaluated⟩ := exists_evaluated pool h pos room few
  have count := evaluated.conditionCount
  have last := List.getElem?_eq_getElem (show s - 1 < steps.minSteps.length by omega)
  have single (one : s = 1) : result.score = 0 := by
    subst one
    rw [evaluated.score_eq last]
    exact evaluated.first_eq_zero copy equal last
  have covered (many : 1 < s) (own : bg.NoSiblings e ((elements steps.maxSteps).drop (s - 2)))
      (covers : bg.Covers n e steps (s - 2)) : result.score = 0 := by
    rw [evaluated.score_eq last]
    refine evaluated.next_eq_zero own (by omega) covers ?_
    rwa [show s - 2 + 1 = s - 1 by omega]
  refine ⟨result, steps, evaluated, fun x first => evaluated.first_eq_zero copy equal first, single, covered,
    fun own => ⟨fun untied => ?_, evaluated.score_eq_zero_of_all own copy equal⟩⟩
  rcases Nat.lt_or_ge 1 s with many | one
  · exact covered many (fun b mem => own b (List.mem_of_mem_drop mem))
      (evaluated.covers_of_untied own copy equal untied (by omega))
  · exact single (by omega)

/-! ### From one step to the next -/

/-- Exchanging a growing second side with a growing condition. -/
theorem cmiAt_growth (label features : TBinFeatureSet) (n : ℕ) (second condition helper next : List ℕ) :
    cmiAt label features n (second ++ helper) (condition ++ next) - cmiAt label features n second condition =
      cmiAt label features n (helper ++ next) (second ++ condition) - cmiAt label features n next condition := by
  have conditioned : cmiAt label features n (next ++ (second ++ helper)) condition =
      cmiAt label features n next condition + cmiAt label features n (second ++ helper) (next ++ condition) :=
    cmiAt_append _
  have helped : cmiAt label features n (second ++ (helper ++ next)) condition =
      cmiAt label features n second condition + cmiAt label features n (helper ++ next) (second ++ condition) :=
    cmiAt_append _
  have same : cmiAt label features n (next ++ (second ++ helper)) condition =
      cmiAt label features n (second ++ (helper ++ next)) condition :=
    cmiAt_congr (fun _ => Iff.rfl) fun b => by simp; tauto
  have order : cmiAt label features n (second ++ helper) (next ++ condition) =
      cmiAt label features n (second ++ helper) (condition ++ next) :=
    cmiAt_congr (fun b => by simp; tauto) fun b => by simp; tauto
  linarith

/-- The bin `d` determines the label. -/
def TBinFeatureSet.Labels (label features : TBinFeatureSet) (n d : ℕ) : Prop :=
  Determines n [features.binAt d] label.bins

section Labels

variable {features : TBinFeatureSet} {d : ℕ} {second given : List ℕ}

/-- Given a bin that determines the label, nothing is left to say. -/
theorem TBinFeatureSet.Labels.given_eq_zero (labels : label.Labels features n d) (mem : d ∈ given) :
    cmiAt label features n second given = 0 :=
  cmiValue_of_determines_first (Determines.mono labels (by simpa using ⟨d, mem, rfl⟩) (List.Subset.refl _))

/-- As long as the second side determines the label, a larger condition leaves less to say. -/
theorem TBinFeatureSet.Labels.antitone (labels : label.Labels features n d) (mem : d ∈ second) (helper next : List ℕ) :
    cmiAt label features n (second ++ helper) (given ++ next) ≤ cmiAt label features n second given := by
  have determined (more : List ℕ) (mem : d ∈ more) (bins : List ℕ) :
      Determines n (more.map features.binAt ++ bins.map features.binAt) label.bins :=
    Determines.mono labels (by simpa using .inl ⟨d, mem, rfl⟩) (List.Subset.refl _)
  rw [cmiAt, cmiAt, cmiValue_of_determines_second (determined _ (by simp [mem]) _),
    cmiValue_of_determines_second (determined _ mem _), List.map_append]
  exact jointEntropy_given_antitone _

end Labels

/-- **From one step to the next** the value changes by what the new helper and the new condition say
together, given everything so far, less what the new condition says given the ones before. So it
may grow; it does not if the bin, or an enabled bin of another feature, determines the label. -/
theorem minimizing_growth (pool : Pool label bg.features n) (h : e < bg.getBinCount) (pos : 0 < s)
    (few : label.bins.length + 2 * s ≤ 62)
    (ran : buildBinScorerForEval label ((s : ℤ) - 1) s bg (e : ℤ) = .ok result) :
    ∃ steps, Evaluated label bg n e s result steps ∧
      (∀ k u x y, steps.maxSteps[k]? = some u → steps.minSteps[k]? = some x → steps.minSteps[k + 1]? = some y →
        y.2 - x.2 = cmiAt label bg.features n [u.1, y.1]
            (e :: (elements steps.maxSteps).take k ++ (elements steps.minSteps).take (k + 1)) -
          cmiAt label bg.features n [y.1] ((elements steps.minSteps).take (k + 1))) ∧
      ((∃ d, label.Labels bg.features n d ∧ (d = e ∨ d ∈ bg.outside e)) →
        ∀ k x y, steps.minSteps[k]? = some x → steps.minSteps[k + 1]? = some y → y.2 ≤ x.2) := by
  obtain ⟨steps, evaluated⟩ := evaluated_of_ok pool h pos few ran
  refine ⟨steps, evaluated, fun k u x y helper at_k at_next => ?_, fun ⟨d, labels, found⟩ k x y at_k at_next => ?_⟩
  · rw [(evaluated.condition at_next).1, (evaluated.condition at_k).1, elements_take_succ helper,
      elements_take_succ at_next, ← List.cons_append, cmiAt_growth]
    rfl
  · obtain ⟨value, -⟩ := evaluated.condition at_k
    obtain ⟨value', least⟩ := evaluated.condition at_next
    rcases found with rfl | left
    · have inside : k < steps.maxSteps.length := by
        have := (List.getElem?_eq_some_iff.mp at_next).1
        rw [evaluated.conditionCount] at this
        rw [evaluated.helperCount]
        omega
      rw [value, value', elements_take_succ (List.getElem?_eq_getElem inside), elements_take_succ at_next,
        ← List.cons_append]
      exact labels.antitone (by simp) _ _
    · have nonneg : 0 ≤ x.2 := value ▸ cmiAt_nonneg
      refine le_trans ?_ nonneg
      by_cases used : d ∈ (elements steps.minSteps).take (k + 1)
      · rw [value', labels.given_eq_zero (List.take_subset_take_left _ (by omega) used)]
      · exact (least d left used).trans_eq (labels.given_eq_zero (by simp))

end Laws

/-! ### Evaluations in exact numbers -/

/-- An evaluation followed in exact numbers. -/
theorem exists_evaluated_exact {label : TBinFeatureSet} {bg : TBackground} {n e s : ℕ} (exactSteps : Entry PosRat)
    (pool : Pool label bg.features n) (h : e < bg.getBinCount) (pos : 0 < s) (room : s ≤ (bg.outside e).length)
    (few : label.bins.length + 2 * s ≤ 62)
    (followed : scratch (exactProblem label bg.features n).cmi (bg.withBin e) (bg.outside e) e s = exactSteps) :
    ∃ result, Evaluated label bg n e s result (exactSteps.map (bits n)) ∧
      result.score = bits n (value (exactProblem label bg.features n).cmi e exactSteps) := by
  obtain ⟨result, steps, evaluated⟩ := exists_evaluated pool h pos room few
  have oracle : cmiAt label bg.features n =
      fun second condition => bits n ((exactProblem label bg.features n).cmi second condition) :=
    (congrArg Problem.cmi (exactProblem_map pool.rows label bg.features)).symm
  have mapped : steps = exactSteps.map (bits n) := by
    rw [← evaluated.computed, oracle, scratch_map (bits_strictMono pool.rows), followed]
  refine ⟨result, mapped ▸ evaluated, ?_⟩
  rw [evaluated.score, mapped, oracle, value_map]

theorem bits_two_pow {n : ℕ} {q : PosRat} {k : ℕ} (power : q.1 = 2 ^ k) : bits n q = k / n := by
  have real : (q.1 : ℝ) = 2 ^ k := by rw [power]; norm_num
  rw [bits, real, log2_real, Real.logb_pow, Real.logb_self_eq_one one_lt_two, mul_one]

/-! ### Copies that keep their information -/

/-- The parity of two bins. -/
def parity : TBinFeatureSet := .ofBins [[false, true, true, false]]

/-- A constant bin, one of the two bins, and two copies of the other. -/
def copies : TBackground :=
  .ofFeatures ((((TBinFeatureSet.ofBins [[false, false, false, false]]).addFeature
    [[false, true, false, true]]).1.addFeature [[false, false, true, true]]).1.addFeature
    [[false, false, true, true]]).1

/-- A copy, their conjunction, and the two bins as one feature. -/
def siblings : TBackground :=
  .ofFeatures (((TBinFeatureSet.ofBins [[false, false, true, true]]).addFeature
    [[false, false, false, true]]).1.addFeature [[false, false, true, true], [false, true, false, true]]).1

theorem pool_copies : Pool parity copies.features 4 := ⟨by decide, by decide, by decide, by decide⟩

theorem pool_siblings : Pool parity siblings.features 4 := ⟨by decide, by decide, by decide, by decide⟩

/-- The constant bin is tied with the copy and comes first; the next step is left with one bit. -/
theorem copies_evaluated : ∃ result, buildBinScorerForEval (R := ℝ) parity 1 2 copies 3 = .ok result ∧
    result.score = 1 ∧ result.minimizingSteps = [⟨0, 0⟩, ⟨1, 1⟩] := by
  obtain ⟨result, evaluated, score⟩ := exists_evaluated_exact (e := 3) (s := 2)
    ⟨[(1, ⟨16, by norm_num⟩)], [(0, ⟨1, by norm_num⟩), (1, ⟨16, by norm_num⟩)]⟩
    pool_copies (by decide) (by decide) (by decide) (by decide) (by decide +kernel)
  have last : (value (exactProblem parity copies.features 4).cmi 3
      ⟨[(1, ⟨16, by norm_num⟩)], [(0, ⟨1, by norm_num⟩), (1, ⟨16, by norm_num⟩)]⟩).1 = 2 ^ 4 := by
    decide +kernel
  have none : bits 4 ⟨1, by norm_num⟩ = 0 := by simpa using bits_two_pow (n := 4) (k := 0) rfl
  have all : bits 4 ⟨16, by norm_num⟩ = 1 := by simpa using bits_two_pow (n := 4) (k := 4) (by norm_num)
  refine ⟨result, evaluated.ran, ?_, ?_⟩
  · rw [score, bits_two_pow last]
    norm_num
  · rw [evaluated.conditions]
    simp [Entry.map, mapSteps, toSteps, toStep, none, all]

/-- The helper is the other bin of the feature, which is never a condition; half a bit is left. -/
theorem siblings_evaluated : ∃ result, buildBinScorerForEval (R := ℝ) parity 1 2 siblings 2 = .ok result ∧
    result.score = 1 / 2 := by
  obtain ⟨result, evaluated, score⟩ := exists_evaluated_exact (e := 2) (s := 2)
    ⟨[(3, ⟨16, by norm_num⟩)], [(0, ⟨1, by norm_num⟩), (1, ⟨4, by norm_num⟩)]⟩
    pool_siblings (by decide) (by decide) (by decide) (by decide) (by decide +kernel)
  have last : (value (exactProblem parity siblings.features 4).cmi 2
      ⟨[(3, ⟨16, by norm_num⟩)], [(0, ⟨1, by norm_num⟩), (1, ⟨4, by norm_num⟩)]⟩).1 = 2 ^ 2 := by
    decide +kernel
  refine ⟨result, evaluated.ran, ?_⟩
  rw [score, bits_two_pow last]
  norm_num

/-- **A copy can keep its information**: behind a tie with a constant bin, and with a helper from its
own feature. -/
theorem copy_not_worthless :
    (Pool parity copies.features 4 ∧ 3 < copies.getBinCount ∧ 2 ∈ copies.outside 3 ∧
      copies.features.binAt 2 = copies.features.binAt 3 ∧ 2 ≤ (copies.outside 3).length ∧
      parity.bins.length + 2 * 2 ≤ 62 ∧
      ∃ result, buildBinScorerForEval (R := ℝ) parity 1 2 copies 3 = .ok result ∧ result.score = 1) ∧
    (Pool parity siblings.features 4 ∧ 2 < siblings.getBinCount ∧ 0 ∈ siblings.outside 2 ∧
      siblings.features.binAt 0 = siblings.features.binAt 2 ∧ 2 ≤ (siblings.outside 2).length ∧
      ∃ result, buildBinScorerForEval (R := ℝ) parity 1 2 siblings 2 = .ok result ∧ result.score = 1 / 2) := by
  obtain ⟨result, ran, score, -⟩ := copies_evaluated
  exact ⟨⟨pool_copies, by decide, by decide, by decide, by decide, by decide, result, ran, score⟩,
    pool_siblings, by decide, by decide, by decide, by decide, siblings_evaluated⟩

/-- With three steps all conditions are used, and nothing is left of the copy. -/
theorem copy_worthless_copies :
    ∃ result steps, Evaluated parity copies 4 3 3 result steps ∧ result.score = 0 := by
  obtain ⟨result, steps, evaluated, -, -, -, law⟩ := copy_worthless (s := 3) pool_copies (by decide)
    (show 2 ∈ copies.outside 3 by decide) (by decide) (by decide) (by decide) (by decide)
  have single : ∀ b < copies.getBinCount, copies.features.owner b = copies.features.owner 3 → b = 3 := by decide
  exact ⟨result, steps, evaluated,
    (law fun b mem => single b (evaluated.helper_mem mem).1).2 (by decide)⟩

/-- **The descent can rise**, from nothing to one bit. -/
theorem minimizing_rises :
    Pool parity copies.features 4 ∧ 3 < copies.getBinCount ∧ parity.bins.length + 2 * 2 ≤ 62 ∧
      ∃ result, buildBinScorerForEval (R := ℝ) parity 1 2 copies 3 = .ok result ∧
        result.minimizingSteps = [⟨0, 0⟩, ⟨1, 1⟩] := by
  obtain ⟨result, ran, -, steps⟩ := copies_evaluated
  exact ⟨pool_copies, by decide, by decide, result, ran, steps⟩

/-- What the rise comes from. -/
theorem minimizing_growth_copies :
    ∃ result steps, Evaluated parity copies 4 3 2 result steps ∧
      ∀ u x y, steps.maxSteps[0]? = some u → steps.minSteps[0]? = some x → steps.minSteps[1]? = some y →
        y.2 - x.2 = cmiAt parity copies.features 4 [u.1, y.1] (3 :: (elements steps.minSteps).take 1) -
          cmiAt parity copies.features 4 [y.1] ((elements steps.minSteps).take 1) := by
  obtain ⟨result, ran, -⟩ := copies_evaluated
  obtain ⟨steps, evaluated, growth, -⟩ := minimizing_growth (e := 3) (s := 2) pool_copies (by decide) (by decide)
    (by decide) ran
  exact ⟨result, steps, evaluated, fun u x y => growth 0 u x y⟩

end Cmicot
