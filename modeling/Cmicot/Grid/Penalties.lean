import Cmicot.Grid.ModeOptimum
import Mathlib.Analysis.Convex.SpecificFunctions.Basic
import Mathlib.Analysis.SpecialFunctions.Log.NegMulLog

/-!
The penalties of the dynamic programme (`grid_creator/binarization.cpp`).

With real numbers in place of `double` all three penalties are convex on the weights that can
occur, so crossing groups cost more, and dividing the positions is exact for them.

* `monge_of_convexOn`: convex penalties.
* `EPenaltyType.monge`: the three penalties.
* `bestSplitMode_daC_penalty`: `E_DaC` finds a cheapest cut.
-/

namespace Cmicot.Grid

open Cuts

/-- `Penalty(weight, expected_weight, type)`; the expected weight is not used. -/
noncomputable def EPenaltyType.penalty (type : EPenaltyType) (weight : ℝ) : ℝ :=
  match type with
  | minEntropy => weight * Real.log (weight + 1 / ((10 ^ 8 : ℕ) : ℝ))
  | maxSumLog => -Real.log (weight + 1 / ((10 ^ 8 : ℕ) : ℝ))
  | w2 => weight * weight

/-! ### Convexity -/

section Convexity

variable {P : ℝ → ℝ}

/-- **Crossing groups cost more** for a convex penalty. -/
theorem monge_of_convexOn (convex : ConvexOn ℝ (Set.Ici 0) P) : Monge P := by
  intro x y z first middle last
  rcases (add_nonneg first last).eq_or_lt with none | pos
  · have : x = 0 := by linarith
    have : z = 0 := by linarith
    subst x z
    simp
  · -- both crossing weights are between the inner and the outer one
    have inner : y ∈ Set.Ici (0 : ℝ) := middle
    have outer : x + y + z ∈ Set.Ici (0 : ℝ) := by
      simp only [Set.mem_Ici]
      linarith
    have share : z / (x + z) + x / (x + z) = 1 := by
      field_simp
      ring
    have left := convex.2 inner outer (div_nonneg last pos.le) (div_nonneg first pos.le) share
    have right := convex.2 inner outer (div_nonneg first pos.le) (div_nonneg last pos.le) ((add_comm _ _).trans share)
    simp only [smul_eq_mul] at left right
    have point : z / (x + z) * y + x / (x + z) * (x + y + z) = x + y := by
      field_simp
      ring
    have point' : x / (x + z) * y + z / (x + z) * (x + y + z) = y + z := by
      field_simp
      ring
    rw [point] at left
    rw [point'] at right
    have whole : z / (x + z) * P y + x / (x + z) * P (x + y + z) +
        (x / (x + z) * P y + z / (x + z) * P (x + y + z)) = P y + P (x + y + z) := by
      calc _ = (z / (x + z) + x / (x + z)) * (P y + P (x + y + z)) := by ring
        _ = P y + P (x + y + z) := by rw [share, one_mul]
    linarith

variable {c : ℝ}

theorem convexOn_neg_log_add (pos : 0 < c) : ConvexOn ℝ (Set.Ici 0) fun w => -Real.log (w + c) := by
  have convex := strictConcaveOn_log_Ioi.concaveOn.neg.translate_left c
  refine convex.subset (fun w nonneg => ?_) (convex_Ici 0)
  have : 0 ≤ w := nonneg
  simp only [Set.mem_preimage, Set.mem_Ioi]
  linarith

theorem convexOn_mul_log_add (pos : 0 < c) : ConvexOn ℝ (Set.Ici 0) fun w => w * Real.log (w + c) := by
  have inside : Set.Ici (0 : ℝ) ⊆ Set.preimage (fun w => c + w) (Set.Ici 0) := fun w nonneg => by
    have : 0 ≤ w := nonneg
    simp only [Set.mem_preimage, Set.mem_Ici]
    linarith
  have entropy := (Real.convexOn_mul_log.translate_left c).subset inside (convex_Ici 0)
  have rest := (convexOn_neg_log_add pos).smul pos.le
  refine (entropy.add rest).congr fun w _ => ?_
  simp only [Pi.add_apply, Function.comp_apply, smul_eq_mul]
  ring

theorem EPenaltyType.monge (type : EPenaltyType) : Monge type.penalty := by
  have small : 0 < 1 / ((10 ^ 8 : ℕ) : ℝ) := by positivity
  cases type with
  | minEntropy => exact @monge_of_convexOn _ (convexOn_mul_log_add small)
  | maxSumLog => exact @monge_of_convexOn _ (convexOn_neg_log_add small)
  | w2 =>
    intro x y z first _ last
    have := mul_nonneg first last
    simp only [penalty]
    linarith

end Convexity

/-! ### The guarantee -/

/-- **`E_DaC` is exact for every penalty** in exact arithmetic: its thresholds are increasing, and
they cut the weights as cheaply as possible, also among the cuts with empty groups. -/
theorem bestSplitMode_daC_penalty (type : EPenaltyType) (eps : ℝ) {weights : List ℝ} (nonneg : ∀ w ∈ weights, 0 ≤ w)
    {bordersCount : ℕ} (pos : 1 ≤ bordersCount) (more : bordersCount + 1 < weights.length) :
    ∃ ts, bestSplit .daC type.penalty eps weights bordersCount = .ok ts ∧ ts.length = bordersCount ∧
      ts.Pairwise (· < ·) ∧ (∀ t ∈ ts, t + 1 < weights.length) ∧
      ∀ groups, IsWeakCut weights (bordersCount + 1) groups →
        total type.penalty (cutAt weights 0 ts) ≤ total type.penalty groups := by
  obtain ⟨l, rfl⟩ : ∃ l, bordersCount = l + 1 := ⟨bordersCount - 1, by omega⟩
  obtain ⟨ts, ran, length, ordered, inside, least⟩ :=
    bestSplitMode_many (show ESF.daC ≠ .rlm2 by decide) type.penalty eps more
  have cheapest := (least ⟨type.monge, nonneg⟩).2
  refine ⟨ts, ran, length, ordered, fun t mem => ?_, fun groups cut => ?_⟩
  · have : t < weights.length - 1 := inside t mem
    omega
  · obtain ⟨strict, cut', le⟩ := cut.exists_cut type.monge nonneg more.le
    exact (cheapest ⟨strict, cut', rfl⟩).trans le

/-- Three groups of minimal entropy. -/
theorem bestSplitMode_daC_penalty_entropy :
    ∃ ts, bestSplit .daC EPenaltyType.minEntropy.penalty 0 [1, 4, 2, 2, 5] 2 = .ok ts ∧ ts.length = 2 ∧
      ts.Pairwise (· < ·) ∧ (∀ t ∈ ts, t + 1 < ([1, 4, 2, 2, 5] : List ℝ).length) ∧
      ∀ groups, IsWeakCut [1, 4, 2, 2, 5] (2 + 1) groups →
        total EPenaltyType.minEntropy.penalty (cutAt [1, 4, 2, 2, 5] 0 ts) ≤
          total EPenaltyType.minEntropy.penalty groups :=
  bestSplitMode_daC_penalty .minEntropy 0 (by simp) (by decide) (by simp)

end Cmicot.Grid
