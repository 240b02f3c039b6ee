import Mathlib.Analysis.SpecialFunctions.Log.Base
import Mathlib.Algebra.BigOperators.Field

/-!
Entropy of the empirical distribution of a function on finitely many rows.

A function `f : ι → κ` on a finite type of rows splits the rows into classes;
`entropy f` is the Shannon entropy, in bits, of the class of a uniformly chosen row.
It depends only on the partition (`entropy_congr`) and not on the order of the rows
(`entropy_comp_equiv`). The inequalities used downstream are

* `entropy_mono`: a finer partition has more entropy;
* `entropy_submodular`: conditional mutual information is non-negative;
* `entropy_le_logb`: at most the logarithm of the number of classes.

All of them come from `log x ≤ x - 1` and the row form `entropy_eq_sum_rows`.
-/

namespace Cmicot.Empirical

open Finset

variable {ι κ μ ν : Type} [Fintype ι] [DecidableEq κ] [DecidableEq μ] [DecidableEq ν]

/-- The number of rows on which `f` takes the value `r`. -/
def freq (f : ι → κ) (r : κ) : ℕ := #{i | f i = r}

/-- The Shannon entropy of the empirical distribution of `f`, in bits. -/
noncomputable def entropy (f : ι → κ) : ℝ :=
  -∑ r ∈ univ.image f,
    (freq f r / Fintype.card ι : ℝ) * Real.logb 2 (freq f r / Fintype.card ι)

theorem freq_pos (f : ι → κ) (i : ι) : 0 < freq f (f i) :=
  card_pos.mpr ⟨i, by simp⟩

theorem freq_cast_pos (f : ι → κ) (i : ι) : (0 : ℝ) < freq f (f i) := by
  exact_mod_cast freq_pos f i

/-- Summing over the values, weighted by their frequency, is summing over the rows. -/
theorem sum_freq_mul (f : ι → κ) (F : κ → ℝ) :
    ∑ r ∈ univ.image f, (freq f r : ℝ) * F r = ∑ i, F (f i) := by
  rw [← sum_fiberwise_of_maps_to (fun i _ => mem_image_of_mem f (mem_univ i))]
  refine sum_congr rfl fun r _ => ?_
  rw [sum_congr rfl fun i hi => by rw [(mem_filter.mp hi).2], sum_const, nsmul_eq_mul]
  rfl

theorem card_image_eq_sum (f : ι → κ) : ((univ.image f).card : ℝ) = ∑ i, ((freq f (f i) : ℝ))⁻¹ := by
  rw [← sum_freq_mul f fun r => ((freq f r : ℝ))⁻¹, card_eq_sum_ones, Nat.cast_sum]
  refine sum_congr rfl fun r hr => ?_
  obtain ⟨i, -, rfl⟩ := mem_image.mp hr
  simp [(freq_cast_pos f i).ne']

/-- The row form of entropy: the average surprise of a row. -/
theorem entropy_eq_sum_rows (f : ι → κ) :
    entropy f = -(∑ i, Real.logb 2 (freq f (f i) / Fintype.card ι)) / Fintype.card ι := by
  unfold entropy
  rw [← sum_freq_mul f fun r => Real.logb 2 (freq f r / Fintype.card ι), neg_div, sum_div]
  congr 1
  refine sum_congr rfl fun r _ => ?_
  ring

/-- The product form of entropy: every row contributes the size of its class. -/
theorem entropy_eq_logb_prod [Nonempty ι] (f : ι → κ) :
    entropy f = Real.logb 2 (Fintype.card ι) -
      Real.logb 2 ((∏ i, freq f (f i) : ℕ) : ℝ) / Fintype.card ι := by
  have some : (Fintype.card ι : ℝ) ≠ 0 := by exact_mod_cast Fintype.card_ne_zero
  have split : ∀ i, Real.logb 2 (freq f (f i) / Fintype.card ι) =
      Real.logb 2 (freq f (f i)) - Real.logb 2 (Fintype.card ι) := fun i =>
    Real.logb_div (freq_cast_pos f i).ne' some
  rw [entropy_eq_sum_rows, Nat.cast_prod, Real.logb_prod univ _ fun i _ => (freq_cast_pos f i).ne',
    sum_congr rfl fun i _ => split i, sum_sub_distrib, sum_const, card_univ, nsmul_eq_mul]
  field_simp
  ring

theorem freq_congr {f : ι → κ} {g : ι → μ} (same : ∀ i j, f i = f j ↔ g i = g j) (i : ι) :
    freq f (f i) = freq g (g i) := by
  unfold freq
  congr 1
  ext j
  simp [same]

/-- Entropy depends only on which rows agree. -/
theorem entropy_congr {f : ι → κ} {g : ι → μ} (same : ∀ i j, f i = f j ↔ g i = g j) :
    entropy f = entropy g := by
  simp only [entropy_eq_sum_rows, freq_congr same]

/-- Entropy does not depend on the order of the rows. -/
theorem entropy_comp_equiv {ι' : Type} [Fintype ι'] (f : ι → κ) (σ : ι' ≃ ι) :
    entropy (f ∘ σ) = entropy f := by
  have freqs : ∀ r, freq (f ∘ σ) r = freq f r := fun r => by
    unfold freq
    exact card_equiv σ (by simp)
  simp only [entropy_eq_sum_rows, freqs, Fintype.card_congr σ, Function.comp_apply]
  rw [Equiv.sum_comp σ fun i => Real.logb 2 (freq f (f i) / Fintype.card ι)]

/-- A constant function carries no information. -/
theorem entropy_const [Nonempty ι] {f : ι → κ} (const : ∀ i j, f i = f j) : entropy f = 0 := by
  have all : ∀ i, freq f (f i) = Fintype.card ι := fun i => by
    unfold freq
    rw [filter_true_of_mem fun j _ => const j i, card_univ]
  simp [entropy_eq_sum_rows, all]

/-- A finer partition has at least the entropy of a coarser one. -/
theorem entropy_mono {f : ι → κ} {g : ι → μ} (finer : ∀ i j, g i = g j → f i = f j) :
    entropy f ≤ entropy g := by
  rw [entropy_eq_sum_rows, entropy_eq_sum_rows]
  refine div_le_div_of_nonneg_right (neg_le_neg (sum_le_sum fun i _ => ?_)) (Nat.cast_nonneg _)
  have pos : (0 : ℝ) < Fintype.card ι := by exact_mod_cast Fintype.card_pos_iff.mpr ⟨i⟩
  have le : freq g (g i) ≤ freq f (f i) :=
    card_le_card fun j hj => by
      simp only [mem_filter, mem_univ, true_and] at hj ⊢
      exact finer j i hj
  refine Real.logb_le_logb_of_le one_lt_two (div_pos (freq_cast_pos g i) pos) ?_
  gcongr

/-- A finer partition of no larger entropy is not finer at all. -/
theorem eq_of_entropy_le {f : ι → κ} {g : ι → μ} (finer : ∀ i j, g i = g j → f i = f j) (le : entropy g ≤ entropy f)
    {i j : ι} (same : f i = f j) : g i = g j := by
  by_contra differ
  refine absurd le (not_le.mpr ?_)
  have some : (0 : ℝ) < Fintype.card ι := by exact_mod_cast Fintype.card_pos_iff.mpr ⟨i⟩
  have sub (k : ι) : univ.filter (fun l => g l = g k) ⊆ univ.filter fun l => f l = f k := fun l hl => by
    simp only [mem_filter, mem_univ, true_and] at hl ⊢
    exact finer l k hl
  -- the class of row i has lost row j
  have lost : freq g (g i) < freq f (f i) := card_lt_card <| Finset.ssubset_iff_subset_ne.mpr ⟨sub i, fun equal => by
    have mem : j ∈ univ.filter fun l => g l = g i := equal ▸ (by simp [same])
    simp only [mem_filter, mem_univ, true_and] at mem
    exact differ mem.symm⟩
  have term (k : ι) (le : freq g (g k) ≤ freq f (f k)) :
      Real.logb 2 (freq g (g k) / Fintype.card ι) ≤ Real.logb 2 (freq f (f k) / Fintype.card ι) := by
    refine Real.logb_le_logb_of_le one_lt_two (div_pos (freq_cast_pos g k) some) ?_
    gcongr
  rw [entropy_eq_sum_rows, entropy_eq_sum_rows]
  refine div_lt_div_of_pos_right (neg_lt_neg (sum_lt_sum (fun k _ => term k (card_le_card (sub k)))
    ⟨i, mem_univ i, ?_⟩)) some
  refine Real.logb_lt_logb one_lt_two (div_pos (freq_cast_pos g i) some) ?_
  gcongr

theorem entropy_nonneg (f : ι → κ) : 0 ≤ entropy f := by
  cases isEmpty_or_nonempty ι with
  | inl _ => simp [entropy]
  | inr _ =>
    rw [← entropy_const (f := fun _ : ι => ()) fun _ _ => rfl]
    exact entropy_mono fun _ _ _ => rfl

/-- The tangent bound on the binary logarithm. -/
theorem logb_two_le {x : ℝ} (pos : 0 < x) : Real.logb 2 x ≤ (x - 1) / Real.log 2 :=
  div_le_div_of_nonneg_right (Real.log_le_sub_one_of_pos pos) (Real.log_nonneg one_le_two)

/-- Averaging over rows: a sum of logarithms is non-positive when the arguments add up to
at most the number of rows. -/
theorem sum_logb_nonpos {x : ι → ℝ} (pos : ∀ i, 0 < x i) (total : ∑ i, x i ≤ Fintype.card ι) :
    ∑ i, Real.logb 2 (x i) ≤ 0 := by
  have step : ∑ i, Real.logb 2 (x i) ≤ ∑ i, (x i - 1) / Real.log 2 :=
    sum_le_sum fun i _ => logb_two_le (pos i)
  refine step.trans ?_
  rw [← sum_div, sum_sub_distrib]
  refine div_nonpos_of_nonpos_of_nonneg ?_ (Real.log_nonneg one_le_two)
  simpa using total

/-- Entropy is at most the logarithm of the number of classes. -/
theorem entropy_le_logb [Nonempty ι] (f : ι → κ) :
    entropy f ≤ Real.logb 2 (univ.image f).card := by
  have n : (0 : ℝ) < Fintype.card ι := by exact_mod_cast Fintype.card_pos
  have k : (0 : ℝ) < (univ.image f).card := by
    exact_mod_cast card_pos.mpr (univ_nonempty.image f)
  have key : ∑ i, Real.logb 2 (Fintype.card ι / (freq f (f i) * (univ.image f).card)) ≤ 0 := by
    refine sum_logb_nonpos (fun i => div_pos n (mul_pos (freq_cast_pos f i) k)) (le_of_eq ?_)
    have each : ∀ i, (Fintype.card ι : ℝ) / (freq f (f i) * (univ.image f).card) =
        Fintype.card ι / (univ.image f).card * (freq f (f i) : ℝ)⁻¹ := fun i => by
      field_simp
    rw [sum_congr rfl fun i _ => each i, ← mul_sum, ← card_image_eq_sum, div_mul_cancel₀ _ k.ne']
  have split : ∀ i, Real.logb 2 (Fintype.card ι / (freq f (f i) * (univ.image f).card)) =
      -Real.logb 2 (freq f (f i) / Fintype.card ι) - Real.logb 2 (univ.image f).card := fun i => by
    have w := freq_cast_pos f i
    rw [Real.logb_div n.ne' (mul_pos w k).ne', Real.logb_mul w.ne' k.ne', Real.logb_div w.ne' n.ne']
    ring
  rw [sum_congr rfl fun i _ => split i, sum_sub_distrib, sum_neg_distrib, sum_const, card_univ,
    nsmul_eq_mul, sub_nonpos] at key
  rw [entropy_eq_sum_rows, div_le_iff₀ n]
  linarith

/-! ### Submodularity -/

section Submodular

variable (f : ι → κ) (g : ι → μ) (h : ι → ν)

theorem freq_eq_sum (r : κ) : (freq f r : ℝ) = ∑ i, if f i = r then 1 else 0 := by
  simp [freq, sum_boole]

/-- Fix a row `j` for `f` and a row `k` for `g`: the rows that agree with both form one
class of the joint function, so their reciprocal weights add up to at most one. -/
theorem sum_joint_class_le (j k : ι) :
    ∑ i, (if (f j, h j) = (f i, h i) ∧ (g k, h k) = (g i, h i) then
        ((freq (fun i => (f i, g i, h i)) (f i, g i, h i) : ℝ) * freq h (h i))⁻¹ else 0) ≤
      if h k = h j then (freq h (h j) : ℝ)⁻¹ else 0 := by
  by_cases same : h k = h j
  · rw [if_pos same]
    have each : ∀ i, (if (f j, h j) = (f i, h i) ∧ (g k, h k) = (g i, h i) then
        ((freq (fun i => (f i, g i, h i)) (f i, g i, h i) : ℝ) * freq h (h i))⁻¹ else 0) =
        (if (f i, g i, h i) = (f j, g k, h j) then 1 else 0) *
          ((freq (fun i => (f i, g i, h i)) (f j, g k, h j) : ℝ) * freq h (h j))⁻¹ := fun i => by
      by_cases hit : (f i, g i, h i) = (f j, g k, h j)
      · simp only [Prod.mk.injEq] at hit
        simp [hit, same]
      · rw [if_neg, if_neg hit, zero_mul]
        simp only [Prod.mk.injEq] at hit ⊢
        rintro ⟨⟨hf, hh⟩, hg, -⟩
        exact hit ⟨hf.symm, hg.symm, hh.symm⟩
    rw [sum_congr rfl fun i _ => each i, ← sum_mul,
      ← freq_eq_sum (fun i => (f i, g i, h i)) (f j, g k, h j), mul_inv, ← mul_assoc]
    have weight : (freq (fun i => (f i, g i, h i)) (f j, g k, h j) : ℝ) *
        (freq (fun i => (f i, g i, h i)) (f j, g k, h j) : ℝ)⁻¹ ≤ 1 := mul_inv_le_one
    exact mul_le_of_le_one_left (inv_nonneg.mpr (Nat.cast_nonneg _)) weight
  · rw [if_neg same]
    refine le_of_eq (sum_eq_zero fun i _ => if_neg ?_)
    simp only [Prod.mk.injEq]
    rintro ⟨⟨-, hj⟩, -, hk⟩
    exact same (hk.trans hj.symm)

/-- The likelihood ratios of the conditionally independent coupling add up to at most the
number of rows. -/
theorem sum_ratio_le :
    ∑ i, ((freq (fun i => (f i, h i)) (f i, h i) : ℝ) * freq (fun i => (g i, h i)) (g i, h i)) *
        ((freq (fun i => (f i, g i, h i)) (f i, g i, h i) : ℝ) * freq h (h i))⁻¹ ≤
      Fintype.card ι := by
  have expand : ∀ i, ((freq (fun i => (f i, h i)) (f i, h i) : ℝ) *
      freq (fun i => (g i, h i)) (g i, h i)) *
        ((freq (fun i => (f i, g i, h i)) (f i, g i, h i) : ℝ) * freq h (h i))⁻¹ =
      ∑ j, ∑ k, if (f j, h j) = (f i, h i) ∧ (g k, h k) = (g i, h i) then
        ((freq (fun i => (f i, g i, h i)) (f i, g i, h i) : ℝ) * freq h (h i))⁻¹ else 0 := fun i => by
    rw [freq_eq_sum (fun i => (f i, h i)), freq_eq_sum (fun i => (g i, h i)), sum_mul_sum, sum_mul]
    refine sum_congr rfl fun j _ => ?_
    rw [sum_mul]
    refine sum_congr rfl fun k _ => ?_
    split_ifs <;> simp_all
  have row : ∀ j, ∑ k, (if h k = h j then (freq h (h j) : ℝ)⁻¹ else 0) = 1 := fun j => by
    rw [sum_ite, sum_const_zero, add_zero, sum_const, nsmul_eq_mul]
    exact mul_inv_cancel₀ (freq_cast_pos h j).ne'
  calc _ = ∑ j, ∑ k, ∑ i, if (f j, h j) = (f i, h i) ∧ (g k, h k) = (g i, h i) then
          ((freq (fun i => (f i, g i, h i)) (f i, g i, h i) : ℝ) * freq h (h i))⁻¹ else 0 := by
        rw [sum_congr rfl fun i _ => expand i, sum_comm]
        exact sum_congr rfl fun j _ => sum_comm
    _ ≤ ∑ j, ∑ k, if h k = h j then (freq h (h j) : ℝ)⁻¹ else 0 :=
        sum_le_sum fun j _ => sum_le_sum fun k _ => sum_joint_class_le f g h j k
    _ = Fintype.card ι := by simp [row]

/-- **Submodularity**: the conditional mutual information of `f` and `g` given `h` is
non-negative. -/
theorem entropy_submodular :
    entropy (fun i => (f i, g i, h i)) + entropy h ≤
      entropy (fun i => (f i, h i)) + entropy (fun i => (g i, h i)) := by
  cases isEmpty_or_nonempty ι with
  | inl _ => simp [entropy]
  | inr _ =>
    have n : (0 : ℝ) < Fintype.card ι := by exact_mod_cast Fintype.card_pos
    have w₁ := freq_cast_pos fun i => (f i, h i)
    have w₂ := freq_cast_pos fun i => (g i, h i)
    have w₃ := freq_cast_pos fun i => (f i, g i, h i)
    have w₄ := freq_cast_pos h
    have key := sum_logb_nonpos
      (fun i => mul_pos (mul_pos (w₁ i) (w₂ i)) (inv_pos.mpr (mul_pos (w₃ i) (w₄ i))))
      (sum_ratio_le f g h)
    have split : ∀ i, Real.logb 2 (((freq (fun i => (f i, h i)) (f i, h i) : ℝ) *
        freq (fun i => (g i, h i)) (g i, h i)) *
          ((freq (fun i => (f i, g i, h i)) (f i, g i, h i) : ℝ) * freq h (h i))⁻¹) =
        Real.logb 2 (freq (fun i => (f i, h i)) (f i, h i) / Fintype.card ι) +
          Real.logb 2 (freq (fun i => (g i, h i)) (g i, h i) / Fintype.card ι) -
          Real.logb 2 (freq (fun i => (f i, g i, h i)) (f i, g i, h i) / Fintype.card ι) -
          Real.logb 2 (freq h (h i) / Fintype.card ι) := fun i => by
      rw [Real.logb_mul (mul_pos (w₁ i) (w₂ i)).ne' (inv_pos.mpr (mul_pos (w₃ i) (w₄ i))).ne',
        Real.logb_inv, Real.logb_mul (w₁ i).ne' (w₂ i).ne', Real.logb_mul (w₃ i).ne' (w₄ i).ne',
        Real.logb_div (w₁ i).ne' n.ne', Real.logb_div (w₂ i).ne' n.ne', Real.logb_div (w₃ i).ne' n.ne',
        Real.logb_div (w₄ i).ne' n.ne']
      ring
    rw [sum_congr rfl fun i _ => split i, sum_sub_distrib, sum_sub_distrib, sum_add_distrib] at key
    simp only [entropy_eq_sum_rows]
    rw [← add_div, ← add_div]
    refine div_le_div_of_nonneg_right ?_ n.le
    linarith

end Submodular

end Cmicot.Empirical
