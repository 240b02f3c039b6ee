import Cmicot.Pool
import Cmicot.Search.Values

/-!
Conditional mutual information in exact numbers.

The entropy of bins over `n` rows is `log2 n - log2 w / n`, where `w` is the product of the
class sizes of all rows. Conditional mutual information is therefore the logarithm of a
positive rational number, up to the factor `n`, and a search over a pool can be followed
with rational numbers in place of reals. The weight `w` is computed by splitting the rows
by one bin after the other.

* `exactProblem_map`: the problem of a pool is the exact one, read through the logarithm.
-/

namespace Cmicot

open Search

/-- The product of the class sizes of some rows, which one bin after the other splits. -/
def splitWeight : List TBin → List ℕ → ℕ
  | [], rows => rows.length ^ rows.length
  | bin :: bins, rows =>
    splitWeight bins (rows.filter fun i => bin.getD i false = true) *
      splitWeight bins (rows.filter fun i => ¬bin.getD i false = true)

theorem splitWeight_eq_prod (bins : List TBin) (rows : List ℕ) :
    splitWeight bins rows = (rows.map fun i => rows.countP fun j => row bins j = row bins i).prod := by
  induction bins generalizing rows with
  | nil => simp [splitWeight, row]
  | cons bin bins ih =>
    have same : ∀ i, rows.countP (fun j => row (bin :: bins) j = row (bin :: bins) i) =
        (rows.filter fun j => bin.getD j false = bin.getD i false).countP fun j => row bins j = row bins i := by
      intro i
      rw [List.countP_filter]
      exact List.countP_congr fun j _ => by simp [row, and_comm]
    rw [splitWeight, ih, ih]
    refine Eq.trans ?_ (List.prod_map_filter_mul_prod_map_filter_not (fun i => bin.getD i false = true) _ rows)
    congr 2
    · refine List.map_congr_left fun i mem => ?_
      rw [same, of_decide_eq_true (List.mem_filter.mp mem).2]
    · refine List.map_congr_left fun i mem => ?_
      rw [same, eq_false_of_ne_true (of_decide_eq_true (List.mem_filter.mp mem).2)]
      simp

/-- The product of the class sizes of all rows. -/
def rowWeight (n : ℕ) (bins : List TBin) : ℕ := splitWeight bins (List.range n)

theorem rowWeight_eq_prod (n : ℕ) (bins : List TBin) :
    rowWeight n bins = ∏ i : Fin n, Empirical.freq (fun j : Fin n => row bins j) (row bins i) := by
  rw [rowWeight, splitWeight_eq_prod, Fin.prod_univ_def, ← List.map_coe_finRange_eq_range]
  simp only [List.map_map, List.countP_map]
  refine congrArg List.prod (List.map_congr_left fun i _ => ?_)
  have card := (List.nodup_finRange n).card_eq_countP (P := fun j : Fin n => row bins j = row bins i)
  rw [List.toFinset_finRange] at card
  exact card.symm

theorem rowWeight_pos (n : ℕ) (bins : List TBin) : 0 < rowWeight n bins := by
  rw [rowWeight_eq_prod]
  exact Finset.prod_pos fun i _ => Empirical.freq_pos (fun j : Fin n => row bins j) i

theorem jointEntropy_eq_rowWeight {n : ℕ} (pos : 0 < n) (bins : List TBin) :
    jointEntropy n bins = Real.logb 2 n - Real.logb 2 (rowWeight n bins) / n := by
  have : Nonempty (Fin n) := ⟨⟨0, pos⟩⟩
  have form := Empirical.entropy_eq_logb_prod fun i : Fin n => row bins i
  rw [Fintype.card_fin, ← rowWeight_eq_prod] at form
  exact form

/-- Rows that are not all alike have some entropy. -/
theorem jointEntropy_pos {n : ℕ} (pos : 0 < n) {bins : List TBin} (mixed : rowWeight n bins < n ^ n) :
    0 < jointEntropy n bins := by
  have scale : (0 : ℝ) < n := by exact_mod_cast pos
  have weight : (0 : ℝ) < rowWeight n bins := by exact_mod_cast rowWeight_pos n bins
  have less : (rowWeight n bins : ℝ) < (n : ℝ) ^ n := by exact_mod_cast mixed
  have logs := Real.logb_lt_logb one_lt_two weight less
  rw [Real.logb_pow] at logs
  rw [jointEntropy_eq_rowWeight pos, sub_pos, div_lt_iff₀ scale]
  linarith

/-- Positive rational numbers. -/
abbrev PosRat := {q : ℚ // 0 < q}

/-- Conditional mutual information before the logarithm. -/
def cmiWeight (n : ℕ) (first second given : List TBin) : PosRat :=
  ⟨(rowWeight n given * rowWeight n (first ++ second ++ given) : ℚ) /
      (rowWeight n (first ++ given) * rowWeight n (second ++ given)), by
    have := rowWeight_pos n
    have cast : ∀ bins, (0 : ℚ) < rowWeight n bins := fun bins => by exact_mod_cast this bins
    exact div_pos (mul_pos (cast _) (cast _)) (mul_pos (cast _) (cast _))⟩

/-- The real value behind an exact one. -/
noncomputable def bits (n : ℕ) (q : PosRat) : ℝ := log2 (q.1 : ℝ) / n

theorem bits_strictMono {n : ℕ} (pos : 0 < n) : StrictMono (bits n) := by
  intro p q lt
  have cast : (p.1 : ℝ) < q.1 := by exact_mod_cast lt
  have positive : (0 : ℝ) < p.1 := by exact_mod_cast p.2
  have scale : (0 : ℝ) < n := by exact_mod_cast pos
  exact div_lt_div_of_pos_right (Real.logb_lt_logb one_lt_two positive cast) scale

theorem bits_cmiWeight {n : ℕ} (pos : 0 < n) (first second given : List TBin) :
    bits n (cmiWeight n first second given) = cmiValue n first second given := by
  have some : ∀ bins, (rowWeight n bins : ℝ) ≠ 0 := fun bins => by
    exact_mod_cast (rowWeight_pos n bins).ne'
  simp only [bits, log2_real, cmiWeight, Rat.cast_div, Rat.cast_mul, Rat.cast_natCast]
  rw [Real.logb_div (mul_ne_zero (some _) (some _)) (mul_ne_zero (some _) (some _)),
    Real.logb_mul (some _) (some _), Real.logb_mul (some _) (some _), cmiValue]
  simp only [jointEntropy_eq_rowWeight pos]
  ring

/-- The problem of a pool in exact numbers. -/
def exactProblem (label features : TBinFeatureSet) (n : ℕ) : Problem PosRat where
  binCount := features.getBinCount
  owner := features.owner
  cmi second condition :=
    cmiWeight n label.bins (second.map features.binAt) (condition.map features.binAt)

/-- **The problem of a pool is the exact one**, read through the logarithm. -/
theorem exactProblem_map {n : ℕ} (pos : 0 < n) (label features : TBinFeatureSet) :
    (exactProblem label features n).map (bits n) = problem label features n := by
  simp only [Problem.map, exactProblem, bits_cmiWeight pos]
  rfl

/-- The first feature can be found in exact numbers. -/
theorem firstFeature_exact {n : ℕ} (pos : 0 < n) (label features : TBinFeatureSet) :
    (problem label features n).firstFeature = (exactProblem label features n).firstFeature := by
  rw [← exactProblem_map pos, Problem.firstFeature_map (bits_strictMono pos)]

end Cmicot
