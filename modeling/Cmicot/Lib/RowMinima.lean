import Mathlib.Algebra.Order.Group.Defs
import Mathlib.Data.Finset.Max
import Mathlib.Data.Nat.Size
import Mathlib.Tactic.Linarith

/-!
Row minima of a triangular matrix.

Row `j` has the columns up to `j`. If a column that is not worse than an earlier one stays so in
later rows, the least entries of the rows stand in columns that go up, and the rows can be divided:
once the last least column of a middle row is known, the rows before it need no later column and
the rows behind it no earlier one.

* `Sorted.of_monge`: crossing sums that cost more are enough.
* `Box.Covers.minimal`: the last best column of a box is a least one.
* `Box.Covers.left`, `Box.Covers.right`: the two boxes of a division.
* `Box.work_split`: dividing costs `columns * log rows`.
-/

namespace Cmicot.RowMinima

section Rows

variable {R : Type} [LinearOrder R] {E : ℕ → ℕ → R} {d i i' j j' b : ℕ}

/-- A least entry of a row. -/
structure Minimal (E : ℕ → ℕ → R) (j b : ℕ) : Prop where
  le : b ≤ j
  least : ∀ i ≤ j, E j b ≤ E j i

/-- Better columns stay better towards one side, as far as both rows have them. -/
structure Sorted (E : ℕ → ℕ → R) (d : ℕ) : Prop where
  later : ∀ {j i i'}, j + 1 < d → i < i' → i' ≤ j → E j i' ≤ E j i → E (j + 1) i' ≤ E (j + 1) i
  earlier : ∀ {j i i'}, j + 1 < d → i < i' → i' ≤ j → E (j + 1) i ≤ E (j + 1) i' → E j i ≤ E j i'

/-- **Crossing sums cost more.** -/
theorem Sorted.of_monge [AddCommGroup R] [IsOrderedAddMonoid R]
    (monge : ∀ {j i i'}, j + 1 < d → i < i' → i' ≤ j → E (j + 1) i' + E j i ≤ E j i' + E (j + 1) i) :
    Sorted E d := by
  constructor
  · intro j i i' next lt le better
    have := monge next lt le
    exact le_of_add_le_add_left ((add_comm (E j i) _ ▸ this).trans (add_le_add_left better _))
  · intro j i i' next lt le better
    have := monge next lt le
    exact le_of_add_le_add_left ((add_le_add_left better (E j i)).trans ((this.trans_eq (add_comm _ _))))

theorem Sorted.later_le (sorted : Sorted E d) (rows : j ≤ j') (inside : j' < d) (lt : i < i') (le : i' ≤ j)
    (better : E j i' ≤ E j i) : E j' i' ≤ E j' i := by
  obtain ⟨t, rfl⟩ := Nat.exists_eq_add_of_le rows
  induction t with
  | zero => exact better
  | succ t ih => exact sorted.later inside lt (show i' ≤ j + t by omega) (ih (by omega) (by omega))

theorem Sorted.earlier_le (sorted : Sorted E d) (rows : j ≤ j') (inside : j' < d) (lt : i < i') (le : i' ≤ j)
    (better : E j' i ≤ E j' i') : E j i ≤ E j i' := by
  obtain ⟨t, rfl⟩ := Nat.exists_eq_add_of_le rows
  induction t with
  | zero => exact better
  | succ t ih =>
    exact ih (by omega) (by omega) (sorted.earlier inside lt (show i' ≤ j + t by omega) better)

end Rows

/-! ### Boxes -/

/-- Rows and columns, each without the end. -/
structure Box where
  jbegin : ℕ
  jend : ℕ
  ibegin : ℕ
  iend : ℕ
deriving DecidableEq, Repr

namespace Box

variable {R : Type} [LinearOrder R] {E : ℕ → ℕ → R} {d j b : ℕ} {box : Box}

/-- The row that divides a box. -/
def middle (box : Box) : ℕ := (box.jbegin + box.jend) / 2

/-- The rows before the middle one, with the columns up to the one found there. -/
def left (box : Box) (b : ℕ) : Box := ⟨box.jbegin, box.middle, box.ibegin, b + 1⟩

/-- The rows behind the middle one, with the columns from the one found there on. -/
def right (box : Box) (b : ℕ) : Box := ⟨box.middle + 1, box.jend, b, box.iend⟩

/-- A box of a matrix with `d` rows that has a column for each of its rows. -/
structure Fits (d : ℕ) (box : Box) : Prop where
  rows : box.jend ≤ d
  columns : box.ibegin < box.iend
  diagonal : box.ibegin ≤ box.jbegin

/-- Every row of the box has a least entry inside. -/
def Covers (E : ℕ → ℕ → R) (box : Box) : Prop :=
  ∀ j, box.jbegin ≤ j → j < box.jend → ∃ b, box.ibegin ≤ b ∧ b < box.iend ∧ Minimal E j b

theorem exists_minimal (E : ℕ → ℕ → R) (j : ℕ) : ∃ b, Minimal E j b := by
  obtain ⟨b, mem, least⟩ := Finset.exists_min_image (Finset.range (j + 1)) (E j) ⟨0, by simp⟩
  exact ⟨b, Nat.lt_succ_iff.mp (Finset.mem_range.mp mem), fun i le => least i (Finset.mem_range.mpr (by omega))⟩

/-- All rows and all columns. -/
theorem covers_whole (E : ℕ → ℕ → R) (d : ℕ) : Covers E ⟨0, d, 0, d⟩ := by
  intro j _ inside
  obtain ⟨b, minimal⟩ := exists_minimal E j
  exact ⟨b, Nat.zero_le b, lt_of_le_of_lt minimal.le inside, minimal⟩

/-- The last best column of a row inside a box. -/
structure LastBest (E : ℕ → ℕ → R) (box : Box) (j b : ℕ) : Prop where
  low : box.ibegin ≤ b
  high : b < box.iend
  le : b ≤ j
  before : ∀ i, box.ibegin ≤ i → i < b → E j b ≤ E j i
  behind : ∀ i, b < i → i < box.iend → i ≤ j → E j b < E j i

theorem LastBest.le_inside (best : LastBest E box j b) {i : ℕ} (low : box.ibegin ≤ i) (high : i < box.iend)
    (le : i ≤ j) : E j b ≤ E j i := by
  rcases Nat.lt_trichotomy i b with lt | rfl | gt
  · exact best.before i low lt
  · exact le_rfl
  · exact (best.behind i gt high le).le

/-- **The last best column of a box is a least one of its row.** -/
theorem Covers.minimal (covers : Covers E box) (low : box.jbegin ≤ j) (high : j < box.jend)
    (best : LastBest E box j b) : Minimal E j b := by
  obtain ⟨m, from_m, to_m, minimal⟩ := covers j low high
  exact ⟨best.le, fun i le => (best.le_inside from_m to_m minimal.le).trans (minimal.least i le)⟩

variable (covers : Covers E box) (sorted : Sorted E d) (fits : box.Fits d) (some : box.jbegin < box.jend)
  (best : LastBest E box box.middle b)
include covers sorted fits some best

/-- **The rows before the middle one** need no later column. -/
theorem Covers.left : Covers E (box.left b) := by
  intro j low high
  have inside : box.middle < box.jend := by unfold middle; omega
  have := fits.rows
  obtain ⟨m, from_m, to_m, minimal⟩ := covers j low (show j < box.jend from lt_trans high inside)
  rcases Nat.lt_or_ge b m with behind | upto
  · -- the middle row prefers `b`, so this row does too
    have rows : j ≤ box.middle := le_of_lt high
    have better := (best.behind m behind to_m (minimal.le.trans rows)).le
    have here := sorted.earlier_le rows (by omega) behind minimal.le better
    exact ⟨b, best.low, Nat.lt_succ_self b, (Nat.le_of_lt behind).trans minimal.le,
      fun i le => here.trans (minimal.least i le)⟩
  · exact ⟨m, from_m, Nat.lt_succ_of_le upto, minimal⟩

omit some in
/-- **The rows behind the middle one** need no earlier column. -/
theorem Covers.right : Covers E (box.right b) := by
  intro j low high
  have behindMiddle : box.middle < j := low
  have bound : j < box.jend := high
  have := fits.rows
  obtain ⟨m, from_m, to_m, minimal⟩ := covers j (by unfold middle at behindMiddle; omega) bound
  rcases Nat.lt_or_ge m b with before | from_b
  · have better := best.before m from_m before
    have here := sorted.later_le behindMiddle.le (by omega) before best.le better
    exact ⟨b, le_rfl, best.high, best.le.trans behindMiddle.le, fun i le => here.trans (minimal.least i le)⟩
  · exact ⟨m, from_b, to_m, minimal⟩

omit covers sorted some in
theorem Fits.right : (box.right b).Fits d :=
  ⟨fits.rows, best.high, best.le.trans (Nat.le_succ _)⟩

omit covers sorted in
theorem Fits.left : (box.left b).Fits d := by
  have := fits.rows
  refine ⟨?_, Nat.lt_succ_of_le best.low, fits.diagonal⟩
  show box.middle ≤ d
  unfold middle
  omega

end Box

/-! ### The work of a division -/

namespace Box

variable {box : Box} {b : ℕ}

/-- A bound on the entries that are looked at in a box, if every division looks at the columns of
its box once: the columns for every halving, and two for every row. -/
def work (box : Box) : ℕ :=
  (box.iend - box.ibegin) * (box.jend - box.jbegin).size +
    (2 * (box.jend - box.jbegin) - (box.jend - box.jbegin).size)

theorem size_le (m : ℕ) : m.size ≤ m := by
  cases m with
  | zero => simp
  | succ m => exact Nat.size_le.mpr (Nat.lt_two_pow_self)

theorem size_half {m : ℕ} (pos : 0 < m) : m.size = (m / 2).size + 1 := by
  obtain ⟨s, eq⟩ : ∃ s, m.size = s + 1 := ⟨m.size - 1, by have := Nat.size_pos.mpr pos; omega⟩
  have high : m < 2 ^ (s + 1) := eq ▸ Nat.lt_size_self m
  have low : 2 ^ s ≤ m := Nat.lt_size.mp (by omega)
  rw [Nat.pow_succ] at high
  have upper : (m / 2).size ≤ s := Nat.size_le.mpr (by omega)
  have lower : s ≤ (m / 2).size := by
    cases s with
    | zero => exact Nat.zero_le _
    | succ s =>
      rw [Nat.pow_succ] at low
      exact Nat.lt_size.mpr (by omega)
  omega

/-- The smaller half is at most one halving shorter. -/
theorem size_pred_half {m : ℕ} : m.size ≤ ((m - 1) / 2).size + 2 := by
  rcases Nat.lt_or_ge m 3 with few | many
  · exact (size_le m).trans (by omega)
  · have first := size_half (show 0 < m by omega)
    have second := size_half (show 0 < m / 2 by omega)
    have : (m / 2 / 2).size ≤ ((m - 1) / 2).size := Nat.size_le_size (by omega)
    omega

/-- **Dividing a box**: its columns once, and then both parts. -/
theorem work_split (some : box.jbegin < box.jend) (low : box.ibegin ≤ b) (high : b < box.iend) :
    (box.iend - box.ibegin) + ((box.left b).work + (box.right b).work) ≤ box.work := by
  obtain ⟨rows, bounds⟩ : ∃ rows, box.jend = box.jbegin + rows := ⟨box.jend - box.jbegin, by omega⟩
  have pos : 0 < rows := by omega
  have first : box.middle - box.jbegin = rows / 2 := by unfold middle; omega
  have second : box.jend - (box.middle + 1) = (rows - 1) / 2 := by unfold middle; omega
  have whole : box.jend - box.jbegin = rows := by omega
  have half := size_half pos
  have pred := size_pred_half (m := rows)
  have mono : ((rows - 1) / 2).size ≤ (rows / 2).size := Nat.size_le_size (by omega)
  have small := size_le (rows / 2)
  have small' := size_le ((rows - 1) / 2)
  obtain ⟨w, columns⟩ : ∃ w, box.iend = box.ibegin + w := ⟨box.iend - box.ibegin, by omega⟩
  obtain ⟨w₁, inner⟩ : ∃ w₁, b + 1 = box.ibegin + w₁ := ⟨b + 1 - box.ibegin, by omega⟩
  have parts : w₁ + (box.iend - b) = w + 1 := by omega
  have product : w₁ * (rows / 2).size + (box.iend - b) * ((rows - 1) / 2).size ≤
      w * (rows / 2).size + (rows / 2).size := by
    calc w₁ * (rows / 2).size + (box.iend - b) * ((rows - 1) / 2).size
        ≤ w₁ * (rows / 2).size + (box.iend - b) * (rows / 2).size :=
          Nat.add_le_add_left (Nat.mul_le_mul_left _ mono) _
      _ = w * (rows / 2).size + (rows / 2).size := by rw [← Nat.add_mul, parts, Nat.succ_mul]
  have width : box.iend - box.ibegin = w := by omega
  have width₁ : b + 1 - box.ibegin = w₁ := by omega
  simp only [work, left, right, first, second, whole, half, width, width₁, Nat.mul_succ]
  omega

/-- A single column costs its rows. -/
theorem rows_le_work (columns : box.ibegin < box.iend) : box.jend - box.jbegin ≤ box.work := by
  unfold work
  have := size_le (box.jend - box.jbegin)
  have : (box.jend - box.jbegin).size ≤ (box.iend - box.ibegin) * (box.jend - box.jbegin).size :=
    Nat.le_mul_of_pos_left _ (by omega)
  omega

end Box

end Cmicot.RowMinima
