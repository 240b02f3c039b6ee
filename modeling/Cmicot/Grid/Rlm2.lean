import Cmicot.Grid.BestSplit

/-!
How the candidates of `E_RLM2` move (`grid_creator/binarization.cpp`).

For any matrix of errors the loops stay inside the vectors and end, the `while` loop because
every pass raises the lower candidate. If better columns stay better from row to row and errors
do not fall to the right of the diagonal, the lower candidate is always best among the columns
up to itself and the upper one among those from itself on, so where they meet is the best column.

* `forwardStep_ok`, `invertedStep_ok`: one position of a forward and of an inverted loop.
* `rebuild_ok`: the `while` loop.
* `layerRlm2_ok`: a whole layer.
-/

namespace Cmicot.Grid

open Loop

/-! ### Vectors -/

section Vectors

variable {α : Type} {xs : List α} {x : α} {i d : ℕ}

theorem read_ok (at_i : xs[i]? = some x) : read xs i = .ok x := by
  rw [read, at_i]

theorem getElem?_of_read (got : read xs i = .ok x) : xs[i]? = some x := by
  unfold read at got
  split at got
  case h_1 y at_i =>
    cases got
    exact at_i
  case h_2 => cases got

theorem write_ok (inside : i < xs.length) : write xs i x = .ok (xs.set i x) := if_pos inside

/-- An entry of a list with one more at its end. -/
theorem getElem?_concat {y : α} (length : xs.length = d) (at_i : (xs ++ [y])[i]? = some x) :
    xs[i]? = some x ∨ i = d ∧ x = y := by
  rcases Nat.lt_or_ge i xs.length with before | behind
  · exact .inl (by rwa [List.getElem?_append_left before] at at_i)
  · have inside := (List.getElem?_eq_some_iff.mp at_i).1
    rw [List.length_append, List.length_singleton] at inside
    have last : i = xs.length := by omega
    rw [last, List.getElem?_concat_length] at at_i
    exact .inr ⟨by omega, (Option.some.inj at_i).symm⟩

theorem mirror_ok (inside : i < d) : mirror d i = .ok (d - i - 1) := if_pos inside

end Vectors

/-! ### The inner loops -/

section Inner

variable {R : Type} [Add R] [LinearOrder R] {err : ℕ → Except Fault R} {F : ℕ → R}

theorem climb_ok (eps : R) (p count : ℕ) (reads : ∀ m, p < m → m ≤ p + count → err m = .ok (F m)) :
    ∃ q, climb err eps count (p + 1) (F p) = .ok (q + 1, F q) ∧ p ≤ q ∧ q ≤ p + count ∧
      (∀ m, p ≤ m → m < q → ¬ F m + eps < F (m + 1)) ∧ (q = p + count ∨ F q + eps < F (q + 1)) := by
  induction count generalizing p with
  | zero => exact ⟨p, rfl, le_rfl, le_rfl, fun m low high => absurd high (not_lt.mpr low), .inl rfl⟩
  | succ count ih =>
    rw [climb, reads (p + 1) (by omega) (by omega), ok_bind]
    by_cases grows : F p + eps < F (p + 1)
    · refine ⟨p, by rw [if_pos grows]; rfl, le_rfl, by omega, fun m low high => absurd high (not_lt.mpr low),
        .inr grows⟩
    · obtain ⟨q, ran, low, high, chain, stop⟩ := ih (p + 1) fun m low high => reads m (by omega) (by omega)
      refine ⟨q, by rw [if_neg grows]; exact ran, by omega, by omega, fun m from_p before => ?_, ?_⟩
      · rcases Nat.eq_or_lt_of_le from_p with rfl | later
        · exact grows
        · exact chain m later before
      · exact stop.imp_left fun eq => by omega

theorem seek_ok (eps bestError : R) (i count : ℕ) (reads : ∀ m, i ≤ m → m < i + count → err m = .ok (F m)) :
    ∃ q best, seek err eps count i bestError = .ok (q, best) ∧ i ≤ q ∧
      (∀ m, i ≤ m → m < q → ¬ F m + eps < bestError) ∧
      (q = i + count ∧ best = bestError ∨ q < i + count ∧ F q + eps < bestError ∧ best = F q) := by
  induction count generalizing i with
  | zero => exact ⟨i, bestError, rfl, le_rfl, fun m low high => absurd high (not_lt.mpr low), .inl ⟨rfl, rfl⟩⟩
  | succ count ih =>
    rw [seek, reads i le_rfl (by omega), ok_bind]
    by_cases smaller : F i + eps < bestError
    · exact ⟨i, F i, by rw [if_pos smaller]; rfl, le_rfl, fun m low high => absurd high (not_lt.mpr low),
        .inr ⟨by omega, smaller, rfl⟩⟩
    · obtain ⟨q, best, ran, low, before, found⟩ := ih (i + 1) fun m low high => reads m (by omega) (by omega)
      refine ⟨q, best, by rw [if_neg smaller]; exact ran, by omega, fun m from_i until_q => ?_, ?_⟩
      · rcases Nat.eq_or_lt_of_le from_i with rfl | later
        · exact smaller
        · exact before m later until_q
      · exact found.imp (fun h => ⟨by omega, h.2⟩) fun h => ⟨by omega, h.2⟩

/-- What the two loops leave behind. -/
inductive Descended (F : ℕ → R) (eps bestError : R) (maxi i : ℕ) : ℕ → R → Prop
  | none (large : ∀ m, i ≤ m → m + 1 < maxi → ¬ F m + eps < bestError) :
      Descended F eps bestError maxi i maxi bestError
  | found {f q : ℕ} (from_i : i ≤ f) (to_q : f ≤ q) (inside : q + 2 ≤ maxi) (smaller : F f + eps < bestError)
      (large : ∀ m, i ≤ m → m < f → ¬ F m + eps < bestError)
      (chain : ∀ m, f ≤ m → m < q → ¬ F m + eps < F (m + 1))
      (stop : q + 2 = maxi ∨ F q + eps < F (q + 1)) : Descended F eps bestError maxi i q (F q)

theorem descend_ok (eps bestError : R) {maxi i : ℕ} (reads : ∀ m, m + 1 < maxi → err m = .ok (F m))
    (inside : i + 1 < maxi) :
    ∃ q best, descend err eps maxi i bestError = .ok (q, best) ∧ Descended F eps bestError maxi i q best := by
  obtain ⟨f, best, sought, low, large, found⟩ := seek_ok eps bestError i (maxi - 1 - i)
    fun m _ high => reads m (by omega)
  simp only [descend, sought, ok_bind]
  rcases found with ⟨rfl, rfl⟩ | ⟨before, smaller, rfl⟩
  · refine ⟨maxi, best, by rw [if_pos (by omega)]; rfl, .none fun m from_i until_maxi => ?_⟩
    exact large m from_i (by omega)
  · obtain ⟨q, climbed, from_f, until_maxi, chain, stop⟩ := climb_ok eps f (maxi - 1 - (f + 1))
      fun m _ high => reads m (by omega)
    refine ⟨q, F q, ?_, .found low from_f (by omega) smaller large chain (stop.imp_left fun eq => by omega)⟩
    rw [if_neg (by omega), climbed]
    rfl

end Inner

/-! ### What is known of a position -/

section Cells

variable {R : Type} [Add R] [LinearOrder R] {err : ℕ → ℕ → Except Fault R} {E : ℕ → ℕ → R} {eps : R} {d i j : ℕ}
  {cell : Cell R} {cells : List (Cell R)}

/-- A matrix of errors in which better columns stay better towards one side, errors do not fall
to the right of the diagonal, and `eps` makes no difference. -/
structure Regular (E : ℕ → ℕ → R) (eps : R) (d : ℕ) : Prop where
  later : ∀ {j i i'}, j + 1 < d → i < i' → i' < d → E j i' ≤ E j i → E (j + 1) i' ≤ E (j + 1) i
  earlier : ∀ {j i i'}, j + 1 < d → i < i' → i' < d → E (j + 1) i ≤ E (j + 1) i' → E j i ≤ E j i'
  tail : ∀ {j i}, j ≤ i → i + 1 < d → E j i ≤ E j (i + 1)
  gap : ∀ {j i i'}, E j i + eps < E j i' ↔ E j i < E j i'

/-- The lower candidate: it is best up to itself, and best of all or better than the next. -/
structure Lower (E : ℕ → ℕ → R) (eps : R) (d j : ℕ) (cell : Cell R) : Prop where
  lt : cell.bs1 < d
  error : cell.e1 = E j cell.bs1
  le : Regular E eps d → cell.bs1 ≤ j
  before : Regular E eps d → ∀ m < cell.bs1, E j cell.bs1 ≤ E j m
  next : Regular E eps d →
    (∀ m, cell.bs1 < m → m < d → E j cell.bs1 ≤ E j m) ∨ E j cell.bs1 < E j (cell.bs1 + 1)

/-- The upper candidate: it is best from itself on, and best of all or better than the one before. -/
structure Upper (E : ℕ → ℕ → R) (eps : R) (d j : ℕ) (cell : Cell R) : Prop where
  lt : cell.bs2 < d
  error : cell.e2 = E j cell.bs2
  le : Regular E eps d → cell.bs2 ≤ j
  behind : Regular E eps d → ∀ m, cell.bs2 < m → m < d → E j cell.bs2 ≤ E j m
  next : Regular E eps d →
    (∀ m < cell.bs2, E j cell.bs2 ≤ E j m) ∨ E j cell.bs2 < E j (cell.bs2 - 1)

/-- After an inverted loop: nothing near the lower candidate is better than the upper one. -/
structure Settled (E : ℕ → ℕ → R) (eps : R) (d j : ℕ) (cell : Cell R) : Prop where
  lower : Lower E eps d j cell
  upper : Upper E eps d j cell
  apart : cell.bs1 = cell.bs2 ∨ cell.bs1 + 2 ≤ cell.bs2
  better : Regular E eps d → ∀ m < cell.bs1 + 2, m < d → E j cell.bs2 ≤ E j m

/-- After a forward loop: nothing near the upper candidate is better than the lower one. -/
structure Raised (E : ℕ → ℕ → R) (eps : R) (d j : ℕ) (cell : Cell R) : Prop where
  lower : Lower E eps d j cell
  le : cell.bs1 ≤ cell.bs2
  lt : cell.bs2 < d
  better : Regular E eps d → ∀ m < d, cell.bs2 ≤ m + 1 → E j cell.bs1 ≤ E j m

/-- Errors that never grow from one column to the next. -/
theorem falls_of_chain {F : ℕ → R} {f q : ℕ} (gap : ∀ {m m'}, F m + eps < F m' ↔ F m < F m')
    (chain : ∀ m, f ≤ m → m < q → ¬ F m + eps < F (m + 1)) {m : ℕ} (from_f : f ≤ m) (to_q : m ≤ q) : F q ≤ F m := by
  obtain ⟨t, rfl⟩ := Nat.exists_eq_add_of_le to_q
  induction t with
  | zero => exact le_rfl
  | succ t ih =>
    have step := not_lt.mp (gap.not.mp (chain (m + t) (by omega) (by omega)))
    exact step.trans (ih (fun m low high => chain m low (by omega)) (by omega))

theorem Regular.tail_le (regular : Regular E eps d) {m : ℕ} (diagonal : j ≤ i) (le : i ≤ m) (inside : m < d) :
    E j i ≤ E j m := by
  obtain ⟨t, rfl⟩ := Nat.exists_eq_add_of_le le
  induction t with
  | zero => exact le_rfl
  | succ t ih => exact (ih (by omega) (by omega)).trans (regular.tail (by omega) inside)

/-- With exact comparisons, the two loops find nothing or a smaller error that is best so far. -/
theorem Descended.exact {F : ℕ → R} {bestError best : R} {maxi q : ℕ}
    (descended : Descended F eps bestError maxi i q best) (gap : ∀ {m m'}, F m + eps < F m' ↔ F m < F m')
    {b : ℕ} (start : bestError = F b) :
    (q = maxi ∧ ∀ m, i ≤ m → m + 1 < maxi → bestError ≤ F m) ∨
      (F q < bestError ∧ (∀ m, i ≤ m → m < q → F q ≤ F m) ∧ (q + 2 = maxi ∨ F q < F (q + 1))) := by
  subst start
  cases descended with
  | none large => exact .inl ⟨rfl, fun m from_i inside => not_lt.mp (gap.not.mp (large m from_i inside))⟩
  | @found f q from_i to_q inside smaller large chain stop =>
    have less := (falls_of_chain gap chain le_rfl to_q).trans_lt (gap.mp smaller)
    refine .inr ⟨less, fun m from_i before => ?_, stop.imp_right gap.mp⟩
    rcases Nat.lt_or_ge m f with early | late
    · exact less.le.trans (not_lt.mp (gap.not.mp (large m from_i early)))
    · exact falls_of_chain gap chain late before.le

theorem Descended.range {F : ℕ → R} {bestError best : R} {maxi q : ℕ}
    (descended : Descended F eps bestError maxi i q best) :
    (q = maxi ∧ best = bestError) ∨ (i ≤ q ∧ q + 2 ≤ maxi ∧ best = F q) := by
  cases descended with
  | none => exact .inl ⟨rfl, rfl⟩
  | found from_i to_q inside => exact .inr ⟨by omega, inside, rfl⟩

/-! ### Forward loops -/

/-- What a forward loop knows of the columns before `i`. -/
def CarryLow (E : ℕ → ℕ → R) (j i : ℕ) (cell : Cell R) : Prop :=
  ∀ m < i, E j i ≤ E j m ∨ E j cell.bs2 ≤ E j m

/-- Nothing before the upper candidate is better, if nothing between `i` and it is. -/
theorem Upper.before (upper : Upper E eps d j cell) (regular : Regular E eps d) (inside : i < d)
    (carry : CarryLow E j i cell) (between : ∀ m, i ≤ m → m + 1 < cell.bs2 → E j cell.bs2 ≤ E j m) :
    ∀ m < cell.bs2, E j cell.bs2 ≤ E j m := by
  have last : ∀ m, m + 1 = cell.bs2 → E j cell.bs2 ≤ E j m := by
    intro m eq
    rcases upper.next regular with all | smaller
    · exact all m (by omega)
    · rw [show m = cell.bs2 - 1 by omega]
      exact smaller.le
  have from_i : ∀ m, i ≤ m → m < cell.bs2 → E j cell.bs2 ≤ E j m := by
    intro m low high
    rcases Nat.eq_or_lt_of_le (show m + 1 ≤ cell.bs2 from high) with eq | lt
    · exact last m eq
    · exact between m low lt
  intro m before
  rcases Nat.lt_or_ge m i with early | late
  · rcases carry m early with le | le
    · refine le_trans ?_ le
      rcases Nat.lt_trichotomy i cell.bs2 with lt | eq | gt
      · exact from_i i le_rfl lt
      · rw [eq]
      · exact upper.behind regular i gt inside
    · exact le
  · exact from_i m late before

/-- The lower candidate is moved to the upper one. -/
theorem Upper.joined (upper : Upper E eps d j cell)
    (all : Regular E eps d → ∀ m < cell.bs2, E j cell.bs2 ≤ E j m) :
    Raised E eps d j { cell with bs1 := cell.bs2, e1 := cell.e2 } := by
  refine ⟨⟨upper.lt, upper.error, upper.le, all, fun regular => .inl (upper.behind regular)⟩, le_rfl, upper.lt, ?_⟩
  intro regular m inside near
  rcases Nat.lt_trichotomy m cell.bs2 with lt | eq | gt
  · exact all regular m lt
  · rw [eq]
  · exact upper.behind regular m gt inside

/-- The lower candidate is moved to a column that is better than the upper one. -/
theorem Upper.raised (upper : Upper E eps d j cell) {q : ℕ} (low : i ≤ q) (high : q + 2 ≤ cell.bs2)
    (carry : Regular E eps d → CarryLow E j i cell)
    (found : Regular E eps d → E j q < E j cell.bs2 ∧ (∀ m, i ≤ m → m < q → E j q ≤ E j m) ∧
      (q + 2 = cell.bs2 ∨ E j q < E j (q + 1))) :
    Raised E eps d j { cell with bs1 := q, e1 := E j q } := by
  have small := upper.lt
  have last (regular : Regular E eps d) : E j cell.bs2 < E j (cell.bs2 - 1) := by
    refine (upper.next regular).resolve_left fun all => ?_
    exact absurd (found regular).1 (not_lt.mpr (all q (by omega)))
  refine ⟨⟨show q < d by omega, rfl, fun regular => ?_, fun regular m before => ?_, fun regular => .inr ?_⟩,
    show q ≤ cell.bs2 by omega, small, fun regular m inside near => ?_⟩
  · have := upper.le regular
    exact show q ≤ j by omega
  · obtain ⟨less, falls, -⟩ := found regular
    rcases Nat.lt_or_ge m i with early | late
    · rcases carry regular m early with le | le
      · rcases Nat.eq_or_lt_of_le low with rfl | lt
        · exact le
        · exact (falls i le_rfl lt).trans le
      · exact less.le.trans le
    · exact falls m late before
  · obtain ⟨less, -, boundary | grows⟩ := found regular
    · have := last regular
      rw [← boundary] at this less
      exact less.trans this
    · exact grows
  · obtain ⟨less, -, -⟩ := found regular
    rcases Nat.eq_or_lt_of_le near with eq | lt
    · have := last regular
      rw [eq, Nat.add_sub_cancel] at this
      exact (less.trans (eq ▸ this)).le
    · rcases Nat.eq_or_lt_of_le (Nat.le_of_lt_succ lt) with rfl | gt
      · exact less.le
      · exact less.le.trans (upper.behind regular m gt inside)

/-- **One position of a forward loop.** -/
theorem forwardStep_ok (reads : ∀ m < d, err j m = .ok (E j m)) (size : cells.length = d) (here : j < d)
    (upper : Upper E eps d j cell) (inside : i < d) (carry : Regular E eps d → CarryLow E j i cell) :
    ∃ cell', forwardStep err eps j cell (i, cells) = .ok (cell'.bs1, cells.set j cell') ∧
      min i cell.bs2 ≤ cell'.bs1 ∧ Raised E eps d j cell' := by
  have small := upper.lt
  by_cases close : cell.bs2 ≤ i + 1
  · refine ⟨{ cell with bs1 := cell.bs2, e1 := cell.e2 }, ?_, min_le_right _ _, upper.joined fun regular => ?_⟩
    · simp only [forwardStep, if_pos close, write_ok (size ▸ here), ok_bind, pure_eq_ok]
    · exact upper.before regular inside (carry regular) fun m low high => by omega
  · obtain ⟨q, best, descended, found⟩ := descend_ok eps cell.e2 (fun m lt => reads m (by omega))
      (show i + 1 < cell.bs2 by omega)
    have ran : forwardStep err eps j cell (i, cells) =
        .ok (q, cells.set j { cell with bs1 := q, e1 := best }) := by
      simp only [forwardStep, if_neg close, descended, write_ok (size ▸ here), ok_bind, pure_eq_ok]
    refine ⟨{ cell with bs1 := q, e1 := best }, ran, ?_, ?_⟩
    · rcases found.range with ⟨rfl, -⟩ | ⟨low, -, -⟩
      · exact min_le_right _ _
      · exact (min_le_left _ _).trans low
    · rcases found.range with ⟨rfl, rfl⟩ | ⟨low, high, rfl⟩
      · refine upper.joined fun regular => upper.before regular inside (carry regular) fun m low high => ?_
        rcases found.exact regular.gap upper.error with ⟨-, large⟩ | ⟨smaller, -, -⟩
        · exact upper.error ▸ large m low high
        · exact absurd (upper.error ▸ smaller) (lt_irrefl _)
      · refine upper.raised low high carry fun regular => ?_
        rcases found.exact regular.gap upper.error with ⟨eq, -⟩ | ⟨smaller, rest⟩
        · omega
        · exact ⟨upper.error ▸ smaller, rest⟩

/-- What the next position of a forward loop starts from. -/
theorem Raised.carryLow {cell' : Cell R} (raised : Raised E eps d j cell) (regular : Regular E eps d)
    (size : cells.length = d) (at_next : cells[j + 1]? = some cell') : CarryLow E (j + 1) cell.bs1 cell' := by
  intro m before
  have next : j + 1 < d := size ▸ (List.getElem?_eq_some_iff.mp at_next).1
  exact .inl (regular.later next before raised.lower.lt (raised.lower.before regular m before))

/-! ### Inverted loops -/

/-- What an inverted loop knows of the columns behind `d - i - 1`. -/
def CarryHigh (E : ℕ → ℕ → R) (d j i : ℕ) (cell : Cell R) : Prop :=
  ∀ m < d, d ≤ m + i → (i < d ∧ E j (d - i - 1) ≤ E j m) ∨ E j cell.bs1 ≤ E j m

/-- Nothing behind the lower candidate is better, if nothing between it and `d - i - 1` is. -/
theorem Lower.behind (lower : Lower E eps d j cell) (regular : Regular E eps d) (carry : CarryHigh E d j i cell)
    (between : ∀ m, m + i < d → cell.bs1 + 1 < m → E j cell.bs1 ≤ E j m) :
    ∀ m, cell.bs1 < m → m < d → E j cell.bs1 ≤ E j m := by
  have first : cell.bs1 + 1 < d → E j cell.bs1 ≤ E j (cell.bs1 + 1) := by
    intro inside
    rcases lower.next regular with all | smaller
    · exact all _ (Nat.lt_succ_self _) inside
    · exact smaller.le
  have to_i : ∀ m, m + i < d → cell.bs1 < m → E j cell.bs1 ≤ E j m := by
    intro m low high
    rcases Nat.eq_or_lt_of_le (show cell.bs1 + 1 ≤ m from high) with rfl | lt
    · exact first (by omega)
    · exact between m low lt
  intro m above inside
  rcases Nat.lt_or_ge (m + i) d with early | late
  · exact to_i m early above
  · rcases carry m inside late with ⟨small, le⟩ | le
    · refine le_trans ?_ le
      rcases Nat.lt_trichotomy cell.bs1 (d - i - 1) with lt | eq | gt
      · exact to_i _ (by omega) lt
      · rw [← eq]
      · exact lower.before regular _ gt
    · exact le

/-- The upper candidate is moved to the lower one. -/
theorem Lower.joined (lower : Lower E eps d j cell)
    (all : Regular E eps d → ∀ m, cell.bs1 < m → m < d → E j cell.bs1 ≤ E j m) :
    Settled E eps d j { cell with bs2 := cell.bs1, e2 := cell.e1 } := by
  refine ⟨⟨lower.lt, lower.error, lower.le, lower.before, fun regular => .inl (all regular)⟩,
    ⟨lower.lt, lower.error, lower.le, all, fun regular => .inl (lower.before regular)⟩, .inl rfl, ?_⟩
  intro regular m near inside
  rcases Nat.lt_trichotomy m cell.bs1 with lt | eq | gt
  · exact lower.before regular m lt
  · rw [eq]
  · exact all regular m gt inside

/-- The upper candidate is moved to a column that is better than the lower one. -/
theorem Lower.settled (lower : Lower E eps d j cell) {p : ℕ} (low : cell.bs1 + 2 ≤ p) (high : p + i < d)
    (carry : Regular E eps d → CarryHigh E d j i cell)
    (found : Regular E eps d → E j p < E j cell.bs1 ∧ (∀ m, m + i < d → p < m → E j p ≤ E j m) ∧
      (cell.bs1 + 2 = p ∨ E j p < E j (p - 1))) :
    Settled E eps d j { cell with bs2 := p, e2 := E j p } := by
  have first (regular : Regular E eps d) : E j cell.bs1 < E j (cell.bs1 + 1) := by
    refine (lower.next regular).resolve_left fun all => ?_
    exact absurd (found regular).1 (not_lt.mpr (all p (by omega) (by omega)))
  have next (regular : Regular E eps d) : E j p < E j (p - 1) := by
    obtain ⟨less, -, rfl | grows⟩ := found regular
    · exact less.trans (first regular)
    · exact grows
  refine ⟨⟨lower.lt, lower.error, lower.le, lower.before, lower.next⟩,
    ⟨show p < d by omega, rfl, fun regular => ?_, fun regular m above inside => ?_, fun regular => .inr (next regular)⟩,
    .inr low, fun regular m near inside => ?_⟩
  · -- to the right of the diagonal the errors do not fall
    by_contra beyond
    have le := regular.tail (show j ≤ p - 1 from Nat.le_sub_one_of_lt (not_le.mp beyond)) (by omega)
    rw [Nat.sub_add_cancel (by omega)] at le
    exact absurd (next regular) (not_lt.mpr le)
  · obtain ⟨less, falls, -⟩ := found regular
    rcases Nat.lt_or_ge (m + i) d with early | late
    · exact falls m early above
    · rcases carry regular m inside late with ⟨small, le⟩ | le
      · rcases Nat.eq_or_lt_of_le (show p ≤ d - i - 1 by omega) with eq | lt
        · rwa [← eq] at le
        · exact (falls _ (by omega) lt).trans le
      · exact less.le.trans le
  · obtain ⟨less, -, -⟩ := found regular
    rcases Nat.lt_trichotomy m cell.bs1 with lt | eq | gt
    · exact less.le.trans (lower.before regular m lt)
    · rw [eq]
      exact less.le
    · rw [show m = cell.bs1 + 1 from Nat.le_antisymm (Nat.le_of_lt_succ near) gt]
      exact (less.trans (first regular)).le

/-- **One position of an inverted loop.** -/
theorem invertedStep_ok (reads : ∀ m < d, err j m = .ok (E j m)) (size : cells.length = d) {r : ℕ} (here : r < d)
    (mirrored : d - r - 1 = j) (at_j : cells[j]? = some cell) (lower : Lower E eps d j cell)
    (carry : Regular E eps d → CarryHigh E d j i cell) :
    ∃ q cell', invertedStep err eps d r (i, cells) = .ok (q, cells.set j cell') ∧ cell'.bs1 = cell.bs1 ∧
      q < d ∧ cell'.bs2 = d - q - 1 ∧ Settled E eps d j cell' := by
  have small := lower.lt
  have inside : j < cells.length := by omega
  by_cases close : d - cell.bs1 - 1 ≤ i + 1
  · refine ⟨d - cell.bs1 - 1, { cell with bs2 := cell.bs1, e2 := cell.e1 }, ?_, rfl, by omega,
      show cell.bs1 = d - (d - cell.bs1 - 1) - 1 by omega, lower.joined fun regular => ?_⟩
    · simp only [invertedStep, mirror_ok here, mirrored, read_ok at_j, mirror_ok small, if_pos close, write_ok inside,
        ok_bind, pure_eq_ok]
    · exact lower.behind regular (carry regular) fun m low high => by omega
  · have mirrors : ∀ m, m + 1 < d - cell.bs1 - 1 → (do err j (← mirror d m)) = .ok (E j (d - m - 1)) := by
      intro m lt
      simp only [mirror_ok (show m < d by omega), ok_bind, reads (d - m - 1) (by omega)]
    obtain ⟨q, best, descended, found⟩ := descend_ok eps cell.e1 mirrors (show i + 1 < d - cell.bs1 - 1 by omega)
    have bound : q < d := by
      rcases found.range with ⟨rfl, -⟩ | ⟨-, high, -⟩ <;> omega
    have start : cell.e1 = (fun m => E j (d - m - 1)) (d - cell.bs1 - 1) := by
      simp only [lower.error]
      rw [show d - (d - cell.bs1 - 1) - 1 = cell.bs1 by omega]
    refine ⟨q, { cell with bs2 := d - q - 1, e2 := best }, ?_, rfl, bound, rfl, ?_⟩
    · simp only [invertedStep, mirror_ok here, mirrored, read_ok at_j, mirror_ok small, if_neg close, descended,
        mirror_ok bound, write_ok inside, ok_bind, pure_eq_ok]
    · rcases found.range with ⟨rfl, rfl⟩ | ⟨low, high, rfl⟩
      · rw [show d - (d - cell.bs1 - 1) - 1 = cell.bs1 by omega]
        refine lower.joined fun regular => lower.behind regular (carry regular) fun m low high => ?_
        rcases found.exact regular.gap start with ⟨-, large⟩ | ⟨smaller, -, -⟩
        · have := large (d - m - 1) (by omega) (by omega)
          rwa [lower.error, show d - (d - m - 1) - 1 = m by omega] at this
        · exact absurd (start ▸ smaller) (lt_irrefl _)
      · refine lower.settled (by omega) (by omega) carry fun regular => ?_
        rcases found.exact regular.gap start with ⟨eq, -⟩ | ⟨smaller, falls, stop⟩
        · omega
        · refine ⟨lower.error ▸ smaller, fun m low above => ?_, stop.imp (fun eq => by omega) fun grows => ?_⟩
          · have := falls (d - m - 1) (by omega) (by omega)
            rwa [show d - (d - m - 1) - 1 = m by omega] at this
          · rwa [show d - (q + 1) - 1 = d - q - 1 - 1 by omega] at grows

/-! ### The loops -/

/-- A later forward loop: up to `maxj` the lower candidates are raised. -/
theorem forwardLoop_ok (reads : ∀ j < d, ∀ m < d, err j m = .ok (E j m)) {count : ℕ} (whole : j + count = d)
    (size : cells.length = d) (inside : i < d)
    (settled : ∀ m cell, j ≤ m → cells[m]? = some cell → Settled E eps d m cell)
    (carry : Regular E eps d → ∀ cell, cells[j]? = some cell → CarryLow E j i cell) :
    ∃ maxj cells', forwardLoop err eps count j (i, cells) = .ok (maxj, cells') ∧ cells'.length = d ∧ j ≤ maxj ∧
      maxj ≤ d ∧ (∀ m < j, cells'[m]? = cells[m]?) ∧
      (∀ m cell, j ≤ m → m < maxj → cells'[m]? = some cell → Raised E eps d m cell) ∧
      ∀ m cell, maxj ≤ m → cells'[m]? = some cell → Settled E eps d m cell := by
  induction count generalizing j i cells with
  | zero => exact ⟨j, cells, rfl, size, le_rfl, by omega, fun _ _ => rfl, fun m _ low high => by omega, settled⟩
  | succ count ih =>
    have here : j < cells.length := by omega
    have at_j := List.getElem?_eq_getElem here
    have bounds := settled j _ le_rfl at_j
    rw [forwardLoop, read_ok at_j, ok_bind]
    by_cases passed : i ≤ cells[j].bs1
    · refine ⟨j, cells, by simp only [if_pos passed, pure_eq_ok], size, le_rfl, by omega, fun _ _ => rfl,
        fun m _ low high => by omega, settled⟩
    · obtain ⟨cell', stepped, -, raised⟩ := forwardStep_ok (reads j (by omega)) size (by omega) bounds.upper inside
        fun regular => carry regular _ at_j
      have other (m : ℕ) (ne : m ≠ j) : (cells.set j cell')[m]? = cells[m]? := List.getElem?_set_ne ne.symm
      obtain ⟨maxj, cells', ran, size', low, high, frame, ups, downs⟩ := ih (j := j + 1) (i := cell'.bs1) (by omega)
        (show (cells.set j cell').length = d by rw [List.length_set, size]) raised.lower.lt
        (fun m cell after at_m => settled m cell (by omega) (by rwa [other m (by omega)] at at_m))
        (fun regular cell at_next => raised.carryLow regular (by rw [List.length_set, size]) at_next)
      refine ⟨maxj, cells', ?_, size', by omega, high, fun m before => ?_, fun m cell from_j before at_m => ?_, downs⟩
      · simp only [if_neg passed, stepped, ok_bind, ran]
      · rw [frame m (by omega), other m (by omega)]
      · rcases Nat.eq_or_lt_of_le from_j with rfl | after
        · rw [frame j (by omega), List.getElem?_set_self here] at at_m
          cases at_m
          exact raised
        · exact ups m cell after before at_m

/-- What holds before step `s` of an inverted loop over `cells`. -/
structure Inverting (E : ℕ → ℕ → R) (eps : R) (d : ℕ) (cells : List (Cell R)) (s : ℕ) (st : ℕ × List (Cell R)) :
    Prop where
  size : st.2.length = d
  frame : ∀ m < d - s, st.2[m]? = cells[m]?
  bs1 : ∀ m : ℕ, (st.2[m]?).map Cell.bs1 = (cells[m]?).map Cell.bs1
  settled : ∀ m cell, d - s ≤ m → st.2[m]? = some cell → Settled E eps d m cell
  carry : Regular E eps d → s < d → ∀ cell, st.2[d - s - 1]? = some cell → CarryHigh E d (d - s - 1) st.1 cell

/-- An inverted loop over the positions from `maxj - 1` down to `k`. -/
theorem invertedLoop_ok (reads : ∀ j < d, ∀ m < d, err j m = .ok (E j m)) (first : ℕ → ℕ → ℕ) {s count : ℕ}
    (whole : s + count ≤ d)
    (lower : ∀ m cell, d - (s + count) ≤ m → m < d - s → cells[m]? = some cell → Lower E eps d m cell)
    (adjusts : Regular E eps d → ∀ s i cell, s < d → CarryHigh E d (d - s - 1) i cell →
      CarryHigh E d (d - s - 1) (first s i) cell)
    {st : ℕ × List (Cell R)} (start : Inverting E eps d cells s st) :
    ∃ st', forSteps (fun s st => invertedStep err eps d s (first s st.1, st.2)) s count st = .ok st' ∧
      Inverting E eps d cells (s + count) st' := by
  refine forSteps_ok (I := Inverting E eps d cells) start fun t st from_s until_end held => ?_
  obtain ⟨i, current⟩ := st
  have size := held.size
  have here : d - t - 1 < current.length := by
    simp only [size]
    omega
  have at_r := List.getElem?_eq_getElem here
  have original := at_r
  rw [held.frame _ (by omega)] at original
  obtain ⟨q, cell', stepped, same, small, upper, settled⟩ := invertedStep_ok (r := t) (i := first t i)
    (reads (d - t - 1) (by omega)) size (by omega) rfl at_r (lower _ _ (by omega) (by omega) original)
    fun regular => adjusts regular t i _ (by omega) (held.carry regular (by omega) _ at_r)
  refine ⟨_, stepped, ?_, fun m before => ?_, fun m => ?_, fun m cell after at_m => ?_,
    fun regular more cell at_next m inside behind => ?_⟩
  · rw [List.length_set, size]
  · rw [List.getElem?_set_ne (by omega)]
    exact held.frame m (by omega)
  · rw [← held.bs1 m]
    rcases eq_or_ne m (d - t - 1) with rfl | other
    · exact (congrArg _ (List.getElem?_set_self here)).trans (by simp only [at_r, Option.map_some, same])
    · exact congrArg _ (List.getElem?_set_ne other.symm)
  · rcases Nat.eq_or_lt_of_le (show d - t - 1 ≤ m by omega) with rfl | later
    · rw [List.getElem?_set_self here] at at_m
      cases at_m
      exact settled
    · rw [List.getElem?_set_ne (by omega)] at at_m
      exact held.settled m cell (by omega) at_m
  · refine .inl ⟨small, ?_⟩
    have row : d - t - 1 = d - (t + 1) - 1 + 1 := by omega
    have best := settled.upper.behind regular m (by omega) inside
    rw [row, upper] at best
    exact regular.earlier (by omega) (by omega) inside best

/-- What a later inverted loop starts from. -/
theorem Raised.carryHigh (raised : Raised E eps d j cell) (regular : Regular E eps d) :
    CarryHigh E d j (d - cell.bs2 - 1 + 2) cell := by
  intro m inside behind
  have := raised.lt
  exact .inr (raised.better regular m inside (by omega))

/-- What a later forward loop starts from. -/
theorem Settled.carryLow (settled : Settled E eps d j cell) (inside : cell.bs1 + 2 < d) (regular : Regular E eps d) :
    CarryLow E j (cell.bs1 + 2) cell := by
  intro m before
  exact .inr (settled.better regular m before (by omega))

/-- The forward half of a pass of the `while` loop: it never stops at `k`, and raises the lower
candidates from there up to `maxj`. -/
theorem forwardPass_ok (reads : ∀ j < d, ∀ m < d, err j m = .ok (E j m)) {k : ℕ} (size : cells.length = d)
    (settled : ∀ m cell, k ≤ m → cells[m]? = some cell → Settled E eps d m cell) (at_k : cells[k]? = some cell)
    (more : cell.bs1 + 1 < cell.bs2) :
    ∃ maxj forwarded cell', forwardLoop err eps (d - k) k (cell.bs1 + 2, cells) = .ok (maxj, forwarded) ∧
      forwarded.length = d ∧ k < maxj ∧ maxj ≤ d ∧ forwarded[k]? = some cell' ∧ cell.bs1 < cell'.bs1 ∧
      (∀ m cell, k ≤ m → m < maxj → forwarded[m]? = some cell → Raised E eps d m cell) ∧
      ∀ m cell, maxj ≤ m → forwarded[m]? = some cell → Settled E eps d m cell := by
  have here : k < cells.length := (List.getElem?_eq_some_iff.mp at_k).1
  have bounds := settled k cell le_rfl at_k
  have small := bounds.upper.lt
  obtain ⟨count, eq⟩ : ∃ count, d - k = count + 1 := ⟨d - k - 1, by omega⟩
  obtain ⟨cell', stepped, moved, raised⟩ := forwardStep_ok (reads k (by omega)) size (by omega) bounds.upper
    (show cell.bs1 + 2 < d by omega) (bounds.carryLow (by omega))
  have other (m : ℕ) (ne : m ≠ k) : (cells.set k cell')[m]? = cells[m]? := List.getElem?_set_ne ne.symm
  obtain ⟨maxj, forwarded, ran, size', low, high, frame, ups, downs⟩ := forwardLoop_ok reads (j := k + 1)
    (i := cell'.bs1) (show k + 1 + count = d by omega)
    (show (cells.set k cell').length = d by rw [List.length_set, size])
    raised.lower.lt (fun m cell after at_m => settled m cell (by omega) (by rwa [other m (by omega)] at at_m))
    (fun regular cell at_next => raised.carryLow regular (by rw [List.length_set, size]) at_next)
  have first : forwarded[k]? = some cell' := by
    rw [frame k (by omega), List.getElem?_set_self here]
  refine ⟨maxj, forwarded, cell', ?_, size', by omega, high, first, by omega, fun m cell from_k before at_m => ?_,
    downs⟩
  · rw [eq, forwardLoop, read_ok at_k, ok_bind, if_neg (by simp), stepped, ok_bind, ran]
  · rcases Nat.eq_or_lt_of_le from_k with rfl | after
    · cases first.symm.trans at_m
      exact raised
    · exact ups m cell after before at_m

/-- One pass of the `while` loop: the candidates are settled again, and the lower one of `k`
has moved on. -/
theorem rebuildPass_ok (reads : ∀ j < d, ∀ m < d, err j m = .ok (E j m)) {k : ℕ} (size : cells.length = d)
    (settled : ∀ m cell, k ≤ m → cells[m]? = some cell → Settled E eps d m cell) (at_k : cells[k]? = some cell)
    (more : cell.bs1 + 1 < cell.bs2) :
    ∃ cells', rebuildPass err eps d k cell cells = .ok cells' ∧ cells'.length = d ∧
      (∀ m cell, k ≤ m → cells'[m]? = some cell → Settled E eps d m cell) ∧
      ∀ cell', cells'[k]? = some cell' → cell.bs1 < cell'.bs1 := by
  obtain ⟨maxj, forwarded, cell', loop, size', low, high, first, moved, raised, downs⟩ :=
    forwardPass_ok reads size settled at_k more
  have at_last := List.getElem?_eq_getElem (show maxj - 1 < forwarded.length by omega)
  have last := raised (maxj - 1) _ (by omega) (by omega) at_last
  have index : d - (d - maxj) - 1 = maxj - 1 := by omega
  have start : Inverting E eps d forwarded (d - maxj) (d - forwarded[maxj - 1].bs2 - 1 + 2, forwarded) := by
    refine ⟨size', fun _ _ => rfl, fun _ => rfl, fun m cell after at_m => downs m cell (by omega) at_m, ?_⟩
    intro regular _ cell at_index
    simp only [index] at at_index ⊢
    cases at_last.symm.trans at_index
    exact last.carryHigh regular
  obtain ⟨⟨i, cells'⟩, inverted, held⟩ := invertedLoop_ok reads (fun _ i => i)
    (show d - maxj + (d - k - (d - maxj)) ≤ d by omega)
    (fun m cell from_k before at_m => (raised m cell (by omega) (by omega) at_m).lower)
    (fun _ _ _ _ _ carry => carry) start
  refine ⟨cells', ?_, held.size, fun m cell from_k at_m => held.settled m cell (by omega) at_m, fun cell at_k' => ?_⟩
  · simp only [rebuildPass, loop, ok_bind, mirror_ok (show d - maxj < d by omega), index, read_ok at_last,
      mirror_ok last.lt]
    exact (congrArg (· >>= _) inverted).trans rfl
  · have same := held.bs1 k
    rw [first, at_k', Option.map_some, Option.map_some, Option.some.injEq] at same
    omega

/-- **The `while` loop ends with both candidates of position `k` equal.** -/
theorem rebuild_ok (reads : ∀ j < d, ∀ m < d, err j m = .ok (E j m)) {k passes : ℕ} (here : k < d)
    (size : cells.length = d) (settled : ∀ m cell, k ≤ m → cells[m]? = some cell → Settled E eps d m cell)
    (enough : ∀ cell, cells[k]? = some cell → d ≤ cell.bs1 + passes) :
    ∃ cells', rebuild err eps d k passes cells = .ok cells' ∧ cells'.length = d ∧
      (∀ m cell, k ≤ m → cells'[m]? = some cell → Settled E eps d m cell) ∧
      ∀ cell, cells'[k]? = some cell → cell.bs1 = cell.bs2 := by
  induction passes generalizing cells with
  | zero =>
    have at_k := List.getElem?_eq_getElem (show k < cells.length by omega)
    have bounds := settled k _ le_rfl at_k
    have := bounds.upper.lt
    have := enough _ at_k
    have met : ¬ cells[k].bs1 + 1 < cells[k].bs2 := by omega
    refine ⟨cells, by simp only [rebuild, read_ok at_k, ok_bind, if_neg met, pure_eq_ok], size, settled,
      fun cell at_k' => ?_⟩
    cases at_k.symm.trans at_k'
    exact bounds.apart.resolve_right (by omega)
  | succ passes ih =>
    have at_k := List.getElem?_eq_getElem (show k < cells.length by omega)
    have bounds := settled k _ le_rfl at_k
    by_cases more : cells[k].bs1 + 1 < cells[k].bs2
    · obtain ⟨next, passed, size', settled', moved⟩ := rebuildPass_ok reads size settled at_k more
      obtain ⟨cells', ran, rest⟩ := ih size' settled' fun cell at_next => by
        have := enough _ at_k
        have := moved cell at_next
        omega
      refine ⟨cells', ?_, rest⟩
      simp only [rebuild, read_ok at_k, ok_bind, if_neg (not_not.mpr more), passed, ran]
    · refine ⟨cells, by simp only [rebuild, read_ok at_k, ok_bind, if_pos more, pure_eq_ok], size, settled,
        fun cell at_k' => ?_⟩
      cases at_k.symm.trans at_k'
      exact bounds.apart.resolve_right (by omega)

/-- What holds before position `j` of the first forward loop. -/
structure Starting (E : ℕ → ℕ → R) (eps : R) (d j : ℕ) (st : ℕ × List (Cell R)) : Prop where
  size : st.2.length = d
  le : st.1 ≤ j
  lower : ∀ m cell, m < j → st.2[m]? = some cell → Lower E eps d m cell
  carry : Regular E eps d → j < d → ∀ m < st.1, E j st.1 ≤ E j m

/-- One position of the first forward loop. -/
theorem forwardStart_ok (reads : ∀ m < d, err j m = .ok (E j m)) (here : j < d) {st : ℕ × List (Cell R)}
    (held : Starting E eps d j st) :
    ∃ st', forwardStart err eps j st = .ok st' ∧ Starting E eps d (j + 1) st' := by
  obtain ⟨i, cells⟩ := st
  have size : cells.length = d := held.size
  have le : i ≤ j := held.le
  have inside : j < cells.length := by omega
  have at_j := List.getElem?_eq_getElem inside
  obtain ⟨q, climbed, low, high, chain, stop⟩ := climb_ok eps i (j - i)
    fun m _ upto => reads m (by omega)
  have before (regular : Regular E eps d) : ∀ m < q, E j q ≤ E j m := by
    intro m lt
    rcases Nat.lt_or_ge m i with early | late
    · exact (falls_of_chain regular.gap chain le_rfl low).trans (held.carry regular here m early)
    · exact falls_of_chain regular.gap chain late lt.le
  have lower : Lower E eps d j { cells[j] with bs1 := q, e1 := E j q } := by
    refine ⟨show q < d by omega, rfl, fun _ => show q ≤ j by omega, before, fun regular => ?_⟩
    refine stop.imp (fun eq m above within => ?_) regular.gap.mp
    have diagonal : q = j := by omega
    exact regular.tail_le diagonal.ge above.le within
  refine ⟨(q, cells.set j { cells[j] with bs1 := q, e1 := E j q }), ?_, ?_, show q ≤ j + 1 by omega, ?_, ?_⟩
  · simp only [forwardStart, reads i (by omega), climbed, read_ok at_j, write_ok inside, ok_bind, pure_eq_ok,
      Nat.add_sub_cancel]
  · exact (List.length_set ..).trans size
  · intro m cell before at_m
    rcases Nat.eq_or_lt_of_le (Nat.le_of_lt_succ before) with rfl | earlier
    · rw [List.getElem?_set_self inside] at at_m
      cases at_m
      exact lower
    · rw [List.getElem?_set_ne (by omega)] at at_m
      exact held.lower m cell earlier at_m
  · intro regular next m lt
    exact regular.later next lt (show q < d by omega) (before regular m lt)

/-- Moving `i` up to `s` is moving the column down to the diagonal. -/
theorem carryHigh_max (regular : Regular E eps d) {s : ℕ} (here : s < d) (carry : CarryHigh E d (d - s - 1) i cell) :
    CarryHigh E d (d - s - 1) (max i s) cell := by
  rcases Nat.le_total s i with above | below
  · rwa [Nat.max_eq_left above]
  · rw [Nat.max_eq_right below]
    intro m inside behind
    exact .inl ⟨here, regular.tail_le le_rfl (by omega) inside⟩

/-- The best column of a row, as far as the matrix is regular. -/
structure Best (E : ℕ → ℕ → R) (eps : R) (d k b : ℕ) : Prop where
  lt : b < d
  le : Regular E eps d → b ≤ k
  least : Regular E eps d → ∀ m < d, E k b ≤ E k m

theorem Settled.best (settled : Settled E eps d j cell) (met : cell.bs1 = cell.bs2) : Best E eps d j cell.bs1 := by
  refine ⟨settled.lower.lt, settled.lower.le, fun regular m inside => ?_⟩
  rcases Nat.lt_trichotomy m cell.bs1 with lt | rfl | gt
  · exact settled.lower.before regular m lt
  · exact le_rfl
  · rw [met] at gt ⊢
    exact settled.upper.behind regular m gt inside

/-- What holds before position `k` of the last loop. -/
structure Closing (E : ℕ → ℕ → R) (eps : R) (d k : ℕ) (st : List ℕ × List R × List (Cell R)) : Prop where
  size : st.2.2.length = d
  count : st.1.length = k
  errors : st.2.1 = st.1.mapIdx fun m b => E m b
  best : ∀ m b, st.1[m]? = some b → Best E eps d m b
  settled : ∀ m cell, k ≤ m → st.2.2[m]? = some cell → Settled E eps d m cell

/-- One position of the last loop. -/
theorem Closing.step (reads : ∀ j < d, ∀ m < d, err j m = .ok (E j m)) {k : ℕ} (here : k < d)
    {st : List ℕ × List R × List (Cell R)} (closing : Closing E eps d k st) :
    ∃ st', (do
        let cells ← rebuild err eps d k d st.2.2
        let cell ← read cells k
        return (st.1 ++ [cell.bs1], st.2.1 ++ [cell.e1], cells)) = .ok st' ∧ Closing E eps d (k + 1) st' := by
  obtain ⟨solutions, errors, current⟩ := st
  obtain ⟨rebuilt, ran, size', settled, met⟩ := rebuild_ok reads here closing.size closing.settled
    fun cell _ => Nat.le_add_left d cell.bs1
  have at_k := List.getElem?_eq_getElem (show k < rebuilt.length by omega)
  have settledHere := settled k _ le_rfl at_k
  have count : solutions.length = k := closing.count
  refine ⟨(solutions ++ [rebuilt[k].bs1], errors ++ [rebuilt[k].e1], rebuilt), ?_, size', ?_, ?_, ?_, ?_⟩
  · simp only [ran, ok_bind, read_ok at_k, pure_eq_ok]
  · exact List.length_append.trans (by rw [count]; rfl)
  · have before : errors = solutions.mapIdx fun m b => E m b := closing.errors
    simp only [before, List.mapIdx_append, List.mapIdx_singleton, count, settledHere.lower.error, Nat.zero_add]
  · intro m b at_m
    rcases getElem?_concat count at_m with before | ⟨rfl, rfl⟩
    · exact closing.best m b before
    · exact settledHere.best (met _ at_k)
  · exact fun m cell after at_m => settled m cell (by omega) at_m

/-- The first two loops of a layer: after them the candidates of all positions are settled. -/
theorem candidates_ok (eps : R) (reads : ∀ j < d, ∀ m < d, err j m = .ok (E j m)) (size : cells.length = d) :
    ∃ forward inverted, forSteps (forwardStart err eps) 0 d (0, cells) = .ok forward ∧
      forSteps (fun j st => invertedStep err eps d j (max st.1 j, st.2)) 0 d (0, forward.2) = .ok inverted ∧
      inverted.2.length = d ∧ ∀ m cell, inverted.2[m]? = some cell → Settled E eps d m cell := by
  obtain ⟨⟨i, started⟩, forward, begun⟩ := forSteps_ok (b := forwardStart err eps) (I := Starting E eps d) (j := 0)
    (k := d) (s := (0, cells)) ⟨size, le_rfl, fun _ _ lt => by omega, fun _ _ _ lt => by omega⟩
    fun j st _ lt held => forwardStart_ok (reads j (by omega)) (by omega) held
  have mirrored : Inverting E eps d started 0 (0, started) := by
    refine ⟨begun.size, fun _ _ => rfl, fun _ => rfl, fun m cell after at_m => ?_, fun _ _ _ _ m inside behind => ?_⟩
    · have lt : m < started.length := (List.getElem?_eq_some_iff.mp at_m).1
      have size : started.length = d := begun.size
      omega
    · omega
  obtain ⟨inverted, backward, held⟩ := invertedLoop_ok reads (fun s i => max i s) (show 0 + d ≤ d by omega)
    (fun m cell _ before at_m => begun.lower m cell (by omega) at_m)
    (fun regular s i cell lt carry => carryHigh_max regular lt carry) mirrored
  exact ⟨(i, started), inverted, forward, backward, held.size,
    fun m cell at_m => held.settled m cell (by omega) at_m⟩

/-- **A layer of `E_RLM2`** finds a column for every row, the best one if the matrix is regular. -/
theorem layerRlm2_ok (eps : R) (reads : ∀ j < d, ∀ m < d, err j m = .ok (E j m)) (size : cells.length = d) :
    ∃ solutions errors cells', layerRlm2 err eps d cells = .ok (solutions, errors, cells') ∧ cells'.length = d ∧
      solutions.length = d ∧ errors = (solutions.mapIdx fun m b => E m b) ∧
      ∀ m b, solutions[m]? = some b → Best E eps d m b := by
  obtain ⟨started, inverted, forward, backward, size', settled⟩ := candidates_ok eps reads size
  have opened : Closing E eps d 0 ([], [], inverted.2) :=
    ⟨size', rfl, rfl, by simp, fun m cell _ at_m => settled m cell at_m⟩
  obtain ⟨⟨solutions, errors, cells'⟩, closed, final⟩ := forSteps_ok (I := Closing E eps d) (j := 0) (k := d) opened
    fun k st _ lt closing => closing.step reads (by omega)
  refine ⟨solutions, errors, cells', ?_, final.size, ?_, final.errors, final.best⟩
  · simp only [layerRlm2, forward, ok_bind]
    rw [backward, ok_bind]
    exact closed
  · have count : solutions.length = 0 + d := final.count
    omega

end Cells

end Cmicot.Grid
