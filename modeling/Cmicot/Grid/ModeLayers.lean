import Cmicot.Grid.AnyPenalty

/-!
What each mode finds in a layer (`grid_creator/binarization.cpp`).

For any matrix of errors every mode but `E_RLM2` finds for each position a candidate that is not
behind it. `E_Base` and `E_Base2` find least ones, `E_DaC` does if the errors are sorted, and
`E_Safe` and `E_RLM` do if moreover `eps` makes no difference: the first loop gives a lower
candidate, the second an upper one, and a least one stands between them.

* `forwardLoop_low`, `backwardLoop_high`: the loops from both sides.
* `Prepared.rebuild2L`: one rebuild of `E_RLM`.
* `divide_ok`, `layerDaC_ok`: a box and a layer of `E_DaC`, and how often they call `Penalty`.
* `modeLayer_ok`: every mode.
-/

namespace Cmicot.Grid

open Loop RowMinima

/-! ### Candidates -/

section Found

variable {R : Type} [LinearOrder R] {E : ℕ → ℕ → R} {d j b : ℕ} {good : Prop} {solutions : List ℕ} {errors : List R}

/-- Candidates for the first positions, with their errors; least ones if all is `good`. -/
structure Found (E : ℕ → ℕ → R) (good : Prop) (d : ℕ) (solutions : List ℕ) (errors : List R) : Prop where
  size : solutions.length = d
  errors : errors = solutions.mapIdx fun m b => E m b
  le : ∀ m b : ℕ, solutions[m]? = some b → b ≤ m
  minimal : good → ∀ m b : ℕ, solutions[m]? = some b → Minimal E m b

theorem found_nil : Found E good 0 [] [] := ⟨rfl, rfl, by simp, by simp⟩

theorem Found.concat (found : Found E good j solutions errors) (le : b ≤ j) (minimal : good → Minimal E j b) :
    Found E good (j + 1) (solutions ++ [b]) (errors ++ [E j b]) := by
  have size := found.size
  refine ⟨by simp [size], ?_, fun m c at_m => ?_, fun holds m c at_m => ?_⟩
  · simp only [found.errors, List.mapIdx_append, List.mapIdx_singleton, size, Nat.zero_add]
  · rcases getElem?_concat size at_m with before | ⟨rfl, rfl⟩
    · exact found.le m c before
    · exact le
  · rcases getElem?_concat size at_m with before | ⟨rfl, rfl⟩
    · exact found.minimal holds m c before
    · exact minimal holds

end Found

/-! ### Scans -/

section Scan

variable {R : Type} [LinearOrder R] {err : ℕ → Except Fault R} {F : ℕ → R}

/-- The candidates of a scan. -/
def Tried (b i count m : ℕ) : Prop := m = b ∨ i ≤ m ∧ m < i + count

/-- A scan ends at one of its candidates, at a least one if it compares them rightly. -/
theorem scan_ok (better : R → R → Bool) (good : Prop) (b i count : ℕ)
    (reads : ∀ m, i ≤ m → m < i + count → err m = .ok (F m))
    (compares : good → ∀ m m', Tried b i count m → Tried b i count m' →
      (better (F m) (F m') = true → F m ≤ F m') ∧ (better (F m) (F m') = false → F m' ≤ F m)) :
    ∃ q, scan err better i count (b, F b) = .ok (q, F q) ∧ Tried b i count q ∧
      (good → ∀ m, Tried b i count m → F q ≤ F m) ∧
      ∀ m, i ≤ m → m < i + count → q < m → better (F m) (F q) = false := by
  obtain ⟨st, ran, q, rfl, place, least, last⟩ := forSteps_ok
    (b := fun i st => do
      let newError ← err i
      return if better newError st.2 then (i, newError) else st)
    (I := fun m st => ∃ q, st = (q, F q) ∧ (q = b ∨ i ≤ q ∧ q < m) ∧
      (good → ∀ m', m' = b ∨ i ≤ m' ∧ m' < m → F q ≤ F m') ∧
      ∀ m', i ≤ m' → m' < m → q < m' → better (F m') (F q) = false)
    (j := i) (k := count) (s := (b, F b))
    ⟨b, rfl, .inl rfl, fun _ m tried => by
      rcases tried with rfl | ⟨low, high⟩
      · exact le_rfl
      · omega, fun m low high => absurd high (not_lt.mpr low)⟩
    fun m st low high => by
      rintro ⟨q, rfl, place, least, last⟩
      refine ⟨_, by rw [reads m low high, ok_bind]; rfl, ?_⟩
      have here : Tried b i count m := .inr ⟨low, high⟩
      have there : Tried b i count q := place.imp_right fun h => ⟨h.1, by omega⟩
      cases decided : better (F m) (F q) with
      | true =>
        refine ⟨m, rfl, .inr ⟨low, Nat.lt_succ_self m⟩, fun holds m' tried => ?_, fun m' _ before behind => by omega⟩
        have le := (compares holds m q here there).1 decided
        rcases tried with rfl | ⟨from_i, before⟩
        · exact le.trans (least holds m' (.inl rfl))
        · rcases Nat.eq_or_lt_of_le (Nat.le_of_lt_succ before) with rfl | earlier
          · exact le_rfl
          · exact le.trans (least holds m' (.inr ⟨from_i, earlier⟩))
      | false =>
        refine ⟨q, rfl, place.imp_right fun h => ⟨h.1, by omega⟩, fun holds m' tried => ?_,
          fun m' from_i before behind => ?_⟩
        · rcases tried with rfl | ⟨from_i, before⟩
          · exact least holds m' (.inl rfl)
          · rcases Nat.eq_or_lt_of_le (Nat.le_of_lt_succ before) with rfl | earlier
            · exact (compares holds m' q here there).2 decided
            · exact least holds m' (.inr ⟨from_i, earlier⟩)
        · rcases Nat.eq_or_lt_of_le (Nat.le_of_lt_succ before) with rfl | earlier
          · exact decided
          · exact last m' from_i earlier behind
  exact ⟨q, ran, place, least, last⟩

/-- The comparison of `E_Base`, `E_Safe` and `E_DaC`. -/
theorem scan_le (b i count : ℕ) (reads : ∀ m, i ≤ m → m < i + count → err m = .ok (F m)) :
    ∃ q, scan err (fun newError bestError => !decide (bestError < newError)) i count (b, F b) = .ok (q, F q) ∧
      Tried b i count q ∧ (∀ m, Tried b i count m → F q ≤ F m) ∧
      ∀ m, i ≤ m → m < i + count → q < m → F q < F m := by
  obtain ⟨q, ran, place, least, last⟩ := scan_ok
    (fun newError bestError => !decide (bestError < newError)) True b i count reads fun _ m m' _ _ =>
      ⟨by simp, fun no => by simpa using le_of_lt (by simpa using no)⟩
  exact ⟨q, ran, place, least trivial, fun m low high behind => by simpa using last m low high behind⟩

end Scan

/-! ### E_Linear and E_Old_Linear -/

section Linear

variable {R : Type} [Add R] [LinearOrder R] {err : ℕ → ℕ → Except Fault R} {E : ℕ → ℕ → R} {d : ℕ}

theorem layerLinear_ok (eps : R) {last : ℕ → ℕ} (le : ∀ j, last j ≤ j + 1)
    (reads : ∀ j < d, ∀ m ≤ j, err j m = .ok (E j m)) :
    ∃ solutions errors, layerLinear err eps d last = .ok (solutions, errors) ∧ Found E False d solutions errors := by
  obtain ⟨⟨i, solutions, errors⟩, ran, -, found⟩ := forSteps_ok (b := linearStep err eps last)
    (I := fun j st => st.1 ≤ j ∧ Found E False j st.2.1 st.2.2) (j := 0) (k := d) (s := (0, [], []))
    ⟨le_rfl, found_nil⟩ fun j st _ lt held => by
      obtain ⟨i, solutions, errors⟩ := st
      obtain ⟨upto, found⟩ := held
      have upto : i ≤ j := upto
      have room := le j
      obtain ⟨q, climbed, low, high, -, -⟩ := climb_ok (F := E j) eps i (last j - (i + 1))
        fun m _ high => reads j (by omega) m (by omega)
      have here : q ≤ j := by omega
      refine ⟨(q, solutions ++ [q], errors ++ [E j q]), ?_, show q ≤ j + 1 by omega,
        found.concat here fun none => none.elim⟩
      simp only [linearStep, reads j (by omega) i upto, ok_bind, climbed, pure_eq_ok, Nat.add_sub_cancel]
  refine ⟨solutions, errors, by rw [layerLinear, ran]; rfl, ?_⟩
  rwa [Nat.zero_add] at found

end Linear

/-! ### From both sides -/

section Sides

variable {R : Type} [Add R] [LinearOrder R] {err : ℕ → ℕ → Except Fault R} {E : ℕ → ℕ → R} {eps : R} {d i j : ℕ}
  {cell : Cell R} {cells : List (Cell R)}

/-- Sorted errors that `eps` does not confuse. -/
structure Exact (E : ℕ → ℕ → R) (eps : R) (d : ℕ) : Prop where
  sorted : Sorted E d
  gap : ∀ {j i i'}, j < d → i ≤ j → i' ≤ j → (E j i + eps < E j i' ↔ E j i < E j i')

/-- The lower candidate: nothing before it is better, and nothing at all or not the next one. -/
structure Low (E : ℕ → ℕ → R) (eps : R) (d j : ℕ) (cell : Cell R) : Prop where
  le : cell.bs1 ≤ j
  error : cell.e1 = E j cell.bs1
  before : Exact E eps d → ∀ m < cell.bs1, E j cell.bs1 ≤ E j m
  next : Exact E eps d → (∀ m, cell.bs1 < m → m ≤ j → E j cell.bs1 ≤ E j m) ∨ E j cell.bs1 < E j (cell.bs1 + 1)

/-- The upper candidate: nothing behind it is better, and nothing at all or not the one before. -/
structure High (E : ℕ → ℕ → R) (eps : R) (d j : ℕ) (cell : Cell R) : Prop where
  le : cell.bs2 ≤ j
  error : cell.e2 = E j cell.bs2
  behind : Exact E eps d → ∀ m, cell.bs2 < m → m ≤ j → E j cell.bs2 ≤ E j m
  next : Exact E eps d → (∀ m < cell.bs2, E j cell.bs2 ≤ E j m) ∨ E j cell.bs2 < E j (cell.bs2 - 1)

/-- Errors that do not grow, as far as the rows have them. -/
theorem Exact.falls (exact : Exact E eps d) (here : j < d) {F : ℕ → R} {f q : ℕ}
    (columns : ∀ m, f ≤ m → m ≤ q → ∃ c ≤ j, F m = E j c)
    (chain : ∀ m, f ≤ m → m < q → ¬ F m + eps < F (m + 1)) {m : ℕ} (from_f : f ≤ m) (to_q : m ≤ q) : F q ≤ F m := by
  obtain ⟨t, rfl⟩ := Nat.exists_eq_add_of_le to_q
  induction t with
  | zero => exact le_rfl
  | succ t ih =>
    obtain ⟨c, inside, eq⟩ := columns (m + t) (by omega) (by omega)
    obtain ⟨c', inside', eq'⟩ := columns (m + t + 1) (by omega) (by omega)
    have step : F (m + t + 1) ≤ F (m + t) := by
      have := chain (m + t) (by omega) (by omega)
      rw [eq, eq', exact.gap here inside inside'] at this
      rw [eq, eq']
      exact not_lt.mp this
    exact step.trans (ih (fun m low high => columns m low (by omega)) (fun m low high => chain m low (by omega))
      (by omega))

/-- One position of a forward loop. -/
theorem forwardStart_low (reads : ∀ m ≤ j, err j m = .ok (E j m)) (here : j < d) (at_j : cells[j]? = some cell)
    (le : i ≤ j) (carry : Exact E eps d → ∀ m < i, E j i ≤ E j m) :
    ∃ q, forwardStart err eps j (i, cells) = .ok (q, cells.set j { cell with bs1 := q, e1 := E j q }) ∧
      Low E eps d j { cell with bs1 := q, e1 := E j q } := by
  have inside := (List.getElem?_eq_some_iff.mp at_j).1
  obtain ⟨q, climbed, low, high, chain, stop⟩ := climb_ok eps i (j - i) fun m _ upto => reads m (by omega)
  have upto : q ≤ j := by omega
  have columns : ∀ m, i ≤ m → m ≤ q → ∃ c ≤ j, E j m = E j c := fun m _ to_q => ⟨m, by omega, rfl⟩
  refine ⟨q, ?_, upto, rfl, fun exact m lt => ?_, fun exact => ?_⟩
  · simp only [forwardStart, reads i le, climbed, read_ok at_j, write_ok inside, ok_bind, pure_eq_ok,
      Nat.add_sub_cancel]
  · rcases Nat.lt_or_ge m i with early | late
    · exact (exact.falls here columns chain le_rfl low).trans (carry exact m early)
    · exact exact.falls here columns chain late lt.le
  · rcases Nat.eq_or_lt_of_le upto with rfl | lt
    · exact .inl fun m above within => absurd above (not_lt.mpr within)
    · exact .inr ((exact.gap here upto lt).mp (stop.resolve_left (by omega)))

/-- What a loop from the left has done before position `j`. -/
structure Forwarded (E : ℕ → ℕ → R) (eps : R) (d start j : ℕ) (before : List (Cell R)) (st : ℕ × List (Cell R)) :
    Prop where
  size : st.2.length = d
  le : st.1 ≤ j
  low : ∀ m cell, start ≤ m → m < j → st.2[m]? = some cell → Low E eps d m cell
  upper : ∀ m : ℕ, (st.2[m]?).map (fun cell : Cell R => (cell.bs2, cell.e2)) =
    (before[m]?).map fun cell => (cell.bs2, cell.e2)
  frame : ∀ m : ℕ, m < start ∨ j ≤ m → st.2[m]? = before[m]?
  carry : Exact E eps d → j < d → ∀ m < st.1, E j st.1 ≤ E j m

/-- **A loop from the left** gives its positions lower candidates. -/
theorem forwardLoop_low (eps : R) (j count i : ℕ) (reads : ∀ j < d, ∀ m ≤ j, err j m = .ok (E j m))
    (size : cells.length = d) (room : j + count ≤ d) (le : i ≤ j)
    (carry : Exact E eps d → j < d → ∀ m < i, E j i ≤ E j m) :
    ∃ st, forSteps (forwardStart err eps) j count (i, cells) = .ok st ∧
      Forwarded E eps d j (j + count) cells st := by
  refine forSteps_ok (b := forwardStart err eps) (I := fun m st => Forwarded E eps d j m cells st)
    ⟨size, le, fun _ _ low high => by omega, fun _ => rfl, fun _ _ => rfl, carry⟩
    fun m st from_j lt held => ?_
  obtain ⟨i, current⟩ := st
  have size' : current.length = d := held.size
  have inside : m < current.length := by omega
  have at_m := List.getElem?_eq_getElem inside
  obtain ⟨q, ran, low⟩ := forwardStart_low (reads m (by omega)) (by omega) at_m held.le
    fun exact => held.carry exact (by omega)
  refine ⟨_, ran, (List.length_set ..).trans size', low.le.trans (Nat.le_succ m),
    fun m' cell from_j' before at_m' => ?_,
    fun m' => ?_, fun m' outside => ?_, fun exact next m' lt' => ?_⟩
  · rcases Nat.eq_or_lt_of_le (Nat.le_of_lt_succ before) with rfl | earlier
    · rw [List.getElem?_set_self inside] at at_m'
      cases at_m'
      exact low
    · rw [List.getElem?_set_ne (by omega)] at at_m'
      exact held.low m' cell from_j' earlier at_m'
  · rw [← held.upper m']
    by_cases same : m = m'
    · subst same
      rw [List.getElem?_set_self inside, at_m]
      rfl
    · rw [List.getElem?_set_ne same]
  · rw [← held.frame m' (by omega)]
    exact List.getElem?_set_ne (by omega)
  · exact exact.sorted.later next lt' low.le (low.before exact m' lt')

/-- One position of a loop from the right; `r` is its row. -/
theorem backwardStep_high {s r : ℕ} (row : r = d - s - 1) (here : s < d) (reads : ∀ m ≤ r, err r m = .ok (E r m))
    (at_r : cells[r]? = some cell) {left : ℕ} (lt : left < d)
    (carry : Exact E eps d → ∀ m, d - left - 1 < m → m ≤ r → E r (d - left - 1) ≤ E r m) :
    ∃ q, backwardStep err eps d s (left, cells) =
        .ok (d - q - 1, cells.set r { cell with bs2 := q, e2 := E r q }) ∧ q < d ∧
      High E eps d r { cell with bs2 := q, e2 := E r q } := by
  have inside := (List.getElem?_eq_some_iff.mp at_r).1
  set p := max left s with start
  have bounds : left ≤ p ∧ s ≤ p ∧ p < d := by omega
  have mirrored (m : ℕ) (low : p ≤ m) (high : m < d) :
      (do err r (← mirror d m)) = .ok (E r (d - m - 1)) := by
    rw [mirror_ok high, ok_bind, reads _ (by omega)]
  obtain ⟨t, climbed, low, high, chain, stop⟩ := climb_ok
    (F := fun m => E r (d - m - 1)) eps p (d - (p + 1)) fun m above upto => mirrored m (by omega) (by omega)
  have columns : ∀ m, p ≤ m → m ≤ t → ∃ c ≤ r, E r (d - m - 1) = E r c :=
    fun m above _ => ⟨d - m - 1, by omega, rfl⟩
  have rowInside : r < d := by omega
  refine ⟨d - t - 1, ?_, by omega, show d - t - 1 ≤ r by omega, rfl, fun exact m behind upto => ?_, fun exact => ?_⟩
  · have back : d - (d - t - 1) - 1 = t := by omega
    simp only [backwardStep, ← start, mirror_ok here, ← row, mirrored p le_rfl bounds.2.2, climbed, ok_bind,
      read_ok at_r, Nat.add_sub_cancel, mirror_ok (show t < d by omega), write_ok inside, pure_eq_ok, back]
  · have behind : d - t - 1 < m := behind
    rcases Nat.lt_or_ge (d - p - 1) m with late | early
    · have first := exact.falls rowInside columns chain le_rfl low
      refine first.trans ?_
      have same : p = left := by omega
      rw [same] at late ⊢
      exact carry exact m late upto
    · have := exact.falls rowInside columns chain (m := d - m - 1) (by omega) (by omega)
      rwa [show d - (d - m - 1) - 1 = m by omega] at this
  · rcases stop with last | grows
    · exact .inl fun m before => by
        have : m < d - t - 1 := before
        omega
    · rcases Nat.eq_or_lt_of_le (show t ≤ d - 1 by omega) with last | more
      · exact .inl fun m before => by
          have : m < d - t - 1 := before
          omega
      · have := (exact.gap rowInside (show d - t - 1 ≤ r by omega) (show d - (t + 1) - 1 ≤ r by omega)).mp grows
        exact .inr (by rwa [show d - t - 1 - 1 = d - (t + 1) - 1 by omega])

/-- What a loop from the right has done before position `s`. -/
structure Backwarded (E : ℕ → ℕ → R) (eps : R) (d start s : ℕ) (before : List (Cell R)) (st : ℕ × List (Cell R)) :
    Prop where
  size : st.2.length = d
  lt : st.1 < d
  high : ∀ m cell, m + start < d → d ≤ m + s → st.2[m]? = some cell → High E eps d m cell
  lower : ∀ m : ℕ, (st.2[m]?).map (fun cell : Cell R => (cell.bs1, cell.e1)) =
    (before[m]?).map fun cell => (cell.bs1, cell.e1)
  frame : ∀ m : ℕ, d ≤ m + start ∨ m + s < d → st.2[m]? = before[m]?
  carry : Exact E eps d → ∀ m, d - st.1 - 1 < m → m ≤ d - s - 1 → E (d - s - 1) (d - st.1 - 1) ≤ E (d - s - 1) m

/-- **A loop from the right** gives its positions upper candidates. -/
theorem backwardLoop_high (eps : R) (s count left : ℕ) (reads : ∀ j < d, ∀ m ≤ j, err j m = .ok (E j m))
    (size : cells.length = d) (room : s + count ≤ d) (lt : left < d)
    (carry : Exact E eps d → ∀ m, d - left - 1 < m → m ≤ d - s - 1 → E (d - s - 1) (d - left - 1) ≤ E (d - s - 1) m) :
    ∃ st, forSteps (backwardStep err eps d) s count (left, cells) = .ok st ∧
      Backwarded E eps d s (s + count) cells st := by
  refine forSteps_ok (b := backwardStep err eps d) (I := fun m st => Backwarded E eps d s m cells st)
    ⟨size, lt, fun _ _ low high => by omega, fun _ => rfl, fun _ _ => rfl, carry⟩
    fun t st from_s before held => ?_
  obtain ⟨left, current⟩ := st
  have size' : current.length = d := held.size
  have inside : d - t - 1 < current.length := by omega
  have at_r := List.getElem?_eq_getElem inside
  obtain ⟨q, ran, small, high⟩ :=
    backwardStep_high rfl (show t < d by omega) (reads _ (by omega)) at_r held.lt held.carry
  have back : d - (d - q - 1) - 1 = q := by omega
  refine ⟨_, ran, (List.length_set ..).trans size', show d - q - 1 < d by omega,
    fun m cell above upto at_m => ?_, fun m => ?_, fun m outside => ?_, fun exact m behind upto => ?_⟩
  · rcases Nat.eq_or_lt_of_le (show d - t - 1 ≤ m by omega) with rfl | later
    · rw [List.getElem?_set_self inside] at at_m
      cases at_m
      exact high
    · rw [List.getElem?_set_ne (by omega)] at at_m
      exact held.high m cell above (by omega) at_m
  · rw [← held.lower m]
    by_cases same : d - t - 1 = m
    · subst same
      rw [List.getElem?_set_self inside, at_r]
      rfl
    · rw [List.getElem?_set_ne same]
  · rw [← held.frame m (by omega)]
    exact List.getElem?_set_ne (by omega)
  · simp only [back] at behind ⊢
    have bound : q ≤ d - t - 1 := high.le
    have better : E (d - t - 1) q ≤ E (d - t - 1) m := high.behind exact m behind (show m ≤ d - t - 1 by omega)
    have rows : d - t - 1 = d - (t + 1) - 1 + 1 := by omega
    rw [rows] at better
    exact exact.sorted.earlier (by omega) behind upto better

/-- Both candidates of a position. -/
structure Between (E : ℕ → ℕ → R) (eps : R) (d j : ℕ) (cell : Cell R) : Prop where
  low : Low E eps d j cell
  high : High E eps d j cell

theorem High.congr {cell' : Cell R} (high : High E eps d j cell) (same : (cell'.bs2, cell'.e2) = (cell.bs2, cell.e2)) :
    High E eps d j cell' := by
  obtain ⟨index, error⟩ := Prod.mk.inj same
  exact ⟨index ▸ high.le, index ▸ error ▸ high.error, index ▸ high.behind, index ▸ high.next⟩

theorem Low.congr {cell' : Cell R} (low : Low E eps d j cell) (same : (cell'.bs1, cell'.e1) = (cell.bs1, cell.e1)) :
    Low E eps d j cell' := by
  obtain ⟨index, error⟩ := Prod.mk.inj same
  exact ⟨index ▸ low.le, index ▸ error ▸ low.error, index ▸ low.before, index ▸ low.next⟩

/-- Candidates that a loop leaves as they are. -/
theorem exists_of_map_eq {α β : Type} {f : α → β} {xs ys : List α} {m : ℕ} {x : α}
    (same : (xs[m]?).map f = (ys[m]?).map f) (at_m : xs[m]? = some x) : ∃ y, ys[m]? = some y ∧ f x = f y := by
  rw [at_m, Option.map_some] at same
  obtain ⟨y, at_m', eq⟩ := Option.map_eq_some_iff.mp same.symm
  exact ⟨y, at_m', eq.symm⟩

/-- The first two loops. -/
theorem twoLoops_ok (eps : R) (reads : ∀ j < d, ∀ m ≤ j, err j m = .ok (E j m)) (pos : 0 < d)
    (size : cells.length = d) :
    ∃ cells', twoLoops err eps d cells = .ok cells' ∧ cells'.length = d ∧
      ∀ m cell, cells'[m]? = some cell → Between E eps d m cell := by
  obtain ⟨⟨i, first⟩, ran, forward⟩ := forwardLoop_low eps 0 d 0 reads size (by omega)
    le_rfl fun _ _ m lt => absurd lt (Nat.not_lt_zero m)
  obtain ⟨⟨left, second⟩, ran', backward⟩ := backwardLoop_high eps 0 d 0 reads
    forward.size (by omega) pos fun _ m behind upto => by omega
  refine ⟨second, by simp only [twoLoops, ran, ok_bind, ran', pure_eq_ok], backward.size, fun m cell at_m => ?_⟩
  have inside : m < d := by
    have size' : second.length = d := backward.size
    exact size' ▸ (List.getElem?_eq_some_iff.mp at_m).1
  obtain ⟨cell', at_m', same⟩ := exists_of_map_eq (backward.lower m) at_m
  exact ⟨(forward.low m cell' (Nat.zero_le m) (by omega) at_m').congr same,
    backward.high m cell (by omega) (by omega) at_m⟩

omit [Add R] in
/-- The last loop of `E_Linear_2L` and `E_Safe`. -/
theorem setBest_ok (good : Prop) (choose : ℕ → Cell R → Except Fault (ℕ × R)) (size : cells.length = d)
    (chooses : ∀ j < d, ∀ cell, cells[j]? = some cell →
      ∃ b, choose j cell = .ok (b, E j b) ∧ b ≤ j ∧ (good → Minimal E j b)) :
    ∃ solutions errors, setBest d choose cells = .ok (solutions, errors) ∧ Found E good d solutions errors := by
  have run : ∃ st, setBest d choose cells = .ok st ∧ Found E good (0 + d) st.1 st.2 := by
    refine forSteps_ok (I := fun j (st : List ℕ × List R) => Found E good j st.1 st.2) found_nil
      fun j st _ lt found => ?_
    have at_j := List.getElem?_eq_getElem (show j < cells.length by omega)
    obtain ⟨b, chosen, le, minimal⟩ := chooses j (by omega) _ at_j
    exact ⟨(st.1 ++ [b], st.2 ++ [E j b]), by simp only [read_ok at_j, ok_bind, chosen, pure_eq_ok],
      found.concat le minimal⟩
  obtain ⟨⟨solutions, errors⟩, ran, found⟩ := run
  refine ⟨solutions, errors, ran, ?_⟩
  rwa [Nat.zero_add] at found

/-- A candidate of `E_Linear_2L`. -/
theorem Between.setBest2L (between : Between E eps d j cell) : ∃ b, setBest2L eps cell = (b, E j b) ∧ b ≤ j := by
  unfold Grid.setBest2L
  split
  · exact ⟨cell.bs1, by rw [between.low.error], between.low.le⟩
  · exact ⟨cell.bs2, by rw [between.high.error], between.high.le⟩

/-- **The best candidate of `E_Safe`** is a least one. -/
theorem Between.setBestSafe (between : Between E eps d j cell) (reads : ∀ m ≤ j, err j m = .ok (E j m)) :
    ∃ b, setBestSafe err j cell = .ok (b, E j b) ∧ b ≤ j ∧ (Exact E eps d → Minimal E j b) := by
  obtain ⟨low, high⟩ := between
  have upto := low.le
  have upto' := high.le
  obtain ⟨q, ran, place, least, -⟩ := scan_le cell.bs1 (cell.bs1 + 1)
    (cell.bs2 - cell.bs1) (F := E j) fun m above within => reads m (by omega)
  have le : q ≤ j := by
    rcases place with rfl | ⟨-, before⟩
    · exact upto
    · omega
  refine ⟨q, by rw [Grid.setBestSafe, low.error, ran], le, fun exact => ⟨le, fun m within => ?_⟩⟩
  have below : E j q ≤ E j cell.bs1 := least _ (.inl rfl)
  have first : ∀ m ≤ cell.bs1, E j q ≤ E j m := fun m before => by
    rcases Nat.eq_or_lt_of_le before with rfl | lt
    · exact below
    · exact below.trans (low.before exact m lt)
  have upper : ∀ m ≤ cell.bs2, E j q ≤ E j m := fun m before => by
    rcases Nat.lt_or_ge cell.bs1 m with behind | upto
    · exact least m (.inr ⟨behind, by omega⟩)
    · exact first m upto
  rcases Nat.lt_or_ge cell.bs2 m with behind | upto
  · exact (upper cell.bs2 le_rfl).trans (high.behind exact m behind within)
  · exact upper m upto

/-- Where the candidates meet is a least error. -/
theorem Between.minimal (between : Between E eps d j cell) (met : cell.bs2 ≤ cell.bs1 + 1) (exact : Exact E eps d) :
    Minimal E j cell.bs1 := by
  obtain ⟨low, high⟩ := between
  refine ⟨low.le, fun m within => ?_⟩
  rcases Nat.lt_trichotomy m cell.bs1 with before | rfl | behind
  · exact low.before exact m before
  · exact le_rfl
  · rcases Nat.eq_or_lt_of_le met with touch | apart
    · rcases low.next exact with all | smaller
      · exact all m behind within
      · rw [← touch] at smaller
        refine smaller.le.trans ?_
        rcases Nat.eq_or_lt_of_le (show cell.bs2 ≤ m by omega) with rfl | lt
        · exact le_rfl
        · exact high.behind exact m lt within
    · have first : E j cell.bs1 ≤ E j cell.bs2 := by
        rcases Nat.eq_or_lt_of_le (Nat.le_of_lt_succ apart) with same | lt
        · rw [same]
        · exact low.before exact cell.bs2 lt
      exact first.trans (high.behind exact m (by omega) within)

/-- A least error as both candidates. -/
theorem between_of_minimal {b : ℕ} (le : b ≤ j) (minimal : Exact E eps d → Minimal E j b) :
    Between E eps d j ⟨b, b, E j b, E j b⟩ :=
  ⟨⟨le, rfl, fun exact m lt => (minimal exact).least m (lt.le.trans le),
      fun exact => .inl fun m _ within => (minimal exact).least m within⟩,
    ⟨le, rfl, fun exact m _ within => (minimal exact).least m within,
      fun exact => .inl fun m lt => (minimal exact).least m (lt.le.trans le)⟩⟩

end Sides

/-! ### E_RLM -/

section Rlm

variable {R : Type} [AddCommGroup R] [LinearOrder R] [IsOrderedAddMonoid R] {err : ℕ → ℕ → Except Fault R}
  {E : ℕ → ℕ → R} {eps : R} {d j j1 j2 : ℕ} {cell : Cell R} {cells : List (Cell R)}

/-- `newError < bestError - Eps` for errors that `eps` does not confuse. -/
theorem Exact.smaller (exact : Exact E eps d) (here : j < d) {m m' : ℕ} (le : m ≤ j) (le' : m' ≤ j) :
    (smaller eps (E j m) (E j m') = true → E j m ≤ E j m') ∧
      (smaller eps (E j m) (E j m') = false → E j m' ≤ E j m) := by
  have gap := exact.gap here le le'
  rw [← lt_sub_iff_add_lt] at gap
  simp only [Grid.smaller, gap, decide_eq_true_eq, decide_eq_false_iff_not, not_lt]
  exact ⟨le_of_lt, id⟩

/-- **Step 2**: the ideal between two candidates. -/
theorem Between.ideal1 (between : Between E eps d j cell) (here : j < d) (reads : ∀ m ≤ j, err j m = .ok (E j m)) :
    ∃ b, scan (err j) (Grid.smaller eps) (cell.bs1 + 2) (cell.bs2 + 1 - (cell.bs1 + 2)) (cell.bs1, cell.e1) =
        .ok (b, E j b) ∧ b ≤ j ∧ (Exact E eps d → Minimal E j b) := by
  obtain ⟨low, high⟩ := between
  have upto := low.le
  have upto' := high.le
  have inside (m : ℕ) (tried : Tried cell.bs1 (cell.bs1 + 2) (cell.bs2 + 1 - (cell.bs1 + 2)) m) : m ≤ j := by
    rcases tried with rfl | ⟨above, within⟩
    · exact upto
    · omega
  obtain ⟨b, ran, place, least, -⟩ := scan_ok (F := E j) (Grid.smaller eps) (Exact E eps d) cell.bs1
    (cell.bs1 + 2) (cell.bs2 + 1 - (cell.bs1 + 2))
    (fun m above within => reads m (by omega))
    fun exact m m' tried tried' => exact.smaller here (inside m tried) (inside m' tried')
  refine ⟨b, by rw [low.error, ran], inside b place, fun exact => ⟨inside b place, fun m within => ?_⟩⟩
  have below : E j b ≤ E j cell.bs1 := least exact _ (.inl rfl)
  have upper : ∀ m ≤ cell.bs2, E j b ≤ E j m := fun m before => by
    rcases Nat.lt_or_ge m cell.bs1 with early | late
    · exact below.trans (low.before exact m early)
    · rcases Nat.lt_or_ge m (cell.bs1 + 2) with near | far
      · rcases Nat.eq_or_lt_of_le late with rfl | lt
        · exact below
        · -- the next candidate has been checked by the first loop
          have next : m = cell.bs1 + 1 := by omega
          rcases low.next exact with all | smaller
          · exact below.trans (all m lt (before.trans upto'))
          · exact below.trans (next ▸ smaller.le)
      · exact least exact m (.inr ⟨far, by omega⟩)
  rcases Nat.lt_or_ge cell.bs2 m with behind | before
  · exact (upper cell.bs2 le_rfl).trans (high.behind exact m behind within)
  · exact upper m before

/-- **Step 4**: the ideal, looked for from the lower candidate. -/
theorem Between.ideal2 (between : Between E eps d j cell) (here : j < d) (reads : ∀ m ≤ j, err j m = .ok (E j m)) :
    ∃ b, scan (err j) (Grid.smaller eps) cell.bs1 (cell.bs2 - 1 - cell.bs1) (cell.bs2, cell.e2) = .ok (b, E j b) ∧
      b ≤ j ∧ (Exact E eps d → Minimal E j b) := by
  obtain ⟨low, high⟩ := between
  have upto' := high.le
  have inside (m : ℕ) (tried : Tried cell.bs2 cell.bs1 (cell.bs2 - 1 - cell.bs1) m) : m ≤ j := by
    rcases tried with rfl | ⟨above, within⟩
    · exact upto'
    · omega
  obtain ⟨b, ran, place, least, -⟩ := scan_ok (F := E j) (Grid.smaller eps) (Exact E eps d) cell.bs2
    cell.bs1 (cell.bs2 - 1 - cell.bs1)
    (fun m above within => reads m (by omega))
    fun exact m m' tried tried' => exact.smaller here (inside m tried) (inside m' tried')
  refine ⟨b, by rw [high.error, ran], inside b place, fun exact => ⟨inside b place, fun m within => ?_⟩⟩
  have below : E j b ≤ E j cell.bs2 := least exact _ (.inl rfl)
  have upper : ∀ m, cell.bs1 ≤ m → m ≤ j → E j b ≤ E j m := fun m above within => by
    rcases Nat.lt_trichotomy m cell.bs2 with lt | rfl | gt
    · rcases Nat.eq_or_lt_of_le (show m ≤ cell.bs2 - 1 by omega) with next | far
      · -- the candidate before has been checked by the second loop
        rcases high.next exact with all | smaller
        · exact below.trans (all m lt)
        · exact below.trans (next ▸ smaller.le)
      · exact least exact m (.inr ⟨above, by omega⟩)
    · exact below
    · exact below.trans (high.behind exact m gt within)
  rcases Nat.lt_or_ge m cell.bs1 with early | late
  · exact (upper cell.bs1 le_rfl low.le).trans (low.before exact m early)
  · exact upper m late within

/-- Cells that are right from a position on. -/
structure Prepared (E : ℕ → ℕ → R) (eps : R) (d start : ℕ) (cells : List (Cell R)) : Prop where
  size : cells.length = d
  between : ∀ m cell, start ≤ m → cells[m]? = some cell → Between E eps d m cell

omit [IsOrderedAddMonoid R] in
theorem Prepared.settle (prepared : Prepared E eps d j1 cells) {b : ℕ} (here : j < d) (le : b ≤ j)
    (minimal : Exact E eps d → Minimal E j b) :
    Grid.settle cells j (b, E j b) = .ok (cells.set j ⟨b, b, E j b, E j b⟩) ∧
      Prepared E eps d j1 (cells.set j ⟨b, b, E j b, E j b⟩) := by
  have size := prepared.size
  have inside : j < cells.length := by omega
  refine ⟨write_ok inside, (List.length_set ..).trans size, fun m cell from_j1 at_m => ?_⟩
  by_cases same : j = m
  · subst same
    rw [List.getElem?_set_self inside] at at_m
    cases at_m
    exact between_of_minimal le minimal
  · rw [List.getElem?_set_ne same] at at_m
    exact prepared.between m cell from_j1 at_m

omit [IsOrderedAddMonoid R] in
/-- **Step 3**: the first loop is run again, if it is. -/
theorem Prepared.rebuildFirst (prepared : Prepared E eps d j1 cells) (reads : ∀ j < d, ∀ m ≤ j, err j m = .ok (E j m))
    (le : j1 ≤ j2) (inside : j2 < d) {b : ℕ} (place : b ≤ j1) (minimal : Exact E eps d → Minimal E j1 b)
    (required : Bool) :
    ∃ cells', rebuildFirst err eps required j1 j2 b cells = .ok cells' ∧ Prepared E eps d j1 cells' ∧
      cells'[j1]? = cells[j1]? ∧
      ∀ m : ℕ, (cells'[m]?).map (fun cell : Cell R => (cell.bs2, cell.e2)) =
        (cells[m]?).map fun cell => (cell.bs2, cell.e2) := by
  cases required with
  | false => exact ⟨cells, rfl, prepared, rfl, fun _ => rfl⟩
  | true =>
    obtain ⟨⟨i, cells'⟩, ran, forward⟩ := forwardLoop_low eps (j1 + 1) (j2 - j1) b reads
      prepared.size (by omega) (by omega) fun exact next m lt =>
        exact.sorted.later next lt place ((minimal exact).least m (by omega))
    refine ⟨cells', by simp only [Grid.rebuildFirst, if_true, ran]; rfl, ⟨forward.size, fun m cell from_j1 at_m => ?_⟩,
      forward.frame j1 (.inl (Nat.lt_succ_self j1)), forward.upper⟩
    by_cases rebuilt : j1 < m ∧ m ≤ j2
    · obtain ⟨old, at_m', same⟩ := exists_of_map_eq (forward.upper m) at_m
      exact ⟨forward.low m cell (by omega) (by omega) at_m, (prepared.between m old from_j1 at_m').high.congr same⟩
    · rw [show cells'[m]? = cells[m]? from forward.frame m (by omega)] at at_m
      exact prepared.between m cell from_j1 at_m

omit [IsOrderedAddMonoid R] in
/-- **Step 5**: the second loop is run again, if it is. -/
theorem Prepared.rebuildSecond (prepared : Prepared E eps d j1 cells) (reads : ∀ j < d, ∀ m ≤ j, err j m = .ok (E j m))
    (lt : j1 + 1 < j2) (inside : j2 < d) {b : ℕ} (place : b ≤ j2) (minimal : Exact E eps d → Minimal E j2 b)
    (required : Bool) :
    ∃ cells', rebuildSecond err eps d required j1 j2 b cells = .ok cells' ∧ Prepared E eps d j1 cells' ∧
      cells'[j1]? = cells[j1]? := by
  cases required with
  | false => exact ⟨cells, rfl, prepared, rfl⟩
  | true =>
    have row : d - (d - j2) - 1 = j2 - 1 := by omega
    have column : d - (d - b - 1) - 1 = b := by omega
    obtain ⟨⟨left, cells'⟩, ran, backward⟩ := backwardLoop_high eps (d - j2) (j2 - j1 - 1) (d - b - 1)
      reads prepared.size (by omega) (by omega) fun exact m behind upto => by
        rw [row] at upto ⊢
        rw [column] at behind ⊢
        have rows : j2 = j2 - 1 + 1 := by omega
        have better := (minimal exact).least m (by omega)
        rw [rows] at better
        exact exact.sorted.earlier (by omega) behind upto better
    refine ⟨cells', ?_, ⟨backward.size, fun m cell from_j1 at_m => ?_⟩, backward.frame j1 (by omega)⟩
    · simp only [Grid.rebuildSecond, if_true, mirror_ok (show b < d by omega), ok_bind, ran]
      rfl
    · by_cases rebuilt : j1 < m ∧ m < j2
      · obtain ⟨old, at_m', same⟩ := exists_of_map_eq (backward.lower m) at_m
        exact ⟨(prepared.between m old from_j1 at_m').low.congr same,
          backward.high m cell (by omega) (by omega) at_m⟩
      · rw [show cells'[m]? = cells[m]? from backward.frame m (by omega)] at at_m
        exact prepared.between m cell from_j1 at_m

/-- **A rebuild of `E_RLM`** settles its first position and keeps the others right. -/
theorem Prepared.rebuild2L (prepared : Prepared E eps d j1 cells) (reads : ∀ j < d, ∀ m ≤ j, err j m = .ok (E j m))
    (le : j1 ≤ j2) (inside : j2 < d)
    (apart : ∀ m cell, j1 ≤ m → m ≤ j2 → cells[m]? = some cell → cell.bs1 + 1 < cell.bs2)
    (at_j1 : cells[j1]? = some cell) :
    ∃ cells', rebuild2L err eps d j1 j2 cell cells = .ok cells' ∧ Prepared E eps d j1 cells' ∧
      ∀ cell', cells'[j1]? = some cell' → cell'.bs2 ≤ cell'.bs1 + 1 := by
  have size := prepared.size
  obtain ⟨b, found, place, minimal⟩ := (prepared.between j1 cell le_rfl at_j1).ideal1 (by omega) (reads j1 (by omega))
  obtain ⟨written, prepared₂⟩ := prepared.settle (show j1 < d by omega) place minimal
  have settled : ∀ {cells' : List (Cell R)} {cell'}, cells'[j1]? = (cells.set j1 ⟨b, b, E j1 b, E j1 b⟩)[j1]? →
      cells'[j1]? = some cell' → cell'.bs2 ≤ cell'.bs1 + 1 := fun same at_j1' => by
    rw [same, List.getElem?_set_self (by omega)] at at_j1'
    cases at_j1'
    exact Nat.le_succ b
  by_cases more : j1 + 1 < j2
  · obtain ⟨cells₃, ran₃, prepared₃, same₃, upper⟩ := prepared₂.rebuildFirst reads le inside place minimal
      (cell.bs1 ≠ b)
    have size₃ := prepared₃.size
    have at_j2 := List.getElem?_eq_getElem (show j2 < cells₃.length by omega)
    have pos : cells₃[j2].bs2 ≠ 0 := by
      obtain ⟨old, at_old, same⟩ := exists_of_map_eq (upper j2) at_j2
      rw [List.getElem?_set_ne (by omega)] at at_old
      have := apart j2 old le le_rfl at_old
      have := (Prod.mk.inj same).1
      omega
    obtain ⟨b', found', place', minimal'⟩ := (prepared₃.between j2 _ le at_j2).ideal2 inside (reads j2 inside)
    obtain ⟨written', prepared₄⟩ := prepared₃.settle inside place' minimal'
    obtain ⟨cells₅, ran₅, prepared₅, same₅⟩ := prepared₄.rebuildSecond reads more inside place' minimal'
      (cells₃[j2].bs2 ≠ b')
    refine ⟨cells₅, ?_, prepared₅, fun cell' => settled ?_⟩
    · simp only [Grid.rebuild2L, found, ok_bind, written, if_neg (not_not.mpr more)]
      rw [ran₃, ok_bind]
      simp only [read_ok at_j2, ok_bind, if_neg pos, found', written']
      exact ran₅
    · rw [same₅, List.getElem?_set_ne (by omega), same₃]
  · refine ⟨_, ?_, prepared₂, fun cell' => settled rfl⟩
    simp only [Grid.rebuild2L, found, ok_bind, written, if_pos more, pure_eq_ok]

omit [AddCommGroup R] [LinearOrder R] [IsOrderedAddMonoid R] in
/-- **Step 1**: all positions before the one that is found are still apart. -/
theorem firstMet_ok (cells : List (Cell R)) (count j2 : ℕ) (room : j2 + count ≤ cells.length) :
    ∃ met, firstMet cells count j2 = .ok met ∧ j2 ≤ met ∧ met ≤ j2 + count ∧
      ∀ m cell, j2 ≤ m → m < met → cells[m]? = some cell → cell.bs1 + 1 < cell.bs2 := by
  induction count generalizing j2 with
  | zero => exact ⟨j2, rfl, le_rfl, le_rfl, fun m _ low high => by omega⟩
  | succ count ih =>
    have at_j2 := List.getElem?_eq_getElem (show j2 < cells.length by omega)
    by_cases met : cells[j2].bs2 ≤ cells[j2].bs1 + 1
    · refine ⟨j2, ?_, le_rfl, by omega, fun m _ low high => by omega⟩
      simp only [firstMet, read_ok at_j2, ok_bind, if_pos met, pure_eq_ok]
    · obtain ⟨found, ran, low, high, apart⟩ := ih (j2 + 1) (by omega)
      refine ⟨found, ?_, by omega, by omega, fun m cell from_j2 before at_m => ?_⟩
      · simp only [firstMet, read_ok at_j2, ok_bind, if_neg met, ran]
      · rcases Nat.eq_or_lt_of_le from_j2 with rfl | later
        · cases at_j2.symm.trans at_m
          exact Nat.lt_of_not_le met
        · exact apart m cell later before at_m

/-- A layer of `E_RLM`. -/
theorem layerRlm_ok (reads : ∀ j < d, ∀ m ≤ j, err j m = .ok (E j m)) (pos : 0 < d) (size : cells.length = d) :
    ∃ solutions errors cells', layerRlm err eps d cells = .ok (solutions, errors, cells') ∧ cells'.length = d ∧
      Found E (Exact E eps d) d solutions errors := by
  obtain ⟨started, ran, size', between⟩ := twoLoops_ok eps reads pos size
  obtain ⟨⟨solutions, errors, cells'⟩, rebuilt, found, prepared⟩ := forSteps_ok (b := rlmStep err eps d)
    (I := fun j st => Found E (Exact E eps d) j st.1 st.2.1 ∧ Prepared E eps d j st.2.2) (j := 0) (k := d)
    (s := ([], [], started)) ⟨found_nil, size', fun m cell _ => between m cell⟩ fun j st _ lt held => by
      obtain ⟨solutions, errors, cells⟩ := st
      obtain ⟨found, prepared⟩ := held
      have found : Found E (Exact E eps d) j solutions errors := found
      have prepared : Prepared E eps d j cells := prepared
      have size := prepared.size
      have at_j := List.getElem?_eq_getElem (show j < cells.length by omega)
      have next : ∃ next, rebuildAt err eps d j cells[j] cells = .ok next ∧ Prepared E eps d j next ∧
          ∀ cell, next[j]? = some cell → cell.bs2 ≤ cell.bs1 + 1 := by
        by_cases met : cells[j].bs2 ≤ cells[j].bs1 + 1
        · exact ⟨cells, if_pos met, prepared, fun cell at_j' => by cases at_j.symm.trans at_j'; exact met⟩
        · obtain ⟨behind, first, low, high, apart⟩ := firstMet_ok cells (d - (j + 1)) (j + 1) (by omega)
          obtain ⟨next, rebuilt, prepared', settled⟩ := prepared.rebuild2L reads (show j ≤ behind - 1 by omega)
            (by omega) (fun m cell from_j upto at_m => by
              rcases Nat.eq_or_lt_of_le from_j with rfl | later
              · cases at_j.symm.trans at_m
                exact Nat.lt_of_not_le met
              · exact apart m cell later (by omega) at_m) at_j
          exact ⟨next, by rw [rebuildAt, if_neg met, first, ok_bind, rebuilt], prepared', settled⟩
      obtain ⟨next, stepped, prepared', settled⟩ := next
      have size' := prepared'.size
      have at_next := List.getElem?_eq_getElem (show j < next.length by omega)
      have between := prepared'.between j _ le_rfl at_next
      have met := settled _ at_next
      refine ⟨(solutions ++ [next[j].bs1], errors ++ [next[j].e1], next), ?_, ?_, size',
        fun m cell from_j => prepared'.between m cell (by omega)⟩
      · simp only [rlmStep, read_ok at_j, ok_bind]
        rw [stepped, ok_bind]
        simp only [read_ok at_next, ok_bind, pure_eq_ok]
      · rw [between.low.error]
        exact found.concat between.low.le (between.minimal met)
  rw [Nat.zero_add] at found
  refine ⟨solutions, errors, cells', ?_, prepared.size, found⟩
  rw [layerRlm, ran, ok_bind, rebuilt]

end Rlm

/-! ### E_DaC -/

section Divide

variable {R : Type} [LinearOrder R] {err : ℕ → ℕ → Except Fault R} {E : ℕ → ℕ → R} {d i j b calls : ℕ}
  {st : Division R} {box : Box} {waiting : List Box}

/-- A position that has its candidate. -/
def Decided (E : ℕ → ℕ → R) (d : ℕ) (st : Division R) (j : ℕ) : Prop :=
  ∃ b ≤ j, st.solutions[j]? = some b ∧ st.errors[j]? = some (E j b) ∧ (Sorted E d → Minimal E j b)

/-- A division after one more position has got its candidate. -/
theorem decided_set (sizes : st.solutions.length = d ∧ st.errors.length = d) (here : j < d) (le : b ≤ j)
    (minimal : Sorted E d → Minimal E j b) (calls : ℕ) {m : ℕ} (held : m = j ∨ Decided E d st m) :
    Decided E d ⟨st.solutions.set j b, st.errors.set j (E j b), calls⟩ m := by
  by_cases same : j = m
  · subst same
    exact ⟨b, le, List.getElem?_set_self (by omega), List.getElem?_set_self (by omega), minimal⟩
  · obtain ⟨b', le', solution, error, minimal'⟩ := held.resolve_left fun eq => same eq.symm
    exact ⟨b', le', by rw [← solution]; exact List.getElem?_set_ne same,
      by rw [← error]; exact List.getElem?_set_ne same, minimal'⟩

/-- The positions of a box with a single candidate. -/
theorem fixed_ok (reads : ∀ j < d, ∀ m ≤ j, err j m = .ok (E j m)) (i jbegin count : ℕ)
    (sizes : st.solutions.length = d ∧ st.errors.length = d) (room : jbegin + count ≤ d) (before : i ≤ jbegin)
    (minimal : Sorted E d → ∀ j, jbegin ≤ j → j < jbegin + count → Minimal E j i) :
    ∃ st', forSteps (fixedStep err i) jbegin count st = .ok st' ∧
      (st'.solutions.length = d ∧ st'.errors.length = d) ∧ st'.calls = st.calls + count ∧
      ∀ j, jbegin ≤ j ∧ j < jbegin + count ∨ Decided E d st j → Decided E d st' j := by
  obtain ⟨st', ran, sizes', calls, settled⟩ := forSteps_ok (b := fixedStep err i) (j := jbegin) (k := count) (s := st)
    (I := fun j st' => (st'.solutions.length = d ∧ st'.errors.length = d) ∧ st'.calls + jbegin = st.calls + j ∧
      ∀ m, jbegin ≤ m ∧ m < j ∨ Decided E d st m → Decided E d st' m)
    ⟨sizes, rfl, fun m held => held.resolve_left (by omega)⟩ fun j st' low high => by
      rintro ⟨⟨size, size'⟩, calls, settled⟩
      have inside : j < d := by omega
      refine ⟨⟨st'.solutions.set j i, st'.errors.set j (E j i), st'.calls + 1⟩, ?_,
        ⟨(List.length_set ..).trans size, (List.length_set ..).trans size'⟩, by simp only; omega, fun m held => ?_⟩
      · simp only [fixedStep, reads j inside i (by omega), write_ok (size.symm ▸ inside),
          write_ok (size'.symm ▸ inside), ok_bind, pure_eq_ok]
      · refine decided_set ⟨size, size'⟩ inside (by omega) (fun sorted => minimal sorted j low high) _ ?_
        by_cases last : m = j
        · exact .inl last
        · exact .inr (settled m (held.imp_left fun row => ⟨row.1, by omega⟩))
  exact ⟨st', ran, sizes', by omega, settled⟩

/-- The rows that are settled or waiting in a box, and the calls that remain. -/
structure Pending (E : ℕ → ℕ → R) (d calls : ℕ) (boxes : List Box) (st : Division R) : Prop where
  sizes : st.solutions.length = d ∧ st.errors.length = d
  fits : ∀ box ∈ boxes, box.Fits d
  covers : Sorted E d → ∀ box ∈ boxes, box.Covers E
  rows : ∀ j < d, Decided E d st j ∨ ∃ box ∈ boxes, box.jbegin ≤ j ∧ j < box.jend
  calls : st.calls + (boxes.map Box.work).sum ≤ calls

/-- **The middle position of a box** gets the last best candidate of the box. -/
theorem middle_ok (reads : ∀ j < d, ∀ m ≤ j, err j m = .ok (E j m)) (fits : box.Fits d)
    (some : box.jbegin < box.jend) :
    ∃ b, scan (err box.middle) (fun newError bestError => !decide (bestError < newError)) (box.ibegin + 1)
        (min box.iend (box.middle + 1) - (box.ibegin + 1)) (box.ibegin, E box.middle box.ibegin) =
        .ok (b, E box.middle b) ∧ Box.LastBest E box box.middle b := by
  have columns := fits.columns
  have diagonal := fits.diagonal
  have middle : box.jbegin ≤ box.middle ∧ box.middle < box.jend := by unfold Box.middle; omega
  obtain ⟨b, ran, place, least, last⟩ := scan_le box.ibegin (box.ibegin + 1)
    (min box.iend (box.middle + 1) - (box.ibegin + 1)) (F := E box.middle)
    fun m _ high => reads box.middle (by have := fits.rows; omega) m (by omega)
  refine ⟨b, ran, ?_, ?_, ?_, fun m low before => least m ?_, fun m behind inside le =>
    last m ?_ (by omega) behind⟩
  · rcases place with rfl | ⟨low, -⟩ <;> omega
  · rcases place with rfl | ⟨-, high⟩ <;> omega
  · rcases place with rfl | ⟨-, high⟩ <;> omega
  · rcases Nat.eq_or_lt_of_le low with rfl | later
    · exact .inl rfl
    · refine .inr ⟨later, ?_⟩
      rcases place with rfl | ⟨-, high⟩ <;> omega
  · rcases place with rfl | ⟨low, -⟩ <;> omega

/-- A box is replaced by the boxes it leaves. -/
theorem Pending.next (pending : Pending E d calls (box :: waiting) st) {more : List Box} {st' : Division R}
    (sizes : st'.solutions.length = d ∧ st'.errors.length = d) (fits : ∀ other ∈ more, other.Fits d)
    (covers : Sorted E d → ∀ other ∈ more, other.Covers E) (kept : ∀ j, Decided E d st j → Decided E d st' j)
    (rows : ∀ j, box.jbegin ≤ j → j < box.jend →
      Decided E d st' j ∨ ∃ other ∈ more, other.jbegin ≤ j ∧ j < other.jend)
    (work : st'.calls + (more.map Box.work).sum ≤ st.calls + box.work) :
    Pending E d calls (waiting ++ more) st' := by
  have budget := pending.calls
  rw [List.map_cons, List.sum_cons] at budget
  refine ⟨sizes, fun other mem => ?_, fun sorted other mem => ?_, fun j lt => ?_, ?_⟩
  · rcases List.mem_append.mp mem with mem | mem
    · exact pending.fits other (List.mem_cons_of_mem _ mem)
    · exact fits other mem
  · rcases List.mem_append.mp mem with mem | mem
    · exact pending.covers sorted other (List.mem_cons_of_mem _ mem)
    · exact covers sorted other mem
  · rcases pending.rows j lt with held | ⟨other, mem, low, high⟩
    · exact .inl (kept j held)
    · rcases List.mem_cons.mp mem with rfl | mem
      · rcases rows j low high with held | ⟨next, mem, low, high⟩
        · exact .inl held
        · exact .inr ⟨next, List.mem_append_right _ mem, low, high⟩
      · exact .inr ⟨other, List.mem_append_left _ mem, low, high⟩
  · rw [List.map_append, List.sum_append]
    omega

/-- **A box** is settled or divided, and the parts wait. -/
theorem divide_ok (reads : ∀ j < d, ∀ m ≤ j, err j m = .ok (E j m)) (pending : Pending E d calls (box :: waiting) st) :
    ∃ more st', divide err box st = .ok (more, st') ∧
      (more.map fun box : Box => 2 * (box.jend - box.jbegin) + 1).sum < 2 * (box.jend - box.jbegin) + 1 ∧
      Pending E d calls (waiting ++ more) st' := by
  have sizes := pending.sizes
  have here := pending.fits box List.mem_cons_self
  have columns := here.columns
  have diagonal := here.diagonal
  unfold divide
  by_cases empty : box.jend ≤ box.jbegin
  · refine ⟨[], st, if_pos empty, by simp, pending.next sizes (by simp) (by simp) (fun _ held => held)
      (fun j low high => ?_) (by simp)⟩
    omega
  rw [if_neg empty]
  have some : box.jbegin < box.jend := Nat.lt_of_not_le empty
  have bound := here.rows
  by_cases single : box.iend - box.ibegin = 1
  · obtain ⟨st', ran, sizes', calls', settled⟩ := fixed_ok reads box.ibegin box.jbegin (box.jend - box.jbegin) sizes
      (by omega) diagonal fun sorted j low high => by
        obtain ⟨b, from_b, to_b, minimal⟩ := pending.covers sorted box List.mem_cons_self j low (by omega)
        rwa [show box.ibegin = b by omega]
    have work := Box.rows_le_work columns
    refine ⟨[], st', ?_, by simp, pending.next sizes' (by simp) (by simp) (fun j held => settled j (.inr held))
      (fun j low high => .inl (settled j (.inl ⟨low, by omega⟩))) ?_⟩
    · rw [if_pos single, ran]
      rfl
    · simp only [List.map_nil, List.sum_nil]
      omega
  · have middle : box.jbegin ≤ box.middle ∧ box.middle < box.jend := by unfold Box.middle; omega
    have inside : box.middle < d := by omega
    obtain ⟨b, scanned, best⟩ := middle_ok reads here some
    have work := Box.work_split some best.low best.high
    have set (j : ℕ) (held : j = box.middle ∨ Decided E d st j) := decided_set sizes inside best.le
      (fun sorted => (pending.covers sorted box List.mem_cons_self).minimal middle.1 middle.2 best)
      (st.calls + 1 + (min box.iend (box.middle + 1) - (box.ibegin + 1))) held
    refine ⟨[box.left b, box.right b], ⟨st.solutions.set box.middle b, st.errors.set box.middle (E box.middle b),
      st.calls + 1 + (min box.iend (box.middle + 1) - (box.ibegin + 1))⟩, ?_, ?_, pending.next
      ⟨(List.length_set ..).trans sizes.1, (List.length_set ..).trans sizes.2⟩ ?_ ?_ (fun j held => set j (.inr held))
      (fun j low high => ?_) ?_⟩
    · rw [if_neg single]
      simp only [← Box.middle.eq_1, reads _ inside _ (diagonal.trans middle.1), ok_bind, scanned,
        write_ok (sizes.1.symm ▸ inside), write_ok (sizes.2.symm ▸ inside), pure_eq_ok]
      rfl
    · simp only [List.map_cons, List.map_nil, List.sum_cons, List.sum_nil, Box.left, Box.right]
      omega
    · simpa using ⟨Box.Fits.left here some best, Box.Fits.right here best⟩
    · intro sorted
      have covered := pending.covers sorted box List.mem_cons_self
      simpa using ⟨Box.Covers.left covered sorted here some best, Box.Covers.right covered sorted here best⟩
    · rcases Nat.lt_trichotomy j box.middle with before | same | behind
      · exact .inr ⟨box.left b, by simp, low, before⟩
      · exact .inl (set j (.inl same))
      · exact .inr ⟨box.right b, by simp, behind, high⟩
    · simp only [List.map_cons, List.map_nil, List.sum_cons, List.sum_nil]
      omega

/-- **A layer of `E_DaC`**, with a bound on the calls of `Penalty`. -/
theorem layerDaC_ok [Zero R] (reads : ∀ j < d, ∀ m ≤ j, err j m = .ok (E j m)) (pos : 0 < d) :
    ∃ division, layerDaC err d = .ok division ∧ Found E (Sorted E d) d division.solutions division.errors ∧
      division.calls ≤ d * (d.size + 2) := by
  have run : ∃ division, layerDaC err d = .ok division ∧ Pending E d (Box.work ⟨0, d, 0, d⟩) [] division :=
    Worklist.drain_ok (I := Pending E d (Box.work ⟨0, d, 0, d⟩)) (fun box => 2 * (box.jend - box.jbegin) + 1)
      (fun _ _ _ => divide_ok reads)
      ⟨by simp, by simpa using ⟨le_rfl, pos, le_rfl⟩, by simpa using fun _ => Box.covers_whole E d,
        by simpa using fun j lt => .inr lt, by simp⟩ (by simp)
  obtain ⟨division, ran, ⟨size, size'⟩, -, -, rows, budget⟩ := run
  have decided (m : ℕ) (lt : m < d) : Decided E d division m := by simpa using rows m lt
  refine ⟨division, ran, ⟨size, ?_, fun m b at_m => ?_, fun sorted m b at_m => ?_⟩, ?_⟩
  · apply List.ext_getElem?
    intro m
    rw [List.getElem?_mapIdx]
    rcases Nat.lt_or_ge m d with lt | ge
    · obtain ⟨b, -, solution, error, -⟩ := decided m lt
      rw [solution, error, Option.map_some]
    · rw [List.getElem?_eq_none (by omega), List.getElem?_eq_none (by omega), Option.map_none]
  · obtain ⟨b', le, solution, -, -⟩ := decided m (size ▸ (List.getElem?_eq_some_iff.mp at_m).1)
    cases solution.symm.trans at_m
    exact le
  · obtain ⟨b', -, solution, -, minimal⟩ := decided m (size ▸ (List.getElem?_eq_some_iff.mp at_m).1)
    cases solution.symm.trans at_m
    exact minimal sorted
  · have calls : division.calls ≤ Box.work ⟨0, d, 0, d⟩ := by simpa using budget
    unfold Box.work at calls
    rw [Nat.mul_add]
    simp only [Nat.sub_zero] at calls
    omega

end Divide

/-! ### All modes -/

section Layer

variable {R : Type} [AddCommGroup R] [LinearOrder R] [IsOrderedAddMonoid R] {err : ℕ → ℕ → Except Fault R}
  {E : ℕ → ℕ → R} {d : ℕ} {cells : List (Cell R)}

/-- When a mode finds the least errors of a layer. -/
def ESF.Reliable (E : ℕ → ℕ → R) (eps : R) (d : ℕ) : ESF → Prop
  | base | base2 => True
  | daC => Sorted E d
  | safe | rlm => Exact E eps d
  | oldLinear | linear | linear2L | rlm2 => False

/-- **A layer of any mode** but `E_RLM2`. -/
theorem modeLayer_ok (eps : R) (mode : ESF) (other : mode ≠ .rlm2) (reads : ∀ j < d, ∀ m < d, err j m = .ok (E j m))
    (pos : 0 < d) (size : cells.length = d) :
    ∃ solutions errors cells', modeLayer err eps d mode cells = .ok (solutions, errors, cells') ∧
      cells'.length = d ∧ Found E (mode.Reliable E eps d) d solutions errors := by
  have inner : ∀ j < d, ∀ m ≤ j, err j m = .ok (E j m) := fun j lt m le => reads j lt m (by omega)
  cases mode with
  | base | base2 =>
    obtain ⟨solutions, errors, ran, length, eq, best⟩ := layerBase2_ok reads
    exact ⟨solutions, errors, cells, by simp only [modeLayer, ran, ok_bind, pure_eq_ok], size, length, eq,
      fun m b at_m => (best m b at_m).1, fun _ m b at_m => ⟨(best m b at_m).1, (best m b at_m).2⟩⟩
  | oldLinear =>
    obtain ⟨solutions, errors, ran, found⟩ := layerLinear_ok eps (fun j => Nat.le_succ (id j)) inner
    exact ⟨solutions, errors, cells, by simp only [modeLayer, ran, ok_bind, pure_eq_ok], size, found⟩
  | linear =>
    obtain ⟨solutions, errors, ran, found⟩ := layerLinear_ok eps (fun j => le_refl (j + 1)) inner
    exact ⟨solutions, errors, cells, by simp only [modeLayer, ran, ok_bind, pure_eq_ok], size, found⟩
  | linear2L =>
    obtain ⟨cells', ran, size', between⟩ := twoLoops_ok eps inner pos size
    obtain ⟨solutions, errors, chosen, found⟩ := setBest_ok (E := E) False
      (fun _ cell => .ok (setBest2L eps cell)) size' fun j _ cell at_j => by
        obtain ⟨b, eq, le⟩ := (between j cell at_j).setBest2L
        exact ⟨b, by rw [eq], le, False.elim⟩
    exact ⟨solutions, errors, cells', by simp only [modeLayer, ran, chosen, ok_bind, pure_eq_ok], size', found⟩
  | safe =>
    obtain ⟨cells', ran, size', between⟩ := twoLoops_ok eps inner pos size
    obtain ⟨solutions, errors, chosen, found⟩ := setBest_ok _ _ size' fun j lt cell at_j =>
      (between j cell at_j).setBestSafe (inner j lt)
    exact ⟨solutions, errors, cells', by simp only [modeLayer, ran, chosen, ok_bind, pure_eq_ok], size', found⟩
  | rlm => exact layerRlm_ok inner pos size
  | rlm2 => exact absurd rfl other
  | daC =>
    obtain ⟨division, ran, found, -⟩ := layerDaC_ok inner pos
    exact ⟨division.solutions, division.errors, cells, by simp only [modeLayer, ran, ok_bind, pure_eq_ok], size, found⟩

end Layer

end Cmicot.Grid
