import Cmicot.Lib.Cuts
import Mathlib.Algebra.Order.BigOperators.Group.List
import Mathlib.Tactic.Abel

/-!
Cutting a list into consecutive groups, of which some may be empty.

Weights and penalties are elements of ordered groups. Only the first group has to hold something.
If crossing groups cost more, splitting a group never costs more than an empty group, so empty
groups do not pay while there are elements left to split off.

* `Monge.split`: two groups instead of one and an empty one.
* `IsWeakCut.exists_cut`: a cut without empty groups that is not dearer.
* `isWeakCut_cutAt`, `cutAt_few`, `IsWeakCut.concat`: weak cuts from positions, and their last groups.
* `total_singles_le`: with few elements, one group for each and empty ones for the rest.
-/

namespace Cmicot.Cuts

/-! ### Weak cuts -/

section Weak

variable {α : Type} {ws group : List α} {groups : List (List α)} {ts : List ℕ} {k start t : ℕ}

/-- `k` groups that are the list when put together; the first of them is not empty. -/
structure IsWeakCut (ws : List α) (k : ℕ) (groups : List (List α)) : Prop where
  whole : groups.flatten = ws
  count : groups.length = k
  first : ∀ group ∈ groups.head?, group ≠ []

theorem IsCut.isWeakCut (cut : IsCut ws k groups) : IsWeakCut ws k groups :=
  ⟨cut.whole, cut.count, fun group mem => cut.nonempty group (List.mem_of_mem_head? mem)⟩

theorem flatten_cutAt_le (ordered : ts.Pairwise (· ≤ ·)) (behind : ∀ t ∈ ts, start ≤ t + 1) :
    (cutAt ws start ts).flatten = ws.drop start := by
  induction ts generalizing start with
  | nil => simp [cutAt]
  | cons t ts ih =>
    obtain ⟨first, ordered⟩ := List.pairwise_cons.mp ordered
    have le := behind t List.mem_cons_self
    rw [cutAt, List.flatten_cons, ih ordered fun s mem => Nat.succ_le_succ (first s mem), List.drop_take,
      show ws.drop (t + 1) = (ws.drop start).drop (t + 1 - start) by
        rw [List.drop_drop, Nat.add_sub_cancel' le],
      List.take_append_drop]

/-- **Positions that do not fall give a weak cut.** -/
theorem isWeakCut_cutAt (ordered : ts.Pairwise (· ≤ ·)) (some : ws ≠ []) :
    IsWeakCut ws (ts.length + 1) (cutAt ws 0 ts) := by
  refine ⟨by rw [flatten_cutAt_le ordered fun t _ => Nat.zero_le _, List.drop_zero], length_cutAt, ?_⟩
  obtain ⟨w, rest, rfl⟩ := List.exists_cons_of_ne_nil some
  cases ts with
  | nil => simp [cutAt]
  | cons t ts => simp [cutAt]

theorem cutAt_range' (m : ℕ) (room : start + m ≤ ws.length) :
    cutAt ws start (List.range' start m ++ ts) =
      ((ws.drop start).take m).map (fun w => [w]) ++ cutAt ws (start + m) ts := by
  induction m generalizing start with
  | zero => simp
  | succ m ih =>
    have inside : start < ws.length := by omega
    rw [List.range'_succ, List.cons_append, cutAt, ih (by omega), List.drop_eq_getElem_cons inside, List.take_succ_cons,
      List.map_cons, List.cons_append, show start + 1 + m = start + (m + 1) by omega, List.drop_take,
      List.drop_eq_getElem_cons inside, Nat.add_sub_cancel_left]
    rfl

theorem cutAt_end (some : ws ≠ []) (r : ℕ) :
    cutAt ws ws.length (List.replicate r (ws.length - 1)) = List.replicate (r + 1) [] := by
  have pos := List.length_pos_of_ne_nil some
  have last : ws.length - 1 + 1 = ws.length := by omega
  induction r with
  | zero => simp [cutAt]
  | succ r ih => rw [List.replicate_succ, cutAt, last, ih, List.take_length, List.drop_length, ← List.replicate_succ]

/-- **Positions for few elements**: each gets its own group, and then the groups are empty. -/
theorem cutAt_few (some : ws ≠ []) (r : ℕ) :
    cutAt ws 0 (List.range (ws.length - 1) ++ List.replicate r (ws.length - 1)) =
      ws.map (fun w => [w]) ++ List.replicate r [] := by
  have pos := List.length_pos_of_ne_nil some
  have last : ws.length - 1 + 1 = ws.length := by omega
  have single : ws.drop (ws.length - 1) = [ws.getLast some] := List.drop_length_sub_one some
  have split : ws.map (fun w => [w]) = (ws.take (ws.length - 1)).map (fun w => [w]) ++ [[ws.getLast some]] := by
    rw [← List.map_singleton (f := fun w => [w]), ← single, ← List.map_append, List.take_append_drop]
  rw [List.range_eq_range', cutAt_range' (ws.length - 1) (by omega), List.drop_zero, Nat.zero_add, split,
    List.append_assoc]
  cases r with
  | zero => simp [cutAt, single]
  | succ r => rw [List.replicate_succ, cutAt, last, List.take_length, single, cutAt_end some]; rfl

/-- **The last group of a weak cut.** -/
theorem IsWeakCut.concat (cut : IsWeakCut ws (k + 2) groups) :
    ∃ m earlier, groups = earlier ++ [ws.drop (m + 1)] ∧ m < ws.length ∧
      IsWeakCut (ws.take (m + 1)) (k + 1) earlier := by
  obtain ⟨whole, count, first⟩ := cut
  cases groups using List.reverseRecOn with
  | nil => cases count
  | append_singleton earlier last =>
    rw [List.flatten_append, List.flatten_singleton] at whole
    have length : earlier.length = k + 1 := by simpa using count
    obtain ⟨group, rest, rfl⟩ := List.exists_cons_of_ne_nil (List.ne_nil_of_length_pos (by omega : 0 < earlier.length))
    have some : group ≠ [] := first group rfl
    have pos : 0 < (group :: rest).flatten.length := by
      have := List.length_pos_of_ne_nil some
      rw [List.flatten_cons, List.length_append]
      omega
    obtain ⟨m, eq⟩ : ∃ m, (group :: rest).flatten.length = m + 1 := ⟨_, (Nat.succ_pred_eq_of_pos pos).symm⟩
    refine ⟨m, group :: rest, ?_, ?_, ?_, length, fun g mem => ?_⟩
    · rw [← whole, ← eq, List.drop_left]
    · rw [← whole, List.length_append]
      omega
    · rw [← whole, ← eq, List.take_left]
    · cases mem
      exact some

end Weak

/-! ### Costs -/

section Costs

variable {W R : Type} [AddCommGroup W] [PartialOrder W] [AddCommGroup R] [PartialOrder R] [IsOrderedAddMonoid R]
  {P : W → R} {ws : List W} {groups : List (List W)} {k : ℕ}

omit [PartialOrder W] [PartialOrder R] [IsOrderedAddMonoid R] in
/-- The penalties of all groups together. -/
def total (P : W → R) (groups : List (List W)) : R := (groups.map fun group => P group.sum).sum

omit [PartialOrder W] [PartialOrder R] [IsOrderedAddMonoid R] in
@[simp] theorem total_append (groups groups' : List (List W)) :
    total P (groups ++ groups') = total P groups + total P groups' := by
  simp [total]

omit [PartialOrder W] [PartialOrder R] [IsOrderedAddMonoid R] in
@[simp] theorem total_cons (group : List W) (groups : List (List W)) :
    total P (group :: groups) = P group.sum + total P groups := by
  simp [total]

omit [PartialOrder W] [PartialOrder R] [IsOrderedAddMonoid R] in
@[simp] theorem total_nil : total P [] = 0 := rfl

/-- Crossing groups cost more, for weights that are not negative. -/
def Monge (P : W → R) : Prop := ∀ {x y z : W}, 0 ≤ x → 0 ≤ y → 0 ≤ z → P (x + y) + P (y + z) ≤ P y + P (x + y + z)

omit [IsOrderedAddMonoid R] in
/-- **Splitting a group** costs at most an empty group. -/
theorem Monge.split (monge : Monge P) {x z : W} (first : 0 ≤ x) (second : 0 ≤ z) : P x + P z ≤ P 0 + P (x + z) := by
  simpa using monge first le_rfl second

variable [IsOrderedAddMonoid W]

/-- One group more, as long as a group has two elements. -/
theorem IsCut.exists_succ (monge : Monge P) (nonneg : ∀ w ∈ ws, 0 ≤ w) (cut : IsCut ws k groups)
    (room : k < ws.length) : ∃ groups', IsCut ws (k + 1) groups' ∧ total P groups' ≤ total P groups + P 0 := by
  have large : ∃ group ∈ groups, 2 ≤ group.length := by
    by_contra small
    push Not at small
    have le : groups.flatten.length ≤ groups.length := by
      rw [List.length_flatten]
      calc (groups.map List.length).sum ≤ (groups.map List.length).length • 1 :=
            List.sum_le_card_nsmul _ 1 fun n mem => by
              obtain ⟨group, listed, rfl⟩ := List.mem_map.mp mem
              exact Nat.le_of_lt_succ (small group listed)
        _ = groups.length := by simp
    rw [cut.whole, cut.count] at le
    omega
  obtain ⟨group, mem, two⟩ := large
  obtain ⟨before, behind, rfl⟩ := List.append_of_mem mem
  obtain ⟨w, rest, rfl⟩ := List.exists_cons_of_ne_nil (List.ne_nil_of_length_pos (by omega : 0 < group.length))
  have more : rest ≠ [] := List.ne_nil_of_length_pos (Nat.le_of_succ_le_succ two)
  have inside : ∀ v ∈ w :: rest, 0 ≤ v := fun v listed =>
    nonneg v (cut.whole ▸ List.mem_flatten.mpr ⟨_, mem, listed⟩)
  have split := monge.split (inside w List.mem_cons_self)
    (List.sum_nonneg fun v listed => inside v (List.mem_cons_of_mem _ listed))
  refine ⟨before ++ [w] :: rest :: behind, ⟨?_, ?_, fun g listed => ?_⟩, ?_⟩
  · rw [← cut.whole]
    simp
  · rw [← cut.count]
    simp
    omega
  · simp only [List.mem_append, List.mem_cons] at listed
    rcases listed with listed | rfl | rfl | listed
    · exact cut.nonempty g (List.mem_append_left _ listed)
    · exact List.cons_ne_nil _ _
    · exact more
    · exact cut.nonempty g (List.mem_append_right _ (List.mem_cons_of_mem _ listed))
  · simp only [total_append, total_cons, List.sum_cons, List.sum_nil, add_zero]
    calc total P before + (P w + (P rest.sum + total P behind))
        = (P w + P rest.sum) + (total P before + total P behind) := by abel
      _ ≤ (P 0 + P (w + rest.sum)) + (total P before + total P behind) := add_le_add_left split _
      _ = total P before + (P (w + rest.sum) + total P behind) + P 0 := by abel

theorem IsCut.exists_add (monge : Monge P) (nonneg : ∀ w ∈ ws, 0 ≤ w) (cut : IsCut ws k groups) {n : ℕ}
    (room : k + n ≤ ws.length) : ∃ groups', IsCut ws (k + n) groups' ∧ total P groups' ≤ total P groups + n • P 0 := by
  induction n with
  | zero => exact ⟨groups, cut, by simp⟩
  | succ n ih =>
    obtain ⟨mid, cut', le⟩ := ih (by omega)
    obtain ⟨last, cut'', le'⟩ := cut'.exists_succ monge nonneg (by omega)
    refine ⟨last, cut'', le'.trans ?_⟩
    rw [succ_nsmul, ← add_assoc]
    exact add_le_add_left le _

omit [PartialOrder W] [PartialOrder R] [IsOrderedAddMonoid R] [IsOrderedAddMonoid W] in
/-- A weak cut without its empty groups. -/
theorem IsWeakCut.exists_nonempty (cut : IsWeakCut ws k groups) :
    ∃ m full, m ≤ k ∧ IsCut ws m full ∧ total P groups = total P full + (k - m) • P 0 := by
  obtain ⟨rfl, rfl, -⟩ := cut
  induction groups with
  | nil => exact ⟨0, [], le_rfl, ⟨rfl, rfl, by simp⟩, by simp⟩
  | cons group groups ih =>
    obtain ⟨m, full, le, cut, eq⟩ := ih
    cases group with
    | nil =>
      refine ⟨m, full, le.trans (Nat.le_succ _), by simpa using cut, ?_⟩
      rw [total_cons, eq, List.sum_nil, List.length_cons, Nat.succ_sub le, succ_nsmul]
      abel
    | cons w rest =>
      refine ⟨m + 1, (w :: rest) :: full, Nat.succ_le_succ le, ⟨?_, ?_, fun g mem => ?_⟩, ?_⟩
      · rw [List.flatten_cons, List.flatten_cons, cut.whole]
      · rw [List.length_cons, cut.count]
      · rcases List.mem_cons.mp mem with rfl | mem
        · exact List.cons_ne_nil _ _
        · exact cut.nonempty g mem
      · rw [total_cons, total_cons, eq, List.length_cons, Nat.succ_sub_succ, add_assoc]

/-- **Empty groups do not pay**: there is a cut without them that is not dearer. -/
theorem IsWeakCut.exists_cut (monge : Monge P) (nonneg : ∀ w ∈ ws, 0 ≤ w) (cut : IsWeakCut ws k groups)
    (room : k ≤ ws.length) : ∃ groups', IsCut ws k groups' ∧ total P groups' ≤ total P groups := by
  obtain ⟨m, full, le, strict, eq⟩ := cut.exists_nonempty (P := P)
  obtain ⟨n, rfl⟩ := Nat.exists_eq_add_of_le le
  obtain ⟨groups', cut', le'⟩ := strict.exists_add monge nonneg room
  refine ⟨groups', cut', ?_⟩
  rwa [eq, Nat.add_sub_cancel_left]

omit [AddCommGroup W] [PartialOrder W] [IsOrderedAddMonoid W] in
/-- As many groups as elements are single elements. -/
theorem IsCut.eq_singles (cut : IsCut ws ws.length groups) : groups = ws.map fun w => [w] := by
  obtain ⟨whole, count, nonempty⟩ := cut
  induction groups generalizing ws with
  | nil =>
    cases whole
    rfl
  | cons group groups ih =>
    obtain ⟨w, rest, rfl⟩ := List.exists_cons_of_ne_nil (nonempty group List.mem_cons_self)
    have others : ∀ g ∈ groups, g ≠ [] := fun g mem => nonempty g (List.mem_cons_of_mem _ mem)
    have le := (show IsCut groups.flatten groups.length groups from ⟨rfl, rfl, others⟩).le_length
    subst whole
    simp only [List.length_cons, List.flatten_cons, List.length_append, List.cons_append] at count
    have none : rest = [] := List.eq_nil_of_length_eq_zero (by omega)
    subst none
    simp only [List.flatten_cons, List.cons_append, List.nil_append, List.map_cons]
    rw [← ih rfl (by simpa using count) others]

/-- **With few elements**, one group for each and empty ones for the rest cost least. -/
theorem total_singles_le (monge : Monge P) (nonneg : ∀ w ∈ ws, 0 ≤ w) (cut : IsWeakCut ws k groups)
    (few : ws.length ≤ k) : total P (ws.map fun w => [w]) + (k - ws.length) • P 0 ≤ total P groups := by
  obtain ⟨m, full, le, strict, eq⟩ := cut.exists_nonempty (P := P)
  obtain ⟨n, length⟩ := Nat.exists_eq_add_of_le strict.le_length
  obtain ⟨singles, cut', le'⟩ := strict.exists_add monge nonneg length.ge
  rw [← length] at cut'
  rw [← cut'.eq_singles, eq]
  calc total P singles + (k - ws.length) • P 0
      ≤ total P full + n • P 0 + (k - ws.length) • P 0 := add_le_add_left le' _
    _ = total P full + (k - m) • P 0 := by
        rw [add_assoc, ← add_nsmul, show n + (k - ws.length) = k - m by omega]

end Costs

end Cmicot.Cuts
