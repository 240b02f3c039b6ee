import Mathlib.Algebra.Order.BigOperators.Group.List
import Mathlib.Algebra.Order.Ring.Nat
import Mathlib.Data.Finset.Max
import Mathlib.Data.List.Perm.Basic
import Mathlib.Order.Defs.LinearOrder

/-!
Best-first splitting with a budget.

A queue holds cells. As long as there are not more cells than the budget allows and the cell on
top can be split, it is replaced by its two parts; the top is some cell of highest score. The
loop stops at the first top that cannot be split, so a cell that can be split is overlooked if
it has no higher score than one that cannot.

* `run_induct`: what holds of the first queue and is kept by every split holds at the end.
* `run_leaves`: as long as there are cells of positive score, these are split.
* `run_length_iff`: when every run ends with as many cells as the budget and the atoms allow.
-/

namespace Cmicot.Splitting

/-! ### Definitions -/

/-- Cells that can be split into two smaller ones, and the score by which they are ranked. -/
structure Splitter (α R : Type) where
  canSplit : α → Prop
  split : (c : α) → canSplit c → α × α
  score : α → R
  size : α → ℕ
  size_fst_lt : ∀ c can, size (split c can).1 < size c
  size_snd_lt : ∀ c can, size (split c can).2 < size c

variable {α R : Type}

/-- `top` gives a cell of highest score; which one of them is not said. -/
structure Chooses [LE R] (score : α → R) (top : List α → α) : Prop where
  mem : ∀ q, q ≠ [] → top q ∈ q
  le : ∀ q, ∀ c ∈ q, score c ≤ score (top q)

open Classical in
/-- Split the top while the budget is not used up and the top can be split. -/
noncomputable def run (S : Splitter α R) (top : List α → α) (budget : ℕ) (q : List α) : List α :=
  if go : q.length ≤ budget ∧ S.canSplit (top q) then
    run S top budget ((S.split (top q) go.2).2 :: (S.split (top q) go.2).1 :: q.erase (top q))
  else q
termination_by budget + 1 - q.length
decreasing_by
  have short := @List.length_erase α _ _ (top q) q
  simp only [List.length_cons]
  split at short <;> omega

open Classical in
/-- The cells that are left when every cell of positive score is split. -/
noncomputable def leaves [LT R] [Zero R] (S : Splitter α R) (c : α) : List α :=
  if big : 0 < S.score c ∧ S.canSplit c then
    leaves S (S.split c big.2).1 ++ leaves S (S.split c big.2).2
  else [c]
termination_by S.size c
decreasing_by
  · exact S.size_fst_lt c big.2
  · exact S.size_snd_lt c big.2

/-! ### Runs -/

section Run

variable {S : Splitter α R} {top : List α → α} {budget : ℕ} {q : List α}

theorem run_stop (stops : ¬ (q.length ≤ budget ∧ S.canSplit (top q))) : run S top budget q = q := by
  rw [run, dif_neg stops]

open Classical in
theorem run_step (room : q.length ≤ budget) (can : S.canSplit (top q)) :
    run S top budget q =
      run S top budget ((S.split (top q) can).2 :: (S.split (top q) can).1 :: q.erase (top q)) := by
  rw [run, dif_pos ⟨room, can⟩]

variable [LE R]

/-- **Invariant rule.** What does not depend on the order of the queue and is kept when a cell
is replaced by its parts holds when the run ends. -/
theorem run_induct {P : List α → Prop} (chooses : Chooses S.score top)
    (perm : ∀ q q' : List α, q.Perm q' → P q → P q')
    (step : ∀ c rest can, P (c :: rest) → P ((S.split c can).2 :: (S.split c can).1 :: rest))
    (some : q ≠ []) (start : P q) : P (run S top budget q) := by
  classical
  fun_induction run S top budget q with
  | case1 q go ih =>
    refine ih (List.cons_ne_nil _ _) (step _ _ go.2 (perm _ _ ?_ start))
    exact List.perm_cons_erase (chooses.mem q some)
  | case2 q _ => exact start

theorem length_step {c : α} (mem : c ∈ q) (x y : α) [DecidableEq α] :
    (x :: y :: q.erase c).length = q.length + 1 := by
  have pos := List.length_pos_of_mem mem
  rw [List.length_cons, List.length_cons, List.length_erase_of_mem mem]
  omega

/-- The budget is kept. -/
theorem length_run_le (chooses : Chooses S.score top) (some : q ≠ []) (le : q.length ≤ budget + 1) :
    (run S top budget q).length ≤ budget + 1 := by
  classical
  fun_induction run S top budget q with
  | case1 q go ih =>
    refine ih (List.cons_ne_nil _ _) ?_
    rw [length_step (chooses.mem q some)]
    exact Nat.succ_le_succ go.1
  | case2 q _ => exact le

/-- Nothing is split if nothing can be. -/
theorem run_of_none (chooses : Chooses S.score top) (some : q ≠ []) (none : ∀ c ∈ q, ¬ S.canSplit c) :
    run S top budget q = q :=
  run_stop fun go => none _ (chooses.mem q some) go.2

end Run

/-! ### Choices -/

/-- A choice that takes a cell that cannot be split whenever there is one of highest score. -/
theorem exists_worst [LinearOrder R] (S : Splitter α R) (root : α) :
    ∃ top, Chooses S.score top ∧
      ∀ q, ∀ c ∈ q, ¬ S.canSplit c → (∀ d ∈ q, S.score d ≤ S.score c) → ¬ S.canSplit (top q) := by
  classical
  have pick (q : List α) : ∃ t, (q ≠ [] → t ∈ q) ∧ (∀ c ∈ q, S.score c ≤ S.score t) ∧
      ∀ c ∈ q, ¬ S.canSplit c → (∀ d ∈ q, S.score d ≤ S.score c) → ¬ S.canSplit t := by
    by_cases stuck : ∃ c ∈ q, ¬ S.canSplit c ∧ ∀ d ∈ q, S.score d ≤ S.score c
    · obtain ⟨c, mem, cannot, highest⟩ := stuck
      exact ⟨c, fun _ => mem, highest, fun _ _ _ _ => cannot⟩
    · by_cases some : q = []
      · exact ⟨root, fun other => absurd some other, by simp [some], by simp [some]⟩
      · have nonempty : q.toFinset.Nonempty := List.toFinset_nonempty_iff q |>.mpr some
        obtain ⟨t, mem, highest⟩ := Finset.exists_max_image q.toFinset S.score nonempty
        refine ⟨t, fun _ => List.mem_toFinset.mp mem, fun c listed => highest c (List.mem_toFinset.mpr listed), ?_⟩
        intro c listed cannot above
        exact absurd ⟨c, listed, cannot, above⟩ stuck
  choose top mem highest worst using pick
  exact ⟨top, ⟨mem, highest⟩, worst⟩

/-! ### Cells of positive score -/

section Leaves

variable [LinearOrder R] [Zero R] {S : Splitter α R} {top : List α → α} {budget : ℕ} {q : List α} {c : α}

theorem leaves_of_pos (pos : 0 < S.score c) (can : S.canSplit c) :
    leaves S c = leaves S (S.split c can).1 ++ leaves S (S.split c can).2 := by
  rw [leaves, dif_pos ⟨pos, can⟩]

theorem leaves_of_not_pos (small : ¬ 0 < S.score c) : leaves S c = [c] := by
  rw [leaves, dif_neg fun big => small big.1]

theorem length_leaves_pos (c : α) : 0 < (leaves S c).length := by
  induction c using leaves.induct S with
  | case1 c big left right =>
    rw [leaves_of_pos big.1 big.2, List.length_append]
    omega
  | case2 c small =>
    rw [leaves, dif_neg small]
    exact Nat.one_pos

theorem length_le_leaves (q : List α) : q.length ≤ (q.flatMap (leaves S)).length := by
  induction q with
  | nil => exact Nat.le_refl 0
  | cons c rest ih =>
    have := @length_leaves_pos α R _ _ S c
    rw [List.flatMap_cons, List.length_append, List.length_cons]
    omega

theorem flatMap_leaves_of_not_pos (small : ∀ c ∈ q, ¬ 0 < S.score c) : q.flatMap (leaves S) = q := by
  induction q with
  | nil => rfl
  | cons c rest ih =>
    rw [List.flatMap_cons, leaves_of_not_pos (small c List.mem_cons_self),
      ih fun d mem => small d (List.mem_cons_of_mem c mem)]
    rfl

/-- Splitting a cell of positive score changes no leaf. -/
theorem perm_leaves_step [DecidableEq α] (mem : c ∈ q) (pos : 0 < S.score c) (can : S.canSplit c) :
    (((S.split c can).2 :: (S.split c can).1 :: q.erase c).flatMap (leaves S)).Perm (q.flatMap (leaves S)) := by
  refine List.Perm.trans ?_ ((List.perm_cons_erase mem).flatMap_right (leaves S)).symm
  simp only [List.flatMap_cons]
  rw [leaves_of_pos pos can, ← List.append_assoc]
  exact List.perm_append_comm.append_right _

/-- The leaves have no positive score. -/
theorem not_pos_of_mem_leaves (able : ∀ c, 0 < S.score c → S.canSplit c) {leaf : α} (mem : leaf ∈ leaves S c) :
    ¬ 0 < S.score leaf := by
  induction c using leaves.induct S with
  | case1 c big left right =>
    rw [leaves_of_pos big.1 big.2] at mem
    rcases List.mem_append.mp mem with here | there
    · exact left here
    · exact right there
  | case2 c small =>
    rw [leaves, dif_neg small] at mem
    rw [List.mem_singleton.mp mem]
    exact fun pos => small ⟨pos, able c pos⟩

/-- **Cells of positive score are split first.** A run uses its budget up on them or gets to the
leaves. -/
theorem run_leaves (chooses : Chooses S.score top) (able : ∀ c, 0 < S.score c → S.canSplit c) (some : q ≠ [])
    (le : q.length ≤ budget + 1) :
    (budget < (q.flatMap (leaves S)).length → (run S top budget q).length = budget + 1) ∧
      ((q.flatMap (leaves S)).length ≤ budget →
        ∃ q', q'.Perm (q.flatMap (leaves S)) ∧ run S top budget q = run S top budget q') := by
  classical
  fun_induction run S top budget q with
  | case1 q go ih =>
    have mem := chooses.mem q some
    by_cases pos : 0 < S.score (top q)
    · have same := perm_leaves_step mem pos go.2
      have next := ih (List.cons_ne_nil _ _) (by rw [length_step mem]; exact Nat.succ_le_succ go.1)
      rw [same.length_eq] at next
      refine ⟨next.1, fun few => ?_⟩
      obtain ⟨q', perm, eq⟩ := next.2 few
      exact ⟨q', perm.trans same, eq⟩
    · have flat : q.flatMap (leaves S) = q :=
        flatMap_leaves_of_not_pos fun c listed above => pos (above.trans_le (chooses.le q c listed))
      rw [flat]
      refine ⟨fun many => absurd go.1 (Nat.not_le.mpr many), fun _ => ⟨q, .refl q, ?_⟩⟩
      exact (run_step go.1 go.2).symm
  | case2 q stops =>
    by_cases room : q.length ≤ budget
    · have stuck : ¬ S.canSplit (top q) := fun can => stops ⟨room, can⟩
      have flat : q.flatMap (leaves S) = q :=
        flatMap_leaves_of_not_pos fun c listed above => stuck (able _ (above.trans_le (chooses.le q c listed)))
      rw [flat]
      exact ⟨fun many => absurd room (Nat.not_le.mpr many), fun _ => ⟨q, .refl q, (run_stop stops).symm⟩⟩
    · have := @length_le_leaves α R _ _ S q
      exact ⟨fun _ => by omega, fun few => by omega⟩

end Leaves

/-! ### Using the budget up -/

section Budget

variable [LinearOrder R] [Zero R]

/-- Cells of positive score can be split, the others have at most two atoms. -/
structure Shallow (S : Splitter α R) (count : α → ℕ) : Prop where
  nonneg : ∀ c, 0 ≤ S.score c
  able : ∀ c, 0 < S.score c → S.canSplit c
  atoms : ∀ c can, ¬ 0 < S.score c → ¬ S.canSplit (S.split c can).1 ∧ ¬ S.canSplit (S.split c can).2
  count_atom : ∀ c, ¬ S.canSplit c → count c = 1
  count_split : ∀ c can, count c = count (S.split c can).1 + count (S.split c can).2

/-- The budget ends before the leaves are reached, or no leaf can be split, or all of them can
and one more split is all that is left to do. -/
def Suffices (S : Splitter α R) (budget : ℕ) (root : α) : Prop :=
  budget < (leaves S root).length ∨ (∀ c ∈ leaves S root, ¬ S.canSplit c) ∨
    ((∀ c ∈ leaves S root, S.canSplit c) ∧ ((leaves S root).length = 1 ∨ budget = (leaves S root).length))

variable {S : Splitter α R} {count : α → ℕ} {top : List α → α} {budget : ℕ} {q : List α} {root c : α}

theorem Shallow.score_eq_zero (shallow : Shallow S count) (small : ¬ 0 < S.score c) : S.score c = 0 :=
  le_antisymm (not_lt.mp small) (shallow.nonneg c)

theorem Shallow.count_pair (shallow : Shallow S count) (small : ¬ 0 < S.score c) (can : S.canSplit c) :
    count c = 2 := by
  obtain ⟨left, right⟩ := shallow.atoms c can small
  rw [shallow.count_split c can, shallow.count_atom _ left, shallow.count_atom _ right]

/-- The atoms of a cell are those of its leaves. -/
theorem Shallow.sum_count_leaves (shallow : Shallow S count) (c : α) : ((leaves S c).map count).sum = count c := by
  induction c using leaves.induct S with
  | case1 c big left right =>
    rw [leaves_of_pos big.1 big.2, List.map_append, List.sum_append, left, right, shallow.count_split c big.2]
  | case2 c small =>
    rw [leaves, dif_neg small]
    exact List.sum_singleton

theorem Shallow.one_le_count (shallow : Shallow S count) (small : ¬ 0 < S.score c) : 1 ≤ count c := by
  by_cases can : S.canSplit c
  · rw [shallow.count_pair small can]
    exact Nat.le_succ 1
  · rw [shallow.count_atom c can]

theorem sum_count_eq {k : ℕ} (all : ∀ c ∈ q, count c = k) : (q.map count).sum = q.length * k := by
  rw [List.map_congr_left all, List.map_const', List.sum_replicate, nsmul_eq_mul, Nat.cast_id]

theorem Shallow.length_leaves_le (shallow : Shallow S count) (c : α) : (leaves S c).length ≤ count c := by
  have counts : ((leaves S c).map count).length ≤ ((leaves S c).map count).sum := by
    refine List.length_le_sum_of_one_le _ fun k mem => ?_
    obtain ⟨leaf, listed, rfl⟩ := List.mem_map.mp mem
    exact shallow.one_le_count (not_pos_of_mem_leaves shallow.able listed)
  rwa [List.length_map, shallow.sum_count_leaves] at counts

/-- A leaf that can be split has an atom more. -/
theorem Shallow.length_lt_sum (shallow : Shallow S count) (small : ∀ c ∈ q, ¬ 0 < S.score c)
    (some : ∃ c ∈ q, S.canSplit c) : q.length < (q.map count).sum := by
  have ones : (q.map fun _ => 1).sum = q.length := by simp
  rw [← ones]
  refine List.sum_lt_sum _ _ (fun c mem => shallow.one_le_count (small c mem)) ?_
  obtain ⟨c, mem, can⟩ := some
  refine ⟨c, mem, ?_⟩
  rw [shallow.count_pair (small c mem) can]
  exact Nat.lt_succ_self 1

/-- One split ends the run if it uses the budget up or there was one cell only. -/
theorem Shallow.length_run_of_all (shallow : Shallow S count) (chooses : Chooses S.score top) (some : q ≠ [])
    (small : ∀ c ∈ q, ¬ 0 < S.score c) (all : ∀ c ∈ q, S.canSplit c) (room : q.length ≤ budget)
    (last : q.length = 1 ∨ budget = q.length) : (run S top budget q).length = q.length + 1 := by
  classical
  have mem := chooses.mem q some
  obtain ⟨left, right⟩ := shallow.atoms _ (all _ mem) (small _ mem)
  rw [run_step room (all _ mem)]
  rcases last with single | full
  · obtain ⟨c, rfl⟩ := List.length_eq_one_iff.mp single
    have top_eq := List.mem_singleton.mp mem
    rw [run_of_none chooses (List.cons_ne_nil _ _), length_step mem]
    intro d listed
    simp only [top_eq, List.erase_cons_head, List.mem_cons, List.not_mem_nil, or_false] at listed
    rcases listed with rfl | rfl
    · simpa only [top_eq] using right
    · simpa only [top_eq] using left
  · rw [run_stop, length_step mem]
    rw [length_step mem]
    omega

/-- The worst choice stops at the first cell that cannot be split. -/
theorem Shallow.run_worst (shallow : Shallow S count) (small : ∀ c ∈ q, ¬ 0 < S.score c) (mem : c ∈ q)
    (cannot : ¬ S.canSplit c)
    (worst : ∀ q, ∀ c ∈ q, ¬ S.canSplit c → (∀ d ∈ q, S.score d ≤ S.score c) → ¬ S.canSplit (top q)) :
    run S top budget q = q := by
  refine run_stop fun go => worst q c mem cannot (fun d listed => ?_) go.2
  rw [shallow.score_eq_zero (small d listed), shallow.score_eq_zero (small c mem)]

/-- A run that reaches the leaves goes on from them. -/
theorem Shallow.run_root (shallow : Shallow S count) (chooses : Chooses S.score top)
    (few : (leaves S root).length ≤ budget) :
    ∃ q, q.Perm (leaves S root) ∧ q ≠ [] ∧ (∀ c ∈ q, ¬ 0 < S.score c) ∧ (q.map count).sum = count root ∧
      run S top budget [root] = run S top budget q := by
  have flat : [root].flatMap (leaves S) = leaves S root := List.flatMap_singleton _ _
  obtain ⟨q, perm, eq⟩ := (run_leaves chooses shallow.able (List.cons_ne_nil root []) (by simp)).2 (flat ▸ few)
  rw [flat] at perm
  refine ⟨q, perm, ?_, ?_, ?_, eq⟩
  · exact List.ne_nil_of_length_pos (perm.length_eq ▸ length_leaves_pos root)
  · exact fun c mem => not_pos_of_mem_leaves shallow.able (perm.mem_iff.mp mem)
  · rw [(perm.map count).sum_eq, shallow.sum_count_leaves]

theorem Shallow.length_run_of_suffices (shallow : Shallow S count) (chooses : Chooses S.score top)
    (enough : Suffices S budget root) : (run S top budget [root]).length = min (budget + 1) (count root) := by
  rcases Nat.lt_or_ge budget (leaves S root).length with many | few
  · have flat : [root].flatMap (leaves S) = leaves S root := List.flatMap_singleton _ _
    have full := (run_leaves chooses shallow.able (List.cons_ne_nil root []) (by simp)).1 (flat.symm ▸ many)
    have le := shallow.length_leaves_le root
    omega
  · obtain ⟨q, perm, some, small, total, eq⟩ := shallow.run_root chooses few
    rw [eq]
    rcases enough with many | none | ⟨all, last⟩
    · exact absurd few (Nat.not_le.mpr many)
    · have none : ∀ c ∈ q, ¬ S.canSplit c := fun c mem => none c (perm.mem_iff.mp mem)
      rw [run_of_none chooses some none]
      rw [sum_count_eq fun c mem => shallow.count_atom c (none c mem)] at total
      rw [← perm.length_eq] at few
      omega
    · have all : ∀ c ∈ q, S.canSplit c := fun c mem => all c (perm.mem_iff.mp mem)
      rw [← perm.length_eq] at few last
      rw [shallow.length_run_of_all chooses some small all few last]
      rw [sum_count_eq fun c mem => shallow.count_pair (small c mem) (all c mem)] at total
      have pos := List.length_pos_of_ne_nil some
      omega

/-- The first of several pairs leaves two atoms, at which the worst choice stops. -/
theorem Shallow.length_run_worst_of_all (shallow : Shallow S count) (chooses : Chooses S.score top)
    (worst : ∀ q, ∀ c ∈ q, ¬ S.canSplit c → (∀ d ∈ q, S.score d ≤ S.score c) → ¬ S.canSplit (top q))
    (some : q ≠ []) (small : ∀ c ∈ q, ¬ 0 < S.score c) (all : ∀ c ∈ q, S.canSplit c) (room : q.length ≤ budget) :
    (run S top budget q).length = q.length + 1 := by
  classical
  have mem := chooses.mem q some
  obtain ⟨left, right⟩ := shallow.atoms _ (all _ mem) (small _ mem)
  rw [run_step room (all _ mem), shallow.run_worst ?_ List.mem_cons_self right worst, length_step mem]
  intro c listed pos
  rcases List.mem_cons.mp listed with rfl | listed
  · exact right (shallow.able _ pos)
  · rcases List.mem_cons.mp listed with rfl | listed
    · exact left (shallow.able _ pos)
    · exact small c (List.mem_of_mem_erase listed) pos

/-- **When the budget is used up** whatever the queue chooses among cells of equal score. -/
theorem Shallow.run_length_iff (shallow : Shallow S count) (budget : ℕ) (root : α) :
    (∀ top, Chooses S.score top → (run S top budget [root]).length = min (budget + 1) (count root)) ↔
      Suffices S budget root := by
  constructor
  · intro every
    by_contra fails
    unfold Suffices at fails
    push Not at fails
    obtain ⟨few, ⟨pair, listed, can⟩, unfinished⟩ := fails
    obtain ⟨top, chooses, worst⟩ := exists_worst S root
    have reached := every top chooses
    obtain ⟨q, perm, some, small, total, eq⟩ := shallow.run_root chooses few
    have more := shallow.length_lt_sum small ⟨pair, perm.mem_iff.mpr listed, can⟩
    rw [eq] at reached
    rw [← perm.length_eq] at few unfinished
    by_cases all : ∀ c ∈ q, S.canSplit c
    · rw [shallow.length_run_worst_of_all chooses worst some small all few] at reached
      rw [sum_count_eq fun c mem => shallow.count_pair (small c mem) (all c mem)] at total
      obtain ⟨several, room⟩ := unfinished fun c mem => all c (perm.mem_iff.mpr mem)
      have pos := List.length_pos_of_ne_nil some
      omega
    · push Not at all
      obtain ⟨stuck, mem, cannot⟩ := all
      rw [shallow.run_worst small mem cannot worst] at reached
      omega
  · intro enough top chooses
    exact shallow.length_run_of_suffices chooses enough

end Budget

end Cmicot.Splitting
