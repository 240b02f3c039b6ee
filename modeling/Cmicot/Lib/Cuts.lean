import Mathlib.Algebra.BigOperators.Group.List.Basic
import Mathlib.Algebra.Order.Group.Int
import Mathlib.Data.List.Induction
import Mathlib.Order.Bounds.Basic
import Mathlib.Tactic.Linarith

/-!
Cutting a list into consecutive groups.

A cut of a list is a list of non-empty groups that are the list when put together. It can be
given by the positions after which one group ends and the next begins. The cost of a cut is the
sum of a penalty over the weights of its groups.

* `Convex.monge`: for a convex penalty, crossing groups cost more.
* `cutAt_concat`: one more position is one more group at the end.
* `isCut_cutAt`: increasing positions give a cut.
* `IsCut.concat`: the last group of a cut, and the cut of the rest.
-/

namespace Cmicot.Cuts

/-! ### Convex penalties -/

/-- No value is above the mean of its neighbours. -/
def Convex (P : ℤ → ℤ) : Prop := ∀ x, 2 * P x ≤ P (x - 1) + P (x + 1)

section Convex

variable {P : ℤ → ℤ}

theorem Convex.step_le (convex : Convex P) {a b : ℤ} (le : a ≤ b) : P (a + 1) - P a ≤ P (b + 1) - P b := by
  obtain ⟨n, rfl⟩ := Int.le.dest le
  induction n with
  | zero => simp
  | succ n ih =>
    have here := convex (a + (n + 1 : ℕ))
    have before := ih (by omega)
    rw [show a + ((n + 1 : ℕ) : ℤ) - 1 = a + n by omega] at here
    rw [show a + (n : ℤ) + 1 = a + ((n + 1 : ℕ) : ℤ) by omega] at before
    linarith

/-- **Differences grow.** -/
theorem Convex.difference_le (convex : Convex P) {a b h : ℤ} (le : a ≤ b) (nonneg : 0 ≤ h) :
    P (a + h) + P b ≤ P a + P (b + h) := by
  obtain ⟨n, rfl⟩ := Int.eq_ofNat_of_zero_le nonneg
  induction n with
  | zero => simp
  | succ n ih =>
    have step := convex.step_le (show a + (n : ℤ) ≤ b + n by omega)
    have before := ih (by omega)
    rw [show a + ((n + 1 : ℕ) : ℤ) = a + n + 1 by omega,
      show b + ((n + 1 : ℕ) : ℤ) = b + n + 1 by omega]
    linarith

/-- **Crossing groups cost more**: two ends and two starts are matched in order. -/
theorem Convex.monge (convex : Convex P) {a b c d : ℤ} (starts : a ≤ b) (ends : c ≤ d) :
    P (d - b) + P (c - a) ≤ P (c - b) + P (d - a) := by
  have := convex.difference_le (show c - b ≤ c - a by omega) (show 0 ≤ d - c by omega)
  rwa [show c - b + (d - c) = d - b by omega, show c - a + (d - c) = d - a by omega] at this

end Convex

/-! ### Cuts -/

section Cuts

variable {α : Type} {ws group : List α} {groups : List (List α)} {ts : List ℕ} {k start t : ℕ}

/-- `k` non-empty groups that are the list when put together. -/
structure IsCut (ws : List α) (k : ℕ) (groups : List (List α)) : Prop where
  whole : groups.flatten = ws
  count : groups.length = k
  nonempty : ∀ group ∈ groups, group ≠ []

/-- The groups behind `start` that end at the given positions, and the last one. -/
def cutAt (ws : List α) : ℕ → List ℕ → List (List α)
  | start, [] => [ws.drop start]
  | start, t :: ts => (ws.take (t + 1)).drop start :: cutAt ws (t + 1) ts

theorem length_cutAt : (cutAt ws start ts).length = ts.length + 1 := by
  induction ts generalizing start with
  | nil => rfl
  | cons t ts ih => rw [cutAt, List.length_cons, ih, List.length_cons]

/-- One more position is one more group at the end. -/
theorem cutAt_concat (before : ∀ s ∈ ts, s ≤ t) :
    cutAt ws start (ts ++ [t]) = cutAt (ws.take (t + 1)) start ts ++ [ws.drop (t + 1)] := by
  induction ts generalizing start with
  | nil => rfl
  | cons s ts ih =>
    have le := before s List.mem_cons_self
    rw [List.cons_append, cutAt, cutAt, ih fun s mem => before s (List.mem_cons_of_mem _ mem), List.take_take,
      Nat.min_eq_left (by omega), List.cons_append]

theorem flatten_cutAt (ordered : ts.Pairwise (· < ·)) (behind : ∀ t ∈ ts, start ≤ t) :
    (cutAt ws start ts).flatten = ws.drop start := by
  induction ts generalizing start with
  | nil => simp [cutAt]
  | cons t ts ih =>
    obtain ⟨first, ordered⟩ := List.pairwise_cons.mp ordered
    have le := behind t List.mem_cons_self
    rw [cutAt, List.flatten_cons, ih ordered fun s mem => first s mem, List.drop_take,
      show ws.drop (t + 1) = (ws.drop start).drop (t + 1 - start) by
        rw [List.drop_drop, Nat.add_sub_cancel' (by omega)],
      List.take_append_drop]

theorem nonempty_cutAt (ordered : ts.Pairwise (· < ·)) (behind : ∀ t ∈ ts, start ≤ t)
    (inside : ∀ t ∈ ts, t + 1 < ws.length) (some : start < ws.length) :
    ∀ group ∈ cutAt ws start ts, group ≠ [] := by
  induction ts generalizing start with
  | nil =>
    intro group mem
    rw [List.mem_singleton.mp mem]
    exact List.ne_nil_of_length_pos (by rw [List.length_drop]; omega)
  | cons t ts ih =>
    obtain ⟨first, ordered⟩ := List.pairwise_cons.mp ordered
    have le := behind t List.mem_cons_self
    have lt := inside t List.mem_cons_self
    intro group mem
    rcases List.mem_cons.mp mem with rfl | mem
    · exact List.ne_nil_of_length_pos (by rw [List.length_drop, List.length_take]; omega)
    · exact ih ordered (fun s listed => first s listed) (fun s listed => inside s (List.mem_cons_of_mem _ listed)) lt
        group mem

/-- **Increasing positions give a cut.** -/
theorem isCut_cutAt (ordered : ts.Pairwise (· < ·)) (inside : ∀ t ∈ ts, t + 1 < ws.length) (some : ws ≠ []) :
    IsCut ws (ts.length + 1) (cutAt ws 0 ts) :=
  ⟨by rw [flatten_cutAt ordered fun t _ => Nat.zero_le t, List.drop_zero], length_cutAt,
    nonempty_cutAt ordered (fun t _ => Nat.zero_le t) inside (List.length_pos_of_ne_nil some)⟩

/-- Groups that are not empty are at most as many as the elements. -/
theorem IsCut.le_length (cut : IsCut ws k groups) : k ≤ ws.length := by
  obtain ⟨rfl, rfl, nonempty⟩ := cut
  induction groups with
  | nil => exact Nat.zero_le _
  | cons group groups ih =>
    have rest := ih fun g mem => nonempty g (List.mem_cons_of_mem _ mem)
    have first := List.length_pos_of_ne_nil (nonempty group List.mem_cons_self)
    rw [List.length_cons, List.flatten_cons, List.length_append]
    omega

/-- **The last group of a cut**: the others cut what stands before it. -/
theorem IsCut.concat (cut : IsCut ws (k + 1) groups) :
    ∃ m earlier, groups = earlier ++ [ws.drop m] ∧ k ≤ m ∧ m < ws.length ∧ IsCut (ws.take m) k earlier := by
  obtain ⟨whole, count, nonempty⟩ := cut
  cases groups using List.reverseRecOn with
  | nil => cases count
  | append_singleton earlier last =>
    rw [List.flatten_append, List.flatten_singleton] at whole
    have earlierCut : IsCut earlier.flatten k earlier :=
      ⟨rfl, by simpa using count, fun g mem => nonempty g (List.mem_append_left _ mem)⟩
    have pos := List.length_pos_of_ne_nil (nonempty last (by simp))
    refine ⟨earlier.flatten.length, earlier, ?_, earlierCut.le_length, ?_, ?_⟩
    · rw [← whole, List.drop_left]
    · rw [← whole, List.length_append]
      omega
    · rwa [← whole, List.take_left]

end Cuts

/-! ### Costs -/

/-- The penalties of all groups together. -/
def cost (P : ℤ → ℤ) (groups : List (List ℤ)) : ℤ := (groups.map fun group => P group.sum).sum

theorem cost_concat (P : ℤ → ℤ) (groups : List (List ℤ)) (group : List ℤ) :
    cost P (groups ++ [group]) = cost P groups + P group.sum := by
  simp [cost]

end Cmicot.Cuts
