import Cmicot.Lib.Loop
import Mathlib.Algebra.BigOperators.Group.List.Basic
import Mathlib.Algebra.Order.Ring.Nat

/-!
A queue of tasks.

A task is taken from the front, changes the state and puts further tasks at the end. The loop
ends because the new tasks are together smaller than the one that was taken.

* `drain_ok`: total correctness; the invariant sees the tasks that are still waiting.
-/

namespace Cmicot.Worklist

open Loop

variable {τ σ ε : Type}

/-- Takes at most `passes` tasks; `stuck` if some are left then. -/
def drain (task : τ → σ → Except ε (List τ × σ)) (stuck : ε) : ℕ → List τ → σ → Except ε σ
  | _, [], st => .ok st
  | 0, _ :: _, _ => .error stuck
  | passes + 1, t :: waiting, st => do
    let (more, st) ← task t st
    drain task stuck passes (waiting ++ more) st

/-- **A queue runs empty** if every task succeeds, keeps the invariant and spawns less than itself. -/
theorem drain_ok {task : τ → σ → Except ε (List τ × σ)} {stuck : ε} {I : List τ → σ → Prop} (size : τ → ℕ)
    (next : ∀ t waiting st, I (t :: waiting) st →
      ∃ more st', task t st = .ok (more, st') ∧ (more.map size).sum < size t ∧ I (waiting ++ more) st')
    {passes : ℕ} {queue : List τ} {st : σ} (start : I queue st) (enough : (queue.map size).sum ≤ passes) :
    ∃ st', drain task stuck passes queue st = .ok st' ∧ I [] st' := by
  induction passes generalizing queue st with
  | zero =>
    cases queue with
    | nil => exact ⟨st, rfl, start⟩
    | cons t waiting =>
      obtain ⟨more, st', -, less, -⟩ := next t waiting st start
      rw [List.map_cons, List.sum_cons] at enough
      omega
  | succ passes ih =>
    cases queue with
    | nil => exact ⟨st, rfl, start⟩
    | cons t waiting =>
      obtain ⟨more, st', ran, less, held⟩ := next t waiting st start
      rw [List.map_cons, List.sum_cons] at enough
      obtain ⟨final, rest, done⟩ := ih held (by rw [List.map_append, List.sum_append]; omega)
      exact ⟨final, by rw [drain, ran, ok_bind]; exact rest, done⟩

end Cmicot.Worklist
