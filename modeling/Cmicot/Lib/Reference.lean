import Cmicot.Lib.Loop

/-!
Calls with a state passed by reference.

`Reference ε σ α` is a fallible call on a state of the caller: unlike a function that returns
the new state, it leaves a state behind when it fails, too. `outcome` forgets that state, and is
a homomorphism to the functions from states to `Except`, so that a call by reference can be
compared with its pure version step by step.
-/

namespace Cmicot.Loop

variable {ε σ α β τ : Type}

/-- A fallible call on a state of the caller. -/
abbrev Reference (ε σ α : Type) := ExceptT ε (StateM σ) α

namespace Reference

/-- The result or the failure of a call, and the state it leaves. -/
def call (x : Reference ε σ α) (s : σ) : Except ε α × σ := StateT.run (ExceptT.run x) s

/-- What a call does, without the state a failed one leaves. -/
def outcome (x : Reference ε σ α) (s : σ) : Except ε (α × σ) :=
  (x.call s).1.map fun a => (a, (x.call s).2)

variable {x : Reference ε σ α} {f : α → Reference ε σ β} {s s' : σ} {a : α}

theorem outcome_eq_ok : x.outcome s = .ok (a, s') ↔ x.call s = (.ok a, s') := by
  rw [outcome]
  cases called : x.call s with
  | mk result after =>
    cases result <;> simp [Except.map]

theorem call_bind : (x >>= f).call s =
    match x.call s with
    | (.ok a, s') => (f a).call s'
    | (.error e, s') => (.error e, s') := by
  change (match StateT.run (ExceptT.run x) s with | (r, s') => StateT.run (ExceptT.bindCont f r) s') = _
  rw [call]
  cases StateT.run (ExceptT.run x) s with
  | mk result after => cases result <;> rfl

@[simp] theorem outcome_bind : (x >>= f).outcome s = x.outcome s >>= fun p => (f p.1).outcome p.2 := by
  rw [outcome, outcome, call_bind]
  cases x.call s with
  | mk result after => cases result <;> rfl

@[simp] theorem outcome_pure : (pure a : Reference ε σ α).outcome s = .ok (a, s) := rfl

@[simp] theorem outcome_get : (get : Reference ε σ σ).outcome s = .ok (s, s) := rfl

@[simp] theorem outcome_set : (set s' : Reference ε σ PUnit).outcome s = .ok (⟨⟩, s') := rfl

@[simp] theorem outcome_throw {e : ε} : (throw e : Reference ε σ α).outcome s = .error e := rfl

@[simp] theorem outcome_lift {y : Except ε α} :
    (liftM y : Reference ε σ α).outcome s = y >>= fun a => .ok (a, s) := by
  cases y <;> rfl

/-- A call that only reads the state leaves it as it is. -/
theorem call_read (y : σ → Except ε α) :
    (do liftM (y (← get)) : Reference ε σ α).call s = (y s, s) := by
  change (liftM (y s) : Reference ε σ α).call s = (y s, s)
  cases y s <;> rfl

/-- `for (step = i; step < i + k; ++step)` on a state of the caller. -/
def forCalls (body : ℕ → τ → Reference ε σ τ) : ℕ → ℕ → τ → Reference ε σ τ
  | _, 0, st => pure st
  | step, k + 1, st => body step st >>= forCalls body (step + 1) k

/-- The loop over calls is the loop over their outcomes. -/
theorem outcome_forCalls (body : ℕ → τ → Reference ε σ τ) (i k : ℕ) (st : τ) :
    (forCalls body i k st).outcome s =
      forSteps (fun step (p : τ × σ) => (body step p.1).outcome p.2) i k (st, s) := by
  induction k generalizing i st s with
  | zero => rfl
  | succ k ih =>
    rw [forCalls, outcome_bind, forSteps]
    exact bind_congr fun p => ih (i + 1) p.1

end Reference

end Cmicot.Loop
