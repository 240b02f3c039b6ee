import Mathlib.Data.Nat.Notation
import Mathlib.Data.Option.Basic
import Mathlib.Data.List.Forall2

/-!
Counted loops and folds over a fallible body.

`forSteps body i k st` is `for (step = i; step < i + k; ++step)` with an explicit
loop state and early exit on failure. Three rules cover every use:

* `forSteps_ok`: the loop runs to its end, carrying an invariant;
* `forSteps_inv`: an invariant of successful iterations survives a successful loop;
* `Ends.forSteps`: the loop ends with its invariant or with a failure of a known kind.

The `foldlM` rules are the same three statements for a loop over a list, and `foldlM_error_iff`
says where one fails. `Always g P st` is about loops that emit: `P` holds of every state reached.
-/

namespace Cmicot.Loop

variable {ε σ α β : Type}

@[simp] theorem bind_eq_ok {x : Except ε α} {f : α → Except ε β} {b : β} :
    (x >>= f) = .ok b ↔ ∃ a, x = .ok a ∧ f a = .ok b := by
  cases x <;> simp [bind, Except.bind]

@[simp] theorem ok_bind {a : α} {f : α → Except ε β} : ((.ok a : Except ε α) >>= f) = f a := rfl

@[simp] theorem error_bind {e : ε} {f : α → Except ε β} :
    ((.error e : Except ε α) >>= f) = .error e := rfl

@[simp] theorem pure_eq_ok {a : α} : (pure a : Except ε α) = .ok a := rfl

@[simp] theorem throw_eq_error {e : ε} : (throw e : Except ε α) = .error e := rfl

/-- A check that throws was passed. -/
theorem guard_eq_ok {c : Prop} [Decidable c] {e : ε} {f : PUnit → Except ε β} {b : β} :
    (if c then (throw e >>= f) else f ⟨⟩) = .ok b ↔ ¬ c ∧ f ⟨⟩ = .ok b := by
  by_cases h : c <;> simp [h]

/-- A counted loop from `step` on with `k` iterations left. -/
def forSteps (body : ℕ → σ → Except ε σ) : ℕ → ℕ → σ → Except ε σ
  | _, 0, st => .ok st
  | step, k + 1, st => body step st >>= forSteps body (step + 1) k

variable {b : ℕ → σ → Except ε σ} {I : ℕ → σ → Prop}

/-- Total correctness: every iteration succeeds and moves the invariant on by one. -/
theorem forSteps_ok {j k : ℕ} {s : σ} (start : I j s)
    (next : ∀ i s, j ≤ i → i < j + k → I i s → ∃ s', b i s = .ok s' ∧ I (i + 1) s') :
    ∃ s', forSteps b j k s = .ok s' ∧ I (j + k) s' := by
  induction k generalizing j s with
  | zero => exact ⟨s, rfl, start⟩
  | succ k ih =>
    obtain ⟨mid, ran, held⟩ := next j s (Nat.le_refl _) (by omega) start
    obtain ⟨s', rest, final⟩ := ih held fun i s low high => next i s (by omega) (by omega)
    refine ⟨s', ?_, ?_⟩
    · simpa [forSteps, ran] using rest
    · rwa [show j + (k + 1) = j + 1 + k by omega]

/-- Partial correctness: what successful iterations preserve holds after the loop. -/
theorem forSteps_inv {j k : ℕ} {s s' : σ} (ran : forSteps b j k s = .ok s')
    (start : I j s)
    (next : ∀ i s s', I i s → b i s = .ok s' → I (i + 1) s') : I (j + k) s' := by
  induction k generalizing j s with
  | zero =>
    cases ran
    exact start
  | succ k ih =>
    obtain ⟨mid, first, rest⟩ := bind_eq_ok.mp ran
    have final := ih rest (next j s mid start first)
    rwa [show j + (k + 1) = j + 1 + k by omega]

/-- Loops over states that correspond. -/
theorem forSteps_map {τ : Type} {g : σ → τ} {b' : ℕ → τ → Except ε τ} (same : ∀ i s, b' i (g s) = g <$> b i s)
    (j k : ℕ) (s : σ) : forSteps b' j k (g s) = g <$> forSteps b j k s := by
  induction k generalizing j s with
  | zero => rfl
  | succ k ih =>
    rw [forSteps, forSteps, same]
    cases b j s with
    | error e => rfl
    | ok s' => exact ih (j + 1) s'

/-! ### Folds over a list -/

variable {f : σ → α → Except ε σ}

/-- Total correctness of a fold; the invariant sees the part already consumed. -/
theorem foldlM_ok {P : List α → σ → Prop} {l : List α} {s : σ} (start : P [] s)
    (next : ∀ done x s, x ∈ l → done.length < l.length → P done s →
      ∃ s', f s x = .ok s' ∧ P (done ++ [x]) s') :
    ∃ s', l.foldlM f s = .ok s' ∧ P l s' := by
  suffices general : ∀ done rest s, done ++ rest = l → P done s →
      ∃ s', rest.foldlM f s = .ok s' ∧ P l s' from general [] l s rfl start
  intro done rest
  induction rest generalizing done with
  | nil =>
    intro s whole held
    exact ⟨s, rfl, by simpa [← whole] using held⟩
  | cons x rest ih =>
    intro s whole held
    obtain ⟨mid, ran, held'⟩ := next done x s (by simp [← whole]) (by simp [← whole]) held
    obtain ⟨s', final, goal⟩ := ih (done ++ [x]) mid (by simp [← whole]) held'
    exact ⟨s', by simpa [List.foldlM_cons, ran] using final, goal⟩

/-- Total correctness of a fold over `0, ..., n - 1`. -/
theorem foldlM_range_ok {f : σ → ℕ → Except ε σ} {n : ℕ} {s : σ} (start : I 0 s)
    (next : ∀ i < n, ∀ s, I i s → ∃ s', f s i = .ok s' ∧ I (i + 1) s') :
    ∃ s', (List.range n).foldlM f s = .ok s' ∧ I n s' := by
  induction n with
  | zero => exact ⟨s, rfl, start⟩
  | succ n ih =>
    obtain ⟨mid, ran, held⟩ := ih fun i lt => next i (by omega)
    obtain ⟨s', last, held'⟩ := next n (by omega) mid held
    refine ⟨s', ?_, held'⟩
    simp only [List.range_succ, List.foldlM_append, ran, ok_bind, List.foldlM_cons, last, List.foldlM_nil,
      pure_eq_ok]

theorem foldlM_congr {f g : σ → α → Except ε σ} {l : List α} {s : σ}
    (same : ∀ s, ∀ x ∈ l, f s x = g s x) : l.foldlM f s = l.foldlM g s := by
  induction l generalizing s with
  | nil => rfl
  | cons x l ih =>
    simp only [List.foldlM_cons, same s x List.mem_cons_self]
    exact congrArg _ (funext fun s' => ih fun s y mem => same s y (List.mem_cons_of_mem _ mem))

/-- Partial correctness of a fold. -/
theorem foldlM_inv {P : List α → σ → Prop} {l : List α} {s s' : σ}
    (ran : l.foldlM f s = .ok s') (start : P [] s)
    (next : ∀ done x s s', x ∈ l → P done s → f s x = .ok s' → P (done ++ [x]) s') : P l s' := by
  suffices general : ∀ done rest s, done ++ rest = l → P done s →
      rest.foldlM f s = .ok s' → P l s' from general [] l s rfl start ran
  intro done rest
  induction rest generalizing done with
  | nil =>
    intro s whole held final
    cases final
    simpa [← whole] using held
  | cons x rest ih =>
    intro s whole held final
    obtain ⟨mid, first, final'⟩ := bind_eq_ok.mp (by simpa [List.foldlM_cons] using final)
    exact ih (done ++ [x]) mid (by simp [← whole])
      (next done x s mid (by simp [← whole]) held first) final'

/-- A fallible map whose calls all succeed. -/
theorem mapM_ok {g : α → Except ε β} {h : α → β} {xs : List α} (total : ∀ x ∈ xs, g x = .ok (h x)) :
    xs.mapM g = .ok (xs.map h) := by
  induction xs with
  | nil => rfl
  | cons x xs ih =>
    have rest := ih fun y hy => total y (List.mem_cons_of_mem _ hy)
    simp [List.mapM_cons, total x List.mem_cons_self, rest]

/-- The calls behind a fallible map that succeeded. -/
theorem mapM_inv {g : α → Except ε β} {xs : List α} {ys : List β} (ran : xs.mapM g = .ok ys) :
    ys.length = xs.length ∧ (∀ x ∈ xs, ∃ y ∈ ys, g x = .ok y) ∧ ∀ y ∈ ys, ∃ x ∈ xs, g x = .ok y := by
  induction xs generalizing ys with
  | nil =>
    cases ran
    simp
  | cons x xs ih =>
    rw [List.mapM_cons] at ran
    obtain ⟨y, first, rest⟩ := bind_eq_ok.mp ran
    obtain ⟨zs, others, last⟩ := bind_eq_ok.mp rest
    cases last
    obtain ⟨length, results, calls⟩ := ih others
    refine ⟨by rw [List.length_cons, List.length_cons, length], ?_, ?_⟩
    · rintro x' (_ | ⟨_, mem⟩)
      · exact ⟨y, List.mem_cons_self, first⟩
      · obtain ⟨y', mem', ran⟩ := results x' mem
        exact ⟨y', List.mem_cons_of_mem _ mem', ran⟩
    · rintro y' (_ | ⟨_, mem⟩)
      · exact ⟨x, List.mem_cons_self, first⟩
      · obtain ⟨x', mem', ran⟩ := calls y' mem
        exact ⟨x', List.mem_cons_of_mem _ mem', ran⟩

/-- A fold that fails does so at an element, behind others that it has passed. -/
theorem foldlM_error_iff {l : List α} {s : σ} {e : ε} : l.foldlM f s = .error e ↔
    ∃ done x rest mid, l = done ++ x :: rest ∧ done.foldlM f s = .ok mid ∧ f mid x = .error e := by
  constructor
  case mpr =>
    rintro ⟨done, x, rest, mid, rfl, passed, failed⟩
    rw [List.foldlM_append, passed, ok_bind, List.foldlM_cons, failed, error_bind]
  intro ran
  induction l generalizing s with
  | nil => cases ran
  | cons x l ih =>
    rw [List.foldlM_cons] at ran
    cases first : f s x with
    | error e' =>
      rw [first] at ran
      cases ran
      exact ⟨[], x, l, s, rfl, rfl, first⟩
    | ok next =>
      rw [first, ok_bind] at ran
      obtain ⟨done, y, rest, mid, split, passed, failed⟩ := ih ran
      exact ⟨x :: done, y, rest, mid, by rw [split, List.cons_append],
        by rw [List.foldlM_cons, first, ok_bind, passed], failed⟩

/-- A map that fails does so at an element, behind others that it has passed. -/
theorem mapM_error_iff {g : α → Except ε β} {l : List α} {e : ε} : l.mapM g = .error e ↔
    ∃ done x rest, l = done ++ x :: rest ∧ (∀ y ∈ done, ∃ b, g y = .ok b) ∧ g x = .error e := by
  induction l with
  | nil => exact ⟨fun ran => (by cases ran), by simp⟩
  | cons x l ih =>
    rw [List.mapM_cons]
    constructor
    · intro ran
      cases first : g x with
      | error e' =>
        rw [first] at ran
        cases ran
        exact ⟨[], x, l, rfl, by simp, first⟩
      | ok b =>
        rw [first, ok_bind] at ran
        cases others : l.mapM g with
        | ok bs =>
          rw [others] at ran
          cases ran
        | error e' =>
          rw [others] at ran
          cases ran
          obtain ⟨done, y, rest, split, passed, failed⟩ := ih.mp others
          refine ⟨x :: done, y, rest, by rw [split, List.cons_append], fun z mem => ?_, failed⟩
          rcases List.mem_cons.mp mem with rfl | mem
          · exact ⟨b, first⟩
          · exact passed z mem
    · rintro ⟨done, y, rest, split, passed, failed⟩
      cases done with
      | nil =>
        cases split
        rw [failed, error_bind]
      | cons z done =>
        cases split
        obtain ⟨b, first⟩ := passed x List.mem_cons_self
        have others := ih.mpr ⟨done, y, rest, rfl, fun z mem => passed z (List.mem_cons_of_mem _ mem), failed⟩
        rw [first, ok_bind, others, error_bind]

/-- A fold that maps every element first, if it succeeds, maps all of them and folds the results. -/
theorem foldlM_bind_inv {β : Type} {g : α → Except ε β} {h : σ → β → Except ε σ} {l : List α} {s s' : σ}
    (ran : l.foldlM (fun s x => do h s (← g x)) s = .ok s') :
    ∃ ys, l.mapM g = .ok ys ∧ ys.foldlM h s = .ok s' := by
  induction l generalizing s with
  | nil => exact ⟨[], rfl, ran⟩
  | cons x l ih =>
    rw [List.foldlM_cons] at ran
    obtain ⟨mid, step, rest⟩ := bind_eq_ok.mp ran
    obtain ⟨y, mapped, folded⟩ := bind_eq_ok.mp step
    obtain ⟨ys, others, behind⟩ := ih rest
    exact ⟨y :: ys, by rw [List.mapM_cons, mapped, ok_bind, others]; rfl,
      by rw [List.foldlM_cons, folded, ok_bind, behind]⟩

/-- Elements that are all mapped may be mapped before the fold. -/
theorem foldlM_bind_of_mapM {β : Type} {g : α → Except ε β} {h : σ → β → Except ε σ} {l : List α} {ys : List β}
    (mapped : l.mapM g = .ok ys) (s : σ) : l.foldlM (fun s x => do h s (← g x)) s = ys.foldlM h s := by
  induction l generalizing s ys with
  | nil =>
    cases mapped
    rfl
  | cons x l ih =>
    rw [List.mapM_cons] at mapped
    obtain ⟨y, first, rest⟩ := bind_eq_ok.mp mapped
    obtain ⟨ys', others, last⟩ := bind_eq_ok.mp rest
    cases last
    rw [List.foldlM_cons, List.foldlM_cons, first, ok_bind]
    exact congrArg _ (funext fun s => ih others s)

theorem filterM_ok {p : α → Except ε Bool} {q : α → Bool} {l : List α}
    (total : ∀ x ∈ l, p x = .ok (q x)) : l.filterM p = .ok (l.filter q) := by
  suffices general : ∀ acc, l.filterAuxM p acc = .ok ((l.filter q).reverse ++ acc) by
    simp [List.filterM, general]
  induction l with
  | nil => exact fun acc => rfl
  | cons x l ih =>
    intro acc
    rw [List.filterAuxM, total x List.mem_cons_self, ok_bind, ih fun y hy => total y (List.mem_cons_of_mem _ hy)]
    cases keep : q x <;> simp [keep]

/-! ### Outcomes -/

/-- How a computation ends: with a result that satisfies `P` or a failure that satisfies `E`. -/
def Ends (P : α → Prop) (E : ε → Prop) : Except ε α → Prop
  | .ok a => P a
  | .error e => E e

section Ends

variable {P : α → Prop} {Q : β → Prop} {E : ε → Prop} {x : Except ε α}

theorem Ends.bind {g : α → Except ε β} (first : Ends P E x) (rest : ∀ a, P a → Ends Q E (g a)) :
    Ends Q E (x >>= g) := by
  cases x with
  | ok a => exact rest a first
  | error e => exact first

theorem Ends.imp {P' : α → Prop} {E' : ε → Prop} (ends : Ends P E x) (result : ∀ a, P a → P' a)
    (failure : ∀ e, E e → E' e) : Ends P' E' x := by
  cases x with
  | ok a => exact result a ends
  | error e => exact failure e ends

theorem Ends.guard {c : Prop} [Decidable c] {e : ε} {g : PUnit → Except ε β} (failed : c → E e)
    (rest : ¬ c → Ends Q E (g ⟨⟩)) : Ends Q E (if c then throw e >>= g else g ⟨⟩) := by
  by_cases h : c
  · rw [if_pos h]
    exact failed h
  · rw [if_neg h]
    exact rest h

/-- A counted loop ends as its iterations do. -/
theorem Ends.forSteps {j k : ℕ} {s : σ} (start : I j s)
    (next : ∀ i s, j ≤ i → i < j + k → I i s → Ends (I (i + 1)) E (b i s)) :
    Ends (I (j + k)) E (forSteps b j k s) := by
  induction k generalizing j s with
  | zero => exact start
  | succ k ih =>
    refine (next j s (Nat.le_refl _) (by omega) start).bind fun mid held => ?_
    rw [show j + (k + 1) = j + 1 + k by omega]
    exact ih held fun i s low high => next i s (by omega) (by omega)

/-- A fold ends as its steps do. -/
theorem Ends.foldlM {P : List α → σ → Prop} {l : List α} {s : σ} (start : P [] s)
    (next : ∀ done x s, x ∈ l → done.length < l.length → P done s → Ends (P (done ++ [x])) E (f s x)) :
    Ends (P l) E (l.foldlM f s) := by
  suffices general : ∀ done rest s, done ++ rest = l → P done s →
      Ends (P l) E (rest.foldlM f s) from general [] l s rfl start
  intro done rest
  induction rest generalizing done with
  | nil =>
    intro s whole held
    rw [← whole, List.append_nil]
    exact held
  | cons x rest ih =>
    intro s whole held
    rw [List.foldlM_cons]
    refine (next done x s (by simp [← whole]) (by simp [← whole]) held).bind fun mid held' => ?_
    exact ih (done ++ [x]) mid (by simp [← whole]) held'

theorem Ends.mapM {g : α → Except ε β} {l : List α} (each : ∀ x ∈ l, Ends Q E (g x)) :
    Ends (fun ys => ∀ y ∈ ys, Q y) E (l.mapM g) := by
  induction l with
  | nil => exact fun y mem => absurd mem List.not_mem_nil
  | cons x l ih =>
    rw [List.mapM_cons]
    refine (each x List.mem_cons_self).bind fun y here => ?_
    refine (ih fun z mem => each z (List.mem_cons_of_mem _ mem)).bind fun ys others => ?_
    intro z mem
    rcases List.mem_cons.mp mem with rfl | mem
    · exact here
    · exact others z mem

end Ends

/-! ### Loops that emit -/

/-- What a loop has emitted, and why it stopped before its end if it did. -/
structure Emitted (ε β : Type) where
  items : List β
  stopped : Option ε
deriving DecidableEq

/-- One more item in front. -/
def Emitted.cons (b : β) (out : Emitted ε β) : Emitted ε β := ⟨b :: out.items, out.stopped⟩

/-- `k` rounds; every round emits one item, a failing round ends the loop. -/
def emitLoop (round : σ → Except ε (β × σ)) : ℕ → σ → Emitted ε β
  | 0, _ => ⟨[], none⟩
  | k + 1, st =>
    match round st with
    | .ok (b, st') => (emitLoop round k st').cons b
    | .error e => ⟨[], some e⟩

/-- The state after `k` rounds. -/
def stateAfter (round : σ → Except ε (β × σ)) : ℕ → σ → Except ε σ
  | 0, st => .ok st
  | k + 1, st => round st >>= fun next => stateAfter round k next.2

section Emit

variable {ε' σ' : Type} {g : σ → Except ε (β × σ)} {h : σ' → Except ε' (β × σ')}

/-- The last of `k + 1` rounds. -/
theorem stateAfter_succ {k : ℕ} {st next : σ} :
    stateAfter g (k + 1) st = .ok next ↔
      ∃ mid b, stateAfter g k st = .ok mid ∧ g mid = .ok (b, next) := by
  induction k generalizing st with
  | zero => simp [stateAfter]
  | succ k ih =>
    rw [stateAfter, bind_eq_ok]
    simp only [ih]
    rw [stateAfter]
    simp only [bind_eq_ok]
    constructor
    · rintro ⟨first, ran, mid, b, after, last⟩
      exact ⟨mid, b, ⟨first, ran, after⟩, last⟩
    · rintro ⟨mid, b, ⟨first, ran, after⟩, last⟩
      exact ⟨first, ran, mid, b, after, last⟩

/-- A loop with more rounds emits more at the end. -/
theorem emitLoop_prefix {k k' : ℕ} (le : k ≤ k') (st : σ) :
    (emitLoop g k st).items <+: (emitLoop g k' st).items := by
  induction k generalizing k' st with
  | zero => exact List.nil_prefix
  | succ k ih =>
    cases k' with
    | zero => omega
    | succ k' =>
      simp only [emitLoop]
      split
      · exact (List.prefix_cons_inj _).mpr (ih (by omega) _)
      · exact List.prefix_refl _

/-- A loop that stopped early failed in a round it had reached. -/
theorem emitLoop_stopped {n : ℕ} {st : σ} {e : ε} (stopped : (emitLoop g n st).stopped = some e) :
    ∃ k < n, ∃ mid, stateAfter g k st = .ok mid ∧ g mid = .error e := by
  induction n generalizing st with
  | zero => cases stopped
  | succ n ih =>
    cases ran : g st with
    | error why =>
      simp only [emitLoop, ran, Option.some.injEq] at stopped
      exact ⟨0, Nat.succ_pos n, st, rfl, by rw [ran, stopped]⟩
    | ok next =>
      simp only [emitLoop, ran, Emitted.cons] at stopped
      obtain ⟨k, lt, mid, after, failed⟩ := ih stopped
      exact ⟨k + 1, Nat.succ_lt_succ lt, mid, by rw [stateAfter, ran]; exact after, failed⟩

/-- A loop that was not stopped got through every round. -/
theorem emitLoop_completed {n : ℕ} {st : σ} (completed : (emitLoop g n st).stopped = none) {k : ℕ}
    (lt : k < n) {mid : σ} (after : stateAfter g k st = .ok mid) : ∃ next, g mid = .ok next := by
  induction n generalizing st k with
  | zero => omega
  | succ n ih =>
    cases ran : g st with
    | error why => simp [emitLoop, ran] at completed
    | ok next =>
      simp only [emitLoop, ran, Emitted.cons] at completed
      cases k with
      | zero =>
        cases after
        exact ⟨next, ran⟩
      | succ k =>
        rw [stateAfter, ran] at after
        exact ih completed (Nat.lt_of_succ_lt_succ lt) after

/-- What every round preserves holds of every state reached. -/
theorem stateAfter_inv {P : σ → Prop} (next : ∀ st b st', P st → g st = .ok (b, st') → P st') {k : ℕ}
    {st mid : σ} (start : P st) (after : stateAfter g k st = .ok mid) : P mid := by
  induction k generalizing st with
  | zero =>
    cases after
    exact start
  | succ k ih =>
    obtain ⟨⟨b, st'⟩, ran, rest⟩ := bind_eq_ok.mp after
    exact ih (next st b st' start ran) rest

variable (g) in
/-- `P` holds of every state the loop reaches from `st`. -/
def Always (P : σ → Prop) (st : σ) : Prop := ∀ k mid, stateAfter g k st = .ok mid → P mid

theorem Always.here {P : σ → Prop} {st : σ} (always : Always g P st) : P st := always 0 st rfl

theorem Always.next {P : σ → Prop} {st next : σ} {b : β} (always : Always g P st)
    (ran : g st = .ok (b, next)) : Always g P next := fun k mid after =>
  always (k + 1) mid (by rw [stateAfter, ran]; exact after)

theorem always_of_ok {P : σ → Prop} {st next : σ} {b : β} (ran : g st = .ok (b, next)) :
    Always g P st ↔ P st ∧ Always g P next := by
  refine ⟨fun always => ⟨always.here, always.next ran⟩, fun ⟨here, later⟩ k mid after => ?_⟩
  cases k with
  | zero =>
    cases after
    exact here
  | succ k =>
    rw [stateAfter, ran] at after
    exact later k mid after

theorem always_of_error {P : σ → Prop} {st : σ} {e : ε} (failed : g st = .error e) :
    Always g P st ↔ P st := by
  refine ⟨Always.here, fun here k mid after => ?_⟩
  cases k with
  | zero =>
    cases after
    exact here
  | succ k =>
    rw [stateAfter, failed] at after
    cases after

variable (g) in
/-- `P` holds of every state of a loop that fails within `n` rounds. -/
def within (P : σ → Prop) [DecidablePred P] : ℕ → σ → Bool
  | 0, _ => false
  | n + 1, st => decide (P st) &&
    match g st with
    | .ok (_, next) => within P n next
    | .error _ => true

theorem always_of_within {P : σ → Prop} [DecidablePred P] {n : ℕ} {st : σ} (checked : within g P n st = true) :
    Always g P st := by
  induction n generalizing st with
  | zero => cases checked
  | succ n ih =>
    rw [within, Bool.and_eq_true, decide_eq_true_eq] at checked
    cases ran : g st with
    | error e => exact (always_of_error ran).mpr checked.1
    | ok next =>
      rw [ran] at checked
      exact (always_of_ok ran).mpr ⟨checked.1, ih checked.2⟩

/-- What every round preserves from states with `Q` holds of every state reached, if they all
have `Q`. -/
theorem Always.inv {P Q : σ → Prop} {st : σ} (always : Always g Q st) (start : P st)
    (next : ∀ st b st', P st → Q st → g st = .ok (b, st') → P st') : Always g P st := by
  intro k
  induction k with
  | zero =>
    intro mid after
    cases after
    exact start
  | succ k ih =>
    intro mid after
    obtain ⟨before, b, reached, ran⟩ := stateAfter_succ.mp after
    exact next before b mid (ih before reached) (always k before reached) ran

/-- Two loops that go through related states emit the same and stop in the same way. -/
theorem emitLoop_rel {R : σ → σ' → Prop} {S : ε → ε' → Prop}
    (step : ∀ st st', R st st' →
      (∃ b next next', g st = .ok (b, next) ∧ h st' = .ok (b, next') ∧ R next next') ∨
        ∃ e e', g st = .error e ∧ h st' = .error e' ∧ S e e')
    (k : ℕ) (st : σ) (st' : σ') (start : R st st') :
    (emitLoop g k st).items = (emitLoop h k st').items ∧
      Option.Rel S (emitLoop g k st).stopped (emitLoop h k st').stopped := by
  induction k generalizing st st' with
  | zero => exact ⟨rfl, .none⟩
  | succ k ih =>
    rcases step st st' start with ⟨b, next, next', ran, ran', held⟩ | ⟨e, e', failed, failed', stop⟩
    · obtain ⟨items, stopped⟩ := ih _ _ held
      simpa only [emitLoop, ran, ran', Emitted.cons, List.cons.injEq, true_and] using ⟨items, stopped⟩
    · simpa only [emitLoop, failed, failed', true_and] using .some stop

/-- Two loops that go through related states are in related states after every round. -/
theorem stateAfter_rel {R : σ → σ' → Prop} {S : ε → ε' → Prop}
    (step : ∀ st st', R st st' →
      (∃ b next next', g st = .ok (b, next) ∧ h st' = .ok (b, next') ∧ R next next') ∨
        ∃ e e', g st = .error e ∧ h st' = .error e' ∧ S e e')
    (k : ℕ) (st : σ) (st' : σ') (start : R st st') :
    (∃ next next', stateAfter g k st = .ok next ∧ stateAfter h k st' = .ok next' ∧
        R next next') ∨
      ∃ e e', stateAfter g k st = .error e ∧ stateAfter h k st' = .error e' := by
  induction k generalizing st st' with
  | zero => exact .inl ⟨st, st', rfl, rfl, start⟩
  | succ k ih =>
    rcases step st st' start with ⟨b, next, next', ran, ran', held⟩ | ⟨e, e', failed, failed', -⟩
    · simpa only [stateAfter, ran, ran', ok_bind] using ih _ _ held
    · exact .inr ⟨e, e', by simp [stateAfter, failed], by simp [stateAfter, failed']⟩

/-- Two loops that go through related states have related properties throughout. -/
theorem always_rel {R : σ → σ' → Prop} {S : ε → ε' → Prop} {P : σ → Prop} {Q : σ' → Prop}
    (step : ∀ st st', R st st' →
      (∃ b next next', g st = .ok (b, next) ∧ h st' = .ok (b, next') ∧ R next next') ∨
        ∃ e e', g st = .error e ∧ h st' = .error e' ∧ S e e')
    (same : ∀ st st', R st st' → (P st ↔ Q st')) {st : σ} {st' : σ'} (start : R st st') :
    Always g P st ↔ Always h Q st' := by
  refine ⟨fun always k mid after => ?_, fun always k mid after => ?_⟩ <;>
    rcases stateAfter_rel step k st st' start with ⟨next, next', ran, ran', held⟩ | ⟨e, e', failed, failed'⟩
  · obtain rfl := Except.ok.inj (after.symm.trans ran')
    exact (same next mid held).mp (always k next ran)
  · exact absurd (after.symm.trans failed') (by simp)
  · obtain rfl := Except.ok.inj (after.symm.trans ran)
    exact (same mid next' held).mpr (always k next' ran')
  · exact absurd (after.symm.trans failed) (by simp)

end Emit

end Cmicot.Loop
