import Cmicot.Search.Recall

/-!
When the recorded steps are those from scratch.

At a fixed number of steps the searches of a repair always reach a best candidate, so that the
repaired steps are greedy up to ties; without ties they are the steps from scratch.

* `Problem.ReachedRun.tiesAgree_of_unique`: without ties the searches choose alike.
* `Problem.repaired_eq_of_unique`: a repair of steps from scratch is exact when no step is tied.
-/

namespace Cmicot.Search

open Greedy Loop

namespace Problem

variable {V : Type} [LinearOrder V] {P : Problem V} {chosen prev : List ℕ} {st : State V} {e f s sOld t : ℕ}

variable (P) in
/-- No step of the run from scratch is tied. -/
structure UniqueSteps (chosen : List ℕ) (e s : ℕ) : Prop where
  helpers : Pass.Strict (· > ·) (helperValue P.cmi e) (P.helperPool chosen e) (s - 1)
  conditions : Pass.Strict (· < ·)
    (conditionValue P.cmi e (elements (P.fromScratch chosen e s).maxSteps)) (P.enabledBins chosen) s

instance : Decidable (P.UniqueSteps chosen e s) :=
  decidable_of_iff (_ ∧ _) ⟨fun both => ⟨both.1, both.2⟩, fun unique => ⟨unique.helpers, unique.conditions⟩⟩

variable (P t) in
/-- No step of the round is tied. -/
def UniqueRound (st : State V) : Prop :=
  ∀ e ∈ P.disabledBins st.chosen, P.UniqueSteps st.chosen e (P.stepCount t st.chosen)

instance (st : State V) : Decidable (P.UniqueRound t st) :=
  inferInstanceAs (Decidable (∀ e ∈ P.disabledBins st.chosen, P.UniqueSteps ..))

variable (P t) in
/-- No step of any round is tied. -/
def UniqueRun (f : ℕ) : Prop := Always (P.fastRound t) (P.UniqueRound t) (P.start f)

/-- Without ties attained steps are the steps from scratch. -/
theorem UniqueSteps.eq_fromScratch {entry : Entry V} (unique : P.UniqueSteps chosen e s)
    (attained : P.AttainedOn chosen e entry) (valid : entry.Valid (P.helperPool chosen e) (P.enabledBins chosen))
    (room : s ≤ (P.enabledBins chosen).length) (maxLength : entry.maxSteps.length = s - 1)
    (minLength : entry.minSteps.length = s) : entry = P.fromScratch chosen e s := by
  have le := enabledBins_length_le P chosen e
  have helpers : entry.maxSteps = (P.fromScratch chosen e s).maxSteps :=
    unique.helpers.eq_greedy attained.helpers helperPool_sorted (by omega) maxLength valid.maxNodup
      valid.maxMem
  have conditions : entry.minSteps = (P.fromScratch chosen e s).minSteps :=
    unique.conditions.eq_greedy (helpers ▸ attained.conditions) enabledBins_sorted room minLength
      valid.minNodup valid.minMem
  calc entry = ⟨entry.maxSteps, entry.minSteps⟩ := rfl
    _ = P.fromScratch chosen e s := by rw [helpers, conditions]

/-- Where no step is tied, ties do not decide which feature is chosen. -/
theorem Warm.tiesAgree_of_unique (warm : P.Warm t st) (reached : P.ReachedRound t st) (unique : P.UniqueRound t st) :
    P.TiesAgree t st := by
  rw [TiesAgree, ← warm.fastBest reached]
  refine congrArg (Option.map P.owner) (pick_congr fun e mem => ?_)
  obtain ⟨repaired, ready, -⟩ := warm.bin mem
  obtain ⟨valid, maxLength, minLength⟩ := repair_valid P.cmi e ready
  have attained := warm.attainedRound_iff.mpr reached e mem
  rw [repaired] at attained ⊢
  rw [(unique e mem).eq_fromScratch attained valid ready.minRoom maxLength minLength]

theorem ReachedRun.tiesAgree_of_unique (reached : P.ReachedRun t f) (owned : P.ownedBins f ≠ [])
    (unique : P.UniqueRun t f) : P.TiesAgreeRun t f := fun k st after =>
  (reached.warm owned k st after).tiesAgree_of_unique (reached k st after) (unique k st after)

/-- The steps from scratch are legal for their background. -/
theorem fromScratch_recorded (room : s ≤ (P.enabledBins chosen).length) :
    P.Recorded s chosen e (P.fromScratch chosen e s) := by
  have le := enabledBins_length_le P chosen e
  obtain ⟨maxLength, minLength⟩ := fromScratch_length (e := e) room
  exact
    { valid :=
        { maxNodup := greedy_nodup helperPool_sorted (by omega)
          maxMem := greedy_subset helperPool_sorted (by omega)
          minNodup := greedy_nodup enabledBins_sorted room
          minMem := greedy_subset enabledBins_sorted room }
      maxLength := maxLength.le
      minLength := minLength.le }

/-- **Without ties a repair is exact** at a fixed number of steps, on the first background
and on every later one. -/
theorem repaired_eq_of_unique (least : P.SelfLeast) (new : f ∉ prev) (owned : P.ownedBins f ≠ [])
    (disabled : P.owner e ∉ prev ++ [f]) (room : s ≤ (P.enabledBins (prev ++ [f])).length)
    (unique : P.UniqueSteps (prev ++ [f]) e s)
    (old : prev = [] ∧ sOld = 0 ∨ s ≤ (P.enabledBins prev).length ∧ sOld = s) :
    P.repaired (prev ++ [f]) e s (P.fromScratch prev e sOld) = P.fromScratch (prev ++ [f]) e s := by
  have other : P.owner e ≠ f := fun same => disabled (by simp [same])
  have extMax := helperPool_extension (e := e) new owned other
  have extMin := enabledBins_extension new owned
  obtain ⟨grow, roomOld⟩ : sOld ≤ s ∧ sOld ≤ (P.enabledBins prev).length := by
    rcases old with ⟨-, rfl⟩ | ⟨h, rfl⟩
    · exact ⟨Nat.zero_le _, Nat.zero_le _⟩
    · exact ⟨le_rfl, h⟩
  have ready := (fromScratch_recorded (e := e) roomOld).ready new owned disabled grow room
  have le := enabledBins_length_le P prev e
  have attained : P.AttainedOn prev e (P.fromScratch prev e sOld) :=
    scratch_attained helperPool_sorted enabledBins_sorted (by omega) roomOld
  have reached : Reached P.cmi (P.helperPool (prev ++ [f]) e) (P.enabledBins (prev ++ [f])) (P.ownedBins f) e s
      (P.fromScratch prev e sOld) := by
    rcases old with ⟨rfl, rfl⟩ | ⟨-, rfl⟩
    · exact reached_first least owned
    · obtain ⟨maxLength, minLength⟩ := fromScratch_length (e := e) roomOld
      exact reached_of_length maxLength minLength
  rw [lastBins_concat] at ready
  obtain ⟨valid, maxLength, minLength⟩ := repair_valid P.cmi e ready
  rw [repaired, lastBins_concat]
  exact unique.eq_fromScratch ((repair_attained_iff extMax extMin attained ready).mpr reached) valid room
    maxLength minLength

end Problem

end Cmicot.Search
