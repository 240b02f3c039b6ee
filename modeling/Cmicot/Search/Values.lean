import Cmicot.Search.Exact

/-!
A search depends on the order of the values only.

Replacing the values of the oracle along a strictly monotone function changes the values of
the recorded steps and nothing else: every choice, and with it everything a search emits,
stays the same. This is what lets a search over the reals be followed with exact numbers.

* `Problem.fast_items_map`, `Problem.plain_items_map`: both searches emit the same.
* `Problem.reachedRun_map`, `Problem.tiesAgreeRun_map`: and agree under the same conditions.
-/

namespace Cmicot.Search

open Greedy Loop

variable {V W : Type} [LinearOrder V] [LinearOrder W] {φ : W → V}

section Steps

variable {cmi : Oracle W} {full enabled last : List ℕ} {e s : ℕ}

variable (φ) in
/-- The same steps with other values. -/
def Entry.map (entry : Entry W) : Entry V := ⟨mapSteps φ entry.maxSteps, mapSteps φ entry.minSteps⟩

theorem scratch_map (mono : StrictMono φ) :
    scratch (fun second condition => φ (cmi second condition)) full enabled e s =
      (scratch cmi full enabled e s).map φ := by
  have helpers : greedy (· > ·) (helperValue (fun second condition => φ (cmi second condition)) e) full
      (s - 1) = mapSteps φ (greedy (· > ·) (helperValue cmi e) full (s - 1)) :=
    greedy_map (r := (· > ·)) (s := (· > ·)) (u := helperValue cmi e) (fun a b => mono.lt_iff_lt) (s - 1)
  rw [scratch, scratch, helpers, Entry.map]
  simp only [elements_mapSteps]
  congr 1
  exact greedy_map (r := (· < ·)) (s := (· < ·))
    (u := conditionValue cmi e (elements (greedy (· > ·) (helperValue cmi e) full (s - 1))))
    (fun a b => mono.lt_iff_lt) s

omit [LinearOrder V] [LinearOrder W] in
theorem surviving_map (wide : Option ℕ) (steps : List (ℕ × W)) :
    surviving wide (mapSteps φ steps) = mapSteps φ (surviving wide steps) := by
  cases wide with
  | none => rfl
  | some j => exact (List.map_take ..).symm

theorem repair_map (mono : StrictMono φ) (old : Entry W) :
    repair (fun second condition => φ (cmi second condition)) full enabled last e s (old.map φ) =
      (repair cmi full enabled last e s old).map φ := by
  have helped : maxPass (fun second condition => φ (cmi second condition)) full last e s (old.map φ) =
      (maxPass cmi full last e s old).map φ :=
    Pass.run_map (r := (· > ·)) (s := (· > ·)) (fun a b => mono.lt_iff_lt) (s - 1)
      ⟨[], none, old.maxSteps⟩
  have conditioned : minPass (fun second condition => φ (cmi second condition)) full enabled last e s
      (old.map φ) = (minPass cmi full enabled last e s old).map φ := by
    unfold minPass
    rw [helped]
    simp only [Pass.map, elements_mapSteps]
    rw [show (old.map φ).minSteps = mapSteps φ old.minSteps from rfl, surviving_map]
    exact Pass.run_map (r := (· < ·)) (s := (· < ·)) (fun a b => mono.lt_iff_lt) s
      ⟨[], (maxPass cmi full last e s old).wide, surviving _ old.minSteps⟩
  rw [repair, repair, helped, conditioned]
  rfl

theorem recalledHelpers_map (mono : StrictMono φ) (old : Entry W) :
    recalledHelpers (fun second condition => φ (cmi second condition)) full last e s (old.map φ) =
      (recalledHelpers cmi full last e s old).map φ :=
  Pass.run_map (r := (· > ·)) (s := (· > ·)) (fun _ _ => mono.lt_iff_lt) (s - 1) ⟨[], none, old.maxSteps⟩

theorem recall_map (mono : StrictMono φ) (old : Entry W) :
    recalledEntry (fun second condition => φ (cmi second condition)) full enabled last e s (old.map φ) =
      (recalledEntry cmi full enabled last e s old).map φ := by
  rw [recalledEntry, recalledEntry, recalledHelpers_map mono]
  simp only [Pass.map, elements_mapSteps, Entry.map, surviving_map]
  congr 1
  exact congrArg Pass.done (Pass.run_map (r := (· < ·)) (s := (· < ·)) (fun a b => mono.lt_iff_lt) s
    ⟨[], (recalledHelpers cmi full last e s old).wide, surviving _ old.minSteps⟩)

theorem reached_map (mono : StrictMono φ) (old : Entry W) :
    Reached (fun second condition => φ (cmi second condition)) full enabled last e s (old.map φ) ↔
      Reached cmi full enabled last e s old := by
  rw [Reached, Reached, recalledHelpers_map mono]
  simp only [Pass.map, elements_mapSteps, Entry.map, surviving_map]
  exact and_congr (Pass.reaches_map (r := (· > ·)) (s := (· > ·)) (fun a b => mono.lt_iff_lt))
    (Pass.reaches_map (r := (· < ·)) (s := (· < ·)) (fun a b => mono.lt_iff_lt))

omit [LinearOrder V] [LinearOrder W] in
theorem value_map (φ : W → V) (entry : Entry W) :
    value (fun second condition => φ (cmi second condition)) e (entry.map φ) = φ (value cmi e entry) := by
  simp [value, Entry.map]

end Steps

namespace Problem

variable {P : Problem W} {t f : ℕ}

variable (φ) (P) in
/-- The same problem with other values. -/
def map : Problem V := ⟨P.binCount, P.owner, fun second condition => φ (P.cmi second condition)⟩

theorem firstFeature_map (mono : StrictMono φ) : (P.map φ).firstFeature = P.firstFeature := by
  unfold firstFeature
  exact congrArg (Option.map P.owner) (pick_map (r := (· > ·)) (s := (· > ·)) fun a b => mono.lt_iff_lt)

variable (φ) in
/-- The same state with other values. -/
def mapState (st : State W) : State V := ⟨st.chosen, st.cache.map (Entry.map φ)⟩

theorem refreshed_map (mono : StrictMono φ) (st : State W) :
    (P.map φ).refreshed t (mapState φ st) = (P.refreshed t st).map (Entry.map φ) := by
  apply List.ext_getElem
  · simp [refreshed, mapState]
  · intro e h h'
    simp only [refreshed, mapState, List.getElem_mapIdx, List.getElem_map]
    change (if P.owner e ∈ st.chosen then _ else _) = _
    split
    · rfl
    · exact repair_map mono _

theorem fastBest_map (mono : StrictMono φ) (st : State W) :
    (P.map φ).fastBest t (mapState φ st) = P.fastBest t st := by
  have values : ∀ e, value (P.map φ).cmi e (((P.map φ).refreshed t (mapState φ st)).getD e .empty) =
      φ (value P.cmi e ((P.refreshed t st).getD e .empty)) := fun e => by
    have entry : ((P.map φ).refreshed t (mapState φ st)).getD e .empty =
        ((P.refreshed t st).getD e .empty).map φ := by
      rw [refreshed_map mono, List.getD_eq_getElem?_getD, List.getD_eq_getElem?_getD, List.getElem?_map]
      cases (P.refreshed t st)[e]? <;> rfl
    rw [entry]
    exact value_map φ _
  unfold fastBest
  simp only [values]
  exact pick_map (r := (· > ·)) (s := (· > ·)) fun a b => mono.lt_iff_lt

theorem plainBest_map (mono : StrictMono φ) (chosen : List ℕ) :
    (P.map φ).plainBest t chosen = P.plainBest t chosen := by
  have values : ∀ e, value (P.map φ).cmi e
      ((P.map φ).fromScratch chosen e ((P.map φ).stepCount t chosen)) =
        φ (value P.cmi e (P.fromScratch chosen e (P.stepCount t chosen))) := fun e => by
    rw [← value_map φ, fromScratch, fromScratch, ← scratch_map mono]
    rfl
  unfold plainBest
  simp only [values]
  exact pick_map (r := (· > ·)) (s := (· > ·)) fun a b => mono.lt_iff_lt

/-- **A fast round is the same** for values in the same order. -/
theorem fastRound_map (mono : StrictMono φ) (st : State W) :
    (∃ b next next', (P.map φ).fastRound t (mapState φ st) = .ok (b, next) ∧ P.fastRound t st = .ok (b, next') ∧
        next = mapState φ next') ∨
      ∃ e e', (P.map φ).fastRound t (mapState φ st) = .error e ∧ P.fastRound t st = .error e' ∧ True := by
  have same := fastBest_map (P := P) (t := t) mono st
  cases best : P.fastBest t st with
  | none => exact .inr ⟨(), (), by simp [fastRound, same, best], by simp [fastRound, best], trivial⟩
  | some b =>
    refine .inl ⟨_, _, _, fastRound_of_best (same.trans best), fastRound_of_best best, ?_⟩
    rw [refreshed_map mono]
    rfl

omit [LinearOrder V] [LinearOrder W] in
theorem start_map (P : Problem W) (f : ℕ) : (P.map φ).start f = mapState φ (P.start f) := by
  simp only [start, mapState, List.map_replicate]
  rfl

/-- **The fast search emits the same** for values in the same order. -/
theorem fast_items_map (mono : StrictMono φ) (k : ℕ) :
    (emitLoop ((P.map φ).fastRound t) k ((P.map φ).start f)).items =
      (emitLoop (P.fastRound t) k (P.start f)).items :=
  (emitLoop_rel (R := fun st' st => st' = mapState φ st) (fun _ st same => same ▸ fastRound_map mono st) k
    _ _ (start_map P f)).1

/-- **The plain search emits the same** for values in the same order. -/
theorem plain_items_map (mono : StrictMono φ) (k : ℕ) :
    (emitLoop ((P.map φ).plainRound t) k [f]).items = (emitLoop (P.plainRound t) k [f]).items := by
  refine (emitLoop_rel (R := fun chosen' chosen => chosen' = chosen) (S := fun _ _ => True) ?_ k
    _ _ rfl).1
  rintro chosen _ rfl
  have same := plainBest_map (P := P) (t := t) mono chosen
  cases best : P.plainBest t chosen with
  | none => exact .inr ⟨(), (), by simp [plainRound, same, best], by simp [plainRound, best], trivial⟩
  | some b =>
    refine .inl ⟨P.owner b, chosen ++ [P.owner b], _, ?_, ?_, rfl⟩
    · rw [plainRound, same, best]
      rfl
    · rw [plainRound, best]

/-- Whether steps are tied depends on the order of the values only. -/
theorem uniqueSteps_map (mono : StrictMono φ) {chosen : List ℕ} {e s : ℕ} :
    (P.map φ).UniqueSteps chosen e s ↔ P.UniqueSteps chosen e s := by
  have steps : elements ((P.map φ).fromScratch chosen e s).maxSteps = elements (P.fromScratch chosen e s).maxSteps := by
    rw [fromScratch, fromScratch, show scratch (P.map φ).cmi _ _ e s = _ from scratch_map mono]
    exact elements_mapSteps _
  have helpers : Pass.Strict (· > ·) (helperValue (P.map φ).cmi e) (P.helperPool chosen e) (s - 1) ↔
      Pass.Strict (· > ·) (helperValue P.cmi e) (P.helperPool chosen e) (s - 1) :=
    Pass.strict_map (r := (· > ·)) (s := (· > ·)) (φ := φ) fun _ _ => mono.lt_iff_lt
  have conditions : Pass.Strict (· < ·)
      (conditionValue (P.map φ).cmi e (elements (P.fromScratch chosen e s).maxSteps)) (P.enabledBins chosen) s ↔
      Pass.Strict (· < ·) (conditionValue P.cmi e (elements (P.fromScratch chosen e s).maxSteps))
        (P.enabledBins chosen) s :=
    Pass.strict_map (r := (· < ·)) (s := (· < ·)) (φ := φ) fun _ _ => mono.lt_iff_lt
  constructor
  · intro unique
    exact ⟨helpers.mp unique.helpers, conditions.mp (steps ▸ unique.conditions)⟩
  · intro unique
    exact ⟨helpers.mpr unique.helpers, steps.symm ▸ conditions.mpr unique.conditions⟩

/-! ### When the searches agree -/

omit [LinearOrder V] [LinearOrder W] in
theorem getD_mapState (st : State W) (e : ℕ) :
    (mapState φ st).cache.getD e .empty = (st.cache.getD e .empty).map φ := by
  rw [mapState, List.getD_eq_getElem?_getD, List.getD_eq_getElem?_getD, List.getElem?_map]
  cases st.cache[e]? <;> rfl

theorem reachedRound_map (mono : StrictMono φ) (st : State W) :
    (P.map φ).ReachedRound t (mapState φ st) ↔ P.ReachedRound t st := by
  refine forall₂_congr fun e _ => ?_
  rw [getD_mapState]
  exact reached_map mono _

theorem tiesAgree_map (mono : StrictMono φ) (st : State W) :
    (P.map φ).TiesAgree t (mapState φ st) ↔ P.TiesAgree t st := by
  have values : ∀ e, value (P.map φ).cmi e ((P.map φ).recalled t (mapState φ st) e) =
      φ (value P.cmi e (P.recalled t st e)) := fun e => by
    rw [recalled, getD_mapState]
    exact (congrArg _ (recall_map mono _)).trans (value_map φ _)
  have best : (P.map φ).recalledBest t (mapState φ st) = P.recalledBest t st := by
    unfold recalledBest
    simp only [values]
    exact pick_map (r := (· > ·)) (s := (· > ·)) fun a b => mono.lt_iff_lt
  rw [TiesAgree, TiesAgree, best, show (mapState φ st).chosen = st.chosen from rfl, plainBest_map mono]
  rfl

theorem reachedRun_map (mono : StrictMono φ) : (P.map φ).ReachedRun t f ↔ P.ReachedRun t f :=
  always_rel (R := fun st' st => st' = mapState φ st)
    (fun _ st same => same ▸ fastRound_map mono st) (fun _ st same => same ▸ reachedRound_map mono st)
    (start_map P f)

theorem tiesAgreeRun_map (mono : StrictMono φ) : (P.map φ).TiesAgreeRun t f ↔ P.TiesAgreeRun t f :=
  always_rel (R := fun st' st => st' = mapState φ st)
    (fun _ st same => same ▸ fastRound_map mono st) (fun _ st same => same ▸ tiesAgree_map mono st)
    (start_map P f)

theorem uniqueRun_map (mono : StrictMono φ) : (P.map φ).UniqueRun t f ↔ P.UniqueRun t f :=
  always_rel (R := fun st' st => st' = mapState φ st)
    (fun _ st same => same ▸ fastRound_map mono st)
    (fun _ _ same => same ▸ forall₂_congr fun _ _ => uniqueSteps_map mono) (start_map P f)

end Problem

end Cmicot.Search
