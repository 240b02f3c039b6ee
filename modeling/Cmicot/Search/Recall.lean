import Cmicot.Lib.Attained
import Cmicot.Search.Rounds

/-!
When the fast search looks far enough.

A repair looks for an additional step among the added bins only. `Reached` says that one of
them is a best candidate then. `recalledEntry` is the repair that looks at every candidate, the added
bins first; it takes steps as good as those from scratch, but prefers recorded steps and added
bins where values tie.

* `repair_attained_iff`: a repair takes attained steps iff its searches reach a best candidate,
  and then (`repair_eq_recalledEntry`) it is the one that looks at every candidate.
* `Problem.reachedRun_iff_attainedRun`: the same for a whole fast search.
* `Problem.ReachedRun.emits_iff`: such a search emits what the plain search does iff the ties do
  not change the feature chosen in any round.
-/

namespace Cmicot.Search

open Greedy Loop

section Steps

variable {V : Type} [LinearOrder V] (cmi : Oracle V) (full enabled last : List ℕ) (e s : ℕ)

/-- The steps are greedy up to ties. -/
structure Entry.Attained (entry : Entry V) : Prop where
  helpers : Greedy.Attained (· > ·) (helperValue cmi e) full entry.maxSteps
  conditions : Greedy.Attained (· < ·) (conditionValue cmi e (elements entry.maxSteps)) enabled
    entry.minSteps

/-- The pass over the recorded helpers that looks at every candidate. -/
def recalledHelpers (old : Entry V) : Pass ℕ V :=
  Pass.run (· > ·) (helperValue cmi e) full (promote last full) (s - 1) ⟨[], none, old.maxSteps⟩

/-- The recorded steps, brought up to date by passes that look at every candidate. -/
def recalledEntry (old : Entry V) : Entry V :=
  let helped := recalledHelpers cmi full last e s old
  ⟨helped.done, (Pass.run (· < ·) (conditionValue cmi e (elements helped.done)) enabled
    (promote last enabled) s ⟨[], helped.wide, surviving helped.wide old.minSteps⟩).done⟩

/-- The narrow searches of a repair reach a best candidate. -/
def Reached (old : Entry V) : Prop :=
  let helped := recalledHelpers cmi full last e s old
  Pass.Reaches (· > ·) (helperValue cmi e) last full (s - 1) none old.maxSteps ∧
    Pass.Reaches (· < ·) (conditionValue cmi e (elements helped.done)) last enabled s helped.wide
      (surviving helped.wide old.minSteps)

instance (old : Entry V) : Decidable (Reached cmi full enabled last e s old) :=
  inferInstanceAs (Decidable (_ ∧ _))

variable {cmi full enabled last e s} {fullOld enabledOld : List ℕ} {old : Entry V}

/-- Conditions that survive the new helpers are attained with them. -/
theorem surviving_attained (attained : old.Attained cmi fullOld enabledOld e)
    (ready : Ready full enabled last s old) :
    Greedy.Attained (· < ·) (conditionValue cmi e (elements (maxPass cmi full last e s old).done)) enabledOld
      (surviving (maxPass cmi full last e s old).wide old.minSteps) := by
  have length := (ready.maxPass cmi e (Nat.le_refl (s - 1))).2
  have agrees : ((maxPass cmi full last e s old).wide = none ∧
      (maxPass cmi full last e s old).done ++ (maxPass cmi full last e s old).old = old.maxSteps) ∨
      ∃ j, (maxPass cmi full last e s old).wide = some j ∧ j ≤ (maxPass cmi full last e s old).done.length ∧
        (maxPass cmi full last e s old).done.take j = old.maxSteps.take j :=
    Pass.run_agrees old.maxSteps (s - 1)
  unfold maxPass at *
  generalize Pass.run (· > ·) (helperValue cmi e) full last (s - 1) ⟨[], none, old.maxSteps⟩ = helped at *
  rcases agrees with ⟨narrow, same⟩ | ⟨j, wide, -, same⟩
  · have spent : helped.old = [] := by
      have total := congrArg List.length same
      rw [List.length_append, length] at total
      exact List.length_eq_zero_iff.mp (by have := ready.maxLength; omega)
    rw [spent, List.append_nil] at same
    rw [narrow, same]
    exact attained.conditions
  · rw [wide]
    refine (attained.conditions.take (j + 1)).congr fun i lt x => ?_
    have le : i ≤ j := by
      have := List.length_take_le (j + 1) old.minSteps
      change i < (old.minSteps.take (j + 1)).length at lt
      omega
    have agree : (elements old.maxSteps).take i = (elements helped.done).take i := by
      rw [← elements_take, ← elements_take, ← Nat.min_eq_left le, ← List.take_take, ← List.take_take, same]
    rw [conditionValue, conditionValue, List.length_take, Nat.min_eq_left (by simpa using lt.le), agree]

/-- With all steps recorded there is no additional step to look for. -/
theorem reached_of_length (maxLength : old.maxSteps.length = s - 1) (minLength : old.minSteps.length = s) :
    Reached cmi full enabled last e s old :=
  ⟨fun _ room => absurd maxLength room.ne, fun narrow room => by
    rw [narrow] at room
    exact absurd minLength room.ne⟩

/-- The steps from scratch are attained. -/
theorem scratch_attained (maxSorted : full.Pairwise (· < ·)) (minSorted : enabled.Pairwise (· < ·))
    (maxRoom : s - 1 ≤ full.length) (minRoom : s ≤ enabled.length) :
    (scratch cmi full enabled e s).Attained cmi full enabled e :=
  ⟨(greedy_isGreedy maxSorted maxRoom).attained, (greedy_isGreedy minSorted minRoom).attained⟩

/-- Attained steps without a helper: the one condition has the least value. -/
theorem Entry.Attained.value_le {entry other : Entry V} (attained : entry.Attained cmi full enabled e)
    (noHelper : entry.maxSteps = []) (noHelper' : other.maxSteps = []) (one : entry.minSteps.length = 1)
    (one' : other.minSteps.length = 1) (mem : ∀ b ∈ elements other.minSteps, b ∈ enabled) :
    value cmi e entry ≤ value cmi e other := by
  obtain ⟨x, steps⟩ := List.length_eq_one_iff.mp one
  obtain ⟨y, steps'⟩ := List.length_eq_one_iff.mp one'
  obtain ⟨recorded, least⟩ := attained.conditions 0 x (by simp [steps])
  rw [steps'] at mem
  have le := not_lt.mp (least y.1 (mem y.1 (by simp [elements])) (by simp))
  rw [recorded] at le
  simpa [value, conditionValue, noHelper, noHelper', steps, steps', elements] using le

omit [LinearOrder V] in
/-- Recorded helpers come from the old pool. -/
theorem Ready.maxOld (ready : Ready full enabled last s old) (ext : Pass.Extension fullOld last full) :
    ∀ b ∈ elements old.maxSteps, b ∈ fullOld := fun b mem =>
  ((ext.mem_full b).mp (ready.valid.maxMem b mem)).resolve_right (ready.maxNew b mem)

omit [LinearOrder V] in
/-- So do recorded conditions that survive. -/
theorem Ready.minOld (ready : Ready full enabled last s old) (ext : Pass.Extension enabledOld last enabled)
    (wide : Option ℕ) : ∀ b ∈ elements (surviving wide old.minSteps), b ∈ enabledOld := fun b mem => by
  have mem := ((surviving_isPrefix wide old.minSteps).sublist.map Prod.fst).subset mem
  exact ((ext.mem_full b).mp (ready.valid.minMem b mem)).resolve_right (ready.minNew b mem)

/-- The helpers of a repair that reaches a best candidate. -/
theorem maxPass_eq_recalledHelpers (extMax : Pass.Extension fullOld last full)
    (attained : old.Attained cmi fullOld enabledOld e) (ready : Ready full enabled last s old)
    (reached : Pass.Reaches (· > ·) (helperValue cmi e) last full (s - 1) none old.maxSteps) :
    maxPass cmi full last e s old = recalledHelpers cmi full last e s old :=
  Pass.run_promote extMax attained.helpers (ready.maxOld extMax) reached

/-- **A repair that reaches a best candidate looks far enough**: it takes the steps of the one
that looks at every candidate. -/
theorem repair_eq_recalledEntry (extMax : Pass.Extension fullOld last full)
    (extMin : Pass.Extension enabledOld last enabled) (attained : old.Attained cmi fullOld enabledOld e)
    (ready : Ready full enabled last s old) (reached : Reached cmi full enabled last e s old) :
    repair cmi full enabled last e s old = recalledEntry cmi full enabled last e s old := by
  have helped := maxPass_eq_recalledHelpers extMax attained ready reached.1
  have conditioned := Pass.run_promote extMin (surviving_attained attained ready) (ready.minOld extMin _)
    (helped ▸ reached.2)
  rw [repair, minPass, conditioned, helped, recalledEntry]

/-- **The steps of a repair are attained iff its searches reach a best candidate.** -/
theorem repair_attained_iff (extMax : Pass.Extension fullOld last full)
    (extMin : Pass.Extension enabledOld last enabled) (attained : old.Attained cmi fullOld enabledOld e)
    (ready : Ready full enabled last s old) :
    (repair cmi full enabled last e s old).Attained cmi full enabled e ↔
      Reached cmi full enabled last e s old := by
  constructor
  · intro repaired
    have reached : Pass.Reaches (· > ·) (helperValue cmi e) last full (s - 1) none old.maxSteps :=
      (Pass.attained_iff_reaches extMax attained.helpers (ready.maxOld extMax)).mp repaired.helpers
    have helped := maxPass_eq_recalledHelpers extMax attained ready reached
    exact ⟨reached, helped ▸ (Pass.attained_iff_reaches extMin (surviving_attained attained ready)
      (ready.minOld extMin _)).mp repaired.conditions⟩
  · intro reached
    have helped := maxPass_eq_recalledHelpers extMax attained ready reached.1
    exact ⟨(Pass.attained_iff_reaches extMax attained.helpers (ready.maxOld extMax)).mpr reached.1,
      (Pass.attained_iff_reaches extMin (surviving_attained attained ready) (ready.minOld extMin _)).mpr
        (helped ▸ reached.2)⟩

end Steps

/-! ### Rounds -/

namespace Problem

variable {V : Type} [LinearOrder V] (P : Problem V) (t : ℕ)

/-- The recorded steps of `e`, brought up to date by passes that look at every candidate. -/
def recalled (st : State V) (e : ℕ) : Entry V :=
  recalledEntry P.cmi (P.helperPool st.chosen e) (P.enabledBins st.chosen) (P.lastBins st.chosen) e
    (P.stepCount t st.chosen) (st.cache.getD e .empty)

/-- The bin with the highest score of recalled steps. -/
def recalledBest (st : State V) : Option ℕ :=
  pick (· > ·) (fun e => value P.cmi e (P.recalled t st e)) (P.disabledBins st.chosen)

/-- Every search of the round reaches a best candidate. -/
def ReachedRound (st : State V) : Prop :=
  ∀ e ∈ P.disabledBins st.chosen,
    Reached P.cmi (P.helperPool st.chosen e) (P.enabledBins st.chosen) (P.lastBins st.chosen) e
      (P.stepCount t st.chosen) (st.cache.getD e .empty)

/-- The round chooses the same feature whether ties go to recorded steps and added bins or to the
smallest bin. -/
def TiesAgree (st : State V) : Prop :=
  (P.recalledBest t st).map P.owner = (P.plainBest t st.chosen).map P.owner

/-- The steps of `e` are greedy up to ties on the background of the chosen features. -/
def AttainedOn (chosen : List ℕ) (e : ℕ) (entry : Entry V) : Prop :=
  entry.Attained P.cmi (P.helperPool chosen e) (P.enabledBins chosen) e

/-- The round evaluates every disabled bin to attained steps. -/
def AttainedRound (st : State V) : Prop :=
  ∀ e ∈ P.disabledBins st.chosen, P.AttainedOn st.chosen e ((P.refreshed t st).getD e .empty)

/-- Every search of every round reaches a best candidate. -/
def ReachedRun (f : ℕ) : Prop := Always (P.fastRound t) (P.ReachedRound t) (P.start f)

/-- In no round do ties decide which feature is chosen. -/
def TiesAgreeRun (f : ℕ) : Prop := Always (P.fastRound t) (P.TiesAgree t) (P.start f)

/-- Every evaluation of every round returns attained steps. -/
def AttainedRun (f : ℕ) : Prop := Always (P.fastRound t) (P.AttainedRound t) (P.start f)

instance (st : State V) : Decidable (P.ReachedRound t st) :=
  inferInstanceAs (Decidable (∀ e ∈ P.disabledBins st.chosen, Reached ..))

instance (st : State V) : Decidable (P.TiesAgree t st) :=
  inferInstanceAs (Decidable (_ = _))

/-- The state between two rounds when all evaluations so far were attained: so are the recorded
steps, on the background of the round before. -/
structure Warm (st : State V) : Prop where
  inv : P.Inv t st
  cache : ∀ e entry, st.cache[e]? = some entry → P.owner e ∉ st.chosen →
    P.AttainedOn st.chosen.dropLast e entry

variable {P} {t} {e f s : ℕ} {st : State V}

theorem start_warm (owned : P.ownedBins f ≠ []) : P.Warm t (P.start f) where
  inv := start_inv owned
  cache e entry at_e _ := by
    have none : entry = .empty := by
      simp only [start, List.getElem?_replicate] at at_e
      split at at_e
      · exact (Option.some.inj at_e).symm
      · cases at_e
    exact none ▸ ⟨attained_nil _, attained_nil _⟩

/-- What a warm state holds of a disabled bin. -/
theorem Warm.bin (warm : P.Warm t st) (mem : e ∈ P.disabledBins st.chosen) :
    (P.refreshed t st).getD e .empty =
        P.repaired st.chosen e (P.stepCount t st.chosen) (st.cache.getD e .empty) ∧
      Ready (P.helperPool st.chosen e) (P.enabledBins st.chosen) (P.lastBins st.chosen)
        (P.stepCount t st.chosen) (st.cache.getD e .empty) ∧
      P.AttainedOn st.chosen.dropLast e (st.cache.getD e .empty) := by
  obtain ⟨inside, disabled⟩ := mem_disabledBins.mp mem
  have lt : e < st.cache.length := warm.inv.size ▸ inside
  have cached : st.cache[e]? = some (st.cache.getD e .empty) := by
    rw [List.getD_eq_getElem?_getD, List.getElem?_eq_getElem lt, Option.getD_some]
  refine ⟨?_, warm.inv.ready cached disabled, warm.cache e _ cached disabled⟩
  rw [List.getD_eq_getElem?_getD, getElem?_refreshed, cached, Option.map_some, if_neg disabled,
    Option.getD_some]

omit [LinearOrder V] in
/-- The background grows by the feature chosen last. -/
theorem Inv.extensions (inv : P.Inv t st) (disabled : P.owner e ∉ st.chosen) :
    Pass.Extension (P.helperPool st.chosen.dropLast e) (P.lastBins st.chosen) (P.helperPool st.chosen e) ∧
      Pass.Extension (P.enabledBins st.chosen.dropLast) (P.lastBins st.chosen)
        (P.enabledBins st.chosen) := by
  obtain ⟨prev, f, concat⟩ := inv.concat
  have owned := inv.owned f (by simp [concat])
  have nodup := inv.nodup
  rw [concat] at nodup disabled ⊢
  rw [List.dropLast_concat, lastBins_concat]
  have new : f ∉ prev := fun mem => (List.nodup_append.mp nodup).2.2 f mem f (by simp) rfl
  exact ⟨helperPool_extension new owned fun same => disabled (by simp [same]),
    enabledBins_extension new owned⟩

/-- **A round evaluates to attained steps iff its searches reach a best candidate.** -/
theorem Warm.attainedRound_iff (warm : P.Warm t st) : P.AttainedRound t st ↔ P.ReachedRound t st := by
  refine forall₂_congr fun e mem => ?_
  obtain ⟨repaired, ready, attained⟩ := warm.bin mem
  obtain ⟨extMax, extMin⟩ := warm.inv.extensions (mem_disabledBins.mp mem).2
  rw [repaired]
  exact repair_attained_iff extMax extMin attained ready

theorem Warm.next {b : ℕ} {next : State V} (warm : P.Warm t st) (attained : P.AttainedRound t st)
    (ran : P.fastRound t st = .ok (b, next)) : P.Warm t next := by
  unfold fastRound at ran
  split at ran
  case h_2 => cases ran
  case h_1 c best =>
    cases ran
    refine ⟨(warm.inv.round best).2, fun e entry at_e disabled => ?_⟩
    have inside : e < P.binCount := by
      rw [← warm.inv.size]
      simpa [refreshed] using (List.getElem?_eq_some_iff.mp at_e).1
    have here := attained e (mem_disabledBins.mpr ⟨inside, fun mem => disabled (by simp [mem])⟩)
    rw [List.getD_eq_getElem?_getD, at_e, Option.getD_some] at here
    rwa [List.dropLast_concat]

/-- While the searches reach a best candidate the states stay warm. -/
theorem ReachedRun.warm (reached : P.ReachedRun t f) (owned : P.ownedBins f ≠ []) :
    Always (P.fastRound t) (P.Warm t) (P.start f) :=
  Always.inv reached (start_warm owned) fun _ _ _ warm reached ran =>
    warm.next (warm.attainedRound_iff.mpr reached) ran

/-- **Every evaluation of a fast search returns attained steps iff its searches reach a best
candidate in every round.** -/
theorem reachedRun_iff_attainedRun (owned : P.ownedBins f ≠ []) : P.ReachedRun t f ↔ P.AttainedRun t f := by
  constructor
  · exact fun reached k st after =>
      (reached.warm owned k st after).attainedRound_iff.mpr (reached k st after)
  · intro attained k st after
    have warm := Always.inv attained (start_warm owned) fun _ _ _ warm here ran => warm.next here ran
    exact (warm k st after).attainedRound_iff.mp (attained k st after)

/-- A round whose searches reach a best candidate chooses by the recalled steps. -/
theorem Warm.fastBest (warm : P.Warm t st) (reached : P.ReachedRound t st) :
    P.fastBest t st = P.recalledBest t st :=
  pick_congr fun e mem => by
    obtain ⟨repaired, ready, attained⟩ := warm.bin mem
    obtain ⟨extMax, extMin⟩ := warm.inv.extensions (mem_disabledBins.mp mem).2
    rw [repaired, Problem.repaired, repair_eq_recalledEntry extMax extMin attained ready (reached e mem), recalled]

theorem plainRound_of_best {chosen : List ℕ} {b : ℕ} (best : P.plainBest t chosen = some b) :
    P.plainRound t chosen = .ok (P.owner b, chosen ++ [P.owner b]) := by
  simp only [plainRound, best]

theorem exists_plainBest {chosen : List ℕ} (left : P.disabledBins chosen ≠ []) :
    ∃ b, P.plainBest t chosen = some b := exists_pick left

/-- Without a disabled bin both searches stop. -/
theorem stuck (left : P.disabledBins st.chosen = []) :
    P.fastRound t st = .error () ∧ P.plainRound t st.chosen = .error () ∧ P.TiesAgree t st := by
  have fast : P.fastBest t st = none := by rw [fastBest, left, pick]
  have plain : P.plainBest t st.chosen = none := by rw [plainBest, left, pick]
  have recalled : P.recalledBest t st = none := by rw [recalledBest, left, pick]
  exact ⟨by simp only [fastRound, fast], by simp only [plainRound, plain],
    by rw [TiesAgree, plain, recalled]⟩

/-- From a warm state on, the searches emit the same iff ties do not change the feature chosen. -/
theorem Warm.emits_iff {n : ℕ} (warm : P.Warm t st) (reached : Always (P.fastRound t) (P.ReachedRound t) st)
    (enough : P.owners.card - st.chosen.length ≤ n) :
    (emitLoop (P.fastRound t) n st).items = (emitLoop (P.plainRound t) n st.chosen).items ↔
      Always (P.fastRound t) (P.TiesAgree t) st := by
  induction n generalizing st with
  | zero =>
    have left : P.disabledBins st.chosen = [] := by
      by_contra left
      obtain ⟨b, best⟩ := exists_fastBest (t := t) left
      have more := warm.inv.round best
      have more := length_le_owners more.2.nodup more.2.owned
      simp only [List.length_append, List.length_singleton] at more
      omega
    obtain ⟨failed, -, agree⟩ := stuck (P := P) (t := t) left
    exact iff_of_true rfl ((always_of_error failed).mpr agree)
  | succ n ih =>
    have here := reached.here
    by_cases left : P.disabledBins st.chosen = []
    · obtain ⟨failed, failed', agree⟩ := stuck (P := P) (t := t) left
      exact iff_of_true (by simp only [emitLoop, failed, failed']) ((always_of_error failed).mpr agree)
    · obtain ⟨b, best⟩ := exists_fastBest (t := t) left
      obtain ⟨c, best'⟩ := exists_plainBest (t := t) left
      have ran := fastRound_of_best best
      have ran' := plainRound_of_best best'
      have warm' := warm.next (warm.attainedRound_iff.mpr here) ran
      have ties : P.TiesAgree t st ↔ P.owner b = P.owner c := by
        rw [TiesAgree, ← warm.fastBest here, best, best', Option.map_some, Option.map_some,
          Option.some.injEq]
      have rest := ih warm' (reached.next ran)
        (by simp only [List.length_append, List.length_singleton]; omega)
      rw [always_of_ok ran, ties]
      simp only [emitLoop, ran, ran', Emitted.cons, List.cons.injEq]
      refine and_congr_right fun agree => ?_
      rw [← agree]
      exact rest

/-- **Which searches emit the same.** A fast search whose searches reach a best candidate in every
round emits what the plain search emits iff ties do not change the feature chosen in any round. -/
theorem ReachedRun.emits_iff (reached : P.ReachedRun t f) (owned : P.ownedBins f ≠ []) {n : ℕ}
    (enough : P.owners.card ≤ n + 1) :
    (emitLoop (P.fastRound t) n (P.start f)).items = (emitLoop (P.plainRound t) n [f]).items ↔
      P.TiesAgreeRun t f :=
  (start_warm owned).emits_iff reached (by simp only [start, List.length_singleton]; omega)

/-! ### A number of steps that does not grow -/

variable (P) in
/-- A bin says least about the label once it is given. -/
def SelfLeast : Prop := ∀ e given second condition, P.cmi [e] (given ++ [e]) ≤ P.cmi second condition

variable (P) (t) (f) in
/-- The search is at its start, or every bin still disabled has all its steps recorded. -/
def Filled (st : State V) : Prop :=
  st = P.start f ∨ f ∈ st.chosen ∧ ∀ e ∈ P.disabledBins st.chosen,
    (st.cache.getD e .empty).maxSteps.length = t - 1 ∧ (st.cache.getD e .empty).minSteps.length = t

omit [LinearOrder V] in
theorem stepCount_fixed {chosen : List ℕ} (fixed : t ≤ (P.ownedBins f).length) (mem : f ∈ chosen) :
    P.stepCount t chosen = t := by
  refine Nat.min_eq_right (fixed.trans ?_)
  refine (List.subperm_of_subset ownedBins_sorted.nodup fun b owned => ?_).length_le
  obtain ⟨inside, rfl⟩ := mem_ownedBins.mp owned
  exact mem_enabledBins.mpr ⟨inside, mem⟩

/-- From the first background the searches see every candidate but the bin itself. -/
theorem reached_first (least : P.SelfLeast) (owned : P.ownedBins f ≠ []) :
    Reached P.cmi (P.helperPool [f] e) (P.enabledBins [f]) (P.ownedBins f) e s .empty := by
  have enabled : P.enabledBins [f] = P.ownedBins f := by simp [enabledBins, ownedBins]
  rw [enabled]
  constructor
  · intro _ _ _
    obtain ⟨b, found⟩ := exists_pick (r := (· > ·)) (f := helperValue P.cmi e []) owned
    refine ⟨b, pick_mem found, fun c candidate => ?_⟩
    obtain ⟨inside, rfl | chosen⟩ := mem_helperPool.mp (mem_unused.mp candidate).1
    · exact not_lt.mpr (least c [] [c] [b])
    · exact pick_not_beaten found (mem_ownedBins.mpr ⟨inside, by simpa using chosen⟩)
  · intro narrow _ _
    rw [narrow]
    obtain ⟨b, found⟩ := exists_pick (r := (· < ·)) (f := conditionValue P.cmi e
      (elements (recalledHelpers P.cmi (P.helperPool [f] e) (P.ownedBins f) e s .empty).done) []) owned
    exact ⟨b, pick_mem found, fun c candidate => pick_not_beaten found (mem_unused.mp candidate).1⟩

/-- The searches of a filled state reach a best candidate. -/
theorem Filled.reachedRound (filled : P.Filled t f st) (least : P.SelfLeast) (owned : P.ownedBins f ≠ [])
    (fixed : t ≤ (P.ownedBins f).length) : P.ReachedRound t st := by
  intro e disabled
  rcases filled with rfl | ⟨mem, full⟩
  · have nothing : (P.start f).cache.getD e .empty = (.empty : Entry V) := by
      simp only [start, List.getD_eq_getElem?_getD, List.getElem?_replicate]
      split <;> rfl
    have last : P.lastBins (P.start f : State V).chosen = P.ownedBins f := by simp [start, lastBins]
    rw [nothing, last]
    exact reached_first least owned
  · obtain ⟨maxLength, minLength⟩ := full e disabled
    rw [stepCount_fixed fixed mem]
    exact reached_of_length maxLength minLength

/-- A round fills the steps of every bin it evaluates. -/
theorem Filled.next {b : ℕ} {next : State V} (filled : P.Filled t f st) (warm : P.Warm t st)
    (fixed : t ≤ (P.ownedBins f).length) (ran : P.fastRound t st = .ok (b, next)) : P.Filled t f next := by
  have mem : f ∈ st.chosen := by
    rcases filled with rfl | ⟨mem, -⟩
    · exact List.mem_singleton.mpr rfl
    · exact mem
  unfold fastRound at ran
  split at ran
  case h_2 => cases ran
  case h_1 c best =>
    cases ran
    refine .inr ⟨by simp [mem], fun e disabled => ?_⟩
    have before : e ∈ P.disabledBins st.chosen := by
      simp only [mem_disabledBins, List.mem_append, not_or] at disabled ⊢
      exact ⟨disabled.1, disabled.2.1⟩
    obtain ⟨repaired, ready, -⟩ := warm.bin before
    obtain ⟨-, maxLength, minLength⟩ := repair_valid P.cmi e ready
    rw [stepCount_fixed fixed mem] at maxLength minLength repaired
    exact ⟨repaired ▸ maxLength, repaired ▸ minLength⟩

/-- **A fixed number of steps.** If the first feature has as many bins as steps are asked for, every
search of every round reaches a best candidate. -/
theorem reachedRun_of_fixed (least : P.SelfLeast) (owned : P.ownedBins f ≠ [])
    (fixed : t ≤ (P.ownedBins f).length) : P.ReachedRun t f := fun k st after => by
  have both := stateAfter_inv (P := fun st => P.Warm t st ∧ P.Filled t f st)
    (fun st b next ⟨warm, filled⟩ ran =>
      ⟨warm.next (warm.attainedRound_iff.mpr (filled.reachedRound least owned fixed)) ran,
        filled.next warm fixed ran⟩)
    ⟨start_warm owned, .inl rfl⟩ after
  exact both.2.reachedRound least owned fixed

theorem fromScratch_length {chosen : List ℕ} (room : s ≤ (P.enabledBins chosen).length) :
    (P.fromScratch chosen e s).maxSteps.length = s - 1 ∧
      (P.fromScratch chosen e s).minSteps.length = s := by
  have le := enabledBins_length_le P chosen e
  exact ⟨greedy_length helperPool_sorted (by omega), greedy_length enabledBins_sorted room⟩

/-- With one step the score is the least value of a condition, whatever the ties. -/
theorem Warm.tiesAgree_one (warm : P.Warm 1 st) (reached : P.ReachedRound 1 st) : P.TiesAgree 1 st := by
  rw [TiesAgree, ← warm.fastBest reached]
  refine congrArg (Option.map P.owner) (pick_congr fun e mem => ?_)
  obtain ⟨repaired, ready, -⟩ := warm.bin mem
  have one : P.stepCount 1 st.chosen = 1 := by
    have added := List.length_pos_iff_ne_nil.mpr ready.added
    have sub := (List.subperm_of_subset ready.lastSorted.nodup ready.lastEnabled).length_le
    exact Nat.min_eq_right (by omega)
  have here := warm.attainedRound_iff.mpr reached e mem
  obtain ⟨valid, maxLength, minLength⟩ := repair_valid P.cmi e ready
  have maxRoom := ready.maxRoom
  have minRoom := ready.minRoom
  rw [repaired] at here ⊢
  rw [one] at here maxLength minLength maxRoom minRoom ⊢
  have scratched : P.AttainedOn st.chosen e (P.fromScratch st.chosen e 1) :=
    scratch_attained helperPool_sorted enabledBins_sorted maxRoom minRoom
  obtain ⟨maxLength', minLength'⟩ := fromScratch_length (e := e) minRoom
  have noHelper := List.length_eq_zero_iff.mp maxLength
  have noHelper' := List.length_eq_zero_iff.mp maxLength'
  rw [one] at valid
  exact le_antisymm
    (here.value_le noHelper noHelper' minLength minLength' (greedy_subset enabledBins_sorted minRoom))
    (scratched.value_le noHelper' noHelper minLength' minLength valid.minMem)

/-- **One step.** With a single step the searches emit the same, on every problem. -/
theorem emits_one (least : P.SelfLeast) (owned : P.ownedBins f ≠ []) {n : ℕ} (enough : P.owners.card ≤ n + 1) :
    (emitLoop (P.fastRound 1) n (P.start f)).items = (emitLoop (P.plainRound 1) n [f]).items := by
  have reached : P.ReachedRun 1 f := reachedRun_of_fixed least owned (List.length_pos_iff_ne_nil.mpr owned)
  exact (reached.emits_iff owned enough).mpr fun k st after =>
    (reached.warm owned k st after).tiesAgree_one (reached k st after)

end Problem

end Cmicot.Search
