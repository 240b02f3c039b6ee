import Cmicot.Search.Rounds
import Mathlib.Data.Finset.Sort

/-!
Searches after a bin that leaves nothing to say.

A bin settles the oracle if nothing is smaller than the value of any bins given it. Once such a bin is
enabled, every evaluation ends at this least value: from scratch because the bin is always left to be
a condition, and with a cache because recorded steps have the least value and are never displaced.
All bins then tie, and both searches go on with the smallest feature that is left.

* `Settling.value_scratch`, `Settling.value_repair`: both evaluations end at the least value.
* `Problem.Settles.fast_emits`, `Problem.Settles.plain_emits`: the rest of both rankings is ascending.
-/

namespace Cmicot.Search

open Greedy Loop

/-! ### Steps that have kept up with the recorded ones -/

section Tracks

variable {V : Type} {r : V → V → Prop} [DecidableRel r] {u : List ℕ → ℕ → V} {full last : List ℕ}
variable {old : List (ℕ × V)} {p : Pass ℕ V}

variable (old) in
/-- A pass over recorded steps has them all as long as it is narrow, and those before the position
where it was widened afterwards. -/
structure Tracks (p : Pass ℕ V) : Prop where
  narrow : p.wide = none → p.done ++ p.old = old
  wide : ∀ j, p.wide = some j → j ≤ p.done.length ∧ p.done.take j = old.take j

theorem tracks_start : Tracks old ⟨[], none, old⟩ := ⟨fun _ => rfl, fun _ none => by cases none⟩

theorem Tracks.step (tracks : Tracks old p) : Tracks old (Pass.step r u full last p) := by
  cases found : pick r (u (elements p.done)) (unused (p.pool full last) p.done) with
  | none => simpa [Pass.step, found] using tracks
  | some b =>
    rcases Pass.step_cases found with ⟨-, eq⟩ | ⟨o, rest, recorded, -, eq⟩ <;> rw [eq]
    · refine ⟨fun narrow => ?_, fun j wide => ?_⟩
      · cases was : p.wide <;> simp [Pass.place, was] at narrow
      · cases was : p.wide with
        | none =>
          obtain rfl : p.done.length = j := by simpa [Pass.place, was] using wide
          simp [Pass.place, ← tracks.narrow was]
        | some k =>
          obtain rfl : k = j := by simpa [Pass.place, was] using wide
          obtain ⟨le, same⟩ := tracks.wide k was
          refine ⟨by simp [Pass.place]; omega, ?_⟩
          rw [Pass.place, List.take_append_of_le_length le, same]
    · refine ⟨fun narrow => by simpa [Pass.keep, recorded] using tracks.narrow narrow, fun j wide => ?_⟩
      obtain ⟨le, same⟩ := tracks.wide j wide
      refine ⟨by simp [Pass.keep]; omega, ?_⟩
      rw [Pass.keep, List.take_append_of_le_length le, same]

theorem Tracks.run (tracks : Tracks old p) (k : ℕ) : Tracks old (Pass.run r u full last k p) := by
  induction k with
  | zero => exact tracks
  | succ k ih =>
    rw [Pass.run_succ]
    exact ih.step

end Tracks

/-! ### A settled oracle -/

section Settling

variable {V : Type} [LinearOrder V] {cmi : Oracle V} {z : V} {d e s : ℕ} {full enabled last helpers : List ℕ}

/-- Given the bin `d`, nothing but the least value is left. -/
structure Settling (cmi : Oracle V) (z : V) (d : ℕ) : Prop where
  least : ∀ second condition, z ≤ cmi second condition
  settled : ∀ second condition, d ∈ condition → cmi second condition = z

variable (settling : Settling cmi z d)
include settling

/-- **From scratch**, the last condition leaves the least value. -/
theorem Settling.value_scratch (fullSorted : full.Pairwise (· < ·)) (sorted : enabled.Pairwise (· < ·)) (pos : 0 < s)
    (helperRoom : s - 1 ≤ full.length) (room : s ≤ enabled.length) (mem : d ∈ enabled) :
    value cmi e (scratch cmi full enabled e s) = z := by
  set steps := scratch cmi full enabled e s with computed
  have helped : steps.maxSteps.length = s - 1 := greedy_length fullSorted helperRoom
  have length : steps.minSteps.length = s := greedy_length sorted room
  have last := List.getElem?_eq_getElem (show s - 1 < steps.minSteps.length by omega)
  obtain ⟨value_eq, least⟩ := scratch_condition computed.symm sorted room last
  have whole : value cmi e steps = steps.minSteps[s - 1].2 := by
    rw [value_eq, value, List.take_of_length_le (by simp [helped]), List.take_of_length_le (by simp; omega)]
  by_cases used : d ∈ (elements steps.minSteps).take (s - 1)
  · rw [whole, value_eq, settling.settled _ _ (List.take_subset_take_left _ (by omega) used)]
  · rw [whole]
    refine le_antisymm ((least d mem used).trans_eq (settling.settled _ _ (by simp))) ?_
    rw [value_eq]
    exact settling.least ..

omit settling [LinearOrder V] in
variable (cmi z e helpers) in
/-- All these conditions have the least value, recorded and actual. -/
def Vanishing (steps : List (ℕ × V)) : Prop :=
  ∀ k x, steps[k]? = some x → x.2 = z ∧ conditionValue cmi e helpers ((elements steps).take k) x.1 = z

omit settling [LinearOrder V] in
theorem Vanishing.take {steps : List (ℕ × V)} (vanishing : Vanishing cmi z e helpers steps) (j : ℕ) :
    Vanishing cmi z e helpers (steps.take j) := by
  intro k x at_k
  have lt : k < j := by
    have inside := (List.getElem?_eq_some_iff.mp at_k).1
    rw [List.length_take] at inside
    omega
  rw [List.getElem?_take_of_lt lt] at at_k
  rw [elements_take, List.take_take, Nat.min_eq_left lt.le]
  exact vanishing k x at_k

omit settling [LinearOrder V] in
/-- Another step of the least value. -/
theorem Vanishing.concat {steps : List (ℕ × V)} {b : ℕ} (vanishing : Vanishing cmi z e helpers steps)
    (least : conditionValue cmi e helpers (elements steps) b = z) :
    Vanishing cmi z e helpers (steps ++ [(b, conditionValue cmi e helpers (elements steps) b)]) := by
  intro k x at_k
  rcases Nat.lt_trichotomy k steps.length with lt | rfl | gt
  · rw [List.getElem?_append_left lt] at at_k
    rw [elements_append, List.take_append_of_le_length (by simpa using lt.le)]
    exact vanishing k x at_k
  · obtain rfl : (b, conditionValue cmi e helpers (elements steps) b) = x := by simpa using at_k
    rw [elements_append, List.take_append_of_le_length (by simp), List.take_of_length_le (by simp)]
    exact ⟨least, least⟩
  · have inside := (List.getElem?_eq_some_iff.mp at_k).1
    rw [List.length_append, List.length_singleton] at inside
    omega

omit settling [LinearOrder V] in
/-- Helpers that agree as far as the conditions see them. -/
theorem Vanishing.congr {steps : List (ℕ × V)} {helpers' : List ℕ} (vanishing : Vanishing cmi z e helpers steps)
    (same : ∀ k < steps.length, helpers'.take k = helpers.take k) : Vanishing cmi z e helpers' steps := by
  intro k x at_k
  have inside := (List.getElem?_eq_some_iff.mp at_k).1
  obtain ⟨recorded, actual⟩ := vanishing k x at_k
  refine ⟨recorded, actual ▸ ?_⟩
  have length : ((elements steps).take k).length = k := by
    rw [List.length_take, length_elements]
    omega
  rw [conditionValue_of_length length, conditionValue_of_length length, same k inside]

omit settling in
variable (cmi z d e s last helpers) in
/-- The conditions a pass has and still has recorded vanish; and while it is narrow, it cannot run out of
them without meeting `d`. -/
structure Settled (p : Pass ℕ V) : Prop where
  vanishing : Vanishing cmi z e helpers (p.done ++ p.old)
  reaches : p.wide = none →
    d ∈ elements (p.done ++ p.old) ∨ s ≤ (p.done ++ p.old).length ∨ d ∈ last

theorem Settled.step {p : Pass ℕ V} (settled : Settled cmi z d e s last helpers p)
    (sorted : enabled.Pairwise (· < ·)) (lastSorted : last.Pairwise (· < ·)) (mem : d ∈ enabled)
    (room : p.done.length < s) :
    Settled cmi z d e s last helpers (Pass.step (· < ·) (conditionValue cmi e helpers) enabled last p) := by
  cases found : pick (· < ·) (conditionValue cmi e helpers (elements p.done)) (unused (p.pool enabled last) p.done) with
  | none => simpa [Pass.step, found] using settled
  | some b =>
    have best := pick_best (unused_sorted (Pass.pool_sorted sorted lastSorted) _) found
    -- a step displaces nothing, so a new step comes after all recorded ones
    rcases Pass.step_cases found with ⟨fresh, eq⟩ | ⟨o, rest, recorded, -, eq⟩ <;> rw [eq]
    · have spent : p.old = [] := by
        rcases fresh with none | ⟨o, rest, recorded, wins⟩
        · exact none
        · have at_o : (p.done ++ p.old)[p.done.length]? = some o := by simp [recorded]
          rw [(settled.vanishing _ o at_o).1] at wins
          exact absurd wins (not_lt.mpr (settling.least ..))
      have done : Vanishing cmi z e helpers p.done := by simpa [spent] using settled.vanishing
      have available (unusedBin : d ∉ elements p.done) : d ∈ p.pool enabled last := by
        cases wide : p.wide with
        | some j => simpa [Pass.pool, wide] using mem
        | none =>
          rcases settled.reaches wide with met | enough | added
          · exact absurd (by simpa [spent] using met) unusedBin
          · rw [spent, List.append_nil] at enough
            omega
          · simpa [Pass.pool, wide] using added
      have least : conditionValue cmi e helpers (elements p.done) b = z := by
        by_cases met : d ∈ elements p.done
        · exact settling.settled _ _ (List.mem_append_left _ met)
        · refine le_antisymm ?_ (settling.least ..)
          have candidate := mem_unused.mpr ⟨available met, met⟩
          exact (not_lt.mp (best.not_beaten candidate)).trans_eq (settling.settled _ _ (by simp))
      refine ⟨?_, fun narrow => ?_⟩
      · simpa [Pass.place] using done.concat least
      · cases wide : p.wide <;> simp [Pass.place, wide] at narrow
    · have same : (p.keep o rest).done ++ (p.keep o rest).old = p.done ++ p.old := by simp [Pass.keep, recorded]
      exact ⟨same ▸ settled.vanishing, fun narrow => same ▸ settled.reaches narrow⟩

omit settling [LinearOrder V] in
theorem Pass.step_length_le {r : V → V → Prop} [DecidableRel r] {u : List ℕ → ℕ → V} {p : Pass ℕ V} :
    (Pass.step r u full last p).done.length ≤ p.done.length + 1 := by
  cases found : pick r (u (elements p.done)) (unused (p.pool full last) p.done) with
  | none => simp [Pass.step, found]
  | some b =>
    rcases Pass.step_cases found with ⟨-, eq⟩ | ⟨o, rest, -, -, eq⟩ <;> rw [eq]
    · simp [Pass.place]
    · simp [Pass.keep]

theorem Settled.run {p : Pass ℕ V} (settled : Settled cmi z d e s last helpers p)
    (sorted : enabled.Pairwise (· < ·)) (lastSorted : last.Pairwise (· < ·)) (mem : d ∈ enabled) {k : ℕ}
    (room : p.done.length + k ≤ s) :
    Settled cmi z d e s last helpers (Pass.run (· < ·) (conditionValue cmi e helpers) enabled last k p) ∧
      (Pass.run (· < ·) (conditionValue cmi e helpers) enabled last k p).done.length ≤ p.done.length + k := by
  induction k with
  | zero => exact ⟨settled, le_rfl⟩
  | succ k ih =>
    obtain ⟨held, length⟩ := ih (by omega)
    rw [Pass.run_succ]
    exact ⟨held.step settling sorted lastSorted mem (by omega), Pass.step_length_le.trans (by omega)⟩

omit settling in
/-- The conditions that survive the pass over the helpers still vanish with the new ones. -/
theorem Vanishing.surviving {t : ℕ} {old : Entry V} (ready : Ready full enabled last s old)
    (vanishing : Vanishing cmi z e (elements old.maxSteps) old.minSteps)
    (reaches : d ∈ elements old.minSteps ∨ t ≤ old.minSteps.length ∨ d ∈ last) (le : s ≤ t) :
    Settled cmi z d e s last (elements (maxPass cmi full last e s old).done)
      ⟨[], (maxPass cmi full last e s old).wide,
        Search.surviving (maxPass cmi full last e s old).wide old.minSteps⟩ := by
  have tracks : Tracks old.maxSteps (maxPass cmi full last e s old) := tracks_start.run _
  have length : (maxPass cmi full last e s old).done.length = s - 1 := (ready.maxPass cmi e le_rfl).2
  set helped := maxPass cmi full last e s old
  cases wide : helped.wide with
  | none =>
    have all := tracks.narrow wide
    have spent : helped.old = [] := List.eq_nil_of_length_eq_zero (by
      have total := congrArg List.length all
      have recorded := ready.maxLength
      rw [List.length_append] at total
      omega)
    rw [spent, List.append_nil] at all
    refine ⟨by simpa [Search.surviving, all] using vanishing, fun _ => ?_⟩
    exact reaches.imp id fun rest => rest.imp (fun enough => by simpa [Search.surviving] using le.trans enough) id
  | some j =>
    obtain ⟨-, same⟩ := tracks.wide j wide
    refine ⟨(vanishing.take (j + 1)).congr fun k lt => ?_, fun narrow => by cases narrow⟩
    rw [List.length_take] at lt
    have early := congrArg (List.take k) same
    rw [List.take_take, List.take_take, Nat.min_eq_left (by omega)] at early
    rw [← elements_take, ← elements_take, early]

/-- **With a cache**, repaired conditions leave the least value, and the next repair finds them so. -/
theorem Settling.value_repair {t : ℕ} {old : Entry V} (ready : Ready full enabled last s old) (mem : d ∈ enabled)
    (pos : 0 < s) (steps : s = min enabled.length t)
    (vanishing : Vanishing cmi z e (elements old.maxSteps) old.minSteps)
    (reaches : d ∈ elements old.minSteps ∨ t ≤ old.minSteps.length ∨ d ∈ last) :
    value cmi e (repair cmi full enabled last e s old) = z ∧
      Vanishing cmi z e (elements (repair cmi full enabled last e s old).maxSteps)
        (repair cmi full enabled last e s old).minSteps ∧
      (d ∈ elements (repair cmi full enabled last e s old).minSteps ∨
        t ≤ (repair cmi full enabled last e s old).minSteps.length) := by
  obtain ⟨valid, maxLength, minLength⟩ := repair_valid cmi e ready
  obtain ⟨held, -⟩ := (vanishing.surviving ready reaches (by omega)).run settling ready.enabledSorted
    ready.lastSorted mem (k := s) (by simp)
  have settled : Vanishing cmi z e (elements (repair cmi full enabled last e s old).maxSteps)
      (repair cmi full enabled last e s old).minSteps := by
    have done : (minPass cmi full enabled last e s old).done.length = s := minLength
    have all := held.vanishing.take s
    change Vanishing cmi z e _ (((minPass cmi full enabled last e s old).done ++ _).take s) at all
    rwa [List.take_append_of_le_length done.ge, List.take_of_length_le done.le] at all
  set new := repair cmi full enabled last e s old
  refine ⟨?_, settled, ?_⟩
  · have at_last := List.getElem?_eq_getElem (show s - 1 < new.minSteps.length by omega)
    rw [← (settled _ _ at_last).2, value, conditionValue_of_length (k := s - 1) (by simp; omega),
      ← elements_take_succ at_last, List.take_of_length_le (by simp; omega), List.take_of_length_le (by simp; omega)]
  · rcases Nat.le_total enabled.length t with few | many
    · exact .inl ((valid.mem_minSteps (by omega) d).mpr mem)
    · exact .inr (by omega)

end Settling

/-! ### Rounds after a settling bin -/

namespace Problem

variable {V : Type} {P : Problem V} {chosen : List ℕ} {b : ℕ}

/-- The features with bins that were not chosen, in ascending order. -/
def remaining (P : Problem V) (chosen : List ℕ) : List ℕ := (P.owners.filter (· ∉ chosen)).sort (· ≤ ·)

/-- The bins of a feature come before those of the next one. -/
def Ordered (P : Problem V) : Prop := ∀ b c, b ≤ c → c < P.binCount → P.owner b ≤ P.owner c

theorem remaining_of_none (none : (P.disabledBins chosen).head? = none) : P.remaining chosen = [] := by
  rw [List.head?_eq_none_iff] at none
  have empty : P.owners.filter (· ∉ chosen) = ∅ := by
    refine Finset.filter_eq_empty_iff.mpr fun f owned missing => ?_
    obtain ⟨b, mem⟩ := List.exists_mem_of_ne_nil _ (mem_owners.mp owned)
    obtain ⟨inside, rfl⟩ := mem_ownedBins.mp mem
    exact List.ne_nil_of_mem (mem_disabledBins.mpr ⟨inside, missing⟩) none
  rw [remaining, empty, Finset.sort_empty]

/-- The first disabled bin belongs to the smallest feature that is left. -/
theorem remaining_of_head (ordered : P.Ordered) (first : (P.disabledBins chosen).head? = some b) :
    P.remaining chosen = P.owner b :: P.remaining (chosen ++ [P.owner b]) := by
  obtain ⟨rest, bins⟩ : ∃ rest, P.disabledBins chosen = b :: rest := List.head?_eq_some_iff.mp first
  obtain ⟨inside, missing⟩ := mem_disabledBins.mp (show b ∈ P.disabledBins chosen by simp [bins])
  have sorted : (b :: rest).Pairwise (· < ·) := bins ▸ List.pairwise_lt_range.filter _
  have split : P.owners.filter (· ∉ chosen) =
      insert (P.owner b) (P.owners.filter (· ∉ chosen ++ [P.owner b])) := by
    ext f
    by_cases same : f = P.owner b
    · simp [same, missing, owner_mem_owners inside]
    · simp [same]
  rw [remaining, split, Finset.sort_insert]
  · rfl
  · intro f mem
    obtain ⟨owned, other⟩ := Finset.mem_filter.mp mem
    obtain ⟨c, own⟩ := List.exists_mem_of_ne_nil _ (mem_owners.mp owned)
    obtain ⟨inside', rfl⟩ := mem_ownedBins.mp own
    have left : c ∈ b :: rest := bins ▸ mem_disabledBins.mpr ⟨inside', fun old => other (by simp [old])⟩
    rcases List.mem_cons.mp left with rfl | later
    · exact le_rfl
    · exact ordered b c ((List.pairwise_cons.mp sorted).1 c later).le inside'
  · simp

/-- Rounds that always take the first disabled bin emit what remains. -/
theorem emits_remaining {σ : Type} {round : σ → Except Unit (ℕ × σ)} {I : List ℕ → σ → Prop} (ordered : P.Ordered)
    (next : ∀ chosen st, I chosen st → (P.disabledBins chosen).head? = none ∧ round st = .error () ∨
      ∃ b st', (P.disabledBins chosen).head? = some b ∧ round st = .ok (P.owner b, st') ∧
        I (chosen ++ [P.owner b]) st') (k : ℕ) {st : σ} (start : I chosen st) :
    (emitLoop round k st).items = (P.remaining chosen).take k ∧
      ((emitLoop round k st).stopped = none ↔ k ≤ (P.remaining chosen).length) := by
  induction k generalizing chosen st with
  | zero => simp [emitLoop]
  | succ k ih =>
    rcases next chosen st start with ⟨none, failed⟩ | ⟨b, st', first, ran, held⟩
    · simp [emitLoop, failed, remaining_of_none none]
    · obtain ⟨items, stopped⟩ := ih held
      rw [remaining_of_head ordered first]
      simp [emitLoop, ran, Emitted.cons, items, stopped]

variable [LinearOrder V] {z : V} {d t : ℕ} {st : State V}

/-- One of the bins leaves nothing but `z`. -/
structure Settles (P : Problem V) (z : V) (d : ℕ) : Prop where
  inside : d < P.binCount
  settling : Settling P.cmi z d

theorem Settles.stepCount_pos (settles : P.Settles z d) (pos : 0 < t) (on : P.owner d ∈ chosen) :
    0 < P.stepCount t chosen :=
  lt_min (List.length_pos_of_mem (mem_enabledBins.mpr ⟨settles.inside, on⟩)) pos

/-- **The plain search** goes on in ascending order. -/
theorem Settles.plain_emits (settles : P.Settles z d) (pos : 0 < t) (ordered : P.Ordered) (on : P.owner d ∈ chosen)
    (k : ℕ) :
    (emitLoop (P.plainRound t) k chosen).items = (P.remaining chosen).take k ∧
      ((emitLoop (P.plainRound t) k chosen).stopped = none ↔ k ≤ (P.remaining chosen).length) := by
  refine emits_remaining (I := fun chosen st => st = chosen ∧ P.owner d ∈ chosen) ordered ?_ k ⟨rfl, on⟩
  rintro chosen st ⟨rfl, on⟩
  have enabled := mem_enabledBins.mpr ⟨settles.inside, on⟩
  have best : P.plainBest t st = (P.disabledBins st).head? := pick_of_tied (z := z) fun e _ =>
    settles.settling.value_scratch helperPool_sorted enabledBins_sorted (settles.stepCount_pos pos on)
      (Nat.le_trans (Nat.sub_le ..) (Nat.le_trans (min_le_left ..) (enabledBins_length_le P st e)))
      (min_le_left ..) enabled
  cases first : (P.disabledBins st).head? with
  | none => exact .inl ⟨rfl, by simp only [plainRound, best, first]⟩
  | some b =>
    exact .inr ⟨b, st ++ [P.owner b], rfl, by simp only [plainRound, best, first], rfl, List.mem_append_left _ on⟩

variable (P z d t) in
/-- The cache of a fast search after a settling bin: the conditions recorded for a disabled bin vanish,
and include the settling bin, or are as many as there will ever be; if its feature was chosen last
they need not yet. -/
structure SettledCache (st : State V) : Prop where
  inv : P.Inv t st
  on : P.owner d ∈ st.chosen
  vanishing : ∀ e entry, st.cache[e]? = some entry → P.owner e ∉ st.chosen →
    Vanishing P.cmi z e (elements entry.maxSteps) entry.minSteps
  reaches : ∀ e entry, st.cache[e]? = some entry → P.owner e ∉ st.chosen →
    d ∈ elements entry.minSteps ∨ t ≤ entry.minSteps.length ∨ d ∈ P.lastBins st.chosen

theorem start_settledCache (settles : P.Settles z d) : P.SettledCache z d t (P.start (P.owner d)) := by
  have owned := mem_ownedBins.mpr ⟨settles.inside, rfl⟩
  refine ⟨start_inv (List.ne_nil_of_mem owned), by simp [start], fun e entry at_e _ => ?_, fun e entry _ _ => ?_⟩
  · obtain rfl : entry = .empty := by
      simp only [start, List.getElem?_replicate] at at_e
      split at at_e
      · exact (Option.some.inj at_e).symm
      · cases at_e
    intro k x at_k
    cases at_k
  · exact .inr (.inr owned)

/-- What a round finds and leaves. -/
theorem SettledCache.refreshed (settled : P.SettledCache z d t st) (settles : P.Settles z d) (pos : 0 < t) {e : ℕ}
    {entry : Entry V} (at_e : (P.refreshed t st)[e]? = some entry) (disabled : P.owner e ∉ st.chosen) :
    value P.cmi e entry = z ∧ Vanishing P.cmi z e (elements entry.maxSteps) entry.minSteps ∧
      (d ∈ elements entry.minSteps ∨ t ≤ entry.minSteps.length) := by
  rw [getElem?_refreshed, Option.map_eq_some_iff] at at_e
  obtain ⟨old, cached, rfl⟩ := at_e
  rw [if_neg disabled]
  exact settles.settling.value_repair (settled.inv.ready cached disabled)
    (mem_enabledBins.mpr ⟨settles.inside, settled.on⟩) (settles.stepCount_pos pos settled.on) rfl
    (settled.vanishing e old cached disabled) (settled.reaches e old cached disabled)

/-- **The fast search** goes on in ascending order, too. -/
theorem Settles.fast_emits (settles : P.Settles z d) (pos : 0 < t) (ordered : P.Ordered)
    (settled : P.SettledCache z d t st) (k : ℕ) :
    (emitLoop (P.fastRound t) k st).items = (P.remaining st.chosen).take k ∧
      ((emitLoop (P.fastRound t) k st).stopped = none ↔ k ≤ (P.remaining st.chosen).length) := by
  refine emits_remaining (I := fun chosen st => st.chosen = chosen ∧ P.SettledCache z d t st) ordered ?_ k
    ⟨rfl, settled⟩
  rintro _ st ⟨rfl, settled⟩
  have best : P.fastBest t st = (P.disabledBins st.chosen).head? := pick_of_tied (z := z) fun e mem => by
    obtain ⟨inside, disabled⟩ := mem_disabledBins.mp mem
    have lt : e < (P.refreshed t st).length := by simpa [Problem.refreshed, settled.inv.size] using inside
    have at_e := List.getElem?_eq_getElem lt
    rw [List.getD_eq_getElem?_getD, at_e, Option.getD_some]
    exact (settled.refreshed settles pos at_e disabled).1
  cases first : (P.disabledBins st.chosen).head? with
  | none => exact .inl ⟨rfl, by simp only [fastRound, best, first]⟩
  | some b =>
    refine .inr ⟨b, _, rfl, fastRound_of_best (best.trans first), rfl, ?_⟩
    obtain ⟨-, inv⟩ := settled.inv.round (best.trans first)
    have earlier {e : ℕ} (off : P.owner e ∉ st.chosen ++ [P.owner b]) : P.owner e ∉ st.chosen := fun old =>
      off (List.mem_append_left _ old)
    refine ⟨inv, List.mem_append_left _ settled.on, fun e entry at_e off => ?_, fun e entry at_e off => ?_⟩
    · exact (settled.refreshed settles pos at_e (earlier off)).2.1
    · exact (settled.refreshed settles pos at_e (earlier off)).2.2.imp_right .inl

end Problem

end Cmicot.Search
