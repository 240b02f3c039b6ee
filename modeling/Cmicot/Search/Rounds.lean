import Cmicot.Lib.Loop
import Cmicot.Search.Steps

/-!
The rounds of the search: backgrounds, the cached search and the plain one.

Every bin has an owner and the background is the list of features chosen so far. A round
scores every disabled bin and chooses the owner of the best one. The fast search repairs
the steps it recorded in the round before; the plain search starts each round from scratch.

* `Problem.Inv.round`: a fast round keeps the recorded steps legal.
-/

namespace Cmicot.Search

open Greedy Loop

/-! ### Backgrounds -/

/-- The bins, their owners and what they say about the label. -/
structure Problem (V : Type) where
  binCount : ℕ
  owner : ℕ → ℕ
  cmi : Oracle V

namespace Problem

variable {V : Type} (P : Problem V)

def ownedBins (f : ℕ) : List ℕ := (List.range P.binCount).filter fun b => P.owner b = f

/-- The bins of the chosen features. -/
def enabledBins (chosen : List ℕ) : List ℕ :=
  (List.range P.binCount).filter fun b => P.owner b ∈ chosen

def disabledBins (chosen : List ℕ) : List ℕ :=
  (List.range P.binCount).filter fun b => P.owner b ∉ chosen

/-- The bins of the feature chosen last. -/
def lastBins (chosen : List ℕ) : List ℕ :=
  match chosen.getLast? with
  | some f => P.ownedBins f
  | none => []

/-- The candidates for helpers of `e`: the enabled bins and `e` itself. -/
def helperPool (chosen : List ℕ) (e : ℕ) : List ℕ :=
  (List.range P.binCount).filter fun b => b = e ∨ P.owner b ∈ chosen

variable {P} {chosen prev : List ℕ} {b e f s t : ℕ}

@[simp] theorem mem_ownedBins : b ∈ P.ownedBins f ↔ b < P.binCount ∧ P.owner b = f := by
  simp [ownedBins]

@[simp] theorem mem_enabledBins : b ∈ P.enabledBins chosen ↔ b < P.binCount ∧ P.owner b ∈ chosen := by
  simp [enabledBins]

@[simp] theorem mem_disabledBins : b ∈ P.disabledBins chosen ↔ b < P.binCount ∧ P.owner b ∉ chosen := by
  simp [disabledBins]

@[simp] theorem mem_helperPool :
    b ∈ P.helperPool chosen e ↔ b < P.binCount ∧ (b = e ∨ P.owner b ∈ chosen) := by
  simp [helperPool]

@[simp] theorem lastBins_concat : P.lastBins (prev ++ [f]) = P.ownedBins f := by
  simp [lastBins]

theorem ownedBins_sorted : (P.ownedBins f).Pairwise (· < ·) := List.pairwise_lt_range.filter _

theorem enabledBins_sorted : (P.enabledBins chosen).Pairwise (· < ·) :=
  List.pairwise_lt_range.filter _

theorem helperPool_sorted : (P.helperPool chosen e).Pairwise (· < ·) :=
  List.pairwise_lt_range.filter _

/-- Every enabled bin is a candidate for helpers. -/
theorem enabledBins_length_le (P : Problem V) (chosen : List ℕ) (e : ℕ) :
    (P.enabledBins chosen).length ≤ (P.helperPool chosen e).length := by
  have sub : P.enabledBins chosen ⊆ P.helperPool chosen e := fun b hb => by
    simp only [mem_enabledBins, mem_helperPool] at hb ⊢
    exact ⟨hb.1, .inr hb.2⟩
  exact (List.subperm_of_subset enabledBins_sorted.nodup sub).length_le

/-- Without the bin itself the candidates for helpers are the enabled bins. -/
theorem helperPool_filter_ne (disabled : P.owner e ∉ chosen) :
    (P.helperPool chosen e).filter (· ≠ e) = P.enabledBins chosen := by
  rw [helperPool, enabledBins, List.filter_filter]
  refine List.filter_congr fun b _ => ?_
  by_cases eq : b = e
  · simp [eq, disabled]
  · simp [eq]

/-- The bin itself is one candidate more. -/
theorem enabledBins_length_lt (h : e < P.binCount) (disabled : P.owner e ∉ chosen) :
    (P.enabledBins chosen).length < (P.helperPool chosen e).length := by
  rw [← helperPool_filter_ne disabled]
  refine List.length_filter_lt_length_iff_exists.mpr ⟨e, mem_helperPool.mpr ⟨h, .inl rfl⟩, ?_⟩
  simp

theorem lastBins_filter_ne (disabled : P.owner e ∉ chosen) :
    (P.lastBins chosen).filter (· ≠ e) = P.lastBins chosen := by
  rw [List.filter_eq_self]
  intro b mem
  unfold lastBins at mem
  split at mem
  case h_1 f found =>
    have owner := (mem_ownedBins.mp mem).2
    have ne : b ≠ e := by
      rintro rfl
      exact disabled (owner ▸ List.mem_of_getLast? found)
    simpa using ne
  case h_2 => simp at mem

theorem enabledBins_length_mono (sub : prev ⊆ chosen) :
    (P.enabledBins prev).length ≤ (P.enabledBins chosen).length := by
  have sub' : P.enabledBins prev ⊆ P.enabledBins chosen := fun b hb => by
    simp only [mem_enabledBins] at hb ⊢
    exact ⟨hb.1, sub hb.2⟩
  exact (List.subperm_of_subset enabledBins_sorted.nodup sub').length_le

theorem enabledBins_extension (new : f ∉ prev) (owned : P.ownedBins f ≠ []) :
    Pass.Extension (P.enabledBins prev) (P.ownedBins f) (P.enabledBins (prev ++ [f])) where
  pool_sorted := enabledBins_sorted
  last_sorted := ownedBins_sorted
  full_sorted := enabledBins_sorted
  mem_full b := by
    simp only [mem_enabledBins, mem_ownedBins, List.mem_append, List.mem_singleton]
    tauto
  disjoint b hb := by
    simp only [mem_enabledBins, mem_ownedBins, not_and] at hb ⊢
    exact fun _ => hb.2 ▸ new
  added := owned

theorem helperPool_extension (new : f ∉ prev) (owned : P.ownedBins f ≠ []) (disabled : P.owner e ≠ f) :
    Pass.Extension (P.helperPool prev e) (P.ownedBins f) (P.helperPool (prev ++ [f]) e) where
  pool_sorted := helperPool_sorted
  last_sorted := ownedBins_sorted
  full_sorted := helperPool_sorted
  mem_full b := by
    simp only [mem_helperPool, mem_ownedBins, List.mem_append, List.mem_singleton]
    tauto
  disjoint b hb := by
    simp only [mem_helperPool, mem_ownedBins, not_and, not_or] at hb ⊢
    refine fun _ => ⟨?_, hb.2 ▸ new⟩
    rintro rfl
    exact disabled hb.2
  added := owned

/-! ### Rounds -/

variable [LinearOrder V] (P)

/-- The steps of `e` from scratch on the background of the chosen features. -/
def fromScratch (chosen : List ℕ) (e s : ℕ) : Entry V :=
  scratch P.cmi (P.helperPool chosen e) (P.enabledBins chosen) e s

/-- The recorded steps of `e`, brought up to date after the last feature was chosen. -/
def repaired (chosen : List ℕ) (e s : ℕ) (old : Entry V) : Entry V :=
  repair P.cmi (P.helperPool chosen e) (P.enabledBins chosen) (P.lastBins chosen) e s old

/-- The number of steps of a round. -/
def stepCount (t : ℕ) (chosen : List ℕ) : ℕ := min (P.enabledBins chosen).length t

/-- The feature of the bin that says most about the label on its own. -/
def firstFeature : Option ℕ :=
  (pick (· > ·) (fun b => P.cmi [b] []) (List.range P.binCount)).map P.owner

end Problem

/-- The state of the fast search. -/
structure State (V : Type) where
  chosen : List ℕ
  cache : List (Entry V)

namespace Problem

variable {V : Type} [LinearOrder V] (P : Problem V)

/-- The cache after every disabled bin was evaluated. -/
def refreshed (t : ℕ) (st : State V) : List (Entry V) :=
  st.cache.mapIdx fun e entry =>
    if P.owner e ∈ st.chosen then entry
    else P.repaired st.chosen e (P.stepCount t st.chosen) entry

/-- The bin a fast round chooses. -/
def fastBest (t : ℕ) (st : State V) : Option ℕ :=
  pick (· > ·) (fun e => value P.cmi e ((P.refreshed t st).getD e .empty)) (P.disabledBins st.chosen)

def fastRound (t : ℕ) (st : State V) : Except Unit (ℕ × State V) :=
  match P.fastBest t st with
  | some b => .ok (P.owner b, ⟨st.chosen ++ [P.owner b], P.refreshed t st⟩)
  | none => .error ()

/-- The bin a plain round chooses. -/
def plainBest (t : ℕ) (chosen : List ℕ) : Option ℕ :=
  pick (· > ·) (fun e => value P.cmi e (P.fromScratch chosen e (P.stepCount t chosen)))
    (P.disabledBins chosen)

def plainRound (t : ℕ) (chosen : List ℕ) : Except Unit (ℕ × List ℕ) :=
  match P.plainBest t chosen with
  | some b => .ok (P.owner b, chosen ++ [P.owner b])
  | none => .error ()

/-- The state after the first feature was chosen. -/
def start (f : ℕ) : State V := ⟨[f], List.replicate P.binCount .empty⟩

/-! ### The invariant of the fast search -/

/-- The steps recorded for `e` are legal for the background `prev` and `s` steps. -/
structure Recorded (s : ℕ) (prev : List ℕ) (e : ℕ) (entry : Entry V) : Prop where
  valid : entry.Valid (P.helperPool prev e) (P.enabledBins prev)
  maxLength : entry.maxSteps.length ≤ s - 1
  minLength : entry.minSteps.length ≤ s

/-- Distinct features, each with a bin, were chosen; the cache holds, for every bin still
disabled, steps that are legal for the background before the last choice. -/
structure Inv (t : ℕ) (st : State V) : Prop where
  concat : ∃ prev f, st.chosen = prev ++ [f]
  nodup : st.chosen.Nodup
  owned : ∀ f ∈ st.chosen, P.ownedBins f ≠ []
  size : st.cache.length = P.binCount
  entry : ∀ e entry, st.cache[e]? = some entry → P.owner e ∉ st.chosen →
    P.Recorded (P.stepCount t st.chosen.dropLast) st.chosen.dropLast e entry

variable {P} {chosen prev : List ℕ} {b e f s sOld t : ℕ} {entry : Entry V} {st : State V}

omit [LinearOrder V] in
theorem stepCount_mono (sub : prev ⊆ chosen) : P.stepCount t prev ≤ P.stepCount t chosen :=
  min_le_min_right t (enabledBins_length_mono sub)

omit [LinearOrder V] in
theorem empty_recorded (prev : List ℕ) : P.Recorded s prev e .empty :=
  ⟨Entry.empty_valid .., Nat.zero_le _, Nat.zero_le _⟩

omit [LinearOrder V] in
/-- Legal steps stay legal on a larger background. -/
theorem Recorded.mono (recorded : P.Recorded s prev e entry) (sub : prev ⊆ chosen) :
    P.Recorded s chosen e entry where
  valid :=
    { maxNodup := recorded.valid.maxNodup
      maxMem := fun b hb => by
        have := recorded.valid.maxMem b hb
        simp only [mem_helperPool] at this ⊢
        exact ⟨this.1, this.2.imp_right fun mem => sub mem⟩
      minNodup := recorded.valid.minNodup
      minMem := fun b hb => by
        have := recorded.valid.minMem b hb
        simp only [mem_enabledBins] at this ⊢
        exact ⟨this.1, sub this.2⟩ }
  maxLength := recorded.maxLength
  minLength := recorded.minLength

omit [LinearOrder V] in
/-- Legal steps are ready to be repaired once a new feature is chosen. -/
theorem Recorded.ready (recorded : P.Recorded sOld prev e entry) (new : f ∉ prev)
    (owned : P.ownedBins f ≠ []) (disabled : P.owner e ∉ prev ++ [f]) (grow : sOld ≤ s)
    (room : s ≤ (P.enabledBins (prev ++ [f])).length) :
    Ready (P.helperPool (prev ++ [f]) e) (P.enabledBins (prev ++ [f])) (P.lastBins (prev ++ [f])) s
      entry := by
  have other : P.owner e ≠ f := fun same => disabled (by simp [same])
  have extMax := helperPool_extension (e := e) new owned other
  have extMin := enabledBins_extension new owned
  rw [lastBins_concat]
  exact
    { valid := (recorded.mono (by simp)).valid
      maxNew := fun b hb mem => extMax.disjoint b mem (recorded.valid.maxMem b hb)
      minNew := fun b hb mem => extMin.disjoint b mem (recorded.valid.minMem b hb)
      fullSorted := extMax.full_sorted
      enabledSorted := extMin.full_sorted
      lastSorted := extMax.last_sorted
      lastFull := extMax.last_subset
      lastEnabled := extMin.last_subset
      added := owned
      maxRoom := Nat.le_trans (Nat.sub_le ..) (Nat.le_trans room (enabledBins_length_le ..))
      minRoom := room
      maxLength := Nat.le_trans recorded.maxLength (Nat.sub_le_sub_right grow 1)
      minLength := Nat.le_trans recorded.minLength grow }

/-- Repaired steps are legal for the background they were repaired for. -/
theorem repaired_recorded
    (ready : Ready (P.helperPool chosen e) (P.enabledBins chosen) (P.lastBins chosen) s entry) :
    P.Recorded s chosen e (P.repaired chosen e s entry) := by
  obtain ⟨valid, maxLength, minLength⟩ := repair_valid P.cmi e ready
  exact ⟨valid, maxLength.le, minLength.le⟩

theorem getElem?_refreshed :
    (P.refreshed t st)[e]? = st.cache[e]?.map fun entry =>
      if P.owner e ∈ st.chosen then entry
      else P.repaired st.chosen e (P.stepCount t st.chosen) entry := by
  simp [refreshed]

omit [LinearOrder V] in
/-- Before a round, the steps of every disabled bin are ready to be repaired. -/
theorem Inv.ready (inv : P.Inv t st) (cached : st.cache[e]? = some entry)
    (disabled : P.owner e ∉ st.chosen) :
    Ready (P.helperPool st.chosen e) (P.enabledBins st.chosen) (P.lastBins st.chosen)
      (P.stepCount t st.chosen) entry := by
  obtain ⟨prev, f, chosen⟩ := inv.concat
  have nodup := inv.nodup
  have owned := inv.owned f (by simp [chosen])
  have recorded := inv.entry e entry cached disabled
  rw [chosen] at recorded disabled nodup ⊢
  rw [List.dropLast_concat] at recorded
  exact recorded.ready (fun mem => (List.nodup_append.mp nodup).2.2 f mem f (by simp) rfl) owned
    disabled (stepCount_mono (by simp)) (min_le_left ..)

theorem Inv.refreshed (inv : P.Inv t st) (at_e : (P.refreshed t st)[e]? = some entry)
    (disabled : P.owner e ∉ st.chosen) : P.Recorded (P.stepCount t st.chosen) st.chosen e entry := by
  rw [getElem?_refreshed, Option.map_eq_some_iff] at at_e
  obtain ⟨old, cached, rfl⟩ := at_e
  rw [if_neg disabled]
  exact repaired_recorded (inv.ready cached disabled)

/-- What a round does: it adds the owner of the chosen disabled bin. -/
theorem Inv.round (inv : P.Inv t st) (best : P.fastBest t st = some b) :
    P.owner b ∉ st.chosen ∧ P.Inv t ⟨st.chosen ++ [P.owner b], P.refreshed t st⟩ := by
  have mem := mem_disabledBins.mp (pick_mem best)
  refine ⟨mem.2, ⟨⟨_, _, rfl⟩, ?_, ?_, by simpa [Problem.refreshed] using inv.size, ?_⟩⟩
  · simpa using List.Nodup.concat mem.2 inv.nodup
  · intro f hf
    rcases List.mem_append.mp hf with hf | hf
    · exact inv.owned f hf
    · rw [List.mem_singleton.mp hf]
      exact List.ne_nil_of_mem (mem_ownedBins.mpr ⟨mem.1, rfl⟩)
  · intro e entry at_e disabled
    rw [List.dropLast_concat]
    exact inv.refreshed at_e fun in_old => disabled (by simp [in_old])

omit [LinearOrder V] in
theorem start_inv (owned : P.ownedBins f ≠ []) : P.Inv t (P.start f) where
  concat := ⟨[], f, rfl⟩
  nodup := by simp [start]
  owned := by simpa [start] using owned
  size := by simp [start]
  entry := by
    intro e entry at_e _
    have : entry = .empty := by
      simp only [start, List.getElem?_replicate] at at_e
      split at at_e
      · exact (Option.some.inj at_e).symm
      · cases at_e
    exact this ▸ empty_recorded _

theorem exists_fastBest (left : P.disabledBins st.chosen ≠ []) : ∃ b, P.fastBest t st = some b :=
  exists_pick left

/-! ### What a whole search emits -/

variable (P) in
/-- The features that own a bin. -/
def owners : Finset ℕ := ((List.range P.binCount).map P.owner).toFinset

omit [LinearOrder V] in
theorem mem_owners : f ∈ P.owners ↔ P.ownedBins f ≠ [] := by
  rw [← List.length_pos_iff_ne_nil, List.length_pos_iff_exists_mem]
  simp [owners]

omit [LinearOrder V] in
theorem owner_mem_owners (h : b < P.binCount) : P.owner b ∈ P.owners :=
  mem_owners.mpr (List.ne_nil_of_mem (mem_ownedBins.mpr ⟨h, rfl⟩))

omit [LinearOrder V] in
/-- Distinct features that own bins are at most as many as there are owners. -/
theorem length_le_owners (nodup : chosen.Nodup) (owned : ∀ f ∈ chosen, P.ownedBins f ≠ []) :
    chosen.length ≤ P.owners.card := by
  rw [← List.toFinset_card_of_nodup nodup]
  exact Finset.card_le_card fun f hf => mem_owners.mpr (owned f (List.mem_toFinset.mp hf))

omit [LinearOrder V] in
/-- No bin is disabled once every owner is chosen. -/
theorem owners_le_of_disabledBins (none : P.disabledBins chosen = []) :
    P.owners.card ≤ chosen.length := by
  refine Nat.le_trans (Finset.card_le_card fun f hf => ?_) (List.toFinset_card_le chosen)
  obtain ⟨b, hb⟩ := List.exists_mem_of_ne_nil _ (mem_owners.mp hf)
  obtain ⟨inside, rfl⟩ := mem_ownedBins.mp hb
  rw [List.mem_toFinset]
  by_contra missing
  exact List.ne_nil_of_mem (mem_disabledBins.mpr ⟨inside, missing⟩) none

theorem fastRound_of_best (best : P.fastBest t st = some b) :
    P.fastRound t st = .ok (P.owner b, ⟨st.chosen ++ [P.owner b], P.refreshed t st⟩) := by
  simp only [fastRound, best]

/-- **A search emits every owner once**: `k` rounds add `k` further distinct owners, or all
that are left, and the search stops early only in the latter case. -/
theorem Inv.emits (inv : P.Inv t st) (k : ℕ) :
    (st.chosen ++ (emitLoop (P.fastRound t) k st).items).Nodup ∧
      (∀ f ∈ (emitLoop (P.fastRound t) k st).items, f ∈ P.owners) ∧
      (emitLoop (P.fastRound t) k st).items.length = min k (P.owners.card - st.chosen.length) ∧
      ((emitLoop (P.fastRound t) k st).stopped = none ↔ k ≤ P.owners.card - st.chosen.length) := by
  induction k generalizing st with
  | zero => simpa [emitLoop] using inv.nodup
  | succ k ih =>
    by_cases left : P.disabledBins st.chosen = []
    · have all := owners_le_of_disabledBins left
      have failed : P.fastRound t st = .error () := by
        simp [fastRound, fastBest, left, pick]
      simp only [emitLoop, failed]
      refine ⟨by simpa using inv.nodup, by simp, ?_, ?_⟩
      · simp only [List.length_nil]
        omega
      · simp only [reduceCtorEq, false_iff]
        omega
    · obtain ⟨b, best⟩ := exists_fastBest (t := t) left
      obtain ⟨-, inv'⟩ := inv.round best
      have mem := mem_disabledBins.mp (pick_mem best)
      have more := length_le_owners inv'.nodup inv'.owned
      obtain ⟨nodup, owned, length, stopped⟩ := ih inv'
      simp only [List.length_append, List.length_singleton] at more length stopped
      simp only [emitLoop, fastRound_of_best best, Emitted.cons]
      refine ⟨by simpa using nodup, ?_, ?_, ?_⟩
      · intro f hf
        rcases List.mem_cons.mp hf with rfl | hf
        · exact owner_mem_owners mem.1
        · exact owned f hf
      · rw [List.length_cons, length]
        omega
      · rw [stopped]
        omega

end Problem

end Cmicot.Search
