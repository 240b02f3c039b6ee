import Cmicot.Lib.Greedy

/-!
The steps behind the score of one bin, over an oracle for conditional mutual information.

Bins are numbers. The score of a bin is found in two greedy phases: helpers that make the
bin most informative about the label, then conditions that make the bin with its helpers
least informative. `scratch` computes the steps from nothing; `repair` brings the steps
recorded for an earlier background up to date after bins were added. Nothing here refers
to rows, codes or machine integers.

* `repair_valid`: a repair always finds candidates and returns the asked number of steps.
-/

namespace Cmicot.Search

open Greedy

/-! ### Steps of one bin -/

/-- The recorded steps of a bin. -/
structure Entry (V : Type) where
  maxSteps : List (ℕ × V)
  minSteps : List (ℕ × V)
deriving DecidableEq

namespace Entry

variable {V : Type}

def empty : Entry V := ⟨[], []⟩

/-- The steps are distinct bins of their pools. -/
structure Valid (full enabled : List ℕ) (entry : Entry V) : Prop where
  maxNodup : (elements entry.maxSteps).Nodup
  maxMem : ∀ b ∈ elements entry.maxSteps, b ∈ full
  minNodup : (elements entry.minSteps).Nodup
  minMem : ∀ b ∈ elements entry.minSteps, b ∈ enabled

/-- As many distinct conditions as there are bins to choose from are all of them. -/
theorem Valid.mem_minSteps {full enabled : List ℕ} {entry : Entry V} (valid : entry.Valid full enabled)
    (all : enabled.length ≤ entry.minSteps.length) (b : ℕ) : b ∈ elements entry.minSteps ↔ b ∈ enabled :=
  ((List.subperm_of_subset valid.minNodup valid.minMem).perm_of_length_le (by simpa using all)).mem_iff

theorem empty_valid (full enabled : List ℕ) : (empty : Entry V).Valid full enabled :=
  ⟨.nil, by simp [empty], .nil, by simp [empty]⟩

end Entry

section Steps

variable {V : Type} [LinearOrder V]

/-- `cmi second condition`: what the bins `second` say about the label given `condition`. -/
abbrev Oracle (V : Type) := List ℕ → List ℕ → V

variable (cmi : Oracle V) (full enabled last : List ℕ) (e s : ℕ)

/-- The value of `b` as the next helper of `e`. -/
def helperValue (helpers : List ℕ) (b : ℕ) : V := cmi [e] (helpers ++ [b])

/-- The value of `b` as the next condition; condition `i` sees the first `i` helpers. -/
def conditionValue (helpers conditions : List ℕ) (b : ℕ) : V :=
  cmi (e :: helpers.take conditions.length) (conditions ++ [b])

/-- The steps from scratch: `s - 1` helpers from `full`, `s` conditions from `enabled`. -/
def scratch : Entry V :=
  let maxSteps := greedy (· > ·) (helperValue cmi e) full (s - 1)
  ⟨maxSteps, greedy (· < ·) (conditionValue cmi e (elements maxSteps)) enabled s⟩

/-- The pass over the recorded helpers. -/
def maxPass (old : Entry V) : Pass ℕ V :=
  Pass.run (· > ·) (helperValue cmi e) full last (s - 1) ⟨[], none, old.maxSteps⟩

/-- The conditions that survive a new helper at position `j`: up to `j` itself, which does
not see that helper yet. -/
def surviving (wide : Option ℕ) (old : List (ℕ × V)) : List (ℕ × V) :=
  match wide with
  | none => old
  | some j => old.take (j + 1)

/-- The pass over the recorded conditions, after the one over the helpers. -/
def minPass (old : Entry V) : Pass ℕ V :=
  let helped := maxPass cmi full last e s old
  Pass.run (· < ·) (conditionValue cmi e (elements helped.done)) enabled last s
    ⟨[], helped.wide, surviving helped.wide old.minSteps⟩

/-- The recorded steps, brought up to date. -/
def repair (old : Entry V) : Entry V :=
  ⟨(maxPass cmi full last e s old).done, (minPass cmi full enabled last e s old).done⟩

/-- What the bin and its helpers still say about the label under all conditions. -/
def value (entry : Entry V) : V := cmi (e :: elements entry.maxSteps) (elements entry.minSteps)

end Steps

/-! ### Steps from scratch -/

section Scratch

variable {V : Type} [LinearOrder V] {cmi : Oracle V} {full enabled : List ℕ} {e s : ℕ} {steps : Entry V}

omit [LinearOrder V] in
theorem conditionValue_of_length {helpers conditions : List ℕ} {k : ℕ} (length : conditions.length = k) (b : ℕ) :
    conditionValue cmi e helpers conditions b = cmi (e :: helpers.take k) (conditions ++ [b]) := by
  rw [conditionValue, length]

/-- The conditions from scratch: each has its value, and no bin that was left has a smaller one. -/
theorem scratch_condition (computed : scratch cmi full enabled e s = steps) (sorted : enabled.Pairwise (· < ·))
    (room : s ≤ enabled.length) {k : ℕ} {x : ℕ × V} (at_k : steps.minSteps[k]? = some x) :
    x.2 = cmi (e :: (elements steps.maxSteps).take k) ((elements steps.minSteps).take (k + 1)) ∧
      ∀ c ∈ enabled, c ∉ (elements steps.minSteps).take k →
        x.2 ≤ cmi (e :: (elements steps.maxSteps).take k) ((elements steps.minSteps).take k ++ [c]) := by
  subst computed
  have inside : k < (scratch cmi full enabled e s).minSteps.length := (List.getElem?_eq_some_iff.mp at_k).1
  have length : ((elements (scratch cmi full enabled e s).minSteps).take k).length = k := by
    rw [List.length_take, length_elements, Nat.min_eq_left inside.le]
  obtain ⟨value, best⟩ := (greedy_isGreedy (r := (· < ·))
    (u := conditionValue cmi e (elements (scratch cmi full enabled e s).maxSteps)) sorted room).choice k x at_k
  rw [elements_take_succ at_k]
  refine ⟨value.trans (conditionValue_of_length length x.1), fun c mem unused => ?_⟩
  have least := not_lt.mp (best.not_beaten (c := c) (by simpa using ⟨mem, unused⟩))
  exact (value.trans_le least).trans_eq (conditionValue_of_length length c)

end Scratch

/-! ### Progress -/

section Progress

variable {V : Type} [LinearOrder V] {cmi : Oracle V} {full enabled last : List ℕ} {e s : ℕ}
variable {old : Entry V}

/-- What a repair needs: the recorded steps avoid the added bins, and there is room. -/
structure Ready (full enabled last : List ℕ) (s : ℕ) (old : Entry V) : Prop where
  valid : old.Valid full enabled
  maxNew : ∀ b ∈ elements old.maxSteps, b ∉ last
  minNew : ∀ b ∈ elements old.minSteps, b ∉ last
  fullSorted : full.Pairwise (· < ·)
  enabledSorted : enabled.Pairwise (· < ·)
  lastSorted : last.Pairwise (· < ·)
  lastFull : ∀ b ∈ last, b ∈ full
  lastEnabled : ∀ b ∈ last, b ∈ enabled
  added : last ≠ []
  maxRoom : s - 1 ≤ full.length
  minRoom : s ≤ enabled.length
  maxLength : old.maxSteps.length ≤ s - 1
  minLength : old.minSteps.length ≤ s

omit [LinearOrder V] in
theorem surviving_isPrefix (wide : Option ℕ) (old : List (ℕ × V)) : surviving wide old <+: old := by
  cases wide with
  | none => exact List.prefix_refl _
  | some j => exact List.take_prefix ..

omit [LinearOrder V] in
theorem Ready.maxStart (ready : Ready full enabled last s old) :
    (⟨[], none, old.maxSteps⟩ : Pass ℕ V).Valid full last :=
  ⟨ready.valid.maxNodup, ready.valid.maxMem, fun _ => ready.maxNew⟩

omit [LinearOrder V] in
theorem Ready.minStart (ready : Ready full enabled last s old) (wide : Option ℕ) :
    (⟨[], wide, surviving wide old.minSteps⟩ : Pass ℕ V).Valid enabled last := by
  have sub := (surviving_isPrefix wide old.minSteps).sublist.map Prod.fst
  refine ⟨ready.valid.minNodup.sublist sub, fun b hb => ready.valid.minMem b (sub.subset hb),
    fun _ b hb => ready.minNew b (sub.subset hb)⟩

theorem Ready.maxPass (ready : Ready full enabled last s old) (cmi : Oracle V) (e : ℕ) {k : ℕ} (le : k ≤ s - 1) :
    (Pass.run (· > ·) (helperValue cmi e) full last k ⟨[], none, old.maxSteps⟩).Valid full last ∧
      (Pass.run (· > ·) (helperValue cmi e) full last k ⟨[], none, old.maxSteps⟩).done.length = k := by
  have ran := ready.maxStart.run (r := (· > ·)) (u := helperValue cmi e) ready.fullSorted.nodup
    ready.added ready.lastFull (k := k) (by simpa using le.trans ready.maxRoom)
  simpa using ran

theorem Ready.minPass (ready : Ready full enabled last s old) (cmi : Oracle V) (e : ℕ) (helpers : List ℕ)
    (wide : Option ℕ) {k : ℕ} (le : k ≤ s) :
    (Pass.run (· < ·) (conditionValue cmi e helpers) enabled last k
        ⟨[], wide, surviving wide old.minSteps⟩).Valid enabled last ∧
      (Pass.run (· < ·) (conditionValue cmi e helpers) enabled last k
        ⟨[], wide, surviving wide old.minSteps⟩).done.length = k := by
  have ran := (ready.minStart wide).run (r := (· < ·)) (u := conditionValue cmi e helpers)
    ready.enabledSorted.nodup ready.added ready.lastEnabled (k := k)
    (by simpa using le.trans ready.minRoom)
  simpa using ran

omit [LinearOrder V] in
theorem valid_done {p : Pass ℕ V} (valid : p.Valid full last) :
    (elements p.done).Nodup ∧ ∀ b ∈ elements p.done, b ∈ full := by
  have nodup := valid.nodup
  rw [elements_append] at nodup
  exact ⟨(List.nodup_append.mp nodup).1, fun b hb => valid.mem_full b (by simp [hb])⟩

/-- **A repair never gets stuck**: it returns `s - 1` distinct helpers and `s` distinct
conditions of their pools. -/
theorem repair_valid (cmi : Oracle V) (e : ℕ) (ready : Ready full enabled last s old) :
    (repair cmi full enabled last e s old).Valid full enabled ∧
      (repair cmi full enabled last e s old).maxSteps.length = s - 1 ∧
      (repair cmi full enabled last e s old).minSteps.length = s := by
  obtain ⟨maxValid, maxLength⟩ := ready.maxPass cmi e (Nat.le_refl (s - 1))
  obtain ⟨minValid, minLength⟩ := ready.minPass cmi e
    (elements (Search.maxPass cmi full last e s old).done)
    (Search.maxPass cmi full last e s old).wide (Nat.le_refl s)
  obtain ⟨maxNodup, maxMem⟩ := valid_done maxValid
  obtain ⟨minNodup, minMem⟩ := valid_done minValid
  exact ⟨⟨maxNodup, maxMem, minNodup, minMem⟩, maxLength, minLength⟩

end Progress

end Cmicot.Search
