import Cmicot.Lib.Greedy

/-!
Greedy steps up to ties, and the passes that take them.

Where values tie there is more than one greedy run. `Attained` says of a list of steps that
it is one of them: every step has its value, and no candidate left at that step beats it.
A pass that looks only at the added elements can miss the best candidate of an additional
step; `Reaches` says that it does not.

* `Pass.attained_iff_reaches`: a pass takes attained steps iff its search reaches the best
  candidate of the first additional step.
* `Pass.run_promote`: such a pass takes the steps of the pass that looks at every candidate,
  the added ones first.
-/

namespace Cmicot.Greedy

/-! ### A choice from a longer list -/

section Pick

variable {α V : Type} {r : V → V → Prop} [DecidableRel r] [IsStrictTotalOrder V r] {f : α → V}
variable {l rest : List α} {b c : α}

omit [DecidableRel r] in
/-- What does not beat something that does not beat `v` does not beat `v`. -/
theorem not_beats_trans {x y v : V} (first : ¬ r x y) (second : ¬ r y v) : ¬ r x v := by
  intro wins
  rcases trichotomous_of r x y with beats | rfl | beats
  · exact first beats
  · exact second wins
  · exact second (IsTrans.trans _ _ _ beats wins)

theorem foldl_better_not_beaten (x : α) (l : List α) :
    ∀ c ∈ x :: l, ¬ r (f c) (f (l.foldl (better r f) x)) := by
  induction l generalizing x with
  | nil => simpa using irrefl (f x)
  | cons y ys ih =>
    rw [List.foldl_cons]
    have head := ih (better r f x y) (better r f x y) List.mem_cons_self
    have kept : ¬ r (f x) (f (better r f x y)) ∧ ¬ r (f y) (f (better r f x y)) := by
      unfold better
      split
      case isTrue wins => exact ⟨asymm wins, irrefl _⟩
      case isFalse loses => exact ⟨irrefl _, loses⟩
    intro c mem
    rcases List.mem_cons.mp mem with rfl | mem
    · exact not_beats_trans kept.1 head
    · rcases List.mem_cons.mp mem with rfl | mem
      · exact not_beats_trans kept.2 head
      · exact ih _ c (List.mem_cons_of_mem _ mem)

/-- Nothing in the list beats the choice. -/
theorem pick_not_beaten (found : pick r f l = some b) (mem : c ∈ l) : ¬ r (f c) (f b) := by
  cases l with
  | nil => cases found
  | cons x l =>
    cases found
    exact foldl_better_not_beaten x l c mem

omit [IsStrictTotalOrder V r] in
/-- A choice that nothing further down the list beats is the choice from the whole list. -/
theorem pick_append (found : pick r f l = some b) (least : ∀ c ∈ rest, ¬ r (f c) (f b)) :
    pick r f (l ++ rest) = some b := by
  cases l with
  | nil => cases found
  | cons x l =>
    rw [pick, Option.some.injEq] at found
    rw [List.cons_append, pick, List.foldl_append, found, Option.some.injEq]
    induction rest with
    | nil => rfl
    | cons y ys ih =>
      rw [List.foldl_cons, better, if_neg (least y List.mem_cons_self)]
      exact ih fun c mem => least c (List.mem_cons_of_mem _ mem)

end Pick

/-! ### Steps up to ties -/

section Attained

variable {α V : Type} (r : V → V → Prop) (u : List α → α → V)

/-- Every step has its value, and no candidate left at that step beats it. -/
def Attained (pool : List α) (steps : List (α × V)) : Prop :=
  ∀ i x, steps[i]? = some x → x.2 = u ((elements steps).take i) x.1 ∧
    ∀ c ∈ pool, c ∉ (elements steps).take i → ¬ r (u ((elements steps).take i) c) x.2

variable {r u} {pool : List α} {steps : List (α × V)}

theorem attained_nil (pool : List α) : Attained r u pool [] := by
  simp [Attained]

/-- Only the candidates matter, not their order. -/
theorem Attained.mono {other : List α} (attained : Attained r u pool steps) (sub : ∀ x ∈ other, x ∈ pool) :
    Attained r u other steps := fun i x at_i =>
  ⟨(attained i x at_i).1, fun c mem left => (attained i x at_i).2 c (sub c mem) left⟩

/-- Only what comes before a step matters to it. -/
theorem Attained.take (attained : Attained r u pool steps) (k : ℕ) : Attained r u pool (steps.take k) := by
  intro i x at_i
  have lt : i < k := by
    have inside := (List.getElem?_eq_some_iff.mp at_i).1
    exact (List.length_take .. ▸ inside).trans_le (min_le_left ..)
  rw [List.getElem?_take_of_lt lt] at at_i
  rw [elements_take, List.take_take, Nat.min_eq_left lt.le]
  exact attained i x at_i

theorem Attained.concat {b : α} {v : V} (attained : Attained r u pool steps) (value : v = u (elements steps) b)
    (best : ∀ c ∈ pool, c ∉ elements steps → ¬ r (u (elements steps) c) v) :
    Attained r u pool (steps ++ [(b, v)]) := by
  intro i x at_i
  rcases Nat.lt_or_ge i steps.length with lt | ge
  · rw [List.getElem?_append_left lt] at at_i
    rw [elements_append, List.take_append_of_le_length (by simpa using lt.le)]
    exact attained i x at_i
  · rw [List.getElem?_append_right ge, List.getElem?_singleton] at at_i
    split at at_i
    case isFalse => cases at_i
    case isTrue zero =>
      cases at_i
      have last : i = steps.length := by omega
      rw [elements_append, List.take_append_of_le_length (by simp [last]),
        List.take_of_length_le (by simp [last])]
      exact ⟨value, best⟩

/-- Steps depend on the values up to their own number only. -/
theorem Attained.congr {u' : List α → α → V} (attained : Attained r u pool steps)
    (agree : ∀ i < steps.length, ∀ x, u ((elements steps).take i) x = u' ((elements steps).take i) x) :
    Attained r u' pool steps := by
  intro i x at_i
  have same := agree i (List.getElem?_eq_some_iff.mp at_i).1
  obtain ⟨value, best⟩ := attained i x at_i
  refine ⟨value.trans (same x.1), fun c mem left => ?_⟩
  rw [← same c]
  exact best c mem left

theorem IsGreedy.attained [LinearOrder α] [IsStrictTotalOrder V r] {k : ℕ}
    (greedily : IsGreedy r u pool k steps) : Attained r u pool steps := by
  intro i x at_i
  obtain ⟨value, best⟩ := greedily.choice i x at_i
  refine ⟨value, fun c mem left => ?_⟩
  rw [value]
  exact best.not_beaten (List.mem_filter.mpr ⟨mem, by simpa using left⟩)

end Attained

/-! ### A pass that looks at every candidate -/

section Promote

variable {α V : Type}

/-- The whole pool, the added elements first. -/
def promote [DecidableEq α] (last full : List α) : List α := last ++ full.filter (· ∉ last)

variable [LinearOrder α]

theorem mem_promote {last full : List α} (sub : ∀ x ∈ last, x ∈ full) {x : α} :
    x ∈ promote last full ↔ x ∈ full := by
  simp only [promote, List.mem_append, List.mem_filter, decide_eq_true_eq]
  exact ⟨fun h => h.elim (sub x) (·.1), fun mem => or_iff_not_imp_left.mpr fun other => ⟨mem, other⟩⟩

theorem unused_promote (last full : List α) (steps : List (α × V)) :
    unused (promote last full) steps = unused last steps ++ unused (full.filter (· ∉ last)) steps :=
  List.filter_append ..

end Promote

namespace Pass

/-! ### What a narrow search has to find -/

section Reaches

variable {α V : Type} (r : V → V → Prop) (u : List α → α → V)

/-- No added element beats a recorded step. -/
def Unbeaten (last : List α) (old : List (α × V)) : Prop :=
  ∀ i : Fin old.length, ∀ b ∈ last, ¬ r (u ((elements old).take i) b) (old.get i).2

variable [LinearOrder α]

/-- Where a narrow pass of `k` steps has to fill an additional step, an added element is among
the best candidates. -/
def Reaches (last full : List α) (k : ℕ) (wide : Option ℕ) (old : List (α × V)) : Prop :=
  wide = none → old.length < k → Unbeaten r u last old →
    ∃ b ∈ last, ∀ c ∈ unused full old, ¬ r (u (elements old) c) (u (elements old) b)

variable {r u} [DecidableRel r] {last full : List α} {k : ℕ} {wide : Option ℕ} {old : List (α × V)}

instance : Decidable (Unbeaten r u last old) :=
  inferInstanceAs (Decidable (∀ i : Fin old.length, ∀ b ∈ last,
    ¬ r (u ((elements old).take i) b) (old.get i).2))

instance : Decidable (Reaches r u last full k wide old) :=
  inferInstanceAs (Decidable (wide = none → old.length < k → _ → ∃ b ∈ last, _))

end Reaches

variable {α V : Type} [LinearOrder α] {r : V → V → Prop} [DecidableRel r] {u : List α → α → V}
variable {pool last full : List α} {p : Pass α V} {old : List (α × V)} {wide : Option ℕ} {i k : ℕ}

/-- A widened pass does not look at the added elements. -/
theorem run_of_wide (other : List α) (k : ℕ) (wide : p.wide.isSome = true) :
    run r u full last k p = run r u full other k p := by
  induction k generalizing p with
  | zero => rfl
  | succ k ih =>
    have same : step r u full last p = step r u full other p := by
      simp only [step, Pass.pool, wide, if_true]
    rw [run_succ', run_succ', same]
    refine ih ?_
    cases found : pick r (u (elements p.done)) (unused (p.pool full other) p.done) with
    | none => simpa [step, found] using wide
    | some b =>
      rcases step_cases found with ⟨-, eq⟩ | ⟨o, rest, -, -, eq⟩ <;> rw [eq]
      · simp [place]
      · exact wide

variable (old wide) in
/-- The pass after `i` steps, as long as it has only kept recorded steps. -/
def kept (i : ℕ) : Pass α V := ⟨old.take i, wide, old.drop i⟩

omit [LinearOrder α] in
theorem kept_old {o : α × V} (recorded : old[i]? = some o) : (kept old wide i).old = o :: old.drop (i + 1) := by
  obtain ⟨bound, rfl⟩ := List.getElem?_eq_some_iff.mp recorded
  exact List.drop_eq_getElem_cons bound

omit [LinearOrder α] in
theorem kept_keep {o : α × V} (recorded : old[i]? = some o) :
    (kept old wide i).keep o (old.drop (i + 1)) = kept old wide (i + 1) := by
  simp only [keep, kept, List.take_add_one, recorded, Option.toList_some]

/-- A step at a recorded step, after the choice `b`. -/
theorem step_kept_of_pick {other : List α} {o : α × V} {b : α} (at_i : old[i]? = some o)
    (found : pick r (u ((elements old).take i)) (unused other (old.take i)) = some b) :
    step r u full other (kept old none i) =
      if r (u ((elements old).take i) b) o.2 then (kept old none i).place b (u ((elements old).take i) b)
      else kept old none (i + 1) := by
  have found : pick r (u (elements (kept old none i).done))
      (unused ((kept old none i).pool full other) (kept old none i).done) = some b := by
    simpa [kept, Pass.pool] using found
  simp only [step, found, kept_old at_i, kept_keep at_i]
  rw [show elements (kept old none i).done = (elements old).take i from elements_take old i]

/-- A step past the recorded ones, after the choice `b`. -/
theorem step_end_of_pick {other : List α} {b : α}
    (found : pick r (u (elements old)) (unused other old) = some b) :
    step r u full other (kept old none old.length) =
      (kept old none old.length).place b (u (elements old) b) := by
  have done : (kept old none old.length).done = old := List.take_length
  have spent : (kept old none old.length).old = [] := List.drop_length
  have found : pick r (u (elements (kept old none old.length).done))
      (unused ((kept old none old.length).pool full other) (kept old none old.length).done) = some b := by
    rw [done]
    exact found
  simp only [step, found, spent]
  rw [done]

/-- A pass from the recorded steps keeps them, or keeps those before the position at which it
widened. -/
theorem run_agrees (old : List (α × V)) (k : ℕ) :
    ((run r u full last k ⟨[], none, old⟩).wide = none ∧ (run r u full last k ⟨[], none, old⟩).done ++
        (run r u full last k ⟨[], none, old⟩).old = old) ∨
      ∃ j, (run r u full last k ⟨[], none, old⟩).wide = some j ∧
        j ≤ (run r u full last k ⟨[], none, old⟩).done.length ∧
        (run r u full last k ⟨[], none, old⟩).done.take j = old.take j := by
  induction k with
  | zero => exact .inl ⟨rfl, rfl⟩
  | succ k ih =>
    rw [run_succ]
    generalize run r u full last k ⟨[], none, old⟩ = p at ih
    cases found : pick r (u (elements p.done)) (unused (p.pool full last) p.done) with
    | none => simpa only [step, found] using ih
    | some b =>
      have longer : ∀ x : α × V, ∀ j ≤ p.done.length, (p.done ++ [x]).take j = p.done.take j :=
        fun x j le => List.take_append_of_le_length le
      rcases step_cases found with ⟨-, eq⟩ | ⟨o, rest, recorded, -, eq⟩ <;> rw [eq]
      · rcases ih with ⟨narrow, same⟩ | ⟨j, wide, le, same⟩
        · refine .inr ⟨p.done.length, by simp [place, narrow], by simp [place], ?_⟩
          rw [place, longer _ _ le_rfl, List.take_length, ← same, List.take_left]
        · exact .inr ⟨j, by simp [place, wide], by simp [place]; omega, by rw [place, longer _ j le, same]⟩
      · rcases ih with ⟨narrow, same⟩ | ⟨j, wide, le, same⟩
        · exact .inl ⟨narrow, by simpa [keep, recorded] using same⟩
        · exact .inr ⟨j, wide, by simp [keep]; omega, by rw [keep, longer _ j le, same]⟩

/-! ### Attained steps of a full pass -/

variable (r u full) in
/-- What a pass keeps that looks at every candidate: its settled steps are attained, and the
recorded ones ahead have their values. -/
structure Best (p : Pass α V) : Prop where
  done : Attained r u full p.done
  ahead : ∀ i x, (p.done ++ p.old)[i]? = some x → x.2 = u ((elements (p.done ++ p.old)).take i) x.1

omit [LinearOrder α] [DecidableRel r] in
theorem best_start (attained : Attained r u pool old) : Best r u full ⟨[], wide, old⟩ where
  done := attained_nil full
  ahead i x at_i := (attained i x at_i).1

variable [IsStrictTotalOrder V r]

theorem Best.step (best : Best r u full p) (cover : ∀ x ∈ full, x ∈ p.pool full last) :
    Best r u full (step r u full last p) := by
  cases found : pick r (u (elements p.done)) (unused (p.pool full last) p.done) with
  | none => simpa only [Pass.step, found] using best
  | some b =>
    have rivals : ∀ c ∈ full, c ∉ elements p.done → ¬ r (u (elements p.done) c) (u (elements p.done) b) :=
      fun c mem left => pick_not_beaten found (mem_unused.mpr ⟨cover c mem, left⟩)
    rcases step_cases found with ⟨-, eq⟩ | ⟨o, rest, recorded, holds, eq⟩ <;> rw [eq]
    · have settled := best.done.concat rfl rivals
      exact ⟨settled, fun i x at_i => by
        simp only [place, List.append_nil] at at_i ⊢
        exact (settled i x at_i).1⟩
    · have value : o.2 = u (elements p.done) o.1 := by
        have here := best.ahead p.done.length o (by simp [recorded])
        rwa [elements_append, List.take_append_of_le_length (by simp),
          List.take_of_length_le (by simp)] at here
      refine ⟨best.done.concat value fun c mem left => not_beats_trans (rivals c mem left) holds, ?_⟩
      have same : (p.keep o rest).done ++ (p.keep o rest).old = p.done ++ p.old := by
        simp [keep, recorded]
      rw [same]
      exact best.ahead

/-- **A pass that looks at every candidate takes attained steps.** -/
theorem Best.run (best : Best r u full p) (cover : ∀ x ∈ full, x ∈ last) (k : ℕ) :
    Best r u full (run r u full last k p) := by
  induction k with
  | zero => exact best
  | succ k ih =>
    rw [run_succ]
    refine ih.step fun x mem => ?_
    unfold Pass.pool
    split
    · exact mem
    · exact cover x mem

/-! ### When the added elements suffice -/

/-- What a narrow pass picks, once it has only kept recorded steps: the best added element. -/
theorem kept_pick (ext : Extension pool last full) (recorded : ∀ x ∈ elements old, x ∈ pool) (i : ℕ) :
    ∃ b ∈ last, pick r (u ((elements old).take i)) (unused last (old.take i)) = some b ∧
      ∀ c ∈ last, ¬ r (u ((elements old).take i) c) (u ((elements old).take i) b) := by
  have all : unused last (old.take i) = last := List.filter_eq_self.mpr fun x mem => by
    rw [elements_take]
    simpa using fun used => ext.disjoint x mem (recorded x (List.mem_of_mem_take used))
  rw [all]
  obtain ⟨b, found⟩ := exists_pick (r := r) (f := u ((elements old).take i)) ext.added
  exact ⟨b, pick_mem found, found, fun c mem => pick_not_beaten found mem⟩

omit [IsStrictTotalOrder V r] in
/-- What the pass picks that looks at every candidate: the same element if it is not beaten by
what was there before. -/
theorem kept_pick_promote (ext : Extension pool last full) {b : α}
    (found : pick r (u ((elements old).take i)) (unused last (old.take i)) = some b)
    (best : ∀ c ∈ pool, c ∉ (elements old).take i →
      ¬ r (u ((elements old).take i) c) (u ((elements old).take i) b)) :
    pick r (u ((elements old).take i)) (unused (promote last full) (old.take i)) = some b := by
  rw [unused_promote]
  refine pick_append found fun c mem => ?_
  obtain ⟨rest, left⟩ := mem_unused.mp mem
  obtain ⟨inside, other⟩ := List.mem_filter.mp rest
  have old := ((ext.mem_full c).mp inside).resolve_right (by simpa using other)
  exact best c old (by rwa [elements_take] at left)

/-- A step at a recorded step: both passes keep it, and no added element beats it, or both place
the same element. -/
theorem step_kept (ext : Extension pool last full) (attained : Attained r u pool old)
    (recorded : ∀ x ∈ elements old, x ∈ pool) {o : α × V} (at_i : old[i]? = some o) :
    ((∀ b ∈ last, ¬ r (u ((elements old).take i) b) o.2) ∧
        step r u full last (kept old none i) = kept old none (i + 1) ∧
        step r u full (promote last full) (kept old none i) = kept old none (i + 1)) ∨
      ∃ b v, step r u full last (kept old none i) = (kept old none i).place b v ∧
        step r u full (promote last full) (kept old none i) = (kept old none i).place b v := by
  obtain ⟨-, least⟩ := attained i o at_i
  obtain ⟨b, mem, found, best⟩ := kept_pick (r := r) (u := u) ext recorded i
  have used : elements (old.take i) = (elements old).take i := elements_take old i
  by_cases wins : r (u ((elements old).take i) b) o.2
  · have found' := kept_pick_promote ext found fun c inside left beats =>
      least c inside left (IsTrans.trans _ _ _ beats wins)
    exact .inr ⟨b, _, by rw [step_kept_of_pick at_i found, if_pos wins],
      by rw [step_kept_of_pick at_i found', if_pos wins]⟩
  · obtain ⟨c, found'⟩ := exists_pick (r := r) (f := u ((elements old).take i))
      (l := unused (promote last full) (old.take i)) (by
        rw [unused_promote]
        exact List.append_ne_nil_of_left_ne_nil (List.ne_nil_of_mem (pick_mem found)) _)
    have loses : ∀ d ∈ last, ¬ r (u ((elements old).take i) d) o.2 := fun d inside =>
      not_beats_trans (best d inside) wins
    have loses' : ¬ r (u ((elements old).take i) c) o.2 := by
      obtain ⟨inside, left⟩ := mem_unused.mp (pick_mem found')
      rcases (ext.mem_full c).mp ((mem_promote ext.last_subset).mp inside) with inside | inside
      · exact least c inside (used ▸ left)
      · exact loses c inside
    exact .inl ⟨loses, by rw [step_kept_of_pick at_i found, if_neg wins],
      by rw [step_kept_of_pick at_i found', if_neg loses']⟩

/-- A step past the recorded ones, when an added element is among the best candidates. -/
theorem step_end (ext : Extension pool last full) (recorded : ∀ x ∈ elements old, x ∈ pool)
    (reached : ∃ b ∈ last, ∀ c ∈ unused full old, ¬ r (u (elements old) c) (u (elements old) b)) :
    ∃ b v, step r u full last (kept old none old.length) = (kept old none old.length).place b v ∧
      step r u full (promote last full) (kept old none old.length) =
        (kept old none old.length).place b v := by
  obtain ⟨a, mem, least⟩ := reached
  obtain ⟨b, -, found, best⟩ := kept_pick (r := r) (u := u) ext recorded old.length
  have found' := kept_pick_promote ext found fun c inside left => by
    rw [List.take_of_length_le (length_elements old).le] at left best ⊢
    exact not_beats_trans (least c (mem_unused.mpr ⟨(ext.mem_full c).mpr (.inl inside), left⟩)) (best a mem)
  rw [List.take_of_length_le (length_elements old).le, List.take_length] at found found'
  exact ⟨b, _, step_end_of_pick found, step_end_of_pick found'⟩

/-- **A pass that reaches the best candidates** takes the steps of the pass that looks at all of
them. -/
theorem run_promote (ext : Extension pool last full) (attained : Attained r u pool old)
    (recorded : ∀ x ∈ elements old, x ∈ pool) (reaches : Reaches r u last full k wide old) :
    run r u full last k ⟨[], wide, old⟩ = run r u full (promote last full) k ⟨[], wide, old⟩ := by
  cases wide with
  | some j => exact run_of_wide _ k rfl
  | none =>
    suffices general : ∀ d i, i + d = k → i ≤ old.length →
        (∀ j o, j < i → old[j]? = some o → ∀ b ∈ last, ¬ r (u ((elements old).take j) b) o.2) →
        run r u full last d (kept old none i) = run r u full (promote last full) d (kept old none i) from
      general k 0 (Nat.zero_add k) (Nat.zero_le _) (by simp)
    intro d
    induction d with
    | zero => exact fun _ _ _ _ => rfl
    | succ d ih =>
      intro i total inside clear
      have placed : ∀ b v, step r u full last (kept old none i) = (kept old none i).place b v →
          step r u full (promote last full) (kept old none i) = (kept old none i).place b v →
          run r u full last (d + 1) (kept old none i) =
            run r u full (promote last full) (d + 1) (kept old none i) := fun b v eq eq' => by
        rw [run_succ', run_succ', eq, eq']
        exact run_of_wide _ d (by simp [place])
      rcases Nat.lt_or_eq_of_le inside with lt | rfl
      · have at_i := List.getElem?_eq_getElem lt
        rcases step_kept ext attained recorded at_i with ⟨loses, eq, eq'⟩ | ⟨b, v, eq, eq'⟩
        · rw [run_succ', run_succ', eq, eq']
          refine ih (i + 1) (by omega) lt fun j o before at_j => ?_
          rcases Nat.lt_or_eq_of_le (Nat.le_of_lt_succ before) with earlier | rfl
          · exact clear j o earlier at_j
          · obtain rfl := Option.some.inj (at_j.symm.trans at_i)
            exact loses
        · exact placed b v eq eq'
      · have unbeaten : Unbeaten r u last old := fun j =>
          clear j _ j.isLt (List.getElem?_eq_getElem j.isLt)
        obtain ⟨b, v, eq, eq'⟩ := step_end ext recorded (reaches rfl (by omega) unbeaten)
        exact placed b v eq eq'

/-- While no added element beats a recorded step, a narrow pass keeps them all. -/
theorem run_unbeaten (ext : Extension pool last full) (recorded : ∀ x ∈ elements old, x ∈ pool)
    (unbeaten : Unbeaten r u last old) (inside : i ≤ old.length) :
    run r u full last i ⟨[], none, old⟩ = kept old none i := by
  induction i with
  | zero => rfl
  | succ i ih =>
    have at_i := List.getElem?_eq_getElem inside
    obtain ⟨b, mem, found, -⟩ := kept_pick (r := r) (u := u) ext recorded i
    rw [run_succ, ih (by omega), step_kept_of_pick at_i found]
    exact if_neg (unbeaten ⟨i, inside⟩ b mem)

/-- **The steps of a pass are attained iff its search reaches the best candidates.** -/
theorem attained_iff_reaches (ext : Extension pool last full) (attained : Attained r u pool old)
    (recorded : ∀ x ∈ elements old, x ∈ pool) :
    Attained r u full (run r u full last k ⟨[], wide, old⟩).done ↔ Reaches r u last full k wide old := by
  constructor
  · rintro best rfl room unbeaten
    obtain ⟨b, mem, found, -⟩ := kept_pick (r := r) (u := u) ext recorded old.length
    rw [List.take_of_length_le (length_elements old).le, List.take_length] at found
    have settled : (run r u full last (old.length + 1) ⟨[], none, old⟩).done =
        old ++ [(b, u (elements old) b)] := by
      rw [run_succ, run_unbeaten ext recorded unbeaten le_rfl, step_end_of_pick found, place]
      exact congrArg (· ++ _) List.take_length
    have pre : old ++ [(b, u (elements old) b)] <+: (run r u full last k ⟨[], none, old⟩).done := by
      have later : (run r u full last (old.length + 1) ⟨[], none, old⟩).done <+:
          (run r u full last (k - (old.length + 1))
            (run r u full last (old.length + 1) ⟨[], none, old⟩)).done := done_prefix_run _
      rwa [← run_add, Nat.sub_add_cancel room, settled] at later
    obtain ⟨rest, whole⟩ := pre
    obtain ⟨-, least⟩ := best old.length (b, u (elements old) b) (by simp [← whole])
    refine ⟨b, mem, fun c candidate => ?_⟩
    obtain ⟨inside, left⟩ := mem_unused.mp candidate
    have before : (elements (run r u full last k ⟨[], none, old⟩).done).take old.length = elements old := by
      rw [← whole, elements_append, elements_append, List.append_assoc,
        List.take_append_of_le_length (by simp), List.take_of_length_le (by simp)]
    rw [before] at least
    exact least c inside left
  · intro reaches
    rw [run_promote ext attained recorded reaches]
    exact ((best_start attained).run (fun x mem => (mem_promote ext.last_subset).mpr mem) k).done

/-! ### Runs without ties -/

variable (r u full) in
/-- At every step of the run the chosen element is strictly better than every other. -/
def Strict (k : ℕ) : Prop :=
  ∀ i c, (greedy r u full k)[i]? = some c → ∀ d ∈ unused full (greedy r u full i),
    d ≠ c.1 → r c.2 (u (elements (greedy r u full i)) d)

omit [IsStrictTotalOrder V r] in
theorem strict_iff : Strict r u full k ↔ ∀ i : Fin (greedy r u full k).length,
    ∀ d ∈ unused full (greedy r u full i), d ≠ ((greedy r u full k).get i).1 →
      r ((greedy r u full k).get i).2 (u (elements (greedy r u full i)) d) := by
  constructor
  · exact fun strict i => strict i _ (List.getElem?_eq_getElem i.isLt)
  · intro strict i c at_i
    obtain ⟨lt, rfl⟩ := List.getElem?_eq_some_iff.mp at_i
    exact strict ⟨i, lt⟩

omit [IsStrictTotalOrder V r] in
instance : Decidable (Strict r u full k) := decidable_of_iff _ strict_iff.symm

/-- **Without ties the attained steps are those of the run from scratch.** -/
theorem Strict.eq_greedy {steps : List (α × V)} (strict : Strict r u full k) (attained : Attained r u full steps)
    (sorted : full.Pairwise (· < ·)) (room : k ≤ full.length) (length : steps.length = k)
    (nodup : (elements steps).Nodup) (subset : ∀ x ∈ elements steps, x ∈ full) :
    steps = greedy r u full k := by
  refine List.ext_getElem? fun i => ?_
  induction i using Nat.strong_induction_on with
  | _ i ih =>
    rcases Nat.lt_or_ge i k with lt | ge
    case inr => rw [List.getElem?_eq_none (by rw [length]; exact ge),
      List.getElem?_eq_none (by rw [greedy_length sorted room]; exact ge)]
    have before : steps.take i = greedy r u full i := by
      rw [← greedy_take sorted lt.le room]
      refine List.ext_getElem? fun j => ?_
      rcases Nat.lt_or_ge j i with low | high
      · rw [List.getElem?_take_of_lt low, List.getElem?_take_of_lt low, ih j low]
      · rw [List.getElem?_take_eq_none high, List.getElem?_take_eq_none high]
    obtain ⟨c, chosen, best⟩ := greedy_getElem? (r := r) (u := u) sorted lt room
    obtain ⟨x, at_i⟩ : ∃ x, steps[i]? = some x := ⟨_, List.getElem?_eq_getElem (length.symm ▸ lt)⟩
    obtain ⟨value, least⟩ := attained i x at_i
    have prefixes : (elements steps).take i = elements (greedy r u full i) := by rw [← elements_take, before]
    rw [prefixes] at value least
    obtain ⟨inside, left⟩ := mem_unused.mp best.1
    have candidate : x.1 ∈ unused full (greedy r u full i) := by
      refine mem_unused.mpr ⟨subset x.1 (mem_elements_of_getElem? at_i), fun used => ?_⟩
      have bound : i < (elements steps).length := by simpa [length] using lt
      have here : (elements steps)[i] = x.1 := by
        simpa [elements] using congrArg Prod.fst (List.getElem?_eq_some_iff.mp at_i).2
      rw [← prefixes, ← here] at used
      exact (List.disjoint_take_drop nodup (le_refl i)) used
        (List.mem_drop_iff_getElem.mpr ⟨0, by simpa using bound, by simp⟩)
    have same : x.1 = c := by
      by_contra differs
      have beats := strict i _ chosen x.1 candidate differs
      rw [← value] at beats
      exact least c inside left beats
    rw [at_i, chosen, ← same, ← value]

/-! ### Other values in the same order -/

section Values

variable {W : Type} {s : W → W → Prop} [DecidableRel s] {φ : W → V} {w : List α → α → W}
variable {steps : List (α × W)}

omit [LinearOrder α] [DecidableRel r] [IsStrictTotalOrder V r] [DecidableRel s] in
theorem unbeaten_map (order : ∀ a b, r (φ a) (φ b) ↔ s a b) :
    Unbeaten r (fun used x => φ (w used x)) last (mapSteps φ steps) ↔ Unbeaten s w last steps := by
  have at_i (i : ℕ) (lt : i < steps.length) (b : α) :
      r (φ (w ((elements steps).take i) b)) ((mapSteps φ steps).get ⟨i, by simpa using lt⟩).2 ↔
        s (w ((elements steps).take i) b) steps[i].2 := by
    simp only [mapSteps, List.get_eq_getElem, List.getElem_map, Prod.map_snd, order]
  constructor
  · intro unbeaten i b mem wins
    exact unbeaten ⟨i, by simp⟩ b mem (by simpa using (at_i i i.isLt b).mpr wins)
  · intro unbeaten i b mem wins
    have lt : i < steps.length := by simpa using i.isLt
    exact unbeaten ⟨i, lt⟩ b mem ((at_i i lt b).mp (by simpa using wins))

omit [DecidableRel r] [IsStrictTotalOrder V r] [DecidableRel s] in
/-- What a search has to find depends on the order of the values only. -/
theorem reaches_map (order : ∀ a b, r (φ a) (φ b) ↔ s a b) :
    Reaches r (fun used x => φ (w used x)) last full k wide (mapSteps φ steps) ↔
      Reaches s w last full k wide steps := by
  simp only [Reaches, length_mapSteps, unbeaten_map order, unused_mapSteps, elements_mapSteps, order]

omit [IsStrictTotalOrder V r] in
/-- Whether steps are tied depends on the order of the values only. -/
theorem strict_map (order : ∀ a b, r (φ a) (φ b) ↔ s a b) :
    Strict r (fun used x => φ (w used x)) full k ↔ Strict s w full k := by
  have runs (k : ℕ) : greedy r (fun used x => φ (w used x)) full k = mapSteps φ (greedy s w full k) :=
    greedy_map order k
  constructor
  · intro strict i c at_i d rival differs
    have here := strict i (Prod.map id φ c) (by simp [runs, mapSteps, at_i])
    rw [runs i, unused_mapSteps, elements_mapSteps] at here
    exact (order _ _).mp (here d rival differs)
  · intro strict i c at_i d rival differs
    rw [runs k, mapSteps, List.getElem?_map, Option.map_eq_some_iff] at at_i
    obtain ⟨x, at_i, rfl⟩ := at_i
    rw [runs i, unused_mapSteps] at rival
    rw [runs i, elements_mapSteps]
    exact (order _ _).mpr (strict i x at_i d rival differs)

end Values

end Pass

end Cmicot.Greedy
