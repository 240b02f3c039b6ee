import Mathlib.Data.Finset.Card
import Mathlib.Logic.Function.Iterate

/-!
Greedy selection from a pool, and incremental repair of an earlier selection.

A greedy run picks, `k` times, the best candidate not picked before; the value of a
candidate may depend on everything picked so far. Ties go to the smallest element.
`greedy` is that run from scratch. `Pass` is the incremental variant: it starts from
the steps of an earlier run over a smaller pool and looks only at the elements that
were added since (`last`), until one of them displaces a recorded step; from there on
it searches the full pool. Values are compared by `r`, so one development serves
maximisation and minimisation.

* `pick_best` / `Best.unique`: what a single choice is.
* `greedy_isGreedy`: what a run from scratch is.
* `Pass.Valid.step`: a pass always finds a candidate and keeps its steps distinct.
* `greedy_map`, `Pass.run_map`: both depend on the order of the values only.
-/

namespace Cmicot.Greedy

/-! ### A single choice -/

section Pick

variable {α V W : Type} (r : V → V → Prop) [DecidableRel r]

/-- Keep `best` unless `y` is strictly better. -/
def better (f : α → V) (best y : α) : α := if r (f y) (f best) then y else best

/-- The first element of the list that no later one beats. -/
def pick (f : α → V) : List α → Option α
  | [] => none
  | x :: l => some (l.foldl (better r f) x)

variable {r} {f g : α → V} {l : List α} {b : α}

theorem better_eq (best y : α) : better r f best y = best ∨ better r f best y = y := by
  unfold better
  split <;> simp

theorem foldl_better_mem (x : α) (l : List α) : l.foldl (better r f) x ∈ x :: l := by
  induction l generalizing x with
  | nil => simp
  | cons y ys ih =>
    rw [List.foldl_cons]
    rcases better_eq (r := r) (f := f) x y with same | same <;> rw [same]
    · exact List.mem_cons.mpr ((List.mem_cons.mp (ih x)).imp_right (List.mem_cons_of_mem y))
    · exact List.mem_cons_of_mem _ (ih y)

theorem pick_mem (h : pick r f l = some b) : b ∈ l := by
  cases l with
  | nil => simp [pick] at h
  | cons x l =>
    cases h
    exact foldl_better_mem x l

theorem exists_pick (h : l ≠ []) : ∃ b, pick r f l = some b := by
  cases l with
  | nil => exact absurd rfl h
  | cons x l => exact ⟨_, rfl⟩

/-- A choice depends only on the comparisons, not on the type of the values. -/
theorem pick_map {s : W → W → Prop} [DecidableRel s] {g : W → V} {f : α → W}
    (order : ∀ a b, r (g a) (g b) ↔ s a b) : pick r (fun x => g (f x)) l = pick s f l := by
  have same : better r (fun x => g (f x)) = better s f := by
    funext best y
    simp only [better, order]
  cases l with
  | nil => rfl
  | cons x l => simp only [pick, same]

theorem pick_congr (agree : ∀ x ∈ l, f x = g x) : pick r f l = pick r g l := by
  cases l with
  | nil => rfl
  | cons x l =>
    simp only [pick, Option.some.injEq]
    induction l generalizing x with
    | nil => rfl
    | cons y ys ih =>
      have head : better r f x y = better r g x y := by
        simp only [better, agree x (by simp), agree y (by simp)]
      rw [List.foldl_cons, List.foldl_cons, head]
      refine ih _ fun z hz => agree z ?_
      rcases better_eq (r := r) (f := g) x y with same | same <;> rw [same] at hz <;>
        rcases List.mem_cons.mp hz with rfl | hz <;> simp [*]

/-- Among elements of one value the first is chosen. -/
theorem pick_of_tied [Std.Irrefl r] {z : V} (tied : ∀ x ∈ l, f x = z) : pick r f l = l.head? := by
  cases l with
  | nil => rfl
  | cons x l =>
    have stays (y : α) (mem : y ∈ l) : better r f x y = x := by
      rw [better, tied y (List.mem_cons_of_mem _ mem), tied x List.mem_cons_self, if_neg (irrefl z)]
    rw [pick, List.head?_cons, Option.some.injEq]
    induction l with
    | nil => rfl
    | cons y ys ih =>
      rw [List.foldl_cons, stays y List.mem_cons_self]
      exact ih (fun z hz => tied z (by rcases List.mem_cons.mp hz with rfl | hz <;> simp [*]))
        fun z hz => stays z (List.mem_cons_of_mem _ hz)

variable [LinearOrder α]

variable (r f) in
/-- `b` is the smallest of the best elements of `S`. -/
def Best (S : List α) (b : α) : Prop := b ∈ S ∧ ∀ c ∈ S, r (f b) (f c) ∨ f b = f c ∧ b ≤ c

omit [DecidableRel r] in
theorem Best.mono {S T : List α} (h : Best r f S b) (sub : ∀ x ∈ T, x ∈ S) (mem : b ∈ T) :
    Best r f T b :=
  ⟨mem, fun c hc => h.2 c (sub c hc)⟩

variable [IsStrictTotalOrder V r]

omit [DecidableRel r] in
theorem Best.unique {S : List α} {b c : α} (hb : Best r f S b) (hc : Best r f S c) : b = c := by
  rcases hb.2 c hc.1 with h | ⟨eq, le⟩ <;> rcases hc.2 b hb.1 with h' | ⟨eq', le'⟩
  · exact absurd h' (asymm h)
  · exact absurd (eq' ▸ h) (irrefl _)
  · exact absurd (eq ▸ h') (irrefl _)
  · exact le_antisymm le le'

omit [DecidableRel r] in
theorem Best.not_beaten {S : List α} (h : Best r f S b) {c : α} (hc : c ∈ S) : ¬ r (f c) (f b) := by
  rcases h.2 c hc with beats | ⟨eq, _⟩
  · exact asymm beats
  · exact eq ▸ irrefl _

/-- Comparing with a larger element extends the best element of a list. -/
theorem Best.extend {S : List α} {y : α} (h : Best r f S b) (larger : ∀ x ∈ S, x < y) :
    Best r f (S ++ [y]) (better r f b y) := by
  unfold better
  split
  case isTrue wins =>
    refine ⟨by simp, fun c hc => ?_⟩
    rcases List.mem_append.mp hc with hc | hc
    · rcases h.2 c hc with beats | ⟨eq, _⟩
      · exact .inl (IsTrans.trans _ _ _ wins beats)
      · exact .inl (eq ▸ wins)
    · simp [List.mem_singleton.mp hc]
  case isFalse loses =>
    refine ⟨List.mem_append_left _ h.1, fun c hc => ?_⟩
    rcases List.mem_append.mp hc with hc | hc
    · exact h.2 c hc
    · rw [List.mem_singleton.mp hc]
      rcases trichotomous_of r (f b) (f y) with beats | eq | wins
      · exact .inl beats
      · exact .inr ⟨eq, (larger b h.1).le⟩
      · exact absurd wins loses

/-- On a strictly increasing list the choice is the smallest of the best elements. -/
theorem pick_best (sorted : l.Pairwise (· < ·)) (h : pick r f l = some b) : Best r f l b := by
  cases l with
  | nil => simp [pick] at h
  | cons x l =>
    cases h
    suffices general : ∀ (rest done : List α) (best : α), (done ++ rest).Pairwise (· < ·) →
        Best r f done best → Best r f (done ++ rest) (rest.foldl (better r f) best) from
      general l [x] x (by simpa using sorted) ⟨by simp, by simp⟩
    intro rest
    induction rest with
    | nil => intro done best _ held; simpa using held
    | cons y ys ih =>
      intro done best increasing held
      have larger : ∀ z ∈ done, z < y := fun z hz =>
        (List.pairwise_append.mp increasing).2.2 z hz y (by simp)
      have next := ih (done ++ [y]) (better r f best y) (by simpa using increasing)
        (held.extend larger)
      simpa using next

theorem pick_eq_some_iff (sorted : l.Pairwise (· < ·)) : pick r f l = some b ↔ Best r f l b := by
  refine ⟨pick_best sorted, fun best => ?_⟩
  obtain ⟨c, found⟩ := exists_pick (r := r) (f := f) (List.ne_nil_of_mem best.1)
  rw [found, (pick_best sorted found).unique best]

omit [DecidableRel r] in
/-- When the elements form groups in ascending order, the best element is in the group whose best
element is best. -/
theorem Best.group {β : Type} [LinearOrder β] {S : List α} {groups : List β} {group : α → β} {own : β → List α}
    {lead : β → α} (h : Best r f S b) (ascending : ∀ x y, x ≤ y → group x ≤ group y)
    (mem : ∀ g, g ∈ groups ↔ ∃ x ∈ S, group x = g)
    (members : ∀ g ∈ groups, ∀ x, x ∈ own g ↔ x ∈ S ∧ group x = g)
    (leads : ∀ g ∈ groups, Best r f (own g) (lead g)) :
    Best r (fun g => f (lead g)) groups (group b) := by
  have here : group b ∈ groups := (mem _).mpr ⟨b, h.1, rfl⟩
  have leader : lead (group b) = b :=
    (leads _ here).unique (h.mono (fun x inside => ((members _ here x).mp inside).1)
      ((members _ here b).mpr ⟨h.1, rfl⟩))
  refine ⟨here, fun g inside => ?_⟩
  obtain ⟨other, owned⟩ := (members g inside _).mp (leads g inside).1
  simp only [leader]
  exact (h.2 _ other).imp_right fun ⟨same, le⟩ => ⟨same, owned ▸ ascending _ _ le⟩

end Pick

/-! ### Runs from scratch -/

section Elements

variable {α V : Type}

/-- The elements of a list of valued steps. -/
def elements (steps : List (α × V)) : List α := steps.map Prod.fst

@[simp] theorem elements_append (l ys : List (α × V)) :
    elements (l ++ ys) = elements l ++ elements ys := List.map_append

@[simp] theorem elements_take (l : List (α × V)) (i : ℕ) :
    elements (l.take i) = (elements l).take i := List.map_take

@[simp] theorem length_elements (l : List (α × V)) : (elements l).length = l.length :=
  List.length_map ..

theorem mem_elements_of_getElem? {l : List (α × V)} {i : ℕ} {x : α × V} (at_i : l[i]? = some x) :
    x.1 ∈ elements l := List.mem_map_of_mem (List.mem_of_getElem? at_i)

theorem elements_take_succ {l : List (α × V)} {i : ℕ} {x : α × V} (at_i : l[i]? = some x) :
    (elements l).take (i + 1) = (elements l).take i ++ [x.1] := by
  rw [List.take_add_one, elements, List.getElem?_map, at_i]
  rfl

@[simp] theorem elements_nil : elements ([] : List (α × V)) = [] := rfl

@[simp] theorem elements_singleton (x : α) (v : V) : elements [(x, v)] = [x] := rfl

end Elements

section Run

variable {α V : Type} [LinearOrder α] (r : V → V → Prop) [DecidableRel r]
variable (u : List α → α → V)

/-- The members of `pool` that no step has used. -/
def unused (pool : List α) (steps : List (α × V)) : List α :=
  pool.filter fun x => x ∉ elements steps

/-- One greedy step; nothing happens when no candidate is left. -/
def greedyStep (full : List α) (done : List (α × V)) : List (α × V) :=
  match pick r (u (elements done)) (unused full done) with
  | none => done
  | some b => done ++ [(b, u (elements done) b)]

/-- The first `k` greedy steps over `full`. -/
def greedy (full : List α) (k : ℕ) : List (α × V) := (greedyStep r u full)^[k] []

variable {r u} {full : List α}

theorem mem_unused {pool : List α} {steps : List (α × V)} {x : α} :
    x ∈ unused pool steps ↔ x ∈ pool ∧ x ∉ elements steps := by
  simp [unused]

theorem unused_concat (pool : List α) (steps : List (α × V)) (b : α) (v : V) :
    unused pool (steps ++ [(b, v)]) = (unused pool steps).filter (· ≠ b) := by
  simp only [unused, List.filter_filter, elements_append, elements_singleton, List.mem_append,
    List.mem_singleton, not_or]
  refine List.filter_congr fun x _ => ?_
  simp [and_comm]

theorem unused_sorted {pool : List α} (sorted : pool.Pairwise (· < ·)) (steps : List (α × V)) :
    (unused pool steps).Pairwise (· < ·) := sorted.filter _

/-- A duplicate-free pool that is longer than the steps taken still has a candidate. -/
theorem unused_ne_nil {pool : List α} {steps : List (α × V)} (nodup : pool.Nodup)
    (short : steps.length < pool.length) : unused pool steps ≠ [] := by
  intro empty
  have covered : pool ⊆ elements steps := fun x hx => by
    by_contra missing
    exact List.ne_nil_of_mem (mem_unused.mpr ⟨hx, missing⟩) empty
  have := (List.subperm_of_subset nodup covered).length_le
  simp only [length_elements] at this
  omega

theorem greedy_zero : greedy r u full 0 = [] := rfl

theorem greedy_step (k : ℕ) :
    greedy r u full (k + 1) = greedyStep r u full (greedy r u full k) :=
  Function.iterate_succ_apply' _ _ _

variable [IsStrictTotalOrder V r]

/-- As long as candidates are left, a greedy run makes one step more: it appends the
best unused element together with its value. -/
theorem greedy_succ (sorted : full.Pairwise (· < ·)) {k : ℕ} (room : k < full.length) :
    ∃ b, Best r (u (elements (greedy r u full k))) (unused full (greedy r u full k)) b ∧
      greedy r u full (k + 1) =
        greedy r u full k ++ [(b, u (elements (greedy r u full k)) b)] ∧
      (greedy r u full (k + 1)).length = k + 1 := by
  induction k with
  | zero =>
    obtain ⟨b, found⟩ := exists_pick (r := r) (f := u [])
      (show unused full ([] : List (α × V)) ≠ [] from unused_ne_nil sorted.nodup room)
    refine ⟨b, pick_best (unused_sorted sorted _) found, ?_⟩
    simp only [greedy_step, greedy_zero, greedyStep]
    simp only [elements, List.map_nil] at found ⊢
    simp [found]
  | succ k ih =>
    obtain ⟨-, -, -, length⟩ := ih (by omega)
    obtain ⟨b, found⟩ := exists_pick (r := r) (f := u (elements (greedy r u full (k + 1))))
      (show unused full (greedy r u full (k + 1)) ≠ [] from unused_ne_nil sorted.nodup (by omega))
    refine ⟨b, pick_best (unused_sorted sorted _) found, ?_⟩
    rw [greedy_step (k := k + 1), greedyStep, found]
    simp [length]

theorem greedy_length (sorted : full.Pairwise (· < ·)) {k : ℕ} (room : k ≤ full.length) :
    (greedy r u full k).length = k := by
  cases k with
  | zero => rfl
  | succ k => exact (greedy_succ sorted room).choose_spec.2.2

theorem lt_of_greedy_getElem? (sorted : full.Pairwise (· < ·)) {i k : ℕ} {x : α × V} (room : k ≤ full.length)
    (at_i : (greedy r u full k)[i]? = some x) : i < k := by
  have inside := (List.getElem?_eq_some_iff.mp at_i).1
  rwa [greedy_length sorted room] at inside

/-- Earlier steps are never revised. -/
theorem greedy_take (sorted : full.Pairwise (· < ·)) {i k : ℕ} (le : i ≤ k) (room : k ≤ full.length) :
    (greedy r u full k).take i = greedy r u full i := by
  induction k with
  | zero => simp [Nat.le_zero.mp le, greedy_zero]
  | succ k ih =>
    rcases Nat.lt_or_eq_of_le le with lt | rfl
    · obtain ⟨b, -, eq, -⟩ := greedy_succ (r := r) (u := u) sorted (k := k) (by omega)
      rw [eq, List.take_append_of_le_length, ih (by omega) (by omega)]
      rw [greedy_length sorted (by omega)]
      omega
    · exact List.take_of_length_le (greedy_length sorted room).le

/-- The element appended at step `i` is the `i`-th entry of every longer run. -/
theorem greedy_getElem?_of_next (sorted : full.Pairwise (· < ·)) {i k : ℕ} {x : α × V} (lt : i < k)
    (room : k ≤ full.length) (next : greedy r u full (i + 1) = greedy r u full i ++ [x]) :
    (greedy r u full k)[i]? = some x := by
  have length := greedy_length (r := r) (u := u) sorted (show i ≤ full.length by omega)
  rw [← List.getElem?_take_of_lt (Nat.lt_succ_self i), greedy_take sorted lt room, next,
    List.getElem?_append_right length.le, length]
  simp

/-- Step `i` of a run is the best unused element after the first `i` steps. -/
theorem greedy_getElem? (sorted : full.Pairwise (· < ·)) {i k : ℕ} (lt : i < k) (room : k ≤ full.length) :
    ∃ b, (greedy r u full k)[i]? = some (b, u (elements (greedy r u full i)) b) ∧
      Best r (u (elements (greedy r u full i))) (unused full (greedy r u full i)) b := by
  obtain ⟨b, best, eq, -⟩ := greedy_succ (r := r) (u := u) sorted (k := i) (by omega)
  exact ⟨b, greedy_getElem?_of_next sorted lt room eq, best⟩

theorem greedy_subset (sorted : full.Pairwise (· < ·)) {k : ℕ} (room : k ≤ full.length) :
    ∀ x ∈ elements (greedy r u full k), x ∈ full := by
  induction k with
  | zero => simp [greedy_zero, elements]
  | succ k ih =>
    obtain ⟨b, best, eq, -⟩ := greedy_succ (r := r) (u := u) sorted (k := k) (by omega)
    rw [eq, elements_append, elements_singleton]
    intro x hx
    rcases List.mem_append.mp hx with hx | hx
    · exact ih (by omega) x hx
    · rw [List.mem_singleton.mp hx]
      exact (mem_unused.mp best.1).1

theorem greedy_nodup (sorted : full.Pairwise (· < ·)) {k : ℕ} (room : k ≤ full.length) :
    (elements (greedy r u full k)).Nodup := by
  induction k with
  | zero => exact List.nodup_nil
  | succ k ih =>
    obtain ⟨b, best, eq, -⟩ := greedy_succ (r := r) (u := u) sorted (k := k) (by omega)
    rw [eq, elements_append, elements_singleton]
    simpa using List.Nodup.concat (mem_unused.mp best.1).2 (ih (by omega))

variable (r u) in
omit [DecidableRel r] [IsStrictTotalOrder V r] in
/-- What `k` greedy choices from a pool are: distinct elements of the pool, each the smallest of the
best ones that are left, with its value. -/
structure IsGreedy (pool : List α) (k : ℕ) (steps : List (α × V)) : Prop where
  length : steps.length = k
  nodup : (elements steps).Nodup
  subset : ∀ x ∈ elements steps, x ∈ pool
  choice : ∀ i x, steps[i]? = some x → x.2 = u ((elements steps).take i) x.1 ∧
    Best r (u ((elements steps).take i)) (pool.filter (· ∉ (elements steps).take i)) x.1

theorem greedy_isGreedy (sorted : full.Pairwise (· < ·)) {k : ℕ} (room : k ≤ full.length) :
    IsGreedy r u full k (greedy r u full k) where
  length := greedy_length sorted room
  nodup := greedy_nodup sorted room
  subset := greedy_subset sorted room
  choice i x at_i := by
    have lt := lt_of_greedy_getElem? sorted room at_i
    obtain ⟨b, found, best⟩ := greedy_getElem? (r := r) (u := u) sorted lt room
    obtain rfl := Option.some.inj (at_i.symm.trans found)
    rw [← elements_take, greedy_take sorted lt.le room]
    exact ⟨rfl, best⟩

/-- The greedy choices are unique. -/
theorem IsGreedy.eq_greedy {k : ℕ} {steps : List (α × V)} (greedily : IsGreedy r u full k steps)
    (sorted : full.Pairwise (· < ·)) (room : k ≤ full.length) : steps = greedy r u full k := by
  refine List.ext_getElem? fun i => ?_
  induction i using Nat.strong_induction_on with
  | _ i ih =>
    rcases Nat.lt_or_ge i k with lt | ge
    case inr => rw [List.getElem?_eq_none (by rw [greedily.length]; exact ge),
      List.getElem?_eq_none (by rw [greedy_length sorted room]; exact ge)]
    have before : steps.take i = greedy r u full i := by
      rw [← greedy_take sorted lt.le room]
      refine List.ext_getElem? fun j => ?_
      rcases Nat.lt_or_ge j i with low | high
      · rw [List.getElem?_take_of_lt low, List.getElem?_take_of_lt low, ih j low]
      · rw [List.getElem?_take_eq_none high, List.getElem?_take_eq_none high]
    obtain ⟨b, found, best⟩ := greedy_getElem? (r := r) (u := u) sorted lt room
    obtain ⟨x, at_i⟩ : ∃ x, steps[i]? = some x := ⟨_, List.getElem?_eq_getElem (greedily.length.symm ▸ lt)⟩
    obtain ⟨value, best'⟩ := greedily.choice i x at_i
    rw [← elements_take, before] at value best'
    have same : x.1 = b := best'.unique best
    rw [at_i, found, ← same]
    exact congrArg some (Prod.ext rfl value)

end Run

/-! ### Passes over an earlier run -/

/-- A pass in progress: the steps settled so far, the position at which the search was
widened to the full pool (if it was), and the recorded steps still ahead. -/
structure Pass (α V : Type) where
  done : List (α × V)
  wide : Option ℕ
  old : List (α × V)

namespace Pass

section Defs

variable {α V : Type}

/-- Settle a new step: it widens the search and invalidates what was recorded after it. -/
def place (p : Pass α V) (b : α) (v : V) : Pass α V :=
  ⟨p.done ++ [(b, v)], p.wide <|> some p.done.length, []⟩

/-- Settle the next recorded step. -/
def keep (p : Pass α V) (o : α × V) (rest : List (α × V)) : Pass α V :=
  ⟨p.done ++ [o], p.wide, rest⟩

/-- Where the candidates of the next step come from. -/
def pool (full last : List α) (p : Pass α V) : List α := if p.wide.isSome then full else last

variable [LinearOrder α] (r : V → V → Prop) [DecidableRel r] (u : List α → α → V)

/-- One step: the best candidate displaces the recorded step if it is strictly better
or if nothing is recorded. -/
def step (full last : List α) (p : Pass α V) : Pass α V :=
  match pick r (u (elements p.done)) (unused (p.pool full last) p.done) with
  | none => p
  | some b =>
    match p.old with
    | [] => p.place b (u (elements p.done) b)
    | o :: rest =>
      if r (u (elements p.done) b) o.2 then p.place b (u (elements p.done) b) else p.keep o rest

/-- `k` steps. -/
def run (full last : List α) (k : ℕ) (p : Pass α V) : Pass α V := (step r u full last)^[k] p

end Defs

variable {α V : Type} [LinearOrder α] {r : V → V → Prop} [DecidableRel r] {u : List α → α → V}
variable {full last : List α} {p : Pass α V}

theorem run_succ (k : ℕ) :
    run r u full last (k + 1) p = step r u full last (run r u full last k p) :=
  Function.iterate_succ_apply' _ _ _

theorem run_succ' (k : ℕ) :
    run r u full last (k + 1) p = run r u full last k (step r u full last p) :=
  Function.iterate_succ_apply _ _ _

theorem run_add (m n : ℕ) :
    run r u full last (m + n) p = run r u full last m (run r u full last n p) :=
  Function.iterate_add_apply _ _ _ _

/-- What a step can do once it has found a candidate. -/
theorem step_cases {b : α} (found : pick r (u (elements p.done)) (unused (p.pool full last) p.done) = some b) :
    ((p.old = [] ∨ ∃ o rest, p.old = o :: rest ∧ r (u (elements p.done) b) o.2) ∧
        step r u full last p = p.place b (u (elements p.done) b)) ∨
      ∃ o rest, p.old = o :: rest ∧ ¬ r (u (elements p.done) b) o.2 ∧
        step r u full last p = p.keep o rest := by
  cases recorded : p.old with
  | nil => exact .inl ⟨.inl rfl, by simp [step, found, recorded]⟩
  | cons o rest =>
    by_cases wins : r (u (elements p.done) b) o.2
    · exact .inl ⟨.inr ⟨o, rest, rfl, wins⟩, by simp [step, found, recorded, wins]⟩
    · exact .inr ⟨o, rest, rfl, wins, by simp [step, found, recorded, wins]⟩

/-! ### A pass always finds a candidate -/

variable (full last p) in
/-- The steps of a pass, settled or recorded, are distinct members of the full pool; while
the search is narrow none of them is among the added elements. -/
structure Valid : Prop where
  nodup : (elements (p.done ++ p.old)).Nodup
  mem_full : ∀ x ∈ elements (p.done ++ p.old), x ∈ full
  narrow : p.wide = none → ∀ x ∈ elements (p.done ++ p.old), x ∉ last

omit [LinearOrder α] in
theorem pool_subset (sub : ∀ x ∈ last, x ∈ full) : ∀ x ∈ p.pool full last, x ∈ full := by
  unfold pool
  split
  · exact fun x hx => hx
  · exact sub

theorem pool_sorted (sorted : full.Pairwise (· < ·)) (sorted' : last.Pairwise (· < ·)) :
    (p.pool full last).Pairwise (· < ·) := by
  unfold pool
  split
  · exact sorted
  · exact sorted'

/-- The candidate list of a valid pass is not empty before the pool is used up. -/
theorem Valid.candidates (valid : p.Valid full last) (nodup : full.Nodup) (added : last ≠ [])
    (room : p.done.length < full.length) : unused (p.pool full last) p.done ≠ [] := by
  cases wide : p.wide with
  | some j =>
    rw [show p.pool full last = full by simp [pool, wide]]
    exact unused_ne_nil nodup room
  | none =>
    rw [show p.pool full last = last by simp [pool, wide]]
    obtain ⟨x, hx⟩ := List.exists_mem_of_ne_nil _ added
    refine List.ne_nil_of_mem (mem_unused.mpr ⟨hx, fun used => ?_⟩)
    exact valid.narrow wide x (by simp [used]) hx

theorem Valid.place {b : α} {v : V} (valid : p.Valid full last) (sub : ∀ x ∈ last, x ∈ full)
    (mem : b ∈ unused (p.pool full last) p.done) : (p.place b v).Valid full last := by
  obtain ⟨inPool, fresh⟩ := mem_unused.mp mem
  have split := valid.nodup
  rw [elements_append] at split
  refine ⟨?_, ?_, ?_⟩
  · simpa [Pass.place] using List.Nodup.concat fresh (List.nodup_append.mp split).1
  · intro x hx
    rcases (by simpa [Pass.place] using hx : x ∈ elements p.done ∨ x = b) with hx | rfl
    · exact valid.mem_full x (by simp [hx])
    · exact pool_subset sub x inPool
  · intro narrow
    cases wide : p.wide <;> simp [Pass.place, wide] at narrow

omit [LinearOrder α] in
theorem Valid.keep {o : α × V} {rest : List (α × V)} (valid : p.Valid full last)
    (recorded : p.old = o :: rest) : (p.keep o rest).Valid full last := by
  have same : (p.keep o rest).done ++ (p.keep o rest).old = p.done ++ p.old := by
    simp [Pass.keep, recorded]
  refine ⟨?_, ?_, ?_⟩
  · rw [same]; exact valid.nodup
  · rw [same]; exact valid.mem_full
  · rw [same]; exact valid.narrow

/-- **Progress.** A valid pass settles one step more and stays valid. -/
theorem Valid.step (valid : p.Valid full last) (nodup : full.Nodup) (added : last ≠ [])
    (sub : ∀ x ∈ last, x ∈ full) (room : p.done.length < full.length) :
    (step r u full last p).Valid full last ∧
      (step r u full last p).done.length = p.done.length + 1 := by
  obtain ⟨b, found⟩ := exists_pick (r := r) (f := u (elements p.done))
    (valid.candidates nodup added room)
  rcases step_cases found with ⟨-, eq⟩ | ⟨o, rest, recorded, -, eq⟩ <;> rw [eq]
  · exact ⟨valid.place sub (pick_mem found), by simp [Pass.place]⟩
  · exact ⟨valid.keep recorded, by simp [Pass.keep]⟩

theorem Valid.run (valid : p.Valid full last) (nodup : full.Nodup) (added : last ≠ [])
    (sub : ∀ x ∈ last, x ∈ full) {k : ℕ} (room : p.done.length + k ≤ full.length) :
    (run r u full last k p).Valid full last ∧
      (run r u full last k p).done.length = p.done.length + k := by
  induction k with
  | zero => exact ⟨valid, rfl⟩
  | succ k ih =>
    obtain ⟨held, length⟩ := ih (by omega)
    rw [run_succ]
    obtain ⟨held', length'⟩ := held.step (r := r) (u := u) nodup added sub (by omega)
    exact ⟨held', by omega⟩

/-! ### Extended pools -/

/-- `full` is `pool` extended by the new, non-empty list `last`. -/
structure Extension (pool last full : List α) : Prop where
  pool_sorted : pool.Pairwise (· < ·)
  last_sorted : last.Pairwise (· < ·)
  full_sorted : full.Pairwise (· < ·)
  mem_full : ∀ x, x ∈ full ↔ x ∈ pool ∨ x ∈ last
  disjoint : ∀ x ∈ last, x ∉ pool
  added : last ≠ []

theorem Extension.last_subset {pool : List α} (ext : Extension pool last full) :
    ∀ x ∈ last, x ∈ full := fun x hx => (ext.mem_full x).mpr (.inr hx)

/-- Settled steps are never revised. -/
theorem done_prefix_run (k : ℕ) : p.done <+: (run r u full last k p).done := by
  induction k with
  | zero => exact List.prefix_refl _
  | succ k ih =>
    rw [run_succ]
    refine ih.trans ?_
    generalize run r u full last k p = q
    cases found : pick r (u (elements q.done)) (unused (q.pool full last) q.done) with
    | none => simp [Pass.step, found]
    | some b =>
      rcases step_cases found with ⟨-, eq⟩ | ⟨o, rest, -, -, eq⟩ <;> rw [eq]
      · simp [Pass.place]
      · simp [Pass.keep]

end Pass

/-! ### Other values in the same order -/

section Values

variable {α V W : Type} {r : V → V → Prop} [DecidableRel r] {s : W → W → Prop} [DecidableRel s]
variable {φ : W → V} {u : List α → α → W} {full last : List α}

variable (φ) in
/-- The same steps with other values. -/
def mapSteps (steps : List (α × W)) : List (α × V) := steps.map (Prod.map id φ)

@[simp] theorem elements_mapSteps (steps : List (α × W)) :
    elements (mapSteps φ steps) = elements steps := by
  simp [elements, mapSteps]

@[simp] theorem mapSteps_nil : mapSteps φ ([] : List (α × W)) = [] := rfl

@[simp] theorem mapSteps_cons (step : α × W) (steps : List (α × W)) :
    mapSteps φ (step :: steps) = (step.1, φ step.2) :: mapSteps φ steps := rfl

@[simp] theorem length_mapSteps (steps : List (α × W)) : (mapSteps φ steps).length = steps.length :=
  List.length_map ..

@[simp] theorem mapSteps_append (l ys : List (α × W)) :
    mapSteps φ (l ++ ys) = mapSteps φ l ++ mapSteps φ ys := List.map_append

variable [LinearOrder α]

@[simp] theorem unused_mapSteps (pool : List α) (steps : List (α × W)) :
    unused pool (mapSteps φ steps) = unused pool steps := by
  simp only [unused, elements_mapSteps]

/-- **A run depends on the order of the values only.** -/
theorem greedy_map (order : ∀ a b, r (φ a) (φ b) ↔ s a b) (k : ℕ) :
    greedy r (fun used x => φ (u used x)) full k = mapSteps φ (greedy s u full k) := by
  induction k with
  | zero => rfl
  | succ k ih =>
    rw [greedy_step, greedy_step, ih, greedyStep, greedyStep, elements_mapSteps, unused_mapSteps,
      pick_map order]
    split
    · rfl
    · rw [mapSteps_append, mapSteps_cons, mapSteps_nil]

namespace Pass

variable (φ) in
/-- The same pass with other values. -/
def map (p : Pass α W) : Pass α V := ⟨mapSteps φ p.done, p.wide, mapSteps φ p.old⟩

theorem step_map (order : ∀ a b, r (φ a) (φ b) ↔ s a b) (p : Pass α W) :
    step r (fun used x => φ (u used x)) full last (p.map φ) = (step s u full last p).map φ := by
  have found : pick r (fun x => φ (u (elements (p.map φ).done) x))
      (unused ((p.map φ).pool full last) (p.map φ).done) =
        pick s (u (elements p.done)) (unused (p.pool full last) p.done) := by
    rw [show (p.map φ).pool full last = p.pool full last from rfl]
    simp only [map, elements_mapSteps, unused_mapSteps]
    exact pick_map order
  have used : elements (p.map φ).done = elements p.done := elements_mapSteps _
  simp only [step]
  rw [found, used]
  cases pick s (u (elements p.done)) (unused (p.pool full last) p.done) with
  | none => rfl
  | some b =>
    cases recorded : p.old with
    | nil => simp [map, recorded, place]
    | cons o rest =>
      by_cases wins : s (u (elements p.done) b) o.2
      · simp [map, recorded, order, wins, place]
      · simp [map, recorded, order, wins, keep]

/-- **A pass depends on the order of the values only.** -/
theorem run_map (order : ∀ a b, r (φ a) (φ b) ↔ s a b) (k : ℕ) (p : Pass α W) :
    run r (fun used x => φ (u used x)) full last k (p.map φ) = (run s u full last k p).map φ := by
  induction k with
  | zero => rfl
  | succ k ih => rw [run_succ, run_succ, ih, step_map order]

end Pass

end Values

end Cmicot.Greedy
