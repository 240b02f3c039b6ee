import Mathlib.Algebra.Order.Field.Basic
import Mathlib.Combinatorics.Enumerative.DoubleCounting
import Mathlib.Data.Finset.Max
import Mathlib.Data.List.Sort
import Mathlib.Tactic.Linarith

/-!
Gaps between the values of a list.

`Adjacent values a c` says that `a < c` are values of the list with no value between them.
Borders that are midpoints of adjacent values lie in pairwise different gaps, and borders
separate all different values as soon as there is one in every gap.

* `exists_adjacent_below`: below every value but the least one there is a gap.
* `Adjacent.unique`: a point lies in at most one gap.
* `separates_iff`: which borders separate all values.
* `Middles.length_eq`: how many borders a monotone image has.
* `Middles.separates_map`: which values it separates.
-/

namespace Cmicot.Gaps

section Order

variable {α : Type} [LinearOrder α] {values values' : List α} {a b c a' c' : α}

/-- Two values of the list with nothing between them. -/
structure Adjacent (values : List α) (a c : α) : Prop where
  low : a ∈ values
  high : c ∈ values
  lt : a < c
  between : ∀ v ∈ values, v ≤ a ∨ c ≤ v

theorem Adjacent.congr (same : ∀ v, v ∈ values ↔ v ∈ values') (adjacent : Adjacent values a c) :
    Adjacent values' a c :=
  ⟨(same a).mp adjacent.low, (same c).mp adjacent.high, adjacent.lt,
    fun v mem => adjacent.between v ((same v).mpr mem)⟩

/-- **The gap below a value.** -/
theorem exists_adjacent_below (low : a ∈ values) (high : c ∈ values) (lt : a < c) :
    ∃ b, Adjacent values b c ∧ a ≤ b := by
  have nonempty : (values.toFinset.filter (· < c)).Nonempty :=
    ⟨a, Finset.mem_filter.mpr ⟨List.mem_toFinset.mpr low, lt⟩⟩
  obtain ⟨b, mem, largest⟩ := Finset.exists_max_image _ id nonempty
  obtain ⟨listed, below⟩ := Finset.mem_filter.mp mem
  refine ⟨b, ⟨List.mem_toFinset.mp listed, high, below, fun v named => ?_⟩, ?_⟩
  · rcases lt_or_ge v c with before | behind
    · exact .inl (largest v (Finset.mem_filter.mpr ⟨List.mem_toFinset.mpr named, before⟩))
    · exact .inr behind
  · exact largest a (Finset.mem_filter.mpr ⟨List.mem_toFinset.mpr low, lt⟩)

/-- A point above one value and not above another lies in a gap. -/
theorem exists_adjacent_at (low : a ∈ values) (high : c ∈ values) (above : a < b) (below : b ≤ c) :
    ∃ a' c', Adjacent values a' c' ∧ a' < b ∧ b ≤ c' := by
  have nonempty : (values.toFinset.filter (b ≤ ·)).Nonempty :=
    ⟨c, Finset.mem_filter.mpr ⟨List.mem_toFinset.mpr high, below⟩⟩
  obtain ⟨c', mem, least⟩ := Finset.exists_min_image _ id nonempty
  obtain ⟨listed, behind⟩ := Finset.mem_filter.mp mem
  obtain ⟨a', adjacent, -⟩ := exists_adjacent_below low (List.mem_toFinset.mp listed) (above.trans_le behind)
  refine ⟨a', c', adjacent, ?_, behind⟩
  by_contra le
  have := least a' (Finset.mem_filter.mpr ⟨List.mem_toFinset.mpr adjacent.low, not_lt.mp le⟩)
  exact absurd adjacent.lt (not_lt.mpr this)

/-- A point lies in at most one gap; a gap holds its upper end. -/
theorem Adjacent.unique (adjacent : Adjacent values a c) (other : Adjacent values a' c') (above : a < b)
    (below : b ≤ c) (above' : a' < b) (below' : b ≤ c') : a = a' ∧ c = c' := by
  constructor
  · refine le_antisymm ?_ ?_
    · exact (other.between a adjacent.low).resolve_right fun le => absurd (above.trans_le below') le.not_gt
    · exact (adjacent.between a' other.low).resolve_right fun le => absurd (above'.trans_le below) le.not_gt
  · refine le_antisymm ?_ ?_
    · exact (adjacent.between c' other.high).resolve_left fun le => absurd (above.trans_le below') le.not_gt
    · exact (other.between c adjacent.high).resolve_left fun le => absurd (above'.trans_le below) le.not_gt

/-- A border with the lower value on its left and the higher one on its right. -/
def Separates (borders : List α) (x y : α) : Prop := ∃ b ∈ borders, x ≤ b ∧ b < y

/-- **Borders in all gaps** separate all values. -/
theorem separates_iff {borders : List α} :
    (∀ x ∈ values, ∀ y ∈ values, x < y → Separates borders x y) ↔
      ∀ a c, Adjacent values a c → Separates borders a c := by
  constructor
  · intro all a c adjacent
    exact all a adjacent.low c adjacent.high adjacent.lt
  · intro gaps x low y high lt
    obtain ⟨a, adjacent, le⟩ := exists_adjacent_below low high lt
    obtain ⟨b, mem, above, below⟩ := gaps a y adjacent
    exact ⟨b, mem, le.trans above, below⟩

/-! ### Monotone maps -/

variable {β : Type} [LinearOrder β] {f : α → β} {p q : β}

theorem Adjacent.map (mono : Monotone f) (adjacent : Adjacent values a c) (lt : f a < f c) :
    Adjacent (values.map f) (f a) (f c) := by
  refine ⟨List.mem_map_of_mem adjacent.low, List.mem_map_of_mem adjacent.high, lt, fun w mem => ?_⟩
  obtain ⟨v, listed, rfl⟩ := List.mem_map.mp mem
  exact (adjacent.between v listed).imp (fun le => mono le) fun le => mono le

/-- The gaps of the image come from gaps. -/
theorem exists_adjacent_of_map (mono : Monotone f) (adjacent : Adjacent (values.map f) p q) :
    ∃ a c, Adjacent values a c ∧ f a = p ∧ f c = q := by
  obtain ⟨a₀, low, rfl⟩ := List.mem_map.mp adjacent.low
  obtain ⟨c₀, high, rfl⟩ := List.mem_map.mp adjacent.high
  have nonempty : (values.toFinset.filter fun v => f c₀ ≤ f v).Nonempty :=
    ⟨c₀, Finset.mem_filter.mpr ⟨List.mem_toFinset.mpr high, le_rfl⟩⟩
  obtain ⟨c, mem, least⟩ := Finset.exists_min_image _ id nonempty
  obtain ⟨listed, above⟩ := Finset.mem_filter.mp mem
  have top : c ≤ c₀ := least c₀ (Finset.mem_filter.mpr ⟨List.mem_toFinset.mpr high, le_rfl⟩)
  have below : a₀ < c := mono.reflect_lt (adjacent.lt.trans_le above)
  obtain ⟨a, gap, le⟩ := exists_adjacent_below low (List.mem_toFinset.mp listed) below
  refine ⟨a, c, gap, le_antisymm ?_ (mono le), le_antisymm (mono top) above⟩
  refine (adjacent.between _ (List.mem_map_of_mem gap.low)).resolve_right fun large => ?_
  have := least a (Finset.mem_filter.mpr ⟨List.mem_toFinset.mpr gap.low, large⟩)
  exact absurd gap.lt (not_lt.mpr this)

/-- A monotone map takes a gap to one gap only. -/
theorem Adjacent.eq_of_map (mono : Monotone f) (adjacent : Adjacent values a c) (other : Adjacent values a' c')
    (low : f a = f a') (high : f c = f c') (lt : f a < f c) : a = a' ∧ c = c' := by
  have above : a' < c := mono.reflect_lt (low ▸ lt)
  have below : c ≤ c' := (adjacent.between c' other.high).resolve_left fun le =>
    absurd lt (not_lt.mpr (high ▸ mono le))
  exact adjacent.unique other adjacent.lt le_rfl above below

end Order

/-! ### Midpoints -/

section Field

variable {α : Type} [Field α] [LinearOrder α] [IsStrictOrderedRing α] {values : List α} {a b c a' c' : α}

theorem Adjacent.lt_midpoint (adjacent : Adjacent values a c) : a < (a + c) / 2 := by
  have := adjacent.lt
  linarith

theorem Adjacent.midpoint_lt (adjacent : Adjacent values a c) : (a + c) / 2 < c := by
  have := adjacent.lt
  linarith

/-- Halfway between two adjacent values. -/
def IsMidpoint (values : List α) (b : α) : Prop := ∃ a c, Adjacent values a c ∧ b = (a + c) / (2 : ℕ)

/-- A midpoint in a gap is the one of the gap. -/
theorem IsMidpoint.eq (isMidpoint : IsMidpoint values b) (adjacent : Adjacent values a c) (above : a ≤ b)
    (below : b < c) : b = (a + c) / 2 := by
  obtain ⟨a', c', other, rfl⟩ := isMidpoint
  have low : a ≤ a' := (other.between a adjacent.low).resolve_right fun le =>
    absurd (other.midpoint_lt.trans_le le) above.not_gt
  obtain ⟨rfl, rfl⟩ := other.unique adjacent other.lt_midpoint other.midpoint_lt.le
    (low.trans_lt other.lt_midpoint) below.le
  rfl

/-- The borders are the midpoints of the gaps of a kind. -/
def Middles (borders values : List α) (hit : α → α → Prop) : Prop :=
  ∀ b, b ∈ borders ↔ ∃ a c, Adjacent values a c ∧ b = (a + c) / (2 : ℕ) ∧ hit a c

variable {borders : List α} {hit : α → α → Prop}

omit [IsStrictOrderedRing α] in
theorem Middles.isMidpoint (middles : Middles borders values hit) (mem : b ∈ borders) : IsMidpoint values b := by
  obtain ⟨a, c, adjacent, eq, -⟩ := (middles b).mp mem
  exact ⟨a, c, adjacent, eq⟩

theorem Middles.mem_iff (middles : Middles borders values hit) (adjacent : Adjacent values a c) :
    (a + c) / 2 ∈ borders ↔ hit a c := by
  rw [middles]
  constructor
  · rintro ⟨a', c', other, same, holds⟩
    obtain ⟨rfl, rfl⟩ := other.unique adjacent (same ▸ other.lt_midpoint) (same ▸ other.midpoint_lt.le)
      adjacent.lt_midpoint adjacent.midpoint_lt.le
    exact holds
  · intro holds
    exact ⟨a, c, adjacent, rfl, holds⟩

/-- A gap with a border is one of the kind. -/
theorem Middles.separates_iff (middles : Middles borders values hit) (adjacent : Adjacent values a c) :
    Separates borders a c ↔ hit a c := by
  rw [← middles.mem_iff adjacent]
  constructor
  · rintro ⟨b, mem, above, below⟩
    rwa [← (middles.isMidpoint mem).eq adjacent above below]
  · intro mem
    exact ⟨_, mem, adjacent.lt_midpoint.le, adjacent.midpoint_lt⟩

theorem Adjacent.eq_of_midpoint (adjacent : Adjacent values a c) (other : Adjacent values a' c')
    (same : (a + c) / 2 = (a' + c') / 2) : a = a' ∧ c = c' :=
  adjacent.unique other adjacent.lt_midpoint adjacent.midpoint_lt.le (same ▸ other.lt_midpoint)
    (same ▸ other.midpoint_lt.le)

/-- **A monotone image has as many borders** if the gaps of the kind are those that the map
keeps open and that are of the kind again. -/
theorem Middles.length_eq {f : α → α} (mono : Monotone f) {borders' : List α} {hit' : α → α → Prop}
    (nodup : borders.Nodup) (middles : Middles borders values hit) (nodup' : borders'.Nodup)
    (middles' : Middles borders' (values.map f) hit')
    (kept : ∀ a c, Adjacent values a c → (hit a c ↔ f a < f c ∧ hit' (f a) (f c))) :
    borders.length = borders'.length := by
  -- a border and its image lie in a gap and in the image of the gap
  let related (b b' : α) : Prop :=
    ∃ a c, Adjacent values a c ∧ f a < f c ∧ b = (a + c) / 2 ∧ b' = (f a + f c) / 2
  have forward : borders.toFinset.card ≤ borders'.toFinset.card := by
    refine Finset.card_le_card_of_forall_subsingleton related (fun b mem => ?_) fun b' _ => ?_
    · obtain ⟨a, c, adjacent, rfl, holds⟩ := (middles b).mp (List.mem_toFinset.mp mem)
      obtain ⟨lt, image⟩ := (kept a c adjacent).mp holds
      have listed := (middles'.mem_iff (adjacent.map mono lt)).mpr image
      exact ⟨_, List.mem_toFinset.mpr listed, a, c, adjacent, lt, rfl, rfl⟩
    · rintro _ ⟨-, a, c, adjacent, lt, rfl, rfl⟩ _ ⟨-, a', c', adjacent', lt', rfl, same⟩
      obtain ⟨low, high⟩ := (adjacent.map mono lt).eq_of_midpoint (adjacent'.map mono lt') same
      obtain ⟨rfl, rfl⟩ := adjacent.eq_of_map mono adjacent' low high lt
      rfl
  have backward : borders'.toFinset.card ≤ borders.toFinset.card := by
    refine Finset.card_le_card_of_forall_subsingleton' related (fun b' mem => ?_) fun b _ => ?_
    · obtain ⟨_, _, image, rfl, holds⟩ := (middles' b').mp (List.mem_toFinset.mp mem)
      obtain ⟨a, c, adjacent, rfl, rfl⟩ := exists_adjacent_of_map mono image
      have listed := (middles.mem_iff adjacent).mpr ((kept a c adjacent).mpr ⟨image.lt, holds⟩)
      exact ⟨_, List.mem_toFinset.mpr listed, a, c, adjacent, image.lt, rfl, rfl⟩
    · rintro _ ⟨-, a, c, adjacent, -, rfl, rfl⟩ _ ⟨-, a', c', adjacent', -, same, rfl⟩
      obtain ⟨rfl, rfl⟩ := adjacent.eq_of_midpoint adjacent' same
      rfl
  rw [← List.toFinset_card_of_nodup nodup, ← List.toFinset_card_of_nodup nodup']
  exact le_antisymm forward backward

/-- **A monotone image separates the same values** if the gaps of the kind are those that the map
keeps open and that are of the kind again. -/
theorem Middles.separates_map {f : α → α} (mono : Monotone f) {borders' : List α} {hit' : α → α → Prop}
    (middles : Middles borders values hit) (middles' : Middles borders' (values.map f) hit')
    (kept : ∀ a c, Adjacent values a c → (hit a c ↔ f a < f c ∧ hit' (f a) (f c))) {y z : α} (low : y ∈ values)
    (high : z ∈ values) : Separates borders' (f y) (f z) ↔ Separates borders y z := by
  constructor
  · rintro ⟨_, mem, above, below⟩
    obtain ⟨_, _, image, rfl, holds⟩ := (middles' _).mp mem
    obtain ⟨a, c, adjacent, rfl, rfl⟩ := exists_adjacent_of_map mono image
    have listed := (middles.mem_iff adjacent).mpr ((kept a c adjacent).mpr ⟨image.lt, holds⟩)
    have left : y < c := mono.reflect_lt (above.trans_lt image.midpoint_lt)
    have right : a < z := mono.reflect_lt (image.lt_midpoint.trans below)
    refine ⟨_, listed, ?_, ?_⟩
    · exact ((adjacent.between y low).resolve_right (not_le.mpr left)).trans adjacent.lt_midpoint.le
    · exact adjacent.midpoint_lt.trans_le ((adjacent.between z high).resolve_left (not_le.mpr right))
  · rintro ⟨_, mem, above, below⟩
    obtain ⟨a, c, adjacent, rfl, holds⟩ := (middles _).mp mem
    obtain ⟨lt, image⟩ := (kept a c adjacent).mp holds
    have gap := adjacent.map mono lt
    have listed := (middles'.mem_iff gap).mpr image
    have left := (adjacent.between y low).resolve_right (not_le.mpr (lt_of_le_of_lt above adjacent.midpoint_lt))
    have right := (adjacent.between z high).resolve_left (not_le.mpr (adjacent.lt_midpoint.trans below))
    exact ⟨_, listed, (mono left).trans gap.lt_midpoint.le, gap.midpoint_lt.trans_le (mono right)⟩

end Field

/-! ### Sorted lists -/

section Sorted

variable {α : Type} [LinearOrder α] {sorted : List α} {a c v : α} {i j : ℕ}

/-- `lower_bound`: the first position whose value is not below `v`. -/
def lowerBound (xs : List α) (v : α) : ℕ := xs.findIdx fun x => !decide (x < v)

/-- `upper_bound`: the first position whose value is above `v`. -/
def upperBound (xs : List α) (v : α) : ℕ := xs.findIdx fun x => decide (v < x)

theorem lowerBound_le (xs : List α) (v : α) : lowerBound xs v ≤ xs.length := List.findIdx_le_length

theorem upperBound_le (xs : List α) (v : α) : upperBound xs v ≤ xs.length := List.findIdx_le_length

theorem getElem_le (ordered : sorted.Pairwise (· ≤ ·)) (le : i ≤ j) (lt : j < sorted.length) :
    sorted[i] ≤ sorted[j] := by
  rcases Nat.eq_or_lt_of_le le with rfl | before
  · exact le_rfl
  · exact List.pairwise_iff_getElem.mp ordered i j (by omega) lt before

/-- Before the lower bound stand the smaller values. -/
theorem lt_lowerBound_iff (ordered : sorted.Pairwise (· ≤ ·)) (inside : i < sorted.length) :
    i < lowerBound sorted v ↔ sorted[i] < v := by
  constructor
  · intro before
    simpa using List.not_of_lt_findIdx before
  · intro small
    by_contra after
    have le := Nat.le_of_not_lt after
    have found : lowerBound sorted v < sorted.length := Nat.lt_of_le_of_lt le inside
    have large : ¬ sorted[lowerBound sorted v] < v := by
      have holds := @List.findIdx_getElem _ (fun x => !decide (x < v)) sorted found
      exact of_decide_eq_false (Bool.not_eq_eq_eq_not.mp holds)
    exact large ((getElem_le ordered le inside).trans_lt small)

/-- Before the upper bound stand the values up to `v`. -/
theorem lt_upperBound_iff (ordered : sorted.Pairwise (· ≤ ·)) (inside : i < sorted.length) :
    i < upperBound sorted v ↔ sorted[i] ≤ v := by
  constructor
  · intro before
    simpa using List.not_of_lt_findIdx before
  · intro small
    by_contra after
    have le := Nat.le_of_not_lt after
    have found : upperBound sorted v < sorted.length := Nat.lt_of_le_of_lt le inside
    have large : v < sorted[upperBound sorted v] := by
      have holds := @List.findIdx_getElem _ (fun x => decide (v < x)) sorted found
      exact of_decide_eq_true holds
    exact absurd small (not_le.mpr (large.trans_le (getElem_le ordered le inside)))

/-- Neighbours that differ are adjacent. -/
theorem adjacent_of_lt (ordered : sorted.Pairwise (· ≤ ·)) (inside : i + 1 < sorted.length)
    (lt : sorted[i] < sorted[i + 1]) : Adjacent sorted sorted[i] sorted[i + 1] := by
  refine ⟨List.getElem_mem _, List.getElem_mem _, lt, fun v mem => ?_⟩
  obtain ⟨j, here, rfl⟩ := List.mem_iff_getElem.mp mem
  rcases Nat.lt_or_ge i j with behind | before
  · exact .inr (getElem_le ordered behind here)
  · exact .inl (getElem_le ordered before (by omega))

/-- The number of values up to `a` is where they end. -/
theorem getElem_le_iff_countP (ordered : sorted.Pairwise (· ≤ ·)) (inside : i < sorted.length) :
    sorted[i] ≤ a ↔ i < sorted.countP (· ≤ a) := by
  induction sorted generalizing i with
  | nil => simp at inside
  | cons x rest ih =>
    obtain ⟨first, ordered⟩ := List.pairwise_cons.mp ordered
    by_cases le : x ≤ a
    · cases i with
      | zero => simp [le]
      | succ i => simpa [le] using ih ordered (by simpa using inside)
    · have none : (x :: rest).countP (· ≤ a) = 0 := by
        refine List.countP_eq_zero.mpr fun y mem => ?_
        rcases List.mem_cons.mp mem with rfl | mem
        · simpa using le
        · simpa using lt_of_lt_of_le (not_le.mp le) (first y mem)
      rw [none]
      refine iff_of_false (fun small => le ?_) (Nat.not_lt_zero i)
      exact (getElem_le (List.pairwise_cons.mpr ⟨first, ordered⟩) (Nat.zero_le i) inside).trans small

/-- The positions at which a value stands. -/
theorem getElem_eq_iff_countP (ordered : sorted.Pairwise (· ≤ ·)) (adjacent : Adjacent sorted a c)
    (inside : i < sorted.length) :
    sorted[i] = c ↔ sorted.countP (· ≤ a) ≤ i ∧ i < sorted.countP (· ≤ c) := by
  rw [← getElem_le_iff_countP ordered inside, ← not_lt, ← getElem_le_iff_countP ordered inside]
  constructor
  · intro eq
    exact ⟨by rw [eq]; exact adjacent.lt.not_ge, eq.le⟩
  · rintro ⟨above, below⟩
    exact le_antisymm below ((adjacent.between _ (List.getElem_mem inside)).resolve_left above)

end Sorted

end Cmicot.Gaps
