import Cmicot.Entropy
import Cmicot.Lib.Loop

/-!
The frequency counters (`entropy_calculator.h`, `entropy_calculator.cpp`).

Frequencies are counted either in a vector indexed by `value - MinValue` or in a hash
map; the choice is made from `maxValue - minValue + 1` in wrapping 64-bit arithmetic.
`InRange` is the side condition of the vector access.

* `countWith_vector`, `countWith_hashMap`: either counter yields the empirical entropy.
* `buildFrequencyCounter_inRange_iff`: the chosen counter covers its range, except when
  the values reach from 0 to `2^64 - 1` and the size wraps to 0.
-/

namespace Cmicot

open Loop

/-! ### Definitions -/

structure TVectorCounter where
  minValue : UInt64
  valueCount : List ℕ

namespace TVectorCounter

/-- `TVectorCounter(ui64 minValue, ui64 maxValue)`. -/
def ofRange (minValue maxValue : UInt64) : TVectorCounter :=
  ⟨minValue, List.replicate (maxValue - minValue + 1).toNat 0⟩

/-- The side condition of `ValueCount[value - MinValue]`. -/
def InRange (counter : TVectorCounter) (value : UInt64) : Prop :=
  (value - counter.minValue).toNat < counter.valueCount.length

instance (counter : TVectorCounter) (value : UInt64) : Decidable (counter.InRange value) :=
  inferInstanceAs (Decidable (_ < _))

def add (counter : TVectorCounter) (value : UInt64) : Except Failure TVectorCounter :=
  if counter.InRange value then
    .ok { counter with
      valueCount := counter.valueCount.modify (value - counter.minValue).toNat (· + 1) }
  else .error .counterRange

def getEntropy {R : Type} [Field R] [Log2 R] (counter : TVectorCounter) (totalValues : ℕ) : R :=
  -counter.valueCount.foldl
    (fun result kv => if 0 < kv then result + countTerm totalValues kv else result) 0 / totalValues

end TVectorCounter

structure THashMapCounter where
  valueCount : List (UInt64 × ℕ)

namespace THashMapCounter

def add (counter : THashMapCounter) (value : UInt64) : THashMapCounter :=
  ⟨bump value counter.valueCount⟩

def getEntropy {R : Type} [Field R] [Log2 R] (counter : THashMapCounter) (totalValues : ℕ) : R :=
  entropyOfTable counter.valueCount totalValues

end THashMapCounter

/-- The two implementations behind the interface. -/
inductive IFrequencyCounter where
  | vector (counter : TVectorCounter)
  | hashMap (counter : THashMapCounter)

namespace IFrequencyCounter

def add : IFrequencyCounter → UInt64 → Except Failure IFrequencyCounter
  | vector counter, value => do return vector (← counter.add value)
  | hashMap counter, value => .ok (hashMap (counter.add value))

def getEntropy {R : Type} [Field R] [Log2 R] : IFrequencyCounter → ℕ → R
  | vector counter, totalValues => counter.getEntropy totalValues
  | hashMap counter, totalValues => counter.getEntropy totalValues

/-- A value the counter can take: any value for a hash map. -/
def InRange : IFrequencyCounter → UInt64 → Prop
  | vector counter, value => counter.InRange value
  | hashMap _, _ => True

instance (counter : IFrequencyCounter) (value : UInt64) : Decidable (counter.InRange value) :=
  match counter with
  | vector counter => inferInstanceAs (Decidable (counter.InRange value))
  | hashMap _ => inferInstanceAs (Decidable True)

end IFrequencyCounter

/-- `BuildFrequencyCounter(ui64 minValue, ui64 maxValue)`. -/
def buildFrequencyCounter (minValue maxValue : UInt64) : IFrequencyCounter :=
  let rangeSize := maxValue - minValue + 1
  if rangeSize > (1 : UInt64) <<< 22 then .hashMap ⟨[]⟩ else .vector (.ofRange minValue maxValue)

/-- The values `MinMaxElement` points at. -/
def minMaxElement : List UInt64 → Except Failure (UInt64 × UInt64)
  | [] => .error .emptyContainer
  | value :: values =>
      .ok (values.foldl (fun low x => if x < low then x else low) value,
        values.foldl (fun high x => if x < high then high else x) value)

/-- Count a column with a counter and read the entropy off. -/
def countWith {R : Type} [Field R] [Log2 R] (counter : IFrequencyCounter) (values : List UInt64) :
    Except Failure R := do
  let counter ← values.foldlM IFrequencyCounter.add counter
  return counter.getEntropy values.length

/-! ### Both counters count -/

/-- The contents of a vector counter that has seen `values`. -/
structure TVectorCounter.Counts (counter : TVectorCounter) (values : List UInt64) : Prop where
  bound : counter.valueCount.length ≤ 2 ^ 64
  count : ∀ j (h : j < counter.valueCount.length),
    counter.valueCount[j] = values.count (counter.minValue + UInt64.ofNat j)

namespace TVectorCounter

variable {counter : TVectorCounter} {values : List UInt64} {value low high : UInt64}

theorem ofRange_counts : (ofRange low high).Counts [] where
  bound := by
    simp only [ofRange, List.length_replicate]
    exact (UInt64.toNat_lt _).le
  count := by simp [ofRange]

theorem base_add_slot (base value : UInt64) : base + UInt64.ofNat (value - base).toNat = value := by
  rw [UInt64.ofNat_toNat, UInt64.add_comm, UInt64.sub_add_cancel]

/-- The slot of a value is the only one that stands for it. -/
theorem slot_eq_iff (value base : UInt64) {j : ℕ} (h : j < 2 ^ 64) :
    (value - base).toNat = j ↔ value = base + UInt64.ofNat j := by
  constructor
  · rintro rfl
    exact (base_add_slot base value).symm
  · rintro rfl
    rw [UInt64.add_comm, UInt64.add_sub_cancel, UInt64.toNat_ofNat_of_lt' h]

theorem Counts.add (held : counter.Counts values) (inRange : counter.InRange value) :
    ∃ counter', counter.add value = .ok counter' ∧ counter'.minValue = counter.minValue ∧
      counter'.valueCount.length = counter.valueCount.length ∧ counter'.Counts (values ++ [value]) := by
  refine ⟨_, if_pos inRange, rfl, by simp, by simpa using held.bound, fun j h => ?_⟩
  have inside : j < counter.valueCount.length := by simpa using h
  have slot := slot_eq_iff value counter.minValue
    (Nat.lt_of_lt_of_le inside held.bound)
  simp only [List.getElem_modify, List.count_append, List.count_singleton, held.count j inside, slot,
    beq_iff_eq]
  split <;> rfl

/-- A sum over the slots is a sum over the distinct values, empty slots contributing nothing. -/
theorem Counts.sum (held : counter.Counts values) (inRange : ∀ v ∈ values, counter.InRange v)
    {F : ℕ → ℝ} (zero : F 0 = 0) :
    (counter.valueCount.map F).sum = ∑ v ∈ values.toFinset, F (values.count v) := by
  have slots : counter.valueCount = (List.range counter.valueCount.length).map fun j =>
      values.count (counter.minValue + UInt64.ofNat j) :=
    List.ext_getElem (by simp) fun j h _ => by simp [held.count j h]
  have inj : Set.InjOn (fun v => (v - counter.minValue).toNat) (values.toFinset : Set UInt64) := by
    intro v _ w _ same
    rw [← base_add_slot counter.minValue v, ← base_add_slot counter.minValue w]
    simp only at same
    rw [same]
  calc (counter.valueCount.map F).sum
      = ∑ j ∈ Finset.range counter.valueCount.length,
          F (values.count (counter.minValue + UInt64.ofNat j)) := by
        conv_lhs => rw [slots]
        rw [List.map_map, ← List.toFinset_range, List.sum_toFinset _ List.nodup_range]
        rfl
    _ = ∑ j ∈ values.toFinset.image fun v => (v - counter.minValue).toNat,
          F (values.count (counter.minValue + UInt64.ofNat j)) := by
        symm
        refine Finset.sum_subset (fun j hj => ?_) fun j hj unused => ?_
        · obtain ⟨v, hv, rfl⟩ := Finset.mem_image.mp hj
          exact Finset.mem_range.mpr (inRange v (List.mem_toFinset.mp hv))
        · -- a slot that no value uses counts zero
          rw [List.count_eq_zero_of_not_mem, zero]
          intro used
          refine unused (Finset.mem_image.mpr ⟨_, List.mem_toFinset.mpr used, ?_⟩)
          have small := Nat.lt_of_lt_of_le (Finset.mem_range.mp hj) held.bound
          exact (slot_eq_iff _ _ small).mpr rfl
    _ = ∑ v ∈ values.toFinset, F (values.count v) := by
        rw [Finset.sum_image inj]
        simp only [base_add_slot]

end TVectorCounter

theorem countTerm_zero (total : ℕ) : countTerm (R := ℝ) total 0 = 0 := by
  simp [countTerm]

theorem foldl_if_eq_sum (total : ℕ) (xs : List ℕ) :
    xs.foldl (fun result kv => if 0 < kv then result + countTerm (R := ℝ) total kv else result) 0 =
      (xs.map (countTerm total)).sum := by
  have skip : (fun (result : ℝ) kv => if 0 < kv then result + countTerm total kv else result) =
      fun result kv => result + countTerm total kv := by
    funext result kv
    split
    · rfl
    · rename_i none
      rw [Nat.eq_zero_of_not_pos none, countTerm_zero, add_zero]
  rw [skip, foldl_add_eq_sum, zero_add]

/-- Counting in a vector that covers every value. -/
theorem countWith_vector {values : List UInt64} {low high : UInt64}
    (inRange : ∀ v ∈ values, (TVectorCounter.ofRange low high).InRange v) :
    countWith (.vector (.ofRange low high)) values = .ok (Empirical.entropy (column values)) := by
  obtain ⟨_, counted, counter, rfl, base, length, held⟩ := foldlM_ok
    (f := IFrequencyCounter.add) (l := values) (s := .vector (.ofRange low high))
    (P := fun done st => ∃ c, st = .vector c ∧ c.minValue = low ∧
      c.valueCount.length = (TVectorCounter.ofRange low high).valueCount.length ∧ c.Counts done)
    ⟨_, rfl, rfl, rfl, TVectorCounter.ofRange_counts⟩
    (by
      rintro done v _ mem - ⟨c, rfl, base, length, held⟩
      have here : c.InRange v := by
        have := inRange v mem
        simpa [TVectorCounter.InRange, base, length, TVectorCounter.ofRange] using this
      obtain ⟨c', added, base', length', held'⟩ := held.add here
      exact ⟨.vector c', by simp [IFrequencyCounter.add, added], c', rfl, base'.trans base,
        length'.trans length, held'⟩)
  have covered : ∀ v ∈ values, counter.InRange v := fun v mem => by
    have := inRange v mem
    simpa [TVectorCounter.InRange, base, length, TVectorCounter.ofRange] using this
  simp only [countWith, counted, ok_bind, pure_eq_ok, IFrequencyCounter.getEntropy,
    TVectorCounter.getEntropy, foldl_if_eq_sum]
  rw [held.sum covered (countTerm_zero _), entropy_column]

/-- Counting in a hash map. -/
theorem countWith_hashMap (values : List UInt64) :
    countWith (.hashMap ⟨[]⟩) values = .ok (Empirical.entropy (column values)) := by
  obtain ⟨_, counted, rfl⟩ := foldlM_ok
    (f := IFrequencyCounter.add) (l := values) (s := .hashMap ⟨[]⟩)
    (P := fun done st => st = .hashMap ⟨countValues done⟩) rfl
    (by
      rintro done v _ - - rfl
      exact ⟨_, rfl, by simp [THashMapCounter.add, countValues]⟩)
  simp only [countWith, counted, ok_bind, pure_eq_ok, IFrequencyCounter.getEntropy,
    THashMapCounter.getEntropy]
  rw [← entropyOfValues_eq, entropyOfValues]

/-- **Whichever counter is built, it counts**, provided every value is in range. -/
theorem countWith_build {values : List UInt64} {low high : UInt64}
    (inRange : ∀ v ∈ values, (buildFrequencyCounter low high).InRange v) :
    countWith (buildFrequencyCounter low high) values = .ok (Empirical.entropy (column values)) := by
  unfold buildFrequencyCounter at inRange ⊢
  simp only at inRange ⊢
  split at inRange
  · rw [if_pos ‹_›]
    exact countWith_hashMap values
  · rw [if_neg ‹_›]
    exact countWith_vector inRange

/-- A vector counter that took every value of a list had a slot for each of them. -/
theorem inRange_of_foldlM {values : List UInt64} {counter : TVectorCounter} {counted : IFrequencyCounter}
    (ran : values.foldlM IFrequencyCounter.add (.vector counter) = .ok counted) :
    ∀ v ∈ values, counter.InRange v := by
  have kept := foldlM_inv (P := fun done st => (∃ c, st = .vector c ∧ c.minValue = counter.minValue ∧
      c.valueCount.length = counter.valueCount.length) ∧ ∀ v ∈ done, counter.InRange v)
    ran ⟨⟨counter, rfl, rfl, rfl⟩, by simp⟩ ?_
  · exact kept.2
  · rintro done v _ st' - ⟨⟨c, rfl, base, length⟩, before⟩ added
    obtain ⟨c', took, last⟩ := bind_eq_ok.mp added
    unfold TVectorCounter.add at took
    split at took
    case isFalse => cases took
    case isTrue here =>
      cases took
      cases last
      refine ⟨⟨_, rfl, base, by simpa using length⟩, fun w mem => ?_⟩
      rcases List.mem_append.mp mem with mem | mem
      · exact before w mem
      · rw [List.mem_singleton.mp mem]
        simpa only [TVectorCounter.InRange, base, length] using here

/-- A counter that returns has taken every value. -/
theorem inRange_of_countWith {values : List UInt64} {low high : UInt64} {result : ℝ}
    (counted : countWith (buildFrequencyCounter low high) values = .ok result) :
    ∀ v ∈ values, (buildFrequencyCounter low high).InRange v := by
  obtain ⟨counter, ran, -⟩ := bind_eq_ok.mp counted
  unfold buildFrequencyCounter at ran ⊢
  simp only at ran ⊢
  split at ran
  · rw [if_pos ‹_›]
    exact fun v _ => trivial
  · rw [if_neg ‹_›]
    exact inRange_of_foldlM ran

/-- Whatever a counter returns is the empirical entropy. -/
theorem countWith_of_ok {values : List UInt64} {low high : UInt64} {result : ℝ}
    (counted : countWith (buildFrequencyCounter low high) values = .ok result) :
    result = Empirical.entropy (column values) := by
  rw [countWith_build (inRange_of_countWith counted)] at counted
  exact (Except.ok.inj counted).symm

/-! ### When the chosen counter covers the values -/

/-- A fold that always keeps one of two values, the one `le` prefers, ends with a value of
the list that `le` prefers to all others. -/
theorem foldl_select_spec (le : UInt64 → UInt64 → Prop) (select : UInt64 → UInt64 → UInt64)
    (refl : ∀ x, le x x) (trans : ∀ {x y z}, le x y → le y z → le x z)
    (choice : ∀ x y, select x y = x ∨ select x y = y)
    (preferred : ∀ x y, le (select x y) x ∧ le (select x y) y) (values : List UInt64) (start : UInt64) :
    values.foldl select start ∈ start :: values ∧
      ∀ v ∈ start :: values, le (values.foldl select start) v := by
  induction values generalizing start with
  | nil => simpa using refl start
  | cons x values ih =>
    rw [List.foldl_cons]
    obtain ⟨mem, best⟩ := ih (select start x)
    have head := best _ List.mem_cons_self
    constructor
    · rcases List.mem_cons.mp mem with eq | mem
      · rw [eq]
        rcases choice start x with same | same <;> rw [same] <;> simp
      · simp [mem]
    · intro v hv
      rcases List.mem_cons.mp hv with rfl | hv
      · exact trans head (preferred v x).1
      · rcases List.mem_cons.mp hv with rfl | hv
        · exact trans head (preferred start v).2
        · exact best v (List.mem_cons_of_mem _ hv)

theorem minMaxElement_spec {values : List UInt64} (some : values ≠ []) :
    ∃ low high, minMaxElement values = .ok (low, high) ∧ low ∈ values ∧ high ∈ values ∧
      ∀ v ∈ values, low ≤ v ∧ v ≤ high := by
  cases values with
  | nil => exact absurd rfl some
  | cons value values =>
    obtain ⟨memLow, least⟩ := foldl_select_spec (fun x y => x ≤ y)
      (fun low x => if x < low then x else low) UInt64.le_refl UInt64.le_trans
      (fun x y => by split <;> simp)
      (fun x y => by
        split
        · exact ⟨UInt64.le_of_lt ‹_›, UInt64.le_refl _⟩
        · exact ⟨UInt64.le_refl _, UInt64.not_lt.mp ‹_›⟩) values value
    obtain ⟨memHigh, greatest⟩ := foldl_select_spec (fun x y => y ≤ x)
      (fun high x => if x < high then high else x) UInt64.le_refl
      (fun h h' => UInt64.le_trans h' h) (fun x y => by split <;> simp)
      (fun x y => by
        split
        · exact ⟨UInt64.le_refl _, UInt64.le_of_lt ‹_›⟩
        · exact ⟨UInt64.not_lt.mp ‹_›, UInt64.le_refl _⟩) values value
    exact ⟨_, _, rfl, memLow, memHigh, fun v hv => ⟨least v hv, greatest v hv⟩⟩

/-- A vector for a range covers it, unless the range is all of `ui64`: then its size wraps
to 0 and the vector has no slots. -/
theorem ofRange_inRange_iff {low high value : UInt64} (above : low ≤ value) (below : value ≤ high) :
    (TVectorCounter.ofRange low high).InRange value ↔
      ¬ (low.toNat = 0 ∧ high.toNat = 2 ^ 64 - 1) := by
  have hl := UInt64.le_iff_toNat_le.mp above
  have hh := UInt64.le_iff_toNat_le.mp below
  have top := UInt64.toNat_lt high
  have size : (high - low + 1).toNat = (high.toNat - low.toNat + 1) % 2 ^ 64 := by
    rw [UInt64.toNat_add, UInt64.toNat_sub_of_le _ _ (UInt64.le_trans above below)]
    rfl
  simp only [TVectorCounter.InRange, TVectorCounter.ofRange, List.length_replicate, size,
    UInt64.toNat_sub_of_le _ _ above]
  omega

/-- **The counter built for a range covers it**, with the same exception: a size that
wraps to 0 selects the vector. -/
theorem buildFrequencyCounter_inRange_iff {low high value : UInt64} (above : low ≤ value)
    (below : value ≤ high) :
    (buildFrequencyCounter low high).InRange value ↔
      ¬ (low.toNat = 0 ∧ high.toNat = 2 ^ 64 - 1) := by
  rw [← ofRange_inRange_iff above below]
  unfold buildFrequencyCounter
  simp only
  split
  case isTrue large =>
    refine ⟨fun _ => (ofRange_inRange_iff above below).mpr fun wraps => ?_, fun _ => trivial⟩
    have zero : high - low + 1 = 0 := by
      have lowZero : low = 0 := UInt64.toNat_inj.mp wraps.1
      have highMax : high = 0xFFFFFFFFFFFFFFFF := UInt64.toNat_inj.mp wraps.2
      rw [lowZero, highMax]
      decide
    rw [zero] at large
    exact absurd large (by decide)
  case isFalse => exact Iff.rfl

/-- Every value of a non-empty column is in range, or the range is all of `ui64`. -/
theorem inRange_all_iff {values : List UInt64} {low high : UInt64} (some : values ≠ [])
    (between : ∀ v ∈ values, low ≤ v ∧ v ≤ high) :
    (∀ v ∈ values, (buildFrequencyCounter low high).InRange v) ↔
      ¬ (low.toNat = 0 ∧ high.toNat = 2 ^ 64 - 1) := by
  constructor
  · intro all
    obtain ⟨v, mem⟩ := List.exists_mem_of_ne_nil _ some
    obtain ⟨above, below⟩ := between v mem
    exact (buildFrequencyCounter_inRange_iff above below).mp (all v mem)
  · intro fine v mem
    obtain ⟨above, below⟩ := between v mem
    exact (buildFrequencyCounter_inRange_iff above below).mpr fine

end Cmicot
